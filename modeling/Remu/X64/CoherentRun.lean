/-
Cache coherence over whole runs.

One instruction keeps a machine sound: calm and transfer steps do so one
by one, a fill remembers what was decoded, and a mode change finds the
fetch cache empty. The one thing that could bring an old mode back is the
rewind of a faulting instruction, and there the mode either never changed
or the instruction has left the fetch cache empty (`Settles`). From the
step the law carries over to any sequence of steps and host calls.
-/
import Remu.X64.Coherence

namespace Remu.X64

variable {π : Type} [Ports π] {α γ : Type}

-- ======== one step

section Steps

variable {s s' : Machine (FlatBus π)}

/-- Memory changes by stamped stores only, so the cache goes on being right. -/
theorem CalmPrim.sound (h : CalmPrim s s') (hs : s.Sound) : s'.Sound := by
  refine ⟨h.tagged hs.toTagged, ?_⟩
  cases h with
  | touch b hb => exact hs.cache.mem hb.mem
  | store first last b hb => exact hs.cache.store hb
  | _ => exact hs.cache

/-- A transfer of control does not touch memory or cache. -/
theorem XferPrim.sound (h : XferPrim s s') (hs : s.Sound) : s'.Sound := by
  refine ⟨h.tagged hs.toTagged, ?_⟩
  cases h with
  | calm h => exact (h.sound hs).cache
  | prepare =>
    unfold Machine.prepared
    split <;> exact hs.cache
  | _ => exact hs.cache

/-- A write of the cold registers may change the decoding mode; the cache is
keyed by it. -/
theorem ColdPrim.sound (h : ColdPrim s s') (hs : s.Sound) : s'.Sound := by
  refine ⟨h.tagged hs.toTagged, ?_⟩
  cases h with
  | xfer h => exact (h.sound hs).cache
  | _ => exact hs.cache

/-- A sequence of cold steps leaves a sound cache sound. -/
theorem ColdSteps.sound (h : ColdSteps s s') (hs : s.Sound) : s'.Sound := by
  induction h with
  | refl => exact hs
  | tail _ hstep ih => exact hstep.sound ih

theorem XferSteps.sound (h : XferSteps s s') (hs : s.Sound) : s'.Sound :=
  h.cold.sound hs

end Steps

-- ======== mode changes

/-- The mode at the end is the one before, or the fetch cache is empty. -/
def Settled {β : Type} (s s' : Machine β) : Prop :=
  s'.regs.SameMode s.regs.toColdRegs ∨ s'.fetchTag = EMPTY

section Settles

variable {β : Type} [Bus β]

/-- A computation after which a rewind may bring the old mode back. -/
def Settles (x : Cold β α) : Prop := ∀ s, Settled s (x.run s).2

/-- A computation that leaves an empty fetch cache empty. -/
def Clears (x : Cold β α) : Prop :=
  ∀ s, s.fetchTag = EMPTY → (x.run s).2.fetchTag = EMPTY

/-- A computation that changes nothing. -/
def Still (x : Cold β α) : Prop := ∀ s, (x.run s).2 = s

/-- The rules of what settles the mode it leaves. -/
theorem Settles.xfer (x : Xfer β α) : Settles (x.lift : Cold β α) :=
  fun s => Or.inl (x.bound s).sameMode

theorem Settles.calm (x : Calm β α) : Settles (x.lift : Cold β α) :=
  fun s => Or.inl (CalmSteps.xfer (x.bound s)).sameMode

theorem Settles.ite (c : Prop) [Decidable c] {x y : Cold β α}
    (hx : Settles x) (hy : Settles y) :
    Settles (if c then x else y) := by
  split
  · exact hx
  · exact hy

theorem Settles.throw (e : Exception) : Settles (throw e : Cold β α) :=
  fun _ => Or.inl ⟨rfl, rfl⟩

/-- Reading the state first. -/
theorem Settles.self {f : Machine β → Cold β α} (hf : ∀ s, Settles (f s)) :
    Settles (self >>= f) := fun s => hf s s

/-- A calm computation first. -/
theorem Settles.bind {x : Calm β α} {f : α → Cold β γ}
    (hf : ∀ a, Settles (f a)) :
    Settles (x.lift >>= f) := by
  intro s
  have hx := (CalmSteps.xfer (x.bound s)).sameMode
  rw [Bounded.run_bind, Bounded.run_lift, Fallible.bind_apply]
  rcases hrun : x.run s with ⟨e | a, s'⟩ <;> rw [hrun] at hx
  · exact Or.inl hx
  · rcases hf a s' with hmode | htag
    · exact Or.inl ⟨hmode.1.trans hx.1, hmode.2.trans hx.2⟩
    · exact Or.inr htag

/-- Nothing behind. -/
theorem Settles.still {x : Cold β α} {f : α → Cold β γ} (hx : Settles x)
    (hf : ∀ a, Still (f a)) :
    Settles (x >>= f) := by
  intro s
  have hs := hx s
  rw [Bounded.run_bind, Fallible.bind_apply]
  rcases hrun : x.run s with ⟨e | a, s'⟩ <;> rw [hrun] at hs
  · exact hs
  · dsimp only
    rw [hf a s']
    exact hs

/-- Something that changes nothing first. -/
theorem Settles.behind {x : Cold β α} {f : α → Cold β γ} (hx : Still x)
    (hf : ∀ a, Settles (f a)) : Settles (x >>= f) := by
  intro s
  have hs := hx s
  rw [Bounded.run_bind, Fallible.bind_apply]
  rcases hrun : x.run s with ⟨e | a, s'⟩ <;> rw [hrun] at hs
  · cases hs
    exact Or.inl ⟨rfl, rfl⟩
  · cases hs
    exact hf a _

/-- The rules of what does not move the mode. -/
theorem Still.raiseIf (c : Prop) [Decidable c] (e : Exception) :
    Still (raiseIf c e : Cold β Unit) := by
  intro s
  rw [run_raiseIf]
  split <;> rfl

theorem Still.pure (a : α) : Still (pure a : Cold β α) := fun _ => rfl

/-- A sequence stands still where its parts do. -/
theorem Still.bind {x : Cold β α} {f : α → Cold β γ} (hx : Still x)
    (hf : ∀ a, Still (f a)) :
    Still (x >>= f) := by
  intro s
  have hs := hx s
  rw [Bounded.run_bind, Fallible.bind_apply]
  rcases hrun : x.run s with ⟨e | a, s'⟩ <;> rw [hrun] at hs
  · exact hs
  · exact (hf a s').trans hs

/-- A mode change with the fetch cache left empty behind it. -/
theorem Settles.mode {g : Registers → Except Exception Registers}
    {hg : KeepsMode g}
    {f : Unit → Cold β α} (hf : Clears (f ())) :
    Settles (modeWrite g hg >>= f) := by
  intro s
  rw [Bounded.run_bind, Fallible.bind_apply, run_modeWrite]
  cases g s.regs with
  | ok r => exact Or.inr (hf _ s.fetchTag_prepared)
  | error e => exact Or.inr s.fetchTag_prepared

theorem Clears.pure (a : α) : Clears (pure a : Cold β α) := fun _ h => h

/-- The rules of what may follow a change of mode. -/
theorem Clears.setCycles (n : U64) : Clears (setCycles n : Cold β Unit) :=
  fun _ h => h

theorem Clears.flushTlb : Clears (flushTlb.lift : Cold β Unit) :=
  fun _ _ => rfl

theorem Clears.whenever (c : Prop) [Decidable c]
    {m : Cold β Unit} (hm : Clears m) :
    Clears (whenever c m) := by
  unfold X64.whenever
  split
  · exact hm
  · exact .pure ()

/-- A sequence clears where its parts do. -/
theorem Clears.bind {x : Cold β α} {f : α → Cold β γ} (hx : Clears x)
    (hf : ∀ a, Clears (f a)) :
    Clears (x >>= f) := by
  intro s h
  have hs := hx s h
  rw [Bounded.run_bind, Fallible.bind_apply]
  rcases hrun : x.run s with ⟨e | a, s'⟩ <;> rw [hrun] at hs
  · exact hs
  · exact hf a s' hs

-- ------------------------------------------------------- the four changers

/-- The instructions that write control registers. -/
theorem settles_clts : Settles (clts : Cold β U32) :=
  .bind fun _ => .mode (.pure _)

theorem settles_lmsw (op : Operand) : Settles (lmsw op : Cold β U32) :=
  .bind fun _ => .bind fun _ => .mode (Clears.flushTlb.bind fun _ => .pure _)

theorem settles_movCrR : Settles (movCrR : Cold β U32) := by
  refine .bind fun _ => .bind fun m => .self fun s => ?_
  unfold writeCr
  rw [bind_assoc]
  exact .mode ((Clears.whenever _ .flushTlb).bind fun _ => .pure _)

/-- WRMSR to EFER is the one that changes long mode. -/
theorem settles_wrmsrArm : Settles (wrmsrArm : Cold β U32) := by
  refine .bind fun _ => .self fun s => ?_
  dsimp only
  split
  · exact .mode ((Clears.setCycles _).bind fun _ => .pure _)
  · exact .mode ((Clears.whenever _ .flushTlb).bind fun _ => .pure _)

theorem settles_group7 : Settles (group7 : Cold β U32) := by
  refine .bind fun p => .self fun s => ?_
  refine .ite _ (.calm _) (.ite _ (.calm _) (.ite _ (.xfer _) (.ite _ (.calm _)
    (.ite _ (settles_lmsw _) (.ite _ ?_ (.throw _))))))
  cases p.2 with
  | mem seg off => exact .calm _
  | reg rm => exact .ite _ (.xfer _) (.ite _ (.calm _) (.throw _))

-- ---------------------------------------------------------- the whole map

theorem settles_dispatch0F (opcode : U8) :
    Settles (dispatch0F opcode : Cold β U32) := by
  refine .self fun s => ?_
  refine .behind (.raiseIf _ _) fun _ => .ite _ ?_ (.ite _ (.xfer _) (.calm _))
  exact .ite _ settles_group7
    (.ite _ settles_clts (.ite _ settles_movCrR settles_wrmsrArm))

/-- Every opcode settles. -/
theorem settles_dispatch (opcode : U8) :
    Settles (dispatch opcode : Cold β U32) :=
  .ite _ (.bind settles_dispatch0F) (.ite _ (.xfer _) (.calm _))

end Settles

-- ======== one instruction

section Instruction

variable {s s' : Machine (FlatBus π)}

/-- An instruction keeps a machine sound, and its mode settles. -/
def Kept (s s' : Machine (FlatBus π)) : Prop := s'.Sound ∧ Settled s s'

/-- A calm computation keeps a sound cache. -/
theorem kept_calm {x : Calm (FlatBus π) α} (hs : s.Sound) :
    Kept s (x.run s).2 :=
  ⟨(CalmSteps.xfer (x.bound s)).sound hs,
    Or.inl (CalmSteps.xfer (x.bound s)).sameMode⟩

/-- Another part of an instruction, the mode unchanged so far. -/
theorem Kept.trans {s₀ : Machine (FlatBus π)}
    (hmode : s.regs.SameMode s₀.regs.toColdRegs)
    (h : Kept s s') : Kept s₀ s' := by
  refine ⟨h.1, h.2.imp_left fun hmode' => ?_⟩
  exact ⟨hmode'.1.trans hmode.1, hmode'.2.trans hmode.2⟩

/-- A cold computation that settles its mode keeps a sound cache. -/
theorem kept_cold {x : Cold (FlatBus π) α} (hx : Settles x) (hs : s.Sound) :
    Kept s (x.run s).2 := ⟨ColdSteps.sound (x.bound s) hs, hx s⟩

/-- An instruction executed without the cache. -/
theorem kept_runFused (opcode : U8) (npfx : U32) (hs : s.Sound) :
    Kept s ((runFused opcode npfx).run s).2 := by
  refine kept_cold (.still (settles_dispatch opcode) fun c => ?_) hs
  exact .bind (x := self) (fun _ => rfl) fun s =>
    (Still.raiseIf _ _).bind fun _ => .pure _

/-- A tail that returns a cycle count changes nothing. -/
theorem kept_count {x : Exec (FlatBus π) U32} {f : U32 → U32}
    (h : Kept s (x s).2) :
    Kept s ((x >>= fun c => pure (f c)) s).2 := by
  rw [Fallible.bind_apply]
  rcases hrun : x s with ⟨e | a, s'⟩ <;> rw [hrun] at h <;> exact h

/-- A hot record runs calmly. -/
theorem kept_execDecoded (d : DecodedInsn) (f : U32 → U32) (hs : s.Sound) :
    Kept s (((execDecoded d).run >>= fun c => pure (f c) : Exec (FlatBus π) U32) s).2 :=
  kept_count (kept_calm hs)

/-- Decode, remember, execute. -/
theorem kept_runDecoded {s₁ : Machine (FlatBus π)}
    {p : U8 × U32} (hs : s.Sound)
    (hm64 : s.m64 = s.mode64)
    (hscan : scanPrefixes.run s.resetDecode = (.ok p, s₁))
    (hs₁ : s₁.Sound) (hlock : s₁.lock = false) (hrep : s₁.rep = none) :
    Kept s₁ (runDecoded s.icachePhys p.1 p.2 s₁).2 := by
  unfold runDecoded
  have hdec := kept_calm (x := tryDecode p.1 p.2) hs₁
  have hmode := (CalmSteps.xfer ((tryDecode p.1 p.2).bound s₁)).sameMode
  rw [Fallible.bind_apply]
  rcases hr : (tryDecode p.1 p.2).run s₁ with ⟨e | r, s₂⟩
    <;> rw [hr] at hdec hmode
  · exact hdec
  · cases r with
    | hot d =>
      have hfill := hs.icacheFill hm64 hscan hlock hrep hr hdec.1
      have hregs : (s₂.icacheFill s.icachePhys d).regs = s₂.regs := by
        cases s.icachePhys <;> rfl
      refine Kept.trans (s := s₂.icacheFill s.icachePhys d) ?_
        (kept_execDecoded d _ hfill)
      rw [hregs]
      exact hmode
    | cold0F op2 =>
      exact .trans hmode
        (kept_count (kept_cold (settles_dispatch0F op2) hdec.1))
    | cold => exact .trans hmode (kept_runFused p.1 p.2 hdec.1)

/-- An instruction interpreted and filled into the cache: the record is what
the bytes decode to. -/
theorem kept_interpret (hs : s.Sound) (hm64 : s.m64 = s.mode64) :
    Kept s.resetDecode (interpret true s.icachePhys s.resetDecode).2 := by
  have hs₀ : s.resetDecode.Sound :=
    ⟨⟨hs.tagged, hs.framed, hs.modeOk⟩, hs.cache⟩
  unfold interpret
  have hscan := kept_calm (x := scanPrefixes) hs₀
  have hmode := (CalmSteps.xfer (scanPrefixes.bound s.resetDecode)).sameMode
  rw [Fallible.bind_apply]
  rcases hp : scanPrefixes.run s.resetDecode with ⟨e | p, s₁⟩
    <;> rw [hp] at hscan hmode
  · exact hscan
  refine .trans hmode ?_
  obtain ⟨hs₁, -⟩ := hscan
  have hscreen :
    (lockScreen p.1).run s₁ = if s₁.lock ∧ p.1 ≠ 0x0F ∧ !lockCandidate p.1 then
      (.error Exception.ud, s₁) else (.ok (), s₁) := by
    rw [lockScreen, Bounded.run_bind, Fallible.bind_of_ok (run_self s₁),
      run_raiseIf]
  dsimp only
  by_cases hc : s₁.lock ∧ p.1 ≠ 0x0F ∧ !lockCandidate p.1
  · rw [Fallible.bind_of_error (hscreen.trans (if_pos hc))]
    exact ⟨hs₁, Or.inl ⟨rfl, rfl⟩⟩
  rw [Fallible.bind_of_ok (hscreen.trans (if_neg hc)),
    Fallible.bind_of_ok (Fallible.get_apply s₁)]
  split
  case isTrue hhot =>
    simp only [Bool.true_and, Bool.and_eq_true, Bool.not_eq_true',
      Option.isNone_iff_eq_none] at hhot
    exact kept_runDecoded hs hm64 hp hs₁ hhot.1 hhot.2
  case isFalse => exact kept_runFused p.1 p.2 hs₁

/-- One instruction through the cache. -/
theorem kept_execOne (hs : s.Sound) : Kept s (execOne s).2 := by
  have hs₀ : s.begin.Sound := ⟨⟨hs.tagged, hs.framed, hs.modeOk⟩, hs.cache⟩
  unfold execOne
  rw [Fallible.bind_of_ok (Fallible.modify_apply _ _),
    Fallible.bind_of_ok (Fallible.get_apply _)]
  cases s.begin.probe with
  | some d =>
    have hs₁ : (s.begin.beginDecoded d).Sound :=
      ⟨⟨hs.tagged, hs.framed, hs.modeOk⟩, hs.cache⟩
    exact .trans (s := s.begin.beginDecoded d) ⟨rfl, rfl⟩
      (kept_execDecoded d _ hs₁)
  | none =>
    exact .trans (s := s.begin.resetDecode) ⟨rfl, rfl⟩ (kept_interpret hs₀ rfl)

/-- A rewound instruction leaves a sound machine: the mode it started in
never left, or there is no cached fetch translation. -/
theorem Machine.Sound.rewind (hs : s.Sound) (h : Kept s s')
    (hcold : s'.coldAtStart = s.regs.toColdRegs) (savedGpr : U8 → U64) :
    (s'.rewind savedGpr).Sound := by
  obtain ⟨hs', hmode⟩ := h
  by_cases hcommit : s'.commitOnFault = true
  · have hrewind : s'.rewind savedGpr
      = { s' with regs := { s'.regs with rip := s'.startRip } } :=
      if_pos hcommit
    rw [hrewind]
    exact ⟨hs'.toTagged.regs ⟨rfl, rfl⟩, hs'.cache⟩
  · have hrewind :
      s'.rewind savedGpr = { s' with regs := (s'.rewind savedGpr).regs } := by
      rw [Machine.rewind, if_neg hcommit]
    have hregs :=
      Machine.regs_rewind (Bool.eq_false_of_not_eq_true hcommit) savedGpr
    rw [hrewind, hregs, hcold]
    refine ⟨⟨fun hoff => ?_, hs'.framed, hs.modeOk⟩, hs'.cache⟩
    rcases hmode with hmode | htag
    · exact hs'.tagged ((paging_of_sameMode s.toCpu s'.toCpu hmode).trans hoff)
    · exact htag

/-- Delivering an exception keeps the cache. -/
theorem Machine.Sound.deliver (hs : s.Sound) (e : Exception) (cls : Event) :
    (deliver e cls s).Sound := by
  have hchain : ∀ n e cls inDouble (s : Machine (FlatBus π)), s.Sound →
      (deliverChain n e cls inDouble s).Sound := by
    intro n
    induction n with
    | zero =>
      intro e cls inDouble s hs
      exact ⟨⟨hs.tagged, hs.framed, hs.modeOk⟩, hs.cache⟩
    | succ n ih =>
      intro e cls inDouble s hs
      have hraise := ((raise e cls).bound s).sound hs
      unfold deliverChain
      rcases hr : (raise e cls).run s with ⟨nested | ⟨⟩, s₁⟩
        <;> rw [hr] at hraise
      · dsimp only
        split
        · exact ⟨⟨hraise.tagged, hraise.framed, hraise.modeOk⟩, hraise.cache⟩
        split
        · exact ih _ _ _ _ hraise
        · exact ih _ _ _ _ hraise
      · exact hraise
  exact hchain 4 e cls false s hs

/-- Counting cycles keeps the cache. -/
theorem Machine.Sound.addCycles (hs : s.Sound) (n : U32) :
    (s.addCycles n).Sound :=
  ⟨⟨hs.tagged, hs.framed, hs.modeOk⟩, hs.cache⟩

/-- An instruction with its rewind. -/
theorem sound_execRewound (hs : s.Sound) : (execRewound s).2.Sound := by
  have hkept := kept_execOne hs
  have hcold := (execOne_rewindable s).1
  unfold execRewound
  rcases hr : execOne s with ⟨e | c, s'⟩ <;> rw [hr] at hkept hcold
  · have hrewind := hs.rewind hkept hcold s.regs.gpr
    dsimp only [faultEpilogue]
    split
    · exact Machine.Sound.addCycles
        (s := (s'.rewind s.regs.gpr).hostTrapped (.exception e))
        ⟨⟨hrewind.tagged, hrewind.framed, hrewind.modeOk⟩, hrewind.cache⟩ _
    · exact hrewind.deliver e .fault
  · exact hkept.1

-- ======== one step

/-- A fast step leaves the cache sound; likewise each kind of step below. -/
theorem sound_stepFast (hs : s.Sound) : (stepFast s).2.Sound := by
  have h := sound_execRewound hs
  unfold stepFast
  rcases hr : execRewound s with ⟨_ | c, s'⟩ <;> rw [hr] at h
  · exact h
  · exact h.addCycles c

theorem sound_stepTraced (hs : s.Sound) : (stepTraced s).2.Sound := by
  have h := sound_execRewound hs
  unfold stepTraced
  dsimp only
  rcases hr : execRewound s with ⟨_ | c, s'⟩ <;> rw [hr] at h
  · exact h
  · dsimp only
    split
    · exact (h.deliver _ _).addCycles _
    · exact h.addCycles c

theorem sound_deliverExternal (hs : s.Sound) (vector : U8) :
    (deliverExternal vector s).2.Sound :=
  (Machine.Sound.deliver (s := { s with halted := false })
    ⟨⟨hs.tagged, hs.framed, hs.modeOk⟩, hs.cache⟩ _ _).addCycles _

/-- The latches do not matter. -/
theorem Machine.Sound.latch (hs : s.Sound) (events : U8) (intr : Option U8) :
    Machine.Sound { s with events := events, intr := intr } :=
  ⟨⟨hs.tagged, hs.framed, hs.modeOk⟩, hs.cache⟩

theorem sound_stepSlow (hs : s.Sound) : (stepSlow s).2.Sound := by
  unfold stepSlow
  dsimp only
  split
  · exact (hs.latch _ s.intr).addCycles 1
  split
  · exact sound_deliverExternal (hs.latch _ s.intr) 2
  split
  · exact sound_deliverExternal (hs.latch _ none) _
  · split
    · exact (hs.latch _ s.intr).addCycles 1
    · exact sound_stepTraced (hs.latch _ s.intr)

/-- One step. -/
theorem sound_step (hs : s.Sound) : (step s).2.Sound := by
  unfold step
  split
  · exact sound_stepSlow hs
  · exact sound_stepFast hs

end Instruction

-- ======== a probe

/-- A translated fetch address keeps the page offset. -/
theorem Machine.Tagged.phys_offset {β : Type} {s : Machine β}
    (h : s.Tagged) {phys : U64}
    (hphys : s.icachePhys = some phys) :
    phys &&& 0xFFF = s.fetchLin &&& 0xFFF := by
  rw [Cpu.icachePhys] at hphys
  split at hphys
  · cases hphys
    rfl
  split at hphys
  · cases hphys
    exact Word.offset_or _ _ (Frame.aligned ⟨s.fetchPage, h.framed⟩)
  · cases hphys

/-- Canonicality is a matter of the page. -/
theorem canonical_add (a : U64) {i : Nat} (h : a.toNat % 4096 + i < 4096) :
    canonical (a + BitVec.ofNat 64 i) = canonical a := by
  have hpage : (a + BitVec.ofNat 64 i) >>> 47 = a >>> 47 := by
    rw [show 47 = 12 + 35 from rfl, BitVec.shiftRight_add,
      BitVec.shiftRight_add, Word.page_add a i h]
  rw [canonical, canonical, hpage]

omit [Ports π] in
/-- The check of a hit covers every byte of a record that lies in one
page. -/
theorem readable_of_hit {s : Machine (FlatBus π)} (h : s.Tagged)
    {phys : U64} {d : DecodedInsn}
    (hphys : s.begin.icachePhys = some phys) (hlen : d.len.toNat ≤ 15)
    (hfits : (phys &&& 0xFFF).toNat + d.len.toNat ≤ 0x1000)
    (hok : s.begin.hitOk d = true) :
    Readable s.regs.rip d.len.toNat s.begin.resetDecode := by
  refine ⟨hlen, fun i hi => ?_⟩
  have hoffset : phys &&& 0xFFF = s.begin.fetchLin &&& 0xFFF :=
    Machine.Tagged.phys_offset (s := s.begin) ⟨h.tagged, h.framed, h.modeOk⟩ hphys
  have hlin : s.begin.fetchLin = if s.begin.m64
      then (s.regs.seg reg.CS).base + s.regs.rip
      else ((s.regs.seg reg.CS).base + s.regs.rip) &&& 0xFFFFFFFF := rfl
  show (if s.begin.m64 then canonical ((s.regs.seg reg.CS).base + (s.regs.rip + BitVec.ofNat 64 i))
    else decide ((s.regs.rip + BitVec.ofNat 64 i).toNat
      ≤ (s.regs.seg reg.CS).limit.toNat)) = true
  rw [Cpu.hitOk] at hok
  by_cases hm : s.begin.m64 = true
  · rw [if_pos hm] at hok hlin ⊢
    rw [hoffset, hlin, Word.toNat_and_FFF] at hfits
    rw [← BitVec.add_assoc, canonical_add _ (by omega)]
    exact hok
  · rw [if_neg hm] at hok ⊢
    rw [decide_eq_true_eq] at hok ⊢
    have hsub : (d.len - 1).toNat = d.len.toNat - 1 := by
      rw [BitVec.toNat_sub, show (1 : U8).toNat = 1 from rfl]
      omega
    have hrip : s.begin.startRip = s.regs.rip := rfl
    have hlimit := (s.regs.seg reg.CS).limit.isLt
    rw [hsub, hrip] at hok
    rw [BitVec.toNat_add, BitVec.toNat_ofNat]
    have hcs : (s.begin.regs.seg reg.CS).limit = (s.regs.seg reg.CS).limit := rfl
    rw [hcs] at hok
    omega

/-- On a sound machine whose clock has not wrapped, a probe that passes
returns what a fresh decode would. -/
theorem Machine.Sound.probe {s : Machine (FlatBus π)} (hs : s.Sound)
    (hclock : s.icache.clock < 2 ^ 64) {d : DecodedInsn}
    (hprobe : s.begin.probe = some d) :
    s.freshDecode = some d := by
  have hs₀ : s.begin.Sound := ⟨⟨hs.tagged, hs.framed, hs.modeOk⟩, hs.cache⟩
  obtain ⟨phys, hphys, hat⟩ := Option.bind_eq_some_iff.1 hprobe
  rw [Cpu.probeAt] at hat
  split at hat
  case isFalse => cases hat
  case isTrue hlive =>
  let e : Entry := s.icache.entries (ICache.entrySlot phys)
  have hd : e.insn = d := Option.some.inj hat
  simp only [Cpu.entryLive, Bool.and_eq_true, beq_iff_eq,
    decide_eq_true_eq] at hlive
  obtain ⟨⟨⟨hkey, hstamp⟩, hinval⟩, hok⟩ := hlive
  have hlow := hs₀.phys_low rfl hphys
  have haddr : e.phys = phys := by
    have hk : e.key = phys ||| s.begin.icacheCtx := hkey
    rw [Entry.phys, hk, Cpu.key_phys hlow]
  have hm64 : e.m64 = s.begin.m64 := by
    have hk : e.key = phys ||| s.begin.icacheCtx := hkey
    rw [Entry.m64, hk, Cpu.key_m64 hlow]
  have hdb : e.db = (s.regs.seg reg.CS).db := by
    have hk : e.key = phys ||| s.begin.icacheCtx := hkey
    rw [Entry.db, hk]
    exact Cpu.key_db hlow
  have hgood : e.Good s.bus := by
    refine (hs.cache hclock).live (ICache.entrySlot phys) ⟨?_, hinval⟩
    have hpage : e.page = ICache.stampSlot phys :=
      congrArg ICache.stampSlot haddr
    show (s.icache.stamps e.page).toNat ≤ e.version.toNat
    rw [hpage]
    exact hstamp
  obtain ⟨hshort, hfits, hdec⟩ := hgood
  rw [haddr] at hfits hdec
  rw [hd] at hshort hfits hdec
  have hcode := hs₀.streams (n := d.len.toNat) hphys hfits
  have hread := readable_of_hit hs.toTagged hphys hshort hfits (hd ▸ hok)
  obtain ⟨t, ht⟩ := hdec s.begin hm64.symm hdb.symm hcode hread
  rw [Machine.freshDecode, ht]

-- ======== runs

/-- A step, or something the host does to the processor between steps. -/
inductive Act where
  | step
  | reset
  | setCsIp (sel : U16) (rip : U64)
  | setupLongFlat (rip rsp : U64)
  | triggerNmi
  | assertIntr (vector : U8)
  | clearIntr
  | invalidateIcache
  | invalidateTlb
  /-- The host writes general registers, RIP, RFLAGS and CR2. -/
  | setHot (r : HotRegs)
  /-- The host sets the public flags and hooks. -/
  | setHooks (halted shutdown : Bool) (hostTrap : Option HostTrap)
      (syscallInt : Option U8) (trapSyscall trapFaults : Bool)

/-- One act. -/
def Act.apply (a : Act) (s : Machine (FlatBus π)) : Machine (FlatBus π) :=
  match a with
  | .step => (X64.step s).2
  | .reset => s.reset
  | .setCsIp sel rip => s.setCsIp sel rip
  | .setupLongFlat rip rsp => s.setupLongFlat rip rsp
  | .triggerNmi => s.triggerNmi
  | .assertIntr vector => s.assertIntr vector
  | .clearIntr => s.clearIntr
  | .invalidateIcache => s.invalidateIcache
  | .invalidateTlb => s.invalidateTlb
  | .setHot r => s.withHot r
  | .setHooks halted shutdown hostTrap syscallInt trapSyscall trapFaults =>
    { s with halted, shutdown, hostTrap, syscallInt, trapSyscall, trapFaults }

/-- Acts in order. -/
def runActs (acts : List Act) (s : Machine (FlatBus π)) :
    Machine (FlatBus π) :=
  acts.foldl (fun s a => a.apply s) s

/-- The machine at power-on. -/
def powerOn (b : FlatBus π) : Machine (FlatBus π) := { Cpu.new with bus := b }

/-- The mode after a reset is one the decoder knows. -/
theorem modeOk_new : Registers.new.toColdRegs.ModeOk := ⟨by decide, by decide⟩

theorem modeOk_longFlat {r : Registers} {rip rsp : U64} :
    (Machine.longFlatRegs r rip rsp).toColdRegs.ModeOk := by
  have hset : ∀ k : U64, ~~~(cr0.CD ||| cr0.NW) &&& k = k →
      (cr0.PE ||| cr0.PG) &&& k = k →
      k ≠ 0 → (Machine.longFlatRegs r rip rsp).cr0 &&& k ≠ 0 := by
    intro k hkeep hk h0 hzero
    refine h0 ?_
    have hor : ((r.cr0 ||| (cr0.PE ||| cr0.PG)) &&& ~~~(cr0.CD ||| cr0.NW))
      &&& k = 0 := hzero
    rw [Word.and_and_cover _ hkeep, BitVec.and_or_distrib_right, hk] at hor
    exact (BitVec.or_eq_zero_iff.1 hor).2
  exact ⟨fun _ => hset cr0.PG (by decide) (by decide) (by decide),
    fun _ => hset cr0.PE (by decide) (by decide) (by decide)⟩

/-- An empty cache is right about any memory. -/
theorem sound_powerOn (b : FlatBus π) : (powerOn b).Sound := by
  refine ⟨⟨fun _ => rfl, BitVec.zero_and, modeOk_new⟩, fun _ => ?_⟩
  refine ⟨⟨fun _ => Nat.zero_le _, Nat.le_refl _, fun _ => Nat.zero_le _⟩,
    fun i hl => ?_⟩
  exact absurd hl.2 (Nat.not_succ_le_zero 0)

/-- One action of a run. -/
theorem Act.sound (a : Act) {s : Machine (FlatBus π)} (hs : s.Sound) :
    (a.apply s).Sound := by
  cases a with
  | step => exact sound_step hs
  | reset =>
    exact ⟨⟨fun _ => rfl, hs.framed, modeOk_new⟩, hs.cache.invalidateAll _⟩
  | setCsIp sel rip =>
    exact ⟨⟨fun _ => rfl, hs.framed, ⟨hs.modeOk.paged, hs.modeOk.protect⟩⟩, hs.cache⟩
  | setupLongFlat rip rsp =>
    exact ⟨⟨fun _ => rfl, hs.framed, modeOk_longFlat⟩,
      hs.cache.invalidateAll _⟩
  | triggerNmi => exact hs.latch _ s.intr
  | assertIntr vector => exact hs.latch _ _
  | clearIntr => exact hs.latch _ _
  | invalidateIcache =>
    exact ⟨⟨hs.tagged, hs.framed, hs.modeOk⟩, hs.cache.invalidateAll _⟩
  | invalidateTlb => exact ⟨⟨fun _ => rfl, hs.framed, hs.modeOk⟩, hs.cache⟩
  | setHot r => exact ⟨hs.toTagged.regs ⟨rfl, rfl⟩, hs.cache⟩
  | setHooks => exact ⟨⟨hs.tagged, hs.framed, hs.modeOk⟩, hs.cache⟩

/-- A run from power-on is sound throughout. -/
theorem sound_runActs (b : FlatBus π) (acts : List Act) :
    (runActs acts (powerOn b)).Sound := by
  have hrun : ∀ s : Machine (FlatBus π), s.Sound → (runActs acts s).Sound := by
    induction acts with
    | nil => exact fun s hs => hs
    | cons a acts ih => exact fun s hs => ih _ (a.sound hs)
  exact hrun _ (sound_powerOn b)

/-- Whatever the processor and its host have done since power-on, short of
2^64 clock ticks, a probe that passes returns the record a fresh decode of
memory finds. -/
theorem icache_coherent (b : FlatBus π) (acts : List Act)
    (hclock : (runActs acts (powerOn b)).icache.clock < 2 ^ 64)
    {d : DecodedInsn}
    (hprobe : (runActs acts (powerOn b)).begin.probe = some d) :
    (runActs acts (powerOn b)).freshDecode = some d :=
  (sound_runActs b acts).probe hclock hprobe

/-- A NOP at the reset vector and a jump back to it. -/
def nopLoop : FlatBus Unit where
  mem a := if a = 0xFFFFFFF0 then 0x90 else if a = 0xFFFFFFF1
    then 0xEB else 0xFD
  ports := ()

/-- Once round the loop the NOP is served from the cache, rightly. -/
theorem icache_coherent_nop :
    (runActs [.step, .step] (powerOn nopLoop)).freshDecode.map (·.op)
      = some .Nop := by
  obtain ⟨d, hd⟩ : ∃ d,
    (runActs [.step, .step] (powerOn nopLoop)).begin.probe = some d := ⟨_, rfl⟩
  have hop : (runActs [.step, .step] (powerOn nopLoop)).begin.probe.map (·.op)
    = some .Nop := rfl
  rw [icache_coherent nopLoop [.step, .step] (by decide) hd, ← hop, hd]

-- -------------------------------------------------------- behind the wrap

/-- The host can make the clock tick as often as it likes. -/
theorem run_invalidate (s : Machine (FlatBus π)) (n : Nat) :
    runActs (List.replicate (n + 1) .invalidateIcache) s
      = { s with icache := { s.icache with
            clock := s.icache.clock + (n + 1)
            inval := BitVec.ofNat 64 (s.icache.clock + (n + 1)) } } := by
  induction n generalizing s with
  | zero => rfl
  | succ n ih =>
    have h := ih (Act.apply .invalidateIcache s)
    rw [runActs] at h
    rw [List.replicate_succ, runActs, List.foldl_cons, h]
    have hclock :
      (Act.apply .invalidateIcache s).icache.clock = s.icache.clock + 1 := rfl
    rw [hclock, Nat.add_assoc, Nat.add_comm 1]
    rfl

/-- A NOP, and a store that overwrites it with XCHG EAX, ECX. -/
def overwriteNop : FlatBus Unit where
  mem a :=
    if a = 0xFFFF0 then 0x90
    else if a = 0xFFFF1 then 0x2E
    else if a = 0xFFFF2 then 0xC6
    else if a = 0xFFFF3 then 0x06
    else if a = 0xFFFF4 then 0xF0
    else if a = 0xFFFF5 then 0xFF
    else if a = 0xFFFF6 then 0x91
    else 0
  ports := ()

/-- Run the NOP, let the clock come round to zero, overwrite the NOP and
come back to it. -/
def wrapAround : List Act :=
  [.setCsIp 0xF000 0xFFF0, .step] ++ List.replicate
    (2 ^ 64 - 1) .invalidateIcache
    ++ [.step, .setCsIp 0xF000 0xFFF0]

/-- Behind a wrapped clock the old record looks young: the probe returns
the NOP, memory holds the exchange. -/
theorem icache_stale_after_wrap :
    ∃ d, (runActs wrapAround (powerOn overwriteNop)).begin.probe = some d
      ∧ (runActs wrapAround (powerOn overwriteNop)).freshDecode ≠ some d := by
  have hrun : runActs wrapAround (powerOn overwriteNop)
      = runActs [.step, .setCsIp 0xF000 0xFFF0]
        (runActs (List.replicate (2 ^ 64 - 2 + 1) .invalidateIcache)
          (runActs [.setCsIp 0xF000 0xFFF0, .step]
            (powerOn overwriteNop))) := by
    rw [runActs, wrapAround, List.foldl_append, List.foldl_append]
    rfl
  rw [hrun, run_invalidate]
  refine ⟨_, rfl, fun hfresh => ?_⟩
  have hop := congrArg (Option.map (·.op)) hfresh
  exact absurd (show some Op.XchgAcc = some Op.Nop from hop) (by decide)

end Remu.X64
