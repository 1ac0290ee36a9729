/-
The 386 translation cache never disagrees with the page tables.

`TlbOk` is the invariant of a run: every TLB entry shows the mapping that
the tables have for its page now, on a path that is accessed already and
dirty already if the entry says so. Setting accessed and dirty bits does
not move a mapping, so walks keep it; a flush leaves nothing to be wrong
about; and the instructions that change CR3 flush. Without INVLPG, CR0.WP
and a cached fetch translation there is nothing else to it: privilege is
compared when an entry answers, not when it is filled.
-/
import Remu.Lib.Stamped
import Remu.X32.Step
import Remu.X32.Walk

namespace Remu.X32

open Word ByteRam

variable {β : Type} [Bus β] [Ram β]

-- ======== the invariant

/-- The path of `m` needs no accessed bit, and for a write no dirty bit. -/
structure Machine.PathMarked (s : Machine β) (m : Mapping) (dirty : Bool) :
    Prop where
  accessed : ∀ a ∈ m.path, s.word a &&& pte.A ≠ 0
  dirty : dirty = true → ∀ a, m.path.getLast? = some a → s.word a &&& pte.D ≠ 0

/-- The tables agree with the entry `e` for `page`. -/
def Machine.Vouches (s : Machine β) (page : U32) (e : TlbEntry) : Prop :=
  ∀ lin : U32, lin >>> 12 = page →
    ∃ m, s.mapping lin = some m ∧ e.Shows m ∧ s.PathMarked m e.dirty

/-- Every TLB entry shows the mapping the tables give its page. -/
def Machine.TlbOk (s : Machine β) : Prop :=
  Lookaside.Holds Tlb.slot TlbEntry.tag s.tlb.entries s.Vouches

/-- No linear page number is the tag of an empty slot. -/
theorem page_ne_empty (lin : U32) : lin >>> 12 ≠ EMPTY := by
  intro h
  have hnat := congrArg BitVec.toNat h
  rw [toNat_page, show EMPTY.toNat = 4294967295 from rfl] at hnat
  have := lin.isLt
  omega

/-- A flushed cache has nothing to be wrong about. -/
theorem Machine.TlbOk.of_flushed {s : Machine β}
    (htlb : ∀ i, (s.tlb.entries i).tag = EMPTY) :
    s.TlbOk := by
  refine Lookaside.Holds.of_entries fun i => ?_
  rw [htlb i]
  exact fun lin h => absurd h (page_ne_empty lin)

-- ======== keeping the tables

/-- The mappings stay, and the entries behind them only gain marks. -/
structure Machine.Keeps (s s' : Machine β) : Prop where
  mapping : ∀ {lin m}, s.mapping lin = some m → s'.mapping lin = some m
  grows : ∀ {lin m}, s.mapping lin = some m → ∀ a ∈ m.path,
    Grows pte.MARKS (s.word a) (s'.word a)

/-- Marks that were set stay set. -/
theorem Machine.Keeps.pathMarked {s s' : Machine β} (h : s.Keeps s')
    {lin : U32} {m : Mapping}
    (hm : s.mapping lin = some m) {d : Bool} (hp : s.PathMarked m d) :
    s'.PathMarked m d where
  accessed a ha := (h.grows hm a ha).ne_zero (hp.accessed a ha)
  dirty hd a ha :=
    (h.grows hm a (List.mem_of_getLast? ha)).ne_zero (hp.dirty hd a ha)

/-- An entry that shows its mapping goes on doing so while the tables grow
marks only. -/
theorem Machine.Keeps.vouches {s s' : Machine β} (h : s.Keeps s')
    {page : U32} {e : TlbEntry}
    (hv : s.Vouches page e) : s'.Vouches page e := by
  intro lin hlin
  obtain ⟨m, hm, hshows, hmarked⟩ := hv lin hlin
  exact ⟨m, h.mapping hm, hshows, h.pathMarked hm hmarked⟩

/-- What keeps the tables and the TLB keeps their agreement. -/
theorem Machine.Keeps.tlbOk {s s' : Machine β} (h : s.Keeps s') (hok : s.TlbOk)
    (htlb : s'.tlb = s.tlb) : s'.TlbOk := by
  rw [Machine.TlbOk, htlb]
  exact Lookaside.Holds.mono hok fun _ _ => h.vouches

/-- The entries a mapping depends on. -/
def Machine.TableEntry (s : Machine β) (a : U32) : Prop :=
  ∃ lin m, s.mapping lin = some m ∧ a ∈ m.path

/-- A change that leaves CR3 and every table entry as they are. -/
theorem Machine.Keeps.of_same {s s' : Machine β}
    (hcr3 : s'.regs.cr3 = s.regs.cr3)
    (hent : ∀ a, s.TableEntry a → s'.word a = s.word a) : s.Keeps s' where
  mapping {lin m} hm := by
    rw [Machine.mapping, hcr3]
    exact tableMapping_congr hm fun a ha => by rw [hent a ⟨lin, m, hm, ha⟩]
  grows {lin m} hm a ha := by
    rw [hent a ⟨lin, m, hm, ha⟩]
    exact .refl _ _

/-- The tables are in memory and in CR3. -/
theorem Machine.Keeps.of_bus {s t : Machine β} (hcr3 : t.regs.cr3 = s.regs.cr3)
    (hbus : t.bus = s.bus) : s.Keeps t :=
  .of_same hcr3 fun a _ => by rw [word, word, hbus]

-- ======== walks

section Walk

variable {s s' : Machine β} {lin : U32} {write : Bool} {m : Mapping}

/-- After a walk a table word is the one before with the path's marks set. -/
theorem Machine.Walked.word (h : s.Walked lin write m s') (a : U32) :
    s'.word a = get32 (markPath write s.word m.path s.bus) a := by
  obtain ⟨ic, e, rfl, -⟩ := h.state
  rfl

theorem Machine.Walked.cr3 (h : s.Walked lin write m s') :
    s'.regs.cr3 = s.regs.cr3 := by
  obtain ⟨ic, e, rfl, -⟩ := h.state
  rfl

/-- A walk grows marks in the tables and changes nothing else. -/
theorem Machine.Walked.marked (h : s.Walked lin write m s')
    (hm : s.mapping lin = some m) (a : U32)
    (ha : a.toNat % 4 = 0) : Grows pte.MARKS (s.word a) (s'.word a) := by
  rw [h.word]
  exact EntryMemory.marked_markPath (E := tableEntries) (M := pteMarks)
    (fun _ _ _ => trivial) (tableMapping_aligned hm) (.refl _) a ha

/-- A walk moves no mapping. -/
theorem Machine.Walked.keeps (h : s.Walked lin write m s')
    (hm : s.mapping lin = some m) :
    s.Keeps s' where
  mapping {lin' m'} hm' := by
    rw [Machine.mapping, h.cr3]
    exact tableMapping_congr hm' fun a ha =>
      (h.marked hm a (tableMapping_aligned hm' a ha)).outside
  grows hm' a ha := h.marked hm a (tableMapping_aligned hm' a ha)

/-- After a walk its own path is marked. -/
theorem Machine.Walked.pathMarked (h : s.Walked lin write m s')
    (hm : s.mapping lin = some m) :
    s'.PathMarked m write where
  accessed a ha := by
    rw [h.word]
    exact EntryMemory.markPath_accessed (E := tableEntries) (M := pteMarks)
      (fun _ _ _ => trivial) (tableMapping_aligned hm) (.refl _) ha
  dirty hd a ha := by
    rw [h.word, hd]
    exact EntryMemory.markPath_dirty (E := tableEntries) (M := pteMarks)
      (fun _ _ _ => trivial) (tableMapping_aligned hm) (.refl _) ha

/-- A walk keeps the invariant. -/
theorem Machine.Walked.tlbOk (h : s.Walked lin write m s')
    (hm : s.mapping lin = some m) (hok : s.TlbOk) : s'.TlbOk := by
  have hkeeps := h.keeps hm
  have hmarked := h.pathMarked hm
  obtain ⟨ic, e, hs', htag, hshows, hdirty⟩ := h.state
  have hnew : s'.Vouches e.tag e := by
    intro lin' hlin'
    rw [htag] at hlin'
    refine ⟨m, hkeeps.mapping ((s.mapping_page hlin').trans hm), hshows,
      hmarked.accessed, ?_⟩
    intro hd a ha
    -- The new entry is dirty because the walk wrote, or because the leaf was.
    rcases hdirty hd with hw | hleaf
    · exact hmarked.dirty hw a ha
    · exact (hkeeps.grows hm a (List.mem_of_getLast? ha)).ne_zero (hleaf a ha)
  have hold : Lookaside.Holds Tlb.slot TlbEntry.tag s.tlb.entries s'.Vouches :=
    Lookaside.Holds.mono hok fun _ _ => hkeeps.vouches
  have hentries :
    s'.tlb.entries = upd s.tlb.entries (Tlb.slot (lin >>> 12)) e := by rw [hs']
  rw [Machine.TlbOk, hentries]
  exact hold.replace hnew

end Walk

-- ======== translations

/-- The physical address of `lin` as the tables have it, for an access
they grant and have been marked for. -/
def Machine.Granted (s : Machine β) (lin : U32) (write : Bool) (p : U32) : Prop :=
  ∃ m, s.mapping lin = some m ∧ p = m.frame ||| (lin &&& 0xFFF)
    ∧ s.PathMarked m write ∧ s.walkPermits write m.user m.writable = true

/-- The TLB entry that would answer an access to `lin`. -/
def Machine.tlbHit (s : Machine β) (lin : U32) (write : Bool) : Bool :=
  let e := s.tlb.entries (Tlb.slot (lin >>> 12))
  e.tag = lin >>> 12 && s.tlbPermits e write

/-- The address a TLB hit gives. -/
def Machine.tlbPhys (s : Machine β) (lin : U32) : U32 :=
  (s.tlb.entries (Tlb.slot (lin >>> 12))).phys ||| (lin &&& 0xFFF)

omit [Ram β] in
/-- A hit is answered without touching anything. -/
theorem run_translate_hit {s : Machine β} {lin : U32} {write : Bool}
    (h : s.tlbHit lin write = true) :
    ∃ q, (translate lin write).run s = (.ok q, s) ∧ q.val = s.tlbPhys lin := by
  unfold translate
  dsimp only [Machine.tlbHit] at h
  rw [Bounded.run_bind, Fallible.bind_of_ok (run_self s)]
  dsimp only
  rw [if_pos h]
  exact ⟨_, rfl, rfl⟩

omit [Ram β] in
/-- A miss walks the tables. -/
theorem run_translate_miss {s : Machine β} {lin : U32} {write : Bool}
    (h : s.tlbHit lin write = false) :
    (translate lin write).run s = (walk lin write).run s := by
  unfold translate
  dsimp only [Machine.tlbHit] at h
  rw [Bounded.run_bind, Fallible.bind_of_ok (run_self s)]
  dsimp only
  rw [if_neg (by rw [h]; decide)]

omit [Bus β] [Ram β] in
/-- What an entry permits, the same check of a walk grants; and an entry
that permits a write is dirty. -/
theorem Machine.walkPermits_of_permits {s : Machine β}
    {e : TlbEntry} {write : Bool} (h : s.tlbPermits e write = true) :
    s.walkPermits write e.user e.writable = true
      ∧ (write = true → e.dirty = true) := by
  obtain ⟨hprot, hdirty⟩ := Bool.and_eq_true_iff.1 h
  refine ⟨?_, fun hw => ?_⟩
  · rw [Cpu.walkPermits]
    revert hprot
    cases s.userAccess <;> cases e.user <;> cases e.writable
      <;> cases write <;> decide
  · rw [hw] at hdirty
    exact hdirty

/-- The tables grant what an entry they vouch for may answer. -/
theorem Machine.Vouches.granted {s : Machine β} {lin : U32}
    {write : Bool} {e : TlbEntry}
    (hv : s.Vouches (lin >>> 12) e)
    (hperm : s.walkPermits write e.user e.writable = true)
    (hdirty : write = true → e.dirty = true) :
    s.Granted lin write (e.phys ||| (lin &&& 0xFFF)) := by
  obtain ⟨m, hm, hshows, hmarked⟩ := hv lin rfl
  refine ⟨m, hm, by rw [hshows.phys],
    ⟨hmarked.accessed, fun hw => hmarked.dirty (hdirty hw)⟩, ?_⟩
  rw [← hshows.user, ← hshows.writable]
  exact hperm

/-- Every hit is granted. -/
theorem Machine.TlbOk.granted {s : Machine β} (hok : s.TlbOk)
    {lin : U32} {write : Bool}
    (h : s.tlbHit lin write = true) : s.Granted lin write (s.tlbPhys lin) := by
  obtain ⟨htag, hperm⟩ := Bool.and_eq_true_iff.1 h
  obtain ⟨hwalk, hdirty⟩ := Machine.walkPermits_of_permits hperm
  have hlook := Lookaside.look_eq_some.2 ⟨of_decide_eq_true htag, rfl⟩
  exact Machine.Vouches.granted (hok _ _ hlook) hwalk hdirty

/-- So is every probe of the fetch path, at the privilege it is made. -/
theorem Machine.TlbOk.peekGranted {s : Machine β} (hok : s.TlbOk) {lin p : U32}
    (h : s.tlb.peek lin (s.cpl == 3) = some p) : s.Granted lin false p := by
  unfold Tlb.peek at h
  dsimp only at h
  split at h
  case isFalse => cases h
  case isTrue hpeek =>
  cases h
  obtain ⟨htag, huser⟩ := Bool.and_eq_true_iff.1 hpeek
  have hlook := Lookaside.look_eq_some.2 ⟨of_decide_eq_true htag, rfl⟩
  refine Machine.Vouches.granted (hok _ _ hlook) ?_ nofun
  -- A supervisor override can only widen what the probe saw.
  rw [Cpu.walkPermits, Cpu.userAccess]
  revert huser
  cases s.cpl == 3 <;> cases s.supervisorOverride <;> simp

/-- Where an access is granted a walk gives the same address, and it
writes nothing. -/
theorem Machine.Granted.run_walk {s : Machine β} {lin : U32}
    {write : Bool} {p : U32} (h : s.Granted lin write p) :
    ∃ q s', (walk lin write).run s = (.ok q, s') ∧ q.val = p
      ∧ s'.bus = s.bus := by
  obtain ⟨m, hm, hp, hmarked, hperm⟩ := h
  have hrun := X32.run_walk lin write s
  rcases hw : (walk lin write).run s with ⟨e | q, s'⟩ <;> rw [hw] at hrun
  · exact absurd (hrun.2 m hm) (by rw [hperm]; decide)
  · obtain ⟨m', hm', -, hq, hwalked⟩ := hrun
    rw [hm] at hm'
    cases hm'
    obtain ⟨ic, e, rfl, -⟩ := hwalked.state
    refine ⟨q, _, rfl, hq.trans hp.symm, ?_⟩
    exact EntryMemory.markPath_of_marked hmarked.accessed hmarked.dirty

/-- A translation leaves the TLB right: a hit moves nothing, a miss fills in
what it walked. -/
theorem Machine.TlbOk.translate {s : Machine β} (hok : s.TlbOk)
    (lin : U32) (write : Bool) :
    ((X32.translate lin write).run s).2.TlbOk := by
  cases hhit : s.tlbHit lin write with
  | true =>
    obtain ⟨q, hrun, -⟩ := run_translate_hit hhit
    rw [hrun]
    exact hok
  | false =>
    rw [run_translate_miss hhit]
    have hrun := run_walk lin write s
    rcases hw : (walk lin write).run s with ⟨e | q, s'⟩ <;> rw [hw] at hrun
    · obtain ⟨rfl, -⟩ := hrun
      exact (Machine.Keeps.of_bus (s := s) (t := s.faulted lin) rfl rfl).tlbOk hok rfl
    · obtain ⟨m, hm, -, -, hwalked⟩ := hrun
      exact hwalked.tlbOk hm hok

-- ======== computations

/-- A computation that keeps the cache sound, done or faulted. -/
def Soundly {α : Type} {R : Machine β → Machine β → Prop}
    (x : Bounded R Exception α) : Prop :=
  ∀ s, Machine.TlbOk s → (x.run s).2.TlbOk

namespace Soundly

variable {α γ : Type} {R : Machine β → Machine β → Prop}
  [IsPreorder (Machine β) R]

/-- The closure rules; the control instructions are put together by them. -/
theorem pure (a : α) : Soundly (Pure.pure a : Bounded R Exception α) :=
  fun _ h => h

/-- What goes by the state is sound if it is so at every state. -/
theorem self {f : Machine β → Bounded R Exception α}
    (hf : ∀ s, Soundly (f s)) :
    Soundly (self >>= f) := fun s h => hf s s h

/-- A sequence is sound where its parts are. -/
theorem bind {x : Bounded R Exception α} {f : α → Bounded R Exception γ}
    (hx : Soundly x) (hf : ∀ a, Soundly (f a)) : Soundly (x >>= f) := by
  intro s h
  have hs := hx s h
  rw [Bounded.run_bind, Fallible.bind_apply]
  rcases hr : x.run s with ⟨e | a, s'⟩ <;> rw [hr] at hs
  · exact hs
  · exact hf a s' hs

theorem raiseIf (c : Prop) [Decidable c] (e : Exception) :
    Soundly (raiseIf c e : Bounded R Exception Unit) := by
  intro s h
  rw [run_raiseIf]
  split <;> exact h

theorem throw (e : Exception) :
    Soundly (MonadExcept.throw e : Bounded R Exception α) :=
  fun _ h => h

omit [IsPreorder (Machine β) R] in
theorem lift {R' : Machine β → Machine β → Prop} [Bounded.Within R R']
    {x : Bounded R Exception α} (hx : Soundly x) :
    Soundly (x.lift : Bounded R' Exception α) := hx

theorem check (r : Except Exception α) : Soundly (check r : Calm β α) := by
  intro s h
  rw [run_check]
  exact h

omit [IsPreorder (Machine β) R] in
/-- A change elsewhere. -/
theorem of_bus {x : Bounded R Exception α}
    (hcr3 : ∀ s, (x.run s).2.regs.cr3 = s.regs.cr3)
    (hbus : ∀ s, (x.run s).2.bus = s.bus)
    (htlb : ∀ s, (x.run s).2.tlb = s.tlb) : Soundly x :=
  fun s h => (Machine.Keeps.of_bus (hcr3 s) (hbus s)).tlbOk h (htlb s)

theorem modifyDecode (g : DecodeState → DecodeState) :
    Soundly (modifyDecode g : Calm β Unit) :=
  of_bus (fun _ => rfl) (fun _ => rfl) fun _ => rfl

theorem modifyHot (g : HotRegs → HotRegs)
    (h : ∀ r, (g r).eflags.vm = r.eflags.vm) :
    Soundly (modifyHot g h : Calm β Unit) :=
      of_bus (fun _ => rfl) (fun _ => rfl) fun _ => rfl

/-- A read of memory. -/
theorem touchBus {f : β → α × β} {hf : ∀ b, BusTouch b (f b).2}
    (hb : ∀ b, (f b).2 = b) :
    Soundly (touchBus f hf) :=
      of_bus (fun _ => rfl) (fun s => hb s.bus) fun _ => rfl

theorem busRead (a : U32) : Soundly (busRead a : Calm β U8) :=
  touchBus fun b => by rw [Ram.read_eq]

theorem busRead16 (a : U32) : Soundly (busRead16 a : Calm β U16) :=
  touchBus fun b => by rw [Ram.read16_eq]

theorem translate (lin : U32) (write : Bool) :
    Soundly (translate lin write : Calm β _) :=
  fun _ h => h.translate lin write

/-- Loads are translations and reads of the bus. -/
theorem linRead8 (lin : U32) : Soundly (linRead8 lin : Calm β U8) := by
  refine self fun s => ?_
  split
  · exact busRead lin
  · exact (translate lin false).bind fun p => busRead p.val

theorem linRead16 (lin : U32) : Soundly (linRead16 lin : Calm β U16) := by
  refine self fun s => ?_
  split
  · exact busRead16 lin
  split
  · exact (translate lin false).bind fun p => busRead16 p.val
  · exact (linRead8 lin).bind fun _ => (linRead8 (lin + 1)).bind
      fun _ => .pure _

theorem fetch8 : Soundly (fetch8 : Calm β U8) :=
  self fun _ => (raiseIf _ _).bind fun _ => (modifyDecode _).bind
    fun _ => self fun _ =>
    (raiseIf _ _).bind fun _ => (linRead8 _).bind fun _ => (modifyHot _ _).bind
      fun _ => .pure _

theorem readOp16 (op : Operand) : Soundly (readOp16 op : Calm β U16) := by
  cases op with
  | reg i => exact self fun _ => .pure _
  | mem seg off => exact (self fun _ => check _).bind fun lin => linRead16 lin

theorem requireRing0 : Soundly (requireRing0 : Calm β Unit) :=
  self fun _ => raiseIf _ _

theorem modrmRegOnly : Soundly (modrmRegOnly : Calm β ModRm) :=
  fetch8.bind fun _ => .pure _

-- ======== control instructions

/-- After a flush nothing is cached. -/
theorem flushTlb : Soundly (flushTlb : Calm β Unit) :=
  fun _ _ => .of_flushed fun _ => rfl

/-- Whatever runs before a flush, nothing is cached behind it. -/
theorem flushed {x : Warm β Unit} (hx : ∀ s, ∃ s', x.run s = (.ok (), s')) :
    Soundly (x >>= fun _ => X32.flushTlb.lift) := by
  intro s _
  obtain ⟨s', hs'⟩ := hx s
  rw [Bounded.run_bind, Fallible.bind_of_ok hs']
  exact .of_flushed fun _ => rfl

/-- The save before a cold write. -/
theorem prepared {m : Warm β α} (hm : Soundly m) : Soundly (prepared m) := by
  intro s h
  refine hm _ ?_
  unfold Machine.prepared
  split
  · exact h
  · exact (Machine.Keeps.of_bus (s := s)
      (t := { s with coldSaved := true, faultRegs := s.regs }) rfl rfl).tlbOk h rfl

/-- A cold write that leaves CR3 alone. -/
theorem coldWrite {g : ColdRegs → ColdRegs} (hg : ∀ r, (g r).cr3 = r.cr3) :
    Soundly (coldWrite g : Xfer β Unit) :=
  prepared (of_bus (fun s => hg s.regs.toColdRegs) (fun _ => rfl) fun _ => rfl)

/-- A write of CR0 or CR3 flushes the TLB where the tables may have changed. -/
theorem writeCr (n : U8) (v : U32) : Soundly (writeCr n v : Warm β Unit) := by
  unfold X32.writeCr
  split
  · exact (raiseIf _ _).bind fun _ => flushed fun s => ⟨_, rfl⟩
  split
  · exact lift (modifyHot _ _)
  split
  · exact flushed fun s => ⟨_, rfl⟩
  · exact throw _

theorem movCrR : Soundly (movCrR : Xfer β U32) :=
  (lift requireRing0).bind fun _ =>
    prepared <| (lift modrmRegOnly).bind fun m =>
    self fun s => (writeCr m.reg (s.regs.reg32 m.rm)).bind fun _ => .pure _

theorem clts : Soundly (clts : Xfer β U32) := by
  refine (lift requireRing0).bind fun _ => (coldWrite ?_).bind fun _ => .pure _
  intro r
  rfl

theorem lmsw (op : Operand) : Soundly (lmsw op : Xfer β U32) := by
  refine (lift requireRing0).bind fun _ => (lift (readOp16 op)).bind fun _ =>
    (coldWrite ?_).bind fun _ => (lift flushTlb).bind fun _ => .pure _
  intro r
  rfl

end Soundly

-- ======== runs

/-- The instructions that write the control registers. -/
inductive ControlInsn where
  | movCr
  | lmsw (op : Operand)
  | clts

/-- The instruction a control step is. -/
def ControlInsn.exec : ControlInsn → Xfer β U32
  | .movCr => movCrR
  | .lmsw op => X32.lmsw op
  | .clts => X32.clts

/-- No control instruction leaves the TLB wrong. -/
theorem ControlInsn.soundly (i : ControlInsn) :
    Soundly (i.exec : Xfer β U32) := by
  cases i with
  | movCr => exact .movCrR
  | lmsw op => exact .lmsw op
  | clts => exact .clts

/-- One event of a run: a translation, an instruction fetch, a flush, a
control-register instruction, or anything else that leaves CR3 and the
tables behind the mappings alone. -/
inductive TlbStep : Machine β → Machine β → Prop
  | translate (s : Machine β) (lin : U32) (write : Bool) :
    TlbStep s ((translate lin write).run s).2
  | fetch (s : Machine β) : TlbStep s (fetch8.run s).2
  | flush (s : Machine β) : TlbStep s (flushTlb.run s).2
  | control (i : ControlInsn) (s : Machine β) : TlbStep s (i.exec.run s).2
  | other (s s' : Machine β) (htlb : s'.tlb = s.tlb)
      (hcr3 : s'.regs.cr3 = s.regs.cr3)
      (hent : ∀ a, s.TableEntry a → s'.word a = s.word a) : TlbStep s s'

/-- One step of a run. -/
theorem TlbStep.tlbOk {s s' : Machine β} (h : TlbStep s s') (hok : s.TlbOk) :
    s'.TlbOk := by
  cases h with
  | translate _ lin write => exact hok.translate lin write
  | fetch => exact Soundly.fetch8 s hok
  | flush => exact Soundly.flushTlb s hok
  | control i => exact i.soundly s hok
  | other _ _ htlb hcr3 hent =>
    exact (Machine.Keeps.of_same hcr3 hent).tlbOk hok htlb

/-- An access the TLB answers changes nothing and gets the address a full
walk gives in the same state; the walk grants it and has no bit to write.
The same goes for a probe of the fetch path. -/
structure Machine.TlbFaithful (s : Machine β) : Prop where
  hit : ∀ lin write, s.tlbHit lin write = true →
    (∃ q, (translate lin write).run s = (.ok q, s) ∧ q.val = s.tlbPhys lin)
      ∧ ∃ q s', (walk lin write).run s = (.ok q, s') ∧ q.val = s.tlbPhys lin
      ∧ s'.bus = s.bus
  peek : ∀ lin p, s.tlb.peek lin (s.cpl == 3) = some p →
    ∃ q s', (walk lin false).run s = (.ok q, s') ∧ q.val = p ∧ s'.bus = s.bus

/-- A hit answers what the walk would. -/
theorem Machine.TlbOk.faithful {s : Machine β} (hok : s.TlbOk) :
    s.TlbFaithful where
  hit _ _ h := ⟨run_translate_hit h, (hok.granted h).run_walk⟩
  peek _ _ h := (hok.peekGranted h).run_walk

/-- The invariant holds over any run from a flushed cache. -/
theorem tlbOk_run {s₀ s : Machine β}
    (h : Relation.ReflTransGen TlbStep s₀.invalidateTlb s) :
    s.TlbOk := by
  induction h with
  | refl => exact .of_flushed fun _ => rfl
  | tail _ hstep ih => exact hstep.tlbOk ih

end Remu.X32
