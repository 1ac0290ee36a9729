/-
The cycle counter over steps and runs.

Every step adds to the counter what it returns, and only WRMSR touches it
besides (`cycles_step`). A step that comes to a repeated string instruction
returns what its loop adds up, the prefixes on top (`execOne_activation`).
So where the word has room for every loop of a run, and no element faults
behind another one, the counter has the exact number in the end
(`cycles_after`).
-/
import Remu.X64.Disturbed
import Remu.X64.Reading
import Remu.X64.RepCycles
import Remu.X64.RunLoop

namespace Remu.X64

variable {β : Type} [Bus β] {α : Type}

-- ======== the LOCK prefix

/-- The LOCK prefix is as it was. -/
def LockKept (s s' : Machine β) : Prop := s'.lock = s.lock

omit [Bus β] in
instance instIsPreorderLockKept : IsPreorder (Machine β) LockKept where
  refl _ := rfl
  trans _ _ _ hab hbc := hbc.trans hab

/-- A computation that leaves it, however it ends. -/
def KeepsLock (x : Calm β α) : Prop := Fallible.Along LockKept x.run

/-- What only works on memory and caches does not touch the prefix. -/
theorem Mild.keepsLock {x : Calm β α} (h : Mild x) : KeepsLock x :=
  fun s => congrArg DecodeState.lock (h s).decode

namespace KeepsLock

theorem pure (a : α) : KeepsLock (pure a : Calm β α) := Fallible.Along.pure a

theorem self : KeepsLock (self : Calm β (Machine β)) := Fallible.Along.get

/-- Closed under sequencing; the rules below follow the string primitives down
to their reads and writes. -/
theorem bind {γ : Type} {x : Calm β α} {f : α → Calm β γ} (hx : KeepsLock x)
    (hf : ∀ a, KeepsLock (f a)) : KeepsLock (x >>= f) :=
      Fallible.Along.bind hx hf

/-- A write of the hot registers, which hold no prefix. -/
theorem hot (g : HotRegs → HotRegs) (h : ∀ r, (g r).rflags.vm = r.rflags.vm) :
    KeepsLock (modifyHot g h : Calm β Unit) := fun _ => rfl

theorem readBitmap (base : U64) (a n : Nat) :
    KeepsLock (readBitmap base a n : Calm β U32) := by
  induction n generalizing a with
  | zero => exact .pure _
  | succ n ih =>
    exact (Mild.asSupervisor (.linRead8 _)).keepsLock.bind fun _ => (ih _).bind
      fun _ => .pure _

theorem ioCheck (port : U16) (size : Nat) :
    KeepsLock (ioCheck port size : Calm β Unit) := by
  refine self.bind fun s => ?_
  dsimp only
  unfold X64.whenever
  split
  · exact (Mild.raiseIf _ _).keepsLock.bind fun _ =>
      (Mild.raiseIf _ _).keepsLock.bind fun _ =>
      (Mild.asSupervisor (.linRead16 _)).keepsLock.bind fun _ =>
      (Mild.raiseIf _ _).keepsLock.bind fun _ =>
        (readBitmap _ _ _).bind fun _ =>
      (Mild.raiseIf _ _).keepsLock
  · exact .pure _

theorem flags (g : RFlags → α × RFlags) (h : ∀ f, (g f).2.vm = f.vm) :
    KeepsLock (withFlags g h : Calm β α) :=
      self.bind fun _ => (hot _ _).bind fun _ => .pure _

theorem ioRead (port : U16) : KeepsLock (ioRead port : Calm β U8) :=
  (Mild.touchBus _ _).keepsLock

theorem ioRead16 (port : U16) : KeepsLock (ioRead16 port : Calm β U16) :=
  (ioRead _).bind fun _ => (ioRead _).bind fun _ => .pure _

theorem ioRead32 (port : U16) : KeepsLock (ioRead32 port : Calm β U32) :=
  (ioRead16 _).bind fun _ => (ioRead16 _).bind fun _ => .pure _

theorem ioWrite (port : U16) (v : U8) :
    KeepsLock (ioWrite port v : Calm β Unit) :=
  (Mild.touchBus _ _).keepsLock

theorem ioWrite16 (port v : U16) :
    KeepsLock (ioWrite16 port v : Calm β Unit) :=
  (ioWrite _ _).bind fun _ => ioWrite _ _

theorem ioWrite32 (port : U16) (v : U32) :
    KeepsLock (ioWrite32 port v : Calm β Unit) :=
  (ioWrite16 _ _).bind fun _ => ioWrite16 _ _

-- ------------------------------------------------------- string elements

/-- A width whose accesses keep it. -/
structure Width (z : StrWidth β) : Prop where
  read : ∀ seg off, KeepsLock (z.read seg off)
  write : ∀ seg off v, KeepsLock (z.write seg off v)
  setAcc : ∀ v, KeepsLock (z.setAcc v)

theorem str8 : Width (str8 : StrWidth β) where
  read _ _ := ((Mild.linAddr _ _ _ _).bind fun _ => .linRead8 _).keepsLock
  write _ _ _ :=
    ((Mild.linAddr _ _ _ _).bind fun _ => .linWrite8 _ _).keepsLock
  setAcc v := hot (·.setReg8 0 false v) fun _ => rfl

theorem str16 : Width (str16 : StrWidth β) where
  read _ _ := ((Mild.linAddr _ _ _ _).bind fun _ => .linRead16 _).keepsLock
  write _ _ _ :=
    ((Mild.linAddr _ _ _ _).bind fun _ => .linWrite16 _ _).keepsLock
  setAcc v := hot (·.setReg16 0 v) fun _ => rfl

theorem str32 : Width (str32 : StrWidth β) where
  read _ _ := ((Mild.linAddr _ _ _ _).bind fun _ => .linRead32 _).keepsLock
  write _ _ _ :=
    ((Mild.linAddr _ _ _ _).bind fun _ => .linWrite32 _ _).keepsLock
  setAcc v := hot (·.setReg32 0 v) fun _ => rfl

theorem str64 : Width (str64 : StrWidth β) where
  read _ _ := ((Mild.linAddr _ _ _ _).bind fun _ => .linRead64 _).keepsLock
  write _ _ _ :=
    ((Mild.linAddr _ _ _ _).bind fun _ => .linWrite64 _ _).keepsLock
  setAcc v := hot (·.setReg64 0 v) fun _ => rfl

theorem setIndexReg (i : U8) (v : U64) :
    KeepsLock (setIndexReg i v : Calm β Unit) :=
  self.bind fun _ => hot _ _

theorem stepIndex (i : U8) (n : U64) :
    KeepsLock (stepIndex i n : Calm β Unit) :=
  self.bind fun _ => setIndexReg _ _

section Elements

variable {z : StrWidth β} (h : Width z)
include h

theorem readSi : KeepsLock (readSi z) := self.bind fun _ => h.read _ _

theorem readDi : KeepsLock (readDi z) := self.bind fun _ => h.read _ _

theorem writeDi (v : BitVec z.w) : KeepsLock (writeDi z v) :=
  self.bind fun _ => h.write _ _ _

theorem movs : KeepsLock (movs z) :=
  (readSi h).bind fun _ => (writeDi h _).bind fun _ => (stepIndex _ _).bind
    fun _ => stepIndex _ _

theorem cmps : KeepsLock (cmps z) :=
  (readSi h).bind fun _ => (readDi h).bind fun _ => (flags _ _).bind fun _ =>
    (stepIndex _ _).bind fun _ => stepIndex _ _

theorem stos : KeepsLock (stos z) :=
  self.bind fun _ => (writeDi h _).bind fun _ => stepIndex _ _

theorem lods : KeepsLock (lods z) :=
  (readSi h).bind fun _ => (h.setAcc _).bind fun _ => stepIndex _ _

theorem scas : KeepsLock (scas z) :=
  (readDi h).bind fun _ => self.bind fun _ =>
    (flags _ _).bind fun _ => stepIndex _ _

theorem ins (size : Nat) {rd : U16 → Calm β (BitVec z.w)}
    (hrd : ∀ p, KeepsLock (rd p)) :
    KeepsLock (ins z size rd) :=
  self.bind fun _ => (ioCheck _ _).bind fun _ => (hrd _).bind fun _ =>
    (writeDi h _).bind fun _ =>
    stepIndex _ _

theorem outs (size : Nat) {wr : U16 → BitVec z.w → Calm β Unit}
    (hwr : ∀ p v, KeepsLock (wr p v)) :
    KeepsLock (outs z size wr) :=
  self.bind fun _ => (ioCheck _ _).bind fun _ => (readSi h).bind fun _ =>
    (hwr _ _).bind fun _ =>
    stepIndex _ _

end Elements

/-- The loop, by induction on its rounds. -/
theorem repLoop {one : Calm β Unit} (hone : KeepsLock one)
    (cmp contOnZf : Bool) (n : Nat)
    (cycles : U32) : KeepsLock (repLoop one cmp contOnZf n cycles) := by
  induction n generalizing cycles with
  | zero => exact .pure _
  | succ n ih =>
    refine self.bind fun s => ?_
    split
    · exact .pure _
    refine hone.bind fun _ => self.bind fun s =>
      (setIndexReg _ _).bind fun _ =>
      self.bind fun s => ?_
    dsimp only
    split
    · exact .pure _
    split
    · exact (hot _ _).bind fun _ => .pure _
    · exact ih _

/-- A string instruction ends with the LOCK prefix it began with. -/
theorem stringOp {one : Calm β Unit} (hone : KeepsLock one) (cmp : Bool) :
    KeepsLock (stringOp one cmp) := by
  refine bind (fun _ => rfl) fun _ => self.bind fun s => ?_
  cases s.rep with
  | none => exact hone.bind fun _ => .pure _
  | some z => exact repLoop hone cmp z _ _

end KeepsLock

-- ======== activations

/-- The element accesses of an operand size. -/
def strSized : OpSize → StrWidth β
  | O16 => str16
  | O32 => str32
  | O64 => str64

/-- INS and OUTS go by 16 or by 32 bits. -/
def insSized (osize : OpSize) : Calm β Unit :=
  if osize = O16 then ins str16 2 ioRead16 else ins str32 4 ioRead32

/-- OUTS at the two sizes it has. -/
def outsSized (osize : OpSize) : Calm β Unit :=
  if osize = O16 then outs str16 2 ioWrite16 else outs str32 4 ioWrite32

/-- The string instructions: opcode, element, and whether it compares. -/
def stringTable (osize : OpSize) : List (U8 × Calm β Unit × Bool) :=
  let sized : StrWidth β := strSized osize
  [(0x6C, ins str8 1 ioRead, false), (0x6D, insSized osize, false),
    (0x6E, outs str8 1 ioWrite, false), (0x6F, outsSized osize, false),
    (0xA4, movs str8, false), (0xA5, movs sized, false),
      (0xA6, cmps str8, true),
    (0xA7, cmps sized, true), (0xAA, stos str8, false),
      (0xAB, stos sized, false),
    (0xAC, lods str8, false), (0xAD, lods sized, false),
      (0xAE, scas str8, true),
    (0xAF, scas sized, true)]

/-- The sized arm goes by the size of the state it starts in. -/
theorem run_stringOpSized (f : StrWidth β → Calm β Unit)
    (cmp : Bool) (s : Machine β) :
    (stringOpSized f cmp).run s
      = (stringOp (f (strSized s.osize)) cmp).run s := by
  rw [stringOpSized, Bounded.run_bind, Fallible.bind_of_ok (run_self s)]
  cases s.osize <;> rfl

/-- INS at any size is the string operation of one primitive. -/
theorem run_insW (s : Machine β) :
    insW.run s = (stringOp (insSized s.osize) false).run s := by
  rw [insW, insSized, Bounded.run_bind, Fallible.bind_of_ok (run_self s)]
  split <;> rfl

/-- OUTS at any size is the string operation of one primitive. -/
theorem run_outsW (s : Machine β) :
    outsW.run s = (stringOp (outsSized s.osize) false).run s := by
  rw [outsW, outsSized, Bounded.run_bind, Fallible.bind_of_ok (run_self s)]
  split <;> rfl

/-- The arm of a string instruction runs its element, which keeps the LOCK
prefix. -/
theorem stringTable_spec (s : Machine β) : ∀ p ∈ stringTable (β := β) s.osize,
    (dispatch p.1).run s = (stringOp p.2.1 p.2.2).run s ∧ KeepsLock p.2.1 := by
  have h8 : KeepsLock.Width (str8 : StrWidth β) := KeepsLock.str8
  have hsized : KeepsLock.Width (strSized s.osize : StrWidth β) := by
    cases s.osize with
    | O16 => exact KeepsLock.str16
    | O32 => exact KeepsLock.str32
    | O64 => exact KeepsLock.str64
  have hins : KeepsLock (insSized s.osize : Calm β Unit) := by
    unfold insSized
    split
    · exact .ins KeepsLock.str16 2 KeepsLock.ioRead16
    · exact .ins KeepsLock.str32 4 KeepsLock.ioRead32
  have houts : KeepsLock (outsSized s.osize : Calm β Unit) := by
    unfold outsSized
    split
    · exact .outs KeepsLock.str16 2 KeepsLock.ioWrite16
    · exact .outs KeepsLock.str32 4 KeepsLock.ioWrite32
  simp only [stringTable, List.forall_mem_cons, List.not_mem_nil,
    false_implies, implies_true, and_true]
  exact ⟨⟨rfl, .ins h8 1 KeepsLock.ioRead⟩, ⟨run_insW s, hins⟩,
    ⟨rfl, .outs h8 1 KeepsLock.ioWrite⟩,
    ⟨run_outsW s, houts⟩, ⟨rfl, .movs h8⟩,
      ⟨run_stringOpSized movs false s, .movs hsized⟩,
    ⟨rfl, .cmps h8⟩, ⟨run_stringOpSized cmps true s, .cmps hsized⟩,
      ⟨rfl, .stos h8⟩,
    ⟨run_stringOpSized stos false s, .stos hsized⟩, ⟨rfl, .lods h8⟩,
    ⟨run_stringOpSized lods false s, .lods hsized⟩, ⟨rfl, .scas h8⟩,
    ⟨run_stringOpSized scas true s, .scas hsized⟩⟩

/-- A repeated string instruction that a step comes to: its element, and
the state behind its prefixes. -/
structure Activation (β : Type) [Bus β] where
  opcode : U8
  one : Calm β Unit
  cmp : Bool
  contOnZf : Bool
  npfx : U32
  entry : Machine β

namespace Activation

variable (a : Activation β)

/-- The elements it completes. -/
def elements : Except Exception Nat × Machine β :=
  repElements a.one a.cmp a.contOnZf a.entry

/-- Those it completes even where it fails in the end. -/
def completed : Nat :=
  (repetition a.one a.cmp a.contOnZf).completed
    a.entry.countReg.toNat a.entry.committed

/-- Its loop comes to its end within `b` elements. -/
def EndsWithin (b : Nat) : Prop :=
  RepEndsWithin a.one a.cmp a.contOnZf b a.entry

/-- Its first element fails. -/
def FailsFirst : Prop :=
  RepFails a.one a.cmp a.contOnZf a.entry ∧ a.completed = 0

end Activation

/-- The repeated string instruction at RIP. It is never a cached one, and
with a LOCK prefix it is undefined. -/
def Machine.activation (s : Machine β) : Option (Activation β) :=
  if s.begin.probe.isSome then none
  else match scanPrefixes.run s.begin.resetDecode with
  | (.error _, _) => none
  | (.ok (opcode, npfx), t) =>
    if t.lock then none
    else match t.rep, (stringTable t.osize).find? (·.1 == opcode) with
    | some z, some (_, one, cmp) => some ⟨opcode, one, cmp, z, npfx, t⟩
    | _, _ => none

/-- How a machine comes to a repeated string instruction. -/
theorem Machine.activation_eq_some {s : Machine β} {a : Activation β}
    (h : s.activation = some a) :
    s.begin.probe = none
      ∧ scanPrefixes.run s.begin.resetDecode
        = (.ok (a.opcode, a.npfx), a.entry)
      ∧ a.entry.lock = false ∧ a.entry.rep = some a.contOnZf
      ∧ (a.opcode, a.one, a.cmp) ∈ stringTable a.entry.osize := by
  unfold Machine.activation at h
  split at h
  · cases h
  rename_i hprobe
  rcases hscan :
    scanPrefixes.run s.begin.resetDecode with ⟨e | ⟨opcode, npfx⟩, t⟩ <;>
    rw [hscan] at h
  · cases h
  dsimp only at h
  split at h
  · cases h
  rename_i hlock
  cases hrep : t.rep with
  | none =>
    rw [hrep] at h
    cases h
  | some z =>
    cases hfind : (stringTable (β := β) t.osize).find? (·.1 == opcode) with
    | none =>
      rw [hrep, hfind] at h
      cases h
    | some p =>
      rw [hrep, hfind] at h
      have hsome := List.find?_some hfind
      have hopcode : p.1 = opcode := beq_iff_eq.1 hsome
      cases h
      exact ⟨Option.not_isSome_iff_eq_none.1 hprobe, rfl,
        Bool.eq_false_iff.2 hlock, hrep,
        hopcode ▸ List.mem_of_find?_eq_some hfind⟩

/-- The loop of the instruction at RIP runs, and its result comes back with
the prefixes on top. -/
theorem execOne_activation {s : Machine β} {a : Activation β}
    (h : s.activation = some a) :
    execOne s = (a.elements.1.map fun k => a.npfx + BitVec.ofNat 32
      (5 + 4 * k), a.elements.2) := by
  obtain ⟨hprobe, hscan, hlock, hrep, hmem⟩ := s.activation_eq_some h
  obtain ⟨hop, hone⟩ := stringTable_spec a.entry _ hmem
  have hrun := run_stringOp_elements a.one a.cmp a.contOnZf hrep
  have hscreen : (lockScreen a.opcode).run a.entry = (.ok (), a.entry) := by
    rw [lockScreen, Bounded.run_bind, Fallible.bind_of_ok (run_self a.entry),
      run_raiseIf, hlock, if_neg fun h => Bool.false_ne_true h.1]
  have hfused : execOne s = (runFused a.opcode a.npfx).run a.entry := by
    have hmiss : runMiss true s.begin.icachePhys s.begin
        = interpret true s.begin.icachePhys s.begin.resetDecode := rfl
    rw [execOne, Fallible.bind_of_ok (Fallible.modify_apply Machine.begin s),
      Fallible.bind_of_ok (Fallible.get_apply s.begin), hprobe]
    refine hmiss.trans ?_
    rw [interpret, Fallible.bind_of_ok hscan]
    dsimp only
    rw [Fallible.bind_of_ok hscreen,
      Fallible.bind_of_ok (Fallible.get_apply a.entry), hrep,
      Option.isNone_some, Bool.and_false, if_neg Bool.false_ne_true]
  have helems : repElements a.one a.cmp a.contOnZf a.entry = a.elements := rfl
  rw [hfused, runFused, Bounded.run_bind]
  rcases hr : a.elements with ⟨e | k, u⟩ <;> rw [helems, hr] at hrun
  · rw [Fallible.bind_of_error (hop.trans hrun)]
    rfl
  · have hunlocked : u.lock = false :=
      (congrArg (fun r => r.2.lock) hrun).symm.trans
        ((KeepsLock.stringOp hone a.cmp a.entry).trans hlock)
    rw [Fallible.bind_of_ok (hop.trans hrun)]
    simp only [Bounded.run_bind, self, Bounded.run_get, Fallible.bind_apply,
      Fallible.get_apply, hunlocked]
    rfl

-- ======== the time-stamp counter

-- WRMSR sets the counter, which IA32_TSC is. Nothing else an instruction does
-- touches it, so this goes by the four arms that are more than transfers.

/-- The counter is as it was. -/
def TscKept (s s' : Machine β) : Prop := s'.cycles = s.cycles

omit [Bus β] in
instance instIsPreorderTscKept : IsPreorder (Machine β) TscKept where
  refl _ := rfl
  trans _ _ _ hab hbc := hbc.trans hab

/-- A transfer of control does not count cycles. -/
theorem XferSteps.cycles {s s' : Machine β} (h : XferSteps s s') :
    s'.cycles = s.cycles := by
  induction h with
  | refl => rfl
  | tail _ hstep ih =>
    refine Eq.trans ?_ ih
    cases hstep with
    | calm h => cases h <;> rfl
    | hot => rfl
    | prepare =>
      unfold Machine.prepared
      split <;> rfl
    | write => rfl

/-- A computation that leaves the counter, however it ends. -/
def KeepsTsc (x : Cold β α) : Prop := Fallible.Along TscKept x.run

namespace KeepsTsc

/-- A transfer of control leaves the counter alone; so does every rule below
but for a write of the counter itself. -/
theorem xfer (x : Xfer β α) : KeepsTsc (x.lift : Cold β α) :=
  fun s => XferSteps.cycles (x.bound s)

theorem calm (x : Calm β α) : KeepsTsc (x.lift : Cold β α) :=
  fun s => XferSteps.cycles (CalmSteps.xfer (x.bound s))

theorem self : KeepsTsc (self : Cold β (Machine β)) := Fallible.Along.get

theorem pure (a : α) : KeepsTsc (pure a : Cold β α) := Fallible.Along.pure a

theorem throw (e : Exception) : KeepsTsc (throw e : Cold β α) := fun _ => rfl

theorem raiseIf (c : Prop) [Decidable c] (e : Exception) :
    KeepsTsc (raiseIf c e : Cold β Unit) := by
  unfold X64.raiseIf
  split
  · exact throw e
  · exact pure ()

theorem bind {γ : Type} {x : Cold β α} {f : α → Cold β γ} (hx : KeepsTsc x)
    (hf : ∀ a, KeepsTsc (f a)) : KeepsTsc (x >>= f) :=
      Fallible.Along.bind hx hf

theorem whenever (c : Prop) [Decidable c] {m : Cold β Unit} (hm : KeepsTsc m) :
    KeepsTsc (whenever c m) := by
  unfold X64.whenever
  split
  · exact hm
  · exact pure ()

theorem ite (c : Prop) [Decidable c] {x y : Cold β α}
    (hx : KeepsTsc x) (hy : KeepsTsc y) :
    KeepsTsc (if c then x else y) := by
  split
  · exact hx
  · exact hy

theorem modeWrite (g : Registers → Except Exception Registers)
    (hg : KeepsMode g) :
    KeepsTsc (modeWrite g hg : Cold β Unit) := by
  intro s
  have hprep : s.prepared.cycles = s.cycles :=
    XferSteps.cycles (.single (.prepare s))
  rw [run_modeWrite]
  cases g s.regs with
  | ok r => exact hprep
  | error e => exact hprep

theorem group7 : KeepsTsc (group7 : Cold β U32) := by
  have hlmsw : ∀ op : Operand, KeepsTsc (lmsw op : Cold β U32) := fun op =>
    (calm _).bind fun _ => (calm _).bind fun _ => (modeWrite _ _).bind fun _ =>
      (calm _).bind fun _ => pure _
  refine (calm _).bind fun p => self.bind fun s => ?_
  refine ite _ (calm _) (ite _ (calm _) (ite _ (xfer _) (ite _ (calm _)
    (ite _ (hlmsw _) (ite _ ?_ (throw _))))))
  cases p.2 with
  | mem seg off => exact calm _
  | reg rm => exact ite _ (xfer _) (ite _ (calm _) (throw _))

theorem clts : KeepsTsc (clts : Cold β U32) :=
  (calm _).bind fun _ => (modeWrite _ _).bind fun _ => pure _

theorem movCrR : KeepsTsc (movCrR : Cold β U32) :=
  (calm _).bind fun _ => (calm _).bind fun _ => self.bind fun _ =>
    ((modeWrite _ _).bind fun _ => whenever _ (calm _)).bind fun _ => pure _

end KeepsTsc

/-- WRMSR of another register. -/
theorem cycles_wrmsrArm {s : Machine β} (h : s.regs.reg32 reg.RCX ≠ Msr.TSC) :
    (wrmsrArm.run s).2.cycles = s.cycles := by
  have hring : (requireRing0.lift : Cold β Unit).run s
      = (raiseIf (s.regs.cr0 &&& cr0.PE ≠ 0 ∧ s.cpl ≠ 0)
        (Exception.gp 0) : Calm β Unit).run s := rfl
  rw [run_raiseIf] at hring
  rw [wrmsrArm, Bounded.run_bind]
  by_cases huser : s.regs.cr0 &&& cr0.PE ≠ 0 ∧ s.cpl ≠ 0
  · rw [if_pos huser] at hring
    rw [Fallible.bind_of_error hring]
  rw [if_neg huser] at hring
  rw [Fallible.bind_of_ok hring, Bounded.run_bind,
    Fallible.bind_of_ok (run_self s)]
  dsimp only
  rw [if_neg h]
  exact ((KeepsTsc.modeWrite _ _).bind fun _ =>
    (KeepsTsc.whenever _ (.calm _)).bind fun _ =>
    .pure _) s

/-- Of the two-byte opcodes only WRMSR to IA32_TSC sets the counter. -/
theorem cycles_dispatch0F (op2 : U8) {s : Machine β}
    (h : op2 = 0x30 → s.regs.reg32 reg.RCX ≠ Msr.TSC) :
    ((dispatch0F op2).run s).2.cycles = s.cycles := by
  by_cases hop : op2 = 0x30
  · subst hop
    have hscreen :=
      run_raiseIf (R := ColdSteps) (s.lock ∧ (0x30 : U8) ∉ lockable0F)
        Exception.ud s
    rw [dispatch0F, Bounded.run_bind, Fallible.bind_of_ok (run_self s),
      Bounded.run_bind]
    by_cases hlock : s.lock ∧ (0x30 : U8) ∉ lockable0F
    · rw [if_pos hlock] at hscreen
      rw [Fallible.bind_of_error hscreen]
    · rw [if_neg hlock] at hscreen
      rw [Fallible.bind_of_ok hscreen]
      exact cycles_wrmsrArm (h rfl)
  · have harm : KeepsTsc (dispatch0F op2 : Cold β U32) := by
      refine KeepsTsc.self.bind fun s =>
        (KeepsTsc.raiseIf _ _).bind fun _ => ?_
      split
      case isTrue hcold =>
        unfold dispatch0FCold
        split
        · exact .group7
        split
        · exact .clts
        split
        · exact .movCrR
        · simp_all
      · exact .ite _ (.xfer _) (.calm _)
    exact harm s

/-- The second opcode byte, where the first one is the escape. -/
def escaped (opcode : U8) : Calm β (Option U8) :=
  if opcode = 0x0F then some <$> fetch8 else pure none

/-- The second opcode byte of the instruction at RIP, where the decoder has
no record of it. -/
def secondByte : Exec β (Option U8) := do
  let (opcode, npfx) ← scanPrefixes.run
  let s ← Fallible.get
  if !s.lock && s.rep.isNone then do
    let r ← (tryDecode opcode npfx).run
    match r with
    | .hot _ => return none
    | .cold0F op2 => return some op2
    | .cold => (escaped opcode).run
  else (escaped opcode).run

/-- The instruction at RIP is WRMSR to IA32_TSC. -/
def Machine.WritesTsc (s : Machine β) : Prop :=
  s.begin.probe = none ∧ ∃ t,
    secondByte s.begin.resetDecode = (.ok (some 0x30), t)
    ∧ t.regs.reg32 reg.RCX = Msr.TSC

/-- An instruction leaves the counter alone unless it is a WRMSR to
IA32_TSC. -/
theorem cycles_runFused {opcode : U8} {npfx : U32} {s : Machine β}
    (h : ∀ t, (escaped opcode).run s = (.ok (some 0x30), t) →
      t.regs.reg32 reg.RCX ≠ Msr.TSC) :
    ((runFused opcode npfx).run s).2.cycles = s.cycles := by
  have hdispatch : ((dispatch opcode).run s).2.cycles = s.cycles := by
    unfold dispatch
    split
    case isTrue hop =>
      have hfetch : (fetch8.run s).2.cycles = s.cycles :=
        XferSteps.cycles (CalmSteps.xfer (fetch8.bound s))
      rw [Bounded.run_bind, Bounded.run_lift, Fallible.bind_apply]
      rcases hr : fetch8.run s with ⟨e | op2, t⟩ <;> rw [hr] at hfetch
      · exact hfetch
      · have hesc : (escaped opcode).run s = (.ok (some op2), t) := by
          rw [escaped, if_pos hop, Bounded.run_map, map_eq_pure_bind,
            Fallible.bind_of_ok hr]
          rfl
        refine (cycles_dispatch0F _ fun hop2 => ?_).trans hfetch
        subst hop2
        exact h t hesc
    case isFalse => exact KeepsTsc.ite _ (.xfer _) (.calm _) s
  rw [runFused, Bounded.run_bind, Fallible.bind_apply]
  rcases hr : (dispatch opcode).run s with ⟨e | c, t⟩ <;> rw [hr] at hdispatch
  · exact hdispatch
  · exact ((KeepsTsc.self.bind fun _ => (KeepsTsc.raiseIf _ _).bind fun _ => .pure _) t).trans
      hdispatch

/-- The screen changes nothing. -/
theorem run_lockScreen (opcode : U8) (s : Machine β) :
    ((lockScreen opcode).run s).2 = s := by
  rw [lockScreen, Bounded.run_bind, Fallible.bind_of_ok (run_self s),
    run_raiseIf]
  split <;> rfl

/-- A calm computation leaves the counter alone. -/
theorem cycles_calm (x : Calm β α) (s : Machine β) :
    (x.run s).2.cycles = s.cycles :=
  XferSteps.cycles (CalmSteps.xfer (x.bound s))

/-- What is not cached runs the arm of its second byte, if it has one. -/
theorem cycles_interpret {phys : Option U64} {s : Machine β}
    (h : ∀ t, secondByte s = (.ok (some 0x30), t) →
      t.regs.reg32 reg.RCX ≠ Msr.TSC) :
    (interpret true phys s).2.cycles = s.cycles := by
  have hscan := cycles_calm scanPrefixes s
  unfold secondByte at h
  rw [interpret]
  rcases hr : scanPrefixes.run s with ⟨e | ⟨opcode, npfx⟩, t⟩
    <;> rw [hr] at hscan
  · rw [Fallible.bind_of_error hr]
    exact hscan
  rw [Fallible.bind_of_ok hr] at h ⊢
  dsimp only at h hscan ⊢
  rw [Fallible.bind_of_ok (Fallible.get_apply t)] at h
  refine Eq.trans ?_ hscan
  have hscreen := run_lockScreen opcode t
  rcases hl : (lockScreen opcode).run t with ⟨e | ⟨⟩, u⟩ <;> rw [hl] at hscreen
  · rw [Fallible.bind_of_error hl]
    exact congrArg (·.cycles) hscreen
  obtain rfl : u = t := hscreen
  rw [Fallible.bind_of_ok hl, Fallible.bind_of_ok (Fallible.get_apply u)]
  split
  case isFalse hfused =>
    rw [if_neg (by simpa using hfused)] at h
    exact cycles_runFused h
  case isTrue hhot =>
  rw [if_pos (by simpa using hhot)] at h
  have hdecode := cycles_calm (tryDecode opcode npfx) u
  rw [runDecoded]
  rcases hd : (tryDecode opcode npfx).run u with ⟨e | r, v⟩
    <;> rw [hd] at hdecode
  · rw [Fallible.bind_of_error hd]
    exact hdecode
  rw [Fallible.bind_of_ok hd] at h ⊢
  refine Eq.trans ?_ hdecode
  cases r with
  | hot d =>
    have hfill :
      (v.icacheFill phys d).cycles = v.cycles := by cases phys <;> rfl
    have hexec := cycles_calm (execDecoded d) (v.icacheFill phys d)
    dsimp only
    rw [Fallible.bind_of_ok (Fallible.modify_apply _ v), Fallible.bind_apply]
    rcases hx : (execDecoded d).run (v.icacheFill phys d) with ⟨e | c, w⟩
      <;> rw [hx] at hexec
    · exact hexec.trans hfill
    · exact hexec.trans hfill
  | cold0F op2 =>
    have harm :=
      cycles_dispatch0F op2 (s := v) fun hop2 => h v (by rw [hop2]; rfl)
    dsimp only
    rw [Fallible.bind_apply]
    rcases hx : (dispatch0F op2).run v with ⟨e | c, w⟩ <;> rw [hx] at harm
    · exact harm
    · exact harm
  | cold => exact cycles_runFused h

/-- **Only WRMSR to IA32_TSC touches the counter.** -/
theorem cycles_execOne {s : Machine β} (h : ¬s.WritesTsc) :
    (execOne s).2.cycles = s.cycles := by
  rw [execOne, Fallible.bind_of_ok (Fallible.modify_apply Machine.begin s),
    Fallible.bind_of_ok (Fallible.get_apply s.begin)]
  cases hp : s.begin.probe with
  | none =>
    exact cycles_interpret (s := s.begin.resetDecode) fun t ht htsc =>
      h ⟨hp, t, ht, htsc⟩
  | some d =>
    have hexec := cycles_calm (execDecoded d) (s.begin.beginDecoded d)
    dsimp only
    rw [runHit, Fallible.bind_of_ok (Fallible.modify_apply _ _),
      Fallible.bind_apply]
    rcases hx : (execDecoded d).run (s.begin.beginDecoded d) with ⟨e | c, w⟩
      <;> rw [hx] at hexec
    · exact hexec
    · exact hexec

-- ======== steps

/-- The machine as a step lets it execute an instruction, if no event comes
first and it is not halted. -/
def Machine.executing (s : Machine β) : Option (Machine β) :=
  if s.boundaryPending then
    let s := { s with events := s.events &&& ~~~EVT_HOST_TRAP }
    if s.shutdown then none
    else
      let inhibited := s.events &&& EVT_INHIBIT != 0
      let s := { s with events := s.events &&& ~~~EVT_INHIBIT }
      if !inhibited && s.events &&& EVT_NMI != 0 then none
      else
        match (if !inhibited && s.regs.rflags.contains RFlags.IF then s.intr else none) with
        | some _ => none
        | none => if s.halted then none else some s
  else some s

/-- With nothing pending there is no trap flag to heed. -/
theorem stepFast_eq {s : Machine β} (h : s.boundaryPending = false) :
    stepFast s = stepTraced s := by
  have htf : s.regs.rflags.contains RFlags.TF = false := by
    simp only [Cpu.boundaryPending, Bool.or_eq_false_iff,
      bne_eq_false_iff_eq] at h
    unfold RFlags.contains
    rw [h.2]
    rfl
  unfold stepFast stepTraced
  dsimp only
  rw [htf]
  rcases execRewound s with ⟨_ | c, u⟩ <;> rfl

/-- A step that executes an instruction, with the single-step trap behind
it. -/
theorem step_executing {s t : Machine β} (h : s.executing = some t) :
    step s = stepTraced t := by
  unfold Machine.executing at h
  unfold step
  cases hp : s.boundaryPending with
  | false =>
    rw [hp, if_neg (by decide)] at h
    cases h
    rw [if_neg (by decide), stepFast_eq hp]
  | true =>
    rw [hp, if_pos rfl] at h
    rw [if_pos rfl]
    unfold stepSlow
    dsimp only at h ⊢
    split at h
    · cases h
    rename_i hdown
    rw [if_neg hdown]
    split at h
    · cases h
    rename_i hnmi
    rw [if_neg hnmi]
    cases hintr : (if !(s.events &&& ~~~EVT_HOST_TRAP &&& EVT_INHIBIT != 0)
        && s.regs.rflags.contains RFlags.IF then s.intr else none) with
    | some vector =>
      rw [hintr] at h
      cases h
    | none =>
      rw [hintr] at h
      dsimp only at h ⊢
      split at h
      · cases h
      rename_i hhalted
      cases h
      rw [if_neg hhalted]

omit [Bus β] in
/-- What comes before the instruction counts no cycles. -/
theorem Machine.cycles_executing {s t : Machine β} (h : s.executing = some t) :
    t.cycles = s.cycles := by
  unfold Machine.executing at h
  split at h
  · dsimp only at h
    split at h
    · cases h
    split at h
    · cases h
    split at h
    · cases h
    split at h
    · cases h
    cases h
    rfl
  · cases h
    rfl

-- ======== the counter

/-- Delivering an exception counts no cycles by itself. -/
theorem cycles_deliver (e : Exception) (cls : Event) (s : Machine β) :
    (deliver e cls s).cycles = s.cycles :=
  deliver_keeps (P := fun t => t.cycles = s.cycles)
    (fun e cls t ht => (XferSteps.cycles ((raise e cls).bound t)).trans ht)
      (fun _ ht => ht)
    e cls rfl

/-- What an instruction returns is still to be added, unless the host took
its fault. -/
theorem cycles_execRewound {s : Machine β} (h : ¬s.WritesTsc) :
    (execRewound s).2.cycles
    = s.cycles + if (execRewound s).1.isSome then 0
      else INTERRUPT_CYCLES.setWidth 64 := by
  have hkept := cycles_execOne h
  unfold execRewound
  rcases hr : execOne s with ⟨e | c, u⟩ <;> rw [hr] at hkept
  · have hrewind : (u.rewind s.regs.gpr).cycles = s.cycles := by
      unfold Machine.rewind
      split <;> exact hkept
    dsimp only [faultEpilogue]
    split
    · exact congrArg (· + INTERRUPT_CYCLES.setWidth 64) hrewind
    · exact (cycles_deliver e .fault _).trans
        (hrewind.trans (BitVec.add_zero _).symm)
  · exact hkept.trans (BitVec.add_zero _).symm

/-- A traced step adds what it returns. -/
theorem cycles_stepTraced {s : Machine β} (h : ¬s.WritesTsc) :
    (stepTraced s).2.cycles = s.cycles + (stepTraced s).1.setWidth 64 := by
  have hbody := cycles_execRewound h
  unfold stepTraced
  dsimp only
  rcases hr : execRewound s with ⟨_ | c, u⟩ <;> rw [hr] at hbody
  · exact hbody
  · have hkept : u.cycles = s.cycles := hbody.trans (BitVec.add_zero _)
    dsimp only
    split
    · exact congrArg (· + (c + INTERRUPT_CYCLES).setWidth 64)
        ((cycles_deliver _ _ _).trans hkept)
    · exact congrArg (· + c.setWidth 64) hkept

/-- An interrupt adds its fixed charge. -/
theorem cycles_deliverExternal (vector : U8) (s : Machine β) :
    (deliverExternal vector s).2.cycles
      = s.cycles + INTERRUPT_CYCLES.setWidth 64 :=
  congrArg (· + INTERRUPT_CYCLES.setWidth 64) (cycles_deliver _ _ _)

/-- Where no instruction is executed, an event or the clock is charged for. -/
theorem cycles_idle {s : Machine β} (h : s.executing = none) :
    (step s).2.cycles = s.cycles + (step s).1.setWidth 64 := by
  unfold Machine.executing at h
  unfold step
  cases hp : s.boundaryPending with
  | false =>
    rw [hp, if_neg (by decide)] at h
    cases h
  | true =>
    rw [hp, if_pos rfl] at h
    rw [if_pos rfl]
    unfold stepSlow
    dsimp only at h ⊢
    split
    · rfl
    rename_i hdown
    rw [if_neg hdown] at h
    split
    · exact cycles_deliverExternal 2 _
    rename_i hnmi
    rw [if_neg hnmi] at h
    split
    · exact cycles_deliverExternal _ _
    rename_i hintr
    rw [hintr] at h
    dsimp only at h
    split
    · rfl
    rename_i hhalted
    rw [if_neg hhalted] at h
    cases h

/-- The step executes no WRMSR to IA32_TSC. -/
def Machine.SparesTsc (s : Machine β) : Prop :=
  ∀ t, s.executing = some t → ¬t.WritesTsc

/-- **Then it adds to the counter what it returns.** -/
theorem cycles_step {s : Machine β} (h : s.SparesTsc) :
    (step s).2.cycles = s.cycles + (step s).1.setWidth 64 := by
  cases hx : s.executing with
  | none => exact cycles_idle hx
  | some t =>
    have hkept : t.cycles = s.cycles := s.cycles_executing hx
    rw [step_executing hx, cycles_stepTraced (h t hx), hkept]

/-- Whether the single-step exception fires between the two states. -/
def Cpu.singleSteps (c c' : Cpu) : Bool :=
  c.regs.rflags.contains RFlags.TF && c'.regs.rflags.contains RFlags.TF
    && c'.events &&& EVT_INHIBIT == 0

/-- What a step is to be charged with: of a repeated string instruction the
prefixes, 5 cycles and 4 for every element, and the exception that may
follow it; where an element fails, the fault and the elements before it; of
anything else what it returns. -/
def Machine.charge (s : Machine β) : Nat :=
  match s.executing with
  | none => (step s).1.toNat
  | some t =>
    match t.activation with
    | none => (step s).1.toNat
    | some a =>
      match a.elements with
      | (.ok k, u) => a.npfx.toNat + (5 + 4 * k)
          + if t.singleSteps u.toCpu then INTERRUPT_CYCLES.toNat else 0
      | (.error _, _) => (step s).1.toNat + 4 * a.completed

/-- A repeated string instruction that the step comes to ends while the word
has room for its cycles, or does not get to its first element. -/
def Machine.RepInRoom (s : Machine β) : Prop :=
  ∀ t a, s.executing = some t → t.activation = some a →
    (∃ b, a.EndsWithin b ∧ a.npfx.toNat + (5 + 4 * b)
      + (if t.regs.rflags.contains RFlags.TF then INTERRUPT_CYCLES.toNat else 0) < 2 ^ 32)
    ∨ a.FailsFirst

namespace Activation

variable {a : Activation β} {u : Machine β} {k b : Nat} {e : Exception}

/-- A loop that ends within `b` elements completes at most `b`. -/
theorem EndsWithin.le (h : a.EndsWithin b) (hr : a.elements = (.ok k, u)) :
    k ≤ b := by
  obtain ⟨k', u', hk, hle⟩ := Repetition.EndsWithin.elements h
  cases hr.symm.trans hk
  exact hle

/-- A loop that ends does not fault. -/
theorem EndsWithin.not_error (h : a.EndsWithin b) :
    a.elements ≠ (.error e, u) := by
  obtain ⟨k, u', hk, -⟩ := Repetition.EndsWithin.elements h
  intro hr
  cases hr.symm.trans hk

/-- A loop that completes `k` elements ends within `k`. -/
theorem endsWithin_of_ok (hr : a.elements = (.ok k, u)) : a.EndsWithin k := by
  have hle : ∀ k' u', a.elements = (.ok k', u') → k' ≤ k := by
    intro k' u' hk
    cases hr.symm.trans hk
    exact Nat.le_refl k
  rcases Repetition.elements_le_iff.1 hle with hends | hfails
  · exact hends
  · obtain ⟨e, u', he⟩ := hfails.elements
    cases hr.symm.trans he

/-- A loop whose first element faults completes none. -/
theorem FailsFirst.not_ok (h : a.FailsFirst) : a.elements ≠ (.ok k, u) := by
  obtain ⟨e, u', he⟩ := Repetition.Fails.elements h.1
  intro hr
  cases hr.symm.trans he

end Activation

/-- No repeated string instruction needs no room. -/
theorem Machine.repInRoom_of_isNone {s : Machine β}
    (h : (s.executing.bind Machine.activation).isNone = true) :
    s.RepInRoom := by
  intro t a hx ha
  rw [hx, Option.bind_some, ha] at h
  cases h

/-- Room for what the loop completes is room, where no element fails. -/
theorem Machine.repInRoom_of_ok {s : Machine β} {c : U32} {k : Nat}
    (h : ((s.executing.bind Machine.activation).map fun a => (a.npfx, a.elements.1))
      = some (c, .ok k))
    (hroom : c.toNat + (5 + 4 * k) + INTERRUPT_CYCLES.toNat < 2 ^ 32) :
    s.RepInRoom := by
  intro t a hx ha
  rw [hx, Option.bind_some, ha, Option.map_some, Option.some.injEq,
    Prod.mk.injEq] at h
  refine Or.inl
    ⟨k, Activation.endsWithin_of_ok (u := a.elements.2) (Prod.ext h.2 rfl), ?_⟩
  rw [h.1]
  split <;> omega

/-- A sum in the word, where it has room. -/
theorem toNat_add_ofNat {c : U32} {m : Nat} (h : c.toNat + m < 2 ^ 32) :
    (c + BitVec.ofNat 32 m).toNat = c.toNat + m := by
  rw [BitVec.toNat_add, BitVec.toNat_ofNat,
    Nat.mod_eq_of_lt (show m < 2 ^ 32 by omega), Nat.mod_eq_of_lt h]

/-- **Then the step returns its charge.** -/
theorem Machine.RepInRoom.toNat_step {s : Machine β} (h : s.RepInRoom) :
    (step s).1.toNat = s.charge := by
  unfold Machine.charge
  cases hx : s.executing with
  | none => rfl
  | some t =>
    dsimp only
    cases ha : t.activation with
    | none => rfl
    | some a =>
      have hexec := execOne_activation ha
      dsimp only
      rcases hr : a.elements with ⟨e | k, u⟩ <;> rw [hr] at hexec
        <;> dsimp only
      · rcases h t a hx ha with ⟨b, hends, -⟩ | hfirst
        · exact absurd hr hends.not_error
        · rw [hfirst.2, Nat.mul_zero, Nat.add_zero]
      obtain ⟨b, hends, hroom⟩ | hfirst := h t a hx ha
      case inr => exact absurd hr hfirst.not_ok
      have hle := hends.le hr
      have hsum : a.npfx.toNat + (5 + 4 * k) < 2 ^ 32 := by omega
      have hstep : step s = stepTraced t := step_executing hx
      have hrewound :
        execRewound t = (some (a.npfx + BitVec.ofNat 32 (5 + 4 * k)), u) := by
        rw [execRewound, hexec]
        rfl
      rw [hstep, stepTraced, hrewound]
      dsimp only
      cases htrap : t.singleSteps u.toCpu with
      | false =>
        have hquiet :
          (t.regs.rflags.contains RFlags.TF && u.regs.rflags.contains RFlags.TF
          && u.events &&& EVT_INHIBIT == 0) = false := htrap
        rw [hquiet, if_neg Bool.false_ne_true, if_neg Bool.false_ne_true]
        exact toNat_add_ofNat hsum
      | true =>
        have hfires :
          (t.regs.rflags.contains RFlags.TF && u.regs.rflags.contains RFlags.TF
          && u.events &&& EVT_INHIBIT == 0) = true := htrap
        have htf : t.regs.rflags.contains RFlags.TF = true := by
          simp only [Bool.and_eq_true] at hfires
          exact hfires.1.1
        rw [htf, if_pos rfl] at hroom
        rw [hfires, if_pos rfl, if_pos rfl]
        have hlast :=
          toNat_add_ofNat (c := a.npfx + BitVec.ofNat 32 (5 + 4 * k))
          (m := INTERRUPT_CYCLES.toNat) (by rw [toNat_add_ofNat hsum]; omega)
        rw [BitVec.ofNat_toNat, BitVec.setWidth_eq,
          toNat_add_ofNat hsum] at hlast
        exact hlast

-- ======== runs

/-- The machine after `n` steps. -/
def Machine.after (s : Machine β) (n : Nat) : Machine β :=
  (fun s => (step s).2)^[n] s

/-- The exact number of cycles of `n` steps. -/
def Machine.charges (s : Machine β) (n : Nat) : Nat :=
  ∑ i ∈ Finset.range n, (s.after i).charge

/-- **A run counts every cycle** where its repeated string instructions end
in time. -/
theorem cycles_after {s : Machine β} {n : Nat}
    (h : ∀ i < n, (s.after i).RepInRoom ∧ (s.after i).SparesTsc) :
    (s.after n).cycles = s.cycles + BitVec.ofNat 64 (s.charges n) := by
  refine count_iterate (fun s : Machine β => s.cycles) fun i hi => ?_
  have hcharge := (h i hi).1.toNat_step
  unfold Machine.after at hcharge
  rw [← hcharge, BitVec.ofNat_toNat]
  exact cycles_step (h i hi).2

/-- So does the run loop, of the steps it takes. -/
theorem cycles_runInterp {s : Machine β} {n : Nat}
    (h : ∀ i < n, (s.after i).RepInRoom ∧ (s.after i).SparesTsc) :
    (runInterp s n).2.cycles
      = s.cycles + BitVec.ofNat 64 (s.charges (runInterp s n).1.1) := by
  rw [runInterp_eq]
  have hrun := Batch.run_stepped (B := batch β) n s
  have hcycles :=
    cycles_after fun i hi => h i (Nat.lt_of_lt_of_le hi hrun.count)
  rcases hrun.state with hstate | ⟨-, hstate⟩
  · rw [hstate]
    exact hcycles
  · rw [hstate]
    exact hcycles

end Remu.X64
