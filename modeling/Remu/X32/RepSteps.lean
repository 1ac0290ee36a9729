/-
The cycle counter over steps and runs.

Every step adds to the counter what it returns, and nothing else touches
it (`cycles_step`). A step that comes to a repeated string instruction
returns what its loop adds up, the prefixes on top (`execOne_activation`).
So where the word has room for every loop of a run, and no element faults
behind another one, the counter has the exact number in the end
(`cycles_after`).
-/
import Remu.X32.RepCycles
import Remu.X32.RunLoop
import Remu.X32.StackFrame

namespace Remu.X32

variable {β : Type} [Bus β] {α : Type}

-- ======== the LOCK prefix

/-- The LOCK prefix is as it was. -/
def LockKept (s s' : Machine β) : Prop := s'.lock = s.lock

omit [Bus β] in
instance instIsPreorderLockKept : IsPreorder (Machine β) LockKept where
  refl _ := rfl
  trans _ _ _ hab hbc := hbc.trans hab

/-- What works on memory alone does not touch the prefix. -/
theorem MemOnly.lockKept {x : Calm β α} (h : MemOnly x) : Reads LockKept x :=
  fun s a s' hx => congrArg DecodeState.lock (h s a s' hx).2

/-- The prefix is kept by every reader of memory. -/
theorem reading_lockKept : Reading (LockKept (β := β)) where
  translate s _ lin write q s' h :=
    (MemOnly.translate lin write).lockKept s q s' h
  busRead _ := (MemOnly.touchBus _ _).lockKept
  busRead16 _ := (MemOnly.touchBus _ _).lockKept
  busRead32 _ := (MemOnly.touchBus _ _).lockKept
  note _ _ _ := rfl
  eip _ _ := rfl

/-- A byte store works on memory alone. -/
theorem MemOnly.linWrite8 (lin : U32) (v : U8) :
    MemOnly (linWrite8 lin v : Calm β Unit) := by
  unfold X32.linWrite8
  refine MemOnly.self.bind fun s => ?_
  split
  · exact .pageStore _ _ _ _ _
  · exact (MemOnly.translate _ _).bind fun _ => .pageStore _ _ _ _ _

namespace LockKept

/-- A write of the hot registers, which hold no prefix. -/
theorem hot (g : HotRegs → HotRegs) (h : ∀ r, (g r).eflags.vm = r.eflags.vm) :
    Reads LockKept (modifyHot g h : Calm β Unit) := by
  intro s a s' hrun
  cases hrun
  rfl

theorem touchBus (f : β → α × β) (h : ∀ b, BusTouch b (f b).2) :
    Reads LockKept (touchBus f h : Calm β α) := (MemOnly.touchBus f h).lockKept

/-- The supervisor's reads restore what they borrow. -/
theorem asSupervisor {x : Calm β α} (hx : Reads LockKept x) :
    Reads LockKept (asSupervisor x) := by
  intro s a s' hrun
  have hset : (modifyDecode ({ · with supervisorOverride := true }) : Calm β
      Unit).run s
      = (.ok (), { s with supervisorOverride := true }) := rfl
  rw [X32.asSupervisor, Bounded.run_bind, Fallible.bind_of_ok (run_self s),
    Bounded.run_bind, Fallible.bind_of_ok hset, Bounded.run_bind,
    Bounded.run_outcome, Fallible.bind_apply, Fallible.outcome_apply] at hrun
  rcases hr : x.run { s with supervisorOverride := true } with ⟨e | b, t⟩
    <;> rw [hr] at hrun <;>
    cases hrun
  have hkept := hx _ _ _ hr
  exact hkept

theorem readBitmap (base : U32) (a n : Nat) :
    Reads LockKept (readBitmap base a n : Calm β U32) := by
  induction n generalizing a with
  | zero => exact .pure _
  | succ n ih =>
    exact (asSupervisor (reading_lockKept.linRead8 _)).bind fun _ =>
      (ih _).bind fun _ => .pure _

theorem ioCheck (port : U16) (size : Nat) :
    Reads LockKept (ioCheck port size : Calm β Unit) :=
  Reads.self.bind fun _ => .whenever _ <|
    (Reads.raiseIf _ _).bind fun _ => (Reads.raiseIf _ _).bind fun _ =>
    (asSupervisor (reading_lockKept.linRead16 _)).bind fun _ =>
      (Reads.raiseIf _ _).bind fun _ =>
    (readBitmap _ _ _).bind fun _ => .raiseIf _ _

theorem flags (g : EFlags → α × EFlags) (h : ∀ f, (g f).2.vm = f.vm) :
    Reads LockKept (withFlags g h : Calm β α) :=
  Reads.self.bind fun _ => (hot _ _).bind fun _ => .pure _

theorem ioWrite (port : U16) (v : U8) :
    Reads LockKept (ioWrite port v : Calm β Unit) :=
  touchBus _ _

theorem ioRead16 (port : U16) : Reads LockKept (ioRead16 port : Calm β U16) :=
  .readHalves (touchBus _ _) (touchBus _ _)

theorem ioWrite16 (port v : U16) :
    Reads LockKept (ioWrite16 port v : Calm β Unit) :=
  (ioWrite _ _).bind fun _ => ioWrite _ _

-- ------------------------------------------------------- string elements

/-- A width whose accesses keep it. -/
structure Width (z : StrWidth β) : Prop where
  read : ∀ seg off, Reads LockKept (z.read seg off)
  write : ∀ seg off v, Reads LockKept (z.write seg off v)
  setAcc : ∀ v, Reads LockKept (z.setAcc v)
  input : ∀ port, Reads LockKept (z.input port)
  output : ∀ port v, Reads LockKept (z.output port v)

theorem str8 : Width (str8 : StrWidth β) where
  read _ _ := (Reads.linAddr _ _ _ _).bind fun _ => reading_lockKept.linRead8 _
  write _ _ _ :=
    (Reads.linAddr _ _ _ _).bind fun _ => (MemOnly.linWrite8 _ _).lockKept
  setAcc v := hot (·.setReg8 0 v) fun _ => rfl
  input port := touchBus (Bus.ioRead · port) (.ioRead · port)
  output := ioWrite

theorem str16 : Width (str16 : StrWidth β) where
  read _ _ := (Reads.linAddr _ _ _ _).bind fun _ =>
    reading_lockKept.linRead16 _
  write _ _ _ :=
    (Reads.linAddr _ _ _ _).bind fun _ => (MemOnly.linWrite16 _ _).lockKept
  setAcc v := hot (·.setReg16 0 v) fun _ => rfl
  input := ioRead16
  output := ioWrite16

theorem str32 : Width (str32 : StrWidth β) where
  read _ _ := (Reads.linAddr _ _ _ _).bind fun _ =>
    reading_lockKept.linRead32 _
  write _ _ _ :=
    (Reads.linAddr _ _ _ _).bind fun _ => (MemOnly.linWrite32 _ _).lockKept
  setAcc v := hot (·.setReg32 0 v) fun _ => rfl
  input _ := .readHalves (ioRead16 _) (ioRead16 _)
  output _ _ := (ioWrite16 _ _).bind fun _ => ioWrite16 _ _

theorem stepIndex (i : U8) (n : U32) :
    Reads LockKept (stepIndex i n : Calm β Unit) :=
  Reads.self.bind fun _ => Reads.self.bind fun _ => hot _ _

variable {z : StrWidth β} (h : Width z)
include h

theorem readSi : Reads LockKept (readSi z) :=
  Reads.self.bind fun _ => h.read _ _

theorem readDi : Reads LockKept (readDi z) :=
  Reads.self.bind fun _ => h.read _ _

theorem writeDi (v : BitVec z.w) : Reads LockKept (writeDi z v) :=
  Reads.self.bind fun _ => h.write _ _ _

theorem movs : Reads LockKept (movs z) :=
  (readSi h).bind fun _ => (writeDi h _).bind fun _ => (stepIndex _ _).bind
    fun _ => stepIndex _ _

theorem cmps : Reads LockKept (cmps z) :=
  (readSi h).bind fun _ => (readDi h).bind fun _ => (flags _ _).bind fun _ =>
    (stepIndex _ _).bind fun _ => stepIndex _ _

theorem stos : Reads LockKept (stos z) :=
  Reads.self.bind fun _ => (writeDi h _).bind fun _ => stepIndex _ _

theorem lods : Reads LockKept (lods z) :=
  (readSi h).bind fun _ => (h.setAcc _).bind fun _ => stepIndex _ _

theorem scas : Reads LockKept (scas z) :=
  (readDi h).bind fun _ => Reads.self.bind fun _ =>
    (flags _ _).bind fun _ => stepIndex _ _

theorem ins : Reads LockKept (ins z) :=
  Reads.self.bind fun _ => (ioCheck _ _).bind fun _ =>
    (h.input _).bind fun _ =>
    (writeDi h _).bind fun _ => stepIndex _ _

theorem outs : Reads LockKept (outs z) :=
  Reads.self.bind fun _ => (ioCheck _ _).bind fun _ => (readSi h).bind fun _ =>
    (h.output _ _).bind fun _ => stepIndex _ _

omit h in
/-- The loop, by induction on its rounds. -/
theorem repLoop {one : Calm β Unit} (hone : Reads LockKept one)
    (cmp contOnZf : Bool) (n : Nat)
    (cycles : U32) : Reads LockKept (repLoop one cmp contOnZf n cycles) := by
  induction n generalizing cycles with
  | zero => exact .pure _
  | succ n ih =>
    refine Reads.self.bind fun s => ?_
    split
    · exact .pure _
    refine hone.bind fun _ => Reads.self.bind fun s =>
      (Reads.self.bind fun _ => hot _ _).bind
      fun _ => Reads.self.bind fun s => ?_
    dsimp only
    split
    · exact .pure _
    split
    · exact (hot _ _).bind fun _ => .pure _
    · exact ih _

omit h in
/-- A string instruction ends with the LOCK prefix it began with. -/
theorem stringOp {one : Calm β Unit} (hone : Reads LockKept one) (cmp : Bool) :
    Reads LockKept (stringOp one cmp) := by
  refine Reads.bind (R := LockKept) ?_ fun _ => Reads.self.bind fun s => ?_
  · intro s a s' hrun
    cases hrun
    rfl
  cases s.rep with
  | none => exact hone.bind fun _ => .pure _
  | some z => exact repLoop hone cmp z _ _

end LockKept

-- ======== activations

/-- The string instructions: opcode, element, and whether it compares. -/
def stringTable (osize32 : Bool) : List (U8 × Calm β Unit × Bool) :=
  let sized : StrWidth β := if osize32 then str32 else str16
  [(0x6C, ins str8, false), (0x6D, ins sized, false), (0x6E, outs str8, false),
    (0x6F, outs sized, false), (0xA4, movs str8, false),
      (0xA5, movs sized, false),
    (0xA6, cmps str8, true), (0xA7, cmps sized, true),
      (0xAA, stos str8, false),
    (0xAB, stos sized, false), (0xAC, lods str8, false),
      (0xAD, lods sized, false),
    (0xAE, scas str8, true), (0xAF, scas sized, true)]

/-- The arm of a string instruction runs its element, which keeps the LOCK
prefix. -/
theorem stringTable_spec (s : Machine β) :
    ∀ p ∈ stringTable (β := β) s.osize32,
    (dispatch p.1).run s = (stringOp p.2.1 p.2.2).run s
      ∧ Reads LockKept p.2.1 := by
  have h8 : LockKept.Width (str8 : StrWidth β) := LockKept.str8
  have hsized :
    LockKept.Width (if s.osize32 then str32 else str16 : StrWidth β) := by
    split
    · exact LockKept.str32
    · exact LockKept.str16
  simp only [stringTable, List.forall_mem_cons, List.not_mem_nil,
    false_implies, implies_true, and_true]
  exact ⟨⟨rfl, .ins h8⟩, ⟨rfl, .ins hsized⟩, ⟨rfl, .outs h8⟩,
    ⟨rfl, .outs hsized⟩,
    ⟨rfl, .movs h8⟩, ⟨rfl, .movs hsized⟩, ⟨rfl, .cmps h8⟩, ⟨rfl, .cmps hsized⟩,
    ⟨rfl, .stos h8⟩, ⟨rfl, .stos hsized⟩, ⟨rfl, .lods h8⟩, ⟨rfl, .lods hsized⟩,
    ⟨rfl, .scas h8⟩, ⟨rfl, .scas hsized⟩⟩

/-- A repeated string instruction that a step comes to: its element, and
the state behind its prefixes. -/
structure Activation (β : Type) [Bus β] where
  opcode : U8
  one : Calm β Unit
  cmp : Bool
  contOnZf : Bool
  npfx : U32
  entry : Machine β

namespace Activation

variable (a : Activation β)

/-- The elements it completes. -/
def elements : Except Exception Nat × Machine β :=
  repElements a.one a.cmp a.contOnZf a.entry

/-- Those it completes even where it fails in the end. -/
def completed : Nat :=
  (repetition a.one a.cmp a.contOnZf).completed
    a.entry.countReg.toNat a.entry.committed

/-- Its loop comes to its end within `b` elements. -/
def EndsWithin (b : Nat) : Prop :=
  RepEndsWithin a.one a.cmp a.contOnZf b a.entry

/-- Its first element fails. -/
def FailsFirst : Prop :=
  RepFails a.one a.cmp a.contOnZf a.entry ∧ a.completed = 0

end Activation

/-- The repeated string instruction at EIP. It is never a cached one, and
with a LOCK prefix it is undefined. -/
def Machine.activation (s : Machine β) : Option (Activation β) :=
  if s.begin.probe.isSome then none
  else match scanPrefixes.run s.begin.resetDecode with
  | (.error _, _) => none
  | (.ok (opcode, npfx), t) =>
    if t.lock then none
    else match t.rep, (stringTable t.osize32).find? (·.1 == opcode) with
    | some z, some (_, one, cmp) => some ⟨opcode, one, cmp, z, npfx, t⟩
    | _, _ => none

/-- How a machine comes to a repeated string instruction. -/
theorem Machine.activation_eq_some {s : Machine β} {a : Activation β}
    (h : s.activation = some a) :
    s.begin.probe = none
      ∧ scanPrefixes.run s.begin.resetDecode
        = (.ok (a.opcode, a.npfx), a.entry)
      ∧ a.entry.lock = false ∧ a.entry.rep = some a.contOnZf
      ∧ (a.opcode, a.one, a.cmp) ∈ stringTable a.entry.osize32 := by
  unfold Machine.activation at h
  split at h
  · cases h
  rename_i hprobe
  rcases hscan :
    scanPrefixes.run s.begin.resetDecode with ⟨e | ⟨opcode, npfx⟩, t⟩ <;>
    rw [hscan] at h
  · cases h
  dsimp only at h
  split at h
  · cases h
  rename_i hlock
  cases hrep : t.rep with
  | none =>
    rw [hrep] at h
    cases h
  | some z =>
    cases hfind : (stringTable (β := β) t.osize32).find? (·.1 == opcode) with
    | none =>
      rw [hrep, hfind] at h
      cases h
    | some p =>
      rw [hrep, hfind] at h
      have hsome := List.find?_some hfind
      have hopcode : p.1 = opcode := beq_iff_eq.1 hsome
      cases h
      exact ⟨Option.not_isSome_iff_eq_none.1 hprobe, rfl,
        Bool.eq_false_iff.2 hlock, hrep,
        hopcode ▸ List.mem_of_find?_eq_some hfind⟩

/-- The loop of the instruction at EIP runs, and its result comes back with
the prefixes on top. -/
theorem execOne_activation {s : Machine β} {a : Activation β}
    (h : s.activation = some a) :
    execOne s = (a.elements.1.map fun k => a.npfx + BitVec.ofNat 32
      (5 + 4 * k), a.elements.2) := by
  obtain ⟨hprobe, hscan, hlock, hrep, hmem⟩ := s.activation_eq_some h
  obtain ⟨hop, hone⟩ := stringTable_spec a.entry _ hmem
  have hrun := run_stringOp_elements a.one a.cmp a.contOnZf hrep
  have hscreen : (lockScreen a.opcode).run a.entry = (.ok (), a.entry) := by
    rw [lockScreen, Bounded.run_bind, Fallible.bind_of_ok (run_self a.entry),
      run_raiseIf, hlock, if_neg fun h => Bool.false_ne_true h.1]
  have hfused : execOne s = (runFused a.opcode a.npfx).run a.entry := by
    have hmiss : runMiss true s.begin.icachePhys s.begin
        = interpret true s.begin.icachePhys s.begin.resetDecode := rfl
    rw [execOne, Fallible.bind_of_ok (Fallible.modify_apply Machine.begin s),
      Fallible.bind_of_ok (Fallible.get_apply s.begin), hprobe]
    refine hmiss.trans ?_
    rw [interpret, Fallible.bind_of_ok hscan]
    dsimp only
    rw [Fallible.bind_of_ok hscreen,
      Fallible.bind_of_ok (Fallible.get_apply a.entry), hrep,
      Option.isNone_some, Bool.and_false, if_neg Bool.false_ne_true]
  have helems : repElements a.one a.cmp a.contOnZf a.entry = a.elements := rfl
  rw [hfused, runFused, Bounded.run_bind]
  rcases hr : a.elements with ⟨e | k, u⟩ <;> rw [helems, hr] at hrun
  · rw [Fallible.bind_of_error (hop.trans hrun)]
    rfl
  · have hunlocked : u.lock = false :=
      (LockKept.stringOp hone a.cmp a.entry _ u hrun).trans hlock
    rw [Fallible.bind_of_ok (hop.trans hrun)]
    simp only [Bounded.run_bind, self, Bounded.run_get, Fallible.bind_apply,
      Fallible.get_apply, hunlocked]
    rfl

-- ======== the counter

/-- The counter is as it was. -/
def CyclesKept (s s' : Machine β) : Prop := s'.cycles = s.cycles

omit [Bus β] in
instance instIsPreorderCyclesKept : IsPreorder (Machine β) CyclesKept where
  refl _ := rfl
  trans _ _ _ hab hbc := hbc.trans hab

/-- A primitive transfer of control leaves the counter alone. -/
theorem XferPrim.cyclesKept {s s' : Machine β} (h : XferPrim s s') :
    CyclesKept s s' := by
  cases h with
  | calm h => cases h <;> rfl
  | hot => rfl
  | prepare =>
    unfold Machine.prepared CyclesKept
    split <;> rfl
  | write => rfl

/-- A transfer of control does not count cycles. -/
theorem XferSteps.cyclesKept {s s' : Machine β} (h : XferSteps s s') :
    CyclesKept s s' := by
  induction h with
  | refl => exact refl_of CyclesKept s
  | tail _ hstep ih => exact trans_of CyclesKept ih hstep.cyclesKept

/-- No instruction touches it, however it ends. -/
theorem cyclesKept_execOne :
    Fallible.Along CyclesKept (execOne : Exec β U32) :=
  along_execOne XferSteps.cyclesKept fun _ _ h => h

/-- Delivering an exception counts no cycles by itself. -/
theorem cycles_deliver (e : Exception) (cls : Event) (s : Machine β) :
    (deliver e cls s).cycles = s.cycles :=
  deliver_keeps (P := fun t => t.cycles = s.cycles)
    (fun e cls t ht => (XferSteps.cyclesKept ((raise e cls).bound t)).trans ht)
      (fun _ ht => ht)
    e cls rfl

/-- What an instruction returns is still to be added, unless the host took
its fault. -/
theorem cycles_execRewound (s : Machine β) : (execRewound s).2.cycles
    = s.cycles + if (execRewound s).1.isSome then 0
      else INTERRUPT_CYCLES.setWidth 64 := by
  have hkept : (execOne s).2.cycles = s.cycles := cyclesKept_execOne s
  unfold execRewound
  rcases hr : execOne s with ⟨e | c, u⟩ <;> rw [hr] at hkept
  · have hrewind : (u.rewind s.regs.gpr).cycles = s.cycles := by
      unfold Machine.rewind
      split <;> exact hkept
    dsimp only [faultEpilogue]
    split
    · exact congrArg (· + INTERRUPT_CYCLES.setWidth 64) hrewind
    · exact (cycles_deliver e .fault _).trans
        (hrewind.trans (BitVec.add_zero _).symm)
  · exact hkept.trans (BitVec.add_zero _).symm

/-- A fast step adds what it returns. -/
theorem cycles_stepFast (s : Machine β) :
    (stepFast s).2.cycles = s.cycles + (stepFast s).1.setWidth 64 := by
  have hbody := cycles_execRewound s
  unfold stepFast
  rcases hr : execRewound s with ⟨_ | c, u⟩ <;> rw [hr] at hbody
  · exact hbody
  · exact congrArg (· + c.setWidth 64) (hbody.trans (BitVec.add_zero _))

/-- A traced step adds what it returns. -/
theorem cycles_stepTraced (s : Machine β) :
    (stepTraced s).2.cycles = s.cycles + (stepTraced s).1.setWidth 64 := by
  have hbody := cycles_execRewound s
  unfold stepTraced
  dsimp only
  rcases hr : execRewound s with ⟨_ | c, u⟩ <;> rw [hr] at hbody
  · exact hbody
  · have hkept : u.cycles = s.cycles := hbody.trans (BitVec.add_zero _)
    dsimp only
    split
    · exact congrArg (· + (c + INTERRUPT_CYCLES).setWidth 64)
        ((cycles_deliver _ _ _).trans hkept)
    · exact congrArg (· + c.setWidth 64) hkept

/-- An interrupt adds its fixed charge. -/
theorem cycles_deliverExternal (vector : U8) (s : Machine β) :
    (deliverExternal vector s).2.cycles
      = s.cycles + INTERRUPT_CYCLES.setWidth 64 :=
  congrArg (· + INTERRUPT_CYCLES.setWidth 64) (cycles_deliver _ _ _)

/-- A slow step adds what it returns, whichever event it takes. -/
theorem cycles_stepSlow (s : Machine β) :
    (stepSlow s).2.cycles = s.cycles + (stepSlow s).1.setWidth 64 := by
  unfold stepSlow
  dsimp only
  split
  · rfl
  split
  · exact cycles_deliverExternal 2 _
  split
  · exact cycles_deliverExternal _ _
  split
  · rfl
  · exact cycles_stepTraced _

/-- **A step adds to the counter what it returns.** -/
theorem cycles_step (s : Machine β) :
    (step s).2.cycles = s.cycles + (step s).1.setWidth 64 := by
  unfold step
  split
  · exact cycles_stepSlow s
  · exact cycles_stepFast s

-- ======== steps

/-- The machine as a step lets it execute an instruction, if no event comes
first and it is not halted. -/
def Machine.executing (s : Machine β) : Option (Machine β) :=
  if s.boundaryPending then
    let s := { s with events := s.events &&& ~~~EVT_HOST_TRAP }
    if s.shutdown then none
    else
      let inhibited := s.events &&& EVT_INHIBIT != 0
      let s := { s with events := s.events &&& ~~~EVT_INHIBIT }
      if !inhibited && s.events &&& EVT_NMI != 0 then none
      else
        match (if !inhibited && s.regs.eflags.contains EFlags.IF then s.intr else none) with
        | some _ => none
        | none => if s.halted then none else some s
  else some s

/-- With nothing pending there is no trap flag to heed. -/
theorem stepFast_eq {s : Machine β} (h : s.boundaryPending = false) :
    stepFast s = stepTraced s := by
  have htf : s.regs.eflags.contains EFlags.TF = false := by
    simp only [Cpu.boundaryPending, Bool.or_eq_false_iff,
      bne_eq_false_iff_eq] at h
    unfold EFlags.contains
    rw [h.2]
    rfl
  unfold stepFast stepTraced
  dsimp only
  rw [htf]
  rcases execRewound s with ⟨_ | c, u⟩ <;> rfl

/-- A step that executes an instruction, with the single-step trap behind
it. -/
theorem step_executing {s t : Machine β} (h : s.executing = some t) :
    step s = stepTraced t := by
  unfold Machine.executing at h
  unfold step
  cases hp : s.boundaryPending with
  | false =>
    rw [hp, if_neg (by decide)] at h
    cases h
    rw [if_neg (by decide), stepFast_eq hp]
  | true =>
    rw [hp, if_pos rfl] at h
    rw [if_pos rfl]
    unfold stepSlow
    dsimp only at h ⊢
    split at h
    · cases h
    rename_i hdown
    rw [if_neg hdown]
    split at h
    · cases h
    rename_i hnmi
    rw [if_neg hnmi]
    cases hintr : (if !(s.events &&& ~~~EVT_HOST_TRAP &&& EVT_INHIBIT != 0)
        && s.regs.eflags.contains EFlags.IF then s.intr else none) with
    | some vector =>
      rw [hintr] at h
      cases h
    | none =>
      rw [hintr] at h
      dsimp only at h ⊢
      split at h
      · cases h
      rename_i hhalted
      cases h
      rw [if_neg hhalted]

/-- Whether the single-step exception fires between the two states. -/
def Cpu.singleSteps (c c' : Cpu) : Bool :=
  c.regs.eflags.contains EFlags.TF && c'.regs.eflags.contains EFlags.TF
    && c'.events &&& EVT_INHIBIT == 0

/-- What a step is to be charged with: of a repeated string instruction the
prefixes, 5 cycles and 4 for every element, and the exception that may
follow it; where an element fails, the fault and the elements before it; of
anything else what it returns. -/
def Machine.charge (s : Machine β) : Nat :=
  match s.executing with
  | none => (step s).1.toNat
  | some t =>
    match t.activation with
    | none => (step s).1.toNat
    | some a =>
      match a.elements with
      | (.ok k, u) => a.npfx.toNat + (5 + 4 * k)
          + if t.singleSteps u.toCpu then INTERRUPT_CYCLES.toNat else 0
      | (.error _, _) => (step s).1.toNat + 4 * a.completed

/-- A repeated string instruction that the step comes to ends while the word
has room for its cycles, or does not get to its first element. -/
def Machine.RepInRoom (s : Machine β) : Prop :=
  ∀ t a, s.executing = some t → t.activation = some a →
    (∃ b, a.EndsWithin b ∧ a.npfx.toNat + (5 + 4 * b)
      + (if t.regs.eflags.contains EFlags.TF then INTERRUPT_CYCLES.toNat else 0) < 2 ^ 32)
    ∨ a.FailsFirst

namespace Activation

variable {a : Activation β} {u : Machine β} {k b : Nat} {e : Exception}

/-- A loop that ends within `b` elements completes at most `b`. -/
theorem EndsWithin.le (h : a.EndsWithin b) (hr : a.elements = (.ok k, u)) :
    k ≤ b := by
  obtain ⟨k', u', hk, hle⟩ := Repetition.EndsWithin.elements h
  cases hr.symm.trans hk
  exact hle

/-- A loop that ends does not fault. -/
theorem EndsWithin.not_error (h : a.EndsWithin b) :
    a.elements ≠ (.error e, u) := by
  obtain ⟨k, u', hk, -⟩ := Repetition.EndsWithin.elements h
  intro hr
  cases hr.symm.trans hk

/-- A loop that completes `k` elements ends within `k`. -/
theorem endsWithin_of_ok (hr : a.elements = (.ok k, u)) : a.EndsWithin k := by
  have hle : ∀ k' u', a.elements = (.ok k', u') → k' ≤ k := by
    intro k' u' hk
    cases hr.symm.trans hk
    exact Nat.le_refl k
  rcases Repetition.elements_le_iff.1 hle with hends | hfails
  · exact hends
  · obtain ⟨e, u', he⟩ := hfails.elements
    cases hr.symm.trans he

/-- A loop whose first element faults completes none. -/
theorem FailsFirst.not_ok (h : a.FailsFirst) : a.elements ≠ (.ok k, u) := by
  obtain ⟨e, u', he⟩ := Repetition.Fails.elements h.1
  intro hr
  cases hr.symm.trans he

end Activation

/-- No repeated string instruction needs no room. -/
theorem Machine.repInRoom_of_isNone {s : Machine β}
    (h : (s.executing.bind Machine.activation).isNone = true) :
    s.RepInRoom := by
  intro t a hx ha
  rw [hx, Option.bind_some, ha] at h
  cases h

/-- Room for what the loop completes is room, where no element fails. -/
theorem Machine.repInRoom_of_ok {s : Machine β} {c : U32} {k : Nat}
    (h : ((s.executing.bind Machine.activation).map fun a => (a.npfx, a.elements.1))
      = some (c, .ok k))
    (hroom : c.toNat + (5 + 4 * k) + INTERRUPT_CYCLES.toNat < 2 ^ 32) :
    s.RepInRoom := by
  intro t a hx ha
  rw [hx, Option.bind_some, ha, Option.map_some, Option.some.injEq,
    Prod.mk.injEq] at h
  refine Or.inl
    ⟨k, Activation.endsWithin_of_ok (u := a.elements.2) (Prod.ext h.2 rfl), ?_⟩
  rw [h.1]
  split <;> omega

/-- A sum in the word, where it has room. -/
theorem toNat_add_ofNat {c : U32} {m : Nat} (h : c.toNat + m < 2 ^ 32) :
    (c + BitVec.ofNat 32 m).toNat = c.toNat + m := by
  rw [BitVec.toNat_add, BitVec.toNat_ofNat,
    Nat.mod_eq_of_lt (show m < 2 ^ 32 by omega), Nat.mod_eq_of_lt h]

/-- **Then the step returns its charge.** -/
theorem Machine.RepInRoom.toNat_step {s : Machine β} (h : s.RepInRoom) :
    (step s).1.toNat = s.charge := by
  unfold Machine.charge
  cases hx : s.executing with
  | none => rfl
  | some t =>
    dsimp only
    cases ha : t.activation with
    | none => rfl
    | some a =>
      have hexec := execOne_activation ha
      dsimp only
      rcases hr : a.elements with ⟨e | k, u⟩ <;> rw [hr] at hexec
        <;> dsimp only
      · rcases h t a hx ha with ⟨b, hends, -⟩ | hfirst
        · exact absurd hr hends.not_error
        · rw [hfirst.2, Nat.mul_zero, Nat.add_zero]
      obtain ⟨b, hends, hroom⟩ | hfirst := h t a hx ha
      case inr => exact absurd hr hfirst.not_ok
      have hle := hends.le hr
      have hsum : a.npfx.toNat + (5 + 4 * k) < 2 ^ 32 := by omega
      have hstep : step s = stepTraced t := step_executing hx
      have hrewound :
        execRewound t = (some (a.npfx + BitVec.ofNat 32 (5 + 4 * k)), u) := by
        rw [execRewound, hexec]
        rfl
      rw [hstep, stepTraced, hrewound]
      dsimp only
      cases htrap : t.singleSteps u.toCpu with
      | false =>
        have hquiet :
          (t.regs.eflags.contains EFlags.TF && u.regs.eflags.contains EFlags.TF
          && u.events &&& EVT_INHIBIT == 0) = false := htrap
        rw [hquiet, if_neg Bool.false_ne_true, if_neg Bool.false_ne_true]
        exact toNat_add_ofNat hsum
      | true =>
        have hfires :
          (t.regs.eflags.contains EFlags.TF && u.regs.eflags.contains EFlags.TF
          && u.events &&& EVT_INHIBIT == 0) = true := htrap
        have htf : t.regs.eflags.contains EFlags.TF = true := by
          simp only [Bool.and_eq_true] at hfires
          exact hfires.1.1
        rw [htf, if_pos rfl] at hroom
        rw [hfires, if_pos rfl, if_pos rfl]
        have hlast :=
          toNat_add_ofNat (c := a.npfx + BitVec.ofNat 32 (5 + 4 * k))
          (m := INTERRUPT_CYCLES.toNat) (by rw [toNat_add_ofNat hsum]; omega)
        rw [BitVec.ofNat_toNat, BitVec.setWidth_eq,
          toNat_add_ofNat hsum] at hlast
        exact hlast

-- ======== runs

/-- The machine after `n` steps. -/
def Machine.after (s : Machine β) (n : Nat) : Machine β :=
  (fun s => (step s).2)^[n] s

/-- The exact number of cycles of `n` steps. -/
def Machine.charges (s : Machine β) (n : Nat) : Nat :=
  ∑ i ∈ Finset.range n, (s.after i).charge

/-- **A run counts every cycle** where its repeated string instructions end
in time. -/
theorem cycles_after {s : Machine β} {n : Nat}
    (h : ∀ i < n, (s.after i).RepInRoom) :
    (s.after n).cycles = s.cycles + BitVec.ofNat 64 (s.charges n) := by
  refine count_iterate (fun s : Machine β => s.cycles) fun i hi => ?_
  have hcharge := (h i hi).toNat_step
  unfold Machine.after at hcharge
  rw [← hcharge, BitVec.ofNat_toNat]
  exact cycles_step _

/-- So does the run loop, of the steps it takes. -/
theorem cycles_runInterp {s : Machine β} {n : Nat}
    (h : ∀ i < n, (s.after i).RepInRoom) :
    (runInterp s n).2.cycles
      = s.cycles + BitVec.ofNat 64 (s.charges (runInterp s n).1.1) := by
  rw [runInterp_eq]
  have hrun := Batch.run_stepped (B := batch β) n s
  have hcycles :=
    cycles_after fun i hi => h i (Nat.lt_of_lt_of_le hi hrun.count)
  rcases hrun.state with hstate | ⟨-, hstate⟩
  · rw [hstate]
    exact hcycles
  · rw [hstate]
    exact hcycles

end Remu.X32
