/-
A faulting instruction is undone completely.

The snapshot a fault rewinds from is split: the general registers and RIP
are saved for every instruction, the cold registers only once some handler
asks for it (`prepare_cold_write`). `coldAtStart` is the register file as
that discipline remembers it: the capture when there is one, the live
registers when there is none. No step of any instruction moves it, because
the one step that writes a cold register finds the capture taken. So the
rewind puts back exactly what the instruction started with.
-/
import Remu.X64.Record

namespace Remu.X64

variable {β : Type} [Bus β] {α : Type}

/-- The cold registers the rewind would restore. -/
def Machine.coldAtStart {β : Type} (s : Machine β) : ColdRegs :=
  if s.coldSaved then s.faultRegs.toColdRegs else s.regs.toColdRegs

/-- What a rewind reads besides the live registers stays put. -/
def Rewindable {β : Type} (s s' : Machine β) : Prop :=
  s'.coldAtStart = s.coldAtStart ∧ s'.startRip = s.startRip

instance {β : Type} : IsPreorder (Machine β) Rewindable where
  refl _ := ⟨rfl, rfl⟩
  trans _ _ _ hab hbc := ⟨hbc.1.trans hab.1, hbc.2.trans hab.2⟩

-- ======== one step

theorem CalmPrim.rewindable {s s' : Machine β} (h : CalmPrim s s') :
    Rewindable s s' := by
  cases h <;> exact ⟨rfl, rfl⟩

omit [Bus β] in
theorem Machine.rewindable_prepared (s : Machine β) :
    Rewindable s s.prepared := by
  unfold Machine.prepared
  split
  case isTrue hsaved => exact ⟨rfl, rfl⟩
  case isFalse hsaved =>
    refine ⟨?_, rfl⟩
    simp only [coldAtStart, if_true, if_neg hsaved]

omit [Bus β] in
/-- Behind the capture the live cold registers do not matter. -/
theorem coldAtStart_of_saved {s : Machine β} (hsaved : s.coldSaved = true)
    (r : Registers) :
    Rewindable s { s with regs := r } := by
  refine ⟨?_, rfl⟩
  simp only [Machine.coldAtStart, hsaved, if_true]

theorem XferPrim.rewindable {s s' : Machine β} (h : XferPrim s s') :
    Rewindable s s' := by
  cases h with
  | calm h => exact h.rewindable
  | hot r => exact ⟨rfl, rfl⟩
  | prepare => exact s.rewindable_prepared
  | write r hsaved hmode => exact coldAtStart_of_saved hsaved _

theorem ColdPrim.rewindable {s s' : Machine β} (h : ColdPrim s s') :
    Rewindable s s' := by
  cases h with
  | xfer h => exact h.rewindable
  | mode r hsaved => exact coldAtStart_of_saved hsaved r
  | cycles n => exact ⟨rfl, rfl⟩

-- ======== whole programs

theorem ColdSteps.rewindable {s s' : Machine β} (h : ColdSteps s s') :
    Rewindable s s' := by
  induction h with
  | refl => exact refl_of Rewindable s
  | tail _ hstep ih => exact trans_of Rewindable ih hstep.rewindable

theorem Cold.rewindable (m : Cold β α) : Fallible.Along Rewindable m.run :=
  fun s => ColdSteps.rewindable (m.bound s)

theorem Calm.rewindable (m : Calm β α) : Fallible.Along Rewindable m.run :=
  fun s => ColdSteps.rewindable (CalmSteps.xfer (m.bound s)).cold

omit [Bus β] in
theorem rewindable_icacheFill (phys : Option U64) (d : DecodedInsn) :
    Fallible.Along Rewindable
      (Fallible.modify (·.icacheFill phys d) : Fallible (Machine β)
        Exception Unit) := by
  intro s
  cases phys <;> exact ⟨rfl, rfl⟩

theorem rewindable_runDecoded (phys : Option U64) (opcode : U8) (npfx : U32) :
    Fallible.Along Rewindable (runDecoded phys opcode npfx : Exec β U32) := by
  refine .bind (Calm.rewindable _) fun r => ?_
  cases r with
  | hot d =>
    exact .bind (rewindable_icacheFill phys d) fun _ =>
      .bind (Calm.rewindable _) fun _ => .pure _
  | cold0F op2 => exact .bind (Cold.rewindable _) fun _ => .pure _
  | cold => exact Cold.rewindable _

theorem rewindable_interpret (tryHot : Bool) (phys : Option U64) :
    Fallible.Along Rewindable (interpret tryHot phys : Exec β U32) := by
  refine .bind (Calm.rewindable _) fun p => .bind (Calm.rewindable _) fun _ =>
    .bind .get fun s => ?_
  split
  · exact rewindable_runDecoded phys p.1 p.2
  · exact Cold.rewindable _

-- ======== one instruction

omit [Bus β] in
/-- An instruction that starts by clearing `cold_saved` remembers the
registers it started with. -/
theorem coldAtStart_of_unsaved {s s' : Machine β}
    (hsaved : s.coldSaved = false)
    (h : Rewindable s s') : s'.coldAtStart = s.regs.toColdRegs := by
  rw [h.1, Machine.coldAtStart, hsaved]
  rfl

/-- Whatever an instruction does, the registers it started with are what a
rewind would restore. -/
theorem execOne_rewindable (s : Machine β) :
    (execOne s).2.coldAtStart = s.regs.toColdRegs
      ∧ (execOne s).2.startRip = s.regs.rip := by
  unfold execOne
  rw [Fallible.bind_of_ok (Fallible.modify_apply _ _),
    Fallible.bind_of_ok (Fallible.get_apply _)]
  cases s.begin.probe with
  | some d =>
    have hrun : Rewindable (s.begin.beginDecoded d) (runHit d s.begin).2 :=
      Fallible.Along.bind (Calm.rewindable (execDecoded d)) (fun _ => .pure _)
        (s.begin.beginDecoded d)
    have hcold := coldAtStart_of_unsaved (s := s.begin.beginDecoded d) rfl hrun
    exact ⟨hcold, hrun.2⟩
  | none =>
    have hrun : Rewindable s.begin.resetDecode
      (runMiss true s.begin.icachePhys s.begin).2 :=
      rewindable_interpret true _ s.begin.resetDecode
    have hcold := coldAtStart_of_unsaved (s := s.begin.resetDecode) rfl hrun
    exact ⟨hcold, hrun.2⟩

omit [Bus β] in
/-- A rewind restores what the instruction remembers, RFLAGS and CR2
apart. -/
theorem Machine.regs_rewind {s : Machine β} (hcommit : s.commitOnFault = false)
    (savedGpr : U8 → U64) :
    (s.rewind savedGpr).regs
      = { gpr := savedGpr, rip := s.startRip, rflags := s.regs.rflags, cr2 := s.regs.cr2,
          toColdRegs := s.coldAtStart } := by
  simp only [Machine.rewind, hcommit, Bool.false_eq_true, if_false,
    Machine.coldAtStart]
  split <;> rfl

/-- An instruction that fails without committing leaves, once rewound,
every register as it found it, RFLAGS and CR2 apart: general registers,
RIP, segments with their descriptor caches, system tables, control, debug
and model-specific registers. -/
theorem fault_rewind_complete {s s' : Machine β} {e : Exception}
    (h : execOne s = (.error e, s')) (hcommit : s'.commitOnFault = false) :
    (s'.rewind s.regs.gpr).regs
      = { s.regs with rflags := s'.regs.rflags, cr2 := s'.regs.cr2 } := by
  obtain ⟨hcold, hrip⟩ := execOne_rewindable s
  rw [h] at hcold hrip
  rw [Machine.regs_rewind hcommit, hcold, hrip]

/-- A far return to privilege 3 at the reset vector, in protected mode. The
code segment it pops is the descriptor at 8; the stack segment is null. -/
def outerReturn : Machine (FlatBus Unit) :=
  { Cpu.new with
    regs := { Registers.new with cr0 := 0x11 }
    bus :=
      { mem := fun a =>
          match a.toNat with
          | 0xFFFFFFF0 => 0xCB
          | 2 => 0x0B
          | 8 | 9 => 0xFF
          | 13 => 0xFB
          | _ => 0
        ports := () } }

/-- It has loaded CS, RIP and RSP when the null selector fails it, and the
rewind takes all three back. -/
theorem fault_rewind_complete_outerReturn :
    (execOne outerReturn).1 = .error (Exception.gp 0)
      ∧ ((execOne outerReturn).2.regs.seg reg.CS).sel = 0x0B
      ∧ ((execOne outerReturn).2.regs.gpr reg.RSP) = 8
      ∧ ((execOne outerReturn).2.rewind outerReturn.regs.gpr).regs
        = { outerReturn.regs with
            rflags := (execOne outerReturn).2.regs.rflags
            cr2 := (execOne outerReturn).2.regs.cr2 } := by
  have hgp : (execOne outerReturn).1 = .error (Exception.gp 0) := by
    decide
  have hcommit :
    (execOne outerReturn).2.commitOnFault = false := by decide
  exact ⟨hgp, by decide, by decide +kernel,
    fault_rewind_complete (Prod.ext hgp rfl) hcommit⟩

end Remu.X64
