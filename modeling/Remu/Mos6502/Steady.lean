/-
What an instruction leaves alone.

No operation touches the interrupt lines or the NMI latch, and P keeps U set
and B clear: every operation writes flags that are storage, and the byte
that PLP and RTI pull is put right.
-/
import Remu.Mos6502.Execute

namespace Remu.Mos6502

open Status (C Z I D V N Settled)

variable {β : Type}

/-- The lines and the latch are the same, and P keeps its convention. -/
structure Steady (s t : Machine β) : Prop where
  settled : s.cpu.regs.p.Settled → t.cpu.regs.p.Settled
  nmiPending : t.cpu.nmiPending = s.cpu.nmiPending
  prevNmi : t.cpu.prevNmi = s.cpu.prevNmi
  irqLine : t.cpu.irqLine = s.cpu.irqLine

instance : IsPreorder (Machine β) Steady where
  refl _ := ⟨id, rfl, rfl, rfl⟩
  trans _ _ _ h h' :=
    ⟨h'.settled ∘ h.settled, h'.nmiPending.trans h.nmiPending,
      h'.prevNmi.trans h.prevNmi,
    h'.irqLine.trans h.irqLine⟩

/-- A change of the registers that keeps the convention. -/
def KeepsP (f : Registers → Registers) : Prop :=
  ∀ r, r.p.Settled → (f r).p.Settled

namespace Registers

variable {r : Registers} {v : U8}

/-- The arithmetic sets its flags one by one, so the two that do not exist stay
as they are. -/
theorem settled_adc (h : r.p.Settled) : (r.adc v).p.Settled := by
  rw [adc]
  split
  · exact (((h.set (by decide) _).set (by decide) _).set (by decide) _).set
      (by decide) _
  · exact ((h.set (by decide) _).set (by decide) _).setZn _

theorem settled_sbc (h : r.p.Settled) : (r.sbc v).p.Settled :=
  ((h.set (by decide) _).set (by decide) _).setZn _

theorem settled_compare {reg : U8} (h : r.p.Settled) :
    (r.compare reg v).p.Settled :=
  (h.set (by decide) _).setZn _

theorem settled_bit (h : r.p.Settled) : (r.bit v).p.Settled :=
  ((h.set (by decide) _).set (by decide) _).set (by decide) _

theorem settled_shifted {out : Bool} (h : r.p.Settled) :
    (r.shifted out v).2.p.Settled :=
  (h.set (by decide) _).setZn _

end Registers

namespace Exec

open Fallible (Along)

-- ======== accesses

/-- Accesses: none writes P. -/
theorem steady_regs : Along Steady (regs : Exec β Registers) :=
  fun s => refl_of Steady s

theorem steady_modifyRegs {f : Registers → Registers} (hf : KeepsP f) :
    Along Steady (modifyRegs f : Exec β Unit) :=
      fun s => ⟨hf s.cpu.regs, rfl, rfl, rfl⟩

theorem steady_addCycles (cycles : U8) :
    Along Steady (modifyCpu (·.addCycles cycles) : Exec β Unit) :=
  fun _ => ⟨id, rfl, rfl, rfl⟩

variable [Bus β]

theorem steady_read (addr : U16) : Along Steady (read addr : Exec β U8) :=
  fun _ => ⟨id, rfl, rfl, rfl⟩

theorem steady_write (addr : U16) (v : U8) :
    Along Steady (write addr v : Exec β Unit) :=
  fun _ => ⟨id, rfl, rfl, rfl⟩

theorem steady_readVector (addr : U16) :
    Along Steady (readVector addr : Exec β U16) :=
  fun _ => ⟨id, rfl, rfl, rfl⟩

theorem steady_fetchByte : Along Steady (fetchByte : Exec β U8) :=
  .bind steady_regs fun _ => .bind (steady_read _) fun _ =>
    .bind (steady_modifyRegs fun _ h => h) fun _ => .pure _

theorem steady_fetchWord : Along Steady (fetchWord : Exec β U16) :=
  .bind steady_fetchByte fun _ => .bind steady_fetchByte fun _ => .pure _

theorem steady_push (v : U8) : Along Steady (push v : Exec β Unit) :=
  .bind steady_regs fun _ => .bind (steady_write _ _) fun _ =>
    steady_modifyRegs fun _ h => h

theorem steady_pull : Along Steady (pull : Exec β U8) :=
  .bind (steady_modifyRegs fun _ h => h) fun _ =>
    .bind steady_regs fun _ => steady_read _

theorem steady_pushStatus (withB : Bool) :
    Along Steady (pushStatus withB : Exec β Unit) :=
  .bind steady_regs fun _ => steady_push _

/-- A pulled P is put in with its two fixed bits. -/
theorem steady_pullStatus : Along Steady (pullStatus : Exec β Unit) :=
  .bind steady_pull fun _ => steady_modifyRegs fun _ _ =>
    Status.settled_pulled _

/-- A service sets I. -/
theorem steady_serviceInterrupt (vector : U16) (withB : Bool) :
    Along Steady (serviceInterrupt vector withB : Exec β Unit) :=
  .bind steady_regs fun _ => .bind (steady_push _) fun _ =>
    .bind (steady_push _) fun _ =>
    .bind (steady_pushStatus _) fun _ =>
      .bind (steady_modifyRegs fun _ h => h.insert (by decide)) fun _ =>
      .bind (steady_readVector _) fun _ => steady_modifyRegs fun _ h => h

theorem steady_readPointer (lo hi : U16) :
    Along Steady (readPointer lo hi : Exec β U16) :=
  .bind (steady_read _) fun _ => .bind (steady_read _) fun _ => .pure _

/-- Finding an operand. -/
theorem steady_resolve (mode : AddressingMode) :
    Along Steady (resolve mode : Exec β Operand) := by
  cases mode
  case implied | accumulator | jsrAbsolute =>
    exact .pure _
  case immediate =>
    exact .bind steady_regs fun _ =>
      .bind (steady_modifyRegs fun _ h => h) fun _ => .pure _
  case zeroPage =>
    exact .bind steady_fetchByte fun _ => .pure _
  case absolute =>
    exact .bind steady_fetchWord fun _ => .pure _
  case zeroPageX | zeroPageY | relative =>
    exact .bind steady_fetchByte fun _ => .bind steady_regs fun _ => .pure _
  case absoluteX | absoluteY =>
    exact .bind steady_fetchWord fun _ =>
      .bind steady_regs fun _ => .pure _
  case indirect =>
    exact .bind steady_fetchWord fun _ =>
      .bind (steady_readPointer _ _) fun _ => .pure _
  case indexedIndirect =>
    exact .bind steady_fetchByte fun _ => .bind steady_regs fun _ =>
      .bind (steady_readPointer _ _) fun _ => .pure _
  case indirectIndexed =>
    exact .bind steady_fetchByte fun _ => .bind (steady_readPointer _ _)
      fun _ => .bind steady_regs fun _ => .pure _

-- ======== operations

omit [Bus β] in
/-- An operation on the registers that keeps P settled. -/
theorem steady_alter {f : Registers → Registers} (hf : KeepsP f) :
    Along Steady (alter f : Exec β U8) :=
  .bind (steady_modifyRegs hf) fun _ => .pure _

theorem steady_onOperand (m : Operand) {f : Registers → U8 → Registers}
    (hf : ∀ v, KeepsP (f · v)) :
    Along Steady (onOperand m f : Exec β U8) :=
  .bind (steady_read _) fun v => steady_alter (hf v)

theorem steady_store (m : Operand) (f : Registers → U8) :
    Along Steady (store m f : Exec β U8) :=
  .bind steady_regs fun _ => .bind (steady_write _ _) fun _ => .pure _

/-- The registers an update computes are installed as they were read. -/
theorem steady_rmw (m : Operand) {f : Registers → U8 → U8 × Registers}
    (hf : ∀ v, KeepsP fun r => (f r v).2) :
    Along Steady (rmw m f : Exec β U8) := by
  refine .bind (steady_read _) fun v => ?_
  intro s
  refine trans_of Steady
    (b := ⟨{ s.cpu with regs := (f s.cpu.regs v).2 }, s.bus⟩)
    ⟨hf v s.cpu.regs, rfl, rfl, rfl⟩ ?_
  exact ⟨id, rfl, rfl, rfl⟩

theorem steady_shift (mode : AddressingMode) (m : Operand)
    {f : Registers → U8 → U8 × Registers}
    (hf : ∀ v, KeepsP fun r => (f r v).2) :
    Along Steady (shift mode m f : Exec β U8) := by
  rw [shift]
  split
  · exact steady_alter fun r h => hf r.a r h
  · exact steady_rmw m hf

omit [Bus β] in
/-- A branch reads P. -/
theorem steady_branch (m : Operand) (flag : U8) (on : Bool) :
    Along Steady (branch m flag on : Exec β U8) := by
  refine .bind steady_regs fun r => ?_
  split
  · exact .bind (steady_modifyRegs fun _ h => h) fun _ => .pure _
  · exact .pure _

theorem steady_jsr : Along Steady (jsr : Exec β U8) :=
  .bind steady_fetchByte fun _ => .bind steady_regs fun _ =>
    .bind (steady_push _) fun _ => .bind (steady_push _)
    fun _ => .bind steady_regs fun _ => .bind (steady_read _) fun _ =>
      steady_alter fun _ h => h

theorem steady_rts : Along Steady (rts : Exec β U8) :=
  .bind steady_pull fun _ => .bind steady_pull fun _ =>
    steady_alter fun _ h => h

theorem steady_brk : Along Steady (brk : Exec β U8) :=
  .bind (steady_modifyRegs fun _ h => h) fun _ =>
    .bind (steady_serviceInterrupt _ _) fun _ => .pure _

/-- RTI pulls P. -/
theorem steady_rti : Along Steady (rti : Exec β U8) :=
  .bind steady_pullStatus fun _ => .bind steady_pull fun _ => .bind steady_pull
    fun _ => steady_alter fun _ h => h

/-- Every opcode, by its operation. -/
theorem steady_execute (info : OpInfo) (m : Operand) :
    Along Steady (execute info m : Exec β U8) := by
  obtain ⟨operation, mode, cycles, pagePenalty⟩ := info
  cases operation
  case LDA | LDX | LDY | AND | ORA | EOR =>
    exact steady_onOperand m
      fun _ _ h => h.setZn _
  case ADC => exact steady_onOperand m fun _ _ h => Registers.settled_adc h
  case SBC => exact steady_onOperand m fun _ _ h => Registers.settled_sbc h
  case CMP | CPX | CPY =>
    exact steady_onOperand m fun _ _ h =>
      Registers.settled_compare h
  case BIT => exact steady_onOperand m fun _ _ h => Registers.settled_bit h
  case STA | STX | STY => exact steady_store m _
  case TAX | TAY | TXA | TYA | TSX | INX | INY | DEX | DEY =>
    exact steady_alter fun _ h => h.setZn _
  case TXS | JMP => exact steady_alter fun _ h => h
  case PHA =>
    exact .bind steady_regs fun _ =>
      .bind (steady_push _) fun _ => .pure _
  case PHP => exact .bind (steady_pushStatus _) fun _ => .pure _
  case PLA =>
    exact .bind steady_pull fun _ =>
      steady_alter fun _ h => h.setZn _
  case PLP => exact .bind steady_pullStatus fun _ => .pure _
  case INC | DEC => exact steady_rmw m fun _ _ h => h.setZn _
  case ASL | LSR | ROL | ROR =>
    exact steady_shift mode m fun _ _ h =>
      Registers.settled_shifted h
  case SEC | SED | SEI => exact steady_alter fun _ h => h.insert (by decide)
  case CLC | CLD | CLI | CLV =>
    exact steady_alter fun _ h =>
      h.remove (by decide)
  case BCC | BCS | BNE | BEQ | BPL | BMI | BVC | BVS =>
    exact steady_branch m _ _
  case JSR => exact steady_jsr
  case RTS => exact steady_rts
  case BRK => exact steady_brk
  case RTI => exact steady_rti
  case NOP => exact .pure _
  case KIL => exact fun _ => ⟨id, rfl, rfl, rfl⟩

/-- Opcode, operand and operation. -/
theorem steady_dispatch (opcode : U8) :
    Along Steady (dispatch opcode : Exec β U8) :=
  .bind (steady_resolve _) fun _ => .bind (steady_execute _ _) fun _ => .pure _

-- ======== steps

/-- An interrupt as a step. -/
theorem steady_interrupt (vector : U16) :
    Along Steady (interrupt vector : Exec β U8) :=
  .bind (steady_serviceInterrupt _ _) fun _ =>
    .bind (steady_addCycles _) fun _ => .pure _

/-- An instruction as a step. -/
theorem steady_instruction : Along Steady (instruction : Exec β U8) :=
  .bind steady_fetchByte fun _ => .bind (steady_dispatch _) fun _ =>
    .bind (steady_addCycles _) fun _ => .pure _

end Exec

end Remu.Mos6502
