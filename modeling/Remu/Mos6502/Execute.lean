/-
Operand resolution, the operations, and one step of the processor.

What an operation computes is a function of the registers; what it reads
and writes goes through the resolved operand, so an operation is written
once for all its addressing modes.
-/
import Remu.Mos6502.Cpu

namespace Remu.Mos6502

open Status (C Z I D V N)

-- ======== arithmetic

namespace Registers

/-- Z and N from a result. -/
def zn (r : Registers) (value : U8) : Registers :=
  { r with p := r.p.setZn value }

/-- Load A. -/
def lda (r : Registers) (v : U8) : Registers := { r with a := v }.zn v

/-- The carry, in 16 bits. -/
def cin (r : Registers) : U16 := if r.p.contains C then 1 else 0

/-- A decimal sum, its low digit corrected. -/
def decimalSum (a v : U8) (cin : U16) : U16 :=
  let lo := (a &&& 0x0F).setWidth 16 + (v &&& 0x0F).setWidth 16 + cin
  let lo := if 0x0A ≤ lo then ((lo + 0x06) &&& 0x0F) + 0x10 else lo
  (a &&& 0xF0).setWidth 16 + (v &&& 0xF0).setWidth 16 + lo

/-- V of a sum. -/
def sumOverflow (a v : U8) (sum : U16) : Bool :=
  (a.setWidth 16 ^^^ sum) &&& (v.setWidth 16 ^^^ sum) &&& 0x80 != 0

/-- Add with carry; decimal when D is set. -/
def adc (r : Registers) (v : U8) : Registers :=
  if r.p.contains D then
    -- Z reflects the plain binary sum.
    let binsum := r.a.setWidth 16 + v.setWidth 16 + r.cin
    let p := r.p.set Z (binsum &&& 0xFF == 0)
    let sum := decimalSum r.a v r.cin
    -- N and V are taken before the high digit is corrected.
    let p := p.set N (sum &&& 0x80 != 0)
    let p := p.set V (sumOverflow r.a v sum)
    let sum := if 0xA0 ≤ sum then sum + 0x60 else sum
    { r with a := (sum &&& 0xFF).setWidth 8, p := p.set C (decide (0x100 ≤ sum)) }
  else
    let sum := r.a.setWidth 16 + v.setWidth 16 + r.cin
    let result := (sum &&& 0xFF).setWidth 8
    let p := r.p.set C (decide (0xFF < sum))
    let p := p.set V (sumOverflow r.a v sum)
    { r with a := result, p }.zn result

/-- A decimal difference, each digit corrected; signed, in 16 bits. -/
def decimalDifference (a v : U8) (cin : U16) : U8 :=
  let lo := (a &&& 0x0F).setWidth 16 - (v &&& 0x0F).setWidth 16 + cin - 1
  let lo := if lo.slt 0 then ((lo - 0x06) &&& 0x0F) - 0x10 else lo
  let hi := (a &&& 0xF0).setWidth 16 - (v &&& 0xF0).setWidth 16 + lo
  let hi := if hi.slt 0 then hi - 0x60 else hi
  (hi &&& 0xFF).setWidth 8

/-- Subtract with borrow. All flags are those of the binary difference. -/
def sbc (r : Registers) (v : U8) : Registers :=
  let diff := r.a.setWidth 16 - v.setWidth 16 - (1 - r.cin)
  let result := diff.setWidth 8
  let p := r.p.set C (!diff.slt 0)
  let p := p.set V ((r.a ^^^ v) &&& (r.a ^^^ result) &&& 0x80 != 0)
  let a := if r.p.contains D then decimalDifference r.a v r.cin else result
  { r with a, p := p.setZn result }

/-- Compare: C is "not below". -/
def compare (r : Registers) (reg v : U8) : Registers :=
  { r with p := r.p.set C (decide (v ≤ reg)) }.zn (reg - v)

/-- BIT: Z from the AND, N and V from memory. -/
def bit (r : Registers) (v : U8) : Registers :=
  let p := r.p.set Z (r.a &&& v == 0)
  let p := p.set V (v &&& 0x40 != 0)
  { r with p := p.set N (v &&& 0x80 != 0) }

-- ---------------------------------------------------------------- the
-- shifters

/-- A shifted value, the bit that left it in C. -/
def shifted (r : Registers) (out : Bool) (result : U8) : U8 × Registers :=
  (result, { r with p := r.p.set C out }.zn result)

/-- Shift left. -/
def aslVal (r : Registers) (v : U8) : U8 × Registers :=
  r.shifted (v &&& 0x80 != 0) (v <<< 1)

/-- Shift right. -/
def lsrVal (r : Registers) (v : U8) : U8 × Registers :=
  r.shifted (v &&& 0x01 != 0) (v >>> 1)

/-- Rotate left through C. -/
def rolVal (r : Registers) (v : U8) : U8 × Registers :=
  let carryIn : U8 := if r.p.contains C then 1 else 0
  r.shifted (v &&& 0x80 != 0) ((v <<< 1) ||| carryIn)

/-- Rotate right through C. -/
def rorVal (r : Registers) (v : U8) : U8 × Registers :=
  let carryIn : U8 := if r.p.contains C then 1 else 0
  r.shifted (v &&& 0x01 != 0) ((v >>> 1) ||| (carryIn <<< 7))

end Registers

-- ======== operands

/-- Whether an index has crossed a page. -/
def pageCrossed (a b : U16) : Bool := a &&& 0xFF00 != b &&& 0xFF00

/-- A resolved operand. -/
structure Operand where
  addr : U16
  /-- Indexing carried into another page. -/
  pageCrossed : Bool
deriving DecidableEq, Repr

/-- An operand that has not crossed a page. -/
def Operand.at (addr : U16) : Operand := ⟨addr, false⟩

/-- An operand at an offset from `base`. -/
def Operand.indexed (base offset : U16) : Operand :=
  ⟨base + offset, Mos6502.pageCrossed base (base + offset)⟩

namespace Exec

variable {β : Type} [Bus β]

/-- A pointer, its two bytes at two addresses. -/
def readPointer (lo hi : U16) : Exec β U16 := do
  let lo ← read lo
  let hi ← read hi
  pure (word lo hi)

/-- Resolve the operand, moving PC past its bytes. -/
def resolve : AddressingMode → Exec β Operand
  | .implied | .accumulator | .jsrAbsolute => pure (.at 0)
  | .immediate => do
    let addr := (← regs).pc
    modifyRegs fun r => { r with pc := r.pc + 1 }
    pure (.at addr)
  | .zeroPage => do
    pure (.at ((← fetchByte).setWidth 16))
  | .zeroPageX => do
    let base ← fetchByte
    pure (.at ((base + (← regs).x).setWidth 16))
  | .zeroPageY => do
    let base ← fetchByte
    pure (.at ((base + (← regs).y).setWidth 16))
  | .absolute => do
    pure (.at (← fetchWord))
  | .absoluteX => do
    let base ← fetchWord
    pure (.indexed base ((← regs).x.setWidth 16))
  | .absoluteY => do
    let base ← fetchWord
    pure (.indexed base ((← regs).y.setWidth 16))
  | .indirect => do
    let ptr ← fetchWord
    -- The high byte comes from the same page even behind its last byte.
    pure (.at (← readPointer ptr ((ptr &&& 0xFF00) ||| ((ptr + 1) &&& 0x00FF))))
  | .indexedIndirect => do
    let base ← fetchByte
    let ptr := base + (← regs).x
    pure (.at (← readPointer (ptr.setWidth 16) ((ptr + 1).setWidth 16)))
  | .indirectIndexed => do
    let base ← fetchByte
    let pointer ← readPointer (base.setWidth 16) ((base + 1).setWidth 16)
    pure (.indexed pointer ((← regs).y.setWidth 16))
  | .relative => do
    let offset ← fetchByte
    pure (.indexed (← regs).pc (offset.signExtend 16))

-- ======== operations

/-- Change the registers; no extra cycles. -/
def alter (f : Registers → Registers) : Exec β U8 := do
  modifyRegs f
  pure 0

/-- Change the registers with the operand. -/
def onOperand (m : Operand) (f : Registers → U8 → Registers) : Exec β U8 := do
  let v ← read m.addr
  alter (f · v)

/-- Store a register. -/
def store (m : Operand) (f : Registers → U8) : Exec β U8 := do
  write m.addr (f (← regs))
  pure 0

/-- Read the operand, transform it and write it back. -/
def rmw (m : Operand) (f : Registers → U8 → U8 × Registers) : Exec β U8 := do
  let v ← read m.addr
  let out := f (← regs) v
  modifyRegs fun _ => out.2
  write m.addr out.1
  pure 0

/-- Shift the accumulator or memory. -/
def shift (mode : AddressingMode) (m : Operand)
    (f : Registers → U8 → U8 × Registers) : Exec β U8 :=
  if mode = .accumulator
    then alter fun r => { (f r r.a).2 with a := (f r r.a).1 } else rmw m f

/-- Branch on the flag `flag` being `on`: a cycle, and one more into another page. -/
def branch (m : Operand) (flag : U8) (on : Bool) : Exec β U8 := do
  if (← regs).p.contains flag = on then
    modifyRegs fun r => { r with pc := m.addr }
    pure (if m.pageCrossed then 2 else 1)
  else pure 0

/-- The high byte of the target is fetched after the pushes. -/
def jsr : Exec β U8 := do
  let lo ← fetchByte
  let ret := (← regs).pc
  push ((ret >>> 8).setWidth 8)
  push (ret.setWidth 8)
  let hi ← read (← regs).pc
  alter fun r => { r with pc := word lo hi }

/-- Return from a subroutine. -/
def rts : Exec β U8 := do
  let lo ← pull
  let hi ← pull
  alter fun r => { r with pc := word lo hi + 1 }

/-- A padding byte follows. -/
def brk : Exec β U8 := do
  modifyRegs fun r => { r with pc := r.pc + 1 }
  serviceInterrupt IRQ_VECTOR true
  pure 0

/-- Return from an interrupt. -/
def rti : Exec β U8 := do
  pullStatus
  let lo ← pull
  let hi ← pull
  alter fun r => { r with pc := word lo hi }

/-- Perform the operation; the result is the number of extra cycles. -/
def execute (info : OpInfo) (m : Operand) : Exec β U8 :=
  match info.operation with
  | .LDA => onOperand m Registers.lda
  | .LDX => onOperand m fun r v => { r with x := v }.zn v
  | .LDY => onOperand m fun r v => { r with y := v }.zn v
  | .STA => store m (·.a)
  | .STX => store m (·.x)
  | .STY => store m (·.y)
  | .TAX => alter fun r => { r with x := r.a }.zn r.a
  | .TAY => alter fun r => { r with y := r.a }.zn r.a
  | .TXA => alter fun r => { r with a := r.x }.zn r.x
  | .TYA => alter fun r => { r with a := r.y }.zn r.y
  | .TSX => alter fun r => { r with x := r.sp }.zn r.sp
  | .TXS => alter fun r => { r with sp := r.x }
  | .PHA => do
    push (← regs).a
    pure 0
  | .PHP => do
    pushStatus true
    pure 0
  | .PLA => do
    let v ← pull
    alter (·.lda v)
  | .PLP => do
    pullStatus
    pure 0
  | .AND => onOperand m fun r v => r.lda (r.a &&& v)
  | .ORA => onOperand m fun r v => r.lda (r.a ||| v)
  | .EOR => onOperand m fun r v => r.lda (r.a ^^^ v)
  | .BIT => onOperand m Registers.bit
  | .ADC => onOperand m Registers.adc
  | .SBC => onOperand m Registers.sbc
  | .CMP => onOperand m fun r v => r.compare r.a v
  | .CPX => onOperand m fun r v => r.compare r.x v
  | .CPY => onOperand m fun r v => r.compare r.y v
  | .INC => rmw m fun r v => (v + 1, r.zn (v + 1))
  | .DEC => rmw m fun r v => (v - 1, r.zn (v - 1))
  | .INX => alter fun r => { r with x := r.x + 1 }.zn (r.x + 1)
  | .INY => alter fun r => { r with y := r.y + 1 }.zn (r.y + 1)
  | .DEX => alter fun r => { r with x := r.x - 1 }.zn (r.x - 1)
  | .DEY => alter fun r => { r with y := r.y - 1 }.zn (r.y - 1)
  | .ASL => shift info.mode m Registers.aslVal
  | .LSR => shift info.mode m Registers.lsrVal
  | .ROL => shift info.mode m Registers.rolVal
  | .ROR => shift info.mode m Registers.rorVal
  | .CLC => alter fun r => { r with p := r.p.remove C }
  | .SEC => alter fun r => { r with p := r.p.insert C }
  | .CLD => alter fun r => { r with p := r.p.remove D }
  | .SED => alter fun r => { r with p := r.p.insert D }
  | .CLI => alter fun r => { r with p := r.p.remove I }
  | .SEI => alter fun r => { r with p := r.p.insert I }
  | .CLV => alter fun r => { r with p := r.p.remove V }
  | .BCC => branch m C false
  | .BCS => branch m C true
  | .BNE => branch m Z false
  | .BEQ => branch m Z true
  | .BPL => branch m N false
  | .BMI => branch m N true
  | .BVC => branch m V false
  | .BVS => branch m V true
  | .JMP => alter fun r => { r with pc := m.addr }
  | .JSR => jsr
  | .RTS => rts
  | .BRK => brk
  | .RTI => rti
  | .NOP => pure 0
  | .KIL => do
    modifyCpu fun c => { c with halted := true }
    pure 0

/-- Run the instruction whose opcode was just fetched; the result is its
cycles. -/
def dispatch (opcode : U8) : Exec β U8 := do
  let info := OPCODES opcode
  let operand ← resolve info.mode
  let extra ← execute info operand
  let cycles := if info.pagePenalty && operand.pageCrossed
    then info.cycles + 1 else info.cycles
  pure (cycles + extra)

-- ======== steps

/-- Take the interrupt of `vector`. -/
def interrupt (vector : U16) : Exec β U8 := do
  serviceInterrupt vector false
  modifyCpu (·.addCycles INTERRUPT_CYCLES)
  pure INTERRUPT_CYCLES

/-- Fetch an instruction and run it. -/
def instruction : Exec β U8 := do
  let opcode ← fetchByte
  let cycles ← dispatch opcode
  modifyCpu (·.addCycles cycles)
  pure cycles

/-- Service a pending interrupt or execute one instruction. -/
def step : Exec β U8 := do
  let c ← cpu
  if c.halted then pure 0
  else if c.nmiPending then do
    modifyCpu fun c => { c with nmiPending := false }
    interrupt NMI_VECTOR
  else if c.irqLine && !c.regs.p.contains I then interrupt IRQ_VECTOR
  else instruction

end Exec

end Remu.Mos6502
