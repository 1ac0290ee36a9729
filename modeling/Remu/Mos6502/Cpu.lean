/-
The 6502 processor, its bus, and the accesses every instruction is built
from.

The bus is a parameter: `Bus β` is what the machine on the other end
answers, and the machine after it. No access and no instruction fails, so
the error type of a run is empty.
-/
import Remu.Lib.Fallible
import Remu.Mos6502.Opcodes
import Remu.Mos6502.Registers

namespace Remu.Mos6502

-- ======== bus

/-- Two bytes as a little-endian word. -/
def word (lo hi : U8) : U16 := lo.setWidth 16 ||| (hi.setWidth 16 <<< 8)

/-- The memory bus. Reads return the bus too: a device may change when it
is read. -/
class Bus (β : Type) where
  read : β → U16 → U8 × β
  write : β → U16 → U8 → β
  /-- For vectors only. -/
  readU16 : β → U16 → U16 × β := fun b addr =>
    let (lo, b) := read b addr
    let (hi, b) := read b (addr + 1)
    (word lo hi, b)

/-- A flat memory over the whole address space. -/
structure FlatMemory where
  ram : U16 → U8

namespace FlatMemory

/-- Zeroed memory. -/
def new : FlatMemory := ⟨fun _ => 0⟩

/-- A byte of memory. -/
def read (m : FlatMemory) (addr : U16) : U8 := m.ram addr

/-- Stores a byte. -/
def write (m : FlatMemory) (addr : U16) (value : U8) : FlatMemory :=
  ⟨upd m.ram addr value⟩

instance : Bus FlatMemory where
  read m addr := (m.read addr, m)
  write := write

end FlatMemory

-- ======== interrupts

/-- Where the NMI handler's address is. -/
abbrev NMI_VECTOR : U16 := 0xFFFA
/-- Where the reset handler's address is. -/
abbrev RESET_VECTOR : U16 := 0xFFFC
/-- Also the vector of BRK. -/
abbrev IRQ_VECTOR : U16 := 0xFFFE

/-- Cycles of a service or a reset. -/
abbrev INTERRUPT_CYCLES : U8 := 7

-- ======== processor

/-- A 6502 processor. -/
structure Cpu where
  regs : Registers
  /-- Cycles since construction, modulo 2^64. -/
  cycles : BitVec 64
  /-- An opcode jammed the processor. -/
  halted : Bool
  nmiPending : Bool
  /-- The level of the NMI line, which idles high. -/
  prevNmi : Bool
  irqLine : Bool
deriving DecidableEq, Repr

namespace Cpu

def new : Cpu :=
  { regs := Registers.new, cycles := 0, halted := false, nmiPending := false,
    prevNmi := true, irqLine := false }

/-- Charges cycles. -/
def addCycles (c : Cpu) (cycles : U8) : Cpu :=
  { c with cycles := c.cycles + cycles.setWidth 64 }

/-- An edge from high to low latches an NMI. -/
def setNmi (c : Cpu) (level : Bool) : Cpu :=
  let c := if c.prevNmi && !level then { c with nmiPending := true } else c
  { c with prevNmi := level }

/-- The host raises an NMI, which is latched. -/
def triggerNmi (c : Cpu) : Cpu := { c with nmiPending := true }

/-- The host sets the level of the IRQ line. -/
def setIrq (c : Cpu) (level : Bool) : Cpu := { c with irqLine := level }

end Cpu

/-- The processor and the machine on its bus. -/
structure Machine (β : Type) where
  cpu : Cpu
  bus : β

/-- Instructions have no faults of their own. -/
abbrev Exec (β : Type) := Fallible (Machine β) Empty

namespace Exec

variable {β : Type} [Bus β]

/-- The processor. -/
def cpu : Exec β Cpu := fun s => (.ok s.cpu, s)

/-- Changes the processor. -/
def modifyCpu (f : Cpu → Cpu) : Exec β Unit :=
  Fallible.modify fun s => { s with cpu := f s.cpu }

/-- The registers. -/
def regs : Exec β Registers := fun s => (.ok s.cpu.regs, s)

/-- Changes the registers. -/
def modifyRegs (f : Registers → Registers) : Exec β Unit :=
  modifyCpu fun c => { c with regs := f c.regs }

-- ======== memory

def read (addr : U16) : Exec β U8 := fun s =>
  let (v, bus) := Bus.read s.bus addr
  (.ok v, { s with bus })

def write (addr : U16) (value : U8) : Exec β Unit := fun s =>
  (.ok (), { s with bus := Bus.write s.bus addr value })

/-- The address stored at a vector. -/
def readVector (addr : U16) : Exec β U16 := fun s =>
  let (v, bus) := Bus.readU16 s.bus addr
  (.ok v, { s with bus })

/-- The byte at PC; PC moves past it. -/
def fetchByte : Exec β U8 := do
  let b ← read (← regs).pc
  modifyRegs fun r => { r with pc := r.pc + 1 }
  pure b

/-- The next two bytes at PC, low byte first. -/
def fetchWord : Exec β U16 := do
  let lo ← fetchByte
  let hi ← fetchByte
  pure (word lo hi)

-- ======== stack

/-- Pushes a byte to page 1; SP wraps within it. -/
def push (value : U8) : Exec β Unit := do
  write (0x0100 ||| (← regs).sp.setWidth 16) value
  modifyRegs fun r => { r with sp := r.sp - 1 }

/-- Pulls a byte from page 1. -/
def pull : Exec β U8 := do
  modifyRegs fun r => { r with sp := r.sp + 1 }
  read (0x0100 ||| (← regs).sp.setWidth 16)

/-- Pushes the status, with B as told. -/
def pushStatus (withB : Bool) : Exec β Unit := do
  push ((← regs).p.pushed withB)

/-- Pulls the status; B and U of the byte are dropped. -/
def pullStatus : Exec β Unit := do
  let v ← pull
  modifyRegs fun r => { r with p := Status.pulled v }

/-- Push PC and P, mask interrupts, and go where `vector` points. -/
def serviceInterrupt (vector : U16) (withB : Bool) : Exec β Unit := do
  let pc := (← regs).pc
  push ((pc >>> 8).setWidth 8)
  push (pc.setWidth 8)
  pushStatus withB
  modifyRegs fun r => { r with p := r.p.insert Status.I }
  let pc ← readVector vector
  modifyRegs fun r => { r with pc }

/-- Load PC from the reset vector. -/
def reset : Exec β Unit := do
  let pc ← readVector RESET_VECTOR
  modifyRegs fun r =>
    { r with pc, sp := 0xFD, p := r.p.insert (Status.I ||| Status.U) }
  modifyCpu fun c =>
    { c with halted := false, nmiPending := false }.addCycles INTERRUPT_CYCLES

end Exec

end Remu.Mos6502
