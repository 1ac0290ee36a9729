/-
The 8086 processor, its bus, and the memory accesses every instruction is
built from.

The bus is a parameter: `Bus β` is what the machine on the other end
answers, and the machine after it. `Exec β` runs the processor against
such a machine. No instruction fails; a run stops early only at an arm the
source calls unreachable, or when the turns a loop was granted are used up
(`Stop`).
-/
import Remu.Lib.Fallible
import Remu.X86.Alu

namespace Remu.X86

-- ======== registers

-- Register indices as encoded in instructions.
namespace reg

/-- The accumulator. -/
abbrev AX : U8 := 0
/-- The segment registers by number. -/
abbrev ES : U8 := 0
abbrev CS : U8 := 1
abbrev SS : U8 := 2
abbrev DS : U8 := 3

end reg

namespace Flags

/-- Single-step trap. -/
abbrev TF : U16 := 0x0100
/-- Interrupts enabled. -/
abbrev IF : U16 := 0x0200
/-- String instructions count down. -/
abbrev DF : U16 := 0x0400

/-- The nine flags that exist as storage. -/
abbrev all : U16 := 0x0FD5

/-- FLAGS as pushed on the stack. -/
def toWord (f : Flags) : U16 := f.bits ||| 0xF002

/-- The flags of a word, the bits that are not flags dropped. -/
def fromWord (v : U16) : Flags := ⟨v &&& all⟩

/-- Turn the flags of `m` over. -/
def toggle (f : Flags) (m : U16) : Flags := ⟨f.bits ^^^ m⟩

end Flags

/-- The register file: the accumulator and the flags, and all the others. -/
structure RegFile extends Registers where
  bx : U16
  cx : U16
  dx : U16
  sp : U16
  bp : U16
  si : U16
  di : U16
  es : U16
  cs : U16
  ss : U16
  ds : U16
  ip : U16
deriving DecidableEq, Repr

namespace RegFile

/-- Power-on state: execution starts at `FFFF:0000`, flags clear. -/
def new : RegFile :=
  { ax := 0, flags := ⟨0⟩, bx := 0, cx := 0, dx := 0, sp := 0, bp := 0, si := 0, di := 0
    es := 0, cs := 0xFFFF, ss := 0, ds := 0, ip := 0 }

/-- A word register by its number. -/
def reg16 (r : RegFile) (i : U8) : U16 :=
  match (i &&& 7).toNat with
  | 0 => r.ax
  | 1 => r.cx
  | 2 => r.dx
  | 3 => r.bx
  | 4 => r.sp
  | 5 => r.bp
  | 6 => r.si
  | _ => r.di

/-- Write a word register. -/
def setReg16 (r : RegFile) (i : U8) (v : U16) : RegFile :=
  match (i &&& 7).toNat with
  | 0 => { r with ax := v }
  | 1 => { r with cx := v }
  | 2 => { r with dx := v }
  | 3 => { r with bx := v }
  | 4 => { r with sp := v }
  | 5 => { r with bp := v }
  | 6 => { r with si := v }
  | _ => { r with di := v }

/-- A byte register; numbers 4 to 7 are AH to BH. -/
def reg8 (r : RegFile) (i : U8) : U8 :=
  let w := r.reg16 (i &&& 3)
  if i &&& 4 != 0 then (w >>> 8).setWidth 8 else w.setWidth 8

/-- Write a byte register; its other half stays. -/
def setReg8 (r : RegFile) (i : U8) (v : U8) : RegFile :=
  let n := i &&& 3
  let w := r.reg16 n
  r.setReg16 n (if i &&& 4 != 0 then (w &&& 0x00FF) ||| (v.setWidth 16 <<< 8)
    else (w &&& 0xFF00) ||| v.setWidth 16)

/-- A segment register by its number. -/
def seg (r : RegFile) (i : U8) : U16 :=
  match (i &&& 3).toNat with
  | 0 => r.es
  | 1 => r.cs
  | 2 => r.ss
  | _ => r.ds

/-- Write a segment register. -/
def setSeg (r : RegFile) (i : U8) (v : U16) : RegFile :=
  match (i &&& 3).toNat with
  | 0 => { r with es := v }
  | 1 => { r with cs := v }
  | 2 => { r with ss := v }
  | _ => { r with ds := v }

end RegFile

-- ======== processor

instance instNeZeroPenalties : NeZero 13 := ⟨Nat.succ_ne_zero 12⟩

/-- An 8086 processor. -/
structure Cpu where
  regs : RegFile
  /-- Cycles since construction, modulo 2^64. -/
  cycles : BitVec 64
  halted : Bool
  nmiPending : Bool
  intr : Option U8
  /-- No interrupt is recognized before the next instruction. -/
  inhibitInterrupts : Bool
  segOverride : Option U8
  /-- The repeat prefix: `true` for REP/REPE, `false` for REPNE. -/
  rep : Option Bool
  /-- Effective-address penalty of the operand decoded last: 12 at most. -/
  eaCycles : Fin 13
deriving DecidableEq, Repr

namespace Cpu

def new : Cpu :=
  { regs := RegFile.new, cycles := 0, halted := false, nmiPending := false, intr := none
    inhibitInterrupts :=
      false, segOverride := none, rep := none, eaCycles := 0 }

def setFlags (cpu : Cpu) (f : Flags) : Cpu := { cpu with regs.flags := f }

/-- The segment of a data access, the override prefix honored. -/
def segOr (cpu : Cpu) (dflt : U8) : U16 :=
  cpu.regs.seg (cpu.segOverride.getD dflt)

/-- `segment:offset` as a 20-bit physical address. -/
def phys (seg off : U16) : U32 :=
  ((seg.setWidth 32 <<< 4) + off.setWidth 32) &&& 0xFFFFF

end Cpu

-- ======== bus

/-- The memory and I/O bus: what an access answers, and the machine after it. -/
class Bus (β : Type) where
  read : β → U32 → U8 × β
  write : β → U32 → U8 → β
  ioRead : β → U16 → U8 × β
  ioWrite : β → U16 → U8 → β

/-- A flat memory over the whole real-mode address space; ports are open. -/
structure LinearMemory where
  ram : BitVec 20 → U8

instance : Bus LinearMemory where
  read m addr := (m.ram (addr.setWidth 20), m)
  write m addr v := ⟨fun a => if a = addr.setWidth 20 then v else m.ram a⟩
  ioRead m _ := (0xFF, m)
  ioWrite m _ _ := m

/-- The processor and the machine on its bus. -/
structure Machine (β : Type) where
  cpu : Cpu
  bus : β

/-- Why a run did not come back. -/
inductive Stop where
  | unreachable
  | fuel
deriving DecidableEq, Repr

/-- What an instruction does: it may stop, and moves the machine. -/
abbrev Exec (β : Type) := Fallible (Machine β) Stop

namespace Exec

variable {β : Type} [Bus β]

/-- The processor as it is. -/
def cpu : Exec β Cpu := fun s => (.ok s.cpu, s)

def modifyCpu (f : Cpu → Cpu) : Exec β Unit :=
  Fallible.modify fun s => { s with cpu := f s.cpu }

/-- The registers as they are. -/
def regs : Exec β RegFile := fun s => (.ok s.cpu.regs, s)

def modifyRegs (f : RegFile → RegFile) : Exec β Unit :=
  modifyCpu fun c => { c with regs := f c.regs }

/-- A statement under a condition. -/
def whenever (c : Prop) [Decidable c] (m : Exec β Unit) : Exec β Unit :=
  if c then m else pure ()

-- ======== memory

/-- A byte at segment and offset. -/
def read8 (seg off : U16) : Exec β U8 := fun s =>
  let (v, bus) := Bus.read s.bus (Cpu.phys seg off)
  (.ok v, { s with bus })

/-- Store a byte at segment and offset. -/
def write8 (seg off : U16) (v : U8) : Exec β Unit := fun s =>
  (.ok (), { s with bus := Bus.write s.bus (Cpu.phys seg off) v })

/-- A byte from a port. -/
def ioRead (port : U16) : Exec β U8 := fun s =>
  let (v, bus) := Bus.ioRead s.bus port
  (.ok v, { s with bus })

/-- A byte to a port. -/
def ioWrite (port : U16) (v : U8) : Exec β Unit := fun s =>
  (.ok (), { s with bus := Bus.ioWrite s.bus port v })

/-- Two bytes as a little-endian word. -/
def word (lo hi : U8) : U16 := lo.setWidth 16 ||| (hi.setWidth 16 <<< 8)

/-- The offset wraps within the segment. -/
def read16 (seg off : U16) : Exec β U16 := do
  let lo ← read8 seg off
  let hi ← read8 seg (off + 1)
  pure (word lo hi)

/-- Store a word; its high byte wraps within the segment. -/
def write16 (seg off : U16) (v : U16) : Exec β Unit := do
  write8 seg off (v.setWidth 8)
  write8 seg (off + 1) ((v >>> 8).setWidth 8)

/-- The byte at `CS:IP`; IP moves past it. -/
def fetchByte : Exec β U8 := do
  let r ← regs
  let b ← read8 r.cs r.ip
  modifyRegs fun r => { r with ip := r.ip + 1 }
  pure b

/-- A word of the instruction. -/
def fetchWord : Exec β U16 := do
  let lo ← fetchByte
  let hi ← fetchByte
  pure (word lo hi)

/-- Push a word. -/
def push16 (v : U16) : Exec β Unit := do
  modifyRegs fun r => { r with sp := r.sp - 2 }
  let r ← regs
  write16 r.ss r.sp v

/-- Pop a word. -/
def pop16 : Exec β U16 := do
  let r ← regs
  let v ← read16 r.ss r.sp
  modifyRegs fun r => { r with sp := r.sp + 2 }
  pure v

/-- Take interrupt `vector` through the table at `0000:vector*4`. -/
def interrupt (vector : U8) : Exec β Unit := do
  push16 (← regs).flags.toWord
  modifyRegs fun r =>
    { r with flags := r.flags.remove (Flags.IF ||| Flags.TF) }
  push16 (← regs).cs
  push16 (← regs).ip
  let base : U16 := vector.setWidth 16 * 4
  let ip ← read16 0 base
  modifyRegs fun r => { r with ip }
  let cs ← read16 0 (base + 2)
  modifyRegs fun r => { r with cs }

end Exec

end Remu.X86
