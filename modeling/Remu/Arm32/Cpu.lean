/-
The ARM32 processor state, its bus and its decoded-instruction cache.

The processor is kept in two parts. `Core` is everything an instruction
computes with; the decoded-instruction cache sits beside it and is reached
by stores, fills and invalidations only. What the executor computes is
written on the core, so that the cache cannot be read by accident.
-/
import Mathlib.Data.Nat.Log
import Remu.Lib.Fallible
import Remu.Arm32.Decode

namespace Remu.Arm32

-- ======== buses

/-- The memory bus. Reads return the bus too: a device may change when it
is read. -/
class Bus (β : Type) where
  read : β → U32 → U8 × β
  write : β → U32 → U8 → β
  read16 : β → U32 → U16 × β := fun b a =>
    let (lo, b) := read b a
    let (hi, b) := read b (a + 1)
    (lo.setWidth 16 ||| (hi.setWidth 16 <<< 8), b)
  read32 : β → U32 → U32 × β := fun b a =>
    let (lo, b) := read16 b a
    let (hi, b) := read16 b (a + 2)
    (lo.setWidth 32 ||| (hi.setWidth 32 <<< 16), b)
  write16 : β → U32 → U16 → β := fun b a v =>
    write (write b a (v.setWidth 8)) (a + 1) ((v >>> 8).setWidth 8)
  write32 : β → U32 → U32 → β := fun b a v =>
    write16 (write16 b a (v.setWidth 16)) (a + 2) ((v >>> 16).setWidth 16)

/-- A flat RAM of `2 ^ width` bytes; addresses wrap at its size. -/
structure LinearMemory where
  ram : Nat → U8
  width : Nat
  atLeast : 16 ≤ width

namespace LinearMemory

/-- The addresses the memory has, as a mask. -/
def mask (m : LinearMemory) : Nat := 2 ^ m.width - 1

/-- The RAM index of an address. -/
def index (m : LinearMemory) (addr : U32) : Nat := addr.toNat &&& m.mask

/-- Zeroed memory of `size` bytes, rounded up to a power of two. -/
def withSize (size : Nat) : LinearMemory where
  ram := fun _ => 0
  width := max 16 (Nat.clog 2 size)
  atLeast := Nat.le_max_left _ _

/-- Load `data` into memory starting at `addr`. -/
def load (m : LinearMemory) (addr : U32) (data : List U8) : LinearMemory :=
  let put (ram : Nat → U8) (p : U8 × Nat) :=
    upd ram ((addr.toNat + p.2) &&& m.mask) p.1
  { m with ram := data.zipIdx.foldl put m.ram }

/-- A byte, its address wrapped. -/
def read (m : LinearMemory) (addr : U32) : U8 := m.ram (m.index addr)

/-- Store a byte. -/
def write (m : LinearMemory) (addr : U32) (value : U8) : LinearMemory :=
  { m with ram := upd m.ram (m.index addr) value }

/-- A halfword, its address aligned and wrapped. -/
def read16 (m : LinearMemory) (addr : U32) : U16 :=
  let a := m.index addr
  if a < m.mask
    then (m.ram a).setWidth 16 ||| ((m.ram (a + 1)).setWidth 16 <<< 8)
  else (m.read addr).setWidth 16 ||| ((m.read (addr + 1)).setWidth 16 <<< 8)

/-- A word, its address aligned and wrapped. -/
def read32 (m : LinearMemory) (addr : U32) : U32 :=
  let a := m.index addr
  if a + 3 ≤ m.mask then
    (m.ram a).setWidth 32 ||| ((m.ram (a + 1)).setWidth 32 <<< 8)
      ||| ((m.ram (a + 2)).setWidth 32 <<< 16)
        ||| ((m.ram (a + 3)).setWidth 32 <<< 24)
  else (m.read16 addr).setWidth 32
    ||| ((m.read16 (addr + 2)).setWidth 32 <<< 16)

/-- Store a halfword. -/
def write16 (m : LinearMemory) (addr : U32) (value : U16) : LinearMemory :=
  let a := m.index addr
  if a < m.mask then
    { m with ram := upd (upd m.ram a (value.setWidth 8)) (a + 1) ((value >>> 8).setWidth 8) }
  else (m.write addr (value.setWidth 8)).write (addr + 1)
    ((value >>> 8).setWidth 8)

/-- Store a word. -/
def write32 (m : LinearMemory) (addr : U32) (value : U32) : LinearMemory :=
  let a := m.index addr
  if a + 3 ≤ m.mask then
    let half := upd (upd m.ram a (value.setWidth 8)) (a + 1)
      ((value >>> 8).setWidth 8)
    let hi := (value >>> 16).setWidth 8
    { m with ram := upd (upd half (a + 2) hi) (a + 3) ((value >>> 24).setWidth 8) }
  else (m.write16 addr (value.setWidth 16)).write16 (addr + 2)
    ((value >>> 16).setWidth 16)

instance : Bus LinearMemory where
  read m a := (m.read a, m)
  write := write
  read16 m a := (m.read16 a, m)
  read32 m a := (m.read32 a, m)
  write16 := write16
  write32 := write32

end LinearMemory

-- ======== exceptions

/-- A CPU exception. -/
inductive Exception where
  | undefined
  | swi
  | prefetchAbort
  | dataAbort
  | irq
  | fiq
deriving DecidableEq, Repr

namespace Exception

/-- The address an exception is taken at. -/
def vector : Exception → U32
  | undefined => 0x04
  | swi => 0x08
  | prefetchAbort => 0x0C
  | dataAbort => 0x10
  | irq => 0x18
  | fiq => 0x1C

/-- The mode the exception is taken in. -/
def mode : Exception → Mode
  | undefined => .und
  | swi => .svc
  | prefetchAbort => .abt
  | dataAbort => .abt
  | irq => .irq
  | fiq => .fiq

end Exception

/-- A request for the host to act in place of the in-guest delivery. -/
inductive HostTrap where
  | syscall
  | exception (e : Exception)
deriving DecidableEq, Repr

/-- Cycles of an exception entry. -/
abbrev EXCEPTION_CYCLES : U32 := 3

/-- The IRQ line is up. -/
abbrev EVT_IRQ : U8 := 0x1
/-- The FIQ line is up. -/
abbrev EVT_FIQ : U8 := 0x2
/-- The host has asked a batch to stop. -/
abbrev EVT_HOST_TRAP : U8 := 0x4

-- ======== instruction cache

abbrev ICACHE_ENTRIES : U32 := 16384
abbrev STAMP_SLOTS : U32 := 16384

/-- One cache slot. -/
structure Entry where
  key : U64
  version : U64
  insn : DecodedInsn

/-- The direct-mapped cache with its per-page write stamps. `clock` counts
every tick since power-on; the 64-bit counter of the source is its residue
`now`, and stamps and versions are residues too. -/
structure ICache where
  entries : U32 → Entry
  stamps : U32 → U64
  clock : Nat
  inval : U64

namespace ICache

def new : ICache where
  entries := fun _ => ⟨0, 0, DecodedInsn.new .dpImm 0 0⟩
  stamps := fun _ => 0
  clock := 1
  inval := 1

/-- The slot of the instruction at `pc`. -/
def entrySlot (pc : U32) : U32 := (pc >>> 1) &&& (ICACHE_ENTRIES - 1)

/-- The stamp slot of the page of `addr`. -/
def stampSlot (addr : U32) : U32 := (addr >>> 12) &&& (STAMP_SLOTS - 1)

/-- The 64-bit store clock. -/
def now (c : ICache) : U64 := BitVec.ofNat 64 c.clock

/-- Advance the store clock. -/
def tick (c : ICache) : ICache := { c with clock := c.clock + 1 }

/-- Record a guest store to `addr`. -/
def stampWrite (c : ICache) (addr : U32) : ICache :=
  { c.tick with stamps := upd c.stamps (stampSlot addr) c.tick.now }

/-- Kill every current entry. -/
def invalidateAll (c : ICache) : ICache := { c.tick with inval := c.tick.now }

/-- Install a freshly decoded instruction. -/
def fill (c : ICache) (key : U64) (slot : U32) (d : DecodedInsn) : ICache :=
  { c with entries := upd c.entries slot ⟨key, c.now, d⟩ }

/-- The key of an instruction address in ARM or Thumb state. -/
def keyOf (pc : U32) (thumb : Bool) : U64 :=
  pc.setWidth 64 ||| ((BitVec.ofBool thumb).setWidth 64 <<< 63)

/-- Whether the entry in `slot` serves `key` at `pc`. -/
def hit (c : ICache) (key : U64) (slot pc : U32) : Bool :=
  let e := c.entries slot
  e.key == key && c.stamps (stampSlot pc) ≤ e.version && c.inval ≤ e.version

end ICache

-- ======== processor state

/-- Everything of the processor but its instruction cache. -/
structure Core where
  regs : Registers
  cycles : U64
  halted : Bool
  events : U8
  startPc : U32
  thumb : Bool
  trapSwi : Bool
  trapFaults : Bool
  hostTrap : Option HostTrap

structure Cpu extends Core where
  icache : ICache
  /-- The switch that disables the instruction cache. -/
  fusedOnly : Bool

/-- A CPU and the bus it is stepped against. -/
structure Machine (β : Type) extends Cpu where
  bus : β

/-- The CPU at power-on. -/
def Cpu.new : Cpu where
  regs := Registers.new
  cycles := 0
  halted := false
  events := 0
  startPc := 0
  thumb := false
  trapSwi := false
  trapFaults := false
  hostTrap := none
  icache := ICache.new
  fusedOnly := false

/-- RESET: the interrupt lines stay as the host last set them. -/
def Cpu.reset (c : Cpu) : Cpu :=
  { c with
    regs := Registers.new
    halted := false
    events := c.events &&& (EVT_IRQ ||| EVT_FIQ)
    icache := c.icache.invalidateAll
    hostTrap := none }

namespace Core

/-- Drive the level-sensitive IRQ line. -/
def setIrq (c : Core) (level : Bool) : Core :=
  { c with events := if level then c.events ||| EVT_IRQ else c.events &&& ~~~EVT_IRQ }

/-- Drive the level-sensitive FIQ line. -/
def setFiq (c : Core) (level : Bool) : Core :=
  { c with events := if level then c.events ||| EVT_FIQ else c.events &&& ~~~EVT_FIQ }

/-- Whether an interrupt would be taken at the next boundary. -/
def interruptPending (c : Core) : Bool :=
  (c.events &&& EVT_FIQ != 0 && !c.regs.cpsr.f)
    || (c.events &&& EVT_IRQ != 0 && !c.regs.cpsr.i)

/-- Record a host trap and ring the run loop's doorbell. -/
def setHostTrap (c : Core) (t : HostTrap) : Core :=
  { c with hostTrap := some t, events := c.events ||| EVT_HOST_TRAP }

/-- A register number as an index; the decoders emit none beyond 15 here. -/
def ix (i : U8) : Fin 16 := Fin.ofNat 16 i.toNat

/-- A register, by its encoded number. -/
def gpr (c : Core) (i : U8) : U32 := c.regs.gpr (ix i)

/-- Write a register. -/
def setGpr (c : Core) (i : U8) (v : U32) : Core :=
  { c with regs := c.regs.setGpr (ix i) v }

/-- Write the status register. -/
def setCpsr (c : Core) (p : Psr) : Core :=
  { c with regs := { c.regs with cpsr := p } }

/-- The return address exception `e` leaves in the banked LR. -/
def returnAddress (c : Core) : Exception → U32
  | .undefined => c.gpr 15
  | .swi => c.gpr 15
  | .prefetchAbort => c.startPc + 4
  | .dataAbort => c.startPc + 8
  | .irq => c.gpr 15 + 4
  | .fiq => c.gpr 15 + 4

/-- Take exception `e`. -/
def raise (c : Core) (e : Exception) : Core :=
  let ret := c.returnAddress e
  let old := c.regs.cpsr
  let regs := (((c.regs.setMode e.mode).spsrStore old).setGpr 14 ret)
  let p := (regs.cpsr.set psr.T false).set psr.I true
  let p := if e = .fiq then p.set psr.F true else p
  { c with regs := { regs with cpsr := p }.setGpr 15 e.vector }

end Core

-- ======== computations

/-- What an instruction runs in; memory never faults, so the only failure
is an undefined instruction. -/
abbrev Exec (β : Type) := Fallible (Machine β) Exception

section Access

variable {β : Type}

/-- Read the core. -/
def core : Exec β Core := fun m => (.ok m.toCore, m)

/-- Compute on the core. -/
def onCore {α : Type} (f : Core → α × Core) : Exec β α := fun m =>
  let (a, c) := f m.toCore
  (.ok a, { m with toCore := c })

variable [Bus β]

/-- A byte from memory. -/
def load8 (addr : U32) : Exec β U8 := fun m =>
  let (v, b) := Bus.read m.bus addr
  (.ok v, { m with bus := b })

def load16 (addr : U32) : Exec β U16 := fun m =>
  let (v, b) := Bus.read16 m.bus addr
  (.ok v, { m with bus := b })

def load32 (addr : U32) : Exec β U32 := fun m =>
  let (v, b) := Bus.read32 m.bus addr
  (.ok v, { m with bus := b })

-- Every guest store stamps the page it goes to.

/-- Store a byte and stamp its page. -/
def write8 (addr : U32) (v : U8) : Exec β Unit := fun m =>
  (.ok (), { m with icache := m.icache.stampWrite addr, bus := Bus.write m.bus addr v })

def write16 (addr : U32) (v : U16) : Exec β Unit := fun m =>
  (.ok (), { m with icache := m.icache.stampWrite addr, bus := Bus.write16 m.bus addr v })

def write32 (addr : U32) (v : U32) : Exec β Unit := fun m =>
  (.ok (), { m with icache := m.icache.stampWrite addr, bus := Bus.write32 m.bus addr v })

/-- The unaligned-word rule: the aligned word rotated so the addressed byte
comes first. -/
def read32Rot (addr : U32) : Exec β U32 := do
  let v ← load32 (addr &&& ~~~3)
  return v.rotateRight (8 * (addr &&& 3).toNat)

/-- The odd-address rule: the aligned halfword rotated by 8. -/
def read16Rot (addr : U32) : Exec β U32 := do
  let v ← load16 (addr &&& ~~~1)
  let v : U32 := v.setWidth 32
  return if addr &&& 1 != 0 then v.rotateRight 8 else v

end Access

end Remu.Arm32
