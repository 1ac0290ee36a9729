/-
The memory and I/O bus of the 32-bit core.

`Bus` is the trait the core is generic over: byte accessors, wide
accessors with byte-composed defaults that a device may override, and the
two port hooks. `Ram` says that a bus is plain memory on its memory side;
flat non-aliasing memory is one, and so is `LinearMemory`, the 16 MiB
machine for tests and raw programs, whose addresses wrap.
-/
import Remu.Lib.ByteRam
import Remu.X32.Registers

namespace Remu.X32

open ByteRam

/-- The bus trait. Reads return the bus too: a device may change when it
is read. -/
class Bus (β : Type) where
  read : β → U32 → U8 × β
  write : β → U32 → U8 → β
  ioRead : β → U16 → U8 × β := fun b _ => (0xFF, b)
  ioWrite : β → U16 → U8 → β := fun b _ _ => b
  read16 : β → U32 → U16 × β := fun b a =>
    let (lo, b) := read b a
    let (hi, b) := read b (a + 1)
    (lo.setWidth 16 ||| (hi.setWidth 16 <<< 8), b)
  read32 : β → U32 → U32 × β := fun b a =>
    let (lo, b) := read16 b a
    let (hi, b) := read16 b (a + 2)
    (lo.setWidth 32 ||| (hi.setWidth 32 <<< 16), b)
  write16 : β → U32 → U16 → β := fun b a v =>
    write (write b a (v.setWidth 8)) (a + 1) ((v >>> 8).setWidth 8)
  write32 : β → U32 → U32 → β := fun b a v =>
    write16 (write16 b a (v.setWidth 16)) (a + 2) ((v >>> 16).setWidth 16)

/-- A bus whose memory side is byte memory. -/
class Ram (β : Type) [Bus β] extends ByteRam 32 β where
  read_eq : ∀ (b : β) a, Bus.read b a = (byte b a, b)
  read16_eq : ∀ (b : β) a, Bus.read16 b a = (get16 b a, b)
  read32_eq : ∀ (b : β) a, Bus.read32 b a = (get32 b a, b)
  write_eq : ∀ (b : β) a v, Bus.write b a v = poke b a v
  write16_eq : ∀ (b : β) a v, Bus.write16 b a v = put16 b a v
  write32_eq : ∀ (b : β) a v, Bus.write32 b a v = put32 b a v

/-- The ports of a machine whose memory is flat: any device state. -/
class Ports (π : Type) where
  input : π → U16 → U8 × π
  output : π → U16 → U8 → π

/-- Nothing behind the ports: reads float high. -/
instance instPortsUnit : Ports Unit where
  input _ _ := (0xFF, ())
  output _ _ _ := ()

/-- Flat memory whose addresses do not alias, plus whatever the ports
reach. -/
structure FlatBus (π : Type) where
  mem : U32 → U8
  ports : π

namespace FlatBus

variable {π : Type}

/-- One byte store. -/
def store (b : FlatBus π) (a : U32) (v : U8) : FlatBus π :=
  { b with mem := upd b.mem a v }

instance instBusFlatBus [Ports π] : Bus (FlatBus π) where
  read b a := (b.mem a, b)
  write := store
  ioRead b p :=
    let (v, q) := Ports.input b.ports p
    (v, { b with ports := q })
  ioWrite b p v := { b with ports := Ports.output b.ports p v }

instance instByteRamFlatBus : ByteRam 32 (FlatBus π) where
  byte b a := b.mem a
  poke := store
  cell a := a
  wide := by decide
  byte_poke _ _ _ _ := rfl
  byte_cell _ _ _ h := by rw [h]
  cell_low _ _ h := by rw [h]
  cell_add _ _ _ h := by rw [h]

instance instRamFlatBus [Ports π] : Ram (FlatBus π) where
  read_eq _ _ := rfl
  read16_eq _ _ := rfl
  read32_eq _ _ := rfl
  write_eq _ _ _ := rfl
  write16_eq _ _ _ := rfl
  write32_eq _ _ _ := rfl

end FlatBus

/-- A flat 16 MiB RAM; addresses wrap. Its wide accessors take a slice
where the bytes are contiguous, which reads and writes the same bytes as
the composed ones. -/
structure LinearMemory where
  ram : U32 → U8

namespace LinearMemory

abbrev LINEAR_MASK : U32 := wrapMask 32 24

def read (m : LinearMemory) (a : U32) : U8 := m.ram (a &&& LINEAR_MASK)

def write (m : LinearMemory) (a : U32) (v : U8) : LinearMemory :=
  ⟨upd m.ram (a &&& LINEAR_MASK) v⟩

instance instBusLinearMemory : Bus LinearMemory where
  read m a := (m.read a, m)
  write := write

instance instByteRamLinearMemory : ByteRam 32 LinearMemory where
  byte := read
  poke := write
  cell a := a &&& LINEAR_MASK
  wide := by decide
  byte_poke _ _ _ _ := rfl
  byte_cell m _ _ h := congrArg m.ram h
  cell_low _ _ h := wrap_low (by decide) (by omega) h
  cell_add _ _ k h := wrap_add k h

instance instRamLinearMemory : Ram LinearMemory where
  read_eq _ _ := rfl
  read16_eq _ _ := rfl
  read32_eq _ _ := rfl
  write_eq _ _ _ := rfl
  write16_eq _ _ _ := rfl
  write32_eq _ _ _ := rfl

end LinearMemory

end Remu.X32
