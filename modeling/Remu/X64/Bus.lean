/-
The memory and I/O bus.

`Bus` is the trait the core is generic over: byte accessors, wide
accessors with byte-composed defaults that a device may override, and the
two port hooks. `FlatBus` is the flat, non-aliasing memory the coherence
results are about: every 64-bit address is its own cell, reads have no
effect, and the wide accessors are the defaults.

`Ram` says that a bus is plain memory on its memory side: reads have no
effect, and the wide accessors are the composed ones. Flat memory is one,
and so is `LinearMemory`, the machine for tests and raw programs, whose
addresses wrap at its size.
-/
import Remu.Lib.ByteRam
import Remu.X64.Registers

namespace Remu.X64

/-- The bus trait. Reads return the bus too: a device may change when it
is read. -/
class Bus (β : Type) where
  read : β → U64 → U8 × β
  write : β → U64 → U8 → β
  ioRead : β → U16 → U8 × β
  ioWrite : β → U16 → U8 → β
  read16 : β → U64 → U16 × β := fun b a =>
    let (lo, b) := read b a
    let (hi, b) := read b (a + 1)
    (lo.setWidth 16 ||| (hi.setWidth 16 <<< 8), b)
  read32 : β → U64 → U32 × β := fun b a =>
    let (lo, b) := read16 b a
    let (hi, b) := read16 b (a + 2)
    (lo.setWidth 32 ||| (hi.setWidth 32 <<< 16), b)
  read64 : β → U64 → U64 × β := fun b a =>
    let (lo, b) := read32 b a
    let (hi, b) := read32 b (a + 4)
    (lo.setWidth 64 ||| (hi.setWidth 64 <<< 32), b)
  write16 : β → U64 → U16 → β := fun b a v =>
    write (write b a (v.setWidth 8)) (a + 1) ((v >>> 8).setWidth 8)
  write32 : β → U64 → U32 → β := fun b a v =>
    write16 (write16 b a (v.setWidth 16)) (a + 2) ((v >>> 16).setWidth 16)
  write64 : β → U64 → U64 → β := fun b a v =>
    write32 (write32 b a (v.setWidth 32)) (a + 4) ((v >>> 32).setWidth 32)

/-- The ports of a machine whose memory is flat: any device state. -/
class Ports (π : Type) where
  input : π → U16 → U8 × π
  output : π → U16 → U8 → π

/-- A machine with nothing behind its ports: reads float high. -/
instance : Ports Unit where
  input _ _ := (0xFF, ())
  output _ _ _ := ()

/-- Flat memory whose addresses do not alias, plus whatever the ports
reach. -/
structure FlatBus (π : Type) where
  mem : U64 → U8
  ports : π

namespace FlatBus

variable {π : Type}

/-- One byte store. -/
def store (b : FlatBus π) (a : U64) (v : U8) : FlatBus π :=
  { b with mem := upd b.mem a v }

instance [Ports π] : Bus (FlatBus π) where
  read b a := (b.mem a, b)
  write := store
  ioRead b p :=
    let (v, q) := Ports.input b.ports p
    (v, { b with ports := q })
  ioWrite b p v := { b with ports := Ports.output b.ports p v }

end FlatBus

-- ======== plain memory

open ByteRam

/-- A bus whose memory side is byte memory. -/
class Ram (β : Type) [Bus β] extends ByteRam 64 β where
  read_eq : ∀ (b : β) a, Bus.read b a = (byte b a, b)
  read16_eq : ∀ (b : β) a, Bus.read16 b a = (get16 b a, b)
  read32_eq : ∀ (b : β) a, Bus.read32 b a = (get32 b a, b)
  read64_eq : ∀ (b : β) a, Bus.read64 b a = (get64 b a, b)
  write32_eq : ∀ (b : β) a v, Bus.write32 b a v = put32 b a v
  write64_eq : ∀ (b : β) a v, Bus.write64 b a v = put64 b a v

instance instByteRamFlatBus {π : Type} : ByteRam 64 (FlatBus π) where
  byte b a := b.mem a
  poke := FlatBus.store
  cell a := a
  wide := by decide
  byte_poke _ _ _ _ := rfl
  byte_cell _ _ _ h := by rw [h]
  cell_low _ _ h := by rw [h]
  cell_add _ _ _ h := by rw [h]

/-- The flat bus returns the byte in memory and stays as it is. -/
instance instRamFlatBus {π : Type} [Ports π] : Ram (FlatBus π) where
  read_eq _ _ := rfl
  read16_eq _ _ := rfl
  read32_eq _ _ := rfl
  read64_eq _ _ := rfl
  write32_eq _ _ _ := rfl
  write64_eq _ _ _ := rfl

/-- A RAM of `2 ^ (16 + extra)` bytes: `with_size` rounds up to a power of
two, 64 KiB at least. Addresses wrap at its size. -/
structure LinearMemory (extra : Nat) where
  ram : U64 → U8

namespace LinearMemory

variable {extra : Nat}

/-- The wrap mask of a memory of `2^(16 + extra)` bytes. -/
abbrev mask (extra : Nat) : U64 := wrapMask 64 (16 + extra)

/-- A read wraps the address to the size of the memory. -/
def read (m : LinearMemory extra) (a : U64) : U8 := m.ram (a &&& mask extra)

/-- A write wraps it the same way. -/
def write (m : LinearMemory extra) (a : U64) (v : U8) : LinearMemory extra :=
  ⟨upd m.ram (a &&& mask extra) v⟩

instance instBusLinearMemory : Bus (LinearMemory extra) where
  read m a := (m.read a, m)
  write := write
  ioRead m _ := (0xFF, m)
  ioWrite m _ _ := m

instance instByteRamLinearMemory : ByteRam 64 (LinearMemory extra) where
  byte := read
  poke := write
  cell a := a &&& mask extra
  wide := by decide
  byte_poke _ _ _ _ := rfl
  byte_cell m _ _ h := congrArg m.ram h
  cell_low _ _ h := wrap_low (by decide) (by omega) h
  cell_add _ _ k h := wrap_add k h

instance instRamLinearMemory : Ram (LinearMemory extra) where
  read_eq _ _ := rfl
  read16_eq _ _ := rfl
  read32_eq _ _ := rfl
  read64_eq _ _ := rfl
  write32_eq _ _ _ := rfl
  write64_eq _ _ _ := rfl

end LinearMemory

end Remu.X64
