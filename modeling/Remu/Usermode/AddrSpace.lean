/-
The sparse 4 GiB address space of a user-mode guest.

Memory is a table of 64 KiB chunks, each absent or present, so mapping is
chunk-granular while `brk` and `mmap` deal in pages. `mmap` without an
address is a bump cursor that only moves up; `munmap` drops the chunks that
lie entirely inside its range.
-/
import Remu.Lib.Word

namespace Remu.Usermode

-- ======== constants

abbrev CHUNK_SIZE : Nat := 0x10000

/-- Allocation granularity assumed by the guest. -/
abbrev PAGE_SIZE : U32 := 0x1000
/-- Exclusive top of the stack region. -/
abbrev STACK_TOP : U32 := 0xC0000000
abbrev STACK_SIZE : U32 := 0x800000
/-- Where anonymous `mmap` allocations start. -/
abbrev MMAP_BASE : U32 := 0x40000000

/-- `u32::checked_add`. -/
def checkedAdd (a b : U32) : Option U32 :=
  if a.toNat + b.toNat < 2 ^ 32 then some (a + b) else none

/-- `v` rounded up to a multiple of `align`, a power of two; `none` on
overflow. -/
def alignUp (v align : U32) : Option U32 :=
  (checkedAdd v (align - 1)).map fun x => x &&& ~~~(align - 1)

-- ======== the state

/-- An access to unmapped memory. -/
structure Segv where
  addr : U32
  write : Bool
deriving DecidableEq, Repr

/-- The bytes of one chunk, by offset. -/
abbrev Chunk : Type := Nat → U8

def newChunk : Chunk := fun _ => 0

structure AddressSpace where
  /-- The chunks by index; absent ones are unmapped. -/
  chunks : Nat → Option Chunk
  /-- Current program break. -/
  brk : U32
  /-- Lowest legal program break. -/
  brkBase : U32
  /-- Bump cursor of anonymous `mmap`. -/
  mmapNext : U32
  segv : Option Segv

namespace AddressSpace

/-- Fully unmapped. -/
def new : AddressSpace where
  chunks _ := none
  brk := 0
  brkBase := 0
  mmapNext := MMAP_BASE
  segv := none

/-- The byte at `a`, when its chunk is mapped. -/
def byte? (m : AddressSpace) (a : Nat) : Option U8 :=
  (m.chunks (a / CHUNK_SIZE)).map fun c => c (a % CHUNK_SIZE)

-- ======== guest accesses

/-- Latch the first unmapped access. -/
def noteSegv (m : AddressSpace) (addr : U32) (write : Bool) : AddressSpace :=
  { m with segv := m.segv.or (some ⟨addr, write⟩) }

/-- One byte; unmapped reads are 0 and latched. -/
def read8 (m : AddressSpace) (addr : U32) : U8 × AddressSpace :=
  match m.byte? addr.toNat with
  | some v => (v, m)
  | none => (0, m.noteSegv addr false)

/-- Store a byte into a chunk that is there. -/
def putByte (m : AddressSpace) (a : Nat) (c : Chunk) (v : U8) : AddressSpace :=
  { m with chunks := upd m.chunks (a / CHUNK_SIZE) (some (upd c (a % CHUNK_SIZE) v)) }

/-- One byte; unmapped writes are dropped and latched. -/
def write8 (m : AddressSpace) (addr : U32) (v : U8) : AddressSpace :=
  match m.chunks (addr.toNat / CHUNK_SIZE) with
  | some c => m.putByte addr.toNat c v
  | none => m.noteSegv addr true

-- ======== mapping

/-- Allocate chunk `i` if it is absent. -/
def allocChunk (m : AddressSpace) (i : Nat) : AddressSpace :=
  { m with chunks := upd m.chunks i (some ((m.chunks i).getD newChunk)) }

def dropChunk (m : AddressSpace) (i : Nat) : AddressSpace :=
  { m with chunks := upd m.chunks i none }

/-- Map `[addr, addr + len)`, whole chunks at a time, zero-filled. -/
def map (m : AddressSpace) (addr len : U32) : AddressSpace :=
  if len = 0 then m
  else
    let first := addr.toNat / CHUNK_SIZE
    let last := min (addr.toNat + len.toNat - 1) (2 ^ 32 - 1) / CHUNK_SIZE
    (List.range' first (last + 1 - first)).foldl allocChunk m

/-- Unmap every chunk fully contained in `[addr, addr + len)`. -/
def unmap (m : AddressSpace) (addr len : U32) : AddressSpace :=
  let start := addr.toNat
  let finish := start + len.toNat
  let first := (start + (CHUNK_SIZE - 1)) / CHUNK_SIZE
  let last := min finish (2 ^ 32) / CHUNK_SIZE
  (List.range' first (last - first)).foldl dropChunk m

def isMapped (m : AddressSpace) (addr : U32) : Bool :=
  (m.chunks (addr.toNat / CHUNK_SIZE)).isSome

/-- `brk(2)`: an unsatisfiable value returns the current break, otherwise
the break moves and a new range is mapped. Shrinking unmaps nothing. -/
def setBrk (m : AddressSpace) (new : U32) : U32 × AddressSpace :=
  if new < m.brkBase ∨ MMAP_BASE < new then (m.brk, m)
  else
    let m := if m.brk < new then m.map m.brk (new - m.brk) else m
    (new, { m with brk := new })

/-- Anonymous `mmap`: at `addr` when `fixed`, else at the bump cursor. -/
def mmap (m : AddressSpace) (addr len : U32) (fixed : Bool) :
    Option (U32 × AddressSpace) :=
  if len = 0 then none
  else do
    let len ← alignUp len PAGE_SIZE
    if fixed then
      if addr &&& (PAGE_SIZE - 1) ≠ 0
        ∨ (checkedAdd addr (len - 1)).isNone then none
      else some (addr, m.map addr len)
    else
      let base := m.mmapNext
      let finish := base.toNat + len.toNat
      if (STACK_TOP - STACK_SIZE).toNat < finish then none
      else some (base,
        { m.map base len with mmapNext := BitVec.ofNat 32 finish })

/-- Copy `data` into guest memory, byte by byte, until a chunk is missing
or the address space ends; `false` reports that. -/
def writeBytes (m : AddressSpace) (addr : Nat) : List U8 → Bool × AddressSpace
  | [] => (true, m)
  | v :: data =>
    if 2 ^ 32 ≤ addr then (false, m)
    else
      match m.chunks (addr / CHUNK_SIZE) with
      | some c => (m.putByte addr c v).writeBytes (addr + 1) data
      | none => (false, m)

end AddressSpace

end Remu.Usermode
