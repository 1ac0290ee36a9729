/-
A loaded process and the calls that move its memory map.

A run is a list of steps: the three memory system calls, and guest stores
between them. Beside the address space it keeps what the calls have
promised so far, as a history of mapped and unmapped byte ranges; nothing
the code computes reads it.
-/
import Remu.Usermode.Elf

namespace Remu.Usermode

-- ======== system calls

abbrev ENOMEM : U32 := 12
abbrev ENODEV : U32 := 19
abbrev MAP_FIXED : U32 := 0x10
abbrev MAP_ANONYMOUS : U32 := 0x20

/-- A system call's error return. -/
def err (errno : U32) : U32 := -errno

/-- The arguments of `mmap2` it looks at. -/
structure MmapArgs where
  addr : U32
  len : U32
  flags : U32
  fd : U32
deriving DecidableEq, Repr

namespace MmapArgs

def fixed (a : MmapArgs) : Bool := a.flags &&& MAP_FIXED != 0

/-- Not file-backed: the only kind there is. -/
def anonymous (a : MmapArgs) : Bool :=
  a.flags &&& MAP_ANONYMOUS != 0 && a.fd == 0xFFFFFFFF

end MmapArgs

/-- `mmap2`: anonymous mappings only. -/
def sysMmap2 (m : AddressSpace) (a : MmapArgs) : U32 × AddressSpace :=
  if !a.anonymous then (err ENODEV, m)
  else
    match m.mmap a.addr a.len a.fixed with
    | some r => r
    | none => (err ENOMEM, m)

-- ======== a process

/-- Where the flat GDT lives. -/
abbrev GDT_BASE : U32 := 0xFFFFF000

/-- The memory map a process starts with: the image, the break at its end,
the stack and the GDT page. The bytes of the last two are stores. -/
def start (elf : Elf32) (bytes : List U8) : Option AddressSpace := do
  let ((_, brkStart, _), mem) ← load elf bytes AddressSpace.new
  let mem := { mem with brkBase := brkStart, brk := brkStart }
  let mem := mem.map (STACK_TOP - STACK_SIZE) STACK_SIZE
  return mem.map GDT_BASE PAGE_SIZE

/-- One entry of the history: a range was returned by `mmap`, or given to
`munmap`. -/
inductive Mapping where
  | mapped (fixed : Bool) (addr len : Nat)
  | unmapped (addr len : Nat)
deriving DecidableEq, Repr

/-- Byte `x` lies in a range of `len` bytes from `addr`. -/
def Covers (addr len x : Nat) : Prop := addr ≤ x ∧ x < addr + len

instance (addr len x : Nat) : Decidable (Covers addr len x) :=
  inferInstanceAs (Decidable (_ ∧ _))

/-- Byte `x` was mapped by a call, `fixed` or not, and not unmapped since.
The newest entry comes first. -/
def Held (fixed : Bool) : List Mapping → Nat → Prop
  | [], _ => False
  | .mapped f addr len :: h, x =>
    (f = fixed ∧ Covers addr len x) ∨ Held fixed h x
  | .unmapped addr len :: h, x => ¬ Covers addr len x ∧ Held fixed h x

instance Held.decidable (fixed : Bool) :
    ∀ (h : List Mapping) (x : Nat), Decidable (Held fixed h x)
  | [], _ => isFalse id
  | .mapped _ _ _ :: h, x =>
    have := Held.decidable fixed h x
    inferInstanceAs (Decidable (_ ∨ _))
  | .unmapped _ _ :: h, x =>
    have := Held.decidable fixed h x
    inferInstanceAs (Decidable (_ ∧ _))

structure Process where
  elf : Elf32
  mem : AddressSpace
  history : List Mapping

namespace Process

/-- A byte of a loaded segment. -/
def Image (p : Process) (x : Nat) : Prop :=
  ∃ ph ∈ p.elf.segments, Covers ph.vaddr.toNat ph.memsz.toNat x

/-- A byte below the break. -/
def Heap (p : Process) (x : Nat) : Prop :=
  p.mem.brkBase.toNat ≤ x ∧ x < p.mem.brk.toNat

end Process

/-- What a process may do to its memory. -/
inductive Call where
  | brk (new : U32)
  | mmap2 (args : MmapArgs)
  | munmap (addr len : U32)
  | store (addr : U32) (v : U8)
deriving DecidableEq, Repr

/-- The page-rounded length of a request, as `mmap` rounds it. -/
def roundedLen (len : U32) : Nat := ((alignUp len PAGE_SIZE).getD 0).toNat

/-- The history after `mmap2`: a success adds what it returned. -/
def noteMmap (p : Process) (a : MmapArgs) : List Mapping :=
  if a.anonymous then
    match p.mem.mmap a.addr a.len a.fixed with
    | some (base, _) =>
      .mapped a.fixed base.toNat (roundedLen a.len) :: p.history
    | none => p.history
  else p.history

def Process.step (p : Process) : Call → Process
  | .brk new => { p with mem := (p.mem.setBrk new).2 }
  | .mmap2 a => { p with mem := (sysMmap2 p.mem a).2, history := noteMmap p a }
  | .munmap addr len =>
    { p with mem := p.mem.unmap addr len, history := .unmapped addr.toNat len.toNat :: p.history }
  | .store addr v => { p with mem := p.mem.write8 addr v }

def Process.run (p : Process) (calls : List Call) : Process :=
  calls.foldl Process.step p

end Remu.Usermode
