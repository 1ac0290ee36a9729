/-
The address space of a process: page tables, a frame allocator and the
list of mapped regions.

The i386 and the x86-64 layer are one design at two widths. The model is
one as well, over a `Layout` that says where the table indices are taken
from, which bits of an entry are its frame and where the regions of the
process lie; `Layout.os` and `Layout.os64` are the two layers. What only
one of them has (the kernel mapping of the i386 layer) says so.

Physical memory, which the source passes beside the address space, is its
field `mem`. The allocator is a counter without an end, and a frame's
address is the counter's value in the width of the machine: it wraps where
the source's counter wraps.
-/
import Remu.Lib.FrameTree
import Remu.Os.PhysMem

namespace Remu.Os

open EntryWidth FrameTree Word

variable {w : Nat}

-- ======== rounding

/-- `page_up`, of an address or of a sum of two: to a page boundary, at
most to the last one. -/
def pageUp (w n : Nat) : BitVec w :=
  BitVec.ofNat w (min ((n + 4095) / 4096 * 4096) (2 ^ w - 4096))

/-- The page of an address. -/
def pageDown (a : BitVec w) : BitVec w := a &&& ~~~(0xFFF : BitVec w)

/-- The page-rounded end of `[start, start + len)`. -/
def rangeEnd (start len : BitVec w) : BitVec w :=
  pageUp w (start.toNat + len.toNat)

/-- The pages of `while lin < e { ..; lin += PAGE_SIZE }` from `s`, both on
page boundaries. -/
def pages (s e : BitVec w) : List (BitVec w) :=
  (List.range ((e.toNat - s.toNat) >>> 12)).map fun k =>
    s + BitVec.ofNat w (4096 * k)

/-- The pages of `[start, start + len)`. -/
def rangePages (start len : BitVec w) : List (BitVec w) :=
  pages (pageDown start) (rangeEnd start len)

-- The rounding of either layer, in its own arithmetic.

/-- `page_up` of the i386 layer, on a 64-bit sum. -/
def pageUp32 (addr : U64) : U32 :=
  let r := (addr + 0xFFF) &&& ~~~(0xFFF : U64)
  (if r ≤ 0xFFFFF000 then r else 0xFFFFF000).setWidth 32

/-- `u64::saturating_add`. -/
def saturatingAdd (a b : U64) : U64 :=
  if a.toNat + b.toNat < 2 ^ 64 then a + b else 0xFFFFFFFFFFFFFFFF

/-- `page_up` of the x86-64 layer. -/
def pageUp64 (addr : U64) : U64 :=
  saturatingAdd addr 0xFFF &&& ~~~(0xFFF : U64)

/-- Rounding up, cut to the last page of the width. -/
theorem toNat_pageUp [PageWidth w] (n : Nat) :
    (pageUp w n).toNat = min ((n + 4095) / 4096 * 4096) (2 ^ w - 4096) := by
  obtain ⟨q, hq⟩ := PageWidth.exists_pow w
  have hpos := Nat.two_pow_pos w
  rw [pageUp, BitVec.toNat_ofNat, Nat.mod_eq_of_lt (by omega)]

/-- The i386 layer's rounding is this one. -/
theorem pageUp32_eq (a b : U32) : pageUp32
    (a.setWidth 64 + b.setWidth 64) = pageUp 32 (a.toNat + b.toNat) := by
  have ha := a.isLt
  have hb := b.isLt
  have hr : ((a.setWidth 64 + b.setWidth 64 + 0xFFF : U64) &&& ~~~(0xFFF : U64)).toNat
      = (a.toNat + b.toNat + 4095) / 4096 * 4096 := by
    rw [toNat_and_not_FFF, BitVec.toNat_add, BitVec.toNat_add,
      BitVec.toNat_setWidth, BitVec.toNat_setWidth,
      show (0xFFF : U64).toNat = 4095 from rfl]
    omega
  apply BitVec.eq_of_toNat_eq
  have hlast : (0xFFFFF000 : U64).toNat = 4294963200 := rfl
  rw [toNat_pageUp, pageUp32, BitVec.toNat_setWidth]
  split
  case isTrue h =>
    rw [BitVec.le_def, hr, hlast] at h
    rw [hr]
    omega
  case isFalse h =>
    rw [BitVec.le_def, hr, hlast] at h
    rw [hlast]
    omega

/-- A sum that stops at the largest word. -/
theorem toNat_saturatingAdd (a b : U64) :
    (saturatingAdd a b).toNat = min (a.toNat + b.toNat) (2 ^ 64 - 1) := by
  have ha := a.isLt
  have hb := b.isLt
  rw [saturatingAdd]
  split
  · rw [BitVec.toNat_add]
    omega
  · rw [show (0xFFFFFFFFFFFFFFFF : U64).toNat = 2 ^ 64 - 1 from rfl]
    omega

/-- The x86-64 layer's rounding is this one too. -/
theorem pageUp64_eq (addr : U64) : pageUp64 addr = pageUp 64 addr.toNat := by
  have ha := addr.isLt
  apply BitVec.eq_of_toNat_eq
  rw [toNat_pageUp, pageUp64, toNat_and_not_FFF, toNat_saturatingAdd,
    show (0xFFF : U64).toNat = 4095 from rfl]
  omega

/-- `range_end` of the x86-64 layer. -/
theorem pageUp64_range (start len : U64) :
    pageUp64 (saturatingAdd start len) = rangeEnd start len := by
  apply BitVec.eq_of_toNat_eq
  rw [pageUp64_eq, rangeEnd, toNat_pageUp, toNat_pageUp, toNat_saturatingAdd]
  omega

-- ======== layouts

/-- Pages that may be read. -/
abbrev PROT_READ : U32 := 1
/-- Pages that may be written. -/
abbrev PROT_WRITE : U32 := 2
/-- Pages that may be executed. -/
abbrev PROT_EXEC : U32 := 4

-- Page-table entry bits.

namespace pte

/-- Present. -/
abbrev P : BitVec w := BitVec.ofNat w 1
/-- Writable. -/
abbrev RW : BitVec w := BitVec.ofNat w 2
/-- For user mode. -/
abbrev US : BitVec w := BitVec.ofNat w 4

end pte

/-- The flags of a leaf. -/
def leafFlags (prot : U32) (user : Bool) : BitVec w :=
  pte.P ||| (if user then pte.US else 0)
    ||| (if prot &&& PROT_WRITE ≠ 0 then pte.RW else 0)

/-- What the two layers do not share. -/
structure Layout (w : Nat) [EntryWidth w] where
  /-- Where the indices of the interior tables start, root first. -/
  tableShifts : List Nat
  /-- The frame bits of an entry. -/
  physMask : BitVec w
  /-- What is kept of CR3 and of the frame put into a leaf. -/
  edgeMask : BitVec w
  /-- Physical addresses have this many bits. -/
  physBits : Nat
  mmapBase : BitVec w
  stackTop : BitVec w
  /-- Lowest address the stack may grow to. -/
  stackLimit : BitVec w
  shifts_ge : ∀ s ∈ tableShifts, 12 ≤ s
  physBits_le : physBits ≤ w
  mask_flags : physMask &&& 0xFFF = 0
  mask_frame : ∀ f : BitVec w, Aligned f → f.toNat < 2 ^ physBits →
    f &&& physMask = f ∧ f &&& edgeMask = f

/-- Page addresses have no offset bits. -/
theorem aligned_iff [PageWidth w] (f : BitVec w) :
    Aligned f ↔ f &&& 0xFFF = 0 := by
  rw [Aligned, ← toNat_and_FFF]
  constructor
  · intro h
    exact BitVec.eq_of_toNat_eq (by rw [h]; rfl)
  · intro h
    rw [h]
    rfl

/-- An aligned address is all page bits. -/
theorem Aligned.and_not_FFF [PageWidth w] {f : BitVec w} (hf : Aligned f) :
    f &&& ~~~(0xFFF : BitVec w) = f := by
  apply BitVec.eq_of_toNat_eq
  rw [toNat_and_not_FFF]
  rw [Aligned] at hf
  omega

namespace Layout

/-- The i386 layout meets what a layout is asked. -/
theorem os_shifts_ge : ∀ s ∈ [22], 12 ≤ s := by decide

theorem os_mask_flags : (0xFFFFF000 : U32) &&& 0xFFF = 0 := by decide

theorem os_mask_frame (f : U32) (hf : Aligned f) (_ : f.toNat < 2 ^ 32) :
    f &&& 0xFFFFF000 = f ∧ f &&& 0xFFFFFFFF = f :=
  ⟨hf.and_not_FFF, BitVec.and_allOnes⟩

/-- The x86-64 layout does too. -/
theorem os64_shifts_ge : ∀ s ∈ [39, 30, 21], 12 ≤ s := by decide

theorem os64_mask_flags : (0x000FFFFFFFFFF000 : U64) &&& 0xFFF = 0 := by decide

theorem os64_mask_frame (f : U64) (hf : Aligned f) (hlt : f.toNat < 2 ^ 52) :
    f &&& 0x000FFFFFFFFFF000 = f ∧ f &&& 0x000FFFFFFFFFF000 = f := by
  have hlow : f &&& BitVec.ofNat 64 (2 ^ 52 - 1) = f := by
    apply BitVec.eq_of_toNat_eq
    rw [toNat_and_mask f 52 (by omega), Nat.mod_eq_of_lt hlt]
  have hsplit : (0x000FFFFFFFFFF000 : U64)
    = BitVec.ofNat 64 (2 ^ 52 - 1) &&& ~~~(0xFFF : U64) := by
    decide
  have hmask : f &&& 0x000FFFFFFFFFF000 = f := by
    rw [hsplit, ← BitVec.and_assoc, hlow, hf.and_not_FFF]
  exact ⟨hmask, hmask⟩

/-- The i386 layer: a directory of tables. -/
def os : Layout 32 where
  tableShifts := [22]
  physMask := 0xFFFFF000
  edgeMask := 0xFFFFFFFF
  physBits := 32
  mmapBase := 0x40000000
  stackTop := 0xC0000000
  stackLimit := 0xBF800000
  shifts_ge := os_shifts_ge
  physBits_le := le_refl 32
  mask_flags := os_mask_flags
  mask_frame := os_mask_frame

theorem os64_physBits_le : 52 ≤ 64 := by omega

/-- The x86-64 layer: PML4, PDPT, PD, PT. -/
def os64 : Layout 64 where
  tableShifts := [39, 30, 21]
  physMask := 0x000FFFFFFFFFF000
  edgeMask := 0x000FFFFFFFFFF000
  physBits := 52
  mmapBase := 0x00007F0000000000
  stackTop := 0x00007FFFFFFFF000
  stackLimit := 0x00007FFFFF7FF000
  shifts_ge := os64_shifts_ge
  physBits_le := os64_physBits_le
  mask_flags := os64_mask_flags
  mask_frame := os64_mask_frame

variable [EntryWidth w] (L : Layout w)

/-- The table index of `lin` that starts at bit `s`. -/
def index (lin : BitVec w) (s : Nat) : Fin (fanout w) :=
  ⟨(lin >>> s).toNat % fanout w, Nat.mod_lt _ fanout_pos⟩

/-- The indices of `lin` in the interior tables. -/
def interior (lin : BitVec w) : List (Fin (fanout w)) :=
  L.tableShifts.map (index lin)

/-- The index of `lin` in its page table. -/
def leaf (lin : BitVec w) : Fin (fanout w) := index lin 12

/-- The table indices of `lin`. -/
def indices (lin : BitVec w) : List (Fin (fanout w)) :=
  L.interior lin ++ [leaf lin]

/-- The number of levels. -/
def depth : Nat := L.tableShifts.length + 1

/-- A path of table indices and its leaf make the depth. -/
theorem length_interior (lin : BitVec w) :
    (L.interior lin).length + 1 = L.depth := by
  rw [interior, List.length_map, depth]

theorem length_indices (lin : BitVec w) :
    (L.indices lin).length = L.depth := by
  rw [indices, List.length_append, List.length_singleton, L.length_interior]

/-- Where an entry leads: nowhere, or to its frame. -/
def follow (e : BitVec w) : Option (BitVec w) :=
  if e &&& pte.P = 0 then none else some (e &&& L.physMask)

/-- Where slot `i` of the table at `t` leads. -/
def child (m : PhysMem w) (t : BitVec w) (i : Fin (fanout w)) :
    Option (BitVec w) :=
  L.follow (load m (slot t i))

end Layout

-- ======== address spaces

inductive VmaKind where
  /-- ELF image (executable or interpreter). -/
  | image
  | stack
  /-- `brk` heap. -/
  | heap
  | mapping
  /-- Kernel structures, of the i386 layer. -/
  | system
deriving DecidableEq, Repr

/-- A mapped region. -/
structure Vma (w : Nat) where
  start : BitVec w
  end_ : BitVec w
  prot : U32
  kind : VmaKind
deriving DecidableEq, Repr

structure AddressSpace (w : Nat) where
  /-- Physical base of the root table. -/
  cr3 : BitVec w
  /-- Next free physical frame. -/
  nextPhys : Nat
  vmas : List (Vma w)
  /-- Current program break. -/
  brk : BitVec w
  /-- Initial program break. -/
  brkBase : BitVec w
  /-- Next free `mmap` address. -/
  mmapTop : BitVec w
  mem : PhysMem w

-- The part of a copy that lies in its first page is not empty.

/-- A copy moves on: each chunk has a byte. -/
theorem chunk_pos (lin : BitVec w) (v : U8) (vs : List U8) :
    0 < min (4096 - lin.toNat % 4096) (v :: vs).length := by
  rw [List.length_cons]
  omega

theorem chunk_lt (lin : BitVec w) (v : U8) (vs : List U8) :
    ((v :: vs).drop (min (4096 - lin.toNat % 4096) (v :: vs).length)).length
      < (v :: vs).length := by
  have := chunk_pos lin v vs
  rw [List.length_drop]
  rw [List.length_cons] at this ⊢
  omega

/-- What is left of a copy gets shorter. -/
theorem rest_lt (lin : BitVec w) (n : Nat) :
    n + 1 - min (4096 - lin.toNat % 4096) (n + 1) < n + 1 := by
  omega

namespace AddressSpace

variable [EntryWidth w]

/-- The next frame; memory beyond the last one is zero already. -/
def allocFrame (a : AddressSpace w) : BitVec w × AddressSpace w :=
  (BitVec.ofNat w a.nextPhys, { a with nextPhys := a.nextPhys + 4096 })

/-- An address space with an empty root table. Frame 0 stays unused. -/
def new (L : Layout w) : AddressSpace w :=
  let a : AddressSpace w :=
    { cr3 := 0, nextPhys := 4096, vmas := [], brk := 0, brkBase := 0, mmapTop := L.mmapBase,
      mem := PhysMem.new }
  let (f, a) := a.allocFrame
  { a with cr3 := f }

section Tables

variable (L : Layout w)

/-- The root table's frame. -/
def root (a : AddressSpace w) : BitVec w := a.cr3 &&& L.edgeMask

/-- The frame a path of table indices leads to. -/
def frameAt (a : AddressSpace w) (p : List (Fin (fanout w))) :
    Option (BitVec w) :=
  node (L.child a.mem) (a.root L) p

/-- Walk the page tables; `none` if any level is not present. -/
def resolve (a : AddressSpace w) (lin : BitVec w) : Option (BitVec w) :=
  (a.frameAt L (L.indices lin)).map fun f => f ||| (lin &&& 0xFFF)

/-- The raw leaf entry of `lin`, 0 if any level above is unmapped. -/
def pteEntry (a : AddressSpace w) (lin : BitVec w) : BitVec w :=
  match a.frameAt L (L.interior lin) with
  | none => 0
  | some t => load a.mem (slot t (Layout.leaf lin))

/-- The table a path leads to from `t`, with what is missing allocated.
Interior entries are maximally permissive. -/
def tableFor (a : AddressSpace w) (t : BitVec w) :
    List (Fin (fanout w)) → BitVec w × AddressSpace w
  | [] => (t, a)
  | i :: p =>
    let e := load a.mem (slot t i)
    if e &&& pte.P = 0 then
      let (f, a) := a.allocFrame
      let e := f ||| pte.P ||| pte.RW ||| pte.US
      tableFor { a with mem := store a.mem (slot t i) e } (e &&& L.physMask) p
    else tableFor a (e &&& L.physMask) p

/-- Install the leaf of `lin`. -/
def setPte (a : AddressSpace w) (lin phys : BitVec w) (prot : U32)
    (user : Bool) : AddressSpace w :=
  let (t, a) := a.tableFor L (a.root L) (L.interior lin)
  { a with mem := store a.mem (slot t (Layout.leaf lin)) ((phys &&& L.edgeMask)
    ||| leafFlags prot user) }

/-- A page that is mapped already keeps its frame and widens its
protection. -/
def mapPage (prot : U32) (user : Bool) (a : AddressSpace w) (lin : BitVec w) :
    AddressSpace w :=
  match a.resolve L lin with
  | none =>
    let (phys, a) := a.allocFrame
    a.setPte L lin phys prot user
  | some p =>
    let widened :=
      if a.pteEntry L lin &&& pte.RW ≠ 0 then prot ||| PROT_WRITE else prot
    a.setPte L lin (pageDown p) widened user

/-- Map `[start, start + len)` without recording a region. -/
def mapRange (a : AddressSpace w) (start len : BitVec w) (prot : U32)
    (user : Bool) : AddressSpace w :=
  (rangePages start len).foldl (mapPage L prot user) a

/-- Record a region. -/
def pushVma (a : AddressSpace w) (start len : BitVec w)
    (prot : U32) (kind : VmaKind) :
    AddressSpace w :=
  { a with vmas := a.vmas ++ [⟨pageDown start, rangeEnd start len, prot, kind⟩] }

/-- Map `[start, start + len)` as user memory and record a region. -/
def map (a : AddressSpace w) (start len : BitVec w) (prot : U32)
    (kind : VmaKind) : AddressSpace w :=
  (a.mapRange L start len prot true).pushVma start len prot kind

/-- A kernel region, U/S clear (the i386 layer's GDT). -/
def mapKernel (a : AddressSpace w) (start len : BitVec w) : AddressSpace w :=
  (a.mapRange L start len (PROT_READ ||| PROT_WRITE) false).pushVma start len
    (PROT_READ ||| PROT_WRITE) .system

-- ======== host-side copies

/-- Copy into guest memory with the kernel's privilege, a page at a time;
`false` when a page is unmapped. -/
def writeBytes (a : AddressSpace w) (lin : BitVec w) :
    List U8 → Bool × AddressSpace w
  | [] => (true, a)
  | v :: vs =>
    match a.resolve L lin with
    | none => (false, a)
    | some phys =>
      let n := min (4096 - lin.toNat % 4096) (v :: vs).length
      writeBytes { a with mem := a.mem.copyIn phys ((v :: vs).take n) }
        (lin + BitVec.ofNat w n) ((v :: vs).drop n)
termination_by data => data.length
decreasing_by exact chunk_lt lin v vs

/-- Read `n` bytes of guest memory, a page at a time. -/
def readBytes (a : AddressSpace w) (lin : BitVec w) : Nat → Option (List U8)
  | 0 => some []
  | n + 1 =>
    match a.resolve L lin with
    | none => none
    | some phys =>
      let k := min (4096 - lin.toNat % 4096) (n + 1)
      (readBytes a (lin + BitVec.ofNat w k) (n + 1 - k)).map
        (a.mem.copyOut phys k ++ ·)
termination_by n => n
decreasing_by exact rest_lt lin n

-- ======== operations

/-- Bump-allocate from the arena; the base, or 0 if the arena would collide
with the stack region. -/
def mmap (a : AddressSpace w) (len : BitVec w) (prot : U32) :
    BitVec w × AddressSpace w :=
  let addr := a.mmapTop
  let size := pageUp w len.toNat
  if addr.toNat + size.toNat > L.stackLimit.toNat then (0, a)
  else
    let a := a.map L addr size prot .mapping
    (addr, { a with mmapTop := a.mmapTop + size })

/-- Map at a given address, whatever was there. -/
def mmapFixed (a : AddressSpace w) (addr len : BitVec w) (prot : U32) :
    AddressSpace w :=
  let a := a.map L addr len prot .mapping
  let e := rangeEnd addr len
  { a with mmapTop := if a.mmapTop ≤ e then e else a.mmapTop }

/-- Change a page's protection, mapping it first where it is not. -/
def protectPage (prot : U32) (a : AddressSpace w) (lin : BitVec w) :
    AddressSpace w :=
  match a.resolve L lin with
  | none => a
  | some phys => a.setPte L lin (pageDown phys) prot true

/-- Unmapped pages are skipped. -/
def protect (a : AddressSpace w) (start len : BitVec w) (prot : U32) :
    AddressSpace w :=
  (rangePages start len).foldl (protectPage L prot) a

/-- Clear a leaf; the frame is not given back. -/
def unmapPage (a : AddressSpace w) (lin : BitVec w) : AddressSpace w :=
  match a.frameAt L (L.interior lin) with
  | none => a
  | some t => { a with mem := store a.mem (slot t (Layout.leaf lin)) 0 }

/-- A region goes when it lies inside the range. -/
def unmap (a : AddressSpace w) (start len : BitVec w) : AddressSpace w :=
  let a := (rangePages start len).foldl (unmapPage L) a
  { a with vmas := a.vmas.filter fun v => !(pageDown start ≤ v.start && v.end_
    ≤ rangeEnd start len) }

/-- Set by the loader. -/
def initBrk (a : AddressSpace w) (addr : BitVec w) : AddressSpace w :=
  { a with brk := pageUp w addr.toNat, brkBase := pageUp w addr.toNat }

/-- Query or move the program break. -/
def setBrk (a : AddressSpace w) (new : BitVec w) : BitVec w × AddressSpace w :=
  if new < a.brkBase ∨ L.mmapBase < new then (a.brk, a)
  else
    let old := pageUp w a.brk.toNat
    let want := pageUp w new.toNat
    let a := if old < want
      then a.map L old (want - old) (PROT_READ ||| PROT_WRITE) .heap else a
    (new, { a with brk := new })

/-- The region of the stack. -/
def stackVma (a : AddressSpace w) : Option (Vma w) :=
  a.vmas.find? (·.kind = .stack)

/-- A touch just below the stack, within the growth limit. -/
def isStackGrowth (a : AddressSpace w) (lin : BitVec w) : Option (BitVec w) :=
  a.stackVma.bind fun stack =>
    if L.stackLimit ≤ lin
      ∧ lin < stack.start then some (pageDown lin) else none

/-- The first stack region moved down to `bottom`. -/
def lowerStack (bottom : BitVec w) : List (Vma w) → List (Vma w)
  | [] => []
  | v :: vs =>
    if v.kind = .stack then { v with start := bottom } :: vs
      else v :: lowerStack bottom vs

/-- Move the stack's lower bound down. -/
def growStack (a : AddressSpace w) (newBottom : BitVec w) : AddressSpace w :=
  let old := (a.stackVma.map (·.start)).getD L.stackTop
  let bottom := pageDown newBottom
  if bottom < old then
    let a := a.mapRange L bottom (old - bottom) (PROT_READ ||| PROT_WRITE) true
    { a with vmas := lowerStack bottom a.vmas }
  else a

end Tables

end AddressSpace

end Remu.Os
