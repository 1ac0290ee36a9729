/-
ELF images: the loader of either layer.

The header is checked, the program headers are gone through in order, and
each `PT_LOAD` segment is mapped and filled where it is met. The two
loaders are one at two widths over a `Format`: what the x86-64 loader
checks of a segment before it maps it, and how it takes the end of a file
range, the i386 loader does not have. Sums are those of the source, with a
`usize` of 64 bits: one that does not fit stops the load
(`Stop.overflow`), and so does an error. What a load that was stopped
leaves behind is not kept; its process never runs.
-/
import Remu.Lib.ByteWords
import Remu.Os.Ops

namespace Remu.Os.Elf

open EntryWidth

abbrev MAGIC : List U8 := [0x7F, 0x45, 0x4C, 0x46]
abbrev DATA_LE : U8 := 1
abbrev ET_EXEC : U16 := 2
abbrev ET_DYN : U16 := 3

abbrev PT_LOAD : U32 := 1
abbrev PT_INTERP : U32 := 3
abbrev PT_PHDR : U32 := 6

abbrev PF_X : U32 := 1
abbrev PF_W : U32 := 2
abbrev PF_R : U32 := 4

/-- Exclusive top of the lower half, of the x86-64 layer. -/
abbrev USER_END : Nat := 0x800000000000

-- ======== arithmetic

/-- What stops a load. -/
inductive Stop where
  /-- A sum that does not fit. -/
  | overflow
  | error (msg : String)
deriving DecidableEq, Repr

variable {α : Type} {w : Nat}

/-- `ok_or(msg)?` -/
def required (msg : String) : Option α → Except Stop α
  | none => .error (.error msg)
  | some x => .ok x

/-- `+` on words. -/
def plus (a b : BitVec w) : Except Stop (BitVec w) :=
  if a.toNat + b.toNat < 2 ^ w then .ok (a + b) else .error .overflow

/-- `+` on `usize`. -/
def plusSize (a b : Nat) : Except Stop Nat :=
  if a + b < 2 ^ 64 then .ok (a + b) else .error .overflow

/-- `data.get(i..j)` -/
def slice (data : List U8) (i j : Nat) : Option (List U8) :=
  if i ≤ j ∧ j ≤ data.length then some ((data.take j).drop i) else none

/-- `rd_u16`, `rd_u32` and `rd_u64`, by the width. -/
def rd (w : Nat) (data : List U8) (off : Nat) :
    Except Stop (Option (BitVec w)) := do
  let e ← plusSize off (w / 8)
  return (slice data off e).map fun s => BitVec.ofNat w (leNat s)

/-- A field that has to be there. -/
def field (w : Nat) (msg : String) (data : List U8) (off : Nat) :
    Except Stop (BitVec w) := do
  let v ← rd w data off
  required msg v

/-- A field of the program header at `base`. -/
def phdrField (w : Nat) (data : List U8) (base off : Nat) :
    Except Stop (BitVec w) := do
  let at_ ← plusSize base off
  field w "truncated phdr" data at_

def protOf (flags : U32) : U32 :=
  (if flags &&& PF_R ≠ 0 then PROT_READ else 0)
    ||| (if flags &&& PF_W ≠ 0 then PROT_WRITE else 0)
    ||| (if flags &&& PF_X ≠ 0 then PROT_EXEC else 0)

-- ======== headers

structure Ehdr (w : Nat) where
  eType : U16
  entry : BitVec w
  phoff : BitVec w
  phentsize : U16
  phnum : U16
deriving DecidableEq, Repr

structure Phdr (w : Nat) where
  pType : U32
  flags : U32
  offset : BitVec w
  vaddr : BitVec w
  filesz : BitVec w
  memsz : BitVec w
deriving DecidableEq, Repr

/-- What the two loaders do not share. -/
structure Format (w : Nat) [EntryWidth w] where
  layout : Layout w
  elfClass : U8
  notClass : String
  machine : U16
  needed : String
  -- Where the fields of the headers are.
  phoffAt : Nat
  phentsizeAt : Nat
  phnumAt : Nat
  flagsAt : Nat
  offsetAt : Nat
  vaddrAt : Nat
  fileszAt : Nat
  memszAt : Nat
  /-- What is wrong with a segment, before it is mapped at the address. -/
  complaint : BitVec w → Phdr w → Option String
  /-- What a file range stops the load with when its end does not fit. -/
  badEnd : Stop

variable [EntryWidth w]

namespace Format

/-- i386. The segment is taken as it is. -/
def os : Format 32 where
  layout := .os
  elfClass := 1
  notClass := "not a 32-bit (ELFCLASS32) ELF"
  machine := 3
  needed := " (need EM_386)"
  phoffAt := 28
  phentsizeAt := 42
  phnumAt := 44
  offsetAt := 4
  vaddrAt := 8
  fileszAt := 16
  memszAt := 20
  flagsAt := 24
  complaint _ _ := none
  badEnd := .overflow

/-- The geometry of a segment of the x86-64 layer. -/
def geometry (vaddr : U64) (ph : Phdr 64) : Option String :=
  if ph.memsz < ph.filesz then some "PT_LOAD filesz exceeds memsz"
  else if USER_END < vaddr.toNat + ph.memsz.toNat then
    some "PT_LOAD maps outside the user address space"
  else none

/-- x86-64. -/
def os64 : Format 64 where
  layout := .os64
  elfClass := 2
  notClass := "not a 64-bit (ELFCLASS64) ELF"
  machine := 62
  needed := " (need EM_X86_64)"
  phoffAt := 32
  phentsizeAt := 54
  phnumAt := 56
  flagsAt := 4
  offsetAt := 8
  vaddrAt := 16
  fileszAt := 32
  memszAt := 40
  complaint := geometry
  badEnd := .error "PT_LOAD overflow"

variable (c : Format w)

/-- The ELF header, checked. -/
def readEhdr (data : List U8) : Except Stop (Ehdr w) :=
  if slice data 0 4 ≠ some MAGIC then .error (.error "not an ELF file")
  else if data[4]? ≠ some c.elfClass then .error (.error c.notClass)
  else if data[5]? ≠ some DATA_LE then .error (.error "not little-endian")
  else do
    let eType ← field 16 "truncated header" data 16
    let eMachine ← field 16 "truncated header" data 18
    if eMachine ≠ c.machine then
      .error (.error
        ("unsupported e_machine " ++ toString eMachine.toNat ++ c.needed))
    else if eType ≠ ET_EXEC ∧ eType ≠ ET_DYN then
      .error (.error ("unsupported e_type " ++ toString eType.toNat))
    else do
      let entry ← field w "truncated header" data 24
      let phoff ← field w "truncated header" data c.phoffAt
      let phentsize ← field 16 "truncated header" data c.phentsizeAt
      let phnum ← field 16 "truncated header" data c.phnumAt
      return { eType, entry, phoff, phentsize, phnum }

/-- The program header at `base`. Whichever field is missing, the error is
the same. -/
def readPhdr (data : List U8) (base : Nat) : Except Stop (Phdr w) := do
  let pType ← field 32 "truncated phdr" data base
  let flags ← phdrField 32 data base c.flagsAt
  let offset ← phdrField w data base c.offsetAt
  let vaddr ← phdrField w data base c.vaddrAt
  let filesz ← phdrField w data base c.fileszAt
  let memsz ← phdrField w data base c.memszAt
  return { pType, flags, offset, vaddr, filesz, memsz }

/-- Program header `i`. -/
def phdrAt (data : List U8) (e : Ehdr w) (i : Nat) : Except Stop (Phdr w) := do
  let base ← plusSize e.phoff.toNat (i * e.phentsize.toNat)
  c.readPhdr data base

end Format

-- ======== segments

/-- What a load has accumulated. -/
structure Loading (w : Nat) where
  aspace : AddressSpace w
  /-- The bytes that the path of the interpreter is decoded from. -/
  interp : Option (List U8)
  loadEnd : BitVec w
  phdrFromPt : Option (BitVec w)
  phdrInLoad : Option (BitVec w)

namespace Format

variable (c : Format w)

/-- The geometry is checked first, if it is. -/
def checkGeometry (vaddr : BitVec w) (ph : Phdr w) : Except Stop Unit :=
  match c.complaint vaddr ph with
  | some msg => .error (.error msg)
  | none => .ok ()

/-- Map a segment. The allocator's mark is a word like any other. -/
def mapImage (a : AddressSpace w) (vaddr : BitVec w) (ph : Phdr w) :
    Except Stop (AddressSpace w) :=
  let a := a.map c.layout vaddr ph.memsz (protOf ph.flags) .image
  if a.nextPhys < 2 ^ w then .ok a else .error .overflow

/-- The end of a segment's file range. -/
def fileEnd (ph : Phdr w) : Except Stop (BitVec w) :=
  if ph.offset.toNat + ph.filesz.toNat < 2 ^ w then .ok (ph.offset + ph.filesz)
    else .error c.badEnd

/-- Fill a segment. -/
def fill (a : AddressSpace w) (vaddr : BitVec w) (file : List U8) :
    Except Stop (AddressSpace w) :=
  let copied := a.writeBytes c.layout vaddr file
  if copied.1 = true then .ok copied.2
    else .error (.error "PT_LOAD target unmapped")

/-- Where the program headers are in memory, if they lie in the file range
of the segment. -/
def phdrIn (phoff vaddr : BitVec w) (ph : Phdr w) (old : Option (BitVec w)) :
    Except Stop (Option (BitVec w)) :=
  if ph.offset ≤ phoff then do
    let upto ← plus ph.offset ph.filesz
    if phoff < upto then do
      let addr ← plus vaddr (phoff - ph.offset)
      return some addr
    else .ok old
  else .ok old

/-- `PT_LOAD` -/
def loadSegment (data : List U8) (phoff bias : BitVec w)
    (l : Loading w) (ph : Phdr w) :
    Except Stop (Loading w) := do
  let vaddr := ph.vaddr + bias
  let _ ← c.checkGeometry vaddr ph
  let mapped ← c.mapImage l.aspace vaddr ph
  let upto ← c.fileEnd ph
  let file ← required "PT_LOAD file range out of bounds"
    (slice data ph.offset.toNat upto.toNat)
  let aspace ← c.fill mapped vaddr file
  let phdrInLoad ← phdrIn phoff vaddr ph l.phdrInLoad
  let memEnd := vaddr + ph.memsz
  return { l with aspace, phdrInLoad, loadEnd := if l.loadEnd < memEnd then memEnd else l.loadEnd }

/-- `PT_INTERP`: what comes before the first zero. -/
def interpPath (data : List U8) (ph : Phdr w) : Except Stop (List U8) := do
  let upto ← plus ph.offset ph.filesz
  let s ← required "PT_INTERP out of bounds"
    (slice data ph.offset.toNat upto.toNat)
  return s.takeWhile (· ≠ 0)

/-- What is done about a program header. -/
def handle (data : List U8) (phoff bias : BitVec w)
    (l : Loading w) (ph : Phdr w) :
    Except Stop (Loading w) :=
  if ph.pType = PT_LOAD then c.loadSegment data phoff bias l ph
  else if ph.pType = PT_INTERP then do
    let path ← interpPath data ph
    return { l with interp := some path }
  else if ph.pType = PT_PHDR
    then .ok { l with phdrFromPt := some (ph.vaddr + bias) }
  else .ok l

def step (data : List U8) (e : Ehdr w) (bias : BitVec w)
    (l : Loading w) (i : Nat) :
    Except Stop (Loading w) := do
  let ph ← c.phdrAt data e i
  c.handle data e.phoff bias l ph

end Format

-- ======== load

/-- The result of loading one image. -/
structure ElfImage (w : Nat) where
  entry : BitVec w
  phdr : BitVec w
  phent : U16
  phnum : U16
  interp : Option (List U8)
  loadEnd : BitVec w
  base : BitVec w

/-- The bias is for images that can be moved. -/
def Ehdr.bias (e : Ehdr w) (bias : BitVec w) : BitVec w :=
  if e.eType = ET_DYN then bias else 0

namespace Format

variable (c : Format w)

/-- The program headers before `i`. -/
def loadHeaders (data : List U8) (e : Ehdr w) (bias : BitVec w)
    (a : AddressSpace w) (i : Nat) :
    Except Stop (Loading w) :=
  (List.range i).foldlM (c.step data e bias)
    { aspace := a, interp := none, loadEnd := 0, phdrFromPt := none, phdrInLoad := none }

/-- Validate and load an image. The address in the file stands for that of
the program headers when no segment says better; it is taken in any case. -/
def load (data : List U8) (bias : BitVec w) (a : AddressSpace w) :
    Except Stop (ElfImage w × AddressSpace w) := do
  let e ← c.readEhdr data
  let bias := e.bias bias
  let l ← c.loadHeaders data e bias a e.phnum.toNat
  let fallback ← plus bias e.phoff
  return ({ entry := e.entry + bias, phdr := (l.phdrFromPt.or l.phdrInLoad).getD fallback,
            phent := e.phentsize, phnum := e.phnum, interp := l.interp,
            loadEnd := l.loadEnd,
            base := bias }, l.aspace)

end Format

end Remu.Os.Elf
