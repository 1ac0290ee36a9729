/-
ELF32 loading: parse a statically linked `ET_EXEC` image and map its
`PT_LOAD` segments.

`load` is partial where the source panics: on a segment slice outside the
file and on a segment whose bytes cannot be written after it was mapped.
The `u32` sums wrap.
-/
import Remu.Usermode.AddrSpace

namespace Remu.Usermode

/-- Loadable program header type. -/
abbrev PT_LOAD : U32 := 1

/-- A program header. -/
structure Phdr where
  pType : U32
  offset : U32
  vaddr : U32
  filesz : U32
  memsz : U32
  flags : U32
deriving DecidableEq, Repr

/-- A parsed ELF32 executable header with its program headers. -/
structure Elf32 where
  entry : U32
  phoff : U32
  phnum : U16
  machine : U16
  phdrs : List Phdr
deriving DecidableEq, Repr

/-- Why an image was rejected. -/
inductive LoadError where
  | notElf
  | not32Bit
  | notLittleEndian
  | notExec
  | wrongMachine (m : U16)
  | truncated
  | noLoadSegments
deriving DecidableEq, Repr

def byteAt (b : List U8) (off : Nat) : U8 := b.getD off 0

def u16le (b : List U8) (off : Nat) : U16 :=
  (byteAt b off).setWidth 16 ||| ((byteAt b (off + 1)).setWidth 16 <<< 8)

def u32le (b : List U8) (off : Nat) : U32 :=
  (u16le b off).setWidth 32 ||| ((u16le b (off + 2)).setWidth 32 <<< 16)

/-- The program header at `p`, refused when a loadable one reaches outside
the file or the address space. -/
def parsePhdr (bytes : List U8) (p : Nat) : Except LoadError Phdr :=
  let ph : Phdr :=
    { pType := u32le bytes p
      offset := u32le bytes (p + 4)
      vaddr := u32le bytes (p + 8)
      filesz := u32le bytes (p + 16)
      memsz := u32le bytes (p + 20)
      flags := u32le bytes (p + 24) }
  if ph.pType = PT_LOAD ∧ (bytes.length < ph.offset.toNat + ph.filesz.toNat
      ∨ ph.memsz < ph.filesz ∨ 2 ^ 32 < ph.vaddr.toNat + ph.memsz.toNat) then
    .error .truncated
  else .ok ph

/-- Parse and validate an ELF32 `ET_EXEC` image. -/
def parse (bytes : List U8) : Except LoadError Elf32 :=
  if bytes.take 4 ≠ [0x7F, 0x45, 0x4C, 0x46] then .error .notElf
  else if bytes.length < 52 then .error .truncated
  else if byteAt bytes 4 ≠ 1 then .error .not32Bit
  else if byteAt bytes 5 ≠ 1 then .error .notLittleEndian
  else if u16le bytes 16 ≠ 2 then .error .notExec
  else do
    let phoff := u32le bytes 28
    let phnum := u16le bytes 44
    if u16le bytes 42 ≠ 32 then throw .truncated
    if bytes.length < phoff.toNat + phnum.toNat * 32 then throw .truncated
    let phdrs ← (List.range phnum.toNat).mapM fun i =>
      parsePhdr bytes (phoff.toNat + i * 32)
    if !phdrs.any (fun p => p.pType == PT_LOAD) then throw .noLoadSegments
    return { entry := u32le bytes 24, phoff, phnum, machine := u16le bytes 18, phdrs }

/-- The loadable segments. -/
def Elf32.segments (elf : Elf32) : List Phdr :=
  elf.phdrs.filter fun p => p.pType == PT_LOAD

/-- What a load has accumulated: memory, the image's end and the address
of the program header table. -/
structure Loading where
  mem : AddressSpace
  imageEnd : U32
  phdrVaddr : Option U32

/-- Map one segment and copy its file bytes. -/
def loadSegment (elf : Elf32) (bytes : List U8) (l : Loading) (ph : Phdr) :
    Option Loading :=
  let tableEnd := elf.phoff.toNat + elf.phnum.toNat * 32
  let pageBase := ph.vaddr &&& ~~~(PAGE_SIZE - 1)
  let mem := l.mem.map pageBase (ph.vaddr - pageBase + ph.memsz)
  let upto := (ph.offset + ph.filesz).toNat
  if upto < ph.offset.toNat ∨ bytes.length < upto then none
  else
    let data := (bytes.take upto).drop ph.offset.toNat
    match mem.writeBytes ph.vaddr.toNat data with
    | (false, _) => none
    | (true, mem) => some
      { mem
        imageEnd := if l.imageEnd < ph.vaddr + ph.memsz
          then ph.vaddr + ph.memsz else l.imageEnd
        phdrVaddr :=
          if ph.offset.toNat ≤ elf.phoff.toNat
            ∧ tableEnd ≤ ph.offset.toNat + ph.filesz.toNat then
            some (ph.vaddr + (elf.phoff - ph.offset))
          else l.phdrVaddr }

/-- Map every loadable segment: the entry point, the program break and the
address of the program header table, and the memory. -/
def load (elf : Elf32) (bytes : List U8) (mem : AddressSpace) :
    Option ((U32 × U32 × Option U32) × AddressSpace) := do
  let l ← elf.segments.foldlM (loadSegment elf bytes) { mem, imageEnd := 0, phdrVaddr := none }
  let brkStart := (alignUp l.imageEnd PAGE_SIZE).getD (~~~(PAGE_SIZE - 1))
  return ((elf.entry, brkStart, l.phdrVaddr), l.mem)

end Remu.Usermode
