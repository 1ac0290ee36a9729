/-
Descriptors and segment loads.

A descriptor is read from the GDT or LDT with supervisor privilege and
unpacked into the fields of a segment cache. Loading a segment register
checks it against CPL, RPL and the register's role before the cache is
committed. CPL itself is the DPL of the cached CS attributes, so loading
CS is what changes it.
-/
import Remu.X64.Access

namespace Remu.X64

variable {β : Type} [Bus β]

-- ======== descriptors

/-- A parsed descriptor: the segment-cache fields and the raw words the
gate fields are read from. -/
structure Descriptor where
  addr : U64
  base : U64
  limit : U32
  attrs : U16
  lo : U32
  hi : U32
  /-- The upper half of a 16-byte system descriptor in long mode. -/
  hi2 : U64
deriving DecidableEq, Repr

namespace Descriptor

/-- The type of a system descriptor. -/
def sysType (d : Descriptor) : U8 := (d.attrs &&& 0x0F).setWidth 8
/-- A code or data segment, not a system one. -/
def isCodeData (d : Descriptor) : Bool := d.attrs &&& 0x10 != 0
/-- A code segment. -/
def isCode (d : Descriptor) : Bool := d.attrs &&& 0x18 == 0x18
/-- A writable data segment. -/
def isWritableData (d : Descriptor) : Bool := d.attrs &&& 0x1A == 0x12

/-- Data segments are always readable; code needs the R bit. -/
def isReadable (d : Descriptor) : Bool :=
  d.attrs &&& 0x08 == 0 || d.attrs &&& 0x02 != 0

/-- A conforming code segment. -/
def isConforming (d : Descriptor) : Bool := d.attrs &&& 0x1C == 0x1C
/-- The P bit. -/
def present (d : Descriptor) : Bool := d.attrs &&& 0x80 != 0
/-- The D/B bit: 32-bit defaults. -/
def db (d : Descriptor) : Bool := d.attrs &&& 0x0400 != 0
/-- The L bit: 64-bit code. -/
def l (d : Descriptor) : Bool := d.attrs &&& 0x0200 != 0
/-- The descriptor's privilege level. -/
def dpl (d : Descriptor) : U8 := ((d.attrs >>> 5) &&& 3).setWidth 8

/-- The selector a gate points to. -/
def gateSel (d : Descriptor) : U16 := (d.lo >>> 16).setWidth 16

/-- A gate's target offset: the low word, the upper word of 32-bit gates,
the upper half of long-mode gates. -/
def gateOff (d : Descriptor) (wide long : Bool) : U64 :=
  (d.lo &&& 0xFFFF).setWidth 64
    ||| (if wide then (d.hi &&& 0xFFFF0000).setWidth 64 else 0)
    ||| (if long then (d.hi2.setWidth 32).setWidth 64 <<< 32 else 0)

/-- How many parameters a call gate copies. -/
def gateParams (d : Descriptor) : U32 := d.hi &&& 0x1F
/-- The interrupt stack a gate names. -/
def gateIst (d : Descriptor) : U8 := (d.hi &&& 7).setWidth 8

/-- Unpack the two words of a descriptor. The access byte goes to bits 0–7
of `attrs`, the flags nibble to bits 8–11. -/
def parse (addr : U64) (lo hi : U32) : Descriptor :=
  let base := (lo >>> 16) ||| ((hi &&& 0xFF) <<< 16) ||| (hi &&& 0xFF000000)
  let raw := (lo &&& 0xFFFF) ||| (hi &&& 0x000F0000)
  { addr := addr
    base := base.setWidth 64
    limit := if hi &&& 0x00800000 != 0 then (raw <<< 12) ||| 0xFFF else raw
    attrs := (((hi >>> 12) &&& 0x0F00) ||| ((hi >>> 8) &&& 0xFF)).setWidth 16
    lo := lo
    hi := hi
    hi2 := 0 }

/-- The segment cache a descriptor is committed as. -/
def cache (d : Descriptor) (sel : U16) : SegReg :=
  { sel := sel, base := d.base, limit := d.limit, attrs := d.attrs ||| 0x80 }

end Descriptor

/-- A selector without its RPL and table bits is zero. -/
def nullSel (sel : U16) : Bool := sel &&& 0xFFFC == 0

/-- The error-code form of a selector. -/
abbrev selErr (sel : U16) : U16 := sel &&& 0xFFFC

/-- A selector's requested privilege level. -/
def rplOf (sel : U16) : U8 := (sel &&& 3).setWidth 8

/-- Table base and limit for a selector's TI bit. -/
def Cpu.table (c : Cpu) (sel : U16) : U64 × U32 :=
  if sel &&& 4 != 0 then (c.regs.ldtr.base, c.regs.ldtr.limit)
  else (c.regs.gdtr.base, c.regs.gdtr.limit.setWidth 32)

/-- The upper half of a long-mode system descriptor. -/
def readUpperHalf (d : Descriptor) (index : Nat)
    (limit : U32) (e : Exception) :
    Calm β Descriptor := do
  raiseIf (limit.toNat < index + 15) e
  let hi2 ← sysRead64 (d.addr + 8)
  raiseIf (hi2 &&& 0x1F00 ≠ 0) e
  return { d with hi2 := hi2, base := d.base ||| ((hi2.setWidth 32).setWidth 64 <<< 32) }

/-- Read and parse the descriptor for a non-null selector; a limit
violation raises `err` with the selector as error code. -/
def readDescriptorErr (sel : U16) (err : U16 → Exception) :
    Calm β Descriptor := do
  let s ← self
  let (base, limit) := s.table sel
  let index := (sel &&& 0xFFF8).toNat
  raiseIf (limit.toNat < index + 7) (err (selErr sel))
  let addr := base + BitVec.ofNat 64 index
  let lo ← sysRead32 addr
  let hi ← sysRead32 (addr + 4)
  let d := Descriptor.parse addr lo hi
  let s ← self
  if s.longMode && !d.isCodeData then
    readUpperHalf d index limit (err (selErr sel))
  else return d

/-- Reads a descriptor, with #GP where it is outside its table. -/
def readDescriptor (sel : U16) : Calm β Descriptor :=
  readDescriptorErr sel Exception.gp

/-- Set the accessed bit of a code or data descriptor, if clear. -/
def markAccessed (d : Descriptor) : Calm β Unit :=
  whenever (d.isCodeData && d.attrs &&& 1 == 0)
    (sysWrite8 (d.addr + 5) (((d.hi >>> 8) &&& 0xFF).setWidth 8 ||| 1))

-- ======== segment loads

/-- Replace one segment register. -/
def ColdRegs.setSeg (r : ColdRegs) (idx : U8) (g : SegReg) : ColdRegs :=
  { r with seg := upd r.seg idx g }

/-- Commit a descriptor to a segment register. -/
def commitSeg (idx : U8) (sel : U16) (d : Descriptor) : Xfer β Unit :=
  coldWrite (·.setSeg idx (d.cache sel))

/-- A load of SS, with its own checks. -/
def loadSs (sel : U16) : Warm β Unit := do
  let s ← self
  let cpl := s.cpl
  if nullSel sel then
    -- 64-bit mode allows a null SS below CPL 3.
    if s.mode64 && cpl != 3 && rplOf sel == cpl then
      warmWrite (·.setSeg reg.SS (SegReg.null sel))
    else throw (Exception.gp 0)
  else do
    raiseIf (rplOf sel ≠ cpl) (Exception.gp (selErr sel))
    let d ← (readDescriptor sel).lift
    raiseIf (!d.isWritableData || d.dpl != cpl) (Exception.gp (selErr sel))
    raiseIf (!d.present) (Exception.ss (selErr sel))
    (markAccessed d).lift
    (commitSeg reg.SS sel d).lift

/-- The privilege check of a data-segment load: DPL is at least CPL and
RPL, unless the target is conforming code. -/
def Cpu.dataPrivOk (c : Cpu) (sel : U16) (d : Descriptor) : Bool :=
  d.isConforming || (decide (c.cpl ≤ d.dpl) && decide (rplOf sel ≤ d.dpl))

/-- A load of a data segment register outside real mode. -/
def loadSegProtected (idx : U8) (sel : U16) : Warm β Unit :=
  if idx = reg.SS then loadSs sel
  else if nullSel sel then
    -- FS and GS keep their base under a null selector.
    warmWrite fun r => r.setSeg idx
      { SegReg.null sel with
        base := if idx = reg.FS ∨ idx = reg.GS then (r.seg idx).base else 0 }
  else do
    let d ← (readDescriptor sel).lift
    raiseIf (!d.isCodeData || (d.isCode && !d.isReadable))
      (Exception.gp (selErr sel))
    let s ← self
    raiseIf (!s.dataPrivOk sel d) (Exception.gp (selErr sel))
    raiseIf (!d.present) (Exception.np (selErr sel))
    (markAccessed d).lift
    (commitSeg idx sel d).lift

/-- Load a segment register, full protection checks in protected mode. -/
def loadSeg (idx : U8) (sel : U16) : Xfer β Unit := prepared do
  let s ← self
  if s.regs.cr0 &&& cr0.PE = 0 then
    -- Real mode: base tracks the selector; limit and attributes stay.
    warmWrite fun r => r.setSeg idx
      { r.seg idx with sel := sel, base := sel.setWidth 64 <<< 4 }
  else if s.regs.rflags.contains RFlags.VM then
    warmWrite (·.setSeg idx (SegReg.v86 sel))
  else loadSegProtected idx sel

/-- Load CS with `cpl` as the resulting RPL. -/
def loadCs (sel : U16) (d : Descriptor) (cpl : U8) : Xfer β Unit := do
  (markAccessed d).lift
  commitSeg reg.CS (selErr sel ||| cpl.setWidth 16) d

end Remu.X64
