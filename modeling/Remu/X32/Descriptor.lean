/-
Descriptors and segment loads.

A descriptor is read from the GDT or LDT with supervisor privilege and
unpacked into the fields of a segment cache. Loading a segment register
checks it against CPL, RPL and the register's role before the cache is
committed. CPL itself is the DPL of the cached CS attributes, so loading
CS is what changes it.
-/
import Remu.X32.Access

namespace Remu.X32

variable {β : Type} [Bus β]

-- ======== descriptors

/-- A parsed descriptor: the segment-cache fields and the raw words the
gate fields are read from. -/
structure Descriptor where
  addr : U32
  base : U32
  limit : U32
  attrs : U16
  lo : U32
  hi : U32
deriving DecidableEq, Repr

namespace Descriptor

def sysType (d : Descriptor) : U8 := (d.attrs &&& 0x0F).setWidth 8
def isCodeData (d : Descriptor) : Bool := d.attrs &&& 0x10 != 0
def isCode (d : Descriptor) : Bool := d.attrs &&& 0x18 == 0x18
def isWritableData (d : Descriptor) : Bool := d.attrs &&& 0x1A == 0x12

/-- Data segments are always readable; code needs the R bit. -/
def isReadable (d : Descriptor) : Bool :=
  d.attrs &&& 0x08 == 0 || d.attrs &&& 0x02 != 0

def isConforming (d : Descriptor) : Bool := d.attrs &&& 0x1C == 0x1C
def present (d : Descriptor) : Bool := d.attrs &&& 0x80 != 0
def db (d : Descriptor) : Bool := d.attrs &&& 0x0400 != 0
def dpl (d : Descriptor) : U8 := ((d.attrs >>> 5) &&& 3).setWidth 8

def gateSel (d : Descriptor) : U16 := (d.lo >>> 16).setWidth 16

/-- A gate's target offset: the low word, and the upper word of 32-bit
gates. -/
def gateOff (d : Descriptor) (wide : Bool) : U32 :=
  let lo := d.lo &&& 0xFFFF
  if wide then (d.hi &&& 0xFFFF0000) ||| lo else lo

def gateParams (d : Descriptor) : U32 := d.hi &&& 0x1F

/-- Unpack the two words of a descriptor. The access byte goes to bits 0–7
of `attrs`; bits 8–11 are, as in the source, bits 16–19 of the high
word. -/
def parse (addr lo hi : U32) : Descriptor :=
  let raw := (lo &&& 0xFFFF) ||| (hi &&& 0x000F0000)
  { addr := addr
    base := (lo >>> 16) ||| ((hi &&& 0xFF) <<< 16) ||| (hi &&& 0xFF000000)
    limit := if hi &&& 0x00800000 != 0 then (raw <<< 12) ||| 0xFFF else raw
    attrs := (((hi >>> 8) &&& 0x0F00) ||| ((hi >>> 8) &&& 0xFF)).setWidth 16
    lo := lo
    hi := hi }

/-- The segment cache a descriptor is committed as. -/
def cache (d : Descriptor) (sel : U16) : SegReg :=
  { sel := sel, base := d.base, limit := d.limit, attrs := d.attrs ||| 0x80 }

end Descriptor

/-- A selector without its RPL and table bits is zero. -/
def nullSel (sel : U16) : Bool := sel &&& 0xFFFC == 0

/-- The error-code form of a selector. -/
abbrev selErr (sel : U16) : U16 := sel &&& 0xFFFC

/-- A selector's requested privilege level. -/
def rplOf (sel : U16) : U8 := (sel &&& 3).setWidth 8

/-- Table base and limit for a selector's TI bit. -/
def Cpu.table (c : Cpu) (sel : U16) : U32 × U32 :=
  if sel &&& 4 != 0 then (c.regs.ldtr.base, c.regs.ldtr.limit)
  else (c.regs.gdtr.base, c.regs.gdtr.limit.setWidth 32)

/-- Two words of a table as a descriptor. -/
def readWords (addr : U32) : Calm β Descriptor := do
  let lo ← sysRead32 addr
  let hi ← sysRead32 (addr + 4)
  return Descriptor.parse addr lo hi

/-- Read and parse the descriptor for a non-null selector; a limit
violation raises `err` with the selector as error code. -/
def readDescriptorErr (sel : U16) (err : U16 → Exception) :
    Calm β Descriptor := do
  let s ← self
  let (base, limit) := s.table sel
  let index : U32 := (sel &&& 0xFFF8).setWidth 32
  raiseIf (limit < index + 7) (err (selErr sel))
  readWords (base + index)

def readDescriptor (sel : U16) : Calm β Descriptor :=
  readDescriptorErr sel Exception.gp

/-- Set the accessed bit of a code or data descriptor, if clear. -/
def markAccessed (d : Descriptor) : Calm β Unit :=
  whenever (d.isCodeData && d.attrs &&& 1 == 0)
    (sysWrite8 (d.addr + 5) (((d.hi >>> 8) &&& 0xFF).setWidth 8 ||| 1))

-- ======== segment loads

/-- A null-loaded segment register. -/
def SegReg.null (sel : U16) : SegReg :=
  { sel := sel, base := 0, limit := 0, attrs := 0 }

/-- A segment register in virtual-8086 mode. -/
def SegReg.v86 (sel : U16) : SegReg :=
  { sel := sel, base := sel.setWidth 32 <<< 4, limit := 0xFFFF, attrs := 0x00F3 }

/-- A real-mode load: base tracks the selector; limit and attributes stay. -/
def SegReg.loadReal (s : SegReg) (sel : U16) : SegReg :=
  { s with sel := sel, base := sel.setWidth 32 <<< 4 }

/-- Replace one segment register. -/
def ColdRegs.setSeg (r : ColdRegs) (idx : U8) (g : SegReg) : ColdRegs :=
  { r with seg := upd r.seg idx g }

/-- Commit a descriptor to a segment register. -/
def commitSeg (idx : U8) (sel : U16) (d : Descriptor) : Xfer β Unit :=
  coldWrite (·.setSeg idx (d.cache sel))

def loadSs (sel : U16) : Warm β Unit := do
  raiseIf (nullSel sel) (Exception.gp 0)
  let s ← self
  let cpl := s.cpl
  raiseIf (rplOf sel ≠ cpl) (Exception.gp (selErr sel))
  let d ← (readDescriptor sel).lift
  raiseIf (!d.isWritableData || d.dpl != cpl) (Exception.gp (selErr sel))
  raiseIf (!d.present) (Exception.ss (selErr sel))
  (markAccessed d).lift
  (commitSeg reg.SS sel d).lift

/-- The privilege check of a data-segment load: DPL is at least CPL and
RPL, unless the target is conforming code. -/
def Cpu.dataPrivOk (c : Cpu) (sel : U16) (d : Descriptor) : Bool :=
  d.isConforming || (decide (c.cpl ≤ d.dpl) && decide (rplOf sel ≤ d.dpl))

def loadSegProtected (idx : U8) (sel : U16) : Warm β Unit :=
  if idx = reg.SS then loadSs sel
  else if nullSel sel then warmWrite (·.setSeg idx (SegReg.null sel))
  else do
    let d ← (readDescriptor sel).lift
    raiseIf (!d.isCodeData || (d.isCode && !d.isReadable))
      (Exception.gp (selErr sel))
    let s ← self
    raiseIf (!s.dataPrivOk sel d) (Exception.gp (selErr sel))
    raiseIf (!d.present) (Exception.np (selErr sel))
    (markAccessed d).lift
    (commitSeg idx sel d).lift

/-- Load a segment register, full protection checks in protected mode. -/
def loadSeg (idx : U8) (sel : U16) : Xfer β Unit := prepared do
  let s ← self
  if s.regs.cr0 &&& cr0.PE = 0 then
    warmWrite fun r => r.setSeg idx ((r.seg idx).loadReal sel)
  else if s.regs.eflags.contains EFlags.VM
    then warmWrite (·.setSeg idx (SegReg.v86 sel))
  else loadSegProtected idx sel

/-- Load CS with `cpl` as the resulting RPL. -/
def loadCs (sel : U16) (d : Descriptor) (cpl : U8) : Xfer β Unit := do
  (markAccessed d).lift
  commitSeg reg.CS (selErr sel ||| cpl.setWidth 16) d

end Remu.X32
