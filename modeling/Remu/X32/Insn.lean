/-
Decode products: the packed record the decoded-instruction cache stores
for one instruction, its small fields in bytes exactly as the source
packs them.
-/
import Remu.X32.Bus

namespace Remu.X32

/-- Handler discriminant of a decoded instruction. -/
inductive Op where
  | AluRmR8 | AluRmRW | AluRRm8 | AluRRmW | AluAccImm8 | AluAccImmW
  | AluGrpImm8 | AluGrpImmW
  | MovRmR8 | MovRmRW | MovRRm8 | MovRRmW | MovRegImm8 | MovRegImmW
  | MovRmImm8 | MovRmImmW
  | Lea | IncReg | DecReg | PushReg | PopReg | IncDecRm8 | IncDecRmW
  | CallRm | JmpRm | PushRm | ShiftRm8 | ShiftRmW
  | Jcc | JmpRel | CallRel | RetNear | RetNearImm | ImulRRmW
  | PushImm | ImulRmImm | XchgRm8 | XchgRmW | XchgAcc
  | MovzxB | MovzxW | MovsxB | MovsxW | Setcc | CmovW
deriving DecidableEq, Repr

/-- Operand shape of the decoded ModRM `rm` field. -/
inductive OpKind where
  | none
  | reg
  | mem
deriving DecidableEq, Repr

/-- "No register" sentinel for an EA base or index. -/
abbrev NONE : U8 := 0xFF

abbrev OVR_NONE : U8 := 6

/-- Register-independent decode products of one instruction. -/
structure DecodedInsn where
  op : Op
  /-- Total length in bytes, prefixes included. -/
  len : U8
  /-- Bit 0 `osize32`, bit 1 `asize32`, bit 2 write-back, bits 3–4 the
  `OpKind`, bits 5–7 the legacy-prefix count. -/
  flags : U8
  /-- ModRM `reg`, or the `+r` register of a short encoding. -/
  reg : U8
  /-- ALU index, sub-op or condition; for shifts bit 7 means "by CL". -/
  aux : U8
  base : U8
  index : U8
  /-- Bits 0–2 resolved segment, bits 3–4 scale, bits 5–7 the raw override
  (6 = none). -/
  segscale : U8
  disp : U32
  /-- Pre-extended per the encoding. -/
  imm : U32
deriving DecidableEq, Repr

namespace DecodedInsn

/-- A blank instruction carrying the current prefix state. -/
def new (osize32 asize32 : Bool) (segOverride : Option U8) : DecodedInsn where
  op := .RetNear
  len := 0
  flags := (if osize32 then 1 else 0) ||| (if asize32 then 1 else 0) <<< 1
  reg := 0
  aux := 0
  base := NONE
  index := NONE
  segscale := segOverride.getD OVR_NONE <<< 5
  disp := 0
  imm := 0

def default : DecodedInsn := new false false none

def osize32 (d : DecodedInsn) : Bool := d.flags &&& 1 != 0

def asize32 (d : DecodedInsn) : Bool := d.flags &&& (1 <<< 1) != 0

/-- The instruction writes its destination back (TEST and CMP do not). -/
def wb (d : DecodedInsn) : Bool := d.flags &&& (1 <<< 2) != 0

def setWb (d : DecodedInsn) (wb : Bool) : DecodedInsn :=
  { d with flags := d.flags ||| ((if wb then 1 else 0) <<< 2) }

def kind (d : DecodedInsn) : OpKind :=
  if (d.flags >>> 3) &&& 3 = 0 then .none
  else if (d.flags >>> 3) &&& 3 = 1 then .reg
  else .mem

def kindBits : OpKind → U8
  | .none => 0
  | .reg => 1
  | .mem => 2

def setKind (d : DecodedInsn) (k : OpKind) : DecodedInsn :=
  { d with flags := (d.flags &&& ~~~((3 : U8) <<< 3)) ||| (kindBits k <<< 3) }

/-- Legacy prefixes consumed: what they cost in cycles. -/
def npfx (d : DecodedInsn) : U8 := d.flags >>> 5

def setNpfx (d : DecodedInsn) (n : U8) : DecodedInsn :=
  { d with flags := d.flags ||| (n <<< 5) }

/-- Resolved segment of the memory operand. -/
def seg (d : DecodedInsn) : U8 := d.segscale &&& 7

def setSeg (d : DecodedInsn) (s : U8) : DecodedInsn :=
  { d with segscale := (d.segscale &&& ~~~(7 : U8)) ||| s }

def scale (d : DecodedInsn) : U8 := (d.segscale >>> 3) &&& 3

def setScale (d : DecodedInsn) (s : U8) : DecodedInsn :=
  { d with segscale := (d.segscale &&& ~~~((3 : U8) <<< 3)) ||| (s <<< 3) }

/-- The raw segment-override prefix. -/
def segOverride (d : DecodedInsn) : Option U8 :=
  if d.segscale >>> 5 = OVR_NONE then none else some (d.segscale >>> 5)

end DecodedInsn

end Remu.X32
