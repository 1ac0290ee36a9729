/-
The decoder of the hot subset and the execution of its records.

`decodeOp` turns the bytes of a hot instruction into a `DecodedInsn`: a
register-independent record, its effective address kept as a formula.
`execDecoded` runs such a record. Together they are a second interpreter
for the hot subset, beside the fused arms of `Execute`; the
decoded-instruction cache stores the records in between.

Far forms, LOCK and REP forms and everything outside the subset stay with
the fused arms.
-/
import Remu.X32.Execute0F

namespace Remu.X32

variable {β : Type} [Bus β]

/-- The outcome of a decode. -/
inductive Decoded where
  | hot (d : DecodedInsn)
  | cold
  /-- A two-byte opcode outside the subset, its second byte consumed. -/
  | cold0F (op2 : U8)
deriving DecidableEq, Repr

-- ======== effective addresses

/-- A blank record carrying the current prefix state. -/
def Cpu.blank (c : Cpu) : DecodedInsn :=
  DecodedInsn.new c.osize32 c.asize32 c.segOverride

/-- Base, index and default segment of a 16-bit form. -/
def ea16Regs (rm : U8) : U8 × U8 × U8 :=
  if rm = 0 then (reg.EBX, reg.ESI, reg.DS)
  else if rm = 1 then (reg.EBX, reg.EDI, reg.DS)
  else if rm = 2 then (reg.EBP, reg.ESI, reg.SS)
  else if rm = 3 then (reg.EBP, reg.EDI, reg.SS)
  else if rm = 4 then (reg.ESI, NONE, reg.DS)
  else if rm = 5 then (reg.EDI, NONE, reg.DS)
  else if rm = 6 then (reg.EBP, NONE, reg.SS)
  else (reg.EBX, NONE, reg.DS)

/-- 16-bit addressing. -/
def ea16Formula (m : ModRm) (d : DecodedInsn) : Calm β DecodedInsn :=
  if m.md = 0 ∧ m.rm = 6 then do
    let disp ← fetch16
    let s ← self
    return { d with disp := disp.setWidth 32 }.setSeg (s.segOr reg.DS)
  else do
    let (base, index, seg) := ea16Regs m.rm
    let disp ← fetchDisp16 m.md
    let s ← self
    return { d with base, index, disp := disp.setWidth 32 }.setSeg (s.segOr seg)

/-- The base part of a SIB formula: default segment, and whether the base
may be scaled. -/
def sibBaseFormula (m : ModRm) (base : U8) (d : DecodedInsn) :
    Calm β (U8 × Bool × DecodedInsn) :=
  if base = 5 ∧ m.md = 0 then do
    let disp ← fetch32
    return (reg.DS, false, { d with disp })
  else
    return (if base = reg.ESP ∨ base = reg.EBP then reg.SS else reg.DS, true,
      { d with base })

/-- SIB. A scaled base is kept as an index without a base. -/
def sibFormula (m : ModRm) (d : DecodedInsn) : Calm β (U8 × DecodedInsn) := do
  let sib ← fetch8
  let index := (sib >>> 3) &&& 7
  let (seg, scalable, d) ← sibBaseFormula m (sib &&& 7) d
  return (seg,
    if index ≠ 4 then { d with index }.setScale (sib >>> 6)
    else if scalable
      then { d with index := d.base, base := NONE }.setScale (sib >>> 6)
    else d)

/-- The base register part of a 32-bit formula. -/
def eaBaseFormula (m : ModRm) (d : DecodedInsn) : Calm β (U8 × DecodedInsn) :=
  if m.rm = 4 then sibFormula m d
  else return (if m.rm = reg.EBP then reg.SS else reg.DS,
    { d with base := m.rm })

/-- 32-bit addressing. -/
def ea32Formula (m : ModRm) (d : DecodedInsn) : Calm β DecodedInsn :=
  if m.md = 0 ∧ m.rm = 5 then do
    let disp ← fetch32
    let s ← self
    return { d with disp }.setSeg (s.segOr reg.DS)
  else do
    let (seg, d) ← eaBaseFormula m d
    let disp ← fetchDisp m.md
    let s ← self
    -- A SIB without base has parked its displacement already.
    return { d with disp := d.disp + disp }.setSeg (s.segOr seg)

/-- Consume ModRM, SIB and displacement into the record; the result is the
`reg` field. -/
def decodeModrm (d : DecodedInsn) : Calm β (U8 × DecodedInsn) := do
  let byte ← fetch8
  let m : ModRm := ⟨byte⟩
  let d := { d with reg := m.reg }
  if m.md = 3 then return (m.reg, { d.setKind .reg with base := m.rm })
  let s ← self
  let d ← (if s.asize32 then ea32Formula m (d.setKind .mem) else ea16Formula m (d.setKind .mem))
  return (m.reg, d)

-- ======== decoding

/-- A record of handler `op` before its operands are read. -/
def Cpu.record (c : Cpu) (op : Op) (aux : U8) (wb : Bool) : DecodedInsn :=
  { c.blank.setWb wb with op, aux }

/-- A record of handler `op` with a ModRM operand. -/
def decodeRm (op : Op) (aux : U8) (wb : Bool) : Calm β (U8 × DecodedInsn) := do
  let s ← self
  decodeModrm (s.record op aux wb)

/-- An instruction that is its ModRM operand. -/
def decodeRmOnly (op : Op) (aux : U8) (wb : Bool) : Calm β Decoded := do
  let (_, d) ← decodeRm op aux wb
  return .hot d

/-- An instruction that is its immediate. -/
def decodeImm (op : Op) (aux : U8) (wb : Bool) (imm : Calm β U32) :
    Calm β Decoded := do
  let s ← self
  let imm ← imm
  return .hot { s.record op aux wb with imm }

/-- A byte immediate, zero-extended. -/
def fetchByteImm : Calm β U32 := (·.setWidth 32) <$> fetch8

/-- An instruction with a ModRM operand and an immediate. -/
def decodeRmImm (op : Op) (imm : Calm β U32) : Calm β Decoded := do
  let (_, d) ← decodeRm op 0 false
  let imm ← imm
  return .hot { d with imm }

/-- The group-1 arms: the `reg` field is the ALU index. -/
def decodeGrpImm (op : Op) (imm : Calm β U32) : Calm β Decoded := do
  let (sub, d) ← decodeRm op 0 false
  let imm ← imm
  return .hot { d.setWb (sub ≠ 7) with aux := sub, imm }

/-- C6 and C7: `reg` field 0 only. -/
def decodeMovImm (op : Op) (imm : Calm β U32) : Calm β Decoded := do
  let (sub, d) ← decodeRm op 0 false
  raiseIf (sub ≠ 0) Exception.ud
  let imm ← imm
  return .hot { d with imm }

/-- The shift groups: bit 7 of `aux` means the count is CL. -/
def decodeShift (op : Op) (byCl : Bool) (imm : Calm β U32) : Calm β Decoded := do
  let (sub, d) ← decodeRm op 0 false
  let imm ← imm
  return .hot { d with aux := if byCl then sub ||| 0x80 else sub, imm }

/-- A register named by the opcode, and an immediate if there is one. -/
def decodeOpReg (op : Op) (opcode : U8) (imm : Calm β U32) : Calm β Decoded := do
  let s ← self
  let imm ← imm
  return .hot { s.record op 0 false with reg := opcode &&& 7, imm }

/-- 8D: a memory operand or #UD. -/
def decodeLea : Calm β Decoded := do
  let (_, d) ← decodeRm .Lea 0 false
  raiseIf (d.kind ≠ .mem) Exception.ud
  return .hot d

/-- FE. -/
def decodeGroup4 : Calm β Decoded := do
  let (sub, d) ← decodeRm .IncDecRm8 0 false
  raiseIf (1 < sub) Exception.ud
  return .hot { d with aux := sub }

/-- FF; the far forms stay fused. -/
def decodeGroup5 : Calm β Decoded := do
  let s ← self
  let (sub, d) ← decodeModrm s.blank
  let d := { d with aux := sub }
  return if sub ≤ 1 then .hot { d with op := .IncDecRmW }
    else if sub = 2 then .hot { d with op := .CallRm }
    else if sub = 4 then .hot { d with op := .JmpRm }
    else if sub = 6 then .hot { d with op := .PushRm }
    else .cold

/-- 00–3F: the ALU block. -/
def decodeAlu (opcode : U8) : Calm β Decoded :=
  let i := opcode >>> 3
  let form := opcode &&& 7
  if form = 0 then decodeRmOnly .AluRmR8 i (opcode ≠ 0x38)
  else if form = 1 then decodeRmOnly .AluRmRW i (opcode ≠ 0x39)
  else if form = 2 then decodeRmOnly .AluRRm8 i (opcode ≠ 0x3A)
  else if form = 3 then decodeRmOnly .AluRRmW i (opcode ≠ 0x3B)
  else if form = 4 then decodeImm .AluAccImm8 i (opcode ≠ 0x3C) fetchByteImm
  else if form = 5 then decodeImm .AluAccImmW i (opcode ≠ 0x3D) fetchImm
  else pure .cold

/-- 40–7F. -/
def decode40 (opcode : U8) : Calm β Decoded :=
  if opcode < 0x48 then decodeOpReg .IncReg opcode (pure 0)
  else if opcode < 0x50 then decodeOpReg .DecReg opcode (pure 0)
  else if opcode < 0x58 then decodeOpReg .PushReg opcode (pure 0)
  else if opcode < 0x60 then decodeOpReg .PopReg opcode (pure 0)
  else if opcode = 0x68 then decodeImm .PushImm 0 false fetchImm
  else if opcode = 0x69 then decodeRmImm .ImulRmImm fetchImm
  else if opcode = 0x6A then decodeImm .PushImm 0 false fetchSimm8
  else if opcode = 0x6B then decodeRmImm .ImulRmImm fetchSimm8
  else if 0x70 ≤ opcode then decodeImm .Jcc (opcode &&& 0xF) false fetchSimm8
  else pure .cold

/-- 80–BF. -/
def decode80 (opcode : U8) : Calm β Decoded :=
  if opcode = 0x80 ∨ opcode = 0x82 then decodeGrpImm .AluGrpImm8 fetchByteImm
  else if opcode = 0x81 then decodeGrpImm .AluGrpImmW fetchImm
  else if opcode = 0x83 then decodeGrpImm .AluGrpImmW fetchSimm8
  else if opcode = 0x84 then decodeRmOnly .AluRmR8 4 false
  else if opcode = 0x85 then decodeRmOnly .AluRmRW 4 false
  else if opcode = 0x86 then decodeRmOnly .XchgRm8 0 false
  else if opcode = 0x87 then decodeRmOnly .XchgRmW 0 false
  else if opcode = 0x88 then decodeRmOnly .MovRmR8 0 false
  else if opcode = 0x89 then decodeRmOnly .MovRmRW 0 false
  else if opcode = 0x8A then decodeRmOnly .MovRRm8 0 false
  else if opcode = 0x8B then decodeRmOnly .MovRRmW 0 false
  else if opcode = 0x8D then decodeLea
  else if 0x90 ≤ opcode
    ∧ opcode < 0x98 then decodeOpReg .XchgAcc opcode (pure 0)
  else if opcode = 0xA8 then decodeImm .AluAccImm8 4 false fetchByteImm
  else if opcode = 0xA9 then decodeImm .AluAccImmW 4 false fetchImm
  else if 0xB0 ≤ opcode
    ∧ opcode < 0xB8 then decodeOpReg .MovRegImm8 opcode fetchByteImm
  else if 0xB8 ≤ opcode then decodeOpReg .MovRegImmW opcode fetchImm
  else pure .cold

/-- C0–FF. -/
def decodeC0 (opcode : U8) : Calm β Decoded :=
  if opcode = 0xC0 then decodeShift .ShiftRm8 false fetchByteImm
  else if opcode = 0xC1 then decodeShift .ShiftRmW false fetchByteImm
  else if opcode = 0xD0 then decodeShift .ShiftRm8 false (pure 1)
  else if opcode = 0xD1 then decodeShift .ShiftRmW false (pure 1)
  else if opcode = 0xD2 then decodeShift .ShiftRm8 true (pure 0)
  else if opcode = 0xD3 then decodeShift .ShiftRmW true (pure 0)
  else if opcode = 0xC2
    then decodeImm .RetNearImm 0 false ((·.setWidth 32) <$> fetch16)
  else if opcode = 0xC3 then decodeImm .RetNear 0 false (pure 0)
  else if opcode = 0xC6 then decodeMovImm .MovRmImm8 fetchByteImm
  else if opcode = 0xC7 then decodeMovImm .MovRmImmW fetchImm
  else if opcode = 0xE8 then decodeImm .CallRel 0 false fetchRel
  else if opcode = 0xE9 then decodeImm .JmpRel 0 false fetchRel
  else if opcode = 0xEB then decodeImm .JmpRel 0 false fetchSimm8
  else if opcode = 0xFE then decodeGroup4
  else if opcode = 0xFF then decodeGroup5
  else pure .cold

/-- The two-byte escape. -/
def decode0F (op2 : U8) : Calm β Decoded := do
  let s ← self
  if 0x80 ≤ op2 ∧ op2 ≤ 0x8F then decodeImm .Jcc (op2 &&& 0xF) false fetchRel
  else if op2 = 0xAF then decodeRmOnly .ImulRRmW 0 false
  else if op2 = 0xB6 then decodeRmOnly .MovzxB 0 false
  else if op2 = 0xB7 then decodeRmOnly .MovzxW 0 false
  else if op2 = 0xBE then decodeRmOnly .MovsxB 0 false
  else if op2 = 0xBF then decodeRmOnly .MovsxW 0 false
  else if 0x90 ≤ op2 ∧ op2 ≤ 0x9F then decodeRmOnly .Setcc (op2 &&& 0xF) false
  else if 0x40 ≤ op2 ∧ op2 ≤ 0x4F ∧ s.extensions then
    decodeRmOnly .CmovW (op2 &&& 0xF) false
  else return .cold0F op2

/-- Decode one opcode of the hot subset. -/
def decodeOp (opcode : U8) : Calm β Decoded :=
  if opcode = 0x0F then fetch8 >>= decode0F
  else if opcode < 0x40 then decodeAlu opcode
  else if opcode < 0x80 then decode40 opcode
  else if opcode < 0xC0 then decode80 opcode
  else decodeC0 opcode

/-- Put EIP and the length counter back where the decode began. -/
def rewindFetch (eip : U32) (ilen : U8) : Calm β Unit := do
  setEip eip
  modifyDecode ({ · with ilen })

/-- Decode the instruction whose prefixes are consumed. A cold opcode or a
failing decode rewinds to the opcode; the fused arm then runs and raises
the fault itself. -/
def tryDecode (opcode : U8) (npfx : U32) : Calm β Decoded := do
  let s ← self
  if 7 < npfx then return .cold
  let r ← Bounded.outcome (decodeOp opcode)
  match r with
  | .ok (.hot d) => do
    let t ← self
    return .hot ({ d with len := t.ilen }.setNpfx (npfx.setWidth 8))
  | .ok (.cold0F op2) => return .cold0F op2
  | _ => do
    rewindFetch s.regs.eip s.ilen
    return .cold

-- ======== execution

/-- Start a cached instruction: its prefix state, its sizes and EIP behind
it. -/
def Machine.beginDecoded {β : Type} (s : Machine β) (d : DecodedInsn) :
    Machine β :=
  { s with
    segOverride := d.segOverride
    commitOnFault := false
    coldSaved := false
    supervisorOverride := false
    osize32 := d.osize32
    asize32 := d.asize32
    regs := { s.regs with eip := s.startEip + d.len.setWidth 32 } }

/-- The value of the address formula. -/
def DecodedInsn.eaOff (d : DecodedInsn) (r : HotRegs) : U32 :=
  let off := if d.base ≠ NONE then d.disp + r.gpr (d.base &&& 7) else d.disp
  let off := if d.index ≠ NONE
    then off + (r.gpr (d.index &&& 7) <<< d.scale.toNat) else off
  if d.asize32 then off else off &&& 0xFFFF

/-- Resolve the operand of a record. -/
def Cpu.eaOperand (c : Cpu) (d : DecodedInsn) : Operand :=
  if d.kind = .reg then .reg d.base else .mem d.seg (d.eaOff c.regs.toHotRegs)

/-- The operand of a record in the current state. -/
def eaOperand (d : DecodedInsn) : Calm β Operand := do
  let s ← self
  return s.eaOperand d

/-- The shift count of a record. -/
def Cpu.decodedCount (c : Cpu) (d : DecodedInsn) : U32 :=
  if d.aux &&& 0x80 ≠ 0 then (c.regs.reg8 1).setWidth 32 else d.imm

namespace Exec

/-- The handlers of decoded instructions, one for each record the decoder
makes; each recomputes its operand from the record. -/
def aluRmR8 (d : DecodedInsn) : Calm β U32 := do
  let op ← eaOperand d
  let a ← readOp8 op
  let s ← self
  let r ← alu8 d.aux a (s.regs.reg8 d.reg)
  whenever d.wb (writeOp8 op r)
  return op.cost 7 2

def aluRmRW (d : DecodedInsn) : Calm β U32 := do
  let op ← eaOperand d
  let a ← readOp op
  let s ← self
  let r ← alu d.aux a (s.regOp d.reg)
  whenever d.wb (writeOp op r)
  return op.cost 7 2

def aluRRm8 (d : DecodedInsn) : Calm β U32 := do
  let op ← eaOperand d
  let s ← self
  let a := s.regs.reg8 d.reg
  let b ← readOp8 op
  let r ← alu8 d.aux a b
  whenever d.wb (setReg8 d.reg r)
  return op.cost 6 2

def aluRRmW (d : DecodedInsn) : Calm β U32 := do
  let op ← eaOperand d
  let s ← self
  let a := s.regOp d.reg
  let b ← readOp op
  let r ← alu d.aux a b
  whenever d.wb (writeReg d.reg r)
  return op.cost 6 2

def aluAccImm8 (d : DecodedInsn) : Calm β U32 := do
  let s ← self
  let r ← alu8 d.aux (s.regs.reg8 reg.EAX) (d.imm.setWidth 8)
  whenever d.wb (setReg8 reg.EAX r)
  return 2

def aluAccImmW (d : DecodedInsn) : Calm β U32 := do
  let s ← self
  let r ← alu d.aux s.acc d.imm
  whenever d.wb (setAcc r)
  return 2

def aluGrpImm8 (d : DecodedInsn) : Calm β U32 := do
  let op ← eaOperand d
  let a ← readOp8 op
  let r ← alu8 d.aux a (d.imm.setWidth 8)
  whenever d.wb (writeOp8 op r)
  return op.cost 7 2

def aluGrpImmW (d : DecodedInsn) : Calm β U32 := do
  let op ← eaOperand d
  let a ← readOp op
  let r ← alu d.aux a d.imm
  whenever d.wb (writeOp op r)
  return op.cost 7 2

def movRmR8 (d : DecodedInsn) : Calm β U32 := do
  let op ← eaOperand d
  let s ← self
  writeOp8 op (s.regs.reg8 d.reg)
  return 2

def movRmRW (d : DecodedInsn) : Calm β U32 := do
  let op ← eaOperand d
  let s ← self
  writeOp op (s.regOp d.reg)
  return 2

def movRRm8 (d : DecodedInsn) : Calm β U32 := do
  let op ← eaOperand d
  let v ← readOp8 op
  setReg8 d.reg v
  return op.cost 4 2

def movRRmW (d : DecodedInsn) : Calm β U32 := do
  let op ← eaOperand d
  let v ← readOp op
  writeReg d.reg v
  return op.cost 4 2

def movRegImm8 (d : DecodedInsn) : Calm β U32 := do
  setReg8 d.reg (d.imm.setWidth 8)
  return 2

def movRegImmW (d : DecodedInsn) : Calm β U32 := do
  writeReg d.reg d.imm
  return 2

def movRmImm8 (d : DecodedInsn) : Calm β U32 := do
  let op ← eaOperand d
  writeOp8 op (d.imm.setWidth 8)
  return 2

def movRmImmW (d : DecodedInsn) : Calm β U32 := do
  let op ← eaOperand d
  writeOp op d.imm
  return 2

/-- LEA: the offset itself, no access. -/
def lea (d : DecodedInsn) : Calm β U32 := do
  let op ← eaOperand d
  let (_, off) ← memOperand op
  writeReg d.reg off
  return 2

/-- INC of a register. -/
def incReg (d : DecodedInsn) : Calm β U32 := do
  let s ← self
  let r ← unary Alu.inc (s.regOp d.reg)
  writeReg d.reg r
  return 2

/-- DEC of a register. -/
def decReg (d : DecodedInsn) : Calm β U32 := do
  let s ← self
  let r ← unary Alu.dec (s.regOp d.reg)
  writeReg d.reg r
  return 2

/-- PUSH of a register. -/
def pushReg (d : DecodedInsn) : Calm β U32 := do
  let s ← self
  push (s.regs.reg32 d.reg)
  return 2

/-- POP into a register. -/
def popReg (d : DecodedInsn) : Calm β U32 := do
  let v ← pop
  writeReg d.reg v
  return 4

/-- INC and DEC of an operand, by width. -/
def incDecRm8 (d : DecodedInsn) : Calm β U32 := do
  let op ← eaOperand d
  let v ← readOp8 op
  let r ← (if d.aux = 0 then withFlags (Alu.inc v) (Alu.vm_inc8 v)
    else withFlags (Alu.dec v) (Alu.vm_dec8 v))
  writeOp8 op r
  return op.cost 6 2

def incDecRmW (d : DecodedInsn) : Calm β U32 := do
  let op ← eaOperand d
  let v ← readOp op
  let r ← (if d.aux = 0 then unary Alu.inc v else unary Alu.dec v)
  writeOp op r
  return op.cost 6 2

/-- CALL, JMP and PUSH of an operand run as the fused arms do. -/
def onOperand (f : Operand → Calm β U32) (d : DecodedInsn) : Calm β U32 := do
  let op ← eaOperand d
  f op

/-- The shift group, by width; the count from the record or from CL. -/
def shiftRm8 (d : DecodedInsn) : Calm β U32 := do
  let op ← eaOperand d
  let v ← readOp8 op
  let s ← self
  let r ← shiftDispatch8 (d.aux &&& 7) v (s.decodedCount d)
  writeOp8 op r
  return op.cost 7 3

def shiftRmW (d : DecodedInsn) : Calm β U32 := do
  let op ← eaOperand d
  let v ← readOp op
  let s ← self
  let r ← shiftDispatch (d.aux &&& 7) v (s.decodedCount d)
  writeOp op r
  return op.cost 7 3

/-- A conditional jump. -/
def jcc (d : DecodedInsn) : Calm β U32 := do
  let s ← self
  condJump (s.regs.eflags.cond d.aux) d.imm 7 3

/-- A relative jump. -/
def jmpRel (d : DecodedInsn) : Calm β U32 := do
  jumpRel d.imm
  return 7

/-- A relative call. -/
def callRel (d : DecodedInsn) : Calm β U32 := do
  let s ← self
  push s.regs.eip
  jumpRel d.imm
  return 7

/-- RET. -/
def retNear : Calm β U32 := do
  let ip ← pop
  setIp ip
  return 10

/-- RET that releases arguments. -/
def retNearImm (d : DecodedInsn) : Calm β U32 := do
  let ip ← pop
  setIp ip
  adjustSp d.imm
  return 10

/-- Two-operand IMUL. -/
def imulRRmW (d : DecodedInsn) : Calm β U32 := do
  let op ← eaOperand d
  let b ← readOp op
  let s ← self
  let r ← imulTrunc (s.regOp d.reg) b
  writeReg d.reg r
  return op.cost 22 20

/-- PUSH of an immediate. -/
def pushImm (d : DecodedInsn) : Calm β U32 := do
  push d.imm
  return 2

/-- Three-operand IMUL. -/
def imulRmImm (d : DecodedInsn) : Calm β U32 := do
  let op ← eaOperand d
  let a ← readOp op
  let r ← imulTrunc a d.imm
  writeReg d.reg r
  return op.cost 22 20

/-- XCHG with an operand, by width. -/
def xchgRm8 (d : DecodedInsn) : Calm β U32 := do
  let op ← eaOperand d
  let a ← readOp8 op
  let s ← self
  writeOp8 op (s.regs.reg8 d.reg)
  setReg8 d.reg a
  return op.cost 5 3

def xchgRmW (d : DecodedInsn) : Calm β U32 := do
  let op ← eaOperand d
  let a ← readOp op
  let s ← self
  writeOp op (s.regs.reg32 d.reg)
  writeReg d.reg a
  return op.cost 5 3

/-- XCHG with the accumulator; 90 is NOP. -/
def xchgAcc (d : DecodedInsn) : Calm β U32 := do
  let s ← self
  let t := s.acc
  setAcc (s.regOp d.reg)
  writeReg d.reg t
  return 3

/-- MOVZX and MOVSX: the source is read by `rd`. -/
def movWiden (rd : Operand → Calm β U32) (d : DecodedInsn) : Calm β U32 := do
  let op ← eaOperand d
  let v ← rd op
  writeReg d.reg v
  return op.cost 6 3

/-- SETcc. -/
def setcc (d : DecodedInsn) : Calm β U32 := do
  let op ← eaOperand d
  let s ← self
  writeOp8 op (if s.regs.eflags.cond d.aux then 1 else 0)
  return 4

/-- CMOVcc: the operand is read whether or not it is moved. -/
def cmovW (d : DecodedInsn) : Calm β U32 := do
  let op ← eaOperand d
  let v ← readOp op
  let s ← self
  whenever (s.regs.eflags.cond d.aux) (writeReg d.reg v)
  return op.cost 5 4

end Exec

/-- Execute a record. -/
def execDecoded (d : DecodedInsn) : Calm β U32 :=
  match d.op with
  | .AluRmR8 => Exec.aluRmR8 d
  | .AluRmRW => Exec.aluRmRW d
  | .AluRRm8 => Exec.aluRRm8 d
  | .AluRRmW => Exec.aluRRmW d
  | .AluAccImm8 => Exec.aluAccImm8 d
  | .AluAccImmW => Exec.aluAccImmW d
  | .AluGrpImm8 => Exec.aluGrpImm8 d
  | .AluGrpImmW => Exec.aluGrpImmW d
  | .MovRmR8 => Exec.movRmR8 d
  | .MovRmRW => Exec.movRmRW d
  | .MovRRm8 => Exec.movRRm8 d
  | .MovRRmW => Exec.movRRmW d
  | .MovRegImm8 => Exec.movRegImm8 d
  | .MovRegImmW => Exec.movRegImmW d
  | .MovRmImm8 => Exec.movRmImm8 d
  | .MovRmImmW => Exec.movRmImmW d
  | .Lea => Exec.lea d
  | .IncReg => Exec.incReg d
  | .DecReg => Exec.decReg d
  | .PushReg => Exec.pushReg d
  | .PopReg => Exec.popReg d
  | .IncDecRm8 => Exec.incDecRm8 d
  | .IncDecRmW => Exec.incDecRmW d
  | .CallRm => Exec.onOperand callRm d
  | .JmpRm => Exec.onOperand jmpRm d
  | .PushRm => Exec.onOperand pushRm d
  | .ShiftRm8 => Exec.shiftRm8 d
  | .ShiftRmW => Exec.shiftRmW d
  | .Jcc => Exec.jcc d
  | .JmpRel => Exec.jmpRel d
  | .CallRel => Exec.callRel d
  | .RetNear => Exec.retNear
  | .RetNearImm => Exec.retNearImm d
  | .ImulRRmW => Exec.imulRRmW d
  | .PushImm => Exec.pushImm d
  | .ImulRmImm => Exec.imulRmImm d
  | .XchgRm8 => Exec.xchgRm8 d
  | .XchgRmW => Exec.xchgRmW d
  | .XchgAcc => Exec.xchgAcc d
  | .MovzxB => Exec.movWiden (fun op => (·.setWidth 32) <$> readOp8 op) d
  | .MovzxW => Exec.movWiden (fun op => (·.setWidth 32) <$> readOp16 op) d
  | .MovsxB => Exec.movWiden (fun op => (·.signExtend 32) <$> readOp8 op) d
  | .MovsxW => Exec.movWiden (fun op => (·.signExtend 32) <$> readOp16 op) d
  | .Setcc => Exec.setcc d
  | .CmovW => Exec.cmovW d

end Remu.X32
