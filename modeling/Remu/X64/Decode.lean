/-
The decoder of the hot subset and the execution of its records.

`decodeOp` turns the bytes of a hot instruction into a `DecodedInsn`: a
register-independent record, its effective address kept as a formula.
`execDecoded` runs such a record. Together they are a second interpreter
for the hot subset, beside the fused arms of `Execute`; the
decoded-instruction cache stores the records in between.

Far forms, LOCK and REP forms, 67-prefixed instructions in 64-bit mode and
everything outside the subset stay with the fused arms.
-/
import Remu.X64.Execute0F

namespace Remu.X64

variable {β : Type} [Bus β]

/-- The outcome of a decode. -/
inductive Decoded where
  | hot (d : DecodedInsn)
  | cold
  /-- A two-byte opcode outside the subset, its second byte consumed. -/
  | cold0F (op2 : U8)
deriving DecidableEq, Repr

-- ======== effective addresses

/-- A blank record carrying the current prefix state. -/
def Cpu.blank (c : Cpu) : DecodedInsn :=
  DecodedInsn.new c.osize c.asize c.segOverride c.rex

/-- Base, index and default segment of a 16-bit form. -/
def ea16Regs (rm : U8) : U8 × U8 × U8 :=
  if rm = 0 then (reg.RBX, reg.RSI, reg.DS)
  else if rm = 1 then (reg.RBX, reg.RDI, reg.DS)
  else if rm = 2 then (reg.RBP, reg.RSI, reg.SS)
  else if rm = 3 then (reg.RBP, reg.RDI, reg.SS)
  else if rm = 4 then (reg.RSI, NONE, reg.DS)
  else if rm = 5 then (reg.RDI, NONE, reg.DS)
  else if rm = 6 then (reg.RBP, NONE, reg.SS)
  else (reg.RBX, NONE, reg.DS)

/-- 16-bit addressing. -/
def ea16Formula (m : ModRm) (d : DecodedInsn) : Calm β DecodedInsn :=
  if m.md = 0 ∧ m.byte &&& 7 = 6 then do
    let disp ← fetch16
    let s ← self
    return { d with disp := disp.setWidth 32 }.setSeg (s.segOr reg.DS)
  else do
    let (base, index, seg) := ea16Regs (m.byte &&& 7)
    let disp ← fetchDisp16 m.md
    let s ← self
    return { d with base, index, disp := disp.setWidth 32 }.setSeg (s.segOr seg)

/-- A displacement of the wide forms, kept at 32 bits. -/
def fetchDisp32 (md : U8) : Calm β U32 :=
  if md = 0 then pure 0
  else if md = 1 then (·.signExtend 32) <$> fetch8
  else fetch32

/-- The base part of a SIB formula, and the default segment. -/
def sibBaseFormula (m : ModRm) (base3 : U8) (d : DecodedInsn) :
    Calm β (U8 × DecodedInsn) :=
  if base3 = 5 ∧ m.md = 0 then do
    let disp ← fetch32
    return (reg.DS, { d with disp })
  else
    return (if base3 = reg.RSP ∨ base3 = reg.RBP then reg.SS else reg.DS,
      { d with base := base3 ||| m.b })

/-- SIB. -/
def sibFormula (m : ModRm) (d : DecodedInsn) : Calm β (U8 × DecodedInsn) := do
  let sib ← fetch8
  let s ← self
  let index := ((sib >>> 3) &&& 7) ||| (s.rexX <<< 3)
  let (seg, d) ← sibBaseFormula m (sib &&& 7) d
  return (seg, if index ≠ 4 then { d with index }.setScale (sib >>> 6) else d)

/-- Disp32 alone. -/
def disp32Formula (d : DecodedInsn) : Calm β DecodedInsn := do
  let disp ← fetch32
  let s ← self
  return { d with disp, base := if s.m64 then RIP else d.base }.setSeg
    (s.segOr reg.DS)

/-- The base register part of a wide formula. -/
def eaBaseFormula (m : ModRm) (d : DecodedInsn) : Calm β (U8 × DecodedInsn) :=
  if m.byte &&& 7 = 4 then sibFormula m d
  else
    return (if m.byte &&& 7 = reg.RBP then reg.SS else reg.DS,
      { d with base := (m.byte &&& 7) ||| m.b })

/-- 32- and 64-bit addressing. -/
def eaWideFormula (m : ModRm) (d : DecodedInsn) : Calm β DecodedInsn :=
  if m.md = 0 ∧ m.byte &&& 7 = 5 then disp32Formula d
  else do
    let (seg, d) ← eaBaseFormula m d
    let disp ← fetchDisp32 m.md
    let s ← self
    -- A SIB without base has parked its displacement already.
    return { d with disp := d.disp + disp }.setSeg (s.segOr seg)

/-- The memory formula at the address size. -/
def eaFormula (m : ModRm) (d : DecodedInsn) : Calm β DecodedInsn := do
  let s ← self
  match s.asize with
  | O16 => ea16Formula m d
  | _ => eaWideFormula m d

/-- Consume ModRM, SIB and displacement into the record; the result is the
sub-opcode field. -/
def decodeModrm (d : DecodedInsn) : Calm β (U8 × DecodedInsn) := do
  let byte ← fetch8
  let s ← self
  let m : ModRm := ⟨byte, s.rexR <<< 3, s.rexB <<< 3⟩
  let d := { d with reg := m.reg }
  if m.md = 3 then return (m.sub, { d.setKind .reg with base := m.rm })
  let d ← eaFormula m (d.setKind .mem)
  return (m.sub, d)

-- ======== decoding

/-- A record of handler `op` before its operands are read. -/
def Cpu.record (c : Cpu) (op : Op) (aux : U8) (wb : Bool) : DecodedInsn :=
  { c.blank.setWb wb with op, aux }

/-- A record of handler `op` with a ModRM operand. -/
def decodeRm (op : Op) (aux : U8) (wb : Bool) : Calm β (U8 × DecodedInsn) := do
  let s ← self
  decodeModrm (s.record op aux wb)

/-- An instruction that is its ModRM operand. -/
def decodeRmOnly (op : Op) (aux : U8) (wb : Bool) : Calm β Decoded := do
  let (_, d) ← decodeRm op aux wb
  return .hot d

/-- An instruction that is its immediate. -/
def decodeImm (op : Op) (aux : U8) (wb : Bool) (imm : Calm β U64) :
    Calm β Decoded := do
  let s ← self
  let imm ← imm
  return .hot { s.record op aux wb with imm }

/-- A byte immediate, zero-extended. -/
def fetchByteImm : Calm β U64 := (·.setWidth 64) <$> fetch8

/-- The group-1 arms: the sub-opcode is the ALU index. -/
def decodeGrpImm (op : Op) (imm : Calm β U64) : Calm β Decoded := do
  let (sub, d) ← decodeRm op 0 false
  let imm ← imm
  return .hot { d.setWb (sub ≠ 7) with aux := sub, imm }

/-- C6 and C7: sub-opcode 0 only. -/
def decodeMovImm (op : Op) (imm : Calm β U64) : Calm β Decoded := do
  let (sub, d) ← decodeRm op 0 false
  raiseIf (sub ≠ 0) Exception.ud
  let imm ← imm
  return .hot { d with imm }

/-- The shift groups: bit 7 of `aux` means the count is CL. -/
def decodeShift (op : Op) (byCl : Bool) (imm : Calm β U64) : Calm β Decoded := do
  let (sub, d) ← decodeRm op 0 false
  let imm ← imm
  return .hot { d with aux := if byCl then sub ||| 0x80 else sub, imm }

/-- B0–BF: MOV of an immediate to a register the opcode names. -/
def decodeRegImm (op : Op) (opcode : U8) (imm : Calm β U64) : Calm β Decoded := do
  let s ← self
  let imm ← imm
  return .hot { s.record op 0 false with reg := s.opcodeReg opcode, imm }

/-- The full-width immediate of B8–BF. -/
def fetchImmFull : Calm β U64 := do
  let s ← self
  match s.osize with
  | O16 => (·.setWidth 64) <$> fetch16
  | O32 => (·.setWidth 64) <$> fetch32
  | O64 => fetch64

/-- 50–5F: the stack size is resolved at decode time. -/
def decodeStackReg (op : Op) (opcode : U8) : Calm β Decoded := do
  let s ← self
  return .hot ({ s.record op 0 false with reg := s.opcodeReg opcode }.setOsize s.stackOsize)

/-- 68 and 6A. -/
def decodePushImm (opcode : U8) : Calm β Decoded := do
  let s ← self
  let imm ← (if opcode = 0x68 then fetchImmAt s.stackOsize else fetchSimm8)
  return .hot { (s.record .PushImm 0 false).setOsize s.stackOsize with imm }

/-- A near branch with its displacement; the branch size is resolved at
decode time. -/
def decodeBranch (op : Op) (aux : U8) (rel : OpSize → Calm β U64) :
    Calm β Decoded := do
  let s ← self
  let imm ← rel s.branchOsize
  return .hot { (s.record op aux false).setOsize s.branchOsize with imm }

/-- 8D: a memory operand or #UD. -/
def decodeLea : Calm β Decoded := do
  let (_, d) ← decodeRm .Lea 0 false
  raiseIf (d.kind ≠ .mem) Exception.ud
  return .hot d

/-- 90–97. -/
def decodeXchgAcc (opcode : U8) : Calm β Decoded := do
  let s ← self
  if opcode = 0x90 ∧ s.rexB = 0 then return .hot (s.record .Nop 0 false)
  return .hot { s.record .XchgAcc 0 false with reg := s.opcodeReg opcode }

/-- 40–4F (legacy). -/
def decodeIncDec (opcode : U8) : Calm β Decoded := do
  let s ← self
  return .hot { s.record (if opcode < 0x48 then .IncReg else .DecReg) 0 false with
    reg := opcode &&& 7 }

/-- FE. -/
def decodeGroup4 : Calm β Decoded := do
  let (sub, d) ← decodeRm .IncDecRm8 0 false
  raiseIf (1 < sub) Exception.ud
  return .hot { d with aux := sub }

/-- FF; the far forms stay fused. -/
def decodeGroup5 : Calm β Decoded := do
  let s ← self
  let (sub, d) ← decodeModrm s.blank
  let d := { d with aux := sub }
  let s ← self
  return if sub ≤ 1 then .hot { d with op := .IncDecRmW }
    else if sub = 2 then .hot { d.setOsize s.branchOsize with op := .CallRm }
    else if sub = 4 then .hot { d.setOsize s.branchOsize with op := .JmpRm }
    else if sub = 6 then .hot { d.setOsize s.stackOsize with op := .PushRm }
    else .cold

/-- 00–3F: the ALU block. -/
def decodeAlu (opcode : U8) : Calm β Decoded :=
  let i := opcode >>> 3
  let form := opcode &&& 7
  if form = 0 then decodeRmOnly .AluRmR8 i (opcode ≠ 0x38)
  else if form = 1 then decodeRmOnly .AluRmRW i (opcode ≠ 0x39)
  else if form = 2 then decodeRmOnly .AluRRm8 i (opcode ≠ 0x3A)
  else if form = 3 then decodeRmOnly .AluRRmW i (opcode ≠ 0x3B)
  else if form = 4 then decodeImm .AluAccImm8 i (opcode ≠ 0x3C) fetchByteImm
  else if form = 5 then decodeImm .AluAccImmW i (opcode ≠ 0x3D) fetchImm
  else pure .cold

/-- 40–7F. -/
def decode40 (opcode : U8) : Calm β Decoded :=
  if opcode < 0x50 then decodeIncDec opcode
  else if opcode < 0x58 then decodeStackReg .PushReg opcode
  else if opcode < 0x60 then decodeStackReg .PopReg opcode
  else if opcode = 0x63 then do
    let s ← self
    if s.m64 then decodeRmOnly .Movsxd 0 false else pure .cold
  else if opcode = 0x68 ∨ opcode = 0x6A then decodePushImm opcode
  else if opcode = 0x69 then decodeImulImm fetchImm
  else if opcode = 0x6B then decodeImulImm fetchSimm8
  else if 0x70 ≤ opcode
    then decodeBranch .Jcc (opcode &&& 0xF) fun _ => fetchSimm8
  else pure .cold
where
  /-- 69 and 6B. -/
  decodeImulImm (imm : Calm β U64) : Calm β Decoded := do
    let (_, d) ← decodeRm .ImulRmImm 0 false
    let imm ← imm
    return .hot { d with imm }

/-- 80–BF. -/
def decode80 (opcode : U8) : Calm β Decoded :=
  if opcode = 0x80 ∨ opcode = 0x82 then do
    let s ← self
    raiseIf (opcode = 0x82 ∧ s.m64) Exception.ud
    decodeGrpImm .AluGrpImm8 fetchByteImm
  else if opcode = 0x81 then decodeGrpImm .AluGrpImmW fetchImm
  else if opcode = 0x83 then decodeGrpImm .AluGrpImmW fetchSimm8
  else if opcode = 0x84 then decodeRmOnly .AluRmR8 4 false
  else if opcode = 0x85 then decodeRmOnly .AluRmRW 4 false
  else if opcode = 0x86 then decodeRmOnly .XchgRm8 0 false
  else if opcode = 0x87 then decodeRmOnly .XchgRmW 0 false
  else if opcode = 0x88 then decodeRmOnly .MovRmR8 0 false
  else if opcode = 0x89 then decodeRmOnly .MovRmRW 0 false
  else if opcode = 0x8A then decodeRmOnly .MovRRm8 0 false
  else if opcode = 0x8B then decodeRmOnly .MovRRmW 0 false
  else if opcode = 0x8D then decodeLea
  else if 0x90 ≤ opcode ∧ opcode < 0x98 then decodeXchgAcc opcode
  else if opcode = 0xA8 then decodeImm .AluAccImm8 4 false fetchByteImm
  else if opcode = 0xA9 then decodeImm .AluAccImmW 4 false fetchImm
  else if 0xB0 ≤ opcode
    ∧ opcode < 0xB8 then decodeRegImm .MovRegImm8 opcode fetchByteImm
  else if 0xB8 ≤ opcode then decodeRegImm .MovRegImmW opcode fetchImmFull
  else pure .cold

/-- C0–FF. -/
def decodeC0 (opcode : U8) : Calm β Decoded :=
  if opcode = 0xC0 then decodeShift .ShiftRm8 false fetchByteImm
  else if opcode = 0xC1 then decodeShift .ShiftRmW false fetchByteImm
  else if opcode = 0xD0 then decodeShift .ShiftRm8 false (pure 1)
  else if opcode = 0xD1 then decodeShift .ShiftRmW false (pure 1)
  else if opcode = 0xD2 then decodeShift .ShiftRm8 true (pure 0)
  else if opcode = 0xD3 then decodeShift .ShiftRmW true (pure 0)
  else if opcode = 0xC2
    then decodeBranch .RetNearImm 0 fun _ => (·.setWidth 64) <$> fetch16
  else if opcode = 0xC3 then decodeBranch .RetNear 0 fun _ => pure 0
  else if opcode = 0xC6 then decodeMovImm .MovRmImm8 fetchByteImm
  else if opcode = 0xC7 then decodeMovImm .MovRmImmW fetchImm
  else if opcode = 0xE8 then decodeBranch .CallRel 0 fetchRelAt
  else if opcode = 0xE9 then decodeBranch .JmpRel 0 fetchRelAt
  else if opcode = 0xEB then decodeBranch .JmpRel 0 fun _ => fetchSimm8
  else if opcode = 0xFE then decodeGroup4
  else if opcode = 0xFF then decodeGroup5
  else pure .cold

/-- The two-byte escape. -/
def decode0F (op2 : U8) : Calm β Decoded :=
  if 0x80 ≤ op2 ∧ op2 ≤ 0x8F then decodeBranch .Jcc (op2 &&& 0xF) fetchRelAt
  else if op2 = 0xAF then decodeRmOnly .ImulRRmW 0 false
  else if op2 = 0xB6 then decodeRmOnly .MovzxB 0 false
  else if op2 = 0xB7 then decodeRmOnly .MovzxW 0 false
  else if op2 = 0xBE then decodeRmOnly .MovsxB 0 false
  else if op2 = 0xBF then decodeRmOnly .MovsxW 0 false
  else if 0x90 ≤ op2 ∧ op2 ≤ 0x9F then decodeRmOnly .Setcc (op2 &&& 0xF) false
  else if 0x40 ≤ op2 ∧ op2 ≤ 0x4F then decodeRmOnly .CmovW (op2 &&& 0xF) false
  else pure (.cold0F op2)

/-- Decode one opcode of the hot subset. -/
def decodeOp (opcode : U8) : Calm β Decoded :=
  if opcode = 0x0F then fetch8 >>= decode0F
  else if opcode < 0x40 then decodeAlu opcode
  else if opcode < 0x80 then decode40 opcode
  else if opcode < 0xC0 then decode80 opcode
  else decodeC0 opcode

/-- Put RIP and the length counter back where the decode began. -/
def rewindFetch (rip : U64) (ilen : U8) : Calm β Unit := do
  setRip rip
  modifyDecode ({ · with ilen })

/-- Decode the instruction whose prefixes are consumed. A cold opcode or a
failing decode rewinds to the opcode; the fused arm then runs and raises
the fault itself. -/
def tryDecode (opcode : U8) (npfx : U32) : Calm β Decoded := do
  let s ← self
  if 7 < npfx ∨ (s.m64 ∧ s.asize = O32) then return .cold
  let r ← Bounded.outcome (decodeOp opcode)
  match r with
  | .ok (.hot d) => do
    let t ← self
    return .hot ({ d with len := t.ilen }.setNpfx (npfx.setWidth 8))
  | .ok (.cold0F op2) => return .cold0F op2
  | _ => do
    rewindFetch s.regs.rip s.ilen
    return .cold

/-- A hot record was decoded without a failure, and is as long as the fetch
has come. -/
theorem tryDecode_hot {opcode : U8} {npfx : U32}
    {s s' : Machine β} {d : DecodedInsn} :
    (tryDecode opcode npfx).run s = (.ok (.hot d), s') ↔
      ¬(7 < npfx ∨ (s.m64 ∧ s.asize = O32)) ∧
        ∃ d₀, (decodeOp opcode).run s = (.ok (.hot d₀), s') ∧
          d = { d₀ with len := s'.ilen }.setNpfx (npfx.setWidth 8) := by
  unfold tryDecode
  rw [Bounded.run_bind, Fallible.bind_of_ok (run_self s)]
  split
  case isTrue hc =>
    constructor
    · intro h
      cases h
    · rintro ⟨hnc, -⟩
      exact absurd hc hnc
  case isFalse hc =>
  rw [Bounded.run_bind, Bounded.run_outcome,
    Fallible.bind_of_ok (Fallible.outcome_apply _ _)]
  constructor
  · intro h
    rcases hr : (decodeOp opcode).run s with ⟨e | r, s₁⟩ <;> rw [hr] at h
    · cases h
    · cases r with
      | hot d₀ =>
        cases h
        exact ⟨hc, d₀, rfl, rfl⟩
      | cold0F op2 => cases h
      | cold => cases h
  · rintro ⟨-, d₀, hr, rfl⟩
    rw [hr]
    rfl

-- ======== execution

/-- Start a cached instruction: its prefix state, its sizes and RIP behind
it. -/
def Machine.beginDecoded {β : Type} (s : Machine β) (d : DecodedInsn) :
    Machine β :=
  { s with
    segOverride := d.segOverride
    rex := d.rexOpt
    commitOnFault := false
    coldSaved := false
    supervisorOverride := false
    osize := d.osize
    asize := d.asize
    regs := { s.regs with rip := s.startRip + d.len.setWidth 64 } }

/-- An effective address under the address-size mask. -/
def OpSize.wrapEa (z : OpSize) (off : U64) : U64 :=
  match z with
  | O16 => off &&& 0xFFFF
  | O32 => off &&& 0xFFFFFFFF
  | O64 => off

/-- The value of the address formula, `next` being the address a
RIP-relative displacement counts from. -/
def DecodedInsn.eaOff (d : DecodedInsn) (r : HotRegs) (next : U64) : U64 :=
  let off : U64 := d.disp.signExtend 64
  let off := if d.base = RIP then off + next
    else if d.base ≠ NONE then off + r.gpr (d.base &&& 15) else off
  let off := if d.index ≠ NONE
    then off + (r.gpr (d.index &&& 15) <<< d.scale.toNat) else off
  d.asize.wrapEa off

/-- Resolve the operand of a record. -/
def Cpu.eaOperand (c : Cpu) (d : DecodedInsn) : Operand :=
  if d.kind = .reg then .reg d.base
  else .mem d.seg (d.eaOff c.regs.toHotRegs (c.startRip + d.len.setWidth 64))

/-- The operand of a record in the current state. -/
def eaOperand (d : DecodedInsn) : Calm β Operand := do
  let s ← self
  return s.eaOperand d

/-- The shift count of a record. -/
def Cpu.decodedCount (c : Cpu) (d : DecodedInsn) : U32 :=
  if d.aux &&& 0x80 ≠ 0 then (c.regs.reg8 1 false).setWidth 32
    else d.imm.setWidth 32

namespace Exec

/-- The handlers of decoded instructions, one for each record the decoder
makes; each recomputes its operand from the record. -/
def aluRmR8 (d : DecodedInsn) : Calm β U32 := do
  let op ← eaOperand d
  let a ← readOp8 op
  let s ← self
  let r ← alu8 d.aux a (s.gpr8 d.reg)
  whenever d.wb (writeOp8 op r)
  return op.cost 7 2

def aluRmRW (d : DecodedInsn) : Calm β U32 := do
  let op ← eaOperand d
  let a ← readOp op
  let s ← self
  let r ← alu d.aux a (s.regs.reg64 d.reg)
  whenever d.wb (writeOp op r)
  return op.cost 7 2

def aluRRm8 (d : DecodedInsn) : Calm β U32 := do
  let op ← eaOperand d
  let s ← self
  let a := s.gpr8 d.reg
  let b ← readOp8 op
  let r ← alu8 d.aux a b
  whenever d.wb (setGpr8 d.reg r)
  return op.cost 6 2

def aluRRmW (d : DecodedInsn) : Calm β U32 := do
  let op ← eaOperand d
  let s ← self
  let a := s.regs.regSized s.osize d.reg
  let b ← readOp op
  let r ← alu d.aux a b
  whenever d.wb (writeRegOsize d.reg r)
  return op.cost 6 2

def aluAccImm8 (d : DecodedInsn) : Calm β U32 := do
  let s ← self
  let r ← alu8 d.aux (s.gpr8 reg.RAX) (d.imm.setWidth 8)
  whenever d.wb (setGpr8 reg.RAX r)
  return 2

def aluAccImmW (d : DecodedInsn) : Calm β U32 := do
  let s ← self
  let r ← alu d.aux s.acc d.imm
  whenever d.wb (setAcc r)
  return 2

def aluGrpImm8 (d : DecodedInsn) : Calm β U32 := do
  let op ← eaOperand d
  let a ← readOp8 op
  let r ← alu8 d.aux a (d.imm.setWidth 8)
  whenever d.wb (writeOp8 op r)
  return op.cost 7 2

def aluGrpImmW (d : DecodedInsn) : Calm β U32 := do
  let op ← eaOperand d
  let a ← readOp op
  let r ← alu d.aux a d.imm
  whenever d.wb (writeOp op r)
  return op.cost 7 2

def movRmR8 (d : DecodedInsn) : Calm β U32 := do
  let op ← eaOperand d
  let s ← self
  writeOp8 op (s.gpr8 d.reg)
  return 2

def movRmRW (d : DecodedInsn) : Calm β U32 := do
  let op ← eaOperand d
  let s ← self
  writeOp op (s.regs.regSized s.osize d.reg)
  return 2

def movRRm8 (d : DecodedInsn) : Calm β U32 := do
  let op ← eaOperand d
  let v ← readOp8 op
  setGpr8 d.reg v
  return op.cost 4 2

def movRRmW (d : DecodedInsn) : Calm β U32 := do
  let op ← eaOperand d
  let v ← readOp op
  writeRegOsize d.reg v
  return op.cost 4 2

def movRegImm8 (d : DecodedInsn) : Calm β U32 := do
  setGpr8 d.reg (d.imm.setWidth 8)
  return 2

def movRegImmW (d : DecodedInsn) : Calm β U32 := do
  writeRegOsize d.reg d.imm
  return 2

def movRmImm8 (d : DecodedInsn) : Calm β U32 := do
  let op ← eaOperand d
  writeOp8 op (d.imm.setWidth 8)
  return 2

def movRmImmW (d : DecodedInsn) : Calm β U32 := do
  let op ← eaOperand d
  writeOp op d.imm
  return 2

/-- LEA: the offset itself, no access. -/
def lea (d : DecodedInsn) : Calm β U32 := do
  let op ← eaOperand d
  let (_, off) ← memOperand op
  writeRegOsize d.reg off
  return 2

/-- INC and DEC leave VM alone. -/
theorem vm_incDec {w : Nat} (dec : Bool) (v : BitVec w) (f : RFlags) :
    ((if dec then Alu.dec v else Alu.inc v) f).2.vm = f.vm := by
  cases dec <;> simp

/-- INC and DEC of a register: 16 bits, else 32. -/
def incDecReg (dec : Bool) (d : DecodedInsn) : Calm β U32 := do
  let s ← self
  match s.osize with
  | O16 => do
    let r ← withFlags (if dec then Alu.dec (s.regs.reg16 d.reg) else Alu.inc (s.regs.reg16 d.reg))
      (vm_incDec dec _)
    modifyHot (·.setReg16 d.reg r)
    return 2
  | _ => do
    let r ← withFlags (if dec then Alu.dec (s.regs.reg32 d.reg) else Alu.inc (s.regs.reg32 d.reg))
      (vm_incDec dec _)
    modifyHot (·.setReg32 d.reg r)
    return 2

/-- PUSH of a register. -/
def pushReg (d : DecodedInsn) : Calm β U32 := do
  setOsize d.osize
  let s ← self
  push (s.regs.reg64 d.reg)
  return 2

/-- POP into a register. -/
def popReg (d : DecodedInsn) : Calm β U32 := do
  setOsize d.osize
  let v ← pop
  writeRegOsize d.reg v
  return 4

/-- INC and DEC of an operand, by width. -/
def incDecRm8 (d : DecodedInsn) : Calm β U32 := do
  let op ← eaOperand d
  let v ← readOp8 op
  let r ← (if d.aux = 0 then withFlags (Alu.inc v) (Alu.vm_inc8 v)
    else withFlags (Alu.dec v) (Alu.vm_dec8 v))
  writeOp8 op r
  return op.cost 6 2

def incDecRmW (d : DecodedInsn) : Calm β U32 := do
  let op ← eaOperand d
  let v ← readOp op
  let r ← (if d.aux = 0 then unary Alu.inc v else unary Alu.dec v)
  writeOp op r
  return op.cost 6 2

/-- CALL through an operand. -/
def callRm (d : DecodedInsn) : Calm β U32 := do
  setOsize d.osize
  let op ← eaOperand d
  let v ← readOp op
  let s ← self
  push s.regs.rip
  setIp v
  return op.cost 10 7

/-- JMP through an operand. -/
def jmpRm (d : DecodedInsn) : Calm β U32 := do
  setOsize d.osize
  let op ← eaOperand d
  let v ← readOp op
  setIp v
  return op.cost 10 7

/-- PUSH of an operand. -/
def pushRm (d : DecodedInsn) : Calm β U32 := do
  setOsize d.osize
  let op ← eaOperand d
  let v ← readOp op
  push v
  return op.cost 5 2

/-- The shift group, by width; the count from the record or from CL. -/
def shiftRm8 (d : DecodedInsn) : Calm β U32 := do
  let op ← eaOperand d
  let v ← readOp8 op
  let s ← self
  let r ← shiftDispatch8 (d.aux &&& 7) v (s.decodedCount d)
  writeOp8 op r
  return op.cost 7 3

def shiftRmW (d : DecodedInsn) : Calm β U32 := do
  let op ← eaOperand d
  let v ← readOp op
  let s ← self
  let r ← shiftDispatch (d.aux &&& 7) v (s.decodedCount d)
  writeOp op r
  return op.cost 7 3

/-- A conditional jump. -/
def jcc (d : DecodedInsn) : Calm β U32 := do
  setOsize d.osize
  let s ← self
  condJump (s.regs.rflags.cond d.aux) d.imm 7 3

/-- A relative jump. -/
def jmpRel (d : DecodedInsn) : Calm β U32 := do
  setOsize d.osize
  jumpRel d.imm
  return 7

/-- A relative call: the return address is pushed at the operand size of the
record. -/
def callRel (d : DecodedInsn) : Calm β U32 := do
  setOsize d.osize
  let s ← self
  push s.regs.rip
  jumpRel d.imm
  return 7

/-- RET. -/
def retNear (d : DecodedInsn) : Calm β U32 := do
  setOsize d.osize
  let ip ← pop
  setIp ip
  return 10

/-- RET that releases arguments. -/
def retNearImm (d : DecodedInsn) : Calm β U32 := do
  setOsize d.osize
  let ip ← pop
  setIp ip
  adjustSp d.imm
  return 10

/-- Two-operand IMUL. -/
def imulRRmW (d : DecodedInsn) : Calm β U32 := do
  let op ← eaOperand d
  let b ← readOp op
  let s ← self
  let r ← imulTrunc (s.regs.regSized s.osize d.reg) b
  writeRegOsize d.reg r
  return op.cost 22 20

/-- PUSH of an immediate. -/
def pushImm (d : DecodedInsn) : Calm β U32 := do
  setOsize d.osize
  push d.imm
  return 2

/-- Three-operand IMUL. -/
def imulRmImm (d : DecodedInsn) : Calm β U32 := do
  let op ← eaOperand d
  let a ← readOp op
  let r ← imulTrunc a d.imm
  writeRegOsize d.reg r
  return op.cost 22 20

/-- MOVSXD. -/
def movsxd (d : DecodedInsn) : Calm β U32 := do
  let op ← eaOperand d
  let s ← self
  let v ← readMovsxd s.osize op
  writeRegOsize d.reg v
  return 2

/-- XCHG with an operand, by width. -/
def xchgRm8 (d : DecodedInsn) : Calm β U32 := do
  let op ← eaOperand d
  let a ← readOp8 op
  let s ← self
  writeOp8 op (s.gpr8 d.reg)
  setGpr8 d.reg a
  return op.cost 5 3

def xchgRmW (d : DecodedInsn) : Calm β U32 := do
  let op ← eaOperand d
  let a ← readOp op
  let s ← self
  writeOp op (s.regs.reg64 d.reg)
  writeRegOsize d.reg a
  return op.cost 5 3

/-- XCHG with the accumulator; 90 is NOP. -/
def xchgAcc (d : DecodedInsn) : Calm β U32 := do
  let s ← self
  let t := s.acc
  setAcc (s.regs.regSized s.osize d.reg)
  writeRegOsize d.reg t
  return 3

/-- MOVZX and MOVSX: the source is read by `rd`. -/
def movWiden (rd : Operand → Calm β U64) (d : DecodedInsn) : Calm β U32 := do
  let op ← eaOperand d
  let v ← rd op
  writeRegOsize d.reg v
  return op.cost 6 3

/-- SETcc. -/
def setcc (d : DecodedInsn) : Calm β U32 := do
  let op ← eaOperand d
  let s ← self
  writeOp8 op (if s.regs.rflags.cond d.aux then 1 else 0)
  return 4

/-- The destination is written even on a false condition: a 32-bit one
still loses its upper half. -/
def cmovW (d : DecodedInsn) : Calm β U32 := do
  let op ← eaOperand d
  let v ← readOp op
  let s ← self
  let cur := s.regs.regSized s.osize d.reg
  writeRegOsize d.reg (if s.regs.rflags.cond d.aux then v else cur)
  return op.cost 5 4

end Exec

/-- Execute a record. -/
def execDecoded (d : DecodedInsn) : Calm β U32 :=
  match d.op with
  | .AluRmR8 => Exec.aluRmR8 d
  | .AluRmRW => Exec.aluRmRW d
  | .AluRRm8 => Exec.aluRRm8 d
  | .AluRRmW => Exec.aluRRmW d
  | .AluAccImm8 => Exec.aluAccImm8 d
  | .AluAccImmW => Exec.aluAccImmW d
  | .AluGrpImm8 => Exec.aluGrpImm8 d
  | .AluGrpImmW => Exec.aluGrpImmW d
  | .MovRmR8 => Exec.movRmR8 d
  | .MovRmRW => Exec.movRmRW d
  | .MovRRm8 => Exec.movRRm8 d
  | .MovRRmW => Exec.movRRmW d
  | .MovRegImm8 => Exec.movRegImm8 d
  | .MovRegImmW => Exec.movRegImmW d
  | .MovRmImm8 => Exec.movRmImm8 d
  | .MovRmImmW => Exec.movRmImmW d
  | .Lea => Exec.lea d
  | .IncReg => Exec.incDecReg false d
  | .DecReg => Exec.incDecReg true d
  | .PushReg => Exec.pushReg d
  | .PopReg => Exec.popReg d
  | .IncDecRm8 => Exec.incDecRm8 d
  | .IncDecRmW => Exec.incDecRmW d
  | .CallRm => Exec.callRm d
  | .JmpRm => Exec.jmpRm d
  | .PushRm => Exec.pushRm d
  | .ShiftRm8 => Exec.shiftRm8 d
  | .ShiftRmW => Exec.shiftRmW d
  | .Jcc => Exec.jcc d
  | .JmpRel => Exec.jmpRel d
  | .CallRel => Exec.callRel d
  | .RetNear => Exec.retNear d
  | .RetNearImm => Exec.retNearImm d
  | .ImulRRmW => Exec.imulRRmW d
  | .PushImm => Exec.pushImm d
  | .ImulRmImm => Exec.imulRmImm d
  | .Movsxd => Exec.movsxd d
  | .XchgRm8 => Exec.xchgRm8 d
  | .XchgRmW => Exec.xchgRmW d
  | .XchgAcc => Exec.xchgAcc d
  | .Nop => pure 1
  | .MovzxB => Exec.movWiden (fun op => (·.setWidth 64) <$> readOp8 op) d
  | .MovzxW => Exec.movWiden (fun op => (·.setWidth 64) <$> readOp16 op) d
  | .MovsxB => Exec.movWiden (fun op => (·.signExtend 64) <$> readOp8 op) d
  | .MovsxW => Exec.movWiden (fun op => (·.signExtend 64) <$> readOp16 op) d
  | .Setcc => Exec.setcc d
  | .CmovW => Exec.cmovW d

end Remu.X64
