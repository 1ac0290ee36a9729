/-
ModRM and SIB decoding, and operand access.

`modrm` consumes the ModRM byte with its SIB and displacement from the
instruction stream and resolves the operand: a register number, or a
segment and an effective offset.
-/
import Remu.X64.Descriptor

namespace Remu.X64

variable {β : Type} [Bus β]

/-- A decoded ModRM byte with the REX register extensions applied. -/
structure ModRm where
  byte : U8
  /-- REX.R, shifted to bit 3. -/
  r : U8
  /-- REX.B, shifted to bit 3. -/
  b : U8
deriving DecidableEq, Repr

namespace ModRm

/-- The mod field. -/
def md (m : ModRm) : U8 := m.byte >>> 6
/-- The reg field, with REX.R. -/
def reg (m : ModRm) : U8 := ((m.byte >>> 3) &&& 7) ||| m.r

/-- The reg field without REX.R: sub-opcodes and segment registers. -/
def sub (m : ModRm) : U8 := (m.byte >>> 3) &&& 7

/-- The rm field, with REX.B. -/
def rm (m : ModRm) : U8 := (m.byte &&& 7) ||| m.b

end ModRm

/-- A resolved ModRM operand. -/
inductive Operand where
  | reg (i : U8)
  | mem (seg : U8) (off : U64)
deriving DecidableEq, Repr

namespace Operand

/-- Whether the operand is in memory. -/
def isMem : Operand → Bool
  | .mem _ _ => true
  | .reg _ => false

/-- The handler's cycle count: one for a memory operand, one for a
register operand. -/
def cost (op : Operand) (mem reg : U32) : U32 := if op.isMem then mem else reg

end Operand

namespace Cpu

/-- A byte register, chosen by the number and by whether a REX prefix is
there. -/
def gpr8 (c : Cpu) (i : U8) : U8 := c.regs.reg8 i c.rex.isSome

/-- A register as an address component. -/
def eaReg (c : Cpu) (i : U8) : U64 :=
  let v := c.regs.reg64 i
  if c.asize = O32 then (v.setWidth 32).setWidth 64 else v

/-- A 32-bit address size truncates the offset. -/
def truncEa (c : Cpu) (off : U64) : U64 :=
  if c.asize = O32 then (off.setWidth 32).setWidth 64 else off

/-- Base register sum and default segment of a 16-bit effective address. -/
def ea16Base (c : Cpu) (rm : U8) : U16 × U8 :=
  let r := c.regs.toHotRegs
  if rm = 0 then (r.reg16 reg.RBX + r.reg16 reg.RSI, reg.DS)
  else if rm = 1 then (r.reg16 reg.RBX + r.reg16 reg.RDI, reg.DS)
  else if rm = 2 then (r.reg16 reg.RBP + r.reg16 reg.RSI, reg.SS)
  else if rm = 3 then (r.reg16 reg.RBP + r.reg16 reg.RDI, reg.SS)
  else if rm = 4 then (r.reg16 reg.RSI, reg.DS)
  else if rm = 5 then (r.reg16 reg.RDI, reg.DS)
  else if rm = 6 then (r.reg16 reg.RBP, reg.SS)
  else (r.reg16 reg.RBX, reg.DS)

end Cpu

/-- Writes a byte register. -/
def setGpr8 (i : U8) (v : U8) : Calm β Unit := do
  let s ← self
  modifyHot (·.setReg8 i s.rex.isSome v)

-- ======== effective addresses

/-- A 16-bit displacement by mod: none, sign-extended byte, word. -/
def fetchDisp16 (md : U8) : Calm β U16 :=
  if md = 0 then pure 0
  else if md = 1 then (·.signExtend 16) <$> fetch8
  else fetch16

/-- A displacement of the wide forms, sign-extended. -/
def fetchDisp (md : U8) : Calm β U64 :=
  if md = 0 then pure 0
  else if md = 1 then fetchSimm8
  else (·.signExtend 64) <$> fetch32

/-- 16-bit addressing. -/
def ea16 (m : ModRm) : Calm β Operand :=
  if m.md = 0 ∧ m.byte &&& 7 = 6 then do
    let off ← fetch16
    let s ← self
    return .mem (s.segOr reg.DS) (off.setWidth 64)
  else do
    let disp ← fetchDisp16 m.md
    let s ← self
    let (base, seg) := s.ea16Base (m.byte &&& 7)
    return .mem (s.segOr seg) ((base + disp).setWidth 64)

/-- The base part of a SIB address: sum and default segment. -/
def sibBase (m : ModRm) (base3 : U8) : Calm β (U64 × U8) :=
  if base3 = 5 ∧ m.md = 0 then do
    let disp ← fetch32
    return (disp.signExtend 64, reg.DS)
  else do
    let s ← self
    let seg := if base3 = reg.RSP ∨ base3 = reg.RBP then reg.SS else reg.DS
    return (s.eaReg (base3 ||| m.b), seg)

/-- SIB: `base + index << scale`. Index number 4 is none; 12 is R12. -/
def sib (m : ModRm) : Calm β (U64 × U8) := do
  let sib ← fetch8
  let s ← self
  let index := ((sib >>> 3) &&& 7) ||| (s.rexX <<< 3)
  let (base, seg) ← sibBase m (sib &&& 7)
  let s ← self
  let scaled := s.eaReg index <<< (sib >>> 6).toNat
  return (if index = 4 then base else base + scaled, seg)

/-- Disp32 alone: RIP-relative in 64-bit mode, past the displacement and
any trailing immediate. -/
def eaDisp32 : Calm β Operand := do
  let disp ← fetch32
  let s ← self
  let d : U64 := disp.signExtend 64
  let off := if s.m64 then s.regs.rip + s.immLen.setWidth 64 + d else d
  whenever s.m64 (modifyDecode ({ · with usedRipRel := true }))
  return .mem (s.segOr reg.DS) (s.truncEa off)

/-- The base register part of a wide effective address. -/
def eaBase (m : ModRm) : Calm β (U64 × U8) :=
  if m.byte &&& 7 = 4 then sib m
  else do
    let s ← self
    let seg := if m.byte &&& 7 = reg.RBP then reg.SS else reg.DS
    return (s.eaReg ((m.byte &&& 7) ||| m.b), seg)

/-- 32- and 64-bit addressing. -/
def eaWide (m : ModRm) : Calm β Operand :=
  if m.md = 0 ∧ m.byte &&& 7 = 5 then eaDisp32
  else do
    let (base, seg) ← eaBase m
    let disp ← fetchDisp m.md
    let s ← self
    return .mem (s.segOr seg) (s.truncEa (base + disp))

/-- Fetch and decode ModRM, SIB and displacement. -/
def modrm : Calm β (ModRm × Operand) := do
  let byte ← fetch8
  let s ← self
  let m : ModRm := ⟨byte, s.rexR <<< 3, s.rexB <<< 3⟩
  if m.md = 3 then return (m, .reg m.rm)
  let op ← (match s.asize with
    | O16 => ea16 m
    | _ => eaWide m)
  return (m, op)

-- ======== operand access

/-- Reads a byte operand. -/
def readOp8 : Operand → Calm β U8
  | .reg i => do
    let s ← self
    return s.gpr8 i
  | .mem seg off => read8 seg off

/-- Writes a byte operand. -/
def writeOp8 (op : Operand) (v : U8) : Calm β Unit :=
  match op with
  | .reg i => setGpr8 i v
  | .mem seg off => write8 seg off v

/-- Reads a word operand. -/
def readOp16 : Operand → Calm β U16
  | .reg i => do
    let s ← self
    return s.regs.reg16 i
  | .mem seg off => read16 seg off

/-- Writes a word operand. -/
def writeOp16 (op : Operand) (v : U16) : Calm β Unit :=
  match op with
  | .reg i => modifyHot (·.setReg16 i v)
  | .mem seg off => write16 seg off v

/-- Reads a double word operand. -/
def readOp32 : Operand → Calm β U32
  | .reg i => do
    let s ← self
    return s.regs.reg32 i
  | .mem seg off => read32 seg off

/-- Writes a double word operand; a register is zero-extended. -/
def writeOp32 (op : Operand) (v : U32) : Calm β Unit :=
  match op with
  | .reg i => modifyHot (·.setReg32 i v)
  | .mem seg off => write32 seg off v

/-- Reads a quad word operand. -/
def readOp64 : Operand → Calm β U64
  | .reg i => do
    let s ← self
    return s.regs.reg64 i
  | .mem seg off => read64 seg off

/-- Writes a quad word operand. -/
def writeOp64 (op : Operand) (v : U64) : Calm β Unit :=
  match op with
  | .reg i => setReg64 i v
  | .mem seg off => write64 seg off v

/-- Read an operand at size `z`, zero-extended. -/
def readSized (z : OpSize) (op : Operand) : Calm β U64 :=
  match z with
  | O16 => (·.setWidth 64) <$> readOp16 op
  | O32 => (·.setWidth 64) <$> readOp32 op
  | O64 => readOp64 op

/-- Writes an operand of the size given. -/
def writeSized (z : OpSize) (op : Operand) (v : U64) : Calm β Unit :=
  match z with
  | O16 => writeOp16 op (v.setWidth 16)
  | O32 => writeOp32 op (v.setWidth 32)
  | O64 => writeOp64 op v

/-- Reads an operand of the operand size. -/
def readOp (op : Operand) : Calm β U64 := do
  let s ← self
  readSized s.osize op

/-- Writes an operand of the operand size. -/
def writeOp (op : Operand) (v : U64) : Calm β Unit := do
  let s ← self
  writeSized s.osize op v

-- ======== sized register access

namespace HotRegs

/-- A register at size `z`, zero-extended. -/
def regSized (r : HotRegs) (z : OpSize) (i : U8) : U64 :=
  match z with
  | O16 => (r.reg16 i).setWidth 64
  | O32 => (r.reg32 i).setWidth 64
  | O64 => r.reg64 i

/-- Writes a register at the size given. -/
def setRegSized (r : HotRegs) (z : OpSize) (i : U8) (v : U64) : HotRegs :=
  match z with
  | O16 => r.setReg16 i (v.setWidth 16)
  | O32 => r.setReg32 i (v.setWidth 32)
  | O64 => r.setReg64 i v

@[simp] theorem rflags_setRegSized (r : HotRegs) (z : OpSize) (i : U8)
    (v : U64) : (r.setRegSized z i v).rflags = r.rflags := by
  cases z <;> rfl

end HotRegs

/-- Write a register at the operand size. -/
def writeRegOsize (i : U8) (v : U64) : Calm β Unit := do
  let s ← self
  modifyHot (·.setRegSized s.osize i v)

/-- The accumulator at the operand size. -/
def Cpu.acc (c : Cpu) : U64 := c.regs.regSized c.osize reg.RAX

/-- Writes the accumulator at the operand size. -/
def setAcc (v : U64) : Calm β Unit := writeRegOsize reg.RAX v

end Remu.X64
