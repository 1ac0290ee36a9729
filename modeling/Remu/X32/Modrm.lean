/-
ModRM and SIB decoding, and operand access.

`modrm` consumes the ModRM byte with its SIB and displacement from the
instruction stream and resolves the operand: a register number, or a
segment and an effective offset.
-/
import Remu.X32.Descriptor

namespace Remu.X32

variable {β : Type} [Bus β]

/-- A raw ModRM byte. -/
structure ModRm where
  byte : U8
deriving DecidableEq, Repr

namespace ModRm

def md (m : ModRm) : U8 := m.byte >>> 6

/-- A register number or a group sub-opcode. -/
def reg (m : ModRm) : U8 := (m.byte >>> 3) &&& 7

def rm (m : ModRm) : U8 := m.byte &&& 7

end ModRm

/-- A resolved ModRM operand. -/
inductive Operand where
  | reg (i : U8)
  | mem (seg : U8) (off : U32)
deriving DecidableEq, Repr

namespace Operand

def isMem : Operand → Bool
  | .mem _ _ => true
  | .reg _ => false

/-- The handler's cycle count: one for a memory operand, one for a
register operand. -/
def cost (op : Operand) (mem reg : U32) : U32 := if op.isMem then mem else reg

end Operand

/-- Base register sum and default segment of a 16-bit effective address. -/
def HotRegs.ea16Base (r : HotRegs) (rm : U8) : U16 × U8 :=
  if rm = 0 then (r.reg16 reg.EBX + r.reg16 reg.ESI, reg.DS)
  else if rm = 1 then (r.reg16 reg.EBX + r.reg16 reg.EDI, reg.DS)
  else if rm = 2 then (r.reg16 reg.EBP + r.reg16 reg.ESI, reg.SS)
  else if rm = 3 then (r.reg16 reg.EBP + r.reg16 reg.EDI, reg.SS)
  else if rm = 4 then (r.reg16 reg.ESI, reg.DS)
  else if rm = 5 then (r.reg16 reg.EDI, reg.DS)
  else if rm = 6 then (r.reg16 reg.EBP, reg.SS)
  else (r.reg16 reg.EBX, reg.DS)

-- ======== effective addresses

/-- A 16-bit displacement by mod: none, sign-extended byte, word. -/
def fetchDisp16 (md : U8) : Calm β U16 :=
  if md = 0 then pure 0
  else if md = 1 then (·.signExtend 16) <$> fetch8
  else fetch16

/-- A 32-bit displacement by mod. -/
def fetchDisp (md : U8) : Calm β U32 :=
  if md = 0 then pure 0
  else if md = 1 then fetchSimm8
  else fetch32

/-- 16-bit addressing: mod 0 with rm 6 is a bare disp16. -/
def ea16 (m : ModRm) : Calm β Operand :=
  if m.md = 0 ∧ m.rm = 6 then do
    let off ← fetch16
    let s ← self
    return .mem (s.segOr reg.DS) (off.setWidth 32)
  else do
    let disp ← fetchDisp16 m.md
    let s ← self
    let (base, seg) := s.regs.ea16Base m.rm
    return .mem (s.segOr seg) ((base + disp).setWidth 32)

/-- The base part of a SIB address: value, default segment, and whether it
is a register. -/
def sibBase (m : ModRm) (base : U8) : Calm β (U32 × U8 × Bool) :=
  if base = 5 ∧ m.md = 0 then do
    let disp ← fetch32
    return (disp, reg.DS, false)
  else do
    let s ← self
    let seg := if base = reg.ESP ∨ base = reg.EBP then reg.SS else reg.DS
    return (s.regs.reg32 base, seg, true)

/-- SIB: `base + (index << scale)`. Without an index the 386 applies the
scale to a base register. -/
def sib (m : ModRm) : Calm β (U32 × U8) := do
  let sib ← fetch8
  let scale := (sib >>> 6).toNat
  let index := (sib >>> 3) &&& 7
  let (base, seg, scalable) ← sibBase m (sib &&& 7)
  let s ← self
  if index ≠ 4 then return (base + (s.regs.reg32 index <<< scale), seg)
  else if scalable then return (base <<< scale, seg)
  else return (base, seg)

/-- The base register part of a 32-bit effective address. -/
def eaBase (m : ModRm) : Calm β (U32 × U8) :=
  if m.rm = 4 then sib m
  else do
    let s ← self
    return (s.regs.reg32 m.rm, if m.rm = reg.EBP then reg.SS else reg.DS)

/-- 32-bit addressing: mod 0 with rm 5 is a bare disp32. -/
def ea32 (m : ModRm) : Calm β Operand :=
  if m.md = 0 ∧ m.rm = 5 then do
    let off ← fetch32
    let s ← self
    return .mem (s.segOr reg.DS) off
  else do
    let (base, seg) ← eaBase m
    let disp ← fetchDisp m.md
    let s ← self
    return .mem (s.segOr seg) (base + disp)

/-- Fetch and decode ModRM, SIB and displacement. -/
def modrm : Calm β (ModRm × Operand) := do
  let byte ← fetch8
  let m : ModRm := ⟨byte⟩
  if m.md = 3 then return (m, .reg m.rm)
  let s ← self
  let op ← (if s.asize32 then ea32 m else ea16 m)
  return (m, op)

-- ======== operand access

def readOp8 : Operand → Calm β U8
  | .reg i => do
    let s ← self
    return s.regs.reg8 i
  | .mem seg off => read8 seg off

def writeOp8 (op : Operand) (v : U8) : Calm β Unit :=
  match op with
  | .reg i => setReg8 i v
  | .mem seg off => write8 seg off v

def readOp16 : Operand → Calm β U16
  | .reg i => do
    let s ← self
    return s.regs.reg16 i
  | .mem seg off => read16 seg off

def writeOp16 (op : Operand) (v : U16) : Calm β Unit :=
  match op with
  | .reg i => setReg16 i v
  | .mem seg off => write16 seg off v

def readOp32 : Operand → Calm β U32
  | .reg i => do
    let s ← self
    return s.regs.reg32 i
  | .mem seg off => read32 seg off

def writeOp32 (op : Operand) (v : U32) : Calm β Unit :=
  match op with
  | .reg i => setReg32 i v
  | .mem seg off => write32 seg off v

/-- Read an operand as a doubleword or a word, zero-extended. -/
def readSized (wide : Bool) (op : Operand) : Calm β U32 :=
  if wide then readOp32 op else (·.setWidth 32) <$> readOp16 op

def writeSized (wide : Bool) (op : Operand) (v : U32) : Calm β Unit :=
  if wide then writeOp32 op v else writeOp16 op (v.setWidth 16)

/-- Read an operand at the operand size. -/
def readOp (op : Operand) : Calm β U32 := do
  let s ← self
  readSized s.osize32 op

def writeOp (op : Operand) (v : U32) : Calm β Unit := do
  let s ← self
  writeSized s.osize32 op v

-- ======== sized register access

namespace HotRegs

/-- A register as a doubleword or a word, zero-extended. -/
def regSized (r : HotRegs) (wide : Bool) (i : U8) : U32 :=
  if wide then r.reg32 i else (r.reg16 i).setWidth 32

def setRegSized (r : HotRegs) (wide : Bool) (i : U8) (v : U32) : HotRegs :=
  if wide then r.setReg32 i v else r.setReg16 i (v.setWidth 16)

@[simp] theorem eflags_setRegSized (r : HotRegs) (wide : Bool)
    (i : U8) (v : U32) :
    (r.setRegSized wide i v).eflags = r.eflags := by
  cases wide <;> rfl

end HotRegs

/-- Write a register at the operand size. -/
def writeReg (i : U8) (v : U32) : Calm β Unit := do
  let s ← self
  modifyHot (·.setRegSized s.osize32 i v)

/-- A register at the operand size. -/
def Cpu.regOp (c : Cpu) (i : U8) : U32 := c.regs.regSized c.osize32 i

end Remu.X32
