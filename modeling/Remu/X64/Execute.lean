/-
The one-byte opcode map.

# The arms

One definition per opcode family, in the order of the source's match. An
arm is `Calm` unless it loads a segment register, transfers far or takes a
software interrupt. It returns its cycle count.

# The split

`dispatchCalm` holds the arms that are calm and `dispatchXfer` the others;
`dispatch` picks by opcode. `dispatch_calm` is the fact every privilege
argument starts from: outside the listed opcodes an instruction takes calm
steps only.
-/
import Remu.X64.Interrupt

namespace Remu.X64

variable {β : Type} [Bus β]

-- ======== dispatch helpers

/-- A two-operand ALU operation at the operand size, by table index. -/
def alu (i : U8) (a b : U64) : Calm β U64 := do
  let s ← self
  match s.osize with
  | O16 =>
    (·.setWidth 64) <$> withFlags (Alu.table i (a.setWidth 16) (b.setWidth 16))
  | O32 =>
    (·.setWidth 64) <$> withFlags (Alu.table i (a.setWidth 32) (b.setWidth 32))
  | O64 => withFlags (Alu.table i a b)

/-- One of the eight ALU operations on bytes. -/
def alu8 (i : U8) (a b : U8) : Calm β U8 := withFlags (Alu.table i a b)

/-- A unary flag-setting operation at the operand size. -/
def unary (f : ∀ {w : Nat}, BitVec w → RFlags → BitVec w × RFlags) (v : U64)
    (hf : ∀ {w : Nat} (a : BitVec w) (r : RFlags), (f a r).2.vm = r.vm := by
      first | exact Alu.vm_inc | exact Alu.vm_dec | exact Alu.vm_neg) : Calm β U64 := do
  let s ← self
  match s.osize with
  | O16 => (·.setWidth 64) <$> withFlags (f (v.setWidth 16)) (hf _)
  | O32 => (·.setWidth 64) <$> withFlags (f (v.setWidth 32)) (hf _)
  | O64 => withFlags (f v) (hf _)

/-- LOCK is legal only where `ok`. -/
def lockCheck (ok : Bool) : Calm β Unit := do
  let s ← self
  whenever s.lock do
    raiseIf (!ok) Exception.ud
    modifyDecode ({ · with lockOk := true })

/-- Condition code `n` of Jcc, SETcc and CMOVcc; odd codes negate. -/
def RFlags.cond (f : RFlags) (n : U8) : Bool :=
  let c := n >>> 1
  let r :=
    if c = 0 then f.contains OF
    else if c = 1 then f.contains CF
    else if c = 2 then f.contains ZF
    else if c = 3 then f.contains CF || f.contains ZF
    else if c = 4 then f.contains SF
    else if c = 5 then f.contains PF
    else if c = 6 then f.contains SF != f.contains OF
    else f.contains ZF || (f.contains SF != f.contains OF)
  r != (n &&& 1 != 0)

/-- The instruction pointer truncated to the operand size. -/
def Cpu.truncIp (c : Cpu) (ip : U64) : U64 :=
  match c.osize with
  | O16 => ip &&& 0xFFFF
  | O32 => ip &&& 0xFFFFFFFF
  | O64 => ip

/-- Near branch to an absolute offset. -/
def setIp (ip : U64) : Calm β Unit := do
  let s ← self
  let ip := s.truncIp ip
  raiseIf (if s.m64 then !canonical ip
    else decide ((s.regs.seg reg.CS).limit.toNat < ip.toNat)) (Exception.gp 0)
  setRip ip

/-- A relative jump, RIP cut to the operand size. -/
def jumpRel (rel : U64) : Calm β Unit := do
  let s ← self
  setIp (s.regs.rip + rel)

/-- A relative displacement at operand size `z`, sign-extended. -/
def fetchRelAt (z : OpSize) : Calm β U64 :=
  if z = O16 then (·.signExtend 64) <$> fetch16
    else (·.signExtend 64) <$> fetch32

/-- A relative displacement at the branch operand size. -/
def fetchRel : Calm β U64 := do
  let s ← self
  fetchRelAt s.osize

/-- Near branches: 64-bit operands in 64-bit mode. -/
def useBranchOsize : Calm β Unit := do
  let s ← self
  setOsize s.branchOsize

/-- Stack operations: 64-bit operands in 64-bit mode, 16 under a 66. -/
def useStackOsize : Calm β Unit := do
  let s ← self
  setOsize s.stackOsize

/-- Opcodes that are #UD in 64-bit mode. -/
def legacyOnly : Calm β Unit := do
  let s ← self
  raiseIf s.m64 Exception.ud

-- ======== ALU families

/-- `op r/m, r`, by ALU index. -/
def opRmR (i : U8) (wb : Bool) : Calm β U32 := do
  let (m, op) ← modrm
  lockCheck (wb && op.isMem)
  let a ← readOp op
  let s ← self
  let r ← alu i a (s.regs.reg64 m.reg)
  whenever wb (writeOp op r)
  return op.cost 7 2

/-- `op r, r/m`. -/
def opRRm (i : U8) (wb : Bool) : Calm β U32 := do
  let (m, op) ← modrm
  let s ← self
  let a := s.regs.regSized s.osize m.reg
  let b ← readOp op
  let r ← alu i a b
  whenever wb (writeRegOsize m.reg r)
  return op.cost 6 2

/-- The ALU family `r/m8, r8`. -/
def opRmR8 (i : U8) (wb : Bool) : Calm β U32 := do
  let (m, op) ← modrm
  lockCheck (wb && op.isMem)
  let a ← readOp8 op
  let s ← self
  let r ← alu8 i a (s.gpr8 m.reg)
  whenever wb (writeOp8 op r)
  return op.cost 7 2

/-- The ALU family `r8, r/m8`. -/
def opRRm8 (i : U8) (wb : Bool) : Calm β U32 := do
  let (m, op) ← modrm
  let s ← self
  let a := s.gpr8 m.reg
  let b ← readOp8 op
  let r ← alu8 i a b
  whenever wb (setGpr8 m.reg r)
  return op.cost 6 2

/-- `op AL, imm8`. -/
def opAccImm8 (i : U8) (wb : Bool) : Calm β U32 := do
  let b ← fetch8
  let s ← self
  let r ← alu8 i (s.gpr8 reg.RAX) b
  whenever wb (setGpr8 reg.RAX r)
  return 2

/-- `op rAX, imm`. -/
def opAccImm (i : U8) (wb : Bool) : Calm β U32 := do
  let b ← fetchImm
  let s ← self
  let r ← alu i s.acc b
  whenever wb (setAcc r)
  return 2

/-- 80, 82: `op r/m8, imm8`. -/
def opGrpImm8 (opcode : U8) : Calm β U32 := do
  let s ← self
  raiseIf (opcode = 0x82 ∧ s.m64) Exception.ud
  setImmLen 1
  let (m, op) ← modrm
  lockCheck (op.isMem && m.sub != 7)
  let a ← readOp8 op
  let b ← fetch8
  let r ← alu8 m.sub a b
  whenever (m.sub ≠ 7) (writeOp8 op r)
  return op.cost 7 2

/-- The length of a full immediate. -/
def Cpu.immBytes (c : Cpu) : U8 := if c.osize = O16 then 2 else 4

/-- 81, 83: `op r/m, imm` and `op r/m, imm8`. -/
def opGrpImm (opcode : U8) : Calm β U32 := do
  let s ← self
  setImmLen (if opcode = 0x83 then 1 else s.immBytes)
  let (m, op) ← modrm
  lockCheck (op.isMem && m.sub != 7)
  let a ← readOp op
  let b ← (if opcode = 0x81 then fetchImm else fetchSimm8)
  let r ← alu m.sub a b
  whenever (m.sub ≠ 7) (writeOp op r)
  return op.cost 7 2

-- ======== registers and stacks

/-- 06, 0E, 16, 1E: PUSH of a segment register. -/
def pushSreg (opcode : U8) : Calm β U32 := do
  legacyOnly
  let s ← self
  push ((s.regs.segSel (opcode >>> 3)).setWidth 64)
  return 2

/-- A BCD adjustment (27, 2F, 37, 3F). -/
def bcd (f : Bool → HotRegs → HotRegs)
    (hf : ∀ rex r, (f rex r).rflags.vm = r.rflags.vm := by intro rex r; simp) :
    Calm β U32 := do
  legacyOnly
  let s ← self
  modifyHot (f s.rex.isSome) (hf _)
  return 4

/-- 40–4F: INC and DEC of a register (legacy). -/
def incDecReg (opcode : U8) : Calm β U32 := do
  let i := opcode &&& 7
  let s ← self
  match s.osize with
  | O16 => do
    let r ← (if opcode < 0x48 then withFlags (Alu.inc (s.regs.reg16 i))
      else withFlags (Alu.dec (s.regs.reg16 i)))
    modifyHot (·.setReg16 i r)
    return 2
  | _ => do
    let r ← (if opcode < 0x48 then withFlags (Alu.inc (s.regs.reg32 i))
      else withFlags (Alu.dec (s.regs.reg32 i)))
    modifyHot (·.setReg32 i r)
    return 2

/-- The register an opcode's low three bits and REX.B name. -/
def Cpu.opcodeReg (c : Cpu) (opcode : U8) : U8 :=
  (opcode &&& 7) ||| (c.rexB <<< 3)

/-- 50–57. -/
def pushReg (opcode : U8) : Calm β U32 := do
  useStackOsize
  let s ← self
  push (s.regs.reg64 (s.opcodeReg opcode))
  return 2

/-- 58–5F. -/
def popReg (opcode : U8) : Calm β U32 := do
  useStackOsize
  let s ← self
  let v ← pop
  writeRegOsize (s.opcodeReg opcode) v
  return 4

/-- Store the stack pointer at the stack's address size. -/
def setStackPtr (sp : U64) : Calm β Unit := do
  let s ← self
  if (s.regs.seg reg.SS).db then setReg64 reg.RSP sp
  else modifyHot (·.setReg16 reg.RSP (sp.setWidth 16))

/-- Write one PUSHA slot at the operand size. -/
def writeSlot (wide : Bool) (slot v : U64) : Calm β Unit :=
  if wide then write32 reg.SS slot (v.setWidth 32)
    else write16 reg.SS slot (v.setWidth 16)

/-- PUSHA's stores, registers `n - 1` down to 0. -/
def pushaLoop (wide : Bool) (bottom wrap esp0 : U64) : Nat → Calm β Unit
  | 0 => pure ()
  | n + 1 => do
    let s ← self
    let i : U8 := BitVec.ofNat 8 n
    let v := if i = reg.RSP then esp0 else s.regs.reg64 i
    let width : U64 := if wide then 4 else 2
    writeSlot wide ((bottom + BitVec.ofNat 64 (7 - n) * width) &&& wrap) v
    pushaLoop wide bottom wrap esp0 n

/-- 60: completed stores stay on a fault; the stack pointer does not move
until all are done. -/
def pusha : Calm β U32 := do
  legacyOnly
  modifyDecode ({ · with commitOnFault := true })
  let s ← self
  let wide := s.osize == O32
  let width : U64 := if wide then 4 else 2
  let bottom := (s.stackPtr - 8 * width) &&& s.stackWrap
  pushaLoop wide bottom s.stackWrap (s.regs.gpr reg.RSP) 8
  setStackPtr bottom
  return 18

/-- POPA's loads, registers `n - 1` down to 0; the final stack pointer. -/
def popaLoop (wide : Bool) (wrap : U64) : Nat → U64 → Calm β U64
  | 0, sp => pure sp
  | n + 1, sp => do
    let i : U8 := BitVec.ofNat 8 n
    let v ← (if wide then (·.setWidth 64) <$> read32 reg.SS sp
      else (·.setWidth 64) <$> read16 reg.SS sp)
    whenever (i ≠ reg.RSP)
      (modifyHot (·.setRegSized (if wide then O32 else O16) i v))
    popaLoop wide wrap n ((sp + if wide then 4 else 2) &&& wrap)

/-- 61. -/
def popa : Calm β U32 := do
  legacyOnly
  modifyDecode ({ · with commitOnFault := true })
  let s ← self
  let sp ← popaLoop (s.osize == O32) s.stackWrap 8 s.stackPtr
  setStackPtr sp
  return 24

/-- A memory operand, or #UD. -/
def memOperand : Operand → Calm β (U8 × U64)
  | .mem seg off => pure (seg, off)
  | .reg _ => throw Exception.ud

/-- 62: BOUND. -/
def bound : Calm β U32 := do
  legacyOnly
  let (m, op) ← modrm
  let (seg, off) ← memOperand op
  let s ← self
  if s.osize = O32 then do
    let idx := s.regs.reg32 m.reg
    let lo ← read32 seg off
    let hi ← read32 seg ((off + 4) &&& s.dataWrap)
    raiseIf (idx.slt lo || hi.slt idx) Exception.br
    return 10
  else do
    let idx := s.regs.reg16 m.reg
    let lo ← read16 seg off
    let hi ← read16 seg ((off + 2) &&& s.dataWrap)
    raiseIf (idx.slt lo || hi.slt idx) Exception.br
    return 10

/-- The MOVSXD source at an operand size. -/
def readMovsxd (z : OpSize) (op : Operand) : Calm β U64 :=
  match z with
  | O64 => (·.signExtend 64) <$> readOp32 op
  | O32 => (·.setWidth 64) <$> readOp32 op
  | O16 => (·.setWidth 64) <$> readOp16 op

/-- 63 in 64-bit mode: MOVSXD. -/
def movsxd : Calm β U32 := do
  let (m, op) ← modrm
  let s ← self
  let v ← readMovsxd s.osize op
  writeRegOsize m.reg v
  return 2

/-- 63 in legacy modes: ARPL. -/
def arpl : Calm β U32 := do
  let s ← self
  raiseIf (!s.protectedMode) Exception.ud
  let (m, op) ← modrm
  let dst ← readOp16 op
  let s ← self
  let src := s.regs.reg16 m.reg
  if dst &&& 3 < src &&& 3 then do
    modifyFlags (·.insert RFlags.ZF)
    writeOp16 op ((dst &&& ~~~3) ||| (src &&& 3))
    return 20
  else do
    modifyFlags (·.remove RFlags.ZF)
    return 20

/-- 68, 6A: PUSH of an immediate. -/
def pushImm (opcode : U8) : Calm β U32 := do
  useStackOsize
  let v ← (if opcode = 0x68 then fetchImm else fetchSimm8)
  push v
  return 2

/-- Two-operand IMUL at the operand size. -/
def imulTrunc (a b : U64) : Calm β U64 := do
  let s ← self
  match s.osize with
  | O16 =>
    (·.setWidth 64) <$> withFlags
      (Alu.imulTrunc (a.setWidth 16) (b.setWidth 16))
  | O32 =>
    (·.setWidth 64) <$> withFlags
      (Alu.imulTrunc (a.setWidth 32) (b.setWidth 32))
  | O64 => withFlags (Alu.imulTrunc a b)

/-- 69, 6B: IMUL r, r/m, imm. -/
def imulRmImm (opcode : U8) : Calm β U32 := do
  let s ← self
  setImmLen (if opcode = 0x6B then 1 else s.immBytes)
  let (m, op) ← modrm
  let a ← readOp op
  let b ← (if opcode = 0x69 then fetchImm else fetchSimm8)
  let r ← imulTrunc a b
  writeRegOsize m.reg r
  return op.cost 22 20

-- ======== string operations

namespace Cpu

/-- A register under the address-size mask. -/
def indexReg (c : Cpu) (i : U8) : U64 :=
  match c.asize with
  | O16 => c.regs.gpr i &&& 0xFFFF
  | O32 => c.regs.gpr i &&& 0xFFFFFFFF
  | O64 => c.regs.gpr i

/-- The REP and LOOP counter. -/
def countReg (c : Cpu) : U64 := c.indexReg reg.RCX

/-- The index step of `n` bytes: down when DF is set. -/
def delta (c : Cpu) (n : U64) : U64 :=
  if c.regs.rflags.contains RFlags.DF then -n else n

end Cpu

/-- Write a register at the address size. -/
def setIndexReg (i : U8) (v : U64) : Calm β Unit := do
  let s ← self
  modifyHot (·.setRegSized s.asize i v)

/-- Write RCX, ECX or CX, by address size. -/
def setCountReg (v : U64) : Calm β Unit := setIndexReg reg.RCX v

/-- Move an index register by an element, down where DF is set. -/
def stepIndex (i : U8) (n : U64) : Calm β Unit := do
  let s ← self
  setIndexReg i (s.indexReg i + s.delta n)

/-- The element accesses of one string-operation width. -/
structure StrWidth (β : Type) [Bus β] where
  w : Nat
  bytes : U64
  read : U8 → U64 → Calm β (BitVec w)
  write : U8 → U64 → BitVec w → Calm β Unit
  setAcc : BitVec w → Calm β Unit

/-- The four widths of the string instructions. -/
def str8 : StrWidth β :=
  ⟨8, 1, read8, write8, fun v => modifyHot (·.setReg8 0 false v)⟩
def str16 : StrWidth β :=
  ⟨16, 2, read16, write16, fun v => modifyHot (·.setReg16 0 v)⟩
def str32 : StrWidth β :=
  ⟨32, 4, read32, write32, fun v => modifyHot (·.setReg32 0 v)⟩
def str64 : StrWidth β :=
  ⟨64, 8, read64, write64, fun v => modifyHot (·.setReg64 0 v)⟩

/-- The element at DS:RSI, DS overridable. -/
def readSi (z : StrWidth β) : Calm β (BitVec z.w) := do
  let s ← self
  z.read (s.segOr reg.DS) (s.indexReg reg.RSI)

/-- The element at ES:RDI. -/
def readDi (z : StrWidth β) : Calm β (BitVec z.w) := do
  let s ← self
  z.read reg.ES (s.indexReg reg.RDI)

/-- Store the element at ES:RDI. -/
def writeDi (z : StrWidth β) (v : BitVec z.w) : Calm β Unit := do
  let s ← self
  z.write reg.ES (s.indexReg reg.RDI) v

/-- MOVS. -/
def movs (z : StrWidth β) : Calm β Unit := do
  let v ← readSi z
  writeDi z v
  stepIndex reg.RSI z.bytes
  stepIndex reg.RDI z.bytes

/-- CMPS. -/
def cmps (z : StrWidth β) : Calm β Unit := do
  let a ← readSi z
  let b ← readDi z
  let _ ← withFlags (Alu.sub a b)
  stepIndex reg.RSI z.bytes
  stepIndex reg.RDI z.bytes

/-- STOS. -/
def stos (z : StrWidth β) : Calm β Unit := do
  let s ← self
  writeDi z ((s.regs.gpr reg.RAX).setWidth z.w)
  stepIndex reg.RDI z.bytes

/-- LODS. -/
def lods (z : StrWidth β) : Calm β Unit := do
  let v ← readSi z
  z.setAcc v
  stepIndex reg.RSI z.bytes

/-- SCAS. -/
def scas (z : StrWidth β) : Calm β Unit := do
  let b ← readDi z
  let s ← self
  let _ ← withFlags (Alu.sub ((s.regs.gpr reg.RAX).setWidth z.w) b)
  stepIndex reg.RDI z.bytes

/-- Port reads composed from bytes, low byte first. -/
def ioRead16 (port : U16) : Calm β U16 :=
  readHalves (ioRead port) (ioRead (port + 1))
/-- Ports wider than a byte go by bytes. -/
def ioRead32 (port : U16) : Calm β U32 :=
  readHalves (ioRead16 port) (ioRead16 (port + 2))

def ioWrite16 (port : U16) (v : U16) : Calm β Unit := do
  ioWrite port (v.setWidth 8)
  ioWrite (port + 1) ((v >>> 8).setWidth 8)

def ioWrite32 (port : U16) (v : U32) : Calm β Unit := do
  ioWrite16 port (v.setWidth 16)
  ioWrite16 (port + 2) ((v >>> 16).setWidth 16)

/-- INS: permission, port read, store, step. -/
def ins (z : StrWidth β) (size : Nat) (rd : U16 → Calm β (BitVec z.w)) :
    Calm β Unit := do
  let s ← self
  let port := s.regs.reg16 reg.RDX
  ioCheck port size
  let v ← rd port
  writeDi z v
  stepIndex reg.RDI z.bytes

/-- OUTS: permission, load, port write, step. -/
def outs (z : StrWidth β) (size : Nat) (wr : U16 → BitVec z.w → Calm β Unit) :
    Calm β Unit := do
  let s ← self
  let port := s.regs.reg16 reg.RDX
  ioCheck port size
  let v ← readSi z
  wr port v
  stepIndex reg.RSI z.bytes

/-- The REP loop. The counter drops by one per iteration, so its initial
value is fuel enough. -/
def repLoop (one : Calm β Unit) (cmp contOnZf : Bool) : Nat → U32 → Calm β U32
  | 0, cycles => pure cycles
  | n + 1, cycles => do
    let s ← self
    if s.countReg = 0 then return cycles
    one
    let s ← self
    setCountReg (s.countReg - 1)
    let s ← self
    let cycles := cycles + 4
    if cmp && s.regs.rflags.contains RFlags.ZF != contOnZf then return cycles
    -- Interrupts are taken between iterations, RIP back at the prefix.
    if s.countReg ≠ 0 ∧ s.interruptPending then do
      setRip s.startRip
      return cycles
    repLoop one cmp contOnZf n cycles

/-- Run one string instruction: a single element, or its REP loop with
per-iteration progress kept on faults. -/
def stringOp (one : Calm β Unit) (cmp : Bool) : Calm β U32 := do
  modifyDecode ({ · with commitOnFault := true })
  let s ← self
  match s.rep with
  | none => do
    one
    return 7
  | some contOnZf => repLoop one cmp contOnZf s.countReg.toNat 5

/-- A string operation at the operand size. -/
def stringOpSized (f : StrWidth β → Calm β Unit) (cmp : Bool) : Calm β U32 := do
  let s ← self
  match s.osize with
  | O16 => stringOp (f str16) cmp
  | O32 => stringOp (f str32) cmp
  | O64 => stringOp (f str64) cmp

/-- 6D: INS at 16 bits, else 32. -/
def insW : Calm β U32 := do
  let s ← self
  if s.osize = O16 then stringOp (ins str16 2 ioRead16) false
  else stringOp (ins str32 4 ioRead32) false

/-- 6F. -/
def outsW : Calm β U32 := do
  let s ← self
  if s.osize = O16 then stringOp (outs str16 2 ioWrite16) false
  else stringOp (outs str32 4 ioWrite32) false

-- ======== exchanges, moves, flags

/-- A conditional relative jump. -/
def condJump (taken : Bool) (rel : U64) (yes no : U32) : Calm β U32 :=
  if taken then do
    jumpRel rel
    return yes
  else pure no

/-- 70–7F. -/
def jccShort (opcode : U8) : Calm β U32 := do
  useBranchOsize
  let rel ← fetchSimm8
  let s ← self
  condJump (s.regs.rflags.cond (opcode &&& 0xF)) rel 7 3

/-- 86: XCHG r/m8. -/
def xchgRm8 : Calm β U32 := do
  let (m, op) ← modrm
  lockCheck op.isMem
  let a ← readOp8 op
  let s ← self
  writeOp8 op (s.gpr8 m.reg)
  setGpr8 m.reg a
  return op.cost 5 3

/-- 87: XCHG r/m. -/
def xchgRm : Calm β U32 := do
  let (m, op) ← modrm
  lockCheck op.isMem
  let a ← readOp op
  let s ← self
  writeOp op (s.regs.reg64 m.reg)
  writeRegOsize m.reg a
  return op.cost 5 3

/-- 90–97: XCHG with the accumulator; 90 without REX.B is NOP. -/
def xchgAcc (opcode : U8) : Calm β U32 := do
  let s ← self
  let i := s.opcodeReg opcode
  if opcode = 0x90 ∧ s.rexB = 0 then return 1
  else do
    let t := s.acc
    setAcc (s.regs.regSized s.osize i)
    writeRegOsize i t
    return 3

/-- 88. -/
def movRmR8 : Calm β U32 := do
  let (m, op) ← modrm
  let s ← self
  writeOp8 op (s.gpr8 m.reg)
  return 2

/-- 89. -/
def movRmR : Calm β U32 := do
  let (m, op) ← modrm
  let s ← self
  writeOp op (s.regs.regSized s.osize m.reg)
  return 2

/-- 8A. -/
def movRRm8 : Calm β U32 := do
  let (m, op) ← modrm
  let v ← readOp8 op
  setGpr8 m.reg v
  return op.cost 4 2

/-- 8B. -/
def movRRm : Calm β U32 := do
  let (m, op) ← modrm
  let v ← readOp op
  writeRegOsize m.reg v
  return op.cost 4 2

/-- Store a selector or the like: a register takes it zero-extended at the
operand size, memory 16 bits. -/
def storeWord (op : Operand) (v : U16) : Calm β Unit :=
  match op with
  | .reg i => writeRegOsize i (v.setWidth 64)
  | .mem seg off => write16 seg off v

/-- 8C: MOV r/m, Sreg. -/
def movRmSreg : Calm β U32 := do
  let (m, op) ← modrm
  raiseIf (5 < m.sub) Exception.ud
  let s ← self
  storeWord op (s.regs.segSel m.sub)
  return 2

/-- 8D. -/
def lea : Calm β U32 := do
  let (m, op) ← modrm
  let (_, off) ← memOperand op
  writeRegOsize m.reg off
  return 2

/-- 8F: POP r/m. The value pops before the address resolves. -/
def popRm : Calm β U32 := do
  useStackOsize
  let v ← pop
  let (m, op) ← modrm
  raiseIf (m.sub ≠ 0) Exception.ud
  writeOp op v
  return op.cost 5 4

/-- The moffs offset at the address size. -/
def fetchMoffs : Calm β U64 := do
  let s ← self
  match s.asize with
  | O16 => (·.setWidth 64) <$> fetch16
  | O32 => (·.setWidth 64) <$> fetch32
  | O64 => fetch64

/-- A0–A3. -/
def movMoffs (opcode : U8) : Calm β U32 := do
  let off ← fetchMoffs
  let s ← self
  let op := Operand.mem (s.segOr reg.DS) off
  if opcode = 0xA0 then do
    let v ← readOp8 op
    setGpr8 reg.RAX v
    return 4
  else if opcode = 0xA1 then do
    let v ← readOp op
    setAcc v
    return 4
  else if opcode = 0xA2 then do
    writeOp8 op (s.gpr8 reg.RAX)
    return 2
  else do
    writeOp op s.acc
    return 2

/-- B0–B7. -/
def movRegImm8 (opcode : U8) : Calm β U32 := do
  let v ← fetch8
  let s ← self
  setGpr8 (s.opcodeReg opcode) v
  return 2

/-- B8–BF: the one 64-bit immediate. -/
def movRegImm (opcode : U8) : Calm β U32 := do
  let s ← self
  let i := s.opcodeReg opcode
  match s.osize with
  | O16 => do
    let v ← fetch16
    modifyHot (·.setReg16 i v)
    return 2
  | O32 => do
    let v ← fetch32
    modifyHot (·.setReg32 i v)
    return 2
  | O64 => do
    let v ← fetch64
    setReg64 i v
    return 2

/-- C6. -/
def movRmImm8 : Calm β U32 := do
  setImmLen 1
  let (m, op) ← modrm
  raiseIf (m.sub ≠ 0) Exception.ud
  let v ← fetch8
  writeOp8 op v
  return 2

/-- C7. -/
def movRmImm : Calm β U32 := do
  let s ← self
  setImmLen s.immBytes
  let (m, op) ← modrm
  raiseIf (m.sub ≠ 0) Exception.ud
  let v ← fetchImm
  writeOp op v
  return 2

/-- 98: CBW, CWDE, CDQE. -/
def HotRegs.cbw (r : HotRegs) (z : OpSize) (al : U8) : HotRegs :=
  match z with
  | O16 => r.setReg16 reg.RAX (al.signExtend 16)
  | O32 => r.setReg32 reg.RAX ((r.reg16 reg.RAX).signExtend 32)
  | O64 => r.setReg64 reg.RAX ((r.reg32 reg.RAX).signExtend 64)

/-- 99: CWD, CDQ, CQO. -/
def HotRegs.cwd (r : HotRegs) (z : OpSize) : HotRegs :=
  match z with
  | O16 => r.setReg16 reg.RDX (if (r.reg16 reg.RAX).msb then 0xFFFF else 0)
  | O32 => r.setReg32 reg.RDX (if (r.reg32 reg.RAX).msb then 0xFFFFFFFF else 0)
  | O64 =>
    r.setReg64 reg.RDX
      (if (r.reg64 reg.RAX).msb then 0xFFFFFFFFFFFFFFFF else 0)

@[simp] theorem HotRegs.rflags_cbw (r : HotRegs) (z : OpSize) (al : U8) :
    (r.cbw z al).rflags = r.rflags := by
  cases z <;> rfl

@[simp] theorem HotRegs.rflags_cwd (r : HotRegs) (z : OpSize) :
    (r.cwd z).rflags = r.rflags := by
  cases z <;> rfl

/-- CBW, CWDE and CDQE. -/
def cbw : Calm β U32 := do
  let s ← self
  modifyHot (·.cbw s.osize (s.gpr8 reg.RAX))
  return 3

/-- CWD, CDQ and CQO. -/
def cwd : Calm β U32 := do
  let s ← self
  modifyHot (·.cwd s.osize)
  return 2

/-- 9E: the status flags (OF apart) from AH. -/
def RFlags.sahf (f : RFlags) (ah : U8) : RFlags :=
  fromBitsTruncate ((f.bits &&& ~~~(STATUS &&& 0xFF))
    ||| (ah.setWidth 32 &&& STATUS &&& 0xFF))

@[simp] theorem RFlags.vm_sahf (f : RFlags) (ah : U8) :
    (f.sahf ah).vm = f.vm := by
  simp [sahf, fromBitsTruncate, vm]

/-- SAHF: the low flags from AH. -/
def sahf : Calm β U32 := do
  let s ← self
  modifyFlags (·.sahf (s.regs.reg8 4 false))
  return 3

/-- 9F: bit 1 reads as one. -/
def lahf : Calm β U32 := do
  let s ← self
  let lo : U8 := (s.regs.rflags.bits.setWidth 8 &&& 0xD5) ||| 0x02
  modifyHot (·.setReg8 4 false lo)
  return 2

/-- PUSHF, POPF and INT n are IOPL-sensitive in V86 mode. -/
def v86Iopl : Calm β Unit := do
  let s ← self
  raiseIf (s.regs.rflags.contains RFlags.VM ∧ s.regs.rflags.iopl < 3)
    (Exception.gp 0)

/-- 9C: PUSHF. -/
def pushf : Calm β U32 := do
  v86Iopl
  useStackOsize
  let s ← self
  let f := s.regs.rflags
  pushSized s.osize (if s.osize = O16 then f.image16.setWidth 64 else f.image)
  return 4

/-- 9D: POPF. -/
def popf : Calm β U32 := do
  v86Iopl
  useStackOsize
  let v ← pop
  let s ← self
  loadFlags v s.popfMask s.popfMask_vm
  return 5

-- ======== shifts, near returns, frames

/-- A shift count: given, or the immediate that follows. -/
def shiftCount (count : Option U32) : Calm β U32 :=
  match count with
  | some n => pure n
  | none => (·.setWidth 32) <$> fetch8

/-- A shift or rotate of a byte, by its number. -/
def shiftDispatch8 (sub : U8) (v : U8) (n : U32) : Calm β U8 :=
  withFlags (Alu.shift sub v n)

/-- A shift or rotate at the operand size. -/
def shiftDispatch (sub : U8) (v : U64) (n : U32) : Calm β U64 := do
  let s ← self
  match s.osize with
  | O16 => (·.setWidth 64) <$> withFlags (Alu.shift sub (v.setWidth 16) n)
  | O32 => (·.setWidth 64) <$> withFlags (Alu.shift sub (v.setWidth 32) n)
  | O64 => withFlags (Alu.shift sub v n)

/-- The shift group on bytes; the count is an immediate, 1 or CL. -/
def shiftGrp8 (count : Option U32) : Calm β U32 := do
  let (m, op) ← modrm
  let v ← readOp8 op
  let n ← shiftCount count
  let r ← shiftDispatch8 m.sub v n
  writeOp8 op r
  return op.cost 7 3

/-- The shift group at the operand size. -/
def shiftGrp (count : Option U32) : Calm β U32 := do
  let (m, op) ← modrm
  let v ← readOp op
  let n ← shiftCount count
  let r ← shiftDispatch m.sub v n
  writeOp op r
  return op.cost 7 3

/-- C0, C1, D0–D3: the count is an immediate, one, or CL. -/
def shiftGroup (opcode : U8) : Calm β U32 := do
  whenever (opcode = 0xC0 ∨ opcode = 0xC1) (setImmLen 1)
  let s ← self
  let count : Option U32 :=
    if opcode = 0xC0 ∨ opcode = 0xC1 then none
    else if opcode = 0xD0 ∨ opcode = 0xD1 then some 1
    else some ((s.regs.reg8 1 false).setWidth 32)
  if opcode &&& 1 = 0 then shiftGrp8 count else shiftGrp count

/-- C3. -/
def retNear : Calm β U32 := do
  useBranchOsize
  let ip ← pop
  setIp ip
  return 10

/-- C2. -/
def retNearImm : Calm β U32 := do
  useBranchOsize
  let n ← fetch16
  let ip ← pop
  setIp ip
  adjustSp (n.setWidth 64)
  return 10

/-- ENTER's walk down the display chain. -/
def displayLoop : Nat → Calm β Unit
  | 0 => pure ()
  | n + 1 => do
    let s ← self
    writeRegOsize reg.RBP (s.regs.regSized s.osize reg.RBP - s.osize.bytes)
    let s ← self
    let v ← readSized s.osize (.mem reg.SS (s.regs.regSized s.osize reg.RBP))
    pushSized s.osize v
    displayLoop n

/-- ENTER: frame allocation with an optional display walk. -/
def enter (alloc : U64) (level : Nat) : Calm β Unit := do
  let s ← self
  push (s.regs.gpr reg.RBP)
  let s ← self
  let frame := s.stackPtr
  whenever (0 < level) do
    displayLoop (level - 1)
    push frame
  writeRegOsize reg.RBP frame
  adjustSp (-alloc)

/-- C8. -/
def enterArm : Calm β U32 := do
  useStackOsize
  let alloc ← fetch16
  let level := (← fetch8) &&& 0x1F
  enter (alloc.setWidth 64) level.toNat
  return 10 + 4 * level.setWidth 32

/-- C9: LEAVE. -/
def leave : Calm β U32 := do
  useStackOsize
  let s ← self
  (if s.m64 then setReg64 reg.RSP (s.regs.gpr reg.RBP)
    else if (s.regs.seg reg.SS).db then
      setReg64 reg.RSP ((s.regs.reg32 reg.RBP).setWidth 64)
    else modifyHot (·.setReg16 reg.RSP (s.regs.reg16 reg.RBP)))
  let v ← pop
  writeRegOsize reg.RBP v
  return 4

-- ======== BCD, ports, control

/-- D4: AAM; a zero base sets its flags and then faults. -/
def aam : Calm β U32 := do
  legacyOnly
  let base ← fetch8
  let s ← self
  if base = 0 then do
    modifyFlags HotRegs.aamFault
    throw Exception.de
  else do
    modifyHot (HotRegs.aam base s.rex.isSome)
    return 17

/-- D5: AAD. -/
def aad : Calm β U32 := do
  legacyOnly
  let base ← fetch8
  let s ← self
  modifyHot (HotRegs.aad base s.rex.isSome)
  return 19

/-- D6: SALC. -/
def salc : Calm β U32 := do
  legacyOnly
  let s ← self
  setGpr8 reg.RAX (if s.regs.rflags.contains RFlags.CF then 0xFF else 0)
  return 3

/-- D7: XLAT. -/
def xlat : Calm β U32 := do
  let s ← self
  let bx := s.regs.regSized s.asize reg.RBX
  let off := (bx + (s.gpr8 reg.RAX).setWidth 64) &&& s.dataWrap
  let v ← read8 (s.segOr reg.DS) off
  setGpr8 reg.RAX v
  return 5

/-- D8–DF: coprocessor escapes. -/
def esc : Calm β U32 := do
  let s ← self
  raiseIf (s.regs.cr0 &&& (cr0.EM ||| cr0.TS) ≠ 0) Exception.nm
  let _ ← modrm
  return 2

/-- E0–E2: LOOPNE, LOOPE, LOOP. -/
def loop (opcode : U8) : Calm β U32 := do
  useBranchOsize
  let rel ← fetchSimm8
  let s ← self
  let c := s.countReg - 1
  setCountReg c
  let zf := s.regs.rflags.contains RFlags.ZF
  let go := c != 0
    && (if opcode = 0xE0 then !zf else if opcode = 0xE1 then zf else true)
  condJump go rel 11 11

/-- E3: JCXZ. -/
def jcxz : Calm β U32 := do
  useBranchOsize
  let rel ← fetchSimm8
  let s ← self
  condJump (s.countReg == 0) rel 9 5

/-- The port of an IN or OUT: the immediate byte, or DX. -/
def ioPort (imm : Bool) : Calm β U16 :=
  if imm then (·.setWidth 16) <$> fetch8
  else do
    let s ← self
    return s.regs.reg16 reg.RDX

/-- IN into AL, AX or EAX. -/
def inAcc (p : U16) : Calm β Unit := do
  let s ← self
  if s.osize = O16 then do
    ioCheck p 2
    let v ← ioRead16 p
    modifyHot (·.setReg16 0 v)
  else do
    ioCheck p 4
    let v ← ioRead32 p
    modifyHot (·.setReg32 0 v)

/-- OUT from AL, AX or EAX. -/
def outAcc (p : U16) : Calm β Unit := do
  let s ← self
  if s.osize = O16 then do
    ioCheck p 2
    ioWrite16 p (s.regs.reg16 0)
  else do
    ioCheck p 4
    ioWrite32 p (s.regs.reg32 0)

/-- E4, E5, EC, ED. -/
def inPort (opcode : U8) : Calm β U32 := do
  let imm := opcode &&& 8 == 0
  let p ← ioPort imm
  let cost : U32 := if imm then 12 else 13
  if opcode &&& 1 = 0 then do
    ioCheck p 1
    let v ← ioRead p
    setGpr8 reg.RAX v
    return cost
  else do
    inAcc p
    return cost

/-- E6, E7, EE, EF. -/
def outPort (opcode : U8) : Calm β U32 := do
  let imm := opcode &&& 8 == 0
  let p ← ioPort imm
  let cost : U32 := if imm then 10 else 11
  if opcode &&& 1 = 0 then do
    ioCheck p 1
    let s ← self
    ioWrite p (s.gpr8 reg.RAX)
    return cost
  else do
    outAcc p
    return cost

/-- E8. -/
def callRel : Calm β U32 := do
  useBranchOsize
  let rel ← fetchRel
  let s ← self
  push s.regs.rip
  jumpRel rel
  return 7

/-- E9, EB. -/
def jmpRel (opcode : U8) : Calm β U32 := do
  useBranchOsize
  let rel ← (if opcode = 0xE9 then fetchRel else fetchSimm8)
  jumpRel rel
  return 7

/-- 9B: WAIT. -/
def wait : Calm β U32 := do
  let s ← self
  raiseIf (s.regs.cr0 &&& cr0.TS ≠ 0 ∧ s.regs.cr0 &&& cr0.MP ≠ 0) Exception.nm
  return 6

/-- F4. -/
def hlt : Calm β U32 := do
  let s ← self
  raiseIf (s.cpl ≠ 0) (Exception.gp 0)
  setHalted
  return 5

/-- CLI and STI trap above IOPL. -/
def ioplSensitive : Calm β Unit := do
  let s ← self
  raiseIf (s.regs.cr0 &&& cr0.PE ≠ 0 ∧ s.regs.rflags.iopl < s.cpl)
    (Exception.gp 0)

/-- FA. -/
def cli : Calm β U32 := do
  ioplSensitive
  modifyFlags (·.remove RFlags.IF)
  return 3

/-- FB: interrupts stay inhibited for one instruction. -/
def sti : Calm β U32 := do
  ioplSensitive
  modifyFlags (·.insert RFlags.IF)
  setEvent EVT_INHIBIT
  return 3

/-- F5, F8, F9, FC, FD. -/
def flagOp (g : RFlags → RFlags)
    (hg : ∀ f, (g f).vm = f.vm := by intro f; simp) : Calm β U32 := do
  modifyFlags g hg
  return 2

-- ======== groups F6–FF

/-- A RIP-relative operand moved past the immediate the decoder did not
know about. -/
def fixupRipRel (op : Operand) (n : U64) : Calm β Operand := do
  let s ← self
  match op with
  | .mem seg off => return .mem seg (if s.usedRipRel then off + n else off)
  | .reg i => return .reg i

/-- F6: TEST, NOT, NEG, MUL, IMUL, DIV, IDIV r/m8. -/
def group3b : Calm β U32 := do
  let (m, op) ← modrm
  let op ← (if m.sub ≤ 1 then fixupRipRel op 1 else pure op)
  lockCheck (op.isMem && (m.sub == 2 || m.sub == 3))
  let v ← readOp8 op
  let s ← self
  let rex := s.rex.isSome
  if m.sub ≤ 1 then do
    let b ← fetch8
    let _ ← withFlags (Alu.and v b)
    return op.cost 5 2
  else if m.sub = 2 then do
    writeOp8 op (~~~v)
    return op.cost 6 2
  else if m.sub = 3 then do
    let r ← withFlags (Alu.neg v)
    writeOp8 op r
    return op.cost 6 2
  else if m.sub = 4 then do
    modifyHot (HotRegs.mul8 v rex)
    return 12
  else if m.sub = 5 then do
    modifyHot (HotRegs.imul8 v rex)
    return 12
  else if m.sub = 6 then do
    divide (HotRegs.div8 v) (HotRegs.setDiv8 rex)
    return 17
  else do
    divide (HotRegs.idiv8 v) (HotRegs.setDiv8 rex)
    return 22

/-- MUL at the operand size. -/
def mulW (v : U64) : Calm β Unit := do
  let s ← self
  match s.osize with
  | O16 => modifyHot (HotRegs.mul16 (v.setWidth 16))
  | O32 => modifyHot (HotRegs.mul32 (v.setWidth 32))
  | O64 => modifyHot (HotRegs.mul64 v)

/-- One-operand IMUL at the operand size. -/
def imulW (v : U64) : Calm β Unit := do
  let s ← self
  match s.osize with
  | O16 => modifyHot (HotRegs.imul16 (v.setWidth 16))
  | O32 => modifyHot (HotRegs.imul32 (v.setWidth 32))
  | O64 => modifyHot (HotRegs.imul64 v)

/-- DIV at the operand size. -/
def divW (v : U64) : Calm β Unit := do
  let s ← self
  match s.osize with
  | O16 => divide (HotRegs.div16 (v.setWidth 16)) HotRegs.setDiv16
  | O32 => divide (HotRegs.div32 (v.setWidth 32)) HotRegs.setDiv32
  | O64 => divide (HotRegs.div64 v) HotRegs.setDiv64

/-- IDIV at the operand size. -/
def idivW (v : U64) : Calm β Unit := do
  let s ← self
  match s.osize with
  | O16 => divide (HotRegs.idiv16 (v.setWidth 16)) HotRegs.setDiv16
  | O32 => divide (HotRegs.idiv32 (v.setWidth 32)) HotRegs.setDiv32
  | O64 => divide (HotRegs.idiv64 v) HotRegs.setDiv64

/-- F7: the same group at the operand size. -/
def group3 : Calm β U32 := do
  let (m, op) ← modrm
  let s ← self
  let op ← (if m.sub ≤ 1 then fixupRipRel op (s.immBytes.setWidth 64) else pure op)
  lockCheck (op.isMem && (m.sub == 2 || m.sub == 3))
  let v ← readOp op
  if m.sub ≤ 1 then do
    let b ← fetchImm
    let _ ← alu 4 v b
    return op.cost 5 2
  else if m.sub = 2 then do
    writeOp op (~~~v)
    return op.cost 6 2
  else if m.sub = 3 then do
    let r ← unary Alu.neg v
    writeOp op r
    return op.cost 6 2
  else if m.sub = 4 then do
    mulW v
    return 20
  else if m.sub = 5 then do
    imulW v
    return 20
  else if m.sub = 6 then do
    divW v
    return 30
  else do
    idivW v
    return 35

/-- FE: INC and DEC r/m8. -/
def group4 : Calm β U32 := do
  let (m, op) ← modrm
  lockCheck (op.isMem && decide (m.sub < 2))
  raiseIf (1 < m.sub) Exception.ud
  let v ← readOp8 op
  let r ← (if m.sub = 0 then withFlags (Alu.inc v) else withFlags (Alu.dec v))
  writeOp8 op r
  return op.cost 6 2

/-- INC and DEC of an operand. -/
def incDecRm (m : ModRm) (op : Operand) : Calm β U32 := do
  let v ← readOp op
  let r ← (if m.sub = 0 then unary Alu.inc v else unary Alu.dec v)
  writeOp op r
  return op.cost 6 2

/-- CALL through an operand. -/
def callRm (op : Operand) : Calm β U32 := do
  useBranchOsize
  let v ← readOp op
  let s ← self
  push s.regs.rip
  setIp v
  return op.cost 10 7

/-- JMP through an operand. -/
def jmpRm (op : Operand) : Calm β U32 := do
  useBranchOsize
  let v ← readOp op
  setIp v
  return op.cost 10 7

/-- PUSH r/m reads at the stack's operand size. -/
def pushRm (op : Operand) : Calm β U32 := do
  useStackOsize
  let v ← readOp op
  push v
  return op.cost 5 2

/-- The calm members of group FF. -/
def group5Calm (m : ModRm) (op : Operand) : Calm β U32 :=
  if m.sub ≤ 1 then incDecRm m op
  else if m.sub = 2 then callRm op
  else if m.sub = 4 then jmpRm op
  else if m.sub = 6 then pushRm op
  else throw Exception.ud

/-- A far pointer in memory: offset at the operand size, then selector. -/
def readFarPointer (seg : U8) (off : U64) : Calm β (U16 × U64) := do
  let s ← self
  let dst ← readSized s.osize (.mem seg off)
  let sel ← read16 seg ((off + s.osize.bytes) &&& s.dataWrap)
  return (sel, dst)

/-- FF: INC, DEC, CALL, CALL far, JMP, JMP far, PUSH. -/
def group5 : Xfer β U32 := do
  let (m, op) ← modrm.lift
  (lockCheck (op.isMem && decide (m.sub < 2))).lift
  if m.sub = 3 then do
    let (seg, off) ← (memOperand op).lift
    let (sel, dst) ← (readFarPointer seg off).lift
    callFar sel dst
    return 22
  else if m.sub = 5 then do
    let (seg, off) ← (memOperand op).lift
    let (sel, dst) ← (readFarPointer seg off).lift
    jumpFar sel dst
    return 17
  else (group5Calm m op).lift

-- ======== segment-load arms

/-- Loading SS inhibits interrupts for one instruction. -/
def inhibitAfterSs (idx : U8) : Calm β Unit :=
  whenever (idx = reg.SS) (setEvent EVT_INHIBIT)

/-- 07, 17, 1F: POP of a segment register. -/
def popSregArm (opcode : U8) : Xfer β U32 := do
  legacyOnly.lift
  let v ← popSreg.lift
  let idx := opcode >>> 3
  loadSeg idx v
  (inhibitAfterSs idx).lift
  return 7

/-- 8E: MOV Sreg, r/m. -/
def movSregRm : Xfer β U32 := do
  let (m, op) ← modrm.lift
  raiseIf (m.sub = reg.CS ∨ 5 < m.sub) Exception.ud
  let v ← (readOp16 op).lift
  loadSeg m.sub v
  (inhibitAfterSs m.sub).lift
  return op.cost 5 2

/-- LDS, LES, LSS, LFS, LGS. -/
def loadFarPointer (sreg r seg : U8) (off : U64) : Xfer β Unit := do
  let (sel, dst) ← (readFarPointer seg off).lift
  loadSeg sreg sel
  (writeRegOsize r dst).lift
  (inhibitAfterSs sreg).lift

/-- C4, C5: LES and LDS. -/
def lesLds (opcode : U8) : Xfer β U32 := do
  legacyOnly.lift
  let (m, op) ← modrm.lift
  let (seg, off) ← (memOperand op).lift
  loadFarPointer (if opcode = 0xC4 then reg.ES else reg.DS) m.reg seg off
  return 7

/-- 9A, EA: far CALL and JMP to an immediate pointer. -/
def farImm (opcode : U8) : Xfer β U32 := do
  legacyOnly.lift
  let off ← fetchImm.lift
  let sel ← fetch16.lift
  if opcode = 0x9A then do
    callFar sel off
    return 17
  else do
    jumpFar sel off
    return 12

/-- CA, CB. -/
def retfArm (opcode : U8) : Xfer β U32 :=
  if opcode = 0xCB then retf 0
  else do
    let n ← fetch16.lift
    retf (n.setWidth 64)

/-- CD: INT n. -/
def intN : Xfer β U32 := do
  let v ← fetch8.lift
  v86Iopl.lift
  softwareInt v
  return 37

/-- CE: INTO. -/
def into : Xfer β U32 := do
  legacyOnly.lift
  let s ← self
  if s.regs.rflags.contains RFlags.OF then do
    softwareInt 4
    return 35
  else return 3

/-- CC, F1: INT3 and ICEBP. -/
def intFixed (vector : U8) : Xfer β U32 := do
  softwareInt vector
  return 33

-- ======== dispatch

/-- 00–3F: the ALU block. -/
def dispatchAlu (opcode : U8) : Calm β U32 :=
  let i := opcode >>> 3
  let form := opcode &&& 7
  if form = 0 then opRmR8 i (opcode ≠ 0x38)
  else if form = 1 then opRmR i (opcode ≠ 0x39)
  else if form = 2 then opRRm8 i (opcode ≠ 0x3A)
  else if form = 3 then opRRm i (opcode ≠ 0x3B)
  else if form = 4 then opAccImm8 i (opcode ≠ 0x3C)
  else if form = 5 then opAccImm i (opcode ≠ 0x3D)
  else if opcode = 0x27 then bcd HotRegs.daa
  else if opcode = 0x2F then bcd HotRegs.das
  else if opcode = 0x37 then bcd HotRegs.aaa
  else if opcode = 0x3F then bcd HotRegs.aas
  else if opcode ∈ ([0x06, 0x0E, 0x16, 0x1E] : List U8) then pushSreg opcode
  else throw Exception.ud

/-- 40–7F. -/
def dispatch40 (opcode : U8) : Calm β U32 :=
  if opcode < 0x50 then incDecReg opcode
  else if opcode < 0x58 then pushReg opcode
  else if opcode < 0x60 then popReg opcode
  else if opcode = 0x60 then pusha
  else if opcode = 0x61 then popa
  else if opcode = 0x62 then bound
  else if opcode = 0x63 then do
    let s ← self
    if s.m64 then movsxd else arpl
  else if opcode = 0x68 ∨ opcode = 0x6A then pushImm opcode
  else if opcode = 0x69 ∨ opcode = 0x6B then imulRmImm opcode
  else if opcode = 0x6C then stringOp (ins str8 1 ioRead) false
  else if opcode = 0x6D then insW
  else if opcode = 0x6E then stringOp (outs str8 1 ioWrite) false
  else if opcode = 0x6F then outsW
  else if 0x70 ≤ opcode then jccShort opcode
  else throw Exception.ud

/-- 80–BF, the segment-load and far arms apart. -/
def dispatch80 (opcode : U8) : Calm β U32 :=
  if opcode = 0x80 ∨ opcode = 0x82 then opGrpImm8 opcode
  else if opcode = 0x81 ∨ opcode = 0x83 then opGrpImm opcode
  else if opcode = 0x84 then opRmR8 4 false
  else if opcode = 0x85 then opRmR 4 false
  else if opcode = 0x86 then xchgRm8
  else if opcode = 0x87 then xchgRm
  else if opcode = 0x88 then movRmR8
  else if opcode = 0x89 then movRmR
  else if opcode = 0x8A then movRRm8
  else if opcode = 0x8B then movRRm
  else if opcode = 0x8C then movRmSreg
  else if opcode = 0x8D then lea
  else if opcode = 0x8F then popRm
  else if opcode < 0x98 then xchgAcc opcode
  else if opcode = 0x98 then cbw
  else if opcode = 0x99 then cwd
  else if opcode = 0x9B then wait
  else if opcode = 0x9C then pushf
  else if opcode = 0x9D then popf
  else if opcode = 0x9E then sahf
  else if opcode = 0x9F then lahf
  else if opcode < 0xA4 then movMoffs opcode
  else if opcode = 0xA4 then stringOp (movs str8) false
  else if opcode = 0xA5 then stringOpSized movs false
  else if opcode = 0xA6 then stringOp (cmps str8) true
  else if opcode = 0xA7 then stringOpSized cmps true
  else if opcode = 0xA8 then opAccImm8 4 false
  else if opcode = 0xA9 then opAccImm 4 false
  else if opcode = 0xAA then stringOp (stos str8) false
  else if opcode = 0xAB then stringOpSized stos false
  else if opcode = 0xAC then stringOp (lods str8) false
  else if opcode = 0xAD then stringOpSized lods false
  else if opcode = 0xAE then stringOp (scas str8) true
  else if opcode = 0xAF then stringOpSized scas true
  else if opcode < 0xB8 then movRegImm8 opcode
  else movRegImm opcode

/-- C0–FF, the segment-load, far and software-interrupt arms apart. -/
def dispatchC0 (opcode : U8) : Calm β U32 :=
  if opcode ∈ ([0xC0, 0xC1, 0xD0, 0xD1, 0xD2, 0xD3] : List U8)
    then shiftGroup opcode
  else if opcode = 0xC2 then retNearImm
  else if opcode = 0xC3 then retNear
  else if opcode = 0xC6 then movRmImm8
  else if opcode = 0xC7 then movRmImm
  else if opcode = 0xC8 then enterArm
  else if opcode = 0xC9 then leave
  else if opcode = 0xD4 then aam
  else if opcode = 0xD5 then aad
  else if opcode = 0xD6 then salc
  else if opcode = 0xD7 then xlat
  else if 0xD8 ≤ opcode ∧ opcode ≤ 0xDF then esc
  else if opcode ∈ ([0xE0, 0xE1, 0xE2] : List U8) then loop opcode
  else if opcode = 0xE3 then jcxz
  else if opcode ∈ ([0xE4, 0xE5, 0xEC, 0xED] : List U8) then inPort opcode
  else if opcode ∈ ([0xE6, 0xE7, 0xEE, 0xEF] : List U8) then outPort opcode
  else if opcode = 0xE8 then callRel
  else if opcode = 0xE9 ∨ opcode = 0xEB then jmpRel opcode
  else if opcode = 0xF4 then hlt
  else if opcode = 0xF5 then flagOp (·.toggle RFlags.CF)
  else if opcode = 0xF6 then group3b
  else if opcode = 0xF7 then group3
  else if opcode = 0xF8 then flagOp (·.remove RFlags.CF)
  else if opcode = 0xF9 then flagOp (·.insert RFlags.CF)
  else if opcode = 0xFA then cli
  else if opcode = 0xFB then sti
  else if opcode = 0xFC then flagOp (·.remove RFlags.DF)
  else if opcode = 0xFD then flagOp (·.insert RFlags.DF)
  else if opcode = 0xFE then group4
  else throw Exception.ud

/-- The calm one-byte opcodes. Prefix bytes never get here. -/
def dispatchCalm (opcode : U8) : Calm β U32 :=
  if opcode < 0x40 then dispatchAlu opcode
  else if opcode < 0x80 then dispatch40 opcode
  else if opcode < 0xC0 then dispatch80 opcode
  else dispatchC0 opcode

/-- The one-byte opcodes whose arms are not calm. -/
abbrev xferOpcodes : List U8 :=
  [0x07, 0x17, 0x1F, 0x8E, 0x9A, 0xC4, 0xC5, 0xCA, 0xCB,
    0xCC, 0xCD, 0xCE, 0xCF, 0xEA, 0xF1, 0xFF]

/-- The opcodes that may transfer control between segments. -/
def dispatchXfer (opcode : U8) : Xfer β U32 :=
  if opcode = 0x8E then movSregRm
  else if opcode = 0x9A ∨ opcode = 0xEA then farImm opcode
  else if opcode = 0xC4 ∨ opcode = 0xC5 then lesLds opcode
  else if opcode = 0xCA ∨ opcode = 0xCB then retfArm opcode
  else if opcode = 0xCC then intFixed 3
  else if opcode = 0xCD then intN
  else if opcode = 0xCE then into
  else if opcode = 0xCF then iret
  else if opcode = 0xF1 then intFixed 1
  else if opcode = 0xFF then group5
  else popSregArm opcode

end Remu.X64
