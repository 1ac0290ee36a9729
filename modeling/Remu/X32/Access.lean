/-
Segment-relative access, instruction fetch and the stack.

Every memory access of an instruction goes through `linAddr`: the
descriptor cache must be usable, of the right type and cover the access.
Instruction fetch checks the limit of CS only.
-/
import Remu.X32.Linear

namespace Remu.X32

variable {β : Type} [Bus β]

-- ======== segments

/-- The fault of an access through segment `seg`. -/
def segFault (seg : U8) : Exception :=
  if seg = reg.SS then Exception.ss 0 else Exception.gp 0

namespace Cpu

/-- The descriptor-cache checks of an access: usable, right type, within
the limit. -/
def eaOk (c : Cpu) (seg : U8) (off : U32) (size : Nat) (write : Bool) : Bool :=
  let s := c.regs.seg seg
  let last := off.toNat + (size - 1)
  let typeOk :=
    if write then s.attrs &&& 0x1A == 0x12 else s.attrs &&& 0x0A != 0x08
  let rangeOk :=
    if s.expandDown then
      let top := if s.db then 0xFFFFFFFF else 0xFFFF
      decide (s.limit.toNat < off.toNat) && decide (last ≤ top)
    else decide (last ≤ s.limit.toNat)
  s.attrs &&& 0x80 != 0 && typeOk && rangeOk

/-- The linear address of an access, or its fault. -/
def linAddr (c : Cpu) (seg : U8) (off : U32) (size : Nat) (write : Bool) :
    Except Exception U32 :=
  if c.eaOk seg off size write then .ok ((c.regs.seg seg).base + off)
  else .error (segFault seg)

/-- Whether the byte at offset `off` of CS may be fetched. -/
def fetchOk (c : Cpu) (off : U32) : Bool :=
  decide (off ≤ (c.regs.seg reg.CS).limit)

/-- The linear address EIP names. -/
def fetchLin (c : Cpu) : U32 := (c.regs.seg reg.CS).base + c.regs.eip

end Cpu

def linAddr (seg : U8) (off : U32) (size : Nat) (write : Bool) : Calm β U32 := do
  let s ← self
  check (s.linAddr seg off size write)

def read8 (seg : U8) (off : U32) : Calm β U8 := do
  let lin ← linAddr seg off 1 false
  linRead8 lin

def read16 (seg : U8) (off : U32) : Calm β U16 := do
  let lin ← linAddr seg off 2 false
  linRead16 lin

def read32 (seg : U8) (off : U32) : Calm β U32 := do
  let lin ← linAddr seg off 4 false
  linRead32 lin

def write8 (seg : U8) (off : U32) (v : U8) : Calm β Unit := do
  let lin ← linAddr seg off 1 true
  linWrite8 lin v

def write16 (seg : U8) (off : U32) (v : U16) : Calm β Unit := do
  let lin ← linAddr seg off 2 true
  linWrite16 lin v

def write32 (seg : U8) (off : U32) (v : U32) : Calm β Unit := do
  let lin ← linAddr seg off 4 true
  linWrite32 lin v

-- ======== instruction fetch

/-- Fetch one instruction byte, within the 15-byte limit. -/
def fetch8 : Calm β U8 := do
  let s ← self
  raiseIf (15 ≤ s.ilen) Exception.ud
  modifyDecode fun d => { d with ilen := d.ilen + 1 }
  let s ← self
  raiseIf (!s.fetchOk s.regs.eip) (Exception.gp 0)
  let b ← linRead8 s.fetchLin
  modifyHot fun r => { r with eip := r.eip + 1 }
  return b

def fetch16 : Calm β U16 := readHalves fetch8 fetch8
def fetch32 : Calm β U32 := readHalves fetch16 fetch16

/-- An immediate at the operand size; a word is zero-extended. -/
def fetchImm : Calm β U32 := do
  let s ← self
  if s.osize32 then fetch32 else (·.setWidth 32) <$> fetch16

/-- A sign-extended byte. -/
def fetchSimm8 : Calm β U32 := (·.signExtend 32) <$> fetch8

-- ======== stack

namespace Cpu

/-- ESP moved by `delta` at the stack's address size. -/
def movedSp (c : Cpu) (delta : U32) : U32 :=
  let r := c.regs.gpr reg.ESP
  if (c.regs.seg reg.SS).db then r + delta
  else (r &&& 0xFFFF0000)
    ||| (r.setWidth 16 + delta.setWidth 16 : U16).setWidth 32

/-- The offset of the next datum of `n` bytes pushed. -/
def pushOff (c : Cpu) (n : U32) : U32 := (c.stackPtr - n) &&& c.stackWrap

end Cpu

def adjustSp (delta : U32) : Calm β Unit := do
  let s ← self
  setReg32 reg.ESP (s.movedSp delta)

def push16 (v : U16) : Calm β Unit := do
  let s ← self
  write16 reg.SS (s.pushOff 2) v
  adjustSp (-2)

def push32 (v : U32) : Calm β Unit := do
  let s ← self
  write32 reg.SS (s.pushOff 4) v
  adjustSp (-4)

/-- Push a doubleword or a word. -/
def pushWidth (wide : Bool) (v : U32) : Calm β Unit :=
  if wide then push32 v else push16 (v.setWidth 16)

/-- Push at the operand size. -/
def push (v : U32) : Calm β Unit := do
  let s ← self
  pushWidth s.osize32 v

def pop16 : Calm β U16 := do
  let s ← self
  let v ← read16 reg.SS s.stackPtr
  adjustSp 2
  return v

def pop32 : Calm β U32 := do
  let s ← self
  let v ← read32 reg.SS s.stackPtr
  adjustSp 4
  return v

/-- Pop at the operand size, zero-extended. -/
def pop : Calm β U32 := do
  let s ← self
  if s.osize32 then pop32 else (·.setWidth 32) <$> pop16

/-- Pop a segment selector: 16 bits read, a full stack slot released. -/
def popSreg : Calm β U16 := do
  let s ← self
  let v ← read16 reg.SS s.stackPtr
  let s ← self
  adjustSp (if s.osize32 then 4 else 2)
  return v

end Remu.X32
