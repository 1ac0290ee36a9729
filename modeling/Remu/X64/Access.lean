/-
Segment-relative access, instruction fetch and the stack.

Every memory access of an instruction goes through `linAddr`: legacy modes
apply the segment limit and type checks, 64-bit mode ignores limits,
treats the CS, DS, ES and SS bases as zero, keeps those of FS and GS, and
requires canonical addresses.
-/
import Remu.X64.Linear

namespace Remu.X64

variable {β : Type} [Bus β]

-- ======== segments

/-- The fault of an access through segment `seg`. -/
def segFault (seg : U8) : Exception :=
  if seg = reg.SS then Exception.ss 0 else Exception.gp 0

namespace Cpu

/-- The descriptor-cache checks of a legacy-mode access: usable, right
type, within the limit. -/
def eaOk (c : Cpu) (seg : U8) (off : U32) (size : Nat) (write : Bool) : Bool :=
  let s := c.regs.seg seg
  let last := off.toNat + (size - 1)
  let typeOk :=
    if write then s.attrs &&& 0x1A == 0x12 else s.attrs &&& 0x0A != 0x08
  let rangeOk :=
    if s.expandDown then
      let top := if s.db then 0xFFFFFFFF else 0xFFFF
      decide (s.limit.toNat < off.toNat) && decide (last ≤ top)
    else decide (last ≤ s.limit.toNat)
  s.attrs &&& 0x80 != 0 && typeOk && rangeOk

/-- The linear address of an access, or its fault. -/
def linAddr (c : Cpu) (seg : U8) (off : U64) (size : Nat) (write : Bool) :
    Except Exception U64 :=
  if c.m64 then
    let base := if seg = reg.FS
      ∨ seg = reg.GS then (c.regs.seg seg).base else 0
    let lin := base + off
    let last := lin + BitVec.ofNat 64 (size - 1)
    if canonical lin && canonical last then .ok lin else .error (segFault seg)
  else if c.eaOk seg (off.setWidth 32) size write then
    .ok (((c.regs.seg seg).base.setWidth 32 + off.setWidth 32).setWidth 64)
  else .error (segFault seg)

/-- Whether the byte at offset `off` of CS may be fetched. -/
def fetchOk (c : Cpu) (off : U64) : Bool :=
  let cs := c.regs.seg reg.CS
  if c.m64 then canonical (cs.base + off)
    else decide (off.toNat ≤ cs.limit.toNat)

/-- The linear address RIP names. -/
def fetchLin (c : Cpu) : U64 :=
  let lin := (c.regs.seg reg.CS).base + c.regs.rip
  if c.m64 then lin else lin &&& 0xFFFFFFFF

end Cpu

def linAddr (seg : U8) (off : U64) (size : Nat) (write : Bool) : Calm β U64 := do
  let s ← self
  check (s.linAddr seg off size write)

/-- An access is checked and translated to a linear address without moving
anything. -/
theorem run_linAddr (seg : U8) (off : U64) (size : Nat)
    (write : Bool) (s : Machine β) :
    (linAddr seg off size write).run s
      = (s.linAddr seg off size write, s) := by
  rw [linAddr, Bounded.run_bind, Fallible.bind_of_ok (run_self s), run_check]

/-- A load, by segment and offset. -/
def read8 (seg : U8) (off : U64) : Calm β U8 := do
  let lin ← linAddr seg off 1 false
  linRead8 lin

def read16 (seg : U8) (off : U64) : Calm β U16 := do
  let lin ← linAddr seg off 2 false
  linRead16 lin

def read32 (seg : U8) (off : U64) : Calm β U32 := do
  let lin ← linAddr seg off 4 false
  linRead32 lin

def read64 (seg : U8) (off : U64) : Calm β U64 := do
  let lin ← linAddr seg off 8 false
  linRead64 lin

/-- A store, by segment and offset. -/
def write8 (seg : U8) (off : U64) (v : U8) : Calm β Unit := do
  let lin ← linAddr seg off 1 true
  linWrite8 lin v

def write16 (seg : U8) (off : U64) (v : U16) : Calm β Unit := do
  let lin ← linAddr seg off 2 true
  linWrite16 lin v

def write32 (seg : U8) (off : U64) (v : U32) : Calm β Unit := do
  let lin ← linAddr seg off 4 true
  linWrite32 lin v

def write64 (seg : U8) (off : U64) (v : U64) : Calm β Unit := do
  let lin ← linAddr seg off 8 true
  linWrite64 lin v

-- ======== instruction fetch

/-- Fill the fetch-translation cache. Only a fetch under paging does. -/
def fetchFill (tag page : U64) (hpage : page &&& ~~~PHYS_MASK = 0) :
    Calm β Unit where
  run := fun s =>
    if s.paging then (.ok (), { s with fetchTag := tag, fetchPage := page })
    else (.ok (), s)
  bound := fun s => by
    by_cases hp : s.paging = true
    · rw [if_pos hp]
      exact .single (.fetchFill s tag page hp hpage)
    · rw [if_neg hp]

/-- A fetch whose page is not the cached one: translate and remember. -/
def fetchMiss (lin : U64) : Calm β U8 := do
  let phys ← fetchTranslate lin
  fetchFill (lin >>> 12) (phys.val &&& ~~~0xFFF) (page_framed phys.low)
  busRead phys.val

/-- The byte at a checked fetch address. -/
def fetchByte (lin : U64) : Calm β U8 := do
  let s ← self
  if !s.paging then busRead lin
  else if lin >>> 12 = s.fetchTag
    then busRead (s.fetchPage ||| (lin &&& 0xFFF))
  else fetchMiss lin

/-- A fetch fills the fetch page: memory and caches only. -/
theorem MemOnly.fetchByte (lin : U64) :
    MemOnly (fetchByte lin : Calm β U8) := by
  unfold X64.fetchByte
  refine MemOnly.self.bind fun s => ?_
  split
  · exact .touchBus _ _
  split
  · exact .touchBus _ _
  · refine (MemOnly.translate _ _).bind fun phys =>
      MemOnly.bind ?_ fun _ => .touchBus _ _
    intro s _ s' h
    unfold fetchFill at h
    dsimp only at h
    split at h <;> cases h <;> exact ⟨rfl, rfl⟩

/-- Fetch one instruction byte. -/
def fetch8 : Calm β U8 := do
  let s ← self
  raiseIf (15 ≤ s.ilen) Exception.ud
  modifyDecode fun d => { d with ilen := d.ilen + 1 }
  let s ← self
  raiseIf (!s.fetchOk s.regs.rip) (Exception.gp 0)
  let b ← fetchByte s.fetchLin
  modifyHot fun r => { r with rip := r.rip + 1 }
  return b

/-- The conditions under which `n` bytes are fetched at once from the
cached page. -/
def Cpu.fetchWideOk (c : Cpu) (n : U8) : Bool :=
  let lin := c.fetchLin
  let within := decide ((lin &&& 0xFFF).toNat ≤ 0x1000 - n.toNat)
  let rangeOk :=
    if c.m64 then canonical lin
    else decide ((c.regs.rip + (n.setWidth 64 - 1)).toNat
      ≤ (c.regs.seg reg.CS).limit.toNat)
  lin >>> 12 == c.fetchTag && within && decide (c.ilen ≤ 15 - n) && rangeOk

/-- `n` bytes in one bus access, or `none` to fall back on halves. -/
def fetchWide {α : Type} (n : U8) (rd : U64 → Calm β α) : Calm β (Option α) := do
  let s ← self
  if !s.fetchWideOk n then return none
  let v ← rd (s.fetchPage ||| (s.fetchLin &&& 0xFFF))
  modifyDecode fun d => { d with ilen := d.ilen + n }
  setRip (s.regs.rip + n.setWidth 64)
  return some v

/-- A wide fetch when the page allows it, else its two halves in order. -/
def fetchOr {w : Nat} (wide : Calm β (Option (BitVec (w + w))))
    (half : Calm β (BitVec w)) : Calm β (BitVec (w + w)) := do
  let v ← wide
  match v with
  | some v => pure v
  | none => readHalves half half

/-- A word of the instruction; past the page, byte by byte. -/
def fetch16 : Calm β U16 := fetchOr (fetchWide 2 busRead16) fetch8
def fetch32 : Calm β U32 := fetchOr (fetchWide 4 busRead32) fetch16
def fetch64 : Calm β U64 := fetchOr (fetchWide 8 busRead64) fetch32

/-- An immediate at operand size `z`; a 32-bit one sign-extends to 64. -/
def fetchImmAt (z : OpSize) : Calm β U64 :=
  match z with
  | O16 => (·.setWidth 64) <$> fetch16
  | O32 => (·.setWidth 64) <$> fetch32
  | O64 => (·.signExtend 64) <$> fetch32

/-- An immediate at the effective operand size. -/
def fetchImm : Calm β U64 := do
  let s ← self
  fetchImmAt s.osize

/-- A sign-extended byte. -/
def fetchSimm8 : Calm β U64 := (·.signExtend 64) <$> fetch8

-- ======== stack

namespace Cpu

/-- RSP moved by `delta` at the stack's address size. -/
def movedSp (c : Cpu) (delta : U64) : U64 :=
  let r := c.regs.gpr reg.RSP
  if c.m64 then r + delta
  else if (c.regs.seg reg.SS).db then
    (r.setWidth 32 + delta.setWidth 32 : U32).setWidth 64
  else (r &&& ~~~0xFFFF) ||| (r.setWidth 16 + delta.setWidth 16 : U16).setWidth 64

end Cpu

/-- Move the stack pointer at the stack's width. -/
def adjustSp (delta : U64) : Calm β Unit := do
  let s ← self
  setReg64 reg.RSP (s.movedSp delta)

/-- The offset of the next datum of `n` bytes pushed. -/
def Cpu.pushOff (c : Cpu) (n : U64) : U64 := (c.stackPtr - n) &&& c.stackWrap

/-- Push, by width: store first, then move. -/
def push16 (v : U16) : Calm β Unit := do
  let s ← self
  write16 reg.SS (s.pushOff 2) v
  adjustSp (-2)

def push32 (v : U32) : Calm β Unit := do
  let s ← self
  write32 reg.SS (s.pushOff 4) v
  adjustSp (-4)

def push64 (v : U64) : Calm β Unit := do
  let s ← self
  write64 reg.SS (s.pushOff 8) v
  adjustSp (-8)

/-- Push at operand size `z`. -/
def pushSized (z : OpSize) (v : U64) : Calm β Unit :=
  match z with
  | O16 => push16 (v.setWidth 16)
  | O32 => push32 (v.setWidth 32)
  | O64 => push64 v

/-- Push at the stack's operand size. -/
def push (v : U64) : Calm β Unit := do
  let s ← self
  pushSized s.stackOsize v

/-- Push at the operand size. -/
def pushOp (v : U64) : Calm β Unit := do
  let s ← self
  pushSized s.osize v

/-- Pop, by width: load first, then move. -/
def pop16 : Calm β U16 := do
  let s ← self
  let v ← read16 reg.SS s.stackPtr
  adjustSp 2
  return v

def pop32 : Calm β U32 := do
  let s ← self
  let v ← read32 reg.SS s.stackPtr
  adjustSp 4
  return v

def pop64 : Calm β U64 := do
  let s ← self
  let v ← read64 reg.SS s.stackPtr
  adjustSp 8
  return v

/-- Pop at an operand size. -/
def popSized (z : OpSize) : Calm β U64 :=
  match z with
  | O16 => (·.setWidth 64) <$> pop16
  | O32 => (·.setWidth 64) <$> pop32
  | O64 => pop64

/-- Pop at the stack operand size. -/
def pop : Calm β U64 := do
  let s ← self
  popSized s.stackOsize

def popOp : Calm β U64 := do
  let s ← self
  popSized s.osize

/-- The bytes of a size, as a word. -/
def OpSize.bytes : OpSize → U64
  | O16 => 2
  | O32 => 4
  | O64 => 8

/-- Pop a segment selector: 16 bits read, a full stack slot released. -/
def popSreg : Calm β U16 := do
  let s ← self
  let v ← read16 reg.SS s.stackPtr
  let s ← self
  adjustSp s.stackOsize.bytes
  return v

end Remu.X64
