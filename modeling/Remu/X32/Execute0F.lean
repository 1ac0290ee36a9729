/-
The two-byte (0F) opcode map: system instructions, bit operations,
MOVZX/MOVSX, SETcc, double shifts, long jumps, and the opt-in post-386
opcodes.

As in the one-byte map, the arms are split by effect: `dispatch0FCalm`,
and `dispatch0FXfer` for the segment loads and the writers of control,
debug, test and table registers.
-/
import Remu.X32.Execute

namespace Remu.X32

variable {β : Type} [Bus β]

-- ======== helpers

/-- Fetch a ModRM byte whose mod field is ignored: `rm` is a register. -/
def modrmRegOnly : Calm β ModRm := do
  let byte ← fetch8
  return ⟨byte⟩

/-- #GP above CPL 0 (real mode is CPL 0). -/
def requireRing0 : Calm β Unit := do
  let s ← self
  raiseIf (s.regs.cr0 &&& cr0.PE ≠ 0 ∧ s.cpl ≠ 0) (Exception.gp 0)

/-- The debug register a reg field names; DR4 and DR5 alias DR6 and DR7. -/
def drIndex (sub : U8) : U8 :=
  if sub = 4 then 6 else if sub = 5 then 7 else sub

-- ======== control, debug and test register moves

/-- 20: MOV r, CRn. -/
def movRCr : Calm β U32 := do
  requireRing0
  let m ← modrmRegOnly
  let s ← self
  let v ← (if m.reg = 0 then pure s.regs.cr0
    else if m.reg = 2 then pure s.regs.cr2
    else if m.reg = 3 then pure s.regs.cr3
    else throw Exception.ud)
  setReg32 m.rm v
  return 6

/-- A CR0 image that enables paging without protection. -/
def pagedUnprotected (v : U32) : Prop := v &&& cr0.PG ≠ 0 ∧ v &&& cr0.PE = 0

instance instDecidablePagedUnprotected (v : U32) :
    Decidable (pagedUnprotected v) :=
  inferInstanceAs (Decidable (_ ∧ _))

/-- MOV to a control register; CR0 and CR3 flush the TLB. -/
def writeCr (n : U8) (v : U32) : Warm β Unit :=
  if n = 0 then do
    raiseIf (pagedUnprotected v) (Exception.gp 0)
    warmWrite ({ · with cr0 := v })
    flushTlb.lift
  else if n = 2 then (setCr2 v).lift
  else if n = 3 then do
    warmWrite ({ · with cr3 := v })
    flushTlb.lift
  else throw Exception.ud

/-- 22: MOV CRn, r. -/
def movCrR : Xfer β U32 := do
  requireRing0.lift
  prepared do
    let m ← modrmRegOnly.lift
    let s ← self
    writeCr m.reg (s.regs.reg32 m.rm)
    return 10

/-- 21: MOV r, DRn. -/
def movRDr : Calm β U32 := do
  requireRing0
  let m ← modrmRegOnly
  let s ← self
  setReg32 m.rm (s.regs.dr (drIndex m.reg))
  return 14

/-- 23: MOV DRn, r. -/
def movDrR : Xfer β U32 := do
  requireRing0.lift
  prepared do
    let m ← modrmRegOnly.lift
    let s ← self
    let v := s.regs.reg32 m.rm
    warmWrite fun r => { r with dr := upd r.dr (drIndex m.reg) v }
    return 16

/-- 24: MOV r, TRn. -/
def movRTr : Calm β U32 := do
  requireRing0
  let m ← modrmRegOnly
  let s ← self
  let v ← (if m.reg = 6 then pure s.regs.tr6
    else if m.reg = 7 then pure s.regs.tr7
    else throw Exception.ud)
  setReg32 m.rm v
  return 12

/-- 26: MOV TRn, r. -/
def movTrR : Xfer β U32 := do
  requireRing0.lift
  prepared do
    let m ← modrmRegOnly.lift
    let s ← self
    let v := s.regs.reg32 m.rm
    (if m.reg = 6 then warmWrite ({ · with tr6 := v })
      else if m.reg = 7 then warmWrite ({ · with tr7 := v })
      else throw Exception.ud)
    return 12

/-- 06: CLTS. -/
def clts : Xfer β U32 := do
  requireRing0.lift
  coldWrite fun r => { r with cr0 := r.cr0 &&& ~~~cr0.TS }
  return 5

-- ======== conditionals, widening

/-- 80–8F. -/
def jccNear (opcode : U8) : Calm β U32 := do
  let rel ← fetchRel
  let s ← self
  condJump (s.regs.eflags.cond (opcode &&& 0xF)) rel 7 3

/-- 90–9F. -/
def setcc (opcode : U8) : Calm β U32 := do
  let (_, op) ← modrm
  let s ← self
  writeOp8 op (if s.regs.eflags.cond (opcode &&& 0xF) then 1 else 0)
  return 4

/-- A0, A8: PUSH FS and GS. -/
def pushFsGs (opcode : U8) : Calm β U32 := do
  let s ← self
  push ((s.regs.segSel (if opcode = 0xA0 then reg.FS else reg.GS)).setWidth 32)
  return 2

/-- A1, A9: POP FS and GS. -/
def popFsGs (opcode : U8) : Xfer β U32 := do
  let v ← popSreg.lift
  loadSeg (if opcode = 0xA1 then reg.FS else reg.GS) v
  return 7

/-- A source of MOVZX and MOVSX. -/
def readWiden (opcode : U8) (op : Operand) : Calm β U32 :=
  if opcode = 0xB6 then (·.setWidth 32) <$> readOp8 op
  else if opcode = 0xB7 then (·.setWidth 32) <$> readOp16 op
  else if opcode = 0xBE then (·.signExtend 32) <$> readOp8 op
  else (·.signExtend 32) <$> readOp16 op

/-- B6, B7, BE, BF. -/
def movWiden (opcode : U8) : Calm β U32 := do
  let (m, op) ← modrm
  let v ← readWiden opcode op
  writeReg m.reg v
  return op.cost 6 3

/-- AF. -/
def imulRRm : Calm β U32 := do
  let (m, op) ← modrm
  let src ← readOp op
  let s ← self
  let r ← imulTrunc (s.regOp m.reg) src
  writeReg m.reg r
  return op.cost 22 20

-- ======== bit tests

/-- The bit-index mask of an operand size. -/
def bitMask (wide : Bool) : U32 := if wide then 31 else 15

/-- BT and its relatives route the operand through the rotator: CF is bit 0
of the rotation, OF the change between its top two bits. -/
def Alu.bitTest {w : Nat} (v : BitVec w) (bit : Nat) (f : EFlags) :
    BitVec w × EFlags :=
  let t := v.rotateRight bit
  (t, (f.set EFlags.CF (t.getLsbD 0)).set EFlags.OF (t ^^^ (t <<< 1)).msb)

@[simp] theorem Alu.vm_bitTest {w : Nat} (v : BitVec w)
    (bit : Nat) (f : EFlags) :
    (Alu.bitTest v bit f).2.vm = f.vm := by
  simp [Alu.bitTest]

/-- BT, BTS, BTR and BTC (`sub` 0–3) of one bit. -/
def btApply (op : Operand) (sub : U8) (bit : U32) : Calm β U32 := do
  lockCheck (op.isMem && sub != 0)
  let v ← readOp op
  let s ← self
  let _ ← onWidth s.osize32 (Alu.bitTest · bit.toNat)
    (Alu.bitTest · bit.toNat) v
  let mask : U32 := 1 <<< bit.toNat
  whenever (sub ≠ 0) (writeOp op
    (if sub = 1 then v ||| mask else if sub = 2 then v &&& ~~~mask else v ^^^ mask))
  return op.cost 8 4

/-- A register sign-extended from the operand size. -/
def HotRegs.signedSized (r : HotRegs) (wide : Bool) (i : U8) : U32 :=
  if wide then r.reg32 i else (r.reg16 i).signExtend 32

/-- The byte displacement of the element a bit index reaches. -/
def bitDisp (wide : Bool) (idx : U32) : U32 :=
  if wide then idx.sshiftRight 5 * 4 else idx.sshiftRight 4 * 2

/-- A3, AB, B3, BB: a memory bit string is indexed past the operand. -/
def btRegIndex (sub : U8) : Calm β U32 := do
  let (m, op) ← modrm
  let s ← self
  let idx := s.regs.signedSized s.osize32 m.reg
  let bit := idx &&& bitMask s.osize32
  match op with
  | .reg i => btApply (.reg i) sub bit
  | .mem seg off =>
    btApply (.mem seg ((off + bitDisp s.osize32 idx) &&& s.dataWrap)) sub bit

/-- BA: group 8. -/
def group8 : Calm β U32 := do
  let (m, op) ← modrm
  raiseIf (m.reg < 4) Exception.ud
  let imm ← fetch8
  let s ← self
  btApply op (m.reg - 4) (imm.setWidth 32 &&& bitMask s.osize32)

-- ======== bit scans

namespace Alu

open EFlags

variable {w : Nat}

/-- The flags of a scan that finds nothing. -/
def scanZero (f : EFlags) : EFlags :=
  (f.remove (CF ||| OF ||| AF ||| SF)).insert (ZF ||| PF)

/-- BSF: without a scan step the flags carry the signature of the internal
negate. -/
def bsf (src : BitVec w) (f : EFlags) : BitVec w × EFlags :=
  let idx := src.ctz
  let f := f.remove ZF
  (idx, if idx = 0 then
      ((((f.insert AF).set CF (src.getLsbD 1)).set OF src.msb).set SF
        (!src.msb)).set PF
        (EFlags.evenParity ((-src).setWidth 8))
    else (f.remove (CF ||| OF ||| AF ||| SF)).set PF
      (EFlags.evenParity (idx.setWidth 8)))

/-- BSR: CF and OF come from the bits below the found one, aligned to the
top. -/
def bsr (src : BitVec w) (f : EFlags) : BitVec w × EFlags :=
  let idx := BitVec.ofNat w (w - 1) - src.clz
  let a := src <<< src.clz
  let ovf := decide (idx = 0) || (a.getLsbD (w - 2) != a.getLsbD (w - 3))
  (idx, (((((f.remove ZF).set SF (-src).msb).set CF (a.getLsbD (w - 2))).set OF ovf).set PF
      (EFlags.evenParity ((-src).setWidth 8))).set AF (src &&& 0xF != 0))

@[simp] theorem vm_bsf (src : BitVec w) (f : EFlags) :
    (bsf src f).2.vm = f.vm := by
  unfold bsf
  dsimp only
  split <;> simp

@[simp] theorem vm_bsr (src : BitVec w) (f : EFlags) :
    (bsr src f).2.vm = f.vm := by
  simp [bsr]

@[simp] theorem vm_scanZero (f : EFlags) : (scanZero f).vm = f.vm := by
  simp [scanZero]

end Alu

/-- BC, BD: BSF and BSR; a zero source leaves the destination. -/
def bitScan (opcode : U8) : Calm β U32 := do
  let (m, op) ← modrm
  let src ← readOp op
  if src = 0 then do
    modifyFlags Alu.scanZero
    return 11
  else do
    let s ← self
    let idx ← (if opcode = 0xBC then onWidth s.osize32 Alu.bsf Alu.bsf src
      else onWidth s.osize32 Alu.bsr Alu.bsr src)
    writeReg m.reg idx
    return 11

-- ======== double shifts

namespace Alu

open EFlags

/-- AF is always set, SF, ZF and PF follow the result. -/
def shxdFlags {w : Nat} (cf ovf : Bool) (r : BitVec w) (f : EFlags) :
    BitVec w × EFlags :=
  (r, (((f.set CF cf).set OF ovf).insert AF).setSzp r)

/-- SHRD of a doubleword by `k ≤ 31`. -/
def shrdStep32 (dst src : U32) (k : Nat) : U32 :=
  if k = 0 then dst else (dst >>> k) ||| (src <<< (32 - k))

/-- SHRD of a doubleword by `n ≥ 1`: OF is a change of sign in the last step. -/
def shrd32 (dst src : U32) (n : Nat) : EFlags → U32 × EFlags :=
  let r := shrdStep32 dst src n
  let prev := if n = 1 then dst else (dst >>> (n - 1)) ||| (src <<< (33 - n))
  shxdFlags (dst.getLsbD (n - 1)) (r ^^^ prev).msb r

/-- SHLD of a doubleword by `n ≥ 1`: OF is the sign against the bit shifted out. -/
def shld32 (dst src : U32) (n : Nat) : EFlags → U32 × EFlags :=
  let r := (dst <<< n) ||| (src >>> (32 - n))
  let cf := dst.getLsbD (32 - n)
  shxdFlags cf (r.msb != cf) r

/-- SHRD of a word by `k ≤ 31`: past the word it keeps pulling source bits. -/
def shrdStep16 (dst src : U16) (k : Nat) : U16 :=
  let d : U32 := dst.setWidth 32
  let s : U32 := src.setWidth 32
  if k = 0 then dst
  else if k ≤ 16 then (d >>> k).setWidth 16 ||| (s <<< (16 - k)).setWidth 16
  else (src >>> (k - 16)) ||| (s <<< (32 - k)).setWidth 16

def shrd16 (dst src : U16) (n : Nat) : EFlags → U16 × EFlags :=
  let r := shrdStep16 dst src n
  let cf := if n ≤ 16 then dst.getLsbD (n - 1) else src.getLsbD (n - 17)
  shxdFlags cf (r ^^^ shrdStep16 dst src (n - 1)).msb r

/-- SHLD of a word by `k ≤ 31`: the result and the last bit out. -/
def shldStep16 (dst src : U16) (k : Nat) : U16 × Bool :=
  let d : U32 := dst.setWidth 32
  let s : U32 := src.setWidth 32
  if k ≤ 16 then
    let r : U16 := ((d <<< k) ||| (s >>> min (16 - k) 31)).setWidth 16
    (if k = 16 then src else r, d.getLsbD (16 - k))
  else (((s <<< (k - 16)) ||| (s >>> (32 - k))).setWidth 16,
    src.getLsbD (32 - k))

def shld16 (dst src : U16) (n : Nat) : EFlags → U16 × EFlags :=
  let (r, cf) := shldStep16 dst src n
  shxdFlags cf (r.msb != cf) r

def shxd32 (right : Bool) (dst src : U32) (n : Nat) : EFlags → U32 × EFlags :=
  if right then shrd32 dst src n else shld32 dst src n

def shxd16 (right : Bool) (dst src : U16) (n : Nat) : EFlags → U16 × EFlags :=
  if right then shrd16 dst src n else shld16 dst src n

@[simp] theorem vm_shxdFlags {w : Nat} (cf ovf : Bool)
    (r : BitVec w) (f : EFlags) :
    (shxdFlags cf ovf r f).2.vm = f.vm := by simp [shxdFlags]

@[simp] theorem vm_shxd32 (right : Bool) (dst src : U32)
    (n : Nat) (f : EFlags) :
    (shxd32 right dst src n f).2.vm = f.vm := by
  cases right <;> simp [shxd32, shrd32, shld32]

@[simp] theorem vm_shxd16 (right : Bool) (dst src : U16)
    (n : Nat) (f : EFlags) :
    (shxd16 right dst src n f).2.vm = f.vm := by
  cases right <;> simp [shxd16, shrd16, shld16]

end Alu

/-- A4, A5, AC, AD: SHLD and SHRD. -/
def shxd (opcode : U8) : Calm β U32 := do
  let right := opcode &&& 8 != 0
  let s ← self
  let count : Option U32 :=
    if opcode &&& 1 = 0 then none else some ((s.regs.reg8 1).setWidth 32)
  let (m, op) ← modrm
  let dst ← readOp op
  let s ← self
  let src := s.regOp m.reg
  let c ← shiftCount count
  let n := (c &&& 31).toNat
  if n = 0 then return op.cost 7 3
  else do
    let r ← onWidth s.osize32 (Alu.shxd32 right · src n)
      (Alu.shxd16 right · (src.setWidth 16) n) dst
    writeOp op r
    return op.cost 7 3

-- ======== post-386 extensions

/-- 18–1F: hints and the long NOP. -/
def hint : Calm β U32 := do
  let _ ← modrm
  return 3

/-- 31: the time-stamp counter is the cycle count. -/
def rdtsc : Calm β U32 := do
  let s ← self
  setReg32 reg.EAX (s.cycles.setWidth 32)
  setReg32 reg.EDX ((s.cycles >>> 32).setWidth 32)
  return 5

/-- EAX, EBX, ECX and EDX of a CPUID leaf. -/
def cpuidLeaf (leaf : U32) : U32 × U32 × U32 × U32 :=
  if leaf = 0 then (1, 0x756e6547, 0x6c65746e, 0x49656e69)
  else if leaf = 1 then (0x511, 0, 0, 0x8011)
  else (0, 0, 0, 0)

/-- A2. -/
def cpuid : Calm β U32 := do
  let s ← self
  let (a, b, c, d) := cpuidLeaf (s.regs.reg32 reg.EAX)
  setReg32 reg.EAX a
  setReg32 reg.EBX b
  setReg32 reg.ECX c
  setReg32 reg.EDX d
  return 14

/-- C8–CF: BSWAP. -/
def bswap (opcode : U8) : Calm β U32 := do
  let s ← self
  let i := opcode &&& 7
  let v := s.regs.reg32 i
  let b (k : Nat) : U32 := (v >>> (8 * k)) &&& (0xFF : U32)
  setReg32 i ((b 0 <<< 24) ||| (b 1 <<< 16) ||| (b 2 <<< 8) ||| b 3)
  return 6

/-- 40–4F: the source is read whatever the condition. -/
def cmov (opcode : U8) : Calm β U32 := do
  let (m, op) ← modrm
  let v ← readOp op
  let s ← self
  whenever (s.regs.eflags.cond (opcode &&& 0xF)) (writeReg m.reg v)
  return op.cost 5 4

/-- B0: CMPXCHG r/m8. -/
def cmpxchg8 : Calm β U32 := do
  let (m, op) ← modrm
  lockCheck op.isMem
  let dest ← readOp8 op
  let s ← self
  let acc := s.regs.reg8 reg.EAX
  let _ ← withFlags (Alu.sub acc dest)
  (if acc = dest then writeOp8 op (s.regs.reg8 m.reg) else setReg8 reg.EAX dest)
  return op.cost 7 6

/-- B1: CMPXCHG r/m. -/
def cmpxchg : Calm β U32 := do
  let (m, op) ← modrm
  lockCheck op.isMem
  let dest ← readOp op
  let s ← self
  let _ ← alu 5 s.acc dest
  (if s.acc = dest then writeOp op (s.regOp m.reg) else setAcc dest)
  return op.cost 7 6

/-- C0: XADD r/m8. The register is written before the memory. -/
def xadd8 : Calm β U32 := do
  let (m, op) ← modrm
  lockCheck op.isMem
  let dest ← readOp8 op
  let s ← self
  let sum ← withFlags (Alu.add dest (s.regs.reg8 m.reg))
  setReg8 m.reg dest
  writeOp8 op sum
  return op.cost 7 6

/-- C1: XADD r/m. -/
def xadd : Calm β U32 := do
  let (m, op) ← modrm
  lockCheck op.isMem
  let dest ← readOp op
  let s ← self
  let sum ← alu 0 dest (s.regOp m.reg)
  writeReg m.reg dest
  writeOp op sum
  return op.cost 7 6

-- ======== descriptor queries

/-- A descriptor, or `none` where reading it faults: the query
instructions report a bad selector in ZF. CR2 keeps a page fault's
address. -/
def tryDescriptor (sel : U16) : Calm β (Option Descriptor) :=
  if nullSel sel then pure none
  else do
    let r ← Bounded.outcome (readDescriptor sel)
    return r.toOption

/-- VERR and VERW. -/
def Cpu.verifySeg (c : Cpu) (sel : U16) (d : Descriptor) (write : Bool) : Bool :=
  d.present && d.isCodeData && c.dataPrivOk sel d
    && (if write then !d.isCode && d.attrs &&& 0x02 != 0
      else !d.isCode || d.attrs &&& 0x02 != 0)

def verifySeg (sel : U16) (write : Bool) : Calm β Bool := do
  let d ← tryDescriptor sel
  let s ← self
  return d.any (s.verifySeg sel · write)

/-- The system types LAR and LSL accept. -/
def systemTypeOk (lsl : Bool) (t : U8) : Bool :=
  if lsl then t ∈ ([1, 2, 3, 9, 11] : List U8)
    else t ∈ ([1, 2, 3, 4, 5, 9, 11, 12] : List U8)

def Cpu.larOk (c : Cpu) (sel : U16) (d : Descriptor) (lsl : Bool) : Bool :=
  d.present && (d.isCodeData || systemTypeOk lsl d.sysType)
    && ((d.isCodeData && d.isConforming)
      || (decide (c.cpl ≤ d.dpl) && decide (rplOf sel ≤ d.dpl)))

/-- 02, 03: LAR and LSL. -/
def larLsl (lsl : Bool) : Calm β U32 := do
  let s ← self
  raiseIf (!s.protectedMode) Exception.ud
  let (m, op) ← modrm
  let sel ← readOp16 op
  let d ← tryDescriptor sel
  let s ← self
  match d.filter (s.larOk sel · lsl) with
  | some d => do
    modifyFlags (·.insert EFlags.ZF) EFlags.vm_insert_ZF
    let a := d.attrs.setWidth 32
    writeReg m.reg (if lsl then d.limit
      else ((a &&& (0xFF : U32)) <<< 8) ||| ((a &&& (0x0F00 : U32)) <<< 12))
    return 11
  | none => do
    modifyFlags (·.remove EFlags.ZF) EFlags.vm_remove_ZF
    return 11

-- ======== groups 6, 7

/-- A system segment register as a descriptor describes it. -/
def Descriptor.system (d : Descriptor) (sel attrs : U16) : SegReg :=
  { sel := sel, base := d.base, limit := d.limit, attrs := attrs }

def lldt (sel : U16) : Xfer β Unit := prepared do
  if nullSel sel then
    warmWrite fun r => { r with ldtr := SegReg.null sel }
  else do
    raiseIf (sel &&& 4 ≠ 0) (Exception.gp (selErr sel))
    let d ← (readDescriptor sel).lift
    raiseIf (d.attrs &&& 0x1F ≠ 0x02) (Exception.gp (selErr sel))
    raiseIf (!d.present) (Exception.np (selErr sel))
    warmWrite fun r => { r with ldtr := d.system sel d.attrs }

/-- Set the busy bit in a TSS descriptor in memory. -/
def markTssBusy (sel : U16) : Calm β Unit := do
  let s ← self
  let addr := s.regs.gdtr.base + (sel &&& 0xFFF8).setWidth 32
  let b ← sysRead8 (addr + 5)
  sysWrite8 (addr + 5) (b ||| 0x02)

def ltr (sel : U16) : Xfer β Unit := prepared do
  raiseIf (nullSel sel ∨ sel &&& 4 ≠ 0) (Exception.gp (selErr sel))
  let d ← (readDescriptor sel).lift
  let t := d.attrs &&& 0x1F
  -- An available TSS, 16- or 32-bit.
  raiseIf (t ≠ 0x01 ∧ t ≠ 0x09) (Exception.gp (selErr sel))
  raiseIf (!d.present) (Exception.np (selErr sel))
  (markTssBusy sel).lift
  warmWrite fun r => { r with tr := d.system sel (d.attrs ||| 0x02) }

/-- 00: SLDT, STR, LLDT, LTR, VERR, VERW. -/
def group6 : Xfer β U32 := do
  let s ← self
  raiseIf (!s.protectedMode) Exception.ud
  let (m, op) ← modrm.lift
  let s ← self
  if m.reg = 0 then do
    (storeWord op s.regs.ldtr.sel).lift
    return 2
  else if m.reg = 1 then do
    (storeWord op s.regs.tr.sel).lift
    return 2
  else if m.reg = 2 then do
    requireRing0.lift
    let sel ← (readOp16 op).lift
    lldt sel
    return 20
  else if m.reg = 3 then do
    requireRing0.lift
    let sel ← (readOp16 op).lift
    ltr sel
    return 23
  else if m.reg = 4 ∨ m.reg = 5 then do
    let sel ← (readOp16 op).lift
    let ok ← (verifySeg sel (m.reg == 5)).lift
    (modifyFlags (·.set EFlags.ZF ok)).lift
    return 10
  else throw Exception.ud

/-- SGDT and SIDT. -/
def storeTable (op : Operand) (t : DescTable) : Calm β U32 := do
  let (seg, off) ← memOperand op
  write16 seg off t.limit
  write32 seg (off + 2) t.base
  return 9

/-- LGDT and LIDT: a 16-bit operand size loads 24 base bits. -/
def loadTable (m : ModRm) (op : Operand) : Xfer β U32 := do
  requireRing0.lift
  let (seg, off) ← (memOperand op).lift
  let limit ← (read16 seg off).lift
  let b ← (read32 seg (off + 2)).lift
  let s ← self
  let base := if s.osize32 then b else b &&& 0x00FFFFFF
  coldWrite fun r => if m.reg = 2 then { r with gdtr := ⟨base, limit⟩ }
    else { r with idtr := ⟨base, limit⟩ }
  return 11

/-- SMSW: a register takes CR0 at the operand size. -/
def smsw (op : Operand) : Calm β U32 := do
  let s ← self
  match op with
  | .reg i => do
    writeReg i s.regs.cr0
    return 2
  | .mem seg off => do
    write16 seg off (s.regs.cr0.setWidth 16)
    return 2

/-- LMSW: MP, EM and TS, and PE on but never off. -/
def ColdRegs.lmsw (r : ColdRegs) (v : U32) : ColdRegs :=
  let low := cr0.MP ||| cr0.EM ||| cr0.TS
  { r with cr0 := (r.cr0 &&& ~~~(low ||| cr0.PE)) ||| (v &&& low)
      ||| ((r.cr0 ||| v) &&& cr0.PE) }

def lmsw (op : Operand) : Xfer β U32 := do
  requireRing0.lift
  let v ← (readOp16 op).lift
  coldWrite (·.lmsw (v.setWidth 32))
  flushTlb.lift
  return 10

/-- 01: SGDT, SIDT, LGDT, LIDT, SMSW, LMSW. -/
def group7 : Xfer β U32 := do
  let (m, op) ← modrm.lift
  let s ← self
  if m.reg = 0 then (storeTable op s.regs.gdtr).lift
  else if m.reg = 1 then (storeTable op s.regs.idtr).lift
  else if m.reg = 2 ∨ m.reg = 3 then loadTable m op
  else if m.reg = 4 then (smsw op).lift
  else if m.reg = 6 then lmsw op
  else throw Exception.ud

/-- B2, B4, B5: LSS, LFS, LGS. -/
def lssLfsLgs (opcode : U8) : Xfer β U32 := do
  let (m, op) ← modrm.lift
  let (seg, off) ← (memOperand op).lift
  let sreg := if opcode = 0xB2 then reg.SS else if opcode = 0xB4
    then reg.FS else reg.GS
  loadFarPointer sreg m.reg seg off
  return 7

-- ======== dispatch

/-- Whether a LOCK prefix may precede a two-byte opcode: the bit-test
writers, and the atomic extensions when they are on. -/
def Cpu.lockable0F (c : Cpu) (opcode : U8) : Bool :=
  opcode ∈ ([0xAB, 0xB3, 0xBB, 0xBA] : List U8)
    || (c.extensions && decide (opcode ∈ ([0xB0, 0xB1, 0xC0, 0xC1] : List U8)))

/-- The post-386 opcodes; #UD unless they are switched on. -/
def dispatch0FExt (opcode : U8) : Calm β U32 := do
  let s ← self
  raiseIf (!s.extensions) Exception.ud
  if 0x18 ≤ opcode ∧ opcode ≤ 0x1F then hint
  else if opcode = 0x31 then rdtsc
  else if 0x40 ≤ opcode ∧ opcode ≤ 0x4F then cmov opcode
  else if opcode = 0xA2 then cpuid
  else if opcode = 0xB0 then cmpxchg8
  else if opcode = 0xB1 then cmpxchg
  else if opcode = 0xC0 then xadd8
  else if opcode = 0xC1 then xadd
  else if 0xC8 ≤ opcode ∧ opcode ≤ 0xCF then bswap opcode
  else throw Exception.ud

/-- The calm two-byte opcodes. -/
def dispatch0FCalm (opcode : U8) : Calm β U32 :=
  if opcode = 0x02 then larLsl false
  else if opcode = 0x03 then larLsl true
  else if opcode = 0x20 then movRCr
  else if opcode = 0x21 then movRDr
  else if opcode = 0x24 then movRTr
  else if 0x80 ≤ opcode ∧ opcode ≤ 0x8F then jccNear opcode
  else if 0x90 ≤ opcode ∧ opcode ≤ 0x9F then setcc opcode
  else if opcode = 0xA0 ∨ opcode = 0xA8 then pushFsGs opcode
  else if opcode = 0xA3 then btRegIndex 0
  else if opcode = 0xAB then btRegIndex 1
  else if opcode = 0xB3 then btRegIndex 2
  else if opcode = 0xBB then btRegIndex 3
  else if opcode = 0xBA then group8
  else if opcode ∈ ([0xA4, 0xA5, 0xAC, 0xAD] : List U8) then shxd opcode
  else if opcode = 0xAF then imulRRm
  else if opcode ∈ ([0xB6, 0xB7, 0xBE, 0xBF] : List U8) then movWiden opcode
  else if opcode = 0xBC ∨ opcode = 0xBD then bitScan opcode
  else dispatch0FExt opcode

/-- The two-byte opcodes whose arms are not calm. -/
abbrev xfer0FOpcodes : List U8 :=
  [0x00, 0x01, 0x06, 0x22, 0x23, 0x26, 0xA1, 0xA9, 0xB2, 0xB4, 0xB5]

def dispatch0FXfer (opcode : U8) : Xfer β U32 :=
  if opcode = 0x00 then group6
  else if opcode = 0x01 then group7
  else if opcode = 0x06 then clts
  else if opcode = 0x22 then movCrR
  else if opcode = 0x23 then movDrR
  else if opcode = 0x26 then movTrR
  else if opcode = 0xA1 ∨ opcode = 0xA9 then popFsGs opcode
  else lssLfsLgs opcode

def dispatch0F (opcode : U8) : Xfer β U32 := do
  let s ← self
  raiseIf (s.lock && !s.lockable0F opcode) Exception.ud
  if opcode ∈ xfer0FOpcodes then dispatch0FXfer opcode
  else (dispatch0FCalm opcode).lift

/-- Execute one instruction whose prefixes are consumed. -/
def dispatch (opcode : U8) : Xfer β U32 :=
  if opcode = 0x0F then do
    let op2 ← fetch8.lift
    dispatch0F op2
  else if opcode ∈ xferOpcodes then dispatchXfer opcode
  else (dispatchCalm opcode).lift

end Remu.X32
