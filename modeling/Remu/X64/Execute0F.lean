/-
The two-byte (0F) opcode map and the model-specific registers.

As in the one-byte map, the arms are split by effect: `dispatch0FCalm`,
`dispatch0FXfer` for the segment loads and system-call instructions, and
`dispatch0FCold` for the writers of control, debug and model-specific
registers and of CR0's mode bits.
-/
import Remu.X64.Execute

namespace Remu.X64

open Word

variable {β : Type} [Bus β]

-- ======== helpers

/-- Fetch a ModRM byte and treat `rm` as a register number whatever mod
is. -/
def modrmRegOnly : Calm β ModRm := do
  let byte ← fetch8
  let s ← self
  return ⟨byte, s.rexR <<< 3, s.rexB <<< 3⟩

/-- The operand size of control- and debug-register moves. -/
def Cpu.modeSize (c : Cpu) : OpSize := if c.m64 then O64 else O32

/-- Write a register at the width of the mode, as MOV from CR does. -/
def writeGprMode (i : U8) (v : U64) : Calm β Unit := do
  let s ← self
  modifyHot (·.setRegSized s.modeSize i v)

/-- #GP above CPL 0 (real mode is CPL 0). -/
def requireRing0 : Calm β Unit := do
  let s ← self
  raiseIf (s.regs.cr0 &&& cr0.PE ≠ 0 ∧ s.cpl ≠ 0) (Exception.gp 0)

/-- The debug register a reg field names; DR4 and DR5 alias DR6 and DR7. -/
def drIndex (sub : U8) : U8 :=
  if sub = 4 then 6 else if sub = 5 then 7 else sub

/-- EDX:EAX from a 64-bit value. -/
def setEdxEax (v : U64) : Calm β Unit := do
  modifyHot (·.setReg32 reg.RAX (v.setWidth 32))
  modifyHot (·.setReg32 reg.RDX ((v >>> 32).setWidth 32))

-- ======== control and debug moves

namespace Registers

/-- MOV CR0. Enabling paging with LME set demands PAE and sets LMA;
disabling it leaves long mode. -/
def writeCr0 (r : Registers) (v : U64) : Except Exception Registers :=
  let old := r.cr0
  let enable := v &&& cr0.PG != 0 && old &&& cr0.PG == 0
  let disable := v &&& cr0.PG == 0 && old &&& cr0.PG != 0
  let lme := r.msr.efer &&& efer.LME != 0
  if v >>> 32 ≠ 0 ∨ (v &&& cr0.PG ≠ 0 ∧ v &&& cr0.PE = 0)
    then .error (Exception.gp 0)
  else if enable && lme && r.cr4 &&& cr4.PAE == 0 then .error (Exception.gp 0)
  else
    let e := r.msr.efer
    let e := if enable && lme then e ||| efer.LMA else e
    let e := if disable then e &&& ~~~efer.LMA else e
    .ok { r with cr0 := v ||| cr0.ET, msr := { r.msr with efer := e } }

/-- MOV to a control register. -/
def writeCr (n : U8) (v : U64) (r : Registers) : Except Exception Registers :=
  if n = 0 then r.writeCr0 v
  else if n = 2 then .ok { r with cr2 := v }
  else if n = 3 then
    if v &&& ~~~0x000FFFFFFFFFFFFF ≠ 0 then .error (Exception.gp 0)
    else .ok { r with cr3 := v }
  else if n = 4 then
    if v &&& ~~~cr4.SUPPORTED ≠ 0 then .error (Exception.gp 0)
    -- PAE cannot be cleared while long mode is active.
    else if v &&& cr4.PAE = 0 ∧ r.msr.efer &&& efer.LMA ≠ 0
      then .error (Exception.gp 0)
    else .ok { r with cr4 := v }
  else if n = 8 then
    if v &&& ~~~0xF ≠ 0 then .error (Exception.gp 0)
      else .ok { r with cr8 := v }
  else .error Exception.ud

/-- LMSW: MP, EM and TS, and PE on but never off. -/
def lmsw (v : U64) (r : Registers) : Registers :=
  let low := cr0.MP ||| cr0.EM ||| cr0.TS
  { r with cr0 := (r.cr0 &&& ~~~(low ||| cr0.PE)) ||| (v &&& low)
      ||| ((r.cr0 ||| v) &&& cr0.PE) }

/-- The register writes below keep the mode consistent or refuse. -/
theorem keepsMode_writeCr0 (v : U64) : KeepsMode (writeCr0 · v) := by
  intro r r' h hok
  simp only [writeCr0] at h
  split at h
  · cases h
  split at h
  · cases h
  case isFalse.isFalse hpe _ =>
  cases h
  have hPG : (v ||| cr0.ET) &&& cr0.PG = v &&& cr0.PG :=
    or_and_disjoint v (by decide)
  have hPE : (v ||| cr0.ET) &&& cr0.PE = v &&& cr0.PE :=
    or_and_disjoint v (by decide)
  refine ⟨fun hlma => ?_, fun hpg => ?_⟩
  · -- LMA survives only while paging stays on, and is set only with it.
    dsimp only at hlma ⊢
    rw [hPG]
    intro hoff
    simp only [hoff, bne_self_eq_false, beq_self_eq_true, Bool.false_and,
      Bool.true_and, Bool.false_eq_true, if_false] at hlma
    split at hlma
    case isTrue =>
      refine hlma ?_
      rw [BitVec.and_assoc,
        show (~~~efer.LMA &&& efer.LMA : U64) = 0 by decide]
      exact BitVec.and_zero
    case isFalse hold =>
      exact hold (by simpa only [bne_iff_ne] using hok.paged hlma)
  · dsimp only at hpg ⊢
    rw [hPG] at hpg
    rw [hPE]
    intro hzero
    exact hpe (Or.inr ⟨hpg, hzero⟩)

theorem keepsMode_writeCr (n : U8) (v : U64) : KeepsMode (writeCr n v) := by
  unfold writeCr
  refine .ite (keepsMode_writeCr0 v)
    (.ite .ok (.ite ?_ (.ite ?_ (.ite ?_ (.error _)))))
  · exact .ite (.error _) .ok
  · refine .ite (.error _) fun r r' h hok => ?_
    split at h
    · cases h
    · cases h
      exact ⟨hok.paged, hok.protect⟩
  · exact .ite (.error _) .ok

theorem keepsMode_lmsw (v : U64) : KeepsMode fun r => .ok (r.lmsw v) := by
  intro r r' h hok
  cases h
  let low := cr0.MP ||| cr0.EM ||| cr0.TS
  have hPG : (r.lmsw v).cr0 &&& cr0.PG = r.cr0 &&& cr0.PG := by
    calc ((r.cr0 &&& ~~~(low ||| cr0.PE)) ||| (v &&& low) ||| ((r.cr0 ||| v) &&& cr0.PE)) &&& cr0.PG
        = ((r.cr0 &&& ~~~(low ||| cr0.PE)) ||| (v &&& low)) &&& cr0.PG := by
          refine or_and_disjoint _ ?_
          rw [BitVec.and_assoc, show (cr0.PE &&& cr0.PG : U64) = 0 by decide]
          exact BitVec.and_zero
      _ = (r.cr0 &&& ~~~(low ||| cr0.PE)) &&& cr0.PG := by
          refine or_and_disjoint _ ?_
          rw [BitVec.and_assoc, show (low &&& cr0.PG : U64) = 0 by decide]
          exact BitVec.and_zero
      _ = r.cr0 &&& cr0.PG := and_and_cover _ (by decide)
  refine ⟨fun hlma => ?_, fun hpg hpe => ?_⟩
  · rw [hPG]
    exact hok.paged hlma
  · rw [hPG] at hpg
    refine hok.protect hpg ?_
    -- PE is only ever added.
    have hadd : (r.lmsw v).cr0 &&& cr0.PE &&& r.cr0 = r.cr0 &&& cr0.PE := by
      refine BitVec.eq_of_getLsbD_eq fun i _ => ?_
      simp only [lmsw, BitVec.getLsbD_and, BitVec.getLsbD_or]
      cases r.cr0.getLsbD i <;> cases cr0.PE.getLsbD i <;> simp
    rw [← hadd, hpe]
    exact BitVec.zero_and

end Registers

def writeCr (n : U8) (v : U64) : Cold β Unit := do
  modeWrite (Registers.writeCr n v) (Registers.keepsMode_writeCr n v)
  whenever (n = 0 ∨ n = 3 ∨ n = 4) flushTlb.lift

/-- 20: MOV r, CRn. -/
def movRCr : Calm β U32 := do
  requireRing0
  let m ← modrmRegOnly
  let s ← self
  let v ← (if m.reg = 0 then pure s.regs.cr0
    else if m.reg = 2 then pure s.regs.cr2
    else if m.reg = 3 then pure s.regs.cr3
    else if m.reg = 4 then pure s.regs.cr4
    else if m.reg = 8 then pure s.regs.cr8
    else throw Exception.ud)
  writeGprMode m.rm v
  return 6

/-- 22: MOV CRn, r. -/
def movCrR : Cold β U32 := do
  requireRing0.lift
  let m ← modrmRegOnly.lift
  let s ← self
  writeCr m.reg (s.regs.regSized s.modeSize m.rm)
  return 10

/-- 21: MOV r, DRn. -/
def movRDr : Calm β U32 := do
  requireRing0
  let m ← modrmRegOnly
  let s ← self
  writeGprMode m.rm (s.regs.dr (drIndex m.sub))
  return 14

/-- 23: MOV DRn, r. -/
def movDrR : Xfer β U32 := do
  requireRing0.lift
  let m ← modrmRegOnly.lift
  let s ← self
  let v := s.regs.regSized s.modeSize m.rm
  coldWrite fun r => { r with dr := upd r.dr (drIndex m.sub) v }
  return 16

/-- CR0 without TS. -/
def Registers.clearTs (r : Registers) : Registers :=
  { r with cr0 := r.cr0 &&& ~~~cr0.TS }

theorem Registers.keepsMode_clearTs : KeepsMode fun r => .ok r.clearTs := by
  intro r r' h hok
  cases h
  have hPG : r.cr0 &&& ~~~cr0.TS &&& cr0.PG = r.cr0 &&& cr0.PG :=
    and_and_cover _ (by decide)
  have hPE : r.cr0 &&& ~~~cr0.TS &&& cr0.PE = r.cr0 &&& cr0.PE :=
    and_and_cover _ (by decide)
  exact ⟨fun h => hPG ▸ hok.paged h, fun h => hPE ▸ hok.protect (hPG ▸ h)⟩

/-- 06: CLTS. -/
def clts : Cold β U32 := do
  requireRing0.lift
  modeWrite (fun r => .ok r.clearTs) Registers.keepsMode_clearTs
  return 5

-- ======== MSRs and cycles

namespace Msr

/-- The time-stamp counter. -/
abbrev TSC : U32 := 0x10
abbrev APIC_BASE : U32 := 0x1B
abbrev SYSENTER_CS : U32 := 0x174
abbrev SYSENTER_ESP : U32 := 0x175
abbrev SYSENTER_EIP : U32 := 0x176
abbrev PAT : U32 := 0x277
/-- Extended features: long mode, no-execute, SYSCALL. -/
abbrev EFER : U32 := 0xC0000080
/-- Segments of SYSCALL and SYSRET. -/
abbrev STAR : U32 := 0xC0000081
/-- Entry point of SYSCALL. -/
abbrev LSTAR : U32 := 0xC0000082
abbrev CSTAR : U32 := 0xC0000083
/-- Flags SYSCALL clears. -/
abbrev SFMASK : U32 := 0xC0000084
/-- The base of FS. -/
abbrev FS_BASE : U32 := 0xC0000100
/-- The base of GS. -/
abbrev GS_BASE : U32 := 0xC0000101
abbrev KERNEL_GS_BASE : U32 := 0xC0000102
abbrev TSC_AUX : U32 := 0xC0000103

end Msr

/-- Read a model-specific register; #GP where there is none. -/
def Cpu.rdmsr (c : Cpu) (index : U32) : Except Exception U64 :=
  let m := c.regs.msr
  if index = Msr.TSC then .ok c.cycles
  else if index = Msr.APIC_BASE then .ok m.apicBase
  else if index = Msr.SYSENTER_CS then .ok m.sysenterCs
  else if index = Msr.SYSENTER_ESP then .ok m.sysenterEsp
  else if index = Msr.SYSENTER_EIP then .ok m.sysenterEip
  else if index = Msr.PAT then .ok m.pat
  else if index = Msr.EFER then .ok m.efer
  else if index = Msr.STAR then .ok m.star
  else if index = Msr.LSTAR then .ok m.lstar
  else if index = Msr.CSTAR then .ok m.cstar
  else if index = Msr.SFMASK then .ok m.sfmask
  else if index = Msr.FS_BASE then .ok (c.regs.seg reg.FS).base
  else if index = Msr.GS_BASE then .ok (c.regs.seg reg.GS).base
  else if index = Msr.KERNEL_GS_BASE then .ok m.kernelGsBase
  else if index = Msr.TSC_AUX then .ok (m.tscAux.setWidth 64)
  else .error (Exception.gp 0)

namespace Registers

/-- Change the model-specific registers. -/
def setMsr (r : Registers) (g : Msrs → Msrs) : Registers :=
  { r with msr := g r.msr }

/-- A segment base written through its MSR. -/
def setSegBase (r : Registers) (i : U8) (v : U64) : Registers :=
  { r with seg := upd r.seg i { r.seg i with base := v } }

/-- EFER: LMA is read-only, LME fixed while paging is on. -/
def writeEfer (v : U64) (r : Registers) : Except Exception Registers :=
  let old := r.msr.efer
  if v &&& ~~~efer.SUPPORTED ≠ 0 then .error (Exception.gp 0)
  else if (v ^^^ old) &&& efer.LMA ≠ 0 then .error (Exception.gp 0)
  else if (v ^^^ old) &&& efer.LME ≠ 0
    ∧ r.cr0 &&& cr0.PG ≠ 0 then .error (Exception.gp 0)
  else .ok (r.setMsr ({ · with efer := v }))

/-- WRMSR, the time-stamp counter apart. -/
def wrmsr (index : U32) (v : U64) (r : Registers) :
    Except Exception Registers :=
  let canon (r' : Registers) : Except Exception Registers :=
    if canonical v then .ok r' else .error (Exception.gp 0)
  if index = Msr.APIC_BASE then .ok (r.setMsr ({ · with apicBase := v }))
  else if index = Msr.SYSENTER_CS
    then .ok (r.setMsr ({ · with sysenterCs := v }))
  else if index = Msr.SYSENTER_ESP
    then .ok (r.setMsr ({ · with sysenterEsp := v }))
  else if index = Msr.SYSENTER_EIP
    then .ok (r.setMsr ({ · with sysenterEip := v }))
  else if index = Msr.PAT then .ok (r.setMsr ({ · with pat := v }))
  else if index = Msr.EFER then r.writeEfer v
  else if index = Msr.STAR then .ok (r.setMsr ({ · with star := v }))
  else if index = Msr.LSTAR then canon (r.setMsr ({ · with lstar := v }))
  else if index = Msr.CSTAR then canon (r.setMsr ({ · with cstar := v }))
  else if index = Msr.SFMASK then .ok (r.setMsr ({ · with sfmask := v }))
  else if index = Msr.FS_BASE then canon (r.setSegBase reg.FS v)
  else if index = Msr.GS_BASE then canon (r.setSegBase reg.GS v)
  else if index = Msr.KERNEL_GS_BASE
    then canon (r.setMsr ({ · with kernelGsBase := v }))
  else if index = Msr.TSC_AUX
    then .ok (r.setMsr ({ · with tscAux := v.setWidth 32 }))
  else .error (Exception.gp 0)

theorem keepsMode_writeEfer (v : U64) : KeepsMode (writeEfer v) := by
  intro r r' h hok
  simp only [writeEfer] at h
  split at h
  · cases h
  split at h
  · cases h
  case isFalse.isFalse hlma =>
  split at h
  · cases h
  cases h
  have hsame : v &&& efer.LMA = r.msr.efer &&& efer.LMA :=
    and_eq_of_xor_and (not_ne_iff.1 hlma)
  refine ⟨fun hl => hok.paged ?_, hok.protect⟩
  rw [← hsame]
  exact hl

theorem keepsMode_wrmsr (index : U32) (v : U64) :
    KeepsMode (wrmsr index v) := by
  unfold wrmsr
  repeat' with_reducible apply KeepsMode.ite
  all_goals first
    | exact keepsMode_writeEfer v
    | exact .error _
    | exact .ok

end Registers

/-- 30: WRMSR. -/
def wrmsrArm : Cold β U32 := do
  requireRing0.lift
  let s ← self
  let index := s.regs.reg32 reg.RCX
  let v : U64 := ((s.regs.reg32 reg.RDX).setWidth 64 <<< 32)
    ||| (s.regs.reg32 reg.RAX).setWidth 64
  if index = Msr.TSC then do
    modeWrite .ok fun r r' h hok => by cases h; exact hok
    setCycles v
    return 30
  else do
    modeWrite (Registers.wrmsr index v) (Registers.keepsMode_wrmsr index v)
    -- NXE takes part in page-permission caching.
    whenever (index = Msr.EFER) flushTlb.lift
    return 30

/-- 32: RDMSR. -/
def rdmsrArm : Calm β U32 := do
  requireRing0
  let s ← self
  let v ← check (s.rdmsr (s.regs.reg32 reg.RCX))
  setEdxEax v
  return 30

/-- RDTSC and RDTSCP under CR4.TSD. -/
def readTsc : Calm β Unit := do
  let s ← self
  raiseIf (s.regs.cr4 &&& cr4.TSD ≠ 0 ∧ s.cpl ≠ 0) (Exception.gp 0)
  setEdxEax s.cycles

/-- 31. -/
def rdtsc : Calm β U32 := do
  readTsc
  return 5

/-- 33: no counters are modelled. -/
def rdpmc : Calm β U32 := do
  let s ← self
  raiseIf (s.regs.cr4 &&& cr4.PCE = 0 ∧ s.cpl ≠ 0) (Exception.gp 0)
  setEdxEax 0
  return 5

/-- Four ASCII characters, first in the low byte. -/
def le32 (a b c d : Char) : U32 :=
  BitVec.ofNat 32
    (a.toNat + b.toNat * 0x100 + c.toNat * 0x10000 + d.toNat * 0x1000000)

/-- EAX, EBX, ECX and EDX of a CPUID leaf. -/
def cpuidLeaf (leaf : U32) : U32 × U32 × U32 × U32 :=
  if leaf = 0 then (1, 0x756e6547, 0x6c65746e, 0x49656e69)
  else if leaf = 1 then (0x6F1, 0, 1 <<< 13, 0x1A178)
  else if leaf = 0x80000000 then (0x80000008, 0, 0, 0)
  else if leaf = 0x80000001
    then (0, 0, 1, (1 <<< 11) ||| (1 <<< 20) ||| (1 <<< 29))
  else if leaf = 0x80000002 then
    (le32 'R' 'e' 'm' 'u', le32 ' ' 'v' 'i' 'r', le32 't' 'u' 'a' 'l',
      le32 ' ' 'x' '8' '6')
  else if leaf = 0x80000003 then (le32 '-' '6' '4' ' ', 0x00555043, 0, 0)
  else if leaf = 0x80000008 then (0x3034, 0, 0, 0)
  else (0, 0, 0, 0)

/-- A2. -/
def cpuid : Calm β U32 := do
  let s ← self
  let (a, b, c, d) := cpuidLeaf (s.regs.reg32 reg.RAX)
  modifyHot (·.setReg32 reg.RAX a)
  modifyHot (·.setReg32 reg.RBX b)
  modifyHot (·.setReg32 reg.RCX c)
  modifyHot (·.setReg32 reg.RDX d)
  return 14

-- ======== conditionals, widening

/-- 40–4F: the destination is written even on a false condition. -/
def cmov (opcode : U8) : Calm β U32 := do
  let (m, op) ← modrm
  let v ← readOp op
  let s ← self
  let cur := s.regs.regSized s.osize m.reg
  writeRegOsize m.reg (if s.regs.rflags.cond (opcode &&& 0xF) then v else cur)
  return op.cost 5 4

/-- 80–8F. -/
def jccNear (opcode : U8) : Calm β U32 := do
  useBranchOsize
  let rel ← fetchRel
  let s ← self
  condJump (s.regs.rflags.cond (opcode &&& 0xF)) rel 7 3

/-- 90–9F. -/
def setcc (opcode : U8) : Calm β U32 := do
  let (_, op) ← modrm
  let s ← self
  writeOp8 op (if s.regs.rflags.cond (opcode &&& 0xF) then 1 else 0)
  return 4

/-- A0, A8: PUSH FS and GS. -/
def pushFsGs (opcode : U8) : Calm β U32 := do
  useStackOsize
  let s ← self
  push ((s.regs.segSel (if opcode = 0xA0 then reg.FS else reg.GS)).setWidth 64)
  return 2

/-- A1, A9: POP FS and GS. -/
def popFsGs (opcode : U8) : Xfer β U32 := do
  useStackOsize.lift
  let v ← popSreg.lift
  loadSeg (if opcode = 0xA1 then reg.FS else reg.GS) v
  return 7

/-- A source of MOVZX and MOVSX. -/
def readWiden (opcode : U8) (op : Operand) : Calm β U64 :=
  if opcode = 0xB6 then (·.setWidth 64) <$> readOp8 op
  else if opcode = 0xB7 then (·.setWidth 64) <$> readOp16 op
  else if opcode = 0xBE then (·.signExtend 64) <$> readOp8 op
  else (·.signExtend 64) <$> readOp16 op

/-- B6, B7, BE, BF. -/
def movWiden (opcode : U8) : Calm β U32 := do
  let (m, op) ← modrm
  let v ← readWiden opcode op
  writeRegOsize m.reg v
  return op.cost 6 3

/-- AF. -/
def imulRRm : Calm β U32 := do
  let (m, op) ← modrm
  let src ← readOp op
  let s ← self
  let r ← imulTrunc (s.regs.regSized s.osize m.reg) src
  writeRegOsize m.reg r
  return op.cost 22 20

/-- Multi-byte NOPs and hints. -/
def hint : Calm β U32 := do
  let _ ← modrm
  return 1

/-- C8–CF: BSWAP; 16-bit zeroes the register. -/
def bswap (opcode : U8) : Calm β U32 := do
  let s ← self
  let i := s.opcodeReg opcode
  let v := s.regs.reg64 i
  let b (k : Nat) : U64 := (v >>> (8 * k)) &&& (0xFF : U64)
  match s.osize with
  | O64 => do
    setReg64 i ((b 0 <<< 56) ||| (b 1 <<< 48) ||| (b 2 <<< 40) ||| (b 3 <<< 32)
      ||| (b 4 <<< 24) ||| (b 5 <<< 16) ||| (b 6 <<< 8) ||| b 7)
    return 6
  | O32 => do
    let r := (b 0 <<< 24) ||| (b 1 <<< 16) ||| (b 2 <<< 8) ||| b 3
    modifyHot (·.setReg32 i (r.setWidth 32))
    return 6
  | O16 => do
    modifyHot (·.setReg16 i 0)
    return 6

-- ======== bit tests

/-- The bit-index mask of an operand size. -/
def OpSize.bitMask : OpSize → U64
  | O16 => 15
  | O32 => 31
  | O64 => 63

/-- BT, BTS, BTR and BTC (`sub` 0–3) of one bit. -/
def btApply (op : Operand) (sub : U8) (bit : U64) : Calm β U32 := do
  lockCheck (op.isMem && sub != 0)
  let v ← readOp op
  modifyFlags (·.set RFlags.CF (v.getLsbD bit.toNat))
  let mask : U64 := 1 <<< bit.toNat
  whenever (sub ≠ 0) (writeOp op
    (if sub = 1 then v ||| mask else if sub = 2 then v &&& ~~~mask else v ^^^ mask))
  return op.cost 8 4

/-- A register sign-extended from the operand size. -/
def HotRegs.signedSized (r : HotRegs) (z : OpSize) (i : U8) : U64 :=
  match z with
  | O16 => (r.reg16 i).signExtend 64
  | O32 => (r.reg32 i).signExtend 64
  | O64 => r.reg64 i

/-- The byte displacement of the element a bit index reaches. -/
def bitDisp (z : OpSize) (idx : U64) : U64 :=
  match z with
  | O16 => idx.sshiftRight 4 * 2
  | O32 => idx.sshiftRight 5 * 4
  | O64 => idx.sshiftRight 6 * 8

/-- A3, AB, B3, BB: a memory bit string is indexed past the operand. -/
def btRegIndex (sub : U8) : Calm β U32 := do
  let (m, op) ← modrm
  let s ← self
  let idx := s.regs.signedSized s.osize m.reg
  let bit := idx &&& s.osize.bitMask
  match op with
  | .reg i => btApply (.reg i) sub bit
  | .mem seg off =>
    btApply (.mem seg ((off + bitDisp s.osize idx) &&& s.dataWrap)) sub bit

/-- BA: group 8. -/
def group8 : Calm β U32 := do
  setImmLen 1
  let (m, op) ← modrm
  raiseIf (m.sub < 4) Exception.ud
  let imm ← fetch8
  let s ← self
  btApply op (m.sub - 4) (imm.setWidth 64 &&& s.osize.bitMask)

/-- The flags of BSF and BSR: everything but ZF clear. -/
def RFlags.bitScan (f : RFlags) (zero : Bool) : RFlags :=
  (f.remove (CF ||| OF ||| AF ||| SF ||| PF)).set ZF zero

@[simp] theorem RFlags.vm_bitScan (f : RFlags) (zero : Bool) :
    (f.bitScan zero).vm = f.vm := by
  simp [bitScan]

/-- BC, BD: BSF and BSR; a zero source leaves the destination. -/
def bitScan (opcode : U8) : Calm β U32 := do
  let (m, op) ← modrm
  let src ← readOp op
  modifyFlags (·.bitScan (src == 0))
  let idx : U64 := if opcode = 0xBC then src.ctz else 63 - src.clz
  whenever (src ≠ 0) (writeRegOsize m.reg idx)
  return 11

/-- The width of an operand size. -/
def OpSize.bits : OpSize → Nat
  | O16 => 16
  | O32 => 32
  | O64 => 64

/-- SHLD and SHRD of a `z`-sized pair: result, last bit out, and (SHRD)
the result one step earlier. -/
def shxdResult (z : OpSize) (right : Bool) (dst src : U64) (n : Nat) :
    U64 × Bool × U64 :=
  let bits := z.bits
  let mask : U64 := match z with
    | O16 => 0xFFFF
    | O32 => 0xFFFFFFFF
    | O64 => 0xFFFFFFFFFFFFFFFF
  if right then
    let win : U128 := (src.setWidth 128 <<< bits) ||| dst.setWidth 128
    ((win >>> n).setWidth 64 &&& mask, win.getLsbD (n - 1),
      (win >>> (n - 1)).setWidth 64 &&& mask)
  else
    let win : U128 := (dst.setWidth 128 <<< bits) ||| src.setWidth 128
    let cf := if n ≤ bits then dst.getLsbD (bits - n)
      else src.getLsbD (2 * bits - n)
    (((win <<< n) >>> bits).setWidth 64 &&& mask, cf, 0)

/-- The flags of SHLD and SHRD at a width. -/
def RFlags.shxd {w : Nat} (f : RFlags) (cf ovf : Bool) (r : BitVec w) : RFlags :=
  (((f.set CF cf).set OF ovf).remove AF).setSzp r

@[simp] theorem RFlags.vm_shxd {w : Nat} (f : RFlags)
    (cf ovf : Bool) (r : BitVec w) :
    (f.shxd cf ovf r).vm = f.vm := by
  simp [shxd]

/-- A4, A5, AC, AD: SHLD and SHRD. -/
def shxd (opcode : U8) : Calm β U32 := do
  let right := opcode &&& 8 != 0
  let byCl := opcode &&& 1 != 0
  whenever (!byCl) (setImmLen 1)
  let s ← self
  let cl : U32 := (s.regs.reg8 1 false).setWidth 32
  let (m, op) ← modrm
  let dst ← readOp op
  let s ← self
  let src := s.regs.regSized s.osize m.reg
  let c ← shiftCount (if byCl then some cl else none)
  let n := (c &&& (if s.osize = O64 then 63 else 31)).toNat
  if n = 0 then return op.cost 7 3
  else do
    let (r, cf, prev) := shxdResult s.osize right dst src n
    let sign := s.osize.bits - 1
    let ovf := if right then (r ^^^ prev).getLsbD sign
      else r.getLsbD sign != cf
    (match s.osize with
      | O16 => modifyFlags (·.shxd cf ovf (r.setWidth 16 : U16))
      | O32 => modifyFlags (·.shxd cf ovf (r.setWidth 32 : U32))
      | O64 => modifyFlags (·.shxd cf ovf r))
    writeOp op r
    return op.cost 7 3

-- ======== atomic primitives

/-- B0: CMPXCHG r/m8. -/
def cmpxchg8 : Calm β U32 := do
  let (m, op) ← modrm
  lockCheck op.isMem
  let dest ← readOp8 op
  let s ← self
  let acc := s.gpr8 reg.RAX
  let _ ← withFlags (Alu.sub acc dest)
  (if acc = dest then writeOp8 op (s.gpr8 m.reg) else setGpr8 reg.RAX dest)
  return op.cost 7 6

/-- B1: CMPXCHG r/m. -/
def cmpxchg : Calm β U32 := do
  let (m, op) ← modrm
  lockCheck op.isMem
  let dest ← readOp op
  let s ← self
  let _ ← alu 5 s.acc dest
  (if s.acc = dest then writeOp op (s.regs.regSized s.osize m.reg) else setAcc dest)
  return op.cost 7 6

/-- C0: XADD r/m8. The register is written before the memory. -/
def xadd8 : Calm β U32 := do
  let (m, op) ← modrm
  lockCheck op.isMem
  let dest ← readOp8 op
  let s ← self
  let sum ← withFlags (Alu.add dest (s.gpr8 m.reg))
  setGpr8 m.reg dest
  writeOp8 op sum
  return op.cost 7 6

/-- C1: XADD r/m. -/
def xadd : Calm β U32 := do
  let (m, op) ← modrm
  lockCheck op.isMem
  let dest ← readOp op
  let s ← self
  let sum ← alu 0 dest (s.regs.regSized s.osize m.reg)
  writeRegOsize m.reg dest
  writeOp op sum
  return op.cost 7 6

/-- Compare-and-exchange of a pair of `z`-sized halves at `off` and
`off'`. -/
def cmpxchgPair (z : OpSize) (seg : U8) (off off' : U64) : Calm β U32 := do
  let lo ← readSized z (.mem seg off)
  let hi ← readSized z (.mem seg off')
  let s ← self
  if lo = s.regs.regSized z reg.RAX ∧ hi = s.regs.regSized z reg.RDX then do
    writeSized z (.mem seg off) (s.regs.regSized z reg.RBX)
    writeSized z (.mem seg off') (s.regs.regSized z reg.RCX)
    modifyFlags (·.insert RFlags.ZF)
    return 10
  else do
    modifyHot (·.setRegSized z reg.RAX lo)
    modifyHot (·.setRegSized z reg.RDX hi)
    modifyFlags (·.remove RFlags.ZF)
    return 10

/-- C7: CMPXCHG8B and CMPXCHG16B. -/
def group9 : Calm β U32 := do
  let (m, op) ← modrm
  raiseIf (m.sub ≠ 1) Exception.ud
  let (seg, off) ← memOperand op
  lockCheck true
  let s ← self
  if s.osize = O64 then do
    raiseIf (off &&& 0xF ≠ 0) (Exception.gp 0)
    cmpxchgPair O64 seg off (off + 8)
  else cmpxchgPair O32 seg off ((off + 4) &&& s.dataWrap)

-- ======== descriptor queries

/-- A descriptor, or `none` where reading it faults: the query
instructions report a bad selector in ZF. CR2 keeps a page fault's
address. -/
def tryDescriptor (sel : U16) : Calm β (Option Descriptor) :=
  if nullSel sel then pure none
  else do
    let r ← Bounded.outcome (readDescriptor sel)
    return r.toOption

/-- VERR and VERW. -/
def Cpu.verifySeg (c : Cpu) (sel : U16) (d : Descriptor) (write : Bool) : Bool :=
  d.present && d.isCodeData && c.dataPrivOk sel d
    && (if write then !d.isCode && d.attrs &&& 0x02 != 0
      else !d.isCode || d.attrs &&& 0x02 != 0)

/-- VERR and VERW: whether a segment may be read or written. -/
def verifySeg (sel : U16) (write : Bool) : Calm β Bool := do
  let d ← tryDescriptor sel
  let s ← self
  return d.any (s.verifySeg sel · write)

/-- The system types LAR and LSL accept. -/
def systemTypeOk (long lsl : Bool) (t : U8) : Bool :=
  if long then
    if lsl then t ∈ ([2, 9, 11] : List U8) else t ∈ ([2, 9, 11, 12] : List U8)
  else if lsl then t ∈ ([1, 2, 3, 9, 11] : List U8)
  else t ∈ ([1, 2, 3, 4, 5, 9, 11, 12] : List U8)

/-- Whether LAR or LSL may report on the descriptor. -/
def Cpu.larOk (c : Cpu) (sel : U16) (d : Descriptor) (lsl : Bool) : Bool :=
  d.present && (d.isCodeData || systemTypeOk c.longMode lsl d.sysType)
    && ((d.isCodeData && d.isConforming)
      || (decide (c.cpl ≤ d.dpl) && decide (rplOf sel ≤ d.dpl)))

/-- 02, 03: LAR and LSL. -/
def larLsl (lsl : Bool) : Calm β U32 := do
  let s ← self
  raiseIf (!s.protectedMode) Exception.ud
  let (m, op) ← modrm
  let sel ← readOp16 op
  let d ← tryDescriptor sel
  let s ← self
  match d.filter (s.larOk sel · lsl) with
  | some d => do
    modifyFlags (·.insert RFlags.ZF)
    let a := d.attrs.setWidth 64
    writeRegOsize m.reg (if lsl then d.limit.setWidth 64
      else ((a &&& (0xFF : U64)) <<< 8) ||| ((a &&& (0x0F00 : U64)) <<< 12))
    return 11
  | none => do
    modifyFlags (·.remove RFlags.ZF)
    return 11

-- ======== groups 6, 7

/-- A system segment register as a descriptor describes it. -/
def Descriptor.system (d : Descriptor) (sel attrs : U16) : SegReg :=
  { sel := sel, base := d.base, limit := d.limit, attrs := attrs }

/-- Load the LDT register. -/
def lldt (sel : U16) : Xfer β Unit := prepared do
  if nullSel sel then
    warmWrite fun r => { r with ldtr := SegReg.null sel }
  else do
    raiseIf (sel &&& 4 ≠ 0) (Exception.gp (selErr sel))
    let d ← (readDescriptor sel).lift
    raiseIf (d.attrs &&& 0x1F ≠ 0x02) (Exception.gp (selErr sel))
    raiseIf (!d.present) (Exception.np (selErr sel))
    warmWrite fun r => { r with ldtr := d.system sel d.attrs }

/-- Set the busy bit in a TSS descriptor in memory. -/
def markTssBusy (sel : U16) : Calm β Unit := do
  let s ← self
  let addr := s.regs.gdtr.base + (sel &&& 0xFFF8).setWidth 64
  let b ← sysRead8 (addr + 5)
  sysWrite8 (addr + 5) (b ||| 0x02)

/-- Load the task register and mark its TSS busy. -/
def ltr (sel : U16) : Xfer β Unit := prepared do
  raiseIf (nullSel sel ∨ sel &&& 4 ≠ 0) (Exception.gp (selErr sel))
  let d ← (readDescriptor sel).lift
  let s ← self
  let t := d.attrs &&& 0x1F
  -- Long mode only defines the 64-bit TSS type.
  raiseIf (!(t == 0x09 || (!s.longMode && t == 0x01)))
    (Exception.gp (selErr sel))
  raiseIf (!d.present) (Exception.np (selErr sel))
  (markTssBusy sel).lift
  warmWrite fun r => { r with tr := d.system sel (d.attrs ||| 0x02) }

/-- 00: SLDT, STR, LLDT, LTR, VERR, VERW. -/
def group6 : Xfer β U32 := do
  let s ← self
  raiseIf (!s.protectedMode) Exception.ud
  let (m, op) ← modrm.lift
  let s ← self
  if m.sub = 0 then do
    (storeWord op s.regs.ldtr.sel).lift
    return 2
  else if m.sub = 1 then do
    (storeWord op s.regs.tr.sel).lift
    return 2
  else if m.sub = 2 then do
    requireRing0.lift
    let sel ← (readOp16 op).lift
    lldt sel
    return 20
  else if m.sub = 3 then do
    requireRing0.lift
    let sel ← (readOp16 op).lift
    ltr sel
    return 23
  else if m.sub = 4 ∨ m.sub = 5 then do
    let sel ← (readOp16 op).lift
    let ok ← (verifySeg sel (m.sub == 5)).lift
    (modifyFlags (·.set RFlags.ZF ok)).lift
    return 10
  else throw Exception.ud

/-- SGDT and SIDT. -/
def storeTable (op : Operand) (t : DescTable) : Calm β U32 := do
  let (seg, off) ← memOperand op
  write16 seg off t.limit
  let s ← self
  (if s.longMode then write64 seg (off + 2) t.base
    else write32 seg (off + 2) (t.base.setWidth 32))
  return 9

/-- The base LGDT and LIDT load: 8 bytes in long mode, 24 bits at a 16-bit
operand size. -/
def readTableBase (seg : U8) (off : U64) : Calm β U64 := do
  let s ← self
  if s.longMode then do
    let b ← read64 seg off
    raiseIf (!canonical b) (Exception.gp 0)
    return b
  else do
    let b ← read32 seg off
    return ((if s.osize = O16 then b &&& 0x00FFFFFF else b) : U32).setWidth 64

/-- LGDT and LIDT. -/
def loadTable (m : ModRm) (op : Operand) : Xfer β U32 := do
  requireRing0.lift
  let (seg, off) ← (memOperand op).lift
  let limit ← (read16 seg off).lift
  let base ← (readTableBase seg (off + 2)).lift
  coldWrite (fun r => if m.sub = 2 then { r with gdtr := ⟨base, limit⟩ }
    else { r with idtr := ⟨base, limit⟩ }) fun r => by
      split <;> exact ⟨rfl, rfl⟩
  return 11

/-- SMSW. -/
def smsw (op : Operand) : Calm β U32 := do
  let s ← self
  match op with
  | .reg i => do
    writeRegOsize i s.regs.cr0
    return 2
  | .mem seg off => do
    write16 seg off (s.regs.cr0.setWidth 16)
    return 2

def lmsw (op : Operand) : Cold β U32 := do
  requireRing0.lift
  let v ← (readOp16 op).lift
  modeWrite (fun r => .ok (r.lmsw (v.setWidth 64)))
    (Registers.keepsMode_lmsw _)
  flushTlb.lift
  return 10

/-- INVLPG; the address is not access-checked. -/
def invlpgArm (seg : U8) (off : U64) : Calm β U32 := do
  requireRing0
  let s ← self
  let base := if s.m64 then
      (if seg = reg.FS ∨ seg = reg.GS then (s.regs.seg seg).base else 0)
    else (s.regs.seg seg).base
  invlpg (base + off)
  return 12

/-- RDTSCP. -/
def rdtscp : Calm β U32 := do
  readTsc
  let s ← self
  modifyHot (·.setReg32 reg.RCX s.regs.msr.tscAux)
  return 5

/-- 01: SGDT, SIDT, LGDT, LIDT, SMSW, LMSW, INVLPG, SWAPGS, RDTSCP. -/
def group7 : Cold β U32 := do
  let (m, op) ← modrm.lift
  let s ← self
  if m.sub = 0 then (storeTable op s.regs.gdtr).lift
  else if m.sub = 1 then (storeTable op s.regs.idtr).lift
  else if m.sub = 2 ∨ m.sub = 3 then (loadTable m op).lift
  else if m.sub = 4 then (smsw op).lift
  else if m.sub = 6 then lmsw op
  else if m.sub = 7 then
    match op with
    | .mem seg off => (invlpgArm seg off).lift
    | .reg rm =>
      if rm &&& 7 = 0 then swapgs.lift
      else if rm &&& 7 = 1 then rdtscp.lift
      else throw Exception.ud
  else throw Exception.ud

/-- B2, B4, B5: LSS, LFS, LGS. -/
def lssLfsLgs (opcode : U8) : Xfer β U32 := do
  let (m, op) ← modrm.lift
  let (seg, off) ← (memOperand op).lift
  let sreg := if opcode = 0xB2 then reg.SS else if opcode = 0xB4
    then reg.FS else reg.GS
  loadFarPointer sreg m.reg seg off
  return 7

-- ======== dispatch

/-- Opcodes a LOCK prefix may precede. -/
abbrev lockable0F : List U8 :=
  [0xAB, 0xB3, 0xBB, 0xBA, 0xB0, 0xB1, 0xC0, 0xC1, 0xC7]

/-- INVD and WBINVD, which have no cache to write back. -/
def invd : Calm β U32 := do
  requireRing0
  return 5

/-- The calm two-byte opcodes. -/
def dispatch0FCalm (opcode : U8) : Calm β U32 :=
  if opcode = 0x02 then larLsl false
  else if opcode = 0x03 then larLsl true
  else if opcode = 0x08 ∨ opcode = 0x09 then invd
  else if opcode = 0x0D ∨ (0x18 ≤ opcode ∧ opcode ≤ 0x1F) then hint
  else if opcode = 0x20 then movRCr
  else if opcode = 0x21 then movRDr
  else if opcode = 0x31 then rdtsc
  else if opcode = 0x32 then rdmsrArm
  else if opcode = 0x33 then rdpmc
  else if 0x40 ≤ opcode ∧ opcode ≤ 0x4F then cmov opcode
  else if 0x80 ≤ opcode ∧ opcode ≤ 0x8F then jccNear opcode
  else if 0x90 ≤ opcode ∧ opcode ≤ 0x9F then setcc opcode
  else if opcode = 0xA0 ∨ opcode = 0xA8 then pushFsGs opcode
  else if opcode = 0xA2 then cpuid
  else if opcode = 0xA3 then btRegIndex 0
  else if opcode = 0xAB then btRegIndex 1
  else if opcode = 0xB3 then btRegIndex 2
  else if opcode = 0xBB then btRegIndex 3
  else if opcode = 0xBA then group8
  else if opcode ∈ ([0xA4, 0xA5, 0xAC, 0xAD] : List U8) then shxd opcode
  else if opcode = 0xAF then imulRRm
  else if opcode = 0xB0 then cmpxchg8
  else if opcode = 0xB1 then cmpxchg
  else if opcode = 0xC0 then xadd8
  else if opcode = 0xC1 then xadd
  else if opcode ∈ ([0xB6, 0xB7, 0xBE, 0xBF] : List U8) then movWiden opcode
  else if opcode = 0xBC ∨ opcode = 0xBD then bitScan opcode
  else if opcode = 0xC7 then group9
  else if 0xC8 ≤ opcode ∧ opcode ≤ 0xCF then bswap opcode
  else throw Exception.ud

/-- The two-byte opcodes that load segments, make system calls or write
debug registers. -/
abbrev xfer0FOpcodes : List U8 :=
  [0x00, 0x05, 0x07, 0x23, 0xA1, 0xA9, 0xB2, 0xB4, 0xB5]

/-- The two-byte opcodes that load segments. -/
def dispatch0FXfer (opcode : U8) : Xfer β U32 :=
  if opcode = 0x00 then group6
  else if opcode = 0x05 then syscall
  else if opcode = 0x07 then sysret
  else if opcode = 0x23 then movDrR
  else if opcode = 0xA1 ∨ opcode = 0xA9 then popFsGs opcode
  else lssLfsLgs opcode

/-- The two-byte opcodes that may change the mode. -/
abbrev cold0FOpcodes : List U8 := [0x01, 0x06, 0x22, 0x30]

/-- The two-byte opcodes that write cold registers. -/
def dispatch0FCold (opcode : U8) : Cold β U32 :=
  if opcode = 0x01 then group7
  else if opcode = 0x06 then clts
  else if opcode = 0x22 then movCrR
  else wrmsrArm

/-- The two-byte opcodes. -/
def dispatch0F (opcode : U8) : Cold β U32 := do
  let s ← self
  raiseIf (s.lock ∧ opcode ∉ lockable0F) Exception.ud
  if opcode ∈ cold0FOpcodes then dispatch0FCold opcode
  else if opcode ∈ xfer0FOpcodes then (dispatch0FXfer opcode).lift
  else (dispatch0FCalm opcode).lift

/-- Execute one instruction whose prefixes are consumed. -/
def dispatch (opcode : U8) : Cold β U32 :=
  if opcode = 0x0F then do
    let op2 ← fetch8.lift
    dispatch0F op2
  else if opcode ∈ xferOpcodes then (dispatchXfer opcode).lift
  else (dispatchCalm opcode).lift

/-- The arm of an opcode that neither transfers nor loads a segment takes
calm steps only. -/
theorem dispatch_calm {opcode : U8} (h0F : opcode ≠ 0x0F)
    (hx : opcode ∉ xferOpcodes) :
    (dispatch opcode : Cold β U32) = (dispatchCalm opcode).lift := by
  rw [dispatch, if_neg h0F, if_neg hx]

end Remu.X64
