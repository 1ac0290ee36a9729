/-
The executor: one dispatch over the decoded record runs both ARM and Thumb
code, cached or freshly decoded.

Everything that touches registers only is a function of the core; the
loads, the stores, the block transfers and the swap sequence such functions
with accesses to the bus.
-/
import Remu.Arm32.Cpu

namespace Remu.Arm32

namespace Core

-- ======== operands

/-- Evaluate a condition field; 15 is never. -/
def condPass (c : Core) (cond : U8) : Bool :=
  let p := c.regs.cpsr
  match cond.toNat with
  | 0x0 => p.z
  | 0x1 => !p.z
  | 0x2 => p.c
  | 0x3 => !p.c
  | 0x4 => p.n
  | 0x5 => !p.n
  | 0x6 => p.v
  | 0x7 => !p.v
  | 0x8 => p.c && !p.z
  | 0x9 => !p.c || p.z
  | 0xA => p.n == p.v
  | 0xB => p.n != p.v
  | 0xC => !p.z && p.n == p.v
  | 0xD => p.z || p.n != p.v
  | 0xE => true
  | _ => false

/-- The R15 operand: the current instruction plus the prefetch depth. -/
def pcOp (c : Core) : U32 := c.startPc + if c.thumb then 4 else 8

/-- Register `i` as an operand. -/
def regOp (c : Core) (i : U8) : U32 :=
  if i = 15 then c.pcOp
  else if i = PCA then c.pcOp &&& ~~~3
  else c.gpr i

/-- Register `i` where the prefetch has advanced: R15 reads 12 ahead. -/
def regOp12 (c : Core) (i : U8) : U32 :=
  if i = 15 then c.startPc + 12 else c.gpr i

/-- The value the stores write for R15. -/
def pcStore (c : Core) : U32 := c.startPc + if c.thumb then 6 else 12

/-- Load the PC; Thumb state drops bit 0, ARM state keeps the raw value. -/
def branchTo (c : Core) (target : U32) : Core :=
  c.setGpr 15 (if c.regs.cpsr.t then target &&& ~~~1 else target)

/-- Write register `i`, branching when it is the PC. -/
def setReg (c : Core) (i : U8) (v : U32) : Core :=
  if i = 15 then c.branchTo v else c.setGpr i v

/-- Replace the CPSR raw, with the register bank its mode selects. -/
def installCpsr (c : Core) (next : Psr) : Core :=
  { c with regs := { c.regs.setMode next.mode with cpsr := next } }

/-- Restore the CPSR from the current SPSR; nothing in User and System. -/
def restoreCpsr (c : Core) : Core :=
  match c.regs.spsrBanked with
  | none => c
  | some bits => c.installCpsr ⟨bits⟩

-- ======== data processing

/-- The second operand and the shifter carry. The amount is read before
the prefetch advances, the operands after it. -/
def operand2 (c : Core) (d : DecodedInsn) : U32 × Bool :=
  let carryIn := c.regs.cpsr.c
  if d.op = .dpImm then
    (d.imm, if d.aux &&& dp.ROT != 0 then d.imm >>> 31 != 0 else carryIn)
  else if d.op = .dpShImm then
    shiftImm ((d.aux &&& dp.TY) >>> dp.TY_SHIFT) d.rs (c.regOp d.rm) carryIn
  else
    shiftReg ((d.aux &&& dp.TY) >>> dp.TY_SHIFT) ((c.regOp d.rs).setWidth 8)
      (c.regOp12 d.rm)
      carryIn

/-- Result, carry, overflow and whether the destination is written. -/
def aluResult (opn : U8) (rn op2 : U32) (sc carryIn v : Bool) :
    (U32 × Bool × Bool) × Bool :=
  let logic (r : U32) := (r, sc, v)
  if opn = aluOp.AND then (logic (rn &&& op2), true)
  else if opn = aluOp.EOR then (logic (rn ^^^ op2), true)
  else if opn = aluOp.SUB then (subWithCarry rn op2 true, true)
  else if opn = aluOp.RSB then (subWithCarry op2 rn true, true)
  else if opn = aluOp.ADD then (addWithCarry rn op2 false, true)
  else if opn = aluOp.ADC then (addWithCarry rn op2 carryIn, true)
  else if opn = aluOp.SBC then (subWithCarry rn op2 carryIn, true)
  else if opn = aluOp.RSC then (subWithCarry op2 rn carryIn, true)
  else if opn = aluOp.TST then (logic (rn &&& op2), false)
  else if opn = aluOp.TEQ then (logic (rn ^^^ op2), false)
  else if opn = aluOp.CMP then (subWithCarry rn op2 true, false)
  else if opn = aluOp.CMN then (addWithCarry rn op2 false, false)
  else if opn = aluOp.ORR then (logic (rn ||| op2), true)
  else if opn = aluOp.MOV then (logic op2, true)
  else if opn = aluOp.BIC then (logic (rn &&& ~~~op2), true)
  else (logic (~~~op2), true)

/-- The operations that leave V alone. -/
def isLogical (opn : U8) : Bool :=
  opn ∈ [aluOp.AND, aluOp.EOR, aluOp.TST, aluOp.TEQ, aluOp.ORR, aluOp.MOV,
    aluOp.BIC, aluOp.MVN]

/-- The plain flag write. -/
def setDpFlags (c : Core) (opn : U8) (result : U32) (carry v : Bool) : Core :=
  let p := (c.regs.cpsr.setNz result).set psr.C carry
  c.setCpsr (if isLogical opn then p else p.set psr.V v)

/-- Data processing: shifter, operation, flags; a write of the PC branches. -/
def execDp (d : DecodedInsn) (c : Core) : U32 × Core :=
  let carryIn := c.regs.cpsr.c
  let shreg := d.op = .dpShReg
  let (op2, sc) := c.operand2 d
  let rn := if shreg then c.regOp12 d.rn else c.regOp d.rn
  let opn := d.aux &&& dp.OP
  let ((result, carry, v), writesRd) :=
    aluResult opn rn op2 sc carryIn c.regs.cpsr.v
  let s := d.aux &&& dp.S != 0
  let cycles : U32 := if shreg then 2 else 1
  let restores := d.rd == 15 && s && c.regs.cpsr.mode.hasSpsr
  let c := if s && !(restores && writesRd)
    then c.setDpFlags opn result carry v else c
  -- the mode-return forms overwrite any flags computed above
  let c := if restores then c.restoreCpsr else c
  if writesRd then
    if d.rd = 15 then (cycles + 2, c.branchTo result)
      else (cycles, c.setGpr d.rd result)
  else (cycles, c)

-- ======== multiplies

/-- MUL and MLA. -/
def execMul (d : DecodedInsn) (c : Core) : U32 × Core :=
  let rs := c.regOp12 d.rs
  let acc := d.aux &&& mul.ACC != 0
  let r := c.regOp12 d.rm * rs
  let r := if acc then r + c.regOp12 d.rn else r
  let cycles := 1 + mulCycles rs true + if acc then 1 else 0
  let c := c.setReg d.rd r
  (cycles, if d.aux &&& mul.S != 0 then c.setCpsr (c.regs.cpsr.setNz r) else c)

/-- The long multiplies. -/
def execMull (d : DecodedInsn) (c : Core) : U32 × Core :=
  let rs := c.regOp12 d.rs
  let rm := c.regOp12 d.rm
  let signed := d.aux &&& mul.SIGNED != 0
  let acc := d.aux &&& mul.ACC != 0
  let r : U64 := if signed then rm.signExtend 64 * rs.signExtend 64
    else rm.setWidth 64 * rs.setWidth 64
  let cycles := 2 + mulCycles rs signed + if acc then 1 else 0
  let hilo : U64 :=
    ((c.regOp12 d.rd).setWidth 64 <<< 32) ||| (c.regOp12 d.rn).setWidth 64
  let r := if acc then r + hilo else r
  let c := (c.setReg d.rn (r.setWidth 32)).setReg d.rd ((r >>> 32).setWidth 32)
  (cycles,
    if d.aux &&& mul.S != 0 then
      c.setCpsr ((c.regs.cpsr.set psr.N (r >>> 63 != 0)).set psr.Z (r == 0))
    else c)

-- ======== PSR transfer

/-- Reads CPSR or SPSR. -/
def execMrs (d : DecodedInsn) (c : Core) : U32 × Core :=
  let v := if d.aux &&& sr.SPSR != 0 then c.regs.spsrBits else c.regs.cpsr.bits
  -- MRS never reloads the pipeline, so the written value slips one slot
  (1, if d.rd = 15 then c.setGpr 15 (v - 4) else c.setGpr d.rd v)

/-- The bytes of a status register that a field mask selects. -/
def fieldMask (fields : U8) : U32 :=
  let part (bit : U8) (m : U32) := if fields &&& bit != 0 then m else 0
  part 1 0x000000FF ||| part 2 0x0000FF00 ||| part 4 0x00FF0000
    ||| part 8 0xFF000000

/-- MSR. User mode can only touch the flag field, and a write of the
control field forces mode bit 4 on. -/
def execMsr (c : Core) (value : U32) (aux : U8) : Core :=
  let mask := fieldMask (aux >>> sr.FIELD_SHIFT)
  if aux &&& sr.SPSR != 0 then { c with regs := c.regs.setSpsr value mask }
  else
    let mask := if !c.regs.cpsr.privileged then mask &&& 0xFF000000 else mask
    let raw := (c.regs.cpsr.bits &&& ~~~mask) ||| (value &&& mask)
    c.installCpsr ⟨if mask &&& 0xFF != 0 then raw ||| 0x10 else raw⟩

-- ======== branches

/-- B and BL. -/
def execBranch (d : DecodedInsn) (c : Core) : U32 × Core :=
  let target := c.pcOp + d.imm
  let c := if d.aux &&& BR_LINK != 0 then c.setGpr 14 (c.startPc + 4) else c
  (3, c.branchTo target)

/-- BX: bit 0 of the target chooses Thumb. -/
def execBx (d : DecodedInsn) (c : Core) : U32 × Core :=
  let v := c.regOp d.rm
  (3, (c.setCpsr (c.regs.cpsr.set psr.T (v &&& 1 != 0))).branchTo (v &&& ~~~1))

/-- SWI: the host's trap, if it asked for one, else the exception. -/
def execSwi (c : Core) : U32 × Core :=
  (3, if c.trapSwi then c.setHostTrap .syscall else c.raise .swi)

/-- The two halves of a Thumb BL. -/
def execThumbBl (d : DecodedInsn) (c : Core) : U32 × Core :=
  if d.aux &&& TBL_SUFFIX = 0 then
    (1, c.setGpr 14 (c.pcOp + (d.imm <<< 21).sshiftRight 9))
  else
    let ret := c.gpr 15 ||| 1
    let target := c.gpr 14 + (d.imm <<< 1)
    (3, (c.setGpr 14 ret).branchTo target)

-- ======== transfer addresses

/-- Address and write-back value of the single transfers. -/
def xferAddr (c : Core) (d : DecodedInsn) : U32 × U32 :=
  let base := c.regOp d.rn
  let off := if d.aux &&& xfer.REG != 0 then
      (shiftImm (d.aux >>> xfer.TY_SHIFT) d.rs (c.regOp d.rm) c.regs.cpsr.c).1
    else d.imm
  let indexed := if d.aux &&& xfer.UP != 0 then base + off else base - off
  (if d.aux &&& xfer.PRE != 0 then indexed else base, indexed)

/-- Address and write-back value of the halfword and signed transfers. -/
def hwAddr (c : Core) (d : DecodedInsn) : U32 × U32 :=
  let base := c.regOp d.rn
  let off := if d.aux &&& hw.REG != 0 then c.regOp d.rm else d.imm
  let indexed := if d.aux &&& hw.UP != 0 then base + off else base - off
  (if d.aux &&& hw.PRE != 0 then indexed else base, indexed)

/-- Base write-back; a PC base is written back four further on. -/
def xferWriteback (c : Core) (rn : U8) (wb : U32) : Core :=
  if rn = 15 then c.setGpr 15 (wb + 4) else c.setGpr rn wb

/-- The write-back of a single transfer, where it has one. -/
def writeBackIf (c : Core) (on : Bool) (rn : U8) (wb : U32) : Core :=
  if on && rn != PCA then c.xferWriteback rn wb else c

/-- The end of a load; behind the write-back, so the loaded value wins. -/
def loaded (rd : U8) (v : U32) (c : Core) : U32 × Core :=
  if rd = 15 then (5, c.branchTo v) else (3, c.setGpr rd v)

/-- What a store writes from `rd`. -/
def stored (c : Core) (rd : U8) : U32 :=
  if rd = 15 then c.pcStore else c.gpr rd

/-- The number of registers in a list. -/
def countOnes (list : U16) : Nat :=
  (List.range 16).countP fun i => list.getLsbD i

/-- The lowest register in a list. -/
def trailingZeros (list : U16) : Nat :=
  (List.range 16).findIdx fun i => list.getLsbD i

/-- Start address and write-back value of the block transfers, which walk
ascending addresses. -/
def blkAddr (c : Core) (d : DecodedInsn) : U32 × U32 :=
  let base := c.regOp d.rn
  let bytes : U32 := if d.aux &&& blk.EMPTY != 0 then 0x40
    else 4 * BitVec.ofNat 32 (countOnes (d.imm.setWidth 16))
  let pre := d.aux &&& blk.PRE != 0
  if d.aux &&& blk.UP != 0 then
    ((if pre then base + 4 else base) &&& ~~~3, base + bytes)
  else
    let down := base - bytes
    ((if pre then down else down + 4) &&& ~~~3, down)

/-- Write register `i`, of the user bank for a user-bank transfer. -/
def setListed (c : Core) (userBank : Bool) (i : Fin 16) (v : U32) : Core :=
  { c with regs := if userBank then c.regs.setUserReg i v else c.regs.setGpr i v }

/-- What STM stores for register `i`: the first slot holds the original
base, later slots the written-back value. -/
def stmValue (c : Core) (d : DecodedInsn) (wb : U32) (i : Fin 16) : U32 :=
  let lowest := trailingZeros (d.imm.setWidth 16)
  if i.val = d.rn.toNat ∧ d.aux &&& blk.WB ≠ 0 ∧ i.val ≠ lowest then wb
  else if i = 15 then c.pcStore
  else if d.aux &&& blk.S != 0 then c.regs.userReg i
  else c.regs.gpr i

end Core

-- ======== memory forms

section Memory

variable {β : Type} [Bus β]

/-- LDR and LDRB, with their write-back. -/
def execLdr (d : DecodedInsn) : Exec β U32 := do
  let (addr, wb) := (← core).xferAddr d
  let v ← if d.aux &&& xfer.BYTE != 0 then do pure ((← load8 addr).setWidth 32)
    else read32Rot addr
  onCore fun c =>
    (c.writeBackIf (d.aux &&& xfer.WB != 0) d.rn wb).loaded d.rd v

/-- STR and STRB, with their write-back. -/
def execStr (d : DecodedInsn) : Exec β U32 := do
  let c ← core
  let (addr, wb) := c.xferAddr d
  let v := c.stored d.rd
  if d.aux &&& xfer.BYTE != 0 then write8 addr (v.setWidth 8)
    else write32 (addr &&& ~~~3) v
  onCore fun c => (2, c.writeBackIf (d.aux &&& xfer.WB != 0) d.rn wb)

/-- The halfword and signed loads; LDRSH from an odd address degrades to
LDRSB. -/
def loadMisc (sh : U8) (addr : U32) : Exec β U32 :=
  if sh = hw.H then read16Rot addr
  else if sh = hw.SB then do pure ((← load8 addr).signExtend 32)
  else if addr &&& 1 != 0 then do pure ((← load8 addr).signExtend 32)
  else do pure ((← load16 addr).signExtend 32)

/-- Halfword and signed loads. -/
def execLdrMisc (d : DecodedInsn) : Exec β U32 := do
  let (addr, wb) := (← core).hwAddr d
  let v ← loadMisc (d.aux &&& hw.SH) addr
  onCore fun c => (c.writeBackIf (d.aux &&& hw.WB != 0) d.rn wb).loaded d.rd v

/-- Halfword stores. -/
def execStrMisc (d : DecodedInsn) : Exec β U32 := do
  let c ← core
  let (addr, wb) := c.hwAddr d
  write16 (addr &&& ~~~1) ((c.stored d.rd).setWidth 16)
  onCore fun c => (2, c.writeBackIf (d.aux &&& hw.WB != 0) d.rn wb)

/-- The registers of a list, lowest first. -/
def listed (list : U16) : List (Fin 16) :=
  (List.finRange 16).filter fun i => list.getLsbD i

/-- The transfers of LDM from `addr` on; the PC's value is returned. -/
def ldmLoop (userBank : Bool) :
    List (Fin 16) → U32 → Option U32 → Exec β (Option U32)
  | [], _, pcVal => pure pcVal
  | i :: is, addr, pcVal => do
    let v ← load32 addr
    if i = 15 then ldmLoop userBank is (addr + 4) (some v)
    else
      onCore fun c => ((), c.setListed userBank i v)
      ldmLoop userBank is (addr + 4) pcVal

/-- The end of LDM: write-back unless the base was in the list, then the PC
with the CPSR it restores. -/
def ldmFinish (d : DecodedInsn) (wb : U32) (pcVal : Option U32) (c : Core) :
    U32 × Core :=
  let list : U16 := d.imm.setWidth 16
  let userBank := d.aux &&& blk.S != 0 && !list.getLsbD 15
  let c := if d.aux &&& blk.WB != 0 && !list.getLsbD d.rn.toNat then
      c.setListed userBank (Core.ix d.rn) wb
    else c
  let cycles := BitVec.ofNat 32 (Core.countOnes list) + 2
  match pcVal with
  | none => (cycles, c)
  | some v =>
    let c := if d.aux &&& blk.S != 0 then c.restoreCpsr else c
    -- the empty-list quirk loads the PC raw
    (cycles + 2, if d.aux &&& blk.EMPTY != 0 then c.setGpr 15 v else c.branchTo v)

/-- LDM in its four addressing modes. -/
def execLdm (d : DecodedInsn) : Exec β U32 := do
  let (addr, wb) := (← core).blkAddr d
  let list : U16 := d.imm.setWidth 16
  let pcVal ← ldmLoop (d.aux &&& blk.S != 0 && !list.getLsbD 15)
    (listed list) addr none
  onCore (ldmFinish d wb pcVal)

/-- The transfers of STM from `addr` on. -/
def stmLoop (d : DecodedInsn) (wb : U32) : List (Fin 16) → U32 → Exec β Unit
  | [], _ => pure ()
  | i :: is, addr => do
    write32 addr ((← core).stmValue d wb i)
    stmLoop d wb is (addr + 4)

/-- STM in its four addressing modes. -/
def execStm (d : DecodedInsn) : Exec β U32 := do
  let (addr, wb) := (← core).blkAddr d
  let list : U16 := d.imm.setWidth 16
  stmLoop d wb (listed list) addr
  onCore fun c =>
    (BitVec.ofNat 32 (Core.countOnes list) + 1,
      if d.aux &&& blk.WB != 0
        then c.setListed (d.aux &&& blk.S != 0) (Core.ix d.rn) wb else c)

/-- SWP: the load and the store are both checked first. -/
def execSwp (d : DecodedInsn) : Exec β U32 := do
  let c ← core
  let addr := c.regOp12 d.rn
  let src := c.regOp12 d.rm
  let old ← if d.aux &&& 1 != 0 then do
      let v ← load8 addr
      write8 addr (src.setWidth 8)
      pure (v.setWidth 32)
    else do
      let v ← read32Rot addr
      write32 (addr &&& ~~~3) src
      pure v
  onCore fun c => (4, c.setReg d.rd old)

/-- Execute one decoded instruction; the PC has already advanced. Returns
the cycles it took. -/
def execDecoded (d : DecodedInsn) : Exec β U32 := do
  if !(← core).condPass d.cond then return 1
  match d.op with
  | .dpImm => onCore (Core.execDp d)
  | .dpShImm => onCore (Core.execDp d)
  | .dpShReg => onCore (Core.execDp d)
  | .mul => onCore (Core.execMul d)
  | .mull => onCore (Core.execMull d)
  | .mrs => onCore (Core.execMrs d)
  | .msrReg => onCore fun c => (1, c.execMsr (c.regOp d.rm) d.aux)
  | .msrImm => onCore fun c => (1, c.execMsr d.imm d.aux)
  | .branchImm => onCore (Core.execBranch d)
  | .bx => onCore (Core.execBx d)
  | .ldr => execLdr d
  | .str => execStr d
  | .ldrMisc => execLdrMisc d
  | .strMisc => execStrMisc d
  | .ldm => execLdm d
  | .stm => execStm d
  | .swp => execSwp d
  | .swi => onCore Core.execSwi
  | .undef => throw .undefined
  | .thumbBl => onCore (Core.execThumbBl d)

end Memory

-- ======== step and run

section Step

variable {β : Type} [Bus β]

/-- The fetch behind a miss. -/
def fetchFresh (thumb : Bool) (pc : U32) : Exec β DecodedInsn := do
  if thumb then return decodeThumb (← load16 pc)
    else return decodeArm (← load32 pc)

/-- The record of the instruction at `pc`: the cached one on a hit, else a
fresh one, which the cache then holds. -/
def fetch (thumb : Bool) (pc : U32) : Exec β DecodedInsn := fun m =>
  let key := ICache.keyOf pc thumb
  let slot := ICache.entrySlot pc
  if !m.fusedOnly && m.icache.hit key slot pc
    then (.ok (m.icache.entries slot).insn, m)
  else match fetchFresh thumb pc m with
    | (.ok d, m) =>
      (.ok d, if !m.fusedOnly then { m with icache := m.icache.fill key slot d } else m)
    | (.error e, m) => (.error e, m)

/-- Fetch and execute the instruction at `gpr[15]`, up to its fault. -/
def execBody (thumb : Bool) (pc : U32) : Exec β U32 := do
  onCore fun c => ((), { c with thumb := thumb, startPc := pc })
  let d ← fetch thumb pc
  onCore fun c => ((), c.setGpr 15 (pc + d.len.setWidth 32))
  execDecoded d

/-- Dispose of a fault; only the PC needs rewinding. -/
def Core.faultEpilogue (e : Exception) (c : Core) : Core :=
  if c.trapFaults then (c.setGpr 15 c.startPc).setHostTrap (.exception e)
    else c.raise e

/-- Fetch, decode and execute the instruction at `gpr[15]`. -/
def execOne (m : Machine β) : U32 × Machine β :=
  let thumb := m.regs.cpsr.t
  let pc := m.gpr 15 &&& (if thumb then ~~~1 else ~~~3)
  match execBody thumb pc m with
  | (.ok cycles, m) => (cycles, m)
  | (.error e, m) =>
    (EXCEPTION_CYCLES, { m with toCore := m.toCore.faultEpilogue e })

/-- Charge cycles. -/
def Core.charge (c : Core) (n : U32) : Core :=
  { c with cycles := c.cycles + n.setWidth 64 }

/-- The boundary fast path: execute one instruction. -/
def stepFast (m : Machine β) : U32 × Machine β :=
  let (cycles, m) := execOne m
  (cycles, { m with toCore := m.toCore.charge cycles })

/-- An interrupt delivery at the boundary. -/
def Core.deliver (c : Core) (e : Exception) : Core :=
  ({ c with halted := false }.raise e).charge EXCEPTION_CYCLES

/-- The boundary slow path: FIQ outranks IRQ, and a halted CPU idles. -/
def stepSlow (m : Machine β) : U32 × Machine β :=
  let m := { m with events := m.events &&& ~~~EVT_HOST_TRAP }
  if m.events &&& EVT_FIQ != 0 && !m.regs.cpsr.f then
    (EXCEPTION_CYCLES, { m with toCore := m.toCore.deliver .fiq })
  else if m.events &&& EVT_IRQ != 0 && !m.regs.cpsr.i then
    (EXCEPTION_CYCLES, { m with toCore := m.toCore.deliver .irq })
  else if m.halted then (1, { m with toCore := m.toCore.charge 1 })
  else stepFast m

/-- Whether the next boundary needs the slow path. -/
def Core.boundaryPending (c : Core) : Bool := c.events != 0 || c.halted

/-- Execute one instruction or service a pending interrupt. -/
def step (m : Machine β) : U32 × Machine β :=
  if m.boundaryPending then stepSlow m else stepFast m

/-- Why a batch stopped. -/
inductive RunExit where
  | completed
  | hostTrap
  | halted
deriving DecidableEq, Repr

/-- How much of a batch ran, and why it stopped. -/
structure RunResult where
  executed : Nat
  exit : RunExit
deriving DecidableEq, Repr

/-- The boundary arm of a batch: an exit, or one slow step. -/
def runBoundary (m : Machine β) : Option RunExit × Machine β :=
  if m.hostTrap.isSome then
    (some .hostTrap, { m with events := m.events &&& ~~~EVT_HOST_TRAP })
  else if m.halted && !m.interruptPending then (some .halted, m)
  else (none, (stepSlow m).2)

/-- Steps until the count is reached or a step says to stop. -/
def runLoop : Nat → Nat → Machine β → RunResult × Machine β
  | 0, executed, m => (⟨executed, .completed⟩, m)
  | n + 1, executed, m =>
    if m.boundaryPending then
      match runBoundary m with
      | (some exit, m) => (⟨executed, exit⟩, m)
      | (none, m) => runLoop n (executed + 1) m
    else runLoop n (executed + 1) (stepFast m).2

/-- Up to `n` steps as one batch; an untaken trap stops it at once. -/
def run (n : Nat) (m : Machine β) : RunResult × Machine β :=
  if m.hostTrap.isSome then (⟨0, .hostTrap⟩, m) else runLoop n 0 m

end Step

end Remu.Arm32
