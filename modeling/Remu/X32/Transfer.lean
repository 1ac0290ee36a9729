/-
Far control transfers: JMP and CALL to a code segment or through a call
gate, RETF, IRET and the return to virtual-8086 mode.

Everything here changes CS, and with it CPL. The checks come first and
each is a pure predicate on the processor and the descriptor, so that what
a successful transfer guarantees can be read off its guards.
-/
import Remu.X32.Modrm

namespace Remu.X32

variable {β : Type} [Bus β]

-- ======== checks

namespace Cpu

/-- CPL rules of a direct JMP or CALL to a code segment. -/
def codeReachable (c : Cpu) (sel : U16) (d : Descriptor) : Bool :=
  if d.isConforming then decide (d.dpl ≤ c.cpl)
  else decide (rplOf sel ≤ c.cpl) && d.dpl == c.cpl

/-- Gate privilege and presence; the target selector, offset and parameter
count, and whether the gate is a 32-bit one. -/
def checkGate (c : Cpu) (sel : U16) (d : Descriptor) :
    Except Exception (U16 × U32 × U32 × Bool) :=
  if d.dpl < c.cpl ∨ d.dpl < rplOf sel then .error (Exception.gp (selErr sel))
  else if !d.present then .error (Exception.np (selErr sel))
  else
    let wide := d.sysType == 12
    .ok (d.gateSel, d.gateOff wide, d.gateParams, wide)

/-- The code segment a gate points at. -/
def checkGateTarget (c : Cpu) (gsel : U16) (gd : Descriptor) :
    Except Exception Unit :=
  if nullSel gsel then .error (Exception.gp 0)
  else if !gd.isCode then .error (Exception.gp (selErr gsel))
  else if c.cpl < gd.dpl then .error (Exception.gp (selErr gsel))
  else if !gd.present then .error (Exception.np (selErr gsel))
  else .ok ()

/-- A gate target that is more privileged than the caller. -/
def innerTarget (c : Cpu) (gd : Descriptor) : Bool :=
  !gd.isConforming && decide (gd.dpl < c.cpl)

/-- The descriptor rules of a return to `sel`. -/
def checkReturnCode (sel : U16) (d : Descriptor) : Except Exception Unit :=
  if !d.isCode then .error (Exception.gp (selErr sel))
  else if d.isConforming && decide (rplOf sel < d.dpl) then
    .error (Exception.gp (selErr sel))
  else if !d.isConforming && d.dpl != rplOf sel then
    .error (Exception.gp (selErr sel))
  else if !d.present then .error (Exception.np (selErr sel))
  else .ok ()

end Cpu

-- ======== TSS and stacks

def pushAll (wide : Bool) : List U32 → Calm β Unit
  | [] => pure ()
  | v :: rest => do
    pushWidth wide v
    pushAll wide rest

/-- The SS:(E)SP pair of privilege level `level` from the TSS, whose type
says how wide its fields are. -/
def tssStack (level : U8) : Calm β (U16 × U32) := do
  let s ← self
  let tr := s.regs.tr
  let tssErr := Exception.ts (selErr tr.sel)
  if tr.attrs &&& 0x08 != 0 then do
    let off := 4 + level.toNat * 8
    raiseIf (tr.limit.toNat < off + 5) tssErr
    let sp ← sysRead32 (tr.base + BitVec.ofNat 32 off)
    let ss ← sysRead16 (tr.base + BitVec.ofNat 32 (off + 4))
    return (ss, sp)
  else do
    let off := 2 + level.toNat * 4
    raiseIf (tr.limit.toNat < off + 3) tssErr
    let sp ← sysRead16 (tr.base + BitVec.ofNat 32 off)
    let ss ← sysRead16 (tr.base + BitVec.ofNat 32 (off + 2))
    return (ss, sp.setWidth 32)

/-- Load ESP with `sp` at the width of a stack segment. -/
def HotRegs.setStack (r : HotRegs) (wide : Bool) (sp : U32) : HotRegs :=
  r.setRegSized wide reg.ESP sp

@[simp] theorem HotRegs.eflags_setStack (r : HotRegs)
    (wide : Bool) (sp : U32) :
    (r.setStack wide sp).eflags = r.eflags :=
  r.eflags_setRegSized wide reg.ESP sp

/-- Load SS:(E)SP with a checked stack segment. -/
def commitStack (ss : U16) (d : Descriptor) (sp : U32) : Xfer β Unit := do
  (markAccessed d).lift
  commitSeg reg.SS ss d
  (modifyHot (·.setStack d.db sp)).lift

/-- Validate and load an inner stack segment. -/
def switchStack (ss : U16) (sp : U32) (newCpl : U8) : Xfer β Unit := do
  raiseIf (nullSel ss) (Exception.ts 0)
  raiseIf (rplOf ss ≠ newCpl) (Exception.ts (selErr ss))
  let d ← (readDescriptorErr ss Exception.ts).lift
  raiseIf (!d.isWritableData || d.dpl != newCpl) (Exception.ts (selErr ss))
  raiseIf (!d.present) (Exception.ss (selErr ss))
  commitStack ss d sp

-- ======== JMP and CALL

/-- Real- and V86-mode far transfer. -/
def farReal (sel : U16) (off : U32) : Xfer β Unit := prepared do
  let s ← self
  raiseIf ((s.regs.seg reg.CS).limit < off) (Exception.gp 0)
  warmWrite fun r => r.setSeg reg.CS ((r.seg reg.CS).loadReal sel)
  (setEip off).lift

/-- The checks a direct JMP and CALL share. -/
def checkDirect (sel : U16) (off : U32) (d : Descriptor) : Calm β Unit := do
  raiseIf (!d.isCode) (Exception.gp (selErr sel))
  let s ← self
  raiseIf (!s.codeReachable sel d) (Exception.gp (selErr sel))
  raiseIf (!d.present) (Exception.np (selErr sel))
  raiseIf (d.limit < off) (Exception.gp 0)

/-- Load CS at the current CPL and continue at `off`. -/
def enterCode (sel : U16) (d : Descriptor) (off : U32) : Xfer β Unit := do
  let s ← self
  loadCs sel d s.cpl
  (setEip off).lift

/-- A descriptor that is a call gate; task gates are not implemented. -/
def Descriptor.isCallGate (d : Descriptor) : Bool :=
  d.sysType == 4 || d.sysType == 12

/-- JMP through a call gate: the checks of CALL, but the target must not be
more privileged. -/
def jumpGate (sel : U16) (d : Descriptor) : Xfer β Unit := do
  let s ← self
  let (gsel, goff, _, wide) ← check (s.checkGate sel d)
  let gd ← (readDescriptor gsel).lift
  let s ← self
  check (s.checkGateTarget gsel gd)
  raiseIf (!gd.isConforming && gd.dpl != s.cpl) (Exception.gp (selErr gsel))
  let off := if wide then goff else goff &&& 0xFFFF
  raiseIf (gd.limit < off) (Exception.gp 0)
  enterCode gsel gd off

def jumpFar (sel : U16) (off : U32) : Xfer β Unit := do
  let s ← self
  if !s.protectedMode then farReal sel off
  else do
    raiseIf (nullSel sel) (Exception.gp 0)
    let d ← (readDescriptor sel).lift
    if d.isCodeData then do
      (checkDirect sel off d).lift
      enterCode sel d off
    else if d.isCallGate then jumpGate sel d
    else throw (Exception.gp (selErr sel))

/-- The parameters of a gate call, first to last. -/
def readParams (wide : Bool) : U32 → Nat → Calm β (List U32)
  | _, 0 => pure []
  | off, n + 1 => do
    let v ← (if wide then read32 reg.SS off
      else (·.setWidth 32) <$> read16 reg.SS off)
    let rest ← readParams wide (off + if wide then 4 else 2) n
    return v :: rest

/-- The inner frame of a gate call: old SS:SP, the parameters in their
original order above the return address. -/
def pushGateFrame (wide : Bool) (oldSs : U16) (oldSp : U32) (args : List U32) :
    Calm β Unit := do
  let s ← self
  pushAll wide ([oldSs.setWidth 32, oldSp] ++ args.reverse
    ++ [(s.regs.seg reg.CS).sel.setWidth 32, s.regs.eip])

/-- CALL through a call gate, possibly switching to an inner stack. -/
def callGate (sel : U16) (gate : Descriptor) : Xfer β Unit := do
  let s ← self
  let (gsel, goff, params, wide) ← check (s.checkGate sel gate)
  let gd ← (readDescriptor gsel).lift
  let s ← self
  check (s.checkGateTarget gsel gd)
  let off := if wide then goff else goff &&& 0xFFFF
  if s.innerTarget gd then do
    let (newSs, newSp) ← (tssStack gd.dpl).lift
    let s ← self
    let oldSs := (s.regs.seg reg.SS).sel
    let oldSp := s.stackPtr
    -- The parameters come off the old stack before the switch.
    let args ← (readParams wide oldSp params.toNat).lift
    switchStack newSs newSp gd.dpl
    -- CS is still the outer segment: push with supervisor privilege.
    (asSupervisor (pushGateFrame wide oldSs oldSp args)).lift
    loadCs gsel gd gd.dpl
    (setEip off).lift
  else do
    (pushAll wide [(s.regs.seg reg.CS).sel.setWidth 32, s.regs.eip]).lift
    loadCs gsel gd s.cpl
    (setEip off).lift

def callFar (sel : U16) (off : U32) : Xfer β Unit := do
  let s ← self
  let cs := (s.regs.seg reg.CS).sel.setWidth 32
  let ip := s.regs.eip
  if !s.protectedMode then do
    (push cs).lift
    (push ip).lift
    farReal sel off
  else do
    raiseIf (nullSel sel) (Exception.gp 0)
    let d ← (readDescriptor sel).lift
    if d.isCodeData then do
      (checkDirect sel off d).lift
      (push cs).lift
      (push ip).lift
      enterCode sel d off
    else if d.isCallGate then callGate sel d
    else throw (Exception.gp (selErr sel))

-- ======== RETF and IRET

/-- Load SS and the stack pointer of an outer-privilege return. -/
def loadOuterSs (ss : U16) (sp : U32) (rpl : U8) : Xfer β Unit := do
  raiseIf (nullSel ss) (Exception.gp 0)
  raiseIf (rplOf ss ≠ rpl) (Exception.gp (selErr ss))
  let d ← (readDescriptor ss).lift
  raiseIf (!d.isWritableData || d.dpl != rpl) (Exception.gp (selErr ss))
  raiseIf (!d.present) (Exception.ss (selErr ss))
  commitStack ss d sp

/-- A data segment after a return to `cpl`: cleared if it was usable only
further in. -/
def SegReg.scrub (s : SegReg) (cpl : U8) : SegReg :=
  if s.attrs &&& 0x80 != 0 && !(s.attrs &&& 0x1C == 0x1C) && decide
    (s.dpl < cpl) then
    SegReg.null 0
  else s

/-- The four data segment registers. -/
abbrev dataSegs : List U8 := [reg.ES, reg.DS, reg.FS, reg.GS]

def ColdRegs.validateDataSegs (r : ColdRegs) (cpl : U8) : ColdRegs :=
  { r with seg := fun i => if i ∈ dataSegs then (r.seg i).scrub cpl else r.seg i }

/-- Invalidate data segments whose DPL is below the new CPL. -/
def validateDataSegs (cpl : U8) : Xfer β Unit :=
  coldWrite (·.validateDataSegs cpl)

/-- The return target both RETF and IRET demand. -/
def returnTarget (sel : U16) (ip : U32) : Calm β Descriptor := do
  raiseIf (nullSel sel) (Exception.gp 0)
  let s ← self
  raiseIf (rplOf sel < s.cpl) (Exception.gp (selErr sel))
  let d ← readDescriptor sel
  check (Cpu.checkReturnCode sel d)
  raiseIf (d.limit < ip) (Exception.gp 0)
  return d

/-- An instruction pointer at a real-mode operand size. -/
def Cpu.realIp (c : Cpu) (ip : U32) : U32 :=
  if c.osize32 then ip else ip &&& 0xFFFF

def retf (n : U32) : Xfer β U32 := do
  let s ← self
  if !s.protectedMode then do
    let ip ← pop.lift
    let cs ← pop.lift
    (adjustSp n).lift
    farReal (cs.setWidth 16) (s.realIp ip)
    return 10
  else do
    let ip ← pop.lift
    let sel : U16 := (← pop.lift).setWidth 16
    let s ← self
    let rpl := rplOf sel
    let d ← (returnTarget sel ip).lift
    (adjustSp n).lift
    if s.cpl < rpl then do
      let sp ← pop.lift
      let ss : U16 := (← pop.lift).setWidth 16
      loadCs sel d rpl
      (setEip ip).lift
      loadOuterSs ss sp rpl
      (adjustSp n).lift
      validateDataSegs rpl
      return 18
    else do
      loadCs sel d rpl
      (setEip ip).lift
      return 18

namespace Cpu

/-- The flags POPF may change: every 16-bit flag, and RF with a wide
operand; VM is never writable this way. -/
def popfMask (c : Cpu) : U32 :=
  let mask : U32 := 0x7FD5
  let mask := if c.osize32 then mask ||| EFlags.RF else mask
  if c.protectedMode then
    if 0 < c.cpl then
      let mask := mask &&& ~~~EFlags.IOPL
      if c.regs.eflags.iopl < c.cpl then mask &&& ~~~EFlags.IF else mask
    else mask
  else if c.regs.eflags.contains EFlags.VM then mask &&& ~~~EFlags.IOPL
  else mask

/-- The flags IRET may change at privilege `cpl`. -/
def iretFlagMask (c : Cpu) (cpl : U8) : U32 :=
  let mask : U32 := 0x7FD5
  let mask := if c.osize32 then mask ||| EFlags.RF else mask
  if 0 < cpl then
    let mask := mask &&& ~~~EFlags.IOPL
    if c.regs.eflags.iopl < cpl then mask &&& ~~~EFlags.IF else mask
  else mask

theorem popfMask_vm (c : Cpu) : EFlags.SparesVm c.popfMask := by
  unfold popfMask
  dsimp only
  repeat' split
  all_goals simp

theorem iretFlagMask_vm (c : Cpu) (cpl : U8) :
    EFlags.SparesVm (c.iretFlagMask cpl) := by
  unfold iretFlagMask
  dsimp only
  repeat' split
  all_goals simp

end Cpu

/-- Load the flags under a mask that leaves VM alone. -/
def loadFlags (v : U32) (mask : U32) (hmask : EFlags.SparesVm mask) :
    Calm β Unit :=
  modifyFlags (·.load v mask) fun f => f.vm_load v mask hmask

theorem and_vm (m k : U32) (h : EFlags.SparesVm m) :
    EFlags.SparesVm (m &&& k) := by
  simp_all

/-- IRET in real mode and, IOPL permitting, in V86 mode, where IOPL and VM
stay. -/
def iretReal (v86 : Bool) : Xfer β U32 := do
  let ip ← pop.lift
  let cs ← pop.lift
  let fl ← pop.lift
  let s ← self
  farReal (cs.setWidth 16) (s.realIp ip)
  let s ← self
  let keep : U32 := if v86 then EFlags.IOPL ||| EFlags.VM else 0
  (loadFlags fl (s.popfMask &&& ~~~keep) (and_vm _ _ s.popfMask_vm)).lift
  return 22

/-- The selectors IRETD to V86 mode loads: CS, SS, ES, DS, FS and GS. -/
def ColdRegs.setV86Segs (r : ColdRegs) (cs ss es ds fs gs : U16) : ColdRegs :=
  (((((r.setSeg reg.CS (.v86 cs)).setSeg reg.SS (.v86 ss)).setSeg reg.ES (.v86 es)).setSeg
    reg.DS (.v86 ds)).setSeg reg.FS (.v86 fs)).setSeg reg.GS (.v86 gs)

/-- IRETD into virtual-8086 mode. -/
def iretToV86 (ip : U32) (cs : U16) (fl : U32) : Xfer β U32 := prepared do
  let sp ← pop32.lift
  let ss ← pop32.lift
  let es ← pop32.lift
  let ds ← pop32.lift
  let fs ← pop32.lift
  let gs ← pop32.lift
  -- All defined bits, VM and IOPL included, come from the image.
  (writeFlags fun _ => EFlags.fromBitsTruncate fl).lift
  warmWrite (·.setV86Segs cs (ss.setWidth 16) (es.setWidth 16) (ds.setWidth 16)
    (fs.setWidth 16) (gs.setWidth 16))
  (setEip (ip &&& 0xFFFF)).lift
  (setReg32 reg.ESP sp).lift
  return 60

/-- IRET to protected mode, the return address and flags already popped. -/
def iretProtected (ip : U32) (sel : U16) (fl : U32) : Xfer β U32 := do
  let s ← self
  let cpl := s.cpl
  let rpl := rplOf sel
  let d ← (returnTarget sel ip).lift
  let s ← self
  let mask := s.iretFlagMask cpl
  if cpl < rpl then do
    let sp ← pop.lift
    let ss : U16 := (← pop.lift).setWidth 16
    loadCs sel d rpl
    -- The SS load can still fault; the flags are committed after it.
    loadOuterSs ss sp rpl
    (setEip ip).lift
    (loadFlags fl mask (s.iretFlagMask_vm cpl)).lift
    validateDataSegs rpl
    return 22
  else do
    loadCs sel d rpl
    (setEip ip).lift
    (loadFlags fl mask (s.iretFlagMask_vm cpl)).lift
    return 22

def iret : Xfer β U32 := do
  let s ← self
  if s.regs.cr0 &&& cr0.PE = 0 then iretReal false
  else if s.regs.eflags.contains EFlags.VM then do
    raiseIf (s.regs.eflags.iopl < 3) (Exception.gp 0)
    iretReal true
  else do
    -- Task return: hardware task switching is not implemented.
    raiseIf (s.regs.eflags.contains EFlags.NT) (Exception.gp 0)
    let ip ← pop.lift
    let sel : U16 := (← pop.lift).setWidth 16
    let fl ← pop.lift
    let s ← self
    if s.osize32 && fl &&& EFlags.VM != 0 && s.cpl == 0
      then iretToV86 ip sel fl
    else iretProtected ip sel fl

end Remu.X32
