/-
Far control transfers: JMP and CALL to a code segment or through a call
gate, RETF, IRET and the return to virtual-8086 mode.

Everything here changes CS, and with it CPL. The checks come first and
each is a pure predicate on the processor and the descriptor, so that what
a successful transfer guarantees can be read off its guards.
-/
import Remu.X64.Modrm

namespace Remu.X64

variable {β : Type} [Bus β]

-- ======== checks

namespace Cpu

/-- CPL rules of a direct JMP or CALL to a code segment. -/
def codeReachable (c : Cpu) (sel : U16) (d : Descriptor) : Bool :=
  if d.isConforming then decide (d.dpl ≤ c.cpl)
  else decide (rplOf sel ≤ c.cpl) && d.dpl == c.cpl

/-- A code segment about to be entered at `off`: the L and D/B combination
and the offset must be right for the mode. -/
def checkCodeTarget (c : Cpu) (d : Descriptor) (sel : U16) (off : U64) :
    Except Exception Unit :=
  if c.longMode && d.l && d.db then .error (Exception.gp (selErr sel))
  else if c.longMode && d.l then
    if canonical off then .ok () else .error (Exception.gp 0)
  else if d.limit.toNat < off.toNat then .error (Exception.gp 0)
  else .ok ()

/-- Gate privilege and presence; the target selector, offset and parameter
count. -/
def checkGate (c : Cpu) (sel : U16) (d : Descriptor) (long : Bool) :
    Except Exception (U16 × U64 × U32) :=
  if d.dpl < c.cpl ∨ d.dpl < rplOf sel then .error (Exception.gp (selErr sel))
  else if !d.present then .error (Exception.np (selErr sel))
  else
    let wide := long || d.sysType == 12
    .ok (d.gateSel, d.gateOff wide long, if long then 0 else d.gateParams)

/-- The code segment a gate points at. -/
def checkGateTarget (c : Cpu) (gsel : U16) (gd : Descriptor) :
    Except Exception Unit :=
  if nullSel gsel then .error (Exception.gp 0)
  else if !gd.isCode then .error (Exception.gp (selErr gsel))
  else if c.cpl < gd.dpl then .error (Exception.gp (selErr gsel))
  else if !gd.present then .error (Exception.np (selErr gsel))
  -- A long-mode gate must target 64-bit code.
  else if c.longMode && (!gd.l || gd.db)
    then .error (Exception.gp (selErr gsel))
  else .ok ()

/-- A gate target that is more privileged than the caller. -/
def innerTarget (c : Cpu) (gd : Descriptor) : Bool :=
  !gd.isConforming && decide (gd.dpl < c.cpl)

/-- The descriptor rules of a return to `sel`. -/
def checkReturnCode (sel : U16) (d : Descriptor) : Except Exception Unit :=
  if !d.isCode then .error (Exception.gp (selErr sel))
  else if d.isConforming && decide (rplOf sel < d.dpl) then
    .error (Exception.gp (selErr sel))
  else if !d.isConforming && d.dpl != rplOf sel then
    .error (Exception.gp (selErr sel))
  else if !d.present then .error (Exception.np (selErr sel))
  else .ok ()

end Cpu

-- ======== TSS and stacks

/-- Push `v` as a doubleword or a word. -/
def pushWidth (wide : Bool) (v : U64) : Calm β Unit :=
  if wide then push32 (v.setWidth 32) else push16 (v.setWidth 16)

/-- Pushes the values in order, the last one ends on top. -/
def pushAll (wide : Bool) : List U64 → Calm β Unit
  | [] => pure ()
  | v :: rest => do
    pushWidth wide v
    pushAll wide rest

/-- Push 8 bytes below an explicit RSP; the new RSP. -/
def push64At (rsp : U64) (v : U64) : Calm β U64 := do
  let a := rsp - 8
  raiseIf (!canonical a || !canonical (a + 7)) (Exception.ss 0)
  linWrite64 a v
  return a

/-- Pushes below a stack pointer not yet committed to RSP. -/
def pushAllAt : List U64 → U64 → Calm β U64
  | [], rsp => pure rsp
  | v :: rest, rsp => do
    let rsp ← push64At rsp v
    pushAllAt rest rsp

/-- Load SS with a null selector of RPL `rpl`. -/
def setNullSs (rpl : U8) : Xfer β Unit :=
  coldWrite (·.setSeg reg.SS (SegReg.null (rpl.setWidth 16)))

/-- The SS:(E)SP pair of privilege level `level` from a legacy TSS. -/
def tssStack (level : U8) : Calm β (U16 × U64) := do
  let s ← self
  let tr := s.regs.tr
  let tssErr := Exception.ts (selErr tr.sel)
  if tr.attrs &&& 0x08 != 0 then do
    let off := 4 + level.toNat * 8
    raiseIf (tr.limit.toNat < off + 5) tssErr
    let sp ← sysRead32 (tr.base + BitVec.ofNat 64 off)
    let ss ← sysRead16 (tr.base + BitVec.ofNat 64 (off + 4))
    return (ss, sp.setWidth 64)
  else do
    let off := 2 + level.toNat * 4
    raiseIf (tr.limit.toNat < off + 3) tssErr
    let sp ← sysRead16 (tr.base + BitVec.ofNat 64 off)
    let ss ← sysRead16 (tr.base + BitVec.ofNat 64 (off + 2))
    return (ss, sp.setWidth 64)

/-- A stack pointer at offset `off` of the 64-bit TSS. -/
def tssSlot (off : Nat) : Calm β U64 := do
  let s ← self
  let tr := s.regs.tr
  raiseIf (tr.limit.toNat < off + 7) (Exception.ts (selErr tr.sel))
  sysRead64 (tr.base + BitVec.ofNat 64 off)

/-- RSPn. -/
def tssRsp (level : U8) : Calm β U64 := tssSlot (4 + level.toNat * 8)

/-- ISTn, `n` from 1. -/
def tssIst (n : U8) : Calm β U64 := tssSlot (0x24 + (n.toNat - 1) * 8)

/-- Load RSP with `sp` at the width of a stack segment. -/
def HotRegs.setStack (r : HotRegs) (wide : Bool) (sp : U64) : HotRegs :=
  if wide then r.setReg64 reg.RSP ((sp.setWidth 32).setWidth 64)
  else r.setReg16 reg.RSP (sp.setWidth 16)

@[simp] theorem HotRegs.rflags_setStack (r : HotRegs)
    (wide : Bool) (sp : U64) :
    (r.setStack wide sp).rflags = r.rflags := by
  unfold setStack
  split <;> rfl

/-- Validate and load an inner stack segment (legacy modes). -/
def switchStack (ss : U16) (sp : U64) (newCpl : U8) : Xfer β Unit := do
  raiseIf (nullSel ss) (Exception.ts 0)
  raiseIf (rplOf ss ≠ newCpl) (Exception.ts (selErr ss))
  let d ← (readDescriptorErr ss Exception.ts).lift
  raiseIf (!d.isWritableData || d.dpl != newCpl) (Exception.ts (selErr ss))
  raiseIf (!d.present) (Exception.ss (selErr ss))
  (markAccessed d).lift
  commitSeg reg.SS ss d
  (modifyHot (·.setStack d.db sp)).lift

-- ======== JMP and CALL

/-- Real- and V86-mode far transfer. -/
def farReal (sel : U16) (off : U64) : Xfer β Unit := prepared do
  let s ← self
  raiseIf ((s.regs.seg reg.CS).limit.toNat < off.toNat) (Exception.gp 0)
  warmWrite fun r => r.setSeg reg.CS
    { r.seg reg.CS with sel := sel, base := sel.setWidth 64 <<< 4 }
  (setRip off).lift

/-- The checks a direct JMP and CALL share. -/
def checkDirect (sel : U16) (off : U64) (d : Descriptor) : Calm β Unit := do
  raiseIf (!d.isCode) (Exception.gp (selErr sel))
  let s ← self
  raiseIf (!s.codeReachable sel d) (Exception.gp (selErr sel))
  raiseIf (!d.present) (Exception.np (selErr sel))
  check (s.checkCodeTarget d sel off)

/-- Load CS at the current CPL and continue at `off`. -/
def enterCode (sel : U16) (d : Descriptor) (off : U64) : Xfer β Unit := do
  let s ← self
  loadCs sel d s.cpl
  (setRip off).lift

/-- The gate checks a JMP makes: as CALL, but the target must not be more
privileged. -/
def jumpGateTarget (sel : U16) (d : Descriptor) (long : Bool) :
    Calm β (U16 × U64 × Descriptor) := do
  let s ← self
  let (gsel, goff, _) ← check (s.checkGate sel d long)
  let gd ← readDescriptor gsel
  let s ← self
  check (s.checkGateTarget gsel gd)
  raiseIf (!gd.isConforming && gd.dpl != s.cpl) (Exception.gp (selErr gsel))
  return (gsel, goff, gd)

/-- Long-mode call gate used by JMP. -/
def jumpGateLong (sel : U16) (d : Descriptor) : Xfer β Unit := do
  let (gsel, goff, gd) ← (jumpGateTarget sel d true).lift
  let s ← self
  check (s.checkCodeTarget gd gsel goff)
  enterCode gsel gd goff

/-- Legacy call gate used by JMP. -/
def jumpGateLegacy (sel : U16) (d : Descriptor) : Xfer β Unit := do
  let (gsel, goff, gd) ← (jumpGateTarget sel d false).lift
  let off := if d.sysType == 12 then goff else goff &&& 0xFFFF
  raiseIf (gd.limit.toNat < off.toNat) (Exception.gp 0)
  enterCode gsel gd off

/-- The two forms of a call gate by mode; task gates are not implemented. -/
def byGate (sel : U16) (d : Descriptor) (long legacy : Xfer β Unit) :
    Xfer β Unit := do
  let s ← self
  if s.longMode && d.sysType == 12 then long
  else if !s.longMode && (d.sysType == 4 || d.sysType == 12) then legacy
  else throw (Exception.gp (selErr sel))

/-- A far jump: to code, through a gate or, outside long mode, to a task. -/
def jumpFar (sel : U16) (off : U64) : Xfer β Unit := do
  let s ← self
  if !s.protectedMode then farReal sel off
  else do
    raiseIf (nullSel sel) (Exception.gp 0)
    let d ← (readDescriptor sel).lift
    if d.isCodeData then do
      (checkDirect sel off d).lift
      enterCode sel d off
    else byGate sel d (jumpGateLong sel d) (jumpGateLegacy sel d)

/-- The parameters of a legacy gate call, first to last. -/
def readParams (wide : Bool) : U64 → Nat → Calm β (List U64)
  | _, 0 => pure []
  | off, n + 1 => do
    let v ← (if wide then (·.setWidth 64) <$> read32 reg.SS off
      else (·.setWidth 64) <$> read16 reg.SS off)
    let rest ← readParams wide (off + if wide then 4 else 2) n
    return v :: rest

/-- The inner frame of a legacy gate: old SS:SP, the parameters in their
original order above the return address. -/
def pushGateFrame (wide : Bool) (oldSs : U16) (oldSp : U64) (args : List U64) :
    Calm β Unit := do
  let s ← self
  pushAll wide ([oldSs.setWidth 64, oldSp] ++ args.reverse
    ++ [(s.regs.seg reg.CS).sel.setWidth 64, s.regs.rip])

/-- Legacy (16/32-bit) call gate: same-privilege or stack-switching CALL. -/
def callGateLegacy (sel : U16) (gate : Descriptor) : Xfer β Unit := do
  let wide := gate.sysType == 12
  let s ← self
  let (gsel, goff, params) ← check (s.checkGate sel gate false)
  let gd ← (readDescriptor gsel).lift
  let s ← self
  check (s.checkGateTarget gsel gd)
  let off := if wide then goff else goff &&& 0xFFFF
  if s.innerTarget gd then do
    let (newSs, newSp) ← (tssStack gd.dpl).lift
    let s ← self
    let oldSs := (s.regs.seg reg.SS).sel
    let oldSp := s.stackPtr
    -- The parameters come off the old stack before the switch.
    let args ← (readParams wide oldSp params.toNat).lift
    switchStack newSs newSp gd.dpl
    -- CS is still the outer segment: push with supervisor privilege.
    (asSupervisor (pushGateFrame wide oldSs oldSp args)).lift
    loadCs gsel gd gd.dpl
    (setRip off).lift
  else do
    (pushAll wide [(s.regs.seg reg.CS).sel.setWidth 64, s.regs.rip]).lift
    loadCs gsel gd s.cpl
    (setRip off).lift

/-- Long-mode call gate: 64-bit pushes, a null SS on privilege change, no
parameter copy. -/
def callGateLong (sel : U16) (gate : Descriptor) : Xfer β Unit := do
  let s ← self
  let (gsel, goff, _) ← check (s.checkGate sel gate true)
  let gd ← (readDescriptor gsel).lift
  let s ← self
  check (s.checkGateTarget gsel gd)
  raiseIf (!canonical goff) (Exception.gp 0)
  let oldSs := (s.regs.seg reg.SS).sel
  let oldSp := s.stackPtr
  let cs := (s.regs.seg reg.CS).sel
  let ip := s.regs.rip
  if s.innerTarget gd then do
    let rsp ← (tssRsp gd.dpl).lift
    setNullSs gd.dpl
    let rsp ← (asSupervisor
      (pushAllAt [oldSs.setWidth 64, oldSp, cs.setWidth 64, ip] rsp)).lift
    (setReg64 reg.RSP rsp).lift
    loadCs gsel gd gd.dpl
    (setRip goff).lift
  else do
    (push64 (cs.setWidth 64)).lift
    (push64 ip).lift
    loadCs gsel gd s.cpl
    (setRip goff).lift

/-- A far call, with the same targets. -/
def callFar (sel : U16) (off : U64) : Xfer β Unit := do
  let s ← self
  let cs := (s.regs.seg reg.CS).sel.setWidth 64
  let ip := s.regs.rip
  if !s.protectedMode then do
    (pushOp cs).lift
    (pushOp ip).lift
    farReal sel off
  else do
    raiseIf (nullSel sel) (Exception.gp 0)
    let d ← (readDescriptor sel).lift
    if d.isCodeData then do
      (checkDirect sel off d).lift
      (pushOp cs).lift
      (pushOp ip).lift
      enterCode sel d off
    else byGate sel d (callGateLong sel d) (callGateLegacy sel d)

-- ======== RETF and IRET

/-- Load SS and the stack pointer of an outer-privilege return. -/
def loadOuterSs (ss : U16) (sp : U64) (rpl : U8) : Xfer β Unit := do
  let s ← self
  if nullSel ss then
    -- Long mode: a null SS is legal when not returning to CPL 3.
    if s.longMode && rpl != 3 && rplOf ss == rpl then do
      setNullSs rpl
      (setReg64 reg.RSP sp).lift
    else throw (Exception.gp 0)
  else do
    raiseIf (rplOf ss ≠ rpl) (Exception.gp (selErr ss))
    let d ← (readDescriptor ss).lift
    raiseIf (!d.isWritableData || d.dpl != rpl) (Exception.gp (selErr ss))
    raiseIf (!d.present) (Exception.ss (selErr ss))
    (markAccessed d).lift
    commitSeg reg.SS ss d
    let s ← self
    if s.longMode && (s.regs.seg reg.CS).l then (setReg64 reg.RSP sp).lift
    else (modifyHot (·.setStack d.db sp)).lift

/-- A data segment after a return to `cpl`: cleared if it was usable only
further in. -/
def SegReg.scrub (s : SegReg) (cpl : U8) : SegReg :=
  if s.attrs &&& 0x80 != 0 && !(s.attrs &&& 0x1C == 0x1C) && decide
    (s.dpl < cpl) then
    SegReg.null 0
  else s

/-- The four data segment registers. -/
abbrev dataSegs : List U8 := [reg.ES, reg.DS, reg.FS, reg.GS]

/-- A return outward clears the data segments the new level may not use. -/
def ColdRegs.validateDataSegs (r : ColdRegs) (cpl : U8) : ColdRegs :=
  { r with seg := fun i => if i ∈ dataSegs then (r.seg i).scrub cpl else r.seg i }

/-- Invalidate data segments whose DPL is below the new CPL. -/
def validateDataSegs (cpl : U8) : Xfer β Unit :=
  coldWrite (·.validateDataSegs cpl)

/-- The return target both RETF and IRET demand. -/
def returnTarget (sel : U16) (ip : U64) : Calm β Descriptor := do
  raiseIf (nullSel sel) (Exception.gp 0)
  let s ← self
  raiseIf (rplOf sel < s.cpl) (Exception.gp (selErr sel))
  let d ← readDescriptor sel
  check (Cpu.checkReturnCode sel d)
  let s ← self
  check (s.checkCodeTarget d sel ip)
  return d

/-- An instruction pointer at a real-mode operand size. -/
def Cpu.realIp (c : Cpu) (ip : U64) : U64 :=
  if c.osize = O16 then ip &&& 0xFFFF else ip

/-- A far return. -/
def retf (n : U64) : Xfer β U32 := do
  let s ← self
  if !s.protectedMode then do
    let ip ← popOp.lift
    let cs ← popOp.lift
    (adjustSp n).lift
    farReal (cs.setWidth 16) (s.realIp ip)
    return 10
  else do
    let ip ← popOp.lift
    let sel : U16 := (← popOp.lift).setWidth 16
    let s ← self
    let rpl := rplOf sel
    let d ← (returnTarget sel ip).lift
    (adjustSp n).lift
    if s.cpl < rpl then do
      let sp ← popOp.lift
      let ss : U16 := (← popOp.lift).setWidth 16
      loadCs sel d rpl
      (setRip ip).lift
      loadOuterSs ss sp rpl
      (adjustSp n).lift
      validateDataSegs rpl
      return 18
    else do
      loadCs sel d rpl
      (setRip ip).lift
      return 18

namespace Cpu

/-- The flags POPF may change. -/
def popfMask (c : Cpu) : U32 :=
  let mask : U32 := 0x7FD5
  -- VM is never writable this way; AC and ID need a wide operand.
  let mask := if c.osize = O16 then mask
    else mask ||| (RFlags.RF ||| RFlags.AC ||| RFlags.ID)
  if c.protectedMode then
    if 0 < c.cpl then
      let mask := mask &&& ~~~RFlags.IOPL
      if c.regs.rflags.iopl < c.cpl then mask &&& ~~~RFlags.IF else mask
    else mask
  else if c.regs.rflags.contains RFlags.VM then mask &&& ~~~RFlags.IOPL
  else mask

/-- The flags IRET may change. -/
def iretFlagMask (c : Cpu) (cpl : U8) : U32 :=
  let mask : U32 := 0x00247FD5
  let mask := if c.osize = O16 then mask else mask ||| RFlags.RF
  if 0 < cpl then
    let mask := mask &&& ~~~RFlags.IOPL
    if c.regs.rflags.iopl < cpl then mask &&& ~~~RFlags.IF else mask
  else mask

/-- POPF leaves VM alone. -/
theorem popfMask_vm (c : Cpu) : RFlags.SparesVm c.popfMask := by
  unfold popfMask
  dsimp only
  repeat' split
  all_goals simp

/-- IRET leaves VM alone. -/
theorem iretFlagMask_vm (c : Cpu) (cpl : U8) :
    RFlags.SparesVm (c.iretFlagMask cpl) := by
  unfold iretFlagMask
  dsimp only
  repeat' split
  all_goals simp

end Cpu

/-- Load the flags under a mask that leaves VM alone. -/
def loadFlags (v : U64) (mask : U32) (hmask : RFlags.SparesVm mask) :
    Calm β Unit :=
  modifyFlags (·.load v mask) fun f => f.vm_load v mask hmask

/-- A narrower mask leaves VM alone too. -/
theorem and_vm (m k : U32) (h : RFlags.SparesVm m) :
    RFlags.SparesVm (m &&& k) := by
  simp_all

/-- IRET in real mode and, IOPL permitting, in V86 mode, where IOPL and VM
stay. -/
def iretReal (v86 : Bool) : Xfer β U32 := do
  let ip ← popOp.lift
  let cs ← popOp.lift
  let fl ← popOp.lift
  let s ← self
  farReal (cs.setWidth 16) (s.realIp ip)
  let s ← self
  let keep : U32 := if v86 then RFlags.IOPL ||| RFlags.VM else 0
  (loadFlags fl (s.popfMask &&& ~~~keep) (and_vm _ _ s.popfMask_vm)).lift
  return 22

/-- The selectors IRET to V86 mode loads: SS, ES, DS, FS, GS and CS. -/
def ColdRegs.setV86Segs (r : ColdRegs) (cs ss es ds fs gs : U16) : ColdRegs :=
  (((((r.setSeg reg.CS (.v86 cs)).setSeg reg.SS (.v86 ss)).setSeg reg.ES (.v86 es)).setSeg
    reg.DS (.v86 ds)).setSeg reg.FS (.v86 fs)).setSeg reg.GS (.v86 gs)

/-- IRETD into virtual-8086 mode. -/
def iretToV86 (ip : U64) (cs : U16) (fl : U64) : Xfer β U32 := prepared do
  let sp ← pop32.lift
  let ss ← pop32.lift
  let es ← pop32.lift
  let ds ← pop32.lift
  let fs ← pop32.lift
  let gs ← pop32.lift
  -- All defined bits, VM and IOPL included, come from the image.
  (writeFlags fun _ => RFlags.fromBitsTruncate (fl.setWidth 32)).lift
  warmWrite (·.setV86Segs cs (ss.setWidth 16) (es.setWidth 16) (ds.setWidth 16)
    (fs.setWidth 16) (gs.setWidth 16))
  (setRip (ip &&& 0xFFFF)).lift
  (setReg64 reg.RSP (sp.setWidth 64)).lift
  return 60

/-- The stack IRET returns to, when it is on the frame. -/
def popStackIf (c : Bool) : Calm β (U64 × U16) :=
  if c then do
    let sp ← popOp
    let ss ← popOp
    return (sp, ss.setWidth 16)
  else pure (0, 0)

/-- IRET to protected mode, the return address and flags already popped. -/
def iretProtected (ip : U64) (sel : U16) (fl : U64) : Xfer β U32 := do
  let s ← self
  -- In 64-bit mode IRET always pops SS:RSP.
  let always := s.m64
  let (sp, ss) ← (popStackIf always).lift
  let s ← self
  let cpl := s.cpl
  let rpl := rplOf sel
  let d ← (returnTarget sel ip).lift
  let s ← self
  let mask := s.iretFlagMask cpl
  if cpl < rpl then do
    let (sp', ss') ← (popStackIf (!always)).lift
    loadCs sel d rpl
    -- The SS load can still fault; the flags are committed after it.
    loadOuterSs (if always then ss else ss') (if always then sp else sp') rpl
    (setRip ip).lift
    (loadFlags fl mask (s.iretFlagMask_vm cpl)).lift
    validateDataSegs rpl
    return 22
  else do
    loadCs sel d rpl
    whenever always (loadOuterSs ss sp rpl)
    (setRip ip).lift
    (loadFlags fl mask (s.iretFlagMask_vm cpl)).lift
    return 22

/-- IRET, by mode and operand size. -/
def iret : Xfer β U32 := do
  let s ← self
  if s.regs.cr0 &&& cr0.PE = 0 then iretReal false
  else if s.regs.rflags.contains RFlags.VM then do
    raiseIf (s.regs.rflags.iopl < 3) (Exception.gp 0)
    iretReal true
  else do
    -- Task return: hardware task switching is not implemented.
    raiseIf (s.regs.rflags.contains RFlags.NT && !s.longMode) (Exception.gp 0)
    let ip ← popOp.lift
    let sel : U16 := (← popOp.lift).setWidth 16
    let fl ← popOp.lift
    let s ← self
    if !s.longMode && s.osize == O32 && fl &&& RFlags.VM.setWidth 64
      != 0 && s.cpl == 0 then
      iretToV86 ip sel fl
    else iretProtected ip sel fl

end Remu.X64
