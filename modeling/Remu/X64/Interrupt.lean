/-
Interrupt and exception delivery, software interrupts, and the fast system
call pair.

A delivery either completes or is undone: `raise` puts the register file
back (all but CR2) when any of its checks or pushes faults, so that the
nested fault is raised against the interrupted state. `deliver` chains
nested faults with the double-fault classification and shuts down on a
triple fault.
-/
import Remu.X64.Transfer

namespace Remu.X64

variable {β : Type} [Bus β]

-- ======== gate lookup

/-- The EXT bit of an error code: the event came from outside. -/
def extBit (cls : Event) : U16 := if cls = .external then 1 else 0

/-- The error code that names an IDT entry. -/
def idtErr (vector : U8) (cls : Event) : U16 :=
  vector.setWidth 16 * 8 + 2 + extBit cls

/-- The IDT entry of `vector`, `size` bytes long. -/
def readIdt (vector : U8) (size : Nat) (e : Exception) : Calm β Descriptor := do
  let s ← self
  let entry := vector.toNat * size
  raiseIf (s.regs.idtr.limit.toNat < entry + (size - 1)) e
  let addr := s.regs.idtr.base + BitVec.ofNat 64 entry
  let lo ← sysRead32 addr
  let hi ← sysRead32 (addr + 4)
  return Descriptor.parse addr lo hi

/-- The checks on a gate and the code segment it names, common to both
formats: INT n privilege, presence, and a code segment no less privileged
than the handler may be entered from. -/
def gateTarget (gate : Descriptor) (vector : U8) (cls : Event) :
    Calm β (U16 × Descriptor) := do
  let err := idtErr vector cls
  let ext := extBit cls
  let s ← self
  raiseIf (cls = .softInt ∧ gate.dpl < s.cpl) (Exception.gp err)
  raiseIf (!gate.present) (Exception.np err)
  let gsel := gate.gateSel
  raiseIf (nullSel gsel) (Exception.gp ext)
  let gd ← readDescriptor gsel
  let s ← self
  raiseIf (!gd.isCode || decide (s.cpl < gd.dpl))
    (Exception.gp (selErr gsel ||| ext))
  raiseIf (!gd.present) (Exception.np (selErr gsel ||| ext))
  return (gsel, gd)

/-- The flags a handler starts with. -/
def RFlags.enterHandler (f : RFlags) (trap : Bool) : RFlags :=
  let f := f.remove (TF ||| NT ||| RF)
  if trap then f else f.remove IF

@[simp] theorem RFlags.vm_enterHandler (f : RFlags) (trap : Bool) :
    (f.enterHandler trap).vm = f.vm := by
  cases trap <;> simp [enterHandler]

-- ======== long-mode delivery

/-- The handler stack: IST wins, then RSPn on a privilege change, else the
current one. -/
def handlerStack (ist : U8) (change : Bool) (newCpl : U8) : Calm β U64 :=
  if ist ≠ 0 then tssIst ist
  else if change then tssRsp newCpl
  else do
    let s ← self
    return s.stackPtr

/-- The values of a long-mode interrupt frame, first pushed first. -/
def Cpu.longFrame (c : Cpu) (error : Option U16) : List U64 :=
  [(c.regs.seg reg.SS).sel.setWidth 64, c.stackPtr,
    c.regs.rflags.bits.setWidth 64 ||| 2, (c.regs.seg reg.CS).sel.setWidth 64,
    c.regs.rip] ++ (error.map (·.setWidth 64)).toList

/-- 64-bit delivery: 16-byte gates, a 64-bit frame with SS:RSP always. -/
def interruptLong (e : Exception) (cls : Event) : Xfer β Unit := do
  let err := Exception.gp (idtErr e.vector cls)
  let gate ← (readIdt e.vector 16 err).lift
  let hi2 ← (sysRead64 (gate.addr + 8)).lift
  let gate := { gate with hi2 := hi2 }
  raiseIf (gate.sysType ≠ 14 ∧ gate.sysType ≠ 15) err
  let (gsel, gd) ← (gateTarget gate e.vector cls).lift
  raiseIf (!gd.l || gd.db) (Exception.gp (selErr gsel ||| extBit cls))
  let goff := gate.gateOff true true
  raiseIf (!canonical goff) (Exception.gp (extBit cls))
  let s ← self
  let newCpl := if gd.isConforming then s.cpl else gd.dpl
  let change := decide (newCpl < s.cpl)
  let rsp ← (handlerStack gate.gateIst change newCpl).lift
  let s ← self
  whenever change (setNullSs newCpl)
  -- CS still holds the interrupted segment: push with supervisor privilege.
  let rsp ← (asSupervisor
    (pushAllAt (s.longFrame e.error) (rsp &&& ~~~0xF))).lift
  (setReg64 reg.RSP rsp).lift
  loadCs gsel gd newCpl
  (setRip goff).lift
  (modifyFlags (·.enterHandler (gate.sysType == 15))).lift

-- ======== legacy delivery

/-- The flags image an interrupt frame holds. -/
def RFlags.frameImage (f : RFlags) (wide : Bool) : U64 :=
  if wide then (f.bits ||| 2).setWidth 64 else f.image16.setWidth 64

/-- Flags, CS:IP and the error code, below SS:SP on a stack switch. -/
def pushIntFrame (wide : Bool) (outer : Option (U16 × U64))
    (error : Option U16) :
    Calm β Unit := do
  let s ← self
  let stack := match outer with
    | some (ss, sp) => [ss.setWidth 64, sp]
    | none => []
  pushAll wide (stack ++ [s.regs.rflags.frameImage wide,
    (s.regs.seg reg.CS).sel.setWidth 64, s.regs.rip]
      ++ (error.map (·.setWidth 64)).toList)

/-- The V86 to ring-0 frame: the data segments, SS:SP and the flags, all
from the pre-switch register file, then CS:IP and the error code. -/
def Registers.v86Frame (old : Registers) (wide : Bool) (osp : U64)
    (error : Option U16) : List U64 :=
  [reg.GS, reg.FS, reg.DS, reg.ES, reg.SS].map
    (fun i => (old.seg i).sel.setWidth 64)
    ++ [osp, old.rflags.frameImage wide, (old.seg reg.CS).sel.setWidth 64, old.rip]
    ++ (error.map (·.setWidth 64)).toList

/-- Null the data segments: unusable in the handler. -/
def ColdRegs.nullDataSegs (r : ColdRegs) : ColdRegs :=
  { r with seg := fun i => if i ∈ dataSegs then SegReg.null 0 else r.seg i }

/-- Delivery out of V86 mode into a ring-0 handler. -/
def v86Interrupt (e : Exception) (gd : Descriptor) (gsel : U16) (goff : U64)
    (trap wide : Bool) (ext : U16) : Xfer β Unit := do
  raiseIf (gd.dpl ≠ 0 ∨ gd.isConforming) (Exception.gp (selErr gsel ||| ext))
  prepared do
    let (nss, nsp) ← (tssStack 0).lift
    let old ← self
    -- Leaving V86 precedes the pushes; `raise` undoes both if they fault.
    (writeFlags fun f =>
      let f := f.remove (RFlags.VM ||| RFlags.TF ||| RFlags.RF ||| RFlags.NT)
      if trap then f else f.remove RFlags.IF).lift
    (switchStack nss nsp 0).lift
    (asSupervisor
      (pushAll wide (old.regs.v86Frame wide old.stackPtr e.error))).lift
    warmWrite (·.nullDataSegs)
    (markAccessed gd).lift
    (commitSeg reg.CS (selErr gsel) gd).lift
    (setRip (if wide then goff else goff &&& 0xFFFF)).lift

/-- Push the frame and load CS, by the handler's privilege. -/
def enterLegacy (e : Exception) (cls : Event) (gsel : U16) (gd : Descriptor)
    (wide : Bool) : Xfer β Unit := do
  let s ← self
  if s.innerTarget gd then do
    let (nss, nsp) ← (tssStack gd.dpl).lift
    let s ← self
    let oss := (s.regs.seg reg.SS).sel
    let osp := s.stackPtr
    switchStack nss nsp gd.dpl
    (asSupervisor (pushIntFrame wide (some (oss, osp)) e.error)).lift
    loadCs gsel gd gd.dpl
  else if gd.isConforming || gd.dpl == s.cpl then do
    (pushIntFrame wide none e.error).lift
    loadCs gsel gd s.cpl
  else throw (Exception.gp (selErr gsel ||| extBit cls))

/-- 32- and 16-bit delivery through 8-byte gates. -/
def interruptLegacy (e : Exception) (cls : Event) : Xfer β Unit := do
  let err := Exception.gp (idtErr e.vector cls)
  let gate ← (readIdt e.vector 8 err).lift
  -- Task gates are not implemented.
  raiseIf (gate.sysType ∉ ([6, 7, 14, 15] : List U8)) err
  let trap := gate.sysType == 7 || gate.sysType == 15
  let wide := gate.sysType == 14 || gate.sysType == 15
  let (gsel, gd) ← (gateTarget gate e.vector cls).lift
  let goff := gate.gateOff wide false
  raiseIf (gd.limit.toNat < goff.toNat) (Exception.gp (extBit cls))
  let s ← self
  if s.regs.rflags.contains RFlags.VM then
    v86Interrupt e gd gsel goff trap wide (extBit cls)
  else do
    enterLegacy e cls gsel gd wide
    (setRip (if wide then goff else goff &&& 0xFFFF)).lift
    (modifyFlags (·.enterHandler trap)).lift

/-- Delivery through a gate of the legacy IDT. -/
def interruptProtected (e : Exception) (cls : Event) : Xfer β Unit := do
  let s ← self
  if s.longMode then interruptLong e cls else interruptLegacy e cls

/-- Real-mode delivery through the IVT. -/
def interruptReal (vector : U8) (cls : Event) : Xfer β Unit := prepared do
  let s ← self
  let entry := vector.toNat * 4
  raiseIf (s.regs.idtr.limit.toNat < entry + 3)
    (Exception.gp (idtErr vector cls))
  let base := s.regs.idtr.base
  let ip ← (sysRead16 (base + BitVec.ofNat 64 entry)).lift
  let cs ← (sysRead16 (base + BitVec.ofNat 64 (entry + 2))).lift
  let s ← self
  (push16 s.regs.rflags.image16).lift
  let s ← self
  (push16 (s.regs.seg reg.CS).sel).lift
  (push16 (s.regs.rip.setWidth 16)).lift
  (modifyFlags (·.remove (RFlags.IF ||| RFlags.TF))).lift
  warmWrite fun r => r.setSeg reg.CS
    { r.seg reg.CS with sel := cs, base := cs.setWidth 64 <<< 4 }
  (setRip (ip.setWidth 64)).lift

-- ======== raising

/-- No transfer step changes the mode. -/
theorem XferSteps.sameMode {s s' : Machine β} (h : XferSteps s s') :
    s'.regs.SameMode s.regs.toColdRegs := by
  induction h with
  | refl => exact ⟨rfl, rfl⟩
  | tail _ hstep ih =>
    cases hstep with
    | calm hc => cases hc <;> exact ih
    | hot => exact ih
    | prepare =>
      rw [Machine.regs_prepared]
      exact ih
    | write _ _ hmode => exact ⟨hmode.1.trans ih.1, hmode.2.trans ih.2⟩

/-- As long as no capture is taken, no cold register moves. -/
theorem XferSteps.cold_of_unsaved {s s' : Machine β} (h : XferSteps s s')
    (hs : s'.coldSaved = false) : s'.regs.toColdRegs = s.regs.toColdRegs := by
  induction h with
  | refl => rfl
  | tail _ hstep ih =>
    cases hstep with
    | calm hc =>
      rw [hc.coldSaved] at hs
      rw [← ih hs]
      cases hc <;> rfl
    | hot => exact ih hs
    | prepare =>
      rw [Machine.coldSaved_prepared] at hs
      cases hs
    | write _ hsaved =>
      rw [hsaved] at hs
      cases hs

/-- Putting the register file (all but CR2) back after transfer steps is
a transfer step. -/
theorem XferSteps.restore {s s' : Machine β} (h : XferSteps s s') :
    XferSteps s { s' with regs := { s.regs with cr2 := s'.regs.cr2 } } := by
  let hot : HotRegs := { s.regs.toHotRegs with cr2 := s'.regs.cr2 }
  change XferSteps s { s' with regs := ⟨hot, s.regs.toColdRegs⟩ }
  have hhot : XferSteps s { s' with regs := ⟨hot, s'.regs.toColdRegs⟩ } :=
    h.tail (.hot s' hot)
  by_cases hsaved : s'.coldSaved = true
  · exact hhot.tail (.write _ s.regs.toColdRegs hsaved
      ⟨h.sameMode.1.symm, h.sameMode.2.symm⟩)
  · rw [← h.cold_of_unsaved (Bool.eq_false_of_not_eq_true hsaved)]
    exact hhot

/-- Run a delivery; if it faults, put the registers back, except CR2. The
supervisor override is restored either way. -/
def rollback (m : Xfer β Unit) : Xfer β Unit where
  run := fun s => match m.run s with
    | (.ok (), s') =>
      (.ok (), { s' with supervisorOverride := s.supervisorOverride })
    | (.error e, s') =>
      (.error e, { s' with
        supervisorOverride := s.supervisorOverride
        regs := { s.regs with cr2 := s'.regs.cr2 } })
  bound := fun s => by
    have hm := m.bound s
    rcases hrun : m.run s with ⟨e | ⟨⟩, s'⟩ <;> rw [hrun] at hm
    · exact hm.restore.tail (.calm (.decode _ _))
    · exact hm.tail (.calm (.decode _ _))

/-- What is rolled back fails as it would have, and puts the registers
back, CR2 apart. -/
theorem rollback_error {m : Xfer β Unit} {s s' : Machine β} {e : Exception}
    (h : (rollback m).run s = (.error e, s')) :
    (∃ t, m.run s = (.error e, t))
      ∧ s'.regs = { s.regs with cr2 := s'.regs.cr2 } := by
  unfold rollback at h
  dsimp only at h
  split at h
  · cases h
  · cases h
    exact ⟨⟨_, ‹_›⟩, rfl⟩

/-- Deliver one event through the IDT or IVT. -/
def raise (e : Exception) (cls : Event) : Xfer β Unit := do
  let s ← self
  if s.regs.cr0 &&& cr0.PE ≠ 0 then rollback (interruptProtected e cls)
  else rollback (interruptReal e.vector cls)

/-- The exceptions that combine into a double fault. -/
def contributory (vector : U8) : Bool :=
  vector ∈ ([0, 10, 11, 12, 13] : List U8)

/-- Whether `second`, raised while `first` is delivered, is a double
fault. Only hardware exceptions escalate. -/
def isDoubleFault (first : Exception) (cls : Event) (second : U8) : Bool :=
  if cls ≠ .fault then false
  else if second = 14 then first.vector == 14
  else if contributory second
    then contributory first.vector || first.vector == 14
  else false

/-- The delivery chain, `n` attempts left: nested faults are delivered in
turn, a double fault once, and a fault in that shuts the processor down. -/
def deliverChain : Nat → Exception → Event → Bool → Machine β → Machine β
  | 0, _, _, _, s => { s with shutdown := true, halted := true }
  | n + 1, e, cls, inDouble, s =>
    match (raise e cls).run s with
    | (.ok _, s') => s'
    | (.error nested, s') =>
      if inDouble then { s' with shutdown := true, halted := true }
      else if isDoubleFault e cls nested.vector then
        deliverChain n ⟨8, some 0⟩ .fault true s'
      else deliverChain n nested .fault false s'

/-- Deliver an event, handling nested faults. -/
def deliver (e : Exception) (cls : Event) (s : Machine β) : Machine β :=
  deliverChain 4 e cls false s

/-- `INT n` and its relatives. The designated system-call vector goes to
the host before any table is consulted. -/
def softwareInt (vector : U8) : Xfer β Unit := do
  let s ← self
  if s.syscallInt = some vector then (setHostTrap .syscall).lift
  else raise ⟨vector, none⟩ .softInt

-- ======== SYSCALL, SYSRET, SWAPGS

/-- SYSCALL loads CS and SS from STAR. -/
def ColdRegs.syscallSegs (r : ColdRegs) : ColdRegs :=
  let sel : U16 := (r.msr.star >>> 32).setWidth 16 &&& 0xFFFC
  (r.setSeg reg.CS { sel := sel, base := 0, limit := 0xFFFFFFFF, attrs := 0x0A9B }).setSeg
    reg.SS { sel := sel + 8, base := 0, limit := 0xFFFFFFFF, attrs := 0x0C93 }

/-- SYSCALL: CS:SS from STAR, target from LSTAR, flags through SFMASK. -/
def syscall : Xfer β U32 := do
  let s ← self
  raiseIf (!s.m64 || s.regs.msr.efer &&& efer.SCE == 0) Exception.ud
  (setReg64 reg.RCX s.regs.rip).lift
  (setReg64 reg.R11
    ((s.regs.rflags.bits &&& ~~~RFlags.RF).setWidth 64 ||| 2)).lift
  if s.trapSyscall then do
    (setHostTrap .syscall).lift
    return 2
  else do
    coldWrite (·.syscallSegs)
    let mask := s.regs.msr.sfmask.setWidth 32 ||| RFlags.RF
    writeFlags fun f => RFlags.fromBitsTruncate (f.bits &&& ~~~mask)
    (setRip s.regs.msr.lstar).lift
    return 2

/-- SYSRET loads them from the upper half of STAR. -/
def ColdRegs.sysretSegs (r : ColdRegs) (wide : Bool) : ColdRegs :=
  let base : U16 := (r.msr.star >>> 48).setWidth 16
  let cs : SegReg :=
    if wide then
      { sel := (base + 16) ||| 3, base := 0, limit := 0xFFFFFFFF, attrs := 0x0AFB }
    else { sel := base ||| 3, base := 0, limit := 0xFFFFFFFF, attrs := 0x0CFB }
  (r.setSeg reg.CS cs).setSeg reg.SS
    { sel := (base + 8) ||| 3, base := 0, limit := 0xFFFFFFFF, attrs := 0x0CF3 }

/-- SYSRET: the ring-3 mirror. -/
def sysret : Xfer β U32 := do
  let s ← self
  raiseIf (!s.m64 || s.regs.msr.efer &&& efer.SCE == 0) Exception.ud
  raiseIf (s.cpl ≠ 0) (Exception.gp 0)
  let rip := s.regs.gpr reg.RCX
  raiseIf (s.rexW && !canonical rip) (Exception.gp 0)
  coldWrite (·.sysretSegs s.rexW)
  let r11 : U32 := (s.regs.gpr reg.R11).setWidth 32
  writeFlags fun _ => RFlags.fromBitsTruncate ((r11 &&& 0x003C7FD7) ||| 2)
  (setRip (if s.rexW then rip else (rip.setWidth 32).setWidth 64)).lift
  return 2

/-- Exchange the GS base with KERNEL_GS_BASE. -/
def ColdRegs.swapGs (r : ColdRegs) : ColdRegs :=
  { r with
    seg := upd r.seg reg.GS { r.seg reg.GS with base := r.msr.kernelGsBase }
    msr := { r.msr with kernelGsBase := (r.seg reg.GS).base } }

/-- SWAPGS, in 64-bit code at level 0 only. -/
def swapgs : Xfer β U32 := do
  let s ← self
  raiseIf (!s.m64) Exception.ud
  raiseIf (s.cpl ≠ 0) (Exception.gp 0)
  coldWrite (·.swapGs)
  return 2

-- ======== I/O permission

/-- The bitmap bytes from `a` on, low byte first. -/
def readBitmap (base : U64) : Nat → Nat → Calm β U32
  | _, 0 => pure 0
  | a, n + 1 => do
    let b ← sysRead8 (base + BitVec.ofNat 64 a)
    let rest ← readBitmap base (a + 1) n
    return b.setWidth 32 ||| (rest <<< 8)

/-- Port permission: IOPL, else the TSS bitmap. -/
def ioCheck (port : U16) (size : Nat) : Calm β Unit := do
  let s ← self
  let free := s.regs.cr0 &&& cr0.PE == 0
    || (!s.regs.rflags.contains RFlags.VM && decide
      (s.cpl ≤ s.regs.rflags.iopl))
  let tr := s.regs.tr
  whenever (!free) do
    raiseIf (tr.attrs &&& 0x08 = 0) (Exception.gp 0)
    raiseIf (tr.limit < 0x67) (Exception.gp 0)
    let iobase := (← sysRead16 (tr.base + 0x66)).toNat
    let first := iobase + port.toNat / 8
    let last := iobase + (port.toNat + size - 1) / 8
    raiseIf (tr.limit.toNat < last) (Exception.gp 0)
    let bits ← readBitmap tr.base first (last + 1 - first)
    let mask := ((1 <<< size : U32) - 1) <<< (port.toNat % 8)
    raiseIf (bits &&& mask ≠ 0) (Exception.gp 0)

end Remu.X64
