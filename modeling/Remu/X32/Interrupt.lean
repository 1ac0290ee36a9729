/-
Interrupt and exception delivery, software interrupts and port permission.

A delivery either completes or is undone: `raise` puts the register file
back (all but CR2) when any of its checks or pushes faults, so that the
nested fault is raised against the interrupted state. `deliver` chains
nested faults with the double-fault classification and shuts down on a
triple fault.
-/
import Remu.X32.Transfer

namespace Remu.X32

variable {β : Type} [Bus β]

-- ======== gate lookup

/-- The EXT bit of an error code: the event came from outside. -/
def extBit (cls : Event) : U16 := if cls = .external then 1 else 0

/-- The error code that names an IDT entry. -/
def idtErr (vector : U8) (cls : Event) : U16 :=
  vector.setWidth 16 * 8 + 2 + extBit cls

/-- The IDT entry of `vector`. -/
def readIdt (vector : U8) (e : Exception) : Calm β Descriptor := do
  let s ← self
  let entry := vector.toNat * 8
  raiseIf (s.regs.idtr.limit.toNat < entry + 7) e
  readWords (s.regs.idtr.base + BitVec.ofNat 32 entry)

/-- The checks on a gate and the code segment it names: INT n privilege,
presence, and a code segment no less privileged than the handler may be
entered from. -/
def gateTarget (gate : Descriptor) (vector : U8) (cls : Event) :
    Calm β (U16 × Descriptor) := do
  let err := idtErr vector cls
  let ext := extBit cls
  let s ← self
  raiseIf (cls = .softInt ∧ gate.dpl < s.cpl) (Exception.gp err)
  raiseIf (!gate.present) (Exception.np err)
  let gsel := gate.gateSel
  raiseIf (nullSel gsel) (Exception.gp ext)
  let gd ← readDescriptor gsel
  let s ← self
  raiseIf (!gd.isCode || decide (s.cpl < gd.dpl))
    (Exception.gp (selErr gsel ||| ext))
  raiseIf (!gd.present) (Exception.np (selErr gsel ||| ext))
  return (gsel, gd)

/-- The flags a handler starts with. -/
def EFlags.enterHandler (f : EFlags) (trap : Bool) : EFlags :=
  let f := f.remove (TF ||| NT ||| RF)
  if trap then f else f.remove IF

@[simp] theorem EFlags.vm_enterHandler (f : EFlags) (trap : Bool) :
    (f.enterHandler trap).vm = f.vm := by
  cases trap <;> simp [enterHandler]

-- ======== delivery

/-- The flags image an interrupt frame holds. -/
def EFlags.frameImage (f : EFlags) (wide : Bool) : U32 :=
  if wide then f.bits ||| 2 else f.image16.setWidth 32

/-- Flags, CS:IP and the error code, below SS:SP on a stack switch. -/
def pushIntFrame (wide : Bool) (outer : Option (U16 × U32))
    (error : Option U16) :
    Calm β Unit := do
  let s ← self
  let stack := match outer with
    | some (ss, sp) => [ss.setWidth 32, sp]
    | none => []
  pushAll wide (stack ++ [s.regs.eflags.frameImage wide,
    (s.regs.seg reg.CS).sel.setWidth 32, s.regs.eip]
      ++ (error.map (·.setWidth 32)).toList)

/-- The V86 to ring-0 frame: the data segments, SS:SP and the flags, all
from the pre-switch register file, then CS:IP and the error code. -/
def Registers.v86Frame (old : Registers) (wide : Bool) (osp : U32)
    (error : Option U16) : List U32 :=
  [reg.GS, reg.FS, reg.DS, reg.ES, reg.SS].map
    (fun i => (old.seg i).sel.setWidth 32)
    ++ [osp, old.eflags.frameImage wide, (old.seg reg.CS).sel.setWidth 32, old.eip]
    ++ (error.map (·.setWidth 32)).toList

/-- Null the data segments: unusable in the handler. -/
def ColdRegs.nullDataSegs (r : ColdRegs) : ColdRegs :=
  { r with seg := fun i => if i ∈ dataSegs then SegReg.null 0 else r.seg i }

/-- The flags a V86 interrupt leaves: VM is cleared too. -/
def EFlags.leaveV86 (f : EFlags) (trap : Bool) : EFlags :=
  let f := f.remove (VM ||| TF ||| RF ||| NT)
  if trap then f else f.remove IF

/-- Delivery out of V86 mode into a ring-0 handler. -/
def v86Interrupt (e : Exception) (gd : Descriptor) (gsel : U16) (goff : U32)
    (trap wide : Bool) (ext : U16) : Xfer β Unit := do
  raiseIf (gd.dpl ≠ 0 ∨ gd.isConforming) (Exception.gp (selErr gsel ||| ext))
  prepared do
    let (nss, nsp) ← (tssStack 0).lift
    let old ← self
    -- Leaving V86 precedes the pushes; `raise` undoes both if they fault.
    (writeFlags (·.leaveV86 trap)).lift
    (switchStack nss nsp 0).lift
    (asSupervisor
      (pushAll wide (old.regs.v86Frame wide old.stackPtr e.error))).lift
    warmWrite (·.nullDataSegs)
    (markAccessed gd).lift
    (commitSeg reg.CS (selErr gsel) gd).lift
    (setEip (if wide then goff else goff &&& 0xFFFF)).lift

/-- Push the frame and load CS, by the handler's privilege. -/
def enterGate (e : Exception) (cls : Event) (gsel : U16) (gd : Descriptor)
    (wide : Bool) : Xfer β Unit := do
  let s ← self
  if s.innerTarget gd then do
    let (nss, nsp) ← (tssStack gd.dpl).lift
    let s ← self
    let oss := (s.regs.seg reg.SS).sel
    let osp := s.stackPtr
    switchStack nss nsp gd.dpl
    -- CS still holds the outer segment: push with supervisor privilege.
    (asSupervisor (pushIntFrame wide (some (oss, osp)) e.error)).lift
    loadCs gsel gd gd.dpl
  else if gd.isConforming || gd.dpl == s.cpl then do
    (pushIntFrame wide none e.error).lift
    loadCs gsel gd s.cpl
  else throw (Exception.gp (selErr gsel ||| extBit cls))

/-- Protected-mode and V86 delivery through the IDT. -/
def interruptProtected (e : Exception) (cls : Event) : Xfer β Unit := do
  let err := Exception.gp (idtErr e.vector cls)
  let gate ← (readIdt e.vector err).lift
  -- Task gates are not implemented.
  raiseIf (gate.sysType ∉ ([6, 7, 14, 15] : List U8)) err
  let trap := gate.sysType == 7 || gate.sysType == 15
  let wide := gate.sysType == 14 || gate.sysType == 15
  let (gsel, gd) ← (gateTarget gate e.vector cls).lift
  let goff := gate.gateOff wide
  raiseIf (gd.limit < goff) (Exception.gp (extBit cls))
  let s ← self
  if s.regs.eflags.contains EFlags.VM then
    v86Interrupt e gd gsel goff trap wide (extBit cls)
  else do
    enterGate e cls gsel gd wide
    (setEip (if wide then goff else goff &&& 0xFFFF)).lift
    (modifyFlags (·.enterHandler trap)).lift

/-- Real-mode delivery through the IVT. -/
def interruptReal (vector : U8) (cls : Event) : Xfer β Unit := prepared do
  let s ← self
  let entry := vector.toNat * 4
  raiseIf (s.regs.idtr.limit.toNat < entry + 3)
    (Exception.gp (idtErr vector cls))
  let base := s.regs.idtr.base
  let ip ← (sysRead16 (base + BitVec.ofNat 32 entry)).lift
  let cs ← (sysRead16 (base + BitVec.ofNat 32 (entry + 2))).lift
  let s ← self
  (push16 s.regs.eflags.image16).lift
  let s ← self
  (push16 (s.regs.seg reg.CS).sel).lift
  (push16 (s.regs.eip.setWidth 16)).lift
  (modifyFlags (·.remove (EFlags.IF ||| EFlags.TF))).lift
  warmWrite fun r => r.setSeg reg.CS ((r.seg reg.CS).loadReal cs)
  (setEip (ip.setWidth 32)).lift

-- ======== raising

/-- As long as no capture is taken, no cold register moves. -/
theorem XferSteps.cold_of_unsaved {s s' : Machine β} (h : XferSteps s s')
    (hs : s'.coldSaved = false) : s'.regs.toColdRegs = s.regs.toColdRegs := by
  induction h with
  | refl => rfl
  | tail _ hstep ih =>
    cases hstep with
    | calm hc =>
      rw [hc.coldSaved] at hs
      rw [← ih hs]
      cases hc <;> rfl
    | hot => exact ih hs
    | prepare =>
      rw [Machine.coldSaved_prepared] at hs
      cases hs
    | write _ hsaved =>
      rw [hsaved] at hs
      cases hs

/-- Putting the register file (all but CR2) back after transfer steps is
a transfer step. -/
theorem XferSteps.restore {s s' : Machine β} (h : XferSteps s s') :
    XferSteps s { s' with regs := { s.regs with cr2 := s'.regs.cr2 } } := by
  let hot : HotRegs := { s.regs.toHotRegs with cr2 := s'.regs.cr2 }
  change XferSteps s { s' with regs := ⟨hot, s.regs.toColdRegs⟩ }
  have hhot : XferSteps s { s' with regs := ⟨hot, s'.regs.toColdRegs⟩ } :=
    h.tail (.hot s' hot)
  by_cases hsaved : s'.coldSaved = true
  · exact hhot.tail (.write _ s.regs.toColdRegs hsaved)
  · rw [← h.cold_of_unsaved (Bool.eq_false_of_not_eq_true hsaved)]
    exact hhot

/-- Run a delivery; if it faults, put the registers back, except CR2. The
supervisor override is restored either way. -/
def rollback (m : Xfer β Unit) : Xfer β Unit where
  run := fun s => match m.run s with
    | (.ok (), s') =>
      (.ok (), { s' with supervisorOverride := s.supervisorOverride })
    | (.error e, s') =>
      (.error e, { s' with
        supervisorOverride := s.supervisorOverride
        regs := { s.regs with cr2 := s'.regs.cr2 } })
  bound := fun s => by
    have hm := m.bound s
    rcases hrun : m.run s with ⟨e | ⟨⟩, s'⟩ <;> rw [hrun] at hm
    · exact hm.restore.tail (.calm (.decode _ _))
    · exact hm.tail (.calm (.decode _ _))

/-- Deliver one event through the IDT or IVT. -/
def raise (e : Exception) (cls : Event) : Xfer β Unit := do
  let s ← self
  if s.regs.cr0 &&& cr0.PE ≠ 0 then rollback (interruptProtected e cls)
  else rollback (interruptReal e.vector cls)

def contributory (vector : U8) : Bool :=
  vector ∈ ([0, 10, 11, 12, 13] : List U8)

/-- Whether `second`, raised while `first` is delivered, is a double
fault. Only hardware exceptions escalate. -/
def isDoubleFault (first : Exception) (cls : Event) (second : U8) : Bool :=
  if cls ≠ .fault then false
  else if second = 14 then first.vector == 14
  else if contributory second
    then contributory first.vector || first.vector == 14
  else false

/-- The delivery chain, `n` attempts left: nested faults are delivered in
turn, a double fault once, and a fault in that shuts the processor down. -/
def deliverChain : Nat → Exception → Event → Bool → Machine β → Machine β
  | 0, _, _, _, s => { s with shutdown := true, halted := true }
  | n + 1, e, cls, inDouble, s =>
    match (raise e cls).run s with
    | (.ok _, s') => s'
    | (.error nested, s') =>
      if inDouble then { s' with shutdown := true, halted := true }
      else if isDoubleFault e cls nested.vector then
        deliverChain n ⟨8, some 0⟩ .fault true s'
      else deliverChain n nested .fault false s'

/-- Deliver an event, handling nested faults. -/
def deliver (e : Exception) (cls : Event) (s : Machine β) : Machine β :=
  deliverChain 4 e cls false s

/-- `INT n` and its relatives. The designated system-call vector goes to
the host before any table is consulted. -/
def softwareInt (vector : U8) : Xfer β Unit := do
  let s ← self
  if s.syscallInt = some vector then (setHostTrap .syscall).lift
  else raise ⟨vector, none⟩ .softInt

-- ======== I/O permission

/-- The bitmap bytes from `a` on, low byte first. -/
def readBitmap (base : U32) : Nat → Nat → Calm β U32
  | _, 0 => pure 0
  | a, n + 1 => do
    let b ← sysRead8 (base + BitVec.ofNat 32 a)
    let rest ← readBitmap base (a + 1) n
    return b.setWidth 32 ||| (rest <<< 8)

/-- Port permission: IOPL, else the bitmap of a 32-bit TSS. -/
def ioCheck (port : U16) (size : Nat) : Calm β Unit := do
  let s ← self
  let free := s.regs.cr0 &&& cr0.PE == 0
    || (!s.regs.eflags.contains EFlags.VM && decide
      (s.cpl ≤ s.regs.eflags.iopl))
  let tr := s.regs.tr
  whenever (!free) do
    raiseIf (tr.attrs &&& 0x08 = 0) (Exception.gp 0)
    raiseIf (tr.limit < 0x67) (Exception.gp 0)
    let iobase := (← sysRead16 (tr.base + 0x66)).toNat
    let first := iobase + port.toNat / 8
    let last := iobase + (port.toNat + size - 1) / 8
    raiseIf (tr.limit.toNat < last) (Exception.gp 0)
    let bits ← readBitmap tr.base first (last + 1 - first)
    let mask := ((1 <<< size : U32) - 1) <<< (port.toNat % 8)
    raiseIf (bits &&& mask ≠ 0) (Exception.gp 0)

end Remu.X32
