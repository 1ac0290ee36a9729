/-
One step of the processor: the instruction-cache probe, the prefix scan,
the dispatch, and what the step loop does around them (interrupt lines,
the single-step trap, the fault rewind and the host traps).

`execOne` is the cached interpreter. `execFused` is the same instruction
with the cache and the decoder out of the way, which is what the cache has
to agree with.
-/
import Remu.X32.Decode

namespace Remu.X32

variable {β : Type} [Bus β]

-- ======== instruction cache

namespace Cpu

/-- The decode context in key bits 32–35: CS.D, CR0.PE, EFLAGS.VM and the
extensions switch. -/
def icacheCtx (c : Cpu) : U64 :=
  (((c.regs.seg reg.CS).attrs.setWidth 64 &&& 0x400) <<< 22)
    ||| ((c.regs.cr0.setWidth 64 &&& cr0.PE.setWidth 64) <<< 33)
    ||| ((c.regs.eflags.bits.setWidth 64 &&& EFlags.VM.setWidth 64) <<< 17)
    ||| ((if c.extensions then 1 else 0) <<< 35)

/-- The physical address of EIP, when it is known without a walk. -/
def icachePhys (c : Cpu) : Option U32 :=
  if !c.paging then some c.fetchLin else c.tlb.peek c.fetchLin (c.cpl == 3)

/-- What a hit rechecks in place of the per-byte fetch check: the CS
limit. -/
def hitOk (c : Cpu) (d : DecodedInsn) : Bool :=
  decide (c.startEip.toNat + (d.len - 1).toNat
    ≤ (c.regs.seg reg.CS).limit.toNat)

/-- The entry at `phys` is for this address and mode, not older than its
page or the last invalidation, and inside CS. -/
def entryLive (c : Cpu) (phys : U32) (e : Entry) : Bool :=
  e.key == phys.setWidth 64 ||| c.icacheCtx
    && decide (c.icache.stamps (ICache.stampSlot phys) ≤ e.version)
    && decide (c.icache.inval ≤ e.version)
    && c.hitOk e.insn

/-- The record a probe at `phys` returns. -/
def probeAt (c : Cpu) (phys : U32) : Option DecodedInsn :=
  let e := c.icache.entries (ICache.entrySlot phys)
  if c.entryLive phys e then some e.insn else none

/-- The record a probe at EIP returns. -/
def probe (c : Cpu) : Option DecodedInsn := c.icachePhys.bind c.probeAt

end Cpu

/-- Store a record, unless its bytes cross a page. -/
def ICache.fill (c : ICache) (phys : U32) (ctx : U64) (d : DecodedInsn) : ICache :=
  if (phys &&& 0xFFF).toNat + d.len.toNat > 0x1000 then c
  else { c with
    entries := upd c.entries (entrySlot phys)
      { key := phys.setWidth 64 ||| ctx, version := c.now, insn := d } }

/-- `icache_fill`, when the probe had an address. -/
def Machine.icacheFill {β : Type} (s : Machine β)
    (phys : Option U32) (d : DecodedInsn) :
    Machine β :=
  match phys with
  | some phys => { s with icache := s.icache.fill phys s.icacheCtx d }
  | none => s

-- ======== prefix scan

/-- The segment an override prefix names. -/
def segPrefix (b : U8) : Option U8 :=
  if b = 0x26 then some reg.ES
  else if b = 0x2E then some reg.CS
  else if b = 0x36 then some reg.SS
  else if b = 0x3E then some reg.DS
  else if b = 0x64 then some reg.FS
  else if b = 0x65 then some reg.GS
  else none

/-- The prefix bytes. -/
def isPrefix (b : U8) : Bool :=
  (segPrefix b).isSome || b ∈ ([0x66, 0x67, 0xF0, 0xF2, 0xF3] : List U8)

/-- Record a prefix; 66 and 67 select the size that is not the default
`db`. -/
def DecodeState.notePrefix (d : DecodeState) (db : Bool) (b : U8) :
    DecodeState :=
  { d with
    segOverride := (segPrefix b).or d.segOverride
    osize32 := if b = 0x66 then !db else d.osize32
    asize32 := if b = 0x67 then !db else d.asize32
    lock := d.lock || b == 0xF0
    rep := if b = 0xF2 then some false else if b = 0xF3
      then some true else d.rep }

/-- Consume prefixes up to the opcode: the opcode and their count. `fetch8`
refuses the sixteenth byte of an instruction, so sixteen rounds are all
there are. -/
def scanLoop (db : Bool) : Nat → U32 → Calm β (U8 × U32)
  | 0, _ => throw Exception.ud
  | n + 1, npfx => do
    let b ← fetch8
    if isPrefix b then do
      modifyDecode (·.notePrefix db b)
      scanLoop db n (npfx + 1)
    else return (b, npfx)

/-- Consume the prefixes, the sizes starting from CS.D. -/
def scanPrefixes : Calm β (U8 × U32) := do
  let s ← self
  let db := (s.regs.seg reg.CS).db
  modifyDecode ({ · with osize32 := db, asize32 := db })
  scanLoop db 16 0

-- ======== instructions

/-- One-byte opcodes that may carry LOCK: the `r/m, r` ALU forms, the
immediate ALU groups, XCHG, and the NOT/NEG/INC/DEC groups. -/
def lockCandidate (opcode : U8) : Bool :=
  (decide (opcode < 0x38) && opcode &&& 6 == 0)
    || opcode ∈ ([0x80, 0x81, 0x82, 0x83, 0x86, 0x87, 0xF6, 0xF7, 0xFE, 0xFF] : List U8)

/-- Note the instruction's start. -/
def Machine.begin {β : Type} (s : Machine β) : Machine β :=
  { s with startEip := s.regs.eip }

/-- The per-instruction state at the start of a fused instruction. -/
def Machine.resetDecode {β : Type} (s : Machine β) : Machine β :=
  { s with
    ilen := 0
    segOverride := none
    rep := none
    lock := false
    lockOk := false
    commitOnFault := false
    coldSaved := false
    supervisorOverride := false }

/-- The fused arm of an opcode, with the LOCK backstop: a candidate whose
handler never validated the prefix. -/
def runFused (opcode : U8) (npfx : U32) : Xfer β U32 := do
  let c ← dispatch opcode
  let s ← self
  raiseIf (s.lock ∧ !s.lockOk) Exception.ud
  return npfx + c

/-- An opcode that can never lock is #UD before any side effect. -/
def lockScreen (opcode : U8) : Calm β Unit := do
  let s ← self
  raiseIf (s.lock ∧ opcode ≠ 0x0F ∧ !lockCandidate opcode) Exception.ud

/-- Decode, remember and execute a hot instruction; run any other fused. -/
def runDecoded (phys : Option U32) (opcode : U8) (npfx : U32) : Exec β U32 := do
  let r ← (tryDecode opcode npfx).run
  match r with
  | .hot d => do
    Fallible.modify (·.icacheFill phys d)
    let c ← (execDecoded d).run
    return npfx + c
  | .cold0F op2 => do
    let c ← (dispatch0F op2).run
    return npfx + c
  | .cold => (runFused opcode npfx).run

/-- An instruction from its first byte. -/
def interpret (tryHot : Bool) (phys : Option U32) : Exec β U32 := do
  let (opcode, npfx) ← scanPrefixes.run
  (lockScreen opcode).run
  let s ← Fallible.get
  if tryHot && !s.lock && s.rep.isNone then runDecoded phys opcode npfx
  else (runFused opcode npfx).run

/-- Run the cached record `d`. -/
def runHit (d : DecodedInsn) : Exec β U32 := do
  Fallible.modify (·.beginDecoded d)
  let c ← (execDecoded d).run
  return c + d.npfx.setWidth 32

/-- An instruction behind a missed probe. -/
def runMiss (tryHot : Bool) (phys : Option U32) : Exec β U32 := do
  Fallible.modify Machine.resetDecode
  interpret tryHot phys

/-- Execute one instruction through the cache. -/
def execOne : Exec β U32 := do
  Fallible.modify Machine.begin
  let s ← Fallible.get
  match s.probe with
  | some d => runHit d
  | none => runMiss true s.icachePhys

/-- Execute one instruction without the cache or the decoder. -/
def execFused : Exec β U32 := do
  Fallible.modify Machine.begin
  runMiss false none

-- ======== steps

/-- Undo a faulting instruction. A string operation keeps its progress and
rewinds EIP only; otherwise the captured register file comes back, EFLAGS
and CR2 apart. -/
def Machine.rewind {β : Type} (s : Machine β) (savedGpr : U8 → U32) :
    Machine β :=
  if s.commitOnFault then { s with regs := { s.regs with eip := s.startEip } }
  else
    let r := if s.coldSaved then
        { s.faultRegs with eflags := s.regs.eflags, cr2 := s.regs.cr2 }
      else s.regs
    { s with regs := { r with gpr := savedGpr, eip := s.startEip } }

/-- Record a host trap and ring the doorbell. -/
def Machine.hostTrapped {β : Type} (s : Machine β) (t : HostTrap) :
    Machine β :=
  { s with hostTrap := some t, events := s.events ||| EVT_HOST_TRAP }

def Machine.addCycles {β : Type} (s : Machine β) (n : U32) : Machine β :=
  { s with cycles := s.cycles + n.setWidth 64 }

/-- Rewind a faulting instruction, then hand the fault to the host or
deliver it; the cycles to add, or `none` when the host has it. -/
def faultEpilogue (e : Exception) (savedGpr : U8 → U32) (s : Machine β) :
    Option U32 × Machine β :=
  let s := s.rewind savedGpr
  if s.trapFaults then
    (none, (s.hostTrapped (.exception e)).addCycles INTERRUPT_CYCLES)
  else (some INTERRUPT_CYCLES, deliver e .fault s)

/-- Run one instruction and its fault epilogue: the cycles to add, or
`none` when the host took the fault. -/
def execRewound (s : Machine β) : Option U32 × Machine β :=
  match execOne s with
  | (.ok c, s') => (some c, s')
  | (.error e, s') => faultEpilogue e s.regs.gpr s'

/-- A step with nothing pending. -/
def stepFast (s : Machine β) : U32 × Machine β :=
  match execRewound s with
  | (some c, s') => (c, s'.addCycles c)
  | (none, s') => (INTERRUPT_CYCLES, s')

def Cpu.boundaryPending (c : Cpu) : Bool :=
  c.events != 0 || c.halted || c.shutdown || c.regs.eflags.bits &&& EFlags.TF != 0

/-- Deliver an external interrupt at a boundary. -/
def deliverExternal (vector : U8) (s : Machine β) : U32 × Machine β :=
  (INTERRUPT_CYCLES,
    (deliver ⟨vector, none⟩ .external { s with halted := false }).addCycles
      INTERRUPT_CYCLES)

/-- An instruction under the trap flag: the single-step exception fires
after it if TF was set when it started. -/
def stepTraced (s : Machine β) : U32 × Machine β :=
  let trap := s.regs.eflags.contains EFlags.TF
  match execRewound s with
  | (none, s') => (INTERRUPT_CYCLES, s')
  | (some c, s') =>
    if trap && s'.regs.eflags.contains EFlags.TF && s'.events &&& EVT_INHIBIT == 0 then
      (c + INTERRUPT_CYCLES,
        (deliver ⟨1, none⟩ .fault s').addCycles (c + INTERRUPT_CYCLES))
    else (c, s'.addCycles c)

/-- A step with something pending. Interrupts are recognised at the
boundary, except for the one-instruction shadow after MOV SS, POP SS and
STI. -/
def stepSlow (s : Machine β) : U32 × Machine β :=
  let s := { s with events := s.events &&& ~~~EVT_HOST_TRAP }
  if s.shutdown then (1, s.addCycles 1)
  else
    let inhibited := s.events &&& EVT_INHIBIT != 0
    let s := { s with events := s.events &&& ~~~EVT_INHIBIT }
    if !inhibited && s.events &&& EVT_NMI != 0 then
      deliverExternal 2 { s with events := s.events &&& ~~~EVT_NMI }
    else
      match (if !inhibited && s.regs.eflags.contains EFlags.IF then s.intr else none) with
      | some vector =>
        deliverExternal vector { s with intr := none, events := s.events &&& ~~~EVT_INTR }
      | none => if s.halted then (1, s.addCycles 1) else stepTraced s

/-- Execute one instruction or take one pending event. -/
def step (s : Machine β) : U32 × Machine β :=
  if s.boundaryPending then stepSlow s else stepFast s

-- ======== runs

/-- Why a run stopped. -/
inductive RunExit where
  | completed
  | hostTrap
  | halted
  | shutdown
deriving DecidableEq, Repr

/-- A run at a boundary: an exit, or one slow step. -/
def runBoundary (s : Machine β) : Option RunExit × Machine β :=
  if s.hostTrap.isSome then
    (some .hostTrap, { s with events := s.events &&& ~~~EVT_HOST_TRAP })
  else if s.shutdown then (some .shutdown, s)
  else if s.halted && !s.interruptPending then (some .halted, s)
  else (none, (stepSlow s).2)

/-- The run loop, `n` units left; the units executed and the exit. -/
def runLoop : Nat → Nat → Machine β → (Nat × RunExit) × Machine β
  | 0, executed, s => ((executed, .completed), s)
  | n + 1, executed, s =>
    if s.boundaryPending then
      match runBoundary s with
      | (some exit, s') => ((executed, exit), s')
      | (none, s') => runLoop n (executed + 1) s'
    else runLoop n (executed + 1) (stepFast s).2

/-- Run up to `n` units in the interpreter. -/
def runInterp (s : Machine β) (n : Nat) : (Nat × RunExit) × Machine β :=
  if s.hostTrap.isSome then ((0, .hostTrap), s) else runLoop n 0 s

-- ======== the host's side

namespace Machine

/-- Back to power-on; cycles and the host hooks stay. -/
def reset {β : Type} (s : Machine β) : Machine β :=
  { s with
    regs := Registers.new
    halted := false
    shutdown := false
    events := 0
    intr := none
    supervisorOverride := false
    tlb := s.tlb.flush
    icache := s.icache.invalidateAll
    hostTrap := none }

/-- Start in real mode at `sel:eip`. -/
def setCsIp {β : Type} (s : Machine β) (sel : U16) (eip : U32) : Machine β :=
  { s with regs := { s.regs with seg := upd s.regs.seg reg.CS (SegReg.real sel), eip } }

def triggerNmi {β : Type} (s : Machine β) : Machine β :=
  { s with events := s.events ||| EVT_NMI }

def assertIntr {β : Type} (s : Machine β) (vector : U8) : Machine β :=
  { s with intr := some vector, events := s.events ||| EVT_INTR }

def clearIntr {β : Type} (s : Machine β) : Machine β :=
  { s with intr := none, events := s.events &&& ~~~EVT_INTR }

/-- Kill every cached record: the host has written memory. -/
def invalidateIcache {β : Type} (s : Machine β) : Machine β :=
  { s with icache := s.icache.invalidateAll }

/-- Drop every cached translation: the host has changed the mapping. -/
def invalidateTlb {β : Type} (s : Machine β) : Machine β :=
  { s with tlb := s.tlb.flush }

end Machine

end Remu.X32
