/-
One step of the processor: the instruction-cache probe, the prefix scan,
the dispatch, and what the step loop does around them (interrupt lines,
the single-step trap, the fault rewind and the host traps).

`execOne` is the cached interpreter. `execFused` is the same instruction
with the cache and the decoder out of the way, which is what the cache has
to agree with.
-/
import Remu.X64.Decode

namespace Remu.X64

variable {β : Type} [Bus β]

-- ======== instruction cache

namespace Cpu

/-- The decode context in key bits 60–63: CR0.PE, RFLAGS.VM, 64-bit mode
and CS.D. -/
def icacheCtx (c : Cpu) : U64 :=
  ((c.regs.cr0 &&& cr0.PE) <<< 60)
    ||| ((c.regs.rflags.bits.setWidth 64 &&& RFlags.VM.setWidth 64) <<< 44)
    ||| ((if c.m64 then 1 else 0) <<< 62)
    ||| (((c.regs.seg reg.CS).attrs.setWidth 64 &&& 0x400) <<< 53)

/-- The physical address of RIP, when it is known without a walk. -/
def icachePhys (c : Cpu) : Option U64 :=
  let lin := c.fetchLin
  if !c.paging then some lin
  else if lin >>> 12 = c.fetchTag then some (c.fetchPage ||| (lin &&& 0xFFF))
  else none

/-- What a hit rechecks in place of the fetch checks: canonicality in
64-bit mode, the CS limit (by a saturating sum) elsewhere. -/
def hitOk (c : Cpu) (d : DecodedInsn) : Bool :=
  let cs := c.regs.seg reg.CS
  if c.m64 then canonical (cs.base + c.startRip)
  else decide (c.startRip.toNat + (d.len - 1).toNat ≤ cs.limit.toNat)

/-- The entry at `phys` is for this address and mode, not older than its
page or the last invalidation, and inside CS. -/
def entryLive (c : Cpu) (phys : U64) (e : Entry) : Bool :=
  e.key == phys ||| c.icacheCtx
    && decide (c.icache.stamps (ICache.stampSlot phys) ≤ e.version)
    && decide (c.icache.inval ≤ e.version)
    && c.hitOk e.insn

/-- The record a probe at `phys` returns. -/
def probeAt (c : Cpu) (phys : U64) : Option DecodedInsn :=
  let e := c.icache.entries (ICache.entrySlot phys)
  if c.entryLive phys e then some e.insn else none

/-- The record a probe at RIP returns. -/
def probe (c : Cpu) : Option DecodedInsn := c.icachePhys.bind c.probeAt

end Cpu

/-- Store a record, unless its bytes cross a page. -/
def ICache.fill (c : ICache) (phys ctx : U64) (d : DecodedInsn) : ICache :=
  if (phys &&& 0xFFF).toNat + d.len.toNat > 0x1000 then c
  else { c with
    entries := upd c.entries (entrySlot phys) { key := phys ||| ctx, version := c.now, insn := d } }

/-- `icache_fill`, when the probe had an address. -/
def Machine.icacheFill {β : Type} (s : Machine β)
    (phys : Option U64) (d : DecodedInsn) :
    Machine β :=
  match phys with
  | some phys => { s with icache := s.icache.fill phys s.icacheCtx d }
  | none => s

-- ======== prefix scan

/-- The segment an override prefix names. -/
def segPrefix (b : U8) : Option U8 :=
  if b = 0x26 then some reg.ES
  else if b = 0x2E then some reg.CS
  else if b = 0x36 then some reg.SS
  else if b = 0x3E then some reg.DS
  else if b = 0x64 then some reg.FS
  else if b = 0x65 then some reg.GS
  else none

/-- The legacy prefix bytes. -/
def isPrefix (b : U8) : Bool :=
  (segPrefix b).isSome || b ∈ ([0x66, 0x67, 0xF0, 0xF2, 0xF3] : List U8)

/-- Record a legacy prefix. It voids a REX before it. -/
def DecodeState.notePrefix (d : DecodeState) (b : U8) : DecodeState :=
  { d with
    segOverride := (segPrefix b).or d.segOverride
    lock := d.lock || b == 0xF0
    rep := if b = 0xF2 then some false else if b = 0xF3
      then some true else d.rep
    rex := none }

/-- The outcome of the prefix loop. -/
structure Prefixes where
  opcode : U8
  npfx : U32
  p66 : Bool
  p67 : Bool

/-- Consume prefixes up to the opcode. `fetch8` refuses the sixteenth byte
of an instruction, so sixteen rounds are all there are. -/
def scanLoop : Nat → Bool → Bool → U32 → Calm β Prefixes
  | 0, _, _, _ => throw Exception.ud
  | n + 1, p66, p67, npfx => do
    let b ← fetch8
    let s ← self
    if s.m64 && b &&& 0xF0 == 0x40 then do
      modifyDecode ({ · with rex := some b })
      scanLoop n p66 p67 npfx
    else if isPrefix b then do
      modifyDecode (·.notePrefix b)
      scanLoop n (p66 || b == 0x66) (p67 || b == 0x67) (npfx + 1)
    else return { opcode := b, npfx, p66, p67 }

/-- The effective sizes the prefixes select. In 64-bit mode only FS and GS
overrides change anything. -/
def Cpu.resolveSizes (c : Cpu) (p66 p67 : Bool) : DecodeState :=
  let db := (c.regs.seg reg.CS).db
  let d := { c.toDecodeState with prefix66 := p66 }
  if c.m64 then
    { d with
      osize := if c.rexW then O64 else if p66 then O16 else O32
      asize := if p67 then O32 else O64
      segOverride := c.segOverride.filter fun s => s == reg.FS || s == reg.GS }
  else
    { d with
      osize := if db != p66 then O32 else O16
      asize := if db != p67 then O32 else O16 }

/-- Consume the prefixes: the opcode and the legacy-prefix count. -/
def scanPrefixes : Calm β (U8 × U32) := do
  let p ← scanLoop 16 false false 0
  let s ← self
  modifyDecode fun _ => s.resolveSizes p.p66 p.p67
  return (p.opcode, p.npfx)

-- ======== instructions

/-- One-byte opcodes that may carry LOCK: the `r/m, r` ALU forms, the
immediate ALU groups, XCHG, and the NOT/NEG/INC/DEC groups. -/
def lockCandidate (opcode : U8) : Bool :=
  (decide (opcode < 0x38) && opcode &&& 6 == 0)
    || opcode ∈ ([0x80, 0x81, 0x82, 0x83, 0x86, 0x87, 0xF6, 0xF7, 0xFE, 0xFF] : List U8)

/-- Note the instruction's start and refresh the 64-bit flag. -/
def Machine.begin {β : Type} (s : Machine β) : Machine β :=
  { s with startRip := s.regs.rip, m64 := s.mode64 }

/-- The per-instruction state at the start of a fused instruction. -/
def Machine.resetDecode {β : Type} (s : Machine β) : Machine β :=
  { s with
    ilen := 0
    segOverride := none
    rep := none
    lock := false
    lockOk := false
    rex := none
    prefix66 := false
    commitOnFault := false
    coldSaved := false
    supervisorOverride := false
    immLen := 0
    usedRipRel := false }

/-- The fused arm of an opcode, with the LOCK backstop: a candidate whose
handler never validated the prefix. -/
def runFused (opcode : U8) (npfx : U32) : Cold β U32 := do
  let c ← dispatch opcode
  let s ← self
  raiseIf (s.lock ∧ !s.lockOk) Exception.ud
  return npfx + c

/-- An opcode that can never lock is #UD before any side effect. -/
def lockScreen (opcode : U8) : Calm β Unit := do
  let s ← self
  raiseIf (s.lock ∧ opcode ≠ 0x0F ∧ !lockCandidate opcode) Exception.ud

/-- Decode, remember and execute a hot instruction; run any other fused. -/
def runDecoded (phys : Option U64) (opcode : U8) (npfx : U32) : Exec β U32 := do
  let r ← (tryDecode opcode npfx).run
  match r with
  | .hot d => do
    Fallible.modify (·.icacheFill phys d)
    let c ← (execDecoded d).run
    return npfx + c
  | .cold0F op2 => do
    let c ← (dispatch0F op2).run
    return npfx + c
  | .cold => (runFused opcode npfx).run

/-- An instruction from its first byte. -/
def interpret (tryHot : Bool) (phys : Option U64) : Exec β U32 := do
  let (opcode, npfx) ← scanPrefixes.run
  (lockScreen opcode).run
  let s ← Fallible.get
  if tryHot && !s.lock && s.rep.isNone then runDecoded phys opcode npfx
  else (runFused opcode npfx).run

/-- Run the cached record `d`. -/
def runHit (d : DecodedInsn) : Exec β U32 := do
  Fallible.modify (·.beginDecoded d)
  let c ← (execDecoded d).run
  return c + d.npfx.setWidth 32

/-- An instruction behind a missed probe. -/
def runMiss (tryHot : Bool) (phys : Option U64) : Exec β U32 := do
  Fallible.modify Machine.resetDecode
  interpret tryHot phys

/-- Execute one instruction through the cache. -/
def execOne : Exec β U32 := do
  Fallible.modify Machine.begin
  let s ← Fallible.get
  match s.probe with
  | some d => runHit d
  | none => runMiss true s.icachePhys

/-- Execute one instruction without the cache or the decoder. -/
def execFused : Exec β U32 := do
  Fallible.modify Machine.begin
  runMiss false none

-- ======== steps

/-- Undo a faulting instruction. A string operation keeps its progress and
rewinds RIP only; otherwise the captured register file comes back, RFLAGS
and CR2 apart. -/
def Machine.rewind {β : Type} (s : Machine β) (savedGpr : U8 → U64) :
    Machine β :=
  if s.commitOnFault then { s with regs := { s.regs with rip := s.startRip } }
  else
    let r := if s.coldSaved then
        { s.faultRegs with rflags := s.regs.rflags, cr2 := s.regs.cr2 }
      else s.regs
    { s with regs := { r with gpr := savedGpr, rip := s.startRip } }

/-- Record a host trap and ring the doorbell. -/
def Machine.hostTrapped {β : Type} (s : Machine β) (t : HostTrap) :
    Machine β :=
  { s with hostTrap := some t, events := s.events ||| EVT_HOST_TRAP }

/-- The cycle counter is charged after the step. -/
def Machine.addCycles {β : Type} (s : Machine β) (n : U32) : Machine β :=
  { s with cycles := s.cycles + n.setWidth 64 }

/-- Rewind a faulting instruction, then hand the fault to the host or
deliver it; the cycles to add, or `none` when the host has it. -/
def faultEpilogue (e : Exception) (savedGpr : U8 → U64) (s : Machine β) :
    Option U32 × Machine β :=
  let s := s.rewind savedGpr
  if s.trapFaults then
    (none, (s.hostTrapped (.exception e)).addCycles INTERRUPT_CYCLES)
  else (some INTERRUPT_CYCLES, deliver e .fault s)

/-- Run one instruction and its fault epilogue: the cycles to add, or
`none` when the host took the fault. -/
def execRewound (s : Machine β) : Option U32 × Machine β :=
  match execOne s with
  | (.ok c, s') => (some c, s')
  | (.error e, s') => faultEpilogue e s.regs.gpr s'

/-- A step with nothing pending. -/
def stepFast (s : Machine β) : U32 × Machine β :=
  match execRewound s with
  | (some c, s') => (c, s'.addCycles c)
  | (none, s') => (INTERRUPT_CYCLES, s')

/-- Whether there is anything to look at between instructions. -/
def Cpu.boundaryPending (c : Cpu) : Bool :=
  c.events != 0 || c.halted || c.shutdown || c.regs.rflags.bits &&& RFlags.TF != 0

/-- Deliver an external interrupt at a boundary. -/
def deliverExternal (vector : U8) (s : Machine β) : U32 × Machine β :=
  (INTERRUPT_CYCLES,
    (deliver ⟨vector, none⟩ .external { s with halted := false }).addCycles
      INTERRUPT_CYCLES)

/-- An instruction under the trap flag: the single-step exception fires
after it if TF was set when it started. -/
def stepTraced (s : Machine β) : U32 × Machine β :=
  let trap := s.regs.rflags.contains RFlags.TF
  match execRewound s with
  | (none, s') => (INTERRUPT_CYCLES, s')
  | (some c, s') =>
    if trap && s'.regs.rflags.contains RFlags.TF && s'.events &&& EVT_INHIBIT == 0 then
      (c + INTERRUPT_CYCLES,
        (deliver ⟨1, none⟩ .fault s').addCycles (c + INTERRUPT_CYCLES))
    else (c, s'.addCycles c)

/-- A step with something pending. Interrupts are recognised at the
boundary, except for the one-instruction shadow after MOV SS, POP SS and
STI. -/
def stepSlow (s : Machine β) : U32 × Machine β :=
  let s := { s with events := s.events &&& ~~~EVT_HOST_TRAP }
  if s.shutdown then (1, s.addCycles 1)
  else
    let inhibited := s.events &&& EVT_INHIBIT != 0
    let s := { s with events := s.events &&& ~~~EVT_INHIBIT }
    if !inhibited && s.events &&& EVT_NMI != 0 then
      deliverExternal 2 { s with events := s.events &&& ~~~EVT_NMI }
    else
      match (if !inhibited && s.regs.rflags.contains RFlags.IF then s.intr else none) with
      | some vector =>
        deliverExternal vector { s with intr := none, events := s.events &&& ~~~EVT_INTR }
      | none => if s.halted then (1, s.addCycles 1) else stepTraced s

/-- Execute one instruction or take one pending event. -/
def step (s : Machine β) : U32 × Machine β :=
  if s.boundaryPending then stepSlow s else stepFast s

-- ======== runs

/-- Why a run stopped. -/
inductive RunExit where
  | completed
  | hostTrap
  | halted
  | shutdown
deriving DecidableEq, Repr

/-- A run at a boundary: an exit, or one slow step. -/
def runBoundary (s : Machine β) : Option RunExit × Machine β :=
  if s.hostTrap.isSome then
    (some .hostTrap, { s with events := s.events &&& ~~~EVT_HOST_TRAP })
  else if s.shutdown then (some .shutdown, s)
  else if s.halted && !s.interruptPending then (some .halted, s)
  else (none, (stepSlow s).2)

/-- The run loop, `n` units left; the units executed and the exit. -/
def runLoop : Nat → Nat → Machine β → (Nat × RunExit) × Machine β
  | 0, executed, s => ((executed, .completed), s)
  | n + 1, executed, s =>
    if s.boundaryPending then
      match runBoundary s with
      | (some exit, s') => ((executed, exit), s')
      | (none, s') => runLoop n (executed + 1) s'
    else runLoop n (executed + 1) (stepFast s).2

/-- Run up to `n` units in the interpreter. -/
def runInterp (s : Machine β) (n : Nat) : (Nat × RunExit) × Machine β :=
  if s.hostTrap.isSome then ((0, .hostTrap), s) else runLoop n 0 s

-- ======== the host's side

namespace Machine

/-- Back to power-on; cycles and the host hooks stay. -/
def reset {β : Type} (s : Machine β) : Machine β :=
  { s with
    regs := Registers.new
    halted := false
    shutdown := false
    events := 0
    intr := none
    supervisorOverride := false
    fetchTag := EMPTY
    tlb := s.tlb.flush
    icache := s.icache.invalidateAll
    hostTrap := none }

/-- Start in real mode at `sel:rip`. -/
def setCsIp {β : Type} (s : Machine β) (sel : U16) (rip : U64) : Machine β :=
  { s with
    fetchTag := EMPTY
    regs := { s.regs with seg := upd s.regs.seg reg.CS (SegReg.real sel), rip } }

/-- The host raises an NMI. -/
def triggerNmi {β : Type} (s : Machine β) : Machine β :=
  { s with events := s.events ||| EVT_NMI }

/-- The host raises an interrupt with its vector. -/
def assertIntr {β : Type} (s : Machine β) (vector : U8) : Machine β :=
  { s with intr := some vector, events := s.events ||| EVT_INTR }

/-- The host withdraws it. -/
def clearIntr {β : Type} (s : Machine β) : Machine β :=
  { s with intr := none, events := s.events &&& ~~~EVT_INTR }

/-- Kill every cached record: the host has written memory. -/
def invalidateIcache {β : Type} (s : Machine β) : Machine β :=
  { s with icache := s.icache.invalidateAll }

/-- Drop every cached translation: the host has changed the mapping. -/
def invalidateTlb {β : Type} (s : Machine β) : Machine β :=
  { s with fetchTag := EMPTY, tlb := s.tlb.flush }

/-- The page tables of the flat long-mode setup: one PML4 entry and 512
one-gigabyte pages. -/
def writeFlatTables (b : β) : β :=
  let b := Bus.write64 b 0x1000 (0x2000 ||| 0x07)
  (List.range 512).foldl
    (fun b i => Bus.write64 b (0x2000 + BitVec.ofNat 64 i * 8)
      ((BitVec.ofNat 64 i <<< 30) ||| 0x87)) b

/-- The register file of the flat long-mode setup. -/
def longFlatRegs (r : Registers) (rip rsp : U64) : Registers :=
  let code : SegReg :=
    { sel := 0x08, base := 0, limit := 0xFFFFFFFF, attrs := 0x0A9B }
  let data : SegReg :=
    { sel := 0x10, base := 0, limit := 0xFFFFFFFF, attrs := 0x0C93 }
  { r with
    cr3 := 0x1000
    cr4 := r.cr4 ||| cr4.PAE
    cr0 := (r.cr0 ||| (cr0.PE ||| cr0.PG)) &&& ~~~(cr0.CD ||| cr0.NW)
    msr := { r.msr with efer := r.msr.efer ||| (efer.LME ||| efer.LMA ||| efer.SCE) }
    seg := fun i => if i = reg.CS then code else if i < 6
      then data else r.seg i
    rip
    gpr := upd r.gpr reg.RSP rsp }

/-- Flat long mode: page tables at 0x1000 written straight to the bus, the
register file set, the caches dropped. -/
def setupLongFlat (s : Machine β) (rip rsp : U64) : Machine β :=
  { s with
    fetchTag := EMPTY
    icache := s.icache.invalidateAll
    bus := writeFlatTables s.bus
    regs := longFlatRegs s.regs rip rsp
    tlb := s.tlb.flush }

end Machine

end Remu.X64
