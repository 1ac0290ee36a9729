/-
The processor state and the primitives every instruction is built from.

`Machine β` is the CPU together with its bus. `Exec β` is a result or a
CPU exception, and the state reached either way; `Calm β` is `Exec`
restricted, by construction, to the steps an ordinary instruction takes
(`CalmPrim`): general registers, EIP and EFLAGS (but never `EFLAGS.VM`),
the per-instruction decode state, the event latches, TLB fills, bus reads,
port accesses, and stores that stamp the pages they write before they
write them.

The latches only gain: an instruction sets event bits and never clears
one, and a host trap it records rings the doorbell bit.
-/
import Remu.Lib.Fallible
import Remu.X32.Insn

namespace Remu.X32

-- ======== exceptions

/-- A CPU exception in flight. -/
structure Exception where
  vector : U8
  error : Option U16
deriving DecidableEq, Repr

namespace Exception

/-- Divide error. -/
def de : Exception := ⟨0, none⟩
/-- BOUND range exceeded. -/
def br : Exception := ⟨5, none⟩
/-- Invalid opcode. -/
def ud : Exception := ⟨6, none⟩
/-- Device not available. -/
def nm : Exception := ⟨7, none⟩
/-- Invalid TSS. -/
def ts (sel : U16) : Exception := ⟨10, some sel⟩
/-- Segment not present. -/
def np (sel : U16) : Exception := ⟨11, some sel⟩
/-- Stack fault. -/
def ss (sel : U16) : Exception := ⟨12, some sel⟩
/-- General protection. -/
def gp (sel : U16) : Exception := ⟨13, some sel⟩
/-- Page fault. -/
def pf (code : U16) : Exception := ⟨14, some code⟩

end Exception

/-- How an interrupt or exception reached the delivery path. -/
inductive Event where
  | fault
  | softInt
  | external
deriving DecidableEq, Repr

/-- A request from the CPU for the host to act. -/
inductive HostTrap where
  | syscall
  | exception (e : Exception)
deriving DecidableEq, Repr

/-- What taking an interrupt is charged. -/
abbrev INTERRUPT_CYCLES : U32 := 37

/-- The events a step looks at before it goes the fast way. -/
abbrev EVT_NMI : U8 := 1
abbrev EVT_INTR : U8 := 2
/-- Interrupts are inhibited for one instruction. -/
abbrev EVT_INHIBIT : U8 := 4
/-- The host has asked a batch to stop. -/
abbrev EVT_HOST_TRAP : U8 := 8

-- ======== translation cache

/-- The tag of an empty TLB slot. -/
abbrev EMPTY : U32 := 0xFFFFFFFF

abbrev TLB_SIZE : U32 := 256

/-- The frame bits of an entry. -/
abbrev FRAME : U32 := 0xFFFFF000

/-- One cached translation. Its frame has frame bits only, so the low bits
of a translated address are always those of the linear address. -/
structure TlbEntry where
  tag : U32
  phys : U32
  user : Bool
  writable : Bool
  dirty : Bool
  framed : phys &&& ~~~FRAME = 0

/-- An empty entry is a framed one. -/
theorem zero_framed : (0 : U32) &&& ~~~FRAME = 0 := rfl

/-- The direct-mapped translation cache, indexed by the masked page
number. -/
structure Tlb where
  entries : U32 → TlbEntry

namespace Tlb

def new : Tlb where
  entries := fun _ =>
    { tag := EMPTY, phys := 0, user := false, writable := false, dirty := false,
      framed := zero_framed }

/-- The slot of a page: its low bits. -/
def slot (page : U32) : U32 := page &&& (TLB_SIZE - 1)

/-- Every entry emptied; nothing of what they hold is kept. -/
def flush (t : Tlb) : Tlb where
  entries := fun i => { t.entries i with tag := EMPTY }

/-- Non-faulting read probe: the cached physical address, if an entry
permits a read. -/
def peek (t : Tlb) (lin : U32) (user : Bool) : Option U32 :=
  let page := lin >>> 12
  let e := t.entries (slot page)
  if e.tag = page && (!user || e.user)
    then some (e.phys ||| (lin &&& 0xFFF)) else none

end Tlb

-- ======== decoded-instruction cache

abbrev ICACHE_ENTRIES : U32 := 16384
abbrev STAMP_SLOTS : U32 := 16384

/-- One cache slot: the key, the write-clock value at fill time and the
decode products. -/
structure Entry where
  key : U64
  version : U64
  insn : DecodedInsn

/-- The direct-mapped instruction cache with its per-page write stamps.
`clock` counts every tick since power-on; the 64-bit counter of the source
is its residue `now`, and stamps and versions are residues too. -/
structure ICache where
  entries : U32 → Entry
  stamps : U32 → U64
  clock : Nat
  inval : U64

namespace ICache

def new : ICache where
  entries := fun _ => ⟨0, 0, DecodedInsn.default⟩
  stamps := fun _ => 0
  clock := 1
  inval := 1

/-- The slot of a record: the low bits of its physical address. -/
def entrySlot (phys : U32) : U32 := phys &&& (ICACHE_ENTRIES - 1)

/-- The stamp of a page: the low bits of its number, so that distant pages
share one. -/
def stampSlot (phys : U32) : U32 := (phys >>> 12) &&& (STAMP_SLOTS - 1)

/-- The 64-bit store clock. -/
def now (c : ICache) : U64 := BitVec.ofNat 64 c.clock

/-- Advance the store clock. -/
def tick (c : ICache) : ICache := { c with clock := c.clock + 1 }

/-- Record a guest store to physical address `phys`. -/
def stampWrite (c : ICache) (phys : U32) : ICache :=
  { c.tick with stamps := upd c.stamps (stampSlot phys) c.tick.now }

/-- Record a store spanning `first..=last`. -/
def stampWriteSpan (c : ICache) (first last : U32) : ICache :=
  let c := c.stampWrite first
  if first >>> 12 ≠ last >>> 12 then c.stampWrite last else c

/-- Kill every current entry. -/
def invalidateAll (c : ICache) : ICache := { c.tick with inval := c.tick.now }

end ICache

-- ======== processor state

/-- The per-instruction decode state: prefixes, effective sizes and the
bookkeeping a handler leaves for the step loop. -/
structure DecodeState where
  segOverride : Option U8
  rep : Option Bool
  lock : Bool
  lockOk : Bool
  osize32 : Bool
  asize32 : Bool
  commitOnFault : Bool
  ilen : U8
  supervisorOverride : Bool

structure Cpu extends DecodeState where
  regs : Registers
  cycles : U64
  halted : Bool
  shutdown : Bool
  events : U8
  intr : Option U8
  startEip : U32
  /-- The register file captured before the first cold write; meaningful
  while `coldSaved`. -/
  faultRegs : Registers
  coldSaved : Bool
  tlb : Tlb
  icache : ICache
  syscallInt : Option U8
  trapFaults : Bool
  /-- The post-386 opcodes are decoded. -/
  extensions : Bool
  hostTrap : Option HostTrap

/-- A CPU and the bus it is stepped against. -/
structure Machine (β : Type) extends Cpu where
  bus : β

namespace Machine

variable {β : Type}

/-- Replace the per-instruction decode state. -/
def withDecode (s : Machine β) (d : DecodeState) : Machine β :=
  { s with toDecodeState := d }

/-- Replace the hot registers. -/
def withHot (s : Machine β) (r : HotRegs) : Machine β :=
  { s with regs := { s.regs with toHotRegs := r } }

@[simp] theorem toDecodeState_withDecode (s : Machine β) (d : DecodeState) :
    (s.withDecode d).toDecodeState = d := rfl

@[simp] theorem regs_withDecode (s : Machine β) (d : DecodeState) :
    (s.withDecode d).regs = s.regs := rfl

@[simp] theorem bus_withDecode (s : Machine β) (d : DecodeState) :
    (s.withDecode d).bus = s.bus := rfl

@[simp] theorem toDecodeState_withHot (s : Machine β) (r : HotRegs) :
    (s.withHot r).toDecodeState = s.toDecodeState := rfl

@[simp] theorem toHotRegs_withHot (s : Machine β) (r : HotRegs) :
    (s.withHot r).regs.toHotRegs = r := rfl

@[simp] theorem toColdRegs_withHot (s : Machine β) (r : HotRegs) :
    (s.withHot r).regs.toColdRegs = s.regs.toColdRegs := rfl

@[simp] theorem bus_withHot (s : Machine β) (r : HotRegs) :
    (s.withHot r).bus = s.bus := rfl

end Machine

/-- The CPU at power-on. -/
def Cpu.new : Cpu where
  segOverride := none
  rep := none
  lock := false
  lockOk := false
  osize32 := false
  asize32 := false
  commitOnFault := false
  ilen := 0
  supervisorOverride := false
  regs := Registers.new
  cycles := 0
  halted := false
  shutdown := false
  events := 0
  intr := none
  startEip := 0
  faultRegs := Registers.new
  coldSaved := false
  tlb := Tlb.new
  icache := ICache.new
  syscallInt := none
  trapFaults := false
  extensions := false
  hostTrap := none

namespace Cpu

/-- Protected mode, virtual-8086 mode left out. -/
def protectedMode (c : Cpu) : Bool :=
  c.regs.cr0 &&& cr0.PE != 0 && !c.regs.eflags.contains EFlags.VM

/-- Current privilege level, derived from the cached CS attributes. -/
def cpl (c : Cpu) : U8 :=
  if c.regs.eflags.contains EFlags.VM then 3
  else if c.protectedMode then (c.regs.seg reg.CS).dpl
  else 0

/-- Whether linear addresses are translated. -/
def paging (c : Cpu) : Bool := c.regs.cr0 &&& cr0.PG != 0

/-- Whether an interrupt would be taken at the next boundary. -/
def interruptPending (c : Cpu) : Bool :=
  c.events &&& EVT_NMI != 0
    || (c.events &&& EVT_INTR != 0 && c.regs.eflags.contains EFlags.IF)

/-- The effective segment of a data access, honouring an override. -/
def segOr (c : Cpu) (default : U8) : U8 := c.segOverride.getD default

/-- Offset wrap mask of data accesses. -/
def dataWrap (c : Cpu) : U32 := if c.asize32 then 0xFFFFFFFF else 0xFFFF

/-- Offset wrap mask of stack accesses: SS.B selects SP or ESP. -/
def stackWrap (c : Cpu) : U32 :=
  if (c.regs.seg reg.SS).db then 0xFFFFFFFF else 0xFFFF

def stackPtr (c : Cpu) : U32 :=
  let sp := c.regs.gpr reg.ESP
  if (c.regs.seg reg.SS).db then sp else sp &&& 0xFFFF

end Cpu

-- ======== control flow

section AnyBound

variable {β : Type} {R : Machine β → Machine β → Prop}
  [IsPreorder (Machine β) R] {α : Type}

/-- `if c { return Err(e) }`. -/
def raiseIf (c : Prop) [Decidable c] (e : Exception) :
    Bounded R Exception Unit :=
  if c then throw e else pure ()

/-- `if c { m }`. -/
def whenever (c : Prop) [Decidable c] (m : Bounded R Exception Unit) :
    Bounded R Exception Unit :=
  if c then m else pure ()

/-- The machine as it stands. -/
def self : Bounded R Exception (Machine β) := Bounded.get

/-- The result of a check as a computation. -/
def check (r : Except Exception α) : Bounded R Exception α :=
  match r with
  | .ok a => pure a
  | .error e => throw e

@[simp] theorem run_raiseIf (c : Prop) [Decidable c]
    (e : Exception) (s : Machine β) :
    (raiseIf c e : Bounded R Exception Unit).run s
      = if c then (.error e, s) else (.ok (), s) := by
  unfold raiseIf
  split <;> rfl

/-- A check that passes changes nothing. -/
theorem run_raiseIf_ok {c : Prop} [Decidable c] {e : Exception}
    {s s' : Machine β} {u : Unit}
    (h : (raiseIf c e : Bounded R Exception Unit).run s = (.ok u, s')) :
    ¬ c ∧ s' = s := by
  rw [run_raiseIf] at h
  split at h <;> cases h
  case _ hc => exact ⟨hc, rfl⟩

@[simp] theorem run_self (s : Machine β) :
    (self : Bounded R Exception (Machine β)).run s = (.ok s, s) := rfl

@[simp] theorem run_check (r : Except Exception α) (s : Machine β) :
    (check r : Bounded R Exception α).run s = (r, s) := by
  cases r <;> rfl

end AnyBound

-- ======== calm steps

variable {β : Type} [Bus β]

/-- A bus after one read or port access. -/
inductive BusTouch : β → β → Prop
  | read (b a) : BusTouch b (Bus.read b a).2
  | read16 (b a) : BusTouch b (Bus.read16 b a).2
  | read32 (b a) : BusTouch b (Bus.read32 b a).2
  | ioRead (b p) : BusTouch b (Bus.ioRead b p).2
  | ioWrite (b p v) : BusTouch b (Bus.ioWrite b p v)

/-- A bus after one store whose bytes all lie in the page of `first` or in
the page of `last`. -/
inductive BusStore : β → U32 → U32 → β → Prop
  | write (b a v) : BusStore b a a (Bus.write b a v)
  | write16 (b a v) : BusStore b a (a + 1) (Bus.write16 b a v)
  | write32 (b a v) : BusStore b a (a + 3) (Bus.write32 b a v)
  | scatter (b) (first last : U32) (l : List (U32 × U8))
      (hl : ∀ p ∈ l, p.1 >>> 12 = first >>> 12 ∨ p.1 >>> 12 = last >>> 12) :
      BusStore b first last (l.foldl (fun b p => Bus.write b p.1 p.2) b)

/-- What an ordinary instruction may do to the machine in one go. -/
inductive CalmPrim : Machine β → Machine β → Prop
  | hot (s : Machine β) (r : HotRegs) (hvm : r.eflags.vm = s.regs.eflags.vm) :
      CalmPrim s (s.withHot r)
  | decode (s : Machine β) (d : DecodeState) : CalmPrim s (s.withDecode d)
  | latch (s : Machine β) (m : U8) (halted : Bool) (hostTrap : Option HostTrap)
      (hbell : hostTrap = s.hostTrap ∨ m &&& EVT_HOST_TRAP ≠ 0) :
      CalmPrim s { s with events := s.events ||| m, halted := halted, hostTrap := hostTrap }
  | tlb (s : Machine β) (t : Tlb) : CalmPrim s { s with tlb := t }
  | touch (s : Machine β) (b : β) (hb : BusTouch s.bus b) :
    CalmPrim s { s with bus := b }
  | store (s : Machine β) (first last : U32) (b : β)
      (hb : BusStore s.bus first last b) :
      CalmPrim s { s with icache := s.icache.stampWriteSpan first last, bus := b }

/-- Any number of calm steps. -/
abbrev CalmSteps : Machine β → Machine β → Prop :=
  Relation.ReflTransGen CalmPrim

instance instIsPreorderCalmSteps : IsPreorder (Machine β) CalmSteps where
  refl _ := .refl
  trans _ _ _ := .trans

/-- Instruction execution: a result or an exception. -/
abbrev Exec (β α : Type) : Type := Fallible (Machine β) Exception α

/-- Instruction execution that takes calm steps only. -/
abbrev Calm (β : Type) [Bus β] (α : Type) : Type :=
  Bounded (CalmSteps (β := β)) Exception α

/-- One calm step as a computation. -/
def calmStep (f : Machine β → Machine β) (h : ∀ s, CalmPrim s (f s)) :
    Calm β Unit :=
  Bounded.modify f fun s => .single (h s)

@[simp] theorem run_calmStep (f : Machine β → Machine β)
    (h : ∀ s, CalmPrim s (f s))
    (s : Machine β) : (calmStep f h).run s = (.ok (), f s) := rfl

-- ======== primitives

/-- A record update that does not name VM keeps it. -/
theorem HotRegs.vm_kept (r : HotRegs) : r.eflags.vm = r.eflags.vm := rfl

/-- Change general registers, EIP, EFLAGS or CR2; VM stays. -/
def modifyHot (g : HotRegs → HotRegs)
    (h : ∀ r, (g r).eflags.vm = r.eflags.vm := by
      first | exact HotRegs.vm_kept | (intro r; simp)) : Calm β Unit :=
  calmStep (fun s => s.withHot (g s.regs.toHotRegs)) fun s => .hot s _ (h _)

/-- Write a general register, by width. -/
def setReg32 (i : U8) (v : U32) : Calm β Unit := modifyHot (·.setReg32 i v)
def setReg16 (i : U8) (v : U16) : Calm β Unit := modifyHot (·.setReg16 i v)
def setReg8 (i : U8) (v : U8) : Calm β Unit := modifyHot (·.setReg8 i v)
/-- Write EIP. -/
def setEip (v : U32) : Calm β Unit := modifyHot ({ · with eip := v })
/-- Record the address of a page fault. -/
def setCr2 (v : U32) : Calm β Unit := modifyHot ({ · with cr2 := v })

/-- Change EFLAGS, keeping VM. -/
def modifyFlags (g : EFlags → EFlags)
    (h : ∀ f, (g f).vm = f.vm := by intro f; simp) :
    Calm β Unit :=
  modifyHot (fun r => { r with eflags := g r.eflags }) fun r => h r.eflags

/-- Run a flag-setting operation on EFLAGS and return its result. -/
def withFlags {α : Type} (g : EFlags → α × EFlags)
    (h : ∀ f, (g f).2.vm = f.vm := by intro f; simp) : Calm β α := do
  let s ← self
  let r := g s.regs.eflags
  modifyFlags (fun f => (g f).2) h
  return r.1

/-- Change the per-instruction decode state. -/
def modifyDecode (g : DecodeState → DecodeState) : Calm β Unit :=
  calmStep (fun s => s.withDecode (g s.toDecodeState)) fun s => .decode s _

@[simp] theorem run_modifyHot (g : HotRegs → HotRegs)
    (h : ∀ r, (g r).eflags.vm = r.eflags.vm) (s : Machine β) :
    (modifyHot g h).run s = (.ok (), s.withHot (g s.regs.toHotRegs)) := rfl

@[simp] theorem run_modifyDecode (g : DecodeState → DecodeState)
    (s : Machine β) :
    (modifyDecode g).run s = (.ok (), s.withDecode (g s.toDecodeState)) := rfl

@[simp] theorem run_withFlags {α : Type} (g : EFlags → α × EFlags)
    (h : ∀ f, (g f).2.vm = f.vm) (s : Machine β) :
    (withFlags g h).run s = (.ok (g s.regs.eflags).1,
      s.withHot { s.regs.toHotRegs with eflags := (g s.regs.eflags).2 }) := rfl

@[simp] theorem run_setEip (v : U32) (s : Machine β) :
    (setEip v).run s
      = (.ok (), s.withHot { s.regs.toHotRegs with eip := v }) := rfl

@[simp] theorem run_setReg32 (i : U8) (v : U32) (s : Machine β) :
    (setReg32 i v).run s = (.ok (), s.withHot (s.regs.setReg32 i v)) := rfl

/-- Set bits of the event word. -/
def setEvent (m : U8) : Calm β Unit :=
  calmStep (fun s => { s with events := s.events ||| m })
    fun s => .latch s m s.halted s.hostTrap (.inl rfl)

/-- Halting sets no event bit. -/
theorem CalmPrim.halt (s : Machine β) :
    CalmPrim s { s with halted := true } := by
  have hlatch := CalmPrim.latch s 0 true s.hostTrap (.inl rfl)
  have hkeep : s.events ||| 0 = s.events := BitVec.or_zero
  rwa [hkeep] at hlatch

/-- Stop until the next event. -/
def setHalted : Calm β Unit :=
  calmStep (fun s => { s with halted := true }) .halt

/-- The host trap is one of the events a batch looks at. -/
theorem doorbell_rings : EVT_HOST_TRAP &&& EVT_HOST_TRAP ≠ 0 := by decide

/-- Record a host trap and ring the doorbell bit. -/
def setHostTrap (t : HostTrap) : Calm β Unit :=
  calmStep (fun s =>
    { s with hostTrap := some t, events := s.events ||| EVT_HOST_TRAP })
    fun s => .latch s _ s.halted _ (.inr doorbell_rings)

/-- Fill or flush the TLB. -/
def modifyTlb (g : Tlb → Tlb) : Calm β Unit :=
  calmStep (fun s => { s with tlb := g s.tlb }) fun s => .tlb s _

/-- A bus access that is not a memory store. -/
def touchBus {α : Type} (f : β → α × β) (h : ∀ b, BusTouch b (f b).2) :
    Calm β α where
  run := fun s => (.ok (f s.bus).1, { s with bus := (f s.bus).2 })
  bound := fun s => .single (.touch s _ (h s.bus))

/-- The bus, one method after another. -/
def busRead (a : U32) : Calm β U8 := touchBus (Bus.read · a) (.read · a)
def busRead16 (a : U32) : Calm β U16 := touchBus (Bus.read16 · a) (.read16 · a)
def busRead32 (a : U32) : Calm β U32 := touchBus (Bus.read32 · a) (.read32 · a)
/-- The ports. -/
def ioRead (p : U16) : Calm β U8 := touchBus (Bus.ioRead · p) (.ioRead · p)
def ioWrite (p : U16) (v : U8) : Calm β Unit :=
  touchBus (fun b => ((), Bus.ioWrite b p v)) (.ioWrite · p v)

/-- `stamp_write_span(first, last)` followed by the bus store `w`, all of
whose bytes lie in the two stamped pages. -/
def stampedStore (first last : U32) (w : β → β)
    (h : ∀ b, BusStore b first last (w b)) :
    Calm β Unit :=
  calmStep
    (fun s => { s with icache := s.icache.stampWriteSpan first last, bus := w s.bus })
    fun s => .store s first last _ (h s.bus)

end Remu.X32
