/-
The host and the processor resolve addresses alike.

Between system calls the processor reads, writes and fetches through its
TLB and marks the tables; the calls edit the tables behind its back and
flush the TLB only where they take something away (`munmap`, `mprotect`).
What goes unflushed only adds: a page that stays keeps its frame and
grants no less (`Effect.widens`). So the TLB may lag, but never grants
what the leaf does not (`Step.hosts`), and the two agree in every state
reached (`agrees_reached`), as long as the allocator has handed out fewer
than 2^40 frames. Those after have addresses that the host masks and the
processor finds reserved (`not_agrees_exhausted`).
-/
import Remu.Os.Exhaustion

namespace Remu.Os

open EntryWidth FrameTree Word ByteRam

namespace AddressSpace

variable {a a' : AddressSpace 64} {s : X64.Machine (PhysMem 64)}

-- ======== widening

/-- A leaf's grants, by what the address sees. -/
theorem grants_iff {lin phys : U64} {user writable : Bool} :
    a.Grants lin phys user writable ↔ a.frameOf Layout.os64 lin = some phys
      ∧ ∃ pg, a.view Layout.os64 lin = some pg ∧ (user = true → pg.user = true)
        ∧ (writable = true → pg.writable = true) := by
  constructor
  · intro h
    refine ⟨h.frame, _, view_of_frame h.frame, fun hu => ?_, fun hw => ?_⟩
    · exact bne_iff_ne.2 (h.user hu)
    · exact bne_iff_ne.2 (h.writable hw)
  · rintro ⟨hf, pg, hpg, huser, hwrite⟩
    rw [view_of_frame hf, Option.some.injEq] at hpg
    subst hpg
    exact ⟨hf, fun hu => bne_iff_ne.1 (huser hu),
      fun hw => bne_iff_ne.1 (hwrite hw)⟩

/-- Mapping for the user takes no page away and grants no less. -/
theorem Effect.widens {lins : List U64} {prot : U32}
    (h : Effect Layout.os64 a a' lins (widen prot true)) : Widens a a' := by
  intro lin phys user writable hg
  rw [grants_iff] at hg ⊢
  obtain ⟨hf, pg, hpg, huser, hwrite⟩ := hg
  have hview := h.view lin
  rw [hpg] at hview
  obtain ⟨pg', hpg', huser', hwrite'⟩ : ∃ pg',
      a'.view Layout.os64 lin = some pg'
      ∧ (pg.user = true → pg'.user = true)
      ∧ (pg.writable = true → pg'.writable = true) := by
    split at hview
    · exact ⟨_, hview, fun _ => rfl,
        fun hw => Bool.or_eq_true_iff.2 (Or.inl hw)⟩
    · exact ⟨pg, hview, id, id⟩
  cases hf' : a'.frameOf Layout.os64 lin with
  | none =>
    rw [view_eq_none.2 hf'] at hpg'
    cases hpg'
  | some f' =>
    rw [h.frame lin phys f' hf hf']
    exact ⟨rfl, pg', hpg', fun hu => huser' (huser hu),
      fun hw => hwrite' (hwrite hw)⟩

/-- The processor after an edit of the tables that only adds. -/
theorem Hosts.widened (h : a.Hosts s) (hcr3 : a'.cr3 = a.cr3)
    (hs : a'.Sound Layout.os64)
    (hp : a'.Plain) (hw : Widens a a') :
    a'.Hosts { s with bus := a'.mem } where
  selects := ⟨rfl, h.selects.cr3.trans hcr3.symm, h.selects.paging,
    h.selects.wide, h.selects.long, h.selects.nxe⟩
  sound := hs
  plain := hp
  tlb := ⟨(h.tlb.widens hw).entries, (h.tlb.widens hw).fetch⟩

/-- The processor after any edit of the tables and a flush. -/
theorem Hosts.flushed (h : a.Hosts s) (hcr3 : a'.cr3 = a.cr3)
    (hs : a'.Sound Layout.os64)
    (hp : a'.Plain) :
    a'.Hosts (X64.Machine.invalidateTlb { s with bus := a'.mem }) where
  selects := ⟨rfl, h.selects.cr3.trans hcr3.symm, h.selects.paging,
    h.selects.wide, h.selects.long, h.selects.nxe⟩
  sound := hs
  plain := hp
  tlb := .flushed (fun _ => rfl) rfl

-- ======== accesses

/-- A computation that leaves the processor on the tables of the process. -/
def Stays {α : Type} (x : X64.Calm (PhysMem 64) α) : Prop :=
  ∀ (a : AddressSpace 64) (s : X64.Machine (PhysMem 64)), a.Hosts s →
    Hosts { a with mem := (x.run s).2.bus } (x.run s).2

namespace Stays

variable {α γ : Type}

/-- The closure rules of what the address space goes on hosting. -/
theorem pure (x : α) : Stays (Pure.pure x : X64.Calm (PhysMem 64) α) :=
  fun _ _ h => h.visited.hosts

theorem self {f : X64.Machine (PhysMem 64) → X64.Calm (PhysMem 64) α}
    (hf : ∀ s, Stays (f s)) :
    Stays (X64.self >>= f) := fun a s h => hf s a s h

/-- A sequence stays where its parts do. -/
theorem bind {x : X64.Calm (PhysMem 64) α} {f : α → X64.Calm (PhysMem 64) γ}
    (hx : Stays x) (hf : ∀ v, Stays (f v)) : Stays (x >>= f) := by
  intro a s h
  have hs := hx a s h
  rw [Bounded.run_bind, Fallible.bind_apply]
  rcases hr : x.run s with ⟨e | v, s'⟩ <;> rw [hr] at hs
  · exact hs
  · exact hf v { a with mem := s'.bus } s' hs

/-- A read of memory. -/
theorem touchBus {f : PhysMem 64 → α × PhysMem 64}
    {hf : ∀ b, X64.BusTouch b (f b).2}
    (hb : ∀ b, (f b).2 = b) : Stays (X64.touchBus f hf) := by
  intro a s h
  have hrun : ((X64.touchBus f hf).run s).2 = s := by
    show { s with bus := (f s.bus).2 } = s
    rw [hb]
  rw [hrun]
  exact h.visited.hosts

/-- A walk over the frames of the space sets marks and no more. -/
theorem translate (lin : U64) (access : X64.Access) :
    Stays (X64.translate lin access : X64.Calm (PhysMem 64) _) :=
  fun _ _ h => (h.translate lin access).1.hosts

/-- Loads. -/
theorem linRead8 (lin : U64) :
    Stays (X64.linRead8 lin : X64.Calm (PhysMem 64) U8) := by
  refine self fun s => ?_
  split
  · exact touchBus fun _ => rfl
  · exact (translate lin .read).bind fun _ => touchBus fun _ => rfl

theorem linRead16 (lin : U64) :
    Stays (X64.linRead16 lin : X64.Calm (PhysMem 64) U16) := by
  refine self fun s => ?_
  split
  · exact touchBus fun _ => rfl
  split
  · exact (translate lin .read).bind fun _ => touchBus fun _ => rfl
  · exact (linRead8 lin).bind fun _ => (linRead8 (lin + 1)).bind
      fun _ => .pure _

theorem linRead32 (lin : U64) :
    Stays (X64.linRead32 lin : X64.Calm (PhysMem 64) U32) := by
  refine self fun s => ?_
  split
  · exact touchBus fun _ => rfl
  split
  · exact (translate lin .read).bind fun _ => touchBus fun _ => rfl
  · exact (linRead16 lin).bind fun _ => (linRead16 (lin + 2)).bind
      fun _ => .pure _

theorem linRead64 (lin : U64) :
    Stays (X64.linRead64 lin : X64.Calm (PhysMem 64) U64) := by
  refine self fun s => ?_
  split
  · exact touchBus fun _ => rfl
  split
  · exact (translate lin .read).bind fun _ => touchBus fun _ => rfl
  · exact (linRead32 lin).bind fun _ => (linRead32 (lin + 4)).bind
      fun _ => .pure _

/-- A store writes the frames it translates to. -/
theorem of_store {k : Nat} {lin : U64} {n : Nat} {v : BitVec k}
    {store : X64.Calm (PhysMem 64) Unit}
    (h : ∀ (a : AddressSpace 64) s,
      a.Hosts s → a.StoreOutcome lin n v (store.run s)) : Stays store := by
  intro a s hs
  have hout := h a s hs
  rcases hr : store.run s with ⟨e | _, s'⟩ <;> rw [hr] at hout
  · exact hout.hosts
  · exact hout.hosts

end Stays

/-- The same for code that makes explicit accesses, and is making one. -/
def StaysExplicit {α : Type} (x : X64.Calm (PhysMem 64) α) : Prop :=
  ∀ (a : AddressSpace 64) (s : X64.Machine (PhysMem 64)),
    a.Hosts s → s.supervisorOverride = false →
    Hosts { a with mem := (x.run s).2.bus } (x.run s).2
      ∧ (x.run s).2.supervisorOverride = false

namespace StaysExplicit

variable {α γ : Type}

theorem pure (x : α) : StaysExplicit (Pure.pure x : X64.Calm (PhysMem 64) α) :=
  fun _ _ h hexp => ⟨h.visited.hosts, hexp⟩

theorem self {f : X64.Machine (PhysMem 64) → X64.Calm (PhysMem 64) α}
    (hf : ∀ s, StaysExplicit (f s)) :
    StaysExplicit (X64.self >>= f) := fun a s h hexp => hf s a s h hexp

theorem bind {x : X64.Calm (PhysMem 64) α} {f : α → X64.Calm (PhysMem 64) γ}
    (hx : StaysExplicit x)
    (hf : ∀ v, StaysExplicit (f v)) : StaysExplicit (x >>= f) := by
  intro a s h hexp
  obtain ⟨hs, hexp'⟩ := hx a s h hexp
  rw [Bounded.run_bind, Fallible.bind_apply]
  rcases hr : x.run s with ⟨e | v, s'⟩ <;> rw [hr] at hs hexp'
  · exact ⟨hs, hexp'⟩
  · exact hf v { a with mem := s'.bus } s' hs hexp'

/-- A step that touches neither memory nor a register that matters. -/
theorem of_regs {x : X64.Calm (PhysMem 64) α}
    (hbus : ∀ s, (x.run s).2.bus = s.bus)
    (hreg : ∀ s, (x.run s).2.regs.SameTables s.regs.toColdRegs)
    (hpaging : ∀ s, (x.run s).2.paging = s.paging)
    (htlb : ∀ s, (x.run s).2.tlb = s.tlb)
    (hfetch : ∀ s, X64.Machine.FetchKept s (x.run s).2)
    (hexp : ∀ s, (x.run s).2.supervisorOverride = s.supervisorOverride) :
    StaysExplicit x :=
  fun _ s h he =>
    ⟨(h.of_regs (hbus s) (hreg s) (hpaging s) (htlb s) (hfetch s)).visited.hosts,
    (hexp s).trans he⟩

theorem raiseIf (c : Prop) [Decidable c] (e : X64.Exception) :
    StaysExplicit (X64.raiseIf c e : X64.Calm (PhysMem 64) Unit) := by
  unfold X64.raiseIf
  split
  · exact fun _ _ h hexp => ⟨h.visited.hosts, hexp⟩
  · exact .pure ()

theorem modifyDecode {g : X64.DecodeState → X64.DecodeState}
    (hg : ∀ d, (g d).supervisorOverride = d.supervisorOverride) :
    StaysExplicit (X64.modifyDecode g : X64.Calm (PhysMem 64) Unit) :=
  of_regs (fun _ => rfl) (fun _ => ⟨rfl, rfl, rfl⟩)
    (fun _ => rfl) (fun _ => rfl)
    (fun _ => Or.inr ⟨rfl, rfl, rfl⟩) fun s => hg s.toDecodeState

theorem setRip (g : U64 → U64) :
    StaysExplicit
      (X64.modifyHot fun r => { r with rip := g r.rip } : X64.Calm
      (PhysMem 64) Unit) :=
  of_regs (fun _ => rfl) (fun _ => ⟨rfl, rfl, rfl⟩)
    (fun _ => rfl) (fun _ => rfl)
    (fun _ => Or.inr ⟨rfl, rfl, rfl⟩) fun _ => rfl

theorem busRead (p : U64) :
    StaysExplicit (X64.busRead p : X64.Calm (PhysMem 64) U8) :=
  fun _ _ h hexp => ⟨h.visited.hosts, hexp⟩

/-- A page granted to a fetch is remembered. -/
theorem fetchMiss (lin : U64) :
    StaysExplicit (X64.fetchMiss lin : X64.Calm (PhysMem 64) U8) := by
  intro a s h hexp
  obtain ⟨hvis, hans, -⟩ := h.translate lin .fetch
  have hover := X64.override_translate s lin .fetch
  unfold X64.fetchMiss X64.fetchTranslate
  rw [Bounded.run_bind, Fallible.bind_apply]
  rcases hr : (X64.translate lin .fetch).run s with ⟨e | q, s'⟩
    <;> rw [hr] at hvis hans hover
  · exact ⟨hvis.hosts, hover.trans hexp⟩
  have hregs := (X64.MemOnly.translate lin .fetch s q s' hr).1
  have hfill :
      (X64.fetchFill (lin >>> 12) (q.val &&& ~~~0xFFF)
      (X64.page_framed q.low)).run s'
      = (.ok (), { s' with fetchTag := lin >>> 12, fetchPage := q.val &&& ~~~0xFFF }) :=
    if_pos hvis.hosts.selects.paging
  dsimp only
  rw [Bounded.run_bind, Fallible.bind_of_ok hfill]
  have hanswer := hans q rfl
  have hsel := hvis.hosts.selects
  have hfilled : Hosts { a with mem := s'.bus }
      { s' with fetchTag := lin >>> 12, fetchPage := q.val &&& ~~~0xFFF } := by
    refine ⟨⟨rfl, hsel.cr3, hsel.paging, hsel.wide, hsel.long, hsel.nxe⟩,
      hvis.hosts.sound,
      hvis.hosts.plain, hvis.hosts.tlb.entries,
        fun lin' hlin' => hvis.steady.widens _ _ _ _ ?_⟩
    have hsame := Layout.samePage_of_page (L := Layout.os64) hlin'
    refine ⟨?_, fun huser => ?_, nofun⟩
    · rw [frameOf_samePage hsame]
      exact pageDown_resolve h.sound hanswer.resolve
    · rw [pteEntry_samePage hsame]
      have hcpl : s.cpl = 3 := by
        have hcpl' : s'.cpl = 3 := beq_iff_eq.1 huser
        rw [X64.Cpu.cpl, X64.Cpu.protectedMode, hregs] at hcpl'
        exact hcpl'
      refine hanswer.user ?_
      rw [X64.Cpu.userAccess, hcpl, hexp]
      rfl
  exact ⟨hfilled.visited.hosts, hover.trans hexp⟩

theorem fetch8 : StaysExplicit (X64.fetch8 : X64.Calm (PhysMem 64) U8) := by
  have hilen : StaysExplicit
      (X64.modifyDecode fun d => { d with ilen := d.ilen + 1 } : X64.Calm
        (PhysMem 64) Unit) :=
    modifyDecode fun _ => rfl
  refine self fun s => (raiseIf _ _).bind fun _ =>
    hilen.bind fun _ => self fun s₁ =>
    (raiseIf _ _).bind fun _ => bind ?_ fun _ => (setRip (· + 1)).bind
      fun _ => .pure _
  refine self fun s => ?_
  split
  · exact busRead _
  split
  · exact busRead _
  · exact fetchMiss _

end StaysExplicit

end AddressSpace

-- ======== processes

open AddressSpace

/-- A data access of the processor, at a linear address. -/
inductive DataAccess where
  | read8 (lin : U64)
  | read16 (lin : U64)
  | read32 (lin : U64)
  | read64 (lin : U64)
  | write8 (lin : U64) (v : U8)
  | write16 (lin : U64) (v : U16)
  | write32 (lin : U64) (v : U32)
  | write64 (lin : U64) (v : U64)

namespace DataAccess

/-- The state it leaves behind, done or faulted. -/
def after (s : X64.Machine (PhysMem 64)) :
    DataAccess → X64.Machine (PhysMem 64)
  | read8 lin => ((X64.linRead8 lin).run s).2
  | read16 lin => ((X64.linRead16 lin).run s).2
  | read32 lin => ((X64.linRead32 lin).run s).2
  | read64 lin => ((X64.linRead64 lin).run s).2
  | write8 lin v => ((X64.linWrite8 lin v).run s).2
  | write16 lin v => ((X64.linWrite16 lin v).run s).2
  | write32 lin v => ((X64.linWrite32 lin v).run s).2
  | write64 lin v => ((X64.linWrite64 lin v).run s).2

/-- Any access of the processor leaves its machine hosted. -/
theorem hosts {a : AddressSpace 64} {s : X64.Machine (PhysMem 64)}
    (x : DataAccess) (h : a.Hosts s) :
    Hosts { a with mem := (x.after s).bus } (x.after s) := by
  cases x with
  | read8 lin => exact Stays.linRead8 lin a s h
  | read16 lin => exact Stays.linRead16 lin a s h
  | read32 lin => exact Stays.linRead32 lin a s h
  | read64 lin => exact Stays.linRead64 lin a s h
  | write8 lin v => exact Stays.of_store (fun _ _ h => h.linWrite8 lin v) a s h
  | write16 lin v =>
    exact Stays.of_store (fun _ _ h => h.linWrite16 lin v) a s h
  | write32 lin v =>
    exact Stays.of_store (fun _ _ h => h.linWrite32 lin v) a s h
  | write64 lin v =>
    exact Stays.of_store (fun _ _ h => h.linWrite64 lin v) a s h

end DataAccess

/-- An address space and the processor that runs on it. -/
structure Process where
  aspace : AddressSpace 64
  cpu : X64.Cpu

namespace Process

/-- The processor over the frames of the address space. -/
def machine (p : Process) : X64.Machine (PhysMem 64) :=
  { p.cpu with bus := p.aspace.mem }

/-- The process after its processor has run. -/
def after (p : Process) (s' : X64.Machine (PhysMem 64)) : Process :=
  ⟨{ p.aspace with mem := s'.bus }, s'.toCpu⟩

/-- The process after an operation on its address space. -/
def host (p : Process) (op : Op 64) : Process :=
  { p with aspace := op.apply Layout.os64 p.aspace }

/-- Drop every cached translation. -/
def invalidateTlb (p : Process) : Process := p.after p.machine.invalidateTlb

/-- A process that was loaded by `ops` and has been entered. -/
def start (ops : List (Op 64)) (entry rsp : U64) : Process :=
  let a := (new Layout.os64).run Layout.os64 ops
  ⟨a, (a.enterUser X64.Cpu.new entry rsp).toCpu⟩

/-- One event in the life of a process: a system call's operation on the
address space with the flush it makes, the growth of the stack on a fault,
a copy to the process, an access of its processor, or anything else the
processor does that leaves memory, the TLB and the registers that select
the tables alone. -/
inductive Step : Process → Process → Prop
  | brk (p : Process) (want : U64) : Step p (p.host (.setBrk want))
  | mmap (p : Process) (len : U64) (prot : U32) :
    Step p (p.host (.mmap len prot))
  | mmapFixed (p : Process) (addr len : U64) (prot : U32) :
    Step p (p.host (.mmapFixed addr len prot))
  | munmap (p : Process) (addr len : U64) :
    Step p (p.host (.unmap addr len)).invalidateTlb
  | mprotect (p : Process) (addr len : U64) (prot : U32) :
      Step p (p.host (.protect addr len prot)).invalidateTlb
  | stackFault (p : Process) (lin bottom : U64)
      (h : p.aspace.isStackGrowth Layout.os64 lin = some bottom) :
      Step p (p.host (.growStack bottom))
  | copy (p : Process) (lin : U64) (data : List U8) :
    Step p (p.host (.writeBytes lin data))
  | access (p : Process) (x : DataAccess) :
    Step p (p.after (x.after p.machine))
  | fetch (p : Process) (hexp : p.cpu.supervisorOverride = false) :
      Step p (p.after (X64.fetch8.run p.machine).2)
  | flush (p : Process) : Step p p.invalidateTlb
  | other (p : Process) (s' : X64.Machine (PhysMem 64))
      (hbus : s'.bus = p.aspace.mem)
      (hreg : s'.regs.SameTables p.cpu.regs.toColdRegs)
      (hpaging : s'.paging = p.cpu.paging)
      (htlb : s'.tlb = p.cpu.tlb) (hfetch : p.machine.FetchKept s') :
      Step p (p.after s')

/-- The machine runs in this address space. -/
def Hosts (p : Process) : Prop := p.aspace.Hosts p.machine

theorem Hosts.after {p : Process} {s' : X64.Machine (PhysMem 64)}
    (h : AddressSpace.Hosts { p.aspace with mem := s'.bus } s') :
    (p.after s').Hosts := h

/-- The allocator's mark only moves up, a frame at a time. -/
theorem Step.next {p p' : Process} (h : Step p p') :
    p.aspace.nextPhys ≤ p'.aspace.nextPhys
    ∧ (p.aspace.nextPhys % 4096 = 0 → p'.aspace.nextPhys % 4096 = 0) := by
  have hop : ∀ op : Op 64,
      p.aspace.nextPhys ≤ (op.apply Layout.os64 p.aspace).nextPhys
      ∧ (p.aspace.nextPhys % 4096 = 0 →
        (op.apply Layout.os64 p.aspace).nextPhys % 4096 = 0) :=
    fun op => ⟨nextPhys_apply _ op, aligned_apply _ op⟩
  cases h with
  | brk want => exact hop _
  | mmap len prot => exact hop _
  | mmapFixed addr len prot => exact hop _
  | munmap addr len => exact hop (.unmap addr len)
  | mprotect addr len prot => exact hop (.protect addr len prot)
  | stackFault lin bottom h => exact hop _
  | copy lin data => exact hop _
  | access x => exact ⟨le_refl _, id⟩
  | fetch hexp => exact ⟨le_refl _, id⟩
  | flush => exact ⟨le_refl _, id⟩
  | other s' hbus hreg hpaging htlb hfetch => exact ⟨le_refl _, id⟩

section Keep

variable {p : Process} (h : p.Hosts)
include h

theorem Hosts.widened {op : Op 64}
    (hcopy : ∀ lin data, op ≠ .writeBytes lin data) {prot : U32}
    (hon : op.onPage = widen prot true)
    (hfit : (p.host op).aspace.nextPhys ≤ 2 ^ Layout.os64.physBits) :
    (p.host op).Hosts := by
  have heffect := Effect.apply h.sound op hcopy hfit
  have hwiden := heffect
  rw [hon] at hwiden
  exact AddressSpace.Hosts.widened h heffect.cr3 heffect.sound
    (h.plain.written heffect.sound heffect.written)
    hwiden.widens

theorem Hosts.flushed {op : Op 64}
    (hcopy : ∀ lin data, op ≠ .writeBytes lin data)
    (hfit : (p.host op).aspace.nextPhys ≤ 2 ^ Layout.os64.physBits) :
    (p.host op).invalidateTlb.Hosts := by
  have heffect := Effect.apply h.sound op hcopy hfit
  exact AddressSpace.Hosts.flushed h heffect.cr3 heffect.sound
    (h.plain.written heffect.sound heffect.written)

end Keep

/-- Every event leaves the processor on the tables, its TLB no more
permissive than they are. -/
theorem Step.hosts {p p' : Process} (hstep : Step p p') (h : p.Hosts)
    (hfit : p'.aspace.nextPhys ≤ 2 ^ Layout.os64.physBits) : p'.Hosts := by
  cases hstep with
  | brk want => exact h.widened nofun rfl hfit
  | mmap len prot => exact h.widened nofun rfl hfit
  | mmapFixed addr len prot => exact h.widened nofun rfl hfit
  | munmap addr len => exact h.flushed nofun hfit
  | mprotect addr len prot => exact h.flushed nofun hfit
  | stackFault lin bottom hgrow => exact h.widened nofun rfl hfit
  | copy lin data =>
    obtain ⟨n, hcopied, -⟩ := copied_writeBytes h.sound lin data
    have hsteady := hcopied.steady h.sound
    exact AddressSpace.Hosts.widened h hsteady.cr3 (hsteady.sound h.sound)
      (hsteady.plain h.plain)
      hsteady.widens
  | access x => exact x.hosts h
  | fetch hexp => exact (StaysExplicit.fetch8 p.aspace p.machine h hexp).1
  | flush => exact AddressSpace.Hosts.flushed h rfl h.sound h.plain
  | other s' hbus hreg hpaging htlb hfetch =>
    exact (AddressSpace.Hosts.of_regs h hbus hreg hpaging htlb
      hfetch).visited.hosts

/-- The processor making an implicit supervisor access. -/
def supervisor (p : Process) : X64.Machine (PhysMem 64) :=
  { p.machine with supervisorOverride := true }

/-- The leaf of `lin` is present, and what it allows a user. -/
structure Allows (a : AddressSpace 64) (lin : U64) (write : Bool) : Prop where
  present : a.pteEntry Layout.os64 lin &&& pte.P ≠ 0
  user : a.pteEntry Layout.os64 lin &&& pte.US ≠ 0
  writable : write = true → a.pteEntry Layout.os64 lin &&& pte.RW ≠ 0

/-- The host and the processor resolve the addresses of the lower half
alike, and what ring 3 is granted, by a translation or from the cached
fetch page, goes there and is allowed by the leaf. -/
structure Agrees (p : Process) : Prop where
  resolve : ∀ lin : U64, lin.toNat < 2 ^ 47 → ∀ q,
    p.aspace.resolve Layout.os64 lin = some q
    ↔ ∃ r s', (X64.translate lin .read).run p.supervisor = (.ok r, s')
      ∧ r.val = q
  granted : ∀ lin : U64, lin.toNat < 2 ^ 47 → ∀ access r s',
    p.machine.userAccess = true →
    (X64.translate lin access).run p.machine = (.ok r, s') →
    p.aspace.resolve Layout.os64 lin = some r.val
      ∧ Allows p.aspace lin (access == .write)
  fetched : ∀ lin : U64, lin.toNat < 2 ^ 47 → p.cpu.cpl = 3 →
    lin >>> 12 = p.cpu.fetchTag →
    p.aspace.resolve Layout.os64 lin
      = some (p.cpu.fetchPage ||| (lin &&& 0xFFF))
      ∧ Allows p.aspace lin false

/-- A page that is there has a present leaf. -/
theorem present_of_frame {a : AddressSpace 64} {lin f : U64}
    (h : a.frameOf Layout.os64 lin = some f) :
    a.pteEntry Layout.os64 lin &&& pte.P ≠ 0 := by
  intro hP
  rw [frameOf_eq, Layout.follow, if_pos hP] at h
  cases h

/-- A hosted machine sees what the address space says. -/
theorem Hosts.agrees {p : Process} (h : p.Hosts) : p.Agrees where
  resolve lin _ q := by
    have hsup : p.aspace.Hosts p.supervisor :=
      AddressSpace.Hosts.of_regs h rfl ⟨rfl, rfl, rfl⟩
        rfl rfl (Or.inr ⟨rfl, rfl, rfl⟩)
    have huser : p.supervisor.userAccess = false := Bool.and_false _
    obtain ⟨-, hans, hdenied⟩ := hsup.translate lin .read
    rcases hr : (X64.translate lin .read).run p.supervisor with ⟨e | r, s'⟩
      <;> rw [hr] at hans hdenied
    · -- A supervisor may read every page, so there is none.
      constructor
      · intro hq
        obtain ⟨⟨f, hf, -⟩, -⟩ := h.sound.resolve_page hq
        have hden := hdenied e rfl f hf
        rw [X64.Cpu.walkPermits, huser] at hden
        cases hden
      · rintro ⟨r, s'', heq, -⟩
        cases heq
    · have hres := (hans r rfl).resolve
      constructor
      · intro hq
        rw [hq, Option.some.injEq] at hres
        exact ⟨r, s', rfl, hres.symm⟩
      · rintro ⟨r', s'', heq, rfl⟩
        cases heq
        exact hres
  granted lin _ access r s' huser hr := by
    obtain ⟨-, hans, -⟩ := AddressSpace.Hosts.translate h lin access
    have hanswer := hans r (by rw [hr])
    obtain ⟨⟨f, hf, -⟩, -⟩ := h.sound.resolve_page hanswer.resolve
    refine ⟨hanswer.resolve, present_of_frame hf,
      hanswer.user huser, fun hw => ?_⟩
    exact hanswer.writable huser (beq_iff_eq.1 hw)
  fetched lin _ hcpl htag := by
    have hgrants := h.tlb.fetch lin htag
    refine ⟨?_, present_of_frame hgrants.frame,
      hgrants.user (beq_iff_eq.2 hcpl), Bool.noConfusion⟩
    rw [resolve_eq, hgrants.frame]
    rfl

/-- A process starts hosted. -/
theorem hosts_start (ops : List (Op 64)) (entry rsp : U64)
    (hfit : ((new Layout.os64).run Layout.os64 ops).nextPhys
      ≤ 2 ^ Layout.os64.physBits) :
    (start ops entry rsp).Hosts :=
  hosts_enterUser (sound_run Layout.os64 ops hfit)
    (plain_new.run (sound_new Layout.os64 (by decide)) ops hfit) rfl entry rsp

/-- The processor stays on the tables while there are frames. -/
theorem hosts_reached {p₀ p : Process} (h : Relation.ReflTransGen Step p₀ p)
    (h₀ : p₀.aspace.nextPhys ≤ 2 ^ Layout.os64.physBits → p₀.Hosts)
    (hfit : p.aspace.nextPhys ≤ 2 ^ Layout.os64.physBits) : p.Hosts := by
  induction h with
  | refl => exact h₀ hfit
  | tail _ hstep ih => exact hstep.hosts (ih (hstep.next.1.trans hfit)) hfit

/-- Along a run of processes frames are taken a page at a time. -/
theorem aligned_reached {p₀ p : Process} (h : Relation.ReflTransGen Step p₀ p)
    (h₀ : p₀.aspace.nextPhys % 4096 = 0) : p.aspace.nextPhys % 4096 = 0 := by
  induction h with
  | refl => exact h₀
  | tail _ hstep ih => exact hstep.next.2 ih

/-- In every state reached from a loaded process while fewer than 2^40
frames have been handed out, host and processor agree. -/
theorem agrees_reached (ops : List (Op 64)) (entry rsp : U64) (p : Process)
    (h : Relation.ReflTransGen Step (start ops entry rsp) p)
    (hfew : p.aspace.frames < 2 ^ 40) :
    p.Agrees := by
  have haligned := aligned_reached h (aligned_run _ ops rfl)
  have hfit := next_le_of_frames haligned hfew
  exact (hosts_reached h (hosts_start ops entry rsp) hfit).agrees

/-- After the load of two pages and a store across them. -/
theorem agrees_reached_twoPages :
    ((start twoPages 0x400000 0).after
      (DataAccess.after (start twoPages 0x400000 0).machine
        (.write64 0x400FFC 0))).Agrees :=
  agrees_reached twoPages 0x400000 0 _
    (.single (.access (start twoPages 0x400000 0) (.write64 0x400FFC 0)))
      (by decide)

-- ======== exhaustion

/-- A flush is no business of the address space. -/
theorem aspace_invalidateTlb (p : Process) :
    p.invalidateTlb.aspace = p.aspace := rfl

/-- The tables of the page that comes and goes. -/
abbrev idleOps : List (Op 64) := [mapIdle, unmapIdle]

/-- The process that runs out of frames, at its start. -/
theorem idle_start : (start idleOps 0 0).aspace.Idle
    ∧ (start idleOps 0 0).aspace.nextPhys = 0x6000 := by
  have hnext :
    (start idleOps 0 0).aspace.nextPhys = 0x6000 := by decide
  refine ⟨⟨sound_run Layout.os64 idleOps ?_, by decide,
    ?_, by decide, by decide +kernel⟩, hnext⟩
  · exact hnext.le.trans (by decide)
  · exact Option.isSome_iff_exists.1 (by decide)

/-- Any number of frames can be gone. -/
theorem idle_reached (k : Nat) (hk : 6 + k ≤ 2 ^ 40) :
    ∃ p, Relation.ReflTransGen Step (start idleOps 0 0) p ∧ p.aspace.Idle
      ∧ p.aspace.nextPhys = 4096 * (6 + k) := by
  induction k with
  | zero => exact ⟨_, .refl, idle_start⟩
  | succ k ih =>
    obtain ⟨p, hp, hidle, hnext⟩ := ih (by omega)
    obtain ⟨hidle', hnext'⟩ := hidle.cycle (by omega)
    refine ⟨((p.host mapIdle).host unmapIdle).invalidateTlb, ?_, ?_, ?_⟩
    · exact (hp.tail (.mmapFixed p _ _ _)).tail (.munmap (p.host mapIdle) _ _)
    · rw [aspace_invalidateTlb]
      exact hidle'
    · rw [aspace_invalidateTlb]
      exact hnext'.trans (by omega)

/-- With all frames below 2^52 gone, the next page that needs a table is
one the host resolves and the processor does not. -/
theorem not_agrees_exhausted : ¬ ∀ ops entry rsp p,
    Relation.ReflTransGen Step (start ops entry rsp) p → p.Agrees := by
  intro hall
  obtain ⟨p, hp, hidle, hnext⟩ := idle_reached (2 ^ 40 - 6) (by omega)
  have hlast : p.aspace.nextPhys = 2 ^ 52 := by omega
  have hhosts := hosts_reached hp (hosts_start idleOps 0 0) hlast.le
  have hagrees :=
    hall idleOps 0 0 _ (hp.tail (.mmapFixed p overrunPage 0x1000 3))
  obtain ⟨hresolve, hmapping⟩ :=
    hidle.overrun (s := (p.host mapOverrun).supervisor) hlast
  obtain ⟨r, s', hr, -⟩ :=
    (hagrees.resolve overrunPage (by decide) 0).1 hresolve
  have hsel := hhosts.selects
  have hnone := hmapping rfl (hsel.cr3.trans hidle.cr3) hsel.wide hsel.long
  cases hhit : (p.host mapOverrun).supervisor.tlbHit overrunPage .read with
  | true =>
    -- Nothing was cached for the page, for there was none.
    obtain ⟨htag, -⟩ := Bool.and_eq_true_iff.1 hhit
    have hgrants := hhosts.tlb.entries _ _
      (Lookaside.look_eq_some.2 ⟨of_decide_eq_true htag, rfl⟩) overrunPage rfl
    have hframe := hgrants.frame
    rw [hidle.frameOf_overrun] at hframe
    cases hframe
  | false =>
    have hrun := X64.run_walk overrunPage .read (p.host mapOverrun).supervisor
    rw [X64.run_translate_miss hhit] at hr
    rw [hr] at hrun
    obtain ⟨m, hm, -⟩ := hrun
    rw [hnone] at hm
    cases hm

end Process

end Remu.Os
