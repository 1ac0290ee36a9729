/-
A processor that runs on the tables of a process.

Its TLB may lag behind the tables, but only towards allowing less: an
entry leads where the leaf leads and grants nothing the leaf does not
(`TlbAgrees`). Then whatever a translation answers, from the TLB or from
a walk, is what the host resolves (`Hosts.translate`), and a translation
changes the tables by marks only, and the bytes of no page. A store
changes the bytes its addresses lead to and no other byte outside the
tables (`Hosts.linWrite8` and its wider fellows).
-/
import Remu.Os.Guest

namespace Remu.Os

open EntryWidth FrameTree Word ByteRam

namespace AddressSpace

variable {a a' : AddressSpace 64} {s s' : X64.Machine (PhysMem 64)} {lin : U64}

-- ======== leaves

/-- The leaf of `lin` leads to `phys` and grants what is asked of it. -/
structure Grants (a : AddressSpace 64) (lin phys : U64)
    (user writable : Bool) : Prop where
  frame : a.frameOf Layout.os64 lin = some phys
  user : user = true → a.pteEntry Layout.os64 lin &&& pte.US ≠ 0
  writable : writable = true → a.pteEntry Layout.os64 lin &&& pte.RW ≠ 0

/-- Whatever a leaf granted it still grants. -/
def Widens (a a' : AddressSpace 64) : Prop :=
  ∀ lin phys user writable, a.Grants lin phys user writable →
    a'.Grants lin phys user writable

/-- Marks lose no leaf. -/
theorem Steady.widens (h : Steady a a') : Widens a a' := by
  intro lin phys user writable hg
  have he := h.pteEntry lin
  refine ⟨?_, ?_, ?_⟩
  · rw [h.frameOf]
    exact hg.frame
  · rw [and_eq_of_outside he (t := pte.US) (by decide)]
    exact hg.user
  · rw [and_eq_of_outside he (t := pte.RW) (by decide)]
    exact hg.writable

-- ======== TLB

/-- No TLB entry, and no cached fetch page, grants what the leaf does not. -/
structure TlbAgrees (a : AddressSpace 64) (s : X64.Machine (PhysMem 64)) :
    Prop where
  entries : Lookaside.Holds X64.Tlb.slot X64.TlbEntry.tag
    s.tlb.entries fun page e =>
    ∀ lin : U64, lin >>> 12 = page → a.Grants lin e.phys e.user e.writable
  fetch : ∀ lin : U64, lin >>> 12 = s.fetchTag →
    a.Grants lin s.fetchPage (s.cpl == 3) false

/-- A TLB that agrees still does when leaves are added. -/
theorem TlbAgrees.widens (h : a.TlbAgrees s) (hw : Widens a a') :
    a'.TlbAgrees s where
  entries := h.entries.mono fun _ _ hg lin hlin => hw _ _ _ _ (hg lin hlin)
  fetch lin hlin := hw _ _ _ _ (h.fetch lin hlin)

/-- A flushed TLB agrees with everything. -/
theorem TlbAgrees.flushed (htlb : ∀ i, (s.tlb.entries i).tag = X64.EMPTY)
    (hfetch : s.fetchTag = X64.EMPTY) : a.TlbAgrees s where
  entries := Lookaside.Holds.of_entries fun i lin hlin => by
    rw [htlb i] at hlin
    exact absurd hlin (X64.page_ne_empty lin)
  fetch lin hlin := absurd (hlin.trans hfetch) (X64.page_ne_empty lin)

/-- A processor on sound tables, with a TLB that agrees. -/
structure Hosts (a : AddressSpace 64) (s : X64.Machine (PhysMem 64)) :
    Prop where
  selects : a.Selects s
  sound : a.Sound Layout.os64
  plain : a.Plain
  tlb : a.TlbAgrees s

-- ======== marks

/-- Storing marks changes bytes of the entries only. -/
theorem byte_markPath {write : Bool} {rd : U64 → U64} {path : List U64}
    {m : PhysMem 64} {x : U64}
    (h : ∀ y ∈ path, ∀ i < 8, x ≠ y + BitVec.ofNat 64 i) :
    (X64.markPath true write rd path m).load8 x = m.load8 x := by
  induction path generalizing m with
  | nil => rfl
  | cons y rest ih =>
    refine (ih fun z hz => h z (List.mem_cons_of_mem y hz)).trans ?_
    split
    · exact m.store64_other y _ x (h y List.mem_cons_self)
    · rfl

/-- The bytes outside the tables are what they were. -/
def SameBytes (a a' : AddressSpace 64) : Prop :=
  ∀ x, (∀ t, a.IsTable Layout.os64 t → ¬ InFrame t x) →
    a'.mem.load8 x = a.mem.load8 x

/-- A walk leaves marks. -/
theorem steady_walked (hs : a.Sound Layout.os64) (hp : a.Plain)
    (hsel : a.Selects s) {write : Bool}
    {m : X64.Mapping} (hm : s.mapping lin = some m)
    (h : s.Walked lin write m s') :
    Steady a { a with mem := s'.bus }
      ∧ SameBytes a { a with mem := s'.bus } := by
  have hslots := (hsel.mapping_eq_some hs hp hm).slots
  have hword : ∀ x, s.word x = get64 a.mem x := fun x => by
    rw [X64.Machine.word, X64.tableWord, hsel.wide, if_pos rfl, hsel.bus]
  obtain ⟨ic, e, hs', -⟩ := h.state
  have hword' : ∀ x, s'.word x = get64 s'.bus x := fun x => by
    have hwide : s'.wide = s.wide := by rw [hs']; rfl
    rw [X64.Machine.word, X64.tableWord, hwide, hsel.wide, if_pos rfl]
  have hother : SameBytes a { a with mem := s'.bus } := by
    intro x hx
    show s'.bus.load8 x = a.mem.load8 x
    rw [hs', ← hsel.bus, hsel.wide]
    refine byte_markPath fun y hy i hi heq => ?_
    obtain ⟨t, j, ht, rfl⟩ := hslots y hy
    exact hx t ht (heq ▸ inFrame_slot (hs.isTable_allocated ht).aligned j hi)
  refine ⟨⟨rfl, fun t ht i => ?_, fun x hx => hother x fun t ht hin => ?_⟩, hother⟩
  · have hgrows := h.marked hm (slot t i) (by
      rw [X64.EntryAligned, hsel.wide]
      exact slot_aligned (hs.isTable_allocated ht).aligned i)
    rw [hword, hword'] at hgrows
    exact hgrows.outside
  · have hal := hs.isTable_allocated ht
    have hlt := hal.lt
    have haligned := hal.aligned
    rw [Aligned] at haligned
    rw [inFrame_iff] at hin
    omega

-- ======== translations

/-- What accesses that store nothing leave behind. -/
structure Visited (a : AddressSpace 64) (s' : X64.Machine (PhysMem 64)) :
    Prop where
  hosts : Hosts { a with mem := s'.bus } s'
  steady : Steady a { a with mem := s'.bus }
  bytes : SameBytes a { a with mem := s'.bus }

/-- A hosted machine is one that has been visited. -/
theorem Hosts.visited (h : a.Hosts s) : a.Visited s := by
  have hmem : { a with mem := s.bus } = a := by rw [h.selects.bus]
  refine ⟨?_, ?_, ?_⟩
  · rw [hmem]
    exact h
  · rw [hmem]
    exact .refl a
  · rw [hmem]
    exact fun _ _ => rfl

/-- One visit after another. -/
theorem Visited.trans {s'' : X64.Machine (PhysMem 64)} (h : a.Visited s')
    (h' : AddressSpace.Visited { a with mem := s'.bus } s'') :
    a.Visited s'' where
  hosts := h'.hosts
  steady := h.steady.trans h'.steady
  bytes x hx :=
    (h'.bytes x fun t ht => hx t (h.steady.isTable.1 ht)).trans (h.bytes x hx)

/-- A mapping vouches for a TLB entry that shows it. -/
theorem Describes.grants {m : X64.Mapping} (h : a.Describes lin m)
    {e : X64.TlbEntry} (he : e.Shows m)
    {lin' : U64} (hlin : lin' >>> 12 = lin >>> 12) :
    a.Grants lin' e.phys e.user e.writable := by
  have hsame := Layout.samePage_of_page (L := Layout.os64) hlin
  refine ⟨?_, ?_, ?_⟩
  · rw [frameOf_samePage hsame, he.phys]
    exact h.frame
  · rw [pteEntry_samePage hsame, he.user, h.user]
    exact bne_iff_ne.1
  · rw [pteEntry_samePage hsame, he.writable, h.writable]
    exact bne_iff_ne.1

/-- A walk of the processor visits the tables. -/
theorem Hosts.walked (h : a.Hosts s) {write : Bool} {m : X64.Mapping}
    (hm : s.mapping lin = some m)
    (hw : s.Walked lin write m s') : a.Visited s' := by
  obtain ⟨hsteady, hbytes⟩ := steady_walked h.sound h.plain h.selects hm hw
  have hdesc := h.selects.mapping_eq_some h.sound h.plain hm
  have hagrees := h.tlb.widens hsteady.widens
  refine ⟨⟨?_, hsteady.sound h.sound, hsteady.plain h.plain, ?_⟩, hsteady, hbytes⟩
  · obtain ⟨ic, e, rfl, -⟩ := hw.state
    exact ⟨rfl, h.selects.cr3, h.selects.paging, h.selects.wide,
      h.selects.long, h.selects.nxe⟩
  · obtain ⟨ic, e, rfl, htag, hshows, -⟩ := hw.state
    refine ⟨hagrees.entries.replace fun lin' hlin' => ?_, hagrees.fetch⟩
    exact hsteady.widens _ _ _ _ (hdesc.grants hshows (hlin'.trans htag))

/-- A change of registers that select no tables, by a processor that
touched neither memory nor its TLB. -/
theorem Hosts.of_regs (h : a.Hosts s) (hbus : s'.bus = s.bus)
    (hreg : s'.regs.SameTables s.regs.toColdRegs)
    (hpaging : s'.paging = s.paging) (htlb : s'.tlb = s.tlb)
    (hfetch : s.FetchKept s') : a.Hosts s' := by
  obtain ⟨hcr3, hcr4, hefer⟩ := hreg
  refine ⟨⟨hbus.trans h.selects.bus, hcr3.trans h.selects.cr3,
    hpaging.trans h.selects.paging, ?_, ?_, ?_⟩,
    h.sound, h.plain, ?_, fun lin hlin => ?_⟩
  · rw [X64.Cpu.wide, hcr4]
    exact h.selects.wide
  · rw [X64.Cpu.longMode, hefer]
    exact h.selects.long
  · rw [hefer]
    exact h.selects.nxe
  · rw [htlb]
    exact h.tlb.entries
  · rcases hfetch with hempty | ⟨htag, hpage, hcpl⟩
    · exact absurd (hlin.trans hempty) (X64.page_ne_empty lin)
    · rw [hpage, hcpl]
      exact h.tlb.fetch lin (hlin.trans htag)

/-- What a translation of `lin` says: where the host resolves it, and what
the leaf lets a user do. -/
structure Answers (a : AddressSpace 64) (s : X64.Machine (PhysMem 64))
    (lin : U64) (access : X64.Access) (p : U64) : Prop where
  resolve : a.resolve Layout.os64 lin = some p
  user : s.userAccess = true → a.pteEntry Layout.os64 lin &&& pte.US ≠ 0
  writable : s.userAccess = true → access = .write →
    a.pteEntry Layout.os64 lin &&& pte.RW ≠ 0

/-- What a leaf grants answers an access it allows. -/
theorem Answers.of_grants {access : X64.Access} {phys : U64} {u w : Bool}
    (h : a.Grants lin phys u w) (huser : s.userAccess = true → u = true)
    (hwrite : s.userAccess = true → access = .write → w = true) :
    a.Answers s lin access (phys ||| (lin &&& 0xFFF)) where
  resolve := by rw [resolve_eq, h.frame, Option.map_some]
  user hu := h.user (huser hu)
  writable hu hw := h.writable (hwrite hu hw)

/-- An access permitted from user mode is one the rights allow. -/
theorem user_of_permits {c : X64.Cpu} {access : X64.Access}
    {user writable nx : Bool}
    (h : c.walkPermits access user writable nx = true)
    (hu : c.userAccess = true) :
    user = true ∧ (access = .write → writable = true) := by
  unfold X64.Cpu.walkPermits at h
  rw [hu] at h
  cases access with
  | read => exact ⟨by simpa using h, nofun⟩
  | fetch => exact ⟨by simpa using (Bool.and_eq_true_iff.1 h).1, nofun⟩
  | write =>
    obtain ⟨hu, hw⟩ :=
      Bool.and_eq_true_iff.1 (show (user && writable) = true from h)
    exact ⟨hu, fun _ => hw⟩

/-- A translation answers what the tables say, and fails only where they
have no page or do not permit the access. -/
theorem Hosts.translate (h : a.Hosts s) (lin : U64) (access : X64.Access) :
    a.Visited ((X64.translate lin access).run s).2
      ∧ (∀ q, ((X64.translate lin access).run s).1 = .ok q →
        a.Answers s lin access q.val)
      ∧ ∀ e, ((X64.translate lin access).run s).1 = .error e → ∀ f,
        a.frameOf Layout.os64 lin = some f →
        s.walkPermits access (a.pteEntry Layout.os64 lin &&& pte.US != 0)
          (a.pteEntry Layout.os64 lin &&& pte.RW != 0) false = false := by
  cases hhit : s.tlbHit lin access with
  | true =>
    obtain ⟨q, hrun, hq⟩ := X64.run_translate_hit hhit
    obtain ⟨htag, hperm⟩ := Bool.and_eq_true_iff.1 hhit
    rw [hrun]
    refine ⟨h.visited, fun q' hq' => ?_, nofun⟩
    cases hq'
    have hgrants :=
      h.tlb.entries
        _ _ (Lookaside.look_eq_some.2 ⟨of_decide_eq_true htag, rfl⟩) lin rfl
    have hwalk :
        s.walkPermits access (s.tlb.entries (X64.Tlb.slot (lin >>> 12))).user
        (s.tlb.entries (X64.Tlb.slot (lin >>> 12))).writable
        (s.tlb.entries (X64.Tlb.slot (lin >>> 12))).nx = true := by
      cases access with
      | read => exact hperm
      | fetch => exact hperm
      | write => exact (Bool.and_eq_true_iff.1 hperm).1
    rw [hq]
    exact .of_grants hgrants (fun hu => (user_of_permits hwalk hu).1)
      fun hu => (user_of_permits hwalk hu).2
  | false =>
    rw [X64.run_translate_miss hhit]
    have hrun := X64.run_walk lin access s
    rcases hw : (X64.walk lin access).run s with ⟨e | q, s'⟩
      <;> rw [hw] at hrun
    · obtain ⟨rfl, hdenied⟩ := hrun
      have hfault : a.Hosts (s.faulted lin) :=
        h.of_regs rfl ⟨rfl, rfl, rfl⟩ rfl rfl (Or.inr ⟨rfl, rfl, rfl⟩)
      refine ⟨hfault.visited, nofun, fun _ _ f hf => ?_⟩
      have hmap := h.selects.mapping h.sound h.plain lin
      rw [hf] at hmap
      obtain ⟨m, hm, hdesc⟩ := hmap
      have hden := hdenied m hm
      rw [hdesc.nx] at hden
      rw [← hdesc.user, ← hdesc.writable]
      exact hden
    · obtain ⟨m, hm, hperm, hq, hwalked⟩ := hrun
      have hdesc := h.selects.mapping_eq_some h.sound h.plain hm
      refine ⟨h.walked hm hwalked, fun q' hq' => ?_, nofun⟩
      cases hq'
      rw [hq]
      refine .of_grants (u := m.user) (w := m.writable) ⟨hdesc.frame, ?_, ?_⟩
        (fun hu => (user_of_permits hperm hu).1) fun hu =>
          (user_of_permits hperm hu).2
      · rw [hdesc.user]
        exact bne_iff_ne.1
      · rw [hdesc.writable]
        exact bne_iff_ne.1

-- ======== stores

/-- The first `n` bytes of `v` are where their addresses lead, no page has
moved, and no other byte outside the tables has changed. -/
structure Stored {k : Nat} (a : AddressSpace 64) (lin : U64)
    (n : Nat) (v : BitVec k) (a' : AddressSpace 64) : Prop where
  steady : Steady a a'
  mapped : ∀ i < n, ∃ p,
    a.resolve Layout.os64 (lin + BitVec.ofNat 64 i) = some p
  bytes : ∀ i < n, ∀ p,
    a.resolve Layout.os64 (lin + BitVec.ofNat 64 i) = some p →
    a'.mem.load8 p = byteOf v i
  other : ∀ x, (∀ t, a.IsTable Layout.os64 t → ¬ InFrame t x) →
    (∀ i < n, a.resolve Layout.os64 (lin + BitVec.ofNat 64 i) ≠ some x) →
    a'.mem.load8 x = a.mem.load8 x

/-- A store that has landed, with the processor still on the tables. -/
structure Landed {k : Nat} (a : AddressSpace 64) (lin : U64)
    (n : Nat) (v : BitVec k) (s' : X64.Machine (PhysMem 64)) : Prop where
  hosts : Hosts { a with mem := s'.bus } s'
  stored : a.Stored lin n v { a with mem := s'.bus }

/-- Memory that differs in pages only. -/
theorem Steady.of_data (hs : a.Sound Layout.os64) (m : PhysMem 64)
    (h : ∀ x, m.load8 x ≠ a.mem.load8 x → ∃ lin f,
      a.frameOf Layout.os64 lin = some f ∧ InFrame f x) :
    Steady a { a with mem := m } where
  rest := rfl
  entry t ht i := by
    rw [load_slot_congr (hs.isTable_allocated ht).aligned
      (fun _ => hs.table_bytes h ht) i]
  blank _ hx := hs.blank_bytes h hx

/-- What an address resolves to is a byte of its page. -/
theorem Sound.resolve_page (hs : a.Sound Layout.os64) {p : U64}
    (h : a.resolve Layout.os64 lin = some p) :
    (∃ f, a.frameOf Layout.os64 lin = some f ∧ InFrame f p)
      ∧ p.toNat % 4096 = lin.toNat % 4096 := by
  rw [resolve_eq, Option.map_eq_some_iff] at h
  obtain ⟨f, hf, rfl⟩ := h
  have hal := (hs.frame_allocated hf).aligned
  refine ⟨⟨f, hf, inFrame_or hal lin⟩, ?_⟩
  rw [toNat_or_offset f lin ((aligned_iff f).1 hal)]
  rw [Aligned] at hal
  omega

/-- Where the bytes of a run lead, one by one. -/
abbrev Leads (a : AddressSpace 64) (lins ps : List U64) : Prop :=
  List.Forall₂ (fun l p => a.resolve Layout.os64 l = some p) lins ps

/-- Each byte of a run is led to its own place. -/
theorem Leads.get {n : Nat} {ps : List U64} (h : a.Leads (bytesFrom lin n) ps)
    {i : Nat} (hi : i < n) :
    ∃ hi' : i < ps.length,
      a.resolve Layout.os64 (lin + BitVec.ofNat 64 i) = some ps[i] := by
  have hlen : (bytesFrom lin n).length = n := by
    rw [bytesFrom, List.length_map, List.length_range]
  have hi' : i < ps.length := by
    rw [← h.length_eq, hlen]
    exact hi
  have hget := List.Forall₂.get h (hlen.symm ▸ hi) hi'
  simp only [List.get_eq_getElem, bytesFrom, List.getElem_map,
    List.getElem_range] at hget
  exact ⟨hi', hget⟩

/-- Bytes stored where their addresses lead. -/
theorem Visited.stored {k : Nat} {v : BitVec k} {n : Nat} {ps : List U64}
    (hs : a.Sound Layout.os64)
    (h : a.Visited s) (hps : a.Leads (bytesFrom lin n) ps) (hn : n ≤ 8) :
    a.Stored lin n v { a with mem := pokeAll s.bus (byteStores ps v) } := by
  have hlen : ps.length = n := by
    rw [← hps.length_eq, bytesFrom, List.length_map, List.length_range]
  have hmem : ∀ p ∈ ps, ∃ i < n,
    a.resolve Layout.os64 (lin + BitVec.ofNat 64 i) = some p := by
    intro p hp
    obtain ⟨i, hi, rfl⟩ := List.mem_iff_getElem.1 hp
    obtain ⟨_, hget⟩ := hps.get (hlen ▸ hi)
    exact ⟨i, hlen ▸ hi, hget⟩
  have hother : ∀ x,
      (∀ i < n, a.resolve Layout.os64 (lin + BitVec.ofNat 64 i) ≠ some x) →
      (pokeAll s.bus (byteStores ps v)).load8 x = s.bus.load8 x := by
    intro x hx
    refine byte_pokeAll_other (w := 64) s.bus _ fun q hq heq => ?_
    obtain ⟨i, hi, hq'⟩ := hmem q.1 (mem_byteStores hq)
    exact hx i hi (hq'.trans (congrArg some heq.symm))
  have hcells : (ps.map (cell (PhysMem 64))).Nodup := by
    refine cells_nodup (c := lin.toNat) (hlen ▸ hn) fun i hi => ?_
    obtain ⟨_, hget⟩ := hps.get (hlen ▸ hi)
    have hoff := (hs.resolve_page hget).2
    rw [BitVec.toNat_add, BitVec.toNat_ofNat] at hoff
    omega
  have hdata :
    Steady { a with mem := s.bus } { a with mem := pokeAll s.bus (byteStores ps v) } := by
    refine Steady.of_data h.hosts.sound _ fun x hx => ?_
    by_contra hno
    refine hx (hother x fun i hi hp => hno ?_)
    obtain ⟨⟨f, hf, hin⟩, -⟩ := hs.resolve_page hp
    exact ⟨lin + BitVec.ofNat 64 i, f, (congrFun h.steady.frameOf _).trans hf, hin⟩
  refine ⟨h.steady.trans hdata, fun i hi => ?_, fun i hi p hp => ?_,
    fun x hx hxp => ?_⟩
  · obtain ⟨_, hget⟩ := hps.get hi
    exact ⟨_, hget⟩
  · obtain ⟨hi', hget⟩ := hps.get hi
    rw [hp, Option.some.injEq] at hget
    rw [hget]
    exact byte_pokeAll (w := 64) s.bus ps v hcells hi'
  · exact (hother x hxp).trans (h.bytes x hx)

/-- The processor after a store. -/
theorem Visited.landed {k : Nat} {v : BitVec k} {n : Nat} {ps : List U64}
    (hs : a.Sound Layout.os64)
    (h : a.Visited s) (hps : a.Leads (bytesFrom lin n) ps) (hn : n ≤ 8)
    (ic : X64.ICache) :
    a.Landed lin n v { s with icache := ic, bus := pokeAll s.bus (byteStores ps v) } := by
  have hstored := h.stored (v := v) hs hps hn
  have hdata := h.steady.symm.trans hstored.steady
  have hsel := h.hosts.selects
  have hagrees := h.hosts.tlb.widens hdata.widens
  exact ⟨⟨⟨rfl, hsel.cr3, hsel.paging, hsel.wide, hsel.long, hsel.nxe⟩, hstored.steady.sound hs,
    hdata.plain h.hosts.plain, hagrees.entries, hagrees.fetch⟩, hstored⟩

-- ======== store accesses

/-- A store that succeeds has landed; one that faults has stored nothing. -/
def StoreOutcome {k : Nat} (a : AddressSpace 64) (lin : U64)
    (n : Nat) (v : BitVec k) :
    Except X64.Exception Unit × X64.Machine (PhysMem 64) → Prop
  | (.ok _, s') => a.Landed lin n v s'
  | (.error _, s') => a.Visited s'

/-- Within a page places follow each other as addresses do. -/
theorem Sound.leads_page (hs : a.Sound Layout.os64) {q : U64} {n : Nat}
    (h : a.resolve Layout.os64 lin = some q)
    (hin : lin.toNat % 4096 + n ≤ 4096) :
    a.Leads (bytesFrom lin n) (bytesFrom q n) := by
  rw [Leads, bytesFrom, bytesFrom, List.forall₂_map_left_iff,
    List.forall₂_map_right_iff, List.forall₂_same]
  intro i hi
  have hi' : lin.toNat % 4096 + i < 4096 := by
    have := List.mem_range.1 hi
    omega
  rw [resolve_eq, Option.map_eq_some_iff] at h
  obtain ⟨f, hf, rfl⟩ := h
  have hal := (hs.frame_allocated hf).aligned
  rw [resolve_eq,
    frameOf_samePage (Layout.samePage_of_page (page_add lin i hi')), hf,
    Option.map_some, Word.or_offset_add ((aligned_iff f).1 hal) hi']

/-- A store within one page: one translation, one bus access. -/
theorem Hosts.store_page {k : Nat} {v : BitVec k} {n : Nat}
    (h : a.Hosts s) (hn : n ≤ 8)
    (hin : lin.toNat % 4096 + n ≤ 4096) {w : PhysMem 64 → U64 → PhysMem 64}
    (hw : ∀ m q, w m q = pokeAll m (byteStores (bytesFrom q n) v))
    {last : X64.Translated lin → U64}
    {hpage : ∀ p, last p >>> 12 = p.val >>> 12}
    {hstore : ∀ (p : X64.Translated lin) b,
      X64.BusStore b p.val (last p) (w b p.val)} :
    a.StoreOutcome lin n v ((X64.translate lin .write >>= fun p =>
      X64.pageStore p.val (last p) (fun m => w m p.val) (hpage p)
        (hstore p)).run s) := by
  obtain ⟨hvis, hans, -⟩ := h.translate lin .write
  rw [Bounded.run_bind, Fallible.bind_apply]
  rcases hr : (X64.translate lin .write).run s with ⟨e | q, s'⟩
    <;> rw [hr] at hvis hans
  · exact hvis
  · have hleads := h.sound.leads_page (hans q rfl).resolve hin
    have hlanded :=
      hvis.landed (v := v) h.sound hleads hn (s'.icache.stampWrite q.val)
    rw [← hw] at hlanded
    exact hlanded

/-- Translating a list of addresses leads to what the tables resolve. -/
theorem Hosts.translateAll (h : a.Hosts s) (lins : List U64) :
    a.Visited ((X64.translateAll lins).run s).2
      ∧ ∀ ps, ((X64.translateAll lins).run s).1 = .ok ps →
        a.Leads lins ps := by
  induction lins generalizing a s with
  | nil =>
    refine ⟨h.visited, fun ps hps => ?_⟩
    cases hps
    exact .nil
  | cons lin rest ih =>
    obtain ⟨hvis, hans, -⟩ := h.translate lin .write
    rw [X64.translateAll, Bounded.run_bind, Fallible.bind_apply]
    rcases hr : (X64.translate lin .write).run s with ⟨e | q, s'⟩
      <;> rw [hr] at hvis hans
    · refine ⟨hvis, fun ps hps => ?_⟩
      cases hps
    obtain ⟨hvis', hleads⟩ := ih hvis.hosts
    dsimp only
    rw [Bounded.run_bind, Fallible.bind_apply]
    rcases hr' : (X64.translateAll rest).run s' with ⟨e | qs, s''⟩
      <;> rw [hr'] at hvis' hleads
    · refine ⟨hvis.trans hvis', fun ps hps => ?_⟩
      cases hps
    · refine ⟨hvis.trans hvis', fun ps hps => ?_⟩
      cases hps
      refine .cons (hans q rfl).resolve ?_
      have hrest := hleads qs rfl
      rw [Leads, hvis.steady.resolve] at hrest
      exact hrest

/-- The bytes of a word are those of the quad word it is stored as. -/
theorem Landed.narrow {k : Nat} {v : BitVec k} {n : Nat} (hn : n ≤ 8)
    (h : a.Landed lin n (v.setWidth 64) s) : a.Landed lin n v s where
  hosts := h.hosts
  stored := by
    refine ⟨h.stored.steady, h.stored.mapped,
      fun i hi p hp => ?_, h.stored.other⟩
    rw [h.stored.bytes i hi p hp, byteOf_low v (by omega)]

/-- A store across two pages: every byte is translated first. -/
theorem Hosts.store_split {k : Nat} {v : BitVec k} {n : Nat}
    (h : a.Hosts s) (hn : n + 1 ≤ 8) (hn' : n + 1 < 4096) :
    a.StoreOutcome lin (n + 1) v
      ((X64.linWriteSplit lin n hn' (v.setWidth 64)).run s) := by
  obtain ⟨hvis, hleads⟩ := h.translateAll (bytesFrom lin (n + 1))
  unfold X64.linWriteSplit
  dsimp only
  rw [Fallible.bind_apply]
  rw [show X64.bytesFrom lin (n + 1) = bytesFrom lin (n + 1) from rfl]
  rcases hr : (X64.translateAll (bytesFrom lin (n + 1))).run s
    with ⟨e | ps, s'⟩ <;> rw [hr] at hvis hleads
  · exact hvis
  · have hlanded := hvis.landed (v := v.setWidth 64) h.sound (hleads ps rfl) hn
      (s'.icache.stampWriteSpan (ps.headD 0) (ps.getLastD 0))
    rw [← X64.byteStores_eq] at hlanded
    exact hlanded.narrow hn

-- The four store accesses.

/-- A byte store goes where the tables say or nowhere. -/
theorem Hosts.linWrite8 (h : a.Hosts s) (lin : U64) (v : U8) :
    a.StoreOutcome lin 1 v ((X64.linWrite8 lin v).run s) := by
  unfold X64.linWrite8
  rw [Bounded.run_bind, Fallible.bind_of_ok (X64.run_self s),
    if_neg (by rw [h.selects.paging]; decide)]
  refine h.store_page (w := fun m q => m.store8 q v) (by omega)
    (by omega) fun m q => ?_
  have hq : q + BitVec.ofNat 64 0 = q := by simp
  show m.store8 q v = m.store8 (q + BitVec.ofNat 64 0) (v.setWidth 8)
  rw [hq, BitVec.setWidth_eq]

/-- A place that leaves room for the rest of the access in its page. -/
theorem offset_room {lim : U64} {n : Nat} (hlim : lim.toNat + n ≤ 4097)
    (h : lin &&& 0xFFF < lim) :
    lin.toNat % 4096 + n ≤ 4096 := by
  have hlt := BitVec.lt_def.1 h
  rw [toNat_and_FFF] at hlt
  omega

/-- A word store does. -/
theorem Hosts.linWrite16 (h : a.Hosts s) (lin : U64) (v : U16) :
    a.StoreOutcome lin 2 v ((X64.linWrite16 lin v).run s) := by
  unfold X64.linWrite16
  rw [Bounded.run_bind, Fallible.bind_of_ok (X64.run_self s),
    if_neg (by rw [h.selects.paging]; decide)]
  split
  case isTrue hlt =>
    exact h.store_page (w := fun m q => put16 m q v) (by omega)
      (offset_room (by decide) hlt)
      fun m q => put16_eq_pokeAll m q v
  case isFalse => exact h.store_split (n := 1) (by omega) (by omega)

/-- A double word store does. -/
theorem Hosts.linWrite32 (h : a.Hosts s) (lin : U64) (v : U32) :
    a.StoreOutcome lin 4 v ((X64.linWrite32 lin v).run s) := by
  unfold X64.linWrite32
  rw [Bounded.run_bind, Fallible.bind_of_ok (X64.run_self s),
    if_neg (by rw [h.selects.paging]; decide)]
  split
  case isTrue hlt =>
    exact h.store_page (w := fun m q => put32 m q v) (by omega)
      (offset_room (by decide) hlt)
      fun m q => put32_eq_pokeAll m q v
  case isFalse => exact h.store_split (n := 3) (by omega) (by omega)

/-- A quad word store does. -/
theorem Hosts.linWrite64 (h : a.Hosts s) (lin v : U64) :
    a.StoreOutcome lin 8 v ((X64.linWrite64 lin v).run s) := by
  unfold X64.linWrite64
  rw [Bounded.run_bind, Fallible.bind_of_ok (X64.run_self s),
    if_neg (by rw [h.selects.paging]; decide)]
  split
  case isTrue hlt =>
    exact h.store_page (w := fun m q => put64 m q v) (by omega)
      (offset_room (by decide) hlt)
      fun m q => put64_eq_pokeAll m q v
  case isFalse =>
    have hsplit : a.StoreOutcome lin (7 + 1) v _ :=
      h.store_split (by omega) (by omega)
    rw [BitVec.setWidth_eq] at hsplit
    exact hsplit

-- ======== entry

/-- Ring-3 selectors of the process, and what their caches say. -/
abbrev USER_CS : U16 := 0x33
/-- The data selector of user mode. -/
abbrev USER_DS : U16 := 0x2B
/-- 64-bit code at level 3. -/
abbrev CODE_ATTRS : U16 := 0x0AFB
/-- Writable data at level 3. -/
abbrev DATA_ATTRS : U16 := 0x0CF3

/-- A flat segment cache. -/
def flat (sel attrs : U16) : X64.SegReg :=
  { sel, base := 0, limit := 0xFFFFFFFF, attrs }

open X64 in
/-- The register file of a process about to run at `entry`. -/
def userRegs (r : Registers) (cr3 entry rsp : U64) : Registers :=
  { r with
    cr4 := r.cr4 ||| cr4.PAE
    cr0 := (r.cr0 ||| (cr0.PE ||| cr0.PG)) &&& ~~~(cr0.CD ||| cr0.NW)
    msr := { r.msr with efer := r.msr.efer ||| (efer.LME ||| efer.LMA ||| efer.SCE) }
    cr3 := cr3
    seg := fun i => if i = reg.CS then flat USER_CS CODE_ATTRS
      else if i < 6 then flat USER_DS DATA_ATTRS else r.seg i
    gdtr := { base := 0, limit := 0 }
    idtr := { base := 0, limit := 0 }
    rip := entry
    gpr := upd r.gpr reg.RSP rsp
    rflags := ⟨RFlags.IF⟩ }

/-- Enter the process: long mode on its tables at ring 3, with syscalls and
faults trapped. -/
def enterUser (a : AddressSpace 64) (c : X64.Cpu) (entry rsp : U64) :
    X64.Machine (PhysMem 64) :=
  X64.Machine.invalidateTlb
    { c with
      regs := userRegs c.regs a.cr3 entry rsp
      trapSyscall := true
      trapFaults := true
      bus := a.mem }

/-- A bit that is tested stays set when others are added. -/
theorem or_and_ne_zero {v m t : U64} (h : m &&& t ≠ 0) :
    (v ||| m) &&& t ≠ 0 := by
  intro hz
  rw [BitVec.and_or_distrib_right] at hz
  exact h (BitVec.or_eq_zero_iff.1 hz).2

/-- Entry to user mode hosts the machine on the address space. -/
theorem hosts_enterUser (hs : a.Sound Layout.os64) (hp : a.Plain) {c : X64.Cpu}
    (hnxe : c.regs.msr.efer &&& X64.efer.NXE = 0) (entry rsp : U64) :
    a.Hosts (a.enterUser c entry rsp) := by
  refine ⟨⟨rfl, rfl, ?_, ?_, ?_, ?_⟩, hs, hp, .flushed (fun _ => rfl) rfl⟩
  · refine bne_iff_ne.2 ?_
    show (c.regs.cr0 ||| _) &&& ~~~(X64.cr0.CD ||| X64.cr0.NW) &&& X64.cr0.PG ≠ 0
    rw [BitVec.and_assoc]
    exact or_and_ne_zero (by decide)
  · exact bne_iff_ne.2 (or_and_ne_zero (by decide))
  · exact bne_iff_ne.2 (or_and_ne_zero (by decide))
  · exact (or_and_disjoint _ (by decide)).trans hnxe

end AddressSpace

end Remu.Os
