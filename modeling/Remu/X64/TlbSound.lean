/-
The translation cache never disagrees with the page tables.

`TlbOk` is the invariant of a run: every TLB entry shows the mapping that
the tables have for its page now, on a path that is accessed already and
dirty already if the entry says so; and the cached fetch translation is
one the current privilege may execute. Setting accessed and dirty bits
does not move a mapping, so walks keep it; flushes and invalidations only
lose entries; and the instructions that change CR3, CR4 or EFER flush.

What is assumed of everything else is that it leaves CR3, CR4, EFER and
the tables behind the current mappings alone, and that a change of
privilege drops the cached fetch translation. In PAE mode a pointer entry
must not double as a lower entry, where an accessed bit would be reserved.
-/
import Remu.Lib.Stamped
import Remu.X64.ControlRegs
import Remu.X64.Walk

namespace Remu.X64

open Word ByteRam

variable {β : Type} [Bus β] [Ram β]

-- ======== the invariant

/-- The path of `m` needs no accessed bit, and for a write no dirty bit. -/
structure Machine.PathMarked (s : Machine β) (m : Mapping) (dirty : Bool) :
    Prop where
  accessed : ∀ a ∈ m.path, s.word a &&& pte.A ≠ 0
  dirty : dirty = true → ∀ a, m.path.getLast? = some a → s.word a &&& pte.D ≠ 0

/-- The tables agree with the entry `e` for `page`. -/
def Machine.Vouches (s : Machine β) (page : U64) (e : TlbEntry) : Prop :=
  ∀ lin : U64, lin >>> 12 = page →
    ∃ m, s.mapping lin = some m ∧ e.Shows m ∧ s.PathMarked m e.dirty

/-- The tables let the current privilege execute the cached fetch page. -/
def Machine.FetchVouched (s : Machine β) : Prop :=
  ∀ lin : U64, lin >>> 12 = s.fetchTag →
    ∃ m, s.mapping lin = some m ∧ s.fetchPage = m.frame ∧ s.PathMarked m false
      ∧ (s.cpl = 3 → m.user = true) ∧ m.nx = false

structure Machine.TlbOk (s : Machine β) : Prop where
  holds : Lookaside.Holds Tlb.slot TlbEntry.tag s.tlb.entries s.Vouches
  fetch : s.FetchVouched

/-- In PAE mode no pointer entry is also a lower-level entry. -/
def Machine.PdpteApart (s : Machine β) : Prop :=
  s.wide = true → s.longMode = false → ∀ lin m,
    s.mapping lin = some m → ∀ a ∈ m.path,
    ∀ lin', cell β (pdpteAddr s.regs.cr3 lin') ≠ cell β a

/-- Nothing is asked of an empty entry. -/
theorem Machine.vouches_empty (s : Machine β) (e : TlbEntry) :
    s.Vouches EMPTY e :=
  fun lin h => absurd h (page_ne_empty lin)

/-- A flushed cache has nothing to be wrong about. -/
theorem Machine.TlbOk.of_flushed {s : Machine β}
    (htlb : ∀ i, (s.tlb.entries i).tag = EMPTY)
    (hfetch : s.fetchTag = EMPTY) : s.TlbOk where
  holds := Lookaside.Holds.of_entries fun i => by
    rw [htlb i]
    exact s.vouches_empty _
  fetch lin h := absurd (h.trans hfetch) (page_ne_empty lin)

-- ======== keeping the tables

/-- CR3, CR4 and EFER, which select the tables and their format. -/
structure ColdRegs.SameTables (r r' : ColdRegs) : Prop where
  cr3 : r.cr3 = r'.cr3
  cr4 : r.cr4 = r'.cr4
  efer : r.msr.efer = r'.msr.efer

/-- The mappings stay, and the entries behind them only gain marks. -/
structure Machine.Keeps (s s' : Machine β) : Prop where
  mapping : ∀ {lin m}, s.mapping lin = some m → s'.mapping lin = some m
  grows : ∀ {lin m}, s.mapping lin = some m → ∀ a ∈ m.path,
    Grows pte.MARKS (s.word a) (s'.word a)

/-- Marks that were set stay set. -/
theorem Machine.Keeps.pathMarked {s s' : Machine β} (h : s.Keeps s')
    {lin : U64} {m : Mapping}
    (hm : s.mapping lin = some m) {d : Bool} (hp : s.PathMarked m d) :
    s'.PathMarked m d where
  accessed a ha := (h.grows hm a ha).ne_zero (hp.accessed a ha)
  dirty hd a ha :=
    (h.grows hm a (List.mem_of_getLast? ha)).ne_zero (hp.dirty hd a ha)

/-- An entry that shows its mapping goes on doing so while the tables grow
marks only. -/
theorem Machine.Keeps.vouches {s s' : Machine β} (h : s.Keeps s')
    {page : U64} {e : TlbEntry}
    (hv : s.Vouches page e) : s'.Vouches page e := by
  intro lin hlin
  obtain ⟨m, hm, hshows, hmarked⟩ := hv lin hlin
  exact ⟨m, h.mapping hm, hshows, h.pathMarked hm hmarked⟩

/-- The cached fetch translation was dropped, or kept under the same
privilege. -/
def Machine.FetchKept (s s' : Machine β) : Prop :=
  s'.fetchTag = EMPTY ∨ s'.fetchTag = s.fetchTag
    ∧ s'.fetchPage = s.fetchPage ∧ s'.cpl = s.cpl

/-- The fetch page goes on being vouched for. -/
theorem Machine.Keeps.fetchVouched {s s' : Machine β} (h : s.Keeps s')
    (hok : s.FetchVouched) (hfetch : s.FetchKept s') : s'.FetchVouched := by
  intro lin hlin
  rcases hfetch with hempty | ⟨htag, hpage, hcpl⟩
  · exact absurd (hlin.trans hempty) (page_ne_empty lin)
  · obtain ⟨m, hm, hframe, hmarked, huser, hnx⟩ := hok lin (hlin.trans htag)
    refine ⟨m, h.mapping hm, hpage.trans hframe, h.pathMarked hm hmarked, ?_, hnx⟩
    rw [hcpl]
    exact huser

/-- What keeps the tables and the TLB keeps their agreement. -/
theorem Machine.Keeps.tlbOk {s s' : Machine β} (h : s.Keeps s') (hok : s.TlbOk)
    (htlb : s'.tlb = s.tlb) (hfetch : s.FetchKept s') : s'.TlbOk where
  holds := by
    rw [htlb]
    exact hok.holds.mono fun _ _ => h.vouches
  fetch := h.fetchVouched hok.fetch hfetch

/-- The entries a mapping depends on: those on its path, and the PAE
pointer entry above them. -/
def Machine.TableEntry (s : Machine β) (a : U64) : Prop :=
  ∃ lin m, s.mapping lin = some m
    ∧ (a ∈ m.path ∨ s.wide = true ∧ s.longMode = false
    ∧ a = pdpteAddr s.regs.cr3 lin)

/-- Mappings follow from the registers that select the tables and the
entries behind them. -/
theorem Machine.mapping_congr {s s' : Machine β}
    (hreg : s'.regs.SameTables s.regs.toColdRegs)
    {lin : U64} {m : Mapping} (hm : s.mapping lin = some m)
    (hpath : ∀ a ∈ m.path,
      s'.word a &&& ~~~pte.MARKS = s.word a &&& ~~~pte.MARKS)
    (hptr : s.wide = true → s.longMode = false →
      s'.word (pdpteAddr s.regs.cr3 lin) = s.word (pdpteAddr s.regs.cr3 lin)) :
    s'.mapping lin = some m := by
  obtain ⟨hcr3, hcr4, hefer⟩ := hreg
  have hwide : s'.wide = s.wide := by rw [Cpu.wide, Cpu.wide, hcr4]
  have hlong :
    s'.longMode = s.longMode := by rw [Cpu.longMode, Cpu.longMode, hefer]
  unfold mapping at hm ⊢
  rw [hwide, hlong, hcr3, hcr4, hefer]
  split at hm
  case isTrue hw =>
    rw [if_pos hw]
    exact wideMapping_congr hm hpath (hptr hw)
  case isFalse hw =>
    rw [if_neg hw]
    exact legacyMapping_congr hm hpath

/-- A change that leaves the table registers and every table entry as they
are. -/
theorem Machine.Keeps.of_same {s s' : Machine β}
    (hreg : s'.regs.SameTables s.regs.toColdRegs)
    (hent : ∀ a, s.TableEntry a → s'.word a = s.word a) : s.Keeps s' where
  mapping {lin m} hm := Machine.mapping_congr hreg hm
    (fun a ha => by rw [hent a ⟨lin, m, hm, Or.inl ha⟩])
    fun hw hl => hent _ ⟨lin, m, hm, Or.inr ⟨hw, hl, rfl⟩⟩
  grows {lin m} hm a ha := by
    rw [hent a ⟨lin, m, hm, Or.inl ha⟩]
    exact .refl _ _

-- ======== walks

/-- Where the pointer entries are. -/
theorem pdpteAddr_aligned (cr3 lin : U64) :
    (pdpteAddr cr3 lin).toNat % 8 = 0 :=
  toNat_mod8 (aligned8_add _ _ _ (by decide))

section Walk

variable {s s' : Machine β} {lin : U64} {write : Bool} {m : Mapping}

/-- After a walk a table word is the one before with the path's marks set. -/
theorem Machine.Walked.word (h : s.Walked lin write m s') (a : U64) :
    s'.word a = tableWord s.wide (markPath s.wide write s.word m.path s.bus) a := by
  obtain ⟨ic, e, rfl, -⟩ := h.state
  rfl

/-- A walk grows marks in the tables and changes nothing else. -/
theorem Machine.Walked.marked (h : s.Walked lin write m s')
    (hm : s.mapping lin = some m) (a : U64)
    (ha : EntryAligned s.wide a) : Grows pte.MARKS (s.word a) (s'.word a) := by
  rw [h.word]
  exact EntryMemory.marked_markPath (E := tableEntries s.wide) EntryFits.mark
    (Machine.mapping_aligned hm) (.refl _) a ha

/-- The page-directory pointers lie apart from the marks, so they stay. -/
theorem Machine.Walked.pointer (h : s.Walked lin write m s')
    (hm : s.mapping lin = some m)
    (hapart : s.PdpteApart) (hw : s.wide = true)
    (hl : s.longMode = false) (lin' : U64) :
    s'.word (pdpteAddr s.regs.cr3 lin')
      = s.word (pdpteAddr s.regs.cr3 lin') := by
  have haligned : EntryAligned s.wide (pdpteAddr s.regs.cr3 lin') := by
    rw [EntryAligned, hw, if_pos rfl]
    exact pdpteAddr_aligned _ _
  rw [h.word]
  exact EntryMemory.markPath_other (E := tableEntries s.wide) EntryFits.mark
    (Machine.mapping_aligned hm) haligned fun a ha =>
      hapart hw hl lin m hm a ha lin'

/-- A walk does not move the registers the tables go by. -/
theorem Machine.Walked.sameTables (h : s.Walked lin write m s') :
    s'.regs.SameTables s.regs.toColdRegs := by
  obtain ⟨ic, e, rfl, -⟩ := h.state
  exact ⟨rfl, rfl, rfl⟩

/-- A walk moves no mapping, in either direction. -/
theorem Machine.Walked.mapping_eq (h : s.Walked lin write m s')
    (hm : s.mapping lin = some m)
    (hapart : s.PdpteApart) (lin' : U64) :
    s'.mapping lin' = s.mapping lin' := by
  have hreg := h.sameTables
  have hwide : s'.wide = s.wide := by rw [Cpu.wide, Cpu.wide, hreg.cr4]
  have hlong :
    s'.longMode = s.longMode := by rw [Cpu.longMode, Cpu.longMode, hreg.efer]
  cases hs : s.mapping lin' with
  | some m' =>
    exact Machine.mapping_congr hreg hs
      (fun a ha => (h.marked hm a (Machine.mapping_aligned hs a ha)).outside)
      fun hw hl => h.pointer hm hapart hw hl lin'
  | none =>
    cases hs' : s'.mapping lin' with
    | none => rfl
    | some m' =>
      have hback : s.mapping lin' = some m' := by
        refine Machine.mapping_congr ⟨hreg.cr3.symm, hreg.cr4.symm,
          hreg.efer.symm⟩ hs'
          (fun a ha => ?_) fun hw hl => ?_
        · have hal := Machine.mapping_aligned hs' a ha
          rw [hwide] at hal
          exact (h.marked hm a hal).outside.symm
        · rw [hwide] at hw
          rw [hlong] at hl
          rw [hreg.cr3]
          exact (h.pointer hm hapart hw hl lin').symm
      rw [hs] at hback
      cases hback

/-- A walk keeps the tables. -/
theorem Machine.Walked.keeps (h : s.Walked lin write m s')
    (hm : s.mapping lin = some m) (hapart : s.PdpteApart) : s.Keeps s' where
  mapping {lin' _} hm' := (h.mapping_eq hm hapart lin').trans hm'
  grows hm' a ha := h.marked hm a (Machine.mapping_aligned hm' a ha)

theorem Machine.Walked.pdpteApart (h : s.Walked lin write m s')
    (hm : s.mapping lin = some m) (hapart : s.PdpteApart) : s'.PdpteApart := by
  have hreg := h.sameTables
  have hwide : s'.wide = s.wide := by rw [Cpu.wide, Cpu.wide, hreg.cr4]
  have hlong :
    s'.longMode = s.longMode := by rw [Cpu.longMode, Cpu.longMode, hreg.efer]
  intro hw hl lin' m' hm' a ha lin''
  rw [h.mapping_eq hm hapart] at hm'
  rw [hreg.cr3]
  exact hapart (hwide ▸ hw) (hlong ▸ hl) lin' m' hm' a ha lin''

/-- After a walk its own path is marked. -/
theorem Machine.Walked.pathMarked (h : s.Walked lin write m s')
    (hm : s.mapping lin = some m) :
    s'.PathMarked m write where
  accessed a ha := by
    rw [h.word]
    exact EntryMemory.markPath_accessed
      (E := tableEntries s.wide) EntryFits.mark
      (Machine.mapping_aligned hm) (.refl _) ha
  dirty hd a ha := by
    rw [h.word, hd]
    exact EntryMemory.markPath_dirty (E := tableEntries s.wide) EntryFits.mark
      (Machine.mapping_aligned hm) (.refl _) ha

/-- A walk keeps the invariant. -/
theorem Machine.Walked.tlbOk (h : s.Walked lin write m s')
    (hm : s.mapping lin = some m)
    (hapart : s.PdpteApart) (hok : s.TlbOk) : s'.TlbOk := by
  have hkeeps := h.keeps hm hapart
  have hmarked := h.pathMarked hm
  have hmap := h.mapping_eq hm hapart
  obtain ⟨ic, e, hs', htag, hshows, hdirty⟩ := h.state
  have hnew : s'.Vouches e.tag e := by
    intro lin' hlin'
    rw [htag] at hlin'
    refine ⟨m, ?_, hshows, hmarked.accessed, fun hd a ha => ?_⟩
    · rw [hmap, s.mapping_page hlin', hm]
    · -- The new entry is dirty because the walk wrote, or because the leaf was.
      rcases hdirty hd with hw | hleaf
      · exact hmarked.dirty hw a ha
      · exact (hkeeps.grows hm a (List.mem_of_getLast? ha)).ne_zero
          (hleaf a ha)
  have hold : Lookaside.Holds Tlb.slot TlbEntry.tag s.tlb.entries s'.Vouches :=
    hok.holds.mono fun _ _ => hkeeps.vouches
  have hfetch : s'.FetchVouched :=
    hkeeps.fetchVouched hok.fetch (Or.inr (by rw [hs']; exact ⟨rfl, rfl, rfl⟩))
  have hentries :
    s'.tlb.entries = upd s.tlb.entries (Tlb.slot (lin >>> 12)) e := by rw [hs']
  refine ⟨?_, hfetch⟩
  rw [hentries]
  exact hold.replace hnew

end Walk

-- ======== translations

/-- The invariant, and what a translation needs besides: pointer entries
apart, and no implicit access under way. -/
structure Machine.Walkable (s : Machine β) : Prop where
  ok : s.TlbOk
  apart : s.PdpteApart
  explicit : s.supervisorOverride = false

/-- The tables are in memory and in three registers. -/
theorem Machine.mapping_of_bus {s s' : Machine β}
    (hreg : s'.regs.SameTables s.regs.toColdRegs)
    (hbus : s'.bus = s.bus) : s'.word = s.word ∧ s'.mapping = s.mapping := by
  obtain ⟨hcr3, hcr4, hefer⟩ := hreg
  have hwide : s'.wide = s.wide := by rw [Cpu.wide, Cpu.wide, hcr4]
  have hword : s'.word = s.word := by
    funext a
    rw [word, word, hwide, hbus]
  refine ⟨hword, ?_⟩
  funext lin
  rw [mapping, mapping, hwide, hword, hcr3, hcr4, hefer, Cpu.longMode,
    Cpu.longMode, hefer]

/-- What leaves memory and those registers alone keeps the tables. -/
theorem Machine.Keeps.of_bus {s t : Machine β}
    (hreg : t.regs.SameTables s.regs.toColdRegs)
    (hbus : t.bus = s.bus) : s.Keeps t :=
  .of_same hreg fun a _ => congrFun (Machine.mapping_of_bus hreg hbus).1 a

/-- A change that leaves the tables and the TLB alone. -/
theorem Machine.Walkable.of_fetch {s s' : Machine β} (h : s.Walkable)
    (hreg : s'.regs.SameTables s.regs.toColdRegs) (hbus : s'.bus = s.bus)
    (htlb : s'.tlb = s.tlb)
    (hfetch : s'.FetchVouched) (hsup : s'.supervisorOverride = false) :
    s'.Walkable where
  ok := by
    refine ⟨?_, hfetch⟩
    rw [htlb]
    exact h.ok.holds.mono fun _ _ => (Machine.Keeps.of_bus hreg hbus).vouches
  apart := by
    obtain ⟨hword, hmap⟩ := Machine.mapping_of_bus hreg hbus
    intro hw hl lin m hm a ha lin'
    rw [hmap] at hm
    rw [Cpu.wide, hreg.cr4] at hw
    rw [Cpu.longMode, hreg.efer] at hl
    rw [hreg.cr3]
    exact h.apart hw hl lin m hm a ha lin'
  explicit := hsup

theorem Machine.Walkable.of_bus {s s' : Machine β} (h : s.Walkable)
    (hreg : s'.regs.SameTables s.regs.toColdRegs) (hbus : s'.bus = s.bus)
    (htlb : s'.tlb = s.tlb)
    (hfetch : s.FetchKept s') (hsup : s'.supervisorOverride = false) :
    s'.Walkable :=
  h.of_fetch hreg hbus htlb
    ((Machine.Keeps.of_bus hreg hbus).fetchVouched h.ok.fetch hfetch) hsup

/-- The physical address of `lin` as the tables have it, for an access
they grant and have been marked for. -/
def Machine.Granted (s : Machine β) (lin : U64) (access : Access) (p : U64) : Prop :=
  ∃ m, s.mapping lin = some m ∧ p = m.frame ||| (lin &&& 0xFFF)
    ∧ s.PathMarked m (access == .write)
    ∧ s.walkPermits access m.user m.writable m.nx = true

/-- The TLB entry that would answer an access to `lin`. -/
def Machine.tlbHit (s : Machine β) (lin : U64) (access : Access) : Bool :=
  let e := s.tlb.entries (Tlb.slot (lin >>> 12))
  e.tag = lin >>> 12 && s.tlbPermits e access

/-- The address a TLB hit gives. -/
def Machine.tlbPhys (s : Machine β) (lin : U64) : U64 :=
  (s.tlb.entries (Tlb.slot (lin >>> 12))).phys ||| (lin &&& 0xFFF)

omit [Ram β] in
/-- A hit is answered without touching anything. -/
theorem run_translate_hit {s : Machine β} {lin : U64} {access : Access}
    (h : s.tlbHit lin access = true) :
    ∃ q, (translate lin access).run s = (.ok q, s)
      ∧ q.val = s.tlbPhys lin := by
  unfold translate
  dsimp only [Machine.tlbHit] at h
  rw [Bounded.run_bind, Fallible.bind_of_ok (run_self s)]
  dsimp only
  rw [if_pos h]
  exact ⟨_, rfl, rfl⟩

omit [Ram β] in
/-- A miss walks the tables. -/
theorem run_translate_miss {s : Machine β} {lin : U64} {access : Access}
    (h : s.tlbHit lin access = false) :
    (translate lin access).run s = (walk lin access).run s := by
  unfold translate
  dsimp only [Machine.tlbHit] at h
  rw [Bounded.run_bind, Fallible.bind_of_ok (run_self s)]
  dsimp only
  rw [if_neg (by rw [h]; decide)]

/-- A translation is as explicit afterwards as before. -/
theorem override_translate (s : Machine β) (lin : U64) (access : Access) :
    ((translate lin access).run s).2.supervisorOverride
      = s.supervisorOverride := by
  cases hhit : s.tlbHit lin access with
  | true =>
    obtain ⟨q, hrun, -⟩ := run_translate_hit hhit
    rw [hrun]
  | false =>
    rw [run_translate_miss hhit]
    have hrun := run_walk lin access s
    rcases hw : (walk lin access).run s with ⟨e | q, s'⟩ <;> rw [hw] at hrun
    · obtain ⟨rfl, -⟩ := hrun
      rfl
    · obtain ⟨m, -, -, -, hwalked⟩ := hrun
      obtain ⟨ic, e, rfl, -⟩ := hwalked.state
      rfl

/-- An entry that permits an access has everything the walk would check. -/
theorem granted_of_permits {s : Machine β} {lin : U64}
    {access : Access} {e : TlbEntry}
    (hv : s.Vouches (lin >>> 12) e) (hp : s.tlbPermits e access = true) :
    s.Granted lin access (e.phys ||| (lin &&& 0xFFF)) := by
  obtain ⟨m, hm, hshows, hmarked⟩ := hv lin rfl
  refine ⟨m, hm, by rw [hshows.phys],
    ⟨hmarked.accessed, fun hw => hmarked.dirty ?_⟩, ?_⟩
  · cases access with
    | read => cases hw
    | fetch => cases hw
    | write => exact (Bool.and_eq_true_iff.1 hp).2
  · rw [← hshows.user, ← hshows.writable, ← hshows.nx]
    cases access with
    | read => exact hp
    | fetch => exact hp
    | write => exact (Bool.and_eq_true_iff.1 hp).1

/-- Every hit is granted. -/
theorem Machine.TlbOk.granted {s : Machine β} (hok : s.TlbOk)
    {lin : U64} {access : Access}
    (h : s.tlbHit lin access = true) :
    s.Granted lin access (s.tlbPhys lin) := by
  obtain ⟨htag, hperm⟩ := Bool.and_eq_true_iff.1 h
  refine granted_of_permits
    (hok.holds _ _ (Lookaside.look_eq_some.2 ⟨?_, rfl⟩)) hperm
  exact of_decide_eq_true htag

/-- Where an access is granted a walk gives the same address, and it
writes nothing. -/
theorem Machine.Granted.run_walk {s : Machine β} {lin : U64}
    {access : Access} {p : U64} (h : s.Granted lin access p) :
    ∃ q s', (walk lin access).run s = (.ok q, s') ∧ q.val = p
      ∧ s'.bus = s.bus := by
  obtain ⟨m, hm, hp, hmarked, hperm⟩ := h
  have hrun := X64.run_walk lin access s
  rcases hw : (walk lin access).run s with ⟨e | q, s'⟩ <;> rw [hw] at hrun
  · exact absurd (hrun.2 m hm) (by rw [hperm]; decide)
  · obtain ⟨m', hm', -, hq, hwalked⟩ := hrun
    rw [hm] at hm'
    cases hm'
    obtain ⟨ic, e, rfl, -⟩ := hwalked.state
    refine ⟨q, _, rfl, hq.trans hp.symm, ?_⟩
    exact EntryMemory.markPath_of_marked hmarked.accessed hmarked.dirty

/-- What a translation leaves behind, and what it returned. -/
theorem Machine.Walkable.translate {s : Machine β} (h : s.Walkable)
    (lin : U64) (access : Access) :
    ((X64.translate lin access).run s).2.Walkable
      ∧ ∀ q, ((X64.translate lin access).run s).1 = .ok q →
        ((X64.translate lin access).run s).2.Granted lin access q.val := by
  cases hhit : s.tlbHit lin access with
  | true =>
    obtain ⟨q, hrun, hq⟩ := run_translate_hit hhit
    rw [hrun]
    refine ⟨h, ?_⟩
    intro q' hq'
    cases hq'
    rw [hq]
    exact h.ok.granted hhit
  | false =>
    rw [run_translate_miss hhit]
    have hrun := X64.run_walk lin access s
    rcases hw : (walk lin access).run s with ⟨e | q, s'⟩ <;> rw [hw] at hrun
    · obtain ⟨rfl, -⟩ := hrun
      refine ⟨h.of_bus ⟨rfl, rfl, rfl⟩ rfl rfl (Or.inr ⟨rfl, rfl, rfl⟩)
        h.explicit, ?_⟩
      intro q hq
      cases hq
    · obtain ⟨m, hm, hperm, hq, hwalked⟩ := hrun
      have hmarked := hwalked.pathMarked hm
      have hmap := hwalked.mapping_eq hm h.apart lin
      have hok := hwalked.tlbOk hm h.apart h.ok
      have hapart := hwalked.pdpteApart hm h.apart
      obtain ⟨ic, e, rfl, -⟩ := hwalked.state
      refine ⟨⟨hok, hapart, h.explicit⟩, ?_⟩
      intro q' hq'
      cases hq'
      exact ⟨m, hmap.trans hm, hq, hmarked, hperm⟩

-- ======== calm computations

/-- A computation that keeps the caches sound. -/
def Soundly {α : Type} (x : Calm β α) : Prop :=
  ∀ s, s.Walkable → (x.run s).2.Walkable

namespace Soundly

variable {α γ : Type}

/-- The closure rules; fetch, load and check are put together by them. -/
theorem pure (a : α) : Soundly (Pure.pure a : Calm β α) := fun _ h => h

/-- What goes by the state is sound if it is so at every state. -/
theorem self {f : Machine β → Calm β α} (hf : ∀ s, Soundly (f s)) :
    Soundly (self >>= f) :=
  fun s h => hf s s h

/-- A sequence is sound where its parts are. -/
theorem bind {x : Calm β α} {f : α → Calm β γ} (hx : Soundly x)
    (hf : ∀ a, Soundly (f a)) :
    Soundly (x >>= f) := by
  intro s h
  have hs := hx s h
  rw [Bounded.run_bind, Fallible.bind_apply]
  rcases hr : x.run s with ⟨e | a, s'⟩ <;> rw [hr] at hs
  · exact hs
  · exact hf a s' hs

theorem raiseIf (c : Prop) [Decidable c] (e : Exception) :
    Soundly (raiseIf c e : Calm β Unit) := by
  intro s h
  rw [run_raiseIf]
  split <;> exact h

theorem check (r : Except Exception α) : Soundly (check r : Calm β α) := by
  intro s h
  rw [run_check]
  exact h

theorem modifyDecode {g : DecodeState → DecodeState}
    (hg : ∀ d, (g d).supervisorOverride
      = d.supervisorOverride := by intro d; rfl) :
    Soundly (modifyDecode g : Calm β Unit) := by
  intro s h
  exact h.of_bus ⟨rfl, rfl, rfl⟩ rfl rfl (Or.inr ⟨rfl, rfl, rfl⟩)
    ((hg _).trans h.explicit)

theorem setRip (g : U64 → U64) :
    Soundly (modifyHot fun r => { r with rip := g r.rip } : Calm β Unit) := by
  intro s h
  exact h.of_bus ⟨rfl, rfl, rfl⟩ rfl rfl (Or.inr ⟨rfl, rfl, rfl⟩) h.explicit

/-- A read of memory. -/
theorem touchBus {f : β → α × β} {hf : ∀ b, BusTouch b (f b).2}
    (hb : ∀ b, (f b).2 = b) :
    Soundly (touchBus f hf) := by
  intro s h
  exact h.of_bus ⟨rfl, rfl, rfl⟩ (hb s.bus) rfl (Or.inr ⟨rfl, rfl, rfl⟩)
    h.explicit

theorem busRead (a : U64) : Soundly (busRead a : Calm β U8) :=
  touchBus fun b => by rw [Ram.read_eq]

theorem translate (lin : U64) (access : Access) :
    Soundly (translate lin access : Calm β _) :=
  fun _ h => (h.translate lin access).1

/-- Loads are translations and reads of the bus. -/
theorem linRead8 (lin : U64) : Soundly (linRead8 lin : Calm β U8) := by
  refine self fun s => ?_
  split
  · exact busRead lin
  · exact (translate lin .read).bind fun p => busRead p.val

/-- Remembering a page that a fetch has just been granted. -/
theorem fetchFill_walkable {s : Machine β} (h : s.Walkable) {lin p : U64}
    (hp : s.Granted lin .fetch p)
    (hframed : (p &&& ~~~0xFFF) &&& ~~~PHYS_MASK = 0) :
    ∃ s', (fetchFill (lin >>> 12) (p &&& ~~~0xFFF) hframed).run
      s = (.ok (), s')
      ∧ s'.Walkable := by
  unfold fetchFill
  dsimp only
  split
  case isFalse => exact ⟨s, rfl, h⟩
  case isTrue =>
  refine ⟨_, rfl, h.of_fetch ⟨rfl, rfl, rfl⟩ rfl rfl ?_ h.explicit⟩
  intro lin' hlin'
  obtain ⟨m, hm, rfl, hmarked, hperm⟩ := hp
  obtain ⟨hprot, hnx⟩ := Bool.and_eq_true_iff.1 hperm
  refine ⟨m, (s.mapping_page hlin').trans hm, ?_, ⟨hmarked.accessed, nofun⟩,
    ?_, by simpa using hnx⟩
  · have hoff : lin &&& 0xFFF &&& ~~~0xFFF = 0 := by
      rw [BitVec.and_assoc, BitVec.and_not_self]
      exact BitVec.and_zero
    show (m.frame ||| (lin &&& 0xFFF)) &&& ~~~0xFFF = m.frame
    rw [BitVec.and_or_distrib_right, hoff,
      and_not_of_and_eq_zero (Machine.mapping_frame hm)]
    exact BitVec.or_zero
  · intro hcpl
    have huser : s.userAccess = true := by
      rw [Cpu.userAccess, h.explicit, show s.cpl = 3 from hcpl]
      rfl
    rw [huser] at hprot
    exact hprot

/-- A fetch from a page that is not the cached one remembers a page the
current privilege may execute. -/
theorem fetchMiss (lin : U64) : Soundly (fetchMiss lin : Calm β U8) := by
  intro s h
  obtain ⟨hwalk, hgrant⟩ := h.translate lin .fetch
  unfold X64.fetchMiss fetchTranslate
  rw [Bounded.run_bind, Fallible.bind_apply]
  rcases hr : (X64.translate lin .fetch).run s with ⟨e | q, s'⟩
    <;> rw [hr] at hwalk hgrant
  · exact hwalk
  obtain ⟨s'', hfill, hs''⟩ :=
    fetchFill_walkable hwalk (hgrant q rfl) (page_framed q.low)
  dsimp only
  rw [Bounded.run_bind, Fallible.bind_of_ok hfill]
  exact busRead q.val s'' hs''

theorem fetch8 : Soundly (fetch8 : Calm β U8) := by
  have hilen :
    Soundly (X64.modifyDecode fun d =>
    { d with ilen := d.ilen + 1 } : Calm β Unit) :=
    modifyDecode
  refine self fun s => (raiseIf _ _).bind fun _ =>
    hilen.bind fun _ => self fun s₁ =>
    (raiseIf _ _).bind fun _ => bind ?_ fun _ => (setRip (· + 1)).bind
      fun _ => .pure _
  refine self fun s => ?_
  split
  · exact busRead _
  split
  · exact busRead _
  · exact fetchMiss _

theorem busRead16 (a : U64) : Soundly (busRead16 a : Calm β U16) :=
  touchBus fun b => by rw [Ram.read16_eq]

theorem linRead16 (lin : U64) : Soundly (linRead16 lin : Calm β U16) := by
  refine self fun s => ?_
  split
  · exact busRead16 lin
  split
  · exact (translate lin .read).bind fun p => busRead16 p.val
  · exact (linRead8 lin).bind fun _ => (linRead8 (lin + 1)).bind
      fun _ => .pure _

theorem readOp16 (op : Operand) : Soundly (readOp16 op : Calm β U16) := by
  cases op with
  | reg i => exact self fun _ => .pure _
  | mem seg off =>
    exact (self fun _ => check _).bind fun lin => linRead16 lin

theorem requireRing0 : Soundly (requireRing0 : Calm β Unit) :=
  self fun _ => raiseIf _ _

theorem modrmRegOnly : Soundly (modrmRegOnly : Calm β ModRm) :=
  fetch8.bind fun _ => self fun _ => .pure _

end Soundly

-- ======== control instructions

/-- An instruction that ends with sound caches, done or faulted. -/
def LeavesSound {α : Type} (x : Cold β α) : Prop :=
  ∀ s, s.Walkable → (x.run s).2.TlbOk

namespace LeavesSound

variable {α γ : Type}

theorem self {f : Machine β → Cold β α} (hf : ∀ s, LeavesSound (f s)) :
    LeavesSound (self >>= f) :=
  fun s h => hf s s h

/-- Sound code first. -/
theorem bind {x : Calm β α} {f : α → Cold β γ} (hx : Soundly x)
    (hf : ∀ a, LeavesSound (f a)) :
    LeavesSound (x.lift >>= f) := by
  intro s h
  have hs := hx s h
  rw [Bounded.run_bind, Bounded.run_lift, Fallible.bind_apply]
  rcases hr : x.run s with ⟨e | a, s'⟩ <;> rw [hr] at hs
  · exact hs.ok
  · exact hf a s' hs

omit [Bus β] [Ram β] in
/-- The save before a cold write leaves TLB and memory alone. -/
theorem tlb_prepared (s : Machine β) : s.prepared.tlb = s.tlb := by
  unfold Machine.prepared
  split <;> rfl

omit [Bus β] [Ram β] in
theorem bus_prepared (s : Machine β) : s.prepared.bus = s.bus := by
  unfold Machine.prepared
  split <;> rfl

/-- The capture before a register write, and a write elsewhere behind it. -/
theorem tlbOk_prepared {s : Machine β} (h : s.Walkable) {r : Registers}
    (hr : r.SameTables s.regs.toColdRegs) :
    Machine.TlbOk { s.prepared with regs := r } :=
  (Machine.Keeps.of_bus (t := { s.prepared with regs := r }) hr
    (bus_prepared s)).tlbOk h.ok
    (tlb_prepared s) (Or.inl s.fetchTag_prepared)

/-- A checked register update. Where it moves the tables, what follows it
flushes. -/
theorem mode {g : Registers → Except Exception Registers} {hmode : KeepsMode g}
    {f : Unit → Cold β α}
    (hf : ∀ s r, Machine.Walkable s → g s.regs = .ok r →
      ((f ()).run { s.prepared with regs := r }).2.TlbOk) :
    LeavesSound (modeWrite g hmode >>= f) := by
  intro s h
  rw [Bounded.run_bind, Fallible.bind_apply, run_modeWrite]
  cases hr : g s.regs with
  | error e =>
    have hok := tlbOk_prepared h (r := s.prepared.regs)
      (by rw [s.regs_prepared]; exact ⟨rfl, rfl, rfl⟩)
    exact hok
  | ok r => exact hf s r h hr

end LeavesSound

/-- After a flush nothing is cached. -/
theorem tlbOk_flushTlb (s : Machine β) :
    ((flushTlb : Calm β Unit).run s).2.TlbOk :=
  .of_flushed (fun _ => rfl) rfl

/-- The control instructions. Those that may change what the tables mean
flush. -/
theorem leavesSound_clts : LeavesSound (clts : Cold β U32) := by
  refine .bind .requireRing0 fun _ => .mode fun s r h hr => ?_
  cases hr
  exact LeavesSound.tlbOk_prepared h ⟨rfl, rfl, rfl⟩

theorem leavesSound_lmsw (op : Operand) : LeavesSound (lmsw op : Cold β U32) :=
  .bind .requireRing0 fun _ => .bind (.readOp16 op) fun _ =>
    .mode fun _ _ _ _ => tlbOk_flushTlb _

/-- A checked register update that leaves the table registers alone. -/
def KeepsTables (g : Registers → Except Exception Registers) : Prop :=
  ∀ r r', g r = .ok r' → r'.SameTables r.toColdRegs

namespace KeepsTables

theorem ite {c : Prop} [Decidable c]
    {f g : Registers → Except Exception Registers}
    (hf : KeepsTables f) (hg : KeepsTables g) :
    KeepsTables fun r => if c then f r else g r := by
  by_cases hc : c
  · simpa only [if_pos hc] using hf
  · simpa only [if_neg hc] using hg

/-- A write that is refused keeps the tables. -/
theorem error (e : Exception) : KeepsTables fun _ => .error e := by
  intro r r' h
  cases h

theorem ok {g : Registers → Registers}
    (hg : ∀ r, (g r).SameTables
      r.toColdRegs := by intro r; exact ⟨rfl, rfl, rfl⟩) :
    KeepsTables fun r => .ok (g r) := by
  intro r r' h
  cases h
  exact hg r

end KeepsTables

/-- MOV to a control register that selects no tables. -/
theorem Registers.keepsTables_writeCr {n : U8} (v : U64)
    (hn : ¬(n = 0 ∨ n = 3 ∨ n = 4)) :
    KeepsTables (writeCr n v) := by
  simp only [not_or] at hn
  unfold writeCr
  simp only [if_neg hn.1, if_neg hn.2.1, if_neg hn.2.2]
  exact .ite .ok (.ite (.ite (.error _) .ok) (.error _))

theorem leavesSound_movCrR : LeavesSound (movCrR : Cold β U32) := by
  refine .bind .requireRing0 fun _ =>
    .bind .modrmRegOnly fun m => .self fun s => ?_
  unfold writeCr
  rw [bind_assoc]
  refine .mode fun t r h hr => ?_
  by_cases hn : m.reg = 0 ∨ m.reg = 3 ∨ m.reg = 4
  · rw [whenever, if_pos hn]
    exact tlbOk_flushTlb _
  · rw [whenever, if_neg hn]
    exact LeavesSound.tlbOk_prepared h
      (Registers.keepsTables_writeCr _ hn _ _ hr)

/-- WRMSR to anything but EFER. -/
theorem Registers.keepsTables_wrmsr {index : U32} (v : U64)
    (hi : index ≠ Msr.EFER) :
    KeepsTables (wrmsr index v) := by
  unfold wrmsr
  simp only [if_neg hi]
  repeat' with_reducible apply KeepsTables.ite
  all_goals first
    | exact .error _
    | exact .ok

theorem leavesSound_wrmsrArm : LeavesSound (wrmsrArm : Cold β U32) := by
  refine .bind .requireRing0 fun _ => .self fun s => ?_
  dsimp only
  split
  · refine .mode fun t r h hr => ?_
    cases hr
    have hcycles : ∀ n : U64,
      Machine.TlbOk { t.prepared with regs := t.regs, cycles := n } :=
      fun n => (Machine.Keeps.of_bus (s := t)
        (t := { t.prepared with regs := t.regs, cycles := n })
        ⟨rfl, rfl, rfl⟩ (LeavesSound.bus_prepared t)).tlbOk h.ok
          (LeavesSound.tlb_prepared t)
        (Or.inl t.fetchTag_prepared)
    exact hcycles _
  · refine .mode fun t r h hr => ?_
    by_cases hi : s.regs.reg32 reg.RCX = Msr.EFER
    · rw [whenever, if_pos hi]
      exact tlbOk_flushTlb _
    · rw [whenever, if_neg hi]
      exact LeavesSound.tlbOk_prepared h
        (Registers.keepsTables_wrmsr _ hi _ _ hr)

/-- No control instruction leaves the TLB wrong. -/
theorem ControlInsn.leavesSound (i : ControlInsn) :
    LeavesSound (i.exec : Cold β U32) := by
  cases i with
  | movCr => exact leavesSound_movCrR
  | lmsw op => exact leavesSound_lmsw op
  | clts => exact leavesSound_clts
  | wrmsr => exact leavesSound_wrmsrArm

-- ======== runs

/-- One event of a run: a translation, an instruction fetch, a flush, a
control-register instruction, or anything else that leaves the table
registers and the tables behind the mappings alone and drops the cached
fetch translation when it changes the privilege. -/
inductive TlbStep : Machine β → Machine β → Prop
  | translate (s : Machine β) (lin : U64) (access : Access)
      (h : s.PdpteApart) :
      TlbStep s ((translate lin access).run s).2
  | fetch (s : Machine β) (h : s.PdpteApart)
      (hexp : s.supervisorOverride = false) :
      TlbStep s (fetch8.run s).2
  | flush (s : Machine β) : TlbStep s (flushTlb.run s).2
  | invlpg (s : Machine β) (lin : U64) : TlbStep s ((invlpg lin).run s).2
  | control (i : ControlInsn) (s : Machine β) (h : s.PdpteApart)
      (hexp : s.supervisorOverride = false) : TlbStep s (i.exec.run s).2
  | other (s s' : Machine β) (htlb : s'.tlb = s.tlb)
      (hreg : s'.regs.SameTables s.regs.toColdRegs)
      (hent : ∀ a, s.TableEntry a → s'.word a = s.word a)
      (hfetch : s.FetchKept s') : TlbStep s s'

/-- A translation keeps the invariant, implicit ones too. -/
theorem Machine.TlbOk.translate {s : Machine β} (hok : s.TlbOk)
    (h : s.PdpteApart) (lin : U64)
    (access : Access) : ((X64.translate lin access).run s).2.TlbOk := by
  cases hhit : s.tlbHit lin access with
  | true =>
    obtain ⟨q, hrun, -⟩ := run_translate_hit hhit
    rw [hrun]
    exact hok
  | false =>
    rw [run_translate_miss hhit]
    have hrun := run_walk lin access s
    rcases hw : (walk lin access).run s with ⟨e | q, s'⟩ <;> rw [hw] at hrun
    · obtain ⟨rfl, -⟩ := hrun
      exact (Machine.Keeps.of_bus (s := s) (t := s.faulted lin) ⟨rfl, rfl, rfl⟩
        rfl).tlbOk hok rfl
        (Or.inr ⟨rfl, rfl, rfl⟩)
    · obtain ⟨m, hm, -, -, hwalked⟩ := hrun
      exact hwalked.tlbOk hm h hok

/-- INVLPG empties one slot, if it holds the page. -/
theorem Tlb.invalidate_cases (t : Tlb) (lin : U64) : t.invalidate lin = t
    ∨ ∃ i e, e.tag = EMPTY ∧ t.invalidate lin = ⟨upd t.entries i e⟩ := by
  by_cases h : (t.entries (slot (lin >>> 12))).tag = lin >>> 12
  · exact Or.inr ⟨_, _, rfl, if_pos h⟩
  · exact Or.inl (if_neg h)

/-- An invalidated slot is as good as empty. -/
theorem Machine.TlbOk.invlpg {s : Machine β} (hok : s.TlbOk) (lin : U64) :
    ((X64.invlpg lin).run s).2.TlbOk := by
  have hkeeps : s.Keeps ((X64.invlpg lin).run s).2 :=
    .of_bus ⟨rfl, rfl, rfl⟩ rfl
  have hold : Lookaside.Holds Tlb.slot TlbEntry.tag s.tlb.entries
      ((X64.invlpg lin).run s).2.Vouches :=
        hok.holds.mono fun _ _ => hkeeps.vouches
  refine ⟨?_, hkeeps.fetchVouched hok.fetch (Or.inl rfl)⟩
  have htlb : ((X64.invlpg lin).run s).2.tlb = s.tlb.invalidate lin := rfl
  rcases s.tlb.invalidate_cases lin with hsame | ⟨i, e, htag, hinv⟩
  · rw [htlb, hsame]
    exact hold
  · rw [htlb, hinv]
    exact hold.replace (htag ▸ Machine.vouches_empty _ _)

/-- One step of a run. -/
theorem TlbStep.tlbOk {s s' : Machine β} (h : TlbStep s s') (hok : s.TlbOk) :
    s'.TlbOk := by
  cases h with
  | translate _ lin access h => exact hok.translate h lin access
  | fetch _ h hexp => exact (Soundly.fetch8 s ⟨hok, h, hexp⟩).ok
  | flush => exact tlbOk_flushTlb s
  | invlpg _ lin => exact hok.invlpg lin
  | control i _ h hexp => exact i.leavesSound s ⟨hok, h, hexp⟩
  | other _ _ htlb hreg hent hfetch =>
    exact (Machine.Keeps.of_same hreg hent).tlbOk hok htlb hfetch

/-- A page that was granted to a fetch under this privilege still is. -/
theorem Machine.TlbOk.fetchGranted {s : Machine β} (hok : s.TlbOk) {lin : U64}
    (h : lin >>> 12 = s.fetchTag) :
    s.Granted lin .fetch (s.fetchPage ||| (lin &&& 0xFFF)) := by
  obtain ⟨m, hm, hframe, hmarked, huser, hnx⟩ := hok.fetch lin h
  refine ⟨m, hm, by rw [hframe], ⟨hmarked.accessed, nofun⟩, ?_⟩
  have hprot : (!s.userAccess || m.user) = true := by
    cases hu : s.userAccess with
    | false => rfl
    | true => exact huser (beq_iff_eq.1 (Bool.and_eq_true_iff.1 hu).1)
  rw [Cpu.walkPermits, hnx]
  exact Bool.and_eq_true_iff.2 ⟨hprot, rfl⟩

/-- An access the TLB answers changes nothing and gets the address a full
walk gives in the same state; the walk grants it and has no bit to write.
The same goes for the cached fetch translation. -/
structure Machine.TlbFaithful (s : Machine β) : Prop where
  hit : ∀ lin access, s.tlbHit lin access = true →
    (∃ q, (translate lin access).run s = (.ok q, s) ∧ q.val = s.tlbPhys lin)
      ∧ ∃ q s', (walk lin access).run s = (.ok q, s') ∧ q.val = s.tlbPhys lin
      ∧ s'.bus = s.bus
  fetch : ∀ lin : U64, lin >>> 12 = s.fetchTag →
    ∃ q s', (walk lin .fetch).run s = (.ok q, s')
      ∧ q.val = s.fetchPage ||| (lin &&& 0xFFF) ∧ s'.bus = s.bus

/-- A hit answers what the walk would. -/
theorem Machine.TlbOk.faithful {s : Machine β} (hok : s.TlbOk) :
    s.TlbFaithful where
  hit _ _ h := ⟨run_translate_hit h, (hok.granted h).run_walk⟩
  fetch _ h := (hok.fetchGranted h).run_walk

/-- The invariant holds over any run from a flushed cache. -/
theorem tlbOk_run {s₀ s : Machine β}
    (h : Relation.ReflTransGen TlbStep s₀.invalidateTlb s) :
    s.TlbOk := by
  induction h with
  | refl => exact .of_flushed (fun _ => rfl) rfl
  | tail _ hstep ih => exact hstep.tlbOk ih

end Remu.X64
