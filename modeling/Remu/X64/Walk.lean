/-
What a page walk does.

On a RAM bus a walk is its mapping: it fails where there is none or where
the mapping does not grant the access, and then it has changed CR2 only;
otherwise it marks the entries of the path and fills one TLB slot
(`run_walk`). Marking is described on its own (`markPath`): every entry
keeps its value outside the marks, the marks only grow, the whole path
ends accessed and after a write the leaf ends dirty, and a path that is
already marked is left alone.
-/
import Remu.Lib.Marking
import Remu.X64.Tables

namespace Remu.X64

open Word ByteRam

variable {β : Type} [ByteRam 64 β]

-- ======== entries

/-- The value of the table entry at `a`: 64 bits wide, or 32. -/
def tableWord (wide : Bool) (b : β) (a : U64) : U64 :=
  if wide then get64 b a else (get32 b a).setWidth 64

/-- Write a table entry back. -/
def putEntry (wide : Bool) (b : β) (a v : U64) : β :=
  if wide then put64 b a v else put32 b a (v.setWidth 32)

/-- An address entries of the format have. -/
def EntryAligned (wide : Bool) (a : U64) : Prop :=
  a.toNat % (if wide then 8 else 4) = 0

/-- A value that fits an entry of the format. -/
def EntryFits (wide : Bool) (v : U64) : Prop :=
  wide = false → (v.setWidth 32).setWidth 64 = v

/-- An entry read from memory fits its width. -/
theorem EntryFits.tableWord (wide : Bool) (b : β) (a : U64) :
    EntryFits wide (tableWord wide b a) := by
  rintro rfl
  simp only [X64.tableWord, Bool.false_eq_true, if_false]
  apply BitVec.eq_of_toNat_eq
  have := (get32 b a).isLt
  simp only [BitVec.toNat_setWidth]
  omega

/-- Marks keep it within its width. -/
theorem EntryFits.marked {wide : Bool} {v : U64}
    (h : EntryFits wide v) (k : U64) :
    EntryFits wide (v ||| (k &&& pte.MARKS)) := by
  intro hw
  have hk : (((k &&& pte.MARKS).setWidth 32).setWidth 64 : U64)
    = k &&& pte.MARKS := by
    apply BitVec.eq_of_toNat_eq
    have hle : (k &&& pte.MARKS).toNat ≤ pte.MARKS.toNat := by
      rw [BitVec.toNat_and]
      exact Nat.and_le_right
    have hm : pte.MARKS.toNat = 0x60 := rfl
    simp only [BitVec.toNat_setWidth]
    omega
  rw [BitVec.setWidth_or, BitVec.setWidth_or, h hw, hk]

/-- A store to one entry is seen at that cell and at no other. -/
theorem tableWord_put {wide : Bool} (b : β) {x y v : U64}
    (hx : EntryAligned wide x)
    (hy : EntryAligned wide y) (hv : EntryFits wide v) :
    tableWord wide (putEntry wide b x v) y
      = if cell β y = cell β x then v else tableWord wide b y := by
  cases wide with
  | true => exact get64_put64 b hx hy v
  | false =>
    simp only [tableWord, putEntry, Bool.false_eq_true, if_false]
    rw [get32_put32 b hx hy]
    split
    · exact hv rfl
    · rfl

/-- Two addresses of one cell read the same entry. -/
theorem tableWord_alias (wide : Bool) (b : β) {x y : U64}
    (h : cell β x = cell β y) : tableWord wide b x = tableWord wide b y := by
  cases wide with
  | true => exact get64_alias b h
  | false =>
    simp only [tableWord, Bool.false_eq_true, if_false]
    rw [get32_alias b h]

-- ======== marking

/-- The marks of a page table entry: accessed and dirty. -/
def pteMarks : Marks 64 where
  accessed := pte.A
  dirty := pte.D
  accessed_ne := by decide
  dirty_ne := by decide
  accessed_absorb _ h := or_eq_self_of_bit (k := 5) h
  dirty_absorb _ h := or_eq_self_of_bit (k := 6) h

/-- The table entries of a format in memory. -/
abbrev tableEntries (wide : Bool) : EntryMemory β U64 64 where
  get := tableWord wide
  put := putEntry wide
  Aligned := EntryAligned wide
  Fits := EntryFits wide
  Same y x := cell β y = cell β x
  same_refl _ := rfl
  get_same b _ _ h := tableWord_alias wide b h
  fits_get := EntryFits.tableWord wide
  get_put_same b _ _ _ hx hy hv h :=
    (tableWord_put b hx hy hv).trans (if_pos h)
  get_put_other b _ _ _ hx hy hv h :=
    (tableWord_put b hx hy hv).trans (if_neg h)

/-- An entry after its accessed update, and its dirty update if `d`. -/
abbrev markEntry (v : U64) (d : Bool) : U64 := pteMarks.mark v d

/-- Accessed on every entry of the path, dirty on the last for writes. -/
abbrev markPath (wide write : Bool) (rd : U64 → U64)
    (path : List U64) (b : β) : β :=
  (tableEntries wide).markPath pteMarks write rd path b

/-- Marking an entry keeps it within its width. -/
theorem EntryFits.mark {wide : Bool} (v : U64) (d : Bool)
    (h : EntryFits wide v) :
    EntryFits wide (markEntry v d) := by
  obtain ⟨k, hk⟩ := pteMarks.mark_eq v d
  rw [markEntry, hk]
  exact h.marked k

-- ======== running a walk

/-- PAE or long-mode tables. -/
def Cpu.wide (c : Cpu) : Bool := c.regs.cr4 &&& cr4.PAE != 0

section Run

variable {β : Type} [Bus β] [Ram β]

/-- The entry at `a` of the tables in the format of the mode. -/
def Machine.word (s : Machine β) (a : U64) : U64 := tableWord s.wide s.bus a

/-- What the page tables say about `lin`. -/
def Machine.mapping (s : Machine β) (lin : U64) : Option Mapping :=
  if s.wide then
    wideMapping s.word s.regs.cr3 s.longMode
      (s.regs.msr.efer &&& efer.NXE != 0) lin
  else legacyMapping s.word s.regs.cr3 (s.regs.cr4 &&& cr4.PSE != 0) lin

/-- A mapping depends on the page alone. -/
theorem Machine.mapping_page (s : Machine β) {lin lin' : U64}
    (h : lin >>> 12 = lin' >>> 12) :
    s.mapping lin = s.mapping lin' := by
  unfold mapping
  rw [wideMapping_page h, legacyMapping_page h]

/-- The entries on a path are aligned. -/
theorem Machine.mapping_aligned {s : Machine β} {lin : U64} {m : Mapping}
    (hm : s.mapping lin = some m) : ∀ a ∈ m.path, EntryAligned s.wide a := by
  unfold mapping at hm
  unfold EntryAligned
  split at hm
  case isTrue hw =>
    rw [if_pos hw]
    exact wideMapping_aligned hm
  case isFalse hw =>
    rw [if_neg hw]
    exact legacyMapping_aligned hm

/-- A mapped frame starts on a page boundary. -/
theorem Machine.mapping_frame {s : Machine β} {lin : U64} {m : Mapping}
    (hm : s.mapping lin = some m) : m.frame &&& 0xFFF = 0 := by
  unfold mapping at hm
  split at hm
  · exact wideMapping_frame hm
  · exact legacyMapping_frame hm

/-- After a page fault: CR2 holds the address. -/
def Machine.faulted (s : Machine β) (lin : U64) : Machine β :=
  s.withHot { s.regs.toHotRegs with cr2 := lin }

/-- A TLB entry for the page of `lin` that says what `m` says. -/
structure TlbEntry.Shows (e : TlbEntry) (m : Mapping) : Prop where
  phys : e.phys = m.frame
  user : e.user = m.user
  writable : e.writable = m.writable
  nx : e.nx = m.nx

/-- After a successful walk: the path is marked and one slot filled. -/
structure Machine.Walked (s : Machine β) (lin : U64)
    (write : Bool) (m : Mapping) (s' : Machine β) : Prop where
  state : ∃ ic e, s' = { s with
      icache := ic
      bus := markPath s.wide write s.word m.path s.bus
      tlb := ⟨upd s.tlb.entries (Tlb.slot (lin >>> 12)) e⟩ }
    ∧ e.tag = lin >>> 12 ∧ e.Shows m
    ∧ (e.dirty = true → write = true ∨
        ∀ a, m.path.getLast? = some a → s.word a &&& pte.D ≠ 0)

theorem run_ramRead32 (a : U64) (s : Machine β) :
    (busRead32 a).run s = (.ok (get32 s.bus a), s) := by
  unfold busRead32 touchBus
  simp only [Ram.read32_eq]

theorem run_ramRead64 (a : U64) (s : Machine β) :
    (busRead64 a).run s = (.ok (get64 s.bus a), s) := by
  unfold busRead64 touchBus
  simp only [Ram.read64_eq]

omit [Ram β] in
/-- A check either faults, with CR2 written, or does nothing. -/
theorem run_faultIf (c : Prop) [Decidable c] (lin : U64) (access : Access)
    (present rsvd : Bool) (s : Machine β) :
    (faultIf c lin access present rsvd).run s
      = if c then (.error
        (Exception.pf ((s.faulted lin).pfCode access present rsvd)),
        s.faulted lin)
        else (.ok (), s) := by
  unfold faultIf
  split <;> rfl

omit [Ram β] in
/-- A fault check in front of a continuation. -/
theorem run_faultIf_bind {α : Type} (c : Prop) [Decidable c]
    (lin : U64) (access : Access)
    (present rsvd : Bool) (f : Unit → Calm β α) (s : Machine β) :
    (faultIf c lin access present rsvd >>= f).run s
      = if c then (.error
        (Exception.pf ((s.faulted lin).pfCode access present rsvd)),
        s.faulted lin)
        else (f ()).run s := by
  rw [Bounded.run_bind, Fallible.bind_apply, run_faultIf]
  by_cases hc : c
  · rw [if_pos hc, if_pos hc]
  · rw [if_neg hc, if_neg hc]

/-- The outcome of a descent: a fault, or the entries it went through and
the frame it reached, and nothing changed. -/
def Descended (lin : U64) (acc : List PteRef) (s : Machine β) :
    Option (List U64 × U64) →
      Except Exception (WideWalk lin) × Machine β → Prop
  | none, x => ∃ e, x = (.error e, s.faulted lin)
  | some r, x => ∃ w refs, x = (.ok w, s) ∧ w.levels = acc ++ refs
      ∧ refs.map PteRef.addr = r.1 ∧ (∀ y ∈ refs, y.val = get64 s.bus y.addr)
      ∧ w.frame.1 = r.2

/-- One more entry above a descent. -/
theorem Descended.cons {lin : U64} {acc : List PteRef} {s : Machine β}
    {o : Option (List U64 × U64)}
    {x : Except Exception (WideWalk lin) × Machine β} {p : PteRef}
    (hp : p.val = get64 s.bus p.addr) (h : Descended lin (acc ++ [p]) s o x) :
    Descended lin acc s (o.map fun r => (p.addr :: r.1, r.2)) x := by
  cases o with
  | none => exact h
  | some r =>
    obtain ⟨w, refs, hx, hlevels, haddr, hval, hframe⟩ := h
    refine ⟨w, p :: refs, hx, ?_, ?_, ?_, hframe⟩
    · rw [hlevels, List.append_assoc, List.singleton_append]
    · rw [List.map_cons, haddr]
    · intro y hy
      rcases List.mem_cons.1 hy with rfl | hy
      · exact hp
      · exact hval y hy

/-- The levels of a wide walk descend as the tables say. -/
theorem run_walkLevels (lin : U64) (access : Access) (long nxe : Bool)
    (shifts : List (Fin 40))
    (table : U64) (acc : List PteRef) (s : Machine β) :
    Descended lin acc s (descend (get64 s.bus) lin long nxe shifts table)
      ((walkLevels lin access long nxe shifts table acc).run s) := by
  induction shifts generalizing table acc with
  | nil => exact ⟨_, [], rfl, (List.append_nil _).symm, rfl, by simp, rfl⟩
  | cons shift rest ih =>
    simp only [descend, wideRsvd, walkLevels]
    rw [Bounded.run_bind, Fallible.bind_of_ok (run_ramRead64 _ s),
      run_faultIf_bind]
    by_cases hp :
        get64 s.bus ((table &&& PHYS_MASK) + (((lin >>> shift.val) &&& (0x1FF : U64)) <<< 3))
        &&& pte.P = 0
    · rw [if_pos hp, if_pos hp]
      exact ⟨_, rfl⟩
    rw [if_neg hp, if_neg hp, run_faultIf_bind]
    split
    · exact ⟨_, rfl⟩
    split
    · rw [run_faultIf_bind]
      split
      · exact ⟨_, rfl⟩
      · exact ⟨_, [_], rfl, rfl, rfl, by simp, rfl⟩
    · exact Descended.cons (p := ⟨_, aligned8_add _ _ _ (by decide), _⟩)
        rfl (ih _ _)

/-- The outcome of a walk: a fault that changed CR2 only, or the address
and the marked and filled state. -/
def Machine.WalkOutcome (s : Machine β) (lin : U64) (access : Access) :
    Except Exception (Translated lin) × Machine β → Prop
  | (.error _, s') => s' = s.faulted lin
      ∧ ∀ m, s.mapping lin = some m →
        s.walkPermits access m.user m.writable m.nx = false
  | (.ok p, s') => ∃ m, s.mapping lin = some m
      ∧ s.walkPermits access m.user m.writable m.nx = true
      ∧ p.val = m.frame ||| (lin &&& 0xFFF)
      ∧ s.Walked lin (access == .write) m s'

/-- The marking pass of a walk stores to the entries it visited only. -/
theorem run_updateAccessed (write : Bool) (rd : U64 → U64) (refs : List PteRef)
    (hval : ∀ r ∈ refs, r.val = rd r.addr) (s : Machine β) :
    ∃ ic, (updateAccessed write refs).run s = (.ok (), { s with
      icache := ic,
      bus := markPath true write rd (refs.map PteRef.addr) s.bus }) := by
  induction refs generalizing s with
  | nil => exact ⟨s.icache, rfl⟩
  | cons r rest ih =>
    have hrest : ∀ x ∈ rest,
      x.val = rd x.addr := fun x hx => hval x (List.mem_cons_of_mem _ hx)
    have hnil : (rest.map PteRef.addr).isEmpty = rest.isEmpty := by
      cases rest <;> rfl
    have hr := hval r List.mem_cons_self
    simp only [updateAccessed, List.map_cons, EntryMemory.markPath, hnil]
    rw [Bounded.run_bind]
    change ∃ ic, ((whenever (markEntry r.val (rest.isEmpty && write) ≠ r.val)
      (storeEntry64 r.addr r.aligned
        (markEntry r.val (rest.isEmpty && write)))).run
        >>= fun _ => (updateAccessed write rest).run) s = _
    rw [hr]
    by_cases hs : markEntry (rd r.addr) (rest.isEmpty && write) ≠ rd r.addr
    · have hrun : (whenever
          (markEntry (rd r.addr) (rest.isEmpty && write) ≠ rd r.addr)
          (storeEntry64 r.addr r.aligned
            (markEntry (rd r.addr) (rest.isEmpty && write)))).run s
          = (.ok (), { s with
              icache := s.icache.stampWrite r.addr
              bus := put64 s.bus r.addr
                (markEntry (rd r.addr) (rest.isEmpty && write)) }) := by
        rw [whenever, if_pos hs, ← Ram.write64_eq]
        rfl
      rw [Fallible.bind_of_ok hrun, if_pos hs]
      exact ih hrest _
    · have hrun : (whenever
          (markEntry (rd r.addr) (rest.isEmpty && write) ≠ rd r.addr)
          (storeEntry64 r.addr r.aligned
            (markEntry (rd r.addr) (rest.isEmpty && write)))).run s
          = (.ok (), s) := by
        rw [whenever, if_neg hs]
        rfl
      rw [Fallible.bind_of_ok hrun, if_neg hs]
      exact ih hrest _

/-- The root of a PAE walk. -/
theorem run_readPdpte (lin : U64) (access : Access) (s : Machine β) :
    match pdpteTable (get64 s.bus) s.regs.cr3 lin with
    | none => ∃ e, (readPdpte lin access).run s = (.error e, s.faulted lin)
    | some t => (readPdpte lin access).run s = (.ok t, s) := by
  unfold readPdpte
  rw [Bounded.run_bind, Fallible.bind_of_ok (run_self s), Bounded.run_bind,
    Fallible.bind_of_ok (run_ramRead64 _ s), run_faultIf_bind]
  unfold pdpteTable pdpteAddr
  dsimp only
  split
  case h_1 hnone =>
    split at hnone
    case isTrue hp =>
      rw [if_pos hp]
      exact ⟨_, rfl⟩
    case isFalse hp =>
    rw [if_neg hp, run_faultIf_bind]
    split at hnone
    case isTrue hrsvd =>
      rw [if_pos hrsvd]
      exact ⟨_, rfl⟩
    case isFalse => cases hnone
  case h_2 t hsome =>
    split at hsome
    · cases hsome
    case isFalse hp =>
    rw [if_neg hp, run_faultIf_bind]
    split at hsome
    · cases hsome
    case isFalse hrsvd =>
    rw [if_neg hrsvd]
    cases hsome
    rfl

/-- Where a wide walk starts. -/
theorem run_wideTable (lin : U64) (access : Access) (s : Machine β) :
    match wideTable (get64 s.bus) s.regs.cr3 s.longMode lin with
    | none => ∃ e, (if s.longMode then pure (s.regs.cr3 &&& PHYS_MASK)
        else readPdpte lin access : Calm β U64).run s
          = (.error e, s.faulted lin)
    | some t => (if s.longMode then pure (s.regs.cr3 &&& PHYS_MASK)
        else readPdpte lin access : Calm β U64).run s = (.ok t, s) := by
  unfold wideTable
  cases s.longMode with
  | true => rfl
  | false => exact run_readPdpte lin access s

/-- With 64-bit entries the mapping is the wide one. -/
theorem Machine.mapping_wide {s : Machine β} (hw : s.wide = true) (lin : U64) :
    s.mapping lin = wideMapping (get64 s.bus) s.regs.cr3 s.longMode
      (s.regs.msr.efer &&& efer.NXE != 0) lin := by
  have hword : s.word = get64 s.bus := by
    funext a
    rw [word, tableWord, hw, if_pos rfl]
  rw [mapping, if_pos hw, hword]

/-- Combined protection over the references is over their addresses. -/
theorem all_refs {b : β} {refs : List PteRef} {path : List U64}
    (haddr : refs.map PteRef.addr = path)
    (hval : ∀ y ∈ refs, y.val = get64 b y.addr)
    (f : U64 → Bool) :
    (refs.all fun y => f y.val) = path.all fun a => f (get64 b a) := by
  rw [← haddr, List.all_map, Bool.eq_iff_iff,
    List.all_eq_true, List.all_eq_true]
  exact forall₂_congr fun y hy => by rw [hval y hy]; rfl

/-- What the walker collected are the entries on the path. -/
theorem any_refs {b : β} {refs : List PteRef} {path : List U64}
    (haddr : refs.map PteRef.addr = path)
    (hval : ∀ y ∈ refs, y.val = get64 b y.addr)
    (f : U64 → Bool) :
    (refs.any fun y => f y.val) = path.any fun a => f (get64 b a) := by
  rw [← haddr, List.any_map, Bool.eq_iff_iff,
    List.any_eq_true, List.any_eq_true]
  exact exists_congr fun y => and_congr_right fun hy => by rw [hval y hy]; rfl

/-- The wide walker does what the mapping says. -/
theorem run_walkWide (lin : U64) (access : Access) {s : Machine β}
    (hw : s.wide = true) :
    s.WalkOutcome lin access ((walkWide lin access).run s) := by
  have hmap := Machine.mapping_wide hw lin
  unfold wideMapping at hmap
  unfold walkWide
  rw [Bounded.run_bind, Fallible.bind_of_ok (run_self s), Bounded.run_bind]
  have htable := run_wideTable lin access s
  cases ht : wideTable (get64 s.bus) s.regs.cr3 s.longMode lin with
  | none =>
    rw [ht] at htable hmap
    obtain ⟨e, he⟩ := htable
    rw [Fallible.bind_of_error he]
    refine ⟨rfl, fun m hm => ?_⟩
    rw [hmap] at hm
    cases hm
  | some table =>
  rw [ht] at htable hmap
  rw [Fallible.bind_of_ok htable, Bounded.run_bind]
  have hdesc :=
    run_walkLevels lin access s.longMode (s.regs.msr.efer &&& efer.NXE != 0)
    (if s.longMode then [39, 30, 21, 12] else [21, 12]) table [] s
  rw [Option.bind_some] at hmap
  cases hd : descend (get64 s.bus) lin s.longMode
      (s.regs.msr.efer &&& efer.NXE != 0)
      (if s.longMode then [39, 30, 21, 12] else [21, 12]) table with
  | none =>
    rw [hd] at hdesc hmap
    obtain ⟨e, he⟩ := hdesc
    rw [Fallible.bind_of_error he]
    refine ⟨rfl, fun m hm => ?_⟩
    rw [hmap] at hm
    cases hm
  | some r =>
  rw [hd] at hdesc hmap
  obtain ⟨w, refs, hrun, hlevels, haddr, hval, hframe⟩ := hdesc
  rw [List.nil_append] at hlevels
  rw [Fallible.bind_of_ok hrun, Bounded.run_bind,
    Fallible.bind_of_ok (run_self s), run_faultIf_bind]
  simp only [hlevels, all_refs haddr hval (fun v => v &&& pte.US != 0),
    all_refs haddr hval (fun v => v &&& pte.RW != 0),
    any_refs haddr hval
    (fun v => s.regs.msr.efer &&& efer.NXE != 0 && v &&& pte.NX != 0)]
  rw [Option.map_some] at hmap
  split
  case isTrue hperm =>
    refine ⟨rfl, fun m hm => ?_⟩
    rw [hmap] at hm
    cases hm
    simpa using hperm
  case isFalse hperm =>
  obtain ⟨ic, hmark⟩ :=
    run_updateAccessed (access == .write) (get64 s.bus) refs hval s
  rw [Bounded.run_bind, Fallible.bind_of_ok hmark]
  have hword : s.word = get64 s.bus := by
    funext a
    rw [Machine.word, tableWord, hw, if_pos rfl]
  rw [haddr]
  have hphys :
    (w.frame.1 ||| (lin &&& w.pageMask &&& ~~~0xFFF)) &&& ~~~0xFFF = r.2 := by
    rw [w.inside, ← hframe]
    exact and_not_of_and_eq_zero w.frame.aligned
  refine ⟨_, hmap, by simpa using hperm,
    congrArg (· ||| (lin &&& 0xFFF)) hframe, ?_⟩
  refine ⟨ic, ?entry, ?state, ?_, ?_, ?_⟩
  case state =>
    rw [hw, hword]
  · rfl
  · exact ⟨hphys, rfl, rfl, rfl⟩
  · intro hdirty
    dsimp only at hdirty
    rw [Bool.or_eq_true] at hdirty
    rcases hdirty with hlast | hwrite
    · right
      intro a ha
      rw [← haddr, List.getLast?_map] at ha
      obtain ⟨y, hy, rfl⟩ := Option.map_eq_some_iff.1 ha
      rw [hy] at hlast
      rw [hword, ← hval y (List.mem_of_getLast? hy)]
      simpa using hlast
    · exact Or.inl hwrite

-- The 2-level walk.

/-- The legacy leaf is rewritten when marking would change it. -/
theorem leafStale_iff (v : U64) (write : Bool) :
    leafStale v write = true ↔ markEntry v write ≠ v :=
      pteMarks.stale_iff v write

/-- What it writes is the marked entry. -/
theorem touchedLeaf_eq (v : U64) (write : Bool) :
    touchedLeaf v write = markEntry v write := by
  unfold touchedLeaf
  split
  · rfl
  case isFalse h =>
    rw [leafStale_iff, not_not] at h
    exact h.symm

/-- A conditional write-back is a turn of `markPath`. -/
theorem run_storeMark32 {c : Prop} [Decidable c] {v : U64} {d : Bool}
    (hc : c ↔ markEntry v d ≠ v) (a : U64) (ha : a &&& 3 = 0) (s : Machine β) :
    ∃ ic, (whenever c (storeEntry32 a ha ((markEntry v d).setWidth 32))).run s
      = (.ok (), { s with
      icache := ic
      bus := if markEntry v d ≠ v then putEntry false s.bus a (markEntry v d)
        else s.bus }) := by
  by_cases h : c
  · refine ⟨s.icache.stampWrite a, ?_⟩
    have hput : putEntry false s.bus a (markEntry v d)
        = Bus.write32 s.bus a ((markEntry v d).setWidth 32) :=
          (Ram.write32_eq _ _ _).symm
    rw [whenever, if_pos h, if_pos (hc.1 h), hput]
    rfl
  · refine ⟨s.icache, ?_⟩
    rw [whenever, if_neg h, if_neg fun hne => h (hc.2 hne)]
    rfl

/-- Where a 2-level walk gets its leaf from. -/
structure LegacyLeaf.Of (l : LegacyLeaf) (s : Machine β)
    (pdeAddr : U64) (large : Bool) (m : Mapping) : Prop where
  path : m.path = if large then [pdeAddr] else [pdeAddr, l.addr]
  last : large = true → l.addr = pdeAddr
  leaf : l.leaf = (get32 s.bus l.addr).setWidth 64
  user : l.userOk = m.user
  writable : l.writable = m.writable
  nx : m.nx = false
  frame : l.frame.1 = m.frame

/-- With 32-bit entries the mapping is the legacy one. -/
theorem Machine.mapping_legacy {s : Machine β}
    (hw : s.wide = false) (lin : U64) :
    s.mapping lin
      = legacyMapping (fun a => (get32 s.bus a).setWidth 64) s.regs.cr3
      (s.regs.cr4 &&& cr4.PSE != 0) lin := by
  have hword : s.word = fun a => (get32 s.bus a).setWidth 64 := by
    funext a
    rw [word, tableWord, hw, if_neg (by decide)]
  rw [mapping, if_neg (by rw [hw]; decide), hword]

/-- The leaf of a 2-level walk whose directory entry is present. -/
theorem run_legacyLeaf {lin : U64} (access : Access)
    (pse : Bool) {s : Machine β}
    {lin32 pdeAddr pde : U64} {hpde : pdeAddr &&& 3 = 0}
    (h32 : lin32 = (lin.setWidth 32).setWidth 64)
    (haddr : pdeAddr
      = (s.regs.cr3 &&& (0xFFFFF000 : U64)) + ((lin32 >>> 22) <<< 2))
    (hval : pde = (get32 s.bus pdeAddr).setWidth 64)
    (hp : ¬ pde &&& pte.P = 0) :
    (legacyMapping (fun a => (get32 s.bus a).setWidth 64) s.regs.cr3 pse lin = none
      ∧ ∃ e, (legacyLeaf lin access lin32 pdeAddr hpde pde
        (pde &&& pte.PS != 0 && pse)).run s
        = (.error e, s.faulted lin))
    ∨ ∃ m l, legacyMapping (fun a => (get32 s.bus a).setWidth 64) s.regs.cr3
      pse lin = some m
      ∧ (legacyLeaf lin access lin32 pdeAddr hpde pde
        (pde &&& pte.PS != 0 && pse)).run s = (.ok l, s)
      ∧ l.Of s pdeAddr (pde &&& pte.PS != 0 && pse) m := by
  simp only [legacyMapping, ← h32, ← haddr, ← hval, if_neg hp, legacyLeaf]
  cases hlarge : (pde &&& pte.PS != 0 && pse) with
  | true =>
    exact Or.inr ⟨_, _, rfl, rfl, rfl, fun _ => rfl, hval, rfl, rfl, rfl, rfl⟩
  | false =>
    simp only [Bool.false_eq_true, if_false]
    rw [Bounded.run_bind, Fallible.bind_of_ok (run_ramRead32 _ s),
      run_faultIf_bind]
    split
    · exact Or.inl ⟨rfl, _, rfl⟩
    · refine Or.inr ⟨_, _, rfl, rfl, rfl, ?_, rfl, rfl, rfl, rfl, rfl⟩
      intro h
      cases h

/-- The two write-backs of a 2-level walk are the turns of `markPath`. -/
theorem run_legacyMarks {pdeAddr : U64} (hpde : pdeAddr &&& 3 = 0)
    {large : Bool} {l : LegacyLeaf}
    {s : Machine β} {m : Mapping} (hw : s.wide = false)
    (hl : l.Of s pdeAddr large m)
    (write : Bool) {pde : U64}
    (hval : pde = (get32 s.bus pdeAddr).setWidth 64) :
    ∃ s₁ ic, (whenever (!large && pde &&& pte.A == 0)
        (storeEntry32 pdeAddr hpde ((pde ||| pte.A).setWidth 32))).run s
          = (.ok (), s₁)
      ∧ (whenever (leafStale l.leaf write) (storeEntry32 l.addr l.aligned
        ((touchedLeaf l.leaf write).setWidth 32))).run s₁ = (.ok (), { s with
          icache := ic,
          bus := markPath s.wide write s.word m.path s.bus }) := by
  have hword : ∀ a, s.word a = (get32 s.bus a).setWidth 64 := by
    intro a
    rw [Machine.word, tableWord, hw, if_neg (by decide)]
  rw [touchedLeaf_eq, hl.leaf, ← hword, hw, hl.path]
  rw [← hword] at hval
  cases large with
  | true =>
    obtain ⟨ic, hrun⟩ :=
      run_storeMark32 (leafStale_iff (s.word l.addr) write) l.addr l.aligned s
    refine ⟨s, ic, rfl, hrun.trans ?_⟩
    rw [if_pos rfl, hl.last rfl]
    rfl
  | false =>
    have hmark : markEntry pde false = pde ||| pte.A := pteMarks.mark_false pde
    have hpdeStale :
      (!false && pde &&& pte.A == 0) = true ↔ markEntry pde false ≠ pde := by
      rw [← leafStale_iff, leafStale, Bool.false_and, Bool.or_false,
        Bool.not_false, Bool.true_and]
    obtain ⟨ic₁, hrun₁⟩ := run_storeMark32 hpdeStale pdeAddr hpde s
    rw [hmark] at hrun₁
    obtain ⟨ic, hrun⟩ :=
      run_storeMark32 (leafStale_iff (s.word l.addr) write) l.addr l.aligned
      { s with
        icache := ic₁
        bus := if pde ||| pte.A ≠ pde
          then putEntry false s.bus pdeAddr (pde ||| pte.A) else s.bus }
    refine ⟨_, ic, hrun₁, hrun.trans ?_⟩
    simp only [EntryMemory.markPath, Bool.false_eq_true, if_false,
      List.isEmpty_cons, List.isEmpty_nil, Bool.false_and, Bool.true_and,
      ← hval, hmark]

/-- The legacy walker does what the mapping says. -/
theorem run_walkLegacy (lin : U64) (access : Access) {s : Machine β}
    (hw : s.wide = false) :
    s.WalkOutcome lin access ((walkLegacy lin access).run s) := by
  have hmap := Machine.mapping_legacy hw lin
  unfold walkLegacy
  rw [Bounded.run_bind, Fallible.bind_of_ok (run_self s)]
  dsimp only
  rw [Bounded.run_bind, Fallible.bind_of_ok (run_ramRead32 _ s),
    run_faultIf_bind]
  split
  case isTrue hp =>
    refine ⟨rfl, fun m hm => ?_⟩
    rw [hmap, legacyMapping, if_pos hp] at hm
    cases hm
  case isFalse hp =>
  rw [Bounded.run_bind]
  rcases run_legacyLeaf access (s.regs.cr4 &&& cr4.PSE != 0) rfl rfl rfl hp with
    ⟨hnone, e, hrun⟩ | ⟨m, l, hsome, hrun, hl⟩
  · rw [Fallible.bind_of_error hrun]
    refine ⟨rfl, fun m hm => ?_⟩
    rw [hmap, hnone] at hm
    cases hm
  rw [Fallible.bind_of_ok hrun, Bounded.run_bind,
    Fallible.bind_of_ok (run_self s), run_faultIf_bind, hl.user,
    hl.writable, ← hl.nx]
  split
  case isTrue hperm =>
    refine ⟨rfl, fun m' hm => ?_⟩
    rw [hmap, hsome] at hm
    cases hm
    simpa using hperm
  case isFalse hperm =>
  rw [Bounded.run_bind]
  obtain ⟨s₁, ic, hrun₁, hrun₂⟩ :=
    run_legacyMarks _ hw hl (access == .write) rfl
  rw [Fallible.bind_of_ok hrun₁, Bounded.run_bind, Fallible.bind_of_ok hrun₂]
  have h32 : ((lin.setWidth 32).setWidth 64 : U64) &&& 0xFFF = lin &&& 0xFFF :=
    low32_offset lin
  have hval : l.frame.1 ||| (((lin.setWidth 32).setWidth 64 : U64) &&& 0xFFF)
      = m.frame ||| (lin &&& 0xFFF) := by rw [h32, hl.frame]
  refine ⟨m, hmap.trans hsome, by simpa using hperm, hval, ic, ?entry,
    ?state, ?_, ?_, ?_⟩
  case state => rfl
  · rfl
  · refine ⟨?_, rfl, rfl, rfl⟩
    rw [← hl.frame]
    exact and_not_of_and_eq_zero l.frame.aligned
  · intro hdirty
    rw [bne_iff_ne, touchedLeaf_eq, hl.leaf] at hdirty
    cases hwrite : access == .write with
    | true => exact Or.inl rfl
    | false =>
      right
      intro a ha
      have hlast : a = l.addr := by
        rw [hl.path] at ha
        split at ha
        case isTrue hlarge =>
          cases ha
          exact (hl.last hlarge).symm
        case isFalse =>
          cases ha
          rfl
      rw [hwrite, markEntry, Marks.mark_false,
        or_and_disjoint (m := pteMarks.accessed) _ (by decide)] at hdirty
      rw [hlast, Machine.word, tableWord, hw, if_neg (by decide)]
      exact hdirty

/-- A walk is its mapping. -/
theorem run_walk (lin : U64) (access : Access) (s : Machine β) :
    s.WalkOutcome lin access ((walk lin access).run s) := by
  unfold walk
  rw [Bounded.run_bind, Fallible.bind_of_ok (run_self s)]
  by_cases hw : s.regs.cr4 &&& cr4.PAE = 0
  · rw [if_pos hw]
    exact run_walkLegacy lin access (by rw [Cpu.wide, hw]; rfl)
  · rw [if_neg hw]
    exact run_walkWide lin access (bne_iff_ne.2 hw)

end Run

end Remu.X64
