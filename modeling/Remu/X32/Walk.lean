/-
What the 386 page tables say, and what a walk does with it.

`mapping` reads a translation off memory without running anything. It
looks at no accessed or dirty bit, so it does not move when the walker
sets them (`tableMapping_congr`), and it is a property of the page, not of
the address (`mapping_page`). On a RAM bus a walk is its mapping: it fails
where there is none or where the mapping does not grant the access, having
changed CR2 only, and otherwise it marks the two entries of the path and
fills one TLB slot (`run_walk`).
-/
import Remu.Lib.Marking
import Remu.X32.Linear

namespace Remu.X32

open Word ByteRam

-- ======== mappings

/-- The two entries a walk reads, top down, and what they grant. -/
structure Mapping where
  path : List U32
  frame : U32
  user : Bool
  writable : Bool

/-- The bits the walker sets. -/
abbrev pte.MARKS : U32 := pte.A ||| pte.D

/-- What the tables with entries `rd` say about `lin`. -/
def tableMapping (rd : U32 → U32) (cr3 lin : U32) : Option Mapping :=
  let pdeA := pdeAddr cr3 lin
  let pde := rd pdeA
  if pde &&& pte.P = 0 then none
  else
    let pteA := pteAddr pde lin
    let e := rd pteA
    if e &&& pte.P = 0 then none
    else some { path := [pdeA, pteA],
                frame := e &&& FRAME,
                user := pde &&& e &&& pte.US != 0,
                writable := pde &&& e &&& pte.RW != 0 }

/-- What makes a mapping: two present entries. -/
theorem tableMapping_eq_some {rd : U32 → U32} {cr3 lin : U32} {m : Mapping}
    (hm : tableMapping rd cr3 lin = some m) :
    ∃ pteA, pteA = pteAddr (rd (pdeAddr cr3 lin)) lin
      ∧ m.path = [pdeAddr cr3 lin, pteA]
      ∧ rd (pdeAddr cr3 lin) &&& pte.P ≠ 0 ∧ rd pteA &&& pte.P ≠ 0
      ∧ m.frame = rd pteA &&& FRAME := by
  simp only [tableMapping] at hm
  split at hm
  · cases hm
  case isFalse hp =>
  split at hm
  · cases hm
  case isFalse hp' =>
  cases hm
  exact ⟨_, rfl, rfl, hp, hp', rfl⟩

section Mapping

variable {rd rd' : U32 → U32} {cr3 lin lin' : U32} {m : Mapping}

/-- The fields of an entry that a walk looks at avoid the marks. -/
theorem and_eq_of_unmarked {x y t : U32}
    (h : x &&& ~~~pte.MARKS = y &&& ~~~pte.MARKS)
    (ht : t &&& pte.MARKS = 0) : x &&& t = y &&& t := and_eq_of_outside h ht

/-- A mapping only depends on the entries behind it, marks aside. -/
theorem tableMapping_congr (hm : tableMapping rd cr3 lin = some m)
    (h : ∀ a ∈ m.path, rd' a &&& ~~~pte.MARKS = rd a &&& ~~~pte.MARKS) :
    tableMapping rd' cr3 lin = some m := by
  obtain ⟨pteA, hpteA, hpath, hp, hp', -⟩ := tableMapping_eq_some hm
  have hpde := h (pdeAddr cr3 lin) (by rw [hpath]; exact List.mem_cons_self)
  have hpte :=
    h pteA (by rw [hpath]; exact List.mem_cons_of_mem _ List.mem_cons_self)
  have hsame : pteAddr (rd' (pdeAddr cr3 lin)) lin = pteA := by
    rw [hpteA, pteAddr, pteAddr, and_eq_of_unmarked hpde (by decide)]
  rw [hpteA] at hp'
  simp only [tableMapping, if_neg hp, if_neg hp'] at hm
  rw [← hpteA] at hm hp'
  simp only [tableMapping, hsame]
  rw [and_eq_of_unmarked hpde (t := pte.P) (by decide), if_neg hp,
    and_eq_of_unmarked hpte (t := pte.P) (by decide), if_neg hp', ← hm,
    and_and_congr (and_eq_of_unmarked hpde (t := pte.US) (by decide))
      (and_eq_of_unmarked hpte (by decide)),
    and_and_congr (and_eq_of_unmarked hpde (t := pte.RW) (by decide))
      (and_eq_of_unmarked hpte (by decide)),
    and_eq_of_unmarked hpte (t := FRAME) (by decide)]

theorem tableMapping_page (h : lin >>> 12 = lin' >>> 12) :
    tableMapping rd cr3 lin = tableMapping rd cr3 lin' := by
  have hpde : pdeAddr cr3 lin = pdeAddr cr3 lin' := by
    rw [pdeAddr, pdeAddr, shiftRight_of_page h (k := 22) (by omega)]
  have hpte : ∀ pde, pteAddr pde lin = pteAddr pde lin' := by
    intro pde
    rw [pteAddr, pteAddr, h]
  simp only [tableMapping]
  rw [hpde, hpte]

theorem toNat_mod4 {a : U32} (h : a &&& 3 = 0) : a.toNat % 4 = 0 := by
  rw [← toNat_and_3, h]
  rfl

theorem tableMapping_aligned (hm : tableMapping rd cr3 lin = some m) :
    ∀ a ∈ m.path, a.toNat % 4 = 0 := by
  obtain ⟨pteA, rfl, hpath, -⟩ := tableMapping_eq_some hm
  intro a ha
  rw [hpath] at ha
  rcases List.mem_cons.1 ha with rfl | ha
  · exact toNat_mod4 (pdeAddr_aligned _ _)
  · rw [List.mem_singleton.1 ha]
    exact toNat_mod4 (pteAddr_aligned _ _)

end Mapping

-- ======== marking

def pteMarks : Marks 32 where
  accessed := pte.A
  dirty := pte.D
  accessed_ne := by decide
  dirty_ne := by decide
  accessed_absorb _ h := or_eq_self_of_bit (k := 5) h
  dirty_absorb _ h := or_eq_self_of_bit (k := 6) h

section Run

variable {β : Type} [Bus β] [Ram β]

/-- The table entries in memory. -/
abbrev tableEntries : EntryMemory β U32 32 where
  get := get32
  put := put32
  Aligned a := a.toNat % 4 = 0
  Fits _ := True
  Same y x := cell β y = cell β x
  same_refl _ := rfl
  get_same b _ _ h := get32_alias b h
  fits_get _ _ := trivial
  get_put_same b _ _ v hx hy _ h := (get32_put32 b hx hy v).trans (if_pos h)
  get_put_other b _ _ v hx hy _ h := (get32_put32 b hx hy v).trans (if_neg h)

/-- Accessed on both entries of the path, dirty on the last for writes. -/
abbrev markPath (write : Bool) (rd : U32 → U32) (path : List U32) (b : β) : β :=
  tableEntries.markPath pteMarks write rd path b

theorem touchedPte_eq (v : U32) (write : Bool) :
    touchedPte v write = pteMarks.mark v write := by
  unfold touchedPte
  split
  · rfl
  case isFalse h =>
    have hstale := mt (pteMarks.stale_iff v write).2 h
    exact (not_not.1 hstale).symm

-- ======== running a walk

/-- The entry at `a` of the tables. -/
def Machine.word (s : Machine β) (a : U32) : U32 := get32 s.bus a

/-- What the page tables say about `lin`. -/
def Machine.mapping (s : Machine β) (lin : U32) : Option Mapping :=
  tableMapping s.word s.regs.cr3 lin

theorem Machine.mapping_page (s : Machine β) {lin lin' : U32}
    (h : lin >>> 12 = lin' >>> 12) :
    s.mapping lin = s.mapping lin' := tableMapping_page h

/-- After a page fault: CR2 holds the address. -/
def Machine.faulted (s : Machine β) (lin : U32) : Machine β :=
  s.withHot { s.regs.toHotRegs with cr2 := lin }

/-- A TLB entry that says what `m` says. -/
structure TlbEntry.Shows (e : TlbEntry) (m : Mapping) : Prop where
  phys : e.phys = m.frame
  user : e.user = m.user
  writable : e.writable = m.writable

/-- After a successful walk: the path is marked and one slot filled. -/
structure Machine.Walked (s : Machine β) (lin : U32)
    (write : Bool) (m : Mapping) (s' : Machine β) : Prop where
  state : ∃ ic e, s' = { s with
      icache := ic
      bus := markPath write s.word m.path s.bus
      tlb := ⟨upd s.tlb.entries (Tlb.slot (lin >>> 12)) e⟩ }
    ∧ e.tag = lin >>> 12 ∧ e.Shows m
    ∧ (e.dirty = true → write = true ∨
        ∀ a, m.path.getLast? = some a → s.word a &&& pte.D ≠ 0)

/-- The outcome of a walk: a fault that changed CR2 only, or the address
and the marked and filled state. -/
def Machine.WalkOutcome (s : Machine β) (lin : U32) (write : Bool) :
    Except Exception (Translated lin) × Machine β → Prop
  | (.error _, s') => s' = s.faulted lin
      ∧ ∀ m, s.mapping lin = some m →
        s.walkPermits write m.user m.writable = false
  | (.ok p, s') => ∃ m, s.mapping lin = some m
      ∧ s.walkPermits write m.user m.writable = true
      ∧ p.val = m.frame ||| (lin &&& 0xFFF) ∧ s.Walked lin write m s'

theorem run_ramRead32 (a : U32) (s : Machine β) :
    (busRead32 a).run s = (.ok (get32 s.bus a), s) := by
  unfold busRead32 touchBus
  simp only [Ram.read32_eq]

omit [Ram β] in
theorem run_faultIf (c : Prop) [Decidable c] (lin : U32)
    (write present : Bool) (s : Machine β) :
    (faultIf c lin write present).run s
      = if c then (.error
        (Exception.pf ((s.faulted lin).pfCode write present)), s.faulted lin)
        else (.ok (), s) := by
  unfold faultIf
  split <;> rfl

omit [Ram β] in
/-- A fault check in front of a continuation. -/
theorem run_faultIf_bind {α : Type} (c : Prop) [Decidable c] (lin : U32)
    (write present : Bool) (f : Unit → Calm β α) (s : Machine β) :
    (faultIf c lin write present >>= f).run s
      = if c then (.error
        (Exception.pf ((s.faulted lin).pfCode write present)), s.faulted lin)
        else (f ()).run s := by
  rw [Bounded.run_bind, Fallible.bind_apply, run_faultIf]
  by_cases hc : c
  · rw [if_pos hc, if_pos hc]
  · rw [if_neg hc, if_neg hc]

/-- A conditional write-back is a turn of `markPath`. -/
theorem run_storeMark {c : Prop} [Decidable c] {v : U32} {d : Bool}
    (hc : c ↔ pteMarks.mark v d ≠ v) (a : U32) (ha : a &&& 3 = 0)
    (s : Machine β) :
    ∃ ic, (whenever c (storeEntry a ha (pteMarks.mark v d))).run s
      = (.ok (), { s with
      icache := ic
      bus := if pteMarks.mark v d ≠ v then put32 s.bus a (pteMarks.mark v d)
        else s.bus }) := by
  by_cases h : c
  · refine ⟨s.icache.stampWrite a, ?_⟩
    rw [whenever, if_pos h, if_pos (hc.1 h), ← Ram.write32_eq]
    rfl
  · refine ⟨s.icache, ?_⟩
    rw [whenever, if_neg h, if_neg fun hne => h (hc.2 hne)]
    rfl

/-- The two write-backs of a walk are the turns of `markPath`. -/
theorem run_walkMarks {pdeA pteA pde e : U32} (hpde : pdeA &&& 3 = 0)
    (hpte : pteA &&& 3 = 0)
    {s : Machine β} (hval : pde = s.word pdeA) (hval' : e = s.word pteA)
    (write : Bool) :
    ∃ s₁ ic, (whenever (pde &&& pte.A = 0)
      (storeEntry pdeA hpde (pde ||| pte.A))).run s = (.ok (), s₁)
      ∧ (whenever (pteStale e write)
        (storeEntry pteA hpte (touchedPte e write))).run s₁
        = (.ok (), { s with icache := ic, bus := markPath write s.word [pdeA, pteA] s.bus }) := by
  have hmark : pteMarks.mark pde false = pde ||| pte.A :=
    pteMarks.mark_false pde
  have hstale : pde &&& pte.A = 0 ↔ pteMarks.mark pde false ≠ pde := by
    rw [← pteMarks.stale_iff, Marks.stale, Bool.false_and,
      Bool.or_false, beq_iff_eq]
    rfl
  obtain ⟨ic₁, hrun₁⟩ := run_storeMark hstale pdeA hpde s
  rw [hmark] at hrun₁
  obtain ⟨ic, hrun⟩ := run_storeMark (pteMarks.stale_iff e write) pteA hpte
    { s with
      icache := ic₁
      bus := if pde ||| pte.A ≠ pde then put32 s.bus pdeA (pde ||| pte.A)
        else s.bus }
  rw [← touchedPte_eq] at hrun
  refine ⟨_, ic, hrun₁, hrun.trans ?_⟩
  simp only [EntryMemory.markPath, List.isEmpty_cons, List.isEmpty_nil,
    Bool.false_and, Bool.true_and, ← hval, ← hval', hmark, touchedPte_eq]

/-- A walk is its mapping. -/
theorem run_walk (lin : U32) (write : Bool) (s : Machine β) :
    s.WalkOutcome lin write ((walk lin write).run s) := by
  have hmap : s.mapping lin = tableMapping (get32 s.bus) s.regs.cr3 lin := rfl
  simp only [tableMapping] at hmap
  unfold walk
  rw [Bounded.run_bind, Fallible.bind_of_ok (run_self s)]
  dsimp only
  rw [Bounded.run_bind, Fallible.bind_of_ok (run_ramRead32 _ s),
    run_faultIf_bind]
  split
  case isTrue hp =>
    rw [if_pos hp] at hmap
    refine ⟨rfl, fun m hm => ?_⟩
    rw [hmap] at hm
    cases hm
  case isFalse hp =>
  rw [if_neg hp] at hmap
  rw [Bounded.run_bind, Fallible.bind_of_ok (run_ramRead32 _ s),
    run_faultIf_bind]
  split
  case isTrue hp' =>
    rw [if_pos hp'] at hmap
    refine ⟨rfl, fun m hm => ?_⟩
    rw [hmap] at hm
    cases hm
  case isFalse hp' =>
  rw [if_neg hp'] at hmap
  rw [Bounded.run_bind, Fallible.bind_of_ok (run_self s), run_faultIf_bind]
  split
  case isTrue hperm =>
    refine ⟨rfl, fun m hm => ?_⟩
    rw [hmap] at hm
    cases hm
    simpa using hperm
  case isFalse hperm =>
  obtain ⟨s₁, ic, hrun₁, hrun₂⟩ :=
    run_walkMarks (s := s) (pdeAddr_aligned s.regs.cr3 lin)
    (pteAddr_aligned (get32 s.bus (pdeAddr s.regs.cr3 lin)) lin)
    (rfl : get32 s.bus _ = s.word _) (rfl : get32 s.bus _ = s.word _) write
  rw [Bounded.run_bind, Fallible.bind_of_ok hrun₁, Bounded.run_bind,
    Fallible.bind_of_ok hrun₂]
  have hframe : ∀ e : U32, touchedPte e write &&& FRAME = e &&& FRAME := by
    intro e
    obtain ⟨t, ht⟩ := pteMarks.mark_eq e write
    rw [touchedPte_eq, ht]
    refine and_eq_of_outside (m := pte.MARKS) ?_ (by decide)
    exact (Grows.or t).outside
  refine ⟨_, hmap, by simpa using hperm,
    congrArg (· ||| (lin &&& 0xFFF)) (hframe _), ic, ?entry,
    ?state, ?_, ?_, ?_⟩
  case state => rfl
  · rfl
  · exact ⟨hframe _, rfl, rfl⟩
  · intro hdirty
    dsimp only at hdirty
    rw [bne_iff_ne, touchedPte_eq] at hdirty
    cases write with
    | true => exact Or.inl rfl
    | false =>
      right
      intro a ha
      cases ha
      rw [Marks.mark_false,
        or_and_disjoint (m := pteMarks.accessed) _ (by decide)] at hdirty
      exact hdirty

end Run

end Remu.X32
