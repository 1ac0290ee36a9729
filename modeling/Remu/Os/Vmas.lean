/-
The region list against the page tables.

The tables give every address below `linBits` an access or none; the list
of regions should represent that function (`Matches`). None of the
operations looks at both sides: mapping pushes a region without asking
what is there, `mprotect` leaves the regions as they are, `munmap` drops
the regions inside its range and cuts none. `Fits` is what an operation
needs for the list to stay true, and it is exact (`matches_apply`): over a
run, the list is true in every state when every step fits, and only then
(`matches_run`).
-/
import Remu.Lib.Regions
import Remu.Os.Ops

namespace Remu.Os

open EntryWidth FrameTree Word Regions

variable {w : Nat}

-- ======== ranges

section Ranges

variable {s e x y lin : BitVec w}

/-- The bounds of a range are page addresses. -/
theorem aligned_pageDown (x : BitVec w) : Aligned (pageDown x) := by
  rw [Aligned, pageDown, toNat_and_not_FFF]
  omega

theorem pageDown_page (x : BitVec w) : pageDown x >>> 12 = x >>> 12 := by
  rw [page_eq_iff, pageDown, toNat_and_not_FFF]
  omega

variable [PageWidth w]

theorem aligned_rangeEnd (start len : BitVec w) :
    Aligned (rangeEnd start len) := by
  obtain ⟨q, hq⟩ := PageWidth.exists_pow w
  rw [Aligned, rangeEnd, toNat_pageUp]
  omega

/-- A range does not end before it begins. -/
theorem pageDown_le_rangeEnd (start len : BitVec w) :
    pageDown start ≤ rangeEnd start len := by
  obtain ⟨q, hq⟩ := PageWidth.exists_pow w
  have hlt := start.isLt
  rw [BitVec.le_def, rangeEnd, toNat_pageUp, pageDown, toNat_and_not_FFF]
  omega

/-- The range between two page boundaries. -/
theorem rangeEnd_sub (hs : Aligned s) (he : Aligned e) (hle : s ≤ e) :
    rangeEnd s (e - s) = e := by
  obtain ⟨q, hq⟩ := PageWidth.exists_pow w
  have hlt := e.isLt
  rw [Aligned] at hs he
  have hnat := BitVec.le_def.1 hle
  apply BitVec.eq_of_toNat_eq
  rw [rangeEnd, toNat_pageUp, BitVec.toNat_sub_of_le hle]
  omega

/-- The pages from one bound to another. -/
theorem rangePages_sub (hs : Aligned s) (he : Aligned e) (hle : s ≤ e) :
    rangePages s (e - s) = pages s e := by
  rw [rangePages, rangeEnd_sub hs he hle, pageDown, hs.and_not_FFF]

omit [PageWidth w] in
/-- The pages between two page boundaries. -/
theorem mem_pages (hs : Aligned s) (he : Aligned e) :
    lin ∈ pages s e ↔ Aligned lin ∧ s ≤ lin ∧ lin < e := by
  rw [Aligned] at hs he
  have hlt := e.isLt
  have hcount : (e.toNat - s.toNat) >>> 12 = (e.toNat - s.toNat) / 4096 := by
    rw [Nat.shiftRight_eq_div_pow]
  have hpage : ∀ k, k < (e.toNat - s.toNat) / 4096 →
      (s + BitVec.ofNat w (4096 * k)).toNat = s.toNat + 4096 * k := by
    intro k hk
    rw [BitVec.toNat_add, BitVec.toNat_ofNat,
      Nat.mod_eq_of_lt (show 4096 * k < 2 ^ w by omega),
      Nat.mod_eq_of_lt (by omega)]
  rw [pages, hcount, List.mem_map, Aligned, BitVec.le_def, BitVec.lt_def]
  constructor
  · rintro ⟨k, hk, rfl⟩
    rw [List.mem_range] at hk
    rw [hpage k hk]
    omega
  · rintro ⟨hal, hge, hltx⟩
    have hk : (lin.toNat - s.toNat) / 4096 < (e.toNat - s.toNat) / 4096 := by omega
    refine ⟨_, List.mem_range.2 hk, BitVec.eq_of_toNat_eq ?_⟩
    rw [hpage _ hk]
    omega

end Ranges

-- ======== regions

namespace Vma

/-- The addresses of a region. -/
def Has (v : Vma w) (x : BitVec w) : Prop := v.start ≤ x ∧ x < v.end_

instance instDecidableHas (v : Vma w) (x : BitVec w) : Decidable (v.Has x) :=
  inferInstanceAs (Decidable (_ ∧ _))

/-- The pages of a region. -/
def pages (v : Vma w) : List (BitVec w) := Remu.Os.pages v.start v.end_

/-- Whether the region may be written. -/
def writable (v : Vma w) : Bool := writes v.prot

/-- A region starts and ends at page boundaries. -/
structure Shaped (v : Vma w) : Prop where
  start : Aligned v.start
  end_ : Aligned v.end_
  le : v.start ≤ v.end_

/-- The pages of a region are the page addresses inside it. -/
theorem Shaped.mem_pages {v : Vma w} (h : v.Shaped) {lin : BitVec w} :
    lin ∈ v.pages ↔ Aligned lin ∧ v.Has lin := Remu.Os.mem_pages h.start h.end_

/-- A region has whole pages. -/
theorem Shaped.has_of_page {v : Vma w} (h : v.Shaped) {x y : BitVec w}
    (hxy : x >>> 12 = y >>> 12) (hy : v.Has y) : v.Has x := by
  have hs := h.start
  have he := h.end_
  rw [Aligned] at hs he
  rw [page_eq_iff] at hxy
  rw [Has, BitVec.le_def, BitVec.lt_def] at hy ⊢
  omega

/-- The page of an address of the region is one of them. -/
theorem Shaped.pageDown_mem {v : Vma w} (h : v.Shaped)
    {x : BitVec w} (hx : v.Has x) :
    pageDown x ∈ v.pages :=
  h.mem_pages.2 ⟨aligned_pageDown x, h.has_of_page (pageDown_page x) hx⟩

/-- A range rounded to pages has the shape of a region. -/
theorem shaped_range [PageWidth w] (start len : BitVec w)
    (prot : U32) (kind : VmaKind) :
    Shaped ⟨pageDown start, rangeEnd start len, prot, kind⟩ :=
  ⟨aligned_pageDown start, aligned_rangeEnd start len,
    pageDown_le_rangeEnd start len⟩

variable [EntryWidth w] (L : Layout w)

/-- Some page of the region is one of the list. -/
def Meets (v : Vma w) (lins : List (BitVec w)) : Prop :=
  ∃ x ∈ v.pages, L.Covers lins x

instance instDecidableMeets (v : Vma w) (lins : List (BitVec w)) :
    Decidable (v.Meets L lins) :=
  List.decidableBEx (fun x => L.Covers lins x) v.pages

variable {L}

/-- A region that holds a covered address meets the range. -/
theorem Shaped.meets {v : Vma w} (h : v.Shaped) {lins : List (BitVec w)}
    {x : BitVec w} (hx : v.Has x)
    (hcov : L.Covers lins x) : v.Meets L lins := by
  obtain ⟨lin, hlin, hsame⟩ := hcov
  exact ⟨_, h.pageDown_mem hx, lin, hlin,
    (Layout.samePage_of_page (pageDown_page x)).trans hsame⟩

/-- A region covers its own pages. -/
theorem Shaped.covers {v : Vma w} (h : v.Shaped) {x : BitVec w}
    (hx : v.Has x) : L.Covers v.pages x :=
  ⟨_, h.pageDown_mem hx, Layout.samePage_of_page (pageDown_page x).symm⟩

end Vma

namespace AddressSpace

variable [EntryWidth w] (L : Layout w)

/-- What the tables say about an address: no access, or whether it may be
written. -/
def access (a : AddressSpace w) (x : BitVec w) : Option Bool :=
  if x.toNat < 2 ^ L.linBits then (a.view L x).map (·.writable) else none

/-- The regions are disjoint; the addresses with a page are those of the
regions; a page may be written when its region says so. -/
structure Matches (a : AddressSpace w) : Prop where
  disjoint : a.vmas.Pairwise fun v v' => ∀ x, v.Has x → ¬ v'.Has x
  present : ∀ x : BitVec w, (x.toNat < 2 ^ L.linBits ∧ (a.resolve L x).isSome)
    ↔ ∃ v ∈ a.vmas, v.Has x
  writable : ∀ x, ∀ v ∈ a.vmas,
    v.Has x → (a.pteEntry L x &&& pte.RW ≠ 0 ↔ v.prot &&& PROT_WRITE ≠ 0)

variable {L} {a a' : AddressSpace w} {lins : List (BitVec w)} {x : BitVec w}

/-- Access to an address: mapped, and writable as its leaf entry says. -/
theorem access_eq_some {b : Bool} : a.access L x = some b
    ↔ x.toNat < 2 ^ L.linBits ∧ (a.resolve L x).isSome
      ∧ (a.pteEntry L x &&& pte.RW != 0) = b := by
  rw [access]
  split
  case isTrue h =>
    cases hf : a.frameOf L x with
    | none =>
      rw [view_eq_none.2 hf, resolve_eq_none.2 hf]
      simp
    | some f =>
      rw [view_of_frame hf, resolve_eq, hf]
      simp [h, pageOf]
  case isFalse h => simp [h]

/-- The list is true when it represents what the tables say. -/
theorem matches_iff :
    a.Matches L ↔ Represents Vma.Has Vma.writable a.vmas (a.access L) := by
  have hw : ∀ v : Vma w, (v.prot &&& PROT_WRITE ≠ 0)
    ↔ v.writable = true := fun v => by
    rw [Vma.writable, writes, bne_iff_ne]
  constructor
  · intro h
    refine ⟨h.disjoint, fun x b => ?_⟩
    rw [access_eq_some, ← and_assoc, h.present]
    constructor
    · rintro ⟨⟨v, hv, hx⟩, hb⟩
      refine ⟨v, hv, hx, ?_⟩
      have hiff := h.writable x v hv hx
      rw [hw, ← bne_iff_ne, hb] at hiff
      exact (Bool.eq_iff_iff.2 hiff).symm
    · rintro ⟨v, hv, hx, rfl⟩
      refine ⟨⟨v, hv, hx⟩, ?_⟩
      have hiff := h.writable x v hv hx
      rw [hw, ← bne_iff_ne] at hiff
      exact Bool.eq_iff_iff.2 hiff
  · intro h
    refine ⟨h.apart, fun x => ?_, fun x v hv hx => ?_⟩
    · rw [show (∃ v ∈ a.vmas, v.Has x) ↔ Covered Vma.Has a.vmas x from Iff.rfl,
        h.covered_iff]
      simp only [access_eq_some]
      grind
    · obtain ⟨-, -, hb⟩ := access_eq_some.1 (h.at_ hv hx)
      rw [hw, ← bne_iff_ne, hb]

-- ======== the conditions

variable (L)

/-- The list of pages lies where no region is, below the end of the
addresses. -/
def Vacant (a : AddressSpace w) (lins : List (BitVec w)) : Prop :=
  (∀ lin ∈ lins, lin.toNat < 2 ^ L.linBits) ∧ ∀ v ∈ a.vmas, ¬ v.Meets L lins

instance instDecidableVacant (a : AddressSpace w) (lins : List (BitVec w)) :
    Decidable (a.Vacant L lins) :=
  have := List.decidableBAll (fun lin : BitVec w => lin.toNat < 2 ^ L.linBits) lins
  have := List.decidableBAll (fun v : Vma w => ¬ v.Meets L lins) a.vmas
  instDecidableAnd

/-- What the growth of the stack over a list of pages needs. -/
def StackFits (a : AddressSpace w) (lins : List (BitVec w)) :
    Option (Vma w) → Prop
  | some v => lins = [] ∨ v.writable = true ∧ a.Vacant L lins
  | none => ∀ lin ∈ lins, ∃ v ∈ a.vmas, v.Has lin ∧ v.writable = true

instance instDecidableStackFits (a : AddressSpace w) (lins : List (BitVec w)) :
    (o : Option (Vma w)) → Decidable (a.StackFits L lins o)
  | some v =>
    inferInstanceAs
      (Decidable (lins = [] ∨ v.writable = true ∧ a.Vacant L lins))
  | none =>
    have := fun lin =>
      List.decidableBEx (fun v : Vma w => v.Has lin ∧ v.writable = true) a.vmas
    List.decidableBAll (fun lin => ∃ v ∈ a.vmas, v.Has lin ∧ v.writable = true) lins

/-- What an operation needs for the list to stay true: mapping goes where
no region is, `mprotect` changes no protection, `munmap` cuts no region. -/
def Fits (a : AddressSpace w) : Op w → Prop
  | .map start len _ _ => a.Vacant L (rangePages start len)
  | .mapKernel start len => a.Vacant L (rangePages start len)
  | .writeBytes _ _ => True
  | .mmap len prot => a.Vacant L (Op.range L a (.mmap len prot))
  | .mmapFixed addr len _ => a.Vacant L (rangePages addr len)
  | .protect start len prot =>
    ∀ v ∈ a.vmas, v.Meets L (rangePages start len) → v.writable = writes prot
  | .unmap start len =>
    ∀ v ∈ a.vmas, v.Meets L (rangePages start len) → pageDown start ≤ v.start
      ∧ v.end_ ≤ rangeEnd start len
  | .initBrk _ => True
  | .setBrk new => a.Vacant L (Op.range L a (.setBrk new))
  | .growStack bottom =>
    a.StackFits L (Op.range L a (.growStack bottom)) a.stackVma

instance instDecidableFits (a : AddressSpace w) :
    (op : Op w) → Decidable (a.Fits L op)
  | .map start len _ _ => instDecidableVacant L a (rangePages start len)
  | .mapKernel start len => instDecidableVacant L a (rangePages start len)
  | .writeBytes _ _ => instDecidableTrue
  | .mmap len prot => instDecidableVacant L a (Op.range L a (.mmap len prot))
  | .mmapFixed addr len _ => instDecidableVacant L a (rangePages addr len)
  | .protect start len prot => inferInstanceAs (Decidable
      (∀ v ∈ a.vmas, v.Meets L (rangePages start len) →
        v.writable = writes prot))
  | .unmap start len => inferInstanceAs (Decidable (∀ v ∈ a.vmas,
      v.Meets L (rangePages start len) → pageDown start ≤ v.start
        ∧ v.end_ ≤ rangeEnd start len))
  | .initBrk _ => instDecidableTrue
  | .setBrk new => instDecidableVacant L a (Op.range L a (.setBrk new))
  | .growStack bottom =>
    instDecidableStackFits L a (Op.range L a (.growStack bottom)) a.stackVma

variable {L}

-- ======== one step

/-- Every region is whole pages. -/
def AllShaped (a : AddressSpace w) : Prop := ∀ v ∈ a.vmas, v.Shaped

/-- The access after a loop over a list of pages. -/
theorem Effect.access {g : Option (Page w) → Option (Page w)}
    (h : Effect L a a' lins g) (x : BitVec w) :
    a'.access L x = if x.toNat < 2 ^ L.linBits ∧ L.Covers lins x
      then (g (a.view L x)).map (·.writable) else a.access L x := by
  rw [AddressSpace.access, AddressSpace.access, h.view]
  by_cases hlt : x.toNat < 2 ^ L.linBits
  · by_cases hcov : L.Covers lins x
    · rw [if_pos hlt, if_pos hcov, if_pos ⟨hlt, hcov⟩]
    · rw [if_pos hlt, if_neg hcov, if_neg fun hboth => hcov hboth.2,
        if_pos hlt]
  · rw [if_neg hlt, if_neg fun hboth => hlt hboth.1, if_neg hlt]

/-- What may not be accessed is not mapped. -/
theorem view_of_access (hlt : x.toNat < 2 ^ L.linBits)
    (h : a.access L x = none) : a.view L x = none := by
  rw [access, if_pos hlt] at h
  exact Option.map_eq_none_iff.1 h

/-- Whole pages are below the end of the addresses. -/
theorem below_of_pageDown (h : (pageDown x).toNat < 2 ^ L.linBits) :
    x.toNat < 2 ^ L.linBits := by
  rw [pageDown, toNat_and_not_FFF] at h
  rw [Layout.linBits, pow_add] at h ⊢
  omega

section Step

variable (hshape : a.AllShaped)
  (hm : Represents Vma.Has Vma.writable a.vmas (a.access L))
include hshape hm

/-- `mprotect`: the regions it meets must have the protection already. -/
theorem represents_protect {prot : U32}
    (heff : Effect L a a' lins (reprotect prot))
    (hvmas : a'.vmas = a.vmas) :
    Represents Vma.Has Vma.writable a'.vmas (a'.access L)
      ↔ ∀ v ∈ a.vmas, v.Meets L lins → v.writable = writes prot := by
  have haccess : ∀ x, x.toNat < 2 ^ L.linBits ∧ L.Covers lins x →
      a'.access L x = (a.access L x).map fun _ => writes prot := by
    intro x hD
    rw [heff.access, if_pos hD, access, if_pos hD.1, reprotect,
      Option.map_map, Option.map_map]
    rfl
  rw [hvmas]
  constructor
  · intro h' v hv hmeets
    obtain ⟨x, hx, hcov⟩ := hmeets
    have hhas := ((hshape v hv).mem_pages.1 hx).2
    have hold := hm.at_ hv hhas
    have hnew := h'.at_ hv hhas
    rw [haccess x ⟨(access_eq_some.1 hold).1, hcov⟩, hold, Option.map_some,
      Option.some.injEq] at hnew
    exact hnew.symm
  · intro h
    refine hm.assign (fun v hv x hx hD => h v hv ((hshape v hv).meets hx hD.2))
      haccess fun x hD => ?_
    rw [heff.access, if_neg hD]

/-- `munmap`: the regions it meets must lie inside its range. -/
theorem represents_unmap {s e : BitVec w} (hs : Aligned s) (he : Aligned e)
    (heff : Effect L a a' (pages s e) dropPage)
    (hvmas : a'.vmas = a.vmas.filter fun v => !(s ≤ v.start && v.end_ ≤ e)) :
    Represents Vma.Has Vma.writable a'.vmas (a'.access L)
      ↔ ∀ v ∈ a.vmas, v.Meets L (pages s e) → s ≤ v.start ∧ v.end_ ≤ e := by
  have hkeep : ∀ v : Vma w, (!(s ≤ v.start && v.end_ ≤ e)) = true
    ↔ ¬ (s ≤ v.start ∧ v.end_ ≤ e) := by
    intro v
    rw [Bool.not_eq_true', ← Bool.not_eq_true, Bool.and_eq_true,
      decide_eq_true_iff, decide_eq_true_iff]
  have hin : ∀ x, x.toNat < 2 ^ L.linBits ∧ L.Covers (pages s e) x →
    a'.access L x = none := by
    intro x hD
    rw [heff.access, if_pos hD]
    rfl
  rw [hvmas]
  constructor
  · intro h' v hv hmeets
    by_contra hout
    obtain ⟨x, hx, hcov⟩ := hmeets
    have hhas := ((hshape v hv).mem_pages.1 hx).2
    have hlt := (access_eq_some.1 (hm.at_ hv hhas)).1
    have hnew := h'.at_ (List.mem_filter.2 ⟨hv, (hkeep v).2 hout⟩) hhas
    rw [hin x ⟨hlt, hcov⟩] at hnew
    cases hnew
  · intro h
    refine hm.filter (fun v hv hk x hx hD => ?_) (fun v hv hk x hx => ?_)
      hin fun x hD => ?_
    · exact (hkeep v).1 hk (h v hv ((hshape v hv).meets hx hD.2))
    · have hinside : s ≤ v.start ∧ v.end_ ≤ e := by
        by_contra hout
        rw [(hkeep v).2 hout] at hk
        cases hk
      have hpage := (hshape v hv).mem_pages.1 ((hshape v hv).pageDown_mem hx)
      refine ⟨(access_eq_some.1 (hm.at_ hv hx)).1, pageDown x,
        (mem_pages hs he).2 ⟨hpage.1, ?_, ?_⟩,
        Layout.samePage_of_page (pageDown_page x).symm⟩
      · exact BitVec.le_trans hinside.1 hpage.2.1
      · exact Nat.lt_of_lt_of_le hpage.2.2 hinside.2
    · rw [heff.access, if_neg hD]

variable (hflat : L.Flat)
include hflat

/-- The list of pages meets no region when none of its pages has one. -/
theorem vacant_of_free (hlt : ∀ lin ∈ lins, lin.toNat < 2 ^ L.linBits)
    (hfree : ∀ lin ∈ lins, ∀ v ∈ a.vmas, ¬ v.Has lin) : a.Vacant L lins := by
  refine ⟨hlt, fun v hv hmeets => ?_⟩
  obtain ⟨x, hx, lin, hlin, hsame⟩ := hmeets
  have hhas := ((hshape v hv).mem_pages.1 hx).2
  have hxlt := (access_eq_some.1 (hm.at_ hv hhas)).1
  have hpage := hflat x lin hxlt (hlt lin hlin) hsame
  exact hfree lin hlin v hv ((hshape v hv).has_of_page hpage.symm hhas)

/-- Mapping a region that is pushed. -/
theorem represents_push {v : Vma w} {user : Bool} (hv : v.Shaped)
    (heff : Effect L a a' v.pages (widen v.prot user))
    (hvmas : a'.vmas = a.vmas ++ [v]) :
    Represents Vma.Has Vma.writable a'.vmas (a'.access L)
      ↔ a.Vacant L v.pages := by
  rw [hvmas]
  constructor
  · intro h'
    have hmem : v ∈ a.vmas ++ [v] :=
      List.mem_append_right _ (List.mem_singleton_self v)
    have hapart := (apart_append.1 h'.apart).2.2
    refine vacant_of_free hshape hm hflat (fun lin hlin => ?_) fun lin
      hlin u hu hhas => ?_
    · exact (access_eq_some.1 (h'.at_ hmem (hv.mem_pages.1 hlin).2)).1
    · exact hapart lin ⟨u, hu, hhas⟩ ⟨v, List.mem_singleton_self v,
        (hv.mem_pages.1 hlin).2⟩
  · rintro ⟨hlt, hvacant⟩
    have hfree : ∀ x, v.Has x → a.access L x = none := by
      intro x hx
      refine hm.none_iff.2 ?_
      rintro ⟨u, hu, hhas⟩
      exact hvacant u hu ((hshape u hu).meets hhas (hv.covers hx))
    have hbelow : ∀ x, v.Has x → x.toNat < 2 ^ L.linBits := fun x hx =>
      below_of_pageDown (hlt _ (hv.pageDown_mem hx))
    refine hm.push hfree (fun x hx => ?_) fun x hx => ?_
    · rw [heff.access, if_pos ⟨hbelow x hx, hv.covers hx⟩,
        view_of_access (hbelow x hx) (hfree x hx)]
      rfl
    · rw [heff.access, if_neg]
      rintro ⟨hxlt, lin, hlin, hsame⟩
      have hpage := hflat x lin hxlt (hlt lin hlin) hsame
      exact hx (hv.has_of_page hpage (hv.mem_pages.1 hlin).2)

/-- The stack, grown over a list of pages below its region. -/
theorem represents_grow {v v' : Vma w} {bottom : BitVec w} {prot : U32}
    (hprot : writes prot = true)
    {xs ys : List (Vma w)} (hv : a.vmas = xs ++ v :: ys)
    (hbottom : Aligned bottom)
    (hlt : bottom.toNat < v.start.toNat)
    (hv' : v' = { v with start := bottom })
    (heff : Effect L a a' (pages bottom v.start) (widen prot true))
    (hvmas : a'.vmas = xs ++ v' :: ys) :
    Represents Vma.Has Vma.writable a'.vmas (a'.access L)
      ↔ v.writable = true ∧ a.Vacant L (pages bottom v.start) := by
  have hmem : v ∈ a.vmas :=
    hv ▸ List.mem_append_right xs (List.mem_cons_self ..)
  have hvshape := hshape v hmem
  have hpages : ∀ lin, lin ∈ pages bottom v.start ↔ Aligned lin ∧ bottom ≤ lin
    ∧ lin < v.start :=
    fun lin => mem_pages hbottom hvshape.start
  have hle := BitVec.le_def.1 hvshape.le
  have hgrow : ∀ x, v'.Has x ↔ v.Has x ∨ bottom ≤ x ∧ x < v.start := by
    intro x
    subst hv'
    simp only [Vma.Has, BitVec.le_def, BitVec.lt_def]
    omega
  have hval : v'.writable = v.writable := by
    subst hv'
    rfl
  have hmem' : v' ∈ a'.vmas :=
    hvmas ▸ List.mem_append_right xs (List.mem_cons_self ..)
  -- The pages of the addresses below the region are the pages of the list.
  have hdown :
    ∀ x, bottom ≤ x ∧ x < v.start → pageDown x ∈ pages bottom v.start := by
    intro x hx
    refine (hpages _).2 ⟨aligned_pageDown x, ?_⟩
    exact Vma.Shaped.has_of_page (v := ⟨bottom, v.start, 0, .stack⟩)
      ⟨hbottom, hvshape.start, Nat.le_of_lt hlt⟩ (pageDown_page x) hx
  constructor
  · intro h'
    have hapart := h'.apart
    rw [hvmas, apart_grow hgrow (hv ▸ hm.apart)] at hapart
    have hfree : ∀ lin ∈ pages bottom v.start, ∀ u ∈ a.vmas, ¬ u.Has lin := by
      intro lin hlin u hu hhas
      have hin := ((hpages lin).1 hlin).2
      rw [hv] at hu
      rcases List.mem_append.1 hu with hxs | hcons
      · exact hapart lin hin ⟨u, List.mem_append_left ys hxs, hhas⟩
      rcases List.mem_cons.1 hcons with rfl | hys
      · exact absurd (BitVec.le_def.1 hhas.1)
          (Nat.not_le_of_lt (BitVec.lt_def.1 hin.2))
      · exact hapart lin hin ⟨u, List.mem_append_right xs hys, hhas⟩
    have haccess :
      ∀ lin ∈ pages bottom v.start, a'.access L lin = some v.writable := by
      intro lin hlin
      rw [← hval]
      exact h'.at_ hmem' ((hgrow lin).2 (Or.inr ((hpages lin).1 hlin).2))
    have hbelow : ∀ lin ∈ pages bottom v.start,
      lin.toNat < 2 ^ L.linBits := fun lin hlin =>
      (access_eq_some.1 (haccess lin hlin)).1
    refine ⟨?_, vacant_of_free hshape hm hflat hbelow hfree⟩
    have hlow : bottom ∈ pages bottom v.start :=
      (hpages bottom).2 ⟨hbottom, BitVec.le_refl _, hlt⟩
    have hnew := haccess bottom hlow
    have hnone : a.access L bottom = none :=
      hm.none_iff.2 fun ⟨u, hu, hhas⟩ => hfree bottom hlow u hu hhas
    rw [heff.access, if_pos ⟨hbelow bottom hlow, bottom, hlow, rfl⟩,
      view_of_access (hbelow bottom hlow) hnone] at hnew
    exact (Option.some.inj hnew).symm.trans hprot
  · rintro ⟨hwrite, hbelow, hvacant⟩
    have hfree : ∀ x, bottom ≤ x ∧ x < v.start → a.access L x = none := by
      intro x hx
      refine hm.none_iff.2 ?_
      rintro ⟨u, hu, hhas⟩
      exact hvacant u hu ((hshape u hu).meets hhas
        ⟨_, hdown x hx, Layout.samePage_of_page (pageDown_page x).symm⟩)
    have hlow : ∀ x, bottom ≤ x
      ∧ x < v.start → x.toNat < 2 ^ L.linBits := fun x hx =>
      below_of_pageDown (hbelow _ (hdown x hx))
    rw [hvmas]
    rw [hv] at hm
    refine hm.grow hgrow hval hfree (fun x hx => ?_) fun x hx => ?_
    · rw [heff.access,
        if_pos ⟨hlow x hx, _, hdown x hx,
        Layout.samePage_of_page (pageDown_page x).symm⟩,
        view_of_access (hlow x hx) (hfree x hx), hwrite, ← hprot]
      rfl
    · rw [heff.access, if_neg]
      rintro ⟨hxlt, lin, hlin, hsame⟩
      have hpage := hflat x lin hxlt (hbelow lin hlin) hsame
      refine hx (Vma.Shaped.has_of_page (v := ⟨bottom, v.start, 0, .stack⟩)
        ⟨hbottom, hvshape.start, Nat.le_of_lt hlt⟩ hpage ?_)
      exact ((hpages lin).1 hlin).2

/-- Without a region for the stack its growth must stay where others are
that may be written. -/
theorem represents_bare {prot : U32} (hprot : writes prot = true)
    (hbelow : ∀ lin ∈ lins, lin.toNat < 2 ^ L.linBits)
    (heff : Effect L a a' lins (widen prot true))
    (hvmas : a'.vmas = a.vmas) :
    Represents Vma.Has Vma.writable a'.vmas (a'.access L)
      ↔ ∀ lin ∈ lins, ∃ v ∈ a.vmas, v.Has lin ∧ v.writable = true := by
  have hwide : ∀ o : Option (Page w),
    (widen prot true o).map (·.writable) = some true := by
    intro o
    cases o with
    | none => exact congrArg some hprot
    | some pg =>
      show some (pg.writable || writes prot) = some true
      rw [hprot, Bool.or_true]
  rw [hvmas]
  constructor
  · intro h' lin hlin
    have hnew : a'.access L lin = some true := by
      rw [heff.access, if_pos ⟨hbelow lin hlin, lin, hlin, rfl⟩, hwide]
    exact (h'.some_iff lin true).1 hnew
  · intro h
    have hcov : ∀ x, x.toNat < 2 ^ L.linBits
      ∧ L.Covers lins x → a.access L x = some true := by
      rintro x ⟨hxlt, lin, hlin, hsame⟩
      obtain ⟨v, hv, hhas, hwrite⟩ := h lin hlin
      have hpage := hflat x lin hxlt (hbelow lin hlin) hsame
      rw [← hwrite]
      exact hm.at_ hv ((hshape v hv).has_of_page hpage hhas)
    refine hm.congr fun x => ?_
    rw [heff.access]
    split
    case isTrue hD => rw [hwide, hcov x hD]
    case isFalse => rfl

end Step

-- ======== the region list

-- Building tables and setting leaves leave the list alone.

theorem vmas_tableFor (p : List (Fin (fanout w)))
    (a : AddressSpace w) (t : BitVec w) :
    (a.tableFor L t p).2.vmas = a.vmas := by
  induction p generalizing a t with
  | nil => rfl
  | cons i p ih =>
    rw [tableFor]
    dsimp only
    split
    · exact ih _ _
    · exact ih _ _

/-- Page operations leave the region list alone; only the calls below change
it. -/
theorem vmas_mapPage (prot : U32) (user : Bool)
    (a : AddressSpace w) (lin : BitVec w) :
    (a.mapPage L prot user lin).vmas = a.vmas := by
  rw [mapPage]
  split
  · exact vmas_tableFor _ _ _
  · exact vmas_tableFor _ _ _

theorem vmas_protectPage (prot : U32) (a : AddressSpace w) (lin : BitVec w) :
    (a.protectPage L prot lin).vmas = a.vmas := by
  rw [protectPage]
  split
  · rfl
  · exact vmas_tableFor _ _ _

theorem vmas_unmapPage (a : AddressSpace w) (lin : BitVec w) :
    (a.unmapPage L lin).vmas = a.vmas := by
  rw [unmapPage]
  split <;> rfl

omit [EntryWidth w] in
theorem vmas_foldl {op : AddressSpace w → BitVec w → AddressSpace w}
    (hop : ∀ a lin, (op a lin).vmas = a.vmas) (lins : List (BitVec w))
    (a : AddressSpace w) :
    (lins.foldl op a).vmas = a.vmas := by
  induction lins generalizing a with
  | nil => rfl
  | cons lin lins ih => exact (ih _).trans (hop a lin)

theorem vmas_mapRange (a : AddressSpace w) (start len : BitVec w)
    (prot : U32) (user : Bool) :
    (a.mapRange L start len prot user).vmas = a.vmas :=
      vmas_foldl (vmas_mapPage prot user) _ a

/-- A mapping records its range, rounded to pages, as a region. -/
theorem vmas_map (a : AddressSpace w) (start len : BitVec w)
    (prot : U32) (kind : VmaKind) :
    (a.map L start len prot kind).vmas
      = a.vmas ++ [⟨pageDown start, rangeEnd start len, prot, kind⟩] :=
  congrArg (· ++ _) (vmas_mapRange a start len prot true)

omit [EntryWidth w] in
/-- The first region of the stack, and the list with it moved down. -/
theorem stackVma_split {vmas : List (Vma w)} {v : Vma w}
    (h : vmas.find? (·.kind = .stack) = some v) :
    ∃ xs ys, vmas = xs ++ v :: ys
      ∧ ∀ bottom, lowerStack bottom vmas
        = xs ++ { v with start := bottom } :: ys := by
  induction vmas with
  | nil => cases h
  | cons u vmas ih =>
    rw [List.find?_cons] at h
    by_cases hu : u.kind = .stack
    · rw [decide_eq_true hu] at h
      cases h
      refine ⟨[], vmas, rfl, fun bottom => ?_⟩
      rw [lowerStack, if_pos hu]
      rfl
    · rw [decide_eq_false hu] at h
      obtain ⟨xs, ys, hsplit, hlower⟩ := ih h
      refine ⟨u :: xs, ys, congrArg (u :: ·) hsplit, fun bottom => ?_⟩
      rw [lowerStack, if_neg hu, hlower]
      rfl

omit [EntryWidth w] in
/-- Where there is no region for the stack, none is moved. -/
theorem lowerStack_none {vmas : List (Vma w)}
    (h : vmas.find? (·.kind = .stack) = none)
    (bottom : BitVec w) : lowerStack bottom vmas = vmas := by
  induction vmas with
  | nil => rfl
  | cons u vmas ih =>
    rw [List.find?_cons] at h
    by_cases hu : u.kind = .stack
    · rw [decide_eq_true hu] at h
      cases h
    · rw [decide_eq_false hu] at h
      rw [lowerStack, if_neg hu, ih h]

omit [EntryWidth w] in
/-- A region that is pushed has the shape the others have. -/
theorem AllShaped.pushed (h : a.AllShaped) {v : Vma w} (hv : v.Shaped)
    (hvmas : a'.vmas = a.vmas ++ [v]) :
    a'.AllShaped := by
  intro u hu
  rw [hvmas] at hu
  rcases List.mem_append.1 hu with hold | hnew
  · exact h u hold
  · exact List.mem_singleton.1 hnew ▸ hv

-- ======== every operation

/-- What a layout has besides flat addresses: a stack that ends at a page
boundary among them. -/
structure Regular (L : Layout w) : Prop where
  flat : L.Flat
  top_aligned : Aligned L.stackTop
  top_le : L.stackTop.toNat ≤ 2 ^ L.linBits

/-- A step of the list: it is still whole pages, and true when the
operation fitted. -/
structure Advances (L : Layout w) (a a' : AddressSpace w) (fits : Prop) :
    Prop where
  shaped : a'.AllShaped
  iff : Represents Vma.Has Vma.writable a'.vmas (a'.access L) ↔ fits

/-- Bookkeeping is not seen by the tables. -/
theorem access_samePages (h : SamePages a a') (x : BitVec w) :
    a'.access L x = a.access L x := by
  rw [access, access, (view_congr h.mem h.cr3).2.2]

/-- Access is read off the tables. -/
theorem access_sameTables (h : SameTables L a a') (x : BitVec w) :
    a'.access L x = a.access L x := by
  have hsome : ∀ b, a'.access L x = some b ↔ a.access L x = some b := by
    intro b
    rw [access_eq_some, access_eq_some, h.resolve, h.entry]
  exact Option.ext hsome

theorem vacant_nil : a.Vacant L [] :=
  ⟨nofun, fun _ _ ⟨_, _, _, hlin, _⟩ => absurd hlin List.not_mem_nil⟩

section Operations

variable (hshape : a.AllShaped)
  (hm : Represents Vma.Has Vma.writable a.vmas (a.access L))
include hshape hm

/-- Nothing that the tables or the list can tell. -/
theorem advances_same {fits : Prop} (hfits : fits)
    (haccess : ∀ x, a'.access L x = a.access L x)
    (hvmas : a'.vmas = a.vmas) : Advances L a a' fits := by
  refine ⟨fun v hv => hshape v (hvmas ▸ hv), iff_of_true ?_ hfits⟩
  rw [hvmas]
  exact hm.congr haccess

/-- One lemma for each call: the list goes on matching exactly when the call
fits. -/
theorem advances_protect {start len : BitVec w} {prot : U32}
    (heff : Effect L a (a.protect L start len prot) (rangePages start len)
      (reprotect prot)) :
    Advances L a (a.protect L start len prot)
      (a.Fits L (.protect start len prot)) := by
  have hvmas : (a.protect L start len prot).vmas = a.vmas :=
    vmas_foldl (vmas_protectPage prot) _ a
  exact ⟨fun v hv => hshape v (hvmas ▸ hv),
    represents_protect hshape hm heff hvmas⟩

theorem advances_unmap {start len : BitVec w}
    (heff : Effect L a (a.unmap L start len) (rangePages start len) dropPage) :
    Advances L a (a.unmap L start len) (a.Fits L (.unmap start len)) := by
  have hvmas : (a.unmap L start len).vmas
      = a.vmas.filter fun v =>
        !(pageDown start ≤ v.start && v.end_ ≤ rangeEnd start len) :=
    congrArg (List.filter _) (vmas_foldl vmas_unmapPage _ a)
  refine ⟨fun v hv => hshape v ?_,
    represents_unmap hshape hm (aligned_pageDown start)
    (aligned_rangeEnd start len) heff hvmas⟩
  rw [hvmas] at hv
  exact (List.mem_filter.1 hv).1

variable (hL : Regular L)
include hL

/-- A range mapped and pushed. -/
theorem advances_push {start len : BitVec w} {prot : U32}
    {k : VmaKind} {user : Bool}
    (heff : Effect L a a' (rangePages start len) (widen prot user))
    (hvmas : a'.vmas
      = a.vmas ++ [⟨pageDown start, rangeEnd start len, prot, k⟩]) :
    Advances L a a' (a.Vacant L (rangePages start len)) :=
  ⟨hshape.pushed (Vma.shaped_range _ _ _ _) hvmas,
    represents_push hshape hm hL.flat (Vma.shaped_range _ _ _ _) heff hvmas⟩

theorem advances_mmap {len : BitVec w} {prot : U32}
    (heff : Effect L a (a.mmap L len prot).2 (Op.range L a (.mmap len prot))
      (widen prot true)) :
    Advances L a (a.mmap L len prot).2 (a.Fits L (.mmap len prot)) := by
  rw [Fits]
  by_cases hroom :
    a.mmapTop.toNat + (pageUp w len.toNat).toNat > L.stackLimit.toNat
  · have hrange : Op.range L a (.mmap len prot) = [] := if_pos hroom
    have hsame : (a.mmap L len prot).2 = a := by
      rw [mmap]
      dsimp only
      rw [if_pos hroom]
    rw [hrange, hsame]
    exact advances_same hshape hm vacant_nil (fun _ => rfl) rfl
  · have hrange : Op.range L a (.mmap len prot)
      = rangePages a.mmapTop (pageUp w len.toNat) :=
      if_neg hroom
    rw [hrange] at heff ⊢
    refine advances_push hshape hm hL (k := .mapping) heff ?_
    rw [mmap]
    dsimp only
    rw [if_neg hroom]
    exact vmas_map _ _ _ _ _

theorem advances_setBrk {new : BitVec w}
    (heff : Effect L a (a.setBrk L new).2 (Op.range L a (.setBrk new))
      (widen (PROT_READ ||| PROT_WRITE) true)) :
    Advances L a (a.setBrk L new).2 (a.Fits L (.setBrk new)) := by
  rw [Fits]
  by_cases hbad : new < a.brkBase ∨ L.mmapBase < new
  · have hrange : Op.range L a (.setBrk new) = [] := if_pos hbad
    have hsame : (a.setBrk L new).2 = a := by rw [setBrk, if_pos hbad]
    rw [hrange, hsame]
    exact advances_same hshape hm vacant_nil (fun _ => rfl) rfl
  by_cases hmore : pageUp w a.brk.toNat < pageUp w new.toNat
  · have hrange : Op.range L a (.setBrk new)
        = rangePages (pageUp w a.brk.toNat)
          (pageUp w new.toNat - pageUp w a.brk.toNat) :=
      (if_neg hbad).trans (if_pos hmore)
    rw [hrange] at heff ⊢
    refine advances_push hshape hm hL (k := .heap) heff ?_
    rw [setBrk, if_neg hbad]
    dsimp only
    rw [if_pos hmore]
    exact vmas_map _ _ _ _ _
  · have hrange : Op.range L a (.setBrk new) = [] :=
      (if_neg hbad).trans (if_neg hmore)
    have hsame : (a.setBrk L new).2 = { a with brk := new } := by
      rw [setBrk, if_neg hbad]
      dsimp only
      rw [if_neg hmore]
    rw [hrange, hsame]
    exact advances_same hshape hm vacant_nil
      (access_samePages (.setBreak a _ _)) rfl

theorem advances_growStack {newBottom : BitVec w}
    (heff : Effect L a (a.growStack L newBottom)
      (Op.range L a (.growStack newBottom))
      (widen (PROT_READ ||| PROT_WRITE) true)) :
    Advances L a (a.growStack L newBottom)
      (a.Fits L (.growStack newBottom)) := by
  rw [Fits]
  have hbottom := aligned_pageDown newBottom
  by_cases hlow :
    pageDown newBottom < (a.stackVma.map (·.start)).getD L.stackTop
  · have hrange :
        Op.range L a (.growStack newBottom) = rangePages (pageDown newBottom)
        ((a.stackVma.map (·.start)).getD L.stackTop - pageDown newBottom) :=
          if_pos hlow
    have hvmas : (a.growStack L newBottom).vmas
      = lowerStack (pageDown newBottom) a.vmas := by
      rw [growStack]
      dsimp only
      rw [if_pos hlow]
      exact congrArg (lowerStack _) (vmas_mapRange a _ _ _ _)
    rw [hrange] at heff ⊢
    cases hstack : a.stackVma with
    | some v =>
      rw [hstack, Option.map_some, Option.getD_some] at hlow heff
      rw [Option.map_some, Option.getD_some]
      obtain ⟨xs, ys, hsplit, hlower⟩ := stackVma_split hstack
      have hv := hshape v
        (hsplit ▸ List.mem_append_right xs (List.mem_cons_self ..))
      rw [rangePages_sub hbottom hv.start (Nat.le_of_lt hlow)] at heff ⊢
      rw [hlower] at hvmas
      have hiff :=
        represents_grow hshape hm hL.flat (by decide) hsplit hbottom hlow
          rfl heff hvmas
      refine ⟨fun u hu => ?_,
        hiff.trans ⟨Or.inr, fun h => h.resolve_left fun hnil => ?_⟩⟩
      · rw [hvmas] at hu
        rcases List.mem_append.1 hu with hxs | hcons
        · exact hshape u (hsplit ▸ List.mem_append_left _ hxs)
        rcases List.mem_cons.1 hcons with rfl | hys
        · exact ⟨hbottom, hv.end_, (Nat.le_of_lt hlow).trans hv.le⟩
        · exact hshape u
            (hsplit ▸ List.mem_append_right xs (List.mem_cons_of_mem _ hys))
      · have hmem : pageDown newBottom ∈ pages (pageDown newBottom) v.start :=
          (mem_pages hbottom hv.start).2 ⟨hbottom, BitVec.le_refl _, hlow⟩
        rw [hnil] at hmem
        cases hmem
    | none =>
      rw [hstack, Option.map_none, Option.getD_none] at hlow heff
      rw [Option.map_none, Option.getD_none]
      rw [lowerStack_none hstack] at hvmas
      rw [rangePages_sub hbottom hL.top_aligned (Nat.le_of_lt hlow)] at heff ⊢
      refine ⟨fun u hu => hshape u (hvmas ▸ hu),
        represents_bare hshape hm hL.flat (by decide)
        (fun lin hlin => ?_) heff hvmas⟩
      have hlt := ((mem_pages hbottom hL.top_aligned).1 hlin).2.2
      exact lt_of_lt_of_le hlt hL.top_le
  · have hrange : Op.range L a (.growStack newBottom) = [] := if_neg hlow
    have hsame : a.growStack L newBottom = a := by
      rw [growStack]
      dsimp only
      rw [if_neg hlow]
    rw [hrange, hsame]
    refine advances_same hshape hm ?_ (fun _ => rfl) rfl
    cases a.stackVma with
    | some v => exact Or.inl rfl
    | none =>
      intro v hv
      cases hv

/-- What an operation needs is exactly what the list needs. -/
theorem advances_apply (hs : a.Sound L) (op : Op w)
    (hfit : (op.apply L a).nextPhys ≤ 2 ^ L.physBits) :
    Advances L a (op.apply L a) (a.Fits L op) := by
  cases op with
  | map start len prot kind =>
    exact advances_push hshape hm hL
      (Effect.apply hs (.map start len prot kind) nofun hfit) (vmas_map ..)
  | mapKernel start len =>
    refine advances_push hshape hm hL
      (Effect.apply hs (.mapKernel start len) nofun hfit) (k := .system) ?_
    exact congrArg (· ++ _) (vmas_mapRange a start len _ false)
  | writeBytes lin data =>
    obtain ⟨n, hcopied, -⟩ := copied_writeBytes hs lin data
    refine advances_same hshape hm trivial (access_sameTables hcopied.same) ?_
    show (a.writeBytes L lin data).2.vmas = a.vmas
    rw [hcopied.same.rest]
  | mmap len prot =>
    exact advances_mmap hshape hm hL
      (Effect.apply hs (.mmap len prot) nofun hfit)
  | mmapFixed addr len prot =>
    exact advances_push hshape hm hL
      (Effect.apply hs (.mmapFixed addr len prot) nofun hfit)
      (k := .mapping) (vmas_map ..)
  | protect start len prot =>
    exact advances_protect hshape hm
      (Effect.apply hs (.protect start len prot) nofun hfit)
  | unmap start len =>
    exact advances_unmap hshape hm
      (Effect.apply hs (.unmap start len) nofun hfit)
  | initBrk addr =>
    exact advances_same hshape hm trivial (access_samePages (.setBreak a _ _))
      rfl
  | setBrk new =>
    exact advances_setBrk hshape hm hL
      (Effect.apply hs (.setBrk new) nofun hfit)
  | growStack bottom =>
    exact advances_growStack hshape hm hL
      (Effect.apply hs (.growStack bottom) nofun hfit)

end Operations

-- ======== runs

/-- Every operation of a run finds what it needs. -/
def AllFit (L : Layout w) (a : AddressSpace w) : List (Op w) → Prop
  | [] => True
  | op :: ops => a.Fits L op ∧ AllFit L (op.apply L a) ops

instance instDecidableAllFit (L : Layout w) (a : AddressSpace w) :
    (ops : List (Op w)) → Decidable (AllFit L a ops)
  | [] => instDecidableTrue
  | op :: ops =>
    have := instDecidableAllFit L (op.apply L a) ops
    inferInstanceAs (Decidable (a.Fits L op ∧ AllFit L (op.apply L a) ops))

/-- The list is true throughout a run when every operation finds what it
needs, and only then. -/
theorem matches_run (hL : Regular L) (hs : a.Sound L)
    (hshape : a.AllShaped) (hm : a.Matches L)
    (ops : List (Op w)) (hfit : (a.run L ops).nextPhys ≤ 2 ^ L.physBits) :
    (∀ k, (a.run L (ops.take k)).Matches L) ↔ AllFit L a ops := by
  induction ops generalizing a with
  | nil =>
    refine iff_of_true (fun k => ?_) trivial
    rw [List.take_nil]
    exact hm
  | cons op ops ih =>
    have hnext := (nextPhys_run (L := L) _ ops).trans hfit
    obtain ⟨hshape', hiff⟩ :=
      advances_apply hshape (matches_iff.1 hm) hL hs op hnext
    rw [← matches_iff] at hiff
    rw [AllFit, ← hiff]
    constructor
    · intro h
      have hstep := h 1
      exact ⟨hstep,
        (ih (hs.apply op hnext) hshape' hstep hfit).1 fun k => h (k + 1)⟩
    · rintro ⟨hstep, hrest⟩ k
      cases k with
      | zero => exact hm
      | succ k => exact (ih (hs.apply op hnext) hshape' hstep hfit).2 hrest k

/-- An empty address space and an empty list. -/
theorem matches_new (hfit : (new L).nextPhys ≤ 2 ^ L.physBits) :
    (new L).Matches L := by
  refine matches_iff.2 (.nil fun x => ?_)
  have hnone : (new L).frameOf L x = none := by
    cases hf : (new L).frameOf L x with
    | none => rfl
    | some f =>
      have hlen := L.length_indices x
      rw [(frameAt_new L hfit hf).1] at hlen
      cases hlen
  rw [access, view_eq_none.2 hnone]
  exact ite_self _

/-- The two layouts the program has. -/
theorem regular_os : Regular Layout.os :=
  ⟨Layout.flat_os, (aligned_iff _).2 (by decide), by decide⟩

theorem regular_os64 : Regular Layout.os64 :=
  ⟨Layout.flat_os64, (aligned_iff _).2 (by decide), by decide⟩

/-- In either layer, as long as there are frames: the region list agrees
with the page tables throughout a run exactly when mapping only goes where
no region is, `mprotect` changes no protection and `munmap` cuts no
region. -/
theorem vmas_match_iff (ops : List (Op 32)) (ops' : List (Op 64)) :
    (((new Layout.os).run Layout.os ops).nextPhys ≤ 2 ^ 32 →
      ((∀ k, ((new Layout.os).run Layout.os (ops.take k)).Matches Layout.os)
        ↔ AllFit Layout.os (new Layout.os) ops))
    ∧ (((new Layout.os64).run Layout.os64 ops').nextPhys ≤ 2 ^ 52 →
      ((∀ k, ((new Layout.os64).run Layout.os64 (ops'.take k)).Matches Layout.os64)
        ↔ AllFit Layout.os64 (new Layout.os64) ops')) := by
  constructor
  · intro hfit
    exact matches_run regular_os (sound_new _ (by decide)) nofun
      (matches_new (by decide)) ops hfit
  · intro hfit
    exact matches_run regular_os64 (sound_new _ (by decide)) nofun
      (matches_new (by decide)) ops' hfit

/-- An image, a heap and a mapping that comes and goes. -/
abbrev tidyRun (w : Nat) : List (Op w) :=
  [.map 0x400000 0x2000 7 .image, .initBrk 0x402000,
    .setBrk 0x403010, .mmap 0x1800 1,
    .protect 0x402000 0x1000 3, .mmapFixed 0x600000 0x1000 3,
      .unmap 0x5FF000 0x3000]

theorem vmas_match_tidyRun :
    (∀ k, ((new Layout.os).run Layout.os ((tidyRun 32).take k)).Matches
      Layout.os)
      ∧ ∀ k, ((new Layout.os64).run Layout.os64 ((tidyRun 64).take k)).Matches
        Layout.os64 :=
  ⟨((vmas_match_iff (tidyRun 32) (tidyRun 64)).1 (by decide +kernel)).2
    (by decide +kernel),
    ((vmas_match_iff (tidyRun 32) (tidyRun 64)).2 (by decide +kernel)).2
      (by decide +kernel)⟩

/-- An image of two pages and a `munmap` of the first. -/
abbrev cutRun (w : Nat) : List (Op w) :=
  [.map 0x400000 0x2000 7 .image, .unmap 0x400000 0x1000]

/-- The region is still listed whole. -/
theorem not_matches_cutRun :
    ¬ ((new Layout.os).run Layout.os (cutRun 32)).Matches Layout.os
      ∧ ¬ ((new Layout.os64).run Layout.os64 (cutRun 64)).Matches
        Layout.os64 := by
  constructor
  · intro h
    have hpresent := (h.present 0x400000).2 (by decide +kernel)
    exact absurd hpresent.2 (by decide +kernel)
  · intro h
    have hpresent := (h.present 0x400000).2 (by decide +kernel)
    exact absurd hpresent.2 (by decide +kernel)

end AddressSpace

end Remu.Os
