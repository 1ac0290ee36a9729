/-
What the page tables say.

A `Mapping` is the abstract content of a walk: which entries it reads, the
frame it ends in and the combined protection. `mapping` reads it off a
memory without running anything; it looks at no accessed or dirty bit, so
it does not move when the walker sets them (`descend_congr`,
`legacyMapping_congr`), and it is a property of the page, not of the
address (`mapping_page`). The PAE page-directory-pointer entries are the
exception: there the accessed bit is reserved, and they are read as they
are.
-/
import Remu.X64.Paging
import Remu.X64.Bus

namespace Remu.X64

open Word ByteRam

-- ======== mappings

/-- The entries a walk reads below the page-directory pointers, top down,
and what they grant. -/
structure Mapping where
  path : List U64
  frame : U64
  user : Bool
  writable : Bool
  nx : Bool

/-- The bits the walker sets. -/
abbrev pte.MARKS : U64 := pte.A ||| pte.D

/-- What a 2-level table with entries `rd` says about `lin`. -/
def legacyMapping (rd : U64 → U64) (cr3 : U64) (pse : Bool) (lin : U64) :
    Option Mapping :=
  let lin32 : U64 := (lin.setWidth 32).setWidth 64
  let pdeAddr := (cr3 &&& (0xFFFFF000 : U64)) + ((lin32 >>> 22) <<< 2)
  let pde := rd pdeAddr
  if pde &&& pte.P = 0 then none
  else if pde &&& pte.PS != 0 && pse then
    some { path := [pdeAddr],
           frame := (pde &&& 0xFFC00000) ||| (lin32 &&& 0x003FF000),
           user := pde &&& pte.US != 0,
           writable := pde &&& pte.RW != 0,
           nx := false }
  else
    let pteAddr :=
      (pde &&& (0xFFFFF000 : U64)) + (((lin32 >>> 12) &&& (0x3FF : U64)) <<< 2)
    let ptev := rd pteAddr
    if ptev &&& pte.P = 0 then none
    else some { path := [pdeAddr, pteAddr],
                frame := ptev &&& 0xFFFFF000,
                user := pde &&& ptev &&& pte.US != 0,
                writable := pde &&& ptev &&& pte.RW != 0,
                nx := false }

/-- Shift amounts are below forty. -/
instance instNeZeroForty : NeZero 40 := ⟨by decide⟩

/-- An entry of a wide table that stops the walk with a reserved-bit
fault. -/
def wideRsvd (long nxe leafLevel : Bool) (shift : Fin 40) (e : U64) : Bool :=
  let largeOk := shift == 21 || (long && shift == 30)
  (!nxe && e &&& pte.NX != 0) || e &&& 0x7FF0000000000000 != 0
    || (!leafLevel && !largeOk && e &&& pte.PS != 0)

/-- The entries below `table` on the way to `lin` and the frame they end
in. -/
def descend (rd : U64 → U64) (lin : U64) (long nxe : Bool) :
    List (Fin 40) → U64 → Option (List U64 × U64)
  | [], _ => some ([], 0)
  | shift :: rest, table =>
    let addr := (table &&& PHYS_MASK)
      + (((lin >>> shift.val) &&& (0x1FF : U64)) <<< 3)
    let e := rd addr
    if e &&& pte.P = 0 then none
    else if wideRsvd long nxe rest.isEmpty shift e then none
    else if rest.isEmpty || e &&& pte.PS != 0 then
      let mask := pageMask rest.isEmpty shift
      if e &&& PHYS_MASK &&& mask ≠ 0 then none
      else some ([addr],
        (e &&& PHYS_MASK &&& ~~~mask) ||| (lin &&& mask &&& ~~~0xFFF))
    else (descend rd lin long nxe rest (e &&& PHYS_MASK)).map fun r =>
      (addr :: r.1, r.2)

/-- The address of the page-directory-pointer entry of `lin`. -/
def pdpteAddr (cr3 lin : U64) : U64 :=
  (cr3 &&& (0xFFFFFFE0 : U64)) + (((lin >>> 30) &&& (3 : U64)) <<< 3)

/-- Where a PAE walk starts. -/
def pdpteTable (rd : U64 → U64) (cr3 lin : U64) : Option U64 :=
  let pdpte := rd (pdpteAddr cr3 lin)
  if pdpte &&& pte.P = 0 then none
  else if pdpte &&& (pte.RW ||| pte.US ||| pte.PS ||| pte.NX ||| 0x1E0) ≠ 0 then none
  else some (pdpte &&& PHYS_MASK)

def wideTable (rd : U64 → U64) (cr3 : U64) (long : Bool) (lin : U64) :
    Option U64 :=
  if long then some (cr3 &&& PHYS_MASK) else pdpteTable rd cr3 lin

/-- What a PAE or long-mode table with entries `rd` says about `lin`. -/
def wideMapping (rd : U64 → U64) (cr3 : U64) (long nxe : Bool) (lin : U64) :
    Option Mapping :=
  (wideTable rd cr3 long lin).bind fun table =>
    (descend rd lin long nxe (if long then [39, 30, 21, 12] else [21, 12])
      table).map fun r =>
      { path := r.1, frame := r.2,
        user := r.1.all fun a => rd a &&& pte.US != 0,
        writable := r.1.all fun a => rd a &&& pte.RW != 0,
        nx := r.1.any fun a => nxe && rd a &&& pte.NX != 0 }

-- ======== blind to the marks

/-- The fields of an entry that a walk looks at avoid the marks. -/
theorem and_eq_of_unmarked {x y t : U64}
    (h : x &&& ~~~pte.MARKS = y &&& ~~~pte.MARKS)
    (ht : t &&& pte.MARKS = 0) : x &&& t = y &&& t := and_eq_of_outside h ht

theorem wideRsvd_congr {long nxe leafLevel : Bool}
    {shift : Fin 40} {e e' : U64}
    (h : e' &&& ~~~pte.MARKS = e &&& ~~~pte.MARKS) :
    wideRsvd long nxe leafLevel shift e'
      = wideRsvd long nxe leafLevel shift e := by
  unfold wideRsvd
  rw [and_eq_of_unmarked h (t := pte.NX) (by decide),
    and_eq_of_unmarked h (t := 0x7FF0000000000000) (by decide),
    and_eq_of_unmarked h (t := pte.PS) (by decide)]

section Congr

variable {rd rd' : U64 → U64} {cr3 lin : U64} {long nxe pse : Bool}

/-- A descent only depends on the entries it reads, marks aside. -/
theorem descend_congr {shifts : List (Fin 40)} {table : U64}
    {r : List U64 × U64} (hr : descend rd lin long nxe shifts table = some r)
    (h : ∀ a ∈ r.1, rd' a &&& ~~~pte.MARKS = rd a &&& ~~~pte.MARKS) :
    descend rd' lin long nxe shifts table = some r := by
  induction shifts generalizing table r with
  | nil => exact hr
  | cons shift rest ih =>
    simp only [descend] at hr ⊢
    generalize hadd :
      (table &&& PHYS_MASK) + (((lin >>> shift.val) &&& (0x1FF : U64)) <<< 3) = addr
      at hr ⊢
    -- The entry at `addr` is on the path whatever happens below it.
    have hmem : addr ∈ r.1 := by
      split at hr
      · cases hr
      split at hr
      · cases hr
      split at hr
      · split at hr
        · cases hr
        · cases hr
          exact List.mem_singleton.2 rfl
      · obtain ⟨r', -, rfl⟩ := Option.map_eq_some_iff.1 hr
        exact List.mem_cons_self
    have he := h addr hmem
    rw [and_eq_of_unmarked he (t := pte.P) (by decide), wideRsvd_congr he,
      and_eq_of_unmarked he (t := pte.PS) (by decide),
      and_eq_of_unmarked he (t := PHYS_MASK) (by decide)]
    split at hr
    · cases hr
    case isFalse hp =>
    rw [if_neg hp]
    split at hr
    · cases hr
    case isFalse hrsvd =>
    rw [if_neg hrsvd]
    split at hr
    case isTrue hleaf => rw [if_pos hleaf]; exact hr
    case isFalse hleaf =>
    rw [if_neg hleaf]
    obtain ⟨r', hr', rfl⟩ := Option.map_eq_some_iff.1 hr
    rw [ih hr' fun a ha => h a (List.mem_cons_of_mem _ ha)]
    rfl

theorem legacyMapping_congr {m : Mapping}
    (hm : legacyMapping rd cr3 pse lin = some m)
    (h : ∀ a ∈ m.path, rd' a &&& ~~~pte.MARKS = rd a &&& ~~~pte.MARKS) :
    legacyMapping rd' cr3 pse lin = some m := by
  simp only [legacyMapping] at hm ⊢
  generalize (lin.setWidth 32).setWidth 64 = lin32 at hm ⊢
  generalize (cr3 &&& (0xFFFFF000 : U64)) + ((lin32 >>> 22) <<< 2)
    = pdeAddr at hm ⊢
  have hpdeMem : pdeAddr ∈ m.path := by
    split at hm
    · cases hm
    split at hm
    · cases hm
      exact List.mem_cons_self
    split at hm
    · cases hm
    · cases hm
      exact List.mem_cons_self
  have hpde := h pdeAddr hpdeMem
  have hpdeUS := and_eq_of_unmarked hpde (t := pte.US) (by decide)
  have hpdeRW := and_eq_of_unmarked hpde (t := pte.RW) (by decide)
  rw [and_eq_of_unmarked hpde (t := pte.P) (by decide),
    and_eq_of_unmarked hpde (t := pte.PS) (by decide), hpdeUS, hpdeRW,
    and_eq_of_unmarked hpde (t := 0xFFC00000) (by decide),
    and_eq_of_unmarked hpde (t := 0xFFFFF000) (by decide)]
  split at hm
  · cases hm
  case isFalse hp =>
  rw [if_neg hp]
  split at hm
  case isTrue hlarge => rw [if_pos hlarge]; exact hm
  case isFalse hlarge =>
  rw [if_neg hlarge]
  split at hm
  · cases hm
  case isFalse hleaf =>
  cases hm
  have hpte := h _ (List.mem_cons_of_mem _ List.mem_cons_self)
  rw [and_eq_of_unmarked hpte (t := pte.P) (by decide), if_neg hleaf,
    and_and_congr hpdeUS (and_eq_of_unmarked hpte (by decide)),
    and_and_congr hpdeRW (and_eq_of_unmarked hpte (by decide)),
    and_eq_of_unmarked hpte (t := 0xFFFFF000) (by decide)]

/-- A wide mapping depends on its entries, marks aside, and in PAE mode on
the pointer entry it starts from. -/
theorem wideMapping_congr {m : Mapping}
    (hm : wideMapping rd cr3 long nxe lin = some m)
    (h : ∀ a ∈ m.path, rd' a &&& ~~~pte.MARKS = rd a &&& ~~~pte.MARKS)
    (hp : long = false → rd' (pdpteAddr cr3 lin) = rd (pdpteAddr cr3 lin)) :
    wideMapping rd' cr3 long nxe lin = some m := by
  unfold wideMapping at hm ⊢
  obtain ⟨table, htable, hm⟩ := Option.bind_eq_some_iff.1 hm
  obtain ⟨⟨path, frame⟩, hdesc, rfl⟩ := Option.map_eq_some_iff.1 hm
  have htable' : wideTable rd' cr3 long lin = some table := by
    rw [← htable]
    cases long with
    | true => rfl
    | false =>
      simp only [wideTable, Bool.false_eq_true, if_false, pdpteTable, hp rfl]
  have hfield : ∀ t : U64, t &&& pte.MARKS = 0 → ∀ a ∈ path,
    (rd' a &&& t) = (rd a &&& t) :=
    fun t ht a ha => and_eq_of_unmarked (h a ha) ht
  have hall : ∀ t : U64, t &&& pte.MARKS = 0 →
      (path.all fun a => rd' a &&& t != 0)
        = path.all fun a => rd a &&& t != 0 := by
    intro t ht
    rw [Bool.eq_iff_iff, List.all_eq_true, List.all_eq_true]
    exact forall₂_congr fun a ha => by rw [hfield t ht a ha]
  have hany : (path.any fun a => nxe && rd' a &&& pte.NX != 0)
      = path.any fun a => nxe && rd a &&& pte.NX != 0 := by
    rw [Bool.eq_iff_iff, List.any_eq_true, List.any_eq_true]
    exact exists_congr fun a => and_congr_right fun ha => by
      rw [hfield pte.NX (by decide) a ha]
  rw [htable', Option.bind_some, descend_congr hdesc h, Option.map_some,
    hall pte.US (by decide), hall pte.RW (by decide), hany]

end Congr

-- ======== a page, not an address

section Page

variable {rd : U64 → U64} {cr3 lin lin' : U64} {long nxe pse : Bool}

theorem low32_page (h : lin >>> 12 = lin' >>> 12) :
    ((lin.setWidth 32).setWidth 64 : U64) >>> 12
      = ((lin'.setWidth 32).setWidth 64 : U64) >>> 12 := by
  have hmask : ∀ x : U64,
    ((x.setWidth 32).setWidth 64 : U64) >>> 12 = (x >>> 12) &&& 0xFFFFF := by
    intro x
    apply BitVec.eq_of_toNat_eq
    rw [show (0xFFFFF : U64) = BitVec.ofNat 64 (2 ^ 20 - 1) from rfl,
      toNat_and_mask _ _ (by omega), toNat_page, toNat_page]
    simp only [BitVec.toNat_setWidth]
    omega
  rw [hmask, hmask, h]

theorem legacyMapping_page (h : lin >>> 12 = lin' >>> 12) :
    legacyMapping rd cr3 pse lin = legacyMapping rd cr3 pse lin' := by
  have h32 := low32_page h
  simp only [legacyMapping]
  rw [shiftRight_of_page h32 (k := 22) (by omega), h32,
    and_of_page h32 (m := 0x003FF000) (by decide)]

theorem descend_page (h : lin >>> 12 = lin' >>> 12) {shifts : List (Fin 40)}
    (hs : ∀ k ∈ shifts, 12 ≤ k.val) (table : U64) :
    descend rd lin long nxe shifts table
      = descend rd lin' long nxe shifts table := by
  induction shifts generalizing table with
  | nil => rfl
  | cons shift rest ih =>
    have hmask :
      ∀ m : U64, lin &&& m &&& ~~~0xFFF = lin' &&& m &&& ~~~0xFFF := by
      intro m
      rw [BitVec.and_assoc, BitVec.and_assoc,
        and_of_page h (m := m &&& ~~~0xFFF) (and_not_FFF_aligned m)]
    simp only [descend, shiftRight_of_page h (hs shift List.mem_cons_self),
      hmask, ih fun k hk => hs k (List.mem_cons_of_mem _ hk)]

theorem pdpteAddr_page (h : lin >>> 12 = lin' >>> 12) :
    pdpteAddr cr3 lin = pdpteAddr cr3 lin' := by
  unfold pdpteAddr
  rw [shiftRight_of_page h (k := 30) (by omega)]

theorem wideMapping_page (h : lin >>> 12 = lin' >>> 12) :
    wideMapping rd cr3 long nxe lin = wideMapping rd cr3 long nxe lin' := by
  have hshifts :
    ∀ k ∈ (if long then [39, 30, 21, 12] else [21, 12] : List (Fin 40)),
    12 ≤ k.val := by
    cases long <;> decide
  unfold wideMapping wideTable pdpteTable
  rw [pdpteAddr_page h]
  congr 1
  funext table
  rw [descend_page h hshifts]

end Page

-- ======== aligned entries

section Aligned

variable {rd : U64 → U64} {cr3 lin : U64} {long nxe pse : Bool}

theorem toNat_mod4 {a : U64} (h : a &&& 3 = 0) : a.toNat % 4 = 0 := by
  rw [← toNat_and_3, h]
  rfl

theorem toNat_mod8 {a : U64} (h : a &&& 7 = 0) : a.toNat % 8 = 0 := by
  rw [← toNat_and_7, h]
  rfl

theorem legacyMapping_aligned {m : Mapping}
    (hm : legacyMapping rd cr3 pse lin = some m) :
    ∀ a ∈ m.path, a.toNat % 4 = 0 := by
  have halign :
    ∀ t x : U64, ((t &&& (0xFFFFF000 : U64)) + (x <<< 2)).toNat % 4 = 0 :=
    fun t x => toNat_mod4 (aligned4_add t _ x (by decide))
  simp only [legacyMapping] at hm
  split at hm
  · cases hm
  split at hm
  · cases hm
    intro a ha
    rw [List.mem_singleton.1 ha]
    exact halign _ _
  split at hm
  · cases hm
  · cases hm
    intro a ha
    rcases List.mem_cons.1 ha with rfl | ha
    · exact halign _ _
    · rw [List.mem_singleton.1 ha]
      exact halign _ _

theorem descend_aligned {shifts : List (Fin 40)} {table : U64}
    {r : List U64 × U64}
    (hr : descend rd lin long nxe shifts table = some r) :
    ∀ a ∈ r.1, a.toNat % 8 = 0 := by
  induction shifts generalizing table r with
  | nil =>
    cases hr
    intro a ha
    cases ha
  | cons shift rest ih =>
    have halign :
      ∀ x : U64, ((table &&& PHYS_MASK) + (x <<< 3)).toNat % 8 = 0 :=
      fun x => toNat_mod8 (aligned8_add table _ x (by decide))
    simp only [descend] at hr
    split at hr
    · cases hr
    split at hr
    · cases hr
    split at hr
    · split at hr
      · cases hr
      · cases hr
        intro a ha
        rw [List.mem_singleton.1 ha]
        exact halign _
    · obtain ⟨r', hr', rfl⟩ := Option.map_eq_some_iff.1 hr
      intro a ha
      rcases List.mem_cons.1 ha with rfl | ha
      · exact halign _
      · exact ih hr' a ha

theorem wideMapping_aligned {m : Mapping}
    (hm : wideMapping rd cr3 long nxe lin = some m) :
    ∀ a ∈ m.path, a.toNat % 8 = 0 := by
  obtain ⟨table, -, hm⟩ := Option.bind_eq_some_iff.1 hm
  obtain ⟨r, hr, rfl⟩ := Option.map_eq_some_iff.1 hm
  exact descend_aligned hr

-- Frames are page aligned.

theorem legacyMapping_frame {m : Mapping}
    (hm : legacyMapping rd cr3 pse lin = some m) :
    m.frame &&& 0xFFF = 0 := by
  simp only [legacyMapping] at hm
  split at hm
  · cases hm
  split at hm
  · cases hm
    exact Frame.aligned ⟨_, legacy_large_framed _ _⟩
  split at hm
  · cases hm
  · cases hm
    exact Frame.aligned ⟨_, frame_bits_framed _⟩

theorem descend_frame {shifts : List (Fin 40)} {table : U64}
    {r : List U64 × U64}
    (hr : descend rd lin long nxe shifts table = some r) :
    r.2 &&& 0xFFF = 0 := by
  induction shifts generalizing table r with
  | nil =>
    cases hr
    rfl
  | cons shift rest ih =>
    simp only [descend] at hr
    split at hr
    · cases hr
    split at hr
    · cases hr
    split at hr
    · split at hr
      · cases hr
      · cases hr
        exact Frame.aligned ⟨_, wide_frame_framed _ _ lin (pageMask_low _ _)⟩
    · obtain ⟨r', hr', rfl⟩ := Option.map_eq_some_iff.1 hr
      exact ih (r := r') hr'

theorem wideMapping_frame {m : Mapping}
    (hm : wideMapping rd cr3 long nxe lin = some m) :
    m.frame &&& 0xFFF = 0 := by
  obtain ⟨table, -, hm⟩ := Option.bind_eq_some_iff.1 hm
  obtain ⟨r, hr, rfl⟩ := Option.map_eq_some_iff.1 hm
  exact descend_frame hr

end Aligned

end Remu.X64
