/-
Lists of regions as partial functions.

A region covers points and carries a value. A list of them represents a
partial function when no point is covered twice and the function is
defined where a region is, with the region's value (`Represents`). The
edits of such a list are sound under conditions on what is covered: a
region pushed goes where nothing was, regions filtered away are those of
the points that were dropped, a region that grows goes where nothing was.
-/
import Mathlib.Data.List.Pairwise

namespace Remu.Regions

variable {ρ α β : Type} {Has : ρ → α → Prop} {val : ρ → β}
  {rs xs ys : List ρ} {r r' : ρ} {x : α}

-- ======== coverage

/-- Some region covers the point. -/
def Covered (Has : ρ → α → Prop) (rs : List ρ) (x : α) : Prop :=
  ∃ r ∈ rs, Has r x

/-- No point is covered twice. -/
def Apart (Has : ρ → α → Prop) (rs : List ρ) : Prop :=
  rs.Pairwise fun r r' => ∀ x, Has r x → ¬ Has r' x

theorem covered_append :
    Covered Has (xs ++ ys) x ↔ Covered Has xs x ∨ Covered Has ys x := by
  simp only [Covered, List.mem_append, or_and_right, exists_or]

theorem covered_singleton : Covered Has [r] x ↔ Has r x := by
  simp only [Covered, List.mem_singleton, exists_eq_left]

theorem apart_append : Apart Has (xs ++ ys)
    ↔ Apart Has xs ∧ Apart Has ys ∧ ∀ x,
      Covered Has xs x → ¬ Covered Has ys x := by
  rw [Apart, List.pairwise_append, Apart, Apart]
  refine and_congr_right' (and_congr_right' ⟨?_, ?_⟩)
  · rintro h x ⟨r, hr, hx⟩ ⟨r', hr', hx'⟩
    exact h r hr r' hr' x hx hx'
  · intro h r hr r' hr' x hx hx'
    exact h x ⟨r, hr, hx⟩ ⟨r', hr', hx'⟩

theorem apart_singleton (Has : ρ → α → Prop) (r : ρ) : Apart Has [r] :=
  List.pairwise_singleton _ r

/-- A region among others, replaced by one that covers the points of `D`
as well. -/
theorem apart_grow {D : α → Prop} (hgrow : ∀ x, Has r' x ↔ Has r x ∨ D x)
    (h : Apart Has (xs ++ r :: ys)) :
    Apart Has (xs ++ r' :: ys) ↔ ∀ x, D x → ¬ Covered Has (xs ++ ys) x := by
  have hsplit : ∀ r : ρ, Apart Has (xs ++ r :: ys) ↔ Apart Has (xs ++ ys)
      ∧ ∀ x, Has r x → ¬ Covered Has (xs ++ ys) x := by
    intro r
    rw [show xs ++ r :: ys = xs ++ ([r] ++ ys) from rfl]
    simp only [apart_append, covered_append, covered_singleton,
      apart_singleton, true_and]
    grind
  rw [hsplit] at h
  rw [hsplit]
  constructor
  · intro h' x hD
    exact h'.2 x ((hgrow x).2 (Or.inr hD))
  · intro hD
    refine ⟨h.1, fun x hx => ?_⟩
    rcases (hgrow x).1 hx with hold | hnew
    · exact h.2 x hold
    · exact hD x hnew

-- ======== representation

/-- The regions say where the function is defined, and its value. -/
structure Represents (Has : ρ → α → Prop) (val : ρ → β) (rs : List ρ)
    (o : α → Option β) : Prop where
  apart : Apart Has rs
  some_iff : ∀ x b, o x = some b ↔ ∃ r ∈ rs, Has r x ∧ val r = b

namespace Represents

variable {o o' : α → Option β} {D : α → Prop}

theorem covered_iff (h : Represents Has val rs o) :
    Covered Has rs x ↔ ∃ b, o x = some b := by
  constructor
  · rintro ⟨r, hr, hx⟩
    exact ⟨_, (h.some_iff x _).2 ⟨r, hr, hx, rfl⟩⟩
  · rintro ⟨b, hb⟩
    obtain ⟨r, hr, hx, -⟩ := (h.some_iff x b).1 hb
    exact ⟨r, hr, hx⟩

theorem none_iff (h : Represents Has val rs o) :
    o x = none ↔ ¬ Covered Has rs x := by
  rw [h.covered_iff, Option.eq_none_iff_forall_not_mem, not_exists]
  rfl

/-- The value at a point is that of its region. -/
theorem at_ (h : Represents Has val rs o) (hr : r ∈ rs) (hx : Has r x) :
    o x = some (val r) :=
  (h.some_iff x _).2 ⟨r, hr, hx, rfl⟩

theorem nil (h : ∀ x, o x = none) : Represents Has val [] o where
  apart := List.Pairwise.nil
  some_iff x b := by
    rw [h x]
    simp

theorem congr (h : Represents Has val rs o) (heq : ∀ x, o' x = o x) :
    Represents Has val rs o' :=
  funext heq ▸ h

/-- A region pushed where nothing was. -/
theorem push (h : Represents Has val rs o) (hfree : ∀ x, Has r x → o x = none)
    (hin : ∀ x, Has r x → o' x = some (val r))
    (hout : ∀ x, ¬ Has r x → o' x = o x) :
    Represents Has val (rs ++ [r]) o' where
  apart := by
    refine apart_append.2 ⟨h.apart, apart_singleton Has r, fun x hx hr => ?_⟩
    exact h.none_iff.1 (hfree x (covered_singleton.1 hr)) hx
  some_iff x b := by
    simp only [List.mem_append, List.mem_singleton, or_and_right,
      exists_or, exists_eq_left]
    by_cases hx : Has r x
    · rw [hin x hx, Option.some.injEq]
      constructor
      · exact fun hb => Or.inr ⟨hx, hb⟩
      · rintro (⟨r', hr', hx', -⟩ | ⟨-, hb⟩)
        · exact absurd ⟨r', hr', hx'⟩ (h.none_iff.1 (hfree x hx))
        · exact hb
    · rw [hout x hx, h.some_iff]
      constructor
      · exact Or.inl
      · rintro (hold | ⟨hx', -⟩)
        · exact hold
        · exact absurd hx' hx

/-- Regions filtered away with the points they covered. -/
theorem filter {keep : ρ → Bool} (h : Represents Has val rs o)
    (hkeep : ∀ r ∈ rs, keep r = true → ∀ x, Has r x → ¬ D x)
    (hdrop : ∀ r ∈ rs, keep r = false → ∀ x, Has r x → D x)
    (hin : ∀ x, D x → o' x = none) (hout : ∀ x, ¬ D x → o' x = o x) :
    Represents Has val (rs.filter keep) o' where
  apart := List.Pairwise.filter _ h.apart
  some_iff x b := by
    by_cases hD : D x
    · rw [hin x hD]
      constructor
      · exact nofun
      · rintro ⟨r, hr, hx, -⟩
        obtain ⟨hmem, hk⟩ := List.mem_filter.1 hr
        exact absurd hD (hkeep r hmem hk x hx)
    · rw [hout x hD, h.some_iff]
      constructor
      · rintro ⟨r, hr, hx, hb⟩
        refine ⟨r, List.mem_filter.2 ⟨hr, ?_⟩, hx, hb⟩
        by_contra hk
        exact hD (hdrop r hr (Bool.eq_false_iff.2 hk) x hx)
      · rintro ⟨r, hr, hx, hb⟩
        exact ⟨r, (List.mem_filter.1 hr).1, hx, hb⟩

/-- A region grown where nothing was. -/
theorem grow (h : Represents Has val (xs ++ r :: ys) o)
    (hgrow : ∀ x, Has r' x ↔ Has r x ∨ D x)
    (hval : val r' = val r) (hfree : ∀ x, D x → o x = none)
    (hin : ∀ x, D x → o' x = some (val r)) (hout : ∀ x, ¬ D x → o' x = o x) :
    Represents Has val (xs ++ r' :: ys) o' where
  apart := by
    refine (apart_grow hgrow h.apart).2 fun x hD hcov =>
      h.none_iff.1 (hfree x hD) ?_
    rcases covered_append.1 hcov with hxs | hys
    · exact covered_append.2 (Or.inl hxs)
    · obtain ⟨q, hq, hx⟩ := hys
      exact ⟨q, List.mem_append_right xs (List.mem_cons_of_mem r hq), hx⟩
  some_iff x b := by
    have hmem : (∃ q ∈ xs ++ r' :: ys, Has q x ∧ val q = b)
        ↔ (∃ q ∈ xs ++ r :: ys, Has q x ∧ val q = b) ∨ D x ∧ val r = b := by
      simp only [List.mem_append, List.mem_cons, or_and_right, exists_or,
        exists_eq_left, hgrow, hval]
      grind
    rw [hmem]
    by_cases hD : D x
    · rw [hin x hD, Option.some.injEq]
      constructor
      · exact fun hb => Or.inr ⟨hD, hb⟩
      · rintro (⟨q, hq, hx, -⟩ | ⟨-, hb⟩)
        · exact absurd ⟨q, hq, hx⟩ (h.none_iff.1 (hfree x hD))
        · exact hb
    · rw [hout x hD, h.some_iff]
      simp only [hD, false_and, or_false]

/-- New values where they are those of the regions already. -/
theorem assign {b : β} (h : Represents Has val rs o)
    (hsame : ∀ r ∈ rs, ∀ x, Has r x → D x → val r = b)
    (hin : ∀ x, D x → o' x = (o x).map fun _ => b)
    (hout : ∀ x, ¬ D x → o' x = o x) :
    Represents Has val rs o' := by
  refine h.congr fun x => ?_
  by_cases hD : D x
  · rw [hin x hD]
    cases hx : o x with
    | none => rfl
    | some c =>
      obtain ⟨r, hr, hrx, hc⟩ := (h.some_iff x c).1 hx
      rw [Option.map_some, ← hc, hsame r hr x hrx hD]
  · exact hout x hD

end Represents

end Remu.Regions
