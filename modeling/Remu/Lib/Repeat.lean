/-
Counted repetitions that may stop early.

A repetition runs one element after another while some are left. It stops
at an element that is the last one, or hands over where an event is due; an
element that fails ends it with the failure. Whatever it adds up on the way
is a function of the number of elements (`run_eq`), and whether that number
stays within a bound can be asked of the state it starts from
(`elements_le_iff`).

A counter that every step of a system raises by that step's charge has been
raised by the sum of the charges of a run (`count_iterate`).
-/
import Mathlib.Algebra.BigOperators.Group.Finset.Basic
import Mathlib.Data.Nat.SuccPred
import Remu.Lib.Fallible

namespace Remu

structure Repetition (σ ε : Type) where
  /-- Whether elements are left. -/
  left : σ → Bool
  /-- One element, counted off. -/
  one : Fallible σ ε Unit
  /-- Whether the element before was the last one. -/
  last : σ → Bool
  due : σ → Bool
  handOver : σ → σ

namespace Repetition

variable {σ ε γ : Type} (L : Repetition σ ε)

/-- One element, and whether the loop goes on. -/
def round : Fallible σ ε Bool := fun s =>
  match L.one s with
  | (.error e, t) => (.error e, t)
  | (.ok _, t) =>
    if L.last t then (.ok false, t)
    else if L.left t && L.due t then (.ok false, L.handOver t)
    else (.ok true, t)

/-- The loop, `n` elements at most, with what it adds up. -/
def run (f : γ → γ) : Nat → γ → Fallible σ ε γ
  | 0, c, s => (.ok c, s)
  | n + 1, c, s =>
    if L.left s then
      match L.round s with
      | (.error e, t) => (.error e, t)
      | (.ok false, t) => (.ok (f c), t)
      | (.ok true, t) => run f n (f c) t
    else (.ok c, s)

/-- The number of elements that the loop completes. -/
def elements (n : Nat) : Fallible σ ε Nat := L.run Nat.succ n 0

/-- The loop comes to its end within `b` elements. -/
inductive EndsWithin : Nat → Nat → σ → Prop
  | spent (b : Nat) (s : σ) : EndsWithin 0 b s
  | none {n : Nat} (b : Nat) {s : σ} (hleft : L.left s = false) :
    EndsWithin (n + 1) b s
  | stop {n b : Nat} {s t : σ} (hleft : L.left s = true)
    (hround : L.round s = (.ok false, t)) :
    EndsWithin (n + 1) (b + 1) s
  | on {n b : Nat} {s t : σ} (hleft : L.left s = true)
    (hround : L.round s = (.ok true, t))
    (hrest : EndsWithin n b t) : EndsWithin (n + 1) (b + 1) s

/-- The loop comes to an element that fails. -/
inductive Fails : Nat → σ → Prop
  | here {n : Nat} {s t : σ} {e : ε} (hleft : L.left s = true)
    (hround : L.round s = (.error e, t)) :
    Fails (n + 1) s
  | on {n : Nat} {s t : σ} (hleft : L.left s = true)
    (hround : L.round s = (.ok true, t)) (hrest : Fails n t) :
    Fails (n + 1) s

theorem run_eq_iterate (f : γ → γ) (n j : Nat) (c : γ) (s : σ) :
    L.run f n (f^[j] c) s = ((L.run Nat.succ n j s).1.map fun k => f^[k] c,
      (L.run Nat.succ n j s).2) := by
  induction n generalizing j s with
  | zero => rfl
  | succ n ih =>
    rw [run, run]
    cases L.left s with
    | false => rfl
    | true =>
      rcases L.round s with ⟨e | on, t⟩
      · rfl
      · rw [← Function.iterate_succ_apply' f j c]
        cases on with
        | false => rfl
        | true => exact ih (j + 1) t

/-- What adds up is a function of the number of elements. -/
theorem run_eq (f : γ → γ) (n : Nat) (c : γ) (s : σ) :
    L.run f n c s
      = ((L.elements n s).1.map fun k => f^[k] c, (L.elements n s).2) :=
  L.run_eq_iterate f n 0 c s

theorem elements_none {n : Nat} {s : σ} (hleft : L.left s = false) :
    L.elements (n + 1) s = (.ok 0, s) := by
  rw [elements, run, hleft]
  rfl

theorem elements_fail {n : Nat} {s t : σ} {e : ε} (hleft : L.left s = true)
    (hround : L.round s = (.error e, t)) :
    L.elements (n + 1) s = (.error e, t) := by
  rw [elements, run, hleft, hround]
  rfl

theorem elements_stop {n : Nat} {s t : σ} (hleft : L.left s = true)
    (hround : L.round s = (.ok false, t)) :
    L.elements (n + 1) s = (.ok 1, t) := by
  rw [elements, run, hleft, hround]
  rfl

theorem elements_succ {n : Nat} {s t : σ} (hleft : L.left s = true)
    (hround : L.round s = (.ok true, t)) :
    L.elements (n + 1) s
      = ((L.elements n t).1.map Nat.succ, (L.elements n t).2) := by
  have hrest := L.run_eq_iterate Nat.succ n 0 1 t
  rw [Function.iterate_zero_apply] at hrest
  rw [elements, run, hleft, hround]
  refine hrest.trans ?_
  congr 2
  funext k
  rw [Nat.succ_iterate, Nat.add_comm]

variable {L}

theorem EndsWithin.elements {n b : Nat} {s : σ} (h : L.EndsWithin n b s) :
    ∃ k t, L.elements n s = (.ok k, t) ∧ k ≤ b := by
  induction h with
  | spent b s => exact ⟨0, s, rfl, Nat.zero_le b⟩
  | none b hleft => exact ⟨0, _, L.elements_none hleft, Nat.zero_le b⟩
  | stop hleft hround =>
    exact ⟨1, _, L.elements_stop hleft hround, Nat.le_add_left 1 _⟩
  | on hleft hround _ ih =>
    obtain ⟨k, u, hrun, hk⟩ := ih
    exact ⟨k + 1, u, by rw [L.elements_succ hleft hround, hrun]; rfl,
      Nat.succ_le_succ hk⟩

theorem Fails.elements {n : Nat} {s : σ} (h : L.Fails n s) :
    ∃ e t, L.elements n s = (.error e, t) := by
  induction h with
  | here hleft hround => exact ⟨_, _, L.elements_fail hleft hround⟩
  | on hleft hround _ ih =>
    obtain ⟨e, u, hrun⟩ := ih
    exact ⟨e, u, by rw [L.elements_succ hleft hround, hrun]; rfl⟩

/-- The loop counts no more than `b` elements where it ends within them, or
fails in the end. -/
theorem elements_le_iff {n b : Nat} {s : σ} :
    (∀ k t, L.elements n s = (.ok k, t) → k ≤ b) ↔ L.EndsWithin n b s
      ∨ L.Fails n s := by
  constructor
  · intro h
    induction n generalizing b s with
    | zero => exact .inl (.spent b s)
    | succ n ih =>
      cases hleft : L.left s with
      | false => exact .inl (.none b hleft)
      | true =>
        rcases hround : L.round s with ⟨e | on, t⟩
        · exact .inr (.here hleft hround)
        cases on with
        | false =>
          obtain ⟨b, rfl⟩ :=
            Nat.exists_eq_add_of_le' (h 1 t (L.elements_stop hleft hround))
          exact .inl (.stop hleft hround)
        | true =>
          rw [L.elements_succ hleft hround] at h
          rcases hrest : L.elements n t with ⟨e | k, u⟩
          · have hfails : L.Fails n t := by
              rcases ih (b := 0) (s := t)
                (fun k u' hk => by rw [hrest] at hk; cases hk) with hends | hfails
              · obtain ⟨k, u', hk, -⟩ := hends.elements
                rw [hrest] at hk
                cases hk
              · exact hfails
            exact .inr (.on hleft hround hfails)
          · have hk : k + 1 ≤ b := h (k + 1) u (by rw [hrest]; rfl)
            obtain ⟨b, rfl⟩ := Nat.exists_eq_add_of_le' (Nat.one_le_of_lt hk)
            refine (ih (b := b) (s := t) fun k' u' hk' => ?_).imp
              (.on hleft hround) (.on hleft hround)
            rw [hrest] at hk'
            cases hk'
            exact Nat.le_of_succ_le_succ hk
  · rintro (hends | hfails) k t hk
    · obtain ⟨k', t', hk', hle⟩ := hends.elements
      rw [hk] at hk'
      cases hk'
      exact hle
    · obtain ⟨e, t', he⟩ := hfails.elements
      rw [hk] at he
      cases he

/-- The elements that the loop completes, whether it fails in the end or
not. -/
def completed (L : Repetition σ ε) : Nat → σ → Nat
  | 0, _ => 0
  | n + 1, s =>
    if L.left s then
      match L.round s with
      | (.error _, _) => 0
      | (.ok false, _) => 1
      | (.ok true, t) => completed L n t + 1
    else 0

-- ======== a word

/-- A sum in a word is exact where the loop fails, or ends within as many
elements as the word has room for. -/
theorem exact_iff {w base per n b : Nat} {s : σ} {r : Except ε (BitVec w) × σ}
    (hr : r = ((L.elements n s).1.map fun k => BitVec.ofNat w (base + per * k), (L.elements n s).2))
    (hb : ∀ k, base + per * k < 2 ^ w ↔ k ≤ b) :
    (∀ c t, r = (.ok c, t) → ∃ k, L.elements n s = (.ok k, t)
      ∧ c.toNat = base + per * k)
      ↔ L.EndsWithin n b s ∨ L.Fails n s := by
  refine Iff.trans ⟨fun hexact k t hk => ?_, fun hle c t hc => ?_⟩
    elements_le_iff
  · rw [hk] at hr
    obtain ⟨k', hk', hc⟩ := hexact _ t hr
    rw [hk] at hk'
    cases hk'
    rw [← hb, ← hc]
    exact BitVec.isLt _
  · rcases helems : L.elements n s with ⟨e | k, u⟩
    · rw [helems, hc] at hr
      cases hr
    · rw [helems, hc] at hr
      cases hr
      exact ⟨k,
        rfl, by
          rw [BitVec.toNat_ofNat,
            Nat.mod_eq_of_lt ((hb k).2 (hle k u helems))]⟩

end Repetition

/-- A constant added again and again. -/
theorem iterate_add_ofNat {w : Nat} (c d k : Nat) :
    (fun x : BitVec w => x + BitVec.ofNat w d)^[k] (BitVec.ofNat w c)
      = BitVec.ofNat w (c + d * k) := by
  induction k with
  | zero => rfl
  | succ k ih =>
    rw [Function.iterate_succ_apply', ih, ← BitVec.ofNat_add,
      Nat.add_assoc, Nat.mul_succ]

-- ======== a counter

/-- A counter that each of `n` steps raises by its charge. -/
theorem count_iterate {σ : Type} {w n : Nat} {next : σ → σ}
    (count : σ → BitVec w) {charge : σ → Nat} {s : σ}
    (hstep : ∀ i < n, count (next (next^[i] s))
      = count (next^[i] s) + BitVec.ofNat w (charge (next^[i] s))) :
    count (next^[n] s) = count s + BitVec.ofNat w (∑ i ∈ Finset.range n,
      charge (next^[i] s)) := by
  induction n with
  | zero => exact (BitVec.add_zero _).symm
  | succ n ih =>
    rw [Function.iterate_succ_apply', hstep n (Nat.lt_succ_self n),
      ih fun i hi => hstep i (Nat.lt_succ_of_lt hi), Finset.sum_range_succ,
      BitVec.ofNat_add, BitVec.add_assoc]

end Remu
