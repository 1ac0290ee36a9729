/-
Loops that may be stopped.

A loop over `0, 1, ..` in `Except` goes on, stops with the one error `fault`
that is being looked for, or stops with another. Each round is told apart
by two conditions that can be stated before it runs: `clean i`, round `i`
does not fault, and `passes i`, it goes on if it does not (`Round`). A round
of several parts is gone through part by part (`Round.bind`). The whole loop
is then told apart by the first round that is not clean or does not pass
(`Ending`), whatever invariant its rounds need of each other.
-/
import Mathlib.Data.List.Range
import Mathlib.Logic.Basic

namespace Remu

variable {ε σ τ : Type} {fault : ε}

/-- What a round comes to. -/
inductive Round (fault : ε) (next : σ → Prop) (clean passes : Prop) :
    Except ε σ → Prop
  | on (s : σ) (hclean : clean) (hpasses : passes) (hnext : next s) :
    Round fault next clean passes (.ok s)
  | fault (hclean : ¬clean) : Round fault next clean passes (.error fault)
  | fail (e : ε) (he : e ≠ fault) (hclean : clean) (hpasses : ¬passes) :
    Round fault next clean passes (.error e)

/-- A round whose first part is `x`: a fault of `x` is one of the whole, and
where `x` does not pass, the whole is clean and does not pass either. -/
theorem Round.bind {mid : τ → Prop} {next : σ → Prop}
    {clean₁ passes₁ clean passes : Prop} {x : Except ε τ}
    {f : τ → Except ε σ} (hx : Round fault mid clean₁ passes₁ x)
    (hfault : ¬clean₁ → ¬clean) (hstop : clean₁ → ¬passes₁ → clean ∧ ¬passes)
    (hf : ∀ t, mid t → clean₁ → passes₁ →
      Round fault next clean passes (f t)) :
    Round fault next clean passes (x >>= f) := by
  cases hx with
  | on t hclean hpasses hmid => exact hf t hmid hclean hpasses
  | fault hclean => exact .fault (hfault hclean)
  | fail e he hclean hpasses =>
    obtain ⟨hcleans, hnot⟩ := hstop hclean hpasses
    exact .fail e he hcleans hnot

/-- A first part that may only fault. -/
theorem Round.bind_clean {mid : τ → Prop} {next : σ → Prop}
    {clean₁ clean passes : Prop} {x : Except ε τ}
    {f : τ → Except ε σ} (hx : Round fault mid clean₁ True x)
    (hfault : ¬clean₁ → ¬clean)
    (hf : ∀ t, mid t → clean₁ → Round fault next clean passes (f t)) :
    Round fault next clean passes (x >>= f) :=
  hx.bind hfault (fun _ h => absurd trivial h) fun t hmid hclean
    _ => hf t hmid hclean

/-- A first part that may only fail. -/
theorem Round.bind_passes {mid : τ → Prop} {next : σ → Prop}
    {passes₁ clean passes : Prop} {x : Except ε τ}
    {f : τ → Except ε σ} (hx : Round fault mid True passes₁ x)
    (hstop : ¬passes₁ → clean ∧ ¬passes)
    (hf : ∀ t, mid t → passes₁ → Round fault next clean passes (f t)) :
    Round fault next clean passes (x >>= f) :=
  hx.bind (fun h => absurd trivial h) (fun _ => hstop) fun t
    hmid _ => hf t hmid

/-- What the rounds before `n` come to. -/
inductive Ending (fault : ε) (Inv : Nat → σ → Prop)
    (clean passes : Nat → Prop) (n : Nat) :
    Except ε σ → Prop
  | on (s : σ) (h : ∀ i < n, clean i ∧ passes i) (hinv : Inv n s) :
    Ending fault Inv clean passes n (.ok s)
  | fault (i : Nat) (hi : i < n) (h : ∀ j < i, clean j ∧ passes j)
    (hclean : ¬clean i) :
    Ending fault Inv clean passes n (.error fault)
  | fail (e : ε) (he : e ≠ fault) (i : Nat) (hi : i < n)
    (h : ∀ j < i, clean j ∧ passes j)
    (hclean : clean i) (hpasses : ¬passes i) :
    Ending fault Inv clean passes n (.error e)

variable {Inv : Nat → σ → Prop} {clean passes : Nat → Prop}
  {step : σ → Nat → Except ε σ} {s₀ : σ} {n : Nat}

theorem foldlM_range_succ (step : σ → Nat → Except ε σ) (s₀ : σ) (n : Nat) :
    (List.range (n + 1)).foldlM step s₀
      = (List.range n).foldlM step s₀ >>= fun s => step s n := by
  rw [List.range_succ, List.foldlM_append]
  simp only [List.foldlM_cons, List.foldlM_nil, bind_pure]

/-- The loop, by its rounds. -/
theorem Ending.of_rounds (hinit : Inv 0 s₀)
    (hround : ∀ i < n, (∀ j < i, clean j ∧ passes j) → ∀ s, Inv i s →
      Round fault (Inv (i + 1)) (clean i) (passes i) (step s i)) :
    Ending fault Inv clean passes n ((List.range n).foldlM step s₀) := by
  induction n with
  | zero => exact .on s₀ (fun i hi => absurd hi (Nat.not_lt_zero i)) hinit
  | succ n ih =>
    rw [foldlM_range_succ]
    have hbefore := ih fun i hi => hround i (Nat.lt_succ_of_lt hi)
    generalize (List.range n).foldlM step s₀ = r at hbefore
    cases hbefore with
    | fault i hi h hclean => exact .fault i (Nat.lt_succ_of_lt hi) h hclean
    | fail e he i hi h hclean hpasses =>
      exact .fail e he i (Nat.lt_succ_of_lt hi) h hclean hpasses
    | on s h hinv =>
      have hlast := hround n (Nat.lt_succ_self n) h s hinv
      have hrun : ((.ok s : Except ε σ) >>= fun s => step s n) = step s n := rfl
      rw [hrun]
      generalize step s n = r at hlast
      cases hlast with
      | fault hclean => exact .fault n (Nat.lt_succ_self n) h hclean
      | fail e he hclean hpasses =>
        exact .fail e he n (Nat.lt_succ_self n) h hclean hpasses
      | on s' hclean hpasses hnext =>
        refine .on s' (fun i hi => ?_) hnext
        rcases Nat.lt_succ_iff_lt_or_eq.1 hi with hlt | rfl
        · exact h i hlt
        · exact ⟨hclean, hpasses⟩

end Remu
