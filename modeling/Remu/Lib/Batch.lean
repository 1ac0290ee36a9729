/-
Steps taken in batches.

A batched loop steps a system until its budget is spent or a stop test
answers, and reports how far it got and why it left. One stop, the bell,
is acknowledged: it is also looked for before the budget is, and leaving
for it inside the loop silences something in the state. Two laws follow
from the loop alone:

- the loop is the same number of single steps, none of them taken from a
  state where the test answers (`run_stepped`);
- a budget may be split anywhere (`run_add`), up to the silencing: where
  the first part ends on the last step before the bell, the second part
  leaves at once and silences nothing.
-/
import Mathlib.Logic.Function.Iterate

namespace Remu

/-- A system that is stepped in batches. -/
structure Batch (σ ε : Type) where
  step : σ → σ
  /-- Why the system is not stepped from here. -/
  stop : σ → Option ε
  /-- The exit of a spent budget. -/
  completed : ε
  bell : ε
  quiet : σ → σ
  stop_quiet : ∀ s, stop s = some bell → stop (quiet s) = some bell
  quiet_quiet : ∀ s, quiet (quiet s) = quiet s

namespace Batch

variable {σ ε : Type} [DecidableEq ε] (B : Batch σ ε)

/-- The state an exit leaves. -/
def leave (e : ε) (s : σ) : σ := if e = B.bell then B.quiet s else s

/-- At most `n` steps, `k` behind it: the steps taken and the exit. -/
def loop : Nat → Nat → σ → (Nat × ε) × σ
  | 0, k, s => ((k, B.completed), s)
  | n + 1, k, s =>
    match B.stop s with
    | some e => ((k, e), B.leave e s)
    | none => loop n (k + 1) (B.step s)

/-- A batch of `n` steps, if the bell is not ringing already. -/
def run (n : Nat) (s : σ) : (Nat × ε) × σ :=
  if B.stop s = some B.bell then ((0, B.bell), s) else B.loop n 0 s

/-- No stop before the `n`-th step from `s`. -/
def Free (n : Nat) (s : σ) : Prop := ∀ i < n, B.stop (B.step^[i] s) = none

/-- `r` is what `n` single steps from `s` give when they end before the
first state that stops. -/
structure Stepped (n : Nat) (s : σ) (r : (Nat × ε) × σ) : Prop where
  count : r.1.1 ≤ n
  free : B.Free r.1.1 s
  exit : (r.1.1 = n ∧ r.1.2 = B.completed)
    ∨ B.stop (B.step^[r.1.1] s) = some r.1.2
  state : r.2 = B.step^[r.1.1] s
    ∨ (r.1.2 = B.bell ∧ r.2 = B.quiet (B.step^[r.1.1] s))

/-- `r` is `r₁` continued by `r₂`: the counts add up, the second exit is the
exit, and the states agree up to the silencing. -/
structure Continued (r₁ r₂ r : (Nat × ε) × σ) : Prop where
  count : r.1.1 = r₁.1.1 + r₂.1.1
  exit : r.1.2 = r₂.1.2
  state : B.quiet r.2 = B.quiet r₂.2

variable {B}

-- ======== the loop

omit [DecidableEq ε] in
theorem Free.tail {n : Nat} {s : σ} (h : B.Free (n + 1) s) :
    B.Free n (B.step s) := by
  intro i hi
  rw [← Function.iterate_succ_apply]
  exact h (i + 1) (by omega)

/-- Free steps are taken. -/
theorem loop_add {a : Nat} {s : σ} (h : B.Free a s) (b k : Nat) :
    B.loop (a + b) k s = B.loop b (k + a) (B.step^[a] s) := by
  induction a generalizing k s with
  | zero => rw [Nat.zero_add, Nat.add_zero, Function.iterate_zero_apply]
  | succ a ih =>
    have h0 : B.stop s = none := h 0 (by omega)
    rw [show a + 1 + b = (a + b) + 1 by omega, loop, h0,
      Function.iterate_succ_apply]
    dsimp only
    rw [ih h.tail, show k + 1 + a = k + (a + 1) by omega]

/-- A budget of free steps is spent. -/
theorem loop_of_free {n : Nat} {s : σ} (h : B.Free n s) (k : Nat) :
    B.loop n k s = ((k + n, B.completed), B.step^[n] s) := by
  have hadd := loop_add h 0 k
  rw [Nat.add_zero] at hadd
  rw [hadd, loop]

/-- Otherwise the loop leaves at the first stop. -/
theorem loop_of_stop {n j : Nat} {s : σ} {e : ε} (h : B.Free j s) (hj : j < n)
    (hstop : B.stop (B.step^[j] s) = some e) (k : Nat) :
    B.loop n k s = ((k + j, e), B.leave e (B.step^[j] s)) := by
  obtain ⟨m, rfl⟩ : ∃ m, n = j + (m + 1) := ⟨n - j - 1, by omega⟩
  rw [loop_add h, loop, hstop]

omit [DecidableEq ε] in
/-- Either no stop comes up within the budget, or there is a first one. -/
theorem free_or_stop (B : Batch σ ε) (n : Nat) (s : σ) :
    B.Free n s ∨ ∃ j < n, ∃ e, B.Free j s
      ∧ B.stop (B.step^[j] s) = some e := by
  induction n with
  | zero => exact Or.inl fun i hi => absurd hi (by omega)
  | succ n ih =>
    rcases ih with hfree | ⟨j, hj, e, hfree, hstop⟩
    · cases hs : B.stop (B.step^[n] s) with
      | some e => exact Or.inr ⟨n, by omega, e, hfree, hs⟩
      | none =>
        left
        intro i hi
        rcases Nat.lt_succ_iff_lt_or_eq.1 hi with hlt | rfl
        · exact hfree i hlt
        · exact hs
    · exact Or.inr ⟨j, by omega, e, hfree, hstop⟩

-- ======== batches

theorem leave_bell (s : σ) : B.leave B.bell s = B.quiet s := if_pos rfl

theorem leave_of_ne {e : ε} (h : e ≠ B.bell) (s : σ) : B.leave e s = s := if_neg h

theorem run_of_bell {s : σ} (h : B.stop s = some B.bell) (n : Nat) :
    B.run n s = ((0, B.bell), s) :=
  if_pos h

theorem run_of_not_bell {s : σ} (h : B.stop s ≠ some B.bell) (n : Nat) :
    B.run n s = B.loop n 0 s := if_neg h

/-- A batch is its single steps. -/
theorem run_stepped (n : Nat) (s : σ) : B.Stepped n s (B.run n s) := by
  by_cases hbell : B.stop s = some B.bell
  · rw [run_of_bell hbell]
    exact ⟨Nat.zero_le n, fun i hi => absurd hi (Nat.not_lt_zero i),
      Or.inr hbell, Or.inl rfl⟩
  rw [run_of_not_bell hbell]
  rcases B.free_or_stop n s with hfree | ⟨j, hj, e, hfree, hstop⟩
  · rw [loop_of_free hfree, Nat.zero_add]
    exact ⟨Nat.le_refl n, hfree, Or.inl ⟨rfl, rfl⟩, Or.inl rfl⟩
  · rw [loop_of_stop hfree hj hstop, Nat.zero_add]
    refine ⟨Nat.le_of_lt hj, hfree, Or.inr hstop, ?_⟩
    by_cases he : e = B.bell
    · right
      exact ⟨he, by rw [he, leave_bell]⟩
    · left
      exact leave_of_ne he _

/-- From a state that stops, a positive budget leaves at once. -/
theorem run_of_stop {s : σ} {e : ε} (h : B.stop s = some e)
    {n : Nat} (hn : 0 < n) :
    (B.run n s).1 = (0, e) ∧ B.quiet (B.run n s).2 = B.quiet s := by
  by_cases hbell : B.stop s = some B.bell
  · rw [run_of_bell hbell]
    rw [h] at hbell
    cases hbell
    exact ⟨rfl, rfl⟩
  · have hfree : B.Free 0 s := fun i hi => absurd hi (Nat.not_lt_zero i)
    have hne : e ≠ B.bell := by
      rintro rfl
      exact hbell h
    rw [run_of_not_bell hbell, loop_of_stop hfree hn h, leave_of_ne hne]
    exact ⟨rfl, rfl⟩

/-- The state a stop leaves stops again, the same way. -/
theorem stop_leave {s : σ} {e : ε} (h : B.stop s = some e) :
    B.stop (B.leave e s) = some e := by
  by_cases he : e = B.bell
  · subst he
    rw [leave_bell]
    exact B.stop_quiet s h
  · rw [leave_of_ne he]
    exact h

theorem quiet_leave (e : ε) (s : σ) : B.quiet (B.leave e s) = B.quiet s := by
  by_cases he : e = B.bell
  · rw [he, leave_bell, B.quiet_quiet]
  · rw [leave_of_ne he]

/-- A batch may be split in two. -/
theorem run_add (a : Nat) {b : Nat} (hb : 0 < b) (s : σ) :
    B.Continued (B.run a s) (B.run b (B.run a s).2) (B.run (a + b) s) := by
  by_cases hbell : B.stop s = some B.bell
  · rw [run_of_bell hbell, run_of_bell hbell, run_of_bell hbell]
    exact ⟨rfl, rfl, rfl⟩
  rw [run_of_not_bell hbell a, run_of_not_bell hbell (a + b)]
  rcases B.free_or_stop a s with hfree | ⟨j, hj, e, hfree, hstop⟩
  · -- The first part spends its budget; the second starts where it ended.
    rw [loop_of_free hfree, loop_add hfree, Nat.zero_add]
    dsimp only
    by_cases hring : B.stop (B.step^[a] s) = some B.bell
    · have hnone : B.Free 0 (B.step^[a] s) :=
        fun i hi => absurd hi (Nat.not_lt_zero i)
      rw [run_of_bell hring, loop_of_stop hnone hb hring]
      exact ⟨rfl, rfl, by rw [quiet_leave, Function.iterate_zero_apply]⟩
    rw [run_of_not_bell hring]
    rcases B.free_or_stop b (B.step^[a] s) with hfree' | ⟨i, hi, e, hfree', hstop⟩
    · rw [loop_of_free hfree', loop_of_free hfree', Nat.zero_add]
      exact ⟨rfl, rfl, rfl⟩
    · rw [loop_of_stop hfree' hi hstop, loop_of_stop hfree' hi hstop,
        Nat.zero_add]
      exact ⟨rfl, rfl, rfl⟩
  · -- The first part stops, and so does the second at once.
    rw [loop_of_stop hfree hj hstop,
      loop_of_stop hfree (Nat.lt_add_right b hj) hstop, Nat.zero_add]
    dsimp only
    obtain ⟨hcount, hstate⟩ := run_of_stop (stop_leave hstop) hb
    refine ⟨?_, ?_, hstate.symm⟩
    · rw [hcount, Nat.add_zero]
    · rw [hcount]

end Batch

end Remu
