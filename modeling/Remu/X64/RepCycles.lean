/-
The cycles of a repeated string instruction.

The loop of a REP prefix adds 4 to a word of 32 bits for every element.
The word is exact as long as the loop comes to its end within 1073741822
elements (`cyclesExact_iff`); a longer one makes it wrap, and the counter
of the processor loses 2^32 cycles.
-/
import Remu.Lib.Repeat
import Remu.X64.Step

namespace Remu.X64

variable {β : Type} [Bus β]

-- ======== the loop

/-- The loop of a REP prefix. -/
def repetition (one : Calm β Unit) (cmp contOnZf : Bool) :
    Repetition (Machine β) Exception where
  left s := s.countReg != 0
  one := (do
    one
    let s ← self
    setCountReg (s.countReg - 1) : Calm β Unit).run
  last s := cmp && s.regs.rflags.contains RFlags.ZF != contOnZf
  due s := s.interruptPending
  handOver s := ((setRip s.startRip).run s).2

variable (one : Calm β Unit) (cmp z : Bool)

/-- The loop is a repetition of its primitive that adds four cycles a round. -/
theorem run_repLoop (n : Nat) (c : U32) (s : Machine β) :
    (repLoop one cmp z n c).run s
      = (repetition one cmp z).run (· + 4) n c s := by
  induction n generalizing c s with
  | zero => rfl
  | succ n ih =>
    rw [repLoop, Repetition.run, Repetition.round]
    simp only [Bounded.run_bind, self, Bounded.run_get, Fallible.bind_apply,
      Fallible.get_apply]
    by_cases hleft : s.countReg = 0
    · have hnone : (repetition one cmp z).left s = false :=
        (bne_eq_false_iff_eq).2 hleft
      rw [if_pos hleft, hnone]
      rfl
    have hsome : (repetition one cmp z).left s = true := bne_iff_ne.2 hleft
    rw [if_neg hleft, hsome, if_pos rfl, Bounded.run_bind]
    rcases hrun : one.run s with ⟨e | u, t⟩
    · have hone : (repetition one cmp z).one s = (.error e, t) :=
        Fallible.bind_of_error hrun
      rw [Fallible.bind_of_error hrun, hone]
    have hone : (repetition one cmp z).one s
      = (setCountReg (t.countReg - 1)).run t := by
      refine (Fallible.bind_of_ok hrun).trans ?_
      rw [self, Bounded.run_bind, Bounded.run_get,
        Fallible.bind_of_ok (Fallible.get_apply t)]
    rw [Fallible.bind_of_ok hrun, hone]
    obtain ⟨t', ht⟩ : ∃ t',
      (setCountReg (t.countReg - 1)).run t = (.ok (), t') := by
      rw [setCountReg, setIndexReg, Bounded.run_bind, self, Bounded.run_get,
        Fallible.bind_of_ok (Fallible.get_apply t), run_modifyHot]
      exact ⟨_, rfl⟩
    simp only [Bounded.run_bind, Bounded.run_get, Fallible.bind_apply,
      Fallible.get_apply, ht]
    cases hlast : (repetition one cmp z).last t' with
    | true =>
      have hzf : (cmp && t'.regs.rflags.contains RFlags.ZF != z) = true := hlast
      rw [if_pos hzf]
      rfl
    | false =>
      have hzf : (cmp && t'.regs.rflags.contains RFlags.ZF != z) ≠ true :=
        Bool.eq_false_iff.1 hlast
      rw [if_neg hzf]
      by_cases hdue : t'.countReg ≠ 0 ∧ t'.interruptPending
      · have hover :
          ((repetition one cmp z).left t' && (repetition one cmp z).due t') = true :=
          (Bool.and_eq_true _ _).mpr ⟨bne_iff_ne.2 hdue.1, hdue.2⟩
        rw [if_pos hdue, hover]
        rfl
      · have hover :
          ((repetition one cmp z).left t' && (repetition one cmp z).due t')
          = false := by
          rw [Bool.eq_false_iff, ne_eq, Bool.and_eq_true]
          exact fun h => hdue ⟨bne_iff_ne.1 h.1, h.2⟩
        rw [if_neg hdue, hover]
        exact ih (c + 4) t'

/-- The state at the loop's entry. -/
def Machine.committed (s : Machine β) : Machine β :=
  s.withDecode { s.toDecodeState with commitOnFault := true }

/-- A repeated string instruction is that loop from the count register and five
cycles. -/
theorem run_stringOp {s : Machine β} (hrep : s.rep = some z) :
    (stringOp one cmp).run s
      = (repetition one cmp z).run (· + 4) s.countReg.toNat 5 s.committed := by
  have hentry : s.committed.rep = some z := hrep
  have hcommit :
    (modifyDecode ({ · with commitOnFault := true }) : Calm β Unit).run s
    = (.ok (), s.committed) := rfl
  rw [stringOp, Bounded.run_bind, Fallible.bind_of_ok hcommit,
    Bounded.run_bind, self, Bounded.run_get,
    Fallible.bind_of_ok (Fallible.get_apply s.committed), hentry]
  exact run_repLoop one cmp z s.countReg.toNat 5 s.committed

-- ======== the result

/-- The number of elements of an activation. -/
def repElements (s : Machine β) : Except Exception Nat × Machine β :=
  (repetition one cmp z).elements s.countReg.toNat s.committed

/-- The result of a repeated string instruction, by the elements its loop
completes, in 32 bits. -/
theorem run_stringOp_elements {s : Machine β} (hrep : s.rep = some z) :
    (stringOp one cmp).run s
    = ((repElements one cmp z s).1.map fun k => BitVec.ofNat 32 (5 + 4 * k),
      (repElements one cmp z s).2) := by
  rw [run_stringOp one cmp z hrep, Repetition.run_eq]
  refine Prod.ext ?_ rfl
  exact congrArg (fun f => Except.map f _)
    (funext fun k => iterate_add_ofNat 5 4 k)

/-- The result is exact: 5 and 4 for every element. -/
def CyclesExact (s : Machine β) : Prop :=
  ∀ c t, (stringOp one cmp).run s = (.ok c, t) →
    ∃ k, repElements one cmp z s = (.ok k, t) ∧ c.toNat = 5 + 4 * k

/-- The loop comes to its end within `b` elements. -/
def RepEndsWithin (b : Nat) (s : Machine β) : Prop :=
  (repetition one cmp z).EndsWithin s.countReg.toNat b s.committed

/-- The loop comes to an element that fails. -/
def RepFails (s : Machine β) : Prop :=
  (repetition one cmp z).Fails s.countReg.toNat s.committed

/-- Five and four for each element fit in 32 bits up to 1073741822 elements. -/
theorem cyclesExact_iff {s : Machine β} (hrep : s.rep = some z) :
    CyclesExact one cmp z s ↔ RepEndsWithin one cmp z 1073741822 s
      ∨ RepFails one cmp z s := by
  exact Repetition.exact_iff (run_stringOp_elements one cmp z hrep) fun k => by omega

end Remu.X64
