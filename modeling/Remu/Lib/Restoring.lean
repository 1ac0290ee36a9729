/-
Restoring division, one bit of the dividend at a time.

A division under way has a quotient and a remainder for the leading bits
brought down so far (`Partial`). Bringing down a bit doubles the remainder
and takes the divisor off when it goes in. A remainder register of `w` bits
loses nothing by the doubling as long as the divisor is at most half the
word: the remainder, being shorter than the divisor, has its top bit clear.
-/
import Mathlib.Data.Nat.Basic
import Mathlib.Tactic.Ring

namespace Remu

-- ======== the numbers

/-- `q` and `r` are the quotient and the remainder of `n` by `d`. -/
structure Partial (d n q r : Nat) : Prop where
  law : q * d + r = n
  short : r < d

namespace Partial

variable {d n q r : Nat}

/-- The divisor goes in. -/
theorem goes_in (h : Partial d n q r) {b : Nat} (hb : b ≤ 1)
    (hd : d ≤ 2 * r + b) :
    Partial d (2 * n + b) (2 * q + 1) (2 * r + b - d) := by
  obtain ⟨hlaw, hshort⟩ := h
  have hexpand : (2 * q + 1) * d = 2 * (q * d) + d := by ring
  constructor <;> omega

/-- It does not. -/
theorem stays_out (h : Partial d n q r) {b : Nat} (hd : 2 * r + b < d) :
    Partial d (2 * n + b) (2 * q) (2 * r + b) := by
  obtain ⟨hlaw, hshort⟩ := h
  have hexpand : 2 * q * d = 2 * (q * d) := by ring
  constructor <;> omega

theorem eq_div_mod (h : Partial d n q r) : q = n / d ∧ r = n % d := by
  obtain ⟨rfl, hshort⟩ := h
  have hpos : 0 < d := Nat.zero_lt_of_lt hshort
  constructor
  · rw [Nat.add_comm, Nat.add_mul_div_right _ _ hpos,
      Nat.div_eq_of_lt hshort, Nat.zero_add]
  · rw [Nat.add_comm, Nat.add_mul_mod_self_right, Nat.mod_eq_of_lt hshort]

end Partial

/-- The leading bits of a number, and one more. -/
theorem div_two_pow_succ (n i : Nat) :
    n / 2 ^ i = 2 * (n / 2 ^ (i + 1)) + (n.testBit i).toNat := by
  have hbit : (n.testBit i).toNat = n / 2 ^ i % 2 := by
    rw [Nat.toNat_testBit]
  have hhalf : n / 2 ^ (i + 1) = n / 2 ^ i / 2 := by
    rw [Nat.pow_succ, Nat.div_div_eq_div_mul]
  omega

-- ======== the words

variable {w : Nat}

/-- The remainder register shifted up, with bit `i` of `lo` below it. -/
def broughtDown (lo r : BitVec w) (i : Nat) : BitVec w :=
  (r <<< 1) ||| ((lo >>> i) &&& 1)

/-- With the top bit clear nothing is lost. -/
theorem toNat_broughtDown (hw : 0 < w) (lo : BitVec w) {r : BitVec w}
    (hr : r.msb = false) (i : Nat) :
    (broughtDown lo r i).toNat = 2 * r.toNat + (lo.getLsbD i).toNat := by
  have hlt : 2 * r.toNat < 2 ^ w := BitVec.msb_eq_false_iff_two_mul_lt.1 hr
  have hshift : (r <<< 1).toNat = 2 ^ 1 * r.toNat := by
    rw [BitVec.toNat_shiftLeft, Nat.shiftLeft_eq, Nat.mul_comm]
    exact Nat.mod_eq_of_lt hlt
  have hbit : ((lo >>> i) &&& 1 : BitVec w).toNat = (lo.getLsbD i).toNat := by
    have hone : (1 : BitVec w).toNat = 1 :=
      Nat.mod_eq_of_lt (Nat.one_lt_two_pow (by omega))
    rw [BitVec.toNat_and, hone, Nat.and_one_is_mod, BitVec.toNat_ushiftRight,
      BitVec.getLsbD, Nat.toNat_testBit, Nat.shiftRight_eq_div_pow]
  rw [broughtDown, BitVec.toNat_or, hshift, hbit,
    ← Nat.two_pow_add_eq_or_of_lt (Bool.toNat_lt _), Nat.pow_one]

/-- One turn: the next bit comes down, and the divisor is taken off when it
goes in. The state is the quotient and the remainder. -/
def restoringTurn (lo divisor : BitVec w) (i : Nat) (s : BitVec w × BitVec w) :
    BitVec w × BitVec w :=
  let r := broughtDown lo s.2 i
  if divisor ≤ r then (s.1 ||| BitVec.twoPow w i, r - divisor) else (s.1, r)

/-- The first `k` turns of a loop over the bits `n - 1` down to 0. -/
def restoringTurns (lo divisor : BitVec w) (n : Nat) :
    Nat → BitVec w × BitVec w → BitVec w × BitVec w
  | 0, s => s
  | k + 1, s =>
    restoringTurn lo divisor (n - (k + 1)) (restoringTurns lo divisor n k s)

/-- The division of the leading bits of `n`, with `i` bits to come: the
quotient is built from the top, the places below being clear. -/
def Restored (n i : Nat) (d : BitVec w) (s : BitVec w × BitVec w) : Prop :=
  ∃ q, s.1.toNat = 2 ^ i * q ∧ Partial d.toNat (n / 2 ^ i) q s.2.toNat

variable {n i : Nat} {lo d : BitVec w} {s : BitVec w × BitVec w}

/-- The remainder can be shifted. -/
theorem Restored.msb_eq_false (h : Restored n i d s)
    (hd : d.toNat ≤ 2 ^ (w - 1)) :
    s.2.msb = false := by
  obtain ⟨q, -, hpart⟩ := h
  have hshort := hpart.short
  rw [BitVec.msb_eq_false_iff_two_mul_lt]
  cases w with
  | zero => simp [BitVec.eq_nil s.2]
  | succ w =>
    rw [Nat.add_sub_cancel] at hd
    rw [Nat.pow_succ]
    omega

theorem Restored.turn (h : Restored n (i + 1) d s)
    (hd : d.toNat ≤ 2 ^ (w - 1)) (hi : i < w)
    (hlo : lo.getLsbD i = n.testBit i) :
    Restored n i d (restoringTurn lo d i s) := by
  have hdown :=
    toNat_broughtDown (Nat.zero_lt_of_lt hi) lo (h.msb_eq_false hd) i
  obtain ⟨q, hq, hpart⟩ := h
  have hplace : 2 ^ (i + 1) * q = 2 ^ i * (2 * q) := by ring
  rw [Restored, div_two_pow_succ n i, ← hlo, restoringTurn]
  by_cases hge : d ≤ broughtDown lo s.2 i
  · have hge' : d.toNat ≤ 2 * s.2.toNat + (lo.getLsbD i).toNat := hdown ▸ hge
    refine ⟨2 * q + 1, ?_, ?_⟩
    · rw [if_pos hge, BitVec.toNat_or, hq, BitVec.toNat_twoPow_of_lt hi,
        ← Nat.two_pow_add_eq_or_of_lt
        (Nat.pow_lt_pow_right (by decide) (Nat.lt_succ_self i)), hplace]
      ring
    · rw [if_pos hge, BitVec.toNat_sub_of_le hge, hdown]
      exact hpart.goes_in (Bool.toNat_le _) hge'
  · have hlt : 2 * s.2.toNat + (lo.getLsbD i).toNat < d.toNat := by
      rw [← hdown]
      exact Nat.lt_of_not_le hge
    rw [if_neg hge]
    refine ⟨2 * q, hq.trans hplace, ?_⟩
    rw [hdown]
    exact hpart.stays_out hlt

/-- The state after any number of turns. -/
theorem Restored.turns {m : Nat} (h : Restored n m d s)
    (hd : d.toNat ≤ 2 ^ (w - 1)) (hm : m ≤ w)
    (hlo : ∀ i, i < m → lo.getLsbD i = n.testBit i) {k : Nat} (hk : k ≤ m) :
    Restored n (m - k) d (restoringTurns lo d m k s) := by
  induction k with
  | zero => exact h
  | succ k ih =>
    have hprev := ih (by omega)
    rw [show m - k = m - (k + 1) + 1 by omega] at hprev
    exact hprev.turn hd (by omega) (hlo _ (by omega))

/-- With no bit to come the division is done. -/
theorem Restored.eq_div_mod (h : Restored n 0 d s) :
    s.1.toNat = n / d.toNat ∧ s.2.toNat = n % d.toNat := by
  obtain ⟨q, hq, hpart⟩ := h
  rw [Nat.pow_zero, Nat.one_mul] at hq
  rw [Nat.pow_zero, Nat.div_one] at hpart
  rw [hq]
  exact hpart.eq_div_mod

end Remu
