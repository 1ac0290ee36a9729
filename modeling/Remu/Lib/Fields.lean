/-
Bit fields of a word.

A field is a mask. Inserting a value clears the field and ors the value in;
the field then reads back as the value and every field apart from it as
before. A flag is a field that is written to 0 or 1 as a whole, and tested
for all of its bits: reading it sees the last write to it and no write to
one that shares no bit with it. Nothing here knows what the fields are for.
-/
import Remu.Lib.Word

namespace Remu.Word

variable {w : Nat}

/-- The mask of the `n` bits from bit `k` up. -/
def fieldMask (w k n : Nat) : BitVec w := (BitVec.allOnes n).setWidth w <<< k

@[simp] theorem getLsbD_fieldMask (w k n i : Nat) :
    (fieldMask w k n).getLsbD i
      = (decide (i < w) && decide (k ≤ i) && decide (i < k + n)) := by
  simp only [fieldMask, BitVec.getLsbD_shiftLeft, BitVec.getLsbD_setWidth,
    BitVec.getLsbD_allOnes]
  grind

theorem natCast_one_shiftLeft (i : Nat) :
    ((1 <<< i : Nat) : BitVec w) = BitVec.twoPow w i := by
  refine BitVec.eq_of_toNat_eq ?_
  rw [BitVec.natCast_eq_ofNat, BitVec.toNat_ofNat, BitVec.toNat_twoPow,
    Nat.one_shiftLeft]

/-- The test of one bit. -/
theorem and_twoPow_ne_zero (x : BitVec w) {k : Nat} (hk : k < w) :
    (x &&& BitVec.twoPow w k != 0) = x.getLsbD k := by
  have hpow : BitVec.twoPow w k ≠ 0 := by
    intro h
    have hbit := congrArg (·.getLsbD k) h
    simp [hk] at hbit
  rw [BitVec.and_twoPow]
  cases h : x.getLsbD k with
  | false => simp
  | true => simpa using hpow

/-- A field reads back what was inserted. -/
theorem insert_and (x : BitVec w) {v m : BitVec w} (h : v &&& m = v) :
    ((x &&& ~~~m) ||| v) &&& m = v := by
  calc ((x &&& ~~~m) ||| v) &&& m
      = (x &&& (~~~m &&& m)) ||| (v &&& m) := by
        rw [BitVec.and_or_distrib_right, BitVec.and_assoc]
    _ = v := by rw [BitVec.and_comm (~~~m), BitVec.and_not_self, h]; simp

/-- Bits of a word with an `n`-bit value inserted at bit `k`. -/
theorem getLsbD_insert {n : Nat} (x : BitVec w) (v : BitVec n) (k : Nat)
    {i : Nat} (hi : i < w) :
    ((x &&& ~~~fieldMask w k n) ||| (v.setWidth w <<< k)).getLsbD i
      = if k ≤ i ∧ i < k + n then v.getLsbD (i - k) else x.getLsbD i := by
  rw [BitVec.getLsbD_or, BitVec.getLsbD_and, BitVec.getLsbD_not,
    getLsbD_fieldMask, BitVec.getLsbD_shiftLeft, BitVec.getLsbD_setWidth]
  by_cases hk : k ≤ i
  · by_cases hn : i < k + n
    · simp [hi, hk, hn, show ¬ i < k by omega, show i - k < w by omega]
    · have hv : v.getLsbD (i - k) = false :=
        BitVec.getLsbD_of_ge _ _ (by omega)
      simp [hi, hk, hn, hv]
  · simp [hi, hk, show i < k by omega]

/-- A field apart from the inserted one is as before. -/
theorem insert_and_apart (x : BitVec w) {v m m' : BitVec w} (h : v &&& m = v)
    (hm : m &&& m' = 0#w) : ((x &&& ~~~m) ||| v) &&& m' = x &&& m' := by
  have hv : v &&& m' = 0#w := by
    rw [← h, BitVec.and_assoc, hm]
    simp
  have hclear : ~~~m &&& m' = m' := by
    refine BitVec.eq_of_getLsbD_eq fun i hi => ?_
    have hbit := congrArg (·.getLsbD i) hm
    simp only [BitVec.getLsbD_and, BitVec.getLsbD_zero,
      BitVec.getLsbD_not] at hbit ⊢
    cases hmi : m.getLsbD i
    · simp [hi]
    · rw [hmi, Bool.true_and] at hbit
      simp [hbit]
  rw [BitVec.and_or_distrib_right, BitVec.and_assoc, hclear, hv]
  simp

/-- A field above bit `k`, shifted down, is the field shifted down. -/
theorem shift_and (x : BitVec w) {m : BitVec w} {k : Nat}
    (hm : m <<< k >>> k = m) :
    x >>> k &&& m = (x &&& (m <<< k)) >>> k := by
  rw [BitVec.ushiftRight_and_distrib, hm]

end Remu.Word

-- ======== flags

namespace Remu.Flag

variable {n : Nat} {m m' : BitVec n}

/-- All bits of the mask are set. -/
def test (b m : BitVec n) : Bool := b &&& m == m

/-- Set the bits of the mask, or clear them. -/
def put (b m : BitVec n) (v : Bool) : BitVec n :=
  if v then b ||| m else b &&& ~~~m

@[simp] theorem test_put (hm : m ≠ 0) (b : BitVec n) (v : Bool) :
    test (put b m v) m = v := by
  cases v with
  | true =>
    have hall : (b ||| m) &&& m = m := by
      ext i
      simp only [BitVec.getElem_and, BitVec.getElem_or]
      cases b[i] <;> cases m[i] <;> rfl
    simp only [test, put, if_true, hall, beq_self_eq_true]
  | false =>
    have hnone : (b &&& ~~~m) &&& m = 0 := by
      ext i
      simp only [BitVec.getElem_and, BitVec.getElem_not, BitVec.ofNat_eq_ofNat,
        BitVec.getElem_zero]
      cases b[i] <;> cases m[i] <;> rfl
    rw [test, put, if_neg Bool.false_ne_true, hnone]
    exact beq_eq_false_iff_ne.2 hm.symm

theorem test_put_other (hm : m &&& m' = 0) (b : BitVec n) (v : Bool) :
    test (put b m v) m' = test b m' := by
  have hbit : ∀ i (hi : i < n), m[i] = false ∨ m'[i] = false := by
    intro i hi
    have h : (m &&& m')[i] = (0 : BitVec n)[i] := by rw [hm]
    rwa [BitVec.getElem_and, BitVec.ofNat_eq_ofNat, BitVec.getElem_zero,
      Bool.and_eq_false_iff] at h
  have hsame : put b m v &&& m' = b &&& m' := by
    ext i hi
    cases v with
    | true =>
      simp only [put, if_true, BitVec.getElem_and, BitVec.getElem_or]
      rcases hbit i hi with h | h
        <;> simp only [h, Bool.or_false, Bool.and_false]
    | false =>
      rw [put, if_neg Bool.false_ne_true]
      simp only [BitVec.getElem_and, BitVec.getElem_not]
      rcases hbit i hi with h | h
        <;> simp only [h, Bool.not_false, Bool.and_true, Bool.and_false]
  rw [test, test, hsame]

/-- A flag that is set is set again. -/
theorem put_of_test {b : BitVec n} (h : test b m = true) :
    put b m true = b := by
  have hm : b &&& m = m := eq_of_beq h
  rw [put, if_pos rfl, ← hm]
  ext i
  simp only [BitVec.getElem_or, BitVec.getElem_and]
  cases b[i] <;> cases m[i] <;> rfl

/-- A flag of one bit that is clear is cleared again. -/
theorem put_of_not_test {b : BitVec n} {i : Nat}
    (h : test b (BitVec.twoPow n i) = false) :
    put b (BitVec.twoPow n i) false = b := by
  have hbit : b.getLsbD i = false := by
    rw [test, BitVec.and_twoPow] at h
    by_contra hset
    rw [if_pos (eq_true_of_ne_false hset), beq_self_eq_true] at h
    exact absurd h (by decide)
  rw [put, if_neg Bool.false_ne_true]
  apply BitVec.eq_of_getLsbD_eq
  intro j hj
  rw [BitVec.getLsbD_and, BitVec.getLsbD_not, BitVec.getLsbD_twoPow]
  by_cases hij : i = j
  · rw [← hij, hbit, Bool.false_and]
  · rw [decide_eq_false hij, Bool.and_false, Bool.not_false, decide_eq_true hj,
      Bool.and_true, Bool.and_true]

end Remu.Flag
