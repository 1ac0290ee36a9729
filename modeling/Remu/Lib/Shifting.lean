/-
Shifts and rotates over the integers, and single-bit rotations repeated.

A shift of a word is a product or a floored quotient of its value, reduced
to the width: of the unsigned value to the left and for the logical shift
to the right, of the signed one for the arithmetic shift. The last bit
shifted out is a bit of the same number, one place further. Every count is
covered, at the width and past it too.

`n` turns move every bit by `n` places around the word; a whole round is
the identity, so only the number of turns modulo the length counts. The
word has at least one bit, and may be written with its top bit apart.
-/
import Mathlib.Data.BitVec
import Mathlib.Dynamics.PeriodicPts.Defs
import Remu.Lib.Fields

namespace Remu.Word

variable {w : Nat}

-- ======== bits

/-- A bit as the parity of a quotient. -/
theorem getLsbD_eq_div (x : BitVec w) (m : Nat) :
    x.getLsbD m = decide ((x.toNat : Int) / 2 ^ m % 2 = 1) := by
  rw [BitVec.getLsbD, Nat.testBit_eq_decide_div_mod_eq, decide_eq_decide]
  norm_cast

/-- The same of the signed value, whose bits go on as the sign. -/
theorem toInt_div_bit (hw : 0 < w) (x : BitVec w) (m : Nat) :
    decide (x.toInt / 2 ^ m % 2 = 1) = if m < w then x.getLsbD m
      else x.msb := by
  have hbit : (x.sshiftRight m).getLsbD 0 = if m < w
    then x.getLsbD m else x.msb := by
    rw [BitVec.getLsbD_sshiftRight, Nat.add_zero, decide_eq_false (by omega),
      Bool.not_false, Bool.true_and]
  have hdiv : (x.sshiftRight m).toInt = x.toInt / 2 ^ m := by
    rw [BitVec.toInt_sshiftRight, Int.shiftRight_eq_div_pow]
    norm_cast
  have hodd : (x.sshiftRight m).toInt % 2
    = ((x.sshiftRight m).toNat : Int) % 2 := by
    obtain ⟨k, hk⟩ : (2 : Int) ∣ 2 ^ w := dvd_pow_self 2 (by omega)
    rw [BitVec.toInt_eq_msb_cond]
    split
    · rw [Nat.cast_pow, Nat.cast_ofNat, hk, Int.sub_mul_emod_self_left]
    · rfl
  rw [← hbit, getLsbD_eq_div, pow_zero, Int.ediv_one, ← hodd, hdiv]

-- ======== the quotients

/-- The shifts as arithmetic. -/
theorem shiftLeft_eq_ofInt (x : BitVec w) (n : Nat) :
    x <<< n = BitVec.ofInt w (x.toNat * 2 ^ n) := by
  apply BitVec.eq_of_toNat_eq
  rw [show ((x.toNat : Int) * 2 ^ n)
    = ((x.toNat * 2 ^ n : Nat) : Int) by
      push_cast; rfl, BitVec.ofInt_natCast, BitVec.toNat_ofNat,
        BitVec.toNat_shiftLeft, Nat.shiftLeft_eq]

theorem ushiftRight_eq_ofInt (x : BitVec w) (n : Nat) :
    x >>> n = BitVec.ofInt w (x.toNat / 2 ^ n) := by
  apply BitVec.eq_of_toNat_eq
  rw [show ((x.toNat : Int) / 2 ^ n)
    = ((x.toNat / 2 ^ n : Nat) : Int) by
      push_cast; rfl, BitVec.ofInt_natCast, BitVec.toNat_ofNat,
        BitVec.toNat_ushiftRight, Nat.shiftRight_eq_div_pow,
        Nat.mod_eq_of_lt ((Nat.div_le_self _ _).trans_lt x.isLt)]

theorem sshiftRight_eq_ofInt (x : BitVec w) (n : Nat) :
    x.sshiftRight n = BitVec.ofInt w (x.toInt / 2 ^ n) := by
  rw [BitVec.sshiftRight_eq, Int.shiftRight_eq_div_pow]
  norm_cast

/-- A shift that leaves nothing but the sign. -/
theorem sshiftRight_eq_sign (x : BitVec w) {m n : Nat}
    (hm : w ≤ m + 1) (hn : w ≤ n + 1) :
    x.sshiftRight m = x.sshiftRight n := by
  have hsign : ∀ k i, w ≤ k + 1 → i < w →
    (if k + i < w then x.getLsbD (k + i) else x.msb) = x.msb := by
    intro k i hk hi
    split
    · rw [BitVec.msb_eq_getLsbD_last, show k + i = w - 1 by omega]
    · rfl
  refine BitVec.eq_of_getLsbD_eq fun i hi => ?_
  rw [BitVec.getLsbD_sshiftRight, BitVec.getLsbD_sshiftRight,
    hsign m i hm hi, hsign n i hn hi]

/-- The low bits come back in at the top. -/
theorem toNat_rotateRight (x : BitVec w) {r : Nat} (hr : r < w) :
    ((x.rotateRight r).toNat : Int)
      = x.toNat / 2 ^ r + x.toNat % 2 ^ r * 2 ^ (w - r) := by
  have hsplit : 2 ^ w = 2 ^ r * 2 ^ (w - r) := by
    rw [← Nat.pow_add, Nat.add_sub_cancel' hr.le]
  have hlow : x.toNat / 2 ^ r < 2 ^ (w - r) := by
    rw [Nat.div_lt_iff_lt_mul (Nat.two_pow_pos r), Nat.mul_comm, ← hsplit]
    exact x.isLt
  have hnat : (x.rotateRight r).toNat
    = x.toNat / 2 ^ r + x.toNat % 2 ^ r * 2 ^ (w - r) := by
    rw [BitVec.toNat_rotateRight, Nat.mod_eq_of_lt hr,
      Nat.shiftRight_eq_div_pow, Nat.shiftLeft_eq, hsplit,
      Nat.mul_mod_mul_right, Nat.or_comm, Nat.add_comm, ← Nat.shiftLeft_eq,
      Nat.shiftLeft_add_eq_or_of_lt hlow]
  rw [hnat]
  push_cast
  rfl

-- ======== the bit shifted out

/-- The bit a left shift moves out last. -/
theorem shiftedOut_left (x : BitVec w) {n : Nat} (hn : n ≤ w) :
    decide ((x.toNat : Int) * 2 ^ n / 2 ^ w % 2 = 1) = x.getLsbD (w - n) := by
  have hpow : (2 : Int) ^ w = 2 ^ (w - n) * 2 ^ n := by
    rw [← pow_add, Nat.sub_add_cancel hn]
  rw [getLsbD_eq_div, hpow,
    Int.mul_ediv_mul_of_pos_left _ _ (Int.pow_pos (by decide))]

/-- Past the width there are only the zeros behind the word. -/
theorem shiftedOut_left_past (x : BitVec w) {n : Nat} (hn : w < n) :
    decide ((x.toNat : Int) * 2 ^ n / 2 ^ w % 2 = 1) = false := by
  have hpow : (2 : Int) ^ n = 2 ^ (n - w - 1) * 2 * 2 ^ w := by
    rw [← pow_succ, ← pow_add]
    congr 1
    omega
  have heven :
    (x.toNat : Int) * 2 ^ n / 2 ^ w = x.toNat * 2 ^ (n - w - 1) * 2 := by
    rw [hpow, ← mul_assoc, ← mul_assoc,
      Int.mul_ediv_cancel _ (pow_ne_zero w two_ne_zero)]
  rw [heven, Int.mul_emod_left]
  rfl

end Remu.Word

-- ======== rotations

namespace Remu

variable {w : Nat}

/-- `n` single-bit rotations to the left. -/
def turnLeft (n : Nat) (x : BitVec w) : BitVec w :=
  (fun y => y.rotateLeft 1)^[n] x

/-- `n` single-bit rotations to the right. -/
def turnRight (n : Nat) (x : BitVec w) : BitVec w :=
  (fun y => y.rotateRight 1)^[n] x

@[simp] theorem turnLeft_zero (x : BitVec w) : turnLeft 0 x = x := rfl

@[simp] theorem turnRight_zero (x : BitVec w) : turnRight 0 x = x := rfl

/-- A rotation, one place at a time. -/
theorem turnLeft_succ (n : Nat) (x : BitVec w) :
    turnLeft (n + 1) x = turnLeft n (x.rotateLeft 1) :=
  Function.iterate_succ_apply ..

theorem turnRight_succ (n : Nat) (x : BitVec w) :
    turnRight (n + 1) x = turnRight n (x.rotateRight 1) :=
  Function.iterate_succ_apply ..

/-- One turn to the left. -/
theorem getLsbD_rotateLeft_one (hw : 1 < w) (x : BitVec w)
    {i : Nat} (hi : i < w) :
    (x.rotateLeft 1).getLsbD i
      = x.getLsbD (if i = 0 then w - 1 else i - 1) := by
  rw [BitVec.getLsbD_rotateLeft, Nat.mod_eq_of_lt hw]
  rcases Nat.eq_zero_or_pos i with rfl | hpos
  · simp
  · simp [Nat.not_lt.2 hpos, hi, hpos.ne']

/-- A bit of a rotation by one place. -/
theorem getLsbD_rotateRight_one (hw : 1 < w) (x : BitVec w)
    {i : Nat} (hi : i < w) :
    (x.rotateRight 1).getLsbD i
      = x.getLsbD (if i = w - 1 then 0 else i + 1) := by
  rw [BitVec.getLsbD_rotateRight, Nat.mod_eq_of_lt hw]
  by_cases htop : i = w - 1
  · simp [htop, show w - 1 < w by omega]
  · simp [htop, show i < w - 1 by omega, add_comm]

/-- Where the bits are after at most one round. -/
theorem getLsbD_turnLeft (hw : 1 < w) (x : BitVec w) {n i : Nat}
    (hn : n ≤ w) (hi : i < w) :
    (turnLeft n x).getLsbD i
      = x.getLsbD (if i < n then w - n + i else i - n) := by
  induction n generalizing x with
  | zero => simp
  | succ n ih =>
    rw [turnLeft_succ, ih _ (by omega),
      getLsbD_rotateLeft_one hw _ (by split <;> omega)]
    congr 1
    split <;> split <;> split <;> omega

/-- A bit of a rotation by several places. -/
theorem getLsbD_turnRight (hw : 1 < w) (x : BitVec w) {n i : Nat}
    (hn : n ≤ w) (hi : i < w) :
    (turnRight n x).getLsbD i
      = x.getLsbD (if i < w - n then n + i else i - (w - n)) := by
  induction n generalizing x with
  | zero => simp [hi]
  | succ n ih =>
    rw [turnRight_succ, ih _ (by omega),
      getLsbD_rotateRight_one hw _ (by split <;> omega)]
    congr 1
    split <;> split <;> split <;> omega

/-- The two directions undo each other. -/
theorem rotateRight_rotateLeft_one (hw : 1 < w) (x : BitVec w) :
    (x.rotateLeft 1).rotateRight 1 = x := by
  apply BitVec.eq_of_getLsbD_eq
  intro i hi
  rw [getLsbD_rotateRight_one hw _ hi,
    getLsbD_rotateLeft_one hw _ (by split <;> omega)]
  congr 1
  split <;> split <;> omega

/-- Turning to the right is turning the rest of the round to the left. -/
theorem turnRight_eq_turnLeft (hw : 1 < w) (x : BitVec w)
    {n : Nat} (hn : n ≤ w) :
    turnRight n x = turnLeft (w - n) x := by
  apply BitVec.eq_of_getLsbD_eq
  intro i hi
  rw [getLsbD_turnRight hw x hn hi, getLsbD_turnLeft hw x (by omega) hi]
  congr 1
  split <;> omega

/-- A turn may be made first or last. -/
theorem turnLeft_rotateLeft (n : Nat) (x : BitVec w) :
    turnLeft n (x.rotateLeft 1) = (turnLeft n x).rotateLeft 1 :=
  (Function.iterate_succ_apply ..).symm.trans (Function.iterate_succ_apply' ..)

/-- Places may be turned in any order. -/
theorem turnRight_rotateRight (n : Nat) (x : BitVec w) :
    turnRight n (x.rotateRight 1) = (turnRight n x).rotateRight 1 :=
  (Function.iterate_succ_apply ..).symm.trans (Function.iterate_succ_apply' ..)

/-- A whole round. -/
theorem turnLeft_round (hw : 1 < w) (x : BitVec w) : turnLeft w x = x := by
  apply BitVec.eq_of_getLsbD_eq
  intro i hi
  rw [getLsbD_turnLeft hw x le_rfl hi, if_pos hi, Nat.sub_self, zero_add]

/-- A full turn is nothing. -/
theorem turnRight_round (hw : 1 < w) (x : BitVec w) : turnRight w x = x := by
  apply BitVec.eq_of_getLsbD_eq
  intro i hi
  rw [getLsbD_turnRight hw x le_rfl hi, if_neg (by omega),
    Nat.sub_self, Nat.sub_zero]

/-- Only the remainder of the places counts. -/
theorem turnLeft_mod (hw : 1 < w) (n : Nat) (x : BitVec w) :
    turnLeft (n % w) x = turnLeft n x :=
  Function.IsPeriodicPt.iterate_mod_apply (turnLeft_round hw x) n

/-- Only the remainder of the places counts. -/
theorem turnRight_mod (hw : 1 < w) (n : Nat) (x : BitVec w) :
    turnRight (n % w) x = turnRight n x :=
  Function.IsPeriodicPt.iterate_mod_apply (turnRight_round hw x) n

/-- Turned by two complementary shifts in a wider word. -/
theorem turnLeft_shifts (hw : 1 < w) {m n : Nat} (hm : w ≤ m)
    (hn : n ≤ w) (x : BitVec w) :
    ((x.setWidth m <<< n) ||| (x.setWidth m >>> (w - n)))
      &&& BitVec.ofNat m (2 ^ w - 1)
      = (turnLeft n x).setWidth m := by
  apply BitVec.eq_of_getLsbD_eq
  intro i hi
  rw [BitVec.getLsbD_and, BitVec.getLsbD_ofNat, Nat.testBit_two_pow_sub_one,
    BitVec.getLsbD_setWidth, decide_eq_true hi, Bool.true_and, Bool.true_and]
  by_cases hin : i < w
  · rw [getLsbD_turnLeft hw x hn hin, decide_eq_true hin, Bool.and_true,
      BitVec.getLsbD_or, BitVec.getLsbD_shiftLeft, BitVec.getLsbD_ushiftRight,
      BitVec.getLsbD_setWidth, BitVec.getLsbD_setWidth]
    by_cases hlt : i < n
    · simp [hlt, show w - n + i < m by omega]
    · simp [hlt, hi, show i - n < m by omega,
        BitVec.getLsbD_of_ge x (w - n + i) (by omega)]
  · rw [decide_eq_false hin, Bool.and_false,
      BitVec.getLsbD_of_ge _ _ (by omega)]

end Remu
