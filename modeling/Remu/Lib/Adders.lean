/-
One limb of an addition or a subtraction, with its flags.

`Limb s` says what the result, the carry, the carry out of the low nibble
and the overflow have to be, for a sum (s = 1) and for a difference
(s = -1): each flag is about a number that leaves its range. The flags are
computed from the operands and the result the way an ALU computes them,
with the carry that comes in already added; the two laws say that this is
right also where an operand plus that carry wraps to zero.
-/
import Mathlib.Data.BitVec
import Mathlib.Tactic.Linarith
import Mathlib.Tactic.Ring

namespace Remu

variable {w : Nat}

/-- A carry as a word. -/
def carryWord (w : Nat) (c : Bool) : BitVec w := if c then 1 else 0

theorem carryWord_eq (w : Nat) (c : Bool) :
    carryWord w c = (BitVec.ofBool c).setWidth w := by
  cases c with
  | true => exact BitVec.eq_of_toNat_eq (by simp [carryWord])
  | false => exact BitVec.eq_of_toNat_eq (by simp [carryWord])

theorem toNat_carryWord (hw : 0 < w) (c : Bool) :
    (carryWord w c).toNat = c.toNat := by
  have hone : 1 < 2 ^ w := Nat.one_lt_two_pow (by omega)
  cases c with
  | true => simp [carryWord, Nat.mod_eq_of_lt hone]
  | false => simp [carryWord]

/-- One limb: `r` is the digit of `a + s * (b + c)`. -/
structure Limb (s : Int) (a b : BitVec w) (c : Bool) (r : BitVec w)
    (cf af ovf : Bool) : Prop where
  exact : (r.toNat : Int) + s * (2 ^ w * cf.toNat)
    = a.toNat + s * (b.toNat + c.toNat)
  aux : af = true
    ↔ ¬(0 ≤ ((a.toNat % 16 : Nat) : Int) + s * (((b.toNat % 16 : Nat) : Int) + c.toNat)
    ∧ ((a.toNat % 16 : Nat) : Int) + s
      * (((b.toNat % 16 : Nat) : Int) + c.toNat) < 16)
  overflow : ovf = true ↔ ¬(-2 ^ (w - 1) ≤ a.toInt + s * (b.toInt + c.toNat)
    ∧ a.toInt + s * (b.toInt + c.toNat) < 2 ^ (w - 1))
  negative : a.toInt + s * (b.toInt + c.toNat) < 0 ↔ r.msb ≠ ovf

-- ======== the low nibble

/-- Bit 4 of a word. -/
theorem and_16_ne_zero (hw : 4 < w) (v : BitVec w) :
    (v &&& 0x10 != 0) = v.getLsbD 4 := by
  have hmask : (0x10 : BitVec w) = BitVec.twoPow w 4 := by
    apply BitVec.eq_of_toNat_eq
    rw [BitVec.toNat_twoPow, BitVec.ofNat_eq_ofNat, BitVec.toNat_ofNat]
  have hne : BitVec.twoPow w 4 ≠ 0 := by
    intro h
    have := congrArg (·.getLsbD 4) h
    simp [hw] at this
  rw [hmask, BitVec.and_twoPow]
  cases v.getLsbD 4 with
  | true => rw [if_pos rfl]; exact bne_iff_ne.2 hne
  | false => rw [if_neg Bool.false_ne_true]; exact bne_self_eq_false _

/-- The operands and the sum differ in bit 4 exactly when a carry comes in there. -/
theorem xor_carry (hw : 4 < w) (x y : BitVec w) (c : Bool) :
    ((x ^^^ y ^^^ (x + y + carryWord w c)) &&& 0x10 != 0)
      = decide (16 ≤ x.toNat % 16 + y.toNat % 16 + c.toNat) := by
  rw [and_16_ne_zero hw, BitVec.getLsbD_xor, BitVec.getLsbD_xor, carryWord_eq,
    BitVec.getLsbD_add_add_bool hw]
  cases x.getLsbD 4 <;> cases y.getLsbD 4 <;> simp [BitVec.carry]

-- ======== the sign

theorem toInt_eq_toNat_sub (x : BitVec w) :
    x.toInt = (x.toNat : Int) - 2 ^ w * x.msb.toNat := by
  rw [BitVec.toInt_eq_msb_cond]
  cases x.msb <;> simp

/-- A word of at least one bit: half of its values are negative. -/
theorem sign_range (hw : 0 < w) (x : BitVec w) :
    (2 : Int) ^ w = 2 * 2 ^ (w - 1) ∧ -2 ^ (w - 1) ≤ x.toInt
      ∧ x.toInt < 2 ^ (w - 1)
      ∧ (x.msb = true ↔ x.toInt < 0) := by
  refine ⟨?_, x.le_toInt, x.toInt_lt, ?_⟩
  · rw [← pow_succ', Nat.sub_add_cancel hw]
  · rw [BitVec.msb_eq_toInt, decide_eq_true_iff]

/-- The overflow formula of an adder, from what the result is modulo `2 * m`. -/
theorem signs_of_sum {m x y z c : Int} {p q n d : Bool} (hc : 0 ≤ c ∧ c ≤ 1)
    (hx : -m ≤ x ∧ x < m) (hy : -m ≤ y ∧ y < m) (hz : -m ≤ z ∧ z < m)
    (hp : p = true ↔ x < 0) (hq : q = true ↔ y < 0) (hn : n = true ↔ z < 0)
    (hsum : z + 2 * m * n.toNat + 2 * m * d.toNat
      = x + 2 * m * p.toNat + (y + 2 * m * q.toNat + c)) :
    (((p ^^ n) && (q ^^ n)) = true ↔ ¬(-m ≤ x + (y + c) ∧ x + (y + c) < m))
      ∧ (x + (y + c) < 0 ↔ n ≠ ((p ^^ n) && (q ^^ n))) := by
  cases p <;> cases q <;> cases n <;> cases d
    <;> simp at hp hq hn hsum ⊢ <;> omega

/-- The overflow formula of a subtractor. -/
theorem signs_of_difference {m x y z c : Int} {p q n d : Bool}
    (hc : 0 ≤ c ∧ c ≤ 1)
    (hx : -m ≤ x ∧ x < m) (hy : -m ≤ y ∧ y < m) (hz : -m ≤ z ∧ z < m)
    (hp : p = true ↔ x < 0) (hq : q = true ↔ y < 0) (hn : n = true ↔ z < 0)
    (hsum : z + 2 * m * n.toNat - 2 * m * d.toNat
      = x + 2 * m * p.toNat - (y + 2 * m * q.toNat + c)) :
    (((p ^^ q) && (p ^^ n)) = true ↔ ¬(-m ≤ x - (y + c) ∧ x - (y + c) < m))
      ∧ (x - (y + c) < 0 ↔ n ≠ ((p ^^ q) && (p ^^ n))) := by
  cases p <;> cases q <;> cases n <;> cases d
    <;> simp at hp hq hn hsum ⊢ <;> omega

/-- A sum is smaller than an operand exactly when it wrapped. -/
theorem add_lt_iff (a b : BitVec w) :
    a + b < a ↔ 2 ^ w ≤ a.toNat + b.toNat := by
  have ha := a.isLt
  have hb := b.isLt
  rw [BitVec.lt_def, BitVec.toNat_add]
  by_cases h : 2 ^ w ≤ a.toNat + b.toNat
  · rw [Nat.mod_eq_sub_mod h, Nat.mod_eq_of_lt (by omega)]
    omega
  · rw [Nat.mod_eq_of_lt (by omega)]
    omega

-- ======== the laws

theorem limb_add (hw : 4 < w) (a b : BitVec w) (c : Bool) :
    let r := a + b + carryWord w c
    Limb 1 a b c r (decide (2 ^ w ≤ a.toNat + b.toNat + c.toNat))
      ((a ^^^ b ^^^ r) &&& 0x10 != 0) ((a ^^^ r) &&& (b ^^^ r)).msb := by
  intro r
  have hc := Bool.toNat_le c
  have hr : r.toNat = (a.toNat + b.toNat + c.toNat) % 2 ^ w := by
    rw [BitVec.toNat_add, BitVec.toNat_add, toNat_carryWord (by omega),
      Nat.mod_add_mod]
  have hexact :
      (r.toNat : Int) + 2 ^ w
      * (decide (2 ^ w ≤ a.toNat + b.toNat + c.toNat)).toNat
      = a.toNat + (b.toNat + c.toNat) := by
    by_cases h : 2 ^ w ≤ a.toNat + b.toNat + c.toNat
    · have hrest : a.toNat + b.toNat + c.toNat - 2 ^ w < 2 ^ w := by omega
      rw [decide_eq_true h, hr, Nat.mod_eq_sub_mod h, Nat.mod_eq_of_lt hrest,
        Bool.toNat_true]
      push_cast [Nat.cast_sub h]
      ring
    · rw [decide_eq_false h, hr, Nat.mod_eq_of_lt (by omega), Bool.toNat_false]
      push_cast
      ring
  obtain ⟨hpow, hra, hra', hma⟩ := sign_range (by omega) a
  obtain ⟨-, hrb, hrb', hmb⟩ := sign_range (by omega) b
  obtain ⟨-, hrr, hrr', hmr⟩ := sign_range (by omega) r
  obtain ⟨hovf, hneg⟩ :=
    signs_of_sum (d := decide (2 ^ w ≤ a.toNat + b.toNat + c.toNat))
    (c := c.toNat) ⟨by omega, by omega⟩ ⟨hra, hra'⟩ ⟨hrb, hrb'⟩
      ⟨hrr, hrr'⟩ hma hmb hmr (by
      rw [← hpow, toInt_eq_toNat_sub a, toInt_eq_toNat_sub b,
        toInt_eq_toNat_sub r]
      linarith)
  refine ⟨by linarith, ?_, ?_, ?_⟩
  · rw [xor_carry hw, decide_eq_true_iff]
    omega
  · rw [BitVec.msb_and, BitVec.msb_xor, BitVec.msb_xor, one_mul]
    exact hovf
  · rw [BitVec.msb_and, BitVec.msb_xor, BitVec.msb_xor, one_mul]
    exact hneg

theorem limb_sub (hw : 4 < w) (a b : BitVec w) (c : Bool) :
    let r := a - b - carryWord w c
    Limb (-1) a b c r (decide (a.toNat < b.toNat + c.toNat))
      ((a ^^^ b ^^^ r) &&& 0x10 != 0) ((a ^^^ b) &&& (a ^^^ r)).msb := by
  intro r
  have hc := Bool.toNat_le c
  have hback : r + b + carryWord w c = a := by
    rw [add_right_comm, BitVec.sub_add_cancel, BitVec.sub_add_cancel]
  have ha : a.toNat = (r.toNat + b.toNat + c.toNat) % 2 ^ w := by
    rw [← hback, BitVec.toNat_add, BitVec.toNat_add,
      toNat_carryWord (by omega), Nat.mod_add_mod]
  have hexact :
      (r.toNat : Int) - 2 ^ w * (decide (a.toNat < b.toNat + c.toNat)).toNat
      = a.toNat - (b.toNat + c.toNat) := by
    have hlt := r.isLt
    have hlt' := b.isLt
    by_cases h : 2 ^ w ≤ r.toNat + b.toNat + c.toNat
    · have hrest : r.toNat + b.toNat + c.toNat - 2 ^ w < 2 ^ w := by omega
      rw [Nat.mod_eq_sub_mod h, Nat.mod_eq_of_lt hrest] at ha
      rw [decide_eq_true (by omega), ha, Bool.toNat_true]
      push_cast [Nat.cast_sub h]
      ring
    · rw [Nat.mod_eq_of_lt (by omega)] at ha
      rw [decide_eq_false (by omega), ha, Bool.toNat_false]
      push_cast
      ring
  obtain ⟨hpow, hra, hra', hma⟩ := sign_range (by omega) a
  obtain ⟨-, hrb, hrb', hmb⟩ := sign_range (by omega) b
  obtain ⟨-, hrr, hrr', hmr⟩ := sign_range (by omega) r
  obtain ⟨hovf, hneg⟩ :=
    signs_of_difference (d := decide (a.toNat < b.toNat + c.toNat))
    (c := c.toNat) ⟨by omega, by omega⟩ ⟨hra, hra'⟩ ⟨hrb, hrb'⟩
      ⟨hrr, hrr'⟩ hma hmb hmr (by
      rw [← hpow, toInt_eq_toNat_sub a, toInt_eq_toNat_sub b,
        toInt_eq_toNat_sub r]
      linarith)
  have hcarry := xor_carry hw r b c
  rw [hback, BitVec.xor_comm, BitVec.xor_comm r, ← BitVec.xor_assoc] at hcarry
  have hlow : a.toNat % 16 = (r.toNat % 16 + b.toNat % 16 + c.toNat) % 16 := by
    rw [ha, Nat.mod_mod_of_dvd
      _ (Nat.pow_dvd_pow 2 (show 4 ≤ w by omega) : 2 ^ 4 ∣ 2 ^ w)]
    omega
  refine ⟨by linarith, ?_, ?_, ?_⟩
  · rw [hcarry, decide_eq_true_iff]
    omega
  · rw [BitVec.msb_and, BitVec.msb_xor, BitVec.msb_xor, neg_one_mul,
      ← sub_eq_add_neg]
    exact hovf
  · rw [BitVec.msb_and, BitVec.msb_xor, BitVec.msb_xor, neg_one_mul,
      ← sub_eq_add_neg]
    exact hneg

end Remu
