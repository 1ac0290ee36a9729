/-
Division of a double-width word by a word, read as integers.

A word names an integer in one of two ways, unsigned or two's complement
(`reading`). A quotient fits a width when some word of that width reads as
it; the truncated quotient and remainder of the readings are then what the
word-level division returns, and they are the only pair that satisfies the
division law with the remainder on the dividend's side of zero.
-/
import Mathlib.Data.Int.Basic
import Mathlib.Tactic.Ring

namespace Remu

variable {w : Nat}

/-- The integer a word names, signed or not. -/
def reading (sgn : Bool) (x : BitVec w) : Int :=
  if sgn then x.toInt else (x.toNat : Int)

@[simp] theorem reading_signed (x : BitVec w) : reading true x = x.toInt := rfl

@[simp] theorem reading_unsigned (x : BitVec w) :
    reading false x = (x.toNat : Int) := rfl

theorem reading_inj {b : Bool} {x y : BitVec w}
    (h : reading b x = reading b y) :
    x = y := by
  cases b with
  | true => exact BitVec.eq_of_toInt_eq h
  | false =>
    rw [reading_unsigned, reading_unsigned, Int.natCast_inj] at h
    exact BitVec.eq_of_toNat_eq h

theorem reading_eq_zero_iff {b : Bool} {x : BitVec w} :
    reading b x = 0 ↔ x = 0 := by
  constructor
  · intro h
    refine reading_inj (b := b) (h.trans ?_)
    cases b <;> simp
  · rintro rfl
    cases b <;> simp

/-- Some word of `w` bits reads as `q`. -/
def Fits (sgn : Bool) (w : Nat) (q : Int) : Prop :=
  ∃ x : BitVec w, reading sgn x = q

theorem fits_unsigned_iff {q : Int} : Fits false w q ↔ 0 ≤ q ∧ q < 2 ^ w := by
  constructor
  · rintro ⟨x, rfl⟩
    have hx := x.isLt
    rw [reading_unsigned]
    exact ⟨Int.natCast_nonneg _, by exact_mod_cast hx⟩
  · rintro ⟨h0, hlt⟩
    obtain ⟨n, rfl⟩ := Int.eq_ofNat_of_zero_le h0
    have hn : n < 2 ^ w := by exact_mod_cast hlt
    refine ⟨BitVec.ofNat w n, ?_⟩
    rw [reading_unsigned, BitVec.toNat_ofNat, Nat.mod_eq_of_lt hn]

theorem fits_signed_iff (hw : 0 < w) {q : Int} :
    Fits true w q ↔ -2 ^ (w - 1) ≤ q ∧ q < 2 ^ (w - 1) := by
  constructor
  · rintro ⟨x, rfl⟩
    exact ⟨BitVec.le_toInt x, BitVec.toInt_lt⟩
  · rintro ⟨hle, hlt⟩
    exact ⟨BitVec.ofInt w q, BitVec.toInt_ofInt_eq_self hw hle hlt⟩

-- ======== the division law

/-- Truncated division is the only solution of the division law whose
remainder is shorter than the divisor and on the dividend's side of
zero. -/
theorem tdiv_tmod_of_law {D d q r : Int} (hd : d ≠ 0) (hlaw : q * d + r = D)
    (hlt : r.natAbs < d.natAbs) (hpos : 0 ≤ D → 0 ≤ r) (hneg : D ≤ 0 → r ≤ 0) :
    q = D.tdiv d ∧ r = D.tmod d := by
  rcases Int.le_total 0 D with hD | hD
  · have h := (Int.tdiv_tmod_unique (a := D) (b := d) (r := r)
      (q := q) hD hd).2
      ⟨by rw [Int.mul_comm d q]; omega, hpos hD, by omega⟩
    exact ⟨h.1.symm, h.2.symm⟩
  · have h := (Int.tdiv_tmod_unique' (a := D) (b := d) (r := r)
      (q := q) hD hd).2
      ⟨by rw [Int.mul_comm d q]; omega, by omega, hneg hD⟩
    exact ⟨h.1.symm, h.2.symm⟩

theorem tdiv_tmod_law (D : Int) {d : Int} (hd : d ≠ 0) :
    D.tdiv d * d + D.tmod d = D ∧ (D.tmod d).natAbs < d.natAbs
      ∧ (0 ≤ D → 0 ≤ D.tmod d) ∧ (D ≤ 0 → D.tmod d ≤ 0) := by
  have hlt : (D.tmod d).natAbs < d.natAbs := by
    rw [Int.natAbs_tmod]
    exact Nat.mod_lt _ (Int.natAbs_pos.2 hd)
  refine ⟨?_, hlt, fun h => Int.tmod_nonneg d h, fun h => ?_⟩
  · rw [Int.mul_comm]
    exact Int.mul_tdiv_add_tmod D d
  · have hneg := Int.tmod_nonneg d (Int.neg_nonneg_of_nonpos h)
    rw [Int.neg_tmod] at hneg
    omega

-- ======== unsigned words

theorem toNat_setWidth_double (v : BitVec w) :
    (v.setWidth (w + w)).toNat = v.toNat := by
  rw [BitVec.toNat_setWidth]
  exact Nat.mod_eq_of_lt
    (Nat.lt_of_lt_of_le v.isLt (Nat.pow_le_pow_right (by omega) (by omega)))

/-- The quotient of an unsigned division, before it is cut. -/
theorem toNat_udiv_double (D : BitVec (w + w)) (v : BitVec w) :
    ((D / v.setWidth (w + w)).toNat : Int) = (D.toNat : Int).tdiv v.toNat := by
  rw [BitVec.toNat_udiv, toNat_setWidth_double]
  rfl

/-- The remainder fits the divisor's width. -/
theorem toNat_umod_double (D : BitVec (w + w)) {v : BitVec w} (hv : v ≠ 0) :
    (((D % v.setWidth (w + w)).setWidth w).toNat : Int)
      = (D.toNat : Int).tmod v.toNat := by
  have hpos : 0 < v.toNat := by
    have hne : v.toNat ≠ 0 :=
      fun h => hv (BitVec.eq_of_toNat_eq (by simpa using h))
    omega
  have hlt := Nat.mod_lt D.toNat hpos
  have hv' := v.isLt
  rw [BitVec.toNat_setWidth, BitVec.toNat_umod, toNat_setWidth_double,
    Nat.mod_eq_of_lt (by omega)]
  rfl

/-- A word stacked on another by a shift. -/
theorem shift_or_eq_append (hi lo : BitVec w) :
    (hi.setWidth (w + w) <<< w) ||| lo.setWidth (w + w) = hi ++ lo := by
  refine BitVec.eq_of_getLsbD_eq fun i hi' => ?_
  rw [BitVec.getLsbD_append, BitVec.getLsbD_or, BitVec.getLsbD_shiftLeft]
  by_cases h : i < w
  · simp [h, hi']
  · have hlo : lo.getLsbD i = false := BitVec.getLsbD_of_ge _ _ (by omega)
    simp [h, hi', hlo, show i - w < w + w by omega]

-- ======== signed words

/-- Extending and cutting again gives the word back. -/
theorem setWidth_signExtend (y : BitVec w) :
    (y.signExtend (w + w)).setWidth w = y := by
  refine BitVec.eq_of_getLsbD_eq fun i hi => ?_
  rw [BitVec.getLsbD_setWidth, BitVec.getLsbD_signExtend]
  simp [hi, show i < w + w by omega]

theorem toInt_signExtend_double (y : BitVec w) :
    (y.signExtend (w + w)).toInt = y.toInt :=
  BitVec.toInt_signExtend_of_le (by omega)

/-- A double word that reads as a word does is that word's extension. -/
theorem eq_signExtend {x : BitVec (w + w)} {y : BitVec w}
    (h : x.toInt = y.toInt) :
    x = y.signExtend (w + w) :=
  BitVec.eq_of_toInt_eq (h.trans (toInt_signExtend_double y).symm)

/-- A double word survives the cut to its lower half exactly when that
half can hold its value. -/
theorem signExtend_setWidth_iff (x : BitVec (w + w)) :
    x = (x.setWidth w).signExtend (w + w) ↔ Fits true w x.toInt := by
  constructor
  · intro h
    refine ⟨x.setWidth w, ?_⟩
    rw [reading_signed, ← toInt_signExtend_double, ← h]
  · rintro ⟨y, hy⟩
    obtain rfl := eq_signExtend hy.symm
    rw [setWidth_signExtend]

/-- The one signed division whose quotient even the double word cannot
hold. -/
def Corner (D : BitVec (w + w)) (v : BitVec w) : Prop :=
  D = BitVec.intMin (w + w) ∧ v.signExtend (w + w) = -1#(w + w)

/-- Outside the corner the word-level quotient is the quotient of the
readings. -/
theorem toInt_sdiv_of_not_corner {D : BitVec (w + w)} {v : BitVec w}
    (h : ¬ Corner D v) :
    (D.sdiv (v.signExtend (w + w))).toInt = D.toInt.tdiv v.toInt := by
  have hor : D ≠ BitVec.intMin (w + w)
    ∨ v.signExtend (w + w) ≠ -1#(w + w) := by
    by_cases hD : D = BitVec.intMin (w + w)
    · exact Or.inr fun hv => h ⟨hD, hv⟩
    · exact Or.inl hD
  rw [BitVec.toInt_sdiv_of_ne_or_ne _ _ hor, toInt_signExtend_double]

/-- In the corner no word holds the quotient. -/
theorem Corner.not_fits (hw : 0 < w) {D : BitVec (w + w)}
    {v : BitVec w} (h : Corner D v) :
    ¬ Fits true w (D.toInt.tdiv v.toInt) := by
  obtain ⟨rfl, hv⟩ := h
  have hv1 : v.toInt = -1 := by
    rw [← toInt_signExtend_double, hv, BitVec.neg_one_eq_allOnes,
      BitVec.toInt_allOnes, if_pos (by omega)]
  rw [hv1, Int.tdiv_neg, Int.tdiv_one, BitVec.toInt_intMin_of_pos (by omega),
    fits_signed_iff hw]
  rintro ⟨-, hlt⟩
  have hle : 2 ^ (w - 1) ≤ 2 ^ (w + w - 1) :=
    Nat.pow_le_pow_right (by omega) (by omega)
  have hle' : (2 : Int) ^ (w - 1) ≤ 2 ^ (w + w - 1) := by exact_mod_cast hle
  omega

/-- In the corner the word-level quotient is cut to zero. -/
theorem Corner.check_fails (hw : 0 < w) {D : BitVec (w + w)}
    {v : BitVec w} (h : Corner D v) :
    D.sdiv (v.signExtend (w + w))
      ≠ ((D.sdiv (v.signExtend (w + w))).setWidth w).signExtend (w + w) := by
  obtain ⟨rfl, hv⟩ := h
  have hcut : (BitVec.intMin (w + w)).setWidth w = 0 := by
    refine BitVec.eq_of_getLsbD_eq fun i hi => ?_
    rw [BitVec.getLsbD_setWidth, BitVec.getLsbD_intMin]
    simp [show ¬ i + 1 = w + w by omega]
  rw [hv, BitVec.intMin_sdiv_neg_one, hcut]
  intro hz
  have hz' := congrArg BitVec.toInt hz
  rw [toInt_signExtend_double, BitVec.toInt_intMin_of_pos (by omega)] at hz'
  have hpos : (0 : Int) < 2 ^ (w + w - 1) := Int.pow_pos (by omega)
  rw [BitVec.ofNat_eq_ofNat, BitVec.toInt_zero] at hz'
  omega

/-- The quotient check of a signed division is exact. -/
theorem sdiv_check_iff (hw : 0 < w) (D : BitVec (w + w)) (v : BitVec w) :
    D.sdiv (v.signExtend (w + w))
        = ((D.sdiv (v.signExtend (w + w))).setWidth w).signExtend (w + w)
      ↔ Fits true w (D.toInt.tdiv v.toInt) := by
  by_cases hc : Corner D v
  · exact iff_of_false (hc.check_fails hw) (hc.not_fits hw)
  · rw [signExtend_setWidth_iff, toInt_sdiv_of_not_corner hc]

/-- A quotient that fits comes out of the cut as itself. -/
theorem toInt_sdiv_double (hw : 0 < w) {D : BitVec (w + w)} {v : BitVec w}
    (h : Fits true w (D.toInt.tdiv v.toInt)) :
    ((D.sdiv (v.signExtend (w + w))).setWidth w).toInt
      = D.toInt.tdiv v.toInt := by
  have hc : ¬ Corner D v := fun hc => hc.not_fits hw h
  have hcheck := (sdiv_check_iff hw D v).2 h
  rw [← toInt_signExtend_double, ← hcheck, toInt_sdiv_of_not_corner hc]

theorem toInt_srem_double (hw : 0 < w) (D : BitVec (w + w))
    {v : BitVec w} (hv : v ≠ 0) :
    ((D.srem (v.signExtend (w + w))).setWidth w).toInt
      = D.toInt.tmod v.toInt := by
  have hne : v.toInt ≠ 0 := fun h => hv ((reading_eq_zero_iff (b := true)).1 h)
  have hlt := (tdiv_tmod_law D.toInt hne).2.1
  have hfit : Fits true w (D.toInt.tmod v.toInt) := by
    have hle := BitVec.le_toInt v
    have hlt' := BitVec.toInt_lt (x := v)
    rw [fits_signed_iff hw]
    constructor <;> omega
  obtain ⟨y, hy⟩ := hfit
  have hrem : D.srem (v.signExtend (w + w)) = y.signExtend (w + w) := by
    refine eq_signExtend ?_
    rw [BitVec.toInt_srem, toInt_signExtend_double, ← hy, reading_signed]
  rw [hrem, setWidth_signExtend]
  exact hy

-- ======== signed magnitudes

/-- The integer of a sign and a magnitude. -/
def signed (neg : Bool) (n : Nat) : Int := if neg then -n else n

theorem natAbs_signed (neg : Bool) (n : Nat) : (signed neg n).natAbs = n := by
  cases neg <;> simp [signed]

/-- Truncated division divides the magnitudes. -/
theorem tdiv_signed (s t : Bool) (a b : Nat) :
    (signed s a).tdiv (signed t b) = signed (s != t) (a / b) := by
  cases s <;> cases t <;> simp [signed, Int.neg_tdiv, Int.tdiv_neg]

/-- The remainder has the dividend's sign. -/
theorem tmod_signed (s t : Bool) (a b : Nat) :
    (signed s a).tmod (signed t b) = signed s (a % b) := by
  cases s <;> cases t
    <;> simp [signed, Int.neg_tmod, Int.tmod_neg, ← Int.ofNat_tmod]

/-- A word by its sign bit and its magnitude. -/
theorem toInt_eq_signed (x : BitVec w) :
    x.toInt = signed x.msb x.abs.toNat := by
  have hlt := x.isLt
  rw [BitVec.toInt_eq_msb_cond, BitVec.toNat_abs, signed]
  split
  · omega
  · rfl

theorem natAbs_toInt (x : BitVec w) : x.toInt.natAbs = x.abs.toNat := by
  rw [toInt_eq_signed, natAbs_signed]

/-- On the negative side one magnitude more fits. -/
theorem fits_signed_magnitude (hw : 0 < w) (neg : Bool) (n : Nat) :
    Fits true w (signed neg n) ↔ if neg then n ≤ 2 ^ (w - 1)
      else n < 2 ^ (w - 1) := by
  have hcast : ((2 ^ (w - 1) : Nat) : Int) = 2 ^ (w - 1) := by norm_cast
  have hpos : 0 < 2 ^ (w - 1) := Nat.two_pow_pos _
  rw [fits_signed_iff hw, ← hcast]
  generalize 2 ^ (w - 1) = m at hpos
  cases neg with
  | true =>
    rw [signed, if_pos rfl, if_pos rfl]
    omega
  | false =>
    rw [signed, if_neg Bool.false_ne_true, if_neg Bool.false_ne_true]
    omega

/-- A magnitude that fits, under its sign. -/
theorem toInt_signed {n : Bool} {q : BitVec w}
    (h : Fits true w (signed n q.toNat)) :
    (if n then -q else q).toInt = signed n q.toNat := by
  obtain ⟨y, hy⟩ := h
  have hword : BitVec.ofInt w (signed n q.toNat) = if n then -q else q := by
    cases n <;> simp [signed, BitVec.ofInt_neg]
  rw [reading_signed] at hy
  rw [← hword, ← hy, BitVec.ofInt_toInt]
end Remu
