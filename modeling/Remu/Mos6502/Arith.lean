/-
Multi-byte addition and subtraction.

LDA and ADC on every byte from the lowest add two numbers of any length, LDA
and SBC subtract them. In binary mode one byte is one limb; in decimal mode
it is one position of two digits, where each digit is corrected on its own
and the correction of the low one is part of what the high one sees. The
carry flag is all that one byte hands to the next, and a subtraction borrows
when it is clear.
-/
import Remu.Lib.ByteSums
import Remu.Lib.Fields
import Remu.Mos6502.Execute

namespace Remu.Mos6502

open Status (C Z D V N)

namespace Registers

variable {r : Registers} {v : U8}

-- ======== 16 bits

/-- Bytes and their nibbles as numbers. -/
theorem toNat_wide (v : U8) : (v.setWidth 16).toNat = v.toNat := by
  have := v.isLt
  rw [BitVec.toNat_setWidth]
  omega

theorem toNat_low (v : U8) : (v &&& 0x0F).toNat = v.toNat % 16 :=
  Word.toNat_and_mask v 4 (by decide)

theorem toNat_high (v : U8) : (v &&& 0xF0).toNat = v.toNat / 16 * 16 :=
  Word.toNat_and_not_F v

theorem toNat_mod_16 (x : U16) : (x &&& 0x0F).toNat = x.toNat % 16 :=
  Word.toNat_and_mask x 4 (by decide)

theorem toNat_byte (x : U16) :
    ((x &&& 0xFF).setWidth 8).toNat = x.toNat % 256 := by
  have hmask : (x &&& 0xFF).toNat = x.toNat % 256 :=
    Word.toNat_and_mask x 8 (by decide)
  rw [BitVec.toNat_setWidth, hmask]
  exact Nat.mod_mod _ _

/-- Bit 7 of a computation, in 8 bits or in 16. -/
theorem and_80_ne_zero {w : Nat} (hw : 7 < w) (x : BitVec w) :
    (x &&& 0x80 != 0) = x.getLsbD 7 := by
  have hmask : (0x80 : BitVec w) = BitVec.twoPow w 7 := by
    apply BitVec.eq_of_toNat_eq
    rw [BitVec.toNat_twoPow, BitVec.ofNat_eq_ofNat, BitVec.toNat_ofNat]
  rw [hmask]
  exact Word.and_twoPow_ne_zero x hw

/-- A sum of two bytes and a carry, in 16 bits. -/
theorem toNat_wideSum (x y : U8) (c : Bool) :
    (x.setWidth 16 + y.setWidth 16 + carryWord 16 c).toNat
      = x.toNat + y.toNat + c.toNat := by
  have hx := x.isLt
  have hy := y.isLt
  have hc := Bool.toNat_le c
  rw [BitVec.toNat_add, BitVec.toNat_add, toNat_wide, toNat_wide,
    toNat_carryWord (by decide)]
  omega

/-- Its low byte. -/
theorem wideSum_low (x y : U8) (c : Bool) :
    ((x.setWidth 16 + y.setWidth 16 + carryWord 16 c) &&& 0xFF).setWidth 8
      = x + y + carryWord 8 c := by
  apply BitVec.eq_of_toNat_eq
  rw [toNat_byte, toNat_wideSum, BitVec.toNat_add, BitVec.toNat_add,
    toNat_carryWord (by decide), Nat.mod_add_mod]

/-- The carry in, as a word. -/
theorem cin_eq (r : Registers) : r.cin = carryWord 16 (r.p.contains C) := rfl

-- ======== binary

/-- V of a sum of which `result` is the low byte. -/
theorem sumOverflow_eq {a v result : U8} {sum : U16}
    (h : result = (sum &&& 0xFF).setWidth 8) :
    sumOverflow a v sum = ((a ^^^ result) &&& (v ^^^ result)).msb := by
  have hbit : result.getLsbD 7 = sum.getLsbD 7 := by
    rw [h, BitVec.getLsbD_setWidth, BitVec.getLsbD_and]
    exact Bool.and_true _
  rw [sumOverflow, and_80_ne_zero (by decide), BitVec.msb_eq_getLsbD_last]
  simp only [BitVec.getLsbD_and, BitVec.getLsbD_xor, hbit]
  rfl

/-- One limb of a sum. -/
theorem adc_binary (hd : r.p.contains D = false) :
    ∃ af, Limb 1 r.a v (r.p.contains C) (r.adc v).a
    ((r.adc v).p.contains C) af ((r.adc v).p.contains V) := by
  have hlimb := limb_add (show 4 < 8 by decide) r.a v (r.p.contains C)
  have hlow := wideSum_low r.a v (r.p.contains C)
  have ha : (r.adc v).a = r.a + v + carryWord 8 (r.p.contains C) := by
    rw [adc, hd, if_neg Bool.false_ne_true]
    exact hlow
  have hcarry : (r.adc v).p.contains C
    = decide (2 ^ 8 ≤ r.a.toNat + v.toNat + (r.p.contains C).toNat) := by
    rw [adc, hd, if_neg Bool.false_ne_true]
    refine (Status.contains_setZn _ rfl rfl _).trans
      ((Status.contains_set_other _ rfl _).trans
      ((Status.contains_set _ (by decide) _).trans (decide_eq_decide.2 ?_)))
    rw [BitVec.lt_def, cin_eq, toNat_wideSum]
    rfl
  have hoverflow : (r.adc v).p.contains V
    = sumOverflow r.a v (r.a.setWidth 16 + v.setWidth 16 + r.cin) := by
    rw [adc, hd, if_neg Bool.false_ne_true]
    exact (Status.contains_setZn _ rfl rfl _).trans
      (Status.contains_set _ (by decide) _)
  rw [ha, hcarry, hoverflow, cin_eq, sumOverflow_eq hlow.symm]
  exact ⟨_, hlimb⟩

/-- D stays. -/
theorem contains_D_adc : (r.adc v).p.contains D = r.p.contains D := by
  rw [adc]
  split
  · exact (Status.contains_set_other _ rfl _).trans
      ((Status.contains_set_other _ rfl _).trans
      ((Status.contains_set_other _ rfl _).trans
        (Status.contains_set_other _ rfl _)))
  · exact (Status.contains_setZn _ rfl rfl _).trans
      ((Status.contains_set_other _ rfl _).trans
        (Status.contains_set_other _ rfl _))

/-- A difference below zero. -/
theorem slt_zero (x : U16) : x.slt 0 = decide (2 ^ 15 ≤ x.toNat) := by
  have hsign : x.slt 0 = x.msb := BitVec.slt_zero_eq_msb
  rw [hsign, BitVec.msb_eq_decide]

/-- The difference of two bytes and a borrow, in 16 bits. -/
theorem toNat_wideDifference (x y : U8) (c : Bool) :
    (x.setWidth 16 - y.setWidth 16 - (1 - carryWord 16 c)).toNat
      = (x.toNat + 2 ^ 16 - (y.toNat + (!c).toNat)) % 2 ^ 16 := by
  have hx := x.isLt
  have hy := y.isLt
  have hone : (1 - carryWord 16 c) = carryWord 16 (!c) := by
    cases c <;> rfl
  rw [hone, BitVec.toNat_sub, BitVec.toNat_sub, toNat_wide, toNat_wide,
    toNat_carryWord (by decide)]
  have hc := Bool.toNat_le (!c)
  omega

/-- The low byte of the wide difference. -/
theorem wideDifference_low (x y : U8) (c : Bool) :
    (x.setWidth 16 - y.setWidth 16 - (1 - carryWord 16 c)).setWidth 8
      = x - y - carryWord 8 (!c) := by
  apply BitVec.eq_of_toNat_eq
  have hx := x.isLt
  have hy := y.isLt
  have hc := Bool.toNat_le (!c)
  rw [BitVec.toNat_setWidth, toNat_wideDifference, BitVec.toNat_sub,
    BitVec.toNat_sub, toNat_carryWord (by decide)]
  omega

/-- It is negative when there is a borrow. -/
theorem wideDifference_slt (x y : U8) (c : Bool) :
    (x.setWidth 16 - y.setWidth 16 - (1 - carryWord 16 c)).slt 0
      = decide (x.toNat < y.toNat + (!c).toNat) := by
  have hx := x.isLt
  have hy := y.isLt
  have hc := Bool.toNat_le (!c)
  rw [slt_zero, toNat_wideDifference]
  refine decide_eq_decide.2 ?_
  omega

/-- C after SBC is "no borrow". -/
theorem contains_C_sbc : (r.sbc v).p.contains C = !decide
    (r.a.toNat < v.toNat + (!r.p.contains C).toNat) := by
  refine (Status.contains_setZn _ rfl rfl _).trans
    ((Status.contains_set_other _ rfl _).trans
    ((Status.contains_set _ (by decide) _).trans ?_))
  rw [cin_eq, wideDifference_slt]

/-- The decimal flag is not touched. -/
theorem contains_D_sbc : (r.sbc v).p.contains D = r.p.contains D :=
  (Status.contains_setZn _ rfl rfl _).trans
    ((Status.contains_set_other _ rfl _).trans
      (Status.contains_set_other _ rfl _))

/-- One limb of a difference; the borrow is C clear. -/
theorem sbc_binary (hd : r.p.contains D = false) :
    ∃ af, Limb (-1) r.a v (!r.p.contains C) (r.sbc v).a
    (!(r.sbc v).p.contains C) af ((r.sbc v).p.contains V) := by
  have hlimb := limb_sub (show 4 < 8 by decide) r.a v (!r.p.contains C)
  have hlow := wideDifference_low r.a v (r.p.contains C)
  have ha : (r.sbc v).a = r.a - v - carryWord 8 (!r.p.contains C) := by
    rw [sbc, hd, if_neg Bool.false_ne_true]
    exact hlow
  have hoverflow : (r.sbc v).p.contains V
      = ((r.a ^^^ v) &&& (r.a ^^^ (r.a - v - carryWord 8 (!r.p.contains C)))).msb := by
    refine (Status.contains_setZn _ rfl rfl _).trans
      ((Status.contains_set _ (by decide) _).trans ?_)
    rw [cin_eq, hlow, and_80_ne_zero (by decide), BitVec.msb_eq_getLsbD_last]
  rw [ha, contains_C_sbc, hoverflow, Bool.not_not]
  exact ⟨_, hlimb⟩

-- ======== decimal

/-- A flag as a number. -/
theorem toNat_decide (q : Prop) [Decidable q] :
    (decide q).toNat = if q then 1 else 0 := by
  by_cases h : q
  · rw [decide_eq_true h, if_pos h, Bool.toNat_true]
  · rw [decide_eq_false h, if_neg h, Bool.toNat_false]

/-- A decimal sum before its high digit is corrected: the low one carries
past nine. -/
theorem toNat_decimalSum (x y : U8) (c : Bool) :
    (decimalSum x y (carryWord 16 c)).toNat
      = x.toNat / 16 * 16 + y.toNat / 16 * 16
        + (if 10 ≤ x.toNat % 16 + y.toNat % 16 + c.toNat
          then (x.toNat % 16 + y.toNat % 16 + c.toNat + 6) % 16 + 16
          else x.toNat % 16 + y.toNat % 16 + c.toNat) := by
  have hx := x.isLt
  have hy := y.isLt
  have hc := Bool.toNat_le c
  have hlo := toNat_wideSum (x &&& 0x0F) (y &&& 0x0F) c
  rw [toNat_low, toNat_low] at hlo
  rw [decimalSum]
  generalize (x &&& 0x0F).setWidth 16 + (y &&& 0x0F).setWidth
    16 + carryWord 16 c = lo at hlo
  have hpast : 0x0A ≤ lo ↔ 10 ≤ x.toNat % 16 + y.toNat % 16 + c.toNat := by
    rw [BitVec.le_def, hlo]
    rfl
  have hfixed : (((lo + 0x06) &&& 0x0F) + 0x10).toNat
    = (x.toNat % 16 + y.toNat % 16 + c.toNat + 6) % 16 + 16 := by
    rw [BitVec.toNat_add, toNat_mod_16, BitVec.toNat_add, hlo]
    show ((x.toNat % 16 + y.toNat % 16 + c.toNat + 6) % 2 ^ 16 % 16 + 16) % 2 ^ 16 = _
    omega
  rw [BitVec.toNat_add, BitVec.toNat_add, toNat_wide, toNat_wide, toNat_high,
    toNat_high, apply_ite BitVec.toNat, hfixed, hlo]
  simp only [hpast]
  split <;> omega

/-- One decimal position of a sum. -/
theorem adc_decimal (hd : r.p.contains D = true)
    (ha : Packed r.a) (hv : Packed v) :
    Packed (r.adc v).a
      ∧ (unpacked (r.adc v).a : Int) + 1
        * (100 * ((r.adc v).p.contains C).toNat)
        = unpacked r.a + 1 * (unpacked v + (r.p.contains C).toNat) := by
  have hsum := toNat_decimalSum r.a v (r.p.contains C)
  obtain ⟨sum, hs⟩ : ∃ sum, decimalSum r.a v r.cin = sum := ⟨_, rfl⟩
  rw [← cin_eq, hs] at hsum
  obtain ⟨total, htotal⟩ : ∃ total,
    (if 0xA0 ≤ sum then sum + 0x60 else sum) = total := ⟨_, rfl⟩
  have hdigits : (r.adc v).a.toNat = total.toNat % 256 := by
    rw [adc, hd, if_pos rfl]
    dsimp only
    rw [hs, htotal, toNat_byte]
  have hcarry : (r.adc v).p.contains C = decide (256 ≤ total.toNat) := by
    rw [adc, hd, if_pos rfl]
    refine (Status.contains_set _ (by decide) _).trans ?_
    rw [hs, htotal]
    exact decide_eq_decide.2 BitVec.le_def
  have hc := Bool.toNat_le (r.p.contains C)
  have hsmall : sum.toNat < 2 ^ 16 - 96 := by
    have hlo := r.a.isLt
    have hlv := v.isLt
    rw [hsum]
    split <;> omega
  have hvalue :
    total.toNat = if 160 ≤ sum.toNat then sum.toNat + 96 else sum.toNat := by
    have hadd : (sum + 0x60).toNat = sum.toNat + 96 := by
      show (sum.toNat + 96) % 2 ^ 16 = sum.toNat + 96
      omega
    rw [← htotal, apply_ite BitVec.toNat, hadd]
    exact if_congr BitVec.le_def rfl rfl
  obtain ⟨halo, hahi⟩ := ha
  obtain ⟨hvlo, hvhi⟩ := hv
  rw [hcarry, toNat_decide, Packed, unpacked, unpacked,
    unpacked, hdigits, hvalue]
  split at hsum <;> split <;> split <;> omega

/-- The low digit of a decimal difference; a borrow out of it shows as
sixteen less. -/
theorem toNat_lowDifference {x y : U8} (hx : x.toNat % 16 ≤ 9)
    (hy : y.toNat % 16 ≤ 9) (c : Bool) {lo : U16}
    (hlo : (x &&& 0x0F).setWidth 16 - (y &&& 0x0F).setWidth 16 + carryWord
      16 c - 1 = lo) :
    (if lo.slt 0 then ((lo - 0x06) &&& 0x0F) - 0x10 else lo).toNat
      = if x.toNat % 16 < y.toNat % 16 + (!c).toNat then
          x.toNat % 16 + 2 ^ 16 - 6 - (y.toNat % 16 + (!c).toNat)
        else x.toNat % 16 - (y.toNat % 16 + (!c).toNat) := by
  have hborrow : c.toNat + (!c).toNat = 1 := by
    cases c <;> rfl
  have hvalue :
    lo.toNat = (x.toNat % 16 + 2 ^ 16 - (y.toNat % 16 + (!c).toNat)) % 2 ^ 16 := by
    rw [← hlo, BitVec.toNat_sub, BitVec.toNat_add, BitVec.toNat_sub,
      toNat_wide, toNat_wide, toNat_low, toNat_low,
      toNat_carryWord (by decide), show (1 : U16).toNat = 1 from rfl]
    omega
  have hfixed : (((lo - 0x06) &&& 0x0F) - 0x10).toNat
      = (2 ^ 16 - 16 + (2 ^ 16 - 6 + lo.toNat) % 2 ^ 16 % 16) % 2 ^ 16 := by
    rw [BitVec.toNat_sub, toNat_mod_16, BitVec.toNat_sub]
    rfl
  rw [slt_zero, apply_ite BitVec.toNat, hfixed, hvalue]
  simp only [decide_eq_true_eq]
  split <;> split <;> omega

/-- The high digit, corrected when what stands in it is negative. -/
theorem toNat_highDifference (hi : U16) :
    (((if hi.slt 0 then hi - 0x60 else hi) &&& 0xFF).setWidth 8).toNat
      = (if 2 ^ 15 ≤ hi.toNat then 2 ^ 16 - 96 + hi.toNat else hi.toNat)
        % 256 := by
  have hfixed : (hi - 0x60).toNat = (2 ^ 16 - 96 + hi.toNat) % 2 ^ 16 :=
    BitVec.toNat_sub hi 0x60
  rw [toNat_byte, slt_zero, apply_ite BitVec.toNat, hfixed]
  simp only [decide_eq_true_eq]
  split <;> omega

/-- The two corrections make decimal digits: `x` and `y` are the low digits,
`X` and `Y` the high ones, `b` the borrow, `k` the corrected low digit. -/
theorem corrected_digits {X Y x y b k : Nat} (hX : X ≤ 9) (hY : Y ≤ 9)
    (hx : x ≤ 9) (hy : y ≤ 9) (hb : b ≤ 1)
    (hk : k = if x < y + b then x + 2 ^ 16 - 6 - (y + b) else x - (y + b))
    {hi : Nat} (hhi : hi = (X * 16 + 2 ^ 16 - Y * 16 + k) % 2 ^ 16) :
    ∃ h l, (if 2 ^ 15 ≤ hi then 2 ^ 16 - 96 + hi else hi) % 256 = 16 * h + l
      ∧ h ≤ 9 ∧ l ≤ 9
      ∧ ((10 * h + l : Nat) : Int)
        = (X * 10 + x - (Y * 10 + y) - b) % 100 := by
  by_cases hlow : x < y + b
  · rw [if_pos hlow] at hk
    by_cases hhigh : Y + 1 ≤ X
    · have hvalue : hi = 16 * (X - Y - 1) + (x + 10 - (y + b)) := by omega
      rw [if_neg (by omega)]
      exact ⟨X - Y - 1,
        x + 10 - (y + b), by omega, by omega, by omega, by omega⟩
    · have hvalue :
        hi = 2 ^ 16 - 16 * (Y + 1 - X) + (x + 10 - (y + b)) := by omega
      rw [if_pos (by omega)]
      exact ⟨X + 9 - Y,
        x + 10 - (y + b), by omega, by omega, by omega, by omega⟩
  · rw [if_neg hlow] at hk
    by_cases hhigh : Y ≤ X
    · have hvalue : hi = 16 * (X - Y) + (x - (y + b)) := by omega
      rw [if_neg (by omega)]
      exact ⟨X - Y, x - (y + b), by omega, by omega, by omega, by omega⟩
    · have hvalue : hi = 2 ^ 16 - 16 * (Y - X) + (x - (y + b)) := by omega
      rw [if_pos (by omega)]
      exact ⟨X + 10 - Y, x - (y + b), by omega, by omega, by omega, by omega⟩

/-- Both digits of a difference. -/
theorem decimalDifference_spec {x y : U8} (hx : Packed x)
    (hy : Packed y) (c : Bool) :
    Packed (decimalDifference x y (carryWord 16 c))
      ∧ (unpacked (decimalDifference x y (carryWord 16 c)) : Int)
        = (unpacked x - unpacked y - (!c).toNat) % 100 := by
  have hlow := toNat_lowDifference hx.1 hy.1 c rfl
  obtain ⟨digits, hdigits⟩ : ∃ digits,
    decimalDifference x y (carryWord 16 c) = digits := ⟨_, rfl⟩
  rw [hdigits]
  rw [decimalDifference] at hdigits
  generalize (if
    ((x &&& 0x0F).setWidth 16 - (y &&& 0x0F).setWidth 16 + carryWord 16
    c - 1).slt 0 then _ else _)
    = low at hlow hdigits
  have hhi : ((x &&& 0xF0).setWidth 16 - (y &&& 0xF0).setWidth 16 + low).toNat
      = (x.toNat / 16 * 16 + 2 ^ 16 - y.toNat / 16 * 16 + low.toNat)
        % 2 ^ 16 := by
    have hy := y.isLt
    rw [BitVec.toNat_add, BitVec.toNat_sub, toNat_wide, toNat_wide,
      toNat_high, toNat_high]
    omega
  obtain ⟨h, l, hbyte, hh, hl, hvalue⟩ :=
    corrected_digits hx.2 hy.2 hx.1 hy.1 (Bool.toNat_le (!c)) hlow hhi
  have hnat : digits.toNat = 16 * h + l := by
    rw [← hdigits, toNat_highDifference, hbyte]
  have hdiv : digits.toNat / 16 = h := by omega
  have hmod : digits.toNat % 16 = l := by omega
  rw [Packed, unpacked, unpacked, unpacked, hdiv, hmod]
  refine ⟨⟨hl, hh⟩, ?_⟩
  rw [mul_comm, hvalue]
  push_cast
  rfl

/-- One decimal position of a difference. -/
theorem sbc_decimal (hd : r.p.contains D = true)
    (ha : Packed r.a) (hv : Packed v) :
    Packed (r.sbc v).a
      ∧ (unpacked (r.sbc v).a : Int) + -1
        * (100 * (!(r.sbc v).p.contains C).toNat)
        = unpacked r.a + -1 * (unpacked v + (!r.p.contains C).toNat) := by
  have hdigits :
    (r.sbc v).a = decimalDifference r.a v (carryWord 16 (r.p.contains C)) := by
    rw [sbc, hd, if_pos rfl]
    rfl
  obtain ⟨hpacked, hvalue⟩ := decimalDifference_spec ha hv (r.p.contains C)
  have hc := Bool.toNat_le (!r.p.contains C)
  have hlt := unpacked_lt hpacked
  rw [contains_C_sbc, Bool.not_not, toNat_decide, hdigits]
  refine ⟨hpacked, ?_⟩
  obtain ⟨halo, hahi⟩ := ha
  obtain ⟨hvlo, hvhi⟩ := hv
  rw [hvalue, unpacked, unpacked]
  split <;> omega

-- ======== chains

/-- LDA a byte of one number and operate on it with that of the other. -/
def byteStep (op : Registers → U8 → Registers) (p : U8 × U8) (r : Registers) :
    U8 × Registers :=
  let r := op (r.lda p.1) p.2
  (r.a, r)

/-- LDA and ADC from the lowest byte on. -/
def adcChain : List (U8 × U8) → Registers → List U8 × Registers :=
  thread (byteStep adc)

/-- LDA and SBC from the lowest byte on. -/
def sbcChain : List (U8 × U8) → Registers → List U8 × Registers :=
  thread (byteStep sbc)

/-- LDA leaves the carry and the mode alone. -/
theorem contains_lda {m : U8} (hz : Z &&& m = 0) (hn : N &&& m = 0) :
    (r.lda v).p.contains m = r.p.contains m :=
  Status.contains_setZn r.p hz hn v

/-- ADC is a step of a binary chain. -/
theorem binarySteps_adc : BinarySteps 1 (fun r => r.p.contains D = false)
    (·.p.contains C) (·.p.contains V) (byteStep adc) where
  keeps _ _ hd := contains_D_adc.trans ((contains_lda rfl rfl).trans hd)
  limb p r hd := by
    obtain ⟨af, h⟩ :=
      adc_binary (r := r.lda p.1) (v := p.2) ((contains_lda rfl rfl).trans hd)
    rw [contains_lda rfl rfl] at h
    exact ⟨af, h⟩

theorem binarySteps_sbc : BinarySteps (-1) (fun r => r.p.contains D = false)
    (!·.p.contains C) (·.p.contains V) (byteStep sbc) where
  keeps _ _ hd := contains_D_sbc.trans ((contains_lda rfl rfl).trans hd)
  limb p r hd := by
    obtain ⟨af, h⟩ :=
      sbc_binary (r := r.lda p.1) (v := p.2) ((contains_lda rfl rfl).trans hd)
    rw [contains_lda rfl rfl] at h
    exact ⟨af, h⟩

/-- ADC is a step of a decimal chain. -/
theorem packedSteps_adc : PackedSteps 1 (fun r => r.p.contains D = true)
    (·.p.contains C) (byteStep adc) where
  keeps _ _ hd := contains_D_adc.trans ((contains_lda rfl rfl).trans hd)
  packed p r hp hd :=
    (adc_decimal (r := r.lda p.1) ((contains_lda rfl rfl).trans hd) hp.1 hp.2).1
  exact p r hp hd := by
    have h := (adc_decimal (r := r.lda p.1) ((contains_lda rfl rfl).trans hd)
      hp.1 hp.2).2
    rw [contains_lda rfl rfl] at h
    exact h

theorem packedSteps_sbc : PackedSteps (-1) (fun r => r.p.contains D = true)
    (!·.p.contains C) (byteStep sbc) where
  keeps _ _ hd := contains_D_sbc.trans ((contains_lda rfl rfl).trans hd)
  packed p r hp hd :=
    (sbc_decimal (r := r.lda p.1) ((contains_lda rfl rfl).trans hd) hp.1 hp.2).1
  exact p r hp hd := by
    have h := (sbc_decimal (r := r.lda p.1) ((contains_lda rfl rfl).trans hd)
      hp.1 hp.2).2
    rw [contains_lda rfl rfl] at h
    exact h

end Registers

open Registers (adcChain sbcChain)

/-- A chain on numbers of any length, from any registers: sums start with C
clear, differences with C set, and C clear is their borrow. -/
theorem chains_exact (l : List (U8 × U8)) (r : Registers) :
    (r.p.contains D = false →
      (r.p.contains C = false →
        BinaryLaw 1 l (adcChain l r).1 ((adcChain l r).2.p.contains C)
          ((adcChain l r).2.p.contains V))
      ∧ (r.p.contains C = true →
        BinaryLaw (-1) l (sbcChain l r).1 (!(sbcChain l r).2.p.contains C)
          ((sbcChain l r).2.p.contains V)))
    ∧ (r.p.contains D = true → (∀ p ∈ l, Packed p.1 ∧ Packed p.2) →
      (r.p.contains C = false →
        DecimalLaw 1 l (adcChain l r).1 ((adcChain l r).2.p.contains C))
      ∧ (r.p.contains C = true →
        DecimalLaw (-1) l (sbcChain l r).1
        (!(sbcChain l r).2.p.contains C))) := by
  have hborrow : r.p.contains C = true → (!r.p.contains C) = false :=
    fun hc => by rw [hc, Bool.not_true]
  refine ⟨fun hd => ⟨fun hc => ?_, fun hc => ?_⟩,
    fun hd hl => ⟨fun hc => ?_, fun hc => ?_⟩⟩
  · exact Registers.binarySteps_adc.law one_ne_zero hd hc l
  · exact Registers.binarySteps_sbc.law (by decide) hd (hborrow hc) l
  · exact Registers.packedSteps_adc.law one_ne_zero hd hc hl
  · exact Registers.packedSteps_sbc.law (by decide) hd (hborrow hc) hl

/-- 0x7FFF + 1 overflows; 0599 + 4501 = 5100 and 5100 - 4501 = 0599. -/
theorem chains_exact_carried :
    BinaryLaw 1 [(0xFF, 0x01), (0x7F, 0x00)] [0x00, 0x80] false true
      ∧ DecimalLaw 1 [(0x99, 0x01), (0x05, 0x45)] [0x00, 0x51] false
      ∧ DecimalLaw (-1) [(0x00, 0x01), (0x51, 0x45)] [0x99, 0x05] false := by
  have hpacked : ∀ p ∈ [((0x99 : U8), (0x01 : U8)), (0x05, 0x45)],
    Packed p.1 ∧ Packed p.2 := by
    rw [List.forall_mem_cons, List.forall_mem_singleton]
    decide
  have hpacked' : ∀ p ∈ [((0x00 : U8), (0x01 : U8)), (0x51, 0x45)],
    Packed p.1 ∧ Packed p.2 := by
    rw [List.forall_mem_cons, List.forall_mem_singleton]
    decide
  refine ⟨?_, ?_, ?_⟩
  · exact ((chains_exact [(0xFF, 0x01), (0x7F, 0x00)] { Registers.new with
      p := ⟨0x20⟩ }).1 (by decide)).1 (by decide)
  · exact ((chains_exact [(0x99, 0x01), (0x05, 0x45)] { Registers.new with
      p := ⟨0x28⟩ }).2 (by decide) hpacked).1
      (by decide)
  · exact ((chains_exact [(0x00, 0x01), (0x51, 0x45)] { Registers.new with
      p := ⟨0x29⟩ }).2 (by decide) hpacked').2
      (by decide)

end Remu.Mos6502
