/-
Bytes as one string of bits.

Bit `i` of the string is bit `i % 8` of byte `i / 8`, so that a word of
consecutive bytes, low byte first, is a piece of the string. Testing the
word against a mask of adjacent bits tests the same bits of the string.
-/
import Remu.Lib.Fields
import Remu.Lib.Truncated

namespace Remu

variable {w : Nat}

/-- Bit `i` of a sequence of bytes. -/
def bitOf (bytes : Nat → U8) (i : Nat) : Bool :=
  (bytes (i / 8)).getLsbD (i % 8)

/-- The word of `n` bytes from byte `a` on, low byte first. -/
def bytesWord (w : Nat) (bytes : Nat → U8) : Nat → Nat → BitVec w
  | _, 0 => 0
  | a, n + 1 => (bytes a).setWidth w ||| (bytesWord w bytes (a + 1) n <<< 8)

example : bytesWord 32
    (fun a => if a = 3 then 0xC5 else 0x0F) 3 2 = 0x0FC5 := by decide

theorem bitOf_add (bytes : Nat → U8) (a i : Nat) :
    bitOf bytes (8 * a + i) = (bytes (a + i / 8)).getLsbD (i % 8) := by
  rw [bitOf, Nat.mul_add_div (by decide), Nat.mul_add_mod]

/-- The word is the string from bit `8 * a` on. -/
theorem getLsbD_bytesWord (bytes : Nat → U8) (a n : Nat) {i : Nat}
    (hi : i < 8 * n) (hw : i < w) :
    (bytesWord w bytes a n).getLsbD i = bitOf bytes (8 * a + i) := by
  induction n generalizing a i with
  | zero => omega
  | succ n ih =>
    rw [bytesWord, BitVec.getLsbD_or, BitVec.getLsbD_setWidth,
      BitVec.getLsbD_shiftLeft]
    by_cases h8 : i < 8
    · rw [bitOf_add, Nat.div_eq_of_lt h8, Nat.mod_eq_of_lt h8]
      simp [hw, h8]
    · rw [ih (a + 1) (show i - 8 < 8 * n by omega) (by omega),
        BitVec.getLsbD_of_ge (bytes a) i (by omega),
        show 8 * (a + 1) + (i - 8) = 8 * a + i by omega]
      simp [hw, h8]

/-- A mask of `m` bits over the word is clear when those of the string are. -/
theorem bytesWord_and_fieldMask (bytes : Nat → U8) (a : Nat) {n k m : Nat}
    (hn : k + m ≤ 8 * n) (hw : k + m ≤ w) :
    bytesWord w bytes a n &&& Word.fieldMask w k m = 0#w
      ↔ ∀ i, k ≤ i → i < k + m → bitOf bytes (8 * a + i) = false := by
  constructor
  · intro h i hk hm
    have hbit := congrArg (·.getLsbD i) h
    simp only [BitVec.getLsbD_and, Word.getLsbD_fieldMask,
      BitVec.getLsbD_zero] at hbit
    rw [getLsbD_bytesWord bytes a n (by omega) (by omega)] at hbit
    simpa [hk, hm, show i < w by omega] using hbit
  · intro h
    refine BitVec.eq_of_getLsbD_eq fun i hi => ?_
    rw [BitVec.getLsbD_and, Word.getLsbD_fieldMask, BitVec.getLsbD_zero]
    by_cases hm : k ≤ i ∧ i < k + m
    · rw [getLsbD_bytesWord bytes a n (by omega) hi, h i hm.1 hm.2,
        Bool.false_and]
    · rcases Nat.lt_or_ge i k with hk | hk
      · simp [hk]
      · simp [show ¬ i < k + m by omega]

-- ======== elements

section Elements

open Word

variable {w : Nat}

/-- Bit `idx`, negative ones included, of the string that starts at byte
`off`, with offsets of `a` bits. -/
def bitNumber (a : Nat) (off idx : BitVec w) : Nat :=
  ((8 * off.toNat + idx.toInt) % 2 ^ (a + 3)).toNat

/-- The offset of the element of `2 ^ r` bytes with the bit in it. -/
def elementOff (a r : Nat) (off idx : BitVec w) : BitVec w :=
  low a (off + idx.sshiftRight (r + 3) * BitVec.ofNat w (2 ^ r))

/-- The bit within its element. -/
def elementBit (r : Nat) (idx : BitVec w) : Nat := idx.toNat % 2 ^ (r + 3)

example : elementOff 16 1 (0x10 : BitVec 32) (-1) = 0x0E ∧ elementBit 1
    (-1 : BitVec 32) = 15
    ∧ bitNumber 16 (0x10 : BitVec 32) (-1) = 127 := by decide

/-- The bits of the first element. -/
theorem elementOff_first {r : Nat} (hr : r + 3 < w) (a : Nat)
    (off : BitVec w) {idx : BitVec w}
    (h : idx.toNat < 2 ^ (r + 3)) :
    elementOff a r off idx = low a off ∧ elementBit r idx = idx.toNat := by
  have hsmall : 2 * 2 ^ (r + 3) ≤ 2 ^ w := by
    rw [← Nat.pow_succ']
    exact Nat.pow_le_pow_right (by decide) hr
  have hmsb : idx.msb = false := by
    rw [BitVec.msb_eq_false_iff_two_mul_lt]
    omega
  have hdisp : idx.sshiftRight (r + 3) = 0#w := by
    apply BitVec.eq_of_toNat_eq
    rw [BitVec.sshiftRight_eq_of_msb_false hmsb, BitVec.toNat_ushiftRight,
      Nat.shiftRight_eq_div_pow, Nat.div_eq_of_lt h]
    rfl
  refine ⟨?_, Nat.mod_eq_of_lt h⟩
  rw [elementOff, hdisp, BitVec.zero_mul, BitVec.add_zero]

theorem toNat_modEq_toInt (x : BitVec w) :
    (x.toNat : Int) ≡ x.toInt [ZMOD 2 ^ w] := by
  rw [BitVec.toInt_eq_toNat_cond]
  split
  · rfl
  · refine Int.modEq_iff_dvd.mpr ⟨-1, ?_⟩
    push_cast
    omega

theorem elementBit_eq {r : Nat} (hr : r + 3 ≤ w) (idx : BitVec w) :
    (elementBit r idx : Int) = idx.toInt % 2 ^ (r + 3) := by
  have hdvd : ((2 : Int) ^ (r + 3)) ∣ 2 ^ w := pow_dvd_pow 2 hr
  rw [elementBit]
  push_cast
  exact (toNat_modEq_toInt idx).of_dvd hdvd

theorem elementOff_modEq {a r : Nat} (ha : a ≤ w) (hr : r + 3 ≤ w)
    (off idx : BitVec w) :
    ((elementOff a r off idx).toNat : Int) ≡ off.toNat + idx.toInt / 2 ^
      (r + 3) * 2 ^ r [ZMOD 2 ^ a] := by
  have hdvd : ((2 : Int) ^ a) ∣ 2 ^ w := pow_dvd_pow 2 ha
  have hunit : 2 ^ r < 2 ^ w := Nat.pow_lt_pow_right (by decide) (by omega)
  have hdisp :
    ((idx.sshiftRight (r + 3)).toNat : Int) ≡ idx.toInt / 2 ^ (r + 3)
    [ZMOD 2 ^ a] := by
    have h := toNat_modEq_toInt (idx.sshiftRight (r + 3))
    rw [BitVec.toInt_sshiftRight, Int.shiftRight_eq_div_pow] at h
    exact_mod_cast h.of_dvd hdvd
  rw [elementOff, toNat_low, BitVec.toNat_add, BitVec.toNat_mul,
    BitVec.toNat_ofNat, Nat.mod_eq_of_lt hunit]
  push_cast
  refine ((Int.mod_modEq _ _).trans ((Int.mod_modEq _ _).of_dvd hdvd)).trans ?_
  exact ((((Int.mod_modEq _ _).of_dvd hdvd).trans (hdisp.mul_right _)).add_left _)

/-- Offset and place within the element are the bit sought. -/
theorem element_modEq {a r : Nat} (ha : a ≤ w) (hr : r + 3 ≤ w)
    (off idx : BitVec w) :
    (8 * (elementOff a r off idx).toNat + elementBit r idx : Int)
      ≡ 8 * off.toNat + idx.toInt [ZMOD 2 ^ (a + 3)] := by
  have hoff := (elementOff_modEq ha hr off idx).mul_left' (c := 8)
  have hpow : ∀ n : Nat, (2 : Int) ^ (n + 3) = 8 * 2 ^ n := fun n => by
    rw [pow_add, Int.mul_comm]
    rfl
  have hsplit := Int.mul_ediv_add_emod idx.toInt (2 ^ (r + 3))
  have hsum : (8 * (off.toNat + idx.toInt / 2 ^ (r + 3) * 2 ^ r) + elementBit r idx : Int)
      = 8 * off.toNat + idx.toInt := by
    have hcomm : (2 : Int) ^ (r + 3) * (idx.toInt / 2 ^ (r + 3))
      = 8 * (idx.toInt / 2 ^ (r + 3) * 2 ^ r) := by
      rw [Int.mul_comm (_ / _), ← Int.mul_assoc, ← hpow]
    rw [elementBit_eq hr, Int.mul_add]
    omega
  rw [hpow]
  exact (hoff.add_right _).trans (by rw [hsum])

/-- Where the byte tested is not past the wrap of the offsets, it and its bit
are those of the bit sought. -/
theorem element_number {a r : Nat} (ha : a ≤ w) (hr : r + 3 ≤ w)
    (off idx : BitVec w)
    (hin : a = w
      ∨ (elementOff a r off idx).toNat + elementBit r idx / 8 < 2 ^ a) :
    elementOff a r off idx + BitVec.ofNat w (elementBit r idx / 8)
      = BitVec.ofNat w (bitNumber a off idx / 8)
      ∧ elementBit r idx % 8 = bitNumber a off idx % 8 := by
  have hnum : (8 * (elementOff a r off idx).toNat + elementBit r idx) % 2 ^
    (a + 3) = bitNumber a off idx := by
    have hcast :
        (8 * (elementOff a r off idx).toNat + elementBit r idx : Int)
        % 2 ^ (a + 3)
        = ((8 * (elementOff a r off idx).toNat + elementBit r idx) % 2 ^
          (a + 3) : Nat) := by
      push_cast
      rfl
    rw [bitNumber, ← element_modEq ha hr off idx, hcast, Int.toNat_natCast]
  have hpow : 2 ^ (a + 3) = 8 * 2 ^ a := by rw [Nat.pow_add, Nat.mul_comm]
  have hbit : elementBit r idx % 8 = bitNumber a off idx % 8 := by
    rw [← hnum, hpow, Nat.mod_mul_right_mod, Nat.mul_add_mod]
  refine ⟨BitVec.eq_of_toNat_eq ?_, hbit⟩
  have hbyte : ((elementOff a r off idx).toNat + elementBit r idx / 8) % 2 ^ a
    = bitNumber a off idx / 8 := by
    rw [← hnum, hpow, Nat.mod_mul_right_div_self, Nat.mul_add_div (by decide)]
  have hlt : bitNumber a off idx / 8 < 2 ^ a :=
    hbyte ▸ Nat.mod_lt _ (Nat.two_pow_pos a)
  have hle : 2 ^ a ≤ 2 ^ w := Nat.pow_le_pow_right (by decide) ha
  rw [BitVec.toNat_add, BitVec.toNat_ofNat, BitVec.toNat_ofNat,
    Nat.add_mod_mod, Nat.mod_eq_of_lt (Nat.lt_of_lt_of_le hlt hle), ← hbyte]
  rcases hin with rfl | hin
  · rfl
  · rw [Nat.mod_eq_of_lt hin, Nat.mod_eq_of_lt (Nat.lt_of_lt_of_le hin hle)]

end Elements

end Remu
