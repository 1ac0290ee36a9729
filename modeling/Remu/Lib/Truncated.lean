/-
Words used at less than their width.

`low n x` is `x` with everything above its `n` low bits cleared. Sums and
differences of truncated words are those of the words, truncated. A pointer
that steps down through slots of `b` bytes meets the same addresses at two
widths as long as it stays below the smaller one, and not otherwise.
-/
import Mathlib.Data.Int.ModEq
import Remu.Lib.Word

namespace Remu.Word

variable {w : Nat}

-- ======== truncation

/-- The low `n` bits. -/
def low (n : Nat) (x : BitVec w) : BitVec w := (x.setWidth n).setWidth w

theorem toNat_low (n : Nat) (x : BitVec w) :
    (low n x).toNat = x.toNat % 2 ^ n := by
  rw [low, BitVec.toNat_setWidth, BitVec.toNat_setWidth]
  exact Nat.mod_eq_of_lt ((Nat.mod_le _ _).trans_lt x.isLt)

theorem low_eq_iff {n : Nat} {x y : BitVec w} :
    low n x = low n y ↔ x.toNat % 2 ^ n = y.toNat % 2 ^ n := by
  rw [← BitVec.toNat_inj, toNat_low, toNat_low]

@[simp] theorem low_low (n : Nat) (x : BitVec w) :
    low n (low n x) = low n x := by
  rw [low_eq_iff, toNat_low, Nat.mod_mod]

/-- Words alike in their low `m` bits are alike in fewer. -/
theorem low_of_low {n m : Nat} (hnm : n ≤ m) {x y : BitVec w}
    (h : low m x = low m y) : low n x = low n y := by
  rw [low_eq_iff] at h ⊢
  rw [← Nat.mod_mod_of_dvd x.toNat (pow_dvd_pow 2 hnm), h,
    Nat.mod_mod_of_dvd _ (pow_dvd_pow 2 hnm)]

theorem low_eq_self {n : Nat} (h : w ≤ n) (x : BitVec w) : low n x = x := by
  rw [low, BitVec.setWidth_setWidth_of_le _ h, BitVec.setWidth_eq]

/-- Masking is truncation. -/
theorem and_mask_eq_low {n : Nat} (h : n ≤ w) (x : BitVec w) :
    x &&& BitVec.ofNat w (2 ^ n - 1) = low n x := by
  rw [← BitVec.toNat_inj, toNat_and_mask x n h, toNat_low]

theorem low_add_low {n : Nat} (h : n ≤ w) (x y : BitVec w) :
    low n (low n x + y) = low n (x + y) := by
  rw [low, BitVec.setWidth_add _ _ h, low, BitVec.setWidth_setWidth_of_le _ h,
    BitVec.setWidth_eq, low, BitVec.setWidth_add _ _ h]

theorem low_sub_low {n : Nat} (h : n ≤ w) (x y : BitVec w) :
    low n (low n x - y) = low n (x - y) := by
  rw [BitVec.sub_eq_add_neg, BitVec.sub_eq_add_neg, low_add_low h]

-- ======== slots

/-- The `k`th slot of `b` bytes below `x`, at a width of `n` bits. -/
def slot (n : Nat) (x : BitVec w) (b k : Nat) : BitVec w :=
  low n (x - BitVec.ofNat w (k * b))

example : slot 16 (0x10002 : BitVec 32) 2 2 = 0xFFFE ∧ slot 32
    (0x10002 : BitVec 32) 2 2 = 0xFFFE
    ∧ slot 32 (0x20002 : BitVec 32) 2 2 = 0x1FFFE := by decide

theorem toNat_slot {n : Nat} (h : n ≤ w) (x : BitVec w) (b k : Nat) :
    ((slot n x b k).toNat : Int) = (x.toNat - k * b) % 2 ^ n := by
  have hdvd : ((2 : Int) ^ n) ∣ 2 ^ w := pow_dvd_pow 2 h
  have hle : k * b % 2 ^ w ≤ 2 ^ w := (Nat.mod_lt _ (Nat.two_pow_pos w)).le
  have hwrap : (2 : Int) ^ w ≡ 0 [ZMOD 2 ^ n] :=
    Int.modEq_zero_iff_dvd.mpr hdvd
  have hstep : ((k * b : Int) % 2 ^ w) ≡ k * b [ZMOD 2 ^ n] :=
    (Int.mod_modEq _ _).of_dvd hdvd
  rw [slot, toNat_low, BitVec.toNat_sub, BitVec.toNat_ofNat]
  push_cast [Int.natCast_sub hle]
  rw [Int.emod_emod_of_dvd _ hdvd]
  have hsum := (hwrap.sub hstep).add_right x.toNat
  rwa [zero_sub, neg_add_eq_sub] at hsum

theorem slot_zero {n : Nat} (x : BitVec w) (b : Nat) :
    slot n x b 0 = low n x := by
  rw [slot, Nat.zero_mul, BitVec.sub_zero]

/-- From one slot further down the slots are the next ones. -/
theorem slot_of_step {n : Nat} (h : n ≤ w) {x y : BitVec w} {b : Nat}
    (hy : low n y = low n (x - BitVec.ofNat w b))
    (k : Nat) : slot n y b k = slot n x b (k + 1) := by
  rw [slot, slot, ← low_sub_low h, hy, low_sub_low h, BitVec.sub_sub,
    BitVec.ofNat_add_ofNat, Nat.add_comm b, ← Nat.succ_mul]

/-- One slot further down. -/
theorem slot_down {n : Nat} (h : n ≤ w) {x y z : BitVec w} {b k : Nat}
    (hy : low n y = slot n x b k)
    (hz : low n z = low n (y - BitVec.ofNat w b)) :
    low n z = slot n x b (k + 1) := by
  rw [hz, ← low_sub_low h, hy, slot, low_sub_low h, slot, BitVec.sub_sub,
    BitVec.ofNat_add_ofNat, Nat.succ_mul]

@[simp] theorem slot_low {n : Nat} (h : n ≤ w) (x : BitVec w) (b k : Nat) :
    slot n (low n x) b k = slot n x b k :=
  low_sub_low h _ _

/-- The slot at the smaller width is the one at the larger, truncated. -/
theorem low_slot {n m : Nat} (hnm : n ≤ m) (x : BitVec w) (b k : Nat) :
    low n (slot m x b k) = slot n x b k := by
  rw [slot, slot, low_eq_iff, toNat_low,
    Nat.mod_mod_of_dvd _ (pow_dvd_pow 2 hnm)]

theorem slot_eq_iff {n m : Nat} (hnm : n ≤ m) (x : BitVec w) (b k : Nat) :
    slot n x b k = slot m x b k ↔ (slot m x b k).toNat < 2 ^ n := by
  rw [← low_slot hnm, ← BitVec.toNat_inj, toNat_low]
  exact ⟨fun h => h ▸ Nat.mod_lt _ (Nat.two_pow_pos n), Nat.mod_eq_of_lt⟩

section Stepping

variable {m b k : Nat} (hm : m ≤ w) (x : BitVec w)

include hm

theorem toNat_slot_low (b k : Nat) :
    ((slot m x b k).toNat : Int) = ((low m x).toNat - k * b) % 2 ^ m := by
  rw [toNat_slot hm, toNat_low]
  push_cast
  rw [Int.emod_sub_emod]

/-- Above zero the slots descend. -/
theorem toNat_slot_of_le (h : k * b ≤ (low m x).toNat) :
    (slot m x b k).toNat = (low m x).toNat - k * b := by
  have hlow : (low m x).toNat < 2 ^ m := by
    rw [toNat_low]
    exact Nat.mod_lt _ (Nat.two_pow_pos m)
  have hpow : ((2 ^ m : Nat) : Int) = 2 ^ m := Nat.cast_pow 2 m
  have hslot := toNat_slot_low hm x b k
  rw [Int.emod_eq_of_lt (by omega) (by omega)] at hslot
  omega

/-- The first slot below zero is at the top. -/
theorem toNat_slot_of_lt (hb : b ≤ 2 ^ m) (h : (low m x).toNat < k * b)
    (hk : k * b ≤ (low m x).toNat + b) :
    (slot m x b k).toNat + k * b = 2 ^ m + (low m x).toNat := by
  have hpow : ((2 ^ m : Nat) : Int) = 2 ^ m := Nat.cast_pow 2 m
  have hslot := toNat_slot_low hm x b k
  rw [← Int.add_emod_right, Int.emod_eq_of_lt (by omega) (by omega)] at hslot
  omega

/-- Slots agree at two widths as long as the larger stays below the smaller. -/
theorem slots_agree_iff {n : Nat} (hnm : n < m) (hb : 0 < b)
    (hbn : b ≤ 2 ^ n) (c : Nat) :
    (∀ k, 1 ≤ k → k ≤ c → slot n x b k = slot m x b k)
      ↔ c = 0 ∨ (c * b ≤ (low m x).toNat ∧ (low m x).toNat < 2 ^ n + b) := by
  have hdouble : 2 * 2 ^ n ≤ 2 ^ m := by
    rw [← Nat.pow_succ']
    exact Nat.pow_le_pow_right (by decide) hnm
  induction c with
  | zero => exact iff_of_true (fun k h h' => by omega) (.inl rfl)
  | succ c ih =>
    have hstep : (∀ k, 1 ≤ k → k ≤ c + 1 → slot n x b k = slot m x b k)
        ↔ (∀ k, 1 ≤ k → k ≤ c → slot n x b k = slot m x b k)
          ∧ (slot m x b (c + 1)).toNat < 2 ^ n := by
      rw [← slot_eq_iff hnm.le]
      refine ⟨fun h => ⟨fun k hk hk' => h k hk (by omega),
        h _ (by omega) le_rfl⟩, fun ⟨h, h'⟩ k hk hk' => ?_⟩
      rcases Nat.lt_or_ge k (c + 1) with hlt | hge
      · exact h k hk (by omega)
      · rwa [show k = c + 1 by omega]
    have hmul : (c + 1) * b = c * b + b := Nat.succ_mul c b
    refine (hstep.trans (and_congr_left' ih)).trans ?_
    constructor
    · rintro ⟨hbelow, hlast⟩
      have hreach : (c + 1) * b ≤ (low m x).toNat := by
        by_contra hlt
        have hnear : (c + 1) * b ≤ (low m x).toNat + b := by
          rcases hbelow with rfl | hbelow <;> omega
        have htop := toNat_slot_of_lt hm x (by omega) (by omega) hnear
        omega
      rw [toNat_slot_of_le hm x hreach] at hlast
      refine .inr ⟨hreach, ?_⟩
      rcases hbelow with rfl | hbelow <;> omega
    · rintro (h0 | ⟨hreach, hlow⟩)
      · omega
      · refine ⟨?_, ?_⟩
        · rcases Nat.eq_zero_or_pos c with rfl | hc
          · exact .inl rfl
          · exact .inr ⟨by omega, hlow⟩
        · rw [toNat_slot_of_le hm x hreach]
          omega

end Stepping

/-- Two widths agree on `c` slots: there are none, the widths are one, or the
larger pointer stays below the smaller width. -/
theorem slots_agree {n m b : Nat} (hn : n ≤ w) (hm : m ≤ w) (x : BitVec w)
    (hb : 0 < b) (hbn : b ≤ 2 ^ min n m) (c : Nat) :
    (∀ k, 1 ≤ k → k ≤ c → slot n x b k = slot m x b k)
      ↔ c = 0 ∨ n = m
        ∨ (c * b ≤ (low (max n m) x).toNat
          ∧ (low (max n m) x).toNat < 2 ^ min n m + b) := by
  rcases Nat.lt_trichotomy n m with hlt | rfl | hgt
  · rw [min_eq_left hlt.le] at hbn ⊢
    rw [slots_agree_iff hm x hlt hb hbn, max_eq_right hlt.le,
      or_iff_right (a := n = m) hlt.ne]
  · exact iff_of_true (fun _ _ _ => rfl) (.inr (.inl rfl))
  · rw [min_eq_right hgt.le] at hbn ⊢
    rw [max_eq_left hgt.le, or_iff_right (a := n = m) hgt.ne',
      ← slots_agree_iff hn x hgt hb hbn]
    exact forall_congr' fun k => forall_congr' fun _ =>
      forall_congr' fun _ => eq_comm

end Remu.Word
