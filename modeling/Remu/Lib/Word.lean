/-
The machine words of the cores and the facts their address arithmetic
shares: masking with `2^k - 1` is remainder, shifting right is division,
aligned words do not straddle an aligned block, and page numbers of nearby
addresses agree.

The address facts are about words wide enough to hold a page number
(`PageWidth`); nothing here knows what the addresses are for.
-/
import Mathlib.Data.BitVec

namespace Remu

-- ======== words

abbrev U8 := BitVec 8
abbrev U16 := BitVec 16
abbrev U32 := BitVec 32
abbrev U64 := BitVec 64
abbrev U128 := BitVec 128

-- Membership in the opcode lists is decided through these.
instance : LawfulBEq U8 := inferInstance
instance : LawfulBEq U16 := inferInstance
instance : LawfulBEq U32 := inferInstance

/-- Array update. -/
def upd {κ α : Type} [DecidableEq κ] (f : κ → α) (i : κ) (v : α) : κ → α :=
  fun j => if j = i then v else f j

/-- An update is Mathlib's. -/
theorem upd_eq_update {κ α : Type} [DecidableEq κ]
    (f : κ → α) (i : κ) (v : α) :
    upd f i v = Function.update f i v := by
  funext j
  simp only [upd, Function.update, eq_rec_constant, dite_eq_ite]

@[simp] theorem upd_same {κ α : Type} [DecidableEq κ] (f : κ → α) (i : κ)
    (v : α) : upd f i v i = v := by simp [upd]

/-- An update leaves the other places alone. -/
theorem upd_other {κ α : Type} [DecidableEq κ] (f : κ → α) {i j : κ}
    (v : α) (h : j ≠ i) : upd f i v j = f j := by simp [upd, h]

-- ======== addresses

namespace Word

/-- A width with room for a page number above a 4 KiB offset. -/
class PageWidth (w : Nat) : Prop where
  le : 16 ≤ w

instance instPageWidth32 : PageWidth 32 := ⟨by decide⟩
instance instPageWidth64 : PageWidth 64 := ⟨by decide⟩

variable {w : Nat}

/-- Masking with `2^k - 1` is remainder modulo `2^k`. -/
theorem toNat_and_mask (a : BitVec w) (k : Nat) (hk : k ≤ w) :
    (a &&& BitVec.ofNat w (2 ^ k - 1)).toNat = a.toNat % 2 ^ k := by
  have hpow : (2 : Nat) ^ k ≤ 2 ^ w := Nat.pow_le_pow_right (by omega) hk
  have hlt : 2 ^ k - 1 < 2 ^ w := by
    have := Nat.two_pow_pos k
    omega
  rw [BitVec.toNat_and, BitVec.toNat_ofNat, Nat.mod_eq_of_lt hlt,
    Nat.and_two_pow_sub_one_eq_mod]

/-- Masks as remainders. -/
theorem toNat_and_low32 (a : BitVec 64) :
    (a &&& 0xFFFFFFFF).toNat = a.toNat % 4294967296 :=
  toNat_and_mask a 32 (by omega)

/-- The page number of an address. -/
theorem toNat_page (a : BitVec w) : (a >>> 12).toNat = a.toNat / 4096 := by
  rw [BitVec.toNat_ushiftRight, Nat.shiftRight_eq_div_pow]

/-- Two addresses are in one page when their quotients by 4096 agree. -/
theorem page_eq_iff (a b : BitVec w) :
    a >>> 12 = b >>> 12 ↔ a.toNat / 4096 = b.toNat / 4096 := by
  rw [← BitVec.toNat_inj, toNat_page, toNat_page]

/-- Addresses in one page agree on everything above the offset. -/
theorem shiftRight_of_page {a b : BitVec w} (h : a >>> 12 = b >>> 12)
    {k : Nat} (hk : 12 ≤ k) :
    a >>> k = b >>> k := by
  obtain ⟨j, rfl⟩ := Nat.exists_eq_add_of_le hk
  rw [BitVec.shiftRight_add, h, ← BitVec.shiftRight_add]

variable [hw : PageWidth w]

/-- The modulus of a word is a multiple of 2^16. -/
theorem PageWidth.exists_pow (w : Nat) [hw : PageWidth w] :
    ∃ q, 2 ^ w = 65536 * q := by
  obtain ⟨k, hk⟩ := Nat.exists_eq_add_of_le hw.le
  exact ⟨2 ^ k, by rw [hk, Nat.pow_add]⟩

/-- Low bits do not see the wrap of a word. -/
theorem mod_pow_mod (n : Nat) {d : Nat} (hd : d ∣ 65536) :
    n % 2 ^ w % d = n % d := by
  obtain ⟨q, hq⟩ := PageWidth.exists_pow w
  refine Nat.mod_mod_of_dvd n ?_
  rw [hq]
  exact Dvd.dvd.mul_right hd q

theorem toNat_and_FFF (a : BitVec w) : (a &&& 0xFFF).toNat = a.toNat % 4096 :=
  toNat_and_mask a 12 (le_trans (by decide) hw.le)

theorem toNat_and_7 (a : BitVec w) : (a &&& 7).toNat = a.toNat % 8 :=
  toNat_and_mask a 3 (le_trans (by decide) hw.le)

theorem toNat_and_3 (a : BitVec w) : (a &&& 3).toNat = a.toNat % 4 :=
  toNat_and_mask a 2 (le_trans (by decide) hw.le)

/-- An access that does not run past the end of its page stays in it. -/
theorem page_add (a : BitVec w) (k : Nat) (h : a.toNat % 4096 + k < 4096) :
    (a + BitVec.ofNat w k) >>> 12 = a >>> 12 := by
  obtain ⟨q, hq⟩ := PageWidth.exists_pow w
  have ha := a.isLt
  have hk : k < 2 ^ w := by omega
  have hsum : a.toNat + k < 2 ^ w := by omega
  rw [page_eq_iff, BitVec.toNat_add, BitVec.toNat_ofNat, Nat.mod_eq_of_lt hk,
    Nat.mod_eq_of_lt hsum]
  omega

/-- An access below the bound for its length does not run past its page. -/
theorem offset_lt {lin lim : BitVec w} {n : Nat} (hlim : lim.toNat + n ≤ 4097)
    (h : lin &&& 0xFFF < lim) {i : Nat}
    (hi : i < n) : lin.toNat % 4096 + i < 4096 := by
  have hlt := BitVec.lt_def.1 h
  rw [toNat_and_FFF] at hlt
  omega

/-- An address is its page base plus its offset. -/
theorem toNat_or_offset (p a : BitVec w) (hp : p &&& 0xFFF = 0) :
    (p ||| (a &&& 0xFFF)).toNat = p.toNat + a.toNat % 4096 := by
  have hand : p &&& (a &&& 0xFFF) = 0 := by
    calc p &&& (a &&& 0xFFF) = (p &&& 0xFFF) &&& a := by ac_rfl
      _ = 0 := by rw [hp]; simp
  have hadd : p ||| (a &&& 0xFFF) = p + (a &&& 0xFFF) :=
    (BitVec.add_eq_or_of_and_eq_zero p (a &&& 0xFFF) hand).symm
  have hp' : p.toNat % 4096 = 0 := by
    rw [← toNat_and_FFF, hp]
    rfl
  obtain ⟨q, hq⟩ := PageWidth.exists_pow w
  have hlt := p.isLt
  have hsum : p.toNat + a.toNat % 4096 < 2 ^ w := by omega
  rw [hadd, BitVec.toNat_add, toNat_and_FFF, Nat.mod_eq_of_lt hsum]

/-- Combining an aligned page base with an offset keeps the offset. -/
theorem offset_or (p a : BitVec w) (hp : p &&& 0xFFF = 0) :
    (p ||| (a &&& 0xFFF)) &&& 0xFFF = a &&& 0xFFF := by
  apply BitVec.eq_of_toNat_eq
  have hp' : p.toNat % 4096 = 0 := by
    rw [← toNat_and_FFF, hp]
    rfl
  rw [toNat_and_FFF, toNat_or_offset p a hp, toNat_and_FFF]
  omega

/-- Combining an aligned page base with an offset keeps the page. -/
theorem page_or (p a : BitVec w) (hp : p &&& 0xFFF = 0) :
    (p ||| (a &&& 0xFFF)) >>> 12 = p >>> 12 := by
  have hp' : p.toNat % 4096 = 0 := by
    rw [← toNat_and_FFF, hp]
    rfl
  rw [page_eq_iff, toNat_or_offset p a hp]
  omega

/-- An address is its page and its offset. -/
theorem eq_of_page {a b : BitVec w} (hpage : a >>> 12 = b >>> 12)
    (hoff : a &&& 0xFFF = b &&& 0xFFF) :
    a = b := by
  rw [page_eq_iff] at hpage
  have hoff' := congrArg BitVec.toNat hoff
  rw [toNat_and_FFF, toNat_and_FFF] at hoff'
  apply BitVec.eq_of_toNat_eq
  omega

/-- Moving on within a page moves on within its frame. -/
theorem or_offset_add {p a : BitVec w} {i : Nat} (hp : p &&& 0xFFF = 0)
    (h : a.toNat % 4096 + i < 4096) :
    p ||| ((a + BitVec.ofNat w i) &&& 0xFFF)
      = (p ||| (a &&& 0xFFF)) + BitVec.ofNat w i := by
  obtain ⟨q, hq⟩ := PageWidth.exists_pow w
  have hal : p.toNat % 4096 = 0 := by
    rw [← toNat_and_FFF, hp]
    rfl
  have hlt := p.isLt
  have ha := a.isLt
  have hi : i < 2 ^ w := by omega
  have hsum : a.toNat + i < 2 ^ w := by omega
  have hout : p.toNat + a.toNat % 4096 + i < 2 ^ w := by omega
  apply BitVec.eq_of_toNat_eq
  rw [BitVec.toNat_add, toNat_or_offset _ _ hp, toNat_or_offset _ _ hp,
    BitVec.toNat_add, BitVec.toNat_ofNat, Nat.mod_eq_of_lt hi,
    Nat.mod_eq_of_lt hsum, Nat.mod_eq_of_lt hout]
  omega

/-- Setting bits outside a mask does not change what it selects. -/
theorem or_and_disjoint {w : Nat} (v : BitVec w)
    {m k : BitVec w} (h : m &&& k = 0) :
    (v ||| m) &&& k = v &&& k := by
  rw [BitVec.and_or_distrib_right, h]
  simp

/-- Keeping at least the bits of a mask does not change what it selects. -/
theorem and_and_cover {w : Nat} (v : BitVec w)
    {m k : BitVec w} (h : m &&& k = k) :
    v &&& m &&& k = v &&& k := by
  rw [BitVec.and_assoc, h]

/-- Two words that agree under a mask. -/
theorem and_eq_of_xor_and {w : Nat} {a b k : BitVec w}
    (h : (a ^^^ b) &&& k = 0) :
    a &&& k = b &&& k := by
  refine BitVec.eq_of_getLsbD_eq fun i hi => ?_
  have hbit := congrArg (fun x : BitVec w => x.getLsbD i) h
  simp only [BitVec.getLsbD_and, BitVec.getLsbD_xor] at hbit ⊢
  cases hk : k.getLsbD i <;> simp_all

/-- Words that agree outside `m` agree under any mask that avoids `m`. -/
theorem and_eq_of_outside {w : Nat} {x y m t : BitVec w}
    (h : x &&& ~~~m = y &&& ~~~m) (ht : t &&& m = 0) : x &&& t = y &&& t := by
  refine BitVec.eq_of_getLsbD_eq fun i hi => ?_
  have hxy := congrArg (fun z : BitVec w => z.getLsbD i) h
  have hti := congrArg (fun z : BitVec w => z.getLsbD i) ht
  simp only [BitVec.getLsbD_and, BitVec.getLsbD_not, hi,
    decide_true, Bool.true_and]
    at hxy hti ⊢
  cases hm : m.getLsbD i <;> simp_all

omit hw in
/-- Clearing the low bits is shifting them out and back. -/
theorem and_not_mask (a : BitVec w) (k : Nat) :
    a &&& ~~~(BitVec.ofNat w (2 ^ k - 1)) = (a >>> k) <<< k := by
  refine BitVec.eq_of_getLsbD_eq fun i hi => ?_
  rw [BitVec.getLsbD_and, BitVec.getLsbD_not, BitVec.getLsbD_shiftLeft,
    BitVec.getLsbD_ushiftRight, BitVec.getLsbD_ofNat,
    Nat.testBit_two_pow_sub_one]
  by_cases h : i < k
  · simp [h]
  · rw [show k + (i - k) = i by omega]
    simp [h, hi]

omit hw in
/-- Clearing low bits is rounding down. -/
theorem toNat_and_not_mask (a : BitVec w) (k : Nat) :
    (a &&& ~~~(BitVec.ofNat w (2 ^ k - 1))).toNat
      = a.toNat / 2 ^ k * 2 ^ k := by
  have hlt := a.isLt
  have hle := Nat.div_mul_le_self a.toNat (2 ^ k)
  rw [and_not_mask, BitVec.toNat_shiftLeft, BitVec.toNat_ushiftRight,
    Nat.shiftRight_eq_div_pow, Nat.shiftLeft_eq, Nat.mod_eq_of_lt (by omega)]

omit hw in
/-- The page of an address, twice. -/
theorem and_not_FFF (a : BitVec w) :
    a &&& ~~~(0xFFF : BitVec w) = (a >>> 12) <<< 12 := and_not_mask a 12

omit hw in
theorem toNat_and_not_FFF (a : BitVec w) :
    (a &&& ~~~(0xFFF : BitVec w)).toNat = a.toNat / 4096 * 4096 :=
  toNat_and_not_mask a 12

omit hw in
theorem toNat_and_not_F (a : BitVec w) :
    (a &&& ~~~(0xF : BitVec w)).toNat = a.toNat / 16 * 16 :=
  toNat_and_not_mask a 4

/-- A mask that has no offset bits sees the page only. -/
theorem and_of_page {a b m : BitVec 64} (h : a >>> 12 = b >>> 12)
    (hm : m &&& 0xFFF = 0) :
    a &&& m = b &&& m := by
  have hsplit : ∀ x : BitVec 64, x &&& m = ((x >>> 12) <<< 12) &&& m := by
    intro x
    have hmask : ~~~0xFFF &&& m = m := by
      refine BitVec.eq_of_getLsbD_eq fun i hi => ?_
      have hbit := congrArg (fun z : BitVec 64 => z.getLsbD i) hm
      simp only [BitVec.getLsbD_and, BitVec.getLsbD_not, hi, decide_true,
        Bool.true_and] at hbit ⊢
      cases hmi : m.getLsbD i <;> simp_all
    rw [← and_not_FFF, BitVec.and_assoc, hmask]
  rw [hsplit a, hsplit b, h]

/-- A masked conjunction depends on its masked sides. -/
theorem and_and_congr {w : Nat} {x x' y y' t : BitVec w}
    (hx : x' &&& t = x &&& t)
    (hy : y' &&& t = y &&& t) : x' &&& y' &&& t = x &&& y &&& t := by
  calc x' &&& y' &&& t = x' &&& (y' &&& t) := BitVec.and_assoc _ _ _
    _ = x' &&& t &&& y := by rw [hy]; ac_rfl
    _ = x &&& y &&& t := by rw [hx]; ac_rfl

/-- Clearing bits that are clear. -/
theorem and_not_of_and_eq_zero {w : Nat} {x m : BitVec w} (h : x &&& m = 0) :
    x &&& ~~~m = x := by
  refine BitVec.eq_of_getLsbD_eq fun i hi => ?_
  have hbit := congrArg (fun z : BitVec w => z.getLsbD i) h
  simp only [BitVec.getLsbD_and, BitVec.getLsbD_not, hi, decide_true,
    Bool.true_and] at hbit ⊢
  cases hx : x.getLsbD i <;> simp_all

/-- `y` is `x` with some more of the bits of `m` set. -/
def Grows {w : Nat} (m x y : BitVec w) : Prop := ∃ k, y = x ||| (k &&& m)

namespace Grows

variable {w : Nat} {m x y z t : BitVec w}

/-- Nothing has been set. -/
theorem refl (m x : BitVec w) : Grows m x x := ⟨0, by simp⟩

/-- Marks of `m` have been set. -/
theorem or (k : BitVec w) : Grows m x (x ||| (k &&& m)) := ⟨k, rfl⟩

/-- Growing marks composes. -/
theorem trans (h : Grows m x y) (h' : Grows m y z) : Grows m x z := by
  obtain ⟨k, rfl⟩ := h
  obtain ⟨l, rfl⟩ := h'
  refine ⟨k ||| l, ?_⟩
  rw [BitVec.or_assoc, BitVec.and_or_distrib_right]

/-- Nothing changes outside the mask. -/
theorem outside (h : Grows m x y) : y &&& ~~~m = x &&& ~~~m := by
  obtain ⟨k, rfl⟩ := h
  rw [BitVec.and_or_distrib_right, BitVec.and_assoc, BitVec.and_not_self]
  simp

/-- A bit that is set stays set. -/
theorem ne_zero (h : Grows m x y) (hx : x &&& t ≠ 0) : y &&& t ≠ 0 := by
  obtain ⟨k, rfl⟩ := h
  rw [BitVec.and_or_distrib_right]
  intro hz
  exact hx (BitVec.or_eq_zero_iff.1 hz).1

end Grows

/-- Clearing low bits aligns. -/
theorem and_not_FFF_aligned (a : BitVec 64) :
    (a &&& ~~~0xFFF) &&& 0xFFF = 0 := by
  rw [BitVec.and_assoc]
  have h : (~~~0xFFF &&& 0xFFF : BitVec 64) = 0 := by decide
  rw [h]
  simp

/-- A table base cleared by `m` plus a multiple of eight is 8-aligned. -/
theorem aligned8_add (t m x : BitVec w) (hm : m &&& 7 = 0) :
    ((t &&& m) + (x <<< 3)) &&& 7 = 0 := by
  apply BitVec.eq_of_toNat_eq
  have ht : (t &&& m).toNat % 8 = 0 := by
    rw [← toNat_and_7, BitVec.and_assoc, hm]
    simp
  have hx : (x <<< 3).toNat % 8 = 0 := by
    rw [BitVec.toNat_shiftLeft, Nat.shiftLeft_eq, mod_pow_mod _ (by decide)]
    omega
  have h0 : (0 : BitVec w).toNat = 0 := BitVec.toNat_zero
  rw [toNat_and_7, BitVec.toNat_add, mod_pow_mod _ (by decide), h0]
  omega

/-- A table base cleared by `m` plus a multiple of four is 4-aligned. -/
theorem aligned4_add (t m x : BitVec w) (hm : m &&& 3 = 0) :
    ((t &&& m) + (x <<< 2)) &&& 3 = 0 := by
  apply BitVec.eq_of_toNat_eq
  have ht : (t &&& m).toNat % 4 = 0 := by
    rw [← toNat_and_3, BitVec.and_assoc, hm]
    simp
  have hx : (x <<< 2).toNat % 4 = 0 := by
    rw [BitVec.toNat_shiftLeft, Nat.shiftLeft_eq, mod_pow_mod _ (by decide)]
    omega
  have h0 : (0 : BitVec w).toNat = 0 := BitVec.toNat_zero
  rw [toNat_and_3, BitVec.toNat_add, mod_pow_mod _ (by decide), h0]
  omega

/-- Eight bytes from an 8-aligned address share a page. -/
theorem page_aligned8 (a : BitVec w) (h : a &&& 7 = 0) :
    (a + 7) >>> 12 = a >>> 12 := by
  apply page_add a 7
  have h8 : a.toNat % 8 = 0 := by
    rw [← toNat_and_7, h]
    rfl
  omega

/-- Four bytes from a 4-aligned address share a page. -/
theorem page_aligned4 (a : BitVec w) (h : a &&& 3 = 0) :
    (a + 3) >>> 12 = a >>> 12 := by
  apply page_add a 3
  have h4 : a.toNat % 4 = 0 := by
    rw [← toNat_and_3, h]
    rfl
  omega

end Word

end Remu
