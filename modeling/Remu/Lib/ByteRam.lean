/-
Little-endian words over byte memory whose addresses may alias, and runs of
bytes across a page boundary.

A `ByteRam` is a state with a byte at every address and a byte store that
reaches the addresses sharing its cell and no others. Aliasing may fold
the address space in any way that keeps an address's place in its aligned
group of eight bytes and commutes with displacement, as wrapping at a
power of two does. The words are composed from bytes the way a bus trait
composes its wide accessors, and the results are the laws of whole aligned
words: reading one back after a word store gives the value stored where
the words alias, and the old value elsewhere.

A store of a few bytes that may cross a page names its bytes one address
each. The addresses split into those in the page of the first and those in
the page of the last, so that two pages cover the run; and whatever a
translation does to them page by page, two pages cover the image too.
-/
import Remu.Lib.Word

namespace Remu

/-- Byte memory over `w`-bit addresses. -/
class ByteRam (w : Nat) (β : Type) where
  byte : β → BitVec w → U8
  poke : β → BitVec w → U8 → β
  /-- The cell an address selects. -/
  cell : BitVec w → BitVec w
  wide : 3 ≤ w
  byte_poke : ∀ b a v x, byte (poke b a v) x = if cell x = cell a
    then v else byte b x
  byte_cell : ∀ b x y, cell x = cell y → byte b x = byte b y
  cell_low : ∀ x y, cell x = cell y → x.toNat % 8 = y.toNat % 8
  cell_add : ∀ x y k, cell x = cell y → cell (x + k) = cell (y + k)

namespace ByteRam

variable {w : Nat} {β : Type} [ByteRam w β]

-- ======== the words

def get16 (b : β) (a : BitVec w) : U16 :=
  (byte b a).setWidth 16 ||| ((byte b (a + 1)).setWidth 16 <<< 8)

def get32 (b : β) (a : BitVec w) : U32 :=
  (get16 b a).setWidth 32 ||| ((get16 b (a + 2)).setWidth 32 <<< 16)

def get64 (b : β) (a : BitVec w) : U64 :=
  (get32 b a).setWidth 64 ||| ((get32 b (a + 4)).setWidth 64 <<< 32)

def put16 (b : β) (a : BitVec w) (v : U16) : β :=
  poke (poke b a (v.setWidth 8)) (a + 1) ((v >>> 8).setWidth 8)

def put32 (b : β) (a : BitVec w) (v : U32) : β :=
  put16 (put16 b a (v.setWidth 16)) (a + 2) ((v >>> 16).setWidth 16)

def put64 (b : β) (a : BitVec w) (v : U64) : β :=
  put32 (put32 b a (v.setWidth 32)) (a + 4) ((v >>> 32).setWidth 32)

-- Reassembling a word from its halves.

theorem join16 (v : U16) :
    (v.setWidth 8).setWidth 16
      ||| (((v >>> 8).setWidth 8 : U8).setWidth 16 <<< 8) = v := by
  refine BitVec.eq_of_getLsbD_eq fun i hi => ?_
  simp only [BitVec.getLsbD_or, BitVec.getLsbD_setWidth,
    BitVec.getLsbD_shiftLeft, BitVec.getLsbD_ushiftRight]
  by_cases h : i < 8
  · simp [h, hi]
  · have hle : 8 ≤ i := by omega
    have hlt : i - 8 < 8 := by omega
    simp [h, hi, hlt, show i - 8 < 16 by omega, Nat.add_sub_cancel' hle]

theorem join32 (v : U32) :
    (v.setWidth 16).setWidth 32
      ||| (((v >>> 16).setWidth 16 : U16).setWidth 32 <<< 16) = v := by
  refine BitVec.eq_of_getLsbD_eq fun i hi => ?_
  simp only [BitVec.getLsbD_or, BitVec.getLsbD_setWidth,
    BitVec.getLsbD_shiftLeft, BitVec.getLsbD_ushiftRight]
  by_cases h : i < 16
  · simp [h, hi]
  · have hle : 16 ≤ i := by omega
    have hlt : i - 16 < 16 := by omega
    simp [h, hi, hlt, show i - 16 < 32 by omega, Nat.add_sub_cancel' hle]

theorem join64 (v : U64) :
    (v.setWidth 32).setWidth 64
      ||| (((v >>> 32).setWidth 32 : U32).setWidth 64 <<< 32) = v := by
  refine BitVec.eq_of_getLsbD_eq fun i hi => ?_
  simp only [BitVec.getLsbD_or, BitVec.getLsbD_setWidth,
    BitVec.getLsbD_shiftLeft, BitVec.getLsbD_ushiftRight]
  by_cases h : i < 32
  · simp [h, hi]
  · have hle : 32 ≤ i := by omega
    have hlt : i - 32 < 32 := by omega
    simp [h, hi, hlt, show i - 32 < 64 by omega, Nat.add_sub_cancel' hle]

-- ======== aligned groups

/-- Displacement within a group of at most eight. -/
theorem toNat_add_mod {w n : Nat} (hw : 3 ≤ w) (hn : n ∣ 8)
    (x : BitVec w) (k : Nat) :
    (x + BitVec.ofNat w k).toNat % n = (x.toNat + k) % n := by
  have hdvd : n ∣ 2 ^ w := hn.trans (Nat.pow_dvd_pow 2 hw)
  rw [BitVec.toNat_add, BitVec.toNat_ofNat, Nat.mod_mod_of_dvd _ hdvd,
    Nat.add_mod, Nat.mod_mod_of_dvd _ hdvd, ← Nat.add_mod]

/-- Bytes of two aligned groups share a cell when they have the same place
in groups that share theirs. -/
theorem cell_group {n : Nat} (hn : n ∣ 8) {x y : BitVec w}
    (hx : x.toNat % n = 0)
    (hy : y.toNat % n = 0) {j k : Nat} (hj : j < n) (hk : k < n) :
    cell β (y + BitVec.ofNat w k) = cell β (x + BitVec.ofNat w j)
      ↔ k = j ∧ cell β y = cell β x := by
  constructor
  · intro h
    have hlow := congrArg (· % n) (cell_low _ _ h)
    simp only [Nat.mod_mod_of_dvd _ hn] at hlow
    have hmod : ∀ (z : BitVec w) (i : Nat), z.toNat % n = 0 → i < n →
        (z + BitVec.ofNat w i).toNat % n = i := by
      intro z i hz hi
      rw [toNat_add_mod (wide β) hn, Nat.add_mod, hz, Nat.zero_add,
        Nat.mod_mod, Nat.mod_eq_of_lt hi]
    have hkj : k = j := by rw [← hmod y k hy hk, ← hmod x j hx hj, hlow]
    subst hkj
    refine ⟨rfl, ?_⟩
    have hback := cell_add (β := β) _ _ (-BitVec.ofNat w k) h
    simpa only [BitVec.add_assoc, BitVec.add_right_neg, BitVec.add_zero] using hback
  · rintro ⟨rfl, h⟩
    exact cell_add _ _ _ h

/-- A byte inside one group is never the first byte of another. -/
theorem cell_group_zero {n : Nat} (hn : n ∣ 8) {x y : BitVec w}
    (hx : x.toNat % n = 0)
    (hy : y.toNat % n = 0) {k : Nat} (hk0 : k ≠ 0) (hk : k < n) :
    cell β (y + BitVec.ofNat w k) ≠ cell β x
      ∧ cell β y ≠ cell β (x + BitVec.ofNat w k) := by
  have hn0 : 0 < n := by omega
  constructor
  · intro h
    have h' := (cell_group (β := β) hn hx hy (j := 0) hn0 hk).1
      (by simpa using h)
    exact hk0 h'.1
  · intro h
    have h' := (cell_group (β := β) hn hx hy (k := 0) hk hn0).1
      (by simpa using h)
    exact hk0 h'.1.symm

-- ======== reading back

/-- An aligned word read back after a word store. -/
theorem get16_put16 (b : β) {x y : BitVec w} (hx : x.toNat % 2 = 0)
    (hy : y.toNat % 2 = 0)
    (v : U16) : get16 (put16 b x v) y = if cell β y = cell β x then v
      else get16 b y := by
  have hone : cell β (y + 1) = cell β (x + 1) ↔ cell β y = cell β x := by
    simpa using cell_group (β := β) (by decide) hx hy (j := 1) (k := 1)
      (by omega) (by omega)
  obtain ⟨hn1, hn2⟩ :=
    cell_group_zero (β := β) (by decide) hx hy (k := 1) (by omega) (by omega)
  unfold get16 put16
  simp only [byte_poke, hone]
  rw [if_neg (show ¬ cell β y = cell β (x + 1) from hn2),
    if_neg (show ¬ cell β (y + 1) = cell β x from hn1)]
  split
  · exact join16 v
  · rfl

/-- An aligned double word read back after a double-word store. -/
theorem get32_put32 (b : β) {x y : BitVec w} (hx : x.toNat % 4 = 0)
    (hy : y.toNat % 4 = 0)
    (v : U32) : get32 (put32 b x v) y = if cell β y = cell β x then v
      else get32 b y := by
  have htwo : cell β (y + 2) = cell β (x + 2) ↔ cell β y = cell β x := by
    simpa using cell_group (β := β) (by decide) hx hy (j := 2) (k := 2)
      (by omega) (by omega)
  obtain ⟨hn1, hn2⟩ :=
    cell_group_zero (β := β) (by decide) hx hy (k := 2) (by omega) (by omega)
  have heven : ∀ z : BitVec w, z.toNat % 4 = 0 → z.toNat % 2 = 0
    ∧ (z + 2).toNat % 2 = 0 := by
    intro z hz
    have h2 : (z + 2).toNat % 2 = (z.toNat + 2) % 2 :=
      toNat_add_mod (wide β) (by decide) z 2
    omega
  obtain ⟨hx0, hx2⟩ := heven x hx
  obtain ⟨hy0, hy2⟩ := heven y hy
  unfold get32 put32
  simp only [get16_put16 _ hx0 hy0, get16_put16 _ hx0 hy2,
    get16_put16 _ hx2 hy0, get16_put16 _ hx2 hy2, htwo]
  rw [if_neg (show ¬ cell β y = cell β (x + 2) from hn2),
    if_neg (show ¬ cell β (y + 2) = cell β x from hn1)]
  split
  · exact join32 v
  · rfl

/-- An aligned quad word read back after a quad-word store. -/
theorem get64_put64 (b : β) {x y : BitVec w} (hx : x.toNat % 8 = 0)
    (hy : y.toNat % 8 = 0)
    (v : U64) : get64 (put64 b x v) y = if cell β y = cell β x then v
      else get64 b y := by
  have hfour : cell β (y + 4) = cell β (x + 4) ↔ cell β y = cell β x := by
    simpa using cell_group (β := β) (by decide) hx hy (j := 4) (k := 4)
      (by omega) (by omega)
  obtain ⟨hn1, hn2⟩ :=
    cell_group_zero (β := β) (by decide) hx hy (k := 4) (by omega) (by omega)
  have hquad : ∀ z : BitVec w, z.toNat % 8 = 0 → z.toNat % 4 = 0
    ∧ (z + 4).toNat % 4 = 0 := by
    intro z hz
    have h4 : (z + 4).toNat % 4 = (z.toNat + 4) % 4 :=
      toNat_add_mod (wide β) (by decide) z 4
    omega
  obtain ⟨hx0, hx4⟩ := hquad x hx
  obtain ⟨hy0, hy4⟩ := hquad y hy
  unfold get64 put64
  simp only [get32_put32 _ hx0 hy0, get32_put32 _ hx0 hy4,
    get32_put32 _ hx4 hy0, get32_put32 _ hx4 hy4, hfour]
  rw [if_neg (show ¬ cell β y = cell β (x + 4) from hn2),
    if_neg (show ¬ cell β (y + 4) = cell β x from hn1)]
  split
  · exact join64 v
  · rfl

/-- Aliases read the same. -/
theorem get32_alias (b : β) {x y : BitVec w} (h : cell β x = cell β y) :
    get32 b x = get32 b y := by
  have hb : ∀ k : BitVec w, byte b (x + k) = byte b (y + k) :=
    fun k => byte_cell b _ _ (cell_add _ _ k h)
  have hb0 : byte b x = byte b y := byte_cell b _ _ h
  simp only [get32, get16, BitVec.add_assoc, hb, hb0]

theorem get64_alias (b : β) {x y : BitVec w} (h : cell β x = cell β y) :
    get64 b x = get64 b y := by
  rw [get64, get64, get32_alias b h, get32_alias b (cell_add x y 4 h)]

-- ======== wrapping

/-- The mask of a memory of `2 ^ width` bytes. -/
def wrapMask (w width : Nat) : BitVec w := BitVec.ofNat w (2 ^ width - 1)

/-- Wrapping is remainder modulo the size, or nothing at all. -/
theorem toNat_and_wrapMask {w : Nat} (a : BitVec w) (width : Nat) :
    (a &&& wrapMask w width).toNat = a.toNat % 2 ^ min width w := by
  by_cases h : width ≤ w
  · have hpow : 2 ^ width ≤ 2 ^ w := Nat.pow_le_pow_right (by omega) h
    have hpos := Nat.two_pow_pos width
    rw [wrapMask, BitVec.toNat_and, BitVec.toNat_ofNat,
      Nat.mod_eq_of_lt (show 2 ^ width - 1 < 2 ^ w by omega),
      Nat.and_two_pow_sub_one_eq_mod, min_eq_left h]
  · have hall : wrapMask w width = BitVec.allOnes w := by
      apply BitVec.eq_of_toNat_eq
      rw [wrapMask, BitVec.toNat_ofNat, BitVec.toNat_allOnes]
      obtain ⟨k, rfl⟩ := Nat.exists_eq_add_of_le (le_of_lt (not_le.1 h))
      have hk := Nat.two_pow_pos k
      have hw := Nat.two_pow_pos w
      have hsplit : 2 ^ (w + k) - 1 = (2 ^ w - 1) + 2 ^ w * (2 ^ k - 1) := by
        rw [Nat.pow_add, Nat.mul_sub, Nat.mul_one]
        have : 2 ^ w ≤ 2 ^ w * 2 ^ k := Nat.le_mul_of_pos_right _ hk
        omega
      rw [hsplit, Nat.add_mul_mod_self_left, Nat.mod_eq_of_lt (by omega)]
    rw [hall, BitVec.and_allOnes, min_eq_right (le_of_lt (not_le.1 h)),
      Nat.mod_eq_of_lt a.isLt]

theorem wrap_eq_iff {w : Nat} (width : Nat) (x y : BitVec w) :
    x &&& wrapMask w width = y &&& wrapMask w width
      ↔ x.toNat % 2 ^ min width w = y.toNat % 2 ^ min width w := by
  rw [← BitVec.toNat_inj, toNat_and_wrapMask, toNat_and_wrapMask]

/-- Wrapping keeps the place in a group of eight. -/
theorem wrap_low {w width : Nat} (hw : 3 ≤ w)
    (hwidth : 3 ≤ width) {x y : BitVec w}
    (h : x &&& wrapMask w width = y &&& wrapMask w width) :
    x.toNat % 8 = y.toNat % 8 := by
  have hdvd : 8 ∣ 2 ^ min width w :=
    Nat.pow_dvd_pow 2 (show 3 ≤ min width w by omega)
  have hmod := congrArg (· % 8) ((wrap_eq_iff width x y).1 h)
  simpa only [Nat.mod_mod_of_dvd _ hdvd] using hmod

/-- Wrapping commutes with displacement. -/
theorem wrap_add {w width : Nat} {x y : BitVec w} (k : BitVec w)
    (h : x &&& wrapMask w width = y &&& wrapMask w width) :
    (x + k) &&& wrapMask w width = (y + k) &&& wrapMask w width := by
  have hdvd : 2 ^ min width w ∣ 2 ^ w := Nat.pow_dvd_pow 2 (by omega)
  rw [wrap_eq_iff] at h ⊢
  rw [BitVec.toNat_add, BitVec.toNat_add, Nat.mod_mod_of_dvd _ hdvd,
    Nat.mod_mod_of_dvd _ hdvd, Nat.add_mod, h, ← Nat.add_mod]

end ByteRam

-- ======== runs of bytes

open Word

variable {w : Nat}

/-- The addresses of `n` bytes from `a`. -/
def bytesFrom (a : BitVec w) (n : Nat) : List (BitVec w) :=
  (List.range n).map fun i => a + BitVec.ofNat w i

/-- A run of bytes starts at its address and ends `k` further on. -/
theorem bytesFrom_ends (a : BitVec w) (k : Nat) :
    (bytesFrom a (k + 1)).headD 0 = a
      ∧ (bytesFrom a (k + 1)).getLastD 0 = a + BitVec.ofNat w k := by
  refine ⟨?_, ?_⟩
  · rw [bytesFrom, List.range_succ_eq_map, List.map_cons, List.headD_cons,
      BitVec.add_zero]
  · rw [bytesFrom, List.range_succ, List.map_append, List.map_singleton,
      List.getLastD_concat]

/-- The byte stores of `v`, low byte first. -/
def byteStores {k : Nat} : List (BitVec w) → BitVec k → List (BitVec w × U8)
  | [], _ => []
  | a :: rest, v => (a, v.setWidth 8) :: byteStores rest (v >>> 8)

theorem mem_byteStores {k : Nat} {as : List (BitVec w)}
    {v : BitVec k} {q : BitVec w × U8}
    (hq : q ∈ byteStores as v) : q.1 ∈ as := by
  induction as generalizing v with
  | nil => simp [byteStores] at hq
  | cons a rest ih =>
    rw [byteStores, List.mem_cons] at hq
    rcases hq with rfl | hq
    · exact List.mem_cons_self
    · exact List.mem_cons_of_mem a (ih hq)

theorem map_fst_byteStores {k : Nat} (as : List (BitVec w)) (v : BitVec k) :
    (byteStores as v).map Prod.fst = as := by
  induction as generalizing v with
  | nil => rfl
  | cons a rest ih => rw [byteStores, List.map_cons, ih]

/-- The same bytes at other addresses. -/
theorem zip_byteStores {k : Nat} {as ps : List (BitVec w)}
    (h : ps.length = as.length)
    (v : BitVec k) :
    ps.zip ((byteStores as v).map Prod.snd) = byteStores ps v := by
  induction as generalizing ps v with
  | nil =>
    obtain rfl := List.length_eq_zero_iff.1 h
    rfl
  | cons a rest ih =>
    cases ps with
    | nil => cases h
    | cons p ps =>
      rw [byteStores, byteStores, List.map_cons, List.zip_cons_cons,
        ih (Nat.succ_injective h)]

/-- Each half of a run lies in one page, so the first and the last address
stand for all. -/
theorem pages_cover {xs ys : List (BitVec w)} {page page' : BitVec w}
    (hxs : ∀ q ∈ xs, q >>> 12 = page) (hys : ∀ q ∈ ys, q >>> 12 = page') :
    ∀ q ∈ xs ++ ys, q >>> 12 = ((xs ++ ys).headD 0) >>> 12
      ∨ q >>> 12 = ((xs ++ ys).getLastD 0) >>> 12 := by
  intro q hq
  rcases List.mem_append.1 hq with hx | hy
  · left
    obtain ⟨x, xs', rfl⟩ := List.exists_cons_of_ne_nil (List.ne_nil_of_mem hx)
    rw [hxs q hx, List.cons_append, List.headD_cons, hxs x List.mem_cons_self]
  · right
    have hne := List.ne_nil_of_mem hy
    have hlast : (xs ++ ys).getLastD 0 ∈ ys := by
      rw [List.getLastD_eq_getLast?, List.getLast?_append_of_ne_nil _ hne,
        List.getLast?_eq_getLast_of_ne_nil hne, Option.getD_some]
      exact List.getLast_mem hne
    rw [hys q hy, hys _ hlast]

/-- The page of `a + i` is the page number of `a` plus the pages between,
modulo the number of pages. -/
theorem page_add_of_lt [hw : PageWidth w] (a : BitVec w) {i j : Nat}
    (hi : i < 4096) (hj : j < 4096)
    (h : (a.toNat % 4096 + i) / 4096 = (a.toNat % 4096 + j) / 4096) :
    (a + BitVec.ofNat w i) >>> 12 = (a + BitVec.ofNat w j) >>> 12 := by
  obtain ⟨q, hq⟩ := PageWidth.exists_pow w
  have ha := a.isLt
  have hpos : 0 < 2 ^ w := Nat.two_pow_pos w
  have hmod : ∀ n, n % 2 ^ w / 4096 = n / 4096 % (16 * q) := by
    intro n
    rw [hq, show 65536 * q = 4096 * (16 * q) by omega,
      Nat.mod_mul_right_div_self]
  have hlt : ∀ n, n < 4096 → n < 2 ^ w := by
    intro n hn
    omega
  rw [page_eq_iff, BitVec.toNat_add, BitVec.toNat_add, BitVec.toNat_ofNat,
    BitVec.toNat_ofNat, Nat.mod_eq_of_lt (hlt i hi),
    Nat.mod_eq_of_lt (hlt j hj), hmod, hmod]
  have hquot : (a.toNat + i) / 4096 = (a.toNat + j) / 4096 := by omega
  rw [hquot]

/-- The bytes of a run shorter than a page lie in the page of the first,
up to some point, and in the page of the last from there on. -/
theorem bytesFrom_pages [hw : PageWidth w] (a : BitVec w) (n : Nat)
    (hn : n + 1 < 4096) :
    ∃ xs ys, bytesFrom a (n + 1) = xs ++ ys
      ∧ (∀ l ∈ xs, l >>> 12 = a >>> 12)
      ∧ (∀ l ∈ ys, l >>> 12 = (a + BitVec.ofNat w n) >>> 12) := by
  refine ⟨(bytesFrom a (n + 1)).take (4096 - a.toNat % 4096),
    (bytesFrom a (n + 1)).drop (4096 - a.toNat % 4096),
    (List.take_append_drop _ _).symm, fun l hl => ?_, fun l hl => ?_⟩
  · rw [bytesFrom, List.mem_iff_getElem] at hl
    obtain ⟨i, hi, rfl⟩ := hl
    simp only [List.length_take, List.length_map, List.length_range] at hi
    simp only [List.getElem_take, List.getElem_map, List.getElem_range]
    exact page_add a i (by omega)
  · rw [bytesFrom, List.mem_iff_getElem] at hl
    obtain ⟨i, hi, rfl⟩ := hl
    simp only [List.length_drop, List.length_map, List.length_range] at hi
    simp only [List.getElem_drop, List.getElem_map, List.getElem_range]
    exact page_add_of_lt a (by omega) (by omega) (by omega)

end Remu
