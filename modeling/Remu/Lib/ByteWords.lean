/-
Words as the bytes at consecutive addresses, and numbers as bytes.

A word may be read through any function from addresses to bytes: memory
itself, or memory seen through a translation that sends each address
somewhere of its own. It is stored byte by byte, and as long as the bytes
go to cells of their own every one of them is there afterwards. Eight
addresses with different places in the group of eight never share a cell,
aligned or not and translated or not.

A number of any length is its bytes, the lowest first: they give it back
modulo the power of 256 they have room for, and a list of bytes is the bytes
of the number it spells.
-/
import Mathlib.Data.Nat.Digits.Lemmas
import Remu.Lib.ByteRam
import Remu.Lib.Word

namespace Remu

open ByteRam

variable {w : Nat}

-- ======== reading

def word16At (f : BitVec w → U8) (a : BitVec w) : U16 :=
  (f a).setWidth 16 ||| ((f (a + 1)).setWidth 16 <<< 8)

def word32At (f : BitVec w → U8) (a : BitVec w) : U32 :=
  (word16At f a).setWidth 32 ||| ((word16At f (a + 2)).setWidth 32 <<< 16)

def word64At (f : BitVec w → U8) (a : BitVec w) : U64 :=
  (word32At f a).setWidth 64 ||| ((word32At f (a + 4)).setWidth 64 <<< 32)

/-- Byte `i` of a word, counted from the low end. -/
def byteOf {k : Nat} (v : BitVec k) (i : Nat) : U8 :=
  (v >>> (8 * i)).setWidth 8

theorem byteOf_shift {k : Nat} (v : BitVec k) (i : Nat) :
    byteOf (v >>> 8) i = byteOf v (i + 1) := by
  rw [byteOf, byteOf, ← BitVec.shiftRight_add, Nat.mul_add, Nat.add_comm]

theorem byteOf_low {n k : Nat} (v : BitVec k) {i : Nat} (h : 8 * i + 8 ≤ n) :
    byteOf (v.setWidth n) i = byteOf v i := by
  refine BitVec.eq_of_getLsbD_eq fun j hj => ?_
  simp only [byteOf, BitVec.getLsbD_setWidth, BitVec.getLsbD_ushiftRight, hj,
    decide_true, Bool.true_and]
  simp [show 8 * i + j < n by omega]

theorem byteOf_high {n k : Nat} (v : BitVec k) {m i : Nat}
    (h : 8 * i + 8 ≤ n) :
    byteOf ((v >>> (8 * m)).setWidth n) i = byteOf v (m + i) := by
  rw [byteOf_low _ h, byteOf, byteOf, ← BitVec.shiftRight_add, ← Nat.mul_add]

/-- A word is what its bytes say. -/
theorem word16At_eq {f : BitVec w → U8} {a : BitVec w} {v : U16}
    (h : ∀ i < 2, f (a + BitVec.ofNat w i) = byteOf v i) :
    word16At f a = v := by
  have h0 : f a = byteOf v 0 := by simpa using h 0 (by decide)
  have h1 : f (a + 1) = byteOf v 1 := h 1 (by decide)
  rw [word16At, h0, h1]
  exact join16 v

theorem word32At_eq {f : BitVec w → U8} {a : BitVec w} {v : U32}
    (h : ∀ i < 4, f (a + BitVec.ofNat w i) = byteOf v i) :
    word32At f a = v := by
  have hlo : word16At f a = v.setWidth 16 := word16At_eq fun i hi => by
    rw [h i (by omega), byteOf_low _ (by omega)]
  have hhi : word16At f (a + 2) = (v >>> 16).setWidth 16 :=
    word16At_eq fun i hi => by
    rw [BitVec.add_assoc, show (2 : BitVec w) = BitVec.ofNat w 2 from rfl,
      ← BitVec.ofNat_add, h (2 + i) (by omega),
      byteOf_high (m := 2) _ (by omega)]
  rw [word32At, hlo, hhi]
  exact join32 v

theorem word64At_eq {f : BitVec w → U8} {a : BitVec w} {v : U64}
    (h : ∀ i < 8, f (a + BitVec.ofNat w i) = byteOf v i) :
    word64At f a = v := by
  have hlo : word32At f a = v.setWidth 32 := word32At_eq fun i hi => by
    rw [h i (by omega), byteOf_low _ (by omega)]
  have hhi : word32At f (a + 4) = (v >>> 32).setWidth 32 :=
    word32At_eq fun i hi => by
    rw [BitVec.add_assoc, show (4 : BitVec w) = BitVec.ofNat w 4 from rfl,
      ← BitVec.ofNat_add, h (4 + i) (by omega),
      byteOf_high (m := 4) _ (by omega)]
  rw [word64At, hlo, hhi]
  exact join64 v

/-- A word depends on its own bytes only. -/
theorem word16At_congr {v : Nat} {f : BitVec w → U8} {g : BitVec v → U8}
    {a : BitVec w} {b : BitVec v}
    (h : ∀ i < 2, f (a + BitVec.ofNat w i) = g (b + BitVec.ofNat v i)) :
    word16At f a = word16At g b := by
  have h0 : f a = g b := by simpa using h 0 (by decide)
  have h1 : f (a + 1) = g (b + 1) := h 1 (by decide)
  rw [word16At, word16At, h0, h1]

theorem word32At_congr {v : Nat} {f : BitVec w → U8} {g : BitVec v → U8}
    {a : BitVec w} {b : BitVec v}
    (h : ∀ i < 4, f (a + BitVec.ofNat w i) = g (b + BitVec.ofNat v i)) :
    word32At f a = word32At g b := by
  have hlo : word16At f a = word16At g b :=
    word16At_congr fun i hi => h i (by omega)
  have hhi : word16At f (a + 2) = word16At g (b + 2) :=
    word16At_congr fun i hi => by
    have h2 := h (2 + i) (by omega)
    rw [BitVec.ofNat_add, BitVec.ofNat_add, ← BitVec.add_assoc,
      ← BitVec.add_assoc] at h2
    exact h2
  rw [word32At, word32At, hlo, hhi]

theorem word64At_congr {v : Nat} {f : BitVec w → U8} {g : BitVec v → U8}
    {a : BitVec w} {b : BitVec v}
    (h : ∀ i < 8, f (a + BitVec.ofNat w i) = g (b + BitVec.ofNat v i)) :
    word64At f a = word64At g b := by
  have hlo : word32At f a = word32At g b :=
    word32At_congr fun i hi => h i (by omega)
  have hhi : word32At f (a + 4) = word32At g (b + 4) :=
    word32At_congr fun i hi => by
    have h4 := h (4 + i) (by omega)
    rw [BitVec.ofNat_add, BitVec.ofNat_add, ← BitVec.add_assoc,
      ← BitVec.add_assoc] at h4
    exact h4
  rw [word64At, word64At, hlo, hhi]

-- ======== storing

section Stores

variable {β : Type} [ByteRam w β]

/-- Byte stores, one after another. -/
def pokeAll (b : β) (l : List (BitVec w × U8)) : β :=
  l.foldl (fun b p => poke b p.1 p.2) b

/-- A byte whose cell no store of the list selects. -/
theorem byte_pokeAll_other (b : β) (l : List (BitVec w × U8)) {x : BitVec w}
    (h : ∀ p ∈ l, cell β x ≠ cell β p.1) :
    byte (pokeAll b l) x = byte b x := by
  induction l generalizing b with
  | nil => rfl
  | cons p rest ih =>
    show byte (pokeAll (poke b p.1 p.2) rest) x = byte b x
    rw [ih _ fun q hq => h q (List.mem_cons_of_mem p hq), byte_poke,
      if_neg (h p List.mem_cons_self)]

theorem pokeAll_append (b : β) (l l' : List (BitVec w × U8)) :
    pokeAll b (l ++ l') = pokeAll (pokeAll b l) l' := List.foldl_append

/-- A byte after some stores depends on that byte before. -/
theorem byte_pokeAll_congr {b b' : β} (l : List (BitVec w × U8)) {x : BitVec w}
    (h : byte b x = byte b' x) :
    byte (pokeAll b l) x = byte (pokeAll b' l) x := by
  induction l generalizing b b' with
  | nil => exact h
  | cons p rest ih =>
    refine ih ?_
    rw [byte_poke, byte_poke, h]

/-- Stores that share no cell commute. -/
theorem byte_pokeAll_comm (b : β) {l l' : List (BitVec w × U8)}
    (hap : ∀ p ∈ l, ∀ q ∈ l', cell β p.1 ≠ cell β q.1) (x : BitVec w) :
    byte (pokeAll (pokeAll b l) l') x = byte (pokeAll (pokeAll b l') l) x := by
  by_cases hx : ∃ q ∈ l', cell β x = cell β q.1
  · obtain ⟨q, hq, hxq⟩ := hx
    have hl : ∀ p ∈ l,
      cell β x ≠ cell β p.1 := fun p hp h => hap p hp q hq (h.symm.trans hxq)
    rw [byte_pokeAll_other _ l hl]
    exact byte_pokeAll_congr l' (byte_pokeAll_other b l hl)
  · have hl' : ∀ q ∈ l', cell β x ≠ cell β q.1 := fun q hq h => hx ⟨q, hq, h⟩
    rw [byte_pokeAll_other _ l' hl']
    exact byte_pokeAll_congr l (byte_pokeAll_other b l' hl').symm

/-- Bytes stored to cells of their own are all there afterwards. -/
theorem byte_pokeAll (b : β) (as : List (BitVec w)) {k : Nat} (v : BitVec k)
    (hcells : (as.map (cell β)).Nodup) {i : Nat} (hi : i < as.length) :
    byte (pokeAll b (byteStores as v)) (as[i]) = byteOf v i := by
  induction as generalizing b v i with
  | nil => exact absurd hi (Nat.not_lt_zero i)
  | cons a rest ih =>
    rw [List.map_cons, List.nodup_cons] at hcells
    obtain ⟨hfirst, hrest⟩ := hcells
    show byte (pokeAll (poke b a (v.setWidth 8)) (byteStores rest (v >>> 8))) _ = _
    cases i with
    | zero =>
      have hother :
        ∀ p ∈ byteStores rest (v >>> 8), cell β a ≠ cell β p.1 := by
        intro p hp heq
        exact hfirst (heq ▸ List.mem_map_of_mem (mem_byteStores hp))
      show byte _ a = _
      rw [byte_pokeAll_other _ _ hother, byte_poke, if_pos rfl, byteOf,
        Nat.mul_zero, BitVec.ushiftRight_zero]
    | succ i =>
      have hi' : i < rest.length := by
        rw [List.length_cons] at hi
        omega
      show byte _ (rest[i]) = _
      rw [ih (poke b a (v.setWidth 8)) (v >>> 8) hrest hi', byteOf_shift]

/-- Addresses that keep their places in the groups of eight share no
cell. -/
theorem cells_nodup {as : List (BitVec w)} {c : Nat} (hlen : as.length ≤ 8)
    (hplace : ∀ i (hi : i < as.length), (as[i]).toNat % 8 = (c + i) % 8) :
    (as.map (cell β)).Nodup := by
  rw [List.nodup_iff_getElem?_ne_getElem?]
  intro i j hij hj heq
  rw [List.length_map] at hj
  have hi : i < as.length := by omega
  rw [List.getElem?_map, List.getElem?_map, List.getElem?_eq_getElem hi,
    List.getElem?_eq_getElem hj, Option.map_some, Option.map_some,
    Option.some.injEq] at heq
  have hmod := cell_low _ _ heq
  rw [hplace i hi, hplace j hj] at hmod
  omega

theorem put16_eq (b : β) (a : BitVec w) (v : U16) :
    put16 b a v = poke (poke b a (byteOf v 0)) (a + 1) (byteOf v 1) := by
  rw [put16, byteOf, byteOf, Nat.mul_zero, BitVec.ushiftRight_zero]

theorem put32_eq (b : β) (a : BitVec w) (v : U32) :
    put32 b a v = poke
      (poke (poke (poke b a (byteOf v 0)) (a + 1) (byteOf v 1))
      (a + 2) (byteOf v 2)) (a + 2 + 1) (byteOf v 3) := by
  rw [put32, put16_eq, put16_eq, byteOf_low _ (by decide),
    byteOf_low _ (by decide), show v >>> 16 = v >>> (8 * 2) from rfl,
    byteOf_high _ (by decide), byteOf_high _ (by decide)]

/-- A word store is two byte stores, a double-word store four. -/
theorem put16_eq_pokeAll (b : β) (a : BitVec w) (v : U16) :
    put16 b a v = pokeAll b (byteStores (bytesFrom a 2) v) := by
  have h0 : a + BitVec.ofNat w 0 = a := by simp
  have hlist : byteStores (bytesFrom a 2) v
      = [(a + BitVec.ofNat w 0, byteOf v 0),
        (a + BitVec.ofNat w 1, byteOf v 1)] := by
    simp only [byteOf, Nat.mul_zero, BitVec.ushiftRight_zero]
    rfl
  rw [put16_eq, hlist, h0]
  rfl

theorem put32_eq_pokeAll (b : β) (a : BitVec w) (v : U32) :
    put32 b a v = pokeAll b (byteStores (bytesFrom a 4) v) := by
  have h0 : a + BitVec.ofNat w 0 = a := by simp
  have h3 : a + 2 + 1 = a + BitVec.ofNat w 3 := by
    rw [BitVec.add_assoc]
    exact congrArg (a + ·) (BitVec.ofNat_add 2 1).symm
  have hlist : byteStores (bytesFrom a 4) v
      = [(a + BitVec.ofNat w 0, byteOf v 0),
        (a + BitVec.ofNat w 1, byteOf v 1),
        (a + BitVec.ofNat w 2, byteOf v 2),
          (a + BitVec.ofNat w 3, byteOf v 3)] := by
    simp only [byteOf, Nat.mul_zero, BitVec.ushiftRight_zero]
    rfl
  rw [put32_eq, hlist, h0, h3]
  rfl

/-- A quad-word store is eight byte stores. -/
theorem put64_eq_pokeAll (b : β) (a : BitVec w) (v : U64) :
    put64 b a v = pokeAll b (byteStores (bytesFrom a 8) v) := by
  have haddr : ∀ m n : Nat,
    a + BitVec.ofNat w m + BitVec.ofNat w n = a + BitVec.ofNat w (m + n) := by
    intro m n
    rw [BitVec.add_assoc, ← BitVec.ofNat_add]
  have hlist : byteStores (bytesFrom a 8) v
      = [(a + BitVec.ofNat w 0, byteOf v 0),
        (a + BitVec.ofNat w 1, byteOf v 1),
        (a + BitVec.ofNat w 2, byteOf v 2), (a + BitVec.ofNat w 3, byteOf v 3),
        (a + BitVec.ofNat w 4, byteOf v 4), (a + BitVec.ofNat w 5, byteOf v 5),
        (a + BitVec.ofNat w 6, byteOf v 6),
          (a + BitVec.ofNat w 7, byteOf v 7)] := by
    simp only [byteOf, Nat.mul_zero, BitVec.ushiftRight_zero]
    rfl
  have h0 : a + BitVec.ofNat w 0 = a := by simp
  have h3 : a + 2 + 1 = a + BitVec.ofNat w 3 := haddr 2 1
  have h5 : a + 4 + 1 = a + BitVec.ofNat w 5 := haddr 4 1
  have h6 : a + 4 + 2 = a + BitVec.ofNat w 6 := haddr 4 2
  have h7 : a + BitVec.ofNat w 6 + 1 = a + BitVec.ofNat w 7 := haddr 6 1
  rw [put64, put32_eq, put32_eq, hlist, byteOf_low _ (by decide),
    byteOf_low _ (by decide), byteOf_low _ (by decide),
    byteOf_low _ (by decide), show v >>> 32 = v >>> (8 * 4) from rfl,
    byteOf_high _ (by decide), byteOf_high _ (by decide),
    byteOf_high _ (by decide), byteOf_high _ (by decide), h0, h3, h5, h6, h7]
  rfl

end Stores

-- ======== numbers as bytes

/-- The `n` low bytes of `v`. -/
def leBytes : Nat → Nat → List U8
  | 0, _ => []
  | n + 1, v => BitVec.ofNat 8 v :: leBytes n (v / 256)

/-- The number `bs` spells. -/
def leNat (bs : List U8) : Nat := Nat.ofDigits 256 (bs.map BitVec.toNat)

@[simp] theorem length_leBytes (n v : Nat) : (leBytes n v).length = n := by
  induction n generalizing v with
  | zero => rfl
  | succ n ih => rw [leBytes, List.length_cons, ih]

@[simp] theorem leNat_nil : leNat [] = 0 := rfl

theorem leNat_cons (b : U8) (bs : List U8) :
    leNat (b :: bs) = b.toNat + 256 * leNat bs := by
  rw [leNat, List.map_cons, Nat.ofDigits_cons]
  rfl

theorem leNat_lt (bs : List U8) : leNat bs < 256 ^ bs.length := by
  induction bs with
  | nil => exact Nat.one_pos
  | cons b bs ih =>
    have hb := b.isLt
    rw [leNat_cons, List.length_cons, Nat.pow_succ]
    omega

theorem leNat_leBytes (n v : Nat) : leNat (leBytes n v) = v % 256 ^ n := by
  induction n generalizing v with
  | zero => rw [leBytes, leNat_nil, Nat.pow_zero, Nat.mod_one]
  | succ n ih =>
    rw [leBytes, leNat_cons, ih, BitVec.toNat_ofNat,
      show 256 ^ (n + 1) = 256 * 256 ^ n from Nat.pow_succ', Nat.mod_mul]

theorem leBytes_leNat (bs : List U8) : leBytes bs.length (leNat bs) = bs := by
  induction bs with
  | nil => rfl
  | cons b bs ih =>
    have hb := b.isLt
    have hhead : BitVec.ofNat 8 (b.toNat + 256 * leNat bs) = b := by
      apply BitVec.eq_of_toNat_eq
      rw [BitVec.toNat_ofNat]
      omega
    have htail : (b.toNat + 256 * leNat bs) / 256 = leNat bs := by omega
    rw [leNat_cons, List.length_cons, leBytes, hhead, htail, ih]

end Remu
