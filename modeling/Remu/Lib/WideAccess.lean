/-
Wide accesses, byte by byte.

Byte accessors are run over an ascending range of addresses (`readSeq`,
`writeSeq`), and an accessor of words is right when it gives and leaves
what such a run does. From a right accessor of some width the composed
accessor of twice the width is right (`ReadsWord.halves`,
`WritesWord.halves`), so that of an implementation only its fast paths have
to be looked at.
-/
import Remu.Lib.ByteWords

namespace Remu

-- ======== words

theorem leNat_append (xs ys : List U8) :
    leNat (xs ++ ys) = leNat xs + 256 ^ xs.length * leNat ys := by
  rw [leNat, List.map_append, Nat.ofDigits_append, List.length_map]
  rfl

theorem leBytes_add (m n v : Nat) :
    leBytes (m + n) v = leBytes m v ++ leBytes n (v / 256 ^ m) := by
  induction m generalizing v with
  | zero =>
    rw [Nat.zero_add, leBytes, List.nil_append, Nat.pow_zero, Nat.div_one]
  | succ m ih =>
    rw [Nat.succ_add, leBytes, leBytes, ih, List.cons_append,
      Nat.div_div_eq_div_mul, ← Nat.pow_succ']

theorem leBytes_mod (n v : Nat) : leBytes n (v % 256 ^ n) = leBytes n v := by
  have h := leBytes_leNat (leBytes n v)
  rw [length_leBytes, leNat_leBytes] at h
  exact h

/-- The word some bytes spell. -/
def leWord (k : Nat) (bs : List U8) : BitVec k := BitVec.ofNat k (leNat bs)

theorem toNat_leWord {k : Nat} {bs : List U8} (h : 8 * bs.length = k) :
    (leWord k bs).toNat = leNat bs := by
  have hlt := leNat_lt bs
  rw [show 256 = 2 ^ 8 from rfl, ← Nat.pow_mul, h] at hlt
  rw [leWord, BitVec.toNat_ofNat, Nat.mod_eq_of_lt hlt]

/-- A word from its halves. -/
theorem leWord_append {k : Nat} {xs ys : List U8} (hx : 8 * xs.length = k)
    (hy : 8 * ys.length = k) :
    leWord (k + k) (xs ++ ys)
      = (leWord k xs).setWidth (k + k)
        ||| ((leWord k ys).setWidth (k + k) <<< k) := by
  have hlo := toNat_leWord hx
  have hhi := toNat_leWord hy
  have hxlt := (leWord k xs).isLt
  have hylt := (leWord k ys).isLt
  rw [hlo] at hxlt
  rw [hhi] at hylt
  have hmono : 2 ^ k ≤ 2 ^ (k + k) :=
    Nat.pow_le_pow_right (by decide) (Nat.le_add_right k k)
  have hwide : leNat ys * 2 ^ k < 2 ^ (k + k) := by
    rw [Nat.pow_add]
    exact Nat.mul_lt_mul_of_pos_right hylt (Nat.two_pow_pos k)
  apply BitVec.eq_of_toNat_eq
  rw [toNat_leWord (by rw [List.length_append]; omega), leNat_append,
    BitVec.toNat_or, BitVec.toNat_shiftLeft, BitVec.toNat_setWidth,
    BitVec.toNat_setWidth, hlo, hhi, Nat.mod_eq_of_lt (hxlt.trans_le hmono),
    Nat.mod_eq_of_lt (hylt.trans_le hmono), Nat.shiftLeft_eq,
    Nat.mod_eq_of_lt hwide, Nat.or_comm, ← Nat.shiftLeft_eq,
    ← Nat.shiftLeft_add_eq_or_of_lt hxlt, Nat.shiftLeft_eq,
    show 256 = 2 ^ 8 from rfl, ← Nat.pow_mul, hx, Nat.mul_comm, Nat.add_comm]

-- ======== runs

section Runs

variable {w k : Nat} {σ : Type} (read : σ → BitVec w → U8 × σ)
  (write : σ → BitVec w → U8 → σ)

/-- The bytes at `n` addresses from `a` on, read one after another. -/
def readSeq : Nat → σ → BitVec w → List U8 × σ
  | 0, s, _ => ([], s)
  | n + 1, s, a =>
    let r := read s a
    let rest := readSeq n r.2 (a + 1)
    (r.1 :: rest.1, rest.2)

/-- Bytes stored from `a` on, one after another. -/
def writeSeq : List U8 → σ → BitVec w → σ
  | [], s, _ => s
  | v :: vs, s, a => writeSeq vs (write s a v) (a + 1)

variable {read write}

@[simp] theorem length_readSeq (n : Nat) (s : σ) (a : BitVec w) :
    (readSeq read n s a).1.length = n := by
  induction n generalizing s a with
  | zero => rfl
  | succ n ih => rw [readSeq, List.length_cons, ih]

theorem next_addr (a : BitVec w) (n : Nat) :
    a + 1 + BitVec.ofNat w n = a + BitVec.ofNat w (n + 1) := by
  rw [BitVec.add_assoc, Nat.add_comm n 1, BitVec.ofNat_add]
  rfl

theorem readSeq_add (m n : Nat) (s : σ) (a : BitVec w) :
    readSeq read (m + n) s a
    = ((readSeq read m s a).1 ++ (readSeq read n (readSeq read m s a).2 (a + BitVec.ofNat w m)).1,
      (readSeq read n (readSeq read m s a).2 (a + BitVec.ofNat w m)).2) := by
  induction m generalizing s a with
  | zero =>
    have hzero : a + BitVec.ofNat w 0 = a := BitVec.add_zero a
    rw [Nat.zero_add, readSeq, hzero, List.nil_append]
  | succ m ih =>
    rw [Nat.succ_add, readSeq, readSeq, ih, next_addr, List.cons_append]

theorem writeSeq_append (xs ys : List U8) (s : σ) (a : BitVec w) :
    writeSeq write (xs ++ ys) s a
      = writeSeq write ys (writeSeq write xs s a)
        (a + BitVec.ofNat w xs.length) := by
  induction xs generalizing s a with
  | nil =>
    have hzero : a + BitVec.ofNat w 0 = a := BitVec.add_zero a
    rw [List.nil_append, writeSeq, List.length_nil, hzero]
  | cons x xs ih =>
    rw [List.cons_append, writeSeq, writeSeq, ih, next_addr, List.length_cons]

-- ======== accessors

/-- An accessor, `none` where it panics, reads a word of `n` bytes. -/
def ReadsWord (read : σ → BitVec w → U8 × σ) (n k : Nat)
    (wide : σ → BitVec w → Option (BitVec k × σ)) :
    Prop :=
  ∀ s a, wide s a
    = some (leWord k (readSeq read n s a).1, (readSeq read n s a).2)

/-- It stores one. -/
def WritesWord (write : σ → BitVec w → U8 → σ) (n k : Nat)
    (wide : σ → BitVec w → BitVec k → Option σ) :
    Prop :=
  ∀ s a v, wide s a v = some (writeSeq write (leBytes n v.toNat) s a)

/-- A word read by halves of `n` bytes. -/
def composedRead (n : Nat) (half : σ → BitVec w → Option (BitVec k × σ))
    (s : σ) (a : BitVec w) :
    Option (BitVec (k + k) × σ) :=
  (half s a).bind fun (lo : BitVec k × σ) =>
    (half lo.2 (a + BitVec.ofNat w n)).map fun (hi : BitVec k × σ) =>
      (lo.1.setWidth (k + k) ||| (hi.1.setWidth (k + k) <<< k), hi.2)

/-- A word stored by halves of `n` bytes. -/
def composedWrite (n : Nat) (half : σ → BitVec w → BitVec k → Option σ)
    (s : σ) (a : BitVec w) (v : BitVec (k + k)) : Option σ :=
  (half s a (v.setWidth k)).bind fun s => half s (a + BitVec.ofNat w n)
    ((v >>> k).setWidth k)

/-- A byte is a word of one. -/
theorem ReadsWord.byte : ReadsWord read 1 8 fun s a => some (read s a) := by
  intro s a
  have hword : leWord 8 [(read s a).1] = (read s a).1 := by
    apply BitVec.eq_of_toNat_eq
    rw [toNat_leWord (show 8 * [(read s a).1].length = 8 from rfl), leNat_cons,
      leNat_nil, Nat.mul_zero, Nat.add_zero]
  rw [readSeq, readSeq]
  dsimp only
  rw [hword]

theorem WritesWord.byte :
    WritesWord write 1 8 fun s a v => some (write s a v) := by
  intro s a v
  rw [leBytes, leBytes, BitVec.ofNat_toNat, BitVec.setWidth_eq,
    writeSeq, writeSeq]

theorem ReadsWord.halves {n : Nat}
    {half : σ → BitVec w → Option (BitVec k × σ)} (hk : 8 * n = k)
    (h : ReadsWord read n k half) :
    ReadsWord read (n + n) (k + k) (composedRead n half) := by
  intro s a
  rw [composedRead, h, Option.bind_some, h, Option.map_some, readSeq_add,
    leWord_append (by rw [length_readSeq]; exact hk)
    (by rw [length_readSeq]; exact hk)]

theorem WritesWord.halves {n : Nat} {half : σ → BitVec w → BitVec k → Option σ}
    (hk : 8 * n = k)
    (h : WritesWord write n k half) :
    WritesWord write (n + n) (k + k) (composedWrite n half) := by
  intro s a v
  have hpow : 256 ^ n = 2 ^ k := by
    rw [show 256 = 2 ^ 8 from rfl, ← Nat.pow_mul, hk]
  have hlo : leBytes n (v.setWidth k).toNat = leBytes n v.toNat := by
    rw [BitVec.toNat_setWidth, ← hpow, leBytes_mod]
  have hhi : leBytes n ((v >>> k).setWidth k).toNat
    = leBytes n (v.toNat / 256 ^ n) := by
    rw [BitVec.toNat_setWidth, BitVec.toNat_ushiftRight,
      Nat.shiftRight_eq_div_pow, ← hpow, leBytes_mod]
  rw [composedWrite, h, Option.bind_some, h, hlo, hhi, leBytes_add,
    writeSeq_append, length_leBytes]

end Runs

end Remu
