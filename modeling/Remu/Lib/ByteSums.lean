/-
Numbers of bytes added and subtracted one byte at a time.

A step takes a byte of each number and a state that holds the carry; it
gives a byte of the result. `BinarySteps` asks that each step does one limb
exactly, `PackedSteps` that it does one position of two decimal digits, both
in a mode that the steps keep. A thread of such steps then does the whole
numbers: the bytes are those of the sum or difference modulo the range, the
carry says whether it fits, and in binary the overflow of the last step is
that of the whole.
-/
import Remu.Lib.Adders
import Remu.Lib.Decimal
import Remu.Lib.ByteWords

namespace Remu

variable {σ : Type} {s : Int} {Mode : σ → Prop} {carry overflow : σ → Bool}
  {step : U8 × U8 → σ → U8 × σ}

-- ======== signed numbers

/-- The number the bytes spell in two's complement. -/
def signedLe (bs : List U8) : Int := Int.bmod (leNat bs) (256 ^ bs.length)

example : signedLe [0xFF, 0x80] = 0x80FF - 0x10000 := by decide

theorem leNat_concat (bs : List U8) (b : U8) :
    leNat (bs ++ [b]) = leNat bs + 256 ^ bs.length * b.toNat := by
  rw [leNat, leNat, List.map_append, Nat.ofDigits_append, List.length_map,
    List.map_singleton, Nat.ofDigits_singleton]

/-- The sign is the sign of the last byte. -/
theorem signedLe_concat (bs : List U8) (b : U8) :
    signedLe (bs ++ [b]) = leNat bs + (256 ^ bs.length : Nat) * b.toInt := by
  have hlow := leNat_lt bs
  have hb := b.isLt
  have hnext :
    leNat bs + 256 ^ bs.length * b.toNat < 256 ^ bs.length * 256 := by
    have := Nat.mul_le_mul_left (256 ^ bs.length)
      (show b.toNat + 1 ≤ 256 by omega)
    rw [mul_add, mul_one] at this
    omega
  rw [signedLe, leNat_concat, List.length_append, List.length_singleton,
    pow_succ, Int.bmod_def,
    Int.emod_eq_of_lt (by omega) (by exact_mod_cast hnext),
    BitVec.toInt_eq_toNat_cond]
  generalize 256 ^ bs.length = m at hlow hnext
  push_cast
  by_cases h : b.toNat < 128
  · have hhalf := Nat.mul_le_mul_left m (show b.toNat + 1 ≤ 128 by omega)
    rw [mul_add, mul_one] at hhalf
    rw [if_pos (by omega), if_pos (by omega)]
  · have hhalf := Nat.mul_le_mul_left m (show 128 ≤ b.toNat by omega)
    rw [if_neg (by omega), if_neg (by omega)]
    ring

-- ======== binary

/-- What is left of a sum (`s = 1`) or a difference (`s = -1`) of the numbers
whose bytes `l` pairs. -/
structure BinaryLaw (s : Int) (l : List (U8 × U8)) (digits : List U8)
    (carry overflow : Bool) : Prop where
  length : digits.length = l.length
  number : (leNat digits : Int)
    = (leNat (l.map Prod.fst) + s * leNat (l.map Prod.snd)) % 256 ^ l.length
  carry : carry = true ↔
    ¬(0 ≤ (leNat (l.map Prod.fst) : Int) + s * leNat (l.map Prod.snd)
      ∧ (leNat (l.map Prod.fst) : Int) + s * leNat (l.map Prod.snd)
        < 256 ^ l.length)
  /-- The signed result needs more than a byte for each byte. -/
  overflow : l ≠ [] → (overflow = true ↔
    ¬(-2 ^ (8 * l.length - 1) ≤ signedLe (l.map Prod.fst) + s * signedLe
      (l.map Prod.snd)
      ∧ signedLe (l.map Prod.fst) + s * signedLe (l.map Prod.snd)
        < 2 ^ (8 * l.length - 1)))

/-- Steps of one exact limb each, in a mode that they keep. -/
structure BinarySteps (s : Int) (Mode : σ → Prop) (carry overflow : σ → Bool)
    (step : U8 × U8 → σ → U8 × σ) : Prop where
  keeps : ∀ p x, Mode x → Mode (step p x).2
  limb : ∀ p x, Mode x → ∃ af,
    Limb s p.1 p.2 (carry x) (step p x).1 (carry (step p x).2) af
      (overflow (step p x).2)

namespace BinarySteps

/-- The two numbers, the bytes and the carry. -/
def column (s : Int) (carry : σ → Bool) : Column (U8 × U8) U8 σ where
  base := 256
  sign := s
  lhs p := p.1.toNat
  rhs p := p.2.toNat
  digit d := d.toNat
  carry x := (carry x).toNat

variable {x : σ}

theorem exact (h : BinarySteps s Mode carry overflow step) (hx : Mode x)
    (hc : carry x = false) (l : List (U8 × U8)) :
    (leNat (thread step l x).1 : Int) + s
      * ((256 ^ l.length : Nat) * (carry (thread step l x).2).toNat)
      = leNat (l.map Prod.fst) + s * leNat (l.map Prod.snd) := by
  have hthread :=
    Column.thread_exact_while (C := column s carry)
      (P := fun _ => True) (M := Mode)
    (fun p y _ hy => h.keeps p y hy)
    (fun p y _ hy => by
      obtain ⟨af, hlimb⟩ := h.limb p y hy
      exact_mod_cast hlimb.exact) (fun (_ : U8 × U8) (_ : _ ∈ l) => trivial) hx
  have hfst : (column s carry).number (column s carry).lhs l
    = leNat (l.map Prod.fst) := by
    rw [leNat, List.map_map]
    rfl
  have hsnd : (column s carry).number (column s carry).rhs l
    = leNat (l.map Prod.snd) := by
    rw [leNat, List.map_map]
    rfl
  have hzero : (column s carry).carry x = 0 := congrArg Bool.toNat hc
  rw [hfst, hsnd, hzero, Nat.cast_zero, add_zero] at hthread
  push_cast
  exact hthread

theorem law (h : BinarySteps s Mode carry overflow step) (hs : s ≠ 0)
    (hx : Mode x) (hc : carry x = false) (l : List (U8 × U8)) :
    BinaryLaw s l (thread step l x).1 (carry (thread step l x).2)
      (overflow (thread step l x).2) := by
  have hlen := length_thread step l x
  obtain ⟨hnumber, hcarry⟩ :=
    total_of_carry hs (hlen ▸ leNat_lt (thread step l x).1) (h.exact hx hc l)
  push_cast at hnumber hcarry
  refine ⟨hlen, hnumber, hcarry, fun hne => ?_⟩
  obtain ⟨low, p, rfl⟩ := (List.eq_nil_or_concat' l).resolve_left hne
  have hbelow := h.exact hx hc low
  have hlow : (thread step low x).1.length = low.length :=
    length_thread step low x
  have hlt := hlow ▸ leNat_lt (thread step low x).1
  have hmode : Mode (thread step low x).2 :=
    thread_keeps (P := fun _ => True) (fun q y _ hy => h.keeps q y hy)
      (fun _ _ => trivial) hx
  obtain ⟨af, hlimb⟩ := h.limb p (thread step low x).2 hmode
  have hsigned :
      signedLe ((low ++ [p]).map Prod.fst) + s * signedLe
      ((low ++ [p]).map Prod.snd)
      = leNat (thread step low x).1 + (256 ^ low.length : Nat)
        * (p.1.toInt + s * (p.2.toInt + (carry (thread step low x).2).toNat)) := by
    rw [List.map_append, List.map_append, List.map_singleton,
      List.map_singleton, signedLe_concat, signedLe_concat, List.length_map,
      List.length_map]
    linear_combination -hbelow
  have hhalf : (2 : Int) ^ (8 * (low ++ [p]).length - 1)
    = (256 ^ low.length : Nat) * 2 ^ (8 - 1) := by
    rw [List.length_append, List.length_singleton, mul_add, mul_one,
      Nat.add_sub_assoc (by decide), pow_add, pow_mul]
    push_cast
    rfl
  -- The bytes below the last fill less than one of its units.
  rw [thread_concat, hsigned, hhalf, hlimb.overflow,
    ← between_iff hlt, mul_neg]

end BinarySteps

-- ======== decimal

/-- Steps of one exact decimal position each. -/
structure PackedSteps (s : Int) (Mode : σ → Prop) (carry : σ → Bool)
    (step : U8 × U8 → σ → U8 × σ) : Prop where
  keeps : ∀ p x, Mode x → Mode (step p x).2
  packed : ∀ p x, Packed p.1 ∧ Packed p.2 → Mode x → Packed (step p x).1
  exact : ∀ p x, Packed p.1 ∧ Packed p.2 → Mode x →
    (unpacked (step p x).1 : Int) + s * (100 * (carry (step p x).2).toNat)
      = unpacked p.1 + s * (unpacked p.2 + (carry x).toNat)

namespace PackedSteps

/-- The two numbers, the digits and the carry. -/
def column (s : Int) (carry : σ → Bool) : Column (U8 × U8) U8 σ where
  base := 100
  sign := s
  lhs p := unpacked p.1
  rhs p := unpacked p.2
  digit := unpacked
  carry x := (carry x).toNat

theorem law (h : PackedSteps s Mode carry step) (hs : s ≠ 0) {x : σ}
    (hx : Mode x) (hc : carry x = false)
    {l : List (U8 × U8)} (hl : ∀ p ∈ l, Packed p.1 ∧ Packed p.2) :
    DecimalLaw s l (thread step l x).1 (carry (thread step l x).2) := by
  have hlen := length_thread step l x
  have hpacked :=
    forall_thread_while (Q := Packed) (fun p y _ hy => h.keeps p y hy) h.packed hl hx
  have hthread := Column.thread_exact_while (C := column s carry) (M := Mode)
    (fun p y _ hy => h.keeps p y hy) h.exact hl hx
  have hfst : (column s carry).number (column s carry).lhs l
    = packedValue (l.map Prod.fst) := by
    rw [packedValue, List.map_map]
    rfl
  have hsnd : (column s carry).number (column s carry).rhs l
    = packedValue (l.map Prod.snd) := by
    rw [packedValue, List.map_map]
    rfl
  have hzero : (column s carry).carry x = 0 := congrArg Bool.toNat hc
  rw [hfst, hsnd, hzero, Nat.cast_zero, add_zero] at hthread
  have hlt : packedValue (thread step l x).1 < 100 ^ l.length := by
    rw [← hlen]
    exact Column.number_lt (C := column s carry) (show 1 < 100 by decide) fun d
      hd => unpacked_lt (hpacked d hd)
  obtain ⟨hnumber, hcarry⟩ :=
    total_of_carry hs hlt (c := carry (thread step l x).2) (by
    push_cast
    exact hthread)
  push_cast at hnumber hcarry
  exact ⟨hlen, hpacked, hnumber, hcarry⟩

end PackedSteps

end Remu
