/-
Multi-precision addition and subtraction.

ADD on the lowest limbs and ADC on the others add two numbers of any
length: the digits are those of the sum modulo the total width, and the
flags of the last limb are those of one addition of that width. The carry
flag between two limbs is all that the chain hands on; the three conditions
on the last limb lift to the whole numbers because the limbs below it fill
less than one of its units.
-/
import Remu.Lib.Limbs
import Remu.X64.Flags

namespace Remu.X64

open RFlags (CF AF SF OF)

variable {w : Nat}

-- ======== chains

/-- ADD the lowest limbs, ADC the others. -/
def addChain :
    List (BitVec w × BitVec w) → RFlags → List (BitVec w) × RFlags :=
  chain (fun p => Alu.add p.1 p.2) (fun p => Alu.adc p.1 p.2)

/-- SUB the lowest limbs, SBB the others. -/
def subChain :
    List (BitVec w × BitVec w) → RFlags → List (BitVec w) × RFlags :=
  chain (fun p => Alu.sub p.1 p.2) (fun p => Alu.sbb p.1 p.2)

/-- The number a list of limbs stands for, lowest first. -/
def value (l : List (BitVec w)) : Nat :=
  Nat.ofDigits (2 ^ w) (l.map BitVec.toNat)

/-- The same limbs as a two's complement number. -/
def signedValue (l : List (BitVec w)) : Int :=
  if 2 * value l < 2 ^ (w * l.length) then value l
    else (value l : Int) - 2 ^ (w * l.length)

example : value [0xFF#8, 0x80#8] = 0x80FF ∧ signedValue
    [0xFF#8, 0x80#8] = 0x80FF - 0x10000 := by decide

/-- The exact sum (`s = 1`) or difference (`s = -1`) of what `f` makes of the
two numbers whose limbs `l` pairs. -/
def exactResult (s : Int) (f : List (BitVec w) → Int)
    (l : List (BitVec w × BitVec w)) : Int :=
  f (l.map Prod.fst) + s * f (l.map Prod.snd)

/-- What a chain on the limbs `l` leaves: the digits and the flags of one
exact operation on the whole numbers. -/
structure ChainLaw (s : Int) (l : List (BitVec w × BitVec w))
    (out : List (BitVec w) × RFlags) :
    Prop where
  length : out.1.length = l.length
  digits : (value out.1 : Int)
    = exactResult s (fun m => value m) l % 2 ^ (w * l.length)
  /-- CF: the exact result is not a number of this width. -/
  carry : out.2.contains CF = true ↔
    ¬(0 ≤ exactResult s (fun m => value m) l
      ∧ exactResult s (fun m => value m) l < 2 ^ (w * l.length))
  /-- OF: it is not a signed number of this width. -/
  overflow : out.2.contains OF = true ↔
    ¬(-2 ^ (w * l.length - 1) ≤ exactResult s signedValue l
      ∧ exactResult s signedValue l < 2 ^ (w * l.length - 1))
  /-- SF: the digits are negative, and so is the exact result unless OF is set. -/
  sign : out.2.contains SF = true ↔ signedValue out.1 < 0
  exactSign : exactResult s signedValue l < 0
    ↔ out.2.contains SF ≠ out.2.contains OF
  /-- AF: there is a carry between the low and the high nibble of the last
  limb's low byte. -/
  nibble : out.2.contains AF = true ↔
    ¬(0 ≤ exactResult s
      (fun m => (value m : Int) % 2 ^ (w * (l.length - 1) + 4)) l
      ∧ exactResult s (fun m => (value m : Int) % 2 ^ (w * (l.length - 1) + 4)) l
        < 2 ^ (w * (l.length - 1) + 4))

-- ======== the last limb

theorem value_concat (l : List (BitVec w)) (x : BitVec w) :
    value (l ++ [x]) = value l + 2 ^ (w * l.length) * x.toNat := by
  rw [value, value, List.map_append, Nat.ofDigits_append, List.length_map,
    List.map_singleton, Nat.ofDigits_singleton, pow_mul]

theorem value_lt (l : List (BitVec w)) (hw : 0 < w) :
    value l < 2 ^ (w * l.length) := by
  have h := Nat.ofDigits_lt_base_pow_length (b := 2 ^ w)
    (l := l.map BitVec.toNat) (Nat.one_lt_two_pow (by omega)) (by
      intro x hx
      obtain ⟨v, -, rfl⟩ := List.mem_map.1 hx
      exact v.isLt)
  rwa [List.length_map, ← pow_mul] at h

theorem width_concat (w : Nat) {γ : Type} (l : List γ) (x : γ) :
    w * (l ++ [x]).length = w * l.length + w := by
  rw [List.length_append, List.length_singleton, mul_add, mul_one]

/-- The sign is the sign of the last limb. -/
theorem signedValue_concat (hw : 0 < w) (l : List (BitVec w)) (x : BitVec w) :
    signedValue (l ++ [x]) = value l + 2 ^ (w * l.length) * x.toInt := by
  have hlt := value_lt l hw
  have hhalf :
    2 ^ w = 2 * 2 ^ (w - 1) := by rw [← pow_succ', Nat.sub_add_cancel hw]
  rw [signedValue, value_concat, width_concat, pow_add,
    BitVec.toInt_eq_toNat_cond]
  push_cast
  generalize 2 ^ (w * l.length) = m at hlt
  rw [hhalf]
  by_cases h : x.toNat < 2 ^ (w - 1)
  · have hstep : m * (x.toNat + 1) ≤ m * 2 ^ (w - 1) := Nat.mul_le_mul_left m h
    rw [mul_add, mul_one] at hstep
    rw [mul_left_comm, if_pos (by omega), if_pos (by omega)]
  · have hstep : m * 2 ^ (w - 1) ≤ m * x.toNat :=
      Nat.mul_le_mul_left m (not_lt.1 h)
    rw [mul_left_comm, if_neg (by omega), if_neg (by omega)]
    ring

/-- A chain up to its last limb: the digits below it, and the carry into it
that is what they leave of the numbers below it. -/
structure LastLimb (s : Int) (low : List (BitVec w × BitVec w))
    (x : BitVec w × BitVec w) (out : List (BitVec w) × RFlags) where
  digits : List (BitVec w)
  carry : Bool
  last : BitVec w
  length : digits.length = low.length
  whole : out.1 = digits ++ [last]
  done : Alu.LimbDone s x.1 x.2 carry (last, out.2)
  below : (value digits : Int) + 2 ^ (w * low.length) * (s * carry.toNat)
    = exactResult s (fun m => value m) low

namespace LastLimb

variable {s : Int} {low : List (BitVec w × BitVec w)} {x : BitVec w × BitVec w}
  {out : List (BitVec w) × RFlags}

/-- Whatever the last limbs count as, the digits below and the exact result
of the last limb make the exact result of the whole. -/
theorem exactResult_eq (h : LastLimb s low x out) {f : List (BitVec w) → Int}
    {g : BitVec w → Int}
    (hf : ∀ (l : List (BitVec w)) y, l.length = low.length →
      f (l ++ [y]) = value l + 2 ^ (w * low.length) * g y) :
    exactResult s f (low ++ [x])
      = value h.digits + 2 ^ (w * low.length)
        * (g x.1 + s * (g x.2 + h.carry.toNat)) := by
  have hbelow := h.below
  rw [exactResult] at hbelow
  rw [exactResult, List.map_append, List.map_append, List.map_singleton,
    List.map_singleton, hf _ _ (List.length_map _), hf _ _ (List.length_map _)]
  linear_combination -hbelow

theorem chainLaw (hw : 4 < w) (hs : s ≠ 0) (h : LastLimb s low x out) :
    ChainLaw s (low ++ [x]) out := by
  obtain ⟨hlimb, hsf⟩ := h.done
  have hlt : value h.digits < 2 ^ (w * low.length) :=
    h.length ▸ value_lt h.digits (by omega)
  have hlen : out.1.length = (low ++ [x]).length := by
    rw [h.whole, List.length_append, List.length_append, h.length]
    rfl
  have houtlt := hlen ▸ value_lt out.1 (by omega)
  have hwhole : (value out.1 : Int)
        + s * ((2 ^ (w * (low ++ [x]).length) : Nat) * (out.2.contains CF).toNat)
      = exactResult s (fun m => value m) (low ++ [x]) := by
    have hvalue :=
      h.exactResult_eq (f := fun m => value m) (g := fun y => y.toNat) (by
      intro l y hl
      rw [value_concat, hl]
      push_cast
      rfl)
    rw [hvalue, h.whole, value_concat, h.length, width_concat, pow_add]
    push_cast
    linear_combination (2 ^ (w * low.length) : Int) * hlimb.exact
  have hsigned := h.exactResult_eq (f := signedValue) (g := BitVec.toInt) (by
    intro l y hl
    rw [signedValue_concat (by omega), hl])
  have hnibble :=
      h.exactResult_eq
        (f := fun m => (value m : Int) % 2 ^ (w * low.length + 4))
      (g := fun y => (y.toNat % 16 : Nat)) (by
    intro l y hl
    have hlt := hl ▸ value_lt l (by omega)
    rw [value_concat, hl]
    norm_cast
    rw [pow_add, Nat.mod_mul, Nat.add_mul_mod_self_left, Nat.mod_eq_of_lt hlt,
      Nat.add_mul_div_left _ _ (Nat.two_pow_pos _),
      Nat.div_eq_of_lt hlt, zero_add]
    rfl)
  have hfits :
    (value h.digits : Int) + (2 ^ (w * low.length) : Nat) * h.last.toInt
    = signedValue out.1 := by
    rw [h.whole, signedValue_concat (by omega), h.length]
    push_cast
    rfl
  obtain ⟨htotal, hcarry⟩ := total_of_carry hs houtlt hwhole
  push_cast at htotal hcarry
  refine ⟨hlen, htotal, hcarry, ?_, ?_, ?_, ?_⟩
  · rw [hlimb.overflow, ← between_iff hlt, hsigned, width_concat,
      Nat.add_sub_assoc (by omega), pow_add]
    push_cast
    rw [mul_neg]
  · rw [hsf, BitVec.msb_eq_toInt, decide_eq_true_iff, ← neg_iff hlt, hfits]
  · rw [hsf, ← hlimb.negative, hsigned]
    exact_mod_cast neg_iff hlt _
  · rw [hlimb.aux, ← between_iff hlt, List.length_append,
      List.length_singleton, Nat.add_sub_cancel, hnibble, pow_add]
    push_cast
    rw [mul_zero]

end LastLimb

-- ======== whole chains

/-- The two numbers, the digits and the carry flag of a chain. -/
def column (w : Nat) (s : Int) :
    Column (BitVec w × BitVec w) (BitVec w) RFlags where
  base := 2 ^ w
  sign := s
  lhs p := p.1.toNat
  rhs p := p.2.toNat
  digit := BitVec.toNat
  carry f := (f.contains CF).toNat

theorem column_value (s : Int) (l : List (BitVec w × BitVec w)) :
    (column w s).number (column w s).lhs l = value (l.map Prod.fst)
      ∧ (column w s).number (column w s).rhs l = value (l.map Prod.snd) := by
  rw [value, value, List.map_map, List.map_map]
  exact ⟨rfl, rfl⟩

/-- Steps that do one limb each make a chain that does the whole numbers. -/
theorem chainLaw_of_limbs {s : Int}
    {first rest : BitVec w × BitVec w → RFlags → BitVec w × RFlags}
    (hw : 4 < w) (hs : s ≠ 0)
    (hfirst : ∀ p f, Alu.LimbDone s p.1 p.2 false (first p f))
    (hrest : ∀ p f, Alu.LimbDone s p.1 p.2 (f.contains CF) (rest p f))
    {l : List (BitVec w × BitVec w)} (hne : l ≠ []) (f : RFlags) :
    ChainLaw s l (chain first rest l f) := by
  obtain ⟨low, x, rfl⟩ := (List.eq_nil_or_concat' l).resolve_left hne
  by_cases hlow : low = []
  · subst hlow
    have hlast : LastLimb s [] x (chain first rest [x] f) := by
      refine ⟨[], false, (first x f).1, rfl, rfl, hfirst x f, ?_⟩
      have hnil : value ([] : List (BitVec w)) = 0 := rfl
      simp [exactResult, hnil]
    exact LastLimb.chainLaw hw hs hlast
  · have hbelow := Column.chain_exact (C := column w s) (P := fun _ => True)
      (fun p f _ => by
        have := (hfirst p f).1.exact
        exact_mod_cast this)
      (fun p f _ => by
        have := (hrest p f).1.exact
        exact_mod_cast this) hlow (fun _ _ => trivial) f
    obtain ⟨hfst, hsnd⟩ := column_value s low
    rw [hfst, hsnd] at hbelow
    rw [chain_concat hlow]
    refine LastLimb.chainLaw hw hs ⟨(chain first rest low f).1,
      (chain first rest low f).2.contains CF,
      _, length_chain .., rfl, hrest x _, ?_⟩
    refine Eq.trans ?_ hbelow
    rw [mul_left_comm, pow_mul]
    push_cast [column]
    rfl

/-- Chains of any number of limbs of any width add and subtract exactly. -/
theorem carry_chains_exact (hw : 4 < w) {l : List (BitVec w × BitVec w)}
    (hne : l ≠ []) (f : RFlags) :
    ChainLaw 1 l (addChain l f) ∧ ChainLaw (-1) l (subChain l f) :=
  ⟨chainLaw_of_limbs hw one_ne_zero (fun p f => Alu.add_limb hw p.1 p.2 f)
      (fun p f => Alu.adc_limb hw p.1 p.2 f) hne f,
    chainLaw_of_limbs hw (by decide) (fun p f => Alu.sub_limb hw p.1 p.2 f)
      (fun p f => Alu.sbb_limb hw p.1 p.2 f) hne f⟩

/-- A carry that meets 0xFF and wraps to zero, and the borrow back. -/
theorem carry_chains_exact_wrapping :
    ChainLaw 1 [(0xFF#8, 0x01#8), (0x00#8, 0xFF#8), (0x7F#8, 0x00#8)]
        (addChain [(0xFF#8, 0x01#8), (0x00#8, 0xFF#8), (0x7F#8, 0x00#8)] ⟨0x2⟩)
      ∧ ChainLaw (-1) [(0xFF#8, 0x01#8), (0x00#8, 0xFF#8), (0x7F#8, 0x00#8)]
        (subChain [(0xFF#8, 0x01#8), (0x00#8, 0xFF#8), (0x7F#8, 0x00#8)] ⟨0x2⟩)
      ∧ (addChain [(0xFF#8, 0x01#8), (0x00#8, 0xFF#8), (0x7F#8, 0x00#8)]
        ⟨0x2⟩).1 = [0x00, 0x00, 0x80] :=
  have h := carry_chains_exact (show 4 < 8 by decide)
    (l := [(0xFF#8, 0x01#8), (0x00#8, 0xFF#8), (0x7F#8, 0x00#8)])
      (by decide) ⟨0x2⟩
  ⟨h.1, h.2, by decide⟩

end Remu.X64
