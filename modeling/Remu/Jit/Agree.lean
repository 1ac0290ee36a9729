/-
Where host and interpreter agree on the flags.

The interpreters compute a flag from the bits of operands and result and
write it to its place in the flags register; the host's are about numbers
that leave their range. Both are made comparable here, for words of any
width: what a register reads after flags have been put one by one, and the
bit formulas of the adders, of INC, DEC and IMUL as the host has them.
-/
import Remu.Jit.Plan
import Remu.Lib.Quotient

namespace Remu.Jit

variable {w : Nat}

-- ======== writing the register

/-- A flag put into the word and read back. -/
theorem flagsOf_put (b m : U32) (v : Bool) (φ : Status) :
    flagsOf (Flag.put b m v) φ = if m.getLsbD φ.pos then v
      else flagsOf b φ := by
  have hφ := φ.pos_lt
  cases v with
  | true =>
    rw [flagsOf, Flag.put, if_pos rfl, BitVec.getLsbD_or, flagsOf]
    cases m.getLsbD φ.pos <;> simp
  | false =>
    rw [flagsOf, Flag.put, if_neg Bool.false_ne_true, BitVec.getLsbD_and,
      BitVec.getLsbD_not, flagsOf, decide_eq_true hφ]
    cases m.getLsbD φ.pos <;> simp

/-- Nothing but status flags. -/
theorem other_put {m : U32} (hm : m &&& ~~~ALL = 0) (b : U32) (v : Bool) :
    Flag.put b m v &&& ~~~ALL = b &&& ~~~ALL := by
  refine BitVec.eq_of_getLsbD_eq fun i hi => ?_
  have hbit := congrArg (·.getLsbD i) hm
  simp only [BitVec.getLsbD_and, BitVec.getLsbD_not, decide_eq_true hi,
    Bool.true_and] at hbit
  cases v with
  | true =>
    rw [Flag.put, if_pos rfl, BitVec.getLsbD_and, BitVec.getLsbD_and,
      BitVec.getLsbD_or, BitVec.getLsbD_not]
    cases hA : ALL.getLsbD i <;> simp_all
  | false =>
    rw [Flag.put, if_neg Bool.false_ne_true, BitVec.getLsbD_and,
      BitVec.getLsbD_and, BitVec.getLsbD_and, BitVec.getLsbD_not,
      BitVec.getLsbD_not]
    cases hA : ALL.getLsbD i <;> simp_all

/-- Write SF, ZF and PF of a result. -/
def putSzp (b : U32) (r : BitVec w) : U32 :=
  Flag.put (Flag.put (Flag.put b SF r.msb) ZF (r == 0)) PF (parity r)

/-- The flags of a result, read back. -/
theorem flagsOf_putSzp (b : U32) (r : BitVec w) :
    flagsOf (putSzp b r) = szpFlags r (flagsOf b) := by
  funext φ
  rw [putSzp, flagsOf_put, flagsOf_put, flagsOf_put]
  cases φ <;> rfl

/-- The flags of a result touch no other bit. -/
theorem other_putSzp (b : U32) (r : BitVec w) :
    putSzp b r &&& ~~~ALL = b &&& ~~~ALL := by
  rw [putSzp, other_put rfl, other_put rfl, other_put rfl]

/-- Write the six flags of a sum or a difference. -/
def putArith (b : U32) (cf af ovf : Bool) (r : BitVec w) : U32 :=
  putSzp (Flag.put (Flag.put (Flag.put b CF cf) AF af) OF ovf) r

/-- The flags of a sum or a difference, from their bits. -/
def arithFlags (cf af ovf : Bool) (r : BitVec w) : Flags
  | .CF => cf
  | .PF => parity r
  | .AF => af
  | .ZF => r == 0
  | .SF => r.msb
  | .OF => ovf

/-- The flags of an addition or subtraction, read back. -/
theorem flagsOf_putArith (b : U32) (cf af ovf : Bool) (r : BitVec w) :
    flagsOf (putArith b cf af ovf r) = arithFlags cf af ovf r := by
  rw [putArith, flagsOf_putSzp]
  funext φ
  cases φ <;> simp only [szpFlags, arithFlags, flagsOf_put] <;> rfl

theorem other_putArith (b : U32) (cf af ovf : Bool) (r : BitVec w) :
    putArith b cf af ovf r &&& ~~~ALL = b &&& ~~~ALL := by
  rw [putArith, other_putSzp, other_put rfl, other_put rfl, other_put rfl]

-- ======== the adders

/-- The guest's flag formulas against the host's adder. -/
theorem addFlags_eq (hw : 4 < w) (a b : BitVec w) (c : Bool) :
    addFlags a b c = arithFlags (decide (2 ^ w ≤ a.toNat + b.toNat + c.toNat))
      ((a ^^^ b ^^^ (a + b + carryWord w c)) &&& 0x10 != 0)
      ((a ^^^ (a + b + carryWord w c)) &&& (b ^^^ (a + b + carryWord w c))).msb
        (a + b + carryWord w c) := by
  have hlimb := limb_add hw a b c
  have haux := hlimb.aux
  have hovf := hlimb.overflow
  funext φ
  cases φ
  case AF =>
    refine Bool.eq_iff_iff.2 (Iff.trans ?_ haux.symm)
    rw [addFlags, decide_eq_true_iff]
    omega
  case OF =>
    refine Bool.eq_iff_iff.2 (Iff.trans ?_ hovf.symm)
    rw [addFlags, Bool.not_eq_true', decide_eq_false_iff_not, one_mul]
  all_goals rfl

/-- The guest's flag formulas against the host's subtracter. -/
theorem subFlags_eq (hw : 4 < w) (a b : BitVec w) (c : Bool) :
    subFlags a b c = arithFlags (decide (a.toNat < b.toNat + c.toNat))
      ((a ^^^ b ^^^ (a - b - carryWord w c)) &&& 0x10 != 0)
      ((a ^^^ b) &&& (a ^^^ (a - b - carryWord w c))).msb
        (a - b - carryWord w c) := by
  have hlimb := limb_sub hw a b c
  have haux := hlimb.aux
  have hovf := hlimb.overflow
  funext φ
  cases φ
  case AF =>
    refine Bool.eq_iff_iff.2 (Iff.trans ?_ haux.symm)
    rw [subFlags, decide_eq_true_iff]
    omega
  case OF =>
    refine Bool.eq_iff_iff.2 (Iff.trans ?_ hovf.symm)
    rw [subFlags, Bool.not_eq_true', decide_eq_false_iff_not, neg_one_mul,
      ← sub_eq_add_neg]
  all_goals rfl

/-- No carry. -/
theorem carryWord_false : carryWord w false = 0 := if_neg Bool.false_ne_true

/-- A word of more than a nibble. -/
theorem pow_facts (hw : 4 < w) :
    2 ^ w = 2 * 2 ^ (w - 1) ∧ 16 ≤ 2 ^ (w - 1) := by
  refine ⟨?_, ?_⟩
  · rw [← pow_succ', Nat.sub_add_cancel (by omega)]
  · have hle : 2 ^ 4 ≤ 2 ^ (w - 1) :=
      Nat.pow_le_pow_right (by decide) (by omega)
    exact hle

/-- The low nibble, as a number. -/
theorem low_nibble (hw : 4 < w) (a : BitVec w) {k : Nat} (hk : k < 16) :
    (a &&& 0xF == BitVec.ofNat w k) = decide (a.toNat % 16 = k) := by
  obtain ⟨hpow, hlarge⟩ := pow_facts hw
  have hmask : (a &&& 0xF).toNat = a.toNat % 16 :=
    Word.toNat_and_mask a 4 (by omega)
  rw [Bool.eq_iff_iff, beq_iff_eq, decide_eq_true_iff, ← BitVec.toNat_inj,
    hmask, BitVec.toNat_ofNat, Nat.mod_eq_of_lt (show k < 2 ^ w by omega)]

/-- One, at any width above four. -/
theorem toNat_one (hw : 4 < w) : (1 : BitVec w).toNat = 1 := by
  obtain ⟨hpow, hlarge⟩ := pow_facts hw
  exact (BitVec.toNat_ofNat _ _).trans
    (Nat.mod_eq_of_lt (show 1 < 2 ^ w by omega))

theorem toInt_one (hw : 4 < w) : (1 : BitVec w).toInt = 1 := by
  obtain ⟨hpow, hlarge⟩ := pow_facts hw
  rw [BitVec.toInt_eq_toNat_cond, toNat_one hw, if_pos (by omega)]
  rfl

theorem toNat_intMin (hw : 4 < w) : (BitVec.intMin w).toNat = 2 ^ (w - 1) := by
  obtain ⟨hpow, hlarge⟩ := pow_facts hw
  rw [BitVec.toNat_intMin, Nat.mod_eq_of_lt (by omega)]

/-- The flags of INC but for CF. -/
theorem incFlags_eq (hw : 4 < w) (a : BitVec w) (f : Flags) :
    keepCarry f (addFlags a 1 false)
      = keepCarry f
        (arithFlags false (a &&& 0xF == 0xF) (a + 1 == BitVec.intMin w)
        (a + 1)) := by
  obtain ⟨hpow, hlarge⟩ := pow_facts hw
  have hone := toNat_one hw
  have hlt := a.isLt
  have hcast : ((2 ^ (w - 1) : Nat) : Int) = 2 ^ (w - 1) := by norm_cast
  have hzero : a + 1 + carryWord w false = a + 1 := by
    rw [carryWord_false]
    exact BitVec.add_zero _
  funext φ
  cases φ
  case AF =>
    show decide _ = (a &&& 0xF == BitVec.ofNat w 15)
    rw [low_nibble hw a (by omega), hone]
    simp only [Bool.toNat_false, decide_eq_decide]
    omega
  case OF =>
    show (!decide _) = (a + 1 == BitVec.intMin w)
    rw [Bool.eq_iff_iff, Bool.not_eq_true', decide_eq_false_iff_not,
      beq_iff_eq, ← BitVec.toNat_inj, toNat_intMin hw, BitVec.toNat_add, hone,
      toInt_one hw, BitVec.toInt_eq_toNat_cond, ← hcast, hpow]
    simp only [Bool.toNat_false, Nat.cast_zero, add_zero]
    have hwrap : (a.toNat + 1) % (2 * 2 ^ (w - 1)) = 2 ^ (w - 1)
      ↔ a.toNat + 1 = 2 ^ (w - 1) := by
      by_cases hlast : a.toNat + 1 = 2 * 2 ^ (w - 1)
      · rw [hlast, Nat.mod_self]
        omega
      · rw [Nat.mod_eq_of_lt (by omega)]
    rw [hwrap]
    split <;> omega
  case PF => exact congrArg parity hzero
  case ZF => exact congrArg (· == 0) hzero
  case SF => exact congrArg BitVec.msb hzero
  case CF => rfl

/-- The flags of DEC but for CF. -/
theorem decFlags_eq (hw : 4 < w) (a : BitVec w) (f : Flags) :
    keepCarry f (subFlags a 1 false)
      = keepCarry f
        (arithFlags false (a &&& 0xF == 0) (a == BitVec.intMin w)
        (a - 1)) := by
  obtain ⟨hpow, hlarge⟩ := pow_facts hw
  have hone := toNat_one hw
  have hlt := a.isLt
  have hcast : ((2 ^ (w - 1) : Nat) : Int) = 2 ^ (w - 1) := by norm_cast
  have hzero : a - 1 - carryWord w false = a - 1 := by
    rw [carryWord_false]
    exact BitVec.sub_zero _
  funext φ
  cases φ
  case AF =>
    show decide _ = (a &&& 0xF == BitVec.ofNat w 0)
    rw [low_nibble hw a (by omega), hone]
    simp only [Bool.toNat_false, decide_eq_decide]
    omega
  case OF =>
    show (!decide _) = (a == BitVec.intMin w)
    rw [Bool.eq_iff_iff, Bool.not_eq_true', decide_eq_false_iff_not,
      beq_iff_eq, ← BitVec.toNat_inj, toNat_intMin hw, toInt_one hw,
      BitVec.toInt_eq_toNat_cond, ← hcast, hpow]
    simp only [Bool.toNat_false, Nat.cast_zero, add_zero]
    split <;> omega
  case PF => exact congrArg parity hzero
  case ZF => exact congrArg (· == 0) hzero
  case SF => exact congrArg BitVec.msb hzero
  case CF => rfl

-- ======== IMUL

/-- The double-width product does not fit exactly when the host says so. -/
theorem product_overflow (hw : 4 < w) (a b : BitVec w) :
    (a.signExtend (w + w) * b.signExtend (w + w)
        != ((a.signExtend (w + w) * b.signExtend (w + w)).setWidth
          w).signExtend (w + w))
      = !decide (-2 ^ (w - 1) ≤ a.toInt * b.toInt
        ∧ a.toInt * b.toInt < 2 ^ (w - 1)) := by
  have hprod : (a.signExtend (w + w) * b.signExtend (w + w)).toInt
    = a.toInt * b.toInt := by
    have hle := BitVec.toInt_mul_toInt_le (x := a) (y := b)
    have hge := BitVec.le_toInt_mul_toInt (x := a) (y := b)
    have hpow : (2 : Int) ^ (w + w) = 4 * 2 ^ (w * 2 - 2) := by
      rw [show w + w = w * 2 - 2 + 2 by omega, pow_add]
      ring
    have hpos : (0 : Int) < 2 ^ (w * 2 - 2) := by positivity
    rw [BitVec.toInt_mul, toInt_signExtend_double, toInt_signExtend_double]
    refine Int.bmod_eq_of_le ?_ ?_
    · push_cast
      omega
    · push_cast
      omega
  have hiff :=
    signExtend_setWidth_iff (a.signExtend (w + w) * b.signExtend (w + w))
  rw [hprod, fits_signed_iff (by omega)] at hiff
  rw [Bool.eq_iff_iff, bne_iff_ne, Bool.not_eq_true',
    decide_eq_false_iff_not, ← hiff]

/-- The low half of a signed product. -/
theorem product_low (a b : BitVec w) :
    (a.signExtend (w + w) * b.signExtend (w + w)).setWidth w = a * b := by
  rw [BitVec.setWidth_mul _ _ (by omega), setWidth_signExtend,
    setWidth_signExtend]

-- ======== the promises

/-- An operation that leaves the flags alone. -/
theorem FlagsDo.none (f : Flags) (v : U32) : FlagsDo {} f f v v := by
  have hnone : ∀ φ : Status, ¬ has 0 φ = true := by
    intro φ
    cases φ <;> decide
  exact ⟨fun φ h => absurd h (hnone φ), fun φ h => absurd h (hnone φ),
    fun φ h => absurd h (hnone φ), fun _ _ => ⟨rfl, rfl⟩, rfl⟩

/-- All six flags. -/
theorem FlagsDo.arith (reads : U32) (f : Flags) (v : U32)
    (cf af ovf : Bool) (r : BitVec w) :
    FlagsDo { exact := ALL, reads := reads } f (arithFlags cf af ovf r) v
      (putArith v cf af ovf r) := by
  refine ⟨fun φ _ => ?_, fun φ h => ?_, fun φ h => ?_, fun φ h => ?_,
    other_putArith ..⟩
  · rw [flagsOf_putArith]
  all_goals
    exact absurd h (by cases φ <;> simp [has, FlagEffect.written, Status.pos])

/-- AND, OR, XOR and TEST. -/
theorem FlagsDo.logic (f u : Flags) (v : U32) (r : BitVec w) :
    FlagsDo { exact := CF ||| OF ||| SF ||| ZF ||| PF, const0 := AF } f
      (logicFlags r u) v
      (putSzp (Flag.put v (CF ||| OF ||| AF) false) r) := by
  have hput : ∀ φ, flagsOf (putSzp (Flag.put v (CF ||| OF ||| AF) false) r) φ
    = arithFlags false false false r φ := by
    intro φ
    rw [flagsOf_putSzp]
    cases φ <;> simp only [szpFlags, arithFlags, flagsOf_put] <;> rfl
  refine ⟨fun φ h => ?_, fun φ h => ?_, fun φ h => ?_, fun φ h => ?_, ?_⟩
  · rw [hput]
    cases φ
    case AF => exact absurd h (by decide)
    all_goals rfl
  · rw [hput]
    cases φ
    case AF => rfl
    all_goals exact absurd h (by decide)
  · exact absurd h (by cases φ <;> decide)
  · exact absurd h (by cases φ <;> decide)
  · rw [other_putSzp, other_put rfl]

/-- INC and DEC. -/
theorem FlagsDo.incDec (f : Flags) (v : U32) (af ovf : Bool) (r : BitVec w) :
    FlagsDo incDecEffect f (keepCarry f (arithFlags false af ovf r)) v
      (putSzp (Flag.put (Flag.put v AF af) OF ovf) r) := by
  have hput : ∀ φ, flagsOf (putSzp (Flag.put (Flag.put v AF af) OF ovf) r) φ
      = keepCarry (flagsOf v) (arithFlags false af ovf r) φ := by
    intro φ
    rw [flagsOf_putSzp]
    cases φ <;> simp only [szpFlags, keepCarry, arithFlags, flagsOf_put] <;> rfl
  refine ⟨fun φ h => ?_, fun φ h => ?_, fun φ h => ?_, fun φ h => ?_, ?_⟩
  · rw [hput]
    cases φ
    case CF => exact absurd h (by decide)
    all_goals rfl
  · exact absurd h (by cases φ <;> decide)
  · exact absurd h (by cases φ <;> decide)
  · rw [hput]
    cases φ
    case CF => exact ⟨rfl, rfl⟩
    all_goals exact absurd h (by decide)
  · rw [other_putSzp, other_put rfl, other_put rfl]

/-- IMUL. -/
theorem FlagsDo.imul (f u : Flags) (v : U32) (a b r : BitVec w) {ovf : Bool}
    (hovf : ovf = !decide (-2 ^ (w - 1) ≤ a.toInt * b.toInt ∧ a.toInt * b.toInt < 2 ^ (w - 1))) :
    FlagsDo imulEffect f (imulFlags a b u) v
      (putSzp (Flag.put (Flag.put (Flag.put v CF ovf) OF ovf) AF false) r) := by
  have hput : ∀ φ,
      flagsOf (putSzp (Flag.put (Flag.put (Flag.put v CF ovf) OF ovf) AF false) r) φ
      = arithFlags ovf false ovf r φ := by
    intro φ
    rw [flagsOf_putSzp]
    cases φ <;> simp only [szpFlags, arithFlags, flagsOf_put] <;> rfl
  refine ⟨fun φ h => ?_, fun φ h => ?_, fun φ h => ?_, fun φ h => ?_, ?_⟩
  · rw [hput, hovf]
    cases φ
    case CF => rfl
    case OF => rfl
    all_goals exact absurd h (by decide)
  · rw [hput]
    cases φ
    case AF => rfl
    all_goals exact absurd h (by decide)
  · exact absurd h (by cases φ <;> decide)
  · exact absurd h (by cases φ <;> decide)
  · rw [other_putSzp, other_put rfl, other_put rfl, other_put rfl]

-- ======== shifts

/-- SHL and SHR: OF is known after a shift by one. -/
theorem FlagsDo.shl_shr {shop : U8} (hs : shop = 4 ∨ shop = 5) {count : U32}
    (hc : count ≠ 0) {f f' : Flags} (v : U32)
    {cf ovf : Bool} (r : BitVec w) (hcf : f' .CF = cf)
    (hof : count = 1 → f' .OF = ovf)
    (hszp : ∀ φ, φ ≠ .CF → φ ≠ .OF → φ ≠ .AF → f' φ = szpFlags r f φ) :
    FlagsDo (shiftEffect shop count) f f' v
      (putSzp (Flag.put (Flag.put (Flag.put v CF cf) OF ovf) AF false) r) := by
  have hput : ∀ φ,
      flagsOf (putSzp (Flag.put (Flag.put (Flag.put v CF cf) OF ovf) AF false) r) φ
      = arithFlags cf false ovf r φ := by
    intro φ
    rw [flagsOf_putSzp]
    cases φ <;> simp only [szpFlags, arithFlags, flagsOf_put] <;> rfl
  rw [shiftEffect, if_neg hc]
  dsimp only
  rw [if_pos hs]
  by_cases hone : count = 1
  · rw [if_pos hone, if_pos hone]
    refine ⟨fun φ h => ?_, fun φ h => ?_, fun φ h => ?_, fun φ h => ?_, ?_⟩
    · rw [hput]
      cases φ
      case CF => exact hcf
      case OF => exact hof hone
      case AF => exact absurd h (by decide)
      all_goals exact hszp _ (by decide) (by decide) (by decide)
    · rw [hput]
      cases φ
      case AF => rfl
      all_goals exact absurd h (by decide)
    · exact absurd h (by cases φ <;> decide)
    · exact absurd h (by cases φ <;> decide)
    · rw [other_putSzp, other_put rfl, other_put rfl, other_put rfl]
  · rw [if_neg hone, if_neg hone]
    refine ⟨fun φ h => ?_, fun φ h => ?_, fun φ h => ?_, fun φ h => ?_, ?_⟩
    · rw [hput]
      cases φ
      case CF => exact hcf
      case OF => exact absurd h (by decide)
      case AF => exact absurd h (by decide)
      all_goals exact hszp _ (by decide) (by decide) (by decide)
    · rw [hput]
      cases φ
      case AF => rfl
      all_goals exact absurd h (by decide)
    · exact absurd h (by cases φ <;> decide)
    · exact absurd h (by cases φ <;> decide)
    · rw [other_putSzp, other_put rfl, other_put rfl, other_put rfl]

/-- SAR clears OF. -/
theorem FlagsDo.sar {count : U32} (hc : count ≠ 0) {f f' : Flags} (v : U32)
    {cf : Bool} (r : BitVec w)
    (hcf : f' .CF = cf)
    (hszp : ∀ φ, φ ≠ .CF → φ ≠ .OF → φ ≠ .AF → f' φ = szpFlags r f φ) :
    FlagsDo (shiftEffect 7 count) f f' v
      (putSzp (Flag.put (Flag.put v CF cf) (OF ||| AF) false) r) := by
  have hput : ∀ φ,
      flagsOf (putSzp (Flag.put (Flag.put v CF cf) (OF ||| AF) false) r) φ
      = arithFlags cf false false r φ := by
    intro φ
    rw [flagsOf_putSzp]
    cases φ <;> simp only [szpFlags, arithFlags, flagsOf_put] <;> rfl
  rw [shiftEffect, if_neg hc]
  dsimp only
  rw [if_neg (by decide), if_pos rfl]
  refine ⟨fun φ h => ?_, fun φ h => ?_, fun φ h => ?_, fun φ h => ?_, ?_⟩
  · rw [hput]
    cases φ
    case CF => exact hcf
    case OF => exact absurd h (by decide)
    case AF => exact absurd h (by decide)
    all_goals exact hszp _ (by decide) (by decide) (by decide)
  · rw [hput]
    cases φ
    case AF => rfl
    case OF => rfl
    all_goals exact absurd h (by decide)
  · exact absurd h (by cases φ <;> decide)
  · exact absurd h (by cases φ <;> decide)
  · rw [other_putSzp, other_put rfl, other_put rfl]

/-- ROL and ROR leave the flags of the result alone. -/
theorem FlagsDo.rotate {shop : U8} (hs : shop = 0 ∨ shop = 1) {count : U32}
    (hc : count ≠ 0) {f f' : Flags} (v : U32)
    {cf ovf : Bool} (hcf : f' .CF = cf) (hof : count = 1 → f' .OF = ovf)
    (hkept : ∀ φ, φ ≠ .CF → φ ≠ .OF → f' φ = f φ) :
    FlagsDo (shiftEffect shop count) f f' v
      (Flag.put (Flag.put v CF cf) OF ovf) := by
  have hput : ∀ φ, flagsOf (Flag.put (Flag.put v CF cf) OF ovf) φ
      = if φ = .OF then ovf else if φ = .CF then cf else flagsOf v φ := by
    intro φ
    rw [flagsOf_put, flagsOf_put]
    cases φ <;> rfl
  have hother : shop ≠ 4 ∧ shop ≠ 5 ∧ shop ≠ 7 := by
    rcases hs with rfl | rfl <;> decide
  rw [shiftEffect, if_neg hc]
  dsimp only
  rw [if_neg (not_or.2 ⟨hother.1, hother.2.1⟩), if_neg hother.2.2, if_pos hs]
  by_cases hone : count = 1
  · rw [if_pos hone, if_pos hone]
    refine ⟨fun φ h => ?_, fun φ h => ?_, fun φ h => ?_, fun φ h => ?_, ?_⟩
    · rw [hput]
      cases φ
      case CF => exact hcf
      case OF => exact hof hone
      all_goals exact absurd h (by decide)
    · exact absurd h (by cases φ <;> decide)
    · exact absurd h (by cases φ <;> decide)
    · rw [hput]
      cases φ
      case CF => exact absurd h (by decide)
      case OF => exact absurd h (by decide)
      all_goals exact ⟨hkept _ (by decide) (by decide), rfl⟩
    · rw [other_put rfl, other_put rfl]
  · rw [if_neg hone, if_neg hone]
    refine ⟨fun φ h => ?_, fun φ h => ?_, fun φ h => ?_, fun φ h => ?_, ?_⟩
    · rw [hput]
      cases φ
      case CF => exact hcf
      all_goals exact absurd h (by decide)
    · exact absurd h (by cases φ <;> decide)
    · exact absurd h (by cases φ <;> decide)
    · rw [hput]
      cases φ
      case CF => exact absurd h (by decide)
      case OF => exact absurd h (by decide)
      all_goals exact ⟨hkept _ (by decide) (by decide), rfl⟩
    · rw [other_put rfl, other_put rfl]

end Remu.Jit
