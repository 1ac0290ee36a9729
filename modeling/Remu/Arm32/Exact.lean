/-
The barrel shifter and the adder against exact arithmetic.

A shift is what an encoding asks for, with an amount that may be any number
(`Shift`); it gives an integer, of which the word is the low part, and
another one, whose parity is the carry. A sum or a difference is exact as
an unsigned and as a signed number, and the flags say how these numbers
relate to the word. SUB and its kin run on the adder with an operand
complemented, so that their carry says that nothing was borrowed
(`shifter_adder_exact`).
-/
import Remu.Arm32.Banking
import Remu.Lib.Adders
import Remu.Lib.Shifting

namespace Remu.Arm32

-- ======== the shifts

/-- The four shift types. -/
inductive ShiftKind
  | lsl
  | lsr
  | asr
  | ror

/-- What the shifter is asked to do. -/
inductive Shift
  | lsl (n : Nat)
  | lsr (n : Nat)
  | asr (n : Nat)
  | ror (n : Nat)
  | rrx

namespace ShiftKind

/-- Their encoding. -/
def bits : ShiftKind → U8
  | lsl => shift.LSL
  | lsr => shift.LSR
  | asr => shift.ASR
  | ror => shift.ROR

/-- By an immediate amount: zero means 32 to the right, and the rotate through
the carry. -/
def byImmediate : ShiftKind → Nat → Shift
  | lsl, n => .lsl n
  | lsr, n => .lsr (if n = 0 then 32 else n)
  | asr, n => .asr (if n = 0 then 32 else n)
  | ror, n => if n = 0 then .rrx else .ror n

/-- By an amount in a register, taken as it is. -/
def byRegister : ShiftKind → Nat → Shift
  | lsl => .lsl
  | lsr => .lsr
  | asr => .asr
  | ror => .ror

end ShiftKind

namespace Shift

/-- A shift by nothing passes the value and the carry through. -/
def isNothing : Shift → Bool
  | lsl n => n = 0
  | lsr n => n = 0
  | asr n => n = 0
  | ror n => n = 0
  | rrx => false

/-- The exact number that a shift gives. -/
def number : Shift → U32 → Bool → Int
  | lsl n, v, _ => v.toNat * 2 ^ n
  | lsr n, v, _ => v.toNat / 2 ^ n
  | asr n, v, _ => v.toInt / 2 ^ n
  | ror n, v, _ =>
    v.toNat / 2 ^ (n % 32) + v.toNat % 2 ^ (n % 32) * 2 ^ (32 - n % 32)
  | rrx, v, c => (v.toNat + 2 ^ 32 * c.toNat) / 2

/-- The number whose last bit is the carry: of a rotate the top of its
result, of the others what was shifted out. -/
def shiftedOut : Shift → U32 → Bool → Int
  | lsl n, v, _ => v.toNat * 2 ^ n / 2 ^ 32
  | lsr n, v, _ => v.toNat / 2 ^ (n - 1)
  | asr n, v, _ => v.toInt / 2 ^ (n - 1)
  | ror n, v, c => (ror n).number v c / 2 ^ 31
  | rrx, v, _ => v.toNat

/-- Result and carry of a shift. -/
def outcome (s : Shift) (v : U32) (c : Bool) : U32 × Bool :=
  if s.isNothing then (v, c)
    else (BitVec.ofInt 32 (s.number v c), decide (s.shiftedOut v c % 2 = 1))

end Shift

-- ======== the shifter

variable (v : U32) (c : Bool)

/-- A test of one bit. -/
theorem bit_ne_zero {m : Nat} (hm : m < 32) :
    (v &&& (1 <<< m) != 0) = v.getLsbD m := by
  rw [Word.natCast_one_shiftLeft]
  exact Word.and_twoPow_ne_zero v hm

/-- The sign. -/
theorem top_ne_zero : (v >>> 31 != 0) = v.msb := by
  have htop : v >>> 31 ≠ 0 ↔ 2 ^ (32 - 1) ≤ v.toNat := by
    have hlt := v.isLt
    rw [ne_eq, ← BitVec.toNat_inj, BitVec.toNat_ushiftRight,
      Nat.shiftRight_eq_div_pow, show (0 : U32).toNat = 0 from rfl]
    omega
  rw [BitVec.msb_eq_decide, Bool.eq_iff_iff, bne_iff_ne, decide_eq_true_iff]
  exact htop

/-- What each shift gives: the result and the last bit out, past the width
too. -/
theorem outcome_lsl {n : Nat} (hn : n ≠ 0) : (Shift.lsl n).outcome v c
    = (v <<< n, if n ≤ 32 then v.getLsbD (32 - n) else false) := by
  have hcarry : decide ((Shift.lsl n).shiftedOut v c % 2 = 1) = if n ≤ 32
    then v.getLsbD (32 - n) else false := by
    split
    case isTrue hle => exact Word.shiftedOut_left v hle
    case isFalse hgt =>
      exact Word.shiftedOut_left_past v (Nat.lt_of_not_le hgt)
  rw [Shift.outcome, Shift.isNothing, decide_eq_false hn,
    if_neg Bool.false_ne_true, hcarry, Word.shiftLeft_eq_ofInt v n]
  rfl

theorem outcome_lsr {n : Nat} (hn : n ≠ 0) :
    (Shift.lsr n).outcome v c = (v >>> n, v.getLsbD (n - 1)) := by
  rw [Shift.outcome, Shift.isNothing, decide_eq_false hn,
    if_neg Bool.false_ne_true, Word.getLsbD_eq_div,
    Word.ushiftRight_eq_ofInt v n]
  rfl

theorem outcome_asr {n : Nat} (hn : n ≠ 0) : (Shift.asr n).outcome v c
    = (v.sshiftRight n, if n ≤ 32 then v.getLsbD (n - 1) else v.msb) := by
  have hcarry : decide ((Shift.asr n).shiftedOut v c % 2 = 1) = if n ≤ 32
    then v.getLsbD (n - 1) else v.msb := by
    rw [Shift.shiftedOut, Word.toInt_div_bit (by decide)]
    exact if_congr (by omega) rfl rfl
  rw [Shift.outcome, Shift.isNothing, decide_eq_false hn,
    if_neg Bool.false_ne_true, hcarry, Word.sshiftRight_eq_ofInt v n]
  rfl

/-- A rotate by a whole number of words leaves the value alone. -/
theorem outcome_ror {n : Nat} (hn : n ≠ 0) : (Shift.ror n).outcome v c
    = (v.rotateRight (n % 32), (v.rotateRight (n % 32)).msb) := by
  have hnumber : (Shift.ror n).number v c = (v.rotateRight (n % 32)).toNat :=
    (Word.toNat_rotateRight v (Nat.mod_lt n (by decide))).symm
  have hcarry : decide ((Shift.ror n).shiftedOut v c % 2 = 1)
    = (v.rotateRight (n % 32)).msb := by
    rw [BitVec.msb_eq_getLsbD_last, Word.getLsbD_eq_div, ← hnumber]
    rfl
  rw [Shift.outcome, Shift.isNothing, decide_eq_false hn,
    if_neg Bool.false_ne_true, hnumber, hcarry, BitVec.ofInt_natCast,
    BitVec.ofNat_toNat, BitVec.setWidth_eq]

/-- A rotate by nothing. -/
theorem rotateRight_nothing : v.rotateRight 0 = v := by
  apply BitVec.eq_of_toNat_eq
  have hnat := Word.toNat_rotateRight v (show 0 < 32 by decide)
  rw [pow_zero, Int.ediv_one, Int.emod_one, Int.zero_mul, Int.add_zero] at hnat
  exact Int.ofNat_inj.1 hnat

/-- The last bit rotated out is the top of the result. -/
theorem msb_rotateRight {r : Nat} (hr : r ≠ 0) (hlt : r < 32) :
    (v.rotateRight r).msb = v.getLsbD (r - 1) := by
  rw [BitVec.msb_eq_getLsbD_last, BitVec.getLsbD_rotateRight,
    Nat.mod_eq_of_lt hlt, decide_eq_false (by omega), cond_false,
    decide_eq_true (by decide), Bool.true_and,
    show 32 - 1 - (32 - r) = r - 1 by omega]

/-- Rotate right through the carry. -/
theorem outcome_rrx : Shift.rrx.outcome v c
    = ((v >>> 1) ||| ((BitVec.ofBool c).setWidth 32 <<< 31), v.getLsbD 0) := by
  have hcarry : decide (Shift.rrx.shiftedOut v c % 2 = 1) = v.getLsbD 0 := by
    rw [Word.getLsbD_eq_div, pow_zero, Int.ediv_one]
    rfl
  have hbit : ((BitVec.ofBool c).setWidth 32 <<< 31 : U32).toNat
    = c.toNat <<< 31 := by cases c <;> rfl
  have hlow : (v >>> 1).toNat = v.toNat / 2 := by
    rw [BitVec.toNat_ushiftRight, Nat.shiftRight_eq_div_pow, Nat.pow_one]
  have hword : BitVec.ofInt 32 (Shift.rrx.number v c)
    = (v >>> 1) ||| ((BitVec.ofBool c).setWidth 32 <<< 31) := by
    have hlt := v.isLt
    have hc := Bool.toNat_le c
    apply BitVec.eq_of_toNat_eq
    rw [BitVec.toNat_or, hbit, hlow, Nat.or_comm,
      ← Nat.shiftLeft_add_eq_or_of_lt (by omega), BitVec.toNat_ofInt,
      Shift.number, Nat.shiftLeft_eq]
    omega
  rw [Shift.outcome, Shift.isNothing, if_neg Bool.false_ne_true, hcarry, hword]

-- The two entries of the shifter.

/-- A shift by an immediate, where zero stands for 32 or for RRX. -/
theorem shiftImm_exact (k : ShiftKind) (imm : BitVec 5) :
    shiftImm k.bits (imm.setWidth 8) v c
      = (k.byImmediate imm.toNat).outcome v c := by
  have hlt := imm.isLt
  have hn : (imm.setWidth 8).toNat = imm.toNat := by
    rw [BitVec.toNat_setWidth, Nat.mod_eq_of_lt (by omega)]
  unfold shiftImm
  dsimp only
  rw [hn]
  by_cases h : imm.toNat = 0
  · rw [h]
    cases k with
    | lsl => rfl
    | lsr =>
      rw [ShiftKind.bits, if_neg (by decide), if_pos rfl, if_pos rfl,
        top_ne_zero, BitVec.msb_eq_getLsbD_last, ShiftKind.byImmediate,
        if_pos rfl, outcome_lsr v c (by decide),
        BitVec.ushiftRight_eq_zero (by decide)]
      rfl
    | asr =>
      rw [ShiftKind.bits, if_neg (by decide), if_neg (by decide), if_pos rfl,
        if_pos rfl, top_ne_zero, BitVec.msb_eq_getLsbD_last,
        ShiftKind.byImmediate, if_pos rfl, outcome_asr v c (by decide),
        Word.sshiftRight_eq_sign v (show 32 ≤ 31 + 1 by decide)
        (show 32 ≤ 32 + 1 by decide), if_pos (by decide)]
    | ror =>
      rw [ShiftKind.bits, if_neg (by decide), if_neg (by decide),
        if_neg (by decide), if_pos ⟨rfl, rfl⟩, ShiftKind.byImmediate,
        if_pos rfl, outcome_rrx, ← bit_ne_zero v (by decide)]
      rfl
  · cases k with
    | lsl =>
      rw [ShiftKind.bits, if_pos rfl, if_neg h, bit_ne_zero v (by omega),
        ShiftKind.byImmediate, outcome_lsl v c h, if_pos (by omega)]
    | lsr =>
      rw [ShiftKind.bits, if_neg (by decide), if_pos rfl, if_neg h, bitBelow,
        bit_ne_zero v (by omega), ShiftKind.byImmediate, if_neg h,
        outcome_lsr v c h]
    | asr =>
      rw [ShiftKind.bits, if_neg (by decide), if_neg (by decide), if_pos rfl,
        if_neg h, bitBelow, bit_ne_zero v (by omega), ShiftKind.byImmediate,
        if_neg h, outcome_asr v c h, if_pos (by omega)]
    | ror =>
      rw [ShiftKind.bits, if_neg (by decide), if_neg (by decide),
        if_neg (by decide), if_neg (fun hz => h hz.2), bitBelow,
        bit_ne_zero v (by omega), ShiftKind.byImmediate, if_neg h,
        outcome_ror v c h, Nat.mod_eq_of_lt hlt, msb_rotateRight v h hlt]

/-- A shift by a register, its low byte. -/
theorem shiftReg_exact (k : ShiftKind) (amount : U8) :
    shiftReg k.bits amount v c = (k.byRegister amount.toNat).outcome v c := by
  have hodd : (v &&& 1 != 0) = v.getLsbD 0 :=
    bit_ne_zero v (show 0 < 32 by decide)
  unfold shiftReg
  dsimp only
  by_cases h : amount.toNat = 0
  · rw [if_pos h, h]
    cases k <;> rfl
  rw [if_neg h]
  cases k with
  | lsl =>
    rw [ShiftKind.bits, if_pos rfl, ShiftKind.byRegister,
      outcome_lsl v c h, hodd]
    rcases Nat.lt_trichotomy amount.toNat 32 with hlt | heq | hgt
    · rw [if_pos (by omega), bit_ne_zero v (by omega), if_pos (by omega)]
    · rw [if_neg (by omega), if_pos heq, if_pos (by omega),
        BitVec.shiftLeft_eq_zero (by omega), heq]
      rfl
    · rw [if_neg (by omega), if_neg (by omega), if_neg (by omega),
        BitVec.shiftLeft_eq_zero (by omega)]
      rfl
  | lsr =>
    rw [ShiftKind.bits, if_neg (by decide), if_pos rfl, ShiftKind.byRegister,
      outcome_lsr v c h, top_ne_zero, BitVec.msb_eq_getLsbD_last]
    rcases Nat.lt_trichotomy amount.toNat 32 with hlt | heq | hgt
    · rw [if_pos (by omega), bitBelow, bit_ne_zero v (by omega)]
    · rw [if_neg (by omega), if_pos heq, BitVec.ushiftRight_eq_zero (by omega), heq]
      rfl
    · rw [if_neg (by omega), if_neg (by omega),
        BitVec.ushiftRight_eq_zero (by omega),
        BitVec.getLsbD_of_ge v _ (by omega)]
      rfl
  | asr =>
    rw [ShiftKind.bits, if_neg (by decide), if_neg (by decide), if_pos rfl,
      ShiftKind.byRegister, outcome_asr v c h, top_ne_zero]
    rcases Nat.lt_trichotomy amount.toNat 32 with hlt | heq | hgt
    · rw [if_pos (by omega), bitBelow, bit_ne_zero v (by omega),
        if_pos (by omega)]
    · rw [if_neg (by omega), if_pos (by omega), heq,
        BitVec.msb_eq_getLsbD_last,
        Word.sshiftRight_eq_sign v (show 32 ≤ 31 + 1 by decide)
        (show 32 ≤ 32 + 1 by decide)]
    · rw [if_neg (by omega), if_neg (by omega),
        Word.sshiftRight_eq_sign v (show 32 ≤ 31 + 1 by decide)
        (show 32 ≤ amount.toNat + 1 by omega)]
  | ror =>
    rw [ShiftKind.bits, if_neg (by decide), if_neg (by decide),
      if_neg (by decide), ShiftKind.byRegister, outcome_ror v c h, top_ne_zero]
    have hlt : amount.toNat % 32 < 32 := Nat.mod_lt _ (by decide)
    by_cases hr : amount.toNat % 32 = 0
    · rw [if_pos hr, hr, rotateRight_nothing]
    · rw [if_neg hr, bitBelow, bit_ne_zero v (by omega),
        msb_rotateRight v hr hlt]

-- ======== the adder

/-- What the adder gives, of the exact unsigned number `u` and the exact
signed number `s`. A difference carries where nothing is borrowed. -/
structure ExactSum (difference : Bool) (u s : Int) (o : U32 × Bool × Bool) :
    Prop where
  result : (o.1.toNat : Int) = u % 2 ^ 32
  carry : o.2.1 = true ↔ if difference then 0 ≤ u else 2 ^ 32 ≤ u
  overflow : o.2.2 = true ↔ ¬(-2 ^ 31 ≤ s ∧ s < 2 ^ 31)

/-- The adder against the exact sums. -/
theorem addWithCarry_exact (a b : U32) (c : Bool) :
    ExactSum false (a.toNat + b.toNat + c.toNat) (a.toInt + b.toInt + c.toNat)
      (addWithCarry a b c) := by
  have hc := Bool.toNat_le c
  have ha := a.isLt
  have hb := b.isLt
  have hlimb := limb_add (show 4 < 32 by decide) a b c
  have hk : ((BitVec.ofBool c).setWidth 32).toNat = c.toNat := by
    cases c <;> rfl
  have hcarry :
      (BitVec.uaddOverflow a b || BitVec.uaddOverflow (a + b)
      ((BitVec.ofBool c).setWidth 32)) = true
      ↔ 2 ^ 32 ≤ a.toNat + b.toNat + c.toNat := by
    rw [Bool.or_eq_true, BitVec.uaddOverflow, BitVec.uaddOverflow,
      decide_eq_true_iff, decide_eq_true_iff, hk, BitVec.toNat_add]
    omega
  rw [carryWord_eq] at hlimb
  refine ⟨?_, ?_, ?_⟩
  · show ((a + b + (BitVec.ofBool c).setWidth 32).toNat : Int) = _
    rw [BitVec.toNat_add, BitVec.toNat_add, hk]
    omega
  · rw [if_neg Bool.false_ne_true]
    exact hcarry.trans (by omega)
  · unfold addWithCarry
    dsimp only
    rw [top_ne_zero, hlimb.overflow, one_mul, add_assoc]

/-- The subtracter, which borrows where C is clear. -/
theorem subWithCarry_exact (a b : U32) (c : Bool) :
    ExactSum true (a.toNat - b.toNat - (!c).toNat)
      (a.toInt - b.toInt - (!c).toNat) (subWithCarry a b c) := by
  have hb := b.isLt
  have hnot : (~~~b).toNat = 2 ^ 32 - 1 - b.toNat := BitVec.toNat_not
  have hsigned : (~~~b).toInt = -b.toInt - 1 := by
    rw [toInt_eq_toNat_sub, toInt_eq_toNat_sub b, BitVec.msb_not, hnot,
      decide_eq_true (by decide), Bool.true_and]
    cases b.msb <;> simp <;> omega
  have hborrow : (c.toNat : Int) = 1 - (!c).toNat := by cases c <;> rfl
  have hsum := addWithCarry_exact a (~~~b) c
  refine ⟨hsum.result.trans ?_, hsum.carry.trans ?_, hsum.overflow.trans ?_⟩
  · omega
  · rw [if_neg Bool.false_ne_true, if_pos rfl]
    omega
  · rw [hsigned]
    omega

-- ======== the flags

/-- The operations that set the flags by the adder. -/
inductive ArithOp
  | add
  | adc
  | sub
  | sbc
  | rsb
  | rsc
  | cmp
  | cmn

namespace ArithOp

def bits : ArithOp → U8
  | add => aluOp.ADD
  | adc => aluOp.ADC
  | sub => aluOp.SUB
  | sbc => aluOp.SBC
  | rsb => aluOp.RSB
  | rsc => aluOp.RSC
  | cmp => aluOp.CMP
  | cmn => aluOp.CMN

/-- The exact number; a clear carry is one more to subtract. -/
def exact (x y : Int) (c : Bool) : ArithOp → Int
  | add => x + y
  | cmn => x + y
  | adc => x + y + c.toNat
  | sub => x - y
  | cmp => x - y
  | sbc => x - y - (!c).toNat
  | rsb => y - x
  | rsc => y - x - (!c).toNat

/-- Whether an operation subtracts. -/
def subtracts : ArithOp → Bool
  | add => false
  | adc => false
  | cmn => false
  | _ => true

end ArithOp

/-- Each arithmetic operation is an exact sum or difference. -/
theorem aluResult_exact (op : ArithOp) (x y : U32) (sc c v : Bool) :
    ExactSum op.subtracts (op.exact x.toNat y.toNat c)
      (op.exact x.toInt y.toInt c) (Core.aluResult op.bits x y sc c v).1 := by
  have hadd := addWithCarry_exact x y false
  have hsub := subWithCarry_exact x y true
  have hrsb := subWithCarry_exact y x true
  rw [Bool.toNat_false, Nat.cast_zero, add_zero, add_zero] at hadd
  rw [Bool.not_true, Bool.toNat_false, Nat.cast_zero, sub_zero,
    sub_zero] at hsub hrsb
  cases op with
  | add => exact hadd
  | cmn => exact hadd
  | adc => exact addWithCarry_exact x y c
  | sub => exact hsub
  | cmp => exact hsub
  | sbc => exact subWithCarry_exact x y c
  | rsb => exact hrsb
  | rsc => exact subWithCarry_exact y x c

/-- The flags say what the exact arithmetic says. -/
structure ExactFlags (op : ArithOp) (x y : U32) (c : Bool) (p : Psr) :
    Prop where
  negative : p.n = true ↔ 2 ^ 31 ≤ op.exact x.toNat y.toNat c % 2 ^ 32
  zero : p.z = true ↔ op.exact x.toNat y.toNat c % 2 ^ 32 = 0
  carry : p.c = true
    ↔ if op.subtracts then 0 ≤ op.exact x.toNat y.toNat c
      else 2 ^ 32 ≤ op.exact x.toNat y.toNat c
  overflow : p.v = true
    ↔ ¬(-2 ^ 31 ≤ op.exact x.toInt y.toInt c
      ∧ op.exact x.toInt y.toInt c < 2 ^ 31)

/-- A flag that is written, and the bits beside it. -/
theorem Psr.getLsbD_set (p : Psr) {k i : Nat} (hk : k < 32)
    (hi : i < 32) (on : Bool) :
    (p.set (BitVec.twoPow 32 k) on).bits.getLsbD i = if i = k then on
      else p.bits.getLsbD i := by
  have hbit : (BitVec.twoPow 32 k).getLsbD i = decide (i = k) := by
    rw [BitVec.getLsbD_twoPow, decide_eq_true hk, Bool.true_and,
      decide_eq_decide]
    exact eq_comm
  cases on with
  | true =>
    rw [Psr.set, if_pos rfl, BitVec.getLsbD_or, hbit]
    split
    case isTrue h => rw [decide_eq_true h, Bool.or_true]
    case isFalse h => rw [decide_eq_false h, Bool.or_false]
  | false =>
    rw [Psr.set, if_neg Bool.false_ne_true, BitVec.getLsbD_and,
      BitVec.getLsbD_not, hbit, decide_eq_true hi, Bool.true_and]
    split
    case isTrue h => rw [decide_eq_true h, Bool.not_true, Bool.and_false]
    case isFalse h => rw [decide_eq_false h, Bool.not_false, Bool.and_true]

/-- The flags by their positions. -/
theorem Psr.n_eq (p : Psr) : p.n = p.bits.getLsbD 31 :=
  Word.and_twoPow_ne_zero p.bits (show 31 < 32 by decide)
theorem Psr.z_eq (p : Psr) : p.z = p.bits.getLsbD 30 :=
  Word.and_twoPow_ne_zero p.bits (show 30 < 32 by decide)
theorem Psr.c_eq (p : Psr) : p.c = p.bits.getLsbD 29 :=
  Word.and_twoPow_ne_zero p.bits (show 29 < 32 by decide)
theorem Psr.v_eq (p : Psr) : p.v = p.bits.getLsbD 28 :=
  Word.and_twoPow_ne_zero p.bits (show 28 < 32 by decide)

/-- N and Z follow the result. -/
theorem Psr.n_setNz (p : Psr) (r : U32) : (p.setNz r).n = r.msb := by
  have hz : (if r = 0 then psr.Z else 0).getLsbD 31 = false := by split <;> rfl
  rw [Psr.n_eq, BitVec.msb_eq_getLsbD_last, Psr.setNz, BitVec.getLsbD_or, hz,
    BitVec.getLsbD_or, BitVec.getLsbD_and, BitVec.getLsbD_and]
  simp [psr.N, psr.Z]

theorem Psr.z_setNz (p : Psr) (r : U32) : (p.setNz r).z = decide (r = 0) := by
  have hz : (if r = 0 then psr.Z else 0).getLsbD 30 = decide (r = 0) := by
    split
    case isTrue h => rw [decide_eq_true h]; rfl
    case isFalse h => rw [decide_eq_false h]; rfl
  rw [Psr.z_eq, Psr.setNz, BitVec.getLsbD_or, hz, BitVec.getLsbD_or,
    BitVec.getLsbD_and, BitVec.getLsbD_and]
  simp [psr.N, psr.Z]

/-- The plain flag write of an arithmetic operation. -/
theorem flags_setDpFlags (core : Core) (op : ArithOp) (r : U32)
    (carry overflow : Bool) :
    let p := (core.setDpFlags op.bits r carry overflow).regs.cpsr
    p.n = r.msb ∧ p.z = decide (r = 0) ∧ p.c = carry ∧ p.v = overflow := by
  have hplain : Core.isLogical op.bits = false := by cases op <;> decide
  have hpsr : (core.setDpFlags op.bits r carry overflow).regs.cpsr
      = ((core.regs.cpsr.setNz r).set (BitVec.twoPow 32 29) carry).set
        (BitVec.twoPow 32 28) overflow := by
    rw [Core.setDpFlags, hplain]
    rfl
  intro p
  rw [show p = _ from hpsr]
  refine ⟨?_, ?_, ?_, ?_⟩
  · rw [Psr.n_eq, Psr.getLsbD_set _ (by decide) (by decide),
      if_neg (by decide), Psr.getLsbD_set _ (by decide) (by decide),
      if_neg (by decide), ← Psr.n_eq, Psr.n_setNz]
  · rw [Psr.z_eq, Psr.getLsbD_set _ (by decide) (by decide),
      if_neg (by decide), Psr.getLsbD_set _ (by decide) (by decide),
      if_neg (by decide), ← Psr.z_eq, Psr.z_setNz]
  · rw [Psr.c_eq, Psr.getLsbD_set _ (by decide) (by decide),
      if_neg (by decide), Psr.getLsbD_set _ (by decide) (by decide),
      if_pos rfl]
  · rw [Psr.v_eq, Psr.getLsbD_set _ (by decide) (by decide), if_pos rfl]

/-- From an exact sum all four flags are exact. -/
theorem exactFlags_of_sum {op : ArithOp} {x y : U32} {c : Bool}
    {o : U32 × Bool × Bool}
    (h : ExactSum op.subtracts (op.exact x.toNat y.toNat c)
      (op.exact x.toInt y.toInt c) o) (core : Core) :
    ExactFlags op x y c
      (core.setDpFlags op.bits o.1 o.2.1 o.2.2).regs.cpsr := by
  obtain ⟨hn, hz, hc, hv⟩ := flags_setDpFlags core op o.1 o.2.1 o.2.2
  refine ⟨?_, ?_, ?_, ?_⟩
  · rw [hn, BitVec.msb_eq_decide, decide_eq_true_iff, ← h.result]
    omega
  · rw [hz, decide_eq_true_iff, ← h.result, ← BitVec.toNat_inj,
      show (0 : U32).toNat = 0 from rfl]
    omega
  · rw [hc]
    exact h.carry
  · rw [hv]
    exact h.overflow

-- ======== the instructions

variable (d : DecodedInsn) (core : Core)

/-- The first operand. -/
def Core.firstOperand : U32 :=
  if d.op = .dpShReg then core.regOp12 d.rn else core.regOp d.rn

/-- The forms that bring the saved status back: S and the PC as the
destination, in a mode with an SPSR. -/
def Core.Restores : Prop :=
  d.rd = 15 ∧ d.aux &&& dp.S ≠ 0 ∧ core.regs.cpsr.mode.hasSpsr = true

/-- Result flags do not change the mode. -/
theorem Psr.mode_setNz (p : Psr) (r : U32) : (p.setNz r).mode = p.mode := by
  have hz : (if r = 0 then psr.Z else 0) &&& 0x1F = 0 := by split <;> rfl
  have hbits : (p.setNz r).bits &&& 0x1F = p.bits &&& 0x1F := by
    rw [Psr.setNz, BitVec.and_or_distrib_right, hz,
      BitVec.and_or_distrib_right, BitVec.and_assoc, BitVec.and_assoc,
      show ~~~(psr.N ||| psr.Z) &&& 0x1F
      = 0x1F by
        decide, show psr.N &&& 0x1F = 0#32 by
          decide, BitVec.and_zero, BitVec.or_zero]
    exact BitVec.or_zero
  rw [Psr.mode, Mode.fromBits, hbits]
  rfl

theorem mode_setDpFlags (opn : U8) (r : U32) (carry v : Bool) :
    (core.setDpFlags opn r carry v).regs.cpsr.mode = core.regs.cpsr.mode := by
  have hcarry :
    ((core.regs.cpsr.setNz r).set psr.C carry).mode = core.regs.cpsr.mode := by
    rw [Psr.mode_set _ _ (by decide), Psr.mode_setNz]
  show (if Core.isLogical opn then _ else _ : Psr).mode = _
  split
  · exact hcarry
  · rw [Psr.mode_set _ _ (by decide), hcarry]

/-- An S form that writes the PC loads the SPSR instead. -/
theorem Core.cpsr_restoreCpsr {b : Fin 5}
    (h : core.regs.cpsr.mode.bank = some b) :
    core.restoreCpsr.regs.cpsr = core.regs.spsr b := by
  rw [Core.restoreCpsr, Registers.spsrBanked, h]
  rfl

/-- Flags that were written before are overwritten. -/
theorem Core.cpsr_restoreCpsr_setDpFlags {b : Fin 5}
    (h : core.regs.cpsr.mode.bank = some b) (opn : U8) (r : U32)
    (carry v : Bool) : (core.setDpFlags opn r carry v).restoreCpsr.regs.cpsr
      = core.regs.spsr b := by
  rw [Core.cpsr_restoreCpsr
    _ ((congrArg Mode.bank (mode_setDpFlags core opn r carry v)).trans h)]
  rfl

/-- A mode with an SPSR has its bank. -/
theorem Mode.bank_of_hasSpsr {m : Mode} (h : m.hasSpsr = true) :
    ∃ b, m.bank = some b := by
  cases m with
  | usr => cases h
  | sys => cases h
  | fiq => exact ⟨0, rfl⟩
  | svc => exact ⟨1, rfl⟩
  | abt => exact ⟨2, rfl⟩
  | irq => exact ⟨3, rfl⟩
  | und => exact ⟨4, rfl⟩

/-- The status register after a data operation. -/
theorem cpsr_execDp :
    let o := (Core.aluResult (d.aux &&& dp.OP) (core.firstOperand d)
      (core.operand2 d).1 (core.operand2 d).2
      core.regs.cpsr.c core.regs.cpsr.v).1
    (d.aux &&& dp.S = 0 → (core.execDp d).2.regs.cpsr = core.regs.cpsr)
      ∧ (core.Restores d → (core.execDp d).2.regs.cpsr = ⟨core.regs.spsrBits⟩)
      ∧ (d.aux &&& dp.S ≠ 0 → ¬core.Restores d →
        (core.execDp d).2.regs.cpsr
          = (core.setDpFlags (d.aux &&& dp.OP) o.1 o.2.1
          o.2.2).regs.cpsr) := by
  intro o
  have hwrite : ∀ (c : Core) (w : Bool) (k r : U32), (if w then
      if d.rd = 15 then (k + 2, c.branchTo r) else (k, c.setGpr d.rd r)
        else (k, c)).2.regs.cpsr = c.regs.cpsr := by
    intro c w k r
    split
    · split <;> rfl
    · rfl
  have hboth : ∀ b, core.regs.cpsr.mode.bank = some b → ∀ (w : Bool) (opn : U8)
      (r : U32) (carry v : Bool),
      (if w then core.setDpFlags opn r carry v else core).restoreCpsr.regs.cpsr
        = core.regs.spsr b := by
    intro b hb w opn r carry v
    split
    · exact core.cpsr_restoreCpsr_setDpFlags hb opn r carry v
    · exact core.cpsr_restoreCpsr hb
  unfold Core.execDp
  dsimp only
  rw [hwrite]
  refine ⟨fun hs => ?_, fun hret => ?_, fun hs hret => ?_⟩
  · rw [hs, bne_self_eq_false, Bool.and_false, Bool.false_and, Bool.false_and,
      if_neg Bool.false_ne_true, if_neg Bool.false_ne_true]
  · obtain ⟨hrd, hs, hmode⟩ := hret
    obtain ⟨b, hb⟩ := Mode.bank_of_hasSpsr hmode
    rw [hrd, bne_iff_ne.2 hs, hmode, beq_self_eq_true, Bool.true_and,
      Bool.true_and, if_pos rfl, Registers.spsrBits, hb]
    exact hboth b hb _ _ _ _ _
  · have hno : (d.rd == 15 && d.aux &&& dp.S
      != 0 && core.regs.cpsr.mode.hasSpsr) = false := by
      rw [Bool.eq_false_iff, ne_eq, Bool.and_eq_true, Bool.and_eq_true,
        beq_iff_eq, bne_iff_ne]
      exact fun h => hret ⟨h.1.1, h.1.2, h.2⟩
    rw [hno, Bool.false_and, Bool.not_false, Bool.and_true, bne_iff_ne.2 hs,
      if_neg Bool.false_ne_true, if_pos rfl]
    rfl

/-- For every operand, kind and amount the shifter gives what the encoding
asks for, the adder gives the exact sum or difference, and every arithmetic
operation that writes the flags writes what the exact arithmetic says; those
that write none, or bring the saved status back, do just that. -/
theorem shifter_adder_exact :
    (∀ (k : ShiftKind) (imm : BitVec 5) (v : U32) (c : Bool),
        shiftImm k.bits (imm.setWidth 8) v c
          = (k.byImmediate imm.toNat).outcome v c)
      ∧ (∀ (k : ShiftKind) (amount : U8) (v : U32) (c : Bool),
        shiftReg k.bits amount v c = (k.byRegister amount.toNat).outcome v c)
      ∧ (∀ (a b : U32) (c : Bool),
        ExactSum false (a.toNat + b.toNat + c.toNat)
          (a.toInt + b.toInt + c.toNat) (addWithCarry a b c))
      ∧ ∀ (op : ArithOp) (d : DecodedInsn) (core : Core),
        d.aux &&& dp.OP = op.bits →
        (d.aux &&& dp.S = 0 → (core.execDp d).2.regs.cpsr = core.regs.cpsr)
        ∧ (core.Restores d →
          (core.execDp d).2.regs.cpsr = ⟨core.regs.spsrBits⟩)
        ∧ (d.aux &&& dp.S ≠ 0 → ¬core.Restores d →
          ExactFlags op (core.firstOperand d) (core.operand2 d).1
          core.regs.cpsr.c (core.execDp d).2.regs.cpsr) := by
  refine ⟨fun k imm v c => shiftImm_exact v c k imm,
    fun k amount v c => shiftReg_exact v c k amount,
    addWithCarry_exact, fun op d core hop => ?_⟩
  obtain ⟨hkept, hrestored, hset⟩ := cpsr_execDp d core
  refine ⟨hkept, hrestored, fun hs hret => ?_⟩
  rw [hset hs hret, hop]
  exact exactFlags_of_sum (aluResult_exact op _ _ _ _ _) core

/-- CMP R1, R2. -/
def cmpInsn : DecodedInsn :=
  ⟨.dpShImm, 14, 0, 1, 2, 0, aluOp.CMP ||| dp.S, 4, 0⟩

/-- A core whose registers hold their numbers. -/
def numbered : Core :=
  { Cpu.new.toCore with regs := { Registers.new with gpr := fun i => BitVec.ofNat 32 i } }

/-- One less two borrows; a rotate by an immediate zero goes through the carry. -/
theorem shifter_adder_exact_cmp :
    shiftImm shift.ROR 0 1 true = (0x80000000, true)
      ∧ ExactFlags .cmp 1 2 false (numbered.execDp cmpInsn).2.regs.cpsr :=
  ⟨(shifter_adder_exact.1 .ror 0 1 true).trans (by decide),
    (shifter_adder_exact.2.2.2 .cmp cmpInsn numbered rfl).2.2 (by decide)
      fun h => absurd h.1 (by decide)⟩

end Remu.Arm32
