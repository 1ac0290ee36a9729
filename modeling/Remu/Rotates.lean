/-
Rotation through the carry, in the 64-bit core and in the 32-bit one.

Both rotate the word `CF:value`, which is one bit longer than the operand.
The 64-bit core reduces the count by that length and shifts once; the
32-bit core turns bit by bit for the whole count. Every bit is followed to
where it goes: after the shift at once, and after one turn.
-/
import Remu.Lib.Shifting
import Remu.X32.Flags
import Remu.X64.Flags

namespace Remu

variable {w : Nat}

-- ======== the 64-bit core

namespace X64.Alu

open RFlags (CF OF)

/-- `CF:value`, the word that the rotates through carry turn. -/
def carryAbove (v : BitVec w) (f : RFlags) : BitVec (w + 1) :=
  BitVec.cons (f.contains CF) v

/-- The shifts work on `value:CF`, one turn further. -/
theorem withCarry_eq (hw : 0 < w) (v : BitVec w) (f : RFlags) :
    withCarry v f = ((carryAbove v f).rotateLeft 1).setWidth (2 * w) := by
  apply BitVec.eq_of_getLsbD_eq
  intro i hi
  have hcarry : (carry f : BitVec (2 * w)).getLsbD i
    = (f.contains CF && decide (i = 0)) := by
    unfold carry
    cases f.contains CF <;> simp [show 0 < 2 * w by omega]
  rw [withCarry, BitVec.getLsbD_or, hcarry, BitVec.getLsbD_shiftLeft,
    BitVec.getLsbD_setWidth, BitVec.getLsbD_setWidth, decide_eq_true hi]
  by_cases hin : i < w + 1
  · rw [getLsbD_rotateLeft_one (by omega) _ hin, carryAbove,
      BitVec.getLsbD_cons]
    rcases Nat.eq_zero_or_pos i with rfl | hpos
    · simp
    · simp [hpos.ne', show ¬i < 1 by omega, show i - 1 < 2 * w by omega,
        show i - 1 ≠ w by omega]
  · rw [BitVec.getLsbD_of_ge _ i (by omega),
      BitVec.getLsbD_of_ge v _ (by omega), decide_eq_false (by omega : i ≠ 0)]
    simp

theorem carryMask_eq (hw : 0 < w) :
    carryMask w = BitVec.ofNat (2 * w) (2 ^ (w + 1) - 1) := by
  rw [← BitVec.ofNat_sub_ofNat_of_le _ _ (Nat.one_lt_two_pow (by omega))
    Nat.one_le_two_pow, ← Nat.one_shiftLeft]
  rfl

/-- The result and the carry are taken out of the turned word one turn back. -/
theorem cons_rotated (hw : 0 < w) (y : BitVec (w + 1)) :
    BitVec.cons ((y.setWidth (2 * w)).getLsbD 0)
      ((y.setWidth (2 * w) >>> 1).setWidth w : BitVec w)
      = y.rotateRight 1 := by
  apply BitVec.eq_of_getLsbD_eq
  intro i hi
  rw [getLsbD_rotateRight_one (by omega) y hi, BitVec.getLsbD_cons]
  by_cases htop : i = w
  · rw [if_pos htop, if_pos (by omega), BitVec.getLsbD_setWidth,
      decide_eq_true (by omega), Bool.true_and]
  · rw [if_neg htop, if_neg (by omega), BitVec.getLsbD_setWidth,
      BitVec.getLsbD_ushiftRight, BitVec.getLsbD_setWidth,
      decide_eq_true (by omega), decide_eq_true (by omega), add_comm 1 i,
      Bool.true_and, Bool.true_and]

/-- RCL turns `CF:value` to the left by the count modulo its length. -/
theorem rcl_turns (v : BitVec w) (count : U32) (f : RFlags) :
    carryAbove (rcl v count f).1 (rcl v count f).2
      = turnLeft (shiftCount w count % (w + 1)) (carryAbove v f) := by
  unfold rcl
  by_cases hzero : shiftCount w count % (w + 1) = 0
  · simp only [hzero, if_true, turnLeft_zero]
  · have hn : shiftCount w count % (w + 1) < w + 1 := Nat.mod_lt _ (by omega)
    have hw : 0 < w := by omega
    simp only [hzero, if_false]
    rw [carryAbove, RFlags.contains_set_other _ rfl,
      RFlags.contains_set _ (by decide), withCarry_eq hw, carryMask_eq hw,
      turnLeft_shifts (by omega) (by omega) hn.le, cons_rotated hw,
      turnLeft_rotateLeft, rotateRight_rotateLeft_one (by omega)]

/-- RCR turns it to the right. -/
theorem rcr_turns (v : BitVec w) (count : U32) (f : RFlags) :
    carryAbove (rcr v count f).1 (rcr v count f).2
      = turnRight (shiftCount w count % (w + 1)) (carryAbove v f) := by
  unfold rcr
  by_cases hzero : shiftCount w count % (w + 1) = 0
  · simp only [hzero, if_true, turnRight_zero]
  · have hn : shiftCount w count % (w + 1) < w + 1 := Nat.mod_lt _ (by omega)
    have hw : 0 < w := by omega
    simp only [hzero, if_false]
    generalize shiftCount w count % (w + 1) = n at hn
    have hback : n = w + 1 - (w + 1 - n) := by omega
    have hturn :=
      turnLeft_shifts (m := 2 * w) (n := w + 1 - n) (by omega)
        (by omega) (by omega)
      ((carryAbove v f).rotateLeft 1)
    rw [← hback, BitVec.or_comm,
      ← turnRight_eq_turnLeft (by omega) _ hn.le] at hturn
    rw [carryAbove, RFlags.contains_set _ (by decide), withCarry_eq hw,
      carryMask_eq hw, hturn, cons_rotated hw, ← turnRight_rotateRight,
      rotateRight_rotateLeft_one (by omega)]

theorem rcl_OF (v : BitVec w) {count : U32} (f : RFlags)
    (hn : shiftCount w count % (w + 1) ≠ 0) :
    (rcl v count f).2.contains OF
      = ((rcl v count f).1.msb != (rcl v count f).2.contains CF) := by
  simp only [rcl, hn, if_false]
  rw [RFlags.contains_set _ (by decide), RFlags.contains_set_other _ rfl,
    RFlags.contains_set _ (by decide)]

theorem rcr_OF (v : BitVec w) {count : U32} (f : RFlags)
    (hn : shiftCount w count % (w + 1) ≠ 0) :
    (rcr v count f).2.contains OF = (v.msb != f.contains CF) := by
  simp only [rcr, hn, if_false]
  rw [RFlags.contains_set_other _ rfl, RFlags.contains_set _ (by decide)]

end X64.Alu

-- ======== the 32-bit core

namespace X32.Alu

open EFlags (CF OF)

/-- `CF:value` of the 32-bit core. -/
def carryAbove (v : BitVec w) (f : EFlags) : BitVec (w + 1) :=
  BitVec.cons (f.contains CF) v

theorem rclStep_turns (hw : 0 < w) (p : BitVec w × EFlags) :
    carryAbove (rclStep p).1 (rclStep p).2
      = (carryAbove p.1 p.2).rotateLeft 1 := by
  apply BitVec.eq_of_getLsbD_eq
  intro i hi
  have hcarry : (carry p.2 : BitVec w).getLsbD i
    = (p.2.contains CF && decide (i = 0)) := by
    unfold carry
    cases p.2.contains CF <;> simp [hw]
  rw [getLsbD_rotateLeft_one (by omega) _ hi, carryAbove, carryAbove,
    BitVec.getLsbD_cons, BitVec.getLsbD_cons, rclStep,
    EFlags.contains_set _ (by decide), BitVec.getLsbD_or, hcarry,
    BitVec.getLsbD_shiftLeft, BitVec.msb_eq_getLsbD_last]
  rcases Nat.eq_zero_or_pos i with rfl | hpos
  · simp [hw.ne]
  · by_cases htop : i = w
    · simp [htop, hw.ne', show w - 1 ≠ w by omega]
    · simp [htop, hpos.ne', show i < w by omega, show ¬i < 1 by omega,
        show i - 1 ≠ w by omega]

theorem rcrStep_turns (hw : 0 < w) (p : BitVec w × EFlags) :
    carryAbove (rcrStep p).1 (rcrStep p).2
      = (carryAbove p.1 p.2).rotateRight 1 := by
  apply BitVec.eq_of_getLsbD_eq
  intro i hi
  have hcarry : ∀ k, (carry p.2 : BitVec w).getLsbD k
    = (p.2.contains CF && decide (k = 0)) := by
    intro k
    unfold carry
    cases p.2.contains CF <;> simp [hw]
  rw [getLsbD_rotateRight_one (by omega) _ hi, carryAbove, carryAbove,
    BitVec.getLsbD_cons, BitVec.getLsbD_cons, rcrStep,
    EFlags.contains_set _ (by decide), BitVec.getLsbD_or,
    BitVec.getLsbD_shiftLeft, BitVec.getLsbD_ushiftRight, hcarry]
  by_cases htop : i = w
  · simp [htop, hw.ne]
  · by_cases hnext : i + 1 = w
    · subst hnext
      simp [add_comm]
    · simp [htop, hnext, add_comm, show i < w by omega,
        show i < w - 1 by omega]

/-- Repeated steps turn as often. -/
theorem stepTimes_turns {step : BitVec w × EFlags → BitVec w × EFlags}
    (turn : BitVec (w + 1) → BitVec (w + 1))
    (hstep : ∀ p, carryAbove (step p).1 (step p).2 = turn (carryAbove p.1 p.2))
    (n : Nat) (p : BitVec w × EFlags) :
    carryAbove (stepTimes step n p).1 (stepTimes step n p).2
      = turn^[n] (carryAbove p.1 p.2) := by
  induction n generalizing p with
  | zero => rfl
  | succ n ih => rw [stepTimes, ih, hstep, Function.iterate_succ_apply]

/-- RCL turns by the whole count. -/
theorem rcl_turns (hw : 0 < w) (v : BitVec w) (count : U32) (f : EFlags) :
    carryAbove (rcl v count f).1 (rcl v count f).2
      = turnLeft (shiftCount count) (carryAbove v f) := by
  have hturns :=
    stepTimes_turns (·.rotateLeft 1) (rclStep_turns hw)
      (shiftCount count) (v, f)
  unfold rcl
  by_cases hzero : shiftCount count = 0
  · simp only [hzero, if_true, turnLeft_zero]
  · simp only [hzero, if_false]
    rw [carryAbove, EFlags.contains_set_other _ rfl]
    exact hturns

theorem rcr_turns (hw : 0 < w) (v : BitVec w) (count : U32) (f : EFlags) :
    carryAbove (rcr v count f).1 (rcr v count f).2
      = turnRight (shiftCount count) (carryAbove v f) :=
  stepTimes_turns (·.rotateRight 1) (rcrStep_turns hw)
    (shiftCount count) (v, f)

theorem rcl_OF (v : BitVec w) {count : U32} (f : EFlags)
    (hn : shiftCount count ≠ 0) :
    (rcl v count f).2.contains OF
      = ((rcl v count f).1.msb != (rcl v count f).2.contains CF) := by
  simp only [rcl, hn, if_false]
  rw [EFlags.contains_set _ (by decide), EFlags.contains_set_other _ rfl]

/-- The overflow of a single step to the right is that of the value before it. -/
theorem rcr_OF (v : BitVec w) {count : U32} (f : EFlags)
    (hn : shiftCount count = 1) :
    (rcr v count f).2.contains OF = (v.msb != f.contains CF) := by
  rw [rcr, hn, stepTimes, stepTimes, rcrStep, EFlags.contains_set_other _ rfl,
    EFlags.contains_set _ (by decide)]

end X32.Alu

-- ======== agreement

/-- The same value and carry, and after a single-bit rotation the same
overflow. -/
def Agrees (count : U32) (p : BitVec w × X64.RFlags)
    (q : BitVec w × X32.EFlags) : Prop :=
  q.1 = p.1 ∧ q.2.contains X32.EFlags.CF = p.2.contains X64.RFlags.CF
    ∧ (X32.Alu.shiftCount count = 1 →
      q.2.contains X32.EFlags.OF = p.2.contains X64.RFlags.OF)

theorem cons_inj {b c : Bool} {v u : BitVec w}
    (h : BitVec.cons b v = BitVec.cons c u) : b = c ∧ v = u :=
  ⟨by simpa using congrArg BitVec.msb h, by
    simpa using congrArg (BitVec.setWidth w) h⟩

theorem shiftCount_eq (hw : w ≠ 64) (count : U32) :
    X64.Alu.shiftCount w count = X32.Alu.shiftCount count := by
  rw [X64.Alu.shiftCount, if_neg hw, X32.Alu.shiftCount]

/-- One turn is no whole round. -/
theorem shiftCount_one (hw : w = 8 ∨ w = 16 ∨ w = 32) {count : U32}
    (hone : X32.Alu.shiftCount count = 1) :
    X64.Alu.shiftCount w count % (w + 1) ≠ 0 := by
  rw [shiftCount_eq (by omega), hone, Nat.mod_eq_of_lt (by omega)]
  exact one_ne_zero

theorem carryAbove_eq (v : BitVec w) {f : X64.RFlags} {e : X32.EFlags}
    (h : e.contains X32.EFlags.CF = f.contains X64.RFlags.CF) :
    X32.Alu.carryAbove v e = X64.Alu.carryAbove v f := by
  rw [X32.Alu.carryAbove, X64.Alu.carryAbove, h]

section Agreement

variable (hw : w = 8 ∨ w = 16 ∨ w = 32) (v : BitVec w) (count : U32)
  {f : X64.RFlags} {e : X32.EFlags}
  (h : e.contains X32.EFlags.CF = f.contains X64.RFlags.CF)

include hw h

theorem rcl_agrees :
    Agrees count (X64.Alu.rcl v count f) (X32.Alu.rcl v count e) := by
  have hturned :
      X32.Alu.carryAbove (X32.Alu.rcl v count e).1 (X32.Alu.rcl v count e).2
      = X64.Alu.carryAbove (X64.Alu.rcl v count f).1
        (X64.Alu.rcl v count f).2 := by
    rw [X32.Alu.rcl_turns (by omega), X64.Alu.rcl_turns,
      shiftCount_eq (by omega), turnLeft_mod (by omega), carryAbove_eq v h]
  obtain ⟨hcf, hv⟩ := cons_inj hturned
  refine ⟨hv, hcf, ?_⟩
  intro hone
  rw [X32.Alu.rcl_OF v e (by omega),
    X64.Alu.rcl_OF v f (shiftCount_one hw hone), hv, hcf]

theorem rcr_agrees :
    Agrees count (X64.Alu.rcr v count f) (X32.Alu.rcr v count e) := by
  have hturned :
      X32.Alu.carryAbove (X32.Alu.rcr v count e).1 (X32.Alu.rcr v count e).2
      = X64.Alu.carryAbove (X64.Alu.rcr v count f).1
        (X64.Alu.rcr v count f).2 := by
    rw [X32.Alu.rcr_turns (by omega), X64.Alu.rcr_turns,
      shiftCount_eq (by omega), turnRight_mod (by omega), carryAbove_eq v h]
  obtain ⟨hcf, hv⟩ := cons_inj hturned
  refine ⟨hv, hcf, ?_⟩
  intro hone
  rw [X32.Alu.rcr_OF v e hone, X64.Alu.rcr_OF v f (shiftCount_one hw hone), h]

end Agreement

/-- The 64-bit core turns `CF:value` by the count modulo its length, and
the 32-bit core does the same. -/
theorem carry_rotates_turn (v : BitVec w) (count : U32) (f : X64.RFlags) :
    X64.Alu.carryAbove (X64.Alu.rcl v count f).1 (X64.Alu.rcl v count f).2
        = turnLeft (X64.Alu.shiftCount w count % (w + 1))
          (X64.Alu.carryAbove v f)
      ∧ X64.Alu.carryAbove (X64.Alu.rcr v count f).1 (X64.Alu.rcr v count f).2
        = turnRight (X64.Alu.shiftCount w count % (w + 1))
          (X64.Alu.carryAbove v f)
      ∧ (w = 8 ∨ w = 16 ∨ w = 32 → ∀ e : X32.EFlags,
        e.contains X32.EFlags.CF = f.contains X64.RFlags.CF →
        Agrees count (X64.Alu.rcl v count f) (X32.Alu.rcl v count e)
          ∧ Agrees count (X64.Alu.rcr v count f) (X32.Alu.rcr v count e)) :=
  ⟨X64.Alu.rcl_turns v count f, X64.Alu.rcr_turns v count f,
    fun hw _ h => ⟨rcl_agrees hw v count h, rcr_agrees hw v count h⟩⟩

/-- A whole round of nine, and one turn more. -/
theorem carry_rotates_turn_round :
    Agrees 9 (X64.Alu.rcl 0x80#8 9 ⟨0x803⟩) (X32.Alu.rcl 0x80#8 9 ⟨0x3⟩)
      ∧ Agrees 10 (X64.Alu.rcl 0x80#8 10 ⟨0x803⟩) (X32.Alu.rcl 0x80#8 10 ⟨0x3⟩)
      ∧ (X64.Alu.rcl 0x80#8 9 ⟨0x803⟩).1 = 0x80
      ∧ (X64.Alu.rcl 0x80#8 10 ⟨0x803⟩).1 = 0x01 :=
  have h := fun count =>
    ((carry_rotates_turn 0x80#8 count ⟨0x803⟩).2.2 (.inl rfl)
    ⟨0x3⟩ (by decide)).1
  ⟨h 9, h 10, by decide, by decide⟩

end Remu
