/-
Reading a status flag back.

A flag holds the last value it was set to, whatever other flags were set
since; the size, zero and parity flags leave the rest alone. With that the
four adders are one limb of exact arithmetic each.
-/
import Remu.Lib.Adders
import Remu.Lib.Fields
import Remu.X32.Alu

namespace Remu.X32

variable {w : Nat}

namespace EFlags

variable (f : EFlags)

theorem set_eq_put (m : U32) (v : Bool) :
    f.set m v = ⟨Flag.put f.bits m v⟩ := by
  cases v <;> rfl

theorem contains_set {m : U32} (hm : m ≠ 0) (v : Bool) :
    (f.set m v).contains m = v := by
  rw [set_eq_put]
  exact Flag.test_put hm f.bits v

theorem contains_set_other {m m' : U32} (hm : m &&& m' = 0) (v : Bool) :
    (f.set m v).contains m' = f.contains m' := by
  rw [set_eq_put]
  exact Flag.test_put_other hm f.bits v

theorem contains_remove_other {m m' : U32} (hm : m &&& m' = 0) :
    (f.remove m).contains m' = f.contains m' :=
  contains_set_other f hm false

theorem contains_insert_other {m m' : U32} (hm : m &&& m' = 0) :
    (f.insert m).contains m' = f.contains m' :=
  contains_set_other f hm true

/-- SF, ZF and PF are all that `setSzp` writes. -/
theorem contains_setSzp {m : U32} (hs : SF &&& m = 0)
    (hz : ZF &&& m = 0) (hp : PF &&& m = 0)
    (v : BitVec w) : (f.setSzp v).contains m = f.contains m := by
  rw [setSzp, contains_set_other _ hp, contains_set_other _ hz,
    contains_set_other _ hs]

theorem contains_SF_setSzp (v : BitVec w) :
    (f.setSzp v).contains SF = v.msb := by
  rw [setSzp, contains_set_other _ rfl, contains_set_other _ rfl,
    contains_set _ (by decide)]

end EFlags

namespace Alu

open EFlags (CF AF SF OF)

/-- What an addition or subtraction leaves in the flags. -/
theorem contains_arith (cf af ovf : Bool) (r : BitVec w) (f : EFlags) :
    (arith cf af ovf r f).2.contains CF = cf
      ∧ (arith cf af ovf r f).2.contains AF = af
      ∧ (arith cf af ovf r f).2.contains OF = ovf
      ∧ (arith cf af ovf r f).2.contains SF = r.msb := by
  refine ⟨?_, ?_, ?_, EFlags.contains_SF_setSzp _ r⟩
  · rw [arith, EFlags.contains_setSzp _ rfl rfl rfl,
      EFlags.contains_set_other _ rfl, EFlags.contains_set_other _ rfl,
      EFlags.contains_set _ (by decide)]
  · rw [arith, EFlags.contains_setSzp _ rfl rfl rfl,
      EFlags.contains_set_other _ rfl, EFlags.contains_set _ (by decide)]
  · rw [arith, EFlags.contains_setSzp _ rfl rfl rfl,
      EFlags.contains_set _ (by decide)]

/-- An operation that returned `p` did one limb of a sum or a difference. -/
def LimbDone (s : Int) (a b : BitVec w) (c : Bool) (p : BitVec w × EFlags) : Prop :=
  Limb s a b c p.1 (p.2.contains CF) (p.2.contains AF) (p.2.contains OF)
    ∧ p.2.contains SF = p.1.msb

theorem limbDone_arith {s : Int} {a b r : BitVec w}
    {c cf af ovf : Bool} (f : EFlags)
    (h : Limb s a b c r cf af ovf) :
    LimbDone s a b c (arith cf af ovf r f) := by
  obtain ⟨hcf, haf, hof, hsf⟩ := contains_arith cf af ovf r f
  refine ⟨?_, hsf⟩
  rw [hcf, haf, hof]
  exact h

theorem adc_limb (hw : 4 < w) (a b : BitVec w) (f : EFlags) :
    LimbDone 1 a b (f.contains CF) (adc a b f) := by
  have h := limb_add hw a b (f.contains CF)
  rw [← toNat_carryWord (by omega : 0 < w)] at h
  exact limbDone_arith f h

theorem sbb_limb (hw : 4 < w) (a b : BitVec w) (f : EFlags) :
    LimbDone (-1) a b (f.contains CF) (sbb a b f) := by
  have h := limb_sub hw a b (f.contains CF)
  rw [← toNat_carryWord (by omega : 0 < w)] at h
  exact limbDone_arith f h

/-- Without a carry coming in, ADD is ADC. -/
theorem add_limb (hw : 4 < w) (a b : BitVec w) (f : EFlags) :
    LimbDone 1 a b false (add a b f) := by
  have h := limb_add hw a b false
  simp only [carryWord, Bool.false_eq_true, if_false, add_zero,
    Bool.toNat_false, ← add_lt_iff] at h
  exact limbDone_arith f h

theorem sub_limb (hw : 4 < w) (a b : BitVec w) (f : EFlags) :
    LimbDone (-1) a b false (sub a b f) := by
  have h := limb_sub hw a b false
  simp only [carryWord, Bool.false_eq_true, if_false, add_zero,
    Bool.toNat_false] at h
  rw [show a - b - 0 = a - b from BitVec.sub_zero _] at h
  exact limbDone_arith f h

end Alu

end Remu.X32
