/-
IDIV of the 32-bit core against the division law.

The divider works on magnitudes, in a loop whose remainder register has no
bit to spare. When the dividend's magnitude is less than the divisor's
shifted up by the width, the loop is a restoring division all along
(`Restored`): the register is shorter than the divisor at every turn, and
nothing is shifted out of it. The signs and the tests of the quotient then
make the truncated quotient and remainder, or #DE when no word holds the
quotient. Beyond that bound the register may lose a bit, and no law is
stated.
-/
import Remu.Lib.Fields
import Remu.Lib.Quotient
import Remu.Lib.Restoring
import Remu.X32.Reading

namespace Remu.X32

-- ======== the divider

namespace HotRegs

variable {w : Nat}

/-- The bound on the dividend. -/
def Divisible (D : BitVec (w + w)) (v : BitVec w) : Prop :=
  D.toInt.natAbs < 2 ^ w * v.toInt.natAbs

/-- The quotient and the remainder register after `k` turns of the loop. -/
def idivTurns (D : BitVec (w + w)) (v : BitVec w) (k : Nat) :
    BitVec w × BitVec w :=
  restoringTurns (D.abs.setWidth w) v.abs w k (0, (D.abs >>> w).setWidth w)

theorem idivLoop_succ (lo d : BitVec w) (i : Nat) (s : BitVec w × BitVec w) :
    idivLoop lo d (i + 1) s.1 s.2
      = idivLoop lo d i (restoringTurn lo d i s).1
        (restoringTurn lo d i s).2 := by
  rw [idivLoop, restoringTurn, Word.natCast_one_shiftLeft]
  show (if d ≤ broughtDown lo s.2 i then _ else _) = _
  by_cases h : d ≤ broughtDown lo s.2 i
  · rw [if_pos h, if_pos h]
    rfl
  · rw [if_neg h, if_neg h]
    rfl

/-- The loop goes through the states of its turns. -/
theorem idivLoop_turns (lo d : BitVec w) {n k : Nat} (hk : k ≤ n)
    (s : BitVec w × BitVec w) :
    idivLoop lo d n s.1 s.2
      = idivLoop lo d (n - k) (restoringTurns lo d n k s).1
        (restoringTurns lo d n k s).2 := by
  induction k with
  | zero => rfl
  | succ k ih =>
    rw [ih (by omega), show n - k = n - (k + 1) + 1 by omega, idivLoop_succ]
    rfl

theorem idivLossy_eq (D : BitVec (w + w)) (v : BitVec w) :
    idivLossy D.abs v.abs = idivTurns D v w := by
  have h := idivLoop_turns (D.abs.setWidth w) v.abs (Nat.le_refl w)
    (0, (D.abs >>> w).setWidth w)
  rw [Nat.sub_self] at h
  exact h

theorem toNat_abs_le (v : BitVec w) : v.abs.toNat ≤ 2 ^ (w - 1) := by
  have hle := BitVec.le_toInt v
  have hlt := BitVec.toInt_lt (x := v)
  have hcast : ((2 ^ (w - 1) : Nat) : Int) = 2 ^ (w - 1) := by norm_cast
  rw [← natAbs_toInt]
  omega

variable {D : BitVec (w + w)} {v : BitVec w}

/-- The loop starts as a restoring division with all bits to come. -/
theorem restored_start (h : Divisible D v) :
    Restored D.abs.toNat w v.abs (0, (D.abs >>> w).setWidth w) := by
  have hhi : ((D.abs >>> w).setWidth w).toNat = D.abs.toNat / 2 ^ w := by
    have hlt := D.abs.isLt
    rw [BitVec.toNat_setWidth, BitVec.toNat_ushiftRight,
      Nat.shiftRight_eq_div_pow]
    refine Nat.mod_eq_of_lt (Nat.div_lt_of_lt_mul ?_)
    rwa [← Nat.pow_add]
  refine ⟨0, rfl, ?_, ?_⟩
  · rw [Nat.zero_mul, Nat.zero_add]
    exact hhi
  · show ((D.abs >>> w).setWidth w).toNat < v.abs.toNat
    rw [Divisible, natAbs_toInt, natAbs_toInt] at h
    rw [hhi]
    exact Nat.div_lt_of_lt_mul h

/-- The invariant of the loop. -/
theorem restored_turns (h : Divisible D v) {k : Nat} (hk : k ≤ w) :
    Restored D.abs.toNat (w - k) v.abs (idivTurns D v k) := by
  refine (restored_start h).turns (toNat_abs_le v) (Nat.le_refl w) ?_ hk
  intro i hi
  rw [BitVec.getLsbD_setWidth, decide_eq_true hi, Bool.true_and]
  rfl

/-- No turn shifts a bit out of the remainder register. -/
theorem idivTurns_lossless (h : Divisible D v) {k : Nat} (hk : k ≤ w) :
    (idivTurns D v k).2.msb = false :=
  (restored_turns h hk).msb_eq_false (toNat_abs_le v)

/-- The loop divides the magnitudes. -/
theorem toNat_idivLossy (h : Divisible D v) :
    (idivLossy D.abs v.abs).1.toNat = D.abs.toNat / v.abs.toNat
      ∧ (idivLossy D.abs v.abs).2.toNat = D.abs.toNat % v.abs.toNat := by
  have hdone := restored_turns h (Nat.le_refl w)
  rw [Nat.sub_self] at hdone
  rw [idivLossy_eq]
  exact hdone.eq_div_mod

theorem sdivide_zero (D : BitVec (w + w)) :
    sdivide D (0 : BitVec w) = none := by
  rw [sdivide, if_pos rfl]

/-- The smallest dividend is past the bound. -/
theorem Divisible.ne_intMin (hw : 0 < w) (h : Divisible D v) :
    D ≠ BitVec.intMin (w + w) := by
  rintro rfl
  have hle := toNat_abs_le v
  have hpow : 2 ^ (w + w - 1) = 2 ^ w * 2 ^ (w - 1) := by
    rw [← Nat.pow_add]
    congr 1
    omega
  rw [Divisible, natAbs_toInt, natAbs_toInt, BitVec.abs_intMin,
    BitVec.toNat_intMin_of_pos (by omega), hpow] at h
  exact absurd (Nat.lt_of_mul_lt_mul_left h) (Nat.not_lt.2 hle)

/-- The test of the quotient is exact on either side. -/
theorem quotient_refused_iff (hw : 0 < w) (neg : Bool) (q : BitVec w) :
    (if neg then BitVec.intMin w < q else BitVec.intMin w ≤ q)
      ↔ ¬ Fits true w (signed neg q.toNat) := by
  have hmin := BitVec.toNat_intMin_of_pos hw
  rw [fits_signed_magnitude hw, ← hmin]
  cases neg with
  | true =>
    rw [if_pos rfl, if_pos rfl, BitVec.lt_def]
    exact Nat.not_le.symm
  | false =>
    rw [if_neg Bool.false_ne_true, if_neg Bool.false_ne_true, BitVec.le_def]
    exact Nat.not_lt.symm

/-- The word-level division is refused exactly when no word holds the
quotient, and else gives the truncated quotient and remainder. -/
theorem sdivide_spec (hw : 0 < w) (hv : v ≠ 0) (h : Divisible D v) :
    match sdivide D v with
    | none => ¬ Fits true w (D.toInt.tdiv v.toInt)
    | some p =>
      p.1.toInt = D.toInt.tdiv v.toInt ∧ p.2.toInt = D.toInt.tmod v.toInt := by
  obtain ⟨hq, hr⟩ := toNat_idivLossy h
  rw [sdivide, if_neg hv, if_neg (h.ne_intMin hw), toInt_eq_signed D,
    toInt_eq_signed v, tdiv_signed, tmod_signed, ← hq, ← hr]
  have hrem : Fits true w (signed D.msb (idivLossy D.abs v.abs).2.toNat) := by
    have hshort : (idivLossy D.abs v.abs).2.toNat < 2 ^ (w - 1) := by
      rw [hr]
      refine Nat.lt_of_lt_of_le (Nat.mod_lt _ ?_) (toNat_abs_le v)
      rw [← natAbs_toInt, Int.natAbs_pos]
      exact fun h0 => hv ((reading_eq_zero_iff (b := true)).1 h0)
    rw [fits_signed_magnitude hw]
    split
    · exact hshort.le
    · exact hshort
  have hrefuse :=
    quotient_refused_iff hw (D.msb != v.msb) (idivLossy D.abs v.abs).1
  dsimp only
  cases hneg : D.msb != v.msb with
  | true =>
    rw [hneg, if_pos rfl] at hrefuse
    rw [if_pos rfl]
    by_cases hbig : BitVec.intMin w < (idivLossy D.abs v.abs).1
    · rw [if_pos hbig]
      exact hrefuse.1 hbig
    · rw [if_neg hbig]
      exact ⟨toInt_signed (not_not.1 (mt hrefuse.2 hbig)), toInt_signed hrem⟩
  | false =>
    rw [hneg, if_neg Bool.false_ne_true] at hrefuse
    rw [if_neg Bool.false_ne_true]
    by_cases hbig : BitVec.intMin w ≤ (idivLossy D.abs v.abs).1
    · rw [if_pos hbig]
      exact hrefuse.1 hbig
    · rw [if_neg hbig]
      exact ⟨toInt_signed (n := false) (not_not.1 (mt hrefuse.2 hbig)),
        toInt_signed hrem⟩

theorem Divisible.ne_zero (h : Divisible D v) : v ≠ 0 := by
  rintro rfl
  rw [Divisible, BitVec.ofNat_eq_ofNat, BitVec.toInt_zero, Int.natAbs_zero,
    Nat.mul_zero] at h
  exact absurd h (Nat.not_lt_zero _)

-- ======== stores

theorem gpr_setReg32_other (r : HotRegs) {i j : U8} (v : U32)
    (hj : j ≠ i &&& 7) :
    (r.setReg32 i v).gpr j = r.gpr j := upd_other _ _ hj

theorem gpr_setReg16_other (r : HotRegs) {i j : U8} (v : U16)
    (hj : j ≠ i &&& 7) :
    (r.setReg16 i v).gpr j = r.gpr j := upd_other _ _ hj

theorem gpr_setReg8_other (r : HotRegs) {i j : U8} (v : U8)
    (hj : j ≠ i &&& 3) :
    (r.setReg8 i v).gpr j = r.gpr j := upd_other _ _ hj

/-- A 16-bit store keeps the upper half. -/
theorem getLsbD_setReg16 (r : HotRegs) (i : U8) (v : U16)
    {b : Nat} (hb : b < 32) :
    ((r.setReg16 i v).gpr (i &&& 7)).getLsbD b
      = if b < 16 then v.getLsbD b else (r.gpr (i &&& 7)).getLsbD b := by
  have hmask : (0xFFFF0000 : U32) = ~~~Word.fieldMask 32 0 16 := by decide
  have h := Word.getLsbD_insert (r.gpr (i &&& 7)) v 0 hb
  rw [← hmask, BitVec.shiftLeft_zero] at h
  show (upd r.gpr (i &&& 7) _ (i &&& 7)).getLsbD b = _
  rw [upd_same, h]
  simp

/-- AL is stored. -/
theorem getLsbD_setReg8_low (r : HotRegs) (v : U8) {b : Nat} (hb : b < 32) :
    ((r.setReg8 0 v).gpr 0).getLsbD b = if b < 8 then v.getLsbD b
      else (r.gpr 0).getLsbD b := by
  have hmask : (0xFF : U32) = Word.fieldMask 32 0 8 := by decide
  have h := Word.getLsbD_insert (r.gpr 0) v 0 hb
  rw [← hmask, BitVec.shiftLeft_zero] at h
  refine Eq.trans h ?_
  simp

/-- AH is stored. -/
theorem getLsbD_setReg8_high (r : HotRegs) (v : U8) {b : Nat} (hb : b < 32) :
    ((r.setReg8 4 v).gpr 0).getLsbD b
      = if 8 ≤ b ∧ b < 16 then v.getLsbD (b - 8) else (r.gpr 0).getLsbD b := by
  have hmask : (0xFF00 : U32) = Word.fieldMask 32 8 8 := by decide
  have h := Word.getLsbD_insert (r.gpr 0) v 8 hb
  rw [← hmask] at h
  exact h

end HotRegs

-- ======== widths

/-- The operand widths of a division. -/
inductive Width where
  | byte
  | word
  | dword
deriving DecidableEq, Repr

namespace Width

abbrev bits : Width → Nat
  | byte => 8
  | word => 16
  | dword => 32

def ofSize (wide : Bool) : Width := if wide then dword else word

theorem bits_pos (z : Width) : 0 < z.bits := by
  cases z <;> decide

/-- AX, DX:AX or EDX:EAX. -/
def dividend : (z : Width) → HotRegs → BitVec (z.bits + z.bits)
  | byte, r => r.reg16 reg.EAX
  | word, r => r.reg16 reg.EDX ++ r.reg16 reg.EAX
  | dword, r => r.reg32 reg.EDX ++ r.reg32 reg.EAX

/-- AL, AX or EAX. -/
def quotient : (z : Width) → HotRegs → BitVec z.bits
  | byte, r => (r.gpr reg.EAX).setWidth 8
  | word, r => (r.gpr reg.EAX).setWidth 16
  | dword, r => r.gpr reg.EAX

/-- AH, DX or EDX. -/
def remainder : (z : Width) → HotRegs → BitVec z.bits
  | byte, r => (r.gpr reg.EAX >>> 8).setWidth 8
  | word, r => (r.gpr reg.EDX).setWidth 16
  | dword, r => r.gpr reg.EDX

/-- Bit `b` of register `i` belongs to a destination. -/
def Writes : Width → U8 → Nat → Prop
  | byte, i, b => i = reg.EAX ∧ b < 16
  | word, i, b => (i = reg.EAX ∨ i = reg.EDX) ∧ b < 16
  | dword, i, _ => i = reg.EAX ∨ i = reg.EDX

/-- The store of the quotient and the remainder. -/
def store : (z : Width) → HotRegs → BitVec z.bits × BitVec z.bits → HotRegs
  | byte => HotRegs.setDiv8
  | word => HotRegs.setDiv16
  | dword => HotRegs.setDiv32

theorem quotient_store (z : Width) (r : HotRegs)
    (p : BitVec z.bits × BitVec z.bits) :
    z.quotient (z.store r p) = p.1 := by
  cases z with
  | byte =>
    refine BitVec.eq_of_getLsbD_eq fun b hb => ?_
    have hhigh :=
      HotRegs.getLsbD_setReg8_high (r.setReg8 0 p.1) p.2
        (Nat.lt_trans hb (by decide))
    have hlow :=
      HotRegs.getLsbD_setReg8_low r p.1 (Nat.lt_trans hb (by decide))
    have h8 : ¬ 8 ≤ b := Nat.not_le.2 hb
    rw [quotient, BitVec.getLsbD_setWidth, decide_eq_true hb, Bool.true_and]
    refine hhigh.trans ?_
    rw [if_neg fun h => h8 h.1, hlow, if_pos hb]
  | word =>
    refine BitVec.eq_of_getLsbD_eq fun b hb => ?_
    have hlow := HotRegs.getLsbD_setReg16 r 0 p.1 (Nat.lt_trans hb (by decide))
    rw [quotient, BitVec.getLsbD_setWidth, decide_eq_true hb, Bool.true_and]
    refine Eq.trans ?_ (hlow.trans (if_pos hb))
    rfl
  | dword => rfl

theorem remainder_store (z : Width) (r : HotRegs)
    (p : BitVec z.bits × BitVec z.bits) :
    z.remainder (z.store r p) = p.2 := by
  cases z with
  | byte =>
    refine BitVec.eq_of_getLsbD_eq fun b hb => ?_
    have hhigh := HotRegs.getLsbD_setReg8_high (r.setReg8 0 p.1) p.2
      (show 8 + b
        < 32 by exact Nat.lt_trans (Nat.add_lt_add_left hb 8) (by decide))
    rw [remainder, BitVec.getLsbD_setWidth, decide_eq_true hb, Bool.true_and,
      BitVec.getLsbD_ushiftRight]
    refine hhigh.trans ?_
    rw [if_pos ⟨Nat.le_add_right 8 b, Nat.add_lt_add_left hb 8⟩,
      Nat.add_sub_cancel_left]
  | word =>
    refine BitVec.eq_of_getLsbD_eq fun b hb => ?_
    have hlow :=
      HotRegs.getLsbD_setReg16 (r.setReg16 0 p.1) 2 p.2
        (Nat.lt_trans hb (by decide))
    rw [remainder, BitVec.getLsbD_setWidth, decide_eq_true hb, Bool.true_and]
    exact hlow.trans (if_pos hb)
  | dword => rfl

/-- Every other bit is kept. -/
theorem getLsbD_store (z : Width) (r : HotRegs)
    (p : BitVec z.bits × BitVec z.bits) {i : U8} {b : Nat}
    (hb : b < 32) (hout : ¬ z.Writes i b) :
    ((z.store r p).gpr i).getLsbD b = (r.gpr i).getLsbD b := by
  cases z with
  | byte =>
    by_cases hi : i = reg.EAX
    · have hhigh : ¬ b < 16 := fun h => hout ⟨hi, h⟩
      subst hi
      refine (HotRegs.getLsbD_setReg8_high (r.setReg8 0 p.1) p.2 hb).trans ?_
      rw [if_neg (by omega), HotRegs.getLsbD_setReg8_low r p.1 hb,
        if_neg (by omega)]
    · rw [store, HotRegs.setDiv8, HotRegs.gpr_setReg8_other _ _ hi,
        HotRegs.gpr_setReg8_other _ _ hi]
  | word =>
    by_cases hd : i = reg.EDX
    · have hhigh : ¬ b < 16 := fun h => hout ⟨.inr hd, h⟩
      subst hd
      exact (HotRegs.getLsbD_setReg16 (r.setReg16 0 p.1) 2 p.2 hb).trans
        (if_neg hhigh)
    · rw [store, HotRegs.setDiv16, HotRegs.gpr_setReg16_other _ _ hd]
      by_cases hx : i = reg.EAX
      · have hhigh : ¬ b < 16 := fun h => hout ⟨.inl hx, h⟩
        subst hx
        exact (HotRegs.getLsbD_setReg16 r 0 p.1 hb).trans (if_neg hhigh)
      · rw [HotRegs.gpr_setReg16_other _ _ hx]
  | dword =>
    have hd : i ≠ reg.EDX := fun h => hout (.inr h)
    have hx : i ≠ reg.EAX := fun h => hout (.inl h)
    rw [store, HotRegs.setDiv32, HotRegs.gpr_setReg32_other _ _ hd,
      HotRegs.gpr_setReg32_other _ _ hx]

/-- The store writes general registers only. -/
theorem store_frame (z : Width) (r : HotRegs)
    (p : BitVec z.bits × BitVec z.bits) :
    z.store r p = { r with gpr := (z.store r p).gpr } := by
  cases z <;> rfl

end Width

-- ======== the law

variable {β : Type} [Bus β]

/-- An IDIV by its width and divisor word. -/
structure IDivision where
  z : Width
  v : BitVec z.bits

namespace IDivision

/-- The dividend is within the bound of the divider. -/
def Within (d : IDivision) (r : HotRegs) : Prop :=
  HotRegs.Divisible (d.z.dividend r) d.v

/-- The true quotient. -/
def quotient (d : IDivision) (r : HotRegs) : Int :=
  (d.z.dividend r).toInt.tdiv d.v.toInt

/-- The registers after a division that does not fault. -/
structure Result (d : IDivision) (r r' : HotRegs) : Prop where
  quotient : (d.z.quotient r').toInt = d.quotient r
  remainder : (d.z.remainder r').toInt = (d.z.dividend r).toInt.tmod d.v.toInt

/-- The division law of an IDIV started in `s`. -/
structure Lawful (d : IDivision) (s : Machine β)
    (out : Except Exception U32 × Machine β) : Prop where
  /-- Division by zero faults. -/
  zero : d.v = 0 → out.1 = .error Exception.de
  /-- Within the bound the remainder register can be shifted at every turn. -/
  lossless : d.Within s.regs.toHotRegs → ∀ k, k ≤ d.z.bits →
    (HotRegs.idivTurns (d.z.dividend s.regs.toHotRegs) d.v k).2.msb = false
  /-- #DE is raised exactly when no word holds the quotient. -/
  fault_iff : d.Within s.regs.toHotRegs →
    (out.1 = .error Exception.de
      ↔ ¬ Fits true d.z.bits (d.quotient s.regs.toHotRegs))
  /-- Otherwise the results are exact. -/
  done : d.Within s.regs.toHotRegs → ∀ n, out.1 = .ok n →
    d.Result s.regs.toHotRegs out.2.regs.toHotRegs
  /-- Only the destinations are written. -/
  kept : ∀ n, out.1 = .ok n → ∀ i b, b < 32 → ¬ d.z.Writes i b →
    (out.2.regs.gpr i).getLsbD b = (s.regs.gpr i).getLsbD b
  frame : out.2.regs
    = { s.regs with gpr := out.2.regs.gpr, eip := out.2.regs.eip }
  /-- A fault is #DE and has written nothing. -/
  fault : ∀ e, out.1 = .error e → e = Exception.de
    ∧ out.2.regs.gpr = s.regs.gpr

/-- The registers an IDIV leaves, unless it faults. -/
def outcome (d : IDivision) (r : HotRegs) : Option HotRegs :=
  (HotRegs.sdivide (d.z.dividend r) d.v).map (d.z.store r)

end IDivision

/-- The instruction at `s`, whose opcode has been fetched, is an IDIV that
gets as far as dividing. -/
inductive IDivides (s : Machine β) : U8 → IDivision → Prop
  | byte {m : ModRm} {op : Operand} {v : U8} {s₁ s₂ s₃ : Machine β}
      (hm : modrm.run s = (.ok (m, op), s₁)) (hreg : m.reg = 7)
      (hlock : (lockCheck false).run s₁ = (.ok (), s₂))
      (hv : (readOp8 op).run s₂ = (.ok v, s₃)) : IDivides s 0xF6 ⟨.byte, v⟩
  | wide {m : ModRm} {op : Operand} {v : U32} {s₁ s₂ s₃ : Machine β}
      (hm : modrm.run s = (.ok (m, op), s₁)) (hreg : m.reg = 7)
      (hlock : (lockCheck false).run s₁ = (.ok (), s₂))
      (hv : (readOp op).run s₂ = (.ok v, s₃)) :
      IDivides s 0xF7 ⟨.ofSize s.osize32, v.setWidth _⟩

/-- Where an IDIV made in `s` ends: #DE, or the new registers. -/
def divided {α : Type} (s : Machine β) (a : α) :
    Option HotRegs → Except Exception α × Machine β
  | none => (.error Exception.de, s)
  | some r => (.ok a, s.withHot r)

theorem run_divide {w : Nat} (qr : HotRegs → Option (BitVec w × BitVec w))
    (put : HotRegs → BitVec w × BitVec w → HotRegs)
    (hput : ∀ r p, (put r p).eflags.vm = r.eflags.vm) (s : Machine β) :
    (divide qr put hput).run s
      = divided s () ((qr s.regs.toHotRegs).map (put s.regs.toHotRegs)) := by
  rw [divide, Bounded.run_bind, Fallible.bind_of_ok (run_self s)]
  cases qr s.regs.toHotRegs <;> rfl

theorem run_divided_cost {n : U32} {s : Machine β} {x : Calm β Unit}
    {o : Option HotRegs}
    (hx : x.run s = divided s () o) :
    (x >>= fun _ => pure n).run s = divided s n o := by
  rw [Bounded.run_bind]
  cases o with
  | none => exact Fallible.bind_of_error hx
  | some r => exact Fallible.bind_of_ok hx

theorem run_idivW (wide : Bool) (v : U32) (s : Machine β) :
    (idivW wide v).run s
      = divided s ()
        ((⟨.ofSize wide, v.setWidth _⟩ : IDivision).outcome
        s.regs.toHotRegs) := by
  cases wide with
  | true =>
    have hv : v.setWidth (Width.ofSize true).bits = v := BitVec.setWidth_eq v
    refine (run_divide _ _ _ _).trans ?_
    rw [IDivision.outcome, hv, HotRegs.idiv32, HotRegs.pair,
      shift_or_eq_append]
    rfl
  | false =>
    refine (run_divide _ _ _ _).trans ?_
    rw [IDivision.outcome, HotRegs.idiv16, HotRegs.pair, shift_or_eq_append]
    rfl

/-- The last arm of the byte group. -/
theorem run_group3b {m : ModRm} {op : Operand} {v : U8}
    {s s₁ s₂ s₃ : Machine β}
    (hm : modrm.run s = (.ok (m, op), s₁)) (hreg : m.reg = 7)
    (hlock : (lockCheck false).run s₁ = (.ok (), s₂))
    (hv : (readOp8 op).run s₂ = (.ok v, s₃)) :
    (group3b (β := β)).run s
      = divided s₃ 22
        ((⟨.byte, v⟩ : IDivision).outcome s₃.regs.toHotRegs) := by
  unfold group3b
  rw [Bounded.run_bind, Fallible.bind_of_ok hm]
  dsimp only
  rw [hreg, show ((7 : U8) == 2 || (7 : U8) == 3) = false by decide,
    Bool.and_false, Bounded.run_bind, Fallible.bind_of_ok hlock,
    Bounded.run_bind, Fallible.bind_of_ok hv, if_neg (by decide),
    if_neg (by decide), if_neg (by decide), if_neg (by decide),
    if_neg (by decide), if_neg (by decide)]
  exact run_divided_cost (run_divide _ _ _ _)

/-- The last arm of the group at the operand size. -/
theorem run_group3 {m : ModRm} {op : Operand} {v : U32}
    {s s₁ s₂ s₃ : Machine β}
    (hm : modrm.run s = (.ok (m, op), s₁)) (hreg : m.reg = 7)
    (hlock : (lockCheck false).run s₁ = (.ok (), s₂))
    (hv : (readOp op).run s₂ = (.ok v, s₃)) :
    ∃ n, (group3 (β := β)).run s
      = divided s₃ n
        ((⟨.ofSize s₃.osize32, v.setWidth _⟩ : IDivision).outcome
        s₃.regs.toHotRegs) := by
  unfold group3
  rw [Bounded.run_bind, Fallible.bind_of_ok hm]
  dsimp only
  rw [hreg, show ((7 : U8) == 2 || (7 : U8) == 3) = false by decide,
    Bool.and_false, Bounded.run_bind, Fallible.bind_of_ok hlock,
    Bounded.run_bind, Fallible.bind_of_ok hv, Bounded.run_bind,
    Fallible.bind_of_ok (run_self s₃), if_neg (by decide), if_neg (by decide),
    if_neg (by decide), if_neg (by decide), if_neg (by decide),
    if_neg (by decide)]
  exact ⟨_, run_divided_cost (run_idivW _ _ _)⟩

/-- An IDIV reads on to the point of the division and ends there. -/
theorem IDivides.run {s : Machine β} {opcode : U8} {d : IDivision}
    (h : IDivides s opcode d) :
    ∃ (sd : Machine β) (n : U32), Unmoved s sd
      ∧ (dispatchCalm opcode).run s
        = divided sd n (d.outcome sd.regs.toHotRegs) := by
  cases h with
  | byte hm hreg hlock hv =>
    have hsame :=
      ((OnlyReads.modrm _ _ _ hm).trans
        (OnlyReads.lockCheck _ _ _ _ hlock)).trans
      (OnlyReads.readOp8 _ _ _ _ hv)
    exact ⟨_, _, hsame, run_group3b hm hreg hlock hv⟩
  | wide hm hreg hlock hv =>
    have hsame :=
      ((OnlyReads.modrm _ _ _ hm).trans
        (OnlyReads.lockCheck _ _ _ _ hlock)).trans
      (OnlyReads.readOp _ _ _ _ hv)
    obtain ⟨n, hn⟩ := run_group3 hm hreg hlock hv
    rw [hsame.osize32] at hn
    exact ⟨_, n, hsame, hn⟩

-- ======== the law decided

namespace IDivision

variable {d : IDivision} {r r₁ : HotRegs}

theorem outcome_zero (h : d.v = 0) (r : HotRegs) : d.outcome r = none := by
  rw [outcome, h, HotRegs.sdivide_zero]
  rfl

/-- Within the bound there is no outcome exactly when no word holds the
quotient. -/
theorem outcome_within (h : d.Within r) :
    match d.outcome r with
    | none => ¬ Fits true d.z.bits (d.quotient r)
    | some r' => Fits true d.z.bits (d.quotient r) ∧ d.Result r r' := by
  have hspec :=
    HotRegs.sdivide_spec d.z.bits_pos (HotRegs.Divisible.ne_zero h) h
  rw [outcome]
  cases hw : HotRegs.sdivide (d.z.dividend r) d.v with
  | none =>
    rw [hw] at hspec
    exact hspec
  | some p =>
    rw [hw] at hspec
    obtain ⟨hq, hr⟩ := hspec
    refine ⟨⟨p.1, hq⟩, ?_, ?_⟩
    · rw [Width.quotient_store]
      exact hq
    · rw [Width.remainder_store]
      exact hr

/-- An outcome is a store to the destinations. -/
theorem outcome_eq_store {r' : HotRegs} (h : d.outcome r = some r') :
    ∃ p, r' = d.z.store r p := by
  obtain ⟨p, -, hp⟩ := Option.map_eq_some_iff.1 h
  exact ⟨p, hp.symm⟩

/-- Only the general registers are operands. -/
theorem dividend_gpr (z : Width) (h : r₁.gpr = r.gpr) :
    z.dividend r₁ = z.dividend r := by
  cases z with
  | byte => simp only [Width.dividend, HotRegs.reg16, h]
  | word => simp only [Width.dividend, HotRegs.reg16, h]
  | dword => simp only [Width.dividend, HotRegs.reg32, h]

end IDivision

/-- IDIV at every width, for every register file, operand and divisor. -/
theorem idiv_lawful {s : Machine β} {opcode : U8} {d : IDivision}
    (h : IDivides s opcode d) :
    d.Lawful s ((dispatchCalm opcode).run s) := by
  obtain ⟨sd, n, hsame, hrun⟩ := h.run
  have hgpr : sd.regs.toHotRegs.gpr = s.regs.toHotRegs.gpr := hsame.gpr
  have hdiv := IDivision.dividend_gpr d.z hgpr
  have hlossless : d.Within s.regs.toHotRegs → ∀ k, k ≤ d.z.bits →
      (HotRegs.idivTurns (d.z.dividend s.regs.toHotRegs) d.v k).2.msb
        = false :=
    fun hwithin _ hk => HotRegs.idivTurns_lossless hwithin hk
  have hwithin : d.Within s.regs.toHotRegs → d.Within sd.regs.toHotRegs := by
    rw [IDivision.Within, IDivision.Within, hdiv]
    exact id
  have hquot : d.quotient sd.regs.toHotRegs = d.quotient s.regs.toHotRegs := by
    rw [IDivision.quotient, hdiv, IDivision.quotient]
  rw [hrun]
  cases hout : d.outcome sd.regs.toHotRegs with
  | none =>
    refine ⟨fun _ => rfl, hlossless, fun hin => iff_of_true rfl ?_, ?_, ?_, ?_, ?_⟩
    · have hspec := IDivision.outcome_within (hwithin hin)
      rw [hout, hquot] at hspec
      exact hspec
    · intro _ n hn
      cases hn
    · intro n hn
      cases hn
    · show sd.regs = { s.regs with gpr := sd.regs.gpr, eip := sd.regs.eip }
      rw [hsame.gpr]
      exact hsame.regs
    · intro e he
      cases he
      exact ⟨rfl, hgpr⟩
  | some r' =>
    obtain ⟨p, rfl⟩ := IDivision.outcome_eq_store hout
    refine ⟨?_, hlossless, ?_, ?_, ?_, ?_, ?_⟩
    · intro hzero
      rw [IDivision.outcome_zero hzero] at hout
      cases hout
    · intro hin
      have hspec := IDivision.outcome_within (hwithin hin)
      rw [hout, hquot] at hspec
      refine iff_of_false (fun he => ?_) (not_not.2 hspec.1)
      cases he
    · intro hin n hn
      have hspec := IDivision.outcome_within (hwithin hin)
      rw [hout] at hspec
      obtain ⟨-, hq, hr⟩ := hspec
      rw [hquot] at hq
      rw [hdiv] at hr
      exact ⟨hq, hr⟩
    · intro n hn i b hb hw
      exact (d.z.getLsbD_store sd.regs.toHotRegs p hb hw).trans (by rw [hgpr])
    · obtain ⟨g, hg⟩ : ∃ g,
        d.z.store sd.regs.toHotRegs p = { sd.regs.toHotRegs with gpr := g } :=
        ⟨_, d.z.store_frame sd.regs.toHotRegs p⟩
      rw [hg, divided, Machine.withHot, hsame.regs]
    · intro e he
      cases he

/-- IDIV BL on AX = -128 and BL = 1. The opcode has been fetched. -/
def idivBl : Machine (FlatBus Unit) :=
  { Cpu.new with
    regs := { Registers.new with
      gpr := fun i => if i = reg.EAX then 0xFF80 else if i = reg.EBX
        then 1 else 0 }
    bus := { mem := fun _ => 0xFB, ports := () } }

/-- The most negative quotient is no overflow. -/
theorem idiv_lawful_min :
    (⟨.byte, 1⟩ : IDivision).Lawful idivBl ((dispatchCalm 0xF6).run idivBl)
      ∧ Width.byte.quotient ((dispatchCalm 0xF6).run idivBl).2.regs.toHotRegs
        = 0x80 := by
  have hdiv : IDivides idivBl 0xF6 ⟨.byte, 1⟩ :=
    .byte (m := ⟨0xFB⟩) (show modrm.run _ = (.ok (_, .reg 3), _) from rfl)
      (by decide) rfl rfl
  exact ⟨idiv_lawful hdiv, by decide⟩

end Remu.X32
