/-
Packed decimal numbers added and subtracted byte by byte, on the 8086, the
32-bit and the 64-bit core.

A step loads a byte into AL, adds or subtracts another one, with the carry
except on the lowest position, and adjusts AL. Each core's step does one
decimal position exactly, though the three adjusters are written apart and
differ in their thresholds and borrows; a position has only one result, so
that the cores go through the same AL, CF and AF.
-/
import Remu.Lib.Decimal
import Remu.X86.Flags
import Remu.X32.Flags
import Remu.X64.Flags

namespace Remu

-- ======== the 8086

namespace X86

open Flags (CF AF)

namespace Registers

/-- AL, CF and AF. -/
def status (r : Registers) : Status :=
  (r.al, r.flags.contains CF, r.flags.contains AF)

@[simp] theorem al_setAl (r : Registers) (v : U8) : (r.setAl v).al = v := by
  show (((r.ax &&& 0xFF00) ||| v.setWidth 16 : U16).setWidth 8) = v
  apply BitVec.eq_of_getLsbD_eq
  intro i hi
  simp [hi]

/-- Load AL and operate on it with the flags. -/
def operate (op : U8 → U8 → Flags → U8 × Flags) (p : U8 × U8) (r : Registers) :
    Registers :=
  let r := r.setAl p.1
  let out := op r.al p.2 r.flags
  { r with flags := out.2 }.setAl out.1

theorem status_operate (op : U8 → U8 → Flags → U8 × Flags)
    (p : U8 × U8) (r : Registers) :
    (r.operate op p).status
      = ((op p.1 p.2 r.flags).1, (op p.1 p.2 r.flags).2.contains CF,
        (op p.1 p.2 r.flags).2.contains AF) := by
  rw [operate, al_setAl, status, al_setAl]
  rfl

theorem status_daa (r : Registers) :
    r.daa.status = adjustUp (alCheck r.status.2.2) r.status.1 r.status.2.1
      r.status.2.2 := by
  refine Prod.ext (al_setAl _ _) (Prod.ext ?_ ?_)
  · exact (Flags.contains_setSzp _ rfl rfl rfl _).trans
      (Flags.contains_set _ (by decide) _)
  · exact (Flags.contains_setSzp _ rfl rfl rfl _).trans
      ((Flags.contains_set_other _ rfl _).trans
        (Flags.contains_set _ (by decide) _))

/-- The 8086 reports no borrow of the low digit. -/
theorem status_das (r : Registers) :
    r.das.status = adjustDown (alCheck r.status.2.2) r.status.1 false
      r.status.2.1 r.status.2.2 := by
  refine Prod.ext (al_setAl _ _) (Prod.ext ?_ ?_)
  · refine (Flags.contains_setSzp _ rfl rfl rfl _).trans
      ((Flags.contains_set _ (by decide) _).trans ?_)
    rw [adjustDown, Bool.and_false, Bool.or_false]
    rfl
  · exact (Flags.contains_setSzp _ rfl rfl rfl _).trans
      ((Flags.contains_set_other _ rfl _).trans
        (Flags.contains_set _ (by decide) _))

/-- The threshold of the 8086 is 0x9F when AF was set and 0x99 otherwise. -/
theorem threshold_alCheck (af : Bool) : Threshold af (alCheck af) := by
  cases af with
  | true => exact .inr ⟨rfl, rfl⟩
  | false => exact .inl rfl

/-- Operate and adjust. -/
def decimalStep (op : U8 → U8 → Flags → U8 × Flags)
    (adjust : Registers → Registers) (p : U8 × U8)
    (r : Registers) : Status × Registers :=
  let r := adjust (r.operate op p)
  (r.status, r)

variable {op : U8 → U8 → Flags → U8 × Flags} {p : U8 × U8}
  {c : Bool} {r : Registers}

theorem decimalStep_daa (hop : Alu.LimbDone 1 p.1 p.2 c (op p.1 p.2 r.flags))
    (h₁ : Packed p.1)
    (h₂ : Packed p.2) :
    DecimalStep 1 p.1 p.2 c (decimalStep op daa p r).1 := by
  rw [decimalStep, status_daa, status_operate]
  exact decimal_of_adjustUp h₁ h₂ hop.1 (threshold_alCheck _)

theorem decimalStep_das
    (hop : Alu.LimbDone (-1) p.1 p.2 c (op p.1 p.2 r.flags)) (h₁ : Packed p.1)
    (h₂ : Packed p.2) :
    DecimalStep (-1) p.1 p.2 c (decimalStep op das p r).1 := by
  rw [decimalStep, status_das, status_operate]
  exact decimal_of_adjustDown h₁ h₂ hop.1 (threshold_alCheck _) fun h =>
    absurd h Bool.false_ne_true

end Registers

open Registers (decimalStep)

/-- ADD and DAA on the lowest byte, ADC and DAA on the others. -/
def decimalSum := chain (decimalStep Alu.add Registers.daa)
    (decimalStep Alu.adc Registers.daa)

/-- SUB and DAS on the lowest byte, SBB and DAS on the others. -/
def decimalDifference := chain (decimalStep Alu.sub Registers.das)
    (decimalStep Alu.sbb Registers.das)

theorem decimalSteps_sum :
    DecimalSteps 1 (fun r : Registers => r.flags.contains CF)
    (decimalStep Alu.add Registers.daa) (decimalStep Alu.adc Registers.daa) where
  first p r h₁ h₂ :=
    ⟨Registers.decimalStep_daa (Alu.add_limb (by decide) p.1 p.2 r.flags) h₁ h₂, rfl⟩
  rest p r h₁ h₂ :=
    ⟨Registers.decimalStep_daa (Alu.adc_limb (by decide) p.1 p.2 r.flags) h₁ h₂, rfl⟩

theorem decimalSteps_difference :
    DecimalSteps (-1) (fun r : Registers => r.flags.contains CF)
    (decimalStep Alu.sub Registers.das) (decimalStep Alu.sbb Registers.das) where
  first p r h₁ h₂ :=
    ⟨Registers.decimalStep_das (Alu.sub_limb (by decide) p.1 p.2 r.flags) h₁ h₂, rfl⟩
  rest p r h₁ h₂ :=
    ⟨Registers.decimalStep_das (Alu.sbb_limb (by decide) p.1 p.2 r.flags) h₁ h₂, rfl⟩

end X86

-- ======== the 32-bit core

namespace X32

open EFlags (CF AF)

namespace HotRegs

/-- AL, CF and AF. -/
def status (r : HotRegs) : Status :=
  (r.reg8 0, r.eflags.contains CF, r.eflags.contains AF)

theorem al_setReg8 (r : HotRegs) (v : U8) : (r.setReg8 0 v).reg8 0 = v := by
  show ((upd r.gpr 0 ((r.gpr 0 &&& ~~~(0xFF : U32)) ||| v.setWidth 32) 0).setWidth 8) = v
  rw [upd_same]
  apply BitVec.eq_of_getLsbD_eq
  intro i hi
  simp [hi]

/-- Load AL and operate on it with the flags. -/
def operate (op : U8 → U8 → EFlags → U8 × EFlags) (p : U8 × U8) (r : HotRegs) :
    HotRegs :=
  let r := r.setReg8 0 p.1
  let out := op (r.reg8 0) p.2 r.eflags
  ({ r with eflags := out.2 } : HotRegs).setReg8 0 out.1

theorem status_operate (op : U8 → U8 → EFlags → U8 × EFlags)
    (p : U8 × U8) (r : HotRegs) :
    (r.operate op p).status
      = ((op p.1 p.2 r.eflags).1, (op p.1 p.2 r.eflags).2.contains CF,
        (op p.1 p.2 r.eflags).2.contains AF) := by
  rw [operate, al_setReg8, status, al_setReg8]
  rfl

theorem status_daa (r : HotRegs) :
    r.daa.status = adjustUp 0x99 r.status.1 r.status.2.1 r.status.2.2 := by
  refine Prod.ext (al_setReg8 _ _) (Prod.ext ?_ ?_)
  · exact (EFlags.contains_setSzp _ rfl rfl rfl _).trans
      ((EFlags.contains_remove_other _ rfl).trans
        (EFlags.contains_set _ (by decide) _))
  · exact (EFlags.contains_setSzp _ rfl rfl rfl _).trans
      ((EFlags.contains_remove_other _ rfl).trans
      ((EFlags.contains_set_other _ rfl _).trans
        (EFlags.contains_set _ (by decide) _)))

/-- The borrow of the low digit is reported. -/
theorem status_das (r : HotRegs) :
    r.das.status = adjustDown 0x99 r.status.1
      (r.status.2.1 || decide (r.status.1 < 6)) r.status.2.1
      r.status.2.2 := by
  refine Prod.ext (al_setReg8 _ _) (Prod.ext ?_ ?_)
  · exact (EFlags.contains_setSzp _ rfl rfl rfl _).trans
      ((EFlags.contains_remove_other _ rfl).trans
        (EFlags.contains_set _ (by decide) _))
  · exact (EFlags.contains_setSzp _ rfl rfl rfl _).trans
      ((EFlags.contains_remove_other _ rfl).trans
      ((EFlags.contains_set_other _ rfl _).trans
        (EFlags.contains_set _ (by decide) _)))

/-- Operate and adjust. -/
def decimalStep (op : U8 → U8 → EFlags → U8 × EFlags)
    (adjust : HotRegs → HotRegs) (p : U8 × U8)
    (r : HotRegs) : Status × HotRegs :=
  let r := adjust (r.operate op p)
  (r.status, r)

variable {op : U8 → U8 → EFlags → U8 × EFlags} {p : U8 × U8}
  {c : Bool} {r : HotRegs}

theorem decimalStep_daa (hop : Alu.LimbDone 1 p.1 p.2 c (op p.1 p.2 r.eflags))
    (h₁ : Packed p.1)
    (h₂ : Packed p.2) :
    DecimalStep 1 p.1 p.2 c (decimalStep op daa p r).1 := by
  rw [decimalStep, status_daa, status_operate]
  exact decimal_of_adjustUp h₁ h₂ hop.1 (.inl rfl)

theorem decimalStep_das
    (hop : Alu.LimbDone (-1) p.1 p.2 c (op p.1 p.2 r.eflags)) (h₁ : Packed p.1)
    (h₂ : Packed p.2) :
    DecimalStep (-1) p.1 p.2 c (decimalStep op das p r).1 := by
  rw [decimalStep, status_das, status_operate]
  refine decimal_of_adjustDown h₁ h₂ hop.1 (.inl rfl) ?_
  rw [Bool.or_eq_true, decide_eq_true_iff, BitVec.lt_def]
  exact id

end HotRegs

open HotRegs (decimalStep)

/-- ADD and DAA on the lowest byte, ADC and DAA on the others. -/
def decimalSum :=
  chain (decimalStep Alu.add HotRegs.daa) (decimalStep Alu.adc HotRegs.daa)

/-- SUB and DAS on the lowest byte, SBB and DAS on the others. -/
def decimalDifference :=
  chain (decimalStep Alu.sub HotRegs.das) (decimalStep Alu.sbb HotRegs.das)

theorem decimalSteps_sum :
    DecimalSteps 1 (fun r : HotRegs => r.eflags.contains CF)
    (decimalStep Alu.add HotRegs.daa) (decimalStep Alu.adc HotRegs.daa) where
  first p r h₁ h₂ :=
    ⟨HotRegs.decimalStep_daa (Alu.add_limb (by decide) p.1 p.2 r.eflags) h₁ h₂, rfl⟩
  rest p r h₁ h₂ :=
    ⟨HotRegs.decimalStep_daa (Alu.adc_limb (by decide) p.1 p.2 r.eflags) h₁ h₂, rfl⟩

theorem decimalSteps_difference :
    DecimalSteps (-1) (fun r : HotRegs => r.eflags.contains CF)
    (decimalStep Alu.sub HotRegs.das) (decimalStep Alu.sbb HotRegs.das) where
  first p r h₁ h₂ :=
    ⟨HotRegs.decimalStep_das (Alu.sub_limb (by decide) p.1 p.2 r.eflags) h₁ h₂, rfl⟩
  rest p r h₁ h₂ :=
    ⟨HotRegs.decimalStep_das (Alu.sbb_limb (by decide) p.1 p.2 r.eflags) h₁ h₂, rfl⟩

end X32

-- ======== the 64-bit core

namespace X64

open RFlags (CF AF)

namespace HotRegs

variable (rex : Bool)

/-- AL, CF and AF. -/
def status (r : HotRegs) : Status :=
  (r.reg8 0 rex, r.rflags.contains CF, r.rflags.contains AF)

theorem al_setReg8 (r : HotRegs) (v : U8) :
    (r.setReg8 0 rex v).reg8 0 rex = v := by
  have hlow : (!rex && (0 : U8) &&& 0xC == 4) = false := by
    cases rex <;> rfl
  rw [reg8, setReg8, hlow]
  show ((upd r.gpr 0 ((r.gpr 0 &&& ~~~(0xFF : U64)) ||| v.setWidth 64) 0).setWidth 8) = v
  rw [upd_same]
  apply BitVec.eq_of_getLsbD_eq
  intro i hi
  simp [hi]

/-- Load AL and operate on it with the flags. -/
def operate (op : U8 → U8 → RFlags → U8 × RFlags) (p : U8 × U8) (r : HotRegs) :
    HotRegs :=
  let r := r.setReg8 0 rex p.1
  let out := op (r.reg8 0 rex) p.2 r.rflags
  ({ r with rflags := out.2 } : HotRegs).setReg8 0 rex out.1

theorem status_operate (op : U8 → U8 → RFlags → U8 × RFlags)
    (p : U8 × U8) (r : HotRegs) :
    (r.operate rex op p).status rex
      = ((op p.1 p.2 r.rflags).1, (op p.1 p.2 r.rflags).2.contains CF,
        (op p.1 p.2 r.rflags).2.contains AF) := by
  rw [operate, al_setReg8, status, al_setReg8, rflags_setReg8, rflags_setReg8]

theorem status_daa (r : HotRegs) :
    (r.daa rex).status rex = adjustUp 0x99 (r.status rex).1 (r.status rex).2.1
      (r.status rex).2.2 := by
  rw [status, daa, al_setReg8, rflags_setReg8]
  refine Prod.ext rfl (Prod.ext ?_ ?_)
  · exact (RFlags.contains_setSzp _ rfl rfl rfl _).trans
      ((RFlags.contains_remove_other _ rfl).trans
        (RFlags.contains_set _ (by decide) _))
  · exact (RFlags.contains_setSzp _ rfl rfl rfl _).trans
      ((RFlags.contains_remove_other _ rfl).trans
      ((RFlags.contains_set_other _ rfl _).trans
        (RFlags.contains_set _ (by decide) _)))

/-- The borrow of the low digit is reported. -/
theorem status_das (r : HotRegs) :
    (r.das rex).status rex
      = adjustDown 0x99 (r.status rex).1
        ((r.status rex).2.1 || decide ((r.status rex).1 < 6))
        (r.status rex).2.1 (r.status rex).2.2 := by
  rw [status, das, al_setReg8, rflags_setReg8]
  refine Prod.ext rfl (Prod.ext ?_ ?_)
  · exact (RFlags.contains_setSzp _ rfl rfl rfl _).trans
      ((RFlags.contains_remove_other _ rfl).trans
        (RFlags.contains_set _ (by decide) _))
  · exact (RFlags.contains_setSzp _ rfl rfl rfl _).trans
      ((RFlags.contains_remove_other _ rfl).trans
      ((RFlags.contains_set_other _ rfl _).trans
        (RFlags.contains_set _ (by decide) _)))

/-- Operate and adjust. -/
def decimalStep (op : U8 → U8 → RFlags → U8 × RFlags)
    (adjust : HotRegs → HotRegs) (p : U8 × U8)
    (r : HotRegs) : Status × HotRegs :=
  let r := adjust (r.operate rex op p)
  (r.status rex, r)

variable {op : U8 → U8 → RFlags → U8 × RFlags} {p : U8 × U8}
  {c : Bool} {r : HotRegs}

theorem decimalStep_daa (hop : Alu.LimbDone 1 p.1 p.2 c (op p.1 p.2 r.rflags))
    (h₁ : Packed p.1)
    (h₂ : Packed p.2) :
    DecimalStep 1 p.1 p.2 c (decimalStep rex op (daa rex) p r).1 := by
  rw [decimalStep, status_daa, status_operate]
  exact decimal_of_adjustUp h₁ h₂ hop.1 (.inl rfl)

theorem decimalStep_das
    (hop : Alu.LimbDone (-1) p.1 p.2 c (op p.1 p.2 r.rflags)) (h₁ : Packed p.1)
    (h₂ : Packed p.2) :
    DecimalStep (-1) p.1 p.2 c (decimalStep rex op (das rex) p r).1 := by
  rw [decimalStep, status_das, status_operate]
  refine decimal_of_adjustDown h₁ h₂ hop.1 (.inl rfl) ?_
  rw [Bool.or_eq_true, decide_eq_true_iff, BitVec.lt_def]
  exact id

end HotRegs

open HotRegs (decimalStep)

/-- ADD and DAA on the lowest byte, ADC and DAA on the others. -/
def decimalSum (rex : Bool) :=
  chain (decimalStep rex Alu.add (HotRegs.daa rex))
    (decimalStep rex Alu.adc (HotRegs.daa rex))

/-- SUB and DAS on the lowest byte, SBB and DAS on the others. -/
def decimalDifference (rex : Bool) :=
  chain (decimalStep rex Alu.sub (HotRegs.das rex))
    (decimalStep rex Alu.sbb (HotRegs.das rex))

theorem decimalSteps_sum (rex : Bool) :
    DecimalSteps 1 (fun r : HotRegs => r.rflags.contains CF)
    (decimalStep rex Alu.add (HotRegs.daa rex))
      (decimalStep rex Alu.adc (HotRegs.daa rex)) where
  first p r h₁ h₂ :=
    ⟨HotRegs.decimalStep_daa rex (Alu.add_limb (by decide) p.1 p.2 r.rflags) h₁ h₂, rfl⟩
  rest p r h₁ h₂ :=
    ⟨HotRegs.decimalStep_daa rex (Alu.adc_limb (by decide) p.1 p.2 r.rflags) h₁ h₂, rfl⟩

theorem decimalSteps_difference (rex : Bool) :
    DecimalSteps (-1) (fun r : HotRegs => r.rflags.contains CF)
    (decimalStep rex Alu.sub (HotRegs.das rex))
      (decimalStep rex Alu.sbb (HotRegs.das rex)) where
  first p r h₁ h₂ :=
    ⟨HotRegs.decimalStep_das rex (Alu.sub_limb (by decide) p.1 p.2 r.rflags) h₁ h₂, rfl⟩
  rest p r h₁ h₂ :=
    ⟨HotRegs.decimalStep_das rex (Alu.sbb_limb (by decide) p.1 p.2 r.rflags) h₁ h₂, rfl⟩

end X64

-- ======== the three cores

/-- A chain leaves the digits and the carry of the whole numbers. -/
def DecimalChain {σ : Type} (s : Int) (carry : σ → Bool) (l : List (U8 × U8))
    (out : List Status × σ) : Prop :=
  DecimalLaw s l (out.1.map Prod.fst) (carry out.2)

/-- Packed decimal numbers of any length are added and subtracted exactly on
each core, and the cores go through the same AL, CF and AF. -/
theorem decimal_chains {l : List (U8 × U8)} (hne : l ≠ [])
    (hl : ∀ p ∈ l, Packed p.1 ∧ Packed p.2)
    (r₈₆ : X86.Registers) (r₃₂ : X32.HotRegs)
    (r₆₄ : X64.HotRegs) (rex : Bool) :
    DecimalChain 1 (·.flags.contains X86.Flags.CF) l (X86.decimalSum l r₈₆)
      ∧ DecimalChain (-1) (·.flags.contains X86.Flags.CF) l
        (X86.decimalDifference l r₈₆)
      ∧ DecimalChain 1 (·.eflags.contains X32.EFlags.CF) l
        (X32.decimalSum l r₃₂)
      ∧ DecimalChain (-1) (·.eflags.contains X32.EFlags.CF) l
        (X32.decimalDifference l r₃₂)
      ∧ DecimalChain 1 (·.rflags.contains X64.RFlags.CF) l
        (X64.decimalSum rex l r₆₄)
      ∧ DecimalChain (-1) (·.rflags.contains X64.RFlags.CF) l
        (X64.decimalDifference rex l r₆₄)
      ∧ (X86.decimalSum l r₈₆).1 = (X32.decimalSum l r₃₂).1
      ∧ (X32.decimalSum l r₃₂).1 = (X64.decimalSum rex l r₆₄).1
      ∧ (X86.decimalDifference l r₈₆).1 = (X32.decimalDifference l r₃₂).1
      ∧ (X32.decimalDifference l r₃₂).1
        = (X64.decimalDifference rex l r₆₄).1 :=
  ⟨X86.decimalSteps_sum.law (by decide) hne hl r₈₆,
    X86.decimalSteps_difference.law (by decide) hne hl r₈₆,
    X32.decimalSteps_sum.law (by decide) hne hl r₃₂,
      X32.decimalSteps_difference.law (by decide) hne hl r₃₂,
    (X64.decimalSteps_sum rex).law (by decide) hne hl r₆₄,
    (X64.decimalSteps_difference rex).law (by decide) hne hl r₆₄,
    X86.decimalSteps_sum.agree (.inl rfl) X32.decimalSteps_sum hl r₈₆ r₃₂,
    X32.decimalSteps_sum.agree (.inl rfl) (X64.decimalSteps_sum rex) hl r₃₂ r₆₄,
    X86.decimalSteps_difference.agree (.inr rfl) X32.decimalSteps_difference hl r₈₆ r₃₂,
    X32.decimalSteps_difference.agree (.inr rfl)
      (X64.decimalSteps_difference rex) hl r₃₂ r₆₄⟩

/-- 0599 + 4501 = 5100, with a carry out of every digit of the low byte. -/
theorem decimal_chains_carried :
    DecimalChain 1 (·.flags.contains X86.Flags.CF) [(0x99, 0x01), (0x05, 0x45)]
        (X86.decimalSum [(0x99, 0x01), (0x05, 0x45)] ⟨0, ⟨0⟩⟩)
      ∧ (X86.decimalSum [(0x99, 0x01), (0x05, 0x45)] ⟨0, ⟨0⟩⟩).1
        = (X32.decimalSum [(0x99, 0x01), (0x05, 0x45)]
          X32.Registers.new.toHotRegs).1
      ∧ (X86.decimalSum [(0x99, 0x01), (0x05, 0x45)] ⟨0, ⟨0⟩⟩).1
        = [(0x00, true, true), (0x51, false, true)] :=
  have hl : ∀ p ∈ [((0x99 : U8), (0x01 : U8)), (0x05, 0x45)],
    Packed p.1 ∧ Packed p.2 := by
    rw [List.forall_mem_cons, List.forall_mem_singleton]
    decide
  have h := decimal_chains (List.cons_ne_nil _ _) hl ⟨0, ⟨0⟩⟩
    X32.Registers.new.toHotRegs X64.Registers.new.toHotRegs false
  ⟨h.1, h.2.2.2.2.2.2.1, by decide⟩

end Remu
