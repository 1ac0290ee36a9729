/-
What a program in User mode cannot reach.

The flag byte and the Thumb bit are all of the CPSR that an instruction in
User mode can change, and the window is all it can change of the register
file: the SPSRs and the registers banked for other modes stay as they are
(`Confined`). The one way out is an exception, and it leaves the machine at
the vector, in the mode of the exception, with the program's CPSR saved
(`Entered`). From the step both carry over to any run, whatever the host
does to the rest of the machine in between.
-/
import Remu.Arm32.ExceptionReturn

namespace Remu.Arm32

/-- All of the CPSR but the flag byte and the Thumb bit. -/
abbrev CONTROL : U32 := 0x00FFFFDF

/-- A register that User mode does not see. -/
def Foreign (x : Flat) : Prop := arch .usr x.number ≠ x

-- ======== status registers

namespace Psr

/-- A write under a mask outside the control field does not change it. -/
theorem control_merge (bits value : U32) {mask : U32}
    (h : CONTROL &&& mask = 0) :
    ((bits &&& ~~~mask) ||| (value &&& mask)) &&& CONTROL
      = bits &&& CONTROL := by
  have hkeep : ~~~mask &&& CONTROL = CONTROL :=
    (BitVec.and_comm _ _).trans (Word.and_not_of_and_eq_zero h)
  have hdrop : (value &&& mask) &&& CONTROL = 0 := by
    rw [BitVec.and_assoc, BitVec.and_comm mask, h]
    exact BitVec.and_zero
  rw [BitVec.and_or_distrib_right, hdrop, Word.and_and_cover bits hkeep]
  exact BitVec.or_zero

/-- A bit outside a field does not change it. -/
theorem field_set (p : Psr) {bit field : U32} (on : Bool)
    (h : field &&& bit = 0) :
    (p.set bit on).bits &&& field = p.bits &&& field := by
  have hbit : bit &&& field = 0 := (BitVec.and_comm _ _).trans h
  cases on with
  | true => exact Word.or_and_disjoint _ hbit
  | false =>
    exact Word.and_and_cover
      _ ((BitVec.and_comm _ _).trans (Word.and_not_of_and_eq_zero h))

/-- The result flags are outside the control field. -/
theorem control_setNz (p : Psr) (v : U32) :
    (p.setNz v).bits &&& CONTROL = p.bits &&& CONTROL := by
  show ((p.bits &&& ~~~(psr.N ||| psr.Z)) ||| (v &&& psr.N)
    ||| (if v = 0 then psr.Z else 0)) &&& CONTROL = _
  have hz : (if v = 0 then psr.Z else 0) &&& CONTROL = 0 := by
    split <;> decide
  have hn : (v &&& psr.N) &&& CONTROL = 0 := by
    rw [BitVec.and_assoc, show psr.N &&& CONTROL = 0 by decide]
    exact BitVec.and_zero
  have hkeep :
    (p.bits &&& ~~~(psr.N ||| psr.Z)) &&& CONTROL = p.bits &&& CONTROL := by
    rw [BitVec.and_assoc,
      show ~~~(psr.N ||| psr.Z) &&& CONTROL = CONTROL by decide]
  rw [BitVec.and_or_distrib_right, BitVec.and_or_distrib_right, hz, hn, hkeep]
  exact (BitVec.or_zero).trans BitVec.or_zero

/-- The mode is in the control field. -/
theorem modeBits_of_control {p p' : Psr}
    (h : p'.bits &&& CONTROL = p.bits &&& CONTROL) :
    p'.modeBits = p.modeBits := by
  have hsub : psr.MODE = CONTROL &&& psr.MODE := by decide
  rw [modeBits, modeBits, hsub, ← BitVec.and_assoc, h, BitVec.and_assoc]

/-- The mode is read from the control field alone. -/
theorem mode_of_control {p p' : Psr}
    (h : p'.bits &&& CONTROL = p.bits &&& CONTROL) : p'.mode = p.mode := by
  have hbits : p'.bits &&& 0x1F = p.bits &&& 0x1F := modeBits_of_control h
  rw [mode, mode, Mode.fromBits, Mode.fromBits, hbits]

end Psr

-- ======== the law

namespace Registers

/-- User mode proper. -/
def User (r : Registers) : Prop := r.cpsr.modeBits = Mode.usr.bits

/-- In User mode the mode field says so. -/
theorem User.mode {r : Registers} (h : r.User) : r.cpsr.mode = .usr := by
  have hbits : r.cpsr.bits &&& 0x1F = 0x10 := h
  rw [Psr.mode, Mode.fromBits, hbits]
  rfl

/-- Nothing but the user registers, the flags and the Thumb bit differ. -/
structure Confined (r r' : Registers) : Prop where
  control : r'.cpsr.bits &&& CONTROL = r.cpsr.bits &&& CONTROL
  spsr : r'.spsr = r.spsr
  file : ∀ x, Foreign x → r'.file x = r.file x

theorem Confined.refl (r : Registers) : r.Confined r :=
  ⟨rfl, rfl, fun _ _ => rfl⟩

/-- Confinement composes over a run. -/
theorem Confined.trans {r r' r'' : Registers} (h : r.Confined r')
    (h' : r'.Confined r'') : r.Confined r'' where
  control := h'.control.trans h.control
  spsr := h'.spsr.trans h.spsr
  file x hx := (h'.file x hx).trans (h.file x hx)

/-- Confined programs stay in User mode. -/
theorem Confined.user {r r' : Registers} (h : r.Confined r') (hu : r.User) :
    r'.User :=
  (Psr.modeBits_of_control h.control).trans hu

end Registers

/-- What `c` becomes in User mode without an exception. -/
def Kept (c c' : Core) : Prop := c.regs.User → c.regs.Confined c'.regs

theorem Kept.refl (c : Core) : Kept c c := fun _ => .refl _

/-- What is kept by two operations is kept by both in turn. -/
theorem Kept.trans {c c' c'' : Core} (h : Kept c c') (h' : Kept c' c'') :
    Kept c c'' :=
  fun hu => (h hu).trans (h' ((h hu).user hu))

/-- The registers alone matter. -/
theorem Kept.of_regs {c c' : Core} (h : c'.regs = c.regs) : Kept c c' :=
  fun _ => h ▸ .refl _

/-- A conditional keeps what both its branches keep. -/
theorem Kept.ite {c x y : Core} (p : Prop) [Decidable p] (hx : p → Kept c x)
    (hy : ¬ p → Kept c y) :
    Kept c (if p then x else y) := by
  split
  case isTrue h => exact hx h
  case isFalse h => exact hy h

-- ======== on the core

namespace Kept

/-- The register operations; a write of R8 to R14 goes to the bank in use,
which is User's. -/
theorem setGpr (c : Core) (i : U8) (v : U32) : Kept c (c.setGpr i v) := by
  intro hu
  refine ⟨rfl, rfl, fun x hx => ?_⟩
  show (c.regs.setGpr _ v).file x = _
  rw [Registers.file_setGpr, hu.mode]
  refine upd_other _ _ ?_
  rintro rfl
  exact hx (by rw [number_arch])

/-- A status write that leaves the control field alone. -/
theorem setCpsr {c : Core} {p : Psr}
    (h : p.bits &&& CONTROL = c.regs.cpsr.bits &&& CONTROL) :
    Kept c (c.setCpsr p) :=
  fun _ => ⟨h, rfl,
    fun x _ => congrFun (Registers.file_cpsr (Psr.mode_of_control h)) x⟩

/-- A branch sets the PC and, for BX, the T bit. -/
theorem branchTo (c : Core) (target : U32) : Kept c (c.branchTo target) :=
  setGpr c 15 _

theorem setReg (c : Core) (i : U8) (v : U32) : Kept c (c.setReg i v) :=
  .ite _ (fun _ => branchTo c v) fun _ => setGpr c i v

/-- There is no SPSR to restore from. -/
theorem restoreCpsr (c : Core) : Kept c c.restoreCpsr := by
  intro hu
  have hnone : c.regs.spsrBanked = none := by
    rw [Registers.spsrBanked, hu.mode]
    rfl
  rw [Core.restoreCpsr, hnone]
  exact .refl _

/-- The control field of an MSR in User mode is masked out. -/
theorem execMsr (c : Core) (value : U32) (aux : U8) :
    Kept c (c.execMsr value aux) := by
  intro hu
  unfold Core.execMsr
  dsimp only
  split
  · have hsame :
      c.regs.setSpsr value (Core.fieldMask (aux >>> sr.FIELD_SHIFT))
      = c.regs := by
      rw [Registers.setSpsr, hu.mode]
      rfl
    show c.regs.Confined
      (c.regs.setSpsr value (Core.fieldMask (aux >>> sr.FIELD_SHIFT)))
    rw [hsame]
    exact .refl _
  · have hpriv : (!c.regs.cpsr.privileged) = true := by
      rw [Psr.privileged, hu]
      rfl
    rw [if_pos hpriv]
    generalize Core.fieldMask (aux >>> sr.FIELD_SHIFT) = fields
    have hmask :
      ∀ m : U32, m &&& 0xFF000000 = 0 → m &&& (fields &&& 0xFF000000) = 0 := by
      intro m hm
      rw [BitVec.and_comm fields, ← BitVec.and_assoc, hm]
      exact BitVec.zero_and
    have hlow : ¬ ((fields &&& 0xFF000000) &&& 0xFF != 0) = true := by
      rw [BitVec.and_comm, hmask 0xFF (by decide)]
      decide
    rw [if_neg hlow]
    have hcontrol :=
      Psr.control_merge c.regs.cpsr.bits value (hmask CONTROL (by decide))
    refine ⟨hcontrol, ?_, fun x _ => by rw [Core.file_installCpsr]⟩
    exact Registers.spsr_setMode _ _

theorem setDpFlags (c : Core) (opn : U8) (r : U32) (carry v : Bool) :
    Kept c (c.setDpFlags opn r carry v) := by
  unfold Core.setDpFlags
  refine setCpsr ?_
  have hnzc : ((c.regs.cpsr.setNz r).set psr.C carry).bits &&& CONTROL
    = c.regs.cpsr.bits &&& CONTROL :=
    (Psr.field_set _ _ (by decide)).trans (Psr.control_setNz _ _)
  split
  · exact hnzc
  · exact (Psr.field_set _ _ (by decide)).trans hnzc

/-- In User mode there is no SPSR to restore from. -/
theorem restoreIf {c x : Core} (h : Kept c x) (p : Prop) [Decidable p] :
    Kept c (if p then x.restoreCpsr else x) :=
  .ite _ (fun _ => h.trans (restoreCpsr x)) fun _ => h

/-- The data-processing forms and the rest, one lemma for each handler. -/
theorem execDp (d : DecodedInsn) (c : Core) : Kept c (c.execDp d).2 := by
  unfold Core.execDp
  dsimp only
  generalize Core.aluResult _ _ _ _ _ _ = o
  obtain ⟨⟨result, carry, v⟩, writes⟩ := o
  have hflags : ∀ (p : Prop) [Decidable p] (opn : U8),
      Kept c (if p then c.setDpFlags opn result carry v else c) :=
    fun p _ opn => .ite _ (fun _ => setDpFlags c opn _ _ _) fun _ => .refl c
  dsimp only
  split
  · split
    · exact (restoreIf (hflags _ _) _).trans (branchTo _ result)
    · exact (restoreIf (hflags _ _) _).trans (setGpr _ _ result)
  · exact restoreIf (hflags _ _) _

theorem execMul (d : DecodedInsn) (c : Core) : Kept c (c.execMul d).2 := by
  unfold Core.execMul
  dsimp only
  refine (setReg c d.rd _).trans (.ite _ (fun _ => ?_) fun _ => .refl _)
  exact setCpsr (Psr.control_setNz _ _)

theorem execMull (d : DecodedInsn) (c : Core) : Kept c (c.execMull d).2 := by
  unfold Core.execMull
  dsimp only
  refine ((setReg c d.rn _).trans (setReg _ d.rd _)).trans
    (.ite _ (fun _ => ?_) fun _ => .refl _)
  exact setCpsr
    ((Psr.field_set _ _ (by decide)).trans (Psr.field_set _ _ (by decide)))

theorem execMrs (d : DecodedInsn) (c : Core) : Kept c (c.execMrs d).2 :=
  .ite _ (fun _ => setGpr c 15 _) fun _ => setGpr c d.rd _

theorem execBranch (d : DecodedInsn) (c : Core) :
    Kept c (c.execBranch d).2 := by
  unfold Core.execBranch
  dsimp only
  exact Kept.trans (.ite _ (fun _ => setGpr c 14 _) fun _ => .refl c)
    (branchTo _ _)

theorem execBx (d : DecodedInsn) (c : Core) : Kept c (c.execBx d).2 := by
  unfold Core.execBx
  dsimp only
  exact (setCpsr (Psr.field_set _ _ (by decide))).trans (branchTo _ _)

theorem execThumbBl (d : DecodedInsn) (c : Core) :
    Kept c (c.execThumbBl d).2 := by
  unfold Core.execThumbBl
  dsimp only
  split
  · exact setGpr c 14 _
  · exact (setGpr c 14 _).trans (branchTo _ _)

theorem writeBackIf (c : Core) (on : Bool) (rn : U8) (wb : U32) :
    Kept c (c.writeBackIf on rn wb) :=
  .ite _ (fun _ => .ite _ (fun _ => setGpr c 15 _) fun _ => setGpr c rn _)
    fun _ => .refl c

theorem loaded (c : Core) (rd : U8) (v : U32) : Kept c (c.loaded rd v).2 := by
  unfold Core.loaded
  split
  · exact branchTo c v
  · exact setGpr c rd v

/-- In User mode the user bank is the window. -/
theorem setListed (c : Core) (userBank : Bool) (i : Fin 16) (v : U32) :
    Kept c (c.setListed userBank i v) := by
  intro hu
  have hgpr : c.regs.Confined (c.regs.setGpr i v) := by
    refine ⟨rfl, rfl, fun x hx => ?_⟩
    rw [Registers.file_setGpr, hu.mode]
    refine upd_other _ _ ?_
    rintro rfl
    exact hx (by rw [number_arch])
  have huser : c.regs.setUserReg i v = c.regs.setGpr i v := by
    unfold Registers.setUserReg
    rw [hu.mode]
    simp [Mode.hasSpsr]
  show c.regs.Confined
    (if userBank then c.regs.setUserReg i v else c.regs.setGpr i v)
  rw [huser, ite_self]
  exact hgpr

/-- The end of a block load, where the user bank and the return from an
exception branch off. -/
theorem ldmFinish (d : DecodedInsn) (wb : U32)
    (pcVal : Option U32) (c : Core) :
    Kept c (Arm32.ldmFinish d wb pcVal c).2 := by
  have hwb : ∀ (p : Prop) [Decidable p] (userBank : Bool),
      Kept c (if p then c.setListed userBank (Core.ix d.rn) wb else c) :=
    fun p _ userBank => .ite _ (fun _ => setListed c _ _ wb) fun _ => .refl c
  unfold Arm32.ldmFinish
  dsimp only
  cases pcVal with
  | none => exact hwb _ _
  | some v =>
    exact (restoreIf (hwb _ _) _).trans
      (.ite _ (fun _ => setGpr _ 15 v) fun _ => branchTo _ v)

end Kept

-- ======== memory forms

section Memory

variable {β α : Type}

/-- The same of whole machines. -/
def Spared (m m' : Machine β) : Prop := Kept m.toCore m'.toCore

instance instIsPreorderSpared : IsPreorder (Machine β) Spared where
  refl m := Kept.refl m.toCore
  trans _ _ _ := Kept.trans

variable [Bus β]

end Memory

-- ======== exceptions

/-- Exception `e` was taken: the machine stands at the vector in the mode of
`e`, in ARM state with interrupts off; the CPSR is in the SPSR of that mode,
and of the registers User mode does not see only its LR is written. -/
structure Entered (e : Exception) (r r' : Registers) : Prop where
  mode : r'.cpsr.mode = e.mode
  vector : r'.gpr 15 = e.vector
  masked : r'.cpsr.i = true ∧ r'.cpsr.t = false
  saved : ∃ b, e.mode.bank = some b
    ∧ (r'.spsr b).bits &&& CONTROL = r.cpsr.bits &&& CONTROL
    ∧ ∀ b' ≠ b, r'.spsr b' = r.spsr b'
  file : ∀ x, Foreign x → x ≠ arch e.mode 14 → r'.file x = r.file x

theorem Entered.after {e : Exception} {r r₁ r' : Registers}
    (h : Entered e r₁ r') (hr : r.Confined r₁) :
    Entered e r r' where
  mode := h.mode
  vector := h.vector
  masked := h.masked
  saved := by
    obtain ⟨b, hb, hcpsr, hother⟩ := h.saved
    exact ⟨b, hb, hcpsr.trans hr.control,
      fun b' hb' => (hother b' hb').trans (congrFun hr.spsr b')⟩
  file x hx hlr := (h.file x hx hlr).trans (hr.file x hx)

section Step

variable {β : Type} [Bus β]

/-- A step of the machine, or anything the host does to it that leaves the
registers alone: interrupt lines, hooks, memory, the cache. -/
inductive Turn : Machine β → Machine β → Prop
  | step (m : Machine β) : Turn m (step m).2
  | host {m m' : Machine β} (h : m'.regs = m.regs) : Turn m m'

end Step

end Remu.Arm32
