/-
Register banking: the window and the banks are one flat map.

The processor has thirty-one general registers. Which of them a register
number names depends on the mode (`arch`); where the value is kept depends
on the current mode (`file`): in the window when the mode sees it, else in
a bank. The one fact behind everything is that a mode switch moves values
between the two and changes none, so a read in any mode, and any read of
another mode's register, finds the last value written to it.
-/
import Mathlib.Tactic.FinCases
import Remu.Arm32.Execute

namespace Remu.Arm32

-- ======== the flat map

/-- The thirty-one general registers. -/
inductive Flat where
  /-- r0–r7. -/
  | low (i : Fin 8)
  /-- r8–r14 of the user bank. -/
  | usr (k : Fin 7)
  /-- r8–r14 of FIQ. -/
  | fiq (k : Fin 7)
  /-- r13–r14 of SVC, ABT, IRQ and UND. -/
  | exc (b : Fin 4) (k : Fin 2)
  | pc
deriving DecidableEq, Repr

/-- The register that number `i` names in mode `m`. -/
def arch (m : Mode) (i : Fin 16) : Flat :=
  if i < 8 then .low (Fin.ofNat 8 i)
  else if i = 15 then .pc
  else if m = .fiq then .fiq (bankIx i)
  else if i < 13 then .usr (bankIx i)
  else match m.bank with
    | some b => .exc (excSlot b) (excIx i)
    | none => .usr (bankIx i)

/-- The number under which a register is seen by the modes that see it. -/
def Flat.number : Flat → Fin 16
  | low i => Fin.ofNat 16 i
  | usr k => bankReg k
  | fiq k => bankReg k
  | exc _ k => excReg k
  | pc => 15

/-- A banked register keeps its number. -/
theorem number_arch (m : Mode) (i : Fin 16) : (arch m i).number = i := by
  cases m <;> revert i <;> decide

/-- A register that two modes number differently is none of r0–r7 and the
PC. -/
theorem not_low {m m' : Mode} {i : Fin 16} (h : arch m i ≠ arch m' i) :
    ¬i < 8 ∧ i ≠ 15 := by
  constructor
  · intro hi
    unfold arch at h
    rw [if_pos hi, if_pos hi] at h
    exact h rfl
  · rintro rfl
    exact h rfl

namespace Registers

/-- The copy of a register outside the window; r0–r7 and the PC have none. -/
def banked (r : Registers) : Flat → U32
  | .low i => r.gpr (Fin.ofNat 16 i)
  | .usr k => r.usrBank k
  | .fiq k => r.fiqBank k
  | .exc b k => r.excBank b k
  | .pc => r.gpr 15

/-- Whether the current mode sees register `x`. -/
def Sees (r : Registers) (x : Flat) : Prop := arch r.cpsr.mode x.number = x

/-- The value of every general register. -/
def file (r : Registers) (x : Flat) : U32 :=
  if arch r.cpsr.mode x.number = x then r.gpr x.number else r.banked x

variable {r : Registers}

/-- Every mode sees R0 to R7 and the PC. -/
theorem sees_low (k : Fin 8) : r.Sees (.low k) := by
  unfold Sees
  generalize r.cpsr.mode = m
  cases m <;> revert k <;> decide

theorem sees_pc : r.Sees .pc := by
  unfold Sees
  generalize r.cpsr.mode = m
  cases m <;> rfl

/-- A register the mode sees is in the window. -/
theorem file_of_sees {x : Flat} (h : r.Sees x) : r.file x = r.gpr x.number := if_pos h

/-- One it does not see is in its bank. -/
theorem file_of_not_sees {x : Flat} (h : ¬r.Sees x) : r.file x = r.banked x := if_neg h

/-- When two modes share a register. -/
theorem sees_arch_iff {m : Mode} {i : Fin 16} :
    r.Sees (arch m i) ↔ arch r.cpsr.mode i = arch m i := by
  unfold Sees
  rw [number_arch]

/-- A read in the current mode. -/
theorem gpr_eq_file (r : Registers) (i : Fin 16) :
    r.gpr i = r.file (arch r.cpsr.mode i) := by
  rw [file_of_sees (sees_arch_iff.2 rfl), number_arch]

-- ======== mode switches

/-- Loading fills the window from the banks. -/
theorem gpr_load (r : Registers) (new : Mode) (i : Fin 16) :
    (r.load new).gpr i = r.banked (arch new i) := by
  cases new <;> fin_cases i <;> rfl

/-- Loading a mode's window leaves the banks alone. -/
theorem banked_load (r : Registers) (new : Mode) (x : Flat) :
    (r.load new).banked x = r.banked x := by
  cases x with
  | low i => cases new <;> fin_cases i <;> rfl
  | usr k => cases new <;> rfl
  | fiq k => cases new <;> rfl
  | exc b k => cases new <;> rfl
  | pc => cases new <;> rfl

/-- Spilling brings the banks up to date with the window. -/
theorem banked_spill (r : Registers) (x : Flat) :
    (r.spill r.cpsr.mode).banked x = r.file x := by
  unfold file
  generalize r.cpsr.mode = old
  cases x with
  | low i => cases old <;> fin_cases i <;> rfl
  | usr k => cases old <;> fin_cases k <;> rfl
  | fiq k => cases old <;> fin_cases k <;> rfl
  | exc b k => cases old <;> fin_cases b <;> fin_cases k <;> rfl
  | pc => cases old <;> rfl

end Registers

/-- The mode is read back. -/
theorem Psr.mode_setMode (p : Psr) (m : Mode) : (p.setMode m).mode = m := by
  have hlow : ((p.bits &&& ~~~psr.MODE) ||| m.bits) &&& 0x1F = m.bits := by
    rw [BitVec.and_or_distrib_right, BitVec.and_assoc]
    cases m <;> simp [Mode.bits]
  unfold Psr.mode Psr.setMode Mode.fromBits
  rw [hlow]
  cases m <;> rfl

/-- The flags lie outside the mode field. -/
theorem Psr.mode_set (p : Psr) {bit : U32} (on : Bool) (h : bit &&& 0x1F = 0) :
    (p.set bit on).mode = p.mode := by
  have hbits : (p.set bit on).bits &&& 0x1F = p.bits &&& 0x1F := by
    cases on
    · have hnot : ~~~bit &&& 0x1F = 0x1F := by
        have hsplit : (0x1F : U32) = (~~~bit &&& 0x1F) ||| (bit &&& 0x1F) := by
          rw [← BitVec.and_or_distrib_right, BitVec.or_comm,
            BitVec.or_not_self]
          exact BitVec.allOnes_and.symm
        rw [h] at hsplit
        exact (hsplit.trans BitVec.or_zero).symm
      show (p.bits &&& ~~~bit) &&& 0x1F = _
      rw [BitVec.and_assoc, hnot]
    · show (p.bits ||| bit) &&& 0x1F = _
      rw [BitVec.and_or_distrib_right, h]
      exact BitVec.or_zero
  unfold Psr.mode Mode.fromBits
  rw [hbits]

namespace Registers

variable {r : Registers}

/-- A switch to the same mode moves no register. -/
theorem setMode_of_eq {new : Mode} (h : r.cpsr.mode = new) :
    r.setMode new = { r with cpsr := r.cpsr.setMode new } := if_pos h

/-- A switch spills one window and loads the other. -/
theorem setMode_of_ne {new : Mode} (h : r.cpsr.mode ≠ new) :
    r.setMode new = { (r.spill r.cpsr.mode).load new with
      cpsr := ((r.spill r.cpsr.mode).load new).cpsr.setMode new } := if_neg h

/-- A switch ends in the mode asked for. -/
theorem mode_setMode (r : Registers) (new : Mode) :
    (r.setMode new).cpsr.mode = new := by
  by_cases h : r.cpsr.mode = new
  · rw [setMode_of_eq h]
    exact Psr.mode_setMode _ _
  · rw [setMode_of_ne h]
    exact Psr.mode_setMode _ _

/-- The CPSR matters through its mode only. -/
theorem file_cpsr {p : Psr} (h : p.mode = r.cpsr.mode) :
    { r with cpsr := p }.file = r.file := by
  funext x
  have hsees : Sees { r with cpsr := p } x ↔ r.Sees x := by
    unfold Sees
    rw [h]
  exact if_congr hsees rfl (by cases x <;> rfl)

/-- A mode switch moves values between the window and the banks and changes
none. -/
theorem file_setMode (r : Registers) (new : Mode) :
    (r.setMode new).file = r.file := by
  by_cases h : r.cpsr.mode = new
  · rw [setMode_of_eq h]
    exact file_cpsr ((Psr.mode_setMode _ _).trans h.symm)
  · funext x
    have hbank : (r.setMode new).banked x = r.file x := by
      rw [setMode_of_ne h]
      exact (banked_load _ new x).trans (r.banked_spill x)
    by_cases hx : (r.setMode new).Sees x
    · rw [file_of_sees hx, ← hbank, setMode_of_ne h]
      have harch : arch new x.number = x := r.mode_setMode new ▸ hx
      have hload := gpr_load (r.spill r.cpsr.mode) new x.number
      rw [harch] at hload
      exact hload.trans (banked_load _ new x).symm
    · rw [file_of_not_sees hx, hbank]

-- ======== writes

/-- A write in the current mode. -/
theorem file_setGpr (r : Registers) (i : Fin 16) (v : U32) :
    (r.setGpr i v).file = upd r.file (arch r.cpsr.mode i) v := by
  funext x
  by_cases hx : r.Sees x
  · have hx' : (r.setGpr i v).Sees x := hx
    rw [file_of_sees hx']
    by_cases hi : x.number = i
    · have hxi : x = arch r.cpsr.mode i := hi ▸ hx.symm
      rw [hxi, upd_same, number_arch]
      exact upd_same _ _ _
    · have hxi : x ≠ arch r.cpsr.mode i := fun h => hi (h ▸ number_arch _ _)
      rw [upd_other _ _ hxi, file_of_sees hx]
      exact upd_other _ _ hi
  · have hx' : ¬(r.setGpr i v).Sees x := hx
    have hxi : x ≠ arch r.cpsr.mode i := fun h => hx (h ▸ sees_arch_iff.2 rfl)
    rw [file_of_not_sees hx', upd_other _ _ hxi, file_of_not_sees hx]
    cases x with
    | low k => exact absurd (sees_low k) hx
    | pc => exact absurd sees_pc hx
    | _ => rfl

/-- Write the copy of a register outside the window. -/
def setBanked (r : Registers) (x : Flat) (v : U32) : Registers :=
  match x with
  | .low i => r.setGpr (Fin.ofNat 16 i) v
  | .usr k => { r with usrBank := upd r.usrBank k v }
  | .fiq k => { r with fiqBank := upd r.fiqBank k v }
  | .exc b k => { r with excBank := upd r.excBank b (upd (r.excBank b) k v) }
  | .pc => r.setGpr 15 v

/-- A write to a bank is no write of the status register. -/
theorem cpsr_setBanked (r : Registers) (x : Flat) (v : U32) :
    (r.setBanked x v).cpsr = r.cpsr := by
  cases x <;> rfl

/-- A write to a bank changes the one register. -/
theorem banked_setBanked {x : Flat} (h : ¬r.Sees x) (v : U32) :
    (r.setBanked x v).banked = upd r.banked x v := by
  funext y
  cases x with
  | low k => exact absurd (sees_low k) h
  | pc => exact absurd sees_pc h
  | usr k => cases y <;> simp [setBanked, banked, upd]
  | fiq k => cases y <;> simp [setBanked, banked, upd]
  | exc b k =>
    cases y with
    | exc b' k' => by_cases hb : b' = b <;> simp [setBanked, banked, upd, hb]
    | _ => rfl

/-- A write to a register outside the window. -/
theorem file_setBanked {x : Flat} (h : ¬r.Sees x) (v : U32) :
    (r.setBanked x v).file = upd r.file x v := by
  have hgpr : (r.setBanked x v).gpr = r.gpr := by
    cases x with
    | low k => exact absurd (sees_low k) h
    | pc => exact absurd sees_pc h
    | _ => rfl
  funext y
  have hsees : (r.setBanked x v).Sees y ↔ r.Sees y := by
    unfold Sees
    rw [cpsr_setBanked]
  by_cases hy : r.Sees y
  · have hxy : y ≠ x := fun e => h (e ▸ hy)
    rw [file_of_sees (hsees.2 hy), upd_other _ _ hxy, file_of_sees hy, hgpr]
  · rw [file_of_not_sees (mt hsees.1 hy), banked_setBanked h]
    by_cases hxy : y = x
    · rw [hxy, upd_same, upd_same]
    · rw [upd_other _ _ hxy, upd_other _ _ hxy, file_of_not_sees hy]

-- ======== reads from another mode

/-- The tests of `regOf` and `setRegOf` ask whether both modes give the
number to one register. -/
theorem sameWindow_iff (cur m : Mode) (i : Fin 16) :
    ((cur.sameBank m || i < 8 || i == 15) = true
      ∨ (!((8 ≤ i && i ≤ 14) && (cur == .fiq) != (m == .fiq)) && !(13 ≤ i && i ≤ 14)) = true)
    ↔ arch cur i = arch m i := by
  cases cur <;> cases m <;> revert i <;> decide

/-- A read of another mode's register: from the window where they share it,
else from the bank. -/
theorem regOf_eq (r : Registers) (m : Mode) (i : Fin 16) :
    r.regOf m i = if arch r.cpsr.mode i = arch m i then r.gpr i
      else r.banked (arch m i) := by
  have hw := sameWindow_iff r.cpsr.mode m i
  by_cases h : arch r.cpsr.mode i = arch m i
  · rw [if_pos h]
    unfold regOf
    rcases hw.2 h with hs | hs
    · exact if_pos hs
    · dsimp only
      rw [if_pos hs, ite_self]
  · obtain ⟨hlow, hpc⟩ := not_low h
    rw [if_neg h]
    unfold regOf arch
    dsimp only
    rw [if_neg fun hs => h (hw.1 (.inl hs)),
      if_neg fun hs => h (hw.1 (.inr hs)), if_neg hlow, if_neg hpc]
    cases m with
    | fiq => rfl
    | _ => by_cases hi : i < 13 <;> simp only [hi] <;> rfl

/-- A write of another mode's register, the same way. -/
theorem setRegOf_eq (r : Registers) (m : Mode) (i : Fin 16) (v : U32) :
    r.setRegOf m i v
      = if arch r.cpsr.mode i = arch m i then r.setGpr i v
        else r.setBanked (arch m i) v := by
  have hw := sameWindow_iff r.cpsr.mode m i
  by_cases h : arch r.cpsr.mode i = arch m i
  · rw [if_pos h]
    unfold setRegOf
    rcases hw.2 h with hs | hs
    · exact if_pos hs
    · dsimp only
      rw [if_pos hs, ite_self]
  · obtain ⟨hlow, hpc⟩ := not_low h
    rw [if_neg h]
    unfold setRegOf arch
    dsimp only
    rw [if_neg fun hs => h (hw.1 (.inl hs)),
      if_neg fun hs => h (hw.1 (.inr hs)), if_neg hlow, if_neg hpc]
    cases m with
    | fiq => rfl
    | _ => by_cases hi : i < 13 <;> simp only [hi] <;> rfl

/-- A read of any mode's register. -/
theorem regOf_eq_file (r : Registers) (m : Mode) (i : Fin 16) :
    r.regOf m i = r.file (arch m i) := by
  rw [regOf_eq]
  by_cases h : arch r.cpsr.mode i = arch m i
  · rw [if_pos h, gpr_eq_file, h]
  · rw [if_neg h, file_of_not_sees (mt sees_arch_iff.1 h)]

/-- A write of any mode's register. -/
theorem file_setRegOf (r : Registers) (m : Mode) (i : Fin 16) (v : U32) :
    (r.setRegOf m i v).file = upd r.file (arch m i) v := by
  rw [setRegOf_eq]
  by_cases h : arch r.cpsr.mode i = arch m i
  · rw [if_pos h, file_setGpr, h]
  · rw [if_neg h, file_setBanked (mt sees_arch_iff.1 h)]

-- The user bank is what User mode sees.

/-- The user bank is User mode's view. -/
theorem userReg_eq (r : Registers) (i : Fin 16) :
    r.userReg i = r.regOf .usr i := by
  unfold userReg regOf
  generalize r.cpsr.mode = cur
  cases cur <;> fin_cases i <;> rfl

theorem setUserReg_eq (r : Registers) (i : Fin 16) (v : U32) :
    r.setUserReg i v = r.setRegOf .usr i v := by
  unfold setUserReg setRegOf
  generalize r.cpsr.mode = cur
  cases cur <;> fin_cases i <;> rfl

end Registers

-- ======== runs

/-- What a run does to the registers, by instructions, exception entries
and the host. -/
inductive Action where
  | setMode (m : Mode)
  /-- MSR with its field mask, to the CPSR or an SPSR. -/
  | msr (value : U32) (aux : U8)
  | raise (e : Exception)
  /-- The S-bit PC writes: the CPSR from the SPSR, then a branch. -/
  | exceptionReturn (target : U32)
  /-- A register write in the current mode. -/
  | setGpr (i : Fin 16) (v : U32)
  | setUserReg (i : Fin 16) (v : U32)
  | setRegOf (m : Mode) (i : Fin 16) (v : U32)

namespace Action

/-- What the code does. -/
def apply (c : Core) : Action → Core
  | setMode m => { c with regs := c.regs.setMode m }
  | msr value aux => c.execMsr value aux
  | raise e => c.raise e
  | exceptionReturn target => c.restoreCpsr.branchTo target
  | setGpr i v => { c with regs := c.regs.setGpr i v }
  | setUserReg i v => { c with regs := c.regs.setUserReg i v }
  | setRegOf m i v => { c with regs := c.regs.setRegOf m i v }

/-- The architectural registers an action writes, in order. -/
def writes (c : Core) : Action → List (Flat × U32)
  | setMode _ => []
  | msr _ _ => []
  | raise e => [(arch e.mode 14, c.returnAddress e), (.pc, e.vector)]
  | exceptionReturn target =>
    [(.pc, if c.restoreCpsr.regs.cpsr.t then target &&& ~~~1 else target)]
  | setGpr i v => [(arch c.regs.cpsr.mode i, v)]
  | setUserReg i v => [(arch .usr i, v)]
  | setRegOf m i v => [(arch m i, v)]

end Action

/-- Actions in order. -/
def runActions (c : Core) (as : List Action) : Core := as.foldl Action.apply c

/-- Every write of a run, in order. -/
def history (c : Core) : List Action → List (Flat × U32)
  | [] => []
  | a :: as => a.writes c ++ history (a.apply c) as

/-- The last value written to `x`, or the one it had at the start. -/
def lastWritten (start : Flat → U32) (ws : List (Flat × U32)) (x : Flat) : U32 :=
  ((ws.reverse.find? fun w => w.1 == x).map (·.2)).getD (start x)

/-- The last writes of a run cut in two. -/
theorem lastWritten_append (start : Flat → U32) (ws vs : List (Flat × U32)) :
    lastWritten start (ws ++ vs) = lastWritten (lastWritten start ws) vs := by
  funext x
  unfold lastWritten
  rw [List.reverse_append, List.find?_append]
  cases vs.reverse.find? fun w => w.1 == x <;> rfl

/-- One write more. -/
theorem lastWritten_cons (start : Flat → U32) (w : Flat × U32)
    (ws : List (Flat × U32)) :
    lastWritten start (w :: ws) = lastWritten (upd start w.1 w.2) ws := by
  have hone : lastWritten start [w] = upd start w.1 w.2 := by
    funext x
    by_cases hx : x = w.1
    · rw [hx, upd_same]
      simp [lastWritten]
    · rw [upd_other _ _ hx]
      simp [lastWritten, Ne.symm hx]
  rw [← hone]
  exact lastWritten_append start [w] ws

-- ------------------------------------------------------------- one action

/-- Status writes do not touch the file. -/
theorem Registers.file_spsrStore (r : Registers) (p : Psr) :
    (r.spsrStore p).file = r.file := by
  unfold Registers.spsrStore
  split
  · rfl
  · rfl

theorem Registers.cpsr_spsrStore (r : Registers) (p : Psr) :
    (r.spsrStore p).cpsr = r.cpsr := by
  unfold Registers.spsrStore
  split
  · rfl
  · rfl

theorem Registers.file_setSpsr (r : Registers) (value mask : U32) :
    (r.setSpsr value mask).file = r.file := by
  unfold Registers.setSpsr
  split
  · rfl
  · rfl

namespace Core

/-- A change of mode does not touch the flat file. -/
theorem file_installCpsr (c : Core) (next : Psr) :
    (c.installCpsr next).regs.file = c.regs.file := by
  unfold installCpsr
  rw [Registers.file_cpsr (c.regs.mode_setMode next.mode).symm,
    Registers.file_setMode]

theorem file_restoreCpsr (c : Core) :
    c.restoreCpsr.regs.file = c.regs.file := by
  unfold restoreCpsr
  split
  · rfl
  · exact c.file_installCpsr _

theorem file_execMsr (c : Core) (value : U32) (aux : U8) :
    (c.execMsr value aux).regs.file = c.regs.file := by
  unfold execMsr
  dsimp only
  by_cases hspsr : aux &&& sr.SPSR != 0
  · rw [if_pos hspsr]
    exact c.regs.file_setSpsr _ _
  · rw [if_neg hspsr]
    exact c.file_installCpsr _

/-- A branch writes the PC. -/
theorem file_branchTo (c : Core) (target : U32) :
    (c.branchTo target).regs.file
      = upd c.regs.file .pc
        (if c.regs.cpsr.t then target &&& ~~~1 else target) :=
  c.regs.file_setGpr 15 _

/-- Exception entry writes the banked LR and the PC. -/
theorem file_raise (c : Core) (e : Exception) :
    (c.raise e).regs.file
      = upd (upd c.regs.file (arch e.mode 14) (c.returnAddress e)) .pc
        e.vector := by
  have hmode :
    ((c.regs.setMode e.mode).spsrStore c.regs.cpsr).cpsr.mode = e.mode := by
    rw [Registers.cpsr_spsrStore, Registers.mode_setMode]
  have hflags : ∀ p : Psr,
    ((p.set psr.T false).set psr.I true).mode = p.mode := fun p => by
    rw [Psr.mode_set _ _ (by decide), Psr.mode_set _ _ (by decide)]
  have hfile :
      (((c.regs.setMode e.mode).spsrStore c.regs.cpsr).setGpr 14
      (c.returnAddress e)).file
      = upd c.regs.file (arch e.mode 14) (c.returnAddress e) := by
    rw [Registers.file_setGpr, hmode, Registers.file_spsrStore,
      Registers.file_setMode]
  have hpc : ∀ m, arch m 15 = .pc := fun _ => rfl
  unfold raise
  dsimp only
  rw [Registers.file_setGpr, hpc, Registers.file_cpsr, hfile]
  split
  · rw [Psr.mode_set _ _ (by decide), hflags]
  · rw [hflags]

end Core

/-- What an action writes is all it changes. -/
theorem Action.file_apply (c : Core) (a : Action) :
    (a.apply c).regs.file = lastWritten c.regs.file (a.writes c) := by
  cases a with
  | setMode m => exact c.regs.file_setMode m
  | msr value aux => exact c.file_execMsr value aux
  | raise e => 
    unfold Action.writes
    rw [lastWritten_cons, lastWritten_cons]
    exact c.file_raise e
  | exceptionReturn target =>
    unfold Action.writes
    rw [lastWritten_cons, ← c.file_restoreCpsr]
    exact c.restoreCpsr.file_branchTo target
  | setGpr i v =>
    unfold Action.writes
    rw [lastWritten_cons]
    exact c.regs.file_setGpr i v
  | setUserReg i v =>
    unfold Action.writes
    rw [lastWritten_cons]
    show (c.regs.setUserReg i v).file = _
    rw [Registers.setUserReg_eq]
    exact c.regs.file_setRegOf .usr i v
  | setRegOf m i v =>
    unfold Action.writes
    rw [lastWritten_cons]
    exact c.regs.file_setRegOf m i v

/-- The flat map of a run is the last write to each register. -/
theorem file_runActions (c : Core) (as : List Action) :
    (runActions c as).regs.file = lastWritten c.regs.file (history c as) := by
  induction as generalizing c with
  | nil => rfl
  | cons a as ih =>
    have hrest := ih (a.apply c)
    rw [Action.file_apply, ← lastWritten_append] at hrest
    exact hrest

-- ======== the result

/-- Banking: after any sequence of mode switches, status-register writes,
exception entries and returns and register writes, every read finds the last
value written to the register it names, whichever mode it names it in. -/
theorem reads_lastWritten (c : Core) (as : List Action) :
    (∀ i, (runActions c as).regs.gpr i
        = lastWritten c.regs.file (history c as)
          (arch (runActions c as).regs.cpsr.mode i))
    ∧ (∀ m i, (runActions c as).regs.regOf m i
        = lastWritten c.regs.file (history c as) (arch m i))
    ∧ ∀ i, (runActions c as).regs.userReg i
        = lastWritten c.regs.file (history c as) (arch .usr i) := by
  rw [← file_runActions]
  refine ⟨fun i => Registers.gpr_eq_file _ i,
    fun m i => Registers.regOf_eq_file _ m i, fun i => ?_⟩
  rw [Registers.userReg_eq, Registers.regOf_eq_file]

end Remu.Arm32
