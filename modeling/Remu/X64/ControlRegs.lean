/-
The control registers agree.

Long mode is spread over three registers: EFER.LME asks for it, CR0.PG
turns it on, EFER.LMA says it is on, and CR4.PAE has to be set for as long
as it is. `ControlOk` is the agreement of the three, and each writer keeps
it from its own side: a checked update either fails, and then nothing was
written, or succeeds into a file that agrees again. Everything between two
writes is left open: whatever keeps the four registers is allowed.
-/
import Remu.X64.CoherentRun

namespace Remu.X64

open Word

variable {β : Type} {α γ : Type}

-- ======== the agreement

/-- Long mode is active exactly when it is enabled and paging is on; then
PAE is on; and paging needs protection. -/
structure ColdRegs.ControlOk (r : ColdRegs) : Prop where
  active : r.msr.efer &&& efer.LMA ≠ 0 ↔ r.msr.efer &&& efer.LME ≠ 0
    ∧ r.cr0 &&& cr0.PG ≠ 0
  pae : r.msr.efer &&& efer.LMA ≠ 0 → r.cr4 &&& cr4.PAE ≠ 0
  protect : r.cr0 &&& cr0.PG ≠ 0 → r.cr0 &&& cr0.PE ≠ 0

/-- CR0, CR3, CR4 and EFER are the same. -/
structure ColdRegs.SameControl (r r' : ColdRegs) : Prop where
  cr0 : r.cr0 = r'.cr0
  cr3 : r.cr3 = r'.cr3
  cr4 : r.cr4 = r'.cr4
  efer : r.msr.efer = r'.msr.efer

/-- Registers that agree on the control bits agree on their consistency. -/
theorem ColdRegs.SameControl.controlOk {r r' : ColdRegs} (h : r.SameControl r')
    (hr : r'.ControlOk) : r.ControlOk := by
  obtain ⟨hcr0, -, hcr4, hefer⟩ := h
  refine ⟨?_, ?_, ?_⟩
  · rw [hefer, hcr0]
    exact hr.active
  · rw [hefer, hcr4]
    exact hr.pae
  · rw [hcr0]
    exact hr.protect

/-- A checked register update that keeps the agreement. -/
def KeepsControl (g : Registers → Except Exception Registers) : Prop :=
  ∀ r r', g r = .ok r' → r.toColdRegs.ControlOk → r'.toColdRegs.ControlOk

theorem KeepsControl.ite {c : Prop} [Decidable c]
    {f g : Registers → Except Exception Registers}
    (hf : KeepsControl f) (hg : KeepsControl g) :
    KeepsControl fun r => if c then f r else g r := by
  by_cases hc : c
  · simpa only [if_pos hc] using hf
  · simpa only [if_neg hc] using hg

/-- A write that is refused keeps it. -/
theorem KeepsControl.error (e : Exception) :
    KeepsControl fun _ => .error e := by
  intro r r' h
  cases h

/-- An update elsewhere. -/
theorem KeepsControl.ok {g : Registers → Registers}
    (hg : ∀ r, (g r).SameControl
      r.toColdRegs := by intro r; exact ⟨rfl, rfl, rfl, rfl⟩) :
    KeepsControl fun r => .ok (g r) := by
  intro r r' h hok
  cases h
  exact (hg r).controlOk hok

-- ======== the writers

/-- The flag of a single bit is the bit. -/
theorem and_twoPow_bne (x : U64) {m : U64} {k : Nat}
    (hm : m = BitVec.twoPow 64 k) (hk : k < 64) :
    (x &&& m != 0) = x.getLsbD k := by
  rw [hm, BitVec.and_twoPow]
  have hne : BitVec.twoPow 64 k ≠ 0 := by
    intro h
    have hbit := congrArg (fun y : U64 => y.getLsbD k) h
    simp [hk] at hbit
  cases x.getLsbD k with
  | false => simp
  | true => simpa using hne

/-- The control bits by their positions. -/
theorem lma_bit (x : U64) : (x &&& efer.LMA != 0) = x.getLsbD 10 :=
  and_twoPow_bne x (by decide) (by decide)

theorem lme_bit (x : U64) : (x &&& efer.LME != 0) = x.getLsbD 8 :=
  and_twoPow_bne x (by decide) (by decide)

theorem pg_bit (x : U64) : (x &&& cr0.PG != 0) = x.getLsbD 31 :=
  and_twoPow_bne x (by decide) (by decide)

theorem pe_bit (x : U64) : (x &&& cr0.PE != 0) = x.getLsbD 0 :=
  and_twoPow_bne x (by decide) (by decide)

theorem pae_bit (x : U64) : (x &&& cr4.PAE != 0) = x.getLsbD 5 :=
  and_twoPow_bne x (by decide) (by decide)

/-- A flag is set when its bit is. -/
theorem ne_zero_of_bne {x : U64} {b : Bool} (h : (x != 0) = b) :
    x ≠ 0 ↔ b = true := by
  rw [← h, bne_iff_ne]

/-- The agreement in terms of bits. -/
theorem ColdRegs.controlOk_iff (r : ColdRegs) : r.ControlOk ↔
    (r.msr.efer.getLsbD 10 = true ↔ r.msr.efer.getLsbD 8 = true
      ∧ r.cr0.getLsbD 31 = true)
      ∧ (r.msr.efer.getLsbD 10 = true → r.cr4.getLsbD 5 = true)
      ∧ (r.cr0.getLsbD 31 = true → r.cr0.getLsbD 0 = true) := by
  rw [← ne_zero_of_bne (lma_bit _), ← ne_zero_of_bne (lme_bit _),
    ← ne_zero_of_bne (pg_bit _), ← ne_zero_of_bne (pe_bit _),
    ← ne_zero_of_bne (pae_bit _)]
  exact ⟨fun h => ⟨h.active, h.pae, h.protect⟩, fun h => ⟨h.1, h.2.1, h.2.2⟩⟩

namespace Registers

/-- A write of CR0 keeps the control bits consistent or is refused; likewise
each writer below. -/
theorem keepsControl_writeCr0 (v : U64) : KeepsControl (writeCr0 · v) := by
  intro r r' h hok
  rw [ColdRegs.controlOk_iff] at hok ⊢
  have heq : ∀ x m : U64, (x &&& m == 0) = !(x &&& m != 0) := fun x m => by
    simp [bne]
  simp only [writeCr0, heq, lme_bit, pg_bit, pae_bit, Bool.and_eq_true,
    Bool.not_eq_true'] at h
  split at h
  · cases h
  case isFalse hprotect =>
  split at h
  · cases h
  case isFalse hpae =>
  cases h
  rw [ne_zero_of_bne (pg_bit v), ← not_ne_iff (b := (0 : U64)),
    ne_zero_of_bne (pe_bit v)] at hprotect
  have hPG : (v ||| cr0.ET).getLsbD 31 = v.getLsbD 31 := by simp
  have hPE : (v ||| cr0.ET).getLsbD 0 = v.getLsbD 0 := by simp
  dsimp only
  rw [hPG, hPE]
  have hset : ∀ e : U64, (e ||| efer.LMA).getLsbD 10 = true
    ∧ (e ||| efer.LMA).getLsbD 8 = e.getLsbD 8 :=
    fun e => ⟨by simp, by simp⟩
  have hclear : ∀ e : U64, (e &&& ~~~efer.LMA).getLsbD 10 = false
      ∧ (e &&& ~~~efer.LMA).getLsbD 8 = e.getLsbD 8 :=
        fun e => ⟨by simp, by simp⟩
  generalize hold : r.cr0.getLsbD 31 = old at *
  generalize hnew : v.getLsbD 31 = new at *
  generalize hlme : r.msr.efer.getLsbD 8 = lme at *
  cases old <;> cases new <;> cases lme <;> simp_all

theorem keepsControl_writeCr (n : U8) (v : U64) :
    KeepsControl (writeCr n v) := by
  unfold writeCr
  refine .ite (keepsControl_writeCr0 v)
    (.ite .ok (.ite ?_ (.ite ?_ (.ite ?_ (.error _)))))
  · refine .ite (.error _) fun r r' h hok => ?_
    cases h
    exact ⟨hok.active, hok.pae, hok.protect⟩
  · -- PAE may go only while long mode is not active.
    refine .ite (.error _) fun r r' h hok => ?_
    split at h
    · cases h
    case isFalse hpae =>
    cases h
    exact ⟨hok.active, fun hlma hzero => hpae ⟨hzero, hlma⟩, hok.protect⟩
  · exact .ite (.error _) .ok

theorem keepsControl_lmsw (v : U64) :
    KeepsControl fun r => .ok (r.lmsw v) := by
  intro r r' h hok
  cases h
  rw [ColdRegs.controlOk_iff] at hok ⊢
  have hPG : (r.lmsw v).cr0.getLsbD 31 = r.cr0.getLsbD 31 := by simp [lmsw]
  have hPE : (r.lmsw v).cr0.getLsbD 0 = (r.cr0.getLsbD 0 || v.getLsbD 0) := by
    simp [lmsw]
  rw [hPG, hPE]
  refine ⟨hok.1, hok.2.1, fun hpg => ?_⟩
  rw [hok.2.2 hpg, Bool.true_or]

theorem keepsControl_clearTs : KeepsControl fun r => .ok r.clearTs := by
  intro r r' h hok
  cases h
  rw [ColdRegs.controlOk_iff] at hok ⊢
  have hPG : r.clearTs.cr0.getLsbD 31 = r.cr0.getLsbD 31 := by simp [clearTs]
  have hPE : r.clearTs.cr0.getLsbD 0 = r.cr0.getLsbD 0 := by simp [clearTs]
  rw [hPG, hPE]
  exact hok

theorem keepsControl_writeEfer (v : U64) : KeepsControl (writeEfer v) := by
  intro r r' h hok
  simp only [writeEfer] at h
  split at h
  · cases h
  split at h
  · cases h
  case isFalse.isFalse hlma =>
  split at h
  · cases h
  case isFalse hlme =>
  cases h
  have hsame : v &&& efer.LMA = r.msr.efer &&& efer.LMA :=
    and_eq_of_xor_and (not_ne_iff.1 hlma)
  refine ⟨?_, fun hl => hok.pae (hsame ▸ hl), hok.protect⟩
  dsimp only [setMsr]
  rw [hsame, hok.active]
  -- LME is free only while paging is off, and then neither side holds.
  refine and_congr_left fun hpg => ?_
  have hkept : v &&& efer.LME = r.msr.efer &&& efer.LME :=
    and_eq_of_xor_and (by_contra fun hne => hlme ⟨hne, hpg⟩)
  rw [hkept]

theorem keepsControl_wrmsr (index : U32) (v : U64) :
    KeepsControl (wrmsr index v) := by
  unfold wrmsr
  repeat' with_reducible apply KeepsControl.ite
  all_goals first
    | exact keepsControl_writeEfer v
    | exact .error _
    | exact .ok

end Registers

/-- Power-on registers are consistent. -/
theorem controlOk_new : Registers.new.toColdRegs.ControlOk :=
  ⟨by decide, by decide, by decide⟩

/-- The registers of a flat start in long mode are consistent. -/
theorem controlOk_longFlat (r : Registers) (rip rsp : U64) :
    (Machine.longFlatRegs r rip rsp).toColdRegs.ControlOk := by
  rw [ColdRegs.controlOk_iff]
  simp [Machine.longFlatRegs]

-- ======== the instructions

variable [Bus β]

/-- A computation that keeps the agreement, and when it fails the control
registers. -/
def Controlled (x : Cold β α) : Prop := ∀ s,
  (s.regs.ControlOk → (x.run s).2.regs.ControlOk)
    ∧ ∀ e, (x.run s).1 = .error e →
      (x.run s).2.regs.SameControl s.regs.toColdRegs

/-- Calm code leaves every cold register alone. -/
theorem CalmSteps.toColdRegs {s s' : Machine β} (h : CalmSteps s s') :
    s'.regs.toColdRegs = s.regs.toColdRegs := by
  induction h with
  | refl => rfl
  | tail _ hstep ih =>
    rw [← ih]
    cases hstep <;> rfl

omit [Bus β] in
/-- Registers that have not moved. -/
theorem sameControl_of_eq {r r' : ColdRegs} (h : r = r') : r.SameControl r' :=
  h ▸ ⟨rfl, rfl, rfl, rfl⟩

/-- A computation that cannot fail and leaves the cold registers alone. -/
def Harmless (x : Cold β α) : Prop :=
  ∀ s, (∃ a, (x.run s).1 = .ok a)
    ∧ (x.run s).2.regs.toColdRegs = s.regs.toColdRegs

/-- The rules of what leaves control bits alone. -/
theorem Harmless.pure (a : α) : Harmless (pure a : Cold β α) :=
  fun _ => ⟨⟨a, rfl⟩, rfl⟩

theorem Harmless.flushTlb : Harmless (flushTlb.lift : Cold β Unit) :=
  fun _ => ⟨⟨(), rfl⟩, rfl⟩

theorem Harmless.setCycles (n : U64) : Harmless (setCycles n : Cold β Unit) :=
  fun _ => ⟨⟨(), rfl⟩, rfl⟩

theorem Harmless.whenever (c : Prop) [Decidable c]
    {m : Cold β Unit} (hm : Harmless m) :
    Harmless (whenever c m) := by
  unfold X64.whenever
  split
  · exact hm
  · exact .pure ()

/-- A sequence is harmless where its parts are. -/
theorem Harmless.bind {x : Cold β α} {f : α → Cold β γ} (hx : Harmless x)
    (hf : ∀ a, Harmless (f a)) : Harmless (x >>= f) := by
  intro s
  obtain ⟨⟨a, ha⟩, hs⟩ := hx s
  rw [Bounded.run_bind, Fallible.bind_of_ok (Prod.ext ha rfl)]
  obtain ⟨hok, hs'⟩ := hf a (x.run s).2
  exact ⟨hok, hs'.trans hs⟩

/-- Reading the state first. -/
theorem Controlled.self {f : Machine β → Cold β α}
    (hf : ∀ s, Controlled (f s)) :
    Controlled (self >>= f) := fun s => hf s s

/-- Calm code first. -/
theorem Controlled.bind {x : Calm β α} {f : α → Cold β γ}
    (hf : ∀ a, Controlled (f a)) :
    Controlled (x.lift >>= f) := by
  intro s
  have hx := CalmSteps.toColdRegs (x.bound s)
  rw [Bounded.run_bind, Bounded.run_lift, Fallible.bind_apply]
  rcases hrun : x.run s with ⟨e | a, s'⟩ <;> rw [hrun] at hx
  · exact ⟨(sameControl_of_eq hx).controlOk, fun _ _ => sameControl_of_eq hx⟩
  · have h := hf a s'
    rw [hx] at h
    exact h

/-- A checked update, and nothing that fails behind it. -/
theorem Controlled.mode {g : Registers → Except Exception Registers}
    {hmode : KeepsMode g}
    {f : Unit → Cold β α} (hg : KeepsControl g) (hf : Harmless (f ())) :
    Controlled (modeWrite g hmode >>= f) := by
  intro s
  rw [Bounded.run_bind, Fallible.bind_apply, run_modeWrite]
  cases hr : g s.regs with
  | error e =>
    have hsame : s.prepared.regs.toColdRegs = s.regs.toColdRegs :=
      congrArg Registers.toColdRegs s.regs_prepared
    exact ⟨(sameControl_of_eq hsame).controlOk,
      fun _ _ => sameControl_of_eq hsame⟩
  | ok r =>
    obtain ⟨⟨a, ha⟩, hs⟩ := hf { s.prepared with regs := r }
    refine ⟨fun hok => ?_, fun e he => ?_⟩
    · exact (sameControl_of_eq hs).controlOk (hg _ _ hr hok)
    · dsimp only at he
      rw [ha] at he
      cases he

/-- CLTS is controlled; likewise each instruction below that writes a control
register. -/
theorem controlled_clts : Controlled (clts : Cold β U32) :=
  .bind fun _ => .mode Registers.keepsControl_clearTs (.pure _)

theorem controlled_lmsw (op : Operand) : Controlled (lmsw op : Cold β U32) :=
  .bind fun _ => .bind fun _ =>
    .mode (Registers.keepsControl_lmsw _)
      (Harmless.flushTlb.bind fun _ => .pure _)

theorem controlled_movCrR : Controlled (movCrR : Cold β U32) := by
  refine .bind fun _ => .bind fun m => .self fun s => ?_
  unfold writeCr
  rw [bind_assoc]
  exact .mode (Registers.keepsControl_writeCr _ _)
    ((Harmless.whenever _ .flushTlb).bind fun _ => .pure _)

theorem controlled_wrmsrArm : Controlled (wrmsrArm : Cold β U32) := by
  refine .bind fun _ => .self fun s => ?_
  dsimp only
  split
  · exact .mode .ok ((Harmless.setCycles _).bind fun _ => .pure _)
  · exact .mode (Registers.keepsControl_wrmsr _ _)
      ((Harmless.whenever _ .flushTlb).bind fun _ => .pure _)

-- ======== runs

/-- The instructions that write CR0, CR3, CR4 or EFER. -/
inductive ControlInsn where
  | movCr
  | lmsw (op : Operand)
  | clts
  | wrmsr

/-- Their arms. -/
def ControlInsn.exec : ControlInsn → Cold β U32
  | .movCr => movCrR
  | .lmsw op => X64.lmsw op
  | .clts => X64.clts
  | .wrmsr => wrmsrArm

/-- Any of them, refused or not. -/
theorem ControlInsn.controlled (i : ControlInsn) :
    Controlled (i.exec : Cold β U32) := by
  cases i with
  | movCr => exact controlled_movCrR
  | lmsw op => exact controlled_lmsw op
  | clts => exact controlled_clts
  | wrmsr => exact controlled_wrmsrArm

/-- A control-register write, successful or not, or anything else that
leaves the four registers as they are. -/
inductive ControlStep : Machine β → Machine β → Prop
  | insn (i : ControlInsn) (s : Machine β) : ControlStep s (i.exec.run s).2
  | reset (s : Machine β) : ControlStep s s.reset
  | setupLongFlat (s : Machine β) (rip rsp : U64) :
    ControlStep s (s.setupLongFlat rip rsp)
  | other (s s' : Machine β) (h : s'.regs.SameControl s.regs.toColdRegs) :
    ControlStep s s'

/-- One step of a run. -/
theorem ControlStep.controlOk {s s' : Machine β} (h : ControlStep s s')
    (hok : s.regs.ControlOk) : s'.regs.ControlOk := by
  cases h with
  | insn i => exact (i.controlled s).1 hok
  | reset => exact controlOk_new
  | setupLongFlat rip rsp => exact controlOk_longFlat _ _ _
  | other _ _ hsame => exact hsame.controlOk hok

/-- In every state a machine reaches from reset the control registers
agree, and there a control-register write that fails writes none of
them. -/
theorem control_invariant (s₀ s : Machine β)
    (h : Relation.ReflTransGen ControlStep s₀.reset s) :
    s.regs.ControlOk ∧ ∀ (i : ControlInsn) (e : Exception),
      (i.exec.run s).1 = .error e →
      (i.exec.run s).2.regs.SameControl s.regs.toColdRegs := by
  refine ⟨?_, fun i e he => (i.controlled s).2 e he⟩
  induction h with
  | refl => exact controlOk_new
  | tail _ hstep ih => exact hstep.controlOk ih

-- Long mode, turned on from reset the way an operating system does it.

/-- The two operands of a control-register write. -/
def Machine.withOperands (s : Machine β) (rax rcx : U64) : Machine β :=
  { s with regs := { s.regs with gpr := upd (upd s.regs.gpr reg.RAX rax) reg.RCX rcx } }

/-- A control-register write with these operands. -/
def ControlInsn.after (i : ControlInsn) (rax rcx : U64) (s : Machine β) :
    Machine β :=
  (i.exec.run (s.withOperands rax rcx)).2

/-- An instruction is a run of steps: its operands put in place, then
itself. -/
theorem ControlInsn.steps (i : ControlInsn) (rax rcx : U64) (s : Machine β) :
    Relation.ReflTransGen ControlStep s (i.after rax rcx s) :=
  .tail (.single (.other s (s.withOperands rax rcx) ⟨rfl, rfl, rfl, rfl⟩))
    (.insn i _)

/-- The ModRM bytes of a move to CR4 and of one to CR0 at the reset vector. -/
def crMoves : Machine (FlatBus Unit) :=
  { Cpu.new with
    bus :=
      { mem := fun a => if a = 0xFFFFFFF0 then 0xE0 else if a = 0xFFFFFFF1 then 0xC0 else 0
        ports := () } }

/-- CR4.PAE, EFER.LME, then CR0.PE with CR0.PG. -/
def longEntry : Machine (FlatBus Unit) :=
  ControlInsn.movCr.after 0x80000001 0 <| ControlInsn.wrmsr.after
    0x100 0xC0000080 <|
    ControlInsn.movCr.after 0x20 0 crMoves.reset

/-- The three writes reach long mode, where the registers agree; there EFER
cannot be cleared, and the attempt leaves them as they are. -/
theorem control_invariant_longEntry :
    longEntry.longMode = true ∧ longEntry.regs.ControlOk
      ∧ (ControlInsn.wrmsr.exec.run (longEntry.withOperands 0 0xC0000080)).1
        = .error (.gp 0)
      ∧ (ControlInsn.wrmsr.exec.run
          (longEntry.withOperands 0 0xC0000080)).2.regs.SameControl
          longEntry.regs.toColdRegs := by
  have hreach : Relation.ReflTransGen ControlStep crMoves.reset longEntry :=
    ((ControlInsn.movCr.steps 0x20 0 crMoves.reset).trans
      (ControlInsn.wrmsr.steps 0x100 0xC0000080 _)).trans
      (ControlInsn.movCr.steps 0x80000001 0 _)
  have hnext :=
    hreach.tail (.other _ (longEntry.withOperands 0 0xC0000080)
      ⟨rfl, rfl, rfl, rfl⟩)
  have hfails :
    (ControlInsn.wrmsr.exec.run (longEntry.withOperands 0 0xC0000080)).1
    = .error (.gp 0) := by
    decide
  exact ⟨by decide, (control_invariant crMoves longEntry hreach).1,
    hfails, (control_invariant crMoves _ hnext).2 .wrmsr _ hfails⟩

end Remu.X64
