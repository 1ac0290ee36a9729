/-
The interrupt protocol over any sequence of calls.

A run is a list of calls from power-on: changes of the two lines, resets and
steps. `trace` records with each call what it came to. The processor's latch
and lines are then facts about the record: an NMI is latched when there was
an edge and neither a reset nor a step of a running processor since, and a
line is at the level it was last put to. The invariant that carries the
induction over the calls is `Tracks`.
-/
import Remu.Lib.Lists
import Remu.Mos6502.Steady

namespace Remu.Mos6502

open Status (I U)

variable {β : Type} [Bus β]

-- ======== calls

/-- What a host may ask of the processor. -/
inductive Call where
  | setNmi (level : Bool)
  | triggerNmi
  | setIrq (level : Bool)
  | reset
  | step
deriving DecidableEq, Repr

/-- What a call comes to. -/
inductive Event where
  /-- An NMI is latched. -/
  | edge
  /-- A line is put to a level. -/
  | level
  | reset
  /-- A step of a halted processor. -/
  | idle
  | nmi
  | irq
  | instruction
deriving DecidableEq, Repr

namespace Machine

/-- What each call does. -/
def call (m : Machine β) : Call → Machine β
  | .setNmi level => { m with cpu := m.cpu.setNmi level }
  | .triggerNmi => { m with cpu := m.cpu.triggerNmi }
  | .setIrq level => { m with cpu := m.cpu.setIrq level }
  | .reset => (Exec.reset m).2
  | .step => (Exec.step m).2

omit [Bus β] in
/-- What it is in the record: a step may be idle, an instruction or an
interrupt. -/
def event (m : Machine β) : Call → Event
  | .setNmi level => if m.cpu.prevNmi && !level then .edge else .level
  | .triggerNmi => .edge
  | .setIrq _ => .level
  | .reset => .reset
  | .step =>
    if m.cpu.halted then .idle
    else if m.cpu.nmiPending then .nmi
    else if m.cpu.irqLine && !m.cpu.regs.p.contains I then .irq
    else .instruction

/-- A history of calls. -/
def run (h : List Call) (m : Machine β) : Machine β := h.foldl call m

/-- The calls of a run and what they came to. -/
def trace : List Call → Machine β → List (Call × Event)
  | [], _ => []
  | c :: h, m => (c, m.event c) :: trace h (m.call c)

/-- One call more. -/
theorem run_concat (h : List Call) (c : Call) (m : Machine β) :
    run (h ++ [c]) m = (run h m).call c :=
  List.foldl_concat ..

/-- One entry more. -/
theorem trace_concat (h : List Call) (c : Call) (m : Machine β) :
    trace (h ++ [c]) m = trace h m ++ [(c, (run h m).event c)] := by
  induction h generalizing m with
  | nil => rfl
  | cons d h ih => exact congrArg _ (ih (m.call d))

/-- Power-on. -/
def boot (bus : β) : Machine β := ⟨Cpu.new, bus⟩

/-- What a step does when it comes to an event. -/
def does (m : Machine β) : Event → Except Empty U8 × Machine β
  | .nmi => Exec.interrupt NMI_VECTOR { m with cpu.nmiPending := false }
  | .irq => Exec.interrupt IRQ_VECTOR m
  | .instruction => Exec.instruction m
  | _ => (.ok 0, m)

/-- A step does what its event says. -/
theorem step_eq (m : Machine β) : Exec.step m = m.does (m.event .step) := by
  rw [Exec.step,
    Fallible.bind_of_ok (show Exec.cpu m = (.ok m.cpu, m) from rfl), event]
  by_cases hhalted : m.cpu.halted = true
  · rw [if_pos hhalted, if_pos hhalted]
    rfl
  rw [if_neg hhalted, if_neg hhalted]
  by_cases hnmi : m.cpu.nmiPending = true
  · rw [if_pos hnmi, if_pos hnmi]
    rfl
  rw [if_neg hnmi, if_neg hnmi]
  by_cases hirq : (m.cpu.irqLine && !m.cpu.regs.p.contains I) = true
  · rw [if_pos hirq, if_pos hirq]
    rfl
  · rw [if_neg hirq, if_neg hirq]
    rfl

end Machine

-- ======== the record

namespace Event

/-- A step of a running processor. -/
def Live (e : Event) : Prop := e = .nmi ∨ e = .irq ∨ e = .instruction

end Event

/-- An NMI is latched: there was an edge, and neither a live step nor a reset
since. -/
def Latched (t : List (Call × Event)) : Prop :=
  Since (·.2 = .edge) (fun x => x.2.Live ∨ x.2 = .reset) t

/-- The IRQ line was asserted last. -/
def IrqAsserted (t : List (Call × Event)) : Prop :=
  Since (·.1 = .setIrq true) (·.1 = .setIrq false) t

/-- The NMI line was put low last; it idles high. -/
def NmiLow (t : List (Call × Event)) : Prop :=
  Since (·.1 = .setNmi false) (·.1 = .setNmi true) t

/-- The latch and the lines are what the record says. -/
structure Tracks (m : Machine β) (t : List (Call × Event)) : Prop where
  settled : m.cpu.regs.p.Settled
  nmiPending : m.cpu.nmiPending = true ↔ Latched t
  prevNmi : m.cpu.prevNmi = false ↔ NmiLow t
  irqLine : m.cpu.irqLine = true ↔ IrqAsserted t

variable {t : List (Call × Event)} {c : Call} {e : Event}

/-- An edge latches; a live step or a reset takes the latch. -/
theorem latched_concat : Latched (t ++ [(c, e)]) ↔ e = .edge
    ∨ (Latched t ∧ ¬(e.Live ∨ e = .reset)) :=
  since_concat

/-- The IRQ line is what was last set. -/
theorem irqAsserted_concat :
    IrqAsserted (t ++ [(c, e)]) ↔ c = .setIrq true
      ∨ (IrqAsserted t ∧ ¬c = .setIrq false) := since_concat

/-- The NMI line is what was last set. -/
theorem nmiLow_concat : NmiLow (t ++ [(c, e)]) ↔ c = .setNmi false
    ∨ (NmiLow t ∧ ¬c = .setNmi true) :=
  since_concat

/-- Neither an edge nor the end of one. -/
theorem latched_level (he : e = .level ∨ e = .idle) :
    Latched (t ++ [(c, e)]) ↔ Latched t := by
  rw [latched_concat, Event.Live]
  rcases he with rfl | rfl <;> simp

/-- After a live step nothing is latched. -/
theorem not_latched_ended (he : e.Live ∨ e = .reset) :
    ¬Latched (t ++ [(c, e)]) := by
  rw [latched_concat, not_or]
  refine ⟨?_, fun h => h.2 he⟩
  rcases he with (rfl | rfl | rfl) | rfl <;> decide

theorem irqAsserted_other (h : ∀ level, c ≠ .setIrq level) :
    IrqAsserted (t ++ [(c, e)]) ↔ IrqAsserted t := by
  rw [irqAsserted_concat]
  simp [h]

theorem nmiLow_other (h : ∀ level, c ≠ .setNmi level) :
    NmiLow (t ++ [(c, e)]) ↔ NmiLow t := by
  rw [nmiLow_concat]
  simp [h]

omit [Bus β] in
/-- The machine at boot tracks the empty record. -/
theorem tracks_boot (bus : β) : Tracks (.boot bus) [] where
  settled := Registers.settled_new
  nmiPending :=
    ⟨fun h => absurd h Bool.false_ne_true, fun h => absurd h not_since_nil⟩
  prevNmi := ⟨fun h => absurd h.symm Bool.false_ne_true,
    fun h => absurd h not_since_nil⟩
  irqLine := ⟨fun h => absurd h Bool.false_ne_true,
    fun h => absurd h not_since_nil⟩

namespace Machine

variable {m : Machine β}

section Event

omit [Bus β]

variable (m)

/-- When a step is idle. -/
theorem event_idle_iff : m.event .step = .idle ↔ m.cpu.halted = true := by
  rw [event]
  cases m.cpu.halted <;> cases m.cpu.nmiPending <;> cases m.cpu.irqLine <;>
    cases m.cpu.regs.p.contains I <;> decide

/-- When it takes the NMI. -/
theorem event_nmi_iff :
    m.event .step = .nmi ↔ m.cpu.halted = false ∧ m.cpu.nmiPending = true := by
  rw [event]
  cases m.cpu.halted <;> cases m.cpu.nmiPending <;> cases m.cpu.irqLine <;>
    cases m.cpu.regs.p.contains I <;> decide

/-- When it takes the IRQ. -/
theorem event_irq_iff :
    m.event .step = .irq ↔ m.cpu.halted = false ∧ ¬m.cpu.nmiPending = true
    ∧ m.cpu.irqLine = true ∧ m.cpu.regs.p.contains I = false := by
  rw [event]
  cases m.cpu.halted <;> cases m.cpu.nmiPending <;> cases m.cpu.irqLine <;>
    cases m.cpu.regs.p.contains I <;> decide

/-- A step is idle or live. -/
theorem event_step : m.event .step = .idle ∨ (m.event .step).Live := by
  rw [event]
  split
  · exact .inl rfl
  · split
    · exact .inr (.inl rfl)
    · split
      · exact .inr (.inr (.inl rfl))
      · exact .inr (.inr (.inr rfl))

variable {m}

/-- A live step that is no NMI had none pending. -/
theorem event_step_live (h : (m.event .step).Live) :
    m.event .step = .nmi ∨ m.cpu.nmiPending = false := by
  have hrunning : m.cpu.halted = false := by
    by_contra hhalted
    have hidle := (event_idle_iff m).2 (eq_true_of_ne_false hhalted)
    rw [hidle] at h
    rcases h with h | h | h <;> cases h
  cases hnmi : m.cpu.nmiPending with
  | true => exact .inl ((event_nmi_iff m).2 ⟨hrunning, hnmi⟩)
  | false => exact .inr rfl

end Event

/-- A live step leaves nothing latched. -/
theorem steady_step (h : (m.event .step).Live) :
    Steady { m with cpu.nmiPending := false } (m.call .step) := by
  have hsame :
    m.event .step ≠ .nmi → { m with cpu.nmiPending := false } = m := by
    intro hne
    have hclear := (event_step_live h).resolve_left hne
    rw [← hclear]
  show Steady _ (Exec.step m).2
  rw [step_eq]
  rcases h with h | h | h
  · rw [h]
    exact Exec.steady_interrupt _ _
  · rw [hsame (by rw [h]; decide), h]
    exact Exec.steady_interrupt _ _
  · rw [hsame (by rw [h]; decide), h]
    exact Exec.steady_instruction _

/-- An idle step does nothing. -/
theorem call_step_idle (h : m.event .step = .idle) : m.call .step = m := by
  show (Exec.step m).2 = m
  rw [step_eq, h]
  rfl

end Machine

namespace Tracks

variable {m : Machine β}

/-- The NMI line put low from high latches, anything else does not. -/
theorem setNmi (h : Tracks m t) (level : Bool) :
    Tracks (m.call (.setNmi level))
      (t ++ [(.setNmi level, m.event (.setNmi level))]) := by
  have hevent : m.event (.setNmi level) = if m.cpu.prevNmi && !level then .edge
    else .level := rfl
  have hcall : m.call (.setNmi level) = { m with cpu := m.cpu.setNmi level } :=
    rfl
  rw [hevent, hcall, Cpu.setNmi]
  refine ⟨?_, ?_, ?_, ?_⟩
  · split <;> exact h.settled
  · split
    · rw [latched_concat]
      exact ⟨fun _ => .inl rfl, fun _ => rfl⟩
    · rw [latched_level (.inl rfl)]
      exact h.nmiPending
  · rw [nmiLow_concat]
    cases level <;> simp
  · rw [irqAsserted_other (fun _ => Call.noConfusion)]
    split <;> exact h.irqLine

/-- Each call keeps the machine and the record together. -/
theorem setIrq (h : Tracks m t) (level : Bool) :
    Tracks (m.call (.setIrq level)) (t ++ [(.setIrq level, .level)]) := by
  refine ⟨h.settled, h.nmiPending.trans (latched_level (.inl rfl)).symm,
    h.prevNmi.trans (nmiLow_other fun _ => Call.noConfusion).symm, ?_⟩
  rw [irqAsserted_concat]
  show level = true ↔ _
  cases level <;> simp

theorem reset (h : Tracks m t) :
    Tracks (m.call .reset) (t ++ [(.reset, .reset)]) where
  settled := h.settled.insert_I_U
  nmiPending :=
    ⟨fun hp => absurd hp Bool.false_ne_true,
      fun hl => absurd hl (not_latched_ended (.inr rfl))⟩
  prevNmi := h.prevNmi.trans (nmiLow_other fun _ => Call.noConfusion).symm
  irqLine := h.irqLine.trans (irqAsserted_other fun _ => Call.noConfusion).symm

/-- A step, by its event. -/
theorem step (h : Tracks m t) :
    Tracks (m.call .step) (t ++ [(.step, m.event .step)]) := by
  have hnmi : NmiLow (t ++ [(.step, m.event .step)]) ↔ NmiLow t :=
    nmiLow_other fun _ => Call.noConfusion
  have hirq : IrqAsserted (t ++ [(.step, m.event .step)]) ↔ IrqAsserted t :=
    irqAsserted_other fun _ => Call.noConfusion
  rcases m.event_step with hidle | hlive
  · rw [m.call_step_idle hidle]
    exact ⟨h.settled, h.nmiPending.trans (latched_level (.inr hidle)).symm,
      h.prevNmi.trans hnmi.symm, h.irqLine.trans hirq.symm⟩
  · have hsteady := Machine.steady_step hlive
    refine ⟨hsteady.settled h.settled, ?_, ?_, ?_⟩
    · rw [hsteady.nmiPending]
      exact ⟨fun hp => absurd hp Bool.false_ne_true,
        fun hl => absurd hl (not_latched_ended (.inl hlive))⟩
    · rw [hsteady.prevNmi, hnmi]
      exact h.prevNmi
    · rw [hsteady.irqLine, hirq]
      exact h.irqLine

theorem call (h : Tracks m t) (c : Call) :
    Tracks (m.call c) (t ++ [(c, m.event c)]) := by
  cases c with
  | setNmi level => exact h.setNmi level
  | triggerNmi =>
    refine ⟨h.settled, ?_,
      h.prevNmi.trans (nmiLow_other fun _ => Call.noConfusion).symm,
      h.irqLine.trans (irqAsserted_other fun _ => Call.noConfusion).symm⟩
    rw [latched_concat]
    exact ⟨fun _ => .inl rfl, fun _ => rfl⟩
  | setIrq level => exact h.setIrq level
  | reset => exact h.reset
  | step => exact h.step

end Tracks

/-- Over any run the latch and the lines are what the record says. -/
theorem tracks_run (bus : β) (h : List Call) :
    Tracks (Machine.run h (.boot bus)) (Machine.trace h (.boot bus)) := by
  induction h using List.reverseRecOn with
  | nil => exact tracks_boot bus
  | append_singleton h c ih =>
    rw [Machine.run_concat, Machine.trace_concat]
    exact ih.call c

end Remu.Mos6502
