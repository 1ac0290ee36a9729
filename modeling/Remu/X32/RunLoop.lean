/-
The run loop is the step function, batched.

The loop polls one word per instruction. It may, because the one stop that
is not re-read at every boundary is announced there: whatever an
instruction or a delivery does, a recorded host trap has rung the doorbell
(`Belled`). No step of any discipline can record one silently, so this is
a walk over the parts of a step and not over the instruction set.
-/
import Remu.Lib.Batch
import Remu.X32.Step

namespace Remu.X32

variable {β : Type} {α : Type}

-- ======== the doorbell

/-- A recorded host trap has rung the doorbell. -/
def Machine.Belled (s : Machine β) : Prop :=
  s.hostTrap.isSome = true → s.events &&& EVT_HOST_TRAP ≠ 0

/-- What happens between the two states records no host trap silently. -/
def KeepsBell (s s' : Machine β) : Prop := s.Belled → s'.Belled

instance instIsPreorderKeepsBell : IsPreorder (Machine β) KeepsBell where
  refl _ h := h
  trans _ _ _ hab hbc h := hbc (hab h)

/-- Setting event bits silences nothing. -/
theorem bell_or {e : U8} (h : e &&& EVT_HOST_TRAP ≠ 0) (m : U8) :
    (e ||| m) &&& EVT_HOST_TRAP ≠ 0 := by
  intro hz
  rw [BitVec.and_or_distrib_right] at hz
  exact h (BitVec.or_eq_zero_iff.1 hz).1

theorem Machine.belled_hostTrapped (s : Machine β) (t : HostTrap) :
    (s.hostTrapped t).Belled := by
  intro _ hz
  have hbell : (s.events ||| EVT_HOST_TRAP) &&& EVT_HOST_TRAP = 0 := hz
  rw [BitVec.and_or_distrib_right] at hbell
  exact doorbell_rings (BitVec.or_eq_zero_iff.1 hbell).2

theorem Machine.belled_of_none {s : Machine β} (h : s.hostTrap = none) :
    s.Belled := by
  intro hsome
  rw [h] at hsome
  cases hsome

variable [Bus β]

theorem CalmPrim.keepsBell {s s' : Machine β} (h : CalmPrim s s') :
    KeepsBell s s' := by
  intro hs
  cases h with
  | latch m halted hostTrap hbell =>
    intro hsome
    rcases hbell with rfl | hm
    · exact bell_or (hs hsome) m
    · intro hz
      have hset : (s.events ||| m) &&& EVT_HOST_TRAP = 0 := hz
      rw [BitVec.and_or_distrib_right] at hset
      exact hm (BitVec.or_eq_zero_iff.1 hset).2
  | _ => exact hs

theorem XferPrim.keepsBell {s s' : Machine β} (h : XferPrim s s') :
    KeepsBell s s' := by
  intro hs
  cases h with
  | calm h => exact h.keepsBell hs
  | hot => exact hs
  | prepare =>
    unfold Machine.prepared
    split <;> exact hs
  | write => exact hs

theorem XferSteps.keepsBell {s s' : Machine β} (h : XferSteps s s') :
    KeepsBell s s' := by
  induction h with
  | refl => exact refl_of KeepsBell s
  | tail _ hstep ih => exact trans_of KeepsBell ih hstep.keepsBell

-- ======== one instruction

section Instruction

variable {R : Machine β → Machine β → Prop} [IsPreorder (Machine β) R]
  (hx : ∀ {s s' : Machine β}, XferSteps s s' → R s s')
  (hm : ∀ {s s' : Machine β}, s'.hostTrap = s.hostTrap → s'.events = s.events →
    s'.cycles = s.cycles → R s s')
include hx

omit [IsPreorder (Machine β) R] in
theorem along_xfer (m : Xfer β α) : Fallible.Along R m.run :=
  fun s => hx (m.bound s)

omit [IsPreorder (Machine β) R] in
theorem along_calm (m : Calm β α) : Fallible.Along R m.run :=
  fun s => hx (CalmSteps.xfer (m.bound s))

include hm

theorem along_runDecoded (phys : Option U32) (opcode : U8) (npfx : U32) :
    Fallible.Along R (runDecoded phys opcode npfx : Exec β U32) := by
  refine .bind (along_calm hx _) fun r => ?_
  cases r with
  | hot d =>
    refine .bind (fun s => ?_) fun _ => .bind (along_calm hx _)
      fun _ => .pure _
    cases phys <;> exact hm rfl rfl rfl
  | cold0F op2 => exact .bind (along_xfer hx _) fun _ => .pure _
  | cold => exact along_xfer hx _

theorem along_interpret (tryHot : Bool) (phys : Option U32) :
    Fallible.Along R (interpret tryHot phys : Exec β U32) := by
  refine .bind (along_calm hx _) fun p => .bind (along_calm hx _) fun _ =>
    .bind .get fun s => ?_
  split
  · exact along_runDecoded hx hm phys p.1 p.2
  · exact along_xfer hx _

/-- What instructions are made of moves the state along `R`: the steps of
their arms, and changes that leave the host trap, the event word and the
cycles alone. -/
theorem along_execOne : Fallible.Along R (execOne : Exec β U32) := by
  refine .bind (fun _ => hm rfl rfl rfl) fun _ => .bind .get fun s => ?_
  cases s.probe with
  | some d =>
    exact .bind (fun _ => hm rfl rfl rfl) fun _ => .bind (along_calm hx _)
      fun _ => .pure _
  | none =>
    exact .bind (fun _ => hm rfl rfl rfl) fun _ => along_interpret hx hm true _

end Instruction

/-- What raising an event and shutting down keep, a delivery keeps. -/
theorem deliver_keeps {P : Machine β → Prop}
    (hraise : ∀ e cls (s : Machine β), P s → P ((raise e cls).run s).2)
    (hdown : ∀ s : Machine β,
      P s → P { s with shutdown := true, halted := true })
    (e : Exception) (cls : Event) {s : Machine β} (hs : P s) :
    P (deliver e cls s) := by
  have hchain : ∀ n e cls inDouble (s : Machine β),
    P s → P (deliverChain n e cls inDouble s) := by
    intro n
    induction n with
    | zero => exact fun _ _ _ s hs => hdown s hs
    | succ n ih =>
      intro e cls inDouble s hs
      have hraised := hraise e cls s hs
      unfold deliverChain
      rcases hr : (raise e cls).run s with ⟨nested | ⟨⟩, s₁⟩
        <;> rw [hr] at hraised
      · dsimp only
        split
        · exact hdown s₁ hraised
        split
        · exact ih _ _ _ _ hraised
        · exact ih _ _ _ _ hraised
      · exact hraised
  exact hchain 4 e cls false s hs

theorem keepsBell_execOne :
    Fallible.Along KeepsBell (execOne : Exec β U32) := by
  refine along_execOne XferSteps.keepsBell fun htrap hevents _ hs hsome => ?_
  have hbell := hs (htrap ▸ hsome)
  rw [← hevents] at hbell
  exact hbell

-- ======== one step

section Step

variable {s : Machine β}

theorem Machine.Belled.deliver (hs : s.Belled) (e : Exception) (cls : Event) :
    (deliver e cls s).Belled :=
  deliver_keeps (P := Machine.Belled)
    (fun e cls s hs => XferSteps.keepsBell ((raise e cls).bound s) hs)
      (fun _ hs => hs) e cls hs

theorem belled_execRewound (hs : s.Belled) : (execRewound s).2.Belled := by
  have hexec : (execOne s).2.Belled := keepsBell_execOne s hs
  unfold execRewound
  rcases hr : execOne s with ⟨e | c, s'⟩ <;> rw [hr] at hexec
  · have hrewind : (s'.rewind s.regs.gpr).Belled := by
      unfold Machine.rewind
      split <;> exact hexec
    dsimp only [faultEpilogue]
    split
    · exact Machine.belled_hostTrapped (s'.rewind s.regs.gpr) _
    · exact hrewind.deliver e .fault
  · exact hexec

theorem belled_stepFast (hs : s.Belled) : (stepFast s).2.Belled := by
  have h := belled_execRewound hs
  unfold stepFast
  rcases hr : execRewound s with ⟨_ | c, s'⟩ <;> rw [hr] at h
  · exact h
  · exact h

theorem belled_stepTraced (hs : s.Belled) : (stepTraced s).2.Belled := by
  have h := belled_execRewound hs
  unfold stepTraced
  dsimp only
  rcases hr : execRewound s with ⟨_ | c, s'⟩ <;> rw [hr] at h
  · exact h
  · dsimp only
    split
    · exact Machine.Belled.deliver h _ _
    · exact h

/-- A slow step starts by silencing the doorbell, which a state without a
host trap does not need. -/
theorem belled_stepSlow (hs : s.hostTrap = none) : (stepSlow s).2.Belled := by
  have hnone : ∀ t : Machine β, t.hostTrap = s.hostTrap → t.Belled :=
    fun t ht => Machine.belled_of_none (ht.trans hs)
  unfold stepSlow
  dsimp only
  split
  · exact hnone _ rfl
  split
  · exact Machine.Belled.deliver (s := { s with halted := false, events := _ })
      (hnone _ rfl) _ _
  split
  · exact Machine.Belled.deliver
      (s := { s with halted := false, events := _, intr := none })
      (hnone _ rfl) _ _
  · split
    · exact hnone _ rfl
    · exact belled_stepTraced (hnone _ rfl)

theorem belled_step (hs : s.hostTrap = none) : (step s).2.Belled := by
  unfold step
  split
  · exact belled_stepSlow hs
  · exact belled_stepFast (Machine.belled_of_none hs)

end Step

-- ======== the loop

/-- Why the processor must not be stepped here. -/
def Machine.stopReason (s : Machine β) : Option RunExit :=
  if s.hostTrap.isSome then some .hostTrap
  else if s.shutdown then some .shutdown
  else if s.halted && !s.interruptPending then some .halted
  else none

/-- The doorbell silenced. -/
def Machine.quiet (s : Machine β) : Machine β :=
  { s with events := s.events &&& ~~~EVT_HOST_TRAP }

omit [Bus β] in
theorem Machine.stopReason_hostTrap (s : Machine β) :
    s.stopReason = some .hostTrap ↔ s.hostTrap.isSome = true := by
  unfold stopReason
  constructor
  · intro h
    split at h
    case isTrue htrap => exact htrap
    case isFalse =>
      split at h
      · cases h
      split at h <;> cases h
  · intro h
    rw [if_pos h]

/-- The processor stepped in batches. -/
def batch (β : Type) [Bus β] : Batch (Machine β) RunExit where
  step s := (step s).2
  stop := Machine.stopReason
  completed := .completed
  bell := .hostTrap
  quiet := Machine.quiet
  stop_quiet s h := s.quiet.stopReason_hostTrap.2 (s.stopReason_hostTrap.1 h)
  quiet_quiet s := by
    have hsame : s.events &&& ~~~EVT_HOST_TRAP &&& ~~~EVT_HOST_TRAP
      = s.events &&& ~~~EVT_HOST_TRAP := by
      rw [BitVec.and_assoc, BitVec.and_self]
    rw [Machine.quiet, Machine.quiet, hsame]

omit [Bus β] in
/-- A boundary with nothing pending is no stop. -/
theorem Machine.Belled.stopReason_eq_none {s : Machine β} (hs : s.Belled)
    (h : s.boundaryPending = false) : s.stopReason = none := by
  simp only [Cpu.boundaryPending, Bool.or_eq_false_iff,
    bne_eq_false_iff_eq] at h
  obtain ⟨⟨⟨hevents, hhalted⟩, hshutdown⟩, -⟩ := h
  have htrap : ¬ s.hostTrap.isSome = true := by
    intro hsome
    have hbell := hs hsome
    rw [hevents] at hbell
    exact hbell BitVec.zero_and
  rw [Machine.stopReason, if_neg htrap, hshutdown, hhalted]
  rfl

/-- The boundary arm is the stop test, then a step. -/
theorem runBoundary_eq (s : Machine β) (h : s.boundaryPending = true) :
    runBoundary s = match s.stopReason with
      | some e => (some e, (batch β).leave e s)
      | none => (none, (step s).2) := by
  unfold runBoundary Machine.stopReason
  split
  · rfl
  split
  · rfl
  split
  · rfl
  · rw [step, if_pos h]

/-- The run loop polls one word, and that is enough. -/
theorem runLoop_eq (n k : Nat) {s : Machine β} (hs : s.Belled) :
    runLoop n k s = (batch β).loop n k s := by
  induction n generalizing k s with
  | zero => rfl
  | succ n ih =>
    have hnext : s.stopReason = none → (step s).2.Belled := by
      intro hnone
      refine belled_step ?_
      cases htrap : s.hostTrap with
      | none => rfl
      | some t =>
        have hbell := s.stopReason_hostTrap.2 (by rw [htrap]; rfl)
        rw [hnone] at hbell
        cases hbell
    have hstop : (batch β).stop s = s.stopReason := rfl
    rw [runLoop, Batch.loop, hstop]
    cases hb : s.boundaryPending with
    | true =>
      rw [if_pos rfl, runBoundary_eq s hb]
      cases hreason : s.stopReason with
      | some e => rfl
      | none => exact ih (k + 1) (hnext hreason)
    | false =>
      have hreason := hs.stopReason_eq_none hb
      have hfast : (batch β).step s = (stepFast s).2 := by
        show (step s).2 = _
        rw [step, hb, if_neg (by decide)]
      rw [if_neg (by decide), hreason, ← hfast]
      exact ih (k + 1) (hnext hreason)

/-- `run_interp` is the batch. -/
theorem runInterp_eq (s : Machine β) (n : Nat) :
    runInterp s n = (batch β).run n s := by
  unfold runInterp Batch.run
  by_cases htrap : s.hostTrap.isSome = true
  · have hstop : (batch β).stop s = some (batch β).bell :=
      s.stopReason_hostTrap.2 htrap
    rw [if_pos htrap, if_pos hstop]
    rfl
  · have hstop : ¬ (batch β).stop s = some (batch β).bell :=
      fun h => htrap (s.stopReason_hostTrap.1 h)
    rw [if_neg htrap, if_neg hstop]
    exact runLoop_eq n 0 fun h => absurd h htrap

end Remu.X32
