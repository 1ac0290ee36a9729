/-
Exception delivery: the chain of nested faults.

The architecture sorts events into classes and says which two in a row
make a double fault; a fault while that is delivered shuts the processor
down, and any other nested fault is delivered in its turn (`Served`, which
knows no bound). The loop that does this here gives up after four attempts.
It never has to: an exception nested in a delivery is severe, so each
attempt that fails brings the chain closer to its double fault (`rank`),
and four attempts are enough for the longest chain there is.
-/
import Remu.X64.Faults

namespace Remu.X64

variable {β : Type} [Bus β]

-- ======== classes

/-- The classes of events in the double-fault rules. -/
inductive Severity where
  | benign
  | contributory
  | pageFault
deriving DecidableEq, Repr

/-- The class of a processor-detected exception: #DE, #TS, #NP, #SS and #GP
are contributory. -/
def Severity.ofVector (v : U8) : Severity :=
  if v = 14 then .pageFault
  else if v = 0 ∨ v = 10 ∨ v = 11 ∨ v = 12 ∨ v = 13 then .contributory
  else .benign

/-- The class of an event: interrupts from outside and by instruction are
benign whatever their vector. -/
def Severity.of (e : Exception) (cls : Event) : Severity :=
  if cls = .fault then .ofVector e.vector else .benign

/-- The pairs that make a double fault: a contributory exception after a
contributory one, and anything but a benign one after a page fault. -/
def Severity.Doubles : Severity → Severity → Prop
  | .contributory, .contributory => True
  | .pageFault, .contributory => True
  | .pageFault, .pageFault => True
  | _, _ => False

theorem contributory_iff (v : U8) :
    contributory v = true ↔ v = 0 ∨ v = 10 ∨ v = 11 ∨ v = 12 ∨ v = 13 := by
  unfold contributory
  simp only [decide_eq_true_eq, List.mem_cons, List.not_mem_nil, or_false]

/-- The code classifies as the architecture does. -/
theorem severity_ofVector (v : U8) :
    Severity.ofVector v = if v = 14 then .pageFault
      else if contributory v = true then .contributory else .benign := by
  unfold Severity.ofVector
  simp only [contributory_iff]

theorem isDoubleFault_iff (first : Exception) (cls : Event) (second : U8) :
    isDoubleFault first cls second = true
      ↔ (Severity.of first cls).Doubles (.ofVector second) := by
  unfold isDoubleFault Severity.of
  by_cases hcls : cls = .fault
  · rw [if_neg (not_not.2 hcls), if_pos hcls, severity_ofVector,
      severity_ofVector]
    by_cases hs : second = 14
    · rw [if_pos hs, if_pos hs, beq_iff_eq]
      split
      · exact iff_of_true ‹_› trivial
      · split <;> exact iff_of_false ‹_› id
    · rw [if_neg hs, if_neg hs]
      by_cases hc : contributory second = true
      · rw [if_pos hc, if_pos hc, Bool.or_eq_true, beq_iff_eq]
        split
        · exact iff_of_true (.inr ‹_›) trivial
        split
        · exact iff_of_true (.inl ‹_›) trivial
        · exact iff_of_false (not_or.2 ⟨‹_›, ‹_›⟩) id
      · rw [if_neg hc, if_neg hc]
        split
        · exact iff_of_false Bool.false_ne_true id
        · split <;> exact iff_of_false Bool.false_ne_true id
  · rw [if_pos hcls, if_neg hcls]
    exact iff_of_false Bool.false_ne_true id

-- ======== the chain

/-- Delivery as the architecture has it, without a bound: `Served e cls
double s n down s'` says that delivering `e` from `s` takes `n` attempts and
ends in `s'`, shut down or not. `double` says that `e` is a double fault the
chain has come to. -/
inductive Served :
    Exception → Event → Bool → Machine β → Nat → Bool → Machine β → Prop
  | handled {e cls double s s'} (h : (raise e cls).run s = (.ok (), s')) :
      Served e cls double s 1 false s'
  | triple {e cls s n s'} (h : (raise e cls).run s = (.error n, s')) :
      Served e cls true s 1 true { s' with shutdown := true, halted := true }
  | double {e cls s n s' k down s''} (h : (raise e cls).run s = (.error n, s'))
      (hpair : (Severity.of e cls).Doubles (.ofVector n.vector))
      (hrest : Served ⟨8, some 0⟩ .fault true s' k down s'') :
      Served e cls false s (k + 1) down s''
  | serial {e cls s n s' k down s''} (h : (raise e cls).run s = (.error n, s'))
      (hpair : ¬ (Severity.of e cls).Doubles (.ofVector n.vector))
      (hrest : Served n .fault false s' k down s'') :
      Served e cls false s (k + 1) down s''

/-- There is one chain. -/
theorem Served.unique {e : Exception} {cls : Event} {double : Bool}
    {s s₁ s₂ : Machine β} {n₁ n₂ : Nat}
    {down₁ down₂ : Bool} (h₁ : Served e cls double s n₁ down₁ s₁)
    (h₂ : Served e cls double s n₂ down₂ s₂) :
    n₁ = n₂ ∧ down₁ = down₂ ∧ s₁ = s₂ := by
  induction h₁ generalizing n₂ down₂ s₂ with
  | handled h =>
    cases h₂ with
    | handled h' =>
      rw [h] at h'
      cases h'
      exact ⟨rfl, rfl, rfl⟩
    | triple h' => rw [h] at h'; cases h'
    | double h' => rw [h] at h'; cases h'
    | serial h' => rw [h] at h'; cases h'
  | triple h =>
    cases h₂ with
    | handled h' => rw [h] at h'; cases h'
    | triple h' =>
      rw [h] at h'
      cases h'
      exact ⟨rfl, rfl, rfl⟩
  | double h hpair _ ih =>
    cases h₂ with
    | handled h' => rw [h] at h'; cases h'
    | double h' _ hrest =>
      rw [h] at h'
      cases h'
      obtain ⟨hn, hdown, hs⟩ := ih hrest
      exact ⟨congrArg (· + 1) hn, hdown, hs⟩
    | serial h' hpair' =>
      rw [h] at h'
      cases h'
      exact absurd hpair hpair'
  | serial h hpair _ ih =>
    cases h₂ with
    | handled h' => rw [h] at h'; cases h'
    | double h' hpair' =>
      rw [h] at h'
      cases h'
      exact absurd hpair' hpair
    | serial h' _ hrest =>
      rw [h] at h'
      cases h'
      obtain ⟨hn, hdown, hs⟩ := ih hrest
      exact ⟨congrArg (· + 1) hn, hdown, hs⟩

/-- How many attempts a chain may still take. -/
def rank (double : Bool) (e : Exception) (cls : Event) : Nat :=
  if double then 1
  else match Severity.of e cls with
    | .benign => 4
    | .contributory => 3
    | .pageFault => 2

theorem rank_le (double : Bool) (e : Exception) (cls : Event) :
    rank double e cls ≤ 4 := by
  unfold rank
  split
  · decide
  · split <;> decide

/-- A chain has an attempt left, and two unless it has come to its double
fault. -/
theorem rank_pos (double : Bool) (e : Exception) (cls : Event) :
    1 ≤ rank double e cls := by
  unfold rank
  split
  · decide
  · split <;> decide

theorem rank_single (e : Exception) (cls : Event) : 2 ≤ rank false e cls := by
  unfold rank
  rw [if_neg Bool.false_ne_true]
  split <;> decide

/-- What is severe is not benign. -/
theorem Severe.ofVector {e : Exception} (h : Severe e) :
    Severity.ofVector e.vector = .contributory
      ∨ Severity.ofVector e.vector = .pageFault := by
  rw [severity_ofVector]
  by_cases h14 : e.vector = 14
  · rw [if_pos h14]
    exact .inr rfl
  · rw [if_neg h14, if_pos (h.resolve_right h14)]
    exact .inl rfl

/-- A nested fault that is not doubled leaves the chain fewer attempts: a
contributory one follows something benign, a page fault something that is
no page fault itself. -/
theorem rank_serial {e n : Exception} {cls : Event} (hn : Severe n)
    (hpair : ¬ (Severity.of e cls).Doubles (.ofVector n.vector)) :
    rank false n .fault < rank false e cls := by
  have hof : Severity.of n .fault = .ofVector n.vector := if_pos rfl
  unfold rank
  rw [if_neg Bool.false_ne_true, if_neg Bool.false_ne_true, hof]
  rcases hn.ofVector with h | h
  · rw [h] at hpair ⊢
    cases hfirst : Severity.of e cls with
    | benign => decide
    | contributory => exact absurd (by rw [hfirst]; trivial) hpair
    | pageFault => exact absurd (by rw [hfirst]; trivial) hpair
  · rw [h] at hpair ⊢
    cases hfirst : Severity.of e cls with
    | benign => decide
    | contributory => decide
    | pageFault => exact absurd (by rw [hfirst]; trivial) hpair

/-- With as many attempts as its rank, the loop runs the chain to its end. -/
theorem served_deliverChain {n : Nat} {e : Exception} {cls : Event}
    {double : Bool} {s : Machine β} (hn : rank double e cls ≤ n) :
    ∃ k down, k ≤ rank double e cls
      ∧ Served e cls double s k down (deliverChain n e cls double s) := by
  induction n generalizing e cls double s with
  | zero => exact absurd (rank_pos double e cls) (by omega)
  | succ n ih =>
    rcases hrun : (raise e cls).run s with ⟨nested | u, s'⟩
    · have hsevere : Severe nested := Severely.raise e cls s nested s' hrun
      cases double with
      | true =>
        refine ⟨1, true, rank_pos true e cls, ?_⟩
        rw [deliverChain, hrun]
        exact .triple hrun
      | false =>
        have htwo := rank_single e cls
        by_cases hpair : isDoubleFault e cls nested.vector = true
        · obtain ⟨k, down, hk, hserved⟩ := ih (s := s')
            (show rank true ⟨8, some 0⟩ .fault ≤ n from (show 1 ≤ n by omega))
          refine ⟨k + 1, down, ?_, ?_⟩
          · have hone : rank true ⟨8, some 0⟩ .fault = 1 := rfl
            omega
          · rw [deliverChain, hrun]
            simp only [hpair, if_true, Bool.false_eq_true, if_false]
            exact .double hrun ((isDoubleFault_iff _ _ _).1 hpair) hserved
        · have hpair' :=
            fun h => hpair ((isDoubleFault_iff e cls nested.vector).2 h)
          have hless := rank_serial hsevere hpair'
          obtain ⟨k, down, hk, hserved⟩ := ih (s := s')
            (show rank false nested .fault ≤ n by omega)
          refine ⟨k + 1, down, by omega, ?_⟩
          rw [deliverChain, hrun]
          simp only [hpair, if_false, Bool.false_eq_true]
          exact .serial hrun hpair' hserved
    · refine ⟨1, false, rank_pos double e cls, ?_⟩
      rw [deliverChain, hrun]
      exact .handled hrun

-- ======== the law

/-- A transfer does not shut the processor down. -/
theorem XferSteps.shutdown {s s' : Machine β} (h : XferSteps s s') :
    s'.shutdown = s.shutdown := by
  induction h with
  | refl => rfl
  | tail _ hstep ih =>
    rw [← ih]
    cases hstep with
    | calm hc => cases hc <;> rfl
    | hot => rfl
    | prepare =>
      unfold Machine.prepared
      split <;> rfl
    | write => rfl

/-- A delivery that faults is undone, CR2 apart. -/
theorem raise_undone {e n : Exception} {cls : Event} {s s' : Machine β}
    (h : (raise e cls).run s = (.error n, s')) :
    s'.regs = { s.regs with cr2 := s'.regs.cr2 } := by
  rw [raise, Bounded.run_bind, Fallible.bind_of_ok (run_self s)] at h
  split at h
  · exact (rollback_error h).2
  · exact (rollback_error h).2

/-- A chain shuts the processor down exactly when it ends in a failed
double fault, and then no register but CR2 has moved. -/
theorem Served.shutdown {e : Exception} {cls : Event} {double : Bool}
    {s s' : Machine β} {n : Nat}
    {down : Bool} (h : Served e cls double s n down s') :
    s'.shutdown = (s.shutdown || down)
      ∧ (down = true → s'.halted = true
      ∧ s'.regs = { s.regs with cr2 := s'.regs.cr2 }) := by
  induction h with
  | @handled e cls double s s' h =>
    have hbound := ((raise e cls).bound s).shutdown
    rw [h] at hbound
    exact ⟨by rw [Bool.or_false]; exact hbound,
      fun hd => absurd hd Bool.false_ne_true⟩
  | triple h =>
    have hregs := raise_undone h
    exact ⟨by rw [Bool.or_true], fun _ => ⟨rfl, hregs⟩⟩
  | @double e cls s n s' k down s'' h _ _ ih =>
    have hbound := ((raise e cls).bound s).shutdown
    rw [h] at hbound
    refine ⟨ih.1.trans (by rw [show s'.shutdown = s.shutdown from hbound]),
      fun hd => ?_⟩
    obtain ⟨hhalt, hregs⟩ := ih.2 hd
    exact ⟨hhalt, by rw [hregs, raise_undone h]⟩
  | @serial e cls s n s' k down s'' h _ _ ih =>
    have hbound := ((raise e cls).bound s).shutdown
    rw [h] at hbound
    refine ⟨ih.1.trans (by rw [show s'.shutdown = s.shutdown from hbound]),
      fun hd => ?_⟩
    obtain ⟨hhalt, hregs⟩ := ih.2 hd
    exact ⟨hhalt, by rw [hregs, raise_undone h]⟩

/-- What delivering `e` from `s` does.

The loop ends where the unbounded chain ends, within four attempts; each
nested fault in it is doubled exactly when the architecture's table says
so. The processor is shut down by it exactly when the chain ended in a
double fault that could not be delivered. And every attempt that faults
leaves the registers as they were, CR2 apart. -/
structure DeliveryLaw (e : Exception) (cls : Event) (s : Machine β) :
    Prop where
  served : ∃ n down, n ≤ 4 ∧ Served e cls false s n down (deliver e cls s)
  only : ∀ n down s', Served e cls false s n down s' → n ≤ 4
    ∧ s' = deliver e cls s
    ∧ s'.shutdown = (s.shutdown || down)
  undone : ∀ (e' : Exception) (cls' : Event)
    (t t' : Machine β) (n : Exception),
    (raise e' cls').run t = (.error n, t') →
      t'.regs = { t.regs with cr2 := t'.regs.cr2 }

/-- **Delivery ends in time**: by a handler, or by a double fault that
could not be delivered, and never because the bound has run out. -/
theorem deliver_lawful (e : Exception) (cls : Event) (s : Machine β) :
    DeliveryLaw e cls s := by
  obtain ⟨n, down, hn, hserved⟩ :=
    served_deliverChain (s := s) (rank_le false e cls)
  have hfour := hn.trans (rank_le false e cls)
  refine ⟨⟨n, down, hfour, hserved⟩, fun n' down' s' h => ?_,
    fun e' cls' t t' n' h => raise_undone h⟩
  obtain ⟨rfl, rfl, rfl⟩ := h.unique hserved
  exact ⟨hfour, rfl, h.shutdown.1⟩

end Remu.X64
