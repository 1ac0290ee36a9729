/-
Cold writes: what an instruction that is not calm may do.

The cold registers (segments, system tables, control, debug and test
registers) are written only behind `prepare_cold_write`, which captures
the register file once per instruction so that a fault can rewind it. Two
more effect disciplines say how:

- `Xfer`: calm steps, any change of the hot registers (VM included), the
  capture, and writes of the cold registers once the capture is taken.
  This is what an instruction can do at most;
- `Warm`: code that runs after the capture and relies on it.
-/
import Remu.X32.Alu

namespace Remu.X32

variable {β α : Type}

/-- The state after `prepare_cold_write`. -/
def Machine.prepared (s : Machine β) : Machine β :=
  if s.coldSaved then s else { s with coldSaved := true, faultRegs := s.regs }

theorem Machine.coldSaved_prepared (s : Machine β) :
    s.prepared.coldSaved = true := by
  unfold Machine.prepared
  split
  case isTrue h => exact h
  case isFalse => rfl

@[simp] theorem Machine.regs_prepared (s : Machine β) :
    s.prepared.regs = s.regs := by
  unfold Machine.prepared
  split <;> rfl

-- ======== the steps

variable [Bus β]

/-- One step of any instruction. -/
inductive XferPrim : Machine β → Machine β → Prop
  | calm {s s' : Machine β} (h : CalmPrim s s') : XferPrim s s'
  | hot (s : Machine β) (r : HotRegs) :
      XferPrim s { s with regs := { s.regs with toHotRegs := r } }
  | prepare (s : Machine β) : XferPrim s s.prepared
  | write (s : Machine β) (r : ColdRegs) (hsaved : s.coldSaved = true) :
      XferPrim s { s with regs := { s.regs with toColdRegs := r } }

abbrev XferSteps : Machine β → Machine β → Prop :=
  Relation.ReflTransGen XferPrim

/-- Once the capture is taken: transfer steps, and it stays taken. -/
def WarmSteps (s s' : Machine β) : Prop :=
  s.coldSaved = true → XferSteps s s' ∧ s'.coldSaved = true

instance instIsPreorderXferSteps : IsPreorder (Machine β) XferSteps where
  refl _ := .refl
  trans _ _ _ := .trans

instance instIsPreorderWarmSteps : IsPreorder (Machine β) WarmSteps where
  refl _ h := ⟨.refl, h⟩
  trans _ _ _ hab hbc h :=
    have ⟨h1, hs1⟩ := hab h
    have ⟨h2, hs2⟩ := hbc hs1
    ⟨h1.trans h2, hs2⟩

theorem CalmSteps.xfer {s s' : Machine β} (h : CalmSteps s s') :
    XferSteps s s' :=
  Relation.ReflTransGen.mono (fun _ _ hc => XferPrim.calm hc) _ _ h

/-- No calm step touches the capture. -/
theorem CalmPrim.coldSaved {s s' : Machine β} (h : CalmPrim s s') :
    s'.coldSaved = s.coldSaved := by
  cases h <;> rfl

/-- A capture, once taken, stays for the rest of the instruction. -/
theorem XferSteps.coldSaved {s s' : Machine β} (h : XferSteps s s')
    (hs : s.coldSaved = true) : s'.coldSaved = true := by
  induction h with
  | refl => exact hs
  | tail _ hstep ih =>
    cases hstep with
    | calm hc => rw [hc.coldSaved, ih]
    | hot => exact ih
    | prepare => exact Machine.coldSaved_prepared _
    | write => exact ih

theorem XferSteps.warm {s s' : Machine β} (h : XferSteps s s') :
    WarmSteps s s' :=
  fun hs => ⟨h, h.coldSaved hs⟩

-- ======== the monads

abbrev Xfer (β : Type) [Bus β] (α : Type) : Type :=
  Bounded (XferSteps (β := β)) Exception α

abbrev Warm (β : Type) [Bus β] (α : Type) : Type :=
  Bounded (WarmSteps (β := β)) Exception α

instance instCalmWithinXfer : Bounded.Within (CalmSteps (β := β)) XferSteps :=
  ⟨CalmSteps.xfer⟩
instance instCalmWithinWarm : Bounded.Within (CalmSteps (β := β)) WarmSteps :=
  ⟨fun h => h.xfer.warm⟩
instance instXferWithinWarm : Bounded.Within (XferSteps (β := β)) WarmSteps :=
  ⟨XferSteps.warm⟩

-- ======== primitives

/-- Capture the register file, then run code that may write it. -/
def prepared (m : Warm β α) : Xfer β α where
  run := fun s => m.run s.prepared
  bound := fun s =>
    .trans (.single (.prepare s)) (m.bound s.prepared s.coldSaved_prepared).1

@[simp] theorem run_prepared (m : Warm β α) (s : Machine β) :
    (prepared m).run s = m.run s.prepared := rfl

/-- Write cold registers after the capture. -/
def warmWrite (g : ColdRegs → ColdRegs) : Warm β Unit where
  run := Fallible.modify fun s =>
    { s with regs := { s.regs with toColdRegs := g s.regs.toColdRegs } }
  bound := fun s hs => ⟨.single (.write s (g s.regs.toColdRegs) hs), hs⟩

@[simp] theorem run_warmWrite (g : ColdRegs → ColdRegs) (s : Machine β) :
    (warmWrite g).run s
      = (.ok (), { s with regs := { s.regs with toColdRegs := g s.regs.toColdRegs } }) :=
  rfl

/-- `prepare_cold_write` and a cold write right behind it. -/
def coldWrite (g : ColdRegs → ColdRegs) : Xfer β Unit := prepared (warmWrite g)

/-- Replace the hot registers, VM included. -/
def writeHot (g : HotRegs → HotRegs) : Xfer β Unit where
  run := Fallible.modify fun s =>
    { s with regs := { s.regs with toHotRegs := g s.regs.toHotRegs } }
  bound := fun s => .single (.hot s _)

@[simp] theorem run_writeHot (g : HotRegs → HotRegs) (s : Machine β) :
    (writeHot g).run s
      = (.ok (), { s with regs := { s.regs with toHotRegs := g s.regs.toHotRegs } }) :=
  rfl

/-- Replace EFLAGS, VM included. -/
def writeFlags (g : EFlags → EFlags) : Xfer β Unit :=
  writeHot fun r => { r with eflags := g r.eflags }

end Remu.X32
