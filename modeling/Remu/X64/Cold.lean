/-
Cold writes: what an instruction that is not calm may do.

The cold registers (segments, system tables, control, debug and
model-specific registers) are written only behind `prepare_cold_write`,
which captures the register file once per instruction so that a fault can
rewind it, and drops the cached fetch translation. Three more effect
disciplines say how:

- `Xfer`: calm steps, any change of the hot registers (VM included), the
  capture, and writes of the cold registers other than CR0 and EFER once
  the capture is taken. Segment loads, far transfers and interrupt delivery
  are of this kind;
- `Warm`: code that runs after the capture and relies on it;
- `Cold`: `Xfer` plus mode changes, which in addition find the fetch cache
  dropped and keep long mode paged and paging protected. This is what an
  instruction can do at most.

As with `Calm`, a program written in one of these cannot leave its
discipline, so the rewind law and the fetch-cache law need no walk over the
instruction set.
-/
import Remu.X64.Alu

namespace Remu.X64

variable {β α : Type}

/-- The state after `prepare_cold_write`. -/
def Machine.prepared (s : Machine β) : Machine β :=
  if s.coldSaved then { s with fetchTag := EMPTY }
  else { s with fetchTag := EMPTY, coldSaved := true, faultRegs := s.regs }

/-- After `cold_prepare` the cold registers count as saved. -/
theorem Machine.coldSaved_prepared (s : Machine β) :
    s.prepared.coldSaved = true := by
  unfold Machine.prepared
  split
  case isTrue h => exact h
  case isFalse => rfl

theorem Machine.fetchTag_prepared (s : Machine β) :
    s.prepared.fetchTag = EMPTY := by
  unfold Machine.prepared
  split <;> rfl

theorem Machine.regs_prepared (s : Machine β) : s.prepared.regs = s.regs := by
  unfold Machine.prepared
  split <;> rfl

/-- CR0 and EFER agree: the mode is the same. -/
def ColdRegs.SameMode (r r' : ColdRegs) : Prop :=
  r.cr0 = r'.cr0 ∧ r.msr.efer = r'.msr.efer

/-- Long mode is active only under paging, and paging only in protected
mode. -/
structure ColdRegs.ModeOk (r : ColdRegs) : Prop where
  paged : r.msr.efer &&& efer.LMA ≠ 0 → r.cr0 &&& cr0.PG ≠ 0
  protect : r.cr0 &&& cr0.PG ≠ 0 → r.cr0 &&& cr0.PE ≠ 0

/-- Registers are in the mode they are in. -/
theorem ColdRegs.sameMode_self (r : ColdRegs) : r.SameMode r := ⟨rfl, rfl⟩

/-- A well-formed mode stays so while the mode is the same. -/
theorem ColdRegs.SameMode.modeOk {r r' : ColdRegs}
    (h : r.SameMode r') (hr : r'.ModeOk) :
    r.ModeOk := by
  obtain ⟨hcr0, hefer⟩ := h
  exact ⟨by rw [hcr0, hefer]; exact hr.paged, by rw [hcr0]; exact hr.protect⟩

/-- A checked register update that keeps the mode consistent. -/
def KeepsMode (g : Registers → Except Exception Registers) : Prop :=
  ∀ r r', g r = .ok r' → r.toColdRegs.ModeOk → r'.toColdRegs.ModeOk

/-- A branch keeps the mode if both its arms do. -/
theorem KeepsMode.ite {c : Prop} [Decidable c]
    {f g : Registers → Except Exception Registers}
    (hf : KeepsMode f) (hg : KeepsMode g) :
    KeepsMode fun r => if c then f r else g r := by
  by_cases hc : c
  · simpa only [if_pos hc] using hf
  · simpa only [if_neg hc] using hg

/-- A fault writes nothing. -/
theorem KeepsMode.error (e : Exception) : KeepsMode fun _ => .error e := by
  intro r r' h
  cases h

/-- An update that leaves CR0 and EFER alone. -/
theorem KeepsMode.ok {g : Registers → Registers}
    (hg : ∀ r, (g r).SameMode r.toColdRegs := by intro r; exact ⟨rfl, rfl⟩) :
    KeepsMode fun r => .ok (g r) := by
  intro r r' h hok
  cases h
  exact (hg r).modeOk hok

-- ======== the steps

variable [Bus β]

/-- One step of a control transfer or a segment load. -/
inductive XferPrim : Machine β → Machine β → Prop
  | calm {s s' : Machine β} (h : CalmPrim s s') : XferPrim s s'
  | hot (s : Machine β) (r : HotRegs) :
      XferPrim s { s with regs := { s.regs with toHotRegs := r } }
  | prepare (s : Machine β) : XferPrim s s.prepared
  | write (s : Machine β) (r : ColdRegs) (hsaved : s.coldSaved = true)
      (hmode : r.SameMode s.regs.toColdRegs) :
      XferPrim s { s with regs := { s.regs with toColdRegs := r } }

/-- One step of any instruction. -/
inductive ColdPrim : Machine β → Machine β → Prop
  | xfer {s s' : Machine β} (h : XferPrim s s') : ColdPrim s s'
  | mode (s : Machine β) (r : Registers) (hsaved : s.coldSaved = true)
      (htag : s.fetchTag = EMPTY)
      (hmode : s.regs.toColdRegs.ModeOk → r.toColdRegs.ModeOk) :
      ColdPrim s { s with regs := r }
  | cycles (s : Machine β) (n : U64) : ColdPrim s { s with cycles := n }

/-- Steps that may also change the code segment or the flags. -/
abbrev XferSteps : Machine β → Machine β → Prop :=
  Relation.ReflTransGen XferPrim
/-- Steps that may also change the control registers. -/
abbrev ColdSteps : Machine β → Machine β → Prop :=
  Relation.ReflTransGen ColdPrim

/-- Once the capture is taken: transfer steps, and it stays taken. -/
def WarmSteps (s s' : Machine β) : Prop :=
  s.coldSaved = true → XferSteps s s' ∧ s'.coldSaved = true

instance : IsPreorder (Machine β) XferSteps where
  refl _ := .refl
  trans _ _ _ := .trans

instance : IsPreorder (Machine β) ColdSteps where
  refl _ := .refl
  trans _ _ _ := .trans

instance : IsPreorder (Machine β) WarmSteps where
  refl _ h := ⟨.refl, h⟩
  trans _ _ _ hab hbc h :=
    have ⟨h1, hs1⟩ := hab h
    have ⟨h2, hs2⟩ := hbc hs1
    ⟨h1.trans h2, hs2⟩

/-- Calm steps are transfer steps that transfer nothing. -/
theorem CalmSteps.xfer {s s' : Machine β} (h : CalmSteps s s') :
    XferSteps s s' :=
  Relation.ReflTransGen.mono (fun _ _ hc => XferPrim.calm hc) _ _ h

/-- Transfer steps are cold steps that leave the control registers. -/
theorem XferSteps.cold {s s' : Machine β} (h : XferSteps s s') :
    ColdSteps s s' :=
  Relation.ReflTransGen.mono (fun _ _ hx => ColdPrim.xfer hx) _ _ h

/-- No calm step touches the capture. -/
theorem CalmPrim.coldSaved {s s' : Machine β} (h : CalmPrim s s') :
    s'.coldSaved = s.coldSaved := by
  cases h <;> rfl

/-- A capture, once taken, stays for the rest of the instruction. -/
theorem XferSteps.coldSaved {s s' : Machine β} (h : XferSteps s s')
    (hs : s.coldSaved = true) : s'.coldSaved = true := by
  induction h with
  | refl => exact hs
  | tail _ hstep ih =>
    cases hstep with
    | calm hc => rw [hc.coldSaved, ih]
    | hot => exact ih
    | prepare => exact Machine.coldSaved_prepared _
    | write => exact ih

/-- Transfer steps are warm steps. -/
theorem XferSteps.warm {s s' : Machine β} (h : XferSteps s s') :
    WarmSteps s s' :=
  fun hs => ⟨h, h.coldSaved hs⟩

-- ======== the monads

/-- Programs whose steps may transfer control. -/
abbrev Xfer (β : Type) [Bus β] (α : Type) : Type :=
  Bounded (XferSteps (β := β)) Exception α

/-- Programs whose steps may load segment registers. -/
abbrev Warm (β : Type) [Bus β] (α : Type) : Type :=
  Bounded (WarmSteps (β := β)) Exception α

/-- Programs whose steps may write any cold register. -/
abbrev Cold (β : Type) [Bus β] (α : Type) : Type :=
  Bounded (ColdSteps (β := β)) Exception α

instance : Bounded.Within (CalmSteps (β := β)) XferSteps := ⟨CalmSteps.xfer⟩
instance : Bounded.Within (CalmSteps (β := β)) WarmSteps :=
  ⟨fun h => h.xfer.warm⟩
instance : Bounded.Within (CalmSteps (β := β)) ColdSteps :=
  ⟨fun h => h.xfer.cold⟩
instance : Bounded.Within (XferSteps (β := β)) WarmSteps := ⟨XferSteps.warm⟩
instance : Bounded.Within (XferSteps (β := β)) ColdSteps := ⟨XferSteps.cold⟩

-- ======== primitives

/-- Capture the register file, then run code that may write it. -/
def prepared (m : Warm β α) : Xfer β α where
  run := fun s => m.run s.prepared
  bound := fun s =>
    .trans (.single (.prepare s)) (m.bound s.prepared s.coldSaved_prepared).1

@[simp] theorem run_prepared (m : Warm β α) (s : Machine β) :
    (prepared m).run s = m.run s.prepared := rfl

/-- Write cold registers other than CR0 and EFER after the capture. -/
def warmWrite (g : ColdRegs → ColdRegs)
    (hmode : ∀ r, (g r).SameMode r := by exact ColdRegs.sameMode_self) :
    Warm β Unit where
  run := Fallible.modify fun s =>
    { s with regs := { s.regs with toColdRegs := g s.regs.toColdRegs } }
  bound := fun s hs =>
    ⟨.single (.write s (g s.regs.toColdRegs) hs (hmode _)), hs⟩

@[simp] theorem run_warmWrite (g : ColdRegs → ColdRegs)
    (hmode : ∀ r, (g r).SameMode r) (s : Machine β) :
    (warmWrite g hmode).run s
      = (.ok (), { s with regs := { s.regs with toColdRegs := g s.regs.toColdRegs } }) :=
  rfl

/-- `prepare_cold_write` and a cold write right behind it. -/
def coldWrite (g : ColdRegs → ColdRegs)
    (hmode : ∀ r, (g r).SameMode r := by exact ColdRegs.sameMode_self) :
    Xfer β Unit :=
  prepared (warmWrite g hmode)

/-- Replace the hot registers, VM included. -/
def writeHot (g : HotRegs → HotRegs) : Xfer β Unit where
  run := Fallible.modify fun s =>
    { s with regs := { s.regs with toHotRegs := g s.regs.toHotRegs } }
  bound := fun s => .single (.hot s _)

@[simp] theorem run_writeHot (g : HotRegs → HotRegs) (s : Machine β) :
    (writeHot g).run s
      = (.ok (), { s with regs := { s.regs with toHotRegs := g s.regs.toHotRegs } }) :=
  rfl

/-- Replace RFLAGS, VM included. -/
def writeFlags (g : RFlags → RFlags) : Xfer β Unit :=
  writeHot fun r => { r with rflags := g r.rflags }

/-- `prepare_cold_write`, then a checked update of the register file that
may change the mode. A failing check leaves the registers alone. -/
def modeWrite (g : Registers → Except Exception Registers)
    (hmode : KeepsMode g) : Cold β Unit where
  run := fun s => match g s.regs with
    | .ok r => (.ok (), { s.prepared with regs := r })
    | .error e => (.error e, s.prepared)
  bound := fun s => by
    have hprep : ColdSteps s s.prepared := .single (.xfer (.prepare s))
    cases hg : g s.regs with
    | ok r =>
      refine hprep.tail
        (.mode _ r s.coldSaved_prepared s.fetchTag_prepared fun hok => ?_)
      rw [s.regs_prepared] at hok
      exact hmode _ _ hg hok
    | error e => exact hprep

@[simp] theorem run_modeWrite (g : Registers → Except Exception Registers)
    (hmode : KeepsMode g) (s : Machine β) :
    (modeWrite g hmode).run s = match g s.regs with
      | .ok r => (.ok (), { s.prepared with regs := r })
      | .error e => (.error e, s.prepared) := rfl

/-- Writes the cycle counter, as WRMSR to the time stamp counter does. -/
def setCycles (n : U64) : Cold β Unit where
  run := Fallible.modify fun s => { s with cycles := n }
  bound := fun s => .single (.cycles s n)

end Remu.X64
