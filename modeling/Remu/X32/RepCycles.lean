/-
The cycles of a repeated string instruction.

The loop of a REP prefix adds 4 to a word of 32 bits for every element.
The word is exact as long as the loop comes to its end within 1073741822
elements (`cyclesExact_iff`); a longer one makes it wrap, and the counter
of the processor loses 2^32 cycles.
-/
import Remu.Lib.Repeat
import Remu.X32.Step

namespace Remu.X32

variable {β : Type} [Bus β]

-- ======== the loop

/-- The loop of a REP prefix. -/
def repetition (one : Calm β Unit) (cmp contOnZf : Bool) :
    Repetition (Machine β) Exception where
  left s := s.countReg != 0
  one := (do
    one
    let s ← self
    setCountReg (s.countReg - 1) : Calm β Unit).run
  last s := cmp && s.regs.eflags.contains EFlags.ZF != contOnZf
  due s := s.interruptPending
  handOver s := ((setEip s.startEip).run s).2

variable (one : Calm β Unit) (cmp z : Bool)

/-- The loop is a repetition of its primitive that adds four cycles a round. -/
theorem run_repLoop (n : Nat) (c : U32) (s : Machine β) :
    (repLoop one cmp z n c).run s
      = (repetition one cmp z).run (· + 4) n c s := by
  induction n generalizing c s with
  | zero => rfl
  | succ n ih =>
    rw [repLoop, Repetition.run, Repetition.round]
    simp only [Bounded.run_bind, self, Bounded.run_get, Fallible.bind_apply,
      Fallible.get_apply]
    by_cases hleft : s.countReg = 0
    · have hnone : (repetition one cmp z).left s = false :=
        (bne_eq_false_iff_eq).2 hleft
      rw [if_pos hleft, hnone]
      rfl
    have hsome : (repetition one cmp z).left s = true := bne_iff_ne.2 hleft
    rw [if_neg hleft, hsome, if_pos rfl, Bounded.run_bind]
    rcases hrun : one.run s with ⟨e | u, t⟩
    · have hone : (repetition one cmp z).one s = (.error e, t) :=
        Fallible.bind_of_error hrun
      rw [Fallible.bind_of_error hrun, hone]
    have hone : (repetition one cmp z).one s
      = (setCountReg (t.countReg - 1)).run t := Fallible.bind_of_ok hrun
    rw [Fallible.bind_of_ok hrun, hone]
    obtain ⟨t', ht⟩ : ∃ t',
      (setCountReg (t.countReg - 1)).run t = (.ok (), t') := ⟨_, rfl⟩
    simp only [Bounded.run_bind, Bounded.run_get, Fallible.bind_apply,
      Fallible.get_apply, ht]
    cases hlast : (repetition one cmp z).last t' with
    | true =>
      have hzf : (cmp && t'.regs.eflags.contains EFlags.ZF != z) = true := hlast
      rw [if_pos hzf]
      rfl
    | false =>
      have hzf : (cmp && t'.regs.eflags.contains EFlags.ZF != z) ≠ true :=
        Bool.eq_false_iff.1 hlast
      rw [if_neg hzf]
      by_cases hdue : t'.countReg ≠ 0 ∧ t'.interruptPending
      · have hover :
          ((repetition one cmp z).left t' && (repetition one cmp z).due t') = true :=
          (Bool.and_eq_true _ _).mpr ⟨bne_iff_ne.2 hdue.1, hdue.2⟩
        rw [if_pos hdue, hover]
        rfl
      · have hover :
          ((repetition one cmp z).left t' && (repetition one cmp z).due t')
          = false := by
          rw [Bool.eq_false_iff, ne_eq, Bool.and_eq_true]
          exact fun h => hdue ⟨bne_iff_ne.1 h.1, h.2⟩
        rw [if_neg hdue, hover]
        exact ih (c + 4) t'

/-- The state at the loop's entry. -/
def Machine.committed (s : Machine β) : Machine β :=
  s.withDecode { s.toDecodeState with commitOnFault := true }

/-- A repeated string instruction is that loop from the count register and five
cycles. -/
theorem run_stringOp {s : Machine β} (hrep : s.rep = some z) :
    (stringOp one cmp).run s
      = (repetition one cmp z).run (· + 4) s.countReg.toNat 5 s.committed := by
  have hentry : s.committed.rep = some z := hrep
  have hcommit :
    (modifyDecode ({ · with commitOnFault := true }) : Calm β Unit).run s
    = (.ok (), s.committed) := rfl
  rw [stringOp, Bounded.run_bind, Fallible.bind_of_ok hcommit,
    Bounded.run_bind, self, Bounded.run_get,
    Fallible.bind_of_ok (Fallible.get_apply s.committed), hentry]
  exact run_repLoop one cmp z s.countReg.toNat 5 s.committed

-- ======== the result

/-- The number of elements of an activation. -/
def repElements (s : Machine β) : Except Exception Nat × Machine β :=
  (repetition one cmp z).elements s.countReg.toNat s.committed

/-- The result of a repeated string instruction, by the elements its loop
completes, in 32 bits. -/
theorem run_stringOp_elements {s : Machine β} (hrep : s.rep = some z) :
    (stringOp one cmp).run s
    = ((repElements one cmp z s).1.map fun k => BitVec.ofNat 32 (5 + 4 * k),
      (repElements one cmp z s).2) := by
  rw [run_stringOp one cmp z hrep, Repetition.run_eq]
  refine Prod.ext ?_ rfl
  exact congrArg (fun f => Except.map f _)
    (funext fun k => iterate_add_ofNat 5 4 k)

/-- The result is exact: 5 and 4 for every element. -/
def CyclesExact (s : Machine β) : Prop :=
  ∀ c t, (stringOp one cmp).run s = (.ok c, t) →
    ∃ k, repElements one cmp z s = (.ok k, t) ∧ c.toNat = 5 + 4 * k

/-- The loop comes to its end within `b` elements. -/
def RepEndsWithin (b : Nat) (s : Machine β) : Prop :=
  (repetition one cmp z).EndsWithin s.countReg.toNat b s.committed

/-- The loop comes to an element that fails. -/
def RepFails (s : Machine β) : Prop :=
  (repetition one cmp z).Fails s.countReg.toNat s.committed

/-- Five and four for each element fit in 32 bits up to 1073741822 elements. -/
theorem cyclesExact_iff {s : Machine β} (hrep : s.rep = some z) :
    CyclesExact one cmp z s ↔ RepEndsWithin one cmp z 1073741822 s
      ∨ RepFails one cmp z s := by
  exact Repetition.exact_iff (run_stringOp_elements one cmp z hrep) fun k => by omega

-- ======== a loop that runs

/-- A flat data segment. -/
def flatData : SegReg := ⟨0x10, 0, 0xFFFFFFFF, 0x0C93⟩

/-- A protected-mode state in which LODSB reaches every byte and nothing is
pending. -/
structure Undisturbed (s : Machine β) : Prop where
  override : s.segOverride = none
  wide : s.asize32 = true
  flat : s.paging = false
  quiet : s.events = 0
  data : s.regs.seg reg.DS = flatData

/-- In a flat segment every offset is its own linear address. -/
theorem linAddr_flat {s : Machine β} (h : Undisturbed s) (off : U32) :
    (linAddr (s.segOr reg.DS) off 1 false).run s = (.ok off, s) := by
  have hok : s.eaOk reg.DS off 1 false = true := by
    rw [Cpu.eaOk, h.data]
    have hlt := off.isLt
    have hle : off.toNat + (1 - 1) ≤ flatData.limit.toNat := by
      show off.toNat + 0 ≤ 4294967295
      omega
    dsimp only
    rw [decide_eq_true hle]
    rfl
  have hlin : s.linAddr reg.DS off 1 false = .ok off := by
    rw [Cpu.linAddr, hok, if_pos rfl, h.data]
    exact congrArg _ (BitVec.zero_add off)
  rw [Cpu.segOr, h.override]
  show (check (s.linAddr reg.DS off 1 false)).run s = _
  rw [hlin]
  rfl

omit [Bus β] in
/-- With 32-bit addresses the count register is ECX. -/
theorem Undisturbed.countReg {s : Machine β} (h : Undisturbed s) :
    s.countReg = s.regs.gpr reg.ECX := by
  rw [Cpu.countReg, Cpu.indexReg, h.wide, if_pos rfl]

/-- LODSB goes on: it takes a byte and leaves the counter alone. -/
theorem lods_run {s : Machine β} (h : Undisturbed s) :
    ∃ t, (lods str8).run s = (.ok (), t) ∧ Undisturbed t
      ∧ t.countReg = s.countReg := by
  obtain ⟨v, b, hread⟩ : ∃ v b,
    (linRead8 (s.indexReg reg.ESI)).run s = (.ok v, { s with bus := b }) := by
    rw [linRead8, Bounded.run_bind, self, Bounded.run_get,
      Fallible.bind_of_ok (Fallible.get_apply s), h.flat,
      Bool.not_false, if_pos rfl]
    exact ⟨_, _, rfl⟩
  have hsi : (readSi str8).run s = (.ok v, { s with bus := b }) := by
    rw [readSi, Bounded.run_bind, self, Bounded.run_get,
      Fallible.bind_of_ok (Fallible.get_apply s)]
    show (read8 (s.segOr reg.DS) (s.indexReg reg.ESI)).run s = _
    rw [read8, Bounded.run_bind, Fallible.bind_of_ok (linAddr_flat h _), hread]
    rfl
  have hacc : ∀ r : HotRegs,
    (r.setReg8 0 v).gpr reg.ECX = r.gpr reg.ECX := fun r => by
    unfold HotRegs.setReg8
    dsimp only
    rw [upd_other _ _ (show reg.ECX ≠ 0 &&& 3 by decide)]
  have hsi' : ∀ (r : HotRegs)
    (w : U32), (r.setReg32 reg.ESI w).gpr reg.ECX = r.gpr reg.ECX := fun r w =>
    upd_other r.gpr w (show reg.ECX ≠ reg.ESI &&& 7 by decide)
  obtain ⟨t, ht, hkept, hcount⟩ : ∃ t : Machine β,
      (stepSi (str8 : StrWidth β)).run
      ({ s with bus := b }.withHot (s.regs.toHotRegs.setReg8 0 v))
        = (.ok (), t) ∧ Undisturbed t
      ∧ t.regs.gpr reg.ECX = s.regs.gpr reg.ECX := by
    refine ⟨_, rfl, ⟨h.override, h.wide, h.flat, h.quiet, h.data⟩, ?_⟩
    show ((s.regs.toHotRegs.setReg8 0 v).setRegSized s.asize32 reg.ESI _).gpr
      reg.ECX = _
    rw [h.wide]
    exact (hsi' _ _).trans (hacc _)
  refine ⟨t, ?_, hkept, by rw [hkept.countReg, hcount, h.countReg]⟩
  rw [lods, Bounded.run_bind, Fallible.bind_of_ok hsi, Bounded.run_bind]
  exact ht

/-- The loop runs until the count has run out. -/
theorem lods_elements (n : Nat) {s : Machine β} (h : Undisturbed s)
    (hcount : s.countReg.toNat = n) (z : Bool) :
    ∃ t, (repetition (lods str8) false z).elements n s = (.ok n, t) := by
  induction n generalizing s with
  | zero => exact ⟨s, rfl⟩
  | succ n ih =>
    obtain ⟨t, hrun, hkept, hsame⟩ := lods_run h
    obtain ⟨u, hu, hkept', hecx⟩ : ∃ u : Machine β,
        (setCountReg (t.countReg - 1)).run t = (.ok (), u)
        ∧ Undisturbed u ∧ u.regs.gpr reg.ECX = t.countReg - 1 := by
      refine ⟨_, rfl,
        ⟨hkept.override, hkept.wide, hkept.flat, hkept.quiet, hkept.data⟩, ?_⟩
      show (t.regs.toHotRegs.setRegSized t.asize32 reg.ECX
        (t.countReg - 1)).gpr reg.ECX = _
      rw [hkept.wide]
      exact upd_same t.regs.gpr reg.ECX (t.countReg - 1)
    have hleft : (repetition (lods str8) false z).left s = true := by
      refine bne_iff_ne.2 fun hzero => ?_
      rw [hzero] at hcount
      exact absurd hcount (Nat.succ_ne_zero n).symm
    have hround :
      (repetition (lods str8) false z).round s = (.ok true, u) := by
      have hone : (repetition (lods str8) false z).one s = (.ok (), u) := by
        refine (Fallible.bind_of_ok hrun).trans ?_
        exact (Fallible.bind_of_ok (Fallible.get_apply t)).trans hu
      have hdue : (repetition (lods str8) false z).due u = false := by
        show u.interruptPending = false
        rw [Cpu.interruptPending, hkept'.quiet]
        rfl
      rw [Repetition.round, hone]
      dsimp only
      rw [hdue, Bool.and_false]
      rfl
    have hn : u.countReg.toNat = n := by
      rw [hkept'.countReg, hecx, hsame,
        BitVec.toNat_sub_of_le
        (by rw [BitVec.le_def]; exact hcount ▸ Nat.succ_pos n), hcount]
      rfl
    obtain ⟨t', ht'⟩ := ih hkept' hn
    exact ⟨t', by rw [Repetition.elements_succ _ hleft hround, ht']; rfl⟩

/-- REP LODSB of `count` bytes in a flat segment. -/
def repLods (count : U32) : Machine (FlatBus Unit) :=
  { Cpu.new with
    regs := { Registers.new with
      gpr := fun i => if i = reg.ECX then count else 0
      seg := fun _ => flatData
      cr0 := cr0.ET ||| cr0.PE }
    asize32 := true
    osize32 := true
    rep := some true
    bus := { mem := fun _ => 0, ports := () } }

/-- A LODS loop that nothing disturbs completes all its elements, by induction
on the count. -/
theorem repLods_elements (count : U32) :
    ∃ t, repElements (lods str8) false true (repLods count)
      = (.ok count.toNat, t) :=
  lods_elements count.toNat (s := (repLods count).committed)
    ⟨rfl, rfl, show ((cr0.ET ||| cr0.PE) &&& cr0.PG != 0) = false by decide,
      rfl, rfl⟩ rfl true

end Remu.X32
