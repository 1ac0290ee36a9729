/-
A block runs like the instructions it was translated from.

`Tracks` relates the host in the middle of a body to the processor that has
executed the same instructions one by one: the memory of the two agrees, and
each flag is where the analysis says. An operation that does as its effect
promises (`Obeys`) keeps it; so does a body, by induction on its operations.
At an exit the flags register written is the one the processor has. A loop
is one traversal after the other, and the induction is on the traversals the
budget has left.
-/
import Mathlib.Tactic.IntervalCases
import Remu.Jit.Agree
import Remu.Jit.Frame

namespace Remu.Jit

open Item Insn Host

variable {κ : Size → Type} {μ : Type} [Cells κ μ] {α : Type} {w : Nat}
  {F : Fields κ α w} (G : Guest F μ)

-- ======== the prologue

/-- The page has not been written since `version`, and nothing
invalidated. -/
def Fresh (F : Fields κ α w) (version : U64) (slot : Nat) (m : μ) : Prop :=
  Cells.read (F.stamp slot) m ≤ version ∧ Cells.read F.inval m ≤ version

/-- A comparison's carry. -/
theorem carry_cmp (a b : Operand κ .q) (h : Host μ) :
    ((host κ μ).op (aluq .cmp a b) h).flags .CF
      = decide (h.read a < h.read b) :=
  decide_eq_decide.2 BitVec.lt_def.symm

/-- What the prologue does before its first branch. -/
abbrev entryOps (F : Fields κ α w) (version : U64) (slot : Nat) :
    List (Insn κ) :=
  [.push .rbp, movq (.reg .rbp) (.reg .rcx), movq (.reg .rax) (.imm version),
    movq (.reg .r10) (.mem F.stamps),
    aluq .cmp (.reg .rax) (.mem (F.stamp slot))]

/-- The stamp of the block's page is compared with the version. -/
theorem carry_stamp (version : U64) (slot : Nat) (h : Host μ) :
    ((host κ μ).exec (entryOps F version slot) h).flags .CF
      = decide (version < Cells.read (F.stamp slot) h.mem) := by
  refine (carry_cmp _ _ _).trans ?_
  simp [effect, Size.bits]

/-- The invalidation stamp is compared with the version. -/
theorem carry_inval (version : U64) (slot : Nat) (h : Host μ) :
    ((host κ μ).op (aluq .cmp (.reg .rax) (.mem F.inval))
      ((host κ μ).exec (entryOps F version slot) h)).flags .CF
      = decide (version < Cells.read F.inval h.mem) := by
  refine (carry_cmp _ _ _).trans ?_
  simp [effect, Size.bits]

/-- A block that is fresh runs. -/
theorem returns_fresh {version : U64} {slot : Nat} {h : Host μ}
    (hf : Fresh F version slot h.mem) :
    ∃ h₁ : Host μ, h₁.mem = h.mem ∧ h₁.stack = h.reg .rbp :: h.stack
      ∧ h₁.fault = h.fault
      ∧ h₁.reg .rdx = h.reg .rdx
      ∧ ∀ code rest t, (host κ μ).Returns code rest h₁ t
        → (host κ μ).Returns code (emitPrologue F version slot ++ rest) h t := by
  refine ⟨(host κ μ).op (aluq .cmp (.reg .rax) (.mem F.inval))
    ((host κ μ).exec (entryOps F version slot) h),
    rfl, rfl, rfl, rfl, fun code rest t hrun => ?_⟩
  rw [emitPrologue, List.append_assoc]
  refine .ops (.passed ?_ (.op (.passed ?_ hrun)))
  · exact (carry_stamp version slot h).trans
      (decide_eq_false (BitVec.not_lt.2 hf.1))
  · exact (carry_inval version slot h).trans
      (decide_eq_false (BitVec.not_lt.2 hf.2))

/-- An exit holds no label. -/
theorem behind_emitExit (p : Plan α w) (ip : BitVec w) (b : Bool) (n : U32)
    (cyc : Cyc) (l : Nat) (rest : Code κ) :
    behind l (emitExit F p ip b n cyc ++ rest) = behind l rest := by
  rw [emitExit, List.append_assoc, behind_ops]
  rfl

/-- A stale block returns zero. -/
theorem behind_stale (p : Plan α w) (version : U64) (slot : Nat) :
    behind STALE (emitBlock F p version slot)
      = some [.op (alud .xor (.reg .rax) (.reg .rax)),
        .op (.pop .rbp), .ret] := by
  have hend : ∀ rest,
    behind STALE (emitEnd F p ++ rest) = behind STALE rest := by
    intro rest
    unfold emitEnd
    cases p.term <;> simp [behind, behind_emitExit]
  have hloop :
    ∀ rest, behind STALE (emitLoopEnd F p ++ rest) = behind STALE rest := by
    intro rest
    unfold emitLoopEnd
    cases p.term <;> simp [behind, behind_emitExit, emitCount, emitBackedge]
  simp only [emitBlock, emitPrologue, emitMain, emitStale]
  split <;> simp [behind, hend, hloop, emitBodies, emitLoopHead]

/-- The way out of a stale block. -/
theorem returns_stale_exit (code : Code κ) (h : Host μ) :
    ∃ t, (host κ μ).Returns code [.op (alud .xor (.reg .rax) (.reg .rax)),
      .op (.pop .rbp), .ret] h t
      ∧ t.mem = h.mem ∧ t.reg .rax = 0 ∧ t.reg .rbp = h.stack.headD 0
      ∧ t.stack = h.stack.tail
      ∧ t.fault = h.fault := by
  refine ⟨_, .op (.op .ret), rfl, ?_, rfl, rfl, rfl⟩
  show ((h.reg .rax).setWidth 32 ^^^ (h.reg .rax).setWidth 32).setWidth 64 = 0
  rw [BitVec.xor_self]
  rfl

/-- A block that is stale retires nothing and touches nothing. -/
theorem returns_stale (p : Plan α w) {version : U64} {slot : Nat} {h : Host μ}
    (hf : ¬ Fresh F version slot h.mem) :
    ∃ t, (host κ μ).Returns (emitBlock F p version slot)
      (emitBlock F p version slot) h t ∧ t.mem = h.mem
      ∧ t.reg .rax = 0 ∧ t.reg .rbp = h.reg .rbp ∧ t.stack = h.stack
      ∧ t.fault = h.fault := by
  have hentry : ∀ t, (host κ μ).Returns (emitBlock F p version slot)
      ([.branch (.jcc .b) STALE, .op (aluq .cmp (.reg .rax) (.mem F.inval)),
        .branch (.jcc .b) STALE]
        ++ (emitMain F p ++ emitStale))
          ((host κ μ).exec (entryOps F version slot) h) t
      → (host κ μ).Returns (emitBlock F p version slot)
        (emitBlock F p version slot) h t := by
    intro t hrun
    have hcode : emitBlock F p version slot = (entryOps F version slot).map .op
        ++ ([.branch (.jcc .b) STALE,
          .op (aluq .cmp (.reg .rax) (.mem F.inval)), .branch (.jcc .b) STALE]
          ++ (emitMain F p ++ emitStale)) := by
      rw [emitBlock, emitPrologue, List.append_assoc, List.append_assoc]
    conv => arg 3; rw [hcode]
    exact .ops hrun
  by_cases hs : version < Cells.read (F.stamp slot) h.mem
  · obtain ⟨t, hret, hmem, hrax, hrbp, hstack, hfault⟩ :=
      returns_stale_exit (emitBlock F p version slot)
        ((host κ μ).exec (entryOps F version slot) h)
    refine ⟨t, hentry t (.taken ?_ (behind_stale p version slot) hret), hmem,
      hrax, hrbp, hstack, hfault⟩
    exact (carry_stamp version slot h).trans (decide_eq_true hs)
  · have hi : version < Cells.read F.inval h.mem := by
      by_contra hi
      exact hf ⟨BitVec.not_lt.1 hs, BitVec.not_lt.1 hi⟩
    obtain ⟨t, hret, hmem, hrax, hrbp, hstack, hfault⟩ :=
      returns_stale_exit (emitBlock F p version slot)
        ((host κ μ).op (aluq .cmp (.reg .rax) (.mem F.inval))
          ((host κ μ).exec (entryOps F version slot) h))
    refine ⟨t, hentry t
      (.passed ?_ (.op (.taken ?_ (behind_stale p version slot) hret))),
      hmem, hrax, hrbp, hstack, hfault⟩
    · exact (carry_stamp version slot h).trans (decide_eq_false hs)
    · exact (carry_inval version slot h).trans (decide_eq_true hi)

-- ======== tracking

/-- The flags of a set after an operation. -/
theorem has_after (m n e : U32) (φ : Status) :
    has ((m &&& ~~~n) ||| e) φ = ((has m φ && !has n φ) || has e φ) := by
  rw [has, has, has, has, BitVec.getLsbD_or, BitVec.getLsbD_and,
    BitVec.getLsbD_not, decide_eq_true φ.pos_lt, Bool.true_and]

/-- A read that the analysis has allowed. -/
theorem exact_of_reads {reads exact : U32} (h : reads &&& ~~~exact = 0)
    {φ : Status} (hφ : has reads φ = true) :
    has exact φ = true := by
  have hbit := congrArg (·.getLsbD φ.pos) h
  simp only [BitVec.getLsbD_and, BitVec.getLsbD_not, decide_eq_true φ.pos_lt,
    Bool.true_and] at hbit
  rw [has] at hφ
  rw [hφ, Bool.true_and] at hbit
  simpa [has] using hbit

/-- The flags a state of the analysis says something about. -/
def FlagState.touched (s : FlagState) : U32 :=
  s.exact ||| s.const0 ||| s.const1 ||| s.garbage

/-- What is touched after an operation. -/
theorem FlagState.touched_after (s : FlagState) (e : FlagEffect) :
    (s.after e).touched = (s.touched &&& ~~~e.written) ||| e.written := by
  refine BitVec.eq_of_getLsbD_eq fun i hi => ?_
  simp only [touched, after, FlagEffect.written, BitVec.getLsbD_or,
    BitVec.getLsbD_and, BitVec.getLsbD_not, decide_eq_true hi, Bool.true_and]
  generalize s.exact.getLsbD i = a, s.const0.getLsbD i = b,
    s.const1.getLsbD i = c, s.garbage.getLsbD i = d,
    e.exact.getLsbD i = a', e.const0.getLsbD i = b', e.const1.getLsbD i = c',
      e.garbage.getLsbD i = d'
  revert a b c d a' b' c' d'
  decide

/-- In the middle of a body: the host `h`, the processor `g`, and the flags
register `v` the traversal began with. -/
structure Tracks (s : FlagState) (v : U32) (h : Host μ) (g : μ) : Prop where
  alike : G.Alike h.mem g
  within : s.touched &&& ~~~ALL = 0
  exact : ∀ φ, has s.exact φ = true → h.flags φ = flagsOf (G.flags g) φ
  const0 : ∀ φ, has s.const0 φ = true → flagsOf (G.flags g) φ = false
  const1 : ∀ φ, has s.const1 φ = true → flagsOf (G.flags g) φ = true
  kept : ∀ φ, has s.touched φ = false → flagsOf (G.flags g) φ = flagsOf v φ
  other : G.flags g &&& ~~~ALL = v &&& ~~~ALL

/-- The operation took the host from `h` to `h'` and the processor from `g`
to `g'`, and the flags are what its effect promises. -/
structure Does (e : FlagEffect) (h : Host μ) (g : μ) (h' : Host μ) (g' : μ) :
    Prop where
  alike : G.Alike h'.mem g'
  toFlagsDo : FlagsDo e h.flags h'.flags (G.flags g) (G.flags g')
  flags : G.flags h'.mem = G.flags h.mem
  cycles : G.cycles h'.mem = G.cycles h.mem
  spares : Spares [.rax] h h'

variable {G}

/-- One operation keeps the host's flags and the guest's together. -/
theorem Tracks.after {s : FlagState} {v : U32} {h h' : Host μ}
    {g g' : μ} {e : FlagEffect}
    (ht : Tracks G s v h g) (he : e.written &&& ~~~ALL = 0)
    (hd : Does G e h g h' g') :
    Tracks G (s.after e) v h' g' := by
  have hsplit :
      ∀ (m n : U32) (φ : Status), has ((m &&& ~~~e.written) ||| n) φ = true →
      has n φ = true ∨ (has e.written φ = false ∧ has m φ = true) := by
    intro m n φ hm
    rw [has_after] at hm
    cases hn : has n φ
    · rw [hn, Bool.or_false, Bool.and_eq_true, Bool.not_eq_true'] at hm
      exact .inr ⟨hm.2, hm.1⟩
    · exact .inl rfl
  refine ⟨hd.alike, ?_, fun φ hφ => ?_, fun φ hφ => ?_,
    fun φ hφ => ?_, fun φ hφ => ?_, hd.toFlagsDo.other.trans ht.other⟩
  · rw [FlagState.touched_after, BitVec.and_or_distrib_right, he,
      BitVec.and_assoc, BitVec.and_comm (~~~e.written),
      ← BitVec.and_assoc, ht.within]
    show (0#32 &&& ~~~e.written) ||| 0#32 = 0#32
    rw [BitVec.zero_and, BitVec.or_zero]
  · rcases hsplit _ _ φ hφ with hφ | ⟨hw, hφ⟩
    · exact hd.toFlagsDo.exact φ hφ
    · rw [(hd.toFlagsDo.kept φ hw).1, (hd.toFlagsDo.kept φ hw).2]
      exact ht.exact φ hφ
  · rcases hsplit _ _ φ hφ with hφ | ⟨hw, hφ⟩
    · exact hd.toFlagsDo.const0 φ hφ
    · rw [(hd.toFlagsDo.kept φ hw).2]
      exact ht.const0 φ hφ
  · rcases hsplit _ _ φ hφ with hφ | ⟨hw, hφ⟩
    · exact hd.toFlagsDo.const1 φ hφ
    · rw [(hd.toFlagsDo.kept φ hw).2]
      exact ht.const1 φ hφ
  · rw [FlagState.touched_after, has_after, Bool.or_eq_false_iff] at hφ
    rw [(hd.toFlagsDo.kept φ hφ.2).2]
    rw [hφ.2, Bool.not_false, Bool.and_true] at hφ
    exact ht.kept φ hφ.1

-- ======== the flags register at an exit

/-- The bits an exit writes. -/
def FlagState.cleared (s : FlagState) : U32 :=
  s.exact ||| s.const0 ||| s.const1

/-- Outside the bits an exit writes two flags registers agree. -/
def AgreeOff (m v v' : U32) : Prop := v &&& ~~~m = v' &&& ~~~m

/-- A bit of a flags register is a status flag or none of them. -/
theorem status_or_other {i : Nat} (hi : i < 32) :
    (∃ φ : Status, φ.pos = i) ∨ ALL.getLsbD i = false := by
  have hall : ∀ i < 32, (∃ φ ∈ [Status.CF, .PF, .AF, .ZF, .SF, .OF], φ.pos = i)
    ∨ ALL.getLsbD i = false := by decide
  rcases hall i hi with ⟨φ, -, h⟩ | h
  · exact .inl ⟨φ, h⟩
  · exact .inr h

/-- Words that agree off a mask agree on each bit off it. -/
theorem getLsbD_of_and_eq {m v v' : U32} (h : v &&& ~~~m = v' &&& ~~~m)
    {i : Nat} (hi : i < 32)
    (hm : m.getLsbD i = false) : v.getLsbD i = v'.getLsbD i := by
  have hbit := congrArg (·.getLsbD i) h
  simp only [BitVec.getLsbD_and, BitVec.getLsbD_not, hm, decide_eq_true hi,
    Bool.not_false, Bool.and_true] at hbit
  exact hbit

/-- A bit of the word put back. -/
theorem getLsbD_matWord (a b c : U32) (f : Flags) (v : U32)
    {i : Nat} (hi : i < 32) :
    (matWord a b c f v).getLsbD i
      = ((v.getLsbD i && !(a ||| b ||| c).getLsbD i)
      || ((hostWord f).getLsbD i && a.getLsbD i) || c.getLsbD i) := by
  rw [matWord, BitVec.getLsbD_or, BitVec.getLsbD_or, BitVec.getLsbD_and,
    BitVec.getLsbD_and, BitVec.getLsbD_not, decide_eq_true hi,
    Bool.true_and, Bool.or_assoc]

/-- At a clean exit the register written is the processor's. -/
theorem Tracks.matWord_eq {s : FlagState} {v v' : U32} {h : Host μ} {g : μ}
    (ht : Tracks G s v h g)
    (hclean : s.garbage = 0) (hv : AgreeOff s.cleared v' v) :
    matWord s.exact s.const0 s.const1 h.flags v' = G.flags g := by
  have htouched : s.touched = s.cleared := by
    rw [FlagState.touched, hclean]
    exact BitVec.or_zero
  refine BitVec.eq_of_getLsbD_eq fun i hi => ?_
  rw [getLsbD_matWord _ _ _ _ _ hi]
  have hbits : s.cleared.getLsbD i
    = (s.exact.getLsbD i || s.const0.getLsbD i || s.const1.getLsbD i) := by
    rw [FlagState.cleared, BitVec.getLsbD_or, BitVec.getLsbD_or]
  rw [show s.exact ||| s.const0 ||| s.const1 = s.cleared from rfl]
  cases hm : s.cleared.getLsbD i with
  | false =>
    rw [hm] at hbits
    obtain ⟨⟨he, hz⟩, ho⟩ : (s.exact.getLsbD i = false
      ∧ s.const0.getLsbD i = false) ∧ s.const1.getLsbD i = false := by
      simpa [Bool.or_eq_false_iff] using hbits.symm
    rw [he, ho, Bool.and_false, Bool.or_false, Bool.or_false,
      Bool.not_false, Bool.and_true]
    refine (getLsbD_of_and_eq hv hi hm).trans ?_
    rcases status_or_other hi with ⟨φ, rfl⟩ | hother
    · exact (ht.kept φ (by rw [htouched]; exact hm)).symm
    · exact (getLsbD_of_and_eq ht.other hi hother).symm
  | true =>
    rcases status_or_other hi with ⟨φ, rfl⟩ | hother
    case inr =>
      have hw := congrArg (·.getLsbD i) ht.within
      simp only [htouched, BitVec.getLsbD_and, BitVec.getLsbD_not, hm, hother,
        decide_eq_true hi, Bool.not_false, Bool.and_true] at hw
      exact absurd (hw.trans BitVec.getLsbD_zero) (by decide)
    have hhost : (hostWord h.flags).getLsbD φ.pos = h.flags φ :=
      congrFun (flagsOf_hostWord h.flags) φ
    rw [hhost, Bool.not_true, Bool.and_false, Bool.false_or]
    rw [hm] at hbits
    have hexact := ht.exact φ
    have hzero := ht.const0 φ
    have hone := ht.const1 φ
    simp only [has, flagsOf] at hexact hzero hone
    cases he : s.exact.getLsbD φ.pos <;> cases hz :
      s.const0.getLsbD φ.pos <;> cases ho : s.const1.getLsbD φ.pos
      <;> simp_all

-- ======== bodies

variable (G)

/-- An operation of a body, at `start`, does what its effect promises;
`step` is the instruction on the processor, in states that meet `I`. -/
structure Obeys (I : μ → Prop) (start : BitVec w) (c : Cand α w)
    (step : μ → μ) : Prop where
  within : c.effect.written &&& ~~~ALL = 0
  cyc : c.cyc.toNat ≤ 20
  does : ∀ b, c.body = some b → ∀ (h : Host μ) g,
    G.Alike h.mem g → G.ip g = start → I g →
    (∀ φ, has c.effect.reads φ = true → h.flags φ = flagsOf (G.flags g) φ) →
    Does G c.effect h g ((host κ μ).exec (F.emitBody b) h) (step g)
  ip : ∀ g, G.ip g = start → I g → G.ip (step g) = c.endIp
  inv : ∀ g, G.ip g = start → I g → I (step g)
  cycles : ∀ g, G.ip g = start → I g →
    G.cycles (step g) = G.cycles g + c.cyc.setWidth 64

/-- The operations of a body, one behind the other, with the instructions
they stand for. -/
inductive Chain (I : μ → Prop) :
    BitVec w → List (Cand α w) → List (μ → μ) → BitVec w → Prop
  | nil (a : BitVec w) : Chain I a [] [] a
  | cons {a z : BitVec w} {c : Cand α w} {f : μ → μ} {cs : List (Cand α w)}
      {fs : List (μ → μ)}
      (hc : Obeys G I a c f) (h : Chain I c.endIp cs fs z) :
      Chain I a (c :: cs) (f :: fs) z

variable {G}

/-- The instructions of a body on the processor. -/
def runAll (fs : List (μ → μ)) (g : μ) : μ := fs.foldl (fun g f => f g) g

/-- What a body costs. -/
def cycleSum (cs : List (Cand α w)) : Nat := (cs.map (·.cyc.toNat)).sum

@[simp] theorem cycleSum_cons (c : Cand α w) (cs : List (Cand α w)) :
    cycleSum (c :: cs) = c.cyc.toNat + cycleSum cs := by
  rw [cycleSum, List.map_cons, List.sum_cons, cycleSum]

/-- The state behind a body. -/
structure Traversed (I : μ → Prop) (t : FlagState) (z : BitVec w) (n : Nat)
    (v : U32) (h : Host μ) (g : μ) (h' : Host μ) (g' : μ) : Prop where
  tracks : Tracks G t v h' g'
  ip : G.ip g' = z
  inv : I g'
  spares : Spares [.rax] h h'
  flags : G.flags h'.mem = G.flags h.mem
  cycles : G.cycles h'.mem = G.cycles h.mem
  cost : G.cycles g' = G.cycles g + BitVec.ofNat 64 n

/-- The instructions of a block, by induction on them. -/
theorem Chain.traversed {I : μ → Prop} {a z : BitVec w}
    {cs : List (Cand α w)} {fs : List (μ → μ)}
    (hc : Chain G I a cs fs z) (hs : ∀ c ∈ cs, c.Straight) {s t : FlagState}
    (hr : s.Runs cs t) {v : U32}
    {h : Host μ} {g : μ} (ht : Tracks G s v h g)
    (hip : G.ip g = a) (hI : I g) :
    Traversed (G := G) I t z (cycleSum cs) v h g
      ((host κ μ).exec ((cs.filterMap Cand.body).flatMap F.emitBody) h)
        (runAll fs g) := by
  induction hc generalizing s h g with
  | nil a =>
    cases hr
    exact ⟨ht, hip, hI, .refl _ _, rfl, rfl, (BitVec.add_zero _).symm⟩
  | cons hc _ ih =>
    obtain ⟨b, hb⟩ := Option.isSome_iff_exists.1 (hs _ List.mem_cons_self).1
    have hd := hc.does b hb h g ht.alike hip hI fun φ hφ =>
      ht.exact φ (exact_of_reads hr.1 hφ)
    have hrest :=
      ih (fun c hc => hs c (List.mem_cons_of_mem _ hc)) hr.2
        (ht.after hc.within hd)
      (hc.ip g hip hI) (hc.inv g hip hI)
    rw [List.filterMap_cons_some hb, List.flatMap_cons, Isa.exec_append]
    refine ⟨hrest.tracks, hrest.ip, hrest.inv, ?_, hrest.flags.trans hd.flags,
      hrest.cycles.trans hd.cycles, ?_⟩
    · refine ⟨fun r hr => ?_, hrest.spares.stack.trans hd.spares.stack,
        hrest.spares.fault.trans hd.spares.fault⟩
      exact (hrest.spares.reg r hr).trans (hd.spares.reg r hr)
    · refine hrest.cost.trans ?_
      rw [hc.cycles g hip hI, cycleSum_cons, BitVec.ofNat_add,
        BitVec.ofNat_toNat, BitVec.add_assoc]

/-- Where the instructions of a body get to. -/
theorem Chain.inv {I : μ → Prop} {a z : BitVec w} {cs : List (Cand α w)}
    {fs : List (μ → μ)} (hc : Chain G I a cs fs z)
    {g : μ} (hip : G.ip g = a) (hI : I g) :
    G.ip (runAll fs g) = z ∧ I (runAll fs g) := by
  induction hc generalizing g with
  | nil => exact ⟨hip, hI⟩
  | cons hc _ ih => exact ih (hc.ip g hip hI) (hc.inv g hip hI)

/-- A chain ends where its last operation does. -/
theorem Chain.last {I : μ → Prop} {a z : BitVec w} {pre : List (Cand α w)}
    {c : Cand α w} {fs : List (μ → μ)}
    (hc : Chain G I a (pre ++ [c]) fs z) : z = c.endIp := by
  induction pre generalizing a fs with
  | nil =>
    cases hc with
    | cons _ h =>
      cases h
      rfl
  | cons x pre ih =>
    cases hc with
    | cons _ h => exact ih h

/-- An instruction costs at most 20 cycles. -/
theorem Chain.cyc_le {I : μ → Prop} {a z : BitVec w}
    {cs : List (Cand α w)} {fs : List (μ → μ)}
    (hc : Chain G I a cs fs z) : ∀ c ∈ cs, c.cyc.toNat ≤ 20 := by
  induction hc with
  | nil => exact fun _ hx => (List.not_mem_nil hx).elim
  | cons hc _ ih =>
    intro x hx
    rcases List.mem_cons.1 hx with rfl | hx
    · exact hc.cyc
    · exact ih x hx

/-- A block's sum of cycles stays small. -/
theorem cycleSum_le {cs : List (Cand α w)} (h : ∀ c ∈ cs, c.cyc.toNat ≤ 20) :
    cycleSum cs ≤ 20 * cs.length := by
  induction cs with
  | nil => exact Nat.le_refl 0
  | cons c cs ih =>
    have hc := h c List.mem_cons_self
    have hrest := ih fun x hx => h x (List.mem_cons_of_mem _ hx)
    rw [cycleSum_cons, List.length_cons]
    omega

/-- The cycles of a short body do not wrap. -/
theorem toNat_bodyCycles {cs : List (Cand α w)} (hs : ∀ c ∈ cs, c.Straight)
    (hc : ∀ c ∈ cs, c.cyc.toNat ≤ 20)
    (hn : cs.length ≤ MAX_BLOCK_INSNS) :
    (bodyCycles cs).toNat = cycleSum cs := by
  have hfold : ∀ (cs : List (Cand α w))
      (n : U32), (∀ c ∈ cs, c.Straight) → n.toNat + cycleSum cs < 2 ^ 32 →
      (cs.foldl (fun n c => if c.body.isSome then n + c.cyc else n) n).toNat
        = n.toNat + cycleSum cs := by
    intro cs
    induction cs with
    | nil => exact fun _ _ _ => rfl
    | cons c cs ih =>
      intro n hs hlt
      rw [cycleSum_cons] at hlt ⊢
      rw [List.foldl_cons, if_pos (hs c List.mem_cons_self).1]
      have hadd : (n + c.cyc).toNat = n.toNat + c.cyc.toNat := by
        rw [BitVec.toNat_add, Nat.mod_eq_of_lt (by omega)]
      rw [ih _ (fun x hx => hs x (List.mem_cons_of_mem _ hx)) (by omega), hadd]
      omega
  have hsum := cycleSum_le hc
  refine (hfold cs 0 hs ?_).trans (Nat.zero_add _)
  have hzero : (0 : U32).toNat = 0 := rfl
  have hmax : MAX_BLOCK_INSNS = 64 := rfl
  omega

-- ======== terminators

/-- The sixteen conditions. -/
theorem code_cases {cc : U8} (h : cc < 16) :
    ∃ i < 16, cc = BitVec.ofNat 8 i := by
  refine ⟨cc.toNat, BitVec.lt_def.1 h, ?_⟩
  rw [BitVec.ofNat_toNat, BitVec.setWidth_eq]

/-- A condition looks at the flags it reads. -/
theorem holds_reads {cc : U8} (h : cc < 16) (f : Flags) :
    (jccTo cc).holds f = (jccTo cc).holds fun φ =>
      has (jccReads cc) φ && f φ := by
  obtain ⟨i, hi, rfl⟩ := code_cases h
  interval_cases i <;> rfl

/-- A condition reads the flags it says. -/
theorem holds_congr {cc : U8} (h : cc < 16) {f f' : Flags}
    (hf : ∀ φ, has (jccReads cc) φ = true → f φ = f' φ) :
    (jccTo cc).holds f = (jccTo cc).holds f' := by
  have hsame : (fun φ => has (jccReads cc) φ && f φ)
    = fun φ => has (jccReads cc) φ && f' φ := by
    funext φ
    cases hφ : has (jccReads cc) φ
    · rfl
    · rw [hf φ hφ]
  rw [holds_reads h f, hsame, ← holds_reads h f']

/-- Codes come in pairs. -/
theorem holds_negate {cc : U8} (h : cc < 16) (f : Flags) :
    (jccTo (cc ^^^ 1)).holds f = !(jccTo cc).holds f := by
  obtain ⟨i, hi, rfl⟩ := code_cases h
  interval_cases i <;> simp [jccTo, Cc.holds]

/-- The condition code is one. -/
def Term.Valid : Term w → Prop
  | .jcc cc _ _ => cc < 16
  | _ => True

/-- Where a terminator goes, and the cycles it costs. -/
def Term.way (t : Term w) (f : Flags) : BitVec w × U32 :=
  match t with
  | .jcc cc taken fallthrough =>
    if (jccTo cc).holds f then (taken, CYC_JCC_TAKEN)
      else (fallthrough, CYC_JCC_NOT)
  | .jmp target => (target, CYC_JMP)
  | .fall ip => (ip, 0)

/-- A terminator reads the flags it says. -/
theorem Term.way_congr {t : Term w} (ht : t.Valid) {f f' : Flags}
    (hf : ∀ φ, has t.reads φ = true → f φ = f' φ) :
    t.way f = t.way f' := by
  cases t with
  | jcc cc taken fallthrough => rw [way, way, holds_congr ht hf]
  | jmp => rfl
  | fall => rfl

variable (G)

/-- The terminator on the processor. -/
structure Exits (t : Term w) (g g' : μ) : Prop where
  alike : G.Alike g g'
  flags : G.flags g' = G.flags g
  ip : G.ip g' = (t.way (flagsOf (G.flags g))).1
  cycles : G.cycles g'
    = G.cycles g + (t.way (flagsOf (G.flags g))).2.setWidth 64

/-- A plan with the instructions it was made from: those of the body, and
the last one. -/
structure Translated (I : μ → Prop) (p : Plan α w) (start : BitVec w) (n : Nat)
    (cs : List (Cand α w))
    (fs : List (μ → μ)) (mat : FlagState) (z : BitVec w) (last : μ → μ) :
    Prop where
  describes : Describes p start cs mat
  chain : Chain G I start cs fs z
  valid : p.term.Valid
  reads : p.term.reads &&& ~~~mat.exact = 0
  exits : ∀ g, G.ip g = z → I g → Exits G p.term g (last g) ∧ I (last g)
  ninsns : p.ninsns = BitVec.ofNat 32 n
  pos : 0 < n
  small : n ≤ MAX_BLOCK_INSNS
  short : cs.length ≤ MAX_BLOCK_INSNS

variable {G}

/-- One traversal on the processor. -/
def pass (fs : List (μ → μ)) (last : μ → μ) (g : μ) : μ := last (runAll fs g)

/-- What a block has done after `k` traversals of `n` instructions: the
machine is the processor's, and the caller's registers and stack are back. -/
structure Retires (f : μ → μ) (n k : Nat) (c : U64) (h : Host μ) (g : μ)
    (t : Host μ) : Prop where
  same : G.Same t.mem (f^[k] g)
  rax : t.reg .rax = c + BitVec.ofNat 64 (k * n)
  rbp : t.reg .rbp = h.stack.headD 0
  stack : t.stack = h.stack.tail
  fault : t.fault = h.fault

namespace Translated

variable {I : μ → Prop} {p : Plan α w} {start z : BitVec w} {n : Nat}
  {cs : List (Cand α w)} {fs : List (μ → μ)} {mat : FlagState} {last : μ → μ}

/-- The number of instructions fits its immediate. -/
theorem ninsns_wide (T : Translated G I p start n cs fs mat z last) :
    p.ninsns.setWidth 64 = BitVec.ofNat 64 n
      ∧ p.ninsns.signExtend 64 = BitVec.ofNat 64 n := by
  have hsmall := T.small
  have hmax : MAX_BLOCK_INSNS = 64 := rfl
  have hn : p.ninsns.toNat = n := by
    rw [T.ninsns, BitVec.toNat_ofNat, Nat.mod_eq_of_lt (by omega)]
  have hmsb : p.ninsns.msb = false :=
    BitVec.msb_eq_false_iff_two_mul_lt.2 (by omega)
  have hwide : p.ninsns.setWidth 64 = BitVec.ofNat 64 n := by
    rw [← hn, BitVec.ofNat_toNat]
  refine ⟨hwide, ?_⟩
  rw [BitVec.signExtend_eq_setWidth_of_msb_false hmsb, hwide]

/-- A traversal's cycles as the code adds them. -/
theorem cycles_wide (T : Translated G I p start n cs fs mat z last) {c : U32}
    (hc : c.toNat ≤ 20) :
    (p.bodyCycles + c).signExtend 64
      = BitVec.ofNat 64 (cycleSum cs) + c.setWidth 64 := by
  have hmax : MAX_BLOCK_INSNS = 64 := rfl
  have hsum := cycleSum_le T.chain.cyc_le
  have hshort := T.short
  have hbody : p.bodyCycles.toNat = cycleSum cs := by
    rw [T.describes.cycles]
    exact toNat_bodyCycles T.describes.straight T.chain.cyc_le T.short
  have hadd : (p.bodyCycles + c).toNat = cycleSum cs + c.toNat := by
    rw [BitVec.toNat_add, hbody, Nat.mod_eq_of_lt (by omega)]
  have hmsb : (p.bodyCycles + c).msb = false :=
    BitVec.msb_eq_false_iff_two_mul_lt.2 (by omega)
  rw [BitVec.signExtend_eq_setWidth_of_msb_false hmsb]
  refine BitVec.eq_of_toNat_eq ?_
  rw [BitVec.toNat_setWidth, hadd, BitVec.toNat_add, BitVec.toNat_ofNat,
    BitVec.toNat_setWidth, Nat.mod_add_mod, Nat.add_mod_mod]

/-- The cycles of a way out, as the code adds them. -/
theorem cycles_way (T : Translated G I p start n cs fs mat z last)
    (f : Flags) :
    (p.bodyCycles + (p.term.way f).2).signExtend 64
      = BitVec.ofNat 64 (cycleSum cs) + (p.term.way f).2.setWidth 64 := by
  have htaken : CYC_JCC_TAKEN.toNat ≤ 20 := by decide
  have hnot : CYC_JCC_NOT.toNat ≤ 20 := by decide
  refine T.cycles_wide ?_
  cases p.term with
  | jcc cc taken fallthrough =>
    rw [Term.way]
    split
    · exact htaken
    · exact hnot
  | jmp => exact htaken
  | fall => exact Nat.zero_le _

/-- A traversal keeps the invariant. -/
theorem pass_inv (T : Translated G I p start n cs fs mat z last) {g : μ}
    (hip : G.ip g = start) (hI : I g) :
    I (pass fs last g) :=
  (T.exits _ (T.chain.inv hip hI).1 (T.chain.inv hip hI).2).2

/-- At the start nothing has been touched. -/
theorem tracks_start {h : Host μ} {g : μ} (ha : G.Alike h.mem g) :
    Tracks G {} (G.flags g) h g := by
  have hnone : ∀ φ : Status, ¬ has 0 φ = true := by
    intro φ
    cases φ <;> decide
  exact ⟨ha, rfl, fun φ h => absurd h (hnone φ), fun φ h => absurd h (hnone φ),
    fun φ h => absurd h (hnone φ), fun _ _ => rfl, rfl⟩

/-- Where a traversal starts: the host may be behind with the flags the
block writes, and with the cycles of earlier traversals. -/
structure Starts (I : μ → Prop) (mat : FlagState) (start : BitVec w)
    (h : Host μ) (g : μ) : Prop where
  alike : G.Alike h.mem g
  flags : AgreeOff mat.cleared (G.flags h.mem) (G.flags g)
  ip : G.ip g = start
  inv : I g

/-- A traversal of the body. -/
theorem traversed (T : Translated G I p start n cs fs mat z last)
    {h : Host μ} {g : μ} (hs : Starts (G := G) I mat start h g) :
    Traversed (G := G) I mat z (cycleSum cs) (G.flags g) h g
      ((host κ μ).exec (p.body.flatMap F.emitBody) h) (runAll fs g) := by
  rw [T.describes.body]
  exact T.chain.traversed T.describes.straight T.describes.runs
    (tracks_start hs.alike) hs.ip hs.inv

/-- The host decides as the processor does. -/
theorem way_eq (T : Translated G I p start n cs fs mat z last)
    {h h' : Host μ} {g g' : μ}
    (tr : Traversed (G := G) I mat z (cycleSum cs) (G.flags g) h g h' g') :
    p.term.way h'.flags = p.term.way (flagsOf (G.flags g')) :=
  Term.way_congr T.valid fun φ hφ =>
    tr.tracks.exact φ (exact_of_reads T.reads hφ)

/-- An exit behind a traversal leaves the processor's state. -/
theorem same_of_left (T : Translated G I p start n cs fs mat z last)
    {h h' u t : Host μ} {g g' : μ} (hs : Starts (G := G) I mat start h g)
    (tr : Traversed (G := G) I mat z (cycleSum cs) (G.flags g) h g h' g')
    (hmem : u.mem = h'.mem) (hflags : u.flags = h'.flags) {cyc : U64}
    {ip : BitVec w} {count : U64}
    (hl : Left G u t
      (matWord p.matFromHost p.matConst0 p.matConst1 u.flags (G.flags u.mem))
      cyc ip count)
    (hip : ip = (p.term.way h'.flags).1)
    (hcyc : G.cycles h.mem + cyc
      = G.cycles g + (p.bodyCycles + (p.term.way h'.flags).2).signExtend 64) :
    G.Same t.mem (last g') := by
  obtain ⟨he, -⟩ := T.exits g' tr.ip tr.inv
  refine ⟨?_, ?_, ?_, ?_⟩
  · have halike := hl.alike
    rw [hmem] at halike
    exact G.equiv.trans halike (G.equiv.trans tr.tracks.alike he.alike)
  · rw [hl.flags, he.flags, hflags, hmem, tr.flags, T.describes.host,
      T.describes.const0, T.describes.const1]
    exact tr.tracks.matWord_eq T.describes.clean hs.flags
  · rw [hl.cycles, he.cycles, hmem, tr.cycles, tr.cost, hcyc, T.cycles_way,
      T.way_eq tr, BitVec.add_assoc]
  · rw [hl.ip, he.ip, hip, T.way_eq tr]

-- ======== without loop

/-- Behind the label of a taken branch is its exit. -/
theorem behind_taken {cc : U8} {taken fallthrough : BitVec w}
    (hterm : p.term = .jcc cc taken fallthrough)
    (hloop : p.selfLoop = false) (version : U64) (slot : Nat) :
    behind EXIT_TAKEN (emitBlock F p version slot)
      = some (emitExit F p taken false p.ninsns
        (.const (p.bodyCycles + CYC_JCC_TAKEN)) ++ emitStale) := by
  simp [emitBlock, emitPrologue, emitMain, hloop, emitBodies, emitEnd, hterm,
    behind, behind_emitExit]

/-- A block without a loop: one traversal. -/
theorem returns_straight (T : Translated G I p start n cs fs mat z last)
    (hloop : p.selfLoop = false)
    (version : U64) (slot : Nat) {h : Host μ} {g : μ}
    (hs : Starts (G := G) I mat start h g)
    (hcyc : G.cycles h.mem = G.cycles g) :
    ∃ t, (host κ μ).Returns (emitBlock F p version slot)
      (emitMain F p ++ emitStale) h t
      ∧ Retires (G := G) (pass fs last) n 1 0 h g t := by
  have tr := T.traversed hs
  generalize hh' : (host κ μ).exec (p.body.flatMap F.emitBody) h = h' at tr
  have hsame :
      ∀ {t : Host μ} {ip : BitVec w} {c : U32}, (ip, c) = p.term.way h'.flags →
      Left G h' t (matWord p.matFromHost p.matConst0 p.matConst1 h'.flags
        (G.flags h'.mem))
        ((p.bodyCycles + c).signExtend 64) ip (retired h' false p.ninsns) →
      Retires (G := G) (pass fs last) n 1 0 h g t := by
    intro t ip c hway hl
    refine ⟨?_, ?_, ?_, ?_, ?_⟩
    · refine T.same_of_left hs tr rfl rfl hl (congrArg Prod.fst hway) ?_
      rw [hcyc, ← congrArg Prod.snd hway]
    · rw [hl.rax, retired, if_neg Bool.false_ne_true,
        T.ninsns_wide.1, Nat.one_mul]
      exact (BitVec.zero_add _).symm
    · rw [hl.rbp, tr.spares.stack]
    · rw [hl.stack, tr.spares.stack]
    · rw [hl.fault, tr.spares.fault]
  rw [emitMain, hloop, if_neg Bool.false_ne_true, emitBodies,
    List.append_assoc]
  cases hterm : p.term with
  | jcc cc taken fallthrough =>
    rw [emitEnd, hterm]
    dsimp only
    cases hcc : (jccTo cc).holds h'.flags with
    | true =>
      obtain ⟨t, hret, hl⟩ :=
        returns_exit G p taken false p.ninsns
          (.const (p.bodyCycles + CYC_JCC_TAKEN))
        (emitBlock F p version slot) emitStale h'
      refine ⟨t, .ops ?_, hsame ?_ hl⟩
      · rw [hh']
        exact .taken hcc (behind_taken hterm hloop version slot) hret
      · rw [hterm, Term.way, hcc, if_pos rfl]
    | false =>
      obtain ⟨t, hret, hl⟩ :=
        returns_exit G p fallthrough false p.ninsns
          (.const (p.bodyCycles + CYC_JCC_NOT))
        (emitBlock F p version slot)
        ([.label EXIT_TAKEN]
          ++ (emitExit F p taken false p.ninsns
          (.const (p.bodyCycles + CYC_JCC_TAKEN))
          ++ emitStale))
        h'
      refine ⟨t, .ops ?_, hsame ?_ hl⟩
      · rw [hh', List.append_assoc, List.append_assoc, List.append_assoc]
        exact .passed hcc hret
      · rw [hterm, Term.way, hcc, if_neg Bool.false_ne_true]
  | jmp target =>
    obtain ⟨t, hret, hl⟩ :=
      returns_exit G p target false p.ninsns (.const (p.bodyCycles + CYC_JMP))
      (emitBlock F p version slot) emitStale h'
    refine ⟨t, .ops ?_, hsame ?_ hl⟩
    · rw [hh', emitEnd, hterm]
      exact hret
    · rw [hterm, Term.way]
  | fall ip =>
    obtain ⟨t, hret, hl⟩ :=
      returns_exit G p ip false p.ninsns (.const (p.bodyCycles + 0))
      (emitBlock F p version slot) emitStale h'
    refine ⟨t, .ops ?_, hsame ?_ hl⟩
    · have hzero : p.bodyCycles + 0 = p.bodyCycles := BitVec.add_zero _
      rw [hzero] at hret
      rw [hh', emitEnd, hterm]
      exact hret
    · rw [hterm, Term.way]

-- ======== with a loop

/-- A turn leaves the rest of the flags alone. -/
theorem agreeOff_traversed (T : Translated G I p start n cs fs mat z last)
    {h h' : Host μ} {g g' : μ} (hs : Starts (G := G) I mat start h g)
    (tr : Traversed (G := G) I mat z (cycleSum cs) (G.flags g) h g h' g') :
    AgreeOff mat.cleared (G.flags h'.mem) (G.flags g') := by
  rw [tr.flags]
  refine hs.flags.trans ?_
  refine BitVec.eq_of_getLsbD_eq fun i hi => ?_
  rw [BitVec.getLsbD_and, BitVec.getLsbD_and, BitVec.getLsbD_not,
    decide_eq_true hi, Bool.true_and]
  cases hm : mat.cleared.getLsbD i
  case true => rw [Bool.not_true, Bool.and_false, Bool.and_false]
  have htouched : mat.touched = mat.cleared := by
    rw [FlagState.touched, T.describes.clean]
    exact BitVec.or_zero
  rw [Bool.not_false, Bool.and_true, Bool.and_true]
  rcases status_or_other hi with ⟨φ, rfl⟩ | hother
  · exact (tr.tracks.kept φ (by rw [htouched]; exact hm)).symm
  · exact (getLsbD_of_and_eq tr.tracks.other hi hother).symm

/-- Behind the label of a loop are its bodies and its end. -/
theorem behind_top (hloop : p.selfLoop = true) (version : U64) (slot : Nat) :
    behind BODY_TOP (emitBlock F p version slot)
      = some (emitBodies F p ++ (emitLoopEnd F p ++ emitStale)) := by
  simp [emitBlock, emitPrologue, emitMain, hloop, emitLoopHead, behind]

/-- The back edge: down to the body again, or out. -/
theorem returns_backedge {code rest top : Code κ}
    (htop : behind BODY_TOP code = some top)
    (hcont : behind CONT code
      = some (.jump BODY_TOP :: .label BUDGET_DONE :: rest))
    (hdone : behind BUDGET_DONE code = some rest) {h t : Host μ}
    (hrun : (host κ μ).Returns code (if h.reg .rcx = 1 then rest else top)
      (h.setReg .rcx (h.reg .rcx - 1)) t) :
    (host κ μ).Returns code (emitBackedge ++ rest) h t := by
  by_cases hone : h.reg .rcx = 1
  · rw [if_pos hone] at hrun
    refine .passed ?_ (.jump hdone hrun)
    show (h.reg .rcx - 1 != 0) = false
    rw [hone]
    rfl
  · rw [if_neg hone] at hrun
    refine .taken ?_ hcont (.jump htop hrun)
    refine bne_iff_ne.2 fun hz => hone ?_
    exact BitVec.sub_eq_iff_eq_add.1 hz |>.trans (BitVec.zero_add _)

/-- A traversal counted. -/
theorem exec_count (c : U32) (m : U32) (h : Host μ) :
    let t := (host κ μ).exec [.lea .r8 m, .lea .r11 c] h
    t.mem = h.mem ∧ t.flags = h.flags ∧ t.reg .r8 = h.reg .r8 + m.signExtend 64
      ∧ t.reg .r11 = h.reg .r11 + c.signExtend 64 ∧ t.reg .rcx = h.reg .rcx
      ∧ t.stack = h.stack
      ∧ t.fault = h.fault :=
  ⟨rfl, rfl, rfl, rfl, rfl, rfl, rfl⟩

/-- What a loop does from the top of its body, `m` traversals allowed. -/
def Loops (G : Guest F μ) (I : μ → Prop) (p : Plan α w) (start : BitVec w)
    (n : Nat) (mat : FlagState) (f : μ → μ) (code : Code κ) (m : Nat) : Prop :=
  ∀ (h : Host μ) (g : μ), Starts (G := G) I mat start h g →
    G.cycles g = G.cycles h.mem + h.reg .r11 →
    (h.reg .rcx).toNat = m → ∃ k t, 1 ≤ k ∧ k ≤ m
      ∧ (∀ j < k, G.ip (f^[j] g) = start)
      ∧ (host κ μ).Returns code
        (emitBodies F p ++ (emitLoopEnd F p ++ emitStale)) h t
      ∧ Retires (G := G) f n k (h.reg .r8) h g t

/-- Behind a traversal that came back to the start: out of budget, or once
more. -/
theorem returns_again (T : Translated G I p start n cs fs mat z last)
    (rest : Code κ) {code : Code κ}
    (htop : behind BODY_TOP code
      = some (emitBodies F p ++ (emitLoopEnd F p ++ emitStale)))
    (hcont : behind CONT code
      = some (.jump BODY_TOP :: .label BUDGET_DONE
        :: (emitExit F p p.startIp true p.ninsns .r11 ++ rest)))
    (hdone : behind BUDGET_DONE code
      = some (emitExit F p p.startIp true p.ninsns .r11 ++ rest))
      {m : Nat} (hm : 1 ≤ m)
    (ih : ∀ m' < m, 1 ≤ m' → Loops G I p start n mat (pass fs last) code m')
    {h h' : Host μ} {g g' : μ}
    (hs : Starts (G := G) I mat start h g)
    (hcyc : G.cycles g = G.cycles h.mem + h.reg .r11)
    (hrcx : (h.reg .rcx).toNat = m) (hg' : g' = runAll fs g)
    (tr : Traversed (G := G) I mat z (cycleSum cs) (G.flags g) h g h' g')
    {c : U32} (hway : p.term.way h'.flags = (start, c)) :
    ∃ k t, 1 ≤ k ∧ k ≤ m ∧ (∀ j < k, G.ip ((pass fs last)^[j] g) = start)
      ∧ (host κ μ).Returns code
        (emitCount p.ninsns (p.bodyCycles + c)
          ++ (emitBackedge ++ (emitExit F p p.startIp true p.ninsns .r11 ++ rest)))
        h' t
      ∧ Retires (G := G) (pass fs last) n k (h.reg .r8) h g t := by
  obtain ⟨hmem, hflags, hr8, hr11, hcx, hstack, hfault⟩ :=
    exec_count (p.bodyCycles + c) p.ninsns h' (κ := κ)
  generalize hu :
    (host κ μ).exec [.lea .r8 p.ninsns, .lea .r11 (p.bodyCycles + c)] h' = u
    at hmem hflags hr8 hr11 hcx hstack hfault
  rw [tr.spares.reg .r8 (by decide), T.ninsns_wide.2] at hr8
  rw [tr.spares.reg .r11 (by decide)] at hr11
  rw [tr.spares.reg .rcx (by decide)] at hcx
  rw [tr.spares.stack] at hstack
  rw [tr.spares.fault] at hfault
  have hcount : ∀ t,
      (host κ μ).Returns code
      (emitBackedge ++ (emitExit F p p.startIp true p.ninsns .r11 ++ rest)) u t
      → (host κ μ).Returns code
        (emitCount p.ninsns (p.bodyCycles + c)
          ++ (emitBackedge ++ (emitExit F p p.startIp true p.ninsns .r11 ++ rest)))
        h' t := by
    intro t hrun
    refine .ops ?_
    rw [hu]
    exact hrun
  by_cases hone : u.reg .rcx = 1
  · obtain ⟨t, hret, hl⟩ :=
      returns_exit G p p.startIp true p.ninsns .r11 code rest
        (u.setReg .rcx (u.reg .rcx - 1))
    refine ⟨1, t, Nat.le_refl 1, hm, ?_,
      hcount t (returns_backedge htop hcont hdone ?_), ?_, ?_, ?_, ?_, ?_⟩
    · intro j hj
      obtain rfl : j = 0 := by omega
      exact hs.ip
    · rw [if_pos hone]
      exact hret
    · rw [Cyc.amount, reg_setReg_other _ _ (by decide), hr11] at hl
      have hsame :=
        T.same_of_left hs tr (u := u.setReg .rcx (u.reg .rcx - 1))
          hmem hflags hl
        (by rw [hway, T.describes.startIp])
          (by rw [hway, hcyc, BitVec.add_assoc])
      rw [hg'] at hsame
      exact hsame
    · rw [hl.rax, Nat.one_mul, retired, if_pos rfl,
        reg_setReg_other _ _ (by decide), hr8]
    · exact hl.rbp.trans (congrArg (·.headD 0) hstack)
    · exact hl.stack.trans (congrArg List.tail hstack)
    · exact hl.fault.trans hfault
  · obtain ⟨he, hI⟩ := T.exits g' tr.ip tr.inv
    have hway' := T.way_eq tr
    rw [hway] at hway'
    have hne : m ≠ 1 :=
      fun hm' => hone (BitVec.eq_of_toNat_eq (by rw [hcx, hrcx, hm']; rfl))
    have hone' : (1 : U64).toNat = 1 := rfl
    have hdec : (u.reg .rcx - 1).toNat = m - 1 := by
      rw [BitVec.toNat_sub_of_le
        (BitVec.le_def.2 (by rw [hcx, hrcx, hone']; exact hm)), hcx,
        hrcx, hone']
    have hnext :
      Starts (G := G) I mat start (u.setReg .rcx (u.reg .rcx - 1))
      (last g') := by
      refine ⟨?_, ?_, ?_, hI⟩
      · rw [mem_setReg, hmem]
        exact G.equiv.trans tr.tracks.alike he.alike
      · rw [mem_setReg, hmem, he.flags]
        exact T.agreeOff_traversed hs tr
      · rw [he.ip, ← hway']
    have hcyc' :
        G.cycles (last g') = G.cycles (u.setReg .rcx (u.reg .rcx - 1)).mem
        + (u.setReg .rcx (u.reg .rcx - 1)).reg .r11 := by
      have hwide := T.cycles_way (flagsOf (G.flags g'))
      rw [← hway'] at hwide
      rw [mem_setReg, hmem, reg_setReg_other _ _ (by decide), hr11, hwide,
        he.cycles, ← hway', tr.cycles, tr.cost, hcyc]
      simp only [BitVec.add_assoc]
    obtain ⟨k, t, hk, hkm, hips, hret, hretires⟩ :=
      ih (m - 1) (by omega) (by omega) _ _ hnext hcyc'
      (by rw [reg_setReg_self]; exact hdec)
    have hiter :
      ∀ j, (pass fs last)^[j + 1] g = (pass fs last)^[j] (last g') := by
      intro j
      rw [Function.iterate_succ_apply, pass, hg']
    refine ⟨k + 1, t, by omega, by omega, ?_,
      hcount t (returns_backedge htop hcont hdone ?_), ?_, ?_, ?_, ?_, ?_⟩
    · intro j hj
      cases j with
      | zero => exact hs.ip
      | succ j => rw [hiter]; exact hips j (by omega)
    · rw [if_neg hone]
      exact hret
    · rw [hiter]
      exact hretires.same
    · rw [hretires.rax, reg_setReg_other _ _ (by decide), hr8, Nat.add_mul,
        Nat.one_mul, Nat.add_comm (k * n), BitVec.ofNat_add, BitVec.add_assoc]
    · exact hretires.rbp.trans (congrArg (·.headD 0) hstack)
    · exact hretires.stack.trans (congrArg List.tail hstack)
    · exact hretires.fault.trans hfault

/-- A loop runs until it leaves or its budget is used up. -/
theorem loops (T : Translated G I p start n cs fs mat z last)
    (hloop : p.selfLoop = true) (version : U64) (slot : Nat) :
    ∀ m, 1 ≤ m →
      Loops G I p start n mat (pass fs last) (emitBlock F p version slot) m := by
  intro m
  induction m using Nat.strong_induction_on with
  | _ m ih =>
    intro hm h g hs hcyc hrcx
    have tr := T.traversed hs
    generalize hh' : (host κ μ).exec (p.body.flatMap F.emitBody) h = h' at tr
    have hback := T.describes.selfLoop
    rw [hloop] at hback
    have htop := behind_top (F := F) hloop version slot
    cases hterm : p.term with
    | fall ip =>
      rw [hterm] at hback
      cases hback
    | jmp target =>
      rw [hterm] at hback
      obtain rfl : target = start := eq_of_beq hback.symm
      obtain ⟨k, t, hk, hkm, hips, hret, hretires⟩ :=
        T.returns_again emitStale htop
        (by
          simp [emitBlock, emitPrologue, emitMain, hloop, emitLoopHead,
          emitBodies, emitLoopEnd, hterm, emitCount, emitBackedge, behind])
        (by
          simp [emitBlock, emitPrologue, emitMain, hloop, emitLoopHead,
          emitBodies, emitLoopEnd, hterm, emitCount, emitBackedge, behind])
        hm ih hs hcyc hrcx rfl tr (c := CYC_JMP) (by rw [hterm, Term.way])
      refine ⟨k, t, hk, hkm, hips, .ops ?_, hretires⟩
      rw [hh', emitLoopEnd, hterm]
      dsimp only
      rw [List.append_assoc, List.append_assoc]
      exact hret
    | jcc cc taken fallthrough =>
      rw [hterm] at hback
      obtain rfl : taken = start := eq_of_beq hback.symm
      have hvalid : cc < 16 := by
        have := T.valid
        rwa [hterm] at this
      have hcode : emitLoopEnd F p ++ emitStale
          = .branch (.jcc (jccTo (cc ^^^ 1))) EXIT_FT
          :: (emitCount p.ninsns (p.bodyCycles + CYC_JCC_TAKEN) ++ (emitBackedge
            ++ (emitExit F p p.startIp true p.ninsns .r11
              ++ (.label EXIT_FT :: (emitCount p.ninsns (p.bodyCycles + CYC_JCC_NOT)
              ++ (emitExit F p fallthrough true p.ninsns .r11 ++ emitStale)))))) := by
        rw [emitLoopEnd, hterm]
        simp only [List.append_assoc, List.cons_append, List.nil_append]
      cases hcc : (jccTo cc).holds h'.flags with
      | true =>
        obtain ⟨k, t, hk, hkm, hips, hret, hretires⟩ := T.returns_again
          (.label EXIT_FT :: (emitCount p.ninsns (p.bodyCycles + CYC_JCC_NOT)
            ++ (emitExit F p fallthrough true p.ninsns .r11 ++ emitStale))) htop
          (by
            simp [emitBlock, emitPrologue, emitMain, hloop, emitLoopHead,
            emitBodies, emitLoopEnd, hterm, emitCount, emitBackedge, behind])
          (by
            simp [emitBlock, emitPrologue, emitMain, hloop, emitLoopHead,
            emitBodies, emitLoopEnd, hterm, emitCount, emitBackedge, behind])
          hm ih hs hcyc hrcx rfl tr (c := CYC_JCC_TAKEN)
            (by rw [hterm, Term.way, hcc, if_pos rfl])
        refine ⟨k, t, hk, hkm, hips, .ops ?_, hretires⟩
        rw [hh', hcode]
        refine .passed ?_ hret
        show (jccTo (cc ^^^ 1)).holds h'.flags = false
        rw [holds_negate hvalid, hcc]
        rfl
      | false =>
        obtain ⟨hmem, hflags, hr8, hr11, -, hstack, hfault⟩ :=
          exec_count (p.bodyCycles + CYC_JCC_NOT) p.ninsns h' (κ := κ)
        generalize hu :
          (host κ μ).exec [.lea .r8 p.ninsns,
          .lea .r11 (p.bodyCycles + CYC_JCC_NOT)] h' = u
          at hmem hflags hr8 hr11 hstack hfault
        rw [tr.spares.reg .r8 (by decide), T.ninsns_wide.2] at hr8
        rw [tr.spares.reg .r11 (by decide)] at hr11
        obtain ⟨t, hret, hl⟩ :=
          returns_exit G p fallthrough true p.ninsns .r11
            (emitBlock F p version slot) emitStale u
        have hway : p.term.way h'.flags = (fallthrough, CYC_JCC_NOT) := by
          rw [hterm, Term.way, hcc, if_neg Bool.false_ne_true]
        have hrun : (host κ μ).Returns (emitBlock F p version slot)
            (emitCount p.ninsns (p.bodyCycles + CYC_JCC_NOT)
            ++ (emitExit F p fallthrough true p.ninsns .r11 ++ emitStale))
              h' t := by
          refine .ops ?_
          rw [hu]
          exact hret
        refine ⟨1, t, Nat.le_refl 1, hm, ?_, .ops ?_, ?_, ?_, ?_, ?_, ?_⟩
        · intro j hj
          obtain rfl : j = 0 := by omega
          exact hs.ip
        · rw [hh', hcode]
          refine .taken ?_ ?_ hrun
          · show (jccTo (cc ^^^ 1)).holds h'.flags = true
            rw [holds_negate hvalid, hcc]
            rfl
          · simp [emitBlock, emitPrologue, emitMain, hloop, emitLoopHead,
              emitBodies, emitLoopEnd, hterm, emitCount, emitBackedge, behind,
              behind_emitExit]
        · rw [Cyc.amount, hr11] at hl
          exact T.same_of_left hs tr hmem hflags hl (by rw [hway])
            (by rw [hway, hcyc, BitVec.add_assoc])
        · rw [hl.rax, Nat.one_mul, retired, if_pos rfl, hr8]
        · rw [hl.rbp, hstack, tr.spares.stack]
        · rw [hl.stack, hstack, tr.spares.stack]
        · rw [hl.fault, hfault, tr.spares.fault]

/-- A quotient of two registers with RDX clear. -/
theorem divide_eq {u : Host μ} {x v : U64} (hv : v ≠ 0) (hrdx : u.reg .rdx = 0)
    (hrax : u.reg .rax = x) :
    u.divide v = ((u.setReg .rax (BitVec.ofNat 64 (x.toNat / v.toNat))).setReg .rdx
      (BitVec.ofNat 64 (x.toNat % v.toNat))).setFlags u.undefined := by
  have hx : (u.reg .rdx).toNat * 2 ^ 64 + (u.reg .rax).toNat = x.toNat := by
    rw [hrdx, hrax]
    exact (Nat.add_comm _ _).trans (Nat.zero_mul _ ▸ Nat.add_zero _)
  have hfits : ¬ (v = 0 ∨ 2 ^ 64 ≤ x.toNat / v.toNat) := by
    rintro (hz | hlarge)
    · exact hv hz
    · exact Nat.not_le.2
        (Nat.lt_of_le_of_lt (Nat.div_le_self x.toNat v.toNat) x.isLt) hlarge
  unfold divide
  rw [hx]
  exact if_neg hfits

/-- The head of a loop: as many traversals as the budget holds. -/
theorem exec_loopHead (T : Translated G I p start n cs fs mat z last)
    (h : Host μ) :
    ∃ u : Host μ, u.mem = h.mem ∧ u.reg .r8 = 0 ∧ u.reg .r11 = 0
      ∧ (u.reg .rcx).toNat = (h.reg .rdx).toNat / n
      ∧ u.stack = h.stack ∧ u.fault = h.fault
      ∧ ∀ code rest t, (host κ μ).Returns code rest u t
        → (host κ μ).Returns code (emitLoopHead p.ninsns ++ rest) h t := by
  have hn : (p.ninsns.setWidth 64).toNat = n := by
    have hsmall := T.small
    have hmax : MAX_BLOCK_INSNS = 64 := rfl
    rw [T.ninsns_wide.1, BitVec.toNat_ofNat, Nat.mod_eq_of_lt (by omega)]
  have hv : p.ninsns.setWidth 64 ≠ 0 := by
    intro hz
    have hpos := T.pos
    rw [hz] at hn
    exact absurd hn (Nat.ne_of_lt hpos)
  -- Up to the division.
  obtain ⟨u, hu, hmem, hr8, hr11, hrax, hrdx, hr9, hstack, hfault⟩ : ∃ u,
      (host κ μ).exec
      [alud .xor (.reg .r8) (.reg .r8), alud .xor (.reg .r11) (.reg .r11),
        movq (.reg .rax) (.reg .rdx),
        alud .xor (.reg .rdx) (.reg .rdx), movd (.reg .r9) (.imm p.ninsns)] h = u
      ∧ u.mem = h.mem ∧ u.reg .r8 = 0 ∧ u.reg .r11 = 0
      ∧ u.reg .rax = h.reg .rdx ∧ u.reg .rdx = 0
      ∧ u.reg .r9 = p.ninsns.setWidth 64 ∧ u.stack = h.stack
      ∧ u.fault = h.fault := by
    refine ⟨_, rfl, ?_⟩
    simp [effect, AluOp.result, Size.bits]
  have hdiv := divide_eq hv hrdx hrax
  rw [hn] at hdiv
  refine ⟨(host κ μ).exec [.div .r9, movq (.reg .rcx) (.reg .rax)] u, ?_,
    ?_, ?_, ?_, ?_, ?_, fun code rest t hrun => ?_⟩
  · simp [effect, hr9, hdiv, hmem]
  · simp [effect, hr9, hdiv, hr8]
  · simp [effect, hr9, hdiv, hr11]
  · have hlt : (h.reg .rdx).toNat / n < 2 ^ 64 :=
      Nat.lt_of_le_of_lt (Nat.div_le_self _ _) (h.reg .rdx).isLt
    simpa [effect, hr9, hdiv, Size.bits] using hlt
  · simp [effect, hr9, hdiv, hstack]
  · simp [effect, hr9, hdiv, hfault]
  · rw [emitLoopHead, List.append_assoc]
    refine .ops (.label ?_)
    rw [← hu] at hrun
    exact hrun

-- ======== the block

/-- A block that is fresh, in a budget of at least its length, retires one
or more traversals of its instructions, no more than the budget has room
for, each of them from its start on. -/
theorem returns_block (T : Translated G I p start n cs fs mat z last)
    {version : U64} {slot : Nat} {h : Host μ}
    (hfresh : Fresh F version slot h.mem) (hip : G.ip h.mem = start)
    (hI : I h.mem) (hrdx : n ≤ (h.reg .rdx).toNat) :
    ∃ k t, 1 ≤ k ∧ k * n ≤ (h.reg .rdx).toNat
      ∧ (∀ j < k, G.ip ((pass fs last)^[j] h.mem) = start)
      ∧ (host κ μ).Returns (emitBlock F p version slot)
        (emitBlock F p version slot) h t
      ∧ G.Same t.mem ((pass fs last)^[k] h.mem)
      ∧ t.reg .rax = BitVec.ofNat 64 (k * n) ∧ t.reg .rbp = h.reg .rbp
      ∧ t.stack = h.stack ∧ t.fault = h.fault := by
  obtain ⟨h₁, hmem, hstack, hfault, hrdx₁, hentry⟩ := returns_fresh hfresh
  have hcode : emitBlock F p version slot
    = emitPrologue F version slot ++ (emitMain F p ++ emitStale) := by
    rw [emitBlock, List.append_assoc]
  have hstart :
    ∀ u : Host μ, u.mem = h.mem → Starts (G := G) I mat start u h.mem := by
    intro u hu
    refine ⟨?_, ?_, hip, hI⟩
    · rw [hu]
      exact G.equiv.refl _
    · rw [hu]
      exact rfl
  have hdone : ∀ {k t} {u : Host μ}, u.stack = h₁.stack → u.fault = h₁.fault →
      Retires (G := G) (pass fs last) n k 0 u h.mem t →
      G.Same t.mem ((pass fs last)^[k] h.mem)
        ∧ t.reg .rax = BitVec.ofNat 64 (k * n) ∧ t.reg .rbp = h.reg .rbp
        ∧ t.stack = h.stack ∧ t.fault = h.fault := by
    intro k t u hs hf hr
    refine ⟨hr.same, hr.rax.trans (BitVec.zero_add _), ?_, ?_, ?_⟩
    · rw [hr.rbp, hs, hstack]
      rfl
    · rw [hr.stack, hs, hstack]
      rfl
    · rw [hr.fault, hf, hfault]
  cases hloop : p.selfLoop with
  | false =>
    obtain ⟨t, hret, hr⟩ :=
      T.returns_straight hloop version slot (hstart h₁ hmem) (by rw [hmem])
    refine ⟨1, t, Nat.le_refl 1, by omega, ?_, ?_, hdone rfl rfl hr⟩
    · intro j hj
      obtain rfl : j = 0 := by omega
      exact hip
    · conv => arg 3; rw [hcode]
      exact hentry _ _ t hret
  | true =>
    obtain ⟨u, hu, hr8, hr11, hrcx, hus, huf, hhead⟩ := T.exec_loopHead h₁
    have hpos := T.pos
    rw [hrdx₁] at hrcx
    have hroom : 1 ≤ (h.reg .rdx).toNat / n := (Nat.one_le_div_iff hpos).2 hrdx
    obtain ⟨k, t, hk, hkm, hips, hret, hr⟩ :=
      T.loops hloop version slot _ hroom u h.mem (hstart u (hu.trans hmem))
      (by rw [hu, hmem, hr11]; exact (BitVec.add_zero _).symm) hrcx
    rw [hr8] at hr
    refine ⟨k, t, hk, ?_, hips, ?_, hdone hus huf hr⟩
    · exact (Nat.mul_le_mul_right n hkm).trans (Nat.div_mul_le_self _ _)
    · conv => arg 3; rw [hcode]
      refine hentry _ _ t ?_
      rw [emitMain, if_pos hloop, List.append_assoc, List.append_assoc]
      exact hhead _ _ t hret

end Translated

end Remu.Jit
