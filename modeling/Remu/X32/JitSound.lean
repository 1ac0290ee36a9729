/-
Translated blocks of the 386 core run like the interpreter.

A record and its code do the same, and so do a branch and the way out of its
block; the rest is the general theorem about blocks. Nothing a block runs
touches what a probe of the instruction cache looks at, or what a boundary
between two instructions is there for (`fixed`), so what the interpreter has
cached on entry it would find again all along.
-/
import Remu.X32.JitOps

namespace Remu.X32

open Jit (Size Cells Fields Insn Host FlagEffect FlagsDo Term Cand Plan Guest
  Spares Does Obeys flagsOf)

variable {β : Type} [Bus β]

-- ======== what is fixed

/-- Without general registers and status flags, EIP, cycles and notes. -/
def Machine.fixed {β : Type} (s : Machine β) : Machine β :=
  { s.bare with
    regs := { s.bare.regs with gpr := fun _ => 0, eflags := ⟨s.regs.eflags.bits &&& ~~~Jit.ALL⟩ } }

/-- Processors that agree on what is fixed. -/
def Like (g₀ g : Machine β) : Prop := g.fixed = g₀.fixed

omit [Bus β] in
/-- What a block cannot change: here the limit of CS. -/
theorem Like.limit {g₀ g : Machine β} (h : Like g₀ g) :
    (g.regs.seg reg.CS).limit = (g₀.regs.seg reg.CS).limit := by
  have hlimit :=
    congrArg (fun s : Machine β => (s.regs.seg reg.CS).limit)
      (show g.fixed = g₀.fixed from h)
  exact hlimit

/-- A mask without status flags sees none of them. -/
theorem and_other {m : U32} (hm : m &&& Jit.ALL = 0) (f : U32) :
    f &&& ~~~Jit.ALL &&& m = f &&& m := by
  refine BitVec.eq_of_getLsbD_eq fun i hi => ?_
  have hbit := congrArg (·.getLsbD i) hm
  simp only [BitVec.getLsbD_and] at hbit ⊢
  rw [BitVec.getLsbD_not, decide_eq_true hi, Bool.true_and]
  cases hall : Jit.ALL.getLsbD i with
  | false => rw [Bool.not_false, Bool.and_true]
  | true =>
    rw [hall, Bool.and_true] at hbit
    rw [hbit.trans BitVec.getLsbD_zero, Bool.and_false, Bool.and_false]

omit [Bus β] in
/-- Whether something is pending is fixed. -/
theorem Like.boundaryPending {g₀ g : Machine β} (h : Like g₀ g) :
    g.boundaryPending = g₀.boundaryPending := by
  have hview :
    ∀ s : Machine β, s.boundaryPending = s.fixed.boundaryPending := by
    intro s
    rw [Cpu.boundaryPending, Cpu.boundaryPending]
    show _ = (_ || _ || _ || s.regs.eflags.bits &&& ~~~Jit.ALL &&& EFlags.TF != 0)
    rw [and_other (by decide)]
    rfl
  rw [hview g, hview g₀, show g.fixed = g₀.fixed from h]

/-- The processor with another instruction pointer. -/
def Machine.atEip {β : Type} (s : Machine β) (eip : U32) : Machine β :=
  { s with regs := { s.regs with eip } }

omit [Bus β] in
/-- A probe looks at what is fixed, and at EIP. -/
theorem probe_fixed (s : Machine β) :
    s.begin.probe = (s.fixed.atEip s.regs.eip).begin.probe := by
  have hvm : s.begin.regs.eflags.bits &&& EFlags.VM
      = (s.fixed.atEip s.regs.eip).begin.regs.eflags.bits &&& EFlags.VM :=
        (and_other (by decide) _).symm
  have hcontains : s.begin.regs.eflags.contains EFlags.VM
      = (s.fixed.atEip s.regs.eip).begin.regs.eflags.contains EFlags.VM := by
    rw [EFlags.contains, EFlags.contains, hvm]
  have hcpl : s.begin.cpl = (s.fixed.atEip s.regs.eip).begin.cpl := by
    rw [Cpu.cpl, Cpu.cpl, Cpu.protectedMode, Cpu.protectedMode, hcontains]
    rfl
  have hctx : s.begin.icacheCtx
    = (s.fixed.atEip s.regs.eip).begin.icacheCtx := by
    rw [Cpu.icacheCtx, Cpu.icacheCtx,
      ← BitVec.setWidth_and (x := s.begin.regs.eflags.bits), hvm,
      BitVec.setWidth_and]
    rfl
  have hphys :
    s.begin.icachePhys = (s.fixed.atEip s.regs.eip).begin.icachePhys := by
    rw [Cpu.icachePhys, Cpu.icachePhys, hcpl]
    rfl
  have hat : s.begin.probeAt = (s.fixed.atEip s.regs.eip).begin.probeAt := by
    funext phys
    rw [Cpu.probeAt, Cpu.probeAt, Cpu.entryLive, Cpu.entryLive, hctx]
    rfl
  rw [Cpu.probe, Cpu.probe, hphys, hat]

omit [Bus β] in
/-- What the cache answers goes by EIP alone. -/
theorem Like.probe {g₀ g : Machine β} (h : Like g₀ g) :
    g.begin.probe = (g₀.atEip g.regs.eip).begin.probe := by
  rw [probe_fixed g, probe_fixed (g₀.atEip g.regs.eip),
    show g.fixed = g₀.fixed from h]
  rfl

-- ======== the records

omit [Bus β] in
/-- An operation writes status flags only. -/
theorem Mirrors.other {act : Act} {e : FlagEffect} {b : Body}
    (hm : Mirrors act e b) (g : Machine β) :
    (act g.regs.gpr g.regs.eflags).2.bits &&& ~~~Jit.ALL
      = g.regs.eflags.bits &&& ~~~Jit.ALL :=
  (hm ⟨fun _ => 0, flagsOf g.regs.eflags.bits, [], g, fun _ _ => false, 0, false⟩ g.regs.eflags
    fun _ _ => rfl).2.1.other

/-- A record whose execution is an `act` that its code mirrors. -/
theorem obeys_of_mirrors {d : DecodedInsn} {b : Body} {e : FlagEffect}
    {c : U32} {act : Act} (ho : d.osize32 = true)
    (hn : d.npfx = 0)
    (hrun : ∀ s : Machine β,
    s.osize32 = true → (execDecoded d).run s = (.ok c, s.acted act))
    (hm : Mirrors act e b) (hw : e.written &&& ~~~Jit.ALL = 0)
    (hc : c.toNat ≤ 20) (g₀ : Machine β) (start : U32) :
    Obeys guest (Like g₀) start
      (bodyCand (b, e, c) (start + d.len.setWidth 32))
      (fun s => s.stepHit d) := by
  have hstep :
    ∀ g : Machine β, g.stepHit d = ((g.prepare d).acted act).addCycles c := by
    intro g
    have hzero : c + d.npfx.setWidth 32 = c := by
      rw [hn]
      exact BitVec.add_zero _
    rw [stepHit_of_run (hrun (g.prepare d) ho), hzero]
  refine ⟨hw, hc, ?_, ?_, ?_, ?_⟩
  · intro b hb h g halike hip _ hreads
    cases hb
    obtain ⟨hmem, hflags, hspares⟩ := hm h g.regs.eflags hreads
    have halike : h.mem.bare = g.bare := halike
    have hgpr : h.mem.regs.gpr = g.regs.gpr := congrArg (·.regs.gpr) halike
    rw [hstep g]
    refine ⟨?_, ?_, ?_, ?_, hspares⟩
    · show Machine.bare _ = Machine.bare _
      have hput : ∀ (s : Machine β) (x : U8 → U32),
        (s.withGpr x).bare = s.bare.withGpr x := fun _ _ => rfl
      rw [hmem, hput, halike, hgpr]
      rfl
    · rw [hgpr] at hflags
      exact hflags
    · exact (congrArg (fun s : Machine β => s.regs.eflags.bits) hmem).trans rfl
    · exact (congrArg (fun s : Machine β => s.cycles) hmem).trans rfl
  · intro g hip _
    rw [hstep g, ← hip]
    rfl
  · intro g _ hI
    have hfixed : (((g.prepare d).acted act).addCycles c).fixed
        = { g.fixed with regs := { g.fixed.regs with
            eflags := ⟨(act g.regs.gpr g.regs.eflags).2.bits &&& ~~~Jit.ALL⟩ } } := rfl
    rw [hstep g, Like, hfixed, hm.other g, ← hI]
    rfl
  · intro g _ _
    rw [hstep g]
    rfl

/-- The shift group's alias of SHL, by a count that is not zero. It is the
one record that is not translated as it runs: the code shifts right. -/
def Aliased (d : DecodedInsn) : Prop :=
  d.op = .ShiftRmW ∧ d.aux &&& 7 = 6 ∧ d.imm &&& 0x1F ≠ 0

instance (d : DecodedInsn) : Decidable (Aliased d) := by
  unfold Aliased
  infer_instance

/-- An effect writes status flags only. -/
theorem written_aluEffect (aluop : U8) :
    (Jit.aluEffect aluop).written &&& ~~~Jit.ALL = 0 := by
  unfold Jit.aluEffect
  split_ifs <;> rfl

theorem written_shiftEffect (shop : U8) (count : U32) :
    (Jit.shiftEffect shop count).written &&& ~~~Jit.ALL = 0 := by
  unfold Jit.shiftEffect
  split_ifs <;> rfl

/-- Every record that is classified, the alias apart. -/
theorem obeys_of_classify {d : DecodedInsn} {p : Body × FlagEffect × U32}
    (hp : classifyBody d = some p)
    (hfit : Fit true d) (hn : d.npfx = 0) (ha : ¬ Aliased d)
    (g₀ : Machine β) (start : U32) :
    Obeys guest (Like g₀) start (bodyCand p (start + d.len.setWidth 32))
      (fun s => s.stepHit d) := by
  have hsize := hfit.osize32
  rw [classifyBody, hsize, if_neg (by decide)] at hp
  dsimp only at hp
  split at hp
  case h_1 hop =>
    cases hp
    refine obeys_of_mirrors hsize hn (fun s hs => ?_)
      (mirrors_store hfit.reg d.imm) rfl (by decide) g₀ start
    rw [execDecoded, hop]
    exact run_movRegImmW hs
  case h_2 hop =>
    split at hp
    case isFalse => cases hp
    case isTrue hk =>
      cases hp
      refine obeys_of_mirrors hsize hn (fun s hs => ?_)
        (mirrors_store (hfit.base hk) d.imm) rfl (by decide) g₀ start
      rw [execDecoded, hop]
      exact run_movRmImmW hs hk
  case h_3 hop =>
    cases hp
    refine obeys_of_mirrors hsize hn (fun s hs => ?_) (mirrors_inc hfit.reg)
      rfl (by decide) g₀ start
    rw [execDecoded, hop]
    exact run_incReg hs
  case h_4 hop =>
    cases hp
    refine obeys_of_mirrors hsize hn (fun s hs => ?_) (mirrors_dec hfit.reg)
      rfl (by decide) g₀ start
    rw [execDecoded, hop]
    exact run_decReg hs
  case h_5 hop =>
    split at hp
    case isFalse => cases hp
    case isTrue hk =>
      cases hp
      have hrun : ∀ s : Machine β, s.osize32 = true → (execDecoded d).run s
          = (.ok 2, s.acted
            (.result d.base (if d.aux = 0 then Alu.inc else Alu.dec))) := by
        intro s hs
        rw [execDecoded, hop]
        exact run_incDecRmW hs hk
      by_cases haux : d.aux = 0
      · rw [if_pos haux] at hrun
        rw [decide_eq_false (not_not.2 haux)]
        exact obeys_of_mirrors hsize hn hrun (mirrors_inc (hfit.base hk))
          rfl (by decide) g₀ start
      · rw [if_neg haux] at hrun
        rw [decide_eq_true haux]
        exact obeys_of_mirrors hsize hn hrun (mirrors_dec (hfit.base hk))
          rfl (by decide) g₀ start
  case h_6 hop =>
    split at hp
    case isFalse => cases hp
    case isTrue hk =>
      cases hp
      refine obeys_of_mirrors hsize hn (fun s hs => ?_)
        (mirrors_aluRR (hfit.range.alu (by simp [hop])) (hfit.base hk)
          hfit.reg) (written_aluEffect _) (by decide) g₀
        start
      rw [execDecoded, hop]
      exact run_aluRmRW hs hk
  case h_7 hop =>
    split at hp
    case isFalse => cases hp
    case isTrue hk =>
      cases hp
      refine obeys_of_mirrors hsize hn (fun s hs => ?_)
        (mirrors_aluRR (hfit.range.alu (by simp [hop])) hfit.reg
          (hfit.base hk)) (written_aluEffect _) (by decide) g₀
        start
      rw [execDecoded, hop]
      exact run_aluRRmW hs hk
  case h_8 hop =>
    cases hp
    refine obeys_of_mirrors hsize hn (fun s hs => ?_)
      (mirrors_aluImm (hfit.range.alu (by simp [hop])) (by decide) d.imm)
        (written_aluEffect _) (by decide) g₀ start
    rw [execDecoded, hop]
    exact run_aluAccImmW hs
  case h_9 hop =>
    split at hp
    case isFalse => cases hp
    case isTrue hk =>
      cases hp
      refine obeys_of_mirrors hsize hn (fun s hs => ?_)
        (mirrors_aluImm (hfit.range.alu (by simp [hop])) (hfit.base hk) d.imm)
          (written_aluEffect _) (by decide) g₀
        start
      rw [execDecoded, hop]
      exact run_aluGrpImmW hs hk
  case h_10 hop =>
    split at hp
    case isFalse => cases hp
    case isTrue hk =>
      split at hp
      case isTrue => cases hp
      case isFalse hrotate =>
        cases hp
        have hfaithful : Faithful (d.aux &&& 7) d.imm := fun h6 => by
          by_contra hc
          exact ha ⟨hop, h6, hc⟩
        refine obeys_of_mirrors hsize hn (fun s hs => ?_)
          (mirrors_shift (hfit.base hk.1) (byte_field d.aux).1
            (not_or.1 hrotate) hfaithful) (written_shiftEffect _ _)
          (by decide) g₀ start
        rw [execDecoded, hop]
        exact run_shiftRmW hs hk.1 hk.2
  case h_11 hop =>
    split at hp
    case isFalse => cases hp
    case isTrue hk =>
      cases hp
      refine obeys_of_mirrors hsize hn (fun s hs => ?_)
        (mirrors_imul hfit.reg (hfit.base hk)) rfl (by decide) g₀ start
      rw [execDecoded, hop]
      exact run_imulRRmW hs hk
  case h_12 => cases hp

-- ======== the branches

/-- A condition code is the host's. -/
theorem cond_eq_holds (f : EFlags) {cc : U8} (h : cc < 16) :
    f.cond cc = (Jit.jccTo cc).holds (flagsOf f.bits) := by
  have ho : f.contains EFlags.OF = flagsOf f.bits .OF :=
    contains_eq_flagsOf f .OF
  have hc : f.contains EFlags.CF = flagsOf f.bits .CF :=
    contains_eq_flagsOf f .CF
  have hz : f.contains EFlags.ZF = flagsOf f.bits .ZF :=
    contains_eq_flagsOf f .ZF
  have hs : f.contains EFlags.SF = flagsOf f.bits .SF :=
    contains_eq_flagsOf f .SF
  have hp : f.contains EFlags.PF = flagsOf f.bits .PF :=
    contains_eq_flagsOf f .PF
  obtain ⟨i, hi, rfl⟩ := Jit.code_cases h
  unfold EFlags.cond
  rw [ho, hc, hz, hs, hp]
  generalize flagsOf f.bits = φ
  interval_cases i <;> simp [Jit.jccTo, Jit.Cc.holds]

/-- The target of a way out is inside the code segment. -/
def Inside (L : U32) : Term 32 → Prop
  | .jcc _ taken _ => taken ≤ L
  | .jmp target => target ≤ L
  | .fall _ => True

/-- A jump that stays inside CS. -/
theorem run_jumpRel {s : Machine β} (hs : s.osize32 = true) {rel : U32}
    (hin : s.regs.eip + rel ≤ (s.regs.seg reg.CS).limit) :
    (jumpRel rel : Calm β Unit).run s
      = (.ok (), s.withHot { s.regs.toHotRegs with eip := s.regs.eip + rel }) := by
  have htrunc : s.truncIp (s.regs.eip + rel) = s.regs.eip + rel := if_pos hs
  have hok : (raiseIf ((s.regs.seg reg.CS).limit < s.regs.eip + rel)
      (Exception.gp 0) : Calm β Unit).run s
      = (.ok (), s) := by
    rw [run_raiseIf, if_neg (BitVec.not_lt.2 hin)]
  rw [jumpRel, run_then (run_self s), setIp, run_then (run_self s),
    htrunc, run_then hok]
  exact run_setEip _ s

/-- The machine behind a branch. -/
def Machine.branched {β : Type} (s : Machine β) (q : U32 × U32) : Machine β :=
  (s.withHot { s.regs.toHotRegs with eip := q.1 }).addCycles q.2

/-- A branch record goes where its way out goes. -/
theorem stepHit_branch {d : DecodedInsn} (hop : d.op = .Jcc ∨ d.op = .JmpRel)
    (hfit : Fit true d) (hn : d.npfx = 0)
    {g : Machine β}
    (hin : Inside (g.regs.seg reg.CS).limit
    (branchTerm d (g.regs.eip + d.len.setWidth 32))) :
    g.stepHit d = (g.prepare d).branched
      ((branchTerm d (g.regs.eip + d.len.setWidth 32)).way
        (flagsOf g.regs.eflags.bits)) := by
  have hs : (g.prepare d).osize32 = true := hfit.osize32
  have hzero : ∀ c : U32, c + d.npfx.setWidth 32 = c := by
    intro c
    rw [hn]
    exact BitVec.add_zero c
  rcases hop with hop | hop
  · have hcc := hfit.range.jcc hop
    have hcode : d.aux &&& 0xF = d.aux := by
      have hall : ∀ a : U8, a < 16 → a &&& 0xF = a := by decide
      exact hall d.aux hcc
    have hterm : branchTerm d (g.regs.eip + d.len.setWidth 32)
        = .jcc d.aux (g.regs.eip + d.len.setWidth 32 + d.imm)
          (g.regs.eip + d.len.setWidth 32) := by
      rw [branchTerm, hop, if_neg (by decide), hcode]
    rw [hterm] at hin ⊢
    have hcond : (g.prepare d).regs.eflags.cond d.aux
      = (Jit.jccTo d.aux).holds (flagsOf g.regs.eflags.bits) :=
      cond_eq_holds _ hcc
    have hexec : (execDecoded d).run (g.prepare d)
        = (condJump ((Jit.jccTo d.aux).holds (flagsOf g.regs.eflags.bits))
          d.imm 7 3).run (g.prepare d) := by
      rw [execDecoded, hop]
      show (Exec.jcc d).run _ = _
      rw [Exec.jcc, run_then (run_self _), hcond]
    rw [Term.way]
    cases hholds : (Jit.jccTo d.aux).holds (flagsOf g.regs.eflags.bits) with
    | true =>
      rw [hholds, condJump, if_pos rfl, run_then (run_jumpRel hs hin)] at hexec
      rw [stepHit_of_run hexec, hzero]
      rfl
    | false =>
      rw [hholds, condJump, if_neg (by decide)] at hexec
      rw [stepHit_of_run hexec, hzero]
      rfl
  · have hterm : branchTerm d (g.regs.eip + d.len.setWidth 32)
      = .jmp (g.regs.eip + d.len.setWidth 32 + d.imm) := by
      rw [branchTerm, if_pos hop]
    rw [hterm] at hin ⊢
    have hexec :
        (execDecoded d).run (g.prepare d) = (.ok 7, (g.prepare d).withHot
        { (g.prepare d).regs.toHotRegs with eip := (g.prepare d).regs.eip + d.imm }) := by
      rw [execDecoded, hop]
      show (Exec.jmpRel d).run _ = _
      rw [Exec.jmpRel, run_then (run_jumpRel hs hin)]
      rfl
    rw [stepHit_of_run hexec, hzero]
    rfl

/-- A branch leaves as its way out does. -/
theorem exits_branch {d : DecodedInsn} (hop : d.op = .Jcc ∨ d.op = .JmpRel)
    (hfit : Fit true d) (hn : d.npfx = 0)
    {g₀ g : Machine β} {a : U32}
    (hin : Inside (g₀.regs.seg reg.CS).limit
    (branchTerm d (a + d.len.setWidth 32)))
    (hip : g.regs.eip = a) (hlike : Like g₀ g) :
    Jit.Exits guest (branchTerm d (a + d.len.setWidth 32)) g (g.stepHit d)
      ∧ Like g₀ (g.stepHit d) := by
  have hlimit : (g.regs.seg reg.CS).limit = (g₀.regs.seg reg.CS).limit :=
    hlike.limit
  subst hip
  rw [← hlimit] at hin
  rw [stepHit_branch hop hfit hn hin]
  exact ⟨⟨rfl, rfl, rfl, rfl⟩, hlike⟩

-- ======== cached records

/-- The interpreter on records it finds in the cache. -/
def Machine.runHits (s : Machine β) (ds : List DecodedInsn) : Machine β :=
  ds.foldl (fun s d => s.stepHit d) s

/-- The cache holds the records `ds`, one behind the other from `a` on. -/
def Cached (g : Machine β) : U32 → List DecodedInsn → Prop
  | _, [] => True
  | a, d :: ds =>
    (g.atEip a).begin.probe = some d ∧ Cached g (a + d.len.setWidth 32) ds

/-- With nothing pending the run loop takes a cached record. -/
theorem runLoop_hit {g₀ g : Machine β} (hlike : Like g₀ g)
    (hb : g₀.boundaryPending = false) {d : DecodedInsn}
    (hc : (g₀.atEip g.regs.eip).begin.probe = some d) (m executed : Nat) :
    runLoop (m + 1) executed g = runLoop m (executed + 1) (g.stepHit d) := by
  rw [runLoop, hlike.boundaryPending, hb, if_neg Bool.false_ne_true,
    stepFast_of_probe (hlike.probe.trans hc)]

/-- The run loop takes the records `ds`. -/
def Takes (g₀ : Machine β) (a : U32) (ds : List DecodedInsn) : Prop :=
  g₀.boundaryPending = false → Cached g₀ a ds → ∀ g,
    Like g₀ g → g.regs.eip = a → ∀ m executed,
    runLoop (ds.length + m) executed g
      = runLoop m (executed + ds.length) (g.runHits ds)

/-- Instructions that take their place in the cache, one after another. -/
theorem Takes.nil (g₀ : Machine β) (a : U32) : Takes g₀ a [] := by
  intro _ _ g _ _ m executed
  rw [List.length_nil, Nat.zero_add]
  rfl

theorem Takes.one (g₀ : Machine β) (a : U32) (d : DecodedInsn) :
    Takes g₀ a [d] := by
  intro hb hc g hlike hip m executed
  rw [List.length_singleton, Nat.add_comm 1 m,
    runLoop_hit hlike hb (by rw [hip]; exact hc.1)]
  rfl

theorem Takes.cons {g₀ : Machine β} {a : U32} {d : DecodedInsn}
    {c : Cand Body 32} {ds : List DecodedInsn}
    (ho : Obeys guest (Like g₀) a c fun s => s.stepHit d)
    (hend : c.endIp = a + d.len.setWidth 32)
    (h : Takes g₀ (a + d.len.setWidth 32) ds) : Takes g₀ a (d :: ds) := by
  intro hb hc g hlike hip m executed
  have hnext :=
    h hb hc.2 (g.stepHit d) (ho.inv g hip hlike)
      ((ho.ip g hip hlike).trans hend) m (executed + 1)
  rw [List.length_cons, Nat.add_right_comm,
    runLoop_hit hlike hb (by rw [hip]; exact hc.1), hnext,
    Nat.add_right_comm, Nat.add_assoc]
  rfl

-- ======== the blocks

/-- A lowered block has the shape the emitter goes by. -/
theorem Lowered.shaped {a : U32} {ds : List DecodedInsn}
    {cs : List (Cand Body 32)} (h : Lowered a ds cs) :
    Jit.Shaped cs := by
  induction h with
  | nil => trivial
  | branch a d =>
    exact .inr ⟨rfl, _, rfl,
      rfl, by rw [branchCand, branchTerm]; split <;> rfl⟩
  | body a d p hp hfit hn h ih => exact .inl ⟨⟨rfl, rfl⟩, ih⟩

/-- The records of a body, one behind the other. -/
theorem Lowered.chain {a : U32} {ds : List DecodedInsn}
    {cs post : List (Cand Body 32)}
    (h : Lowered a ds (cs ++ post)) (hs : ∀ c ∈ cs, c.Straight) :
    ∃ ds₁ ds₂ z, ds = ds₁ ++ ds₂ ∧ ds₁.length = cs.length ∧ Lowered z ds₂ post
      ∧ ∀ g₀ : Machine β, (∀ d ∈ ds₁, ¬ Aliased d) →
        Jit.Chain guest (Like g₀) a cs (ds₁.map fun d s => s.stepHit d) z
          ∧ ∀ ds', Takes g₀ z ds' → Takes g₀ a (ds₁ ++ ds') := by
  induction cs generalizing a ds with
  | nil => exact ⟨[], ds, a, rfl, rfl, h, fun _ _ => ⟨.nil a, fun _ hd => hd⟩⟩
  | cons c cs ih =>
    generalize hall : c :: cs ++ post = all at h
    cases h with
    | nil => cases hall
    | branch _ d =>
      obtain ⟨rfl, -⟩ := List.cons.inj hall
      exact absurd (hs _ List.mem_cons_self).1 Bool.false_ne_true
    | body _ d p hp hfit hn h =>
      obtain ⟨rfl, rfl⟩ := List.cons.inj hall
      obtain ⟨ds₁, ds₂, z, rfl, hlen, hrest, hchain⟩ :=
        ih h fun c hc => hs c (List.mem_cons_of_mem _ hc)
      refine ⟨d :: ds₁, ds₂, z, rfl, congrArg (· + 1) hlen, hrest,
        fun g₀ ha => ?_⟩
      have ho := obeys_of_classify hp hfit hn (ha d List.mem_cons_self) g₀ a
      obtain ⟨hch, htakes⟩ :=
        hchain g₀ fun d hd => ha d (List.mem_cons_of_mem _ hd)
      exact ⟨.cons ho hch, fun ds' hd => .cons ho rfl (htakes ds' hd)⟩

/-- The plan is one of the first records decoded. -/
theorem translated_of_plan {start : U32} {ds : List DecodedInsn}
    {cands : List (Cand Body 32)}
    (hl : Lowered start ds cands) (hlen : cands.length ≤ Jit.MAX_BLOCK_INSNS)
    {p : Plan Body 32} (hplan : Jit.planOf start cands = some p) :
    ∃ ds₁ ds₂, ds = ds₁ ++ ds₂ ∧ p.ninsns = BitVec.ofNat 32 ds₁.length
      ∧ 0 < ds₁.length
      ∧ ds₁.length ≤ Jit.MAX_BLOCK_INSNS
      ∧ ∀ g₀ : Machine β, (∀ d ∈ ds₁, ¬ Aliased d) →
        Inside (g₀.regs.seg reg.CS).limit p.term →
        Takes g₀ start ds₁ ∧ ∃ cs fs mat z last,
          Jit.Translated guest (Like g₀) p start ds₁.length cs fs mat z last
          ∧ Jit.pass fs last = fun g => g.runHits ds₁ := by
  obtain ⟨cs, post, mat, hdesc, hcase⟩ := Jit.planOf_spec hl.shaped hplan
  rcases hcase with ⟨pre, c, hcs, hcands, hn, hterm⟩ | ⟨c, t, hcands, hend,
    hn, hterm, hreads⟩
  · -- The block falls through behind its last operation.
    rw [hcands] at hl
    rw [hcands, List.length_append] at hlen
    obtain ⟨ds₁, ds₂, z, rfl, hds, -, hchain⟩ :=
      hl.chain (β := β) hdesc.straight
    have hpos : 0 < cs.length := by
      rw [hcs, List.length_append, List.length_singleton]
      exact Nat.succ_pos _
    refine ⟨ds₁, ds₂, rfl, by rw [hn, hds], by omega, by omega,
      fun g₀ ha _ => ?_⟩
    obtain ⟨hch, htakes⟩ := hchain g₀ ha
    have hz : z = c.endIp := by
      rw [hcs] at hch
      exact hch.last
    refine ⟨by simpa using htakes [] (.nil g₀ z), cs, _, mat, z, id,
      ⟨hdesc, hch, ?_, ?_, ?_, by rw [hn, hds], by omega, by omega, by omega⟩, ?_⟩
    · rw [hterm]
      trivial
    · rw [hterm]
      exact BitVec.zero_and
    · intro g hip hlike
      rw [hterm, ← hz]
      exact ⟨⟨rfl, rfl, hip, (BitVec.add_zero _).symm⟩, hlike⟩
    · funext g
      rw [Jit.pass, Jit.runAll, List.foldl_map]
      rfl
  · -- The block ends in a branch.
    rw [hcands] at hl
    rw [hcands, List.length_append, List.length_singleton] at hlen
    obtain ⟨ds₁, ds₂, z, rfl, hds, hrest, hchain⟩ :=
      hl.chain (β := β) hdesc.straight
    cases hrest with
    | body _ d q hq hfit hnp h =>
      exact absurd hend.body (Option.some_ne_none _)
    | branch _ d hop hfit hnp =>
      obtain rfl : branchTerm d (z + d.len.setWidth 32) = t :=
        Option.some.inj hend.term
      have hcount : (ds₁ ++ [d]).length = cs.length + 1 := by
        rw [List.length_append, List.length_singleton, hds]
      refine ⟨ds₁ ++ [d], [],
        (List.append_nil _).symm, by
          rw [hn, hcount], by omega, by omega, fun g₀ ha hin => ?_⟩
      rw [hterm] at hin
      obtain ⟨hch, htakes⟩ :=
        hchain g₀ fun x hx => ha x (List.mem_append_left _ hx)
      refine ⟨htakes [d] (.one g₀ z d), cs, _, mat, z, fun g => g.stepHit d,
        ⟨hdesc, hch, ?_, ?_,
          ?_, by rw [hn, hcount], by omega, by omega, by omega⟩, ?_⟩
      · rw [hterm, branchTerm]
        split
        · trivial
        · exact (Finds.code_range d.aux false).jcc rfl
      · rw [hterm]
        exact hreads
      · intro g hip hlike
        rw [hterm]
        exact exits_branch hop hfit hnp hin hip hlike
      · funext g
        rw [Jit.pass, Jit.runAll, List.foldl_map, Machine.runHits,
          List.foldl_append]
        rfl

/-- The run loop takes the records of a block as often as the block goes
back to its start. -/
theorem runLoop_passes {g₀ : Machine β} {a : U32} {ds : List DecodedInsn}
    (ht : Takes g₀ a ds)
    (hb : g₀.boundaryPending = false) (hc : Cached g₀ a ds)
    (hpass : ∀ g, Like g₀ g → g.regs.eip = a → Like g₀ (g.runHits ds)) {k : Nat}
    (hstart : ∀ j < k, (((·.runHits ds)^[j]) g₀).regs.eip = a)
    (m executed : Nat) :
    runLoop (k * ds.length + m) executed g₀
      = runLoop m (executed + k * ds.length) (((·.runHits ds)^[k]) g₀) := by
  have hlike : ∀ j ≤ k, Like g₀ (((·.runHits ds)^[j]) g₀) := by
    intro j hj
    induction j with
    | zero => rfl
    | succ j ih =>
      rw [Function.iterate_succ_apply']
      exact hpass _ (ih (by omega)) (hstart j (by omega))
  induction k generalizing m with
  | zero =>
    rw [Nat.zero_mul, Nat.zero_add]
    rfl
  | succ k ih =>
    have hk := ih (fun j hj => hstart j (by omega)) (m := ds.length + m) fun j
      hj => hlike j (by omega)
    rw [Nat.succ_mul, Nat.add_assoc, hk,
      ht hb hc _ (hlike k (by omega)) (hstart k (by omega)),
      Function.iterate_succ_apply', Nat.add_assoc]

/-- A translated block runs like the interpreter: entered fresh, at its
start, with room for its records in the budget and nothing pending, it
retires its records one or more times and leaves the processor that the run
loop has behind as many units. Entered stale it does nothing. -/
theorem jitTranslate_runs {s s' : Machine β} {phys : U32} {p : Plan Body 32}
    {version : U64} {slot : Nat}
    (hdb : (s.regs.seg reg.CS).db = true)
    (hplan : jitTranslate phys s = (.ok (some (p, version, slot)), s')) :
    ∃ ds, Ahead s ds ∧ p.ninsns = BitVec.ofNat 32 ds.length ∧ 0 < ds.length
      ∧ ds.length ≤ Jit.MAX_BLOCK_INSNS
      ∧ (∀ h : Host (Machine β), Jit.Fresh fields version slot h.mem →
        h.mem.regs.eip = s.regs.eip →
        h.mem.boundaryPending = false → Cached h.mem s.regs.eip ds →
          (∀ d ∈ ds, ¬ Aliased d) →
        Inside (h.mem.regs.seg reg.CS).limit p.term →
          ds.length ≤ (h.reg .rdx).toNat →
        ∃ k t g, 1 ≤ k ∧ k * ds.length ≤ (h.reg .rdx).toNat
          ∧ (Jit.host Cell (Machine β)).Returns
            (Jit.emitBlock fields p version slot)
            (Jit.emitBlock fields p version slot) h t
          ∧ t.mem.settled = g.settled ∧ (t.reg .rax).toNat = k * ds.length
          ∧ (∀ m executed, runLoop (k * ds.length + m) executed h.mem
            = runLoop m (executed + k * ds.length) g)
          ∧ t.reg .rbp = h.reg .rbp ∧ t.stack = h.stack ∧ t.fault = h.fault)
      ∧ ∀ h : Host (Machine β), ¬ Jit.Fresh fields version slot h.mem →
        ∃ t, (Jit.host Cell (Machine β)).Returns
            (Jit.emitBlock fields p version slot)
            (Jit.emitBlock fields p version slot) h t
          ∧ t.mem = h.mem ∧ t.reg .rax = 0 ∧ t.reg .rbp = h.reg .rbp
          ∧ t.stack = h.stack ∧ t.fault = h.fault := by
  obtain ⟨cands, s₁, hcands, hp⟩ : ∃ cands s₁,
      pass1 phys Jit.MAX_BLOCK_INSNS 0 s = (.ok cands, s₁)
      ∧ Jit.planOf s.regs.eip cands = some p := by
    rw [jitTranslate, Fallible.bind_of_ok (Fallible.get_apply _)] at hplan
    obtain ⟨plan, s₁, hjit, hrest⟩ := Fallible.bind_eq_ok.1 hplan
    rw [jitPlan] at hjit
    obtain ⟨cands, s₂, hcands, hp⟩ := Fallible.bind_eq_ok.1 hjit
    cases hp
    obtain ⟨-, s₃, -, hrest⟩ := Fallible.bind_eq_ok.1 hrest
    obtain ⟨-, s₄, -, hrest⟩ := Fallible.bind_eq_ok.1 hrest
    rw [Fallible.bind_of_ok (Fallible.get_apply _)] at hrest
    have hmap := Except.ok.inj (congrArg Prod.fst hrest)
    obtain ⟨q, hq, hpq⟩ := Option.map_eq_some_iff.1 hmap
    cases hpq
    exact ⟨cands, _, hcands, hq⟩
  obtain ⟨⟨all, hahead, hl⟩, hlen⟩ := pass1_spec hdb hcands
  obtain ⟨ds, ds₂, rfl, hn, hpos, hmax, hblock⟩ :=
    translated_of_plan (β := β) hl hlen hp
  refine ⟨ds, hahead.left, hn, hpos, hmax,
    fun h hfresh hip hb hc ha hin hroom => ?_,
    fun h hstale => Jit.returns_stale p hstale⟩
  obtain ⟨htakes, cs, fs, mat, z, last, T, hpass⟩ := hblock h.mem ha hin
  obtain ⟨k, t, hk, hkn, hstart, hret, hsame, hrax, hrbp, hstack, hfault⟩ :=
    T.returns_block hfresh hip rfl hroom
  rw [hpass] at hstart hsame
  have hkeep : ∀ g, Like h.mem g → g.regs.eip = s.regs.eip →
    Like h.mem (g.runHits ds) := by
    intro g hlike hg
    have hinv := T.pass_inv hg hlike
    rw [hpass] at hinv
    exact hinv
  refine ⟨k, t, _, hk, hkn, hret, (same_iff _ _).1 hsame, ?_,
    runLoop_passes htakes hb hc hkeep hstart, hrbp, hstack, hfault⟩
  have hlt := (h.reg .rdx).isLt
  rw [hrax, BitVec.toNat_ofNat, Nat.mod_eq_of_lt (by omega)]

-- The two kinds of record the theorem leaves out are translated all the same,
-- and a block does something else with them than the interpreter.

/-- The alias of SHL shifts left in the interpreter, and right with the sign
in a block. -/
theorem aliased_sar {d : DecodedInsn} (ha : Aliased d)
    (hsize : d.osize32 = true) (hk : d.kind = .reg)
    (hcl : d.aux &&& 0x80 = 0) :
    (classifyBody d).map (fun p => emitBody p.1)
        = some [.shift .sar (.mem (.gpr d.base)) ((d.imm &&& 0x1F).setWidth 8)]
      ∧ ∀ s : Machine β, s.osize32 = true →
        (execDecoded d).run s
          = (.ok 3, s.acted (.result d.base fun v => Alu.shl v d.imm)) := by
  obtain ⟨hop, hsub, -⟩ := ha
  constructor
  · rw [classifyBody, hsize, if_neg (by decide)]
    simp only [hop]
    rw [if_pos ⟨hk, hcl⟩, hsub, if_neg (by decide)]
    rfl
  · intro s hs
    rw [execDecoded, hop]
    refine (run_shiftRmW hs hk hcl).trans ?_
    rw [hsub]
    rfl

/-- A jump past the limit of the code segment fails in the interpreter, and
is taken in a block. -/
theorem jump_outside {d : DecodedInsn} (hop : d.op = .JmpRel)
    (hsize : d.osize32 = true) (g : Machine β)
    (hout : (g.regs.seg reg.CS).limit
      < g.regs.eip + d.len.setWidth 32 + d.imm) :
    ((execDecoded d).run (g.prepare d)).1 = .error (.gp 0)
      ∧ ∀ h : Host (Machine β), ((Jit.host Cell (Machine β)).exec
          (fields.emitIp (g.regs.eip + d.len.setWidth 32 + d.imm))
            h).mem.regs.eip
        = g.regs.eip + d.len.setWidth 32 + d.imm := by
  constructor
  · have htrunc : (g.prepare d).truncIp ((g.prepare d).regs.eip + d.imm)
        = g.regs.eip + d.len.setWidth 32 + d.imm := if_pos hsize
    have hfails :
        (raiseIf (((g.prepare d).regs.seg reg.CS).limit < g.regs.eip + d.len.setWidth 32 + d.imm)
        (Exception.gp 0) : Calm β Unit).run (g.prepare d)
          = (.error (.gp 0), g.prepare d) := by
      rw [run_raiseIf]
      exact if_pos hout
    have hjump : (jumpRel d.imm : Calm β Unit).run (g.prepare d)
      = (.error (.gp 0), g.prepare d) := by
      rw [jumpRel, run_then (run_self _), setIp, run_then (run_self _), htrunc,
        Bounded.run_bind]
      exact Fallible.bind_of_error hfails
    rw [execDecoded, hop]
    show ((Exec.jmpRel d).run _).1 = _
    rw [Exec.jmpRel, Bounded.run_bind, Fallible.bind_of_error hjump]
  · intro h
    rfl

/-- A page of code in a 32-bit segment of this limit, with 3 in every
register. -/
def codeWithin (limit : U32) (code : List U8) : Machine (FlatBus Unit) :=
  { Cpu.new with
    regs := { Registers.new with
      eip := 0
      gpr := fun _ => 3
      seg := upd Registers.new.seg reg.CS
        { Registers.new.seg reg.CS with base := 0, limit := limit, attrs := 0x049B } }
    bus := { mem := fun a => code.getD a.toNat 0x90, ports := () } }

/-- What the translated block at 0 has retired when it returns, EAX and EIP. -/
def blockAtZero (s : Machine (FlatBus Unit)) : Option (U64 × U32 × U32) :=
  match jitTranslate 0 s with
  | (.ok (some (p, version, slot)), _) =>
    let code := Jit.emitBlock fields p version slot
    ((Jit.host Cell (Machine (FlatBus Unit))).run code 100 code
      ⟨fun r => if r = .rdx then 10 else 0, fun _ => false, [], s,
        fun _ _ => false, 0, false⟩).map
        fun t => (t.reg .rax, t.mem.regs.gpr reg.EAX, t.mem.regs.eip)
  | _ => none

/-- `SHL EAX, 1` by its alias, `ADD EAX, 0`, `JMP`: 6 in the interpreter and
1 in the block. `INC EAX`, `JMP` behind the limit: the block is behind it, the
interpreter in the handler. -/
theorem jitTranslate_strays :
    let shifts :=
      codeWithin 0xFFFFFFFF [0xC1, 0xF0, 0x01, 0x83, 0xC0, 0x00, 0xEB, 0x00]
    let outside := codeWithin 0x10 [0x40, 0xEB, 0x20]
    blockAtZero shifts = some (3, 1, 8)
      ∧ (runLoop 3 0 shifts).2.regs.gpr reg.EAX = 6
      ∧ blockAtZero outside = some (2, 4, 0x23)
      ∧ (runLoop 2 0 outside).2.regs.eip ≠ 0x23 := by
  decide

/-- `INC EAX; JMP $-1` in a flat 32-bit segment. -/
def incLoopCode : Machine (FlatBus Unit) :=
  { Cpu.new with
    regs := { Registers.new with
      eip := 0
      seg := upd Registers.new.seg reg.CS
        { Registers.new.seg reg.CS with base := 0, limit := 0xFFFFFFFF, attrs := 0x049B } }
    bus :=
      { mem := fun a => if a = 0 then 0x40 else if a = 1 then 0xEB else 0xFD, ports := () } }

/-- The two instructions of the example. -/
def incEax : DecodedInsn :=
  { incLoopCode.record .IncReg 0 false with len := 1, flags := 3 }

def jmpBack : DecodedInsn :=
  { incLoopCode.record .JmpRel 0 false with len := 2, flags := 3, imm := 0xFFFFFFFD }

/-- The loop with its records in the cache. -/
def incLoop : Machine (FlatBus Unit) :=
  { incLoopCode with
    icache := (incLoopCode.icache.fill 0 incLoopCode.icacheCtx incEax).fill 1
      incLoopCode.icacheCtx jmpBack }

/-- What decoding ahead finds there. -/
theorem ahead_incLoop {ds : List DecodedInsn} (h : Ahead incLoop ds)
    (hlen : ds.length = 2) :
    ds = [incEax, jmpBack] := by
  have hfirst :
    (jitDecodeOne incLoop).1.toOption = some (some incEax) := by decide
  have hsecond : (jitDecodeOne (jitDecodeOne incLoop).2).1.toOption
    = some (some jmpBack) := by decide
  cases h with
  | nil => cases hlen
  | cons hd h =>
    rw [hd] at hfirst hsecond
    obtain rfl : _ = incEax := Option.some.inj (Option.some.inj hfirst)
    cases h with
    | nil => cases hlen
    | cons hd h =>
      rw [hd] at hsecond
      obtain rfl : _ = jmpBack := Option.some.inj (Option.some.inj hsecond)
      cases h with
      | nil => rfl
      | cons => simp at hlen

/-- A loop of two instructions, translated and run for ten units. -/
theorem jitTranslate_runs_incLoop : ∃ p version slot s',
    jitTranslate 0 incLoop = (.ok (some (p, version, slot)), s')
    ∧ ∃ k t g, 1 ≤ k ∧ k * 2 ≤ 10
      ∧ (Jit.host Cell (Machine (FlatBus Unit))).Returns
        (Jit.emitBlock fields p version slot)
        (Jit.emitBlock fields p version slot)
        ⟨fun r => if r = .rdx then 10 else 0, fun _ => false, [], incLoop,
          fun _ _ => false, 0, false⟩ t
      ∧ t.mem.settled = g.settled
      ∧ ∀ m executed, runLoop (k * 2 + m) executed incLoop
        = runLoop m (executed + k * 2) g := by
  have hcount :
    (jitTranslate 0 incLoop).1.toOption.join.map (fun r => (r.1.ninsns, r.2.1))
    = some (2#32, 1#64) := by
    decide
  rcases hrun : jitTranslate 0 incLoop with ⟨e | _ | ⟨p, version, slot⟩, s'⟩
  · rw [hrun] at hcount
    cases hcount
  · rw [hrun] at hcount
    cases hcount
  rw [hrun] at hcount
  obtain ⟨hninsns, rfl⟩ : p.ninsns = 2#32 ∧ version = 1#64 :=
    Prod.mk.inj (Option.some.inj hcount)
  obtain ⟨ds, hahead, hn, hpos, hmax, hruns, -⟩ :=
    jitTranslate_runs (by decide) hrun
  have hlen : ds.length = 2 := by
    have hmax64 : Jit.MAX_BLOCK_INSNS = 64 := rfl
    rw [hninsns] at hn
    have hnat := congrArg BitVec.toNat hn
    rw [BitVec.toNat_ofNat, BitVec.toNat_ofNat] at hnat
    omega
  obtain rfl := ahead_incLoop hahead hlen
  have hinside : Inside (incLoop.regs.seg reg.CS).limit p.term := by
    cases p.term with
    | jcc cc taken fallthrough =>
      exact BitVec.le_def.2
        (by have := taken.isLt; exact Nat.le_of_lt_succ this)
    | jmp target =>
      exact BitVec.le_def.2
        (by have := target.isLt; exact Nat.le_of_lt_succ this)
    | fall => trivial
  obtain ⟨k, t, g, hk, hkn, hret, hsame, -, hloop, -⟩ := hruns
    ⟨fun r => if r = .rdx then 10 else 0, fun _ => false, [], incLoop,
      fun _ _ => false, 0, false⟩
    ⟨(by decide : (0 : U64) ≤ 1), (by decide : (1 : U64) ≤ 1)⟩ rfl (by decide)
    ⟨by decide, by decide +kernel, trivial⟩ (by decide)
      hinside (by decide)
  exact ⟨p, 1, slot, s', rfl, k, t, g, hk, hkn, hret, hsame, hloop⟩

end Remu.X32
