/-
Which flags the host has, and where a block may end.

Host and guest agree on most status flags and not on all: some the host
leaves undefined, and some of those the interpreter clears. `FlagState`
tracks, flag by flag, whether the host holds the exact value, a constant is
known, or what the host holds is garbage. A block ends where nothing is
garbage, and what reads a flag runs only where it is exact (`Runs`).

Both JITs analyse their blocks this way. The width of an instruction
pointer and the operations of a body are their own.
-/
import Remu.Jit.Host

namespace Remu.Jit

-- ======== flag effects

/-- The status flags by their bits. -/
abbrev CF : U32 := 0x001
abbrev PF : U32 := 0x004
abbrev AF : U32 := 0x010
abbrev ZF : U32 := 0x040
abbrev SF : U32 := 0x080
abbrev OF : U32 := 0x800
/-- All six. -/
abbrev ALL : U32 := CF ||| PF ||| AF ||| ZF ||| SF ||| OF

/-- The position of a flag in the flags register. -/
def Status.pos : Status → Nat
  | .CF => 0
  | .PF => 2
  | .AF => 4
  | .ZF => 6
  | .SF => 7
  | .OF => 11

/-- A status flag is in the low word. -/
theorem Status.pos_lt (φ : Status) : φ.pos < 32 := by
  cases φ <;> decide

/-- A flag of a flags register. -/
def flagsOf (f : U32) : Flags := fun φ => f.getLsbD φ.pos

/-- The bit of a flag is in a mask. -/
def has (m : U32) (φ : Status) : Bool := m.getLsbD φ.pos

/-- The flags an operation defines as the interpreter does, forces to a
constant, or leaves as garbage, and the flags it reads. -/
structure FlagEffect where
  exact : U32 := 0
  const0 : U32 := 0
  const1 : U32 := 0
  garbage : U32 := 0
  reads : U32 := 0
deriving DecidableEq, Repr

/-- The flags an operation writes at all. -/
def FlagEffect.written (e : FlagEffect) : U32 :=
  e.exact ||| e.const0 ||| e.const1 ||| e.garbage

/-- An operation keeps its promise: it took the host's flags from `f` to
`f'`, and the interpreter's register from `v` to `v'`. -/
structure FlagsDo (e : FlagEffect) (f f' : Flags) (v v' : U32) : Prop where
  exact : ∀ φ, has e.exact φ = true → f' φ = flagsOf v' φ
  const0 : ∀ φ, has e.const0 φ = true → flagsOf v' φ = false
  const1 : ∀ φ, has e.const1 φ = true → flagsOf v' φ = true
  kept : ∀ φ, has e.written φ = false → f' φ = f φ ∧ flagsOf v' φ = flagsOf v φ
  other : v' &&& ~~~ALL = v &&& ~~~ALL

/-- Flags read by a condition code. -/
def jccReads (cc : U8) : U32 :=
  let c := cc >>> 1
  if c = 0 then OF
  else if c = 1 then CF
  else if c = 2 then ZF
  else if c = 3 then CF ||| ZF
  else if c = 4 then SF
  else if c = 5 then PF
  else if c = 6 then SF ||| OF
  else ZF ||| SF ||| OF

/-- By ALU selector: ADD OR ADC SBB AND SUB XOR CMP. The logic operations
clear AF, which the host leaves undefined. -/
def aluEffect (aluop : U8) : FlagEffect :=
  if aluop = 0 ∨ aluop = 5 ∨ aluop = 7 then { exact := ALL }
  else if aluop = 2 ∨ aluop = 3 then { exact := ALL, reads := CF }
  else if aluop = 1 ∨ aluop = 4
    ∨ aluop = 6 then { exact := CF ||| OF ||| SF ||| ZF ||| PF, const0 := AF }
  else {}

/-- INC and DEC. -/
def incDecEffect : FlagEffect := { exact := SF ||| ZF ||| AF ||| PF ||| OF }

/-- Two-operand IMUL. -/
def imulEffect : FlagEffect :=
  { exact := CF ||| OF, const0 := AF, garbage := SF ||| ZF ||| PF }

/-- A shift by a count already masked. OF is exact for a count of one;
SAR clears it. -/
def shiftEffect (shop : U8) (count : U32) : FlagEffect :=
  if count = 0 then {}
  else
    let of := if count = 1 then OF else 0
    let ofGarbage := if count = 1 then 0 else OF
    if shop = 4 ∨ shop = 5 then
      { exact := CF ||| SF ||| ZF ||| PF ||| of, const0 := AF, garbage := ofGarbage }
    else if shop = 7
      then { exact := CF ||| SF ||| ZF ||| PF, const0 := AF ||| OF }
    else if shop = 0
      ∨ shop = 1 then { exact := CF ||| of, garbage := ofGarbage }
    else { garbage := ALL }

-- ======== blocks

variable {α : Type} {w : Nat}

-- Cycle weights, those of the interpreter.

/-- The cycles of each kind of instruction. -/
abbrev CYC_MOV : U32 := 2
abbrev CYC_INCDEC : U32 := 2
abbrev CYC_ALU : U32 := 2
abbrev CYC_SHIFT : U32 := 3
abbrev CYC_IMUL : U32 := 20
abbrev CYC_JCC_TAKEN : U32 := 7
abbrev CYC_JCC_NOT : U32 := 3
abbrev CYC_JMP : U32 := 7

/-- Longest block the translator will build. -/
abbrev MAX_BLOCK_INSNS : Nat := 64

/-- How a block ends. -/
inductive Term (w : Nat) where
  | jcc (cc : U8) (taken fallthrough : BitVec w)
  | jmp (target : BitVec w)
  | fall (ip : BitVec w)
deriving DecidableEq

/-- The flags a terminator reads. -/
def Term.reads : Term w → U32
  | .jcc cc _ _ => jccReads cc
  | _ => 0

/-- One decode-ahead candidate. -/
structure Cand (α : Type) (w : Nat) where
  body : Option α
  term : Option (Term w)
  effect : FlagEffect
  cyc : U32
  endIp : BitVec w

/-- A block ready to emit. -/
structure Plan (α : Type) (w : Nat) where
  body : List α
  term : Term w
  selfLoop : Bool
  matFromHost : U32
  matConst0 : U32
  matConst1 : U32
  ninsns : U32
  bodyCycles : U32
  startIp : BitVec w

/-- Whether an exit has flags to put back. -/
def Plan.flagsDirty (p : Plan α w) : Bool :=
  p.matFromHost ||| p.matConst0 ||| p.matConst1 != 0

-- ======== the analysis

/-- What the host flags are worth. -/
structure FlagState where
  exact : U32 := 0
  const0 : U32 := 0
  const1 : U32 := 0
  garbage : U32 := 0
deriving DecidableEq, Repr

/-- Behind an operation. -/
def FlagState.after (s : FlagState) (e : FlagEffect) : FlagState where
  exact := (s.exact &&& ~~~e.written) ||| e.exact
  const0 := (s.const0 &&& ~~~e.written) ||| e.const0
  const1 := (s.const1 &&& ~~~e.written) ||| e.const1
  garbage := (s.garbage &&& ~~~e.written) ||| e.garbage

/-- The longest prefix found: its length, the flags at its end and the way
out. -/
structure Cut (w : Nat) where
  cut : Nat
  mat : FlagState
  exit : Term w

/-- The second pass: the longest prefix that ends with no garbage flag and
no unsatisfied read. -/
def scan : Nat → FlagState → List (Cand α w) → Cut w → Cut w
  | _, _, [], best => best
  | i, s, c :: cs, best =>
    if c.effect.reads &&& ~~~s.exact ≠ 0 then best
    else
      let s := s.after c.effect
      scan (i + 1) s cs (if s.garbage = 0 then ⟨i + 1, s, c.term.getD (.fall c.endIp)⟩ else best)

/-- The block goes back to its own start. -/
def Term.loopsTo (start : BitVec w) : Term w → Bool
  | .jcc _ taken _ => taken == start
  | .jmp target => target == start
  | .fall _ => false

/-- The cycles of the body. -/
def bodyCycles (cs : List (Cand α w)) : U32 :=
  cs.foldl (fun n c => if c.body.isSome then n + c.cyc else n) 0

/-- The plan of the candidates decoded from `start` on. -/
def planOf (start : BitVec w) (cands : List (Cand α w)) : Option (Plan α w) :=
  let best := scan 0 {} cands ⟨0, {}, .fall start⟩
  if best.cut = 0 then none
  else some {
    body := (cands.take best.cut).filterMap Cand.body
    term := best.exit
    selfLoop := best.exit.loopsTo start
    matFromHost := best.mat.exact
    matConst0 := best.mat.const0
    matConst1 := best.mat.const1
    ninsns := BitVec.ofNat 32 best.cut
    bodyCycles := bodyCycles (cands.take best.cut)
    startIp := start }

-- ======== what it finds

/-- The operations may run one after the other: every read finds its flag
exact. -/
def FlagState.Runs : FlagState → List (Cand α w) → FlagState → Prop
  | s, [], t => s = t
  | s, c :: cs, t =>
    c.effect.reads &&& ~~~s.exact = 0 ∧ (s.after c.effect).Runs cs t

/-- An analysis cut in two. -/
theorem FlagState.runs_append {s t : FlagState} {cs cs' : List (Cand α w)} :
    s.Runs (cs ++ cs') t ↔ ∃ u, s.Runs cs u ∧ u.Runs cs' t := by
  induction cs generalizing s with
  | nil =>
    constructor
    · exact fun h => ⟨s, rfl, h⟩
    · rintro ⟨u, rfl, h⟩
      exact h
  | cons c cs ih =>
    simp only [List.cons_append, FlagState.Runs, ih]
    constructor
    · rintro ⟨hr, u, h, h'⟩
      exact ⟨u, ⟨hr, h⟩, h'⟩
    · rintro ⟨u, ⟨hr, h⟩, h'⟩
      exact ⟨hr, u, h, h'⟩

/-- A clean place to end: `c` is the last of the prefix `cs`. -/
structure Ends (s : FlagState) (i : Nat) (cs : List (Cand α w)) (c : Cand α w)
    (best : Cut w) : Prop where
  cut : best.cut = i + cs.length + 1
  runs : s.Runs (cs ++ [c]) best.mat
  clean : best.mat.garbage = 0
  exit : best.exit = c.term.getD (.fall c.endIp)

/-- The second pass returns what it was given or a clean place to end. -/
theorem scan_spec (i : Nat) (s : FlagState)
    (cs : List (Cand α w)) (best : Cut w) :
    scan i s cs best = best
      ∨ ∃ pre c post, cs = pre ++ c :: post
        ∧ Ends s i pre c (scan i s cs best) := by
  induction cs generalizing i s best with
  | nil => exact .inl rfl
  | cons c cs ih =>
    rw [scan]
    by_cases hr : c.effect.reads &&& ~~~s.exact = 0
    case neg => exact .inl (if_pos hr)
    rw [if_neg (not_not.2 hr)]
    dsimp only
    rcases ih (i + 1) (s.after c.effect)
      (if (s.after c.effect).garbage = 0 then ⟨i + 1, s.after c.effect, c.term.getD (.fall c.endIp)⟩
        else best) with heq | ⟨pre, last, post, rfl, hends⟩
    · rw [heq]
      split
      case isTrue hclean =>
        exact .inr ⟨[], c, cs, rfl, rfl, ⟨hr, rfl⟩, hclean, rfl⟩
      case isFalse => exact .inl rfl
    · refine .inr ⟨c :: pre, last, post, rfl, ?_, ⟨hr, hends.runs⟩,
        hends.clean, hends.exit⟩
      rw [hends.cut, List.length_cons]
      omega

-- ======== the shape of a block

/-- An operation of a body. -/
def Cand.Straight (c : Cand α w) : Prop := c.body.isSome = true ∧ c.term = none

/-- A terminator: it writes no flag. -/
structure Cand.Ending (c : Cand α w) (t : Term w) : Prop where
  body : c.body = none
  term : c.term = some t
  effect : c.effect = { reads := t.reads }

/-- Only the last candidate may be a terminator. -/
def Shaped : List (Cand α w) → Prop
  | [] => True
  | c :: cs => (c.Straight ∧ Shaped cs) ∨ (cs = [] ∧ ∃ t, c.Ending t)

/-- Only the last instruction may branch. -/
theorem Shaped.straight {pre post : List (Cand α w)} {c : Cand α w}
    (h : Shaped (pre ++ c :: post)) :
    (∀ x ∈ pre, x.Straight) ∧ (c.Straight ∨ post = [] ∧ ∃ t, c.Ending t) := by
  induction pre with
  | nil =>
    rcases h with ⟨hc, -⟩ | hc
    · exact ⟨fun _ hx => (List.not_mem_nil hx).elim, .inl hc⟩
    · exact ⟨fun _ hx => (List.not_mem_nil hx).elim, .inr hc⟩
  | cons x pre ih =>
    rcases h with ⟨hx, hrest⟩ | ⟨hnil, -⟩
    · obtain ⟨hpre, hc⟩ := ih hrest
      refine ⟨fun y hy => ?_, hc⟩
      rcases List.mem_cons.1 hy with rfl | hy
      · exact hx
      · exact hpre y hy
    · exact absurd hnil (by simp)

/-- What a plan is about: the operations `cs` of the body and the way out. -/
structure Describes (p : Plan α w) (start : BitVec w) (cs : List (Cand α w))
    (mat : FlagState) : Prop where
  startIp : p.startIp = start
  straight : ∀ c ∈ cs, c.Straight
  body : p.body = cs.filterMap Cand.body
  cycles : p.bodyCycles = bodyCycles cs
  runs : FlagState.Runs {} cs mat
  clean : mat.garbage = 0
  host : p.matFromHost = mat.exact
  const0 : p.matConst0 = mat.const0
  const1 : p.matConst1 = mat.const1
  selfLoop : p.selfLoop = p.term.loopsTo start

/-- An instruction that only reads flags. -/
theorem FlagState.after_reads (s : FlagState) (m : U32) :
    s.after { reads := m } = s := by
  have hsame :
    ∀ x : U32, (x &&& ~~~(0 ||| 0 ||| 0 ||| 0 : U32)) ||| 0 = x := by
    intro x
    show (x &&& ~~~0#32) ||| 0#32 = x
    rw [BitVec.or_zero]
    exact BitVec.and_allOnes
  cases s with
  | mk e z o g =>
    exact congr (congr (congr (congrArg FlagState.mk (hsame e)) (hsame z))
      (hsame o)) (hsame g)

/-- A branch without a body adds nothing to the body. -/
theorem bodyCycles_ending {cs : List (Cand α w)} {c : Cand α w}
    (hc : c.body = none) :
    bodyCycles (cs ++ [c]) = bodyCycles cs := by
  rw [bodyCycles, List.foldl_append, List.foldl_cons, List.foldl_nil, hc]
  rfl

/-- A plan falls through behind its last operation, or leaves by the
terminator, which finds the flags it reads. -/
theorem planOf_spec {start : BitVec w} {cands : List (Cand α w)}
    (hs : Shaped cands) {p : Plan α w} (h : planOf start cands = some p) :
    ∃ cs post mat, Describes p start cs mat ∧
      ((∃ pre c, cs = pre ++ [c] ∧ cands = cs ++ post ∧ p.ninsns = BitVec.ofNat 32 cs.length
          ∧ p.term = .fall c.endIp)
        ∨ (∃ c t, cands = cs ++ [c] ∧ c.Ending t
          ∧ p.ninsns = BitVec.ofNat 32 (cs.length + 1)
          ∧ p.term = t ∧ t.reads &&& ~~~mat.exact = 0)) := by
  rw [planOf] at h
  rcases scan_spec 0 {} cands ⟨0, {}, .fall start⟩ with heq | ⟨pre, c, post, hcands, hends⟩
  · rw [heq] at h
    cases h
  generalize scan 0 {} cands ⟨0, {}, .fall start⟩ = best at h hends
  have hcut : best.cut = (pre ++ [c]).length := by
    rw [hends.cut, List.length_append, List.length_singleton]
    omega
  have hsplit : cands = (pre ++ [c]) ++ post := by
    rw [hcands, List.append_assoc]
    rfl
  have htake : cands.take best.cut = pre ++ [c] := by
    rw [hcut, hsplit]
    exact List.take_left
  rw [if_neg (by rw [hends.cut]; omega), htake] at h
  cases h
  rw [hcands] at hs
  obtain ⟨hpre, hc⟩ := hs.straight
  rcases hc with hc | ⟨rfl, t, ht⟩
  · refine ⟨pre ++ [c], post, best.mat,
      ⟨rfl, ?_, rfl, rfl, hends.runs, hends.clean, rfl, rfl, rfl, rfl⟩,
      .inl ⟨pre, c, rfl, hsplit, congrArg (BitVec.ofNat 32) hcut, ?_⟩⟩
    · intro x hx
      rcases List.mem_append.1 hx with hx | hx
      · exact hpre x hx
      · rw [List.mem_singleton.1 hx]
        exact hc
    · rw [hends.exit, hc.2]
      rfl
  · obtain ⟨mat, hruns, hread, hmat⟩ := FlagState.runs_append.1 hends.runs
    have hsame : mat = best.mat := by
      rw [FlagState.Runs, ht.effect, FlagState.after_reads] at hmat
      exact hmat
    subst hsame
    have hexit : best.exit = t := by
      rw [hends.exit, ht.term]
      rfl
    refine ⟨pre, [], best.mat,
      ⟨rfl, hpre, ?_, bodyCycles_ending ht.body, hruns, hends.clean, rfl,
      rfl, rfl, rfl⟩, .inr ⟨c, t, hcands, ht, ?_, hexit, ?_⟩⟩
    · rw [List.filterMap_append, List.filterMap_cons_none ht.body,
        List.filterMap_nil, List.append_nil]
    · rw [hends.cut, Nat.zero_add]
    · rw [ht.effect] at hread
      exact hread

end Remu.Jit
