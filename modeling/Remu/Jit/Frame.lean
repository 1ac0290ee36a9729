/-
What the frame of a block does.

The exits first: one writes the flags register that `matWord` says, adds the
cycles, stores the instruction pointer, and returns with RBP and the stack
as they were on entry (`Left`). Then the prologue, which lets a block run
exactly when its version is not older than the stamp of its page and the
invalidation clock.
-/
import Remu.Jit.Emit

namespace Remu.Jit

open Item Insn Host

variable {κ : Size → Type} {μ : Type} [Cells κ μ] {α : Type} {w : Nat}

-- ======== the flags register

/-- The status flags of the host as a flags register. -/
def hostWord (f : Flags) : U32 :=
  ((ahOf f).setWidth 32 &&& LAHF_FLAGS) ||| (if f .OF then OF else 0)

/-- The flags register an exit writes over `v`. -/
def matWord (fromHost const0 const1 : U32) (f : Flags) (v : U32) : U32 :=
  (v &&& ~~~(fromHost ||| const0 ||| const1))
    ||| ((hostWord f &&& fromHost) ||| const1)

/-- The host's flags, pushed and read back. -/
theorem flagsOf_hostWord (f : Flags) : flagsOf (hostWord f) = f := by
  funext φ
  unfold flagsOf hostWord ahOf
  cases φ <;> generalize f .CF = c <;> generalize f .PF = p
    <;> generalize f .AF = a <;> generalize f .ZF = z
    <;> generalize f .SF = s <;> generalize f .OF = o
    <;> revert c p a z s o <;> decide

/-- Nothing to put back. -/
theorem matWord_clean (f : Flags) (v : U32) : matWord 0 0 0 f v = v := by
  show (v &&& ~~~0#32) ||| ((hostWord f &&& 0#32) ||| 0#32) = v
  rw [BitVec.and_zero, BitVec.or_zero, BitVec.or_zero]
  exact BitVec.and_allOnes

/-- What `emit_materialize` computes. -/
theorem matWord_eq (fromHost const0 const1 : U32) (f : Flags) (v : U32) :
    (v &&& ~~~(fromHost ||| const0 ||| const1))
        ||| (((ahOf f).setWidth 32 &&& (fromHost &&& LAHF_FLAGS)
          ||| (if f .OF then 1#8 else 0#8).setWidth 32 <<< 11
            &&& (fromHost &&& OF)) ||| const1)
      = matWord fromHost const0 const1 f v := by
  have hof : (if f .OF then 1#8 else 0#8).setWidth 32 <<< 11
      &&& (fromHost &&& OF)
      = (if f .OF then OF else 0) &&& fromHost := by
    cases f .OF with
    | true =>
      show OF &&& (fromHost &&& OF) = OF &&& fromHost
      rw [BitVec.and_comm fromHost, ← BitVec.and_assoc, BitVec.and_self]
    | false => exact BitVec.zero_and.trans BitVec.zero_and.symm
  have hah : (ahOf f).setWidth 32 &&& (fromHost &&& LAHF_FLAGS)
    = (ahOf f).setWidth 32 &&& LAHF_FLAGS &&& fromHost := by
    rw [BitVec.and_comm fromHost, BitVec.and_assoc]
  rw [hof, hah, ← BitVec.and_or_distrib_right]
  rfl

-- ======== what is left unchanged

/-- Registers other than `rs`, the stack and the fault are as before. -/
structure Spares (rs : List Reg) (h t : Host μ) : Prop where
  reg : ∀ r, r ∉ rs → t.reg r = h.reg r
  stack : t.stack = h.stack
  fault : t.fault = h.fault

omit [Cells κ μ] in
/-- What is spared along two parts is spared along both. -/
theorem Spares.trans {rs rs' : List Reg} {h t u : Host μ} (ht : Spares rs h t)
    (hu : Spares rs' t u) :
    Spares (rs ++ rs') h u where
  reg r hr := (hu.reg r fun hmem => hr (List.mem_append_right _ hmem)).trans
    (ht.reg r fun hmem => hr (List.mem_append_left _ hmem))
  stack := hu.stack.trans ht.stack
  fault := hu.fault.trans ht.fault

omit [Cells κ μ] in
theorem Spares.refl (rs : List Reg) (h : Host μ) : Spares rs h h :=
  ⟨fun _ _ => rfl, rfl, rfl⟩

/-- The processor behind the cells: where its instruction pointer is, and
when two of its states differ only in flags, cycles, instruction pointer
and what the interpreter notes about the instruction it runs. -/
structure Guest (F : Fields κ α w) (μ : Type) [Cells κ μ] where
  ip : μ → BitVec w
  Alike : μ → μ → Prop
  equiv : Equivalence Alike
  alike_flags : ∀ (v : U32) (m : μ), Alike (Cells.write F.flags v m) m
  alike_cycles : ∀ (v : U64) (m : μ), Alike (Cells.write F.cycles v m) m
  flags_flags :
    ∀ (v : U32) (m : μ), Cells.read F.flags (Cells.write F.flags v m) = v
  flags_cycles : ∀ (v : U64) (m : μ),
    Cells.read F.flags (Cells.write F.cycles v m) = Cells.read F.flags m
  cycles_flags : ∀ (v : U32) (m : μ),
    Cells.read F.cycles (Cells.write F.flags v m) = Cells.read F.cycles m
  cycles_cycles :
    ∀ (v : U64) (m : μ), Cells.read F.cycles (Cells.write F.cycles v m) = v
  spares_ip : ∀ v (h : Host μ), Spares [.r9] h ((host κ μ).exec (F.emitIp v) h)
  alike_ip : ∀ v (h : Host μ), Alike ((host κ μ).exec (F.emitIp v) h).mem h.mem
  ip_ip : ∀ v (h : Host μ), ip ((host κ μ).exec (F.emitIp v) h).mem = v
  flags_ip : ∀ v (h : Host μ),
    Cells.read F.flags ((host κ μ).exec (F.emitIp v) h).mem
      = Cells.read F.flags h.mem
  cycles_ip : ∀ v (h : Host μ),
    Cells.read F.cycles ((host κ μ).exec (F.emitIp v) h).mem
      = Cells.read F.cycles h.mem

variable {F : Fields κ α w} (G : Guest F μ)

namespace Guest

/-- The guest's flags, in their cell. -/
def flags (_ : Guest F μ) (m : μ) : U32 := Cells.read F.flags m

/-- The guest's cycles, in their cell. -/
def cycles (_ : Guest F μ) (m : μ) : U64 := Cells.read F.cycles m

/-- Equal but for the interpreter's notes. -/
structure Same (m g : μ) : Prop where
  alike : G.Alike m g
  flags : G.flags m = G.flags g
  cycles : G.cycles m = G.cycles g
  ip : G.ip m = G.ip g

end Guest

-- ======== the exits

/-- The exit puts the flags back. -/
theorem exec_materialize (F : Fields κ α w) (fromHost const0 const1 : U32)
    (h : Host μ) :
    let t := (host κ μ).exec (emitMaterialize F fromHost const0 const1) h
    t.mem = (if fromHost ||| const0 ||| const1 = 0 then h.mem
        else Cells.write F.flags
          (matWord fromHost const0 const1 h.flags (Cells.read F.flags h.mem)) h.mem)
      ∧ Spares [.rax, .rcx] h t := by
  unfold emitMaterialize
  dsimp only
  split
  case isTrue => exact ⟨rfl, .refl _ _⟩
  case isFalse =>
    refine ⟨?_, fun r hr => ?_, ?_, ?_⟩
    · rw [← matWord_eq]
      simp [effect, byteAt_setByte, byteAt_setByte_other, AluOp.result,
        ShiftOp.result, Size.bits, shiftCount]
      rfl
    · obtain ⟨hax, hcx⟩ : r ≠ .rax ∧ r ≠ .rcx := by simpa using hr
      simp [effect, hax, hcx]
    · simp [effect]
    · simp [effect]

/-- An exit puts flags back where there are any. -/
theorem exec_dirty (p : Plan α w) (h : Host μ) :
    let t := (host κ μ).exec
      (if p.flagsDirty then emitMaterialize F p.matFromHost p.matConst0 p.matConst1 else []) h
    G.Alike t.mem h.mem ∧ G.cycles t.mem = G.cycles h.mem
      ∧ G.flags t.mem = matWord p.matFromHost p.matConst0 p.matConst1 h.flags
        (G.flags h.mem)
      ∧ Spares [.rax, .rcx] h t := by
  by_cases hd : p.matFromHost ||| p.matConst0 ||| p.matConst1 = 0
  · have hz := BitVec.or_eq_zero_iff.1 hd
    have hz' := BitVec.or_eq_zero_iff.1 hz.1
    have hclean : p.flagsDirty = false := bne_eq_false_iff_eq.2 hd
    rw [hclean, if_neg Bool.false_ne_true, hz.2, hz'.1, hz'.2]
    exact ⟨G.equiv.refl _, rfl, (matWord_clean _ _).symm, .refl _ _⟩
  · have hdirty : p.flagsDirty = true := bne_iff_ne.2 hd
    obtain ⟨hmem, hspares⟩ :=
      exec_materialize F p.matFromHost p.matConst0 p.matConst1 h
    rw [if_neg hd] at hmem
    rw [hdirty, if_pos rfl]
    refine ⟨?_, ?_, ?_, hspares⟩
    · rw [hmem]
      exact G.alike_flags _ _
    · rw [Guest.cycles, hmem]
      exact G.cycles_flags _ _
    · rw [Guest.flags, hmem]
      exact G.flags_flags _ _

/-- The cycles an exit adds. -/
def Cyc.amount (h : Host μ) : Cyc → U64
  | .r11 => h.reg .r11
  | .const c => c.signExtend 64

/-- The count an exit returns. -/
def retired (h : Host μ) (retiredR8 : Bool) (ninsns : U32) : U64 :=
  if retiredR8 then h.reg .r8 else ninsns.setWidth 64

/-- What an exit makes of `h`. -/
structure Left (h t : Host μ) (word : U32) (cyc : U64) (ip : BitVec w)
    (count : U64) : Prop where
  alike : G.Alike t.mem h.mem
  flags : G.flags t.mem = word
  cycles : G.cycles t.mem = G.cycles h.mem + cyc
  ip : G.ip t.mem = ip
  rax : t.reg .rax = count
  rbp : t.reg .rbp = h.stack.headD 0
  stack : t.stack = h.stack.tail
  fault : t.fault = h.fault

/-- An exit adds the cycles. -/
theorem exec_cycles (cyc : Cyc) (h : Host μ) :
    let t := (host κ μ).exec [emitCycles F cyc] h
    G.Alike t.mem h.mem ∧ G.cycles t.mem = G.cycles h.mem + cyc.amount h
      ∧ G.flags t.mem = G.flags h.mem
      ∧ Spares [] h t := by
  cases cyc with
  | r11 =>
    refine ⟨?_, ?_, ?_, ?_⟩
    · exact G.alike_cycles _ _
    · refine (G.cycles_cycles _ _).trans ?_
      exact congrArg (_ + ·) (BitVec.setWidth_eq _)
    · exact G.flags_cycles _ _
    · exact ⟨fun _ _ => rfl, rfl, rfl⟩
  | const c =>
    refine ⟨?_, ?_, ?_, ?_⟩
    · exact G.alike_cycles _ _
    · exact G.cycles_cycles _ _
    · exact G.flags_cycles _ _
    · exact ⟨fun _ _ => rfl, rfl, rfl⟩

/-- An exit returns. -/
theorem returns_exit (p : Plan α w) (ip : BitVec w) (retiredR8 : Bool)
    (n : U32) (cyc : Cyc) (code rest : Code κ) (h : Host μ) :
    ∃ t, (host κ μ).Returns code (emitExit F p ip retiredR8 n cyc ++ rest) h t ∧
      Left G h t (matWord p.matFromHost p.matConst0 p.matConst1 h.flags
        (G.flags h.mem)) (cyc.amount h) ip
        (retired h retiredR8 n) := by
  obtain ⟨ha₁, hc₁, hf₁, hs₁⟩ := exec_dirty G p h
  generalize hh₁ : (host κ μ).exec
    (if p.flagsDirty
      then emitMaterialize F p.matFromHost p.matConst0 p.matConst1 else []) h
      = h₁ at ha₁ hc₁ hf₁ hs₁
  obtain ⟨ha₂, hc₂, hf₂, hs₂⟩ := exec_cycles G cyc h₁
  generalize hh₂ :
    (host κ μ).exec [emitCycles F cyc] h₁ = h₂ at ha₂ hc₂ hf₂ hs₂
  have ha₃ := G.alike_ip ip h₂
  have hi₃ := G.ip_ip ip h₂
  have hf₃ := G.flags_ip ip h₂
  have hc₃ := G.cycles_ip ip h₂
  have hs₃ := G.spares_ip ip h₂
  generalize hh₃ : (host κ μ).exec (F.emitIp ip) h₂ = h₃ at ha₃ hi₃ hf₃ hc₃ hs₃
  have hs := (hs₁.trans hs₂).trans hs₃
  have hr11 : h₁.reg .r11 = h.reg .r11 := hs₁.reg _ (by decide)
  have hr8 : h₃.reg .r8 = h.reg .r8 := hs.reg _ (by decide)
  have hmem : ((host κ μ).exec [emitRetired retiredR8 n, .pop .rbp] h₃).mem
    = h₃.mem := by
    cases retiredR8 <;> rfl
  refine ⟨(host κ μ).exec [emitRetired retiredR8 n, .pop .rbp] h₃, ?_, ?_, ?_,
    ?_, ?_, ?_, ?_, ?_, ?_⟩
  · rw [emitExit, List.append_assoc]
    refine .ops ?_
    rw [Isa.exec_append, Isa.exec_append, Isa.exec_append, hh₁, hh₂, hh₃]
    exact .ret
  · rw [hmem]
    exact G.equiv.trans ha₃ (G.equiv.trans ha₂ ha₁)
  · rw [hmem]
    exact hf₃.trans (hf₂.trans hf₁)
  · rw [hmem]
    refine hc₃.trans (hc₂.trans ?_)
    rw [hc₁]
    cases cyc with
    | r11 => exact congrArg (_ + ·) hr11
    | const c => rfl
  · rw [hmem]
    exact hi₃
  · cases retiredR8 with
    | true =>
      exact (BitVec.setWidth_eq _).trans ((BitVec.setWidth_eq _).trans hr8)
    | false => rfl
  · rw [← hs.stack]
    cases retiredR8 <;> rfl
  · rw [← hs.stack]
    cases retiredR8 <;> rfl
  · rw [← hs.fault]
    cases retiredR8 <;> rfl

end Remu.Jit
