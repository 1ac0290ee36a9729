/-
What reading an instruction leaves alone, in the 32-bit core.

Fetching, decoding an operand and loading it are made of translations under
paging, RAM reads, the decoder's notes and EIP. A relation between states
that each of these moves along (`Reading`) is one that the whole of them
move along, as long as nothing faults.

The registers, the flags and the prefixes stay as they were when the opcode
was dispatched (`OnlyReads`), so that a fact about the instruction's effect
is one about the registers it started with.
-/
import Remu.X32.Execute

namespace Remu.X32

variable {β : Type} [Bus β] {α γ : Type}

-- ======== computations

/-- A successful run moves the state along `R`. -/
def Reads (R : Machine β → Machine β → Prop) (x : Calm β α) : Prop :=
  ∀ s a s', x.run s = (.ok a, s') → R s s'

namespace Reads

variable {R : Machine β → Machine β → Prop} [IsPreorder (Machine β) R]

/-- The closure rules of what reads along `R`. -/
theorem pure (a : α) : Reads R (pure a : Calm β α) := by
  intro s b s' h
  cases h
  exact refl_of R s

theorem self : Reads R (self : Calm β (Machine β)) := by
  intro s b s' h
  cases h
  exact refl_of R s

/-- A sequence reads along a relation its parts read along. -/
theorem bind {x : Calm β α} {f : α → Calm β γ} (hx : Reads R x)
    (hf : ∀ a, Reads R (f a)) :
    Reads R (x >>= f) := by
  intro s b s'' h
  rw [Bounded.run_bind, Fallible.bind_eq_ok] at h
  obtain ⟨a, s', hxa, hfa⟩ := h
  exact trans_of R (hx s a s' hxa) (hf a s' b s'' hfa)

theorem map {x : Calm β α} (g : α → γ) (hx : Reads R x) :
    Reads R (g <$> x) := by
  rw [map_eq_pure_bind]
  exact hx.bind fun _ => .pure _

theorem check (r : Except Exception α) : Reads R (check r : Calm β α) := by
  intro s a s' h
  cases r <;> cases h
  exact refl_of R s

theorem raiseIf (c : Prop) [Decidable c] (e : Exception) :
    Reads R (raiseIf c e : Calm β Unit) := by
  intro s a s' h
  rw [run_raiseIf] at h
  split at h <;> cases h
  exact refl_of R s

theorem whenever (c : Prop) [Decidable c] {m : Calm β Unit} (hm : Reads R m) :
    Reads R (whenever c m) := by
  unfold X32.whenever
  split
  · exact hm
  · exact .pure ()

theorem readHalves {w : Nat} {lo hi : Calm β (BitVec w)} (hlo : Reads R lo)
    (hhi : Reads R hi) :
    Reads R (readHalves lo hi) :=
  hlo.bind fun _ => hhi.bind fun _ => .pure _

/-- An address check moves nothing. -/
theorem linAddr (seg : U8) (off : U32) (size : Nat) (write : Bool) :
    Reads R (linAddr seg off size write : Calm β U32) :=
  self.bind fun _ => check _

end Reads

/-- What reading is made of moves the state along `R`: translations under
paging, bus reads, the decoder's notes and EIP. -/
structure Reading (R : Machine β → Machine β → Prop) : Prop where
  translate : ∀ s : Machine β, s.paging = true → ∀ (lin : U32)
    (write : Bool) q s', (translate lin write).run s = (.ok q, s') → R s s'
  busRead : ∀ a : U32, Reads R (busRead a)
  busRead16 : ∀ a : U32, Reads R (busRead16 a)
  busRead32 : ∀ a : U32, Reads R (busRead32 a)
  note : ∀ (s : Machine β) (ilen : U8) (lockOk : Bool),
    R s (s.withDecode { s.toDecodeState with ilen, lockOk })
  eip : ∀ (s : Machine β)
    (v : U32), R s (s.withHot { s.regs.toHotRegs with eip := v })

namespace Reading

variable {R : Machine β → Machine β → Prop}
  [IsPreorder (Machine β) R] (h : Reading R)

include h

-- ======== loads

/-- A translation under paging, and what is done with it. -/
theorem translating {s : Machine β} (hp : s.paging = true)
    (lin : U32) (write : Bool)
    {f : Translated lin → Calm β α} (hf : ∀ p, Reads R (f p)) {a : α}
    {s' : Machine β}
    (hrun : (X32.translate lin write >>= f).run s = (.ok a, s')) : R s s' := by
  rw [Bounded.run_bind, Fallible.bind_eq_ok] at hrun
  obtain ⟨p, t, hp', hrest⟩ := hrun
  exact trans_of R (h.translate s hp lin write p t hp') (hf p t a s' hrest)

/-- A load may set accessed bits and fill the TLB: memory is all it moves. -/
theorem linRead8 (lin : U32) : Reads R (linRead8 lin : Calm β U8) := by
  intro s a s' hrun
  rw [X32.linRead8, Bounded.run_bind, Fallible.bind_of_ok (run_self s)] at hrun
  by_cases hp : s.paging = true
  · rw [if_neg (by rw [hp]; decide)] at hrun
    exact h.translating hp lin false (fun _ => h.busRead _) hrun
  · rw [if_pos (by simpa using hp)] at hrun
    exact h.busRead _ s a s' hrun

/-- A wide read in one piece, or else in its two halves. -/
theorem wide {w : Nat} {lin lim : U32} {one : U32 → Calm β (BitVec (w + w))}
    {lo hi : Calm β (BitVec w)}
    (hone : ∀ a, Reads R (one a)) (hlo : Reads R lo) (hhi : Reads R hi) :
    Reads R (X32.self >>= fun s : Machine β =>
      if !s.paging then one lin
      else if lin &&& 0xFFF < lim
        then X32.translate lin false >>= fun phys => one phys.val
      else X32.readHalves lo hi) := by
  intro s a s' hrun
  rw [Bounded.run_bind, Fallible.bind_of_ok (run_self s)] at hrun
  by_cases hp : s.paging = true
  · rw [if_neg (by rw [hp]; decide)] at hrun
    split at hrun
    · exact h.translating hp lin false (fun phys => hone phys.val) hrun
    · exact (hlo.readHalves hhi) s a s' hrun
  · rw [if_pos (by simpa using hp)] at hrun
    exact hone lin s a s' hrun

theorem linRead16 (lin : U32) : Reads R (linRead16 lin : Calm β U16) :=
  h.wide h.busRead16 (h.linRead8 _) (h.linRead8 _)

theorem linRead32 (lin : U32) : Reads R (linRead32 lin : Calm β U32) :=
  h.wide h.busRead32 (h.linRead16 _) (h.linRead16 _)

-- ======== fetch

omit [IsPreorder (Machine β) R] in
/-- The bookkeeping of the decoder. -/
theorem noting (n : U8 → U8) (ok : Bool → Bool) :
    Reads R (modifyDecode
      (fun d => { d with ilen := n d.ilen, lockOk := ok d.lockOk }) :
      Calm β Unit) := by
  intro s a s' hrun
  cases hrun
  exact h.note s _ _

omit [IsPreorder (Machine β) R] in
/-- Advancing EIP is part of a fetch. -/
theorem nextEip : Reads R
    (modifyHot (fun r => { r with eip := r.eip + 1 }) : Calm β Unit) := by
  intro s a s' hrun
  cases hrun
  exact h.eip s _

/-- A fetch is a load and an advance. -/
theorem fetch8 : Reads R (fetch8 : Calm β U8) :=
  Reads.self.bind fun _ => (Reads.raiseIf _ _).bind fun _ =>
    (h.noting (· + 1) id).bind fun _ =>
    Reads.self.bind fun _ => (Reads.raiseIf _ _).bind fun _ =>
      (h.linRead8 _).bind fun _ => h.nextEip.bind fun _ =>
    .pure _

theorem fetch16 : Reads R (fetch16 : Calm β U16) :=
  .readHalves h.fetch8 h.fetch8

theorem fetch32 : Reads R (fetch32 : Calm β U32) :=
  .readHalves h.fetch16 h.fetch16

theorem fetchDisp16 (md : U8) : Reads R (fetchDisp16 md : Calm β U16) := by
  unfold X32.fetchDisp16
  split
  · exact .pure _
  split
  · exact .map _ h.fetch8
  · exact h.fetch16

theorem fetchDisp (md : U8) : Reads R (fetchDisp md : Calm β U32) := by
  unfold X32.fetchDisp
  split
  · exact .pure _
  split
  · exact .map _ h.fetch8
  · exact h.fetch32

-- ======== modrm

/-- The operand address: ModRM, SIB and displacement. -/
theorem sibBase (m : ModRm) (base : U8) :
    Reads R (sibBase m base : Calm β (U32 × U8 × Bool)) := by
  unfold X32.sibBase
  split
  · exact h.fetch32.bind fun _ => .pure _
  · exact Reads.self.bind fun _ => .pure _

theorem sib (m : ModRm) : Reads R (sib m : Calm β (U32 × U8)) := by
  refine h.fetch8.bind fun _ => (h.sibBase _ _).bind fun _ =>
    Reads.self.bind fun _ => ?_
  split
  · exact .pure _
  split
  · exact .pure _
  · exact .pure _

theorem eaBase (m : ModRm) : Reads R (eaBase m : Calm β (U32 × U8)) := by
  unfold X32.eaBase
  split
  · exact h.sib _
  · exact Reads.self.bind fun _ => .pure _

theorem ea32 (m : ModRm) : Reads R (ea32 m : Calm β Operand) := by
  unfold X32.ea32
  split
  · exact h.fetch32.bind fun _ => Reads.self.bind fun _ => .pure _
  · exact (h.eaBase _).bind fun _ => (h.fetchDisp _).bind fun _ =>
      Reads.self.bind fun _ => .pure _

theorem ea16 (m : ModRm) : Reads R (ea16 m : Calm β Operand) := by
  unfold X32.ea16
  split
  · exact h.fetch16.bind fun _ => Reads.self.bind fun _ => .pure _
  · exact (h.fetchDisp16 _).bind fun _ => Reads.self.bind fun _ => .pure _

/-- A ModRM byte with its operand. -/
theorem modrm : Reads R (modrm : Calm β (ModRm × Operand)) := by
  refine h.fetch8.bind fun _ => ?_
  dsimp only
  split
  · exact .pure _
  · refine Reads.self.bind fun s => Reads.bind ?_ fun _ => .pure _
    split
    · exact h.ea32 _
    · exact h.ea16 _

/-- A LOCK check reads the record. -/
theorem lockCheck (ok : Bool) : Reads R (lockCheck ok : Calm β Unit) :=
  Reads.self.bind fun _ =>
    .whenever _ ((Reads.raiseIf _ _).bind fun _ => h.noting id fun _ => true)

-- ======== operands

/-- The operand, from its register or from memory. -/
theorem readOp8 (op : Operand) : Reads R (readOp8 op : Calm β U8) := by
  cases op with
  | reg i => exact Reads.self.bind fun _ => .pure _
  | mem seg off => exact (Reads.linAddr _ _ _ _).bind fun _ => h.linRead8 _

theorem readOp16 (op : Operand) : Reads R (readOp16 op : Calm β U16) := by
  cases op with
  | reg i => exact Reads.self.bind fun _ => .pure _
  | mem seg off => exact (Reads.linAddr _ _ _ _).bind fun _ => h.linRead16 _

theorem readOp32 (op : Operand) : Reads R (readOp32 op : Calm β U32) := by
  cases op with
  | reg i => exact Reads.self.bind fun _ => .pure _
  | mem seg off => exact (Reads.linAddr _ _ _ _).bind fun _ => h.linRead32 _

theorem readSized (wide : Bool) (op : Operand) :
    Reads R (readSized wide op : Calm β U32) := by
  cases wide with
  | true => exact h.readOp32 op
  | false => exact .map _ (h.readOp16 op)

theorem readOp (op : Operand) : Reads R (readOp op : Calm β U32) :=
  Reads.self.bind fun _ => h.readSized _ _

end Reading

-- ======== the relation

/-- The same register file and prefixes: what differs is how far the
instruction has been read. -/
structure Unmoved (s s' : Machine β) : Prop where
  regs : s'.regs = { s.regs with eip := s'.regs.eip }
  decode : s'.toDecodeState
    = { s.toDecodeState with ilen := s'.ilen, lockOk := s'.lockOk }

namespace Unmoved

omit [Bus β]

variable {s s' s'' : Machine β}

/-- Registers and notes the same: nothing was moved. -/
theorem of_eq (hr : s'.regs = s.regs)
    (hd : s'.toDecodeState = s.toDecodeState) : Unmoved s s' := by
  refine ⟨?_, ?_⟩
  · rw [hr]
  · rw [hd]

theorem refl (s : Machine β) : Unmoved s s := of_eq rfl rfl

/-- Two runs that move nothing. -/
theorem trans (h : Unmoved s s') (h' : Unmoved s' s'') : Unmoved s s'' := by
  refine ⟨?_, ?_⟩
  · rw [h'.regs, h.regs]
  · rw [h'.decode, h.decode]

/-- What can be read off a machine that has not moved. -/
theorem gpr (h : Unmoved s s') : s'.regs.gpr = s.regs.gpr := by
  rw [h.regs]

theorem seg (h : Unmoved s s') : s'.regs.seg = s.regs.seg := by
  rw [h.regs]

theorem osize32 (h : Unmoved s s') : s'.osize32 = s.osize32 := by
  show s'.toDecodeState.osize32 = s.toDecodeState.osize32
  rw [h.decode]

theorem asize32 (h : Unmoved s s') : s'.asize32 = s.asize32 := by
  show s'.toDecodeState.asize32 = s.toDecodeState.asize32
  rw [h.decode]

end Unmoved

-- ======== nothing is moved

/-- A successful run only reads. -/
def OnlyReads (x : Calm β α) : Prop :=
  ∀ s a s', x.run s = (.ok a, s') → Unmoved s s'

/-- What works on memory alone moves no register. -/
theorem MemOnly.onlyReads {x : Calm β α} (h : MemOnly x) : OnlyReads x := by
  intro s a s' hx
  obtain ⟨hr, hd⟩ := h s a s' hx
  exact .of_eq hr hd

omit [Bus β] in
instance instIsPreorderUnmoved : IsPreorder (Machine β) Unmoved where
  refl := Unmoved.refl
  trans _ _ _ := Unmoved.trans

/-- Readers of memory move no register. -/
theorem reading_unmoved : Reading (Unmoved (β := β)) where
  translate s _ lin write q s' h :=
    (MemOnly.translate lin write).onlyReads s q s' h
  busRead _ := (MemOnly.touchBus _ _).onlyReads
  busRead16 _ := (MemOnly.touchBus _ _).onlyReads
  busRead32 _ := (MemOnly.touchBus _ _).onlyReads
  note _ _ _ := ⟨rfl, rfl⟩
  eip _ _ := ⟨rfl, rfl⟩

namespace OnlyReads

theorem pure (a : α) : OnlyReads (pure a : Calm β α) := Reads.pure a

theorem map {x : Calm β α} (g : α → γ) (hx : OnlyReads x) :
    OnlyReads (g <$> x) := Reads.map g hx

theorem bind {x : Calm β α} {f : α → Calm β γ} (hx : OnlyReads x)
    (hf : ∀ a, OnlyReads (f a)) :
    OnlyReads (x >>= f) := Reads.bind hx hf

theorem self : OnlyReads (self : Calm β (Machine β)) := Reads.self

theorem fetch8 : OnlyReads (fetch8 : Calm β U8) := reading_unmoved.fetch8

theorem fetch16 : OnlyReads (fetch16 : Calm β U16) := reading_unmoved.fetch16

theorem modrm : OnlyReads (modrm : Calm β (ModRm × Operand)) :=
  reading_unmoved.modrm

theorem lockCheck (ok : Bool) : OnlyReads (lockCheck ok : Calm β Unit) :=
  reading_unmoved.lockCheck ok

theorem readOp8 (op : Operand) : OnlyReads (readOp8 op : Calm β U8) :=
  reading_unmoved.readOp8 op

theorem readSized (wide : Bool) (op : Operand) :
    OnlyReads (readSized wide op : Calm β U32) :=
  reading_unmoved.readSized wide op

theorem readOp (op : Operand) : OnlyReads (readOp op : Calm β U32) :=
  reading_unmoved.readOp op

end OnlyReads

end Remu.X32
