/-
What a decode depends on.

Two machines are in `Sync` when their decode states are related, they agree
on the 64-bit flag and the code size, stand at the same offset of the same
instruction bytes, and the second one passes the fetch checks. A
computation is `LockTo` when it keeps them in step: a success on the first
machine that stays within the `n` bytes is matched on the second, with the
same value. The prefix scan starts from decode states that differ in the
sizes the last instruction left (`SameScan`) and ends in equal ones; the
decoder takes it from there (`Lock`). So a record depends on the bytes and
the mode, and on nothing else.
-/
import Remu.X64.Fetch

namespace Remu.X64

variable {π : Type} {α γ : Type}

-- ======== the relation

/-- A relation of decode states that a byte fetch preserves. -/
class Counted (E : DecodeState → DecodeState → Prop) : Prop where
  ilen : ∀ {d d' : DecodeState}, E d d' → d.ilen = d'.ilen
  count : ∀ {d d' : DecodeState} (k : U8), E d d' →
    E { d with ilen := d.ilen + k } { d' with ilen := d'.ilen + k }

/-- A decode state with the effective sizes blanked out. -/
def DecodeState.unsized (d : DecodeState) : DecodeState :=
  { d with osize := O16, asize := O16 }

/-- Equal up to the effective sizes. -/
def DecodeState.SameScan (d d' : DecodeState) : Prop := d.unsized = d'.unsized

/-- A change that the sizes play no part in. -/
theorem DecodeState.SameScan.map {d d' : DecodeState} (h : d.SameScan d')
    {g : DecodeState → DecodeState}
    (hg : ∀ d, (g d).unsized = (g d.unsized).unsized) :
    (g d).SameScan (g d') := by
  unfold SameScan at h ⊢
  rw [hg d, h, ← hg d']

instance : Counted Eq where
  ilen h := congrArg DecodeState.ilen h
  count k h :=
    congrArg (fun d : DecodeState => { d with ilen := d.ilen + k }) h

instance : Counted DecodeState.SameScan where
  ilen {d d'} h := by
    have hi : d.unsized.ilen = d'.unsized.ilen := congrArg DecodeState.ilen h
    exact hi
  count k h := h.map (g := fun d => { d with ilen := d.ilen + k }) fun _ => rfl

/-- What the decoder reads of a state besides instruction bytes. -/
structure SameView (E : DecodeState → DecodeState → Prop)
    (s t : Machine (FlatBus π)) : Prop where
  decode : E s.toDecodeState t.toDecodeState
  m64 : s.m64 = t.m64
  db : (s.regs.seg reg.CS).db = (t.regs.seg reg.CS).db

/-- Two machines at the same place of the same `n` instruction bytes. -/
structure Sync (E : DecodeState → DecodeState → Prop) (code : Nat → U8)
    (start start' : U64)
    (n : Nat) (s t : Machine (FlatBus π)) : Prop extends SameView E s t where
  source : Streams code start n s
  target : Streams code start' n t
  readable : Readable start' n t

/-- Only the decode state and RIP moved. -/
def Quiet {β : Type} (s s' : Machine β) : Prop :=
  s' = (s.withDecode s'.toDecodeState).withHot { s.regs.toHotRegs with rip := s'.regs.rip }

theorem Quiet.refl {β : Type} (s : Machine β) : Quiet s s := rfl

/-- Quiet runs compose. -/
theorem Quiet.trans {β : Type} {s s' s'' : Machine β} (h : Quiet s s')
    (h' : Quiet s' s'') :
    Quiet s s'' := by
  unfold Quiet at h h'
  rw [h] at h'
  exact h'

variable [Ports π] {E E' E'' : DecodeState → DecodeState → Prop}

/-- A computation that keeps machines in step, taking decode states from
`E` to `E'`; on its own stream it moves only RIP and the decode state. -/
structure LockTo (E E' : DecodeState → DecodeState → Prop)
    (x : Calm (FlatBus π) α) : Prop where
  grows : ∀ {s a s'}, x.run s = (.ok a, s') → s.ilen.toNat ≤ s'.ilen.toNat
  short : ∀ {s a s'}, x.run s = (.ok a, s') → s.ilen.toNat ≤ 15 →
    s'.ilen.toNat ≤ 15
  quiet : ∀ {code start n s a s'},
    Streams code start n s → x.run s = (.ok a, s') →
    s'.ilen.toNat ≤ n → Quiet s s' ∧ Streams code start n s'
  sync : ∀ {code start start' n s t a s'}, Sync E code start start' n s t →
    x.run s = (.ok a, s') → s'.ilen.toNat ≤ n →
    ∃ t', x.run t = (.ok a, t') ∧ Sync E' code start start' n s' t'

/-- A computation that keeps equal decode states equal. -/
abbrev Lock (x : Calm (FlatBus π) α) : Prop := LockTo Eq Eq x

-- ======== the rules

namespace LockTo

/-- The rules: what is in lockstep from related states to related states. -/
theorem pure (a : α) : LockTo E E (pure a : Calm (FlatBus π) α) where
  grows := by
    intro s b s' h
    cases h
    exact Nat.le_refl _
  short := by
    intro s b s' h hs
    cases h
    exact hs
  quiet := by
    intro code start n s b s' hs h _
    cases h
    exact ⟨.refl s, hs⟩
  sync := by
    intro code start start' n s t b s' hsync h _
    cases h
    exact ⟨t, rfl, hsync⟩

theorem throw (e : Exception) :
    LockTo E E' (throw e : Calm (FlatBus π) α) where
  grows := by
    intro s b s' h
    cases h
  short := by
    intro s b s' h
    cases h
  quiet := by
    intro code start n s b s' _ h
    cases h
  sync := by
    intro code start start' n s t b s' _ h
    cases h

/-- A sequence, the middle relation handed on. -/
theorem bind {x : Calm (FlatBus π) α} {f : α → Calm (FlatBus π) γ}
    (hx : LockTo E E' x)
    (hf : ∀ a, LockTo E' E'' (f a)) : LockTo E E'' (x >>= f) where
  grows := by
    intro s b s'' h
    rw [Bounded.run_bind, Fallible.bind_eq_ok] at h
    obtain ⟨a, s', h₁, h₂⟩ := h
    exact Nat.le_trans (hx.grows h₁) ((hf a).grows h₂)
  short := by
    intro s b s'' h hs
    rw [Bounded.run_bind, Fallible.bind_eq_ok] at h
    obtain ⟨a, s', h₁, h₂⟩ := h
    exact (hf a).short h₂ (hx.short h₁ hs)
  quiet := by
    intro code start n s b s'' hs h hn
    rw [Bounded.run_bind, Fallible.bind_eq_ok] at h
    obtain ⟨a, s', h₁, h₂⟩ := h
    obtain ⟨hq, hs'⟩ := hx.quiet hs h₁ (Nat.le_trans ((hf a).grows h₂) hn)
    obtain ⟨hq', hs''⟩ := (hf a).quiet hs' h₂ hn
    exact ⟨hq.trans hq', hs''⟩
  sync := by
    intro code start start' n s t b s'' hsync h hn
    rw [Bounded.run_bind, Fallible.bind_eq_ok] at h
    obtain ⟨a, s', h₁, h₂⟩ := h
    obtain ⟨t', ht, hsync'⟩ :=
      hx.sync hsync h₁ (Nat.le_trans ((hf a).grows h₂) hn)
    obtain ⟨t'', ht', hsync''⟩ := (hf a).sync hsync' h₂ hn
    refine ⟨t'', ?_, hsync''⟩
    rw [Bounded.run_bind, Fallible.bind_of_ok ht, ht']

theorem map {x : Calm (FlatBus π) α} (f : α → γ) (hx : LockTo E E' x) :
    LockTo E E' (f <$> x) := by
  rw [← bind_pure_comp]
  exact hx.bind fun _ => .pure _

/-- The same branch is taken on both sides. -/
theorem ite (c : Prop) [Decidable c] {x y : Calm (FlatBus π) α}
    (hx : LockTo E E' x)
    (hy : LockTo E E' y) : LockTo E E' (if c then x else y) := by
  split
  · exact hx
  · exact hy

theorem raiseIf (c : Prop) [Decidable c] (e : Exception) :
    LockTo E E (raiseIf c e : Calm (FlatBus π) Unit) :=
      .ite c (.throw e) (.pure ())

/-- Reading the state is in step when only the view is used of it. -/
theorem self {f : Machine (FlatBus π) → Calm (FlatBus π) α}
    (hview : ∀ s t, SameView E s t → f s = f t) (hf : ∀ s, LockTo E E' (f s)) :
    LockTo E E' (self >>= f) where
  grows := by
    intro s b s' h
    exact (hf s).grows h
  short := by
    intro s b s' h
    exact (hf s).short h
  quiet := by
    intro code start n s b s' hs h
    exact (hf s).quiet hs h
  sync := by
    intro code start start' n s t b s' hsync h hn
    obtain ⟨t', ht, hsync'⟩ := (hf s).sync hsync h hn
    refine ⟨t', ?_, hsync'⟩
    rw [hview s t hsync.toSameView] at ht
    exact ht

/-- Replacing the decode state by what the view decides of it. -/
theorem redecode {g : Machine (FlatBus π) → DecodeState}
    (hg : ∀ s, (g s).ilen = s.ilen)
    (hE : ∀ {s t}, SameView E s t → E' (g s) (g t)) :
    LockTo E E' (Remu.X64.self >>= fun s => Remu.X64.modifyDecode fun _ => g s) where
  grows := by
    intro s b s' h
    cases h
    exact Nat.le_of_eq (congrArg BitVec.toNat (hg s).symm)
  short := by
    intro s b s' h hs
    cases h
    exact (congrArg BitVec.toNat (hg s)).trans_le hs
  quiet := by
    intro code start n s b s' hs h _
    cases h
    exact ⟨rfl, hs.withDecode (hg s)⟩
  sync := by
    intro code start start' n s t b s' hsync h _
    cases h
    exact ⟨_, rfl, ⟨hE hsync.toSameView, hsync.m64, hsync.db⟩,
      hsync.source.withDecode (hg s), hsync.target.withDecode (hg t),
      ⟨hsync.readable.short, hsync.readable.ok⟩⟩

/-- A change of the decode state that keeps the length counter. -/
theorem modifyDecode {g : DecodeState → DecodeState}
    (hg : ∀ d, (g d).ilen = d.ilen) (hE : ∀ {d d'}, E d d' → E' (g d) (g d')) :
    LockTo E E' (modifyDecode g : Calm (FlatBus π) Unit) :=
  redecode (g := fun s => g s.toDecodeState) (fun s => hg s.toDecodeState)
    fun h => hE h.decode

end LockTo

/-- Fetches are in step. -/
theorem Fetches.lock [Counted E] {k : Nat} {x : Calm (FlatBus π) α}
    {v : (Nat → U8) → α} (h : Fetches k x v) : LockTo E E x where
  grows := by
    intro s a s' hrun
    have := h.length hrun
    omega
  short := h.short
  quiet := by
    intro code start n s a s' hs hrun hn
    have hlen := h.length hrun
    have hi := s'.ilen.isLt
    obtain ⟨rfl, rfl⟩ := h.sound hs hrun (by omega)
    exact ⟨rfl, hs.advance (by omega)⟩
  sync := by
    intro code start start' n s t a s' hsync hrun hn
    have hlen := h.length hrun
    have hpos : s.ilen = t.ilen := Counted.ilen hsync.decode
    have hshort := hsync.readable.short
    obtain ⟨rfl, rfl⟩ := h.sound hsync.source hrun (by omega)
    have ht := h.complete hsync.target hsync.readable (by rw [← hpos]; omega)
    rw [← hpos] at ht
    refine ⟨t.advance k, ht, ⟨?_, hsync.m64, hsync.db⟩, ?_, ?_, ?_⟩
    · exact Counted.count (BitVec.ofNat 8 k) hsync.decode
    · exact hsync.source.advance (by omega)
    · exact hsync.target.advance (by rw [← hpos]; omega)
    · exact hsync.readable.advance k

-- ======== the immediates

/-- A fetched byte is the byte of the code, so both machines see the same. -/
theorem lock_fetch8 : Lock (fetch8 : Calm (FlatBus π) U8) :=
  fetches_fetch8.lock
theorem lock_fetch16 : Lock (fetch16 : Calm (FlatBus π) U16) :=
  fetches_fetch16.lock
theorem lock_fetch32 : Lock (fetch32 : Calm (FlatBus π) U32) :=
  fetches_fetch32.lock
theorem lock_fetch64 : Lock (fetch64 : Calm (FlatBus π) U64) :=
  fetches_fetch64.lock

theorem lock_fetchSimm8 : Lock (fetchSimm8 : Calm (FlatBus π) U64) :=
  lock_fetch8.map _

theorem lock_fetchByteImm : Lock (fetchByteImm : Calm (FlatBus π) U64) :=
  lock_fetch8.map _

/-- Immediates, by operand size. -/
theorem lock_fetchImmAt (z : OpSize) :
    Lock (fetchImmAt z : Calm (FlatBus π) U64) := by
  cases z
  · exact lock_fetch16.map _
  · exact lock_fetch32.map _
  · exact lock_fetch32.map _

theorem lock_fetchImm : Lock (fetchImm : Calm (FlatBus π) U64) :=
  .self (fun s t h => by simp only [h.decode]) fun _ => lock_fetchImmAt _

theorem lock_fetchImmFull : Lock (fetchImmFull : Calm (FlatBus π) U64) := by
  refine .self (fun s t h => by simp only [h.decode]) fun s => ?_
  split
  · exact lock_fetch16.map _
  · exact lock_fetch32.map _
  · exact lock_fetch64

theorem lock_fetchRelAt (z : OpSize) :
    Lock (fetchRelAt z : Calm (FlatBus π) U64) :=
  .ite _ (lock_fetch16.map _) (lock_fetch32.map _)

theorem lock_fetchDisp16 (md : U8) :
    Lock (fetchDisp16 md : Calm (FlatBus π) U16) :=
  .ite _ (.pure _) (.ite _ (lock_fetch8.map _) lock_fetch16)

theorem lock_fetchDisp32 (md : U8) :
    Lock (fetchDisp32 md : Calm (FlatBus π) U32) :=
  .ite _ (.pure _) (.ite _ (lock_fetch8.map _) lock_fetch32)

-- ======== the view

section View

variable {s t : Machine (FlatBus π)} (h : SameView Eq s t)
include h

omit [Ports π]

/-- What the decoder reads of a machine is the same in two views; one lemma for
each thing it reads. -/
theorem SameView.segOr (d : U8) : s.segOr d = t.segOr d := by
  simp only [Cpu.segOr, h.decode]

theorem SameView.rexR : s.rexR = t.rexR := by simp only [Cpu.rexR, h.decode]

theorem SameView.rexX : s.rexX = t.rexX := by simp only [Cpu.rexX, h.decode]

theorem SameView.rexB : s.rexB = t.rexB := by simp only [Cpu.rexB, h.decode]

theorem SameView.blank :
    s.blank = t.blank := by simp only [Cpu.blank, h.decode]

/-- Two views start the decoder from the same record. -/
theorem SameView.record (op : Op) (aux : U8) (wb : Bool) :
    s.record op aux wb = t.record op aux wb := by
  simp only [Cpu.record, h.blank]

theorem SameView.opcodeReg (opcode : U8) :
    s.opcodeReg opcode = t.opcodeReg opcode := by
  simp only [Cpu.opcodeReg, h.rexB]

theorem SameView.stackOsize : s.stackOsize = t.stackOsize := by
  simp only [Cpu.stackOsize, Cpu.rexW, h.decode, h.m64]
  rfl

theorem SameView.branchOsize : s.branchOsize = t.branchOsize := by
  simp only [Cpu.branchOsize, h.decode, h.m64]

end View

-- ======== the decoder

/-- The decoder, function by function as the source has them. -/
theorem lock_ea16Formula (m : ModRm) (d : DecodedInsn) :
    Lock (ea16Formula m d : Calm (FlatBus π) DecodedInsn) :=
  .ite _
    (lock_fetch16.bind fun _ => .self (fun s t h => by rw [h.segOr])
      fun _ => .pure _)
    ((lock_fetchDisp16 _).bind fun _ => .self (fun s t h => by rw [h.segOr])
      fun _ => .pure _)

theorem lock_sibBaseFormula (m : ModRm) (base3 : U8) (d : DecodedInsn) :
    Lock (sibBaseFormula m base3 d : Calm (FlatBus π) _) :=
  .ite _ (lock_fetch32.bind fun _ => .pure _) (.pure _)

theorem lock_sibFormula (m : ModRm) (d : DecodedInsn) :
    Lock (sibFormula m d : Calm (FlatBus π) _) :=
  lock_fetch8.bind fun _ => .self (fun s t h => by rw [h.rexX]) fun _ =>
    (lock_sibBaseFormula _ _ _).bind fun _ => .pure _

theorem lock_disp32Formula (d : DecodedInsn) :
    Lock (disp32Formula d : Calm (FlatBus π) _) :=
  lock_fetch32.bind fun _ =>
    .self (fun s t h => by rw [h.segOr, h.m64]) fun _ => .pure _

theorem lock_eaBaseFormula (m : ModRm) (d : DecodedInsn) :
    Lock (eaBaseFormula m d : Calm (FlatBus π) _) :=
  .ite _ (lock_sibFormula _ _) (.pure _)

theorem lock_eaWideFormula (m : ModRm) (d : DecodedInsn) :
    Lock (eaWideFormula m d : Calm (FlatBus π) _) :=
  .ite _ (lock_disp32Formula _)
    ((lock_eaBaseFormula _ _).bind fun _ => (lock_fetchDisp32 _).bind fun _ =>
      .self (fun s t h => by rw [h.segOr]) fun _ => .pure _)

theorem lock_eaFormula (m : ModRm) (d : DecodedInsn) :
    Lock (eaFormula m d : Calm (FlatBus π) _) := by
  refine .self (fun s t h => by simp only [h.decode]) fun s => ?_
  split
  · exact lock_ea16Formula _ _
  · exact lock_eaWideFormula _ _

/-- ModRM, SIB and displacement. -/
theorem lock_decodeModrm (d : DecodedInsn) :
    Lock (decodeModrm d : Calm (FlatBus π) _) :=
  lock_fetch8.bind fun _ =>
    .self (fun s t h => by simp only [h.rexR, h.rexB]) fun _ =>
    .ite _ (.pure _) ((lock_eaFormula _ _).bind fun _ => .pure _)

theorem lock_decodeRm (op : Op) (aux : U8) (wb : Bool) :
    Lock (decodeRm op aux wb : Calm (FlatBus π) _) :=
  .self (fun s t h => by rw [h.record]) fun _ => lock_decodeModrm _

theorem lock_decodeRmOnly (op : Op) (aux : U8) (wb : Bool) :
    Lock (decodeRmOnly op aux wb : Calm (FlatBus π) _) :=
  (lock_decodeRm _ _ _).bind fun _ => .pure _

theorem lock_decodeImm (op : Op) (aux : U8) (wb : Bool)
    {imm : Calm (FlatBus π) U64}
    (himm : Lock imm) : Lock (decodeImm op aux wb imm) :=
  .self (fun s t h => by simp only [h.record]) fun _ =>
    himm.bind fun _ => .pure _

theorem lock_decodeGrpImm (op : Op)
    {imm : Calm (FlatBus π) U64} (himm : Lock imm) :
    Lock (decodeGrpImm op imm) :=
  (lock_decodeRm _ _ _).bind fun _ => himm.bind fun _ => .pure _

theorem lock_decodeMovImm (op : Op)
    {imm : Calm (FlatBus π) U64} (himm : Lock imm) :
    Lock (decodeMovImm op imm) :=
  (lock_decodeRm _ _ _).bind fun _ => (LockTo.raiseIf _ _).bind fun _ =>
    himm.bind fun _ => .pure _

theorem lock_decodeShift (op : Op) (byCl : Bool)
    {imm : Calm (FlatBus π) U64} (himm : Lock imm) :
    Lock (decodeShift op byCl imm) :=
  (lock_decodeRm _ _ _).bind fun _ => himm.bind fun _ => .pure _

theorem lock_decodeRegImm (op : Op) (opcode : U8)
    {imm : Calm (FlatBus π) U64} (himm : Lock imm) :
    Lock (decodeRegImm op opcode imm) :=
  .self (fun s t h => by simp only [h.record, h.opcodeReg]) fun _ =>
    himm.bind fun _ => .pure _

theorem lock_decodeStackReg (op : Op) (opcode : U8) :
    Lock (decodeStackReg op opcode : Calm (FlatBus π) _) :=
  .self (fun s t h => by rw [h.record, h.opcodeReg, h.stackOsize]) fun _ => .pure _

theorem lock_decodePushImm (opcode : U8) :
    Lock (decodePushImm opcode : Calm (FlatBus π) _) :=
  .self (fun s t h => by simp only [h.record, h.stackOsize]) fun _ =>
    (LockTo.ite _ (lock_fetchImmAt _) lock_fetchSimm8).bind fun _ => .pure _

theorem lock_decodeBranch (op : Op) (aux : U8)
    {rel : OpSize → Calm (FlatBus π) U64}
    (hrel : ∀ z, Lock (rel z)) : Lock (decodeBranch op aux rel) :=
  .self (fun s t h => by simp only [h.record, h.branchOsize]) fun _ =>
    (hrel _).bind fun _ => .pure _

theorem lock_decodeLea : Lock (decodeLea : Calm (FlatBus π) _) :=
  (lock_decodeRm _ _ _).bind fun _ =>
    (LockTo.raiseIf _ _).bind fun _ => .pure _

theorem lock_decodeXchgAcc (opcode : U8) :
    Lock (decodeXchgAcc opcode : Calm (FlatBus π) _) :=
  .self (fun s t h => by simp only [h.rexB, h.record, h.opcodeReg]) fun _ =>
    .ite _ (.pure _) (.pure _)

theorem lock_decodeIncDec (opcode : U8) :
    Lock (decodeIncDec opcode : Calm (FlatBus π) _) :=
  .self (fun s t h => by rw [h.record]) fun _ => .pure _

theorem lock_decodeGroup4 : Lock (decodeGroup4 : Calm (FlatBus π) _) :=
  (lock_decodeRm _ _ _).bind fun _ =>
    (LockTo.raiseIf _ _).bind fun _ => .pure _

theorem lock_decodeGroup5 : Lock (decodeGroup5 : Calm (FlatBus π) _) :=
  .self (fun s t h => by simp only [h.blank]) fun _ =>
    (lock_decodeModrm _).bind fun _ =>
    .self (fun s t h => by simp only [h.branchOsize, h.stackOsize])
      fun _ => .pure _

theorem lock_decodeAlu (opcode : U8) :
    Lock (decodeAlu opcode : Calm (FlatBus π) _) :=
  .ite _ (lock_decodeRmOnly _ _ _) <| .ite _ (lock_decodeRmOnly _ _ _) <|
  .ite _ (lock_decodeRmOnly _ _ _) <| .ite _ (lock_decodeRmOnly _ _ _) <|
  .ite _ (lock_decodeImm _ _ _ lock_fetchByteImm) <|
  .ite _ (lock_decodeImm _ _ _ lock_fetchImm) (.pure _)

theorem lock_decodeImulImm {imm : Calm (FlatBus π) U64} (himm : Lock imm) :
    Lock (decode40.decodeImulImm imm) :=
  (lock_decodeRm _ _ _).bind fun _ => himm.bind fun _ => .pure _

theorem lock_decode40 (opcode : U8) :
    Lock (decode40 opcode : Calm (FlatBus π) _) :=
  .ite _ (lock_decodeIncDec _) <| .ite _ (lock_decodeStackReg _ _) <|
  .ite _ (lock_decodeStackReg _ _) <|
  .ite _ (.self (fun s t h => by rw [h.m64]) fun _ =>
    .ite _ (lock_decodeRmOnly _ _ _) (.pure _)) <|
  .ite _ (lock_decodePushImm _) <| .ite _ (lock_decodeImulImm lock_fetchImm) <|
  .ite _ (lock_decodeImulImm lock_fetchSimm8) <|
  .ite _ (lock_decodeBranch _ _ fun _ => lock_fetchSimm8) (.pure _)

theorem lock_decode80 (opcode : U8) :
    Lock (decode80 opcode : Calm (FlatBus π) _) :=
  .ite _ (.self (fun s t h => by rw [h.m64]) fun _ =>
    (LockTo.raiseIf _ _).bind fun _ =>
      lock_decodeGrpImm _ lock_fetchByteImm) <|
  .ite _ (lock_decodeGrpImm _ lock_fetchImm) <|
  .ite _ (lock_decodeGrpImm _ lock_fetchSimm8) <|
  .ite _ (lock_decodeRmOnly _ _ _) <| .ite _ (lock_decodeRmOnly _ _ _) <|
  .ite _ (lock_decodeRmOnly _ _ _) <| .ite _ (lock_decodeRmOnly _ _ _) <|
  .ite _ (lock_decodeRmOnly _ _ _) <| .ite _ (lock_decodeRmOnly _ _ _) <|
  .ite _ (lock_decodeRmOnly _ _ _) <| .ite _ (lock_decodeRmOnly _ _ _) <|
  .ite _ lock_decodeLea <| .ite _ (lock_decodeXchgAcc _) <|
  .ite _ (lock_decodeImm _ _ _ lock_fetchByteImm) <|
  .ite _ (lock_decodeImm _ _ _ lock_fetchImm) <|
  .ite _ (lock_decodeRegImm _ _ lock_fetchByteImm) <|
  .ite _ (lock_decodeRegImm _ _ lock_fetchImmFull) (.pure _)

theorem lock_decodeC0 (opcode : U8) :
    Lock (decodeC0 opcode : Calm (FlatBus π) _) :=
  .ite _ (lock_decodeShift _ _ lock_fetchByteImm) <|
  .ite _ (lock_decodeShift _ _ lock_fetchByteImm) <|
  .ite _ (lock_decodeShift _ _ (.pure _)) <|
  .ite _ (lock_decodeShift _ _ (.pure _)) <|
  .ite _ (lock_decodeShift _ _ (.pure _)) <|
  .ite _ (lock_decodeShift _ _ (.pure _)) <|
  .ite _ (lock_decodeBranch _ _ fun _ => lock_fetch16.map _) <|
  .ite _ (lock_decodeBranch _ _ fun _ => .pure _) <|
  .ite _ (lock_decodeMovImm _ lock_fetchByteImm) <|
  .ite _ (lock_decodeMovImm _ lock_fetchImm) <|
  .ite _ (lock_decodeBranch _ _ lock_fetchRelAt) <|
  .ite _ (lock_decodeBranch _ _ lock_fetchRelAt) <|
  .ite _ (lock_decodeBranch _ _ fun _ => lock_fetchSimm8) <|
  .ite _ lock_decodeGroup4 <| .ite _ lock_decodeGroup5 (.pure _)

/-- The two-byte opcodes. -/
theorem lock_decode0F (op2 : U8) : Lock (decode0F op2 : Calm (FlatBus π) _) :=
  .ite _ (lock_decodeBranch _ _ lock_fetchRelAt) <|
  .ite _ (lock_decodeRmOnly _ _ _) <| .ite _ (lock_decodeRmOnly _ _ _) <|
  .ite _ (lock_decodeRmOnly _ _ _) <| .ite _ (lock_decodeRmOnly _ _ _) <|
  .ite _ (lock_decodeRmOnly _ _ _) <| .ite _ (lock_decodeRmOnly _ _ _) <|
  .ite _ (lock_decodeRmOnly _ _ _) (.pure _)

/-- The whole table. -/
theorem lock_decodeOp (opcode : U8) :
    Lock (decodeOp opcode : Calm (FlatBus π) _) :=
  .ite _ (lock_fetch8.bind lock_decode0F) <| .ite _ (lock_decodeAlu _) <|
  .ite _ (lock_decode40 _) <| .ite _ (lock_decode80 _) (lock_decodeC0 _)

-- ======== the prefixes

/-- The prefixes: one more byte, one more note. -/
theorem lock_scanLoop [Counted E] (hE : ∀ {d d'} (b : U8), E d d' →
      E { d with rex := some b } { d' with rex := some b }
        ∧ E (d.notePrefix b) (d'.notePrefix b))
    (fuel : Nat) (p66 p67 : Bool) (npfx : U32) :
    LockTo E E (scanLoop fuel p66 p67 npfx : Calm (FlatBus π) _) := by
  induction fuel generalizing p66 p67 npfx with
  | zero => exact .throw _
  | succ fuel ih =>
    refine (fetches_fetch8.lock).bind fun b =>
      .self (fun s t h => by rw [h.m64]) fun s =>
      .ite _ ?_ (.ite _ ?_ (.pure _))
    · exact (LockTo.modifyDecode (g := fun d => { d with rex := some b })
        (fun _ => rfl)
        fun h => (hE b h).1).bind fun _ => ih _ _ _
    · exact (LockTo.modifyDecode (g := (·.notePrefix b)) (fun _ => rfl)
        fun h => (hE b h).2).bind fun _ => ih _ _ _

omit [Ports π] in
/-- The scan sets both sizes, so what they were does not matter. -/
theorem SameView.resolveSizes {s t : Machine (FlatBus π)}
    (h : SameView DecodeState.SameScan s t) (p66 p67 : Bool) :
    s.resolveSizes p66 p67 = t.resolveSizes p66 p67 := by
  have hd : s.unsized = t.unsized := h.decode
  simp only [DecodeState.unsized, DecodeState.mk.injEq, true_and] at hd
  simp only [Cpu.resolveSizes, Cpu.rexW, h.m64, h.db, hd]
  rfl

/-- A prefix scan makes the notes of two machines the same. -/
theorem lock_scanPrefixes :
    LockTo DecodeState.SameScan Eq
      (scanPrefixes : Calm (FlatBus π) (U8 × U32)) := by
  refine (lock_scanLoop (fun b h => ⟨?_, ?_⟩) _ _ _ _).bind fun p => ?_
  · exact h.map (g := fun d => { d with rex := some b }) fun _ => rfl
  · exact h.map (g := (·.notePrefix b)) fun _ => rfl
  · refine (LockTo.redecode (g := fun s => s.resolveSizes p.p66 p.p67)
      (fun s => ?_) fun h =>
      h.resolveSizes _ _).bind fun _ => .pure (p.opcode, p.npfx)
    unfold Cpu.resolveSizes
    split <;> rfl

end Remu.X64
