/-
What decode-ahead finds.

A record of the hot subset names registers that exist, its selectors are in
range, and it carries the size of its operands; where there was no prefix
that is the code segment's. EIP is where the record ends (`Amid`), so the
records of a block stand one behind the other (`Lowered`).
-/
import Remu.X32.Reading
import Remu.X32.Translate

namespace Remu.X32

open Fallible (Under)

variable {β : Type} [Bus β] {α γ : Type}

-- ======== amid an instruction

/-- The operand size is `w`, the segments are `S`, and EIP has passed the
bytes read since `e`. -/
structure Amid (w : Bool) (S : U8 → SegReg) (e : U32) (s : Machine β) :
    Prop where
  size : s.osize32 = w
  seg : s.regs.seg = S
  eip : s.regs.eip = e + s.ilen.setWidth 32

/-- Amid an instruction a computation returns what has `P`, and stays amid
it. -/
def Finds (w : Bool) (S : U8 → SegReg) (e : U32) (P : α → Prop)
    (x : Calm β α) : Prop := Under (Amid w S e) P x.run

theorem MemOnly.linRead8 (lin : U32) : MemOnly (linRead8 lin : Calm β U8) := by
  refine MemOnly.self.bind fun s => ?_
  split
  · exact .touchBus _ _
  · exact (MemOnly.translate _ _).bind fun _ => .touchBus _ _

/-- The bytes of an instruction are counted as EIP passes them. -/
theorem run_fetch8 {s s' : Machine β} {b : U8}
    (h : fetch8.run s = (.ok b, s')) :
    s'.regs.eip = s.regs.eip + 1 ∧ s'.ilen = s.ilen + 1 ∧ s.ilen < 15 := by
  rw [fetch8, Bounded.run_bind, Fallible.bind_of_ok (run_self s),
    Bounded.run_bind, Fallible.bind_eq_ok] at h
  obtain ⟨_, s₁, hlen, h⟩ := h
  obtain ⟨hlen, rfl⟩ := run_raiseIf_ok hlen
  rw [Bounded.run_bind, Fallible.bind_of_ok (run_modifyDecode _ _),
    Bounded.run_bind, Fallible.bind_of_ok (run_self _), Bounded.run_bind,
    Fallible.bind_eq_ok] at h
  obtain ⟨_, s₂, hok, h⟩ := h
  obtain ⟨-, rfl⟩ := run_raiseIf_ok hok
  rw [Bounded.run_bind, Fallible.bind_eq_ok] at h
  obtain ⟨b', s₃, hread, h⟩ := h
  obtain ⟨hregs, hdecode⟩ := MemOnly.linRead8 _ _ _ _ hread
  cases h
  refine ⟨?_, ?_, BitVec.not_le.1 hlen⟩
  · show s₃.regs.eip + 1 = _
    rw [hregs]
    rfl
  · show s₃.toDecodeState.ilen = _
    rw [hdecode]
    rfl

/-- A fetched byte leaves the decoder amid the same instruction. -/
theorem Amid.fetch8 {w : Bool} {S : U8 → SegReg} {e : U32} {s s' : Machine β}
    {b : U8} (hs : Amid w S e s)
    (h : fetch8.run s = (.ok b, s')) : Amid w S e s' := by
  have hsame := OnlyReads.fetch8 s b s' h
  obtain ⟨heip, hilen, hlt⟩ := run_fetch8 h
  have hwide : (s.ilen + 1).setWidth 32 = s.ilen.setWidth 32 + 1 := by
    bv_omega
  refine ⟨hsame.osize32.trans hs.size, hsame.seg.trans hs.seg, ?_⟩
  rw [heip, hs.eip, hilen, hwide, BitVec.add_assoc]

namespace Finds

variable {w : Bool} {S : U8 → SegReg} {e : U32} {P : α → Prop}

/-- The rules of what a decoding step finds. -/
theorem pure {a : α} (h : P a) : Finds w S e P (pure a : Calm β α) :=
  Under.pure h

theorem self : Finds w S e (Amid w S e) (self : Calm β (Machine β)) := Under.get

/-- What the first part finds the second may use. -/
theorem bind {Q : γ → Prop} {x : Calm β α} {f : α → Calm β γ}
    (hx : Finds w S e P x)
    (hf : ∀ a, P a → Finds w S e Q (f a)) : Finds w S e Q (x >>= f) :=
      Under.bind hx hf

theorem map {Q : γ → Prop} {x : Calm β α} {g : α → γ} (hx : Finds w S e P x)
    (h : ∀ a, P a → Q (g a)) :
    Finds w S e Q (g <$> x) := Under.map hx h

/-- A decoder that goes on has not met the condition. -/
theorem raiseIf (c : Prop) [Decidable c] (exc : Exception) :
    Finds w S e (fun _ => ¬ c) (raiseIf c exc : Calm β Unit) := by
  intro s u s' hs h
  obtain ⟨hc, rfl⟩ := run_raiseIf_ok h
  exact ⟨hc, hs⟩

theorem fetch8 : Finds w S e (fun _ => True) (fetch8 : Calm β U8) :=
  fun _ _ _ hs h => ⟨trivial, hs.fetch8 h⟩

/-- A fetch that crosses a page. -/
theorem readHalves {n : Nat} {lo hi : Calm β (BitVec n)}
    (hlo : Finds w S e (fun _ => True) lo)
    (hhi : Finds w S e (fun _ => True) hi) :
    Finds w S e (fun _ => True) (readHalves lo hi) :=
  hlo.bind fun _ _ => hhi.bind fun _ _ => pure trivial

/-- The immediates; nothing is said of their value. -/
theorem fetch16 : Finds w S e (fun _ => True) (fetch16 : Calm β U16) :=
  .readHalves fetch8 fetch8

theorem fetch32 : Finds w S e (fun _ => True) (fetch32 : Calm β U32) :=
  .readHalves fetch16 fetch16

theorem fetchSimm8 : Finds w S e (fun _ => True) (fetchSimm8 : Calm β U32) :=
  fetch8.map fun _ _ => trivial

theorem fetchByteImm : Finds w S e (fun _ => True)
    (fetchByteImm : Calm β U32) := fetch8.map fun _ _ => trivial

theorem fetchImm : Finds w S e (fun _ => True) (fetchImm : Calm β U32) := by
  refine self.bind fun s _ => ?_
  split
  · exact fetch32
  · exact fetch16.map fun _ _ => trivial

theorem fetchRel : Finds w S e (fun _ => True) (fetchRel : Calm β U32) := by
  refine self.bind fun s _ => ?_
  split
  · exact fetch32
  · exact fetch16.map fun _ _ => trivial

theorem fetchDisp16 (md : U8) :
    Finds w S e (fun _ => True) (fetchDisp16 md : Calm β U16) := by
  unfold X32.fetchDisp16
  split
  · exact pure trivial
  split
  · exact fetch8.map fun _ _ => trivial
  · exact fetch16

theorem fetchDisp (md : U8) :
    Finds w S e (fun _ => True) (fetchDisp md : Calm β U32) := by
  unfold X32.fetchDisp
  split
  · exact pure trivial
  split
  · exact fetchSimm8
  · exact fetch32

end Finds

-- ======== the operands

/-- What reading the operands leaves of a record: the address formula is
its own, and the operand named by `base` exists where it is a register. -/
structure Resolved (d d' : DecodedInsn) : Prop where
  op : d'.op = d.op
  aux : d'.aux = d.aux
  wb : d'.wb = d.wb
  osize32 : d'.osize32 = d.osize32
  reg : d'.reg < 8
  base : d'.kind = .reg → d'.base < 8

/-- Only the address formula is written. -/
def Formula (d d' : DecodedInsn) : Prop :=
  d' = { d with base := d'.base, index := d'.index, segscale := d'.segscale, disp := d'.disp }

omit [Bus β] in
/-- Building an operand only fills in its formula. -/
theorem Formula.trans {d d' d'' : DecodedInsn} (h : Formula d d')
    (h' : Formula d' d'') : Formula d d'' := by
  rw [Formula] at h h' ⊢
  rw [h', h]

/-- The fields of a ModRM byte are register numbers. -/
theorem byte_field (b : U8) : b &&& 7 < 8 ∧ (b >>> 3) &&& 7 < 8 := by
  have hmask : ∀ x : U8,
    (x &&& 7).toNat = x.toNat % 8 :=
    fun x => Word.toNat_and_mask x 3 (by decide)
  rw [BitVec.lt_def, BitVec.lt_def, hmask, hmask]
  exact ⟨Nat.mod_lt _ (by decide), Nat.mod_lt _ (by decide)⟩

/-- The kind is two bits of the flags byte, apart from the others. -/
theorem setKind_flags (d : DecodedInsn) (k : OpKind) :
    (d.setKind k).kind = k ∧ (d.setKind k).wb = d.wb
      ∧ (d.setKind k).osize32 = d.osize32 := by
  have hall : ∀ (f : U8) (k : OpKind),
      let g := (f &&& ~~~((3 : U8) <<< 3)) ||| (DecodedInsn.kindBits k <<< 3)
      ((if (g >>> 3) &&& 3 = 0 then OpKind.none else if (g >>> 3) &&& 3 = 1
        then .reg else .mem) = k)
        ∧ (g &&& (1 <<< 2) != 0) = (f &&& (1 <<< 2) != 0)
        ∧ (g &&& 1 != 0) = (f &&& 1 != 0) := by
    intro f k
    cases k <;> revert f <;> decide
  exact hall d.flags k

namespace Finds

variable {w : Bool} {S : U8 → SegReg} {e : U32}

/-- The operand forms. -/
theorem ea16Formula (m : ModRm) (d : DecodedInsn) :
    Finds w S e (Formula d) (ea16Formula m d : Calm β DecodedInsn) := by
  unfold X32.ea16Formula
  split
  · exact fetch16.bind fun _ _ => self.bind fun _ _ => pure rfl
  · exact (fetchDisp16 _).bind fun _ _ => self.bind fun _ _ => pure rfl

theorem sibFormula (m : ModRm) (d : DecodedInsn) :
    Finds w S e (fun p => Formula d p.2)
      (sibFormula m d : Calm β (U8 × DecodedInsn)) := by
  refine fetch8.bind fun sib _ =>
    bind (P := fun q => Formula d q.2.2) ?_ fun q hq => ?_
  · unfold sibBaseFormula
    split
    · exact fetch32.bind fun _ _ => pure rfl
    · exact pure rfl
  · dsimp only
    refine pure ?_
    split
    · exact hq.trans rfl
    split
    · exact hq.trans rfl
    · exact hq

theorem ea32Formula (m : ModRm) (d : DecodedInsn) :
    Finds w S e (Formula d) (ea32Formula m d : Calm β DecodedInsn) := by
  unfold X32.ea32Formula
  split
  · exact fetch32.bind fun _ _ => self.bind fun _ _ => pure rfl
  · refine bind (P := fun q => Formula d q.2) ?_ fun q hq => (fetchDisp _).bind
      fun _ _ => self.bind fun _ _ => ?_
    · unfold eaBaseFormula
      split
      · exact sibFormula m d
      · exact pure rfl
    · exact pure (hq.trans rfl)

/-- A decoded operand is a register below 8 or a formula. -/
theorem decodeModrm (d : DecodedInsn) :
    Finds w S e (fun p => p.1 = p.2.reg ∧ Resolved d p.2)
    (decodeModrm d : Calm β (U8 × DecodedInsn)) := by
  refine fetch8.bind fun byte _ => ?_
  dsimp only
  split
  case isTrue =>
    obtain ⟨hkind, hwb, hsize⟩ := setKind_flags d .reg
    exact pure ⟨rfl, rfl, rfl, hwb, hsize, (byte_field byte).2,
      fun _ => (byte_field byte).1⟩
  case isFalse =>
    refine self.bind fun s _ =>
      bind (P := Formula ({ d with reg := (byte >>> 3) &&& 7 }.setKind .mem))
        ?_ fun d' hd' => ?_
    · split
      · exact ea32Formula _ _
      · exact ea16Formula _ _
    · have hflags :
        d'.flags = ({ d with reg := (byte >>> 3) &&& 7 }.setKind .mem).flags :=
        congrArg (·.flags) hd'
      obtain ⟨hkind, hwb, hsize⟩ := setKind_flags d .mem
      have hmem : d'.kind = .mem := by
        rw [DecodedInsn.kind, hflags]
        exact hkind
      have hreg : d'.reg = (byte >>> 3) &&& 7 := congrArg (·.reg) hd'
      refine pure ⟨hreg.symm, congrArg (·.op) hd', congrArg (·.aux) hd',
        ?_, ?_, ?_, ?_⟩
      · show (d'.flags &&& (1 <<< 2) != 0) = _
        rw [hflags]
        exact hwb
      · show (d'.flags &&& 1 != 0) = _
        rw [hflags]
        exact hsize
      · rw [hreg]
        exact (byte_field byte).2
      · intro hk
        rw [hmem] at hk
        cases hk

end Finds

-- ======== the records

/-- CMP and TEST do not write their result, and nothing else. -/
structure WritesBack (aluop : U8) (wb : Bool) : Prop where
  lt : aluop < 8
  cmp : aluop = 7 → wb = false
  test : wb = false → aluop = 4 ∨ aluop = 7

/-- The selectors of the ALU and the condition codes are in range. -/
structure InRange (op : Op) (aux : U8) (wb : Bool) : Prop where
  alu : op ∈ [Op.AluRmRW, .AluRRmW, .AluAccImmW, .AluGrpImmW] →
    WritesBack aux wb
  jcc : op = .Jcc → aux < 16

/-- A record of operand size `w` whose registers exist. -/
structure Fit (w : Bool) (d : DecodedInsn) : Prop where
  osize32 : d.osize32 = w
  reg : d.reg < 8
  base : d.kind = .reg → d.base < 8
  range : InRange d.op d.aux d.wb

/-- Hot records fit. -/
def Fits (w : Bool) : Decoded → Prop
  | .hot d => Fit w d
  | _ => True

/-- No operation whose selector matters. -/
theorem InRange.other {op : Op} {aux : U8} {wb : Bool}
    (h : op ∉ [Op.AluRmRW, .AluRRmW, .AluAccImmW, .AluGrpImmW])
    (hj : op ≠ .Jcc) : InRange op aux wb :=
      ⟨fun hm => absurd hm h, fun he => absurd he hj⟩

/-- A record without its operands. -/
theorem record_flags (c : Cpu) (op : Op) (aux : U8) (wb : Bool) :
    (c.record op aux wb).wb = wb ∧ (c.record op aux wb).osize32 = c.osize32
      ∧ (c.record op aux wb).kind = .none := by
  have hall : ∀ o a w : Bool,
      let g : U8 :=
        ((if o then 1 else 0) ||| (if a then 1 else 0) <<< 1)
          ||| ((if w then 1 else 0) <<< 2)
      (g &&& (1 <<< 2) != 0) = w ∧ (g &&& 1 != 0) = o
        ∧ (g >>> 3) &&& 3 = 0 := by decide
  obtain ⟨hwb, hsize, hkind⟩ := hall c.osize32 c.asize32 wb
  exact ⟨hwb, hsize, if_pos hkind⟩

/-- The write-back bit is its own. -/
theorem setWb_flags (d : DecodedInsn) (b : Bool) :
    (d.setWb b).kind = d.kind ∧ (d.setWb b).wb = (d.wb || b)
      ∧ (d.setWb b).osize32 = d.osize32 := by
  have hall : ∀ (f : U8) (b : Bool),
      let g := f ||| ((if b then 1 else 0) <<< 2)
      (g >>> 3) &&& 3 = (f >>> 3) &&& 3
        ∧ (g &&& (1 <<< 2) != 0) = ((f &&& (1 <<< 2) != 0) || b)
        ∧ (g &&& 1 != 0) = (f &&& 1 != 0) := by
    intro f b
    cases b <;> revert f <;> decide
  obtain ⟨hkind, hwb, hsize⟩ := hall d.flags b
  refine ⟨?_, hwb, hsize⟩
  rw [DecodedInsn.kind, DecodedInsn.kind, ← hkind]
  rfl

namespace Finds

variable {w : Bool} {S : U8 → SegReg} {e : U32} {op : Op}
  {aux : U8} {wb : Bool}

/-- The records, by the shape of the opcode. -/
theorem decodeRm (op : Op) (aux : U8) (wb : Bool) : Finds w S e
    (fun p => p.1 = p.2.reg ∧ p.2.op = op ∧ p.2.aux = aux ∧ p.2.wb = wb
      ∧ p.2.osize32 = w ∧ p.2.reg < 8
      ∧ (p.2.kind = .reg → p.2.base < 8))
        (decodeRm op aux wb : Calm β (U8 × DecodedInsn)) := by
  refine self.bind fun c hc => ?_
  obtain ⟨hwb, hsize, -⟩ := record_flags c.toCpu op aux wb
  refine Under.mono (decodeModrm _) fun p hp => ?_
  obtain ⟨hreg, hr⟩ := hp
  exact ⟨hreg, hr.op, hr.aux, hr.wb.trans hwb,
    hr.osize32.trans (hsize.trans hc.size), hr.reg, hr.base⟩

theorem decodeRmOnly (h : InRange op aux wb) :
    Finds w S e (Fits w) (decodeRmOnly op aux wb : Calm β Decoded) := by
  refine (decodeRm op aux wb).bind fun p hp => pure ?_
  obtain ⟨-, hop, haux, hwb, hsize, hreg, hbase⟩ := hp
  refine ⟨hsize, hreg, hbase, ?_⟩
  rw [hop, haux, hwb]
  exact h

theorem decodeImm (h : InRange op aux wb) {imm : Calm β U32}
    (himm : Finds w S e (fun _ => True) imm) :
    Finds w S e (Fits w) (decodeImm op aux wb imm : Calm β Decoded) := by
  refine self.bind fun c hc => himm.bind fun v _ => pure ?_
  obtain ⟨hwb, hsize, hkind⟩ := record_flags c.toCpu op aux wb
  refine ⟨hsize.trans hc.size, (by decide : (0 : U8) < 8), fun hk => ?_, ?_⟩
  · have hk : (c.record op aux wb).kind = .reg := hk
    rw [hkind] at hk
    cases hk
  · show InRange op aux (c.record op aux wb).wb
    rw [hwb]
    exact h

theorem decodeRmImm (h : InRange op 0 false) {imm : Calm β U32}
    (himm : Finds w S e (fun _ => True) imm) :
    Finds w S e (Fits w) (decodeRmImm op imm : Calm β Decoded) := by
  refine (decodeRm op 0 false).bind fun p hp => himm.bind fun v _ => pure ?_
  obtain ⟨-, hop, haux, hwb, hsize, hreg, hbase⟩ := hp
  refine ⟨hsize, hreg, hbase, ?_⟩
  show InRange p.2.op p.2.aux p.2.wb
  rw [hop, haux, hwb]
  exact h

theorem decodeMovImm (h : InRange op 0 false) {imm : Calm β U32}
    (himm : Finds w S e (fun _ => True) imm) :
    Finds w S e (Fits w) (decodeMovImm op imm : Calm β Decoded) := by
  refine (decodeRm op 0 false).bind fun p hp => (raiseIf _ _).bind fun _ _ =>
    himm.bind fun v _ => pure ?_
  obtain ⟨-, hop, haux, hwb, hsize, hreg, hbase⟩ := hp
  refine ⟨hsize, hreg, hbase, ?_⟩
  show InRange p.2.op p.2.aux p.2.wb
  rw [hop, haux, hwb]
  exact h

theorem decodeGrpImm (hop : op ≠ .Jcc) {imm : Calm β U32}
    (himm : Finds w S e (fun _ => True) imm) :
    Finds w S e (Fits w) (decodeGrpImm op imm : Calm β Decoded) := by
  refine (decodeRm op 0 false).bind fun p hp => himm.bind fun v _ => pure ?_
  obtain ⟨hsub, hop', -, hwb, hsize, hreg, hbase⟩ := hp
  obtain ⟨hkind, hwb', hsize'⟩ := setWb_flags p.2 (decide (p.1 ≠ 7))
  refine ⟨hsize'.trans hsize, hreg, fun hk => hbase (hkind.symm.trans hk),
    ⟨fun _ => ?_, fun hj => ?_⟩⟩
  · have hflag : (p.2.setWb (decide (p.1 ≠ 7))).wb = decide (p.1 ≠ 7) := by
      rw [hwb', hwb, Bool.false_or]
    refine ⟨?_, fun h7 => hflag.trans (decide_eq_false (not_not.2 h7)),
      fun hf => .inr ?_⟩
    · rw [← hsub] at hreg
      exact hreg
    · exact not_not.1 (of_decide_eq_false (hflag.symm.trans hf))
  · have hj : p.2.op = .Jcc := hj
    exact absurd (hop'.symm.trans hj) hop

/-- A shift by CL or by an immediate; the count is checked by the plan. -/
theorem decodeShift {byCl : Bool} {imm : Calm β U32}
    (hany : ∀ aux, InRange op aux false)
    (himm : Finds w S e (fun _ => True) imm) :
    Finds w S e (Fits w) (decodeShift op byCl imm : Calm β Decoded) := by
  refine (decodeRm op 0 false).bind fun p hp => himm.bind fun v _ => pure ?_
  obtain ⟨-, hop', -, hwb, hsize, hreg, hbase⟩ := hp
  refine ⟨hsize, hreg, hbase, ?_⟩
  show InRange p.2.op _ p.2.wb
  rw [hop', hwb]
  exact hany _

theorem decodeOpReg {opcode : U8} (h : InRange op 0 false) {imm : Calm β U32}
    (himm : Finds w S e (fun _ => True) imm) :
    Finds w S e (Fits w) (decodeOpReg op opcode imm : Calm β Decoded) := by
  refine self.bind fun c hc => himm.bind fun v _ => pure ?_
  obtain ⟨hwb, hsize, hkind⟩ := record_flags c.toCpu op 0 false
  refine ⟨hsize.trans hc.size, (byte_field opcode).1, fun hk => ?_, ?_⟩
  · have hk : (c.record op 0 false).kind = .reg := hk
    rw [hkind] at hk
    cases hk
  · show InRange op 0 (c.record op 0 false).wb
    rw [hwb]
    exact h

theorem decodeLea : Finds w S e (Fits w) (decodeLea : Calm β Decoded) := by
  refine (decodeRm .Lea 0 false).bind fun p hp =>
    (raiseIf _ _).bind fun _ _ => pure ?_
  obtain ⟨-, hop, haux, hwb, hsize, hreg, hbase⟩ := hp
  refine ⟨hsize, hreg, hbase, ?_⟩
  rw [hop]
  exact .other (by decide) (by decide)

theorem decodeGroup4 :
    Finds w S e (Fits w) (decodeGroup4 : Calm β Decoded) := by
  refine (decodeRm .IncDecRm8 0 false).bind fun p hp => (raiseIf _ _).bind
    fun _ _ => pure ?_
  obtain ⟨-, hop, -, -, hsize, hreg, hbase⟩ := hp
  refine ⟨hsize, hreg, hbase, ?_⟩
  show InRange p.2.op _ _
  rw [hop]
  exact .other (by decide) (by decide)

theorem decodeGroup5 :
    Finds w S e (Fits w) (decodeGroup5 : Calm β Decoded) := by
  refine self.bind fun c hc => (decodeModrm _).bind fun p hp => pure ?_
  obtain ⟨-, hr⟩ := hp
  have hall : ∀ o a : Bool,
    (((if o then 1 else 0) ||| (if a then 1 else 0) <<< 1 : U8) &&& 1 != 0)
    = o := by decide
  have hsize : p.2.osize32 = w :=
    hr.osize32.trans ((hall c.osize32 c.asize32).trans hc.size)
  have hfit : ∀ op : Op,
      op ∉ [Op.AluRmRW, .AluRRmW, .AluAccImmW, .AluGrpImmW] → op ≠ .Jcc →
      Fit w { p.2 with op, aux := p.1 } :=
        fun op hop hj => ⟨hsize, hr.reg, hr.base, .other hop hj⟩
  split_ifs
  · exact hfit .IncDecRmW (by decide) (by decide)
  · exact hfit .CallRm (by decide) (by decide)
  · exact hfit .JmpRm (by decide) (by decide)
  · exact hfit .PushRm (by decide) (by decide)
  · trivial

/-- A branch may use what it was taken on. -/
theorem ite {c : Prop} [Decidable c] {P : α → Prop} {x y : Calm β α}
    (hx : c → Finds w S e P x)
    (hy : ¬ c → Finds w S e P y) : Finds w S e P (if c then x else y) := by
  split
  case isTrue h => exact hx h
  case isFalse h => exact hy h

omit [Bus β] in
/-- The selector of an ALU opcode. -/
theorem selector_alu {opcode : U8} (hlt : opcode < 0x40) {c : U8}
    (hc : c = 0x39 ∨ c = 0x3B ∨ c = 0x3D)
    (hform : opcode &&& 7 = c &&& 7) (op : Op) (hj : op ≠ .Jcc) :
    InRange op (opcode >>> 3) (decide (opcode ≠ c)) := by
  have hall : ∀ b : U8, b < 0x40 → ∀ c ∈ [(0x39 : U8), 0x3B, 0x3D],
      b &&& 7 = c &&& 7 →
      b >>> 3 < 8 ∧ (b >>> 3 = 7 ↔ b = c) := by decide
  obtain ⟨h8, h7⟩ := hall opcode hlt c (by simpa using hc) hform
  refine ⟨fun _ => ⟨h8, fun h => ?_, fun h => .inr ?_⟩, fun h => absurd h hj⟩
  · exact decide_eq_false (not_not.2 (h7.1 h))
  · exact h7.2 (not_not.1 (of_decide_eq_false h))

theorem decodeAlu {opcode : U8} (h : opcode < 0x40) :
    Finds w S e (Fits w) (decodeAlu opcode : Calm β Decoded) := by
  unfold X32.decodeAlu
  exact ite (fun _ => decodeRmOnly (.other (by decide) (by decide)))
    fun _ => ite
      (fun hf => decodeRmOnly (selector_alu h (.inl rfl) hf _ (by decide)))
    fun _ => ite (fun _ => decodeRmOnly (.other (by decide) (by decide)))
    fun _ => ite
      (fun hf => decodeRmOnly
      (selector_alu h (.inr (.inl rfl)) hf _ (by decide)))
    fun _ => ite
      (fun _ => decodeImm (.other (by decide) (by decide)) fetchByteImm)
    fun _ => ite
      (fun hf => decodeImm (selector_alu h (.inr (.inr rfl)) hf _ (by decide)) fetchImm)
    fun _ => pure trivial

omit [Bus β] in
/-- A condition code is below 16. -/
theorem code_range (b : U8) (wb : Bool) : InRange .Jcc (b &&& 0xF) wb := by
  refine ⟨fun h => absurd h (by decide), fun _ => ?_⟩
  have hmask : (b &&& 0xF).toNat = b.toNat % 16 :=
    Word.toNat_and_mask b 4 (by decide)
  rw [BitVec.lt_def, hmask]
  exact Nat.mod_lt _ (by decide)

theorem decode40 (opcode : U8) :
    Finds w S e (Fits w) (decode40 opcode : Calm β Decoded) := by
  unfold X32.decode40
  exact ite (fun _ =>
    decodeOpReg (.other (by decide) (by decide)) (pure trivial))
    fun _ => ite
      (fun _ => decodeOpReg (.other (by decide) (by decide)) (pure trivial))
    fun _ => ite
      (fun _ => decodeOpReg (.other (by decide) (by decide)) (pure trivial))
    fun _ => ite
      (fun _ => decodeOpReg (.other (by decide) (by decide)) (pure trivial))
    fun _ => ite (fun _ => decodeImm (.other (by decide) (by decide)) fetchImm)
    fun _ => ite
      (fun _ => decodeRmImm (.other (by decide) (by decide)) fetchImm)
    fun _ => ite
      (fun _ => decodeImm (.other (by decide) (by decide)) fetchSimm8)
    fun _ => ite
      (fun _ => decodeRmImm (.other (by decide) (by decide)) fetchSimm8)
    fun _ => ite (fun _ => decodeImm (code_range _ _) fetchSimm8)
    fun _ => pure trivial

omit [Bus β] in
/-- TEST. -/
theorem selector_test (op : Op) (hj : op ≠ .Jcc) : InRange op 4 false :=
  ⟨fun _ => ⟨by decide, fun h => absurd h (by decide), fun _ => .inl rfl⟩,
    fun h => absurd h hj⟩

theorem decode80 (opcode : U8) :
    Finds w S e (Fits w) (decode80 opcode : Calm β Decoded) := by
  unfold X32.decode80
  exact ite (fun _ => decodeGrpImm (by decide) fetchByteImm)
    fun _ => ite (fun _ => decodeGrpImm (by decide) fetchImm)
    fun _ => ite (fun _ => decodeGrpImm (by decide) fetchSimm8)
    fun _ => ite (fun _ => decodeRmOnly (.other (by decide) (by decide)))
    fun _ => ite (fun _ => decodeRmOnly (selector_test _ (by decide)))
    fun _ => ite (fun _ => decodeRmOnly (.other (by decide) (by decide)))
    fun _ => ite (fun _ => decodeRmOnly (.other (by decide) (by decide)))
    fun _ => ite (fun _ => decodeRmOnly (.other (by decide) (by decide)))
    fun _ => ite (fun _ => decodeRmOnly (.other (by decide) (by decide)))
    fun _ => ite (fun _ => decodeRmOnly (.other (by decide) (by decide)))
    fun _ => ite (fun _ => decodeRmOnly (.other (by decide) (by decide)))
    fun _ => ite (fun _ => decodeLea)
    fun _ => ite
      (fun _ => decodeOpReg (.other (by decide) (by decide)) (pure trivial))
    fun _ => ite
      (fun _ => decodeImm (.other (by decide) (by decide)) fetchByteImm)
    fun _ => ite (fun _ => decodeImm (selector_test _ (by decide)) fetchImm)
    fun _ => ite
      (fun _ => decodeOpReg (.other (by decide) (by decide)) fetchByteImm)
    fun _ => ite
      (fun _ => decodeOpReg (.other (by decide) (by decide)) fetchImm)
    fun _ => pure trivial

theorem decodeC0 (opcode : U8) :
    Finds w S e (Fits w) (decodeC0 opcode : Calm β Decoded) := by
  unfold X32.decodeC0
  exact ite (fun _ =>
    decodeShift (fun _ => .other (by decide) (by decide)) fetchByteImm)
    fun _ => ite
      (fun _ => decodeShift (fun _ => .other (by decide) (by decide))
      fetchByteImm)
    fun _ => ite
      (fun _ => decodeShift (fun _ => .other (by decide) (by decide))
      (pure trivial))
    fun _ => ite
      (fun _ => decodeShift (fun _ => .other (by decide) (by decide))
      (pure trivial))
    fun _ => ite
      (fun _ => decodeShift (fun _ => .other (by decide) (by decide))
      (pure trivial))
    fun _ => ite
      (fun _ => decodeShift (fun _ => .other (by decide) (by decide))
      (pure trivial))
    fun _ => ite
      (fun _ => decodeImm (.other (by decide) (by decide))
      (fetch16.map fun _ _ => trivial))
    fun _ => ite
      (fun _ => decodeImm (.other (by decide) (by decide)) (pure trivial))
    fun _ => ite
      (fun _ => decodeMovImm (.other (by decide) (by decide)) fetchByteImm)
    fun _ => ite
      (fun _ => decodeMovImm (.other (by decide) (by decide)) fetchImm)
    fun _ => ite (fun _ => decodeImm (.other (by decide) (by decide)) fetchRel)
    fun _ => ite (fun _ => decodeImm (.other (by decide) (by decide)) fetchRel)
    fun _ => ite
      (fun _ => decodeImm (.other (by decide) (by decide)) fetchSimm8)
    fun _ => ite (fun _ => decodeGroup4)
    fun _ => ite (fun _ => decodeGroup5)
    fun _ => pure trivial

/-- The two-byte opcodes. -/
theorem decode0F (op2 : U8) :
    Finds w S e (Fits w) (decode0F op2 : Calm β Decoded) := by
  refine self.bind fun c _ => ?_
  exact ite (fun _ => decodeImm (code_range _ _) fetchRel)
    fun _ => ite (fun _ => decodeRmOnly (.other (by decide) (by decide)))
    fun _ => ite (fun _ => decodeRmOnly (.other (by decide) (by decide)))
    fun _ => ite (fun _ => decodeRmOnly (.other (by decide) (by decide)))
    fun _ => ite (fun _ => decodeRmOnly (.other (by decide) (by decide)))
    fun _ => ite (fun _ => decodeRmOnly (.other (by decide) (by decide)))
    fun _ => ite (fun _ => decodeRmOnly (.other (by decide) (by decide)))
    fun _ => ite (fun _ => decodeRmOnly (.other (by decide) (by decide)))
    fun _ => pure trivial

/-- Every record of the hot subset fits. -/
theorem decodeOp (opcode : U8) :
    Finds w S e (Fits w) (decodeOp opcode : Calm β Decoded) := by
  unfold X32.decodeOp
  exact ite (fun _ => fetch8.bind fun op2 _ => decode0F op2)
    fun _ => ite (fun h => decodeAlu h)
    fun _ => ite (fun _ => decode40 opcode)
    fun _ => ite (fun _ => decode80 opcode)
    fun _ => decodeC0 opcode

end Finds

-- ======== decode-ahead

/-- The prefix count is the top three bits. -/
theorem setNpfx_flags (d : DecodedInsn) (n : U8) :
    (d.setNpfx n).kind = d.kind ∧ (d.setNpfx n).wb = d.wb
      ∧ (d.setNpfx n).osize32 = d.osize32
      ∧ ((d.setNpfx n).npfx = 0 → n &&& 7 = 0) := by
  have hall : ∀ n : U8, (n <<< 5) &&& 1 = 0 ∧ (n <<< 5) &&& (1 <<< 2) = 0
      ∧ ((n <<< 5) >>> 3) &&& 3 = 0
      ∧ ((n <<< 5) >>> 5 = 0 → n &&& 7 = 0) := by decide
  obtain ⟨h1, h2, h3, h5⟩ := hall n
  have hor : ∀ {a b m : U8}, b &&& m = 0 → (a ||| b) &&& m = a &&& m := by
    intro a b m hm
    rw [BitVec.and_or_distrib_right, hm]
    exact BitVec.or_zero
  have hkind :
    ((d.flags ||| (n <<< 5)) >>> 3) &&& 3 = (d.flags >>> 3) &&& 3 := by
    rw [BitVec.ushiftRight_or_distrib]
    exact hor h3
  refine ⟨?_, congrArg (· != 0) (hor h2),
    congrArg (· != 0) (hor h1), fun h => h5 ?_⟩
  · rw [DecodedInsn.kind, DecodedInsn.kind, ← hkind]
    rfl
  · have h : (d.flags ||| (n <<< 5)) >>> 5 = 0 := h
    rw [BitVec.ushiftRight_or_distrib] at h
    exact (BitVec.or_eq_zero_iff.1 h).2

/-- What a hot decode returns. -/
theorem tryDecode_hot {opcode : U8} {npfx : U32}
    {s s' : Machine β} {d : DecodedInsn}
    (h : (tryDecode opcode npfx).run s = (.ok (.hot d), s')) :
    ¬ 7 < npfx ∧ ∃ d', (decodeOp opcode).run s = (.ok (.hot d'), s')
      ∧ d = { d' with len := s'.ilen }.setNpfx (npfx.setWidth 8) := by
  rw [tryDecode, Bounded.run_bind, Fallible.bind_of_ok (run_self s)] at h
  by_cases hmany : 7 < npfx
  · rw [if_pos hmany] at h
    cases h
  rw [if_neg hmany, Bounded.run_bind, Bounded.run_outcome,
    Fallible.bind_of_ok (Fallible.outcome_apply _ _)] at h
  rcases hrun : (decodeOp opcode).run s with ⟨r, t⟩
  rw [hrun] at h
  rcases r with exc | (d' | - | op2)
  · cases h
  · cases h
    exact ⟨hmany, d', rfl, rfl⟩
  · cases h
  · cases h

/-- The count of prefixes is in the record. -/
theorem tryDecode_npfx {opcode : U8} {npfx : U32}
    {s s' : Machine β} {d : DecodedInsn}
    (h : (tryDecode opcode npfx).run s = (.ok (.hot d), s'))
    (hn : d.npfx = 0) : npfx = 0 := by
  obtain ⟨hmany, d', -, rfl⟩ := tryDecode_hot h
  have hlow :=
    congrArg BitVec.toNat
      ((setNpfx_flags { d' with len := s'.ilen } (npfx.setWidth 8)).2.2.2 hn)
  have hmask : (npfx.setWidth 8 &&& 7).toNat = (npfx.setWidth 8).toNat % 8 :=
    Word.toNat_and_mask (npfx.setWidth 8) 3 (by decide)
  rw [hmask] at hlow
  bv_omega

/-- A decoded record fits, and EIP is where it ends. -/
theorem tryDecode_spec {w : Bool} {S : U8 → SegReg} {e : U32} {opcode : U8}
    {npfx : U32} {s s' : Machine β}
    {d : DecodedInsn} (hs : Amid w S e s)
    (h : (tryDecode opcode npfx).run s = (.ok (.hot d), s')) :
    Fit w d ∧ s'.regs.eip = e + d.len.setWidth 32 ∧ s'.regs.seg = S := by
  obtain ⟨-, d', hrun, rfl⟩ := tryDecode_hot h
  obtain ⟨hfit, ht⟩ := Finds.decodeOp opcode s _ s' hs hrun
  obtain ⟨hkind, hwb, hsize, -⟩ :=
    setNpfx_flags { d' with len := s'.ilen } (npfx.setWidth 8)
  refine ⟨⟨hsize.trans hfit.osize32, hfit.reg,
    fun hk => hfit.base (hkind.symm.trans hk), ?_⟩, ht.eip, ht.seg⟩
  have hrange := hfit.range
  rw [show d'.wb = _ from hwb.symm] at hrange
  exact hrange

/-- Prefixes are counted. -/
theorem scanLoop_count {db : Bool} {n : Nat} {k m : U32}
    {b : U8} {s s' : Machine β}
    (h : (scanLoop db n k).run s = (.ok (b, m), s'))
    (hk : k.toNat + n < 2 ^ 32) : k.toNat ≤ m.toNat := by
  induction n generalizing k s with
  | zero => cases h
  | succ n ih =>
    rw [scanLoop, Bounded.run_bind, Fallible.bind_eq_ok] at h
    obtain ⟨b', s₁, -, h⟩ := h
    split at h
    · rw [Bounded.run_bind, Fallible.bind_of_ok (run_modifyDecode _ _)] at h
      have hadd : (k + 1).toNat = k.toNat + 1 := by bv_omega
      have hle := ih h (by omega)
      omega
    · cases h
      exact Nat.le_refl _

/-- Without a prefix the sizes are the code segment's. -/
theorem scanPrefixes_spec {s s' : Machine β} {b : U8} (hilen : s.ilen = 0)
    (h : scanPrefixes.run s = (.ok (b, 0), s')) :
    Amid (s.regs.seg reg.CS).db s.regs.seg s.regs.eip s' := by
  rw [scanPrefixes, Bounded.run_bind, Fallible.bind_of_ok (run_self s),
    Bounded.run_bind, Fallible.bind_of_ok (run_modifyDecode _ _), scanLoop,
    Bounded.run_bind, Fallible.bind_eq_ok] at h
  obtain ⟨b', s₁, hfetch, h⟩ := h
  have hstart : Amid (s.regs.seg reg.CS).db s.regs.seg s.regs.eip (s.withDecode
      { s.toDecodeState with
        osize32 := (s.regs.seg reg.CS).db, asize32 := (s.regs.seg reg.CS).db }) := by
    refine ⟨rfl, rfl, ?_⟩
    show s.regs.eip = s.regs.eip + s.ilen.setWidth 32
    rw [hilen]
    exact (BitVec.add_zero _).symm
  split at h
  · rw [Bounded.run_bind, Fallible.bind_of_ok (run_modifyDecode _ _)] at h
    exact absurd (scanLoop_count h (by decide)) (by decide)
  · cases h
    exact hstart.fetch8 hfetch

/-- A record decoded ahead, without prefixes. -/
theorem jitDecodeOne_spec {s s' : Machine β}
    {d : DecodedInsn} (hn : d.npfx = 0)
    (h : jitDecodeOne s = (.ok (some d), s')) :
    Fit (s.regs.seg reg.CS).db d ∧ s'.regs.eip = s.regs.eip + d.len.setWidth 32
      ∧ s'.regs.seg = s.regs.seg := by
  rw [jitDecodeOne, Fallible.bind_of_ok (Fallible.modify_apply _ _),
    Fallible.bind_of_ok (Fallible.outcome_apply _ _)] at h
  rcases hscan : scanPrefixes.run s.resetDecode with ⟨exc | ⟨opcode, npfx⟩, s₁⟩
  · rw [hscan] at h
    cases h
  rw [hscan] at h
  dsimp only at h
  rw [Fallible.bind_of_ok (Fallible.get_apply _)] at h
  split at h
  · cases h
  rw [Fallible.bind_of_ok (Fallible.outcome_apply _ _)] at h
  rcases hdec : (tryDecode opcode npfx).run s₁ with ⟨exc | r, s₂⟩
  · rw [hdec] at h
    cases h
  rw [hdec] at h
  cases r with
  | hot d' =>
    cases h
    have hzero := tryDecode_npfx hdec hn
    subst hzero
    exact tryDecode_spec (scanPrefixes_spec (s := s.resetDecode) rfl hscan) hdec
  | cold => cases h
  | cold0F => cases h

-- ======== the candidates

/-- The candidates of the records `ds`, the first of them at `a`. -/
inductive Lowered : U32 → List DecodedInsn → List (Jit.Cand Body 32) → Prop
  | nil (a : U32) : Lowered a [] []
  | branch (a : U32) (d : DecodedInsn) (hop : d.op = .Jcc ∨ d.op = .JmpRel)
    (hfit : Fit true d) (hn : d.npfx = 0) :
    Lowered a [d] [branchCand d (a + d.len.setWidth 32)]
  | body (a : U32) (d : DecodedInsn) (p : Body × Jit.FlagEffect × U32)
    (hp : classifyBody d = some p)
    (hfit : Fit true d) (hn : d.npfx = 0) {ds : List DecodedInsn}
    {cs : List (Jit.Cand Body 32)}
    (h : Lowered (a + d.len.setWidth 32) ds cs) :
    Lowered a (d :: ds) (bodyCand p (a + d.len.setWidth 32) :: cs)

/-- The records `ds` are what decoding finds, one behind the other. -/
inductive Ahead : Machine β → List DecodedInsn → Prop
  | nil (s : Machine β) : Ahead s []
  | cons {s t : Machine β} {d : DecodedInsn} {ds : List DecodedInsn}
    (hd : jitDecodeOne s = (.ok (some d), t))
    (h : Ahead t ds) : Ahead s (d :: ds)

/-- A prefix of a decoded run is a decoded run. -/
theorem Ahead.left {s : Machine β} {ds ds' : List DecodedInsn}
    (h : Ahead s (ds ++ ds')) : Ahead s ds := by
  induction ds generalizing s with
  | nil => exact .nil s
  | cons d ds ih =>
    cases h with
    | cons hd h => exact .cons hd (ih h)

/-- Decode-ahead in a 32-bit segment lowers the records it finds. -/
theorem pass1_spec {phys : U32} {n : Nat} {total : U32} {s s' : Machine β}
    {cs : List (Jit.Cand Body 32)}
    (hdb : (s.regs.seg reg.CS).db = true)
    (h : pass1 phys n total s = (.ok cs, s')) :
    (∃ ds, Ahead s ds ∧ Lowered s.regs.eip ds cs) ∧ cs.length ≤ n := by
  induction n generalizing total s s' cs with
  | zero =>
    cases h
    exact ⟨⟨[], .nil _, .nil _⟩, Nat.le_refl 0⟩
  | succ n ih =>
    have hstop : ∀ {t : Machine β}, stopAt s.regs.eip t = (.ok cs, s') →
        (∃ ds, Ahead s ds ∧ Lowered s.regs.eip ds cs) ∧ cs.length ≤ n + 1 := by
      intro t ht
      cases ht
      exact ⟨⟨[], .nil _, .nil _⟩, Nat.zero_le _⟩
    rw [pass1] at h
    split at h
    · cases h
      exact ⟨⟨[], .nil _, .nil _⟩, Nat.zero_le _⟩
    rw [Fallible.bind_of_ok (Fallible.get_apply _)] at h
    dsimp only at h
    obtain ⟨r, s₁, hone, h⟩ := Fallible.bind_eq_ok.1 h
    cases r with
    | none => exact hstop h
    | some d =>
      dsimp only at h
      split at h
      · exact hstop h
      rename_i hok
      have hn : d.npfx = 0 := by
        by_contra hne
        exact hok (.inl hne)
      obtain ⟨hfit, heip, hseg⟩ := jitDecodeOne_spec hn hone
      rw [hdb] at hfit
      split at h
      case isTrue hop =>
        cases h
        exact ⟨⟨[d], .cons hone (.nil _), .branch _ d hop hfit hn⟩, by simp⟩
      case isFalse =>
        cases hp : classifyBody d with
        | none =>
          rw [hp] at h
          exact hstop h
        | some p =>
          rw [hp] at h
          obtain ⟨rest, s₂, hrest, h⟩ := Fallible.bind_eq_ok.1 h
          cases h
          rw [← hseg] at hdb
          obtain ⟨⟨ds, hahead, hds⟩, hlen⟩ := ih hdb hrest
          rw [heip] at hds
          exact ⟨⟨d :: ds, .cons hone hahead, .body _ d p hp hfit hn hds⟩,
            Nat.succ_le_succ hlen⟩

end Remu.X32
