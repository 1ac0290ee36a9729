/-
The two effective addresses of an operand.

The fused `modrm` consumes an operand's bytes and resolves its address on
the spot. The decoder's `decodeModrm` consumes the same bytes into a
record, an address formula over register numbers, that `eaOperand`
evaluates later, in whatever registers there are then. Both tables are
written out twice, with every exception of the encoding.

# Two halves

Consuming an operand is blind to the general registers (`Blind`): a record
decoded under one register file is the record decoded under any other. And
under one register file the two go through the same fetches and agree on
the sum modulo the address size (`Resolves`); truncating a register before
the sum, as `modrm` does, or the sum alone, as the record does, is no
difference there.
-/
import Remu.Lib.Fields
import Remu.Lib.Paired
import Remu.X64.Operands
import Remu.X64.Decode

namespace Remu.X64

variable {β : Type} [Bus β] {α γ : Type}

-- ======== blind to the registers

/-- The machine with other general registers. -/
def Machine.withGpr {β : Type} (s : Machine β) (gpr : U8 → U64) : Machine β :=
  { s with regs := { s.regs with gpr } }

/-- `x` cannot tell one set of general registers from another. -/
def Blind (gpr : U8 → U64) (x : Calm β α) : Prop :=
  Fallible.Commutes (·.withGpr gpr) x.run

namespace Blind

variable {gpr : U8 → U64}

/-- The closure rules; a fetch and a translation are put together by them. -/
theorem pure (a : α) : Blind gpr (pure a : Calm β α) :=
  Fallible.Commutes.pure a

theorem throw (e : Exception) : Blind gpr (throw e : Calm β α) :=
  Fallible.Commutes.throw e

/-- A sequence is blind to what its parts are blind to. -/
theorem bind {x : Calm β α} {f : α → Calm β γ} (hx : Blind gpr x)
    (hf : ∀ a, Blind gpr (f a)) :
    Blind gpr (x >>= f) := Fallible.Commutes.bind hx hf

/-- The machine is read, but not its general registers. -/
theorem self_bind {f : Machine β → Calm β α}
    (hsame : ∀ s, f (s.withGpr gpr) = f s)
    (hf : ∀ s, Blind gpr (f s)) : Blind gpr (self >>= f) :=
  Fallible.Commutes.get_bind (fun s => by rw [hsame]) hf

theorem map {x : Calm β α} (g : α → γ) (hx : Blind gpr x) :
    Blind gpr (g <$> x) := by
  rw [map_eq_pure_bind]
  exact hx.bind fun _ => .pure _

theorem raiseIf (c : Prop) [Decidable c] (e : Exception) :
    Blind gpr (raiseIf c e : Calm β Unit) := by
  unfold X64.raiseIf
  split
  · exact .throw e
  · exact .pure ()

theorem whenever (c : Prop) [Decidable c] {m : Calm β Unit}
    (hm : Blind gpr m) :
    Blind gpr (whenever c m) := by
  unfold X64.whenever
  split
  · exact hm
  · exact .pure ()

theorem note (g : DecodeState → DecodeState) :
    Blind gpr (modifyDecode g : Calm β Unit) :=
  fun _ => rfl

theorem setRip (v : U64) : Blind gpr (setRip v : Calm β Unit) := fun _ => rfl

theorem setCr2 (v : U64) : Blind gpr (setCr2 v : Calm β Unit) := fun _ => rfl

theorem modifyTlb (g : Tlb → Tlb) : Blind gpr (modifyTlb g : Calm β Unit) :=
  fun _ => rfl

theorem nextRip : Blind gpr
    (modifyHot (fun r => { r with rip := r.rip + 1 }) : Calm β Unit) :=
  fun _ => rfl

/-- A store goes by its address and value, not by registers. -/
theorem pageStore (first last : U64) (w : β → β)
    (hpage : last >>> 12 = first >>> 12)
    (h : ∀ b, BusStore b first last (w b)) :
    Blind gpr (pageStore first last w hpage h : Calm β Unit) := fun _ => rfl

theorem touchBus (f : β → α × β) (h : ∀ b, BusTouch b (f b).2) :
    Blind gpr (touchBus f h : Calm β α) := fun _ => rfl

end Blind

-- ======== translation

section Translate

variable (gpr : U8 → U64)

theorem Blind.pageFault (lin : U64) (access : Access) (present rsvd : Bool) :
    Blind gpr (pageFault lin access present rsvd : Calm β Exception) :=
  (Blind.setCr2 _).bind fun _ => .self_bind (fun _ => rfl) fun _ => .pure _

theorem Blind.faultIf (c : Prop) [Decidable c] (lin : U64) (access : Access)
    (present rsvd : Bool) :
    Blind gpr (faultIf c lin access present rsvd : Calm β Unit) := by
  unfold X64.faultIf
  split
  · exact (Blind.pageFault gpr _ _ _ _).bind fun e => .throw e
  · exact .pure ()

theorem Blind.legacyLeaf (lin : U64) (access : Access) (lin32 pdeAddr : U64)
    (hpde : pdeAddr &&& 3 = 0) (pde : U64) (large : Bool) :
    Blind gpr (legacyLeaf lin access lin32 pdeAddr hpde pde large : Calm β
      LegacyLeaf) := by
  unfold X64.legacyLeaf
  split
  · exact .pure _
  · exact (Blind.touchBus _ _).bind fun _ => (Blind.faultIf gpr _ _ _ _ _).bind
      fun _ => .pure _

theorem Blind.walkLegacy (lin : U64) (access : Access) :
    Blind gpr (walkLegacy lin access : Calm β (Translated lin)) := by
  unfold X64.walkLegacy
  refine .self_bind (fun _ => rfl) fun s => (Blind.touchBus _ _).bind fun _ =>
    (Blind.faultIf gpr _ _ _ _ _).bind fun _ =>
      (Blind.legacyLeaf gpr _ _ _ _ _ _ _).bind fun l =>
    .self_bind (fun _ => rfl) fun _ =>
      (Blind.faultIf gpr _ _ _ _ _).bind fun _ => ?_
  exact (Blind.whenever _ (.pageStore _ _ _ _ _)).bind fun _ =>
    (Blind.whenever _ (.pageStore _ _ _ _ _)).bind fun _ =>
    (Blind.modifyTlb _).bind fun _ => .pure _

theorem Blind.walkLevels (lin : U64) (access : Access) (long nxe : Bool)
    (shifts : List (Fin 40)) :
    ∀ table levels, Blind gpr
      (walkLevels lin access long nxe shifts table levels : Calm β
        (WideWalk lin)) := by
  induction shifts with
  | nil => exact fun _ _ => .pure _
  | cons shift rest ih =>
    intro table levels
    unfold X64.walkLevels
    refine (Blind.touchBus _ _).bind fun e =>
      (Blind.faultIf gpr _ _ _ _ _).bind fun _ =>
      (Blind.faultIf gpr _ _ _ _ _).bind fun _ => ?_
    dsimp only
    split
    · exact (Blind.faultIf gpr _ _ _ _ _).bind fun _ => .pure _
    · exact ih _ _

theorem Blind.updateAccessed (write : Bool) (levels : List PteRef) :
    Blind gpr (updateAccessed write levels : Calm β Unit) := by
  induction levels with
  | nil => exact .pure ()
  | cons r rest ih =>
    exact (Blind.whenever _ (.pageStore _ _ _ _ _)).bind fun _ => ih

theorem Blind.readPdpte (lin : U64) (access : Access) :
    Blind gpr (readPdpte lin access : Calm β U64) :=
  .self_bind (fun _ => rfl) fun _ => (Blind.touchBus _ _).bind fun _ =>
    (Blind.faultIf gpr _ _ _ _ _).bind fun _ =>
      (Blind.faultIf gpr _ _ _ _ _).bind fun _ => .pure _

theorem Blind.walkWide (lin : U64) (access : Access) :
    Blind gpr (walkWide lin access : Calm β (Translated lin)) := by
  unfold X64.walkWide
  refine .self_bind (fun _ => rfl) fun s => Blind.bind ?_ fun table =>
    (Blind.walkLevels gpr _ _ _ _ _ _ _).bind fun w =>
      .self_bind (fun _ => rfl) fun _ =>
    (Blind.faultIf gpr _ _ _ _ _).bind fun _ =>
      (Blind.updateAccessed gpr _ _).bind fun _ =>
    (Blind.modifyTlb _).bind fun _ => .pure _
  split
  · exact .pure _
  · exact .readPdpte gpr _ _

/-- A translation reads tables, CR registers and the TLB, and no general
register. -/
theorem Blind.translate (lin : U64) (access : Access) :
    Blind gpr (translate lin access : Calm β (Translated lin)) := by
  refine .self_bind (fun _ => rfl) fun s => ?_
  dsimp only
  split
  · exact .pure _
  · refine .self_bind (fun _ => rfl) fun s => ?_
    split
    · exact .walkLegacy gpr _ _
    · exact .walkWide gpr _ _

-- ======== fetch

theorem Blind.fetchFill (tag page : U64) (hpage : page &&& ~~~PHYS_MASK = 0) :
    Blind gpr (fetchFill tag page hpage : Calm β Unit) := by
  intro s
  show (if s.paging then (_ : Except Exception Unit × Machine β) else _) = _
  unfold X64.fetchFill
  dsimp only
  split <;> rfl

/-- A fetched byte does not depend on the general registers. -/
theorem Blind.fetchByte (lin : U64) :
    Blind gpr (fetchByte lin : Calm β U8) := by
  refine .self_bind (fun _ => rfl) fun s => ?_
  split
  · exact .touchBus _ _
  split
  · exact .touchBus _ _
  · exact (Blind.translate gpr _ _).bind fun _ =>
      (Blind.fetchFill gpr _ _ _).bind fun _ =>
      .touchBus _ _

theorem Blind.fetch8 : Blind gpr (fetch8 : Calm β U8) :=
  .self_bind (fun _ => rfl) fun _ => (Blind.raiseIf _ _).bind fun _ =>
    (Blind.note _).bind fun _ =>
    .self_bind (fun _ => rfl) fun _ => (Blind.raiseIf _ _).bind fun _ =>
    (Blind.fetchByte gpr _).bind fun _ => Blind.nextRip.bind fun _ => .pure _

/-- A fetch of several bytes at once. -/
theorem Blind.fetchWide (n : U8) {rd : U64 → Calm β α}
    (hrd : ∀ a, Blind gpr (rd a)) :
    Blind gpr (fetchWide n rd) := by
  refine .self_bind (fun _ => rfl) fun s => ?_
  split
  · exact .pure _
  · exact (hrd _).bind fun _ => (Blind.note _).bind fun _ =>
      (Blind.setRip _).bind fun _ => .pure _

theorem Blind.fetchOr {w : Nat} {wide : Calm β (Option (BitVec (w + w)))}
    {half : Calm β (BitVec w)} (hwide : Blind gpr wide)
    (hhalf : Blind gpr half) :
    Blind gpr (fetchOr wide half) := by
  refine hwide.bind fun v => ?_
  cases v with
  | some v => exact .pure _
  | none => exact hhalf.bind fun _ => hhalf.bind fun _ => .pure _

theorem Blind.fetch16 : Blind gpr (fetch16 : Calm β U16) :=
  .fetchOr gpr (.fetchWide gpr 2 fun _ => .touchBus _ _) (.fetch8 gpr)

theorem Blind.fetch32 : Blind gpr (fetch32 : Calm β U32) :=
  .fetchOr gpr (.fetchWide gpr 4 fun _ => .touchBus _ _) (.fetch16 gpr)

-- ======== formulas

theorem Blind.fetchDisp16 (md : U8) :
    Blind gpr (fetchDisp16 md : Calm β U16) := by
  unfold X64.fetchDisp16
  split
  · exact .pure _
  split
  · exact .map _ (.fetch8 gpr)
  · exact .fetch16 gpr

theorem Blind.fetchDisp32 (md : U8) :
    Blind gpr (fetchDisp32 md : Calm β U32) := by
  unfold X64.fetchDisp32
  split
  · exact .pure _
  split
  · exact .map _ (.fetch8 gpr)
  · exact .fetch32 gpr

/-- Building a formula does not read the general registers. -/
theorem Blind.ea16Formula (m : ModRm) (d : DecodedInsn) :
    Blind gpr (ea16Formula m d : Calm β DecodedInsn) := by
  unfold X64.ea16Formula
  split
  · exact (Blind.fetch16 gpr).bind fun _ => .self_bind (fun _ => rfl)
      fun _ => .pure _
  · exact (Blind.fetchDisp16 gpr _).bind fun _ => .self_bind (fun _ => rfl)
      fun _ => .pure _

theorem Blind.sibBaseFormula (m : ModRm) (base3 : U8) (d : DecodedInsn) :
    Blind gpr (sibBaseFormula m base3 d : Calm β (U8 × DecodedInsn)) := by
  unfold X64.sibBaseFormula
  split
  · exact (Blind.fetch32 gpr).bind fun _ => .pure _
  · exact .pure _

theorem Blind.eaBaseFormula (m : ModRm) (d : DecodedInsn) :
    Blind gpr (eaBaseFormula m d : Calm β (U8 × DecodedInsn)) := by
  unfold X64.eaBaseFormula
  split
  · exact (Blind.fetch8 gpr).bind fun _ => .self_bind (fun _ => rfl) fun _ =>
      (Blind.sibBaseFormula gpr _ _ _).bind fun _ => .pure _
  · exact .pure _

theorem Blind.eaWideFormula (m : ModRm) (d : DecodedInsn) :
    Blind gpr (eaWideFormula m d : Calm β DecodedInsn) := by
  unfold X64.eaWideFormula
  split
  · exact (Blind.fetch32 gpr).bind fun _ => .self_bind (fun _ => rfl)
      fun _ => .pure _
  · exact (Blind.eaBaseFormula gpr _ _).bind fun _ =>
      (Blind.fetchDisp32 gpr _).bind fun _ =>
      .self_bind (fun _ => rfl) fun _ => .pure _

/-- A record is decoded without a look at the general registers. -/
theorem Blind.decodeModrm (d : DecodedInsn) :
    Blind gpr (decodeModrm d : Calm β (U8 × DecodedInsn)) := by
  refine (Blind.fetch8 gpr).bind fun byte =>
    .self_bind (fun _ => rfl) fun s => ?_
  dsimp only
  split
  · exact .pure _
  · refine Blind.bind (.self_bind (fun _ => rfl) fun s => ?_) fun _ => .pure _
    cases s.asize with
    | O16 => exact .ea16Formula gpr _ _
    | O32 => exact .eaWideFormula gpr _ _
    | O64 => exact .eaWideFormula gpr _ _

end Translate

-- ======== sums at a size

/-- No operand size is above 64 bits. -/
theorem OpSize.bits_le (z : OpSize) : z.bits ≤ 64 := by cases z <;> decide

/-- The address mask keeps the bits of the address size. -/
theorem OpSize.wrapEa_eq (z : OpSize) (a : U64) :
    z.wrapEa a = (a.setWidth z.bits).setWidth 64 := by
  cases z with
  | O16 =>
    apply BitVec.eq_of_toNat_eq
    show (a &&& BitVec.ofNat 64 (2 ^ 16 - 1)).toNat
      = ((a.setWidth 16).setWidth 64).toNat
    rw [Word.toNat_and_mask a 16 (by decide)]
    simp only [BitVec.toNat_setWidth]
    omega
  | O32 =>
    apply BitVec.eq_of_toNat_eq
    show (a &&& 0xFFFFFFFF).toNat = ((a.setWidth 32).setWidth 64).toNat
    rw [Word.toNat_and_low32]
    simp only [BitVec.toNat_setWidth]
    omega
  | O64 => simp [OpSize.wrapEa, OpSize.bits]

/-- Two sums that come to one address at size `z`. -/
def SameEa (z : OpSize) (a b : U64) : Prop :=
  a.setWidth z.bits = b.setWidth z.bits

namespace SameEa

variable {z : OpSize} {a a' b b' : U64}

/-- Sums that agree at an address size, compared below it only. -/
theorem refl (a : U64) : SameEa z a a := rfl

/-- A sum agrees where its parts do. -/
theorem add (ha : SameEa z a a') (hb : SameEa z b b') :
    SameEa z (a + b) (a' + b') := by
  unfold SameEa at *
  rw [BitVec.setWidth_add _ _ z.bits_le, BitVec.setWidth_add _ _ z.bits_le, ha, hb]

/-- Scaled indices agree where the indices do. -/
theorem shl (ha : SameEa z a a') (k : Nat) :
    SameEa z (a <<< k) (a' <<< k) := by
  unfold SameEa at *
  rw [BitVec.setWidth_shiftLeft_of_le z.bits_le,
    BitVec.setWidth_shiftLeft_of_le z.bits_le, ha]

/-- Numbers that agree at a size have the same wrap. -/
theorem wrapEa (h : SameEa z a b) : z.wrapEa a = z.wrapEa b := by
  rw [OpSize.wrapEa_eq, OpSize.wrapEa_eq, h]

end SameEa

/-- An address component may be truncated or not. -/
theorem Cpu.sameEa_eaReg (c : Cpu) (i : U8) :
    SameEa c.asize (c.eaReg i) (c.regs.gpr (i &&& 15)) := by
  unfold SameEa Cpu.eaReg HotRegs.reg64
  cases h : c.asize <;> simp [OpSize.bits]

/-- The address of a wide form is its sum at the address size. -/
theorem Cpu.truncEa_eq {c : Cpu} (h : c.asize ≠ O16) (a : U64) :
    c.truncEa a = c.asize.wrapEa a := by
  rw [OpSize.wrapEa_eq]
  unfold Cpu.truncEa
  cases hz : c.asize with
  | O16 => exact absurd hz h
  | O32 => rfl
  | O64 => simp [OpSize.bits]

namespace DecodedInsn

/-- What the base adds to the address. -/
def basePart (d : DecodedInsn) (gpr : U8 → U64) (next : U64) : U64 :=
  if d.base = RIP then next else if d.base ≠ NONE
    then gpr (d.base &&& 15) else 0

/-- What the index adds to the address. -/
def indexPart (d : DecodedInsn) (gpr : U8 → U64) : U64 :=
  if d.index ≠ NONE then gpr (d.index &&& 15) <<< d.scale.toNat else 0

/-- The address formula before it is cut to the address size. -/
def eaSum (d : DecodedInsn) (gpr : U8 → U64) (next : U64) : U64 :=
  d.disp.signExtend 64 + d.basePart gpr next + d.indexPart gpr

/-- The offset of a formula is its sum wrapped at the address size. -/
theorem eaOff_eq (d : DecodedInsn) (r : HotRegs) (next : U64) :
    d.eaOff r next = d.asize.wrapEa (d.eaSum r.gpr next) := by
  unfold eaOff eaSum basePart indexPart
  dsimp only
  by_cases hrip : d.base = RIP
  · simp only [if_pos hrip]
    split <;> simp
  · simp only [if_neg hrip]
    split <;> split <;> simp

-- The packed fields: a setter is read back, and leaves the others alone.

/-- The packed fields of a formula, each read back from its own bits. -/
theorem seg_setSeg (d : DecodedInsn) {v : U8} (h : v &&& 7 = v) :
    (d.setSeg v).seg = v :=
  Word.insert_and d.segscale h

theorem scale_setSeg (d : DecodedInsn) {v : U8} (h : v &&& 7 = v) :
    (d.setSeg v).scale = d.scale := by
  unfold scale setSeg
  rw [Word.shift_and _ (by decide), Word.shift_and _ (by decide),
    Word.insert_and_apart _ h (by decide)]

theorem scale_setScale (d : DecodedInsn) {v : U8} (h : v &&& 3 = v) :
    (d.setScale v).scale = v := by
  have hv : (v <<< 3) &&& ((3 : U8) <<< 3) = v <<< 3 ∧ v <<< 3 >>> 3 = v := by
    revert h
    generalize v = x
    revert x
    decide
  unfold scale setScale
  rw [Word.shift_and _ (by decide), Word.insert_and d.segscale hv.1, hv.2]

theorem kind_setKind (d : DecodedInsn) (k : OpKind) :
    (d.setKind k).kind = k := by
  have hk : (d.flags &&& ~~~((3 : U8) <<< 3) ||| kindBits k <<< 3) >>> 3 &&& 3
    = kindBits k := by
    rw [Word.shift_and _ (by decide),
      Word.insert_and _ (by cases k <;> decide)]
    cases k <;> decide
  unfold kind setKind
  dsimp only
  rw [hk]
  cases k <;> rfl

/-- A fresh record has the sizes it was made with. -/
theorem asize_new (osize asize : OpSize) (ovr rex : Option U8) :
    (new osize asize ovr rex).asize = asize := by
  show bitsOpsize (opsizeBits asize) = asize
  cases asize <;> decide

theorem scale_new (osize asize : OpSize) (ovr rex : Option U8) :
    (new osize asize ovr rex).scale = 0 := by
  show (ovr.getD OVR_NONE <<< 5) >>> 3 &&& 3 = 0
  generalize ovr.getD OVR_NONE = x
  revert x
  decide

end DecodedInsn

/-- A memory record of the machine before its operand is read. -/
structure Fresh (c : Cpu) (m : ModRm) (d : DecodedInsn) : Prop where
  regField : d.reg = m.reg
  base : d.base = NONE
  index : d.index = NONE
  disp : d.disp = 0
  scale : d.scale = 0
  kind : d.kind = .mem
  asize : d.asize = c.asize

/-- The record the decoder starts an operand from has no base and no index. -/
theorem Cpu.fresh_record (c : Cpu) (m : ModRm) (op : Op)
    (aux : U8) (wb : Bool) :
    Fresh c m ({ c.record op aux wb with reg := m.reg }.setKind .mem) where
  regField := rfl
  base := rfl
  index := rfl
  disp := rfl
  scale := DecodedInsn.scale_new c.osize c.asize c.segOverride c.rex
  kind := DecodedInsn.kind_setKind _ _
  asize := DecodedInsn.asize_new c.osize c.asize c.segOverride c.rex

-- ======== register numbers

/-- A register number's top bit. -/
def TopBit (b : U8) : Prop := b = 0 ∨ b = 8

/-- A REX bit extends a register number by 8 or not at all. -/
theorem topBit_rex (rex : Option U8) (i : Nat) :
    TopBit ((rex.elim 0 fun r => (r >>> i) &&& 1) <<< 3) := by
  cases rex with
  | none => exact Or.inl rfl
  | some r =>
    show TopBit (((r >>> i) &&& 1) <<< 3)
    generalize r >>> i = x
    revert x
    unfold TopBit
    decide

theorem Cpu.topBit_rexB (c : Cpu) : TopBit (c.rexB <<< 3) := by
  unfold Cpu.rexB
  simpa only [BitVec.ushiftRight_zero] using topBit_rex c.rex 0

theorem Cpu.topBit_rexX (c : Cpu) : TopBit (c.rexX <<< 3) := topBit_rex c.rex 1

/-- A register number is neither of the two sentinels. -/
theorem TopBit.regNum {b : U8} (hb : TopBit b) (x : U8) :
    (x &&& 7) ||| b ≠ NONE ∧ (x &&& 7) ||| b ≠ RIP := by
  rcases hb with rfl | rfl <;> revert x <;> decide

namespace DecodedInsn

variable (d : DecodedInsn) (gpr : U8 → U64) (next : U64)

/-- The parts of a formula's sum. -/
theorem basePart_none (h : d.base = NONE) : d.basePart gpr next = 0 := by
  unfold basePart
  rw [h]
  rfl

theorem basePart_reg (h : d.base ≠ NONE ∧ d.base ≠ RIP) :
    d.basePart gpr next = gpr (d.base &&& 15) := by
  unfold basePart
  rw [if_neg h.2, if_pos h.1]

theorem indexPart_none (h : d.index = NONE) : d.indexPart gpr = 0 := by
  unfold indexPart
  rw [h]
  rfl

/-- A scaled index, the scale read back from its two bits. -/
theorem indexPart_scaled {index k : U8} (h : index ≠ NONE) (hk : k &&& 3 = k) :
    ({ d with index }.setScale k).indexPart gpr
      = gpr (index &&& 15) <<< k.toNat := by
  unfold indexPart
  rw [scale_setScale _ hk]
  exact if_pos h

/-- A sum without an index. -/
theorem eaSum_based (h : d.index = NONE) :
    d.eaSum gpr next = d.disp.signExtend 64 + d.basePart gpr next := by
  unfold eaSum
  rw [d.indexPart_none gpr h]
  exact BitVec.add_zero _

/-- Putting in an index adds its scaled value. -/
theorem eaSum_scaled (hnone : d.index = NONE) {index k : U8} (h : index ≠ NONE)
    (hk : k &&& 3 = k) :
    ({ d with index }.setScale k).eaSum gpr next
      = d.eaSum gpr next + gpr (index &&& 15) <<< k.toNat := by
  rw [d.eaSum_based gpr next hnone, ← d.indexPart_scaled gpr h hk]
  rfl

theorem eaSum_setSeg {seg : U8} (h : seg &&& 7 = seg) :
    (d.setSeg seg).eaSum gpr next = d.eaSum gpr next := by
  have hindex : (d.setSeg seg).indexPart gpr = d.indexPart gpr := by
    unfold indexPart
    rw [d.scale_setSeg h]
    rfl
  unfold eaSum
  rw [hindex]
  rfl

/-- Adding a displacement to a record that has none, or none to one that
has. -/
theorem eaSum_addDisp {disp : U32} (h : d.disp = 0 ∨ disp = 0) :
    ({ d with disp := d.disp + disp } : DecodedInsn).eaSum gpr next
      = d.eaSum gpr next + disp.signExtend 64 := by
  have hsum : (d.disp + disp).signExtend 64
    = d.disp.signExtend 64 + disp.signExtend 64 := by
    rcases h with h | h <;> rw [h] <;> simp
  show (d.disp + disp).signExtend 64 + d.basePart gpr next + d.indexPart gpr = _
  rw [hsum]
  unfold eaSum
  ac_rfl

end DecodedInsn

-- ======== in step

/-- The two went through the same fetches from `s`, and their results are
related by `P`. -/
def InStep (s : Machine β) (P : α → γ → Prop) (a : α) (b : γ)
    (s₁ s₂ : Machine β) : Prop :=
  s₁ = s₂ ∧ SameFile s s₁ ∧ P a b

/-- A shared fetch: what follows starts with the same registers. -/
theorem pairs_fetch {s : Machine β} {x : Calm β α} (hx : ReadsOn x) {δ : Type}
    {f : α → Calm β γ} {g : α → Calm β δ}
    {Q : γ → δ → Machine β → Machine β → Prop}
    (h : ∀ a s', SameFile s s' →
      Fallible.Pairs Eq Q ((f a).run s') ((g a).run s')) :
    Fallible.Pairs Eq Q ((x >>= f).run s) ((x >>= g).run s) :=
  Fallible.Pairs.same fun a s' ha => h a s' (hx s a s' ha)

-- ======== the base

/-- A segment number fits the field it is packed into. -/
def SegNum (seg : U8) : Prop := seg &&& 7 = seg

/-- A base under construction: the sum so far is the record's, with its
default segment, and a displacement is parked only when none follows. -/
structure Resolves (s : Machine β) (m : ModRm) (v : U64 × U8)
    (p : U8 × DecodedInsn) : Prop where
  regField : p.2.reg = m.reg
  seg : p.1 = v.2
  segNum : SegNum v.2
  sum : ∀ next, SameEa s.asize v.1 (p.2.eaSum s.regs.gpr next)
  parked : p.2.disp = 0 ∨ m.md = 0
  kind : p.2.kind = .mem
  asize : p.2.asize = s.asize

omit [Bus β] in
/-- Only the registers and the address size count. -/
theorem Resolves.of_same {s s' : Machine β} (hgpr : s'.regs.gpr = s.regs.gpr)
    (hasize : s'.asize = s.asize) {m : ModRm} {v : U64 × U8}
    {p : U8 × DecodedInsn} (hr : Resolves s m v p) : Resolves s' m v p where
  regField := hr.regField
  seg := hr.seg
  segNum := hr.segNum
  sum := by
    rw [hasize, hgpr]
    exact hr.sum
  parked := hr.parked
  kind := hr.kind
  asize := hr.asize.trans hasize.symm

/-- The segment numbers fit their three bits. -/
theorem segNum_ds : SegNum reg.DS := by
  unfold SegNum
  decide

theorem segNum_ss_ds (c : Prop) [Decidable c] :
    SegNum (if c then reg.SS else reg.DS) := by
  unfold SegNum
  split <;> decide

omit [Bus β] in
/-- A base register. -/
theorem Resolves.reg {s : Machine β} {m : ModRm} {d : DecodedInsn}
    (hd : Fresh s.toCpu m d)
    {base seg : U8} (hbase : base ≠ NONE ∧ base ≠ RIP) (hseg : SegNum seg) :
    Resolves s m (s.eaReg base, seg) (seg, { d with base }) where
  regField := hd.regField
  seg := rfl
  segNum := hseg
  sum := by
    intro next
    show SameEa s.asize (s.eaReg base)
      (DecodedInsn.eaSum { d with base } _ next)
    rw [DecodedInsn.eaSum_based { d with base } _ _ hd.index,
      DecodedInsn.basePart_reg { d with base } _ _ hbase, hd.disp]
    simpa using s.sameEa_eaReg base
  parked := Or.inl hd.disp
  kind := hd.kind
  asize := hd.asize

omit [Bus β] in
/-- The displacement in the place of a base register. -/
theorem Resolves.disp {s : Machine β} {m : ModRm} {d : DecodedInsn}
    (hd : Fresh s.toCpu m d) (hm : m.md = 0) (disp : U32) :
    Resolves s m (disp.signExtend 64, reg.DS) (reg.DS, { d with disp }) where
  regField := hd.regField
  seg := rfl
  segNum := segNum_ds
  sum := by
    intro next
    show SameEa s.asize (disp.signExtend 64)
      (DecodedInsn.eaSum { d with disp } _ next)
    rw [DecodedInsn.eaSum_based { d with disp } _ _ hd.index,
      DecodedInsn.basePart_none { d with disp } _ _ hd.base]
    simpa using SameEa.refl _
  parked := Or.inr hm
  kind := hd.kind
  asize := hd.asize

omit [Bus β] in
/-- An index on top of a base. -/
theorem Resolves.index {s : Machine β} {m : ModRm} {v : U64 × U8}
    {p : U8 × DecodedInsn}
    (hr : Resolves s m v p) (hp : p.2.index = NONE) {index scale : U8}
    (hindex : index ≠ NONE) (hscale : scale &&& 3 = scale) :
    Resolves s m (v.1 + s.eaReg index <<< scale.toNat, v.2)
      (p.1, { p.2 with index }.setScale scale) where
  regField := hr.regField
  seg := hr.seg
  segNum := hr.segNum
  sum := by
    intro next
    dsimp only
    rw [p.2.eaSum_scaled _ next hp hindex hscale]
    exact (hr.sum next).add ((s.sameEa_eaReg index).shl _)
  parked := hr.parked
  kind := hr.kind
  asize := hr.asize

section Pairs

variable {s : Machine β} {m : ModRm} {d : DecodedInsn}

/-- The base of a SIB byte, executor and decoder side by side. -/
theorem pairs_sibBase (hd : Fresh s.toCpu m d) (hb : TopBit m.b) (x : U8) :
    Fallible.Pairs Eq (InStep s fun v p => Resolves s m v p ∧ p.2.index = NONE)
      ((sibBase m (x &&& 7)).run s)
        ((sibBaseFormula m (x &&& 7) d).run s) := by
  unfold sibBase sibBaseFormula
  split
  case isTrue h =>
    refine pairs_fetch .fetch32 fun disp s' hs => ?_
    exact ⟨rfl, hs, .disp hd h.2 disp, hd.index⟩
  case isFalse =>
    refine ⟨rfl, .refl s, .reg hd (hb.regNum x) ?_, hd.index⟩
    exact segNum_ss_ds _

/-- A SIB byte: base, then scaled index. -/
theorem pairs_sib (hd : Fresh s.toCpu m d) (hb : TopBit m.b) :
    Fallible.Pairs Eq (InStep s (Resolves s m)) ((sib m).run s)
      ((sibFormula m d).run s) := by
  unfold sib sibFormula
  refine pairs_fetch .fetch8 fun sib s' hs => ?_
  rw [Bounded.run_bind, Bounded.run_bind, Fallible.bind_of_ok (run_self s'),
    Fallible.bind_of_ok (run_self s')]
  have hd' : Fresh s'.toCpu m d :=
    { hd with asize := hd.asize.trans hs.asize.symm }
  refine Fallible.Pairs.bind (pairs_sibBase hd' hb sib) ?_
  rintro ⟨base, seg⟩ ⟨seg', d'⟩ s₁ _ ⟨rfl, hs₁, hr, hnone⟩
  have hindex : (sib >>> 3 &&& 7) ||| (s'.rexX <<< 3) ≠ NONE :=
    (s'.topBit_rexX.regNum _).1
  have hscale : sib >>> 6 &&& 3 = sib >>> 6 := by
    generalize sib = x
    revert x
    decide
  have hr₁ : Resolves s₁ m (base, seg) (seg', d') :=
    hr.of_same hs₁.gpr hs₁.asize
  refine ⟨rfl, hs.trans hs₁,
    .of_same (hs.trans hs₁).gpr.symm (hs.trans hs₁).asize.symm ?_⟩
  by_cases h4 : (sib >>> 3 &&& 7) ||| (s'.rexX <<< 3) = 4
  · rw [if_pos h4, if_neg (not_not.2 h4)]
    exact hr₁
  · rw [if_neg h4, if_pos h4]
    exact hr₁.index hnone hindex hscale

/-- The base of a ModRM operand. -/
theorem pairs_eaBase (hd : Fresh s.toCpu m d) (hb : TopBit m.b) :
    Fallible.Pairs Eq (InStep s (Resolves s m))
      ((eaBase m).run s) ((eaBaseFormula m d).run s) := by
  unfold eaBase eaBaseFormula
  split
  · exact pairs_sib hd hb
  · exact ⟨rfl, .refl s, .reg hd (hb.regNum _) (segNum_ss_ds _)⟩

end Pairs

-- ======== the operand

/-- The record is a memory operand, resolved under the registers of `c`
with the next instruction at `next`. -/
def Denotes (c : Cpu) (m : ModRm) (next : U64) (op : Operand)
    (d : DecodedInsn) : Prop :=
  d.reg = m.reg ∧ d.kind = .mem
    ∧ op = .mem d.seg (d.eaOff c.regs.toHotRegs next)

/-- The same state but for the note that the operand was RIP-relative,
which the fused path takes. -/
def Machine.ReadAs (s₁ s₂ : Machine β) : Prop :=
  s₁ = s₂.withDecode { s₂.toDecodeState with usedRipRel := s₁.usedRipRel }

/-- Both have read the operand, and the record denotes it: the next
instruction is where the fused path left off, past the immediate. -/
def OperandRead (s : Machine β) (m : ModRm) (op : Operand) (d : DecodedInsn)
    (s₁ s₂ : Machine β) : Prop :=
  s₁.ReadAs s₂ ∧ SameFile s s₁
    ∧ Denotes s.toCpu m (s₁.regs.rip + s₁.immLen.setWidth 64) op d

/-- A segment override fits too. -/
theorem Cpu.segNum_segOr {c : Cpu} (hseg : ∀ i ∈ c.segOverride, SegNum i)
    {seg : U8} (h : SegNum seg) : SegNum (c.segOr seg) := by
  unfold Cpu.segOr
  cases ho : c.segOverride with
  | none => exact h
  | some i => exact hseg i ho

/-- The 16-bit table, read off the table of its registers. -/
theorem Cpu.ea16Base_eq (c : Cpu) (rm : U8) :
    c.ea16Base rm
      = ((if (ea16Regs rm).1 = NONE then 0 else c.regs.reg16 (ea16Regs rm).1)
          + (if (ea16Regs rm).2.1 = NONE then 0 else c.regs.reg16 (ea16Regs rm).2.1),
        (ea16Regs rm).2.2) := by
  unfold Cpu.ea16Base ea16Regs
  dsimp only
  split_ifs <;> simp_all

section Operand

variable {s : Machine β} {m : ModRm} {d : DecodedInsn}

omit [Bus β] in
/-- A wide form: the sum cut to the address size. -/
theorem Denotes.wide {s' : Machine β} (hs : SameFile s s') (hz : s.asize ≠ O16)
    (hovr : ∀ i ∈ s.segOverride, SegNum i) (hreg : d.reg = m.reg)
    (hkind : d.kind = .mem) (hasize : d.asize = s.asize)
    {seg : U8} (hseg : SegNum seg) {v next : U64}
    (hsum : SameEa s.asize v (d.eaSum s.regs.gpr next)) :
    Denotes s.toCpu m next (.mem (s'.segOr seg) (s'.truncEa v))
      (d.setSeg (s'.segOr seg)) := by
  have hnum : SegNum (s'.segOr seg) :=
    Cpu.segNum_segOr (fun i hi => hovr i (by rwa [← hs.segOverride])) hseg
  refine ⟨hreg, hkind, ?_⟩
  rw [d.seg_setSeg hnum, DecodedInsn.eaOff_eq, d.eaSum_setSeg _ _ hnum,
    Cpu.truncEa_eq (by rwa [hs.asize]), hs.asize, hsum.wrapEa]
  show _ = Operand.mem _ (d.asize.wrapEa _)
  rw [hasize]

/-- A byte extended in two steps. -/
theorem signExtend_8_32_64 (b : U8) :
    (b.signExtend 32).signExtend 64 = b.signExtend 64 := by
  apply BitVec.eq_of_toInt_eq
  rw [BitVec.toInt_signExtend_of_le (by decide),
    BitVec.toInt_signExtend_of_le (by decide),
    BitVec.toInt_signExtend_of_le (by decide)]

/-- A displacement of one or four bytes is fetched as a doubleword and
extended. -/
theorem fetchDisp_eq (md : U8) :
    (fetchDisp md : Calm β U64) = (·.signExtend 64) <$> fetchDisp32 md := by
  unfold fetchDisp fetchDisp32 fetchSimm8
  split
  · rw [map_pure]
    rfl
  split
  · simp only [Functor.map_map, signExtend_8_32_64]
  · rfl

/-- Fetching a displacement advances past its bytes. -/
theorem ReadsOn.fetchDisp32 (md : U8) :
    ReadsOn (fetchDisp32 md : Calm β U32) := by
  unfold X64.fetchDisp32
  split
  · exact .pure _
  split
  · exact .map _ .fetch8
  · exact .fetch32

/-- Without a displacement nothing is fetched. -/
theorem fetchDisp32_zero {disp : U32} {s' : Machine β}
    (h : (fetchDisp32 0).run s = (.ok disp, s')) : disp = 0 := by
  cases h
  rfl

/-- An operand that is a displacement alone, RIP-relative in 64-bit mode. -/
theorem pairs_eaDisp32 (hd : Fresh s.toCpu m d) (hz : s.asize ≠ O16)
    (hovr : ∀ i ∈ s.segOverride, SegNum i) :
    Fallible.Pairs Eq (OperandRead s m) (eaDisp32.run s)
      ((disp32Formula d).run s) := by
  unfold eaDisp32 disp32Formula
  refine pairs_fetch .fetch32 fun disp s' hs => ?_
  rw [Bounded.run_bind, Bounded.run_bind, Fallible.bind_of_ok (run_self s'),
    Fallible.bind_of_ok (run_self s')]
  cases hm : s'.m64 with
  | false =>
    refine ⟨rfl, hs,
      .wide (d := { d with disp }) hs hz hovr hd.regField hd.kind
      hd.asize segNum_ds ?_⟩
    rw [DecodedInsn.eaSum_based { d with disp } _ _ hd.index,
      DecodedInsn.basePart_none { d with disp } _ _ hd.base]
    simpa using SameEa.refl _
  | true =>
    refine ⟨rfl, hs.trans ⟨rfl, rfl⟩,
      .wide (d := { d with disp, base := RIP }) hs hz hovr hd.regField hd.kind
        hd.asize segNum_ds ?_⟩
    rw [DecodedInsn.eaSum_based { d with disp, base := RIP } _ _ hd.index]
    show SameEa _ (_ + disp.signExtend 64) (disp.signExtend 64 + _)
    rw [BitVec.add_comm]
    exact .refl _

/-- An operand at 32- or 64-bit address size. -/
theorem pairs_eaWide (hd : Fresh s.toCpu m d) (hb : TopBit m.b)
    (hz : s.asize ≠ O16) (hovr : ∀ i ∈ s.segOverride, SegNum i) :
    Fallible.Pairs Eq (OperandRead s m) ((eaWide m).run s)
      ((eaWideFormula m d).run s) := by
  unfold eaWide eaWideFormula
  split
  · exact pairs_eaDisp32 hd hz hovr
  refine Fallible.Pairs.bind (pairs_eaBase hd hb) ?_
  rintro ⟨base, seg⟩ ⟨_, d'⟩ s₁ _ ⟨rfl, hs₁, hr⟩
  have hseg : _ = seg := hr.seg
  subst hseg
  dsimp only
  rw [fetchDisp_eq, bind_map_left]
  refine Fallible.Pairs.same fun disp s₂ hdisp => ?_
  have hs₂ : SameFile s s₂ := hs₁.trans (ReadsOn.fetchDisp32 _ _ _ _ hdisp)
  -- A displacement is parked only where none is fetched.
  have hparked : d'.disp = 0 ∨ disp = 0 := hr.parked.imp_right fun hm => by
    rw [hm] at hdisp
    exact fetchDisp32_zero hdisp
  refine ⟨rfl, hs₂,
    .wide (d := { d' with disp := d'.disp + disp }) hs₂ hz hovr hr.regField
    hr.kind hr.asize
    hr.segNum ?_⟩
  rw [d'.eaSum_addDisp _ _ hparked]
  exact (hr.sum _).add (.refl _)

omit [Bus β] in
/-- A 16-bit form: the sum of words. -/
theorem Denotes.narrow {s' : Machine β} (hs : SameFile s s')
    (hz : s.asize = O16)
    (hovr : ∀ i ∈ s.segOverride, SegNum i) (hreg : d.reg = m.reg)
    (hkind : d.kind = .mem) (hasize : d.asize = s.asize)
    {seg : U8} (hseg : SegNum seg) {v : U16} {next : U64}
    (hsum : (d.eaSum s.regs.gpr next).setWidth 16 = v) :
    Denotes s.toCpu m next (.mem (s'.segOr seg) (v.setWidth 64))
      (d.setSeg (s'.segOr seg)) := by
  have hnum : SegNum (s'.segOr seg) :=
    Cpu.segNum_segOr (fun i hi => hovr i (by rwa [← hs.segOverride])) hseg
  refine ⟨hreg, hkind, ?_⟩
  rw [d.seg_setSeg hnum, DecodedInsn.eaOff_eq,
    d.eaSum_setSeg _ _ hnum, OpSize.wrapEa_eq]
  show _ = Operand.mem _ ((BitVec.setWidth d.asize.bits _).setWidth 64)
  rw [hasize, hz, ← hsum]
  rfl

/-- A word displacement kept at 32 bits. -/
theorem word_disp (disp : U16) :
    ((disp.setWidth 32).signExtend 64).setWidth 16 = disp := by
  rw [BitVec.signExtend_eq_setWidth_of_msb_false
    (by simp [BitVec.msb_setWidth])]
  simp

/-- The table names registers, or no index. -/
theorem ea16Regs_base (rm : U8) :
    (ea16Regs rm).1 ≠ NONE ∧ (ea16Regs rm).1 ≠ RIP := by
  unfold ea16Regs
  split_ifs <;> decide

/-- The segments of the 16-bit forms. -/
theorem ea16Regs_seg (rm : U8) : SegNum (ea16Regs rm).2.2 := by
  unfold ea16Regs SegNum
  split_ifs <;> decide

/-- The record of a table row sums to the row. -/
theorem Fresh.sum16 {c : Cpu} (hd : Fresh c m d) (rm : U8)
    (disp : U16) (next : U64) :
    (DecodedInsn.eaSum { d with
        base := (ea16Regs rm).1, index := (ea16Regs rm).2.1,
        disp := disp.setWidth 32 }
      c.regs.gpr next).setWidth 16 = (c.ea16Base rm).1 + disp := by
  rw [c.ea16Base_eq]
  unfold DecodedInsn.eaSum
  rw [BitVec.setWidth_add _ _ (by decide), BitVec.setWidth_add _ _ (by decide),
    word_disp, DecodedInsn.basePart_reg _ _ _ (ea16Regs_base rm)]
  have hscale : ∀ base index disp,
      (DecodedInsn.scale { d with base, index, disp }).toNat = 0 :=
    fun _ _ _ => congrArg BitVec.toNat hd.scale
  unfold DecodedInsn.indexPart
  rw [hscale, if_neg (ea16Regs_base rm).1]
  by_cases hi : (ea16Regs rm).2.1 = NONE
  · rw [if_pos hi, if_neg (not_not.2 hi)]
    simp [HotRegs.reg16, BitVec.add_comm]
  · rw [if_neg hi, if_pos hi]
    simp only [HotRegs.reg16, BitVec.shiftLeft_zero]
    ac_rfl

/-- An operand at 16-bit address size. -/
theorem pairs_ea16 (hd : Fresh s.toCpu m d) (hz : s.asize = O16)
    (hovr : ∀ i ∈ s.segOverride, SegNum i) :
    Fallible.Pairs Eq (OperandRead s m) ((ea16 m).run s)
      ((ea16Formula m d).run s) := by
  unfold ea16 ea16Formula
  split
  · refine pairs_fetch .fetch16 fun disp s' hs => ?_
    refine ⟨rfl, hs,
      .narrow (d := { d with disp := disp.setWidth 32 }) hs hz hovr
      hd.regField hd.kind
      hd.asize segNum_ds ?_⟩
    rw [DecodedInsn.eaSum_based { d with disp := disp.setWidth 32 }
      _ _ hd.index,
      DecodedInsn.basePart_none { d with disp := disp.setWidth 32 } _ _ hd.base]
    simpa using word_disp disp
  · have hsum := hd.sum16 (m.byte &&& 7)
    have hnum := ea16Regs_seg (m.byte &&& 7)
    have hseg : (s.ea16Base (m.byte &&& 7)).2
      = (ea16Regs (m.byte &&& 7)).2.2 := by
      rw [Cpu.ea16Base_eq]
    generalize ea16Regs (m.byte &&& 7) = row at *
    obtain ⟨base, index, seg⟩ := row
    refine pairs_fetch (.fetchDisp16 _) fun disp s' hs => ?_
    have hbase : s'.ea16Base (m.byte &&& 7) = s.ea16Base (m.byte &&& 7) := by
      rw [Cpu.ea16Base_eq, Cpu.ea16Base_eq]
      unfold HotRegs.reg16
      rw [hs.gpr]
    rw [Bounded.run_bind, Bounded.run_bind, Fallible.bind_of_ok (run_self s'),
      Fallible.bind_of_ok (run_self s'), hbase]
    generalize s.ea16Base (m.byte &&& 7) = sum at *
    obtain ⟨v, _⟩ := sum
    subst hseg
    exact ⟨rfl, hs,
      .narrow (d := { d with base, index, disp := disp.setWidth 32 }) hs hz hovr
      hd.regField hd.kind hd.asize hnum (hsum disp _)⟩

/-- An operand at any address size. -/
theorem pairs_ea (hd : Fresh s.toCpu m d) (hb : TopBit m.b)
    (hovr : ∀ i ∈ s.segOverride, SegNum i) :
    Fallible.Pairs Eq (OperandRead s m)
      ((match s.asize with | O16 => ea16 m | _ => eaWide m : Calm β Operand).run s)
      ((eaFormula m d).run s) := by
  unfold eaFormula
  rw [Bounded.run_bind, Fallible.bind_of_ok (run_self s)]
  cases hz : s.asize with
  | O16 => exact pairs_ea16 hd hz hovr
  | O32 => exact pairs_eaWide hd hb (by rw [hz]; decide) hovr
  | O64 => exact pairs_eaWide hd hb (by rw [hz]; decide) hovr

end Operand

-- ======== the agreement

/-- What a record is worth against the ModRM byte and the operand of the
fused path: the same register fields and, in any registers `gpr`, with the
length the instruction turns out to have, the same operand. -/
def DecodedInsn.StandsFor (d : DecodedInsn) (sub : U8)
    (m : ModRm) (op : Operand) (gpr : U8 → U64) (next : U64) : Prop :=
  sub = m.sub ∧ d.reg = m.reg ∧ ∀ (c : Cpu) (len : U8), c.regs.gpr = gpr →
    c.startRip + len.setWidth 64 = next → c.eaOperand { d with len } = op

/-- A record that denotes an operand here denotes it wherever the registers
are the same and the next instruction is the same. -/
theorem Denotes.standsFor {c : Cpu} {m : ModRm} {next : U64}
    {op : Operand} {d : DecodedInsn}
    (h : Denotes c m next op d) : d.StandsFor m.sub m op c.regs.gpr next := by
  obtain ⟨hreg, hkind, rfl⟩ := h
  refine ⟨rfl, hreg, fun c' len hgpr hlen => ?_⟩
  unfold Cpu.eaOperand
  rw [if_neg (by show d.kind ≠ .reg; rw [hkind]; decide), hlen,
    DecodedInsn.eaOff_eq, DecodedInsn.eaOff_eq, hgpr]
  rfl

/-- Under the machine's own registers. -/
theorem pairs_modrm {s : Machine β} (hovr : ∀ i ∈ s.segOverride, SegNum i)
    (op : Op) (aux : U8) (wb : Bool) :
    Fallible.Pairs Eq
      (fun r p s₁ s₂ => s₁.ReadAs s₂
        ∧ p.2.StandsFor p.1 r.1 r.2 s.regs.gpr
          (s₁.regs.rip + s₁.immLen.setWidth 64))
      (modrm.run s) ((decodeModrm (s.record op aux wb)).run s) := by
  unfold modrm decodeModrm
  refine pairs_fetch .fetch8 fun byte s' hs => ?_
  rw [Bounded.run_bind, Bounded.run_bind, Fallible.bind_of_ok (run_self s'),
    Fallible.bind_of_ok (run_self s')]
  dsimp only
  have hb : TopBit (s'.rexB <<< 3) := s'.topBit_rexB
  generalize hmod : (⟨byte, s'.rexR <<< 3, s'.rexB <<< 3⟩ : ModRm) = m
  have hbm : TopBit m.b := by rw [← hmod]; exact hb
  split
  · refine ⟨rfl, rfl, rfl, fun c len hc hlen => ?_⟩
    unfold Cpu.eaOperand
    exact if_pos (DecodedInsn.kind_setKind _ _)
  · have hd := s.fresh_record m op aux wb
    have hd' : Fresh s'.toCpu m _ :=
      { hd with asize := hd.asize.trans hs.asize.symm }
    have hovr' : ∀ i ∈ s'.segOverride, SegNum i := by rwa [hs.segOverride]
    refine Fallible.Pairs.bind (pairs_ea hd' hbm hovr') ?_
    rintro o d s₁ s₂ ⟨hread, hs₁, hden⟩
    have hstands := hden.standsFor
    rw [hs.gpr] at hstands
    exact ⟨hread, hstands⟩

/-- **The two effective addresses.** From any state decode an operand into
a record, and resolve it with the fused path in whatever general registers
there are: both fail alike, or both read the same bytes, and the record
evaluated in those registers is the operand of the fused path. The length
a RIP-relative displacement counts from is that of the bytes read and of
the immediate announced behind them. -/
theorem eaOperand_agrees64 (s : Machine β) (hovr : ∀ i ∈ s.segOverride, i < 6)
    (op : Op) (aux : U8) (wb : Bool) (gpr : U8 → U64) :
    Fallible.Pairs (fun s₁ s₂ => s₁ = s₂.withGpr gpr)
      (fun r p s₁ s₂ => s₁.ReadAs (s₂.withGpr gpr)
        ∧ p.2.StandsFor p.1 r.1 r.2 gpr (s₁.regs.rip + s₁.immLen.setWidth 64))
      (modrm.run (s.withGpr gpr))
        ((decodeModrm (s.record op aux wb)).run s) := by
  have hnum : ∀ i ∈ s.segOverride, SegNum i := by
    intro i hi
    have h6 := hovr i hi
    revert h6
    generalize i = x
    revert x
    unfold SegNum
    decide
  have hpair := pairs_modrm (s := s.withGpr gpr) hnum op aux wb
  rw [show (s.withGpr gpr).record op aux wb = s.record op aux wb from rfl,
    Blind.decodeModrm gpr _ s] at hpair
  exact Fallible.Pairs.image (T := fun t : Machine β => t.withGpr gpr) hpair

/-- `FS:[RIP + 05050505]` with an immediate byte behind it. -/
def fsRipRel : Machine (FlatBus Unit) :=
  { Cpu.new with
    m64 := true
    asize := O64
    osize := O32
    segOverride := some reg.FS
    immLen := 1
    bus := { mem := fun _ => 0x05, ports := () } }

theorem eaOperand_agrees64_fsRipRel :
    Fallible.Pairs (fun s₁ s₂ => s₁ = s₂.withGpr fun _ => 7)
      (fun r p s₁ s₂ => s₁.ReadAs (s₂.withGpr fun _ => 7)
        ∧ p.2.StandsFor p.1 r.1 r.2 (fun _ => 7)
          (s₁.regs.rip + s₁.immLen.setWidth 64))
      (modrm.run (fsRipRel.withGpr fun _ => 7))
      ((decodeModrm (fsRipRel.record .AluGrpImm8 0 false)).run fsRipRel) :=
  eaOperand_agrees64 fsRipRel (fun i hi => by cases hi; decide)
    .AluGrpImm8 0 false _

end Remu.X64
