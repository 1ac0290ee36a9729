/-
The two effective addresses of an operand.

The fused `modrm` consumes an operand's bytes and resolves its address on
the spot. The decoder's `decodeModrm` consumes the same bytes into a
record, an address formula over register numbers, that `eaOperand`
evaluates later, in whatever registers there are then. Both tables are
written out twice, with every exception of the encoding; the record keeps
a base scaled for want of an index as an index without a base.

# Two halves

Consuming an operand is blind to the general registers (`Blind`): a record
decoded under one register file is the record decoded under any other. And
under one register file the two go through the same fetches and agree on
the sum (`Resolves`), of doublewords, or of words where the record's sum
is cut only at the end.
-/
import Remu.Lib.Fields
import Remu.Lib.Paired
import Remu.X32.Decode
import Remu.X32.Reading

namespace Remu.X32

variable {β : Type} [Bus β] {α γ : Type}

-- ======== blind to the registers

/-- The machine with other general registers. -/
def Machine.withGpr {β : Type} (s : Machine β) (gpr : U8 → U32) : Machine β :=
  { s with regs := { s.regs with gpr } }

/-- `x` cannot tell one set of general registers from another. -/
def Blind (gpr : U8 → U32) (x : Calm β α) : Prop :=
  Fallible.Commutes (·.withGpr gpr) x.run

namespace Blind

variable {gpr : U8 → U32}

/-- The closure rules; a fetch and a walk are put together by them. -/
theorem pure (a : α) : Blind gpr (pure a : Calm β α) :=
  Fallible.Commutes.pure a

theorem throw (e : Exception) : Blind gpr (throw e : Calm β α) :=
  Fallible.Commutes.throw e

/-- A sequence is blind to what its parts are blind to. -/
theorem bind {x : Calm β α} {f : α → Calm β γ} (hx : Blind gpr x)
    (hf : ∀ a, Blind gpr (f a)) :
    Blind gpr (x >>= f) := Fallible.Commutes.bind hx hf

/-- The machine is read, but not its general registers. -/
theorem self_bind {f : Machine β → Calm β α}
    (hsame : ∀ s, f (s.withGpr gpr) = f s)
    (hf : ∀ s, Blind gpr (f s)) : Blind gpr (self >>= f) :=
  Fallible.Commutes.get_bind (fun s => by rw [hsame]) hf

theorem map {x : Calm β α} (g : α → γ) (hx : Blind gpr x) :
    Blind gpr (g <$> x) := by
  rw [map_eq_pure_bind]
  exact hx.bind fun _ => .pure _

theorem raiseIf (c : Prop) [Decidable c] (e : Exception) :
    Blind gpr (raiseIf c e : Calm β Unit) := by
  unfold X32.raiseIf
  split
  · exact .throw e
  · exact .pure ()

theorem whenever (c : Prop) [Decidable c] {m : Calm β Unit}
    (hm : Blind gpr m) :
    Blind gpr (whenever c m) := by
  unfold X32.whenever
  split
  · exact hm
  · exact .pure ()

theorem note (g : DecodeState → DecodeState) :
    Blind gpr (modifyDecode g : Calm β Unit) :=
  fun _ => rfl

theorem setCr2 (v : U32) : Blind gpr (setCr2 v : Calm β Unit) := fun _ => rfl

theorem modifyTlb (g : Tlb → Tlb) : Blind gpr (modifyTlb g : Calm β Unit) :=
  fun _ => rfl

theorem nextEip : Blind gpr
    (modifyHot (fun r => { r with eip := r.eip + 1 }) : Calm β Unit) :=
  fun _ => rfl

/-- A store goes by its address and value, not by registers. -/
theorem pageStore (first last : U32) (w : β → β)
    (hpage : last >>> 12 = first >>> 12)
    (h : ∀ b, BusStore b first last (w b)) :
    Blind gpr (pageStore first last w hpage h : Calm β Unit) := fun _ => rfl

theorem touchBus (f : β → α × β) (h : ∀ b, BusTouch b (f b).2) :
    Blind gpr (touchBus f h : Calm β α) := fun _ => rfl

end Blind

section Fetch

variable (gpr : U8 → U32)

theorem Blind.faultIf (c : Prop) [Decidable c] (lin : U32)
    (write present : Bool) :
    Blind gpr (faultIf c lin write present : Calm β Unit) := by
  unfold X32.faultIf
  split
  · exact (Blind.setCr2 _).bind fun _ => .self_bind (fun _ => rfl)
      fun _ => .throw _
  · exact .pure ()

/-- A walk reads the tables, CR registers and nothing of the file. -/
theorem Blind.walk (lin : U32) (write : Bool) :
    Blind gpr (walk lin write : Calm β (Translated lin)) := by
  refine .self_bind (fun _ => rfl) fun s =>
    (Blind.touchBus _ _).bind fun pde =>
    (Blind.faultIf gpr _ _ _ _).bind fun _ =>
      (Blind.touchBus _ _).bind fun e =>
    (Blind.faultIf gpr _ _ _ _).bind fun _ =>
      .self_bind (fun _ => rfl) fun _ =>
    (Blind.faultIf gpr _ _ _ _).bind fun _ => ?_
  exact (Blind.whenever _ (.pageStore _ _ _ _ _)).bind fun _ =>
    (Blind.whenever _ (.pageStore _ _ _ _ _)).bind fun _ =>
    (Blind.modifyTlb _).bind fun _ => .pure _

theorem Blind.translate (lin : U32) (write : Bool) :
    Blind gpr (translate lin write : Calm β (Translated lin)) := by
  refine .self_bind (fun _ => rfl) fun s => ?_
  dsimp only
  split
  · exact .pure _
  · exact .walk gpr _ _

theorem Blind.linRead8 (lin : U32) : Blind gpr (linRead8 lin : Calm β U8) := by
  refine .self_bind (fun _ => rfl) fun s => ?_
  split
  · exact .touchBus _ _
  · exact (Blind.translate gpr _ _).bind fun _ => .touchBus _ _

/-- A fetched byte does not depend on the general registers. -/
theorem Blind.fetch8 : Blind gpr (fetch8 : Calm β U8) :=
  .self_bind (fun _ => rfl) fun _ => (Blind.raiseIf _ _).bind fun _ =>
    (Blind.note _).bind fun _ =>
    .self_bind (fun _ => rfl) fun _ => (Blind.raiseIf _ _).bind fun _ =>
    (Blind.linRead8 gpr _).bind fun _ => Blind.nextEip.bind fun _ => .pure _

theorem Blind.readHalves {w : Nat} {half : Calm β (BitVec w)}
    (h : Blind gpr half) :
    Blind gpr (readHalves half half) :=
  h.bind fun _ => h.bind fun _ => .pure _

theorem Blind.fetch16 : Blind gpr (fetch16 : Calm β U16) :=
  .readHalves gpr (.fetch8 gpr)

theorem Blind.fetch32 : Blind gpr (fetch32 : Calm β U32) :=
  .readHalves gpr (.fetch16 gpr)

-- ======== formulas

theorem Blind.fetchDisp16 (md : U8) :
    Blind gpr (fetchDisp16 md : Calm β U16) := by
  unfold X32.fetchDisp16
  split
  · exact .pure _
  split
  · exact .map _ (.fetch8 gpr)
  · exact .fetch16 gpr

theorem Blind.fetchDisp (md : U8) : Blind gpr (fetchDisp md : Calm β U32) := by
  unfold X32.fetchDisp
  split
  · exact .pure _
  split
  · exact .map _ (.fetch8 gpr)
  · exact .fetch32 gpr

/-- Building a formula does not read the general registers. -/
theorem Blind.ea16Formula (m : ModRm) (d : DecodedInsn) :
    Blind gpr (ea16Formula m d : Calm β DecodedInsn) := by
  unfold X32.ea16Formula
  split
  · exact (Blind.fetch16 gpr).bind fun _ => .self_bind (fun _ => rfl)
      fun _ => .pure _
  · exact (Blind.fetchDisp16 gpr _).bind fun _ => .self_bind (fun _ => rfl)
      fun _ => .pure _

theorem Blind.sibBaseFormula (m : ModRm) (base : U8) (d : DecodedInsn) :
    Blind gpr (sibBaseFormula m base d : Calm β
      (U8 × Bool × DecodedInsn)) := by
  unfold X32.sibBaseFormula
  split
  · exact (Blind.fetch32 gpr).bind fun _ => .pure _
  · exact .pure _

theorem Blind.eaBaseFormula (m : ModRm) (d : DecodedInsn) :
    Blind gpr (eaBaseFormula m d : Calm β (U8 × DecodedInsn)) := by
  unfold X32.eaBaseFormula
  split
  · exact (Blind.fetch8 gpr).bind fun _ =>
      (Blind.sibBaseFormula gpr _ _ _).bind fun _ => .pure _
  · exact .pure _

theorem Blind.ea32Formula (m : ModRm) (d : DecodedInsn) :
    Blind gpr (ea32Formula m d : Calm β DecodedInsn) := by
  unfold X32.ea32Formula
  split
  · exact (Blind.fetch32 gpr).bind fun _ => .self_bind (fun _ => rfl)
      fun _ => .pure _
  · exact (Blind.eaBaseFormula gpr _ _).bind fun _ =>
      (Blind.fetchDisp gpr _).bind fun _ =>
      .self_bind (fun _ => rfl) fun _ => .pure _

/-- A record is decoded without a look at the general registers. -/
theorem Blind.decodeModrm (d : DecodedInsn) :
    Blind gpr (decodeModrm d : Calm β (U8 × DecodedInsn)) := by
  refine (Blind.fetch8 gpr).bind fun byte => ?_
  dsimp only
  split
  · exact .pure _
  · refine .self_bind (fun _ => rfl) fun s => Blind.bind ?_ fun _ => .pure _
    split
    · exact .ea32Formula gpr _ _
    · exact .ea16Formula gpr _ _

end Fetch

-- ======== the file

/-- The registers and prefixes an operand is resolved with. -/
structure SameFile (s s' : Machine β) : Prop where
  gpr : s'.regs.gpr = s.regs.gpr
  asize32 : s'.asize32 = s.asize32
  osize32 : s'.osize32 = s.osize32
  segOverride : s'.segOverride = s.segOverride

omit [Bus β] in
theorem SameFile.refl (s : Machine β) : SameFile s s := ⟨rfl, rfl, rfl, rfl⟩

omit [Bus β] in
/-- Runs that leave the file alone compose. -/
theorem SameFile.trans {s s' s'' : Machine β} (h : SameFile s s')
    (h' : SameFile s' s'') :
    SameFile s s'' :=
  ⟨h'.gpr.trans h.gpr, h'.asize32.trans h.asize32, h'.osize32.trans h.osize32,
    h'.segOverride.trans h.segOverride⟩

omit [Bus β] in
theorem SameFile.symm {s s' : Machine β} (h : SameFile s s') : SameFile s' s :=
  ⟨h.gpr.symm, h.asize32.symm, h.osize32.symm, h.segOverride.symm⟩

/-- A successful run only reads on. -/
def ReadsOn (x : Calm β α) : Prop :=
  ∀ s a s', x.run s = (.ok a, s') → SameFile s s'

/-- What works on memory alone moves no register. -/
theorem MemOnly.readsOn {x : Calm β α} (h : MemOnly x) : ReadsOn x := by
  intro s a s' hx
  obtain ⟨hr, hd⟩ := h s a s' hx
  refine ⟨by rw [hr], ?_, ?_, ?_⟩
  · show s'.toDecodeState.asize32 = s.toDecodeState.asize32
    rw [hd]
  · show s'.toDecodeState.osize32 = s.toDecodeState.osize32
    rw [hd]
  · show s'.toDecodeState.segOverride = s.toDecodeState.segOverride
    rw [hd]

omit [Bus β] in
instance instIsPreorderSameFile : IsPreorder (Machine β) SameFile where
  refl := SameFile.refl
  trans _ _ _ := SameFile.trans

/-- Readers of memory leave the file alone. -/
theorem reading_sameFile : Reading (SameFile (β := β)) where
  translate s _ lin write q s' h :=
    (MemOnly.translate lin write).readsOn s q s' h
  busRead _ := (MemOnly.touchBus _ _).readsOn
  busRead16 _ := (MemOnly.touchBus _ _).readsOn
  busRead32 _ := (MemOnly.touchBus _ _).readsOn
  note _ _ _ := ⟨rfl, rfl, rfl, rfl⟩
  eip _ _ := ⟨rfl, rfl, rfl, rfl⟩

-- ======== the formula

namespace DecodedInsn

variable (d : DecodedInsn) (gpr : U8 → U32)

/-- What the base adds to the address. -/
def basePart : U32 := if d.base ≠ NONE then gpr (d.base &&& 7) else 0

/-- What the index adds to the address. -/
def indexPart : U32 :=
  if d.index ≠ NONE then gpr (d.index &&& 7) <<< d.scale.toNat else 0

/-- The address formula before it is cut to the address size. -/
def eaSum : U32 := d.disp + d.basePart gpr + d.indexPart gpr

/-- The offset of a formula: its sum, cut to 16 bits at that address size. -/
theorem eaOff_eq (r : HotRegs) :
    d.eaOff r = if d.asize32 then d.eaSum r.gpr
      else d.eaSum r.gpr &&& 0xFFFF := by
  have hsum : (if d.index ≠ NONE then
        (if d.base ≠ NONE then d.disp + r.gpr (d.base &&& 7) else d.disp)
          + r.gpr (d.index &&& 7) <<< d.scale.toNat
      else if d.base ≠ NONE then d.disp + r.gpr (d.base &&& 7) else d.disp)
        = d.eaSum r.gpr := by
    unfold eaSum basePart indexPart
    split <;> split <;> simp
  unfold eaOff
  dsimp only
  rw [hsum]

/-- The parts of a formula's sum. -/
theorem basePart_none (h : d.base = NONE) : d.basePart gpr = 0 := by
  unfold basePart
  rw [h]
  rfl

theorem basePart_reg (h : d.base ≠ NONE) :
    d.basePart gpr = gpr (d.base &&& 7) := if_pos h

theorem indexPart_none (h : d.index = NONE) : d.indexPart gpr = 0 := by
  unfold indexPart
  rw [h]
  rfl

/-- A sum without an index. -/
theorem eaSum_based (h : d.index = NONE) :
    d.eaSum gpr = d.disp + d.basePart gpr := by
  unfold eaSum
  rw [d.indexPart_none gpr h]
  exact BitVec.add_zero _

-- The packed fields: a setter is read back, and leaves the others alone.

/-- The packed fields of a formula, each read back from its own bits. -/
theorem seg_setSeg {v : U8} (h : v &&& 7 = v) : (d.setSeg v).seg = v :=
  Word.insert_and d.segscale h

theorem scale_setSeg {v : U8} (h : v &&& 7 = v) :
    (d.setSeg v).scale = d.scale := by
  unfold scale setSeg
  rw [Word.shift_and _ (by decide), Word.shift_and _ (by decide),
    Word.insert_and_apart _ h (by decide)]

theorem scale_setScale {v : U8} (h : v &&& 3 = v) :
    (d.setScale v).scale = v := by
  have hv : (v <<< 3) &&& ((3 : U8) <<< 3) = v <<< 3 ∧ v <<< 3 >>> 3 = v := by
    revert h
    generalize v = x
    revert x
    decide
  unfold scale setScale
  rw [Word.shift_and _ (by decide), Word.insert_and d.segscale hv.1, hv.2]

theorem kind_setKind (k : OpKind) : (d.setKind k).kind = k := by
  have hk : (d.flags &&& ~~~((3 : U8) <<< 3) ||| kindBits k <<< 3) >>> 3 &&& 3
    = kindBits k := by
    rw [Word.shift_and _ (by decide),
      Word.insert_and _ (by cases k <;> decide)]
    cases k <;> decide
  unfold kind setKind
  dsimp only
  rw [hk]
  cases k <;> rfl

theorem asize32_setKind (k : OpKind) : (d.setKind k).asize32 = d.asize32 := by
  unfold asize32 setKind
  rw [Word.insert_and_apart _ (by cases k <;> decide) (by decide)]

/-- The segment of a formula is no part of its sum. -/
theorem eaSum_setSeg {seg : U8} (h : seg &&& 7 = seg) :
    (d.setSeg seg).eaSum gpr = d.eaSum gpr := by
  have hindex : (d.setSeg seg).indexPart gpr = d.indexPart gpr := by
    unfold indexPart
    rw [d.scale_setSeg h]
    rfl
  unfold eaSum
  rw [hindex]
  rfl

/-- An index on top of whatever base there is. -/
theorem eaSum_scaled {b index k : U8} (h : index ≠ NONE) (hk : k &&& 3 = k) :
    ({ d with base := b, index }.setScale k).eaSum gpr
      = d.disp + basePart { d with base := b } gpr + gpr (index &&& 7)
        <<< k.toNat := by
  have hindex : ({ d with base := b, index }.setScale k).indexPart gpr
      = gpr (index &&& 7) <<< k.toNat := by
    unfold indexPart
    rw [scale_setScale _ hk]
    exact if_pos h
  unfold eaSum
  rw [hindex]
  rfl

/-- Adding a displacement to a record that has none, or none to one that
has. -/
theorem eaSum_addDisp (disp : U32) :
    ({ d with disp := d.disp + disp } : DecodedInsn).eaSum gpr
      = d.eaSum gpr + disp := by
  show d.disp + disp + d.basePart gpr + d.indexPart gpr
    = d.disp + d.basePart gpr + d.indexPart gpr + disp
  ac_rfl

end DecodedInsn

/-- A memory record of the machine before its operand is read. -/
structure Fresh (c : Cpu) (m : ModRm) (d : DecodedInsn) : Prop where
  regField : d.reg = m.reg
  base : d.base = NONE
  index : d.index = NONE
  disp : d.disp = 0
  scale : d.scale = 0
  kind : d.kind = .mem
  asize : d.asize32 = c.asize32

/-- The record the decoder starts an operand from has no base and no index. -/
theorem Cpu.fresh_record (c : Cpu) (m : ModRm) (op : Op)
    (aux : U8) (wb : Bool) :
    Fresh c m ({ c.record op aux wb with reg := m.reg }.setKind .mem) where
  regField := rfl
  base := rfl
  index := rfl
  disp := rfl
  scale := by
    show (c.segOverride.getD OVR_NONE <<< 5) >>> 3 &&& 3 = 0
    generalize c.segOverride.getD OVR_NONE = x
    revert x
    decide
  kind := DecodedInsn.kind_setKind _ _
  asize := by
    rw [DecodedInsn.asize32_setKind]
    show (((if c.osize32 then 1 else 0) ||| (if c.asize32 then 1 else 0) <<< 1
      ||| (if wb then 1 else 0) <<< 2) &&& (1 <<< 1 : U8) != 0) = c.asize32
    cases c.osize32 <;> cases c.asize32 <;> cases wb <;> decide

/-- A register number is not the sentinel. -/
theorem regNum_ne (x : U8) : x &&& 7 ≠ NONE := by
  revert x
  decide

/-- A segment number fits the field it is packed into. -/
def SegNum (seg : U8) : Prop := seg &&& 7 = seg

/-- The segment numbers fit their three bits. -/
theorem segNum_ds : SegNum reg.DS := by
  unfold SegNum
  decide

theorem segNum_ss_ds (c : Prop) [Decidable c] :
    SegNum (if c then reg.SS else reg.DS) := by
  unfold SegNum
  split <;> decide

/-- A segment override fits too. -/
theorem Cpu.segNum_segOr {c : Cpu} (hseg : ∀ i ∈ c.segOverride, SegNum i)
    {seg : U8} (h : SegNum seg) : SegNum (c.segOr seg) := by
  unfold Cpu.segOr
  cases ho : c.segOverride with
  | none => exact h
  | some i => exact hseg i ho

-- ======== in step

/-- The two went through the same fetches from `s`, and their results are
related by `P`. -/
def InStep (s : Machine β) (P : α → γ → Prop) (a : α) (b : γ)
    (s₁ s₂ : Machine β) : Prop :=
  s₁ = s₂ ∧ SameFile s s₁ ∧ P a b

/-- A shared fetch: what follows starts with the same registers. -/
theorem pairs_fetch {s : Machine β} {x : Calm β α} (hx : ReadsOn x) {δ : Type}
    {f : α → Calm β γ} {g : α → Calm β δ}
    {Q : γ → δ → Machine β → Machine β → Prop}
    (h : ∀ a s', SameFile s s' →
      Fallible.Pairs Eq Q ((f a).run s') ((g a).run s')) :
    Fallible.Pairs Eq Q ((x >>= f).run s) ((x >>= g).run s) :=
  Fallible.Pairs.same fun a s' ha => h a s' (hx s a s' ha)

/-- A base under construction: the sum so far is the record's, with its
default segment, and a displacement is parked only when none follows. -/
structure Resolves (s : Machine β) (m : ModRm) (v : U32) (seg : U8)
    (d : DecodedInsn) : Prop where
  regField : d.reg = m.reg
  segNum : SegNum seg
  sum : d.eaSum s.regs.gpr = v
  kind : d.kind = .mem
  asize : d.asize32 = s.asize32

/-- A base that may be scaled is a register and nothing else. -/
structure Scalable (s : Machine β) (v : U32 × U8 × Bool)
    (p : U8 × Bool × DecodedInsn) : Prop where
  seg : p.1 = v.2.1
  same : p.2.1 = v.2.2
  index : p.2.2.index = NONE
  only : v.2.2 = true → p.2.2.disp = 0 ∧ p.2.2.base ≠ NONE
    ∧ v.1 = s.regs.gpr (p.2.2.base &&& 7)

section Pairs

variable {s : Machine β} {m : ModRm} {d : DecodedInsn}

omit [Bus β] in
/-- Only the registers and the address size count. -/
theorem Resolves.of_same {s' : Machine β} (hs : SameFile s s')
    {v : U32} {seg : U8}
    (hr : Resolves s' m v seg d) : Resolves s m v seg d where
  regField := hr.regField
  segNum := hr.segNum
  sum := by
    rw [← hs.gpr]
    exact hr.sum
  kind := hr.kind
  asize := hr.asize.trans hs.asize32

omit [Bus β] in
/-- An index on top of a base. -/
theorem Resolves.index {v : U32} {seg : U8} (hr : Resolves s m v seg d)
    (hnone : d.index = NONE)
    {index scale : U8} (hindex : index ≠ NONE) (hscale : scale &&& 3 = scale) :
    Resolves s m (v + s.regs.reg32 index <<< scale.toNat) seg
      ({ d with index }.setScale scale) where
  regField := hr.regField
  segNum := hr.segNum
  sum := by
    have hsum := hr.sum
    rw [d.eaSum_based _ hnone] at hsum
    rw [← hsum]
    exact d.eaSum_scaled (b := d.base) _ hindex hscale
  kind := hr.kind
  asize := hr.asize

omit [Bus β] in
/-- A scaled base, kept as an index without a base. -/
theorem Resolves.scaled {seg : U8} (hreg : d.reg = m.reg) (hseg : SegNum seg)
    (hkind : d.kind = .mem) (hasize : d.asize32 = s.asize32)
    (hdisp : d.disp = 0)
    (hbase : d.base ≠ NONE) {scale : U8} (hscale : scale &&& 3 = scale) :
    Resolves s m (s.regs.gpr (d.base &&& 7) <<< scale.toNat) seg
      ({ d with index := d.base, base := NONE }.setScale scale) where
  regField := hreg
  segNum := hseg
  sum := by
    rw [d.eaSum_scaled _ hbase hscale, DecodedInsn.basePart_none _ _ rfl, hdisp]
    simp
  kind := hkind
  asize := hasize

omit [Bus β] in
/-- A base register. -/
theorem Resolves.reg (hd : Fresh s.toCpu m d) {base seg : U8}
    (hbase : base ≠ NONE) (hseg : SegNum seg) :
    Resolves s m (s.regs.reg32 base) seg { d with base } where
  regField := hd.regField
  segNum := hseg
  sum := by
    rw [DecodedInsn.eaSum_based { d with base } _ hd.index,
      DecodedInsn.basePart_reg { d with base } _ hbase, hd.disp]
    exact BitVec.zero_add _
  kind := hd.kind
  asize := hd.asize

omit [Bus β] in
/-- The displacement in the place of a base register. -/
theorem Resolves.disp (hd : Fresh s.toCpu m d) (disp : U32) :
    Resolves s m disp reg.DS { d with disp } where
  regField := hd.regField
  segNum := segNum_ds
  sum := by
    rw [DecodedInsn.eaSum_based { d with disp } _ hd.index,
      DecodedInsn.basePart_none { d with disp } _ hd.base]
    exact BitVec.add_zero _
  kind := hd.kind
  asize := hd.asize

/-- The base of a SIB byte, executor and decoder side by side. -/
theorem pairs_sibBase (hd : Fresh s.toCpu m d) (x : U8) :
    Fallible.Pairs Eq
      (InStep s fun v p => Resolves s m v.1 v.2.1 p.2.2 ∧ Scalable s v p)
      ((sibBase m (x &&& 7)).run s)
        ((sibBaseFormula m (x &&& 7) d).run s) := by
  unfold sibBase sibBaseFormula
  split
  · refine pairs_fetch reading_sameFile.fetch32 fun disp s' hs => ?_
    exact ⟨rfl, hs, .disp hd disp, rfl, rfl, hd.index, fun h => by cases h⟩
  · refine ⟨rfl, .refl s, .reg hd (regNum_ne x) (segNum_ss_ds _), rfl, rfl,
      hd.index, fun _ => ?_⟩
    exact ⟨hd.disp, regNum_ne x, rfl⟩

/-- A SIB byte: base, then scaled index. -/
theorem pairs_sib (hd : Fresh s.toCpu m d) :
    Fallible.Pairs Eq (InStep s fun v p => p.1 = v.2
      ∧ Resolves s m v.1 v.2 p.2)
      ((sib m).run s) ((sibFormula m d).run s) := by
  unfold sib sibFormula
  refine pairs_fetch reading_sameFile.fetch8 fun sib s' hs => ?_
  have hd' : Fresh s'.toCpu m d :=
    { hd with asize := hd.asize.trans hs.asize32.symm }
  refine Fallible.Pairs.bind (pairs_sibBase hd' sib) ?_
  rintro ⟨base, seg, scalable⟩ ⟨seg', scalable', d'⟩ s₁ _ ⟨rfl, hs₁, hr, hseg,
    hsame, hnone, honly⟩
  dsimp only at hr hseg hsame hnone honly
  subst hseg hsame
  have hscale : sib >>> 6 &&& 3 = sib >>> 6 := by
    generalize sib = x
    revert x
    decide
  have hss : SameFile s s₁ := hs.trans hs₁
  have hr₁ : Resolves s₁ m base seg' d' := .of_same hs₁.symm hr
  dsimp only
  rw [Bounded.run_bind, Fallible.bind_of_ok (run_self s₁)]
  by_cases h4 : sib >>> 3 &&& 7 ≠ 4
  · rw [if_pos h4, if_pos h4]
    exact ⟨rfl, hss, rfl, .of_same hss (hr₁.index hnone (regNum_ne _) hscale)⟩
  rw [if_neg h4, if_neg h4]
  by_cases hscalable : scalable' = true
  · rw [if_pos hscalable, if_pos hscalable]
    obtain ⟨hdisp, hbase, hval⟩ := honly hscalable
    have hval₁ :
      base = s₁.regs.gpr (d'.base &&& 7) := by rw [hs₁.gpr]; exact hval
    rw [hval₁]
    exact ⟨rfl, hss, rfl, .of_same hss
      (.scaled hr₁.regField hr₁.segNum hr₁.kind hr₁.asize hdisp hbase hscale)⟩
  · rw [if_neg hscalable, if_neg hscalable]
    exact ⟨rfl, hss, rfl, .of_same hss hr₁⟩

/-- The base of a ModRM operand. -/
theorem pairs_eaBase (hd : Fresh s.toCpu m d) :
    Fallible.Pairs Eq (InStep s fun v p => p.1 = v.2
      ∧ Resolves s m v.1 v.2 p.2)
      ((eaBase m).run s) ((eaBaseFormula m d).run s) := by
  unfold eaBase eaBaseFormula
  split
  · exact pairs_sib hd
  · exact ⟨rfl, .refl s, rfl, .reg hd (regNum_ne _) (segNum_ss_ds _)⟩

end Pairs

-- ======== the operand

/-- The record is a memory operand, resolved under the registers of `c`. -/
def Denotes (c : Cpu) (m : ModRm) (op : Operand) (d : DecodedInsn) : Prop :=
  d.reg = m.reg ∧ d.kind = .mem ∧ op = .mem d.seg (d.eaOff c.regs.toHotRegs)

/-- The 16-bit table, read off the table of its registers. -/
theorem HotRegs.ea16Base_eq (r : HotRegs) (rm : U8) :
    r.ea16Base rm
      = ((if (ea16Regs rm).1 = NONE then 0 else r.reg16 (ea16Regs rm).1)
          + (if (ea16Regs rm).2.1 = NONE then 0 else r.reg16 (ea16Regs rm).2.1),
        (ea16Regs rm).2.2) := by
  unfold HotRegs.ea16Base ea16Regs
  split_ifs <;> simp_all

/-- Every row of the table has a base. -/
theorem ea16Regs_base (rm : U8) : (ea16Regs rm).1 ≠ NONE := by
  unfold ea16Regs
  split_ifs <;> decide

/-- The segments of the 16-bit forms. -/
theorem ea16Regs_seg (rm : U8) : SegNum (ea16Regs rm).2.2 := by
  unfold ea16Regs SegNum
  split_ifs <;> decide

/-- Cutting a sum to a word is adding words. -/
theorem and_FFFF (a : U32) : a &&& 0xFFFF = (a.setWidth 16).setWidth 32 := by
  apply BitVec.eq_of_toNat_eq
  show (a &&& BitVec.ofNat 32 (2 ^ 16 - 1)).toNat = _
  rw [Word.toNat_and_mask a 16 (by decide)]
  simp only [BitVec.toNat_setWidth]
  omega

section Operand

variable {s : Machine β} {m : ModRm} {d : DecodedInsn}

omit [Bus β] in
/-- A sum of doublewords. -/
theorem Denotes.wide {s' : Machine β} (hs : SameFile s s')
    (hz : s.asize32 = true)
    (hovr : ∀ i ∈ s.segOverride, SegNum i) {v : U32} {seg : U8}
    (hr : Resolves s m v seg d) :
    Denotes s.toCpu m (.mem (s'.segOr seg) v) (d.setSeg (s'.segOr seg)) := by
  have hnum : SegNum (s'.segOr seg) :=
    Cpu.segNum_segOr (fun i hi => hovr i (by rwa [← hs.segOverride])) hr.segNum
  refine ⟨hr.regField, hr.kind, ?_⟩
  have hasize : (d.setSeg (s'.segOr seg)).asize32 = true := hr.asize.trans hz
  rw [d.seg_setSeg hnum, DecodedInsn.eaOff_eq, d.eaSum_setSeg _ hnum, hr.sum, hasize]
  rfl

omit [Bus β] in
/-- A sum of words. -/
theorem Denotes.narrow {s' : Machine β} (hs : SameFile s s')
    (hz : s.asize32 = false)
    (hovr : ∀ i ∈ s.segOverride, SegNum i) (hreg : d.reg = m.reg)
    (hkind : d.kind = .mem)
    (hasize : d.asize32 = s.asize32) {seg : U8} (hseg : SegNum seg) {v : U16}
    (hsum : (d.eaSum s.regs.gpr).setWidth 16 = v) :
    Denotes s.toCpu m (.mem (s'.segOr seg) (v.setWidth 32))
      (d.setSeg (s'.segOr seg)) := by
  have hnum : SegNum (s'.segOr seg) :=
    Cpu.segNum_segOr (fun i hi => hovr i (by rwa [← hs.segOverride])) hseg
  have hword : (d.setSeg (s'.segOr seg)).asize32 = false := hasize.trans hz
  refine ⟨hreg, hkind, ?_⟩
  rw [d.seg_setSeg hnum, DecodedInsn.eaOff_eq, d.eaSum_setSeg _ hnum,
    hword, and_FFFF, hsum]
  rfl

/-- The record of a table row sums to the row. -/
theorem Fresh.sum16 {c : Cpu} (hd : Fresh c m d) (rm : U8) (disp : U16) :
    (DecodedInsn.eaSum { d with
        base := (ea16Regs rm).1, index := (ea16Regs rm).2.1,
        disp := disp.setWidth 32 }
      c.regs.gpr).setWidth 16 = (c.regs.ea16Base rm).1 + disp := by
  rw [c.regs.ea16Base_eq]
  unfold DecodedInsn.eaSum
  rw [BitVec.setWidth_add _ _ (by decide), BitVec.setWidth_add _ _ (by decide),
    DecodedInsn.basePart_reg _ _ (ea16Regs_base rm)]
  have hscale : ∀ base index disp,
      (DecodedInsn.scale { d with base, index, disp }).toNat = 0 :=
    fun _ _ _ => congrArg BitVec.toNat hd.scale
  have hdisp : (disp.setWidth 32).setWidth 16 = disp := by simp
  unfold DecodedInsn.indexPart
  rw [hscale, if_neg (ea16Regs_base rm), hdisp]
  by_cases hi : (ea16Regs rm).2.1 = NONE
  · rw [if_pos hi, if_neg (not_not.2 hi)]
    simp [HotRegs.reg16, BitVec.add_comm]
  · rw [if_neg hi, if_pos hi]
    simp only [HotRegs.reg16, BitVec.shiftLeft_zero]
    ac_rfl

/-- An operand at 32-bit address size. -/
theorem pairs_ea32 (hd : Fresh s.toCpu m d) (hz : s.asize32 = true)
    (hovr : ∀ i ∈ s.segOverride, SegNum i) :
    Fallible.Pairs Eq (InStep s (Denotes s.toCpu m)) ((ea32 m).run s)
      ((ea32Formula m d).run s) := by
  unfold ea32 ea32Formula
  split
  · refine pairs_fetch reading_sameFile.fetch32 fun disp s' hs => ?_
    exact ⟨rfl, hs, .wide hs hz hovr (.disp hd disp)⟩
  refine Fallible.Pairs.bind (pairs_eaBase hd) ?_
  rintro ⟨base, seg⟩ ⟨_, d'⟩ s₁ _ ⟨rfl, hs₁, rfl, hr⟩
  refine pairs_fetch (reading_sameFile.fetchDisp _) fun disp s₂ hs₂ => ?_
  refine ⟨rfl, hs₁.trans hs₂,
    .wide (d := { d' with disp := d'.disp + disp }) (hs₁.trans hs₂) hz
    hovr ⟨hr.regField, hr.segNum, ?_, hr.kind, hr.asize⟩⟩
  rw [d'.eaSum_addDisp, hr.sum]

/-- An operand at 16-bit address size. -/
theorem pairs_ea16 (hd : Fresh s.toCpu m d) (hz : s.asize32 = false)
    (hovr : ∀ i ∈ s.segOverride, SegNum i) :
    Fallible.Pairs Eq (InStep s (Denotes s.toCpu m)) ((ea16 m).run s)
      ((ea16Formula m d).run s) := by
  unfold ea16 ea16Formula
  split
  · refine pairs_fetch reading_sameFile.fetch16 fun disp s' hs => ?_
    refine ⟨rfl, hs,
      .narrow (d := { d with disp := disp.setWidth 32 }) hs hz hovr hd.regField
      hd.kind hd.asize segNum_ds ?_⟩
    rw [DecodedInsn.eaSum_based { d with disp := disp.setWidth 32 } _ hd.index,
      DecodedInsn.basePart_none { d with disp := disp.setWidth 32 } _ hd.base]
    simp
  · have hsum := hd.sum16 m.rm
    have hnum := ea16Regs_seg m.rm
    have hseg : (s.regs.ea16Base m.rm).2 = (ea16Regs m.rm).2.2 := by
      rw [HotRegs.ea16Base_eq]
    generalize ea16Regs m.rm = row at *
    obtain ⟨base, index, seg⟩ := row
    refine pairs_fetch (reading_sameFile.fetchDisp16 _) fun disp s' hs => ?_
    have hbase : s'.regs.ea16Base m.rm = s.regs.ea16Base m.rm := by
      rw [HotRegs.ea16Base_eq, HotRegs.ea16Base_eq]
      unfold HotRegs.reg16
      rw [hs.gpr]
    rw [Bounded.run_bind, Bounded.run_bind, Fallible.bind_of_ok (run_self s'),
      Fallible.bind_of_ok (run_self s'), hbase]
    generalize s.regs.ea16Base m.rm = sum at *
    obtain ⟨v, _⟩ := sum
    subst hseg
    exact ⟨rfl, hs,
      .narrow (d := { d with base, index, disp := disp.setWidth 32 }) hs hz hovr
      hd.regField hd.kind hd.asize hnum (hsum disp)⟩

/-- An operand at either address size. -/
theorem pairs_ea (hd : Fresh s.toCpu m d)
    (hovr : ∀ i ∈ s.segOverride, SegNum i) :
    Fallible.Pairs Eq (InStep s (Denotes s.toCpu m))
      ((if s.asize32 then ea32 m else ea16 m : Calm β Operand).run s)
      ((if s.asize32 then ea32Formula m d else ea16Formula m d : Calm β DecodedInsn).run s) := by
  cases hz : s.asize32 with
  | true => exact pairs_ea32 hd hz hovr
  | false => exact pairs_ea16 hd hz hovr

end Operand

-- ======== the agreement

/-- What a record is worth against the ModRM byte and the operand of the
fused path: the same register fields and, in any registers `gpr`, the same
operand, however long the instruction turns out to be. -/
def DecodedInsn.StandsFor (d : DecodedInsn) (sub : U8)
    (m : ModRm) (op : Operand) (gpr : U8 → U32) : Prop :=
  sub = m.reg ∧ d.reg = m.reg ∧ ∀ (c : Cpu) (len : U8), c.regs.gpr = gpr →
    c.eaOperand { d with len } = op

/-- A record that denotes an operand here denotes it wherever the registers
are the same. -/
theorem Denotes.standsFor {c : Cpu} {m : ModRm}
    {op : Operand} {d : DecodedInsn}
    (h : Denotes c m op d) : d.StandsFor m.reg m op c.regs.gpr := by
  obtain ⟨hreg, hkind, rfl⟩ := h
  refine ⟨rfl, hreg, fun c' len hgpr => ?_⟩
  unfold Cpu.eaOperand
  rw [if_neg (by show d.kind ≠ .reg; rw [hkind]; decide), DecodedInsn.eaOff_eq,
    DecodedInsn.eaOff_eq, hgpr]
  rfl

/-- Under the machine's own registers. -/
theorem pairs_modrm {s : Machine β} (hovr : ∀ i ∈ s.segOverride, SegNum i)
    (op : Op) (aux : U8) (wb : Bool) :
    Fallible.Pairs Eq (fun r p s₁ s₂ => s₁ = s₂
      ∧ p.2.StandsFor p.1 r.1 r.2 s.regs.gpr)
      (modrm.run s) ((decodeModrm (s.record op aux wb)).run s) := by
  unfold modrm decodeModrm
  refine pairs_fetch reading_sameFile.fetch8 fun byte s' hs => ?_
  dsimp only
  split
  · refine ⟨rfl, rfl, rfl, fun c len hc => ?_⟩
    unfold Cpu.eaOperand
    exact if_pos (DecodedInsn.kind_setKind _ _)
  rw [Bounded.run_bind, Bounded.run_bind, Fallible.bind_of_ok (run_self s'),
    Fallible.bind_of_ok (run_self s')]
  have hd := s.fresh_record ⟨byte⟩ op aux wb
  have hd' : Fresh s'.toCpu ⟨byte⟩ _ :=
    { hd with asize := hd.asize.trans hs.asize32.symm }
  have hovr' : ∀ i ∈ s'.segOverride, SegNum i := by rwa [hs.segOverride]
  refine Fallible.Pairs.bind (pairs_ea hd' hovr') ?_
  rintro o d s₁ s₂ ⟨hsame, hs₁, hden⟩
  have hstands := hden.standsFor
  rw [hs.gpr] at hstands
  exact ⟨hsame, hstands⟩

/-- **The two effective addresses.** From any state decode an operand into
a record, and resolve it with the fused path in whatever general registers
there are: both fail alike, or both read the same bytes, and the record
evaluated in those registers is the operand of the fused path. -/
theorem eaOperand_agrees32 (s : Machine β) (hovr : ∀ i ∈ s.segOverride, i < 6)
    (op : Op) (aux : U8) (wb : Bool) (gpr : U8 → U32) :
    Fallible.Pairs (fun s₁ s₂ => s₁ = s₂.withGpr gpr)
      (fun r p s₁ s₂ => s₁ = s₂.withGpr gpr ∧ p.2.StandsFor p.1 r.1 r.2 gpr)
      (modrm.run (s.withGpr gpr))
        ((decodeModrm (s.record op aux wb)).run s) := by
  have hnum : ∀ i ∈ s.segOverride, SegNum i := by
    intro i hi
    have h6 := hovr i hi
    revert h6
    generalize i = x
    revert x
    unfold SegNum
    decide
  have hpair := pairs_modrm (s := s.withGpr gpr) hnum op aux wb
  rw [show (s.withGpr gpr).record op aux wb = s.record op aux wb from rfl,
    Blind.decodeModrm gpr _ s] at hpair
  exact Fallible.Pairs.image (T := fun t : Machine β => t.withGpr gpr) hpair

/-- `FS:[EAX * 4 + 04040404]` by the scaled-base rows of the SIB table. -/
def fsScaledBase : Machine (FlatBus Unit) :=
  { Cpu.new with
    asize32 := true
    segOverride := some reg.FS
    bus :=
      { mem := fun a => if a = 0 then 0x84 else if a = 1 then 0xA0 else 0x04, ports := () } }

theorem eaOperand_agrees32_fsScaledBase :
    Fallible.Pairs (fun s₁ s₂ => s₁ = s₂.withGpr fun _ => 7)
      (fun r p s₁ s₂ => s₁ = s₂.withGpr (fun _ => 7)
        ∧ p.2.StandsFor p.1 r.1 r.2 fun _ => 7)
      (modrm.run (fsScaledBase.withGpr fun _ => 7))
      ((decodeModrm (fsScaledBase.record .Lea 0 false)).run fsScaledBase) :=
  eaOperand_agrees32 fsScaledBase (fun i hi => by cases hi; decide) .Lea 0 false _

end Remu.X32
