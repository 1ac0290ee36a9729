/-
What reading an instruction leaves alone.

Fetching the bytes of an instruction and reading its operand move RIP, the
byte count and the RIP-relative note, and memory, stamps and the TLB may
move behind them. The general registers, the flags and the prefixes stay
as they were when the opcode was dispatched (`ReadsOn`), so that a fact
about the instruction's effect is one about the registers it started with.
-/
import Remu.X64.Execute

namespace Remu.X64

variable {β : Type} [Bus β] {α γ : Type}

-- ======== the relation

/-- The same register file and prefixes: what differs is how far the
instruction has been read. -/
structure SameFile (s s' : Machine β) : Prop where
  regs : s'.regs = { s.regs with rip := s'.regs.rip }
  decode : s'.toDecodeState
    = { s.toDecodeState with
        ilen := s'.ilen, usedRipRel := s'.usedRipRel, lockOk := s'.lockOk }

namespace SameFile

omit [Bus β] in
/-- Registers and notes the same: the file is the same. -/
theorem of_eq {s s' : Machine β} (hr : s'.regs = s.regs)
    (hd : s'.toDecodeState = s.toDecodeState) : SameFile s s' := by
  refine ⟨?_, ?_⟩
  · rw [hr]
  · rw [hd]

omit [Bus β] in
theorem refl (s : Machine β) : SameFile s s := of_eq rfl rfl

omit [Bus β] in
/-- Runs that leave the file alone compose. -/
theorem trans {s s' s'' : Machine β} (h : SameFile s s')
    (h' : SameFile s' s'') :
    SameFile s s'' := by
  refine ⟨?_, ?_⟩
  · rw [h'.regs, h.regs]
  · rw [h'.decode, h.decode]

omit [Bus β] in
/-- What can be read off a machine with the same file. -/
theorem gpr {s s' : Machine β} (h : SameFile s s') :
    s'.regs.gpr = s.regs.gpr := by
  rw [h.regs]

omit [Bus β] in
theorem rex {s s' : Machine β} (h : SameFile s s') : s'.rex = s.rex := by
  show s'.toDecodeState.rex = s.toDecodeState.rex
  rw [h.decode]

omit [Bus β] in
theorem osize {s s' : Machine β} (h : SameFile s s') : s'.osize = s.osize := by
  show s'.toDecodeState.osize = s.toDecodeState.osize
  rw [h.decode]

omit [Bus β] in
theorem asize {s s' : Machine β} (h : SameFile s s') : s'.asize = s.asize := by
  show s'.toDecodeState.asize = s.toDecodeState.asize
  rw [h.decode]

omit [Bus β] in
theorem segOverride {s s' : Machine β} (h : SameFile s s') :
    s'.segOverride = s.segOverride := by
  show s'.toDecodeState.segOverride = s.toDecodeState.segOverride
  rw [h.decode]

omit [Bus β] in
theorem prefix66 {s s' : Machine β} (h : SameFile s s') :
    s'.prefix66 = s.prefix66 := by
  show s'.toDecodeState.prefix66 = s.toDecodeState.prefix66
  rw [h.decode]

end SameFile

-- ======== computations

/-- A successful run only reads on. -/
def ReadsOn (x : Calm β α) : Prop :=
  ∀ s a s', x.run s = (.ok a, s') → SameFile s s'

/-- What works on memory alone moves no register. -/
theorem MemOnly.readsOn {x : Calm β α} (h : MemOnly x) : ReadsOn x := by
  intro s a s' hx
  obtain ⟨hr, hd⟩ := h s a s' hx
  exact .of_eq hr hd

namespace ReadsOn

/-- The closure rules of what reads on. -/
theorem pure (a : α) : ReadsOn (pure a : Calm β α) := (MemOnly.pure a).readsOn

theorem self : ReadsOn (self : Calm β (Machine β)) := MemOnly.self.readsOn

theorem throw (e : Exception) : ReadsOn (throw e : Calm β α) :=
  (MemOnly.throw e).readsOn

/-- A sequence reads on where its parts do. -/
theorem bind {x : Calm β α} {f : α → Calm β γ} (hx : ReadsOn x)
    (hf : ∀ a, ReadsOn (f a)) :
    ReadsOn (x >>= f) := by
  intro s b s'' h
  rw [Bounded.run_bind, Fallible.bind_eq_ok] at h
  obtain ⟨a, s', hxa, hfa⟩ := h
  exact (hx s a s' hxa).trans (hf a s' b s'' hfa)

theorem map {x : Calm β α} (g : α → γ) (hx : ReadsOn x) :
    ReadsOn (g <$> x) := by
  rw [map_eq_pure_bind]
  exact hx.bind fun _ => .pure _

theorem raiseIf (c : Prop) [Decidable c] (e : Exception) :
    ReadsOn (raiseIf c e : Calm β Unit) := by
  unfold X64.raiseIf
  split
  · exact .throw e
  · exact .pure ()

theorem whenever (c : Prop) [Decidable c] {m : Calm β Unit} (hm : ReadsOn m) :
    ReadsOn (whenever c m) := by
  unfold X64.whenever
  split
  · exact hm
  · exact .pure ()

/-- RIP moves on. -/
theorem rip (f : HotRegs → U64)
    (hvm : ∀ r : HotRegs,
      ({ r with rip := f r } : HotRegs).rflags.vm = r.rflags.vm) :
    ReadsOn (modifyHot (fun r => { r with rip := f r })
      hvm : Calm β Unit) := by
  intro s a s' h
  cases h
  exact ⟨rfl, rfl⟩

/-- The bookkeeping of the read. -/
theorem note (n : U8 → U8) (rel : Bool → Bool) (ok : Bool → Bool) :
    ReadsOn (modifyDecode (fun d => { d with
      ilen := n d.ilen, usedRipRel := rel d.usedRipRel,
      lockOk := ok d.lockOk }) :
      Calm β Unit) := by
  intro s a s' h
  cases h
  exact ⟨rfl, rfl⟩

end ReadsOn

-- ======== fetch

/-- A fetch is a load and an advance of RIP. -/
theorem ReadsOn.fetch8 : ReadsOn (fetch8 : Calm β U8) := by
  unfold X64.fetch8
  refine ReadsOn.self.bind fun _ => (ReadsOn.raiseIf _ _).bind fun _ =>
    (ReadsOn.note (· + 1) id id).bind fun _ => ReadsOn.self.bind fun _ =>
    (ReadsOn.raiseIf _ _).bind fun _ =>
      (MemOnly.fetchByte _).readsOn.bind fun _ =>
    (ReadsOn.rip (fun r => r.rip + 1) _).bind fun _ => .pure _

theorem ReadsOn.readHalves {w : Nat}
    {lo hi : Calm β (BitVec w)} (hlo : ReadsOn lo)
    (hhi : ReadsOn hi) : ReadsOn (readHalves lo hi) :=
  hlo.bind fun _ => hhi.bind fun _ => .pure _

/-- Several bytes in one load. -/
theorem ReadsOn.fetchWide (n : U8) {rd : U64 → Calm β α}
    (hrd : ∀ a, ReadsOn (rd a)) :
    ReadsOn (fetchWide n rd) := by
  unfold X64.fetchWide
  refine ReadsOn.self.bind fun s => ?_
  split
  · exact .pure _
  · refine (hrd _).bind fun v => (ReadsOn.note (· + n) id id).bind fun _ =>
      (ReadsOn.rip (fun _ => s.regs.rip + n.setWidth 64) _).bind
        fun _ => .pure _

/-- The wide fetch, or its halves where the page ends. -/
theorem ReadsOn.fetchOr {w : Nat} {wide : Calm β (Option (BitVec (w + w)))}
    {half : Calm β (BitVec w)} (hwide : ReadsOn wide) (hhalf : ReadsOn half) :
    ReadsOn (fetchOr wide half) := by
  unfold X64.fetchOr
  refine hwide.bind fun v => ?_
  cases v with
  | some v => exact .pure _
  | none => exact .readHalves hhalf hhalf

theorem ReadsOn.fetch16 : ReadsOn (fetch16 : Calm β U16) :=
  .fetchOr (.fetchWide 2 fun _ => (MemOnly.touchBus _ _).readsOn) .fetch8

theorem ReadsOn.fetch32 : ReadsOn (fetch32 : Calm β U32) :=
  .fetchOr (.fetchWide 4 fun _ => (MemOnly.touchBus _ _).readsOn) .fetch16

theorem ReadsOn.fetchSimm8 : ReadsOn (fetchSimm8 : Calm β U64) :=
  .map _ .fetch8

theorem ReadsOn.fetchDisp16 (md : U8) :
    ReadsOn (fetchDisp16 md : Calm β U16) := by
  unfold X64.fetchDisp16
  split
  · exact .pure _
  split
  · exact .map _ .fetch8
  · exact .fetch16

theorem ReadsOn.fetchDisp (md : U8) : ReadsOn (fetchDisp md : Calm β U64) := by
  unfold X64.fetchDisp
  split
  · exact .pure _
  split
  · exact .fetchSimm8
  · exact .map _ .fetch32

-- ======== modrm

/-- The operand address: ModRM, SIB and displacement. -/
theorem ReadsOn.ea16 (m : ModRm) : ReadsOn (ea16 m : Calm β Operand) := by
  unfold X64.ea16
  split
  · exact ReadsOn.fetch16.bind fun _ => ReadsOn.self.bind fun _ => .pure _
  · exact (ReadsOn.fetchDisp16 _).bind fun _ =>
      ReadsOn.self.bind fun _ => .pure _

theorem ReadsOn.sibBase (m : ModRm) (base3 : U8) :
    ReadsOn (sibBase m base3 : Calm β (U64 × U8)) := by
  unfold X64.sibBase
  split
  · exact ReadsOn.fetch32.bind fun _ => .pure _
  · exact ReadsOn.self.bind fun _ => .pure _

theorem ReadsOn.sib (m : ModRm) : ReadsOn (sib m : Calm β (U64 × U8)) :=
  ReadsOn.fetch8.bind fun _ => ReadsOn.self.bind fun _ =>
    (ReadsOn.sibBase m _).bind fun _ =>
    ReadsOn.self.bind fun _ => .pure _

theorem ReadsOn.eaDisp32 : ReadsOn (eaDisp32 : Calm β Operand) :=
  ReadsOn.fetch32.bind fun _ => ReadsOn.self.bind fun _ =>
    (ReadsOn.whenever _ (ReadsOn.note id (fun _ => true) id)).bind
      fun _ => .pure _

theorem ReadsOn.eaBase (m : ModRm) :
    ReadsOn (eaBase m : Calm β (U64 × U8)) := by
  unfold X64.eaBase
  split
  · exact .sib m
  · exact ReadsOn.self.bind fun _ => .pure _

theorem ReadsOn.eaWide (m : ModRm) : ReadsOn (eaWide m : Calm β Operand) := by
  unfold X64.eaWide
  split
  · exact .eaDisp32
  · exact (ReadsOn.eaBase m).bind fun _ => (ReadsOn.fetchDisp _).bind fun _ =>
      ReadsOn.self.bind fun _ => .pure _

/-- A ModRM byte with its operand. -/
theorem ReadsOn.modrm : ReadsOn (modrm : Calm β (ModRm × Operand)) := by
  unfold X64.modrm
  refine ReadsOn.fetch8.bind fun byte => ReadsOn.self.bind fun s => ?_
  dsimp only
  split
  · exact .pure _
  · refine ReadsOn.bind ?_ fun _ => .pure _
    cases s.asize with
    | O16 => exact .ea16 _
    | O32 => exact .eaWide _
    | O64 => exact .eaWide _

/-- A LOCK check reads the notes. -/
theorem ReadsOn.lockCheck (ok : Bool) : ReadsOn (lockCheck ok : Calm β Unit) :=
  ReadsOn.self.bind fun _ => .whenever _ <|
    (ReadsOn.raiseIf _ _).bind fun _ => ReadsOn.note id id (fun _ => true)

-- ======== operands

/-- A check moves nothing. -/
theorem MemOnly.check (r : Except Exception α) :
    MemOnly (check r : Calm β α) := by
  cases r with
  | error e => exact .throw e
  | ok a => exact .pure a

/-- An address check moves nothing. -/
theorem MemOnly.linAddr (seg : U8) (off : U64) (size : Nat) (write : Bool) :
    MemOnly (linAddr seg off size write : Calm β U64) :=
  MemOnly.self.bind fun _ => .check _

theorem MemOnly.readHalves {w : Nat}
    {lo hi : Calm β (BitVec w)} (hlo : MemOnly lo)
    (hhi : MemOnly hi) : MemOnly (readHalves lo hi) :=
  hlo.bind fun _ => hhi.bind fun _ => .pure _

/-- A load may set accessed bits and fill the TLB: memory is all it moves. -/
theorem MemOnly.linRead8 (lin : U64) : MemOnly (linRead8 lin : Calm β U8) := by
  unfold X64.linRead8
  refine MemOnly.self.bind fun s => ?_
  split
  · exact .touchBus _ _
  · exact (MemOnly.translate _ _).bind fun _ => .touchBus _ _

/-- A wide read in one piece, or else in its two halves. -/
theorem MemOnly.wide {w : Nat} {lin lim : U64}
    {one : U64 → Calm β (BitVec (w + w))}
    {lo hi : Calm β (BitVec w)} (hone : ∀ a, MemOnly (one a))
    (hlo : MemOnly lo) (hhi : MemOnly hi) :
    MemOnly (do
      let s ← X64.self
      if !s.paging then one lin
      else if lin &&& 0xFFF < lim then do
        let phys ← X64.translate lin .read
        one phys.val
      else X64.readHalves lo hi : Calm β (BitVec (w + w))) := by
  refine MemOnly.self.bind fun s => ?_
  split
  · exact hone _
  split
  · exact (MemOnly.translate _ _).bind fun _ => hone _
  · exact .readHalves hlo hhi

theorem MemOnly.linRead16 (lin : U64) : MemOnly (linRead16 lin : Calm β U16) :=
  .wide (fun _ => .touchBus _ _) (.linRead8 _) (.linRead8 _)

theorem MemOnly.linRead32 (lin : U64) : MemOnly (linRead32 lin : Calm β U32) :=
  .wide (fun _ => .touchBus _ _) (.linRead16 _) (.linRead16 _)

theorem MemOnly.linRead64 (lin : U64) : MemOnly (linRead64 lin : Calm β U64) :=
  .wide (fun _ => .touchBus _ _) (.linRead32 _) (.linRead32 _)

theorem MemOnly.readOp8 (op : Operand) : MemOnly (readOp8 op : Calm β U8) := by
  cases op with
  | reg i => exact MemOnly.self.bind fun _ => .pure _
  | mem seg off => exact (MemOnly.linAddr _ _ _ _).bind fun _ => .linRead8 _

theorem MemOnly.map {x : Calm β α} (g : α → γ) (hx : MemOnly x) :
    MemOnly (g <$> x) := by
  rw [map_eq_pure_bind]
  exact hx.bind fun _ => .pure _

/-- An operand at any size. -/
theorem MemOnly.readSized (z : OpSize) (op : Operand) :
    MemOnly (readSized z op : Calm β U64) := by
  cases z with
  | O16 =>
    refine .map _ ?_
    cases op with
    | reg i => exact MemOnly.self.bind fun _ => .pure _
    | mem seg off => exact (MemOnly.linAddr _ _ _ _).bind fun _ => .linRead16 _
  | O32 =>
    refine .map _ ?_
    cases op with
    | reg i => exact MemOnly.self.bind fun _ => .pure _
    | mem seg off => exact (MemOnly.linAddr _ _ _ _).bind fun _ => .linRead32 _
  | O64 =>
    cases op with
    | reg i => exact MemOnly.self.bind fun _ => .pure _
    | mem seg off => exact (MemOnly.linAddr _ _ _ _).bind fun _ => .linRead64 _

theorem MemOnly.readOp (op : Operand) : MemOnly (readOp op : Calm β U64) :=
  MemOnly.self.bind fun _ => .readSized _ _

end Remu.X64
