/-
What every reading computation keeps.

Fetching, decoding an operand and loading it are made of five things:
translations under paging, RAM reads, the decoder's notes, RIP and the
cached fetch page. A relation between states that each of them
moves along (`Reading`) is one that whole instructions move along until
they write, whether they fault or not. Each fact below is stated once for
all such relations.
-/
import Remu.X64.Execute

namespace Remu.X64

variable {β : Type} [Bus β] {α γ : Type}

/-- Reading moves the state along `R`, whatever its outcome. -/
structure Reading (R : Machine β → Machine β → Prop) : Prop where
  translate : ∀ s : Machine β, s.paging = true → ∀ (lin : U64)
    (access : Access), R s ((translate lin access).run s).2
  busRead : ∀ a : U64, Fallible.Along R (busRead a).run
  busRead16 : ∀ a : U64, Fallible.Along R (busRead16 a).run
  busRead32 : ∀ a : U64, Fallible.Along R (busRead32 a).run
  busRead64 : ∀ a : U64, Fallible.Along R (busRead64 a).run
  note : ∀ (s : Machine β) (ilen : U8) (usedRipRel lockOk : Bool),
    R s (s.withDecode { s.toDecodeState with ilen, usedRipRel, lockOk })
  rip : ∀ (s : Machine β)
    (v : U64), R s (s.withHot { s.regs.toHotRegs with rip := v })
  fetchPage : ∀ (s : Machine β) (tag page : U64),
    R s { s with fetchTag := tag, fetchPage := page }

namespace Reading

variable {R : Machine β → Machine β → Prop}
  [IsPreorder (Machine β) R] (h : Reading R)

/-- The closure rules of what reads along a relation `R`. -/
theorem pure (a : α) : Fallible.Along R (pure a : Calm β α).run :=
  Fallible.Along.pure a

theorem self : Fallible.Along R (self : Calm β (Machine β)).run :=
  Fallible.Along.get

omit [IsPreorder (Machine β) R] in
/-- A computation chosen by the state it starts in. -/
theorem onSelf {f : Machine β → Calm β α} (hf : ∀ s, R s ((f s).run s).2) :
    Fallible.Along R (X64.self >>= f).run := fun s => hf s

/-- A sequence reads along a relation its parts read along. -/
theorem bind {x : Calm β α} {f : α → Calm β γ} (hx : Fallible.Along R x.run)
    (hf : ∀ a, Fallible.Along R (f a).run) : Fallible.Along R (x >>= f).run :=
  Fallible.Along.bind hx hf

theorem map {x : Calm β α} (g : α → γ) (hx : Fallible.Along R x.run) :
    Fallible.Along R (g <$> x).run := by
  rw [map_eq_pure_bind]
  exact bind hx fun _ => pure _

theorem raiseIf (c : Prop) [Decidable c] (e : Exception) :
    Fallible.Along R (raiseIf c e : Calm β Unit).run := by
  intro s
  rw [run_raiseIf]
  split <;> exact refl_of R s

theorem check (r : Except Exception α) :
    Fallible.Along R (check r : Calm β α).run := by
  intro s
  rw [run_check]
  exact refl_of R s

theorem whenever (c : Prop) [Decidable c] {m : Calm β Unit}
    (hm : Fallible.Along R m.run) :
    Fallible.Along R (whenever c m).run := by
  unfold X64.whenever
  split
  · exact hm
  · exact pure ()

include h

omit [IsPreorder (Machine β) R] in
/-- The bookkeeping of the decoder. -/
theorem noting (n : U8 → U8) (rel ok : Bool → Bool) :
    Fallible.Along R (modifyDecode (fun d => { d with
      ilen := n d.ilen, usedRipRel := rel d.usedRipRel,
      lockOk := ok d.lockOk }) :
      Calm β Unit).run := fun s => h.note s _ _ _

/-- A translation under paging, and what is done with it. -/
theorem translating {s : Machine β} (hp : s.paging = true)
    (lin : U64) (access : Access)
    {f : Translated lin → Calm β α} (hf : ∀ p, Fallible.Along R (f p).run) :
    R s ((X64.translate lin access >>= f).run s).2 := by
  have htrans := h.translate s hp lin access
  rw [Bounded.run_bind, Fallible.bind_apply]
  rcases hrun :
    (X64.translate lin access).run s with ⟨e | p, s'⟩ <;> rw [hrun] at htrans
  · exact htrans
  · exact trans_of R htrans (hf p s')

omit [IsPreorder (Machine β) R] in
/-- Advancing RIP is part of a fetch. -/
theorem moveRip (f : HotRegs → U64)
    (hvm : ∀ r : HotRegs,
      ({ r with rip := f r } : HotRegs).rflags.vm = r.rflags.vm) :
    Fallible.Along R
      (modifyHot (fun r => { r with rip := f r }) hvm : Calm β Unit).run :=
  fun s => h.rip s _

-- ======== fetch

theorem fetchFill (tag page : U64) (hpage : page &&& ~~~PHYS_MASK = 0) :
    Fallible.Along R (fetchFill tag page hpage : Calm β Unit).run := by
  intro s
  unfold X64.fetchFill
  dsimp only
  split
  · exact h.fetchPage s tag page
  · exact refl_of R s

/-- A fetched byte fills the fetch page and the TLB. -/
theorem fetchByte (lin : U64) :
    Fallible.Along R (fetchByte lin : Calm β U8).run := by
  refine onSelf fun s => ?_
  cases hp : s.paging with
  | false =>
    rw [if_pos (by rfl)]
    exact h.busRead _ s
  | true =>
    rw [if_neg (by decide)]
    split
    · exact h.busRead _ s
    · exact h.translating hp lin .fetch fun _ => bind (h.fetchFill _ _ _)
        fun _ => h.busRead _

theorem fetch8 : Fallible.Along R (fetch8 : Calm β U8).run :=
  bind self fun _ => bind (raiseIf _ _) fun _ =>
    bind (h.noting (· + 1) id id) fun _ =>
    bind self fun _ => bind (raiseIf _ _) fun _ =>
      bind (h.fetchByte _) fun _ =>
    bind (h.moveRip (fun r => r.rip + 1) _) fun _ => pure _

omit h in
theorem readHalves {w : Nat} {lo hi : Calm β (BitVec w)}
    (hlo : Fallible.Along R lo.run)
    (hhi : Fallible.Along R hi.run) :
    Fallible.Along R (readHalves lo hi).run :=
  bind hlo fun _ => bind hhi fun _ => pure _

/-- Several bytes in one load. -/
theorem fetchWide (n : U8) {rd : U64 → Calm β α}
    (hrd : ∀ a, Fallible.Along R (rd a).run) :
    Fallible.Along R (fetchWide n rd).run := by
  refine bind self fun s => ?_
  split
  · exact pure _
  · exact bind (hrd _) fun _ => bind (h.noting (· + n) id id) fun _ =>
      bind (h.moveRip (fun _ => s.regs.rip + n.setWidth 64) _) fun _ => pure _

omit h in
theorem fetchOr {w : Nat} {wide : Calm β (Option (BitVec (w + w)))}
    {half : Calm β (BitVec w)}
    (hwide : Fallible.Along R wide.run) (hhalf : Fallible.Along R half.run) :
    Fallible.Along R (fetchOr wide half).run := by
  refine bind hwide fun v => ?_
  cases v with
  | some v => exact pure _
  | none => exact readHalves hhalf hhalf

theorem fetch16 : Fallible.Along R (fetch16 : Calm β U16).run :=
  fetchOr (h.fetchWide 2 h.busRead16) h.fetch8

theorem fetch32 : Fallible.Along R (fetch32 : Calm β U32).run :=
  fetchOr (h.fetchWide 4 h.busRead32) h.fetch16

-- ======== modrm

theorem fetchDisp16 (md : U8) :
    Fallible.Along R (fetchDisp16 md : Calm β U16).run := by
  unfold X64.fetchDisp16
  split
  · exact pure _
  split
  · exact map _ h.fetch8
  · exact h.fetch16

theorem fetchDisp (md : U8) :
    Fallible.Along R (fetchDisp md : Calm β U64).run := by
  unfold X64.fetchDisp
  split
  · exact pure _
  split
  · exact map _ h.fetch8
  · exact map _ h.fetch32

/-- The operand address: ModRM, SIB and displacement. -/
theorem ea16 (m : ModRm) : Fallible.Along R (ea16 m : Calm β Operand).run := by
  unfold X64.ea16
  split
  · exact bind h.fetch16 fun _ => bind self fun _ => pure _
  · exact bind (h.fetchDisp16 _) fun _ => bind self fun _ => pure _

theorem sibBase (m : ModRm) (base3 : U8) :
    Fallible.Along R (sibBase m base3 : Calm β (U64 × U8)).run := by
  unfold X64.sibBase
  split
  · exact bind h.fetch32 fun _ => pure _
  · exact bind self fun _ => pure _

theorem sib (m : ModRm) : Fallible.Along R (sib m : Calm β (U64 × U8)).run :=
  bind h.fetch8 fun _ => bind self fun _ => bind (h.sibBase m _) fun _ =>
    bind self fun _ => pure _

theorem eaDisp32 : Fallible.Along R (eaDisp32 : Calm β Operand).run :=
  bind h.fetch32 fun _ => bind self fun _ =>
    bind (whenever _ (h.noting id (fun _ => true) id)) fun _ =>
    pure _

theorem eaBase (m : ModRm) :
    Fallible.Along R (eaBase m : Calm β (U64 × U8)).run := by
  unfold X64.eaBase
  split
  · exact h.sib m
  · exact bind self fun _ => pure _

theorem eaWide (m : ModRm) :
    Fallible.Along R (eaWide m : Calm β Operand).run := by
  unfold X64.eaWide
  split
  · exact h.eaDisp32
  · exact bind (h.eaBase m) fun _ => bind (h.fetchDisp _) fun _ =>
      bind self fun _ => pure _

/-- A ModRM byte with its operand. -/
theorem modrm : Fallible.Along R (modrm : Calm β (ModRm × Operand)).run := by
  refine bind h.fetch8 fun byte => bind self fun s => ?_
  dsimp only
  split
  · exact pure _
  · refine bind ?_ fun _ => pure _
    cases s.asize with
    | O16 => exact h.ea16 _
    | O32 => exact h.eaWide _
    | O64 => exact h.eaWide _

/-- A LOCK check reads the notes. -/
theorem lockCheck (ok : Bool) :
    Fallible.Along R (lockCheck ok : Calm β Unit).run :=
  bind self fun _ => whenever _ <| bind (raiseIf _ _) fun _ =>
    h.noting id id fun _ => true

-- ======== loads

/-- Loads. -/
theorem linRead8 (lin : U64) :
    Fallible.Along R (linRead8 lin : Calm β U8).run := by
  refine onSelf fun s => ?_
  cases hp : s.paging with
  | false =>
    rw [if_pos (by rfl)]
    exact h.busRead _ s
  | true =>
    rw [if_neg (by decide)]
    exact h.translating hp lin .read fun _ => h.busRead _

/-- A wide read in one piece, or else in its two halves. -/
theorem wide {w : Nat} {lin lim : U64} {one : U64 → Calm β (BitVec (w + w))}
    {lo hi : Calm β (BitVec w)} (hone : ∀ a, Fallible.Along R (one a).run)
    (hlo : Fallible.Along R lo.run) (hhi : Fallible.Along R hi.run) :
    Fallible.Along R (X64.self >>= fun s : Machine β =>
      if !s.paging then one lin
      else if lin &&& 0xFFF < lim
        then X64.translate lin .read >>= fun phys => one phys.val
      else X64.readHalves lo hi).run := by
  refine onSelf fun s => ?_
  cases hp : s.paging with
  | false => exact hone lin s
  | true =>
    rw [if_neg (by decide)]
    split
    · exact h.translating hp lin .read fun phys => hone phys.val
    · exact readHalves hlo hhi s

theorem linRead16 (lin : U64) :
    Fallible.Along R (linRead16 lin : Calm β U16).run :=
  h.wide h.busRead16 (h.linRead8 _) (h.linRead8 _)

theorem linRead32 (lin : U64) :
    Fallible.Along R (linRead32 lin : Calm β U32).run :=
  h.wide h.busRead32 (h.linRead16 _) (h.linRead16 _)

theorem linRead64 (lin : U64) :
    Fallible.Along R (linRead64 lin : Calm β U64).run :=
  h.wide h.busRead64 (h.linRead32 _) (h.linRead32 _)

omit h in
/-- An address check moves nothing. -/
theorem linAddr (seg : U8) (off : U64) (size : Nat) (write : Bool) :
    Fallible.Along R (linAddr seg off size write : Calm β U64).run :=
      bind self fun _ => check _

/-- An operand at any size. -/
theorem readSized (z : OpSize) (op : Operand) :
    Fallible.Along R (readSized z op : Calm β U64).run := by
  cases op with
  | reg i => cases z <;> exact bind self fun _ => pure _
  | mem seg off =>
    cases z with
    | O16 => exact map _ (bind (linAddr _ _ _ _) fun _ => h.linRead16 _)
    | O32 => exact map _ (bind (linAddr _ _ _ _) fun _ => h.linRead32 _)
    | O64 => exact bind (linAddr _ _ _ _) fun _ => h.linRead64 _

end Reading

end Remu.X64
