/-
What a descriptor's format says, and what is made of it.

A descriptor interleaves its base, its limit and its flags across two
words. `Descriptor.parse` unpacks them into a segment cache, and LAR packs
the attributes of that cache back into their places in the second word. The
format is stated here by bit positions alone, next to neither.

# The flags nibble

Bits 20–23 of the second word are the flags: granularity, D/B and two more.
`parse` takes bits 16–19 for them, the top of the limit. So the base, the
limit and the access byte are always the descriptor's, while D/B and the
flags LAR reports are so exactly where the two nibbles agree
(`descriptor_law_iff`).
-/
import Remu.X32.EffectiveAddr
import Remu.X32.Transfer
import Remu.X32.Execute0F

namespace Remu.X32

open Word

variable {β : Type} [Bus β] {α : Type}

-- ======== the format

namespace DescriptorFormat

/-- The base: bits 24–31 and 0–7 of the second word over bits 16–31 of the
first. -/
def base (lo hi : U32) : U32 :=
  hi.extractLsb' 24 8 ++ hi.extractLsb' 0 8 ++ lo.extractLsb' 16 16

/-- The limit field, in bytes or in pages. -/
def limitField (lo hi : U32) : BitVec 20 :=
  hi.extractLsb' 16 4 ++ lo.extractLsb' 0 16

/-- The last byte of the segment: the granularity bit scales the field. -/
def limit (lo hi : U32) : Nat :=
  if hi.getLsbD 23 then (limitField lo hi).toNat * 4096 + 4095
    else (limitField lo hi).toNat

def access (hi : U32) : U8 := hi.extractLsb' 8 8

/-- Granularity, D/B, the reserved bit and AVL. -/
def flags (hi : U32) : BitVec 4 := hi.extractLsb' 20 4

/-- The D/B bit. -/
def big (hi : U32) : Bool := hi.getLsbD 22

end DescriptorFormat

/-- A segment cache with everything the descriptor says. -/
structure SegReg.Caches (g : SegReg) (lo hi : U32) : Prop where
  base : g.base = DescriptorFormat.base lo hi
  limit : g.limit.toNat = DescriptorFormat.limit lo hi
  access : g.attrs.setWidth 8 = DescriptorFormat.access hi
  big : g.db = DescriptorFormat.big hi

/-- A LAR result: the access byte in its place and, in a doubleword, the
flags in theirs. -/
structure LarReports (hi : U32) (wide : Bool) (v : U32) : Prop where
  access : v.extractLsb' 8 8 = DescriptorFormat.access hi
  flags : wide = true → v.extractLsb' 20 4 = DescriptorFormat.flags hi

-- ======== unpacking

namespace Descriptor

variable (addr lo hi : U32)

theorem parse_base :
    (parse addr lo hi).base = DescriptorFormat.base lo hi := by
  have hlow : (0xFF : U32) = fieldMask 32 0 8 := by decide
  have hhigh : (0xFF000000 : U32) = fieldMask 32 24 8 := by decide
  unfold parse DescriptorFormat.base
  dsimp only
  rw [hlow, hhigh]
  refine BitVec.eq_of_getLsbD_eq fun i hi => ?_
  simp only [BitVec.getLsbD_or, BitVec.getLsbD_and, BitVec.getLsbD_ushiftRight,
    BitVec.getLsbD_shiftLeft, getLsbD_fieldMask, BitVec.getLsbD_append,
    BitVec.getLsbD_extractLsb']
  grind

/-- The limit field before the scaling. -/
theorem rawLimit_eq :
    (lo &&& 0xFFFF) ||| (hi &&& 0x000F0000)
      = (DescriptorFormat.limitField lo hi).setWidth 32 := by
  have hlow : (0xFFFF : U32) = fieldMask 32 0 16 := by decide
  have hhigh : (0x000F0000 : U32) = fieldMask 32 16 4 := by decide
  unfold DescriptorFormat.limitField
  rw [hlow, hhigh]
  refine BitVec.eq_of_getLsbD_eq fun i hi => ?_
  simp only [BitVec.getLsbD_or, BitVec.getLsbD_and, getLsbD_fieldMask,
    BitVec.getLsbD_append, BitVec.getLsbD_extractLsb', BitVec.getLsbD_setWidth]
  grind

/-- The granularity bit as the source tests it. -/
theorem granularity_iff : (hi &&& 0x00800000 ≠ 0) ↔ hi.getLsbD 23 = true := by
  have hbit : (0x00800000 : U32) = BitVec.twoPow 32 23 := by decide
  rw [hbit, BitVec.and_twoPow]
  cases hi.getLsbD 23 <;> decide

/-- A limit in pages ends with its last page. -/
theorem toNat_scaled (f : BitVec 20) :
    ((f.setWidth 32 <<< 12) ||| (0xFFF : U32)).toNat
      = f.toNat * 4096 + 4095 := by
  have hf := f.isLt
  have hpage : (f.setWidth 32 <<< 12) &&& (0xFFF : U32) = 0 := by
    refine BitVec.eq_of_toNat_eq ?_
    rw [toNat_and_FFF, BitVec.toNat_shiftLeft, BitVec.toNat_setWidth,
      Nat.shiftLeft_eq]
    show f.toNat % 2 ^ 32 * 2 ^ 12 % 2 ^ 32 % 4096 = 0
    omega
  have hlast : (0xFFF : U32) = 0xFFF &&& 0xFFF := by decide
  rw [hlast, toNat_or_offset _ _ hpage, BitVec.toNat_shiftLeft,
    BitVec.toNat_setWidth, Nat.shiftLeft_eq]
  show f.toNat % 2 ^ 32 * 2 ^ 12 % 2 ^ 32 + 4095 % 4096 = f.toNat * 4096 + 4095
  omega

theorem parse_limit :
    (parse addr lo hi).limit.toNat = DescriptorFormat.limit lo hi := by
  have hf := (DescriptorFormat.limitField lo hi).isLt
  unfold parse DescriptorFormat.limit
  dsimp only
  rw [rawLimit_eq]
  by_cases hg : hi.getLsbD 23 = true
  · have hne : hi &&& 0x00800000 ≠ 0 := (granularity_iff hi).mpr hg
    rw [if_pos (by simpa using hne), if_pos hg, toNat_scaled]
  · have heq : ¬ hi &&& 0x00800000 ≠ 0 :=
      fun h => hg ((granularity_iff hi).mp h)
    rw [if_neg (by simpa using heq), if_neg hg, BitVec.toNat_setWidth]
    omega

/-- The attributes: the access byte, and the limit's nibble over it. -/
theorem parse_attrs :
    (parse addr lo hi).attrs
      = 0#4 ++ hi.extractLsb' 16 4 ++ DescriptorFormat.access hi := by
  have hlow : (0xFF : U32) = fieldMask 32 0 8 := by decide
  have hmid : (0x0F00 : U32) = fieldMask 32 8 4 := by decide
  unfold parse DescriptorFormat.access
  show (((hi >>> 8) &&& (0x0F00 : U32)) ||| ((hi >>> 8) &&& (0xFF : U32))).setWidth 16 = _
  rw [hlow, hmid]
  refine BitVec.eq_of_getLsbD_eq fun i hi => ?_
  simp only [BitVec.getLsbD_or, BitVec.getLsbD_and, BitVec.getLsbD_ushiftRight,
    getLsbD_fieldMask, BitVec.getLsbD_append, BitVec.getLsbD_extractLsb',
    BitVec.getLsbD_setWidth, BitVec.getLsbD_zero]
  grind

/-- The bit `db` reads is the third of the limit's nibble. -/
theorem getLsbD_parse_attrs (i : Nat) (hi8 : 8 ≤ i) (hi12 : i < 12) :
    (parse addr lo hi).attrs.getLsbD i = hi.getLsbD (i + 8) := by
  rw [parse_attrs]
  simp only [DescriptorFormat.access, BitVec.getLsbD_append,
    BitVec.getLsbD_extractLsb']
  grind

theorem setWidth_parse_attrs :
    (parse addr lo hi).attrs.setWidth 8 = DescriptorFormat.access hi := by
  rw [parse_attrs]
  refine BitVec.eq_of_getLsbD_eq fun i hi => ?_
  simp only [BitVec.getLsbD_setWidth, BitVec.getLsbD_append]
  grind

end Descriptor

/-- The descriptor of a selector has been read, with `err` as what an
index past the table raises. -/
def ReadsAs (err : U16 → Exception) (sel : U16) (lo hi : U32) (s : Machine β)
    (d : Descriptor) : Prop :=
  ∃ s', (readDescriptorErr sel err).run s = (.ok d, s') ∧ d.lo = lo ∧ d.hi = hi

theorem ReadsAs.eq_parse {err : U16 → Exception} {sel : U16}
    {lo hi : U32} {s : Machine β}
    {d : Descriptor} (h : ReadsAs err sel lo hi s d) :
    ∃ addr, d = .parse addr lo hi := by
  obtain ⟨s', hrun, rfl, rfl⟩ := h
  simp only [readDescriptorErr, readWords, Bounded.run_bind,
    Fallible.bind_eq_ok] at hrun
  obtain ⟨_, _, -, _, _, -, lo, _, -, hi, _, -, hret⟩ := hrun
  cases hret
  exact ⟨_, rfl⟩

-- ======== the caches

theorem db_cache (d : Descriptor) (sel : U16) :
    (d.cache sel).db = d.attrs.getLsbD 10 := by
  have hbit : (0x0400 : U16) = BitVec.twoPow 16 10 := by decide
  show ((d.attrs ||| 0x80) &&& (0x0400 : U16) != 0) = _
  rw [BitVec.and_or_distrib_right, hbit, BitVec.and_twoPow]
  cases d.attrs.getLsbD 10 <;> decide

/-- Presence is bit 7 of the access byte, so a commit does not change it. -/
theorem setWidth_cache_attrs {d : Descriptor}
    (hp : d.present = true) (sel : U16) :
    (d.cache sel).attrs.setWidth 8 = d.attrs.setWidth 8 := by
  have hset : d.attrs.getLsbD 7 = true := by
    have hbit : (0x80 : U16) = BitVec.twoPow 16 7 := by decide
    unfold Descriptor.present at hp
    rw [hbit, BitVec.and_twoPow] at hp
    by_contra hclear
    rw [if_neg hclear] at hp
    exact absurd hp (by decide)
  refine BitVec.eq_of_getLsbD_eq fun i hi => ?_
  have hbit : (0x80 : U16) = BitVec.twoPow 16 7 := by decide
  show ((d.attrs ||| (0x80 : U16)).setWidth 8).getLsbD i = _
  rw [hbit]
  simp only [BitVec.getLsbD_setWidth, BitVec.getLsbD_or, BitVec.getLsbD_twoPow]
  grind

/-- A committed descriptor is cached as the format says, but for D/B: that
is bit 18 of the second word. -/
theorem caches_cache_iff (addr lo hi : U32) (sel : U16)
    (hp : (Descriptor.parse addr lo hi).present = true) :
    ((Descriptor.parse addr lo hi).cache sel).Caches lo hi
      ↔ hi.getLsbD 18 = hi.getLsbD 22 := by
  have hdb : ((Descriptor.parse addr lo hi).cache sel).db = hi.getLsbD 18 := by
    rw [db_cache,
      Descriptor.getLsbD_parse_attrs _ _ _ _ (by decide) (by decide)]
  constructor
  · exact fun h => hdb.symm.trans h.big
  · intro h
    exact {
      base := Descriptor.parse_base addr lo hi
      limit := Descriptor.parse_limit addr lo hi
      access := by
        rw [setWidth_cache_attrs hp, Descriptor.setWidth_parse_attrs]
      big := hdb.trans h }

theorem commitSeg_seg {idx : U8} {sel : U16} {d : Descriptor} {u t : Machine β}
    (h : (commitSeg idx sel d).run u = (.ok (), t)) :
    t.regs.seg idx = d.cache sel := by
  cases h
  exact upd_same _ _ _

/-- A successful load of a segment register: with the checks of a data or
stack segment, or at the commit that every other way of loading CS or SS
ends with. Those ways have read the descriptor before, possibly long
before, and found it present. -/
inductive Loads (sel : U16) (lo hi : U32) (idx : U8) (s t : Machine β) : Prop
  | checked {d : Descriptor} (hpe : s.regs.cr0 &&& cr0.PE ≠ 0)
      (hvm : s.regs.eflags.contains EFlags.VM = false)
      (hnull : nullSel sel = false)
      (hread : ReadsAs Exception.gp sel lo hi s.prepared d)
      (hload : (loadSeg idx sel).run s = (.ok (), t)) : Loads sel lo hi idx s t
  | code {err : U16 → Exception} {d : Descriptor} {u : Machine β} {cpl : U8}
      (hcs : idx = reg.CS)
      (hread : ReadsAs err sel lo hi s d) (hp : d.present = true)
      (hload : (loadCs sel d cpl).run u = (.ok (), t)) :
      Loads sel lo hi idx s t
  | stack {err : U16 → Exception} {d : Descriptor} {u : Machine β} {sp : U32}
      (hss : idx = reg.SS) (hread : ReadsAs err sel lo hi s d)
      (hp : d.present = true)
      (hload : (commitStack sel d sp).run u = (.ok (), t)) :
      Loads sel lo hi idx s t
  | handler {err : U16 → Exception} {d : Descriptor} {u : Machine β}
      (hcs : idx = reg.CS)
      (hread : ReadsAs err sel lo hi s d) (hp : d.present = true)
      (hload : (commitSeg reg.CS (selErr sel) d).run u = (.ok (), t)) :
      Loads sel lo hi idx s t

/-- A checked load commits the present descriptor it read. -/
theorem loadSegProtected_commits {idx : U8} {sel : U16} {s t : Machine β}
    (hnull : nullSel sel = false)
    (h : (loadSegProtected idx sel).run s = (.ok (), t)) :
    ∃ d s' u, (readDescriptor sel).run s = (.ok d, s') ∧ d.present = true
      ∧ (commitSeg idx sel d).run u = (.ok (), t) := by
  unfold loadSegProtected at h
  split at h
  · case _ hss =>
    subst hss
    unfold loadSs at h
    simp only [Bounded.run_bind, Fallible.bind_eq_ok] at h
    obtain ⟨_, s1, hn, _, s2, hself, _, s3, hrpl, d, s4, hread, _, s5, -, _,
      s6, hp, _, s7, -, hcommit⟩ := h
    obtain ⟨-, rfl⟩ := run_raiseIf_ok hn
    cases hself
    obtain ⟨-, rfl⟩ := run_raiseIf_ok hrpl
    obtain ⟨hp, -⟩ := run_raiseIf_ok hp
    exact ⟨d, s4, s7, hread, by simpa using hp, hcommit⟩
  · rw [if_neg (by simp [hnull])] at h
    simp only [Bounded.run_bind, Fallible.bind_eq_ok] at h
    obtain ⟨d, s1, hread, _, s2, -, _, s3, -, _, s4, -, _, s5, hp, _, s6,
      -, hcommit⟩ := h
    obtain ⟨hp, -⟩ := run_raiseIf_ok hp
    exact ⟨d, s1, s6, hread, by simpa using hp, hcommit⟩

/-- What a load leaves in the segment register is the descriptor's cache. -/
theorem Loads.eq_cache {sel : U16} {lo hi : U32} {idx : U8} {s t : Machine β}
    (h : Loads sel lo hi idx s t) :
    ∃ addr sel', (Descriptor.parse addr lo hi).present = true
      ∧ t.regs.seg idx = (Descriptor.parse addr lo hi).cache sel' := by
  cases h with
  | checked hpe hvm hnull hread hload =>
    unfold loadSeg at hload
    rw [run_prepared, Bounded.run_bind, Fallible.bind_of_ok (run_self _),
      Machine.regs_prepared, if_neg hpe, if_neg (by rw [hvm]; decide)] at hload
    obtain ⟨d, s', u, hrun, hp, hcommit⟩ :=
      loadSegProtected_commits hnull hload
    obtain ⟨addr, rfl⟩ := hread.eq_parse
    obtain ⟨_, hrun', -, -⟩ := hread
    cases hrun'.symm.trans hrun
    exact ⟨addr, sel, hp, commitSeg_seg hcommit⟩
  | code hcs hread hp hload =>
    subst hcs
    obtain ⟨addr, rfl⟩ := hread.eq_parse
    unfold loadCs at hload
    simp only [Bounded.run_bind, Fallible.bind_eq_ok] at hload
    obtain ⟨_, _, -, hcommit⟩ := hload
    exact ⟨addr, _, hp, commitSeg_seg hcommit⟩
  | stack hss hread hp hload =>
    subst hss
    obtain ⟨addr, rfl⟩ := hread.eq_parse
    unfold commitStack at hload
    simp only [Bounded.run_bind, Fallible.bind_eq_ok] at hload
    obtain ⟨_, _, -, _, w, hcommit, hstack⟩ := hload
    have hw : w.regs.seg reg.SS = (Descriptor.parse addr lo hi).cache sel :=
      commitSeg_seg hcommit
    have ht := (Prod.ext_iff.mp hstack).2
    subst ht
    exact ⟨addr, sel, hp, hw⟩
  | handler hcs hread hp hload =>
    subst hcs
    obtain ⟨addr, rfl⟩ := hread.eq_parse
    exact ⟨addr, _, hp, commitSeg_seg hload⟩

-- ======== LAR

/-- What LAR makes of the attributes. -/
def Descriptor.larWord (d : Descriptor) : U32 :=
  let a := d.attrs.setWidth 32
  ((a &&& (0xFF : U32)) <<< 8) ||| ((a &&& (0x0F00 : U32)) <<< 12)

theorem larWord_access (addr lo hi : U32) :
    ((Descriptor.parse addr lo hi).larWord).extractLsb' 8 8
      = DescriptorFormat.access hi := by
  have hlow : (0xFF : U32) = fieldMask 32 0 8 := by decide
  have hmid : (0x0F00 : U32) = fieldMask 32 8 4 := by decide
  unfold Descriptor.larWord
  dsimp only
  rw [Descriptor.parse_attrs, hlow, hmid]
  refine BitVec.eq_of_getLsbD_eq fun i hi => ?_
  simp only [BitVec.getLsbD_extractLsb', BitVec.getLsbD_or, BitVec.getLsbD_and,
    BitVec.getLsbD_shiftLeft, getLsbD_fieldMask, BitVec.getLsbD_setWidth,
    BitVec.getLsbD_append]
  grind

/-- The nibble LAR puts where the flags belong is the limit's. -/
theorem larWord_flags (addr lo hi : U32) :
    ((Descriptor.parse addr lo hi).larWord).extractLsb' 20 4
      = hi.extractLsb' 16 4 := by
  have hlow : (0xFF : U32) = fieldMask 32 0 8 := by decide
  have hmid : (0x0F00 : U32) = fieldMask 32 8 4 := by decide
  unfold Descriptor.larWord
  dsimp only
  rw [Descriptor.parse_attrs, hlow, hmid]
  refine BitVec.eq_of_getLsbD_eq fun i hi => ?_
  simp only [BitVec.getLsbD_extractLsb', BitVec.getLsbD_or, BitVec.getLsbD_and,
    BitVec.getLsbD_shiftLeft, getLsbD_fieldMask, BitVec.getLsbD_setWidth,
    BitVec.getLsbD_append]
  grind

/-- An accepted LAR into register `i`: the selector it fetches names a
descriptor that passes its checks. -/
structure Lar (sel : U16) (lo hi : U32) (i : U8) (s t : Machine β) : Prop where
  accepts : ∃ m op d s₁ s₂ s₃, modrm.run s = (.ok (m, op), s₁) ∧ m.reg = i
    ∧ (readOp16 op).run s₁ = (.ok sel, s₂) ∧ nullSel sel = false
    ∧ (readDescriptor sel).run s₂ = (.ok d, s₃) ∧ d.lo = lo ∧ d.hi = hi
    ∧ s₃.larOk sel d false = true
  runs : ∃ cost, (larLsl false).run s = (.ok cost, t)

/-- The override is no part of the file. -/
theorem ReadsOn.asSupervisor {x : Calm β α} (hx : ReadsOn x) :
    ReadsOn (asSupervisor x) := by
  intro s a s' h
  simp only [X32.asSupervisor, Bounded.run_bind, Fallible.bind_eq_ok] at h
  obtain ⟨_, _, hself, _, s₁, hset, r, s₂, hrun, _, s₃, hreset, hret⟩ := h
  cases hself
  cases hset
  cases hreset
  rw [Bounded.run_outcome, Fallible.outcome_apply] at hrun
  cases r with
  | error e => cases hret
  | ok b =>
    cases hret
    have hb := hx _ a s₂ (Prod.ext (Except.ok.inj (Prod.ext_iff.mp hrun).1)
      (Prod.ext_iff.mp hrun).2)
    exact ⟨hb.gpr, hb.asize32, hb.osize32, hb.segOverride⟩

theorem readsOn_readDescriptor (sel : U16) :
    ReadsOn (readDescriptor sel : Calm β Descriptor) :=
  have hhalf : ∀ lin : U32,
    ReadsOn (X32.asSupervisor (linRead32 lin) : Calm β U32) := fun lin =>
    ReadsOn.asSupervisor (reading_sameFile.linRead32 lin)
  Reads.self.bind fun _ => (Reads.raiseIf _ _).bind fun _ =>
    Reads.bind (hhalf _) fun _ =>
    Reads.bind (hhalf _) fun _ => .pure _

-- ======== the law

/-- A register just written, at the operand size. -/
theorem HotRegs.regSized_setRegSized (r : HotRegs) (wide : Bool)
    (i : U8) (v : U32) :
    (r.setRegSized wide i v).regSized wide i
      = if wide then v else (v.setWidth 16).setWidth 32 := by
  cases wide with
  | true => simp [setRegSized, regSized, setReg32, reg32]
  | false =>
    simp [setRegSized, regSized, setReg16, setReg32, reg16]

/-- The register of an accepted LAR. -/
theorem Lar.regOp_eq {sel : U16} {lo hi : U32} {i : U8} {s t : Machine β}
    (h : Lar sel lo hi i s t) :
    ∃ addr, t.osize32 = s.osize32 ∧ t.regOp i
      = if s.osize32 then (Descriptor.parse addr lo hi).larWord
        else ((Descriptor.parse addr lo hi).larWord.setWidth 16).setWidth 32 := by
  obtain ⟨m, op, d, s₁, s₂, s₃, hm, rfl, hsel, hnull, hd, hlo, hhi, hok⟩ := h.accepts
  obtain ⟨addr, rfl⟩ := ReadsAs.eq_parse ⟨s₃, hd, hlo, hhi⟩
  have hsize : s₃.osize32 = s.osize32 :=
    (((reading_sameFile.modrm s _ s₁ hm).trans (reading_sameFile.readOp16 op s₁ _ s₂ hsel)).trans
      (readsOn_readDescriptor sel s₂ _ s₃ hd)).osize32
  have htry : (tryDescriptor sel).run s₂
    = (.ok (some (Descriptor.parse addr lo hi)), s₃) := by
    unfold tryDescriptor
    rw [if_neg (by simp [hnull]), Bounded.run_bind, Bounded.run_outcome,
      Fallible.bind_of_ok (Fallible.outcome_apply _ _), hd]
    rfl
  obtain ⟨cost, hrun⟩ := h.runs
  unfold larLsl at hrun
  rw [Bounded.run_bind, Fallible.bind_of_ok (run_self s), Bounded.run_bind,
    Fallible.bind_eq_ok] at hrun
  obtain ⟨_, s₀, hpm, hrun⟩ := hrun
  obtain ⟨-, rfl⟩ := run_raiseIf_ok hpm
  rw [Bounded.run_bind, Fallible.bind_of_ok hm] at hrun
  dsimp only at hrun
  rw [Bounded.run_bind, Fallible.bind_of_ok hsel, Bounded.run_bind,
    Fallible.bind_of_ok htry, Bounded.run_bind,
    Fallible.bind_of_ok (run_self s₃), Option.filter_some, if_pos hok] at hrun
  cases hrun
  refine ⟨addr, hsize, ?_⟩
  rw [← hsize]
  exact HotRegs.regSized_setRegSized _ _ _ _

/-- A LAR result is the descriptor's up to the flags of a doubleword: those
are bits 16–19 of the second word. -/
theorem Lar.reports_iff {sel : U16} {lo hi : U32} {i : U8} {s t : Machine β}
    (h : Lar sel lo hi i s t) :
    LarReports hi s.osize32 (t.regOp i)
      ↔ (s.osize32 = true → hi.extractLsb' 16 4 = hi.extractLsb' 20 4) := by
  obtain ⟨addr, -, hv⟩ := h.regOp_eq
  rw [hv]
  constructor
  · intro hrep hwide
    have hflags := hrep.flags hwide
    rw [if_pos hwide, larWord_flags] at hflags
    exact hflags
  · intro hflags
    cases hsize : s.osize32 with
    | true =>
      rw [if_pos rfl]
      exact ⟨larWord_access addr lo hi,
        fun _ => (larWord_flags addr lo hi).trans (hflags hsize)⟩
    | false =>
      rw [if_neg (by decide)]
      refine ⟨?_, fun h => absurd h (by decide)⟩
      rw [← larWord_access addr lo hi]
      refine BitVec.eq_of_getLsbD_eq fun i hi => ?_
      simp only [BitVec.getLsbD_extractLsb', BitVec.getLsbD_setWidth]
      grind

/-- The two words of a descriptor that has been loaded differ from those
loaded at most in the accessed bit. -/
def UpToAccessed (hi hi' : U32) : Prop := hi' ||| 0x100 = hi ||| 0x100

theorem UpToAccessed.extract {hi hi' : U32} (h : UpToAccessed hi hi')
    {k : Nat} (hk : 9 ≤ k)
    (n : Nat) : hi'.extractLsb' k n = hi.extractLsb' k n := by
  have hbit : (0x100 : U32) = BitVec.twoPow 32 8 := by decide
  unfold UpToAccessed at h
  rw [hbit] at h
  refine BitVec.eq_of_getLsbD_eq fun i hin => ?_
  have hi' := congrArg (·.getLsbD (k + i)) h
  simp only [BitVec.getLsbD_or, BitVec.getLsbD_twoPow] at hi'
  simp only [BitVec.getLsbD_extractLsb']
  grind

/-- **The descriptor law.** A loaded segment cache and a LAR of the same
selector both say what the descriptor says exactly where the limit's nibble
and the flags agree: in D/B for the cache, in all four bits for a
doubleword LAR. -/
theorem descriptor_law_iff {sel : U16} {lo hi hi' : U32} {idx i : U8}
    {s t r u : Machine β}
    (hload : Loads sel lo hi idx s t) (hlar : Lar sel lo hi' i r u)
    (hsame : UpToAccessed hi hi') :
    (t.regs.seg idx).Caches lo hi ∧ LarReports hi' r.osize32 (u.regOp i)
      ↔ hi.getLsbD 18 = hi.getLsbD 22
        ∧ (r.osize32 = true → hi.extractLsb' 16 4 = hi.extractLsb' 20 4) := by
  obtain ⟨addr, sel', hp, hcache⟩ := hload.eq_cache
  rw [hcache, caches_cache_iff addr lo hi sel' hp, hlar.reports_iff,
    hsame.extract (by decide), hsame.extract (by decide)]

/-- Protected mode over flat memory: a table at 0 whose second descriptor is
64 KiB or more of writable data, `nibbles` the byte of its flags and the top
of its limit, and at 0x100 the operand byte of `LAR ECX, AX`. -/
def descriptorBench (nibbles : U8) : Machine (FlatBus Unit) :=
  { Cpu.new with
    osize32 := true
    regs := { Cpu.new.regs with
      cr0 := cr0.PE
      eip := 0x100
      gpr := fun _ => 8
      gdtr := { base := 0, limit := 0xFF }
      seg := upd Cpu.new.regs.seg reg.CS { sel := 0, base := 0, limit := 0xFFFF, attrs := 0x9B } }
    bus := {
      mem := fun a => if a = 8 ∨ a = 9 then 0xFF else if a = 13 then 0x93
        else if a = 14 then nibbles else if a = 0x100 then 0xC8 else 0
      ports := () } }

/-- The bench after its DS has been loaded, and after its LAR. -/
abbrev loadedBench (nibbles : U8) : Machine (FlatBus Unit) :=
  ((loadSeg reg.DS 8).run (descriptorBench nibbles)).2

abbrev larBench (nibbles : U8) : Machine (FlatBus Unit) :=
  ((larLsl false).run (descriptorBench nibbles)).2

/-- A limit of 0xCFFFF pages and the flags 0xC: the nibbles agree. -/
theorem descriptor_law_iff_agreeing :
    ((loadedBench 0xCC).regs.seg reg.DS).Caches 0xFFFF 0xCC9300
      ∧ LarReports 0xCC9300 true ((larBench 0xCC).regOp reg.ECX) := by
  refine (@descriptor_law_iff _ _ 8 0xFFFF 0xCC9300 0xCC9300 reg.DS reg.ECX
    (descriptorBench 0xCC)
    (loadedBench 0xCC) (descriptorBench 0xCC) (larBench 0xCC) ?_ ?_ ?_).mpr ?_
  · exact .checked (d := .parse 8 0xFFFF 0xCC9300) (by decide)
      (by decide) (by decide)
      ⟨_, Prod.ext (by decide) rfl, rfl, rfl⟩
        (Prod.ext (by decide) rfl)
  · exact {
      accepts := ⟨⟨0xC8⟩, .reg 0, .parse 8 0xFFFF 0xCC9300, _, _, _,
        Prod.ext (by decide) rfl, by
          decide, Prod.ext (by decide) rfl,
        by
          decide, Prod.ext (by decide) rfl, rfl,
            rfl, by decide⟩
      runs := ⟨11, Prod.ext (by decide) rfl⟩ }
  · rfl
  · decide

/-- Sixteen-bit limit, D set: the cache has a 16-bit segment, and LAR
reports no flag. -/
theorem descriptor_law_big_lost :
    Loads 8 0xFFFF 0x409300 reg.DS (descriptorBench 0x40) (loadedBench 0x40)
      ∧ Lar 8 0xFFFF 0x409300 reg.ECX (descriptorBench 0x40) (larBench 0x40)
      ∧ ¬ ((loadedBench 0x40).regs.seg reg.DS).Caches 0xFFFF 0x409300
      ∧ ¬ LarReports 0x409300 true ((larBench 0x40).regOp reg.ECX) := by
  refine ⟨?_, ?_, ?_, ?_⟩
  · exact .checked (d := .parse 8 0xFFFF 0x409300) (by decide)
      (by decide) (by decide)
      ⟨_, Prod.ext (by decide) rfl, rfl, rfl⟩
        (Prod.ext (by decide) rfl)
  · exact {
      accepts := ⟨⟨0xC8⟩, .reg 0, .parse 8 0xFFFF 0x409300, _, _, _,
        Prod.ext (by decide) rfl, by
          decide, Prod.ext (by decide) rfl,
        by
          decide, Prod.ext (by decide) rfl, rfl,
            rfl, by decide⟩
      runs := ⟨11, Prod.ext (by decide) rfl⟩ }
  · exact fun h => absurd h.big (by decide)
  · exact fun h => absurd (h.flags rfl) (by decide)

end Remu.X32
