/-
What loading segments does to guest memory.

A segment acts on every address by itself: where its file bytes go they
replace what was there, in the rest of its pages what was there stays, or
is zero where there was no page, and elsewhere nothing happens (`overlay`).
Loading some segments is this, one after another (`Built`). For segments
that are apart it comes to what the file says exactly when nothing but
zeros was found where a segment has no file bytes (`Fresh`).
-/
import Remu.Os.Bytes
import Remu.Os.Loader
import Remu.Os.Vmas

namespace Remu.Os.Elf

open EntryWidth Word AddressSpace

variable {w : Nat}

-- ======== segments

/-- A `PT_LOAD` segment, at the address it is loaded to. -/
structure Segment (w : Nat) where
  vaddr : BitVec w
  memsz : BitVec w
  prot : U32
  file : List U8

def Phdr.segment (data : List U8) (bias : BitVec w) (ph : Phdr w) :
    Segment w where
  vaddr := ph.vaddr + bias
  memsz := ph.memsz
  prot := protOf ph.flags
  file := (data.take (ph.offset.toNat + ph.filesz.toNat)).drop ph.offset.toNat

namespace Segment

variable (s : Segment w)

/-- The addresses of the segment; they may go past the last one. -/
def Spans (x : Nat) : Prop :=
  s.vaddr.toNat ≤ x ∧ x < s.vaddr.toNat + s.memsz.toNat

/-- The addresses of its pages. -/
def Pages (x : Nat) : Prop :=
  s.vaddr.toNat / 4096 * 4096 ≤ x
    ∧ x < (s.vaddr.toNat + s.memsz.toNat + 4095) / 4096 * 4096

/-- The addresses that are mapped for it; the last page never is. -/
def Maps (x : BitVec w) : Prop :=
  pageDown s.vaddr ≤ x ∧ x < rangeEnd s.vaddr s.memsz

/-- Where its file bytes go. -/
def Copies (x : BitVec w) : Prop := (x - s.vaddr).toNat < s.file.length

instance (x : BitVec w) : Decidable (s.Maps x) :=
  inferInstanceAs (Decidable (_ ∧ _))

instance (x : BitVec w) : Decidable (s.Copies x) :=
  inferInstanceAs (Decidable (_ < _))

/-- What loading it makes of the byte at an address. -/
def overlay (x : BitVec w) (o : Option U8) : Option U8 :=
  if s.Copies x then s.file[(x - s.vaddr).toNat]?
  else if s.Maps x then some (o.getD 0) else o

/-- What loading it asks of the address space. -/
def ops : List (Op w) :=
  [.map s.vaddr s.memsz s.prot .image, .writeBytes s.vaddr s.file]

variable [EntryWidth w] (L : Layout w)

/-- The segment lies among the addresses that the tables tell apart. -/
structure Lower : Prop where
  file : ∀ k < s.file.length,
    (s.vaddr + BitVec.ofNat w k).toNat < 2 ^ L.linBits
  span : ∀ k < s.memsz.toNat,
    (s.vaddr + BitVec.ofNat w k).toNat < 2 ^ L.linBits
  pages : (rangeEnd s.vaddr s.memsz).toNat ≤ 2 ^ L.linBits
  short : s.file.length < 2 ^ w

end Segment

-- ======== a byte at a time

section Bytes

variable [EntryWidth w] {L : Layout w} {a b : AddressSpace w}
  {s : Segment w} {x : BitVec w}

theorem guestByte_eq_view (a : AddressSpace w) (x : BitVec w) :
    a.guestByte L x = (a.view L x).map fun pg => pg.bytes x := by
  rw [guestByte, resolve_eq, view, Option.map_map, Option.map_map]
  rfl

/-- Mapping adds zeros. -/
theorem guestByte_widen {lins : List (BitVec w)} {prot : U32} {user : Bool}
    (h : Effect L a b lins (widen prot user)) (x : BitVec w) :
    b.guestByte L x = if L.Covers lins x then some ((a.guestByte L x).getD 0)
      else a.guestByte L x := by
  rw [guestByte_eq_view, guestByte_eq_view, h.view]
  split
  · cases a.view L x <;> rfl
  · rfl

/-- The pages of a range, among addresses that are told apart. -/
theorem covers_rangePages (hflat : L.Flat) {start len : BitVec w}
    (hpages : (rangeEnd start len).toNat ≤ 2 ^ L.linBits)
    (hx : x.toNat < 2 ^ L.linBits) :
    L.Covers (rangePages start len) x ↔ pageDown start ≤ x
      ∧ x < rangeEnd start len := by
  have hshaped := Vma.shaped_range start len 0 .image
  constructor
  · rintro ⟨lin, hlin, hsame⟩
    have hhas := (hshaped.mem_pages.1 hlin).2
    have hlt := BitVec.lt_def.1 hhas.2
    have hpage := hflat x lin hx (lt_of_lt_of_le hlt hpages) hsame
    exact hshaped.has_of_page hpage hhas
  · intro hhas
    exact hshaped.covers hhas

omit [EntryWidth w] in
theorem add_sub_self (lin x : BitVec w) : lin + (x - lin) = x := by
  rw [BitVec.add_comm, BitVec.sub_add_cancel]

/-- The addresses of a copy are different bytes. -/
theorem Segment.Lower.spread (h : s.Lower L) (hflat : L.Flat) :
    L.Spread s.vaddr s.file.length := by
  intro j k hj hk hsame hoff
  have hpage := hflat _ _ (h.file j hj) (h.file k hk) hsame
  rw [page_eq_iff] at hpage
  have hshort := h.short
  have heq : s.vaddr + BitVec.ofNat w j = s.vaddr + BitVec.ofNat w k :=
    BitVec.eq_of_toNat_eq (by omega)
  have hnat := congrArg BitVec.toNat ((BitVec.add_right_inj _).1 heq)
  rw [BitVec.toNat_ofNat, BitVec.toNat_ofNat, Nat.mod_eq_of_lt (by omega),
    Nat.mod_eq_of_lt (by omega)] at hnat
  exact hnat

/-- A copy that is complete replaces the bytes it goes to. -/
theorem guestByte_copied (hs : a.Sound L) (hflat : L.Flat) (hlow : s.Lower L)
    (hdone : (a.writeBytes L s.vaddr s.file).1 = true)
    (hx : x.toNat < 2 ^ L.linBits) :
    (a.writeBytes L s.vaddr s.file).2.guestByte L x
      = if s.Copies x then s.file[(x - s.vaddr).toNat]?
        else a.guestByte L x := by
  by_cases hcopies : s.Copies x
  · have hlt : (x - s.vaddr).toNat < s.file.length := hcopies
    obtain ⟨q, hq, hv⟩ :=
      holds_writeBytes hs (hlow.spread hflat) hdone (x - s.vaddr).toNat _
      (List.getElem?_eq_getElem hlt)
    rw [BitVec.ofNat_toNat, BitVec.setWidth_eq, add_sub_self] at hq
    rw [if_pos hcopies, guestByte, hq, Option.map_some, hv,
      List.getElem?_eq_getElem hlt]
  · obtain ⟨n, hcopied, hfull, -⟩ := copied_writeBytes hs s.vaddr s.file
    obtain rfl := hfull.1 hdone
    rw [if_neg hcopies, guestByte, guestByte, hcopied.same.resolve]
    cases hq : a.resolve L x with
    | none => rfl
    | some q =>
      rw [Option.map_some, Option.map_some, hcopied.other q]
      intro k hk hkq
      -- an address of the copy that leads to the same byte is the same address
      obtain ⟨hsame, hoff⟩ := resolve_inj hs hq hkq
      have hpage := hflat _ _ hx (hlow.file k hk) hsame
      rw [page_eq_iff] at hpage
      have heq : x = s.vaddr + BitVec.ofNat w k :=
        BitVec.eq_of_toNat_eq (by omega)
      have hshort := hlow.short
      have hk' : (x - s.vaddr).toNat = k := by
        rw [heq, BitVec.add_comm, BitVec.add_sub_cancel, BitVec.toNat_ofNat,
          Nat.mod_eq_of_lt (by omega)]
      exact hcopies
        (show (x - s.vaddr).toNat < s.file.length by rw [hk']; exact hk)

end Bytes

-- ======== a run

section Run

variable [EntryWidth w] {L : Layout w} {a b : AddressSpace w}
  {segs : List (Segment w)} {s : Segment w} {x : BitVec w}

/-- Every byte of the segment's file range goes to a page that was there, or
that the segments up to it map. -/
def Target (L : Layout w) (a : AddressSpace w) (segs : List (Segment w))
    (s : Segment w) : Prop :=
  ∀ k < s.file.length, a.guestByte L (s.vaddr + BitVec.ofNat w k) ≠ none
    ∨ ∃ t ∈ segs ++ [s], t.Maps (s.vaddr + BitVec.ofNat w k)

/-- `b` is `a` with the segments loaded. -/
structure Built (L : Layout w) (a : AddressSpace w) (segs : List (Segment w))
    (b : AddressSpace w) : Prop where
  sound : b.Sound L
  byte : ∀ x : BitVec w, x.toNat < 2 ^ L.linBits →
    b.guestByte L x = segs.foldl (fun o s => s.overlay x o) (a.guestByte L x)
  entry : ∀ x : BitVec w, x.toNat < 2 ^ L.linBits → (∀ s ∈ segs, ¬s.Maps x) →
    b.pteEntry L x = a.pteEntry L x
  mapped : ∀ x : BitVec w, x.toNat < 2 ^ L.linBits →
    (b.guestByte L x ≠ none ↔ a.guestByte L x ≠ none ∨ ∃ s ∈ segs, s.Maps x)

theorem Built.nil (hs : a.Sound L) : Built L a [] a := by
  refine ⟨hs, fun x _ => rfl, fun x _ _ => rfl, fun x _ => ?_⟩
  constructor
  · exact Or.inl
  · rintro (h | ⟨s, hs, -⟩)
    · exact h
    · exact absurd hs List.not_mem_nil

/-- The address space with the segment mapped. -/
abbrev Segment.mapped (L : Layout w) (s : Segment w) (b : AddressSpace w) :
    AddressSpace w :=
  b.map L s.vaddr s.memsz s.prot .image

section Place

variable (h : Built L a segs b) (hflat : L.Flat) (hlow : s.Lower L)
  (hfit : (s.mapped L b).nextPhys ≤ 2 ^ L.physBits)
include h hflat hlow hfit

omit hflat hlow in
theorem Built.effect : Effect L b (s.mapped L b) (rangePages s.vaddr s.memsz)
    (widen s.prot true) :=
  (works_map b s.vaddr s.memsz s.prot .image).effect h.sound hfit

theorem Built.guestByte_mapped (hx : x.toNat < 2 ^ L.linBits) :
    (s.mapped L b).guestByte L x
    = if s.Maps x then some ((b.guestByte L x).getD 0)
      else b.guestByte L x := by
  rw [guestByte_widen (h.effect hfit)]
  exact if_congr (covers_rangePages hflat hlow.pages hx) rfl rfl

theorem Built.mapped_concat (hx : x.toNat < 2 ^ L.linBits) :
    (s.mapped L b).guestByte L x ≠ none
    ↔ a.guestByte L x ≠ none ∨ ∃ t ∈ segs ++ [s], t.Maps x := by
  rw [h.guestByte_mapped hflat hlow hfit hx]
  have hold := h.mapped x hx
  split
  case isTrue hmaps =>
    exact iff_of_true (Option.some_ne_none _)
      (Or.inr ⟨s, List.mem_append_right _ List.mem_cons_self, hmaps⟩)
  case isFalse hmaps =>
    rw [hold]
    constructor
    · rintro (ha | ⟨t, ht, hx⟩)
      · exact Or.inl ha
      · exact Or.inr ⟨t, List.mem_append_left _ ht, hx⟩
    · rintro (ha | ⟨t, ht, hx⟩)
      · exact Or.inl ha
      · rcases List.mem_append.1 ht with ht | ht
        · exact Or.inr ⟨t, ht, hx⟩
        · rw [List.mem_singleton.1 ht] at hx
          exact absurd hx hmaps

/-- When the file bytes can be copied. -/
theorem Built.fill_iff : ((s.mapped L b).writeBytes L s.vaddr s.file).1 = true
    ↔ Target L a segs s := by
  have hsound := (h.effect hfit).sound
  rw [writeBytes_done_iff hsound]
  refine forall₂_congr fun k hk => ?_
  rw [← h.mapped_concat hflat hlow hfit (hlow.file k hk), guestByte, ne_eq,
    ne_eq, Option.map_eq_none_iff]

/-- One more segment. -/
theorem Built.place (htarget : Target L a segs s) :
    Built L a (segs ++ [s])
      ((s.mapped L b).writeBytes L s.vaddr s.file).2 := by
  have heff := h.effect hfit
  have hdone := (h.fill_iff hflat hlow hfit).2 htarget
  obtain ⟨n, hcopied, -, -⟩ := copied_writeBytes heff.sound s.vaddr s.file
  refine ⟨hcopied.same.sound, fun x hx => ?_,
    fun x hx hout => ?_, fun x hx => ?_⟩
  · rw [guestByte_copied heff.sound hflat hlow hdone hx,
      h.guestByte_mapped hflat hlow hfit hx, h.byte x hx, List.foldl_append]
    rfl
  · have hs : ¬s.Maps x := hout s (List.mem_append_right _ List.mem_cons_self)
    have hcov : ¬L.Covers (rangePages s.vaddr s.memsz) x :=
      fun hcov => hs ((covers_rangePages hflat hlow.pages hx).1 hcov)
    rw [hcopied.same.entry, heff.entry x hcov]
    exact h.entry x hx fun t ht => hout t (List.mem_append_left _ ht)
  · rw [← h.mapped_concat hflat hlow hfit hx, guestByte, guestByte, ne_eq,
      ne_eq, Option.map_eq_none_iff, Option.map_eq_none_iff,
      hcopied.same.resolve]

end Place

end Run

-- ======== what the file says

section Image

variable [EntryWidth w] {L : Layout w} {a b : AddressSpace w}
  {segs : List (Segment w)} {s : Segment w} {x : BitVec w} {loadEnd : BitVec w}

/-- No address is in two segments. -/
def Disjoint (segs : List (Segment w)) : Prop :=
  segs.Pairwise fun s t => ∀ x, ¬(s.Spans x ∧ t.Spans x)

/-- What an address space has to be after a load. -/
structure Loaded (L : Layout w) (a : AddressSpace w) (segs : List (Segment w))
    (b : AddressSpace w) (loadEnd : BitVec w) : Prop where
  /-- The file bytes, followed by zeros. -/
  bytes : ∀ s ∈ segs, b.pick L (bytesFrom s.vaddr s.memsz.toNat)
    = some (s.file ++ List.replicate (s.memsz.toNat - s.file.length) 0)
  outside : ∀ x : BitVec w, x.toNat < 2 ^ L.linBits →
    (∀ s ∈ segs, ¬s.Pages x.toNat) →
    b.guestByte L x = a.guestByte L x ∧ b.pteEntry L x = a.pteEntry L x
  loadEnd : ∀ s ∈ segs, s.vaddr.toNat + s.memsz.toNat ≤ loadEnd.toNat

/-- The segment has room for its file bytes and ends below the end of the
address space; where it has no file bytes there are zeros, or nothing that
would not be mapped. -/
structure Segment.Fresh (L : Layout w) (a : AddressSpace w) (s : Segment w) :
    Prop where
  fits : s.file.length ≤ s.memsz.toNat
  below : s.vaddr.toNat + s.memsz.toNat < 2 ^ w
  zeros : ∀ k, s.file.length ≤ k → k < s.memsz.toNat →
    a.guestByte L (s.vaddr + BitVec.ofNat w k) = some 0
      ∨ a.guestByte L (s.vaddr + BitVec.ofNat w k) = none
        ∧ s.Maps (s.vaddr + BitVec.ofNat w k)

theorem pick_bytesFrom_iff {lin : BitVec w} {n : Nat} {data : List U8}
    (hlen : data.length = n) :
    a.pick L (bytesFrom lin n) = some data ↔ ∀ k < n,
      a.guestByte L (lin + BitVec.ofNat w k) = data[k]? := by
  subst hlen
  induction data generalizing lin with
  | nil => exact iff_of_true rfl fun k hk => absurd hk (Nat.not_lt_zero k)
  | cons v vs ih =>
    have hzero : lin + BitVec.ofNat w 0 = lin := BitVec.add_zero lin
    rw [List.length_cons, bytesFrom_succ, pick]
    constructor
    · intro h k hk
      obtain ⟨u, hu, hrest⟩ := Option.bind_eq_some_iff.1 h
      obtain ⟨us, hus, hcons⟩ := Option.map_eq_some_iff.1 hrest
      obtain ⟨rfl, rfl⟩ := List.cons.inj hcons
      cases k with
      | zero => rw [hzero, hu, List.getElem?_cons_zero]
      | succ k =>
        rw [← add_succ, List.getElem?_cons_succ,
          ih.1 hus k (Nat.lt_of_succ_lt_succ hk)]
    · intro h
      have hhead := h 0 (Nat.succ_pos _)
      rw [hzero, List.getElem?_cons_zero] at hhead
      have htail : a.pick L (bytesFrom (lin + 1) vs.length) = some vs := by
        refine ih.2 fun k hk => ?_
        rw [add_succ, h (k + 1) (Nat.succ_lt_succ hk), List.getElem?_cons_succ]
      rw [hhead, Option.bind_some, htail, Option.map_some]

-- ------------------------------------------------------------- one address

omit [EntryWidth w] in
/-- Segments that copy the same byte to the address leave it there. -/
theorem over_copied {v : U8} {o : Option U8}
    (hv : ∀ t ∈ segs, t.Copies x → t.file[(x - t.vaddr).toNat]? = some v)
    (h : o = some v ∨ ∃ t ∈ segs, t.Copies x) :
    segs.foldl (fun o s => s.overlay x o) o = some v := by
  induction segs generalizing o with
  | nil =>
    rcases h with h | ⟨t, ht, -⟩
    · exact h
    · exact absurd ht List.not_mem_nil
  | cons t segs ih =>
    rw [List.foldl_cons]
    refine ih (fun u hu => hv u (List.mem_cons_of_mem _ hu)) ?_
    rw [Segment.overlay]
    by_cases hcopies : t.Copies x
    · rw [if_pos hcopies]
      exact Or.inl (hv t List.mem_cons_self hcopies)
    · rw [if_neg hcopies]
      rcases h with rfl | ⟨u, hu, hux⟩
      · exact Or.inl (ite_self (some v))
      · rcases List.mem_cons.1 hu with rfl | hu
        · exact absurd hux hcopies
        · exact Or.inr ⟨u, hu, hux⟩

omit [EntryWidth w] in
/-- An address that no segment copies to. -/
theorem over_free {o : Option U8} (hfree : ∀ t ∈ segs, ¬t.Copies x) :
    segs.foldl (fun o s => s.overlay x o) o = if ∃ t ∈ segs,
      t.Maps x then some (o.getD 0) else o := by
  induction segs generalizing o with
  | nil =>
    have hnone : ¬∃ t ∈ ([] : List (Segment w)), t.Maps x := by
      rintro ⟨t, ht, -⟩
      exact List.not_mem_nil ht
    rw [List.foldl_nil, if_neg hnone]
  | cons t segs ih =>
    have hover : t.overlay x o = if t.Maps x then some (o.getD 0) else o :=
      if_neg (hfree t List.mem_cons_self)
    rw [List.foldl_cons, ih fun u hu => hfree u (List.mem_cons_of_mem _ hu), hover]
    by_cases hmaps : t.Maps x
    · have hsome : ∃ u ∈ t :: segs, u.Maps x := ⟨t, List.mem_cons_self, hmaps⟩
      rw [if_pos hmaps, if_pos hsome, Option.getD_some, ite_self]
    · rw [if_neg hmaps]
      refine if_congr ?_ rfl rfl
      simp only [List.mem_cons, exists_eq_or_imp, hmaps, false_or]

-- --------------------------------------------------------------- the image

omit [EntryWidth w] in
/-- Where a segment with room for its file bytes copies to. -/
theorem Segment.spans_of_copies (hfits : s.file.length ≤ s.memsz.toNat)
    (hbelow : s.vaddr.toNat + s.memsz.toNat < 2 ^ w) (hx : s.Copies x) :
    s.Spans x.toNat := by
  have hlt : (x - s.vaddr).toNat < s.file.length := hx
  have hsum : x.toNat = s.vaddr.toNat + (x - s.vaddr).toNat := by
    calc x.toNat = (s.vaddr + (x - s.vaddr)).toNat := by rw [add_sub_self]
      _ = s.vaddr.toNat + (x - s.vaddr).toNat := by
        rw [BitVec.toNat_add, Nat.mod_eq_of_lt (by omega)]
  exact ⟨by omega, by omega⟩

/-- What is mapped of a segment: all but the last page. -/
theorem Segment.maps_iff (hx : s.Spans x.toNat) :
    s.Maps x ↔ x.toNat < 2 ^ w - 4096 := by
  obtain ⟨hlo, hhi⟩ := hx
  rw [Segment.Maps, BitVec.le_def, BitVec.lt_def, pageDown, toNat_and_not_FFF,
    rangeEnd, toNat_pageUp]
  omega

theorem Segment.lt_of_maps (hx : s.Maps x) : x.toNat < 2 ^ w - 4096 := by
  have hlt := BitVec.lt_def.1 hx.2
  rw [rangeEnd, toNat_pageUp] at hlt
  omega

theorem Segment.pages_of_maps (hx : s.Maps x) : s.Pages x.toNat := by
  obtain ⟨hlo, hhi⟩ := hx
  rw [BitVec.le_def, pageDown, toNat_and_not_FFF] at hlo
  rw [BitVec.lt_def, rangeEnd, toNat_pageUp] at hhi
  exact ⟨by omega, by omega⟩

section Exact

variable (h : Built L a segs b) (hlow : ∀ s ∈ segs, s.Lower L)
  (hfits : ∀ s ∈ segs, s.file.length ≤ s.memsz.toNat)
  (hbelow : ∀ s ∈ segs, s.vaddr.toNat + s.memsz.toNat < 2 ^ w)

include hfits hbelow in
omit [EntryWidth w] in
/-- An address of a segment is copied to by that one only. -/
theorem Disjoint.copies (hdisj : Disjoint segs) {t : Segment w}
    (hs : s ∈ segs) (ht : t ∈ segs)
    (hx : s.Spans x.toNat) (hcopies : t.Copies x) : t = s := by
  by_contra hne
  have hsymm : Std.Symm fun s t : Segment w => ∀ x, ¬(s.Spans x ∧ t.Spans x) :=
    ⟨fun s t hst x hx => hst x hx.symm⟩
  exact hdisj.forall ht hs hne x.toNat
    ⟨Segment.spans_of_copies (hfits t ht) (hbelow t ht) hcopies, hx⟩

include hfits hbelow in
omit [EntryWidth w] in
/-- Address `k` of a segment. -/
theorem toNat_span (hs : s ∈ segs) {k : Nat} (hk : k < s.memsz.toNat) :
    (s.vaddr + BitVec.ofNat w k).toNat = s.vaddr.toNat + k
      ∧ ((s.vaddr + BitVec.ofNat w k) - s.vaddr).toNat = k := by
  have hfit := hfits s hs
  have hend := hbelow s hs
  constructor
  · rw [BitVec.toNat_add, BitVec.toNat_ofNat,
      Nat.mod_eq_of_lt (show k < 2 ^ w by omega), Nat.mod_eq_of_lt (by omega)]
  · rw [BitVec.add_comm, BitVec.add_sub_cancel, BitVec.toNat_ofNat,
      Nat.mod_eq_of_lt (by omega)]

include h hlow hfits hbelow

/-- The file bytes of a segment are where they belong. -/
theorem Built.file_byte (hdisj : Disjoint segs) (hs : s ∈ segs) {k : Nat}
    (hk : k < s.file.length) :
    b.guestByte L (s.vaddr + BitVec.ofNat w k) = s.file[k]? := by
  have hkm : k < s.memsz.toNat := lt_of_lt_of_le hk (hfits s hs)
  obtain ⟨hnat, hsub⟩ := toNat_span hfits hbelow hs hkm
  have hspans : s.Spans (s.vaddr + BitVec.ofNat w k).toNat :=
    ⟨by omega, by omega⟩
  have hcopies :
    s.Copies (s.vaddr + BitVec.ofNat w k) := by rwa [Segment.Copies, hsub]
  rw [h.byte _ ((hlow s hs).file k hk), List.getElem?_eq_getElem hk]
  refine over_copied (fun t ht htx => ?_) (Or.inr ⟨s, hs, hcopies⟩)
  rw [hdisj.copies hfits hbelow hs ht hspans htx, hsub,
    List.getElem?_eq_getElem hk]

/-- The rest of a segment holds what was there, or zero. -/
theorem Built.rest_byte (hdisj : Disjoint segs) (hs : s ∈ segs) {k : Nat}
    (hge : s.file.length ≤ k)
    (hk : k < s.memsz.toNat) : b.guestByte L (s.vaddr + BitVec.ofNat w k)
      = if s.Maps (s.vaddr + BitVec.ofNat w k)
        then some ((a.guestByte L (s.vaddr + BitVec.ofNat w k)).getD 0)
        else a.guestByte L (s.vaddr + BitVec.ofNat w k) := by
  obtain ⟨hnat, hsub⟩ := toNat_span hfits hbelow hs hk
  have hspans : s.Spans (s.vaddr + BitVec.ofNat w k).toNat :=
    ⟨by omega, by omega⟩
  have hfree : ∀ t ∈ segs, ¬t.Copies (s.vaddr + BitVec.ofNat w k) := by
    intro t ht htx
    rw [hdisj.copies hfits hbelow hs ht hspans htx,
      Segment.Copies, hsub] at htx
    omega
  rw [h.byte _ ((hlow s hs).span k hk), over_free hfree]
  refine if_congr ?_ rfl rfl
  constructor
  · rintro ⟨t, -, htx⟩
    exact (Segment.maps_iff hspans).2 (Segment.lt_of_maps htx)
  · exact fun hmaps => ⟨s, hs, hmaps⟩

/-- The bytes of a segment are right when it found zeros. -/
theorem Built.bytes_iff (hdisj : Disjoint segs) (hs : s ∈ segs) :
    b.pick L (bytesFrom s.vaddr s.memsz.toNat)
        = some (s.file ++ List.replicate (s.memsz.toNat - s.file.length) 0)
      ↔ ∀ k, s.file.length ≤ k → k < s.memsz.toNat →
        a.guestByte L (s.vaddr + BitVec.ofNat w k) = some 0
          ∨ a.guestByte L (s.vaddr + BitVec.ofNat w k) = none
            ∧ s.Maps (s.vaddr + BitVec.ofNat w k) := by
  have hfit := hfits s hs
  have hrest : ∀ k, s.file.length ≤ k → k < s.memsz.toNat →
      (s.file ++ List.replicate (s.memsz.toNat - s.file.length) (0 : U8))[k]?
        = some 0 := by
    intro k hge hk
    rw [List.getElem?_append_right hge, List.getElem?_replicate,
      if_pos (by omega)]
  have hzero : ∀ (o : Option U8) (p : Prop) [Decidable p],
      (if p then some (o.getD 0) else o) = some 0 ↔ o = some 0
        ∨ o = none ∧ p := by
    intro o p _
    cases o <;> by_cases hp : p <;> simp [hp]
  rw [pick_bytesFrom_iff
    (by rw [List.length_append, List.length_replicate]; omega)]
  constructor
  · intro hall k hge hk
    rw [← hzero, ← h.rest_byte hlow hfits hbelow hdisj hs hge hk,
      hall k hk, hrest k hge hk]
  · intro hzeros k hk
    rcases Nat.lt_or_ge k s.file.length with hlt | hge
    · rw [h.file_byte hlow hfits hbelow hdisj hs hlt,
        List.getElem?_append_left hlt]
    · rw [h.rest_byte hlow hfits hbelow hdisj hs hge hk, hrest k hge hk, hzero]
      exact hzeros k hge hk

end Exact

/-- Segments that are apart: what is in memory is what the file says. -/
theorem Built.loaded_iff (h : Built L a segs b) (hlow : ∀ s ∈ segs, s.Lower L)
    (hends : ∀ s ∈ segs, s.vaddr + s.memsz ≤ loadEnd) (hdisj : Disjoint segs) :
    Loaded L a segs b loadEnd ↔ ∀ s ∈ segs, s.Fresh L a := by
  constructor
  · intro hloaded
    have hfits : ∀ s ∈ segs, s.file.length ≤ s.memsz.toNat := by
      intro s hs
      have hlen := length_pick (hloaded.bytes s hs)
      rw [length_bytesFrom, List.length_append, List.length_replicate] at hlen
      omega
    have hbelow : ∀ s ∈ segs, s.vaddr.toNat + s.memsz.toNat < 2 ^ w :=
      fun s hs => lt_of_le_of_lt (hloaded.loadEnd s hs) loadEnd.isLt
    intro s hs
    exact ⟨hfits s hs, hbelow s hs,
      (h.bytes_iff hlow hfits hbelow hdisj hs).1 (hloaded.bytes s hs)⟩
  · intro hfresh
    have hfits : ∀ s ∈ segs,
      s.file.length ≤ s.memsz.toNat := fun s hs => (hfresh s hs).fits
    have hbelow : ∀ s ∈ segs,
      s.vaddr.toNat + s.memsz.toNat < 2 ^ w := fun s hs => (hfresh s hs).below
    refine ⟨fun s hs => ?_, fun x hx hout => ?_, fun s hs => ?_⟩
    · exact (h.bytes_iff hlow hfits hbelow hdisj hs).2 (hfresh s hs).zeros
    · have hmaps : ∀ s ∈ segs,
        ¬s.Maps x := fun s hs hmaps => hout s hs (Segment.pages_of_maps hmaps)
      have hcopies : ∀ s ∈ segs, ¬s.Copies x := by
        intro s hs hcopies
        have hspans :=
          Segment.spans_of_copies (hfits s hs) (hbelow s hs) hcopies
        exact hout s hs
          ⟨by have := hspans.1; omega, by have := hspans.2; omega⟩
      have hnone : ¬∃ s ∈ segs, s.Maps x := by
        rintro ⟨s, hs, hmapped⟩
        exact hmaps s hs hmapped
      refine ⟨?_, h.entry x hx hmaps⟩
      rw [h.byte x hx, over_free hcopies, if_neg hnone]
    · have hend := BitVec.le_def.1 (hends s hs)
      rwa [BitVec.toNat_add, Nat.mod_eq_of_lt (hbelow s hs)] at hend

end Image

end Remu.Os.Elf
