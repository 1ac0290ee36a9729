/-
When a load is right.

The headers are gone through one by one, and what one round comes to can be
told from the file and the address space before it: which sums it takes
(`SumsFit`), and whether the header is accepted (`Accepted`). So the load
takes no sum that does not fit exactly when no header does that it comes
to, and what an accepted image leaves in memory is the business of its
segments (`Built.loaded_iff`). The condition is the two together (`Tame`).
-/
import Remu.Lib.Halting
import Remu.Os.ImageBytes

namespace Remu.Os.Elf

open EntryWidth Word AddressSpace

variable {w : Nat}

-- ======== headers

/-- The file range of a header is there. -/
def Phdr.InFile (data : List U8) (ph : Phdr w) : Prop :=
  ph.offset.toNat + ph.filesz.toNat < 2 ^ w
    ∧ ph.offset.toNat + ph.filesz.toNat ≤ data.length

/-- The segment of a header, if it has one. -/
def segmentOf (data : List U8) (bias : BitVec w) :
    Except Stop (Phdr w) → Option (Segment w)
  | .ok ph => if ph.pType = PT_LOAD then some (ph.segment data bias) else none
  | .error _ => none

variable [EntryWidth w] (c : Format w) (data : List U8) (a : AddressSpace w)
  (e : Ehdr w) (bias : BitVec w)

/-- The segments of the headers before `i`. -/
def segments (i : Nat) : List (Segment w) :=
  (List.range i).filterMap fun j => segmentOf data bias (c.phdrAt data e j)

/-- The address space with segments mapped and filled. -/
def imageOf (segs : List (Segment w)) : AddressSpace w :=
  a.run c.layout (segs.flatMap Segment.ops)

/-- A header that the load goes on from, with the segments before it. -/
structure Accepted (before : List (Segment w)) (ph : Phdr w) : Prop where
  geometry : ph.pType = PT_LOAD → c.complaint (ph.vaddr + bias) ph = none
  file : ph.pType = PT_LOAD → ph.InFile data
  target : ph.pType = PT_LOAD → Target c.layout a before (ph.segment data bias)
  interp : ph.pType = PT_INTERP → ph.InFile data

/-- The sums that a header takes fit: that of the allocator's mark, of a
file range where it is not checked, and of the address of the program
headers. -/
structure SumsFit (before : List (Segment w)) (ph : Phdr w) : Prop where
  frames : ph.pType = PT_LOAD → c.complaint (ph.vaddr + bias) ph = none →
    ((ph.segment data bias).mapped c.layout (imageOf c a before)).nextPhys < 2 ^ w
  file : ph.pType = PT_LOAD → c.complaint (ph.vaddr + bias) ph = none →
    c.badEnd = .overflow →
    ph.offset.toNat + ph.filesz.toNat < 2 ^ w
  table : ph.pType = PT_LOAD →
    c.complaint (ph.vaddr + bias) ph = none → ph.InFile data →
    Target c.layout a before (ph.segment data bias) → ph.offset ≤ e.phoff →
    e.phoff.toNat < ph.offset.toNat + ph.filesz.toNat →
    (ph.vaddr + bias).toNat + (e.phoff - ph.offset).toNat < 2 ^ w
  interp : ph.pType = PT_INTERP → ph.offset.toNat + ph.filesz.toNat < 2 ^ w

/-- The load goes on from header `i`. -/
def Passes (i : Nat) : Prop :=
  ∃ ph, c.phdrAt data e i = .ok ph
    ∧ Accepted c data a bias (segments c data e bias i) ph

/-- Header `i` takes no sum that does not fit. -/
def Clean (i : Nat) : Prop :=
  e.phoff.toNat + i * e.phentsize.toNat + 4 < 2 ^ 64
    ∧ ∀ ph, c.phdrAt data e i = .ok ph →
      SumsFit c data a e bias (segments c data e bias i) ph

variable {c data a e bias}

/-- What the two formats have in common. -/
structure Format.Lawful (c : Format w) : Prop where
  flat : c.layout.Flat
  narrow : w ≤ 64
  near : ∀ k ∈ [c.flagsAt, c.offsetAt, c.vaddrAt, c.fileszAt, c.memszAt,
    c.phoffAt, c.phentsizeAt, c.phnumAt], k ≤ 64
  lower : ∀ (data : List U8) (bias : BitVec w) (ph : Phdr w),
    c.complaint (ph.vaddr + bias) ph = none →
    (ph.segment data bias).Lower c.layout

-- ======== fields

/-- The two ways a check before the rest of a load ends. -/
theorem bind_ok {ε α β : Type} (x : α) (f : α → Except ε β) :
    ((.ok x : Except ε α) >>= f) = f x := rfl

theorem bind_error {ε α β : Type} (err : ε) (f : α → Except ε β) :
    ((.error err : Except ε α) >>= f) = .error err := rfl

/-- No sum was taken that does not fit. -/
def Fits {α : Type} (x : Except Stop α) : Prop := x ≠ .error .overflow

/-- A load whose parts do not overflow does not. -/
theorem Fits.bind {α β : Type} {x : Except Stop α}
    {f : α → Except Stop β} (hx : Fits x)
    (hf : ∀ v, x = .ok v → Fits (f v)) : Fits (x >>= f) := by
  cases x with
  | error stop =>
    intro h
    rw [bind_error] at h
    exact hx (congrArg Except.error (Except.error.inj h))
  | ok v => exact hf v rfl

/-- A refusal is an outcome, an overflow is not. -/
theorem fits_ok {α : Type} (v : α) : Fits (.ok v) := by
  intro h
  cases h

theorem fits_error {α : Type} (msg : String) :
    Fits (.error (.error msg) : Except Stop α) := by
  intro h
  cases h

/-- A missing field is refused. -/
theorem fits_required {α : Type} (msg : String) (o : Option α) :
    Fits (required msg o) := by
  cases o with
  | none => exact fits_error msg
  | some v => exact fits_ok v

omit [EntryWidth w] in
/-- A field below the end of `usize`. -/
theorem fits_field {n : Nat} {msg : String} {off : Nat}
    (hoff : off + n / 8 < 2 ^ 64) :
    Fits (field n msg data off) := by
  rw [field, rd, plusSize, if_pos hoff, bind_ok]
  exact fits_required msg _

omit [EntryWidth w] in
/-- What was read is in the file. -/
theorem field_inFile {n : Nat} {msg : String} {off : Nat} {v : BitVec n}
    (h : field n msg data off = .ok v) : off + n / 8 ≤ data.length := by
  rw [field, rd, plusSize] at h
  split at h
  · by_contra hnot
    rw [bind_ok, slice, if_neg fun hin => hnot hin.2] at h
    cases h
  · cases h

omit [EntryWidth w] in
/-- An offset past 2^64 overflows the sum that finds the field. -/
theorem field_overflow {n : Nat} {msg : String} {off : Nat}
    (hoff : 2 ^ 64 ≤ off + n / 8) :
    field n msg data off = .error .overflow := by
  rw [field, rd, plusSize, if_neg (by omega)]
  rfl

omit [EntryWidth w] in
/-- A program header that ends below 2^64 can be read or refused. -/
theorem fits_phdrField {n base k : Nat} (hbase : base + k + n / 8 < 2 ^ 64) :
    Fits (phdrField n data base k) := by
  rw [phdrField, plusSize, if_pos (by omega), bind_ok]
  exact fits_field hbase

/-- Nothing in a program header is far from its first field. -/
theorem fits_readPhdr (hc : c.Lawful) (hlen : data.length < 2 ^ 63)
    {base : Nat} (hbase : base + 4 < 2 ^ 64) :
    Fits (c.readPhdr data base) := by
  have hnear := hc.near
  have hnarrow : w / 8 ≤ 8 := by
    have := hc.narrow
    omega
  refine (fits_field hbase).bind fun pType htype => ?_
  have hin := field_inFile htype
  have hfield :
    ∀ {n k : Nat}, n / 8 ≤ 8 → k ≤ 64 → Fits (phdrField n data base k) := by
    intro n k hn hk
    exact fits_phdrField (by omega)
  refine (hfield (n := 32) (by decide) (hnear c.flagsAt (by simp))).bind
    fun flags _ => ?_
  refine (hfield hnarrow (hnear c.offsetAt (by simp))).bind fun offset _ => ?_
  refine (hfield hnarrow (hnear c.vaddrAt (by simp))).bind fun vaddr _ => ?_
  refine (hfield hnarrow (hnear c.fileszAt (by simp))).bind fun filesz _ => ?_
  refine (hfield hnarrow (hnear c.memszAt (by simp))).bind fun memsz _ => ?_
  exact fits_ok _

theorem fits_phdrAt (hc : c.Lawful) (hlen : data.length < 2 ^ 63) {i : Nat}
    (hbase : e.phoff.toNat + i * e.phentsize.toNat + 4 < 2 ^ 64) :
    Fits (c.phdrAt data e i) := by
  rw [Format.phdrAt, plusSize, if_pos (by omega), bind_ok]
  exact fits_readPhdr hc hlen hbase

/-- One that does not overflows. -/
theorem phdrAt_overflow {i : Nat}
    (hbase : 2 ^ 64 ≤ e.phoff.toNat + i * e.phentsize.toNat + 4) :
    c.phdrAt data e i = .error .overflow := by
  rw [Format.phdrAt, plusSize]
  split
  · rw [bind_ok, Format.readPhdr, field_overflow hbase, bind_error]
  · rw [bind_error]

/-- The header of the file is at its beginning. -/
theorem fits_readEhdr (hc : c.Lawful) : Fits (c.readEhdr data) := by
  have hnear := hc.near
  have hnarrow : w / 8 ≤ 8 := by
    have := hc.narrow
    omega
  have hfield : ∀ {n k : Nat},
    n / 8 ≤ 8 → k ≤ 64 → Fits (field n "truncated header" data k) := by
    intro n k hn hk
    exact fits_field (by omega)
  rw [Format.readEhdr]
  split
  · exact fits_error _
  split
  · exact fits_error _
  split
  · exact fits_error _
  refine (hfield (n := 16) (by decide) (by decide)).bind fun eType _ => ?_
  refine (hfield (n := 16) (by decide) (by decide)).bind fun eMachine _ => ?_
  split
  · exact fits_error _
  split
  · exact fits_error _
  refine (hfield hnarrow (by decide)).bind fun entry _ => ?_
  refine (hfield hnarrow (hnear c.phoffAt (by simp))).bind fun phoff _ => ?_
  refine (hfield (n := 16) (by decide) (hnear c.phentsizeAt (by simp))).bind
    fun phentsize _ => ?_
  refine (hfield (n := 16) (by decide) (hnear c.phnumAt (by simp))).bind
    fun phnum _ => ?_
  exact fits_ok _

-- ======== a round

/-- A load that has come past some segments. -/
structure Reached (c : Format w) (a : AddressSpace w) (segs : List (Segment w))
    (l : Loading w) : Prop where
  aspace : l.aspace = imageOf c a segs
  built : Built c.layout a segs l.aspace
  lower : ∀ s ∈ segs, s.Lower c.layout
  ends : ∀ s ∈ segs, s.vaddr + s.memsz ≤ l.loadEnd

variable {segs : List (Segment w)} {l : Loading w} {ph : Phdr w}

/-- The image after one more segment: mapped, then filled. -/
theorem imageOf_concat (s : Segment w) : imageOf c a (segs ++ [s])
    = ((s.mapped c.layout (imageOf c a segs)).writeBytes c.layout
      s.vaddr s.file).2 := by
  rw [imageOf, List.flatMap_append, AddressSpace.run, List.foldl_append]
  rfl

/-- When a segment to load is accepted. -/
theorem accepted_load (hload : ph.pType = PT_LOAD) :
    Accepted c data a bias segs ph
    ↔ c.complaint (ph.vaddr + bias) ph = none ∧ ph.InFile data
      ∧ Target c.layout a segs (ph.segment data bias) := by
  have hinterp : ph.pType ≠ PT_INTERP := by
    rw [hload]
    decide
  constructor
  · intro h
    exact ⟨h.geometry hload, h.file hload, h.target hload⟩
  · rintro ⟨hgeometry, hfile, htarget⟩
    exact ⟨fun _ => hgeometry, fun _ => hfile, fun _ => htarget,
      fun h => absurd h hinterp⟩

/-- When loading it overflows nothing: its frames. -/
theorem sumsFit_load (hload : ph.pType = PT_LOAD)
    (hgeometry : c.complaint (ph.vaddr + bias) ph = none) :
    SumsFit c data a e bias segs ph
      ↔ ((ph.segment data bias).mapped c.layout (imageOf c a segs)).nextPhys < 2 ^ w
        ∧ (c.badEnd = .overflow → ph.offset.toNat + ph.filesz.toNat < 2 ^ w)
        ∧ (ph.InFile data → Target c.layout a segs (ph.segment data bias) →
          ph.offset ≤ e.phoff →
          e.phoff.toNat < ph.offset.toNat + ph.filesz.toNat →
          (ph.vaddr + bias).toNat + (e.phoff - ph.offset).toNat < 2 ^ w) := by
  have hinterp : ph.pType ≠ PT_INTERP := by
    rw [hload]
    decide
  constructor
  · intro h
    exact ⟨h.frames hload hgeometry, h.file hload hgeometry,
      h.table hload hgeometry⟩
  · rintro ⟨hframes, hfile, htable⟩
    exact ⟨fun _ _ => hframes, fun _ _ => hfile, fun _ _ => htable,
      fun h => absurd h hinterp⟩

/-- A segment that is refused on its numbers overflows nothing. -/
theorem sumsFit_refused (hload : ph.pType = PT_LOAD)
    (hsome : c.complaint (ph.vaddr + bias) ph ≠ none) :
    SumsFit c data a e bias segs ph := by
  have hinterp : ph.pType ≠ PT_INTERP := by
    rw [hload]
    decide
  exact ⟨fun _ h => absurd h hsome, fun _ h => absurd h hsome,
    fun _ h => absurd h hsome, fun h => absurd h hinterp⟩

/-- One more segment in memory. -/
theorem Reached.concat (hc : c.Lawful) (h : Reached c a segs l) {s : Segment w}
    (hlow : s.Lower c.layout)
    (hfit : (s.mapped c.layout l.aspace).nextPhys ≤ 2 ^ c.layout.physBits)
    (htarget : Target c.layout a segs s) (new : Option (BitVec w)) :
    Reached c a (segs ++ [s]) { l with
      aspace := ((s.mapped c.layout l.aspace).writeBytes c.layout
        s.vaddr s.file).2
      phdrInLoad := new
      loadEnd := if l.loadEnd < s.vaddr + s.memsz then s.vaddr + s.memsz
        else l.loadEnd } := by
  refine ⟨?_, h.built.place hc.flat hlow hfit htarget,
    fun t ht => ?_, fun t ht => ?_⟩
  · rw [imageOf_concat, ← h.aspace]
  · rcases List.mem_append.1 ht with hold | hnew
    · exact h.lower t hold
    · rw [List.mem_singleton.1 hnew]
      exact hlow
  · dsimp only
    rw [BitVec.le_def]
    rcases List.mem_append.1 ht with hold | hnew
    · have hle := BitVec.le_def.1 (h.ends t hold)
      split
      case isTrue hlt => exact hle.trans (Nat.le_of_lt (BitVec.lt_def.1 hlt))
      case isFalse => exact hle
    · rw [List.mem_singleton.1 hnew]
      split
      case isTrue => exact le_refl _
      case isFalse hge => exact BitVec.le_def.1 (BitVec.not_lt.1 hge)

-- The parts of a round, in the order the loader takes them.

/-- The parts of a round, each with what it needs and what it gives. -/
theorem round_checkGeometry (vaddr : BitVec w) (ph : Phdr w) :
    Round .overflow (fun _ => True) True (c.complaint vaddr ph = none)
      (c.checkGeometry vaddr ph) := by
  rw [Format.checkGeometry]
  cases hgeometry : c.complaint vaddr ph with
  | some msg =>
    exact .fail _ (fun h => by cases h) trivial (fun h => by cases h)
  | none => exact .on _ trivial rfl trivial

theorem round_mapImage (b : AddressSpace w) :
    Round .overflow (· = (ph.segment data bias).mapped c.layout b)
    (((ph.segment data bias).mapped c.layout b).nextPhys < 2 ^ w) True
    (c.mapImage b (ph.vaddr + bias) ph) := by
  have hmap : b.map c.layout (ph.vaddr + bias) ph.memsz
      (protOf ph.flags) .image
      = (ph.segment data bias).mapped c.layout b := rfl
  rw [Format.mapImage, hmap]
  by_cases hframes :
    ((ph.segment data bias).mapped c.layout b).nextPhys < 2 ^ w
  · rw [if_pos hframes]
    exact .on _ hframes trivial rfl
  · rw [if_neg hframes]
    exact .fault hframes

/-- A sum that does not fit is a fault or a failure, as the format has it. -/
theorem round_fileEnd (ph : Phdr w) :
    Round .overflow
      (fun upto => upto.toNat = ph.offset.toNat + ph.filesz.toNat)
      (c.badEnd = .overflow → ph.offset.toNat + ph.filesz.toNat < 2 ^ w)
      (ph.offset.toNat + ph.filesz.toNat < 2 ^ w) (c.fileEnd ph) := by
  rw [Format.fileEnd]
  by_cases hend : ph.offset.toNat + ph.filesz.toNat < 2 ^ w
  · rw [if_pos hend]
    exact .on _ (fun _ => hend) hend (BitVec.toNat_add_of_lt hend)
  · rw [if_neg hend]
    by_cases hbad : c.badEnd = .overflow
    · rw [hbad]
      exact .fault fun hclean => hend (hclean rfl)
    · exact .fail _ hbad (fun h => absurd h hbad) hend

omit [EntryWidth w] in
/-- A checked addition. -/
theorem round_plus (x y : BitVec w) :
    Round .overflow (fun z => z.toNat = x.toNat + y.toNat)
    (x.toNat + y.toNat < 2 ^ w) True (plus x y) := by
  rw [plus]
  by_cases hfits : x.toNat + y.toNat < 2 ^ w
  · rw [if_pos hfits]
    exact .on _ hfits trivial (BitVec.toNat_add_of_lt hfits)
  · rw [if_neg hfits]
    exact .fault hfits

omit [EntryWidth w] in
/-- Bytes of the file. -/
theorem round_slice (msg : String) (i n : Nat) :
    Round .overflow (· = (data.take (i + n)).drop i) True
    (i + n ≤ data.length) (required msg (slice data i (i + n))) := by
  rw [slice]
  by_cases hin : i + n ≤ data.length
  · rw [if_pos ⟨Nat.le_add_right i n, hin⟩]
    exact .on _ trivial hin rfl
  · rw [if_neg fun h => hin h.2]
    exact .fail _ (fun h => by cases h) trivial hin

/-- The bytes of the file, into pages that have been mapped. -/
theorem round_fill (b : AddressSpace w) (vaddr : BitVec w) (file : List U8) :
    Round .overflow (· = (b.writeBytes c.layout vaddr file).2) True
      ((b.writeBytes c.layout vaddr file).1 = true) (c.fill b vaddr file) := by
  rw [Format.fill]
  by_cases hdone : (b.writeBytes c.layout vaddr file).1 = true
  · rw [if_pos hdone]
    exact .on _ trivial hdone rfl
  · rw [if_neg hdone]
    exact .fail _ (fun h => by cases h) trivial hdone

omit [EntryWidth w] in
/-- The address of the program headers, where they lie in the segment. -/
theorem round_phdrIn (phoff vaddr : BitVec w) (old : Option (BitVec w))
    (hfile : ph.InFile data) :
    Round .overflow (fun _ => True)
      (ph.offset ≤ phoff → phoff.toNat < ph.offset.toNat + ph.filesz.toNat →
        vaddr.toNat + (phoff - ph.offset).toNat < 2 ^ w) True
          (Format.phdrIn phoff vaddr ph old) := by
  rw [Format.phdrIn]
  by_cases hle : ph.offset ≤ phoff
  · rw [if_pos hle]
    refine (round_plus ph.offset ph.filesz).bind_clean
      (fun h => absurd hfile.1 h) fun upto hupto _ => ?_
    have hin : phoff < upto
      ↔ phoff.toNat < ph.offset.toNat + ph.filesz.toNat := by
      rw [BitVec.lt_def, hupto]
    by_cases hlt : phoff < upto
    · rw [if_pos hlt]
      refine (round_plus vaddr (phoff - ph.offset)).bind_clean
        (fun h hclean => ?_) ?_
      · exact h (hclean hle (hin.1 hlt))
      · exact fun addr _ hfits => .on _ (fun _ _ => hfits) trivial trivial
    · rw [if_neg hlt]
      exact .on _ (fun _ h => absurd (hin.2 h) hlt) trivial trivial
  · rw [if_neg hle]
    exact .on _ (fun h => absurd h hle) trivial trivial

/-- A round over a `PT_LOAD` header. -/
theorem round_loadSegment (hc : c.Lawful) (h : Reached c a segs l)
    (hload : ph.pType = PT_LOAD)
    (hroom : c.complaint (ph.vaddr + bias) ph = none →
      ((ph.segment data bias).mapped c.layout (imageOf c a segs)).nextPhys < 2 ^ w →
      ((ph.segment data bias).mapped c.layout (imageOf c a segs)).nextPhys
        ≤ 2 ^ c.layout.physBits) :
    Round .overflow (Reached c a (segs ++ [ph.segment data bias]))
      (SumsFit c data a e bias segs ph)
      (Accepted c data a bias segs ph)
        (c.loadSegment data e.phoff bias l ph) := by
  rw [accepted_load hload, Format.loadSegment]
  refine (round_checkGeometry (ph.vaddr + bias) ph).bind_passes
    (fun hsome => ?_) fun _ _ hgeometry => ?_
  · exact ⟨sumsFit_refused hload hsome, fun h => hsome h.1⟩
  have hlow := hc.lower data bias ph hgeometry
  rw [sumsFit_load hload hgeometry, ← h.aspace]
  rw [← h.aspace] at hroom
  refine (round_mapImage l.aspace).bind_clean
    (fun hnot hclean => hnot hclean.1) fun mapped hmapped hframes => ?_
  have hfit := hroom hgeometry hframes
  subst hmapped
  refine (round_fileEnd ph).bind (fun hnot hclean => hnot hclean.2.1)
    (fun hclean hnot => ?_)
    fun upto hupto _ hend => ?_
  · exact ⟨⟨hframes, hclean, fun hfile => absurd hfile.1 hnot⟩,
      fun hall => hnot hall.2.1.1⟩
  rw [hupto]
  refine (round_slice _ _ _).bind_passes (fun hnot => ?_)
    fun file hfile hin => ?_
  · exact ⟨⟨hframes, fun _ => hend, fun hfile => absurd hfile.2 hnot⟩,
      fun hall => hnot hall.2.1.2⟩
  subst hfile
  refine (round_fill _ _ _).bind_passes (fun hnot => ?_) fun filled
    hfilled hdone => ?_
  · have hmiss : ¬Target c.layout a segs (ph.segment data bias) :=
      fun htarget => hnot ((h.built.fill_iff hc.flat hlow hfit).2 htarget)
    exact ⟨⟨hframes, fun _ => hend, fun _ htarget => absurd htarget hmiss⟩,
      fun hall => hmiss hall.2.2⟩
  have htarget : Target c.layout a segs (ph.segment data bias) :=
    (h.built.fill_iff hc.flat hlow hfit).1 hdone
  subst hfilled
  refine (round_phdrIn e.phoff (ph.vaddr + bias) l.phdrInLoad
    ⟨hend, hin⟩).bind_clean ?_ ?_
  · exact fun hnot hclean => hnot (hclean.2.2 ⟨hend, hin⟩ htarget)
  · intro new _ hfits
    exact .on _ ⟨hframes, fun _ => hend, fun _ _ => hfits⟩
      ⟨hgeometry, ⟨hend, hin⟩, htarget⟩
      (h.concat hc hlow hfit htarget new)

/-- What is not a segment leaves the address space alone. -/
theorem Reached.keep (h : Reached c a segs l) {l' : Loading w}
    (haspace : l'.aspace = l.aspace)
    (hend : l'.loadEnd = l.loadEnd) : Reached c a segs l' :=
  ⟨haspace.trans h.aspace, haspace ▸ h.built, h.lower, hend ▸ h.ends⟩

omit [EntryWidth w] in
/-- The interpreter's path is read and not used. -/
theorem round_interpPath (ph : Phdr w) : Round .overflow (fun _ => True)
    (ph.offset.toNat + ph.filesz.toNat < 2 ^ w) (ph.InFile data)
      (Format.interpPath data ph) := by
  refine (round_plus ph.offset ph.filesz).bind_clean id fun upto hupto hfits => ?_
  rw [hupto]
  refine (round_slice _ _ _).bind_passes (fun hnot => ?_) fun s _ hin => ?_
  · exact ⟨hfits, fun hfile => hnot hfile.2⟩
  · exact .on _ hfits ⟨hfits, hin⟩ trivial

/-- A round over PT_INTERP moves nothing. -/
theorem round_interp (h : Reached c a segs l)
    (hinterp : ph.pType = PT_INTERP) :
    Round .overflow (Reached c a segs) (SumsFit c data a e bias segs ph)
      (Accepted c data a bias segs ph) (c.handle data e.phoff bias l ph) := by
  have hload : ph.pType ≠ PT_LOAD := by
    rw [hinterp]
    decide
  have hclean : SumsFit c data a e bias segs ph
    ↔ ph.offset.toNat + ph.filesz.toNat < 2 ^ w := by
    constructor
    · exact fun h => h.interp hinterp
    · intro hend
      exact ⟨fun h => absurd h hload, fun h => absurd h hload,
        fun h => absurd h hload, fun _ => hend⟩
  have hpasses : Accepted c data a bias segs ph ↔ ph.InFile data := by
    constructor
    · exact fun h => h.interp hinterp
    · intro hfile
      exact ⟨fun h => absurd h hload, fun h => absurd h hload,
        fun h => absurd h hload, fun _ => hfile⟩
  rw [hclean, hpasses, Format.handle, if_neg hload, if_pos hinterp]
  refine (round_interpPath ph).bind id (fun hfits hnot => ⟨hfits, hnot⟩)
    fun path _ hfits hfile => ?_
  exact .on _ hfits hfile (h.keep rfl rfl)

/-- A round over any header. -/
theorem round_handle (hc : c.Lawful) (h : Reached c a segs l)
    (hroom : ph.pType = PT_LOAD → c.complaint (ph.vaddr + bias) ph = none →
      ((ph.segment data bias).mapped c.layout (imageOf c a segs)).nextPhys < 2 ^ w →
      ((ph.segment data bias).mapped c.layout (imageOf c a segs)).nextPhys
        ≤ 2 ^ c.layout.physBits) :
    Round .overflow
      (Reached c a (segs ++ (segmentOf data bias (.ok ph)).toList))
      (SumsFit c data a e bias segs ph) (Accepted c data a bias segs ph)
      (c.handle data e.phoff bias l ph) := by
  by_cases hload : ph.pType = PT_LOAD
  · rw [segmentOf, if_pos hload, Format.handle, if_pos hload]
    exact round_loadSegment hc h hload (hroom hload)
  · rw [segmentOf, if_neg hload, Option.toList_none, List.append_nil]
    by_cases hinterp : ph.pType = PT_INTERP
    · exact round_interp h hinterp
    · have hclean : SumsFit c data a e bias segs ph :=
        ⟨fun h => absurd h hload, fun h => absurd h hload,
          fun h => absurd h hload, fun h => absurd h hinterp⟩
      have hpasses : Accepted c data a bias segs ph :=
        ⟨fun h => absurd h hload, fun h => absurd h hload,
          fun h => absurd h hload, fun h => absurd h hinterp⟩
      rw [Format.handle, if_neg hload, if_neg hinterp]
      split
      · exact .on _ hclean hpasses (h.keep rfl rfl)
      · exact .on _ hclean hpasses h

/-- One header more. -/
theorem segments_succ (i : Nat) : segments c data e bias (i + 1)
    = segments c data e bias i
      ++ (segmentOf data bias (c.phdrAt data e i)).toList := by
  rw [segments, List.range_succ, List.filterMap_append, segments,
    List.filterMap_cons, List.filterMap_nil]
  cases segmentOf data bias (c.phdrAt data e i) <;> rfl

/-- Physical memory lasts for the segment of header `i`, if it does not run
past the last word. -/
def Room (c : Format w) (data : List U8) (a : AddressSpace w) (e : Ehdr w)
    (bias : BitVec w) (i : Nat) : Prop :=
  ∀ ph, c.phdrAt data e i = .ok ph → ph.pType = PT_LOAD →
    c.complaint (ph.vaddr + bias) ph = none →
    ((ph.segment data bias).mapped c.layout
      (imageOf c a (segments c data e bias i))).nextPhys < 2 ^ w →
    ((ph.segment data bias).mapped c.layout
      (imageOf c a (segments c data e bias i))).nextPhys
      ≤ 2 ^ c.layout.physBits

/-- A round of the loader: the segments so far are in place, one more is
added. -/
theorem round_step (hc : c.Lawful) (hlen : data.length < 2 ^ 63) {i : Nat}
    (h : Reached c a (segments c data e bias i) l)
    (hroom : Room c data a e bias i) :
    Round .overflow (Reached c a (segments c data e bias (i + 1)))
      (Clean c data a e bias i)
      (Passes c data a e bias i) (c.step data e bias l i) := by
  rw [Format.step, segments_succ]
  by_cases hbase : e.phoff.toNat + i * e.phentsize.toNat + 4 < 2 ^ 64
  · have hfits := fits_phdrAt hc hlen hbase
    cases hread : c.phdrAt data e i with
    | error stop =>
      rw [hread] at hfits
      refine .fail stop (fun heq => hfits (congrArg Except.error heq))
        ⟨hbase, fun ph hph => ?_⟩ ?_
      · rw [hread] at hph
        cases hph
      · rintro ⟨ph, hph, -⟩
        rw [hread] at hph
        cases hph
    | ok ph =>
      have hclean : Clean c data a e bias i
        ↔ SumsFit c data a e bias (segments c data e bias i) ph := by
        constructor
        · exact fun h => h.2 ph hread
        · refine fun h => ⟨hbase, fun ph' hph => ?_⟩
          rw [hread, Except.ok.injEq] at hph
          exact hph ▸ h
      have hpasses : Passes c data a e bias i
        ↔ Accepted c data a bias (segments c data e bias i) ph := by
        constructor
        · rintro ⟨ph', hph, h⟩
          rw [hread, Except.ok.injEq] at hph
          exact hph ▸ h
        · exact fun h => ⟨ph, hread, h⟩
      rw [hclean, hpasses, bind_ok]
      exact round_handle hc h (hroom ph hread)
  · rw [phdrAt_overflow (by omega)]
    exact .fault fun hclean => hbase hclean.1

-- ======== a load

/-- What is asked of a load: it takes no sum that does not fit, and if it
succeeds and the segments are apart, they are in memory. -/
structure LoadsRight (c : Format w) (data : List U8) (bias : BitVec w)
    (a : AddressSpace w) : Prop where
  fits : Fits (c.load data bias a)
  image : ∀ e img a', c.readEhdr data = .ok e →
    c.load data bias a = .ok (img, a') →
    Disjoint (segments c data e (e.bias bias) e.phnum.toNat) →
    Loaded c.layout a (segments c data e (e.bias bias) e.phnum.toNat) a'
      img.loadEnd

/-- The condition. A header is come to when the load goes on from all before
it. -/
structure Tame (c : Format w) (data : List U8) (bias : BitVec w)
    (a : AddressSpace w) : Prop where
  clean : ∀ e, c.readEhdr data = .ok e → ∀ i < e.phnum.toNat,
    (∀ j < i, Passes c data a e (e.bias bias) j) →
    Clean c data a e (e.bias bias) i
  fallback : ∀ e, c.readEhdr data = .ok e →
    (∀ j < e.phnum.toNat, Passes c data a e (e.bias bias) j) →
    (e.bias bias).toNat + e.phoff.toNat < 2 ^ w
  fresh : ∀ e, c.readEhdr data = .ok e →
    (∀ j < e.phnum.toNat, Passes c data a e (e.bias bias) j) →
    Disjoint (segments c data e (e.bias bias) e.phnum.toNat) →
    ∀ s ∈ segments c data e (e.bias bias) e.phnum.toNat, s.Fresh c.layout a

/-- The headers, gone through. -/
theorem ending_loadHeaders (hc : c.Lawful) (hlen : data.length < 2 ^ 63)
    (hs : a.Sound c.layout)
    (hroom : ∀ i < e.phnum.toNat, (∀ j < i, Passes c data a e bias j) →
      Room c data a e bias i) :
    Ending .overflow (fun i l => Reached c a (segments c data e bias i) l)
      (Clean c data a e bias)
      (Passes c data a e bias) e.phnum.toNat
        (c.loadHeaders data e bias a e.phnum.toNat) := by
  refine Ending.of_rounds ?_ fun i hi hbefore l hl => ?_
  · exact ⟨rfl, Built.nil hs, fun s hs => absurd hs List.not_mem_nil,
      fun s hs => absurd hs List.not_mem_nil⟩
  · exact round_step hc hlen hl (hroom i hi fun j hj => (hbefore j hj).2)

/-- A load that came past all headers. -/
theorem loadsRight_of_reached (he : c.readEhdr data = .ok e)
    (hrun : c.loadHeaders data e (e.bias bias) a e.phnum.toNat = .ok l)
    (h : Reached c a (segments c data e (e.bias bias) e.phnum.toNat) l) :
    LoadsRight c data bias a ↔ (e.bias bias).toNat + e.phoff.toNat < 2 ^ w
      ∧ (Disjoint (segments c data e (e.bias bias) e.phnum.toNat) →
        ∀ s ∈ segments c data e (e.bias bias) e.phnum.toNat,
          s.Fresh c.layout a) := by
  by_cases hfallback : (e.bias bias).toNat + e.phoff.toNat < 2 ^ w
  · obtain ⟨img, hload, hend⟩ : ∃ img, c.load data bias a = .ok (img, l.aspace)
      ∧ img.loadEnd = l.loadEnd := by
      rw [Format.load, he, bind_ok]
      dsimp only
      rw [hrun, bind_ok, plus, if_pos hfallback, bind_ok]
      exact ⟨_, rfl, rfl⟩
    have hexact := fun hdisj => h.built.loaded_iff h.lower h.ends hdisj
    rw [and_iff_right hfallback]
    constructor
    · intro hright hdisj
      have hloaded := hright.image e img l.aspace he hload hdisj
      rw [hend] at hloaded
      exact (hexact hdisj).1 hloaded
    · intro hfresh
      refine ⟨?_, fun e' img' a' he' hload' hdisj => ?_⟩
      · rw [hload]
        exact fits_ok _
      · rw [he, Except.ok.injEq] at he'
        subst he'
        rw [hload, Except.ok.injEq, Prod.mk.injEq] at hload'
        rw [← hload'.1, ← hload'.2, hend]
        exact (hexact hdisj).2 (hfresh hdisj)
  · have hload : c.load data bias a = .error .overflow := by
      rw [Format.load, he, bind_ok]
      dsimp only
      rw [hrun, bind_ok, plus, if_neg hfallback, bind_error]
    exact iff_of_false (fun hright => hright.fits hload) fun h => hfallback h.1

/-- A load that was stopped. -/
theorem loadsRight_of_stop {stop : Stop}
    (h : c.load data bias a = .error stop) :
    LoadsRight c data bias a ↔ stop ≠ .overflow := by
  constructor
  · rintro hright rfl
    exact hright.fits h
  · intro hne
    refine ⟨?_, fun e img a' _ hload => ?_⟩
    · rw [h]
      exact fun heq => hne (Except.error.inj heq)
    · rw [h] at hload
      cases hload

/-- The condition over all headers, cut at each of them. -/
theorem tame_iff (he : c.readEhdr data = .ok e) : Tame c data bias a
    ↔ (∀ i < e.phnum.toNat, (∀ j < i, Passes c data a e (e.bias bias) j) →
      Clean c data a e (e.bias bias) i)
      ∧ ((∀ j < e.phnum.toNat, Passes c data a e (e.bias bias) j) →
        (e.bias bias).toNat + e.phoff.toNat < 2 ^ w
          ∧ (Disjoint (segments c data e (e.bias bias) e.phnum.toNat) →
            ∀ s ∈ segments c data e (e.bias bias) e.phnum.toNat,
              s.Fresh c.layout a)) := by
  constructor
  · intro h
    exact ⟨h.clean e he,
      fun hpasses => ⟨h.fallback e he hpasses, h.fresh e he hpasses⟩⟩
  · rintro ⟨hclean, hend⟩
    have hone : ∀ e', c.readEhdr data = .ok e' → e' = e := by
      intro e' he'
      rw [he, Except.ok.injEq] at he'
      exact he'.symm
    refine ⟨fun e' he' => ?_, fun e' he' => ?_, fun e' he' => ?_⟩
    · rw [hone e' he']
      exact hclean
    · rw [hone e' he']
      exact fun hpasses => (hend hpasses).1
    · rw [hone e' he']
      exact fun hpasses => (hend hpasses).2

/-- A load is right exactly when its file is tame. -/
theorem loadsRight_iff (hc : c.Lawful) (hlen : data.length < 2 ^ 63)
    (hs : a.Sound c.layout)
    (hroom : ∀ e, c.readEhdr data = .ok e → ∀ i < e.phnum.toNat,
      (∀ j < i, Passes c data a e (e.bias bias) j) →
        Room c data a e (e.bias bias) i) :
    LoadsRight c data bias a ↔ Tame c data bias a := by
  have hfits : Fits (c.readEhdr data) := fits_readEhdr hc
  cases he : c.readEhdr data with
  | error stop =>
    rw [he] at hfits
    have hload :
      c.load data bias a = .error stop := by rw [Format.load, he, bind_error]
    refine iff_of_true
      ((loadsRight_of_stop hload).2 fun heq =>
      hfits (congrArg Except.error heq)) ?_
    have hnone : ∀ e, c.readEhdr data ≠ .ok e := by
      intro e heq
      rw [he] at heq
      cases heq
    exact ⟨fun e heq => absurd heq (hnone e),
      fun e heq => absurd heq (hnone e), fun e heq => absurd heq (hnone e)⟩
  | ok e =>
    rw [tame_iff he]
    have hending := ending_loadHeaders hc hlen hs (hroom e he)
    cases hrun : c.loadHeaders data e (e.bias bias) a e.phnum.toNat with
    | ok l =>
      rw [hrun] at hending
      cases hending with
      | on _ hall hreached =>
        rw [loadsRight_of_reached he hrun hreached]
        have hpasses : ∀ j < e.phnum.toNat,
          Passes c data a e (e.bias bias) j := fun j hj => (hall j hj).2
        constructor
        · exact fun h => ⟨fun i hi _ => (hall i hi).1, fun _ => h⟩
        · exact fun h => h.2 hpasses
    | error stop =>
      have hload : c.load data bias a = .error stop := by
        rw [Format.load, he, bind_ok]
        dsimp only
        rw [hrun, bind_error]
      rw [hrun] at hending
      rw [loadsRight_of_stop hload]
      cases hending with
      | fault i hi hbefore hnot =>
        refine iff_of_false (fun hne => hne rfl) fun h => hnot ?_
        exact h.1 i hi fun j hj => (hbefore j hj).2
      | fail _ hne i hi hbefore hclean hnot =>
        refine iff_of_true hne ⟨fun k hk hpasses => ?_,
          fun hpasses => absurd (hpasses i hi) hnot⟩
        rcases Nat.lt_trichotomy k i with hlt | rfl | hgt
        · exact (hbefore k hlt).1
        · exact hclean
        · exact absurd (hpasses i hgt) hnot

-- ======== the two layers

omit [EntryWidth w] in
/-- The bytes of a segment are no more than its header says. -/
theorem length_file (data : List U8) (bias : BitVec w) (ph : Phdr w) :
    (ph.segment data bias).file.length ≤ ph.filesz.toNat := by
  rw [Phdr.segment, List.length_drop, List.length_take]
  omega

/-- Both formats meet what the rounds go by. -/
theorem lawful_os : Format.os.Lawful where
  flat := Layout.flat_os
  narrow := by decide
  near := by decide
  lower data bias ph _ := by
    have hbits : Layout.os.linBits = 32 := by decide
    have hlen := length_file data bias ph
    have hfilesz := ph.filesz.isLt
    have hlt : ∀ x : U32, x.toNat < 2 ^ Layout.os.linBits := by
      intro x
      rw [hbits]
      exact x.isLt
    exact ⟨fun k _ => hlt _, fun k _ => hlt _, Nat.le_of_lt (hlt _),
      lt_of_le_of_lt hlen hfilesz⟩

theorem lawful_os64 : Format.os64.Lawful where
  flat := Layout.flat_os64
  narrow := by decide
  near := by decide
  lower data bias ph hgeometry := by
    have hbits : Layout.os64.linBits = 48 := by decide
    have hlen := length_file data bias ph
    have hfilesz := ph.filesz.isLt
    obtain ⟨hshort, hend⟩ : ph.filesz.toNat ≤ ph.memsz.toNat
        ∧ (ph.vaddr + bias).toNat + ph.memsz.toNat ≤ 0x800000000000 := by
      have hnone : Format.geometry (ph.vaddr + bias) ph = none := hgeometry
      rw [Format.geometry] at hnone
      split at hnone
      · cases hnone
      split at hnone
      · cases hnone
      case isFalse hshort hend =>
        exact ⟨BitVec.le_def.1 (BitVec.not_lt.1 hshort), Nat.le_of_not_lt hend⟩
    have hlower : ∀ k < ph.memsz.toNat,
        ((ph.vaddr + bias) + BitVec.ofNat 64 k).toNat
          < 2 ^ Layout.os64.linBits := by
      intro k hk
      rw [BitVec.toNat_add, BitVec.toNat_ofNat, hbits]
      omega
    refine ⟨fun k hk => hlower k (by omega), hlower, ?_,
      lt_of_le_of_lt hlen hfilesz⟩
    show (rangeEnd (ph.vaddr + bias) ph.memsz).toNat ≤ 2 ^ Layout.os64.linBits
    rw [rangeEnd, toNat_pageUp, hbits]
    omega

/-- For every file and every address space, of either layer: a load is right
exactly when the file is tame. The mark of the x86-64 allocator is a word
of 64 bits, and the tables hold frames of 52. -/
theorem loads_right_iff (file₃₂ file : List U8) (bias₃₂ : U32) (bias : U64)
    (a₃₂ : AddressSpace 32)
    (a : AddressSpace 64) (hlen₃₂ : file₃₂.length < 2 ^ 63)
    (hlen : file.length < 2 ^ 63)
    (hs₃₂ : a₃₂.Sound Layout.os) (hs : a.Sound Layout.os64)
    (hroom : ∀ e, Format.os64.readEhdr file = .ok e → ∀ i < e.phnum.toNat,
      (∀ j < i, Passes .os64 file a e (e.bias bias) j) →
        Room .os64 file a e (e.bias bias) i) :
    (LoadsRight .os file₃₂ bias₃₂ a₃₂ ↔ Tame .os file₃₂ bias₃₂ a₃₂)
      ∧ (LoadsRight .os64 file bias a ↔ Tame .os64 file bias a) := by
  refine ⟨loadsRight_iff lawful_os hlen₃₂ hs₃₂ ?_,
    loadsRight_iff lawful_os64 hlen hs hroom⟩
  -- the i386 mark runs out where the frames do
  intro e _ i _ _ ph _ _ _ hnext
  exact Nat.le_of_lt hnext

-- ======== one segment

/-- A fresh address space maps nothing. -/
theorem guestByte_new (L : Layout w) (hfit : (new L).nextPhys ≤ 2 ^ L.physBits)
    (x : BitVec w) :
    (new L).guestByte L x = none := by
  have hframe : (new L).frameOf L x = none := by
    rw [frameOf_eq, pteEntry_eq, entryAt_new L hfit, L.follow_zero]
  rw [guestByte, resolve_eq, hframe]
  rfl

/-- A file with one header, of a segment that ends below the last page. -/
structure Single (c : Format w) (data : List U8) (e : Ehdr w) (ph : Phdr w) :
    Prop where
  ehdr : c.readEhdr data = .ok e
  count : e.phnum.toNat = 1
  phdr : c.phdrAt data e 0 = .ok ph
  load : ph.pType = PT_LOAD
  near : e.phoff.toNat + 0 * e.phentsize.toNat + 4 < 2 ^ 64
  frames : ((ph.segment data (e.bias 0)).mapped c.layout
    (new c.layout)).nextPhys
    < 2 ^ min w c.layout.physBits
  file : ph.offset.toNat + ph.filesz.toNat < 2 ^ w
  fits : ph.filesz.toNat ≤ ph.memsz.toNat
  table : ph.offset ≤ e.phoff →
    (ph.vaddr + e.bias 0).toNat + (e.phoff - ph.offset).toNat < 2 ^ w
  fallback : (e.bias 0).toNat + e.phoff.toNat < 2 ^ w
  below : (ph.vaddr + e.bias 0).toNat + ph.memsz.toNat ≤ 2 ^ w - 4096

namespace Single

/-- A file of one segment. -/
theorem segments_one (h : Single c data e ph) :
    segments c data e (e.bias 0) 1 = [ph.segment data (e.bias 0)] := by
  have hnil : segments c data e (e.bias 0) 0 = [] := rfl
  rw [segments_succ, hnil, List.nil_append, h.phdr, segmentOf, if_pos h.load,
    Option.toList_some]

/-- A file of one segment takes few frames. -/
theorem frames_le (h : Single c data e ph) :
    ((ph.segment data (e.bias 0)).mapped c.layout (new c.layout)).nextPhys < 2 ^ w
      ∧ ((ph.segment data (e.bias 0)).mapped c.layout (new c.layout)).nextPhys
        ≤ 2 ^ c.layout.physBits := by
  have hw : 2 ^ min w c.layout.physBits ≤ 2 ^ w :=
    Nat.pow_le_pow_right (by decide) (Nat.min_le_left _ _)
  have hbits : 2 ^ min w c.layout.physBits ≤ 2 ^ c.layout.physBits :=
    Nat.pow_le_pow_right (by decide) (Nat.min_le_right _ _)
  exact ⟨lt_of_lt_of_le h.frames hw,
    Nat.le_of_lt (lt_of_lt_of_le h.frames hbits)⟩

theorem room (h : Single c data e ph) :
    ∀ e', c.readEhdr data = .ok e' → ∀ i < e'.phnum.toNat,
    (∀ j < i, Passes c data (new c.layout) e' (e'.bias 0) j) →
      Room c data (new c.layout) e' (e'.bias 0) i := by
  intro e' he' i hi _ ph' hph' _ _ _
  rw [h.ehdr, Except.ok.injEq] at he'
  subst he'
  rw [h.count, Nat.lt_one_iff] at hi
  subst hi
  rw [h.phdr, Except.ok.injEq] at hph'
  subst hph'
  exact h.frames_le.2

/-- The load of such a file is tame. -/
theorem tame (h : Single c data e ph) : Tame c data 0 (new c.layout) := by
  rw [tame_iff h.ehdr, h.count]
  refine ⟨fun i hi _ => ?_, fun _ => ⟨h.fallback, fun _ s hs => ?_⟩⟩
  · rw [Nat.lt_one_iff] at hi
    subst hi
    refine ⟨h.near, fun ph' hph' => ?_⟩
    rw [h.phdr, Except.ok.injEq] at hph'
    subst hph'
    refine ⟨fun _ _ => h.frames_le.1, fun _ _ _ => h.file,
      fun _ _ _ _ hle _ => h.table hle, fun hinterp => ?_⟩
    rw [h.load] at hinterp
    exact absurd hinterp (by decide)
  · rw [h.segments_one, List.mem_singleton] at hs
    subst hs
    have hlen := length_file data (e.bias 0) ph
    have hfits := h.fits
    have hbelow := h.below
    refine ⟨hlen.trans hfits, ?_,
      fun k _ hk => Or.inr ⟨guestByte_new _ (h.frames_le.2.trans' ?_) _, ?_⟩⟩
    · show (ph.vaddr + e.bias 0).toNat + ph.memsz.toNat < 2 ^ w
      have hpos := Nat.two_pow_pos w
      omega
    · exact (nextPhys_foldl nextPhys_mapPage _ _)
    · have hkm : k < ph.memsz.toNat := hk
      have hnat : ((ph.vaddr + e.bias 0) + BitVec.ofNat w k).toNat
        = (ph.vaddr + e.bias 0).toNat + k := by
        rw [BitVec.toNat_add, BitVec.toNat_ofNat,
          Nat.mod_eq_of_lt (show k < 2 ^ w by omega),
          Nat.mod_eq_of_lt (by omega)]
      have hspans :
        (ph.segment data (e.bias 0)).Spans
        ((ph.vaddr + e.bias 0) + BitVec.ofNat w k).toNat := by
        rw [hnat]
        exact ⟨Nat.le_add_right _ _, Nat.add_lt_add_left hkm _⟩
      refine (Segment.maps_iff hspans).2 ?_
      omega

end Single

/-- An i386 executable with one segment: a file byte and three of zeros. -/
def tinyElf32 : List U8 :=
  [0x7F, 0x45, 0x4C, 0x46, 1, 1, 1, 0, 0, 0, 0, 0, 0, 0, 0, 0, 2,
   0, 3, 0, 1, 0, 0, 0,
   0, 0, 0x40, 0, 0x34, 0, 0, 0, 0, 0, 0, 0, 0, 0, 0, 0, 0x34, 0, 0x20, 0, 1,
     0, 0, 0, 0, 0, 0, 0,
   1, 0, 0, 0, 0x54, 0, 0, 0, 0, 0, 0x40, 0, 0, 0, 0, 0, 1, 0, 0, 0, 4, 0, 0,
     0, 6, 0, 0, 0, 0, 0, 0, 0,
   0xF4]

/-- Its x86-64 counterpart. -/
def tinyElf64 : List U8 :=
  [0x7F, 0x45, 0x4C, 0x46, 2, 1, 1, 0, 0, 0, 0, 0, 0, 0, 0, 0, 2, 0,
   0x3E, 0, 1, 0, 0, 0, 0, 0, 0x40, 0, 0, 0, 0, 0, 0x40, 0, 0, 0, 0, 0, 0, 0,
   0, 0, 0, 0, 0, 0, 0, 0, 0, 0, 0, 0, 0x40, 0, 0x38, 0, 1, 0,
     0, 0, 0, 0, 0, 0,
   1, 0, 0, 0, 6, 0, 0, 0, 0x78, 0, 0, 0, 0, 0, 0, 0, 0, 0, 0x40, 0, 0, 0, 0,
     0, 0, 0, 0, 0, 0, 0, 0, 0,
   1, 0, 0, 0, 0, 0, 0, 0, 4, 0, 0, 0, 0, 0, 0, 0, 0, 0, 0, 0, 0, 0, 0, 0,
   0xF4]

/-- The two small files. -/
theorem single_tinyElf32 :
    Single .os tinyElf32 ⟨ET_EXEC, 0x400000, 0x34, 0x20, 1⟩
    ⟨PT_LOAD, 6, 0x54, 0x400000, 1, 4⟩ where
  ehdr := by decide +kernel
  count := by decide
  phdr := by decide +kernel
  load := by rfl
  near := by decide
  frames := by decide +kernel
  file := by decide
  fits := by decide
  table := by decide
  fallback := by decide
  below := by decide

theorem single_tinyElf64 :
    Single .os64 tinyElf64 ⟨ET_EXEC, 0x400000, 0x40, 0x38, 1⟩
    ⟨PT_LOAD, 6, 0x78, 0x400000, 1, 4⟩ where
  ehdr := by decide +kernel
  count := by decide
  phdr := by decide +kernel
  load := by rfl
  near := by decide
  frames := by decide +kernel
  file := by decide
  fits := by decide
  table := by decide
  fallback := by decide
  below := by decide

theorem loads_right_tiny : LoadsRight .os tinyElf32 0 (new Layout.os)
    ∧ LoadsRight .os64 tinyElf64 0 (new Layout.os64) := by
  have hiff :=
    loads_right_iff tinyElf32 tinyElf64 0 0 (new Layout.os) (new Layout.os64)
      (by decide) (by decide)
    (sound_new Layout.os (by decide)) (sound_new Layout.os64 (by decide))
      single_tinyElf64.room
  exact ⟨hiff.1.2 single_tinyElf32.tame, hiff.2.2 single_tinyElf64.tame⟩

-- ======== sums

/-- A table of program headers at the last byte there is. -/
def farTable : List U8 :=
  [0x7F, 0x45, 0x4C, 0x46, 2, 1, 1, 0, 0, 0, 0, 0, 0, 0, 0, 0, 2, 0,
   0x3E, 0, 1, 0, 0, 0,
   0, 0, 0, 0, 0, 0, 0, 0, 0xFF, 0xFF, 0xFF, 0xFF, 0xFF, 0xFF, 0xFF, 0xFF,
   0, 0, 0, 0, 0, 0, 0, 0, 0, 0, 0, 0, 0x40, 0, 0x38, 0, 1, 0,
     0, 0, 0, 0, 0, 0]

/-- A segment whose file range ends past the last word. -/
def farRange : List U8 :=
  [0x7F, 0x45, 0x4C, 0x46, 1, 1, 1, 0, 0, 0, 0, 0, 0, 0, 0, 0, 2,
   0, 3, 0, 1, 0, 0, 0,
   0, 0, 0, 0, 0x34, 0, 0, 0, 0, 0, 0, 0, 0, 0, 0, 0, 0x34, 0, 0x20, 0, 1, 0,
     0, 0, 0, 0, 0, 0,
   1, 0, 0, 0, 0xFF, 0xFF, 0xFF, 0xFF, 0, 0, 0, 0, 0, 0, 0, 0, 1, 0, 0, 0, 0,
     0, 0, 0, 4, 0, 0, 0, 0, 0, 0, 0]

/-- Neither loader is right about every file: each takes a sum of the
headers' as it finds them. -/
theorem load_overflows : ¬LoadsRight .os64 farTable 0 (new Layout.os64)
    ∧ ¬LoadsRight .os farRange 0 (new Layout.os) := by
  have htable :
    Format.os64.load farTable 0 (new Layout.os64) = .error .overflow := by rfl
  have hrange :
    Format.os.load farRange 0 (new Layout.os) = .error .overflow := by rfl
  exact ⟨fun hright => hright.fits htable, fun hright => hright.fits hrange⟩

end Remu.Os.Elf
