/-
What a loaded image holds.

`parse` checks a segment's sums in 64 bits, up to and including 2^32;
`load` takes them again in 32 bits. So a segment that ends at the very top
of the address space overflows, and one that ends in the last page has no
page-aligned break above it. Below that the image is exact: after any
number of segments a byte of memory is the last file byte copied to it, or
zero (`Holds`). The header table can still be lost to a later segment, and
the condition says so (`TableKept`).
-/
import Mathlib.Data.List.Pairwise
import Remu.Usermode.Disjoint

namespace Remu.Usermode

-- ======== memory

namespace AddressSpace

theorem chunks_allocAll (l : List Nat) (m : AddressSpace) (i : Nat) :
    (l.foldl allocChunk m).chunks i
      = if i ∈ l then some ((m.chunks i).getD newChunk) else m.chunks i := by
  induction l generalizing m with
  | nil => simp
  | cons j rest ih =>
    rw [List.foldl_cons, ih]
    by_cases hj : i = j
    · subst hj
      simp [allocChunk]
    · have hkeep : (m.allocChunk j).chunks i = m.chunks i := upd_other _ _ hj
      simp [hj, hkeep]

/-- The chunk of `x` is one that `map` allocates. -/
def Reaches (addr len : U32) (x : Nat) : Prop :=
  len ≠ 0 ∧ addr.toNat / CHUNK_SIZE ≤ x / CHUNK_SIZE
    ∧ x / CHUNK_SIZE
      ≤ min (addr.toNat + len.toNat - 1) (2 ^ 32 - 1) / CHUNK_SIZE

instance (addr len : U32) (x : Nat) : Decidable (Reaches addr len x) :=
  inferInstanceAs (Decidable (_ ∧ _ ∧ _))

/-- What was mapped keeps its bytes, and what is new is zero. -/
theorem byte_map (m : AddressSpace) (addr len : U32) (x : Nat) :
    (m.map addr len).byte? x = if Reaches addr len x
      then some ((m.byte? x).getD 0) else m.byte? x := by
  by_cases hlen : len = 0
  · rw [map, if_pos hlen, if_neg fun h => h.1 hlen]
  · have hmem : x / CHUNK_SIZE ∈ List.range' (addr.toNat / CHUNK_SIZE)
          (min (addr.toNat + len.toNat - 1) (2 ^ 32 - 1) / CHUNK_SIZE + 1 - addr.toNat / CHUNK_SIZE)
        ↔ Reaches addr len x := by
      rw [List.mem_range'_1, Reaches, and_iff_right hlen]
      omega
    rw [map, if_neg hlen, byte?, chunks_allocAll]
    simp only [hmem]
    split
    · rw [Option.map_some, byte?]
      cases m.chunks (x / CHUNK_SIZE) <;> rfl
    · rfl

/-- A mapped range is there. -/
theorem reaches_of_covers {addr len : U32} {x : Nat}
    (hx : Covers addr.toNat len.toNat x) (hlt : x < 2 ^ 32) :
    Reaches addr len x := by
  obtain ⟨hlo, hhi⟩ := hx
  refine ⟨?_, Nat.div_le_div_right hlo, Nat.div_le_div_right (by omega)⟩
  rintro rfl
  exact absurd hhi (by simpa using hlo)

theorem chunks_putByte (m : AddressSpace) (a : Nat) (c : Chunk) (v : U8) :
    (m.putByte a c v).chunks
      = upd m.chunks (a / CHUNK_SIZE) (some (upd c (a % CHUNK_SIZE) v)) := rfl

theorem byte_putByte (m : AddressSpace) {a : Nat} {c : Chunk}
    (hc : m.chunks (a / CHUNK_SIZE) = some c)
    (v : U8) (x : Nat) :
    (m.putByte a c v).byte? x = if x = a then some v else m.byte? x := by
  rw [byte?, chunks_putByte, byte?]
  by_cases hchunk : x / CHUNK_SIZE = a / CHUNK_SIZE
  · rw [hchunk, upd_same, hc, Option.map_some, Option.map_some]
    by_cases hx : x = a
    · rw [if_pos hx, hx, upd_same]
    · rw [if_neg hx, upd_other]
      intro hmod
      exact hx
        (by rw [← Nat.div_add_mod x CHUNK_SIZE, hchunk, hmod, Nat.div_add_mod])
  · rw [upd_other _ _ hchunk, if_neg]
    rintro rfl
    exact hchunk rfl

/-- A copy into mapped memory succeeds, and changes the bytes it copies. -/
theorem writeBytes_done (m : AddressSpace) (a : Nat) (data : List U8)
    (htop : a + data.length ≤ 2 ^ 32)
    (hmap : ∀ x, a ≤ x → x < a + data.length → (m.byte? x).isSome) :
    ∃ m', m.writeBytes a data = (true, m')
      ∧ ∀ x, m'.byte? x = if a ≤ x ∧ x < a + data.length
        then some (data.getD (x - a) 0) else m.byte? x := by
  induction data generalizing m a with
  | nil =>
    refine ⟨m, rfl, fun x => ?_⟩
    rw [if_neg]
    rw [List.length_nil]
    omega
  | cons v data ih =>
    rw [List.length_cons] at htop hmap
    have hhere := hmap a (Nat.le_refl a) (by omega)
    rw [byte?, Option.isSome_map] at hhere
    obtain ⟨c, hc⟩ := Option.isSome_iff_exists.1 hhere
    have hput := byte_putByte m hc v
    obtain ⟨m', hrun, hbyte⟩ := ih (m.putByte a c v) (a + 1) (by omega) (by
      intro x hlo hhi
      rw [hput, if_neg (by omega)]
      exact hmap x (by omega) (by omega))
    refine ⟨m', ?_, fun x => ?_⟩
    · rw [writeBytes, if_neg (by omega), hc]
      exact hrun
    · rw [hbyte, hput, List.length_cons]
      by_cases hx : x = a
      · subst hx
        rw [if_neg (by omega), if_pos rfl, if_pos (by omega), Nat.sub_self]
        rfl
      · by_cases hin : a + 1 ≤ x ∧ x < a + 1 + data.length
        · rw [if_pos hin, if_pos (by omega),
            show x - a = (x - (a + 1)) + 1 by omega]
          rfl
        · rw [if_neg hin, if_neg hx, if_neg (by omega)]

end AddressSpace

-- ======== the headers

/-- The bounds of the sums `load` takes of a loadable segment. -/
structure Elf32.SumsFit (elf : Elf32) (ph : Phdr) : Prop where
  mapped : (ph.vaddr - (ph.vaddr &&& ~~~(PAGE_SIZE - 1))).toNat
    + ph.memsz.toNat < 2 ^ 32
  file : ph.offset.toNat + ph.filesz.toNat < 2 ^ 32
  memory : ph.vaddr.toNat + ph.memsz.toNat < 2 ^ 32
  table : ph.offset.toNat ≤ elf.phoff.toNat →
    elf.phoff.toNat + elf.phnum.toNat * 32
      ≤ ph.offset.toNat + ph.filesz.toNat →
    ph.vaddr.toNat + (elf.phoff.toNat - ph.offset.toNat) < 2 ^ 32

namespace Phdr

/-- The addresses of a segment. -/
def Spans (ph : Phdr) (x : Nat) : Prop :=
  Usermode.Covers ph.vaddr.toNat ph.memsz.toNat x

/-- The addresses its file bytes go to. -/
def Copies (ph : Phdr) (x : Nat) : Prop :=
  Usermode.Covers ph.vaddr.toNat ph.filesz.toNat x

instance (ph : Phdr) (x : Nat) : Decidable (ph.Copies x) :=
  inferInstanceAs (Decidable (_ ∧ _))

/-- The file byte that goes to `x`. -/
def fileByte (bytes : List U8) (ph : Phdr) (x : Nat) : U8 :=
  byteAt bytes (ph.offset.toNat + (x - ph.vaddr.toNat))

/-- The header table lies in the file range of the segment. -/
def HoldsTable (elf : Elf32) (ph : Phdr) : Prop :=
  ph.offset.toNat ≤ elf.phoff.toNat
    ∧ elf.phoff.toNat + elf.phnum.toNat * 32
      ≤ ph.offset.toNat + ph.filesz.toNat

instance (elf : Elf32) (ph : Phdr) : Decidable (ph.HoldsTable elf) :=
  inferInstanceAs (Decidable (_ ∧ _))

/-- What `parse` checked of a loadable segment. -/
structure Checked (bytes : List U8) (ph : Phdr) : Prop where
  inFile : ph.offset.toNat + ph.filesz.toNat ≤ bytes.length
  short : ph.filesz.toNat ≤ ph.memsz.toNat
  inMemory : ph.vaddr.toNat + ph.memsz.toNat ≤ 2 ^ 32

end Phdr

theorem parsePhdr_checked {bytes : List U8} {p : Nat} {ph : Phdr}
    (h : parsePhdr bytes p = .ok ph)
    (hload : ph.pType = PT_LOAD) : ph.Checked bytes := by
  unfold parsePhdr at h
  dsimp only at h
  split at h
  · cases h
  case isFalse hno =>
    cases h
    rw [not_and, not_or, not_or] at hno
    obtain ⟨hfile, hshort, hmem⟩ := hno hload
    exact ⟨Nat.not_lt.1 hfile, BitVec.le_def.1 (BitVec.not_lt.1 hshort),
      Nat.not_lt.1 hmem⟩

/-- What a `mapM` that succeeds returns, element by element. -/
theorem mem_of_mapM_ok {α γ ε : Type} {f : α → Except ε γ}
    {l : List α} {r : List γ}
    (h : l.mapM f = .ok r) :
    r.length = l.length ∧ ∀ y ∈ r, ∃ x ∈ l, f x = .ok y := by
  induction l generalizing r with
  | nil =>
    cases h
    exact ⟨rfl, fun y hy => absurd hy List.not_mem_nil⟩
  | cons a l ih =>
    rw [List.mapM_cons] at h
    cases hf : f a with
    | error e =>
      rw [hf] at h
      cases h
    | ok y =>
      cases hl : l.mapM f with
      | error e =>
        rw [hf, hl] at h
        cases h
      | ok ys =>
        rw [hf, hl] at h
        cases h
        obtain ⟨hlen, hmem⟩ := ih hl
        refine ⟨by rw [List.length_cons, List.length_cons, hlen], ?_⟩
        intro z hz
        rcases List.mem_cons.1 hz with rfl | hz
        · exact ⟨a, List.mem_cons_self, hf⟩
        · obtain ⟨x, hx, hfx⟩ := hmem z hz
          exact ⟨x, List.mem_cons_of_mem _ hx, hfx⟩

/-- What `parse` checked of the whole. -/
structure Elf32.Parsed (bytes : List U8) (elf : Elf32) : Prop where
  table : elf.phoff.toNat + elf.phnum.toNat * 32 ≤ bytes.length
  nonempty : 0 < elf.phnum.toNat
  checked : ∀ ph ∈ elf.segments, ph.Checked bytes

theorem parsed_of_parse {bytes : List U8} {elf : Elf32}
    (h : parse bytes = .ok elf) : elf.Parsed bytes := by
  unfold parse at h
  repeat (split at h; · cases h)
  dsimp only [bind, Except.bind, throw, throwThe, MonadExceptOf.throw,
    pure, Except.pure] at h
  split at h
  · cases h
  rename_i htable
  cases hm : (List.range (u16le bytes 44).toNat).mapM fun i =>
      parsePhdr bytes ((u32le bytes 28).toNat + i * 32) with
  | error e =>
    rw [hm] at h
    cases h
  | ok phdrs =>
    rw [hm] at h
    dsimp only at h
    split at h
    · cases h
    case isFalse hany =>
      cases h
      obtain ⟨hlen, hmem⟩ := mem_of_mapM_ok hm
      rw [List.length_range] at hlen
      refine ⟨Nat.not_lt.1 htable, ?_, ?_⟩
      · -- a table with no entry has no loadable one
        rw [← hlen]
        rw [Bool.not_eq_true, Bool.not_eq_false', List.any_eq_true] at hany
        obtain ⟨ph, hph, -⟩ := hany
        exact List.length_pos_of_mem hph
      · intro ph hph
        obtain ⟨hph, htype⟩ := List.mem_filter.1 hph
        obtain ⟨i, -, hparse⟩ := hmem ph hph
        exact parsePhdr_checked hparse (eq_of_beq htype)

-- ======== the image

/-- The file byte copied to `x` last. -/
def lastCopy (bytes : List U8) (segs : List Phdr) (x : Nat) : Option U8 :=
  segs.reverse.findSome? fun ph => if ph.Copies x
    then some (ph.fileByte bytes x) else none

/-- The address of the header table, in the last segment that holds it. -/
def tableAddr (elf : Elf32) (segs : List Phdr) : Option U32 :=
  segs.reverse.findSome? fun ph =>
    if ph.HoldsTable elf
      then some (ph.vaddr + (elf.phoff - ph.offset)) else none

/-- The state of a load after the segments `segs`: memory has them mapped,
with the byte copied last or zero at every mapped address, and the image
ends with the segment that ends last. -/
structure Holds (elf : Elf32) (bytes : List U8) (segs : List Phdr)
    (l : Loading) : Prop where
  mapped : ∀ ph ∈ segs, ∀ x, ph.Spans x → (l.mem.byte? x).isSome
  byte : ∀ x v, l.mem.byte? x = some v → v = (lastCopy bytes segs x).getD 0
  unmapped : ∀ x, l.mem.byte? x = none → lastCopy bytes segs x = none
  below : ∀ ph ∈ segs, ph.vaddr.toNat + ph.memsz.toNat ≤ l.imageEnd.toNat
  last : l.imageEnd = 0 ∨ ∃ ph ∈ segs,
    l.imageEnd.toNat = ph.vaddr.toNat + ph.memsz.toNat
  table : l.phdrVaddr = tableAddr elf segs

theorem holds_nil (elf : Elf32) (bytes : List U8) :
    Holds elf bytes [] { mem := .new, imageEnd := 0, phdrVaddr := none } where
  mapped _ h := absurd h List.not_mem_nil
  byte _ _ h := absurd h.symm (Option.some_ne_none _)
  unmapped _ _ := rfl
  below _ h := absurd h List.not_mem_nil
  last := .inl rfl
  table := rfl

theorem pageBase_le (v : U32) : (v &&& ~~~(PAGE_SIZE - 1)).toNat ≤ v.toNat
    ∧ (v - (v &&& ~~~(PAGE_SIZE - 1))).toNat
      = v.toNat - (v &&& ~~~(PAGE_SIZE - 1)).toNat
    ∧ v.toNat - (v &&& ~~~(PAGE_SIZE - 1)).toNat < 4096 := by
  have hbase :
    (v &&& ~~~(PAGE_SIZE - 1)).toNat = v.toNat - v.toNat % 4096 := by
    rw [show PAGE_SIZE - 1 = 0xFFF by decide, Word.toNat_and_not_FFF]
    omega
  have hle : (v &&& ~~~(PAGE_SIZE - 1)).toNat ≤ v.toNat := by omega
  refine ⟨hle, BitVec.toNat_sub_of_le (BitVec.le_def.2 hle), by omega⟩

/-- The last element that satisfies `P`, by its place in the list. -/
theorem findSome_reverse {α γ : Type} {P : α → Prop} [DecidablePred P]
    {f : α → γ} {l : List α} {b : γ} :
    (l.reverse.findSome? fun a => if P a then some (f a) else none) = some b
      ↔ ∃ pre a post, l = pre ++ a :: post ∧ P a ∧ f a = b
        ∧ ∀ c ∈ post, ¬ P c := by
  rw [List.findSome?_eq_some_iff]
  constructor
  · rintro ⟨l₁, a, l₂, hl, ha, hnone⟩
    have hPa : P a := by
      by_contra hno
      rw [if_neg hno] at ha
      cases ha
    rw [if_pos hPa] at ha
    refine ⟨l₂.reverse, a, l₁.reverse, ?_, hPa, Option.some.inj ha, ?_⟩
    · rw [← List.reverse_reverse l, hl, List.reverse_append, List.reverse_cons,
        List.append_assoc, List.singleton_append]
    · intro c hc hP
      have := hnone c (List.mem_reverse.1 hc)
      rw [if_pos hP] at this
      cases this
  · rintro ⟨pre, a, post, rfl, hPa, rfl, hnone⟩
    refine ⟨post.reverse, a, pre.reverse, ?_, if_pos hPa, ?_⟩
    · rw [List.reverse_append, List.reverse_cons, List.append_assoc,
        List.singleton_append]
    · intro c hc
      exact if_neg (hnone c (List.mem_reverse.1 hc))

/-- What comes last decides. -/
theorem lastCopy_append (bytes : List U8) (pre post : List Phdr)
    (ph : Phdr) (x : Nat) :
    lastCopy bytes (pre ++ ph :: post) x = (lastCopy bytes post x).or
      (if ph.Copies x then some (ph.fileByte bytes x) else lastCopy bytes pre x) := by
  rw [lastCopy, List.reverse_append, List.reverse_cons, List.append_assoc,
    List.singleton_append, List.findSome?_append, List.findSome?_cons]
  by_cases h : ph.Copies x
  · rw [if_pos h, if_pos h]
    rfl
  · rw [if_neg h, if_neg h]
    rfl

theorem tableAddr_append (elf : Elf32) (segs : List Phdr) (ph : Phdr) :
    tableAddr elf (segs ++ [ph]) = if ph.HoldsTable elf
      then some (ph.vaddr + (elf.phoff - ph.offset))
      else tableAddr elf segs := by
  rw [tableAddr, List.reverse_append, List.reverse_singleton,
    List.singleton_append, List.findSome?_cons]
  by_cases h : ph.HoldsTable elf
  · rw [if_pos h, if_pos h]
  · rw [if_neg h, if_neg h]
    rfl

/-- The pages a segment is mapped with. -/
def Phdr.Pages (ph : Phdr) (x : Nat) : Prop :=
  AddressSpace.Reaches (ph.vaddr &&& ~~~(PAGE_SIZE - 1))
    (ph.vaddr - (ph.vaddr &&& ~~~(PAGE_SIZE - 1)) + ph.memsz) x

instance (ph : Phdr) (x : Nat) : Decidable (ph.Pages x) :=
  inferInstanceAs (Decidable (AddressSpace.Reaches _ _ x))

/-- They hold the segment. -/
theorem Phdr.pages_of_spans {elf : Elf32} {ph : Phdr} (hfit : elf.SumsFit ph)
    {x : Nat} (hx : ph.Spans x) :
    ph.Pages x := by
  obtain ⟨hlo, hhi⟩ := hx
  obtain ⟨hbase, hsub, -⟩ := pageBase_le ph.vaddr
  have hmemory := hfit.memory
  refine AddressSpace.reaches_of_covers ⟨by omega, ?_⟩ (by omega)
  rw [BitVec.toNat_add, Nat.mod_eq_of_lt hfit.mapped, hsub]
  omega

/-- The file bytes of a segment, as they are copied. -/
theorem Phdr.data_eq {bytes : List U8} {ph : Phdr}
    (hck : ph.Checked bytes) {upto : Nat}
    (hupto : upto = ph.offset.toNat + ph.filesz.toNat) :
    ((bytes.take upto).drop ph.offset.toNat).length = ph.filesz.toNat
      ∧ ∀ x, ph.Copies x →
        ((bytes.take upto).drop ph.offset.toNat).getD (x - ph.vaddr.toNat) 0
        = ph.fileByte bytes x := by
  have hinFile := hck.inFile
  constructor
  · rw [List.length_drop, List.length_take]
    omega
  · rintro x ⟨hlo, hhi⟩
    rw [Phdr.fileByte, byteAt, List.getD_eq_getElem?_getD,
      List.getD_eq_getElem?_getD, List.getElem?_drop, List.getElem?_take,
      if_pos (by omega)]

/-- A segment whose sums fit is mapped and copied. -/
theorem loadSegment_memory {elf : Elf32} {bytes : List U8}
    {ph : Phdr} (m : AddressSpace)
    (hck : ph.Checked bytes) (hfit : elf.SumsFit ph) :
    ∃ m', (m.map (ph.vaddr &&& ~~~(PAGE_SIZE - 1))
        (ph.vaddr - (ph.vaddr &&& ~~~(PAGE_SIZE - 1)) + ph.memsz)).writeBytes
          ph.vaddr.toNat
          ((bytes.take (ph.offset + ph.filesz).toNat).drop ph.offset.toNat)
            = (true, m')
      ∧ ∀ x, m'.byte? x = if ph.Copies x then some (ph.fileByte bytes x)
        else if ph.Pages x then some ((m.byte? x).getD 0) else m.byte? x := by
  have hmap : ∀ x, (m.map (ph.vaddr &&& ~~~(PAGE_SIZE - 1))
      (ph.vaddr - (ph.vaddr &&& ~~~(PAGE_SIZE - 1)) + ph.memsz)).byte? x
        = if ph.Pages x then some ((m.byte? x).getD 0) else m.byte? x :=
          fun x => m.byte_map _ _ x
  have hupto :
    (ph.offset + ph.filesz).toNat = ph.offset.toNat + ph.filesz.toNat := by
    rw [BitVec.toNat_add, Nat.mod_eq_of_lt hfit.file]
  obtain ⟨hdata, hcopy⟩ := Phdr.data_eq hck hupto
  have hshort := hck.short
  have hmemory := hfit.memory
  obtain ⟨m', hrun, hbyte⟩ := AddressSpace.writeBytes_done _ ph.vaddr.toNat
    ((bytes.take (ph.offset + ph.filesz).toNat).drop ph.offset.toNat)
      (by omega) (by
      intro x hlo hhi
      rw [hmap, if_pos (Phdr.pages_of_spans hfit ⟨hlo, by omega⟩)]
      rfl)
  refine ⟨m', hrun, fun x => ?_⟩
  have hin : (ph.vaddr.toNat ≤ x ∧ x < ph.vaddr.toNat
      + ((bytes.take (ph.offset + ph.filesz).toNat).drop
        ph.offset.toNat).length) ↔ ph.Copies x := by
    rw [hdata]
    exact Iff.rfl
  rw [hbyte, hmap]
  by_cases hc : ph.Copies x
  · rw [if_pos (hin.2 hc), if_pos hc, hcopy x hc]
  · rw [if_neg (mt hin.1 hc), if_neg hc]

/-- One segment whose sums fit. -/
theorem Holds.segment {elf : Elf32} {bytes : List U8} {segs : List Phdr}
    {l : Loading} {ph : Phdr}
    (h : Holds elf bytes segs l) (hck : ph.Checked bytes)
    (hfit : elf.SumsFit ph) :
    ∃ l', loadSegment elf bytes l ph = some l'
      ∧ Holds elf bytes (segs ++ [ph]) l' := by
  obtain ⟨m', hrun, hbyte⟩ := loadSegment_memory l.mem hck hfit
  have hend : (ph.vaddr + ph.memsz).toNat
    = ph.vaddr.toNat + ph.memsz.toNat := by
    rw [BitVec.toNat_add, Nat.mod_eq_of_lt hfit.memory]
  have hupto :
    (ph.offset + ph.filesz).toNat = ph.offset.toNat + ph.filesz.toNat := by
    rw [BitVec.toNat_add, Nat.mod_eq_of_lt hfit.file]
  have hinFile := hck.inFile
  have hload : loadSegment elf bytes l ph = some
      { mem := m'
        imageEnd := if l.imageEnd < ph.vaddr + ph.memsz
          then ph.vaddr + ph.memsz else l.imageEnd
        phdrVaddr :=
          if ph.HoldsTable elf then some (ph.vaddr + (elf.phoff - ph.offset))
            else l.phdrVaddr } := by
    unfold loadSegment
    dsimp only
    rw [if_neg (by omega), hrun]
    rfl
  refine ⟨_, hload, ?_⟩
  constructor
  case mapped =>
    intro seg hseg x hx
    dsimp only
    rw [hbyte]
    rcases List.mem_append.1 hseg with hold | hnew
    · split
      · rfl
      · split
        · rfl
        · exact h.mapped seg hold x hx
    · obtain rfl := List.mem_singleton.1 hnew
      rw [if_pos (Phdr.pages_of_spans hfit hx)]
      split <;> rfl
  case byte =>
    intro x v hv
    dsimp only at hv
    rw [hbyte] at hv
    rw [lastCopy_append, show lastCopy bytes [] x = none from rfl,
      Option.none_or]
    split at hv
    · rename_i hc
      rw [if_pos hc]
      exact (Option.some.inj hv).symm
    · rename_i hc
      rw [if_neg hc]
      split at hv
      · rw [← Option.some.inj hv]
        cases hb : l.mem.byte? x with
        | none => rw [h.unmapped x hb]
        | some u => exact h.byte x u hb
      · exact h.byte x v hv
  case unmapped =>
    intro x hx
    dsimp only at hx
    rw [hbyte] at hx
    rw [lastCopy_append, show lastCopy bytes [] x = none from rfl,
      Option.none_or]
    split at hx
    · cases hx
    · rename_i hc
      rw [if_neg hc]
      split at hx
      · cases hx
      · exact h.unmapped x hx
  case below =>
    intro seg hseg
    dsimp only
    rcases List.mem_append.1 hseg with hold | hnew
    · have hle := h.below seg hold
      split
      · rename_i hlt
        have := BitVec.lt_def.1 hlt
        omega
      · exact hle
    · obtain rfl := List.mem_singleton.1 hnew
      split
      · exact hend.ge
      · rename_i hge
        rw [← hend]
        exact BitVec.le_def.1 (BitVec.not_lt.1 hge)
  case last =>
    dsimp only
    split
    · exact .inr ⟨ph, List.mem_append_right _ List.mem_cons_self, hend⟩
    · rcases h.last with h0 | ⟨seg, hseg, heq⟩
      · exact .inl h0
      · exact .inr ⟨seg, List.mem_append_left _ hseg, heq⟩
  case table =>
    rw [tableAddr_append, ← h.table]

/-- All the segments. -/
theorem Holds.segments {elf : Elf32} {bytes : List U8}
    {before : List Phdr} {l : Loading}
    (h : Holds elf bytes before l) (segs : List Phdr)
    (hck : ∀ ph ∈ segs, ph.Checked bytes)
    (hfit : ∀ ph ∈ segs, elf.SumsFit ph) :
    ∃ l', segs.foldlM (loadSegment elf bytes) l = some l'
      ∧ Holds elf bytes (before ++ segs) l' := by
  induction segs generalizing before l with
  | nil => exact ⟨l, rfl, by rwa [List.append_nil]⟩
  | cons ph rest ih =>
    obtain ⟨l₁, hstep, h₁⟩ :=
      h.segment (hck ph List.mem_cons_self) (hfit ph List.mem_cons_self)
    obtain ⟨l₂, hrun, h₂⟩ :=
      ih h₁ (fun p hp => hck p (List.mem_cons_of_mem _ hp))
      fun p hp => hfit p (List.mem_cons_of_mem _ hp)
    refine ⟨l₂, ?_, ?_⟩
    · rw [List.foldlM_cons, hstep]
      exact hrun
    · rwa [List.append_assoc, List.singleton_append] at h₂

-- ======== the result

/-- The segments are pairwise disjoint. -/
def Elf32.SegmentsDisjoint (elf : Elf32) : Prop :=
  elf.segments.Pairwise fun p q => ∀ x, ¬ (p.Spans x ∧ q.Spans x)

/-- What a load has to return. -/
structure Loaded (elf : Elf32) (bytes : List U8)
    (brkStart : U32) (phdr : Option U32) (mem : AddressSpace) : Prop where
  mapped : ∀ ph ∈ elf.segments, ∀ x, ph.Spans x → (mem.byte? x).isSome
  image : elf.SegmentsDisjoint → ∀ ph ∈ elf.segments, ∀ x, ph.Spans x →
    mem.byte? x = some (if ph.Copies x then ph.fileByte bytes x else 0)
  brkPage : brkStart.toNat % 4096 = 0
  brkAbove : ∀ ph ∈ elf.segments,
    ph.vaddr.toNat + ph.memsz.toNat ≤ brkStart.toNat
  table : ∀ a, phdr = some a → ∀ j, j < elf.phnum.toNat * 32 →
    mem.byte? (a.toNat + j) = some (byteAt bytes (elf.phoff.toNat + j))

/-- `load` takes no sum over 32 bits, does not panic and returns the image. -/
def LoadsRight (elf : Elf32) (bytes : List U8) : Prop :=
  (∀ ph ∈ elf.segments, elf.SumsFit ph)
    ∧ ∃ brkStart phdr mem,
      load elf bytes .new = some ((elf.entry, brkStart, phdr), mem)
      ∧ Loaded elf bytes brkStart phdr mem

/-- The header table, where the last segment that holds it puts it, is not
replaced by the different bytes of a segment after it. -/
def TableKept (elf : Elf32) (bytes : List U8) : Prop :=
  ∀ pre s mid t post, elf.segments = pre ++ s :: (mid ++ t :: post) →
    s.HoldsTable elf → (∀ u ∈ mid ++ t :: post, ¬ u.HoldsTable elf) →
    ∀ j x, j < elf.phnum.toNat * 32 →
      x = s.vaddr.toNat + (elf.phoff.toNat - s.offset.toNat) + j →
      t.Copies x → (∀ u ∈ post, ¬ u.Copies x) →
        t.fileByte bytes x = byteAt bytes (elf.phoff.toNat + j)

/-- The condition: a segment ends in the first 4 GiB of the file and below
the last page of the address space, and the header table survives. -/
structure Loadable (elf : Elf32) (bytes : List U8) : Prop where
  file : ∀ ph ∈ elf.segments, ph.offset.toNat + ph.filesz.toNat < 2 ^ 32
  memory : ∀ ph ∈ elf.segments, ph.vaddr.toNat + ph.memsz.toNat ≤ 0xFFFFF000
  table : TableKept elf bytes

/-- A segment that ends below the last page takes no sum over 32 bits. -/
theorem Elf32.sumsFit {bytes : List U8} {elf : Elf32} {ph : Phdr}
    (hparsed : elf.Parsed bytes)
    (hck : ph.Checked bytes)
    (hfile : ph.offset.toNat + ph.filesz.toNat < 2 ^ 32)
    (hmem : ph.vaddr.toNat + ph.memsz.toNat ≤ 0xFFFFF000) :
    elf.SumsFit ph := by
  obtain ⟨hbase, hsub, -⟩ := pageBase_le ph.vaddr
  have hshort := hck.short
  have hpos := hparsed.nonempty
  refine ⟨?_, hfile, by omega, fun hlo hhi => ?_⟩
  · rw [hsub]
    omega
  · omega

/-- The state at the end of a load. -/
theorem load_holds {bytes : List U8} {elf : Elf32} (hparsed : elf.Parsed bytes)
    (hfit : ∀ ph ∈ elf.segments, elf.SumsFit ph) :
    ∃ l, Holds elf bytes elf.segments l ∧ load elf bytes .new
      = some ((elf.entry,
        (alignUp l.imageEnd PAGE_SIZE).getD (~~~(PAGE_SIZE - 1)), l.phdrVaddr),
        l.mem) := by
  obtain ⟨l, hrun, hholds⟩ :=
    (holds_nil elf bytes).segments elf.segments hparsed.checked hfit
  rw [List.nil_append] at hholds
  refine ⟨l, hholds, ?_⟩
  rw [load, hrun]
  rfl

/-- The bytes of disjoint segments. -/
theorem Holds.image {elf : Elf32} {bytes : List U8} {l : Loading}
    (h : Holds elf bytes elf.segments l)
    (hck : ∀ ph ∈ elf.segments, ph.Checked bytes)
    (hdisj : elf.SegmentsDisjoint) {ph : Phdr}
    (hph : ph ∈ elf.segments) {x : Nat} (hx : ph.Spans x) :
    l.mem.byte? x = some (if ph.Copies x then ph.fileByte bytes x else 0) := by
  obtain ⟨v, hv⟩ := Option.isSome_iff_exists.1 (h.mapped ph hph x hx)
  rw [hv, h.byte x v hv]
  cases hlast : lastCopy bytes elf.segments x with
  | none =>
    rw [if_neg]
    · rfl
    · intro hc
      rw [lastCopy, List.findSome?_eq_none_iff] at hlast
      have hno := hlast ph (List.mem_reverse.2 hph)
      rw [if_pos hc] at hno
      cases hno
  | some b =>
    -- the segment that copies last is the one that spans `x`
    obtain ⟨pre, t, post, hsegs, ht, rfl, -⟩ := findSome_reverse.1 hlast
    have hmem : t ∈ elf.segments := by
      rw [hsegs]
      exact List.mem_append_right _ List.mem_cons_self
    have hspan : t.Spans x := ⟨ht.1, by
      have := ht.2
      have := (hck t hmem).short
      omega⟩
    obtain rfl : t = ph := by
      by_contra hne
      have hsymm : Std.Symm fun p q : Phdr => ∀ x, ¬ (p.Spans x ∧ q.Spans x) :=
        ⟨fun p q hpq x hqx => hpq x hqx.symm⟩
      exact hdisj.forall hmem hph hne x ⟨hspan, hx⟩
    rw [if_pos ht]
    rfl

/-- The last segment that holds the header table. -/
theorem Holds.table_split {elf : Elf32} {bytes : List U8} {l : Loading}
    (h : Holds elf bytes elf.segments l)
    (hfit : ∀ ph ∈ elf.segments, elf.SumsFit ph) {a : U32}
    (ha : l.phdrVaddr = some a) :
    ∃ pre s post, elf.segments = pre ++ s :: post ∧ s.HoldsTable elf
      ∧ (∀ u ∈ post, ¬ u.HoldsTable elf)
      ∧ a.toNat = s.vaddr.toNat + (elf.phoff.toNat - s.offset.toNat) := by
  rw [h.table] at ha
  obtain ⟨pre, s, post, hsegs, hs, rfl, hpost⟩ := findSome_reverse.1 ha
  have hmem : s ∈ elf.segments := by
    rw [hsegs]
    exact List.mem_append_right _ List.mem_cons_self
  refine ⟨pre, s, post, hsegs, hs, hpost, ?_⟩
  rw [BitVec.toNat_add, BitVec.toNat_sub_of_le (BitVec.le_def.2 hs.1),
    Nat.mod_eq_of_lt ((hfit s hmem).table hs.1 hs.2)]

/-- The header table is in memory if it was kept. -/
theorem Holds.table_kept {elf : Elf32} {bytes : List U8} {l : Loading}
    (h : Holds elf bytes elf.segments l)
    (hparsed : elf.Parsed bytes) (hfit : ∀ ph ∈ elf.segments, elf.SumsFit ph)
    (hkept : TableKept elf bytes) {a : U32}
    (ha : l.phdrVaddr = some a) {j : Nat} (hj : j < elf.phnum.toNat * 32) :
    l.mem.byte? (a.toNat + j) = some (byteAt bytes (elf.phoff.toNat + j)) := by
  obtain ⟨pre, s, post, hsegs, hs, hpost, haddr⟩ := h.table_split hfit ha
  have hmem : s ∈ elf.segments := by
    rw [hsegs]
    exact List.mem_append_right _ List.mem_cons_self
  have hshort := (hparsed.checked s hmem).short
  obtain ⟨hlo, hhi⟩ := hs
  have hcopies : s.Copies (a.toNat + j) := ⟨by omega, by omega⟩
  obtain ⟨v, hv⟩ :=
    Option.isSome_iff_exists.1 (h.mapped s hmem _ ⟨hcopies.1, by omega⟩)
  rw [hv, h.byte _ v hv, hsegs, lastCopy_append, if_pos hcopies]
  cases hlast : lastCopy bytes post (a.toNat + j) with
  | none =>
    rw [Option.none_or, Option.getD_some, Phdr.fileByte,
      show s.offset.toNat + (a.toNat + j - s.vaddr.toNat)
      = elf.phoff.toNat + j by omega]
  | some b =>
    obtain ⟨mid, t, rest, rfl, ht, rfl, hrest⟩ := findSome_reverse.1 hlast
    rw [Option.some_or, Option.getD_some,
      hkept pre s mid t rest hsegs ⟨hlo, hhi⟩ hpost j _ hj
      (by rw [haddr]) ht hrest]

/-- And only if. -/
theorem Holds.kept_of_table {elf : Elf32} {bytes : List U8} {l : Loading}
    (h : Holds elf bytes elf.segments l)
    (hfit : ∀ ph ∈ elf.segments, elf.SumsFit ph)
    (htable : ∀ a, l.phdrVaddr = some a → ∀ j, j < elf.phnum.toNat * 32 →
      l.mem.byte? (a.toNat + j)
        = some (byteAt bytes (elf.phoff.toNat + j))) : TableKept
        elf bytes := by
  intro pre s mid t post hsegs hs hnone j x hj hx ht hpost
  have haddr : l.phdrVaddr = some (s.vaddr + (elf.phoff - s.offset)) := by
    rw [h.table]
    exact findSome_reverse.2 ⟨pre, s, mid ++ t :: post, hsegs, hs, rfl, hnone⟩
  have hmem : s ∈ elf.segments := by
    rw [hsegs]
    exact List.mem_append_right _ List.mem_cons_self
  have hbyte := htable _ haddr j hj
  rw [BitVec.toNat_add, BitVec.toNat_sub_of_le (BitVec.le_def.2 hs.1),
    Nat.mod_eq_of_lt ((hfit s hmem).table hs.1 hs.2), ← hx] at hbyte
  have hlast : lastCopy bytes elf.segments x = some (t.fileByte bytes x) :=
    findSome_reverse.2 ⟨pre ++ s :: mid, t,
      post, by rw [hsegs, List.append_assoc, List.cons_append], ht, rfl, hpost⟩
  have hval := h.byte x _ hbyte
  rw [hlast] at hval
  exact hval.symm

/-- The break of an image that ends below the last page. -/
theorem Holds.brk {elf : Elf32} {bytes : List U8} {l : Loading}
    (h : Holds elf bytes elf.segments l)
    (hmem : ∀ ph ∈ elf.segments,
      ph.vaddr.toNat + ph.memsz.toNat ≤ 0xFFFFF000) :
    ∃ r, alignUp l.imageEnd PAGE_SIZE = some r ∧ r.toNat % 4096 = 0
      ∧ ∀ ph ∈ elf.segments, ph.vaddr.toNat + ph.memsz.toNat ≤ r.toNat := by
  have hend : l.imageEnd.toNat ≤ 0xFFFFF000 := by
    rcases h.last with h0 | ⟨ph, hph, heq⟩
    · rw [h0]
      exact Nat.zero_le _
    · exact heq.le.trans (hmem ph hph)
  have hpage : (PAGE_SIZE - 1).toNat = 4095 := by decide
  obtain ⟨r, hr⟩ : ∃ r, alignUp l.imageEnd PAGE_SIZE = some r := by
    rw [alignUp, checkedAdd, if_pos (by omega)]
    exact ⟨_, rfl⟩
  obtain ⟨hmod, hle, -⟩ := alignUp_page hr
  exact ⟨r, hr, hmod, fun ph hph => (h.below ph hph).trans hle⟩

/-- An image with a break above it ends below the last page. -/
theorem end_of_brk {v r : U32}
    (hr : (alignUp v PAGE_SIZE).getD (~~~(PAGE_SIZE - 1)) = r)
    (hle : v.toNat ≤ r.toNat) : v.toNat ≤ 0xFFFFF000 := by
  cases halign : alignUp v PAGE_SIZE with
  | none =>
    rw [halign, Option.getD_none] at hr
    have htop : (~~~(PAGE_SIZE - 1)).toNat = 0xFFFFF000 := by decide
    rw [← hr] at hle
    omega
  | some q =>
    obtain ⟨hmod, hle, -⟩ := alignUp_page halign
    have := q.isLt
    omega

/-- For every byte string `parse` accepts: `load` takes no sum over 32 bits,
does not panic, maps every segment with its file bytes and zeros, returns a
page-aligned break above them and the address of the header table, if and
only if the image is loadable. -/
theorem load_exact_iff {bytes : List U8} {elf : Elf32}
    (hparse : parse bytes = .ok elf) :
    LoadsRight elf bytes ↔ Loadable elf bytes := by
  have hparsed := parsed_of_parse hparse
  constructor
  · rintro ⟨hfit, brkStart, phdr, mem, hload, hloaded⟩
    obtain ⟨l, hholds, hrun⟩ := load_holds hparsed hfit
    rw [hrun, Option.some.injEq, Prod.mk.injEq, Prod.mk.injEq,
      Prod.mk.injEq] at hload
    obtain ⟨⟨-, hbrk, hphdr⟩, hmem⟩ := hload
    subst hphdr hmem
    refine ⟨fun ph hph => (hfit ph hph).file, fun ph hph => ?_,
      hholds.kept_of_table hfit hloaded.table⟩
    refine (hholds.below ph hph).trans (end_of_brk hbrk ?_)
    rcases hholds.last with h0 | ⟨seg, hseg, heq⟩
    · rw [h0]
      exact Nat.zero_le _
    · rw [heq]
      exact hloaded.brkAbove seg hseg
  · rintro ⟨hfile, hmemory, hkept⟩
    have hfit : ∀ ph ∈ elf.segments, elf.SumsFit ph := fun ph hph =>
      Elf32.sumsFit hparsed (hparsed.checked ph hph) (hfile ph hph)
        (hmemory ph hph)
    obtain ⟨l, hholds, hrun⟩ := load_holds hparsed hfit
    obtain ⟨r, hr, hpage, habove⟩ := hholds.brk hmemory
    refine ⟨hfit, _, _, _, hrun, hholds.mapped, fun hdisj ph hph x hx =>
      hholds.image hparsed.checked hdisj hph hx, ?_, ?_,
        fun a ha j hj => hholds.table_kept hparsed hfit hkept ha hj⟩
    · rw [hr]
      exact hpage
    · rw [hr]
      exact habove

theorem load_exact_iff_tinyElf : LoadsRight tinyHeader tinyElf := by
  refine (load_exact_iff parse_tinyElf).2 ⟨?_, ?_, ?_⟩
  · decide
  · decide
  · -- one segment has none after it
    intro pre s mid t post hsegs
    have hlen := congrArg List.length hsegs
    have hone : tinyHeader.segments.length = 1 := rfl
    rw [hone, List.length_append, List.length_cons, List.length_append,
      List.length_cons] at hlen
    omega

-- ======== the last page

/-- An executable whose segment is the last page. -/
def topElf : List U8 :=
  [0x7F, 0x45, 0x4C, 0x46, 1, 1, 1, 0, 0, 0, 0, 0, 0, 0, 0, 0,
   2, 0, 3, 0, 1, 0, 0, 0, 0, 0xF0, 0xFF, 0xFF, 0x34, 0, 0, 0,
   0, 0, 0, 0, 0, 0, 0, 0, 0x34, 0, 0x20, 0, 1, 0, 0, 0, 0, 0, 0, 0,
   1, 0, 0, 0, 0, 0, 0, 0, 0, 0xF0, 0xFF, 0xFF, 0, 0xF0, 0xFF, 0xFF,
   0, 0, 0, 0, 0, 0x10, 0, 0, 5, 0, 0, 0, 0, 0x10, 0, 0]

def topHeader : Elf32 where
  entry := 0xFFFFF000
  phoff := 0x34
  phnum := 1
  machine := 3
  phdrs := [{ pType := 1, offset := 0, vaddr := 0xFFFFF000, filesz := 0,
              memsz := 0x1000, flags := 5 }]

/-- `parse` accepts it, and the end of its segment is a sum of 33 bits. -/
theorem load_overflows_topElf :
    parse topElf = .ok topHeader ∧ ¬ LoadsRight topHeader topElf := by
  refine ⟨by decide, ?_⟩
  rintro ⟨hfit, -⟩
  have hmem := (hfit _ (List.mem_filter.2 ⟨List.mem_cons_self, rfl⟩)).memory
  exact absurd hmem (by decide)

end Remu.Usermode
