/-
Anonymous mappings of a user-mode process against everything already there.

The bump cursor starts above any break the kernel accepts and only moves
up, page by page, below the stack: a mapping without an address can meet
neither the heap nor an earlier mapping of its own kind (`Cursor`, kept by
every call). It never looks at the image or at fixed mappings, and those
may lie ahead of it. `mmap_lawful_iff` says that this is the only way in
which the law fails.
-/
import Remu.Usermode.Process

namespace Remu.Usermode

-- ======== what the operations keep

namespace AddressSpace

/-- The break and the cursor, as opposed to the bytes. -/
structure SameBook (m m' : AddressSpace) : Prop where
  brk : m'.brk = m.brk
  brkBase : m'.brkBase = m.brkBase
  mmapNext : m'.mmapNext = m.mmapNext

theorem SameBook.refl (m : AddressSpace) : SameBook m m := ⟨rfl, rfl, rfl⟩

theorem SameBook.trans {m m' m'' : AddressSpace} (h : SameBook m m')
    (h' : SameBook m' m'') :
    SameBook m m'' :=
  ⟨h'.brk.trans h.brk, h'.brkBase.trans h.brkBase,
    h'.mmapNext.trans h.mmapNext⟩

/-- A loop of steps that keep the book keeps it. -/
theorem SameBook.foldl {f : AddressSpace → Nat → AddressSpace}
    (hf : ∀ m i, SameBook m (f m i))
    (l : List Nat) (m : AddressSpace) : SameBook m (l.foldl f m) := by
  induction l generalizing m with
  | nil => exact .refl m
  | cons i rest ih => exact (hf m i).trans (ih (f m i))

theorem sameBook_map (m : AddressSpace) (addr len : U32) :
    SameBook m (m.map addr len) := by
  unfold map
  split
  · exact .refl m
  · exact SameBook.foldl (f := allocChunk) (fun _ _ => ⟨rfl, rfl, rfl⟩) _ _

theorem sameBook_unmap (m : AddressSpace) (addr len : U32) :
    SameBook m (m.unmap addr len) :=
  SameBook.foldl (f := dropChunk) (fun _ _ => ⟨rfl, rfl, rfl⟩) _ _

theorem sameBook_write8 (m : AddressSpace) (addr : U32) (v : U8) :
    SameBook m (m.write8 addr v) := by
  unfold write8
  cases m.chunks (addr.toNat / CHUNK_SIZE) <;> exact ⟨rfl, rfl, rfl⟩

theorem sameBook_writeBytes (m : AddressSpace) (addr : Nat) (data : List U8) :
    SameBook m (m.writeBytes addr data).2 := by
  induction data generalizing m addr with
  | nil => exact .refl m
  | cons v data ih =>
    rw [writeBytes]
    split
    · exact .refl m
    · cases m.chunks (addr / CHUNK_SIZE) with
      | none => exact .refl m
      | some c =>
        exact (show SameBook m (m.putByte addr c v) from ⟨rfl, rfl, rfl⟩).trans (ih _ _)

-- ======== chunks

/-- Dropping chunks leaves the others. -/
theorem chunks_dropAll (l : List Nat) (m : AddressSpace) (i : Nat) :
    (l.foldl dropChunk m).chunks i = if i ∈ l then none else m.chunks i := by
  induction l generalizing m with
  | nil => simp
  | cons j rest ih =>
    rw [List.foldl_cons, ih]
    by_cases hrest : i ∈ rest
    · simp [hrest]
    · by_cases hj : i = j
      · simp [hj, dropChunk]
      · have hkeep : (m.dropChunk j).chunks i = m.chunks i := upd_other _ _ hj
        simp [hrest, hj, hkeep]

/-- `munmap` leaves every byte outside its range: a chunk that goes lies
inside it entirely. -/
theorem byte_unmap (m : AddressSpace) {addr len : U32} {x : Nat}
    (hout : ¬ Covers addr.toNat len.toNat x) :
    (m.unmap addr len).byte? x = m.byte? x := by
  rw [byte?, byte?, unmap, chunks_dropAll, if_neg]
  rw [List.mem_range'_1]
  rintro ⟨hlo, hhi⟩
  dsimp only [CHUNK_SIZE] at hlo hhi
  exact hout ⟨by omega, by omega⟩

end AddressSpace

-- ======== rounding

/-- A rounded length is the next multiple of the page. -/
theorem alignUp_page {v r : U32} (h : alignUp v PAGE_SIZE = some r) :
    r.toNat % 4096 = 0 ∧ v.toNat ≤ r.toNat ∧ r.toNat < v.toNat + 4096 := by
  unfold alignUp checkedAdd at h
  split at h
  case isFalse => cases h
  case isTrue hlt =>
    cases h
    rw [show PAGE_SIZE - 1 = 0xFFF by decide, Word.toNat_and_not_FFF,
      BitVec.toNat_add]
    have hpage : (PAGE_SIZE - 1).toNat = 4095 := by decide
    rw [hpage] at hlt
    have hFFF : (0xFFF : U32).toNat = 4095 := by decide
    omega

/-- Where the rounding does not overflow it is the length charged. -/
theorem roundedLen_of_alignUp {v r : U32} (h : alignUp v PAGE_SIZE = some r) :
    roundedLen v = r.toNat := by
  rw [roundedLen, h]
  rfl

-- ======== what mmap can do

/-- The bound of the mapping area. -/
abbrev mmapLimit : Nat := (STACK_TOP - STACK_SIZE).toNat

/-- A fixed mapping leaves the book alone and returns its address. -/
theorem mmap_fixed {m m' : AddressSpace} {addr len base : U32}
    (h : m.mmap addr len true = some (base, m')) :
    base = addr ∧ m.SameBook m' := by
  unfold AddressSpace.mmap at h
  split at h
  · cases h
  · rw [Option.bind_eq_bind, Option.bind_eq_some_iff] at h
    obtain ⟨len', -, h⟩ := h
    rw [if_pos rfl] at h
    split at h
    · cases h
    · cases h
      exact ⟨rfl, m.sameBook_map _ _⟩

/-- A mapping without an address returns the cursor and moves it past the
rounded length, below the stack. -/
theorem mmap_bump {m m' : AddressSpace} {addr len base : U32}
    (h : m.mmap addr len false = some (base, m')) :
    base = m.mmapNext ∧ m.mmapNext.toNat + roundedLen len ≤ mmapLimit
      ∧ roundedLen len % 4096 = 0 ∧ len.toNat ≤ roundedLen len
      ∧ m'.brk = m.brk ∧ m'.brkBase = m.brkBase
      ∧ m'.mmapNext.toNat = m.mmapNext.toNat + roundedLen len := by
  unfold AddressSpace.mmap at h
  split at h
  · cases h
  · rw [Option.bind_eq_bind, Option.bind_eq_some_iff] at h
    obtain ⟨len', hlen, h⟩ := h
    rw [if_neg (by simp)] at h
    dsimp only at h
    split at h
    · cases h
    case isFalse hfit =>
      cases h
      obtain ⟨hpage, hle, -⟩ := alignUp_page hlen
      rw [roundedLen_of_alignUp hlen]
      have hfit' := Nat.le_of_not_lt hfit
      refine ⟨rfl, hfit', hpage, hle, (m.sameBook_map _ _).brk,
        (m.sameBook_map _ _).brkBase, ?_⟩
      show (BitVec.ofNat 32 (m.mmapNext.toNat + len'.toNat)).toNat = _
      have hlimit : (STACK_TOP - STACK_SIZE).toNat = 0xBF800000 := by decide
      rw [hlimit] at hfit'
      rw [BitVec.toNat_ofNat]
      omega

-- ======== the invariant

/-- The cursor is page-aligned inside the mapping area, beyond the break
and beyond every mapping it handed out. -/
structure Cursor (p : Process) : Prop where
  aligned : p.mem.mmapNext.toNat % 4096 = 0
  low : MMAP_BASE.toNat ≤ p.mem.mmapNext.toNat
  high : p.mem.mmapNext.toNat ≤ mmapLimit
  heap : p.mem.brk.toNat ≤ MMAP_BASE.toNat
    ∨ p.mem.brk.toNat ≤ p.mem.brkBase.toNat
  passed : ∀ x, Held false p.history x → x < p.mem.mmapNext.toNat

namespace Cursor

/-- A step that keeps the book and promises no bump mapping. -/
theorem of_sameBook {p p' : Process} (h : Cursor p)
    (hbook : p.mem.SameBook p'.mem)
    (hheld : ∀ x, Held false p'.history x → Held false p.history x) :
    Cursor p' := by
  obtain ⟨hbrk, hbase, hnext⟩ := hbook
  refine ⟨?_, ?_, ?_, ?_, ?_⟩
  · rw [hnext]
    exact h.aligned
  · rw [hnext]
    exact h.low
  · rw [hnext]
    exact h.high
  · rw [hbrk, hbase]
    exact h.heap
  · intro x hx
    rw [hnext]
    exact h.passed x (hheld x hx)

theorem brk {p : Process} (h : Cursor p) (new : U32) :
    Cursor (p.step (.brk new)) := by
  show Cursor { p with mem := (p.mem.setBrk new).2 }
  unfold AddressSpace.setBrk
  split
  case isTrue => exact h
  case isFalse hok =>
    have hbook :
        p.mem.SameBook
        (if p.mem.brk < new then p.mem.map p.mem.brk (new - p.mem.brk)
        else p.mem) := by
      split
      · exact p.mem.sameBook_map _ _
      · exact .refl _
    obtain ⟨-, -, hnext⟩ := hbook
    refine ⟨?_, ?_, ?_, ?_, ?_⟩
    · dsimp only
      rw [hnext]
      exact h.aligned
    · dsimp only
      rw [hnext]
      exact h.low
    · dsimp only
      rw [hnext]
      exact h.high
    · left
      have hle : ¬ MMAP_BASE < new := fun hlt => hok (Or.inr hlt)
      exact Nat.le_of_not_lt fun hlt => hle (BitVec.lt_def.2 hlt)
    · intro x hx
      dsimp only
      rw [hnext]
      exact h.passed x hx

theorem mmap2 {p : Process} (h : Cursor p) (a : MmapArgs) :
    Cursor (p.step (.mmap2 a)) := by
  show Cursor { p with mem := (sysMmap2 p.mem a).2, history := noteMmap p a }
  unfold sysMmap2 noteMmap
  cases hanon : a.anonymous with
  | false => exact h
  | true =>
    simp only [Bool.not_true, Bool.false_eq_true, if_false, if_true]
    cases hm : p.mem.mmap a.addr a.len a.fixed with
    | none => exact h
    | some r =>
      obtain ⟨base, m'⟩ := r
      cases hfix : a.fixed with
      | true =>
        rw [hfix] at hm
        refine h.of_sameBook (mmap_fixed hm).2 fun x hx => ?_
        rcases hx with ⟨hk, -⟩ | hx
        · cases hk
        · exact hx
      | false =>
        rw [hfix] at hm
        obtain ⟨rfl, hfit, hpage, -, hbrk, hbase, hnext⟩ := mmap_bump hm
        refine ⟨?_, ?_, ?_, ?_, ?_⟩
        · dsimp only
          rw [hnext]
          have := h.aligned
          omega
        · dsimp only
          rw [hnext]
          exact Nat.le_add_right_of_le h.low
        · dsimp only
          rw [hnext]
          exact hfit
        · dsimp only
          rw [hbrk, hbase]
          exact h.heap
        · intro x hx
          dsimp only
          rw [hnext]
          rcases hx with ⟨-, -, hlt⟩ | hx
          · exact hlt
          · exact Nat.lt_add_right _ (h.passed x hx)

theorem step {p : Process} (h : Cursor p) (c : Call) : Cursor (p.step c) := by
  cases c with
  | brk new => exact h.brk new
  | mmap2 a => exact h.mmap2 a
  | munmap addr len =>
    exact h.of_sameBook (p.mem.sameBook_unmap _ _) fun x hx => hx.2
  | store addr v =>
    exact h.of_sameBook (p.mem.sameBook_write8 _ _) fun x hx => hx

theorem run {p : Process} (h : Cursor p) (calls : List Call) :
    Cursor (p.run calls) := by
  induction calls generalizing p with
  | nil => exact h
  | cons c rest ih => exact ih (h.step c)

end Cursor

-- ======== at the start

/-- Loading moves neither the break nor the cursor. -/
theorem sameBook_loadSegment {elf : Elf32} {bytes : List U8}
    {l l' : Loading} {ph : Phdr}
    (h : loadSegment elf bytes l ph = some l') : l.mem.SameBook l'.mem := by
  unfold loadSegment at h
  dsimp only at h
  split at h
  · cases h
  · split at h
    · cases h
    case h_2 mem hw =>
      cases h
      have hbytes := AddressSpace.sameBook_writeBytes
        (l.mem.map (ph.vaddr &&& ~~~(PAGE_SIZE - 1))
          (ph.vaddr - (ph.vaddr &&& ~~~(PAGE_SIZE - 1)) + ph.memsz))
        ph.vaddr.toNat
          ((bytes.take (ph.offset + ph.filesz).toNat).drop ph.offset.toNat)
      rw [hw] at hbytes
      exact (l.mem.sameBook_map _ _).trans hbytes

theorem sameBook_segments {elf : Elf32} {bytes : List U8}
    (segs : List Phdr) {l l' : Loading}
    (h : segs.foldlM (loadSegment elf bytes) l = some l') :
    l.mem.SameBook l'.mem := by
  induction segs generalizing l with
  | nil =>
    cases h
    exact .refl _
  | cons ph rest ih =>
    rw [List.foldlM_cons, Option.bind_eq_bind, Option.bind_eq_some_iff] at h
    obtain ⟨l₁, h₁, h⟩ := h
    exact (sameBook_loadSegment h₁).trans (ih h)

/-- A cursor that has not moved, over an empty heap. -/
theorem cursor_unmoved {p : Process} (hnext : p.mem.mmapNext = MMAP_BASE)
    (hbrk : p.mem.brk = p.mem.brkBase) (hhist : p.history = []) :
    Cursor p := by
  refine ⟨?_, ?_, ?_, ?_, ?_⟩
  · rw [hnext]
    decide
  · rw [hnext]
  · rw [hnext]
    decide
  · rw [hbrk]
    exact Or.inr (Nat.le_refl _)
  · intro x hx
    rw [hhist] at hx
    cases hx

theorem sameBook_load {elf : Elf32} {bytes : List U8} {m m' : AddressSpace}
    {r : U32 × U32 × Option U32} (h : load elf bytes m = some (r, m')) :
    m.SameBook m' := by
  unfold load at h
  rw [Option.bind_eq_bind, Option.bind_eq_some_iff] at h
  obtain ⟨l, hl, hload⟩ := h
  have hmem : l.mem = m' := congrArg Prod.snd (Option.some.inj hload)
  rw [← hmem]
  exact sameBook_segments _ hl

/-- A fresh process has an unmoved cursor and an empty heap. -/
theorem book_start {elf : Elf32} {bytes : List U8} {mem : AddressSpace}
    (h : start elf bytes = some mem) :
    mem.mmapNext = MMAP_BASE ∧ mem.brk = mem.brkBase := by
  unfold start at h
  rw [Option.bind_eq_bind, Option.bind_eq_some_iff] at h
  obtain ⟨⟨⟨entry, brkStart, phdr⟩, m⟩, hload, h⟩ := h
  have hnext : m.mmapNext = MMAP_BASE := (sameBook_load hload).mmapNext
  have hstack :=
    AddressSpace.sameBook_map { m with brkBase := brkStart, brk := brkStart }
    (STACK_TOP - STACK_SIZE) STACK_SIZE
  have hbook := hstack.trans (AddressSpace.sameBook_map _ GDT_BASE PAGE_SIZE)
  have hmem := Option.some.inj h
  rw [hmem] at hbook
  exact ⟨hbook.mmapNext.trans hnext, hbook.brk.trans hbook.brkBase.symm⟩

/-- A process starts with the cursor at its base. -/
theorem cursor_start {elf : Elf32} {bytes : List U8} {mem : AddressSpace}
    (h : start elf bytes = some mem) : Cursor { elf, mem, history := [] } :=
  cursor_unmoved (book_start h).1 (book_start h).2 rfl

-- ======== the law

/-- What a call owes. A mapping without an address that succeeds is a run
of whole pages below the stack, and meets neither the image, nor the heap,
nor a range some earlier call mapped and none has unmapped since. `munmap`
removes no byte outside its range. -/
def Lawful (p : Process) : Call → Prop
  | .mmap2 a => a.anonymous = true → a.fixed = false → ∀ base m',
      p.mem.mmap a.addr a.len false = some (base, m') →
      base.toNat % 4096 = 0 ∧ roundedLen a.len % 4096 = 0
        ∧ a.len.toNat ≤ roundedLen a.len
        ∧ base.toNat + roundedLen a.len ≤ mmapLimit
        ∧ ∀ x, Covers base.toNat (roundedLen a.len) x →
          ¬ p.Image x ∧ ¬ p.Heap x ∧ ∀ fixed, ¬ Held fixed p.history x
  | .munmap addr len => ∀ x, ¬ Covers addr.toNat len.toNat x →
      (p.step (.munmap addr len)).mem.byte? x = p.mem.byte? x
  | _ => True

/-- The block at the cursor, if it fits below the stack, holds no byte of
the image and none of a fixed mapping still in force. -/
def Clear (p : Process) : Call → Prop
  | .mmap2 a => a.anonymous = true → a.fixed = false →
      p.mem.mmapNext.toNat + roundedLen a.len ≤ mmapLimit →
      ∀ x, Covers p.mem.mmapNext.toNat (roundedLen a.len) x →
        ¬ p.Image x ∧ ¬ Held true p.history x
  | _ => True

/-- A block that fits is mapped. -/
theorem mmap_bump_fits {m : AddressSpace} {addr len : U32}
    (hpos : 0 < roundedLen len)
    (hfit : m.mmapNext.toNat + roundedLen len ≤ mmapLimit) :
    ∃ m', m.mmap addr len false = some (m.mmapNext, m') := by
  have hlen : len ≠ 0 := by
    rintro rfl
    exact absurd hpos (by decide)
  cases halign : alignUp len PAGE_SIZE with
  | none =>
    rw [roundedLen, halign] at hpos
    exact absurd hpos (by decide)
  | some r =>
    rw [roundedLen_of_alignUp halign] at hfit
    unfold AddressSpace.mmap
    rw [if_neg hlen, halign, Option.bind_eq_bind, Option.bind_some,
      if_neg (by simp)]
    dsimp only
    rw [if_neg (Nat.not_lt.2 hfit)]
    exact ⟨_, rfl⟩

/-- Under the invariant the law of a call is that its block is clear. -/
theorem Cursor.lawful_iff {p : Process} (h : Cursor p) (c : Call) :
    Lawful p c ↔ Clear p c := by
  cases c with
  | brk new => exact Iff.rfl
  | store addr v => exact Iff.rfl
  | munmap addr len =>
    exact iff_of_true (fun x hx => AddressSpace.byte_unmap p.mem hx) trivial
  | mmap2 a =>
    constructor
    · intro hlaw hanon hfix hfit x hx
      have hpos : 0 < roundedLen a.len := by
        have := hx.1
        have := hx.2
        omega
      obtain ⟨m', hm⟩ := @mmap_bump_fits _ a.addr _ hpos hfit
      obtain ⟨-, -, -, -, hfree⟩ := hlaw hanon hfix _ m' hm
      obtain ⟨himage, -, hheld⟩ := hfree x hx
      exact ⟨himage, hheld true⟩
    · intro hclear hanon hfix base m' hm
      obtain ⟨rfl, hfit, hpage, hle, -, -, -⟩ := mmap_bump hm
      refine ⟨h.aligned, hpage, hle, hfit, fun x hx => ?_⟩
      obtain ⟨himage, hfixed⟩ := hclear hanon hfix hfit x hx
      refine ⟨himage, ?_, ?_⟩
      · rintro ⟨hlo, hhi⟩
        have hstart := hx.1
        have hlow := h.low
        rcases h.heap with hheap | hheap
        · omega
        · omega
      · intro fixed hheld
        cases fixed with
        | true => exact hfixed hheld
        | false => exact absurd (h.passed x hheld) (Nat.not_lt.2 hx.1)

/-- For every image the loader maps and every sequence of calls, the
next call obeys the law if and only if it is no mapping without an address
or the block at the cursor is clear of the image and of the fixed mappings
in force. -/
theorem mmap_lawful_iff {elf : Elf32} {bytes : List U8} {mem : AddressSpace}
    (hstart : start elf bytes = some mem) (calls : List Call) (c : Call) :
    Lawful (Process.run { elf, mem, history := [] } calls) c
      ↔ Clear (Process.run { elf, mem, history := [] } calls) c :=
  ((cursor_start hstart).run calls).lawful_iff c

-- ======== an example

/-- A minimal executable: one segment, of a page at 0x08048000, that begins
with the file itself. -/
def tinyElf : List U8 :=
  [0x7F, 0x45, 0x4C, 0x46, 1, 1, 1, 0, 0, 0, 0, 0, 0, 0, 0, 0,
   2, 0, 3, 0, 1, 0, 0, 0, 0, 0x80, 0x04, 0x08, 0x34, 0, 0, 0,
   0, 0, 0, 0, 0, 0, 0, 0, 0x34, 0, 0x20, 0, 1, 0, 0, 0, 0, 0, 0, 0,
   1, 0, 0, 0, 0, 0, 0, 0, 0, 0x80, 0x04, 0x08, 0, 0x80, 0x04, 0x08,
   0x54, 0, 0, 0, 0, 0x10, 0, 0, 5, 0, 0, 0, 0, 0x10, 0, 0]

/-- What the header of the small image says. -/
def tinyHeader : Elf32 where
  entry := 0x08048000
  phoff := 0x34
  phnum := 1
  machine := 3
  phdrs := [{ pType := 1, offset := 0, vaddr := 0x08048000, filesz := 0x54,
              memsz := 0x1000, flags := 5 }]

theorem parse_tinyElf : parse tinyElf = .ok tinyHeader := by
  decide

/-- The memory its process starts with. -/
def tinyMem : AddressSpace := (start tinyHeader tinyElf).getD AddressSpace.new

theorem start_tinyElf : start tinyHeader tinyElf = some tinyMem := by
  have hsome : (start tinyHeader tinyElf).isSome = true := by decide
  obtain ⟨mem, hmem⟩ := Option.isSome_iff_exists.1 hsome
  rw [tinyMem, hmem, Option.getD_some]

theorem image_tinyElf {mem : AddressSpace} {h : List Mapping} {x : Nat}
    (hx : (⟨tinyHeader, mem, h⟩ : Process).Image x) : x < 0x08049000 := by
  obtain ⟨ph, hph, -, hlt⟩ := hx
  have hseg : tinyHeader.segments = tinyHeader.phdrs := rfl
  rw [hseg] at hph
  obtain rfl := List.mem_singleton.1 hph
  exact hlt

/-- Two pages anywhere, and one page just ahead of the initial cursor. -/
def twoPages : MmapArgs :=
  { addr := 0, len := 0x2000, flags := 0x20, fd := 0xFFFFFFFF }
/-- A request for a page above the cursor. -/
def pageAhead : MmapArgs :=
  { addr := 0x40001000, len := 0x1000, flags := 0x30, fd := 0xFFFFFFFF }

/-- A page anywhere, written and given back; a page of the heap; and a fixed
page far ahead of the cursor. -/
def earlier : List Call :=
  [.mmap2 { addr := 0, len := 0x1000, flags := 0x20, fd := 0xFFFFFFFF },
    .store 0x40000010 7, .brk 0x0804A000, .munmap 0x40000000 0x1000,
    .mmap2 { addr := 0x50000000, len := 0x1000, flags := 0x30, fd := 0xFFFFFFFF }]

/-- After them a mapping of two pages is lawful, and it is placed. -/
theorem mmap_lawful_iff_earlier :
    start tinyHeader tinyElf = some tinyMem
      ∧ Lawful (Process.run { elf := tinyHeader, mem := tinyMem, history := [] } earlier)
        (.mmap2 twoPages)
      ∧ ((Process.run { elf := tinyHeader, mem := tinyMem, history := [] } earlier).mem.mmap
          twoPages.addr twoPages.len false).map (·.1) = some 0x40001000 := by
  refine ⟨start_tinyElf,
    (mmap_lawful_iff start_tinyElf earlier (.mmap2 twoPages)).2 ?_,
    by decide⟩
  have hnext :
      (Process.run { elf := tinyHeader, mem := tinyMem, history := [] }
      earlier).mem.mmapNext
      = 0x40001000 := by decide
  have hhistory :
      (Process.run { elf := tinyHeader, mem := tinyMem, history := [] }
      earlier).history
      = [.mapped true 0x50000000 0x1000, .unmapped 0x40000000 0x1000,
        .mapped false 0x40000000 0x1000] := by
    decide
  have hlen : roundedLen twoPages.len = 0x2000 := by decide
  intro _ _ _ x hx
  rw [hnext, hlen] at hx
  have hlo : 0x40001000 ≤ x := hx.1
  have hhi : x < 0x40003000 := hx.2
  constructor
  · intro himage
    have hlt := image_tinyElf himage
    omega
  · rw [hhistory]
    rintro (⟨-, hfar⟩ | ⟨-, h | h⟩)
    · have := hfar.1
      omega
    · cases h.1
    · exact h

/-- After a fixed mapping one page ahead of the cursor, a mapping of two
pages is placed over it. -/
theorem mmap_overlaps_fixed :
    ∃ mem, parse tinyElf = .ok tinyHeader ∧ start tinyHeader tinyElf = some mem
      ∧ ¬ Lawful (Process.run { elf := tinyHeader, mem, history := [] }
        [.mmap2 pageAhead]) (.mmap2 twoPages) := by
  refine ⟨tinyMem, parse_tinyElf, start_tinyElf, ?_⟩
  rw [((cursor_start start_tinyElf).run _).lawful_iff]
  have hstep : Process.run { elf := tinyHeader, mem := tinyMem, history := [] }
      [.mmap2 pageAhead]
      = { elf := tinyHeader, mem := tinyMem.map 0x40001000 0x1000,
          history := [.mapped true 0x40001000 0x1000] } := rfl
  have hnext : (tinyMem.map 0x40001000 0x1000).mmapNext = MMAP_BASE :=
    (tinyMem.sameBook_map _ _).mmapNext.trans (book_start start_tinyElf).1
  rw [hstep]
  intro hclear
  have hlen : roundedLen twoPages.len = 0x2000 := by decide
  have hfree := hclear rfl rfl
  dsimp only at hfree
  rw [hnext, hlen] at hfree
  exact (hfree (by decide) 0x40001000 (by decide)).2 (Or.inl (by decide))

end Remu.Usermode
