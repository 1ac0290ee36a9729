/-
The operations of an address space, and runs of them.

Each operation is a loop over a range that applies one function to the
pages it passes (`Op.range`, `Op.onPage`) under some bookkeeping, or a
copy. Whatever the arguments, it keeps the tables a tree as long as the
allocator has frames to give, and it never moves a page that stays
(`Effect`). So does any run of them from an empty address space.
-/
import Remu.Os.Copy

namespace Remu.Os

open EntryWidth FrameTree Word

variable {w : Nat} [EntryWidth w]

-- ======== operations

/-- The operations of either layer; `mapKernel` is the i386 one's. -/
inductive Op (w : Nat) where
  | map (start len : BitVec w) (prot : U32) (kind : VmaKind)
  | mapKernel (start len : BitVec w)
  | writeBytes (lin : BitVec w) (data : List U8)
  | mmap (len : BitVec w) (prot : U32)
  | mmapFixed (addr len : BitVec w) (prot : U32)
  | protect (start len : BitVec w) (prot : U32)
  | unmap (start len : BitVec w)
  | initBrk (addr : BitVec w)
  | setBrk (new : BitVec w)
  | growStack (newBottom : BitVec w)

namespace Op

variable (L : Layout w)

/-- The operation as the code has it. -/
def apply (a : AddressSpace w) : Op w → AddressSpace w
  | map start len prot kind => a.map L start len prot kind
  | mapKernel start len => a.mapKernel L start len
  | writeBytes lin data => (a.writeBytes L lin data).2
  | mmap len prot => (a.mmap L len prot).2
  | mmapFixed addr len prot => a.mmapFixed L addr len prot
  | protect start len prot => a.protect L start len prot
  | unmap start len => a.unmap L start len
  | initBrk addr => a.initBrk addr
  | setBrk new => (a.setBrk L new).2
  | growStack newBottom => a.growStack L newBottom

/-- The pages an operation passes. -/
def range (a : AddressSpace w) : Op w → List (BitVec w)
  | map start len _ _ => rangePages start len
  | mapKernel start len => rangePages start len
  | writeBytes _ _ => []
  | mmap len _ =>
    if a.mmapTop.toNat + (pageUp w len.toNat).toNat > L.stackLimit.toNat then []
    else rangePages a.mmapTop (pageUp w len.toNat)
  | mmapFixed addr len _ => rangePages addr len
  | protect start len _ => rangePages start len
  | unmap start len => rangePages start len
  | initBrk _ => []
  | setBrk new =>
    if new < a.brkBase ∨ L.mmapBase < new then []
    else if pageUp w a.brk.toNat < pageUp w new.toNat then
      rangePages (pageUp w a.brk.toNat)
        (pageUp w new.toNat - pageUp w a.brk.toNat)
    else []
  | growStack newBottom =>
    let old := (a.stackVma.map (·.start)).getD L.stackTop
    if pageDown newBottom < old
      then rangePages (pageDown newBottom) (old - pageDown newBottom) else []

/-- What it does to each of them. -/
def onPage : Op w → Option (Page w) → Option (Page w)
  | map _ _ prot _ => widen prot true
  | mapKernel _ _ => widen (PROT_READ ||| PROT_WRITE) false
  | writeBytes _ _ => id
  | mmap _ prot => widen prot true
  | mmapFixed _ _ prot => widen prot true
  | protect _ _ prot => reprotect prot
  | unmap _ _ => dropPage
  | initBrk _ => id
  | setBrk _ => widen (PROT_READ ||| PROT_WRITE) true
  | growStack _ => widen (PROT_READ ||| PROT_WRITE) true

end Op

namespace AddressSpace

variable {L : Layout w} {a b a' : AddressSpace w}

-- ======== effects

/-- The part of `Applied` that bookkeeping does not touch. -/
structure Effect (L : Layout w) (a a' : AddressSpace w)
    (lins : List (BitVec w))
    (g : Option (Page w) → Option (Page w)) : Prop where
  sound : a'.Sound L
  cr3 : a'.cr3 = a.cr3
  next : a.nextPhys ≤ a'.nextPhys
  view : ∀ x, a'.view L x = if L.Covers lins x
    then g (a.view L x) else a.view L x
  entry : ∀ x, ¬ L.Covers lins x → a'.pteEntry L x = a.pteEntry L x
  written : Written L a a'
  frame : ∀ x f f', a.frameOf L x = some f → a'.frameOf L x = some f' → f' = f

/-- The tables, memory and the allocator's mark of one are the other's. -/
structure SamePages (a a' : AddressSpace w) : Prop where
  mem : a'.mem = a.mem
  cr3 : a'.cr3 = a.cr3
  next : a'.nextPhys = a.nextPhys

/-- What is true of the pages is true while the pages are the same. -/
theorem SamePages.sound (h : SamePages a a') (hs : a.Sound L) :
    a'.Sound L := by
  have hroot : a'.root L = a.root L := by rw [root, root, h.cr3]
  have hframe : a'.frameAt L = a.frameAt L := by
    funext p
    rw [frameAt, frameAt, h.mem, hroot]
  refine ⟨?_, ?_, ?_, ?_, ?_, fun p f hp hf => ?_⟩
  · rw [h.next]
    exact hs.next_aligned
  · rw [h.next]
    exact hs.next_pos
  · rw [h.next]
    exact hs.next_le
  · rw [h.next, h.mem]
    exact hs.blank
  · rw [h.mem, hroot]
    exact hs.tree
  · rw [hframe] at hf
    have hal := hs.nodes p f hp hf
    exact ⟨hal.aligned, hal.pos, h.next ▸ hal.lt⟩

theorem SamePages.entryAt (h : SamePages a a') :
    a'.entryAt L = a.entryAt L := by
  have hroot : a'.root L = a.root L := by rw [root, root, h.cr3]
  funext p i
  rw [AddressSpace.entryAt, AddressSpace.entryAt, frameAt,
    frameAt, h.mem, hroot]

theorem SamePages.written {a₀ : AddressSpace w} (h : SamePages a a')
    (hw : Written L a₀ a) :
    Written L a₀ a' := by
  intro p i hp
  rw [h.entryAt]
  rcases hw p i hp with hold | hzero | ⟨f, hf, hform⟩
  · exact Or.inl hold
  · exact Or.inr (Or.inl hzero)
  · exact Or.inr (Or.inr ⟨f, hf.mono h.next.ge, hform⟩)

/-- An operation page by page is one effect on its range. -/
theorem Applied.effect {lins : List (BitVec w)}
    {g : Option (Page w) → Option (Page w)}
    (h : Applied L a b lins g) (hsame : SamePages b a') :
    Effect L a a' lins g := by
  obtain ⟨hfo, hpte, hview⟩ := view_congr (L := L) hsame.mem hsame.cr3
  refine ⟨hsame.sound h.sound, ?_, ?_, fun x => ?_, fun x hx => ?_, ?_,
    fun x f f' hf hf' => ?_⟩
  · rw [hsame.cr3, h.book]
  · rw [hsame.next]
    exact h.next
  · rw [hview]
    exact h.view x
  · rw [hpte]
    exact h.entry x hx
  · exact hsame.written h.written
  · rw [hfo] at hf'
    exact h.frame x f f' hf hf'

-- Bookkeeping, on whatever the tables have become.

omit [EntryWidth w] in
theorem SamePages.refl (a : AddressSpace w) : SamePages a a := ⟨rfl, rfl, rfl⟩

omit [EntryWidth w] in
/-- Changes beside the pages compose. -/
theorem SamePages.trans {c : AddressSpace w} (h : SamePages a b)
    (h' : SamePages b c) :
    SamePages a c :=
      ⟨h'.mem.trans h.mem, h'.cr3.trans h.cr3, h'.next.trans h.next⟩

omit [EntryWidth w] in
/-- The region list, the mapping hint and the break are beside the pages. -/
theorem SamePages.pushVma (a : AddressSpace w) (start len : BitVec w)
    (prot : U32) (kind : VmaKind) :
    SamePages a (a.pushVma start len prot kind) := ⟨rfl, rfl, rfl⟩

omit [EntryWidth w] in
theorem SamePages.setVmas (a : AddressSpace w) (vmas : List (Vma w)) :
    SamePages a { a with vmas := vmas } := ⟨rfl, rfl, rfl⟩

omit [EntryWidth w] in
theorem SamePages.setTop (a : AddressSpace w) (top : BitVec w) :
    SamePages a { a with mmapTop := top } := ⟨rfl, rfl, rfl⟩

omit [EntryWidth w] in
theorem SamePages.setBreak (a : AddressSpace w) (brk base : BitVec w) :
    SamePages a { a with brk := brk, brkBase := base } := ⟨rfl, rfl, rfl⟩

/-- What an operation does to the pages: nothing, or a loop over its
range. -/
inductive Works (L : Layout w) (a a' : AddressSpace w) : List (BitVec w) →
    (Option (Page w) → Option (Page w)) → Prop
  | idle (g) (h : SamePages a a') : Works L a a' [] g
  | mapRange (start len : BitVec w) (prot : U32) (user : Bool)
      (h : SamePages (a.mapRange L start len prot user) a') :
      Works L a a' (rangePages start len) (widen prot user)
  | protect (start len : BitVec w) (prot : U32)
      (h : SamePages (a.protect L start len prot) a') :
      Works L a a' (rangePages start len) (reprotect prot)
  | unmap (start len : BitVec w)
      (h : SamePages ((rangePages start len).foldl (unmapPage L) a) a') :
      Works L a a' (rangePages start len) dropPage

/-- What each call does to the pages of its range. -/
theorem works_map (a : AddressSpace w) (start len : BitVec w)
    (prot : U32) (kind : VmaKind) :
    Works L a (a.map L start len prot kind) (rangePages start len)
      (widen prot true) :=
  .mapRange start len prot true (.pushVma _ _ _ _ _)

theorem works_mmap (a : AddressSpace w) (len : BitVec w) (prot : U32) :
    Works L a (a.mmap L len prot).2 (Op.range L a (.mmap len prot))
      (widen prot true) := by
  rw [Op.range, mmap]
  dsimp only
  split
  · exact .idle _ (.refl a)
  · exact .mapRange _ _ prot true
      ((SamePages.pushVma _ _ _ _ _).trans (.setTop _ _))

theorem works_setBrk (a : AddressSpace w) (new : BitVec w) :
    Works L a (a.setBrk L new).2 (Op.range L a (.setBrk new))
      (widen (PROT_READ ||| PROT_WRITE) true) := by
  rw [Op.range, setBrk]
  dsimp only
  split
  · exact .idle _ (.refl a)
  · dsimp only
    split
    · exact .mapRange _ _ _ true
        ((SamePages.pushVma _ _ _ _ _).trans (.setBreak _ _ _))
    · exact .idle _ (.setBreak a _ _)

theorem works_growStack (a : AddressSpace w) (newBottom : BitVec w) :
    Works L a (a.growStack L newBottom) (Op.range L a (.growStack newBottom))
      (widen (PROT_READ ||| PROT_WRITE) true) := by
  rw [Op.range, growStack]
  dsimp only
  split
  · exact .mapRange _ _ _ true (.setVmas _ _)
  · exact .idle _ (.refl a)

/-- Every operation but a copy. -/
theorem works (a : AddressSpace w) (op : Op w)
    (hcopy : ∀ lin data, op ≠ .writeBytes lin data) :
    Works L a (op.apply L a) (op.range L a) op.onPage := by
  cases op with
  | map start len prot kind => exact works_map a start len prot kind
  | mapKernel start len =>
    exact .mapRange start len _ false (.pushVma _ _ _ _ _)
  | writeBytes lin data => exact absurd rfl (hcopy lin data)
  | mmap len prot => exact works_mmap a len prot
  | mmapFixed addr len prot =>
    exact .mapRange addr len prot true
      ((SamePages.pushVma _ _ _ _ _).trans (.setTop _ _))
  | protect start len prot => exact .protect start len prot (.refl _)
  | unmap start len => exact .unmap start len (.setVmas _ _)
  | initBrk addr => exact .idle _ (.setBreak a _ _)
  | setBrk new => exact works_setBrk a new
  | growStack newBottom => exact works_growStack a newBottom

/-- A whole call has the effect its pages have, while frames last. -/
theorem Works.effect (hs : a.Sound L) {lins : List (BitVec w)}
    {g : Option (Page w) → Option (Page w)}
    (h : Works L a a' lins g) (hfit : a'.nextPhys ≤ 2 ^ L.physBits) :
    Effect L a a' lins g := by
  cases h with
  | idle g h => exact (Applied.nil hs).effect h
  | mapRange start len prot user h =>
    exact (Applied.mapRange hs (h.next ▸ hfit)).effect h
  | protect start len prot h =>
    exact (Applied.foldl (reprotect_reprotect prot) nextPhys_protectPage
      (fun _ _ => Applied.protectPage) hs (h.next ▸ hfit)).effect h
  | unmap start len h =>
    exact (Applied.foldl dropPage_dropPage
      (fun a lin => (nextPhys_unmapPage a lin).ge)
      (fun _ lin hs _ => Applied.unmapPage hs lin) hs (h.next ▸ hfit)).effect h

/-- One statement for every operation but the host's copy. -/
theorem Effect.apply (hs : a.Sound L) (op : Op w)
    (hcopy : ∀ lin data, op ≠ .writeBytes lin data)
    (hfit : (op.apply L a).nextPhys ≤ 2 ^ L.physBits) :
    Effect L a (op.apply L a) (op.range L a) op.onPage :=
      (works a op hcopy).effect hs hfit

-- ======== runs

omit [EntryWidth w] in
/-- Over a range frames are only taken. -/
theorem nextPhys_foldl {op : AddressSpace w → BitVec w → AddressSpace w}
    (hmono : ∀ a lin, a.nextPhys ≤ (op a lin).nextPhys)
    (lins : List (BitVec w)) (a : AddressSpace w) :
    a.nextPhys ≤ (lins.foldl op a).nextPhys := by
  induction lins generalizing a with
  | nil => exact le_refl _
  | cons lin lins ih => exact (hmono a lin).trans (ih _)

/-- No call gives frames back. -/
theorem Works.next {lins : List (BitVec w)}
    {g : Option (Page w) → Option (Page w)}
    (h : Works L a a' lins g) : a.nextPhys ≤ a'.nextPhys := by
  cases h with
  | idle g h => exact h.next.ge
  | mapRange start len prot user h =>
    exact (nextPhys_foldl nextPhys_mapPage _ a).trans h.next.ge
  | protect start len prot h =>
    exact (nextPhys_foldl nextPhys_protectPage _ a).trans h.next.ge
  | unmap start len h =>
    exact (nextPhys_foldl (fun a lin => (nextPhys_unmapPage a lin).ge)
      _ a).trans h.next.ge

/-- A copy takes no frames. -/
theorem nextPhys_writeBytes (a : AddressSpace w)
    (lin : BitVec w) (data : List U8) :
    (a.writeBytes L lin data).2.nextPhys = a.nextPhys := by
  induction hn :
    data.length using Nat.strong_induction_on generalizing a lin data with
  | _ n ih =>
    cases data with
    | nil => rw [writeBytes]
    | cons v vs =>
      rw [writeBytes]
      cases a.resolve L lin with
      | none => rfl
      | some p => exact ih _ (hn ▸ chunk_lt lin v vs) _ _ _ rfl

/-- An operation never gives frames back. -/
theorem nextPhys_apply (a : AddressSpace w) (op : Op w) :
    a.nextPhys ≤ (op.apply L a).nextPhys := by
  by_cases hcopy : ∃ lin data, op = .writeBytes lin data
  · obtain ⟨lin, data, rfl⟩ := hcopy
    exact (nextPhys_writeBytes a lin data).ge
  · exact (works a op fun lin data h => hcopy ⟨lin, data, h⟩).next

/-- One operation keeps the tables sound. -/
theorem Sound.apply (hs : a.Sound L) (op : Op w)
    (hfit : (op.apply L a).nextPhys ≤ 2 ^ L.physBits) :
    (op.apply L a).Sound L := by
  by_cases hcopy : ∃ lin data, op = .writeBytes lin data
  · obtain ⟨lin, data, rfl⟩ := hcopy
    obtain ⟨n, hcopied, -⟩ := copied_writeBytes hs lin data
    exact hcopied.same.sound
  · exact (Effect.apply hs op (fun lin data h => hcopy ⟨lin, data, h⟩)
      hfit).sound

/-- A run of operations. -/
def run (L : Layout w) (a : AddressSpace w) (ops : List (Op w)) :
    AddressSpace w :=
  ops.foldl (fun a op => op.apply L a) a

/-- A run never gives frames back, by induction on it. -/
theorem nextPhys_run (a : AddressSpace w) (ops : List (Op w)) :
    a.nextPhys ≤ (a.run L ops).nextPhys := by
  induction ops generalizing a with
  | nil => exact le_refl _
  | cons op ops ih => exact (nextPhys_apply a op).trans (ih _)

-- Frames are handed out one at a time.

/-- Frames are taken a page at a time, so the next one is page-aligned. -/
theorem aligned_tableFor (p : List (Fin (fanout w)))
    (a : AddressSpace w) (t : BitVec w)
    (h : a.nextPhys % 4096 = 0) :
    (a.tableFor L t p).2.nextPhys % 4096 = 0 := by
  induction p generalizing a t with
  | nil => exact h
  | cons i p ih =>
    rw [tableFor]
    dsimp only
    split
    · refine ih _ _ ?_
      show (a.nextPhys + 4096) % 4096 = 0
      omega
    · exact ih _ _ h

theorem aligned_mapPage (prot : U32) (user : Bool)
    (a : AddressSpace w) (lin : BitVec w)
    (h : a.nextPhys % 4096 = 0) :
    (a.mapPage L prot user lin).nextPhys % 4096 = 0 := by
  rw [mapPage]
  split
  · refine aligned_tableFor _ _ _ ?_
    show (a.nextPhys + 4096) % 4096 = 0
    omega
  · exact aligned_tableFor _ _ _ h

theorem aligned_protectPage (prot : U32) (a : AddressSpace w) (lin : BitVec w)
    (h : a.nextPhys % 4096 = 0) :
    (a.protectPage L prot lin).nextPhys % 4096 = 0 := by
  rw [protectPage]
  split
  · exact h
  · exact aligned_tableFor _ _ _ h

omit [EntryWidth w] in
theorem aligned_foldl {op : AddressSpace w → BitVec w → AddressSpace w}
    (hop : ∀ a lin, a.nextPhys % 4096 = 0 → (op a lin).nextPhys % 4096 = 0)
    (lins : List (BitVec w))
    (a : AddressSpace w) (h : a.nextPhys % 4096 = 0) :
    (lins.foldl op a).nextPhys % 4096 = 0 := by
  induction lins generalizing a with
  | nil => exact h
  | cons lin lins ih => exact ih _ (hop a lin h)

theorem Works.aligned {lins : List (BitVec w)}
    {g : Option (Page w) → Option (Page w)}
    (h : Works L a a' lins g) (ha : a.nextPhys % 4096 = 0) :
    a'.nextPhys % 4096 = 0 := by
  cases h with
  | idle g h =>
    rw [h.next]
    exact ha
  | mapRange start len prot user h =>
    rw [h.next]
    exact aligned_foldl (aligned_mapPage prot user) _ a ha
  | protect start len prot h =>
    rw [h.next]
    exact aligned_foldl (aligned_protectPage prot) _ a ha
  | unmap start len h =>
    rw [h.next]
    exact aligned_foldl (fun a lin h => by rw [nextPhys_unmapPage]; exact h) _ a ha

theorem aligned_apply (a : AddressSpace w) (op : Op w)
    (h : a.nextPhys % 4096 = 0) :
    (op.apply L a).nextPhys % 4096 = 0 := by
  by_cases hcopy : ∃ lin data, op = .writeBytes lin data
  · obtain ⟨lin, data, rfl⟩ := hcopy
    rw [Op.apply, nextPhys_writeBytes]
    exact h
  · exact (works a op fun lin data heq => hcopy ⟨lin, data, heq⟩).aligned h

/-- Along a run frames are taken a page at a time, by induction on it. -/
theorem aligned_run (a : AddressSpace w) (ops : List (Op w))
    (h : a.nextPhys % 4096 = 0) :
    (a.run L ops).nextPhys % 4096 = 0 := by
  induction ops generalizing a with
  | nil => exact h
  | cons op ops ih => exact ih _ (aligned_apply a op h)

/-- The tables are sound after any run that frames suffice for. -/
theorem Sound.run (hs : a.Sound L) (ops : List (Op w))
    (hfit : (a.run L ops).nextPhys ≤ 2 ^ L.physBits) :
    (a.run L ops).Sound L := by
  induction ops generalizing a with
  | nil => exact hs
  | cons op ops ih =>
    exact ih (hs.apply op ((nextPhys_run _ ops).trans hfit)) hfit

/-- An empty address space is its root table. -/
theorem root_new (L : Layout w) (hfit : (new L).nextPhys ≤ 2 ^ L.physBits) :
    (new L).cr3.toNat = 4096 ∧ Aligned (new L).cr3
      ∧ (new L).root L = (new L).cr3 := by
  have hnext : (new L).nextPhys = 8192 := rfl
  have hle : 2 ^ L.physBits ≤ 2 ^ w :=
    Nat.pow_le_pow_right (by omega) L.physBits_le
  have hcr3 : (new L).cr3.toNat = 4096 := by
    show (BitVec.ofNat w 4096).toNat = 4096
    rw [BitVec.toNat_ofNat, Nat.mod_eq_of_lt (by omega)]
  have haligned : Aligned (new L).cr3 := by rw [Aligned, hcr3]
  exact ⟨hcr3, haligned, (L.mask_frame _ haligned (by rw [hcr3]; omega)).2⟩

/-- A fresh space has its root table and nothing below it. -/
theorem frameAt_new (L : Layout w) (hfit : (new L).nextPhys ≤ 2 ^ L.physBits)
    {p : List (Fin (fanout w))} {f : BitVec w}
    (hf : (new L).frameAt L p = some f) :
    p = [] ∧ f = (new L).cr3 := by
  obtain ⟨-, haligned, hroot⟩ := root_new L hfit
  cases p with
  | nil => exact ⟨rfl, (Option.some.inj hf).symm.trans hroot⟩
  | cons i p =>
    rw [frameAt, node, hroot, Layout.child,
      load_slot_blank haligned fun _ _ => rfl, L.follow_zero] at hf
    cases hf

/-- The root table of a fresh space is empty. -/
theorem entryAt_new (L : Layout w) (hfit : (new L).nextPhys ≤ 2 ^ L.physBits)
    (p : List (Fin (fanout w))) (i : Fin (fanout w)) :
    (new L).entryAt L p i = 0 := by
  rw [entryAt]
  cases hp : (new L).frameAt L p with
  | none => rfl
  | some t =>
    obtain ⟨-, rfl⟩ := frameAt_new L hfit hp
    exact load_slot_blank (root_new L hfit).2.1 (fun _ _ => rfl) i

/-- A fresh address space is sound. -/
theorem sound_new (L : Layout w) (hfit : (new L).nextPhys ≤ 2 ^ L.physBits) :
    (new L).Sound L := by
  have hnext : (new L).nextPhys = 8192 := rfl
  obtain ⟨hcr3, haligned, -⟩ := root_new L hfit
  refine ⟨by rw [hnext], by rw [hnext]; omega, hfit, fun _ _ => rfl,
    fun p q f _ _ hp hq => ?_, fun p f _ hf => ?_⟩
  · rw [(frameAt_new L hfit hp).1, (frameAt_new L hfit hq).1]
  · obtain ⟨-, rfl⟩ := frameAt_new L hfit hf
    exact ⟨haligned, hcr3.ge, by rw [hcr3]; exact hnext.ge⟩

/-- Any run from an empty address space, while there are frames. -/
theorem sound_run (L : Layout w) (ops : List (Op w))
    (hfit : ((new L).run L ops).nextPhys ≤ 2 ^ L.physBits) :
    ((new L).run L ops).Sound L :=
  (sound_new L ((nextPhys_run _ ops).trans hfit)).run ops hfit

end AddressSpace

end Remu.Os
