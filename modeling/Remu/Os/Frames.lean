/-
The page tables are a tree of allocated frames.

`Sound` is the invariant: every frame the tables lead to, tables and pages
alike, was handed out by the allocator and is reached along one path, and
memory the allocator has not handed out is zero. What an operation does is
said of the entries: `entryAt` is the one a path of table indices ends in.
Building tables on the way to a leaf (`tableFor`) changes no leaf and
no byte outside the tables, and the leaf store of `setPte` changes one
leaf. A frame that was handed out but is reached by no path is `Spare`;
the pages to be mapped come from there.
-/
import Remu.Os.AddressSpace

namespace Remu.Os

open EntryWidth FrameTree Word

variable {w : Nat} [EntryWidth w]

namespace Layout

variable (L : Layout w)

-- ======== entries

/-- An empty entry leads nowhere. -/
theorem follow_zero : L.follow 0 = none := by
  unfold follow
  exact if_pos BitVec.zero_and

omit [EntryWidth w] in
/-- Flags only add to a frame below its bits. -/
theorem and_flags {f m : BitVec w} {fl : BitVec w} (hm : m &&& 0xFFF = 0)
    (hfl : fl &&& 0xFFF = fl) :
    (f ||| fl) &&& m = f &&& m := by
  have hz : fl &&& m = 0 := by
    calc fl &&& m = fl &&& 0xFFF &&& m := by rw [hfl]
      _ = fl &&& (m &&& 0xFFF) := by ac_rfl
      _ = 0 := by rw [hm]; exact BitVec.and_zero
  rw [BitVec.and_or_distrib_right, hz]
  exact BitVec.or_zero

/-- The flags of an entry are not in its frame. -/
theorem and_low {f fl t : BitVec w} (hf : Aligned f) (ht : t &&& 0xFFF = t) :
    (f ||| fl) &&& t = fl &&& t := by
  have hz : f &&& t = 0 := by
    calc f &&& t = f &&& (t &&& 0xFFF) := by rw [ht]
      _ = f &&& 0xFFF &&& t := by ac_rfl
      _ = 0 := by rw [(aligned_iff f).1 hf]; exact BitVec.zero_and
  rw [BitVec.and_or_distrib_right, hz]
  exact BitVec.zero_or

/-- An entry made of a frame and flags with the present bit leads to the
frame. -/
theorem follow_frame {f fl : BitVec w} (hf : Aligned f)
    (hlt : f.toNat < 2 ^ L.physBits)
    (hfl : fl &&& 0xFFF = fl) (hP : fl &&& pte.P ≠ 0) :
    L.follow (f ||| fl) = some f := by
  have h1 : (pte.P : BitVec w) &&& 0xFFF = pte.P := by
    apply BitVec.eq_of_toNat_eq
    obtain ⟨q, hq⟩ := PageWidth.exists_pow w
    have hpos := Nat.two_pow_pos w
    rw [toNat_and_FFF, pte.P, BitVec.toNat_ofNat,
      Nat.mod_eq_of_lt (show 1 < 2 ^ w by omega)]
  rw [follow, and_low hf h1, if_neg hP, and_flags L.mask_flags hfl,
    (L.mask_frame f hf hlt).1]

end Layout

namespace AddressSpace

variable (L : Layout w)

-- ======== invariant

/-- Handed out by the allocator. -/
structure Allocated (a : AddressSpace w) (f : BitVec w) : Prop where
  aligned : Aligned f
  pos : 4096 ≤ f.toNat
  lt : f.toNat + 4096 ≤ a.nextPhys

structure Sound (a : AddressSpace w) : Prop where
  next_aligned : a.nextPhys % 4096 = 0
  next_pos : 4096 ≤ a.nextPhys
  next_le : a.nextPhys ≤ 2 ^ L.physBits
  blank : ∀ x : BitVec w, a.nextPhys ≤ x.toNat → a.mem.load8 x = 0
  tree : Tree (L.child a.mem) (a.root L) L.depth
  nodes : ∀ p f, p.length ≤ L.depth → a.frameAt L p = some f → a.Allocated f

/-- A frame used as a page table. -/
def IsTable (a : AddressSpace w) (t : BitVec w) : Prop :=
  Table (L.child a.mem) (a.root L) L.depth t

/-- A frame handed out and not used yet. -/
structure Spare (a : AddressSpace w) (f : BitVec w) : Prop where
  allocated : a.Allocated f
  fresh : Fresh (L.child a.mem) (a.root L) L.depth f
  zero : ∀ x, InFrame f x → a.mem.load8 x = 0

/-- The entry at the end of a path, 0 when a table is missing. -/
def entryAt (a : AddressSpace w) (p : List (Fin (fanout w)))
    (i : Fin (fanout w)) : BitVec w :=
  match a.frameAt L p with
  | none => 0
  | some t => load a.mem (slot t i)

variable {L} {a : AddressSpace w}

omit [EntryWidth w] in
/-- A frame that has been taken stays taken. -/
theorem Allocated.mono {a' : AddressSpace w} {f : BitVec w} (h : a.Allocated f)
    (hle : a.nextPhys ≤ a'.nextPhys) : a'.Allocated f :=
      ⟨h.aligned, h.pos, h.lt.trans hle⟩

/-- The frames of tables have been taken. -/
theorem Sound.isTable_allocated (hs : a.Sound L) {t : BitVec w}
    (ht : a.IsTable L t) :
    a.Allocated t := by
  obtain ⟨p, hp, hnode⟩ := ht
  exact hs.nodes p t (Nat.le_of_lt hp) hnode

/-- Frames lie in physical memory. -/
theorem Sound.lt_physBits (hs : a.Sound L) {f : BitVec w}
    (hf : a.Allocated f) :
    f.toNat < 2 ^ L.physBits := by
  have h1 := hf.lt
  have h2 := hs.next_le
  omega

/-- A leaf entry leads where its path leads. -/
theorem frameAt_leaf (a : AddressSpace w) (p : List (Fin (fanout w)))
    (i : Fin (fanout w)) :
    a.frameAt L (p ++ [i]) = L.follow (a.entryAt L p i) := by
  rw [frameAt, node_concat, entryAt, frameAt]
  cases node (L.child a.mem) (a.root L) p with
  | none => exact L.follow_zero.symm
  | some t => rfl

/-- A page is not a table. -/
theorem Sound.page_not_table (hs : a.Sound L)
    {p : List (Fin (fanout w))} {f t : BitVec w}
    (hp : p.length = L.depth) (hf : a.frameAt L p = some f)
    (ht : a.IsTable L t) : t ≠ f := by
  rintro rfl
  obtain ⟨q, hq, hnode⟩ := ht
  have heq := hs.tree p q t (le_of_eq hp) (Nat.le_of_lt hq) hf hnode
  rw [heq] at hp
  omega

/-- Slots of allocated tables read back what was stored. -/
theorem child_store (m : PhysMem w) {t t' : BitVec w}
    (ht : Aligned t) (ht' : Aligned t') (i j : Fin (fanout w)) (e : BitVec w) :
    L.child (store m (slot t i) e) t' j = if t' = t ∧ j = i then L.follow e
      else L.child m t' j := by
  rw [Layout.child, load_store_slot m ht ht']
  split
  · rfl
  · rfl

/-- Storing an entry of a table is an edit of the tree. -/
theorem Sound.edit (hs : a.Sound L) {π : List (Fin (fanout w))} {t : BitVec w}
    (ht : a.frameAt L π = some t) (hπ : π.length < L.depth)
    (i : Fin (fanout w)) (e : BitVec w) :
    Edit (L.child a.mem) (L.child (store a.mem (slot t i) e)) (a.root L)
      L.depth π t i where
  tree := hs.tree
  at_ := ht
  above := hπ
  other t' j ht' hne := by
    have hat := (hs.nodes π t (Nat.le_of_lt hπ) ht).aligned
    rw [child_store a.mem hat (hs.isTable_allocated ht').aligned, if_neg hne]

/-- The slot that was stored to. -/
theorem Sound.child_at (hs : a.Sound L)
    {π : List (Fin (fanout w))} {t : BitVec w}
    (ht : a.frameAt L π = some t) (hπ : π.length < L.depth)
    (i : Fin (fanout w)) (e : BitVec w) :
    L.child (store a.mem (slot t i) e) t i = L.follow e := by
  have hat := (hs.nodes π t (Nat.le_of_lt hπ) ht).aligned
  rw [child_store a.mem hat hat, if_pos ⟨rfl, rfl⟩]

-- ======== allocation

/-- The frame at the allocator's mark. -/
theorem toNat_mark (hfit : a.nextPhys + 4096 ≤ 2 ^ L.physBits) :
    (BitVec.ofNat w a.nextPhys).toNat = a.nextPhys := by
  have hle : 2 ^ L.physBits ≤ 2 ^ w :=
    Nat.pow_le_pow_right (by omega) L.physBits_le
  rw [BitVec.toNat_ofNat, Nat.mod_eq_of_lt (by omega)]

/-- Taking a frame keeps the tables sound. -/
theorem Sound.alloc (hs : a.Sound L)
    (hfit : a.nextPhys + 4096 ≤ 2 ^ L.physBits) :
    a.allocFrame.2.Sound L where
  next_aligned := by
    have := hs.next_aligned
    show (a.nextPhys + 4096) % 4096 = 0
    omega
  next_pos := le_trans hs.next_pos (Nat.le_add_right _ _)
  next_le := hfit
  blank x hx := hs.blank x (le_trans (Nat.le_add_right _ _) hx)
  tree := hs.tree
  nodes p f hp hf := (hs.nodes p f hp hf).mono (Nat.le_add_right _ _)

/-- The frame just taken is in no table yet. -/
theorem Sound.spare_mark (hs : a.Sound L)
    (hfit : a.nextPhys + 4096 ≤ 2 ^ L.physBits) :
    a.allocFrame.2.Spare L (BitVec.ofNat w a.nextPhys) := by
  have hmark := toNat_mark hfit
  have hal : a.nextPhys % 4096 = 0 := hs.next_aligned
  refine ⟨⟨?_, ?_, ?_⟩, ?_, ?_⟩
  · rw [Aligned, hmark]
    exact hal
  · rw [hmark]
    exact hs.next_pos
  · rw [hmark]
    exact le_refl _
  · intro p hp hf
    have hlt := (hs.nodes p _ hp hf).lt
    rw [hmark] at hlt
    omega
  · intro x hx
    rw [inFrame_iff, hmark] at hx
    exact hs.blank x (by omega)

/-- A spare frame is not the one about to be taken. -/
theorem Spare.ne_mark (hfit : a.nextPhys + 4096 ≤ 2 ^ L.physBits)
    {f : BitVec w} (h : a.Spare L f) : f ≠ BitVec.ofNat w a.nextPhys := by
  intro heq
  have hlt := h.allocated.lt
  rw [heq, toNat_mark hfit] at hlt
  omega

-- ======== building tables

/-- Only memory and the allocator's mark moved. -/
def SameBook (a a' : AddressSpace w) : Prop :=
  a' = { a with mem := a'.mem, nextPhys := a'.nextPhys }

omit [EntryWidth w] in
theorem SameBook.refl (a : AddressSpace w) : SameBook a a := rfl

omit [EntryWidth w] in
/-- Nothing but tables has changed, along a run. -/
theorem SameBook.trans {a b c : AddressSpace w} (h : SameBook a b)
    (h' : SameBook b c) :
    SameBook a c := by
  rw [SameBook] at h h' ⊢
  rw [h', h]

/-- An interior entry. -/
abbrev tableEntry (f : BitVec w) : BitVec w :=
  f ||| pte.P ||| pte.RW ||| pte.US

/-- Every entry is what it was, empty, or an allocated frame with the
flags of its level. -/
def Written (L : Layout w) (a a' : AddressSpace w) : Prop :=
  ∀ p i, p.length < L.depth → a'.entryAt L p i = a.entryAt L p i
    ∨ a'.entryAt L p i = 0
    ∨ ∃ f, a'.Allocated f
      ∧ (p.length + 1 < L.depth ∧ a'.entryAt L p i = tableEntry f
      ∨ p.length + 1 = L.depth ∧ ∃ prot user,
        a'.entryAt L p i = f ||| leafFlags prot user)

theorem Written.refl (a : AddressSpace w) : Written L a a :=
  fun _ _ _ => Or.inl rfl

/-- Frames written on the way are tables or newly taken. -/
theorem Written.trans {b c : AddressSpace w} (h : Written L a b)
    (h' : Written L b c)
    (hnext : b.nextPhys ≤ c.nextPhys) : Written L a c := by
  intro p i hp
  rcases h' p i hp with hsame | hother
  · rw [hsame]
    rcases h p i hp with hold | hzero | ⟨f, hf, hform⟩
    · exact Or.inl hold
    · exact Or.inr (Or.inl hzero)
    · exact Or.inr (Or.inr ⟨f, hf.mono hnext, hform⟩)
  · exact Or.inr hother

/-- What building tables does: nothing to leaves, to bytes outside the
tables or to spare frames. -/
structure Builds (L : Layout w) (a a' : AddressSpace w) : Prop where
  sound : a'.Sound L
  book : SameBook a a'
  next : a.nextPhys ≤ a'.nextPhys
  keeps : ∀ p f, p.length ≤ L.depth → a.frameAt L p = some f →
    a'.frameAt L p = some f
  leaf : ∀ p i, p.length + 1 = L.depth → a'.entryAt L p i = a.entryAt L p i
  written : Written L a a'
  bytes : ∀ x, (∀ t, a'.IsTable L t → ¬ InFrame t x) →
    a'.mem.load8 x = a.mem.load8 x
  spare : ∀ f, a.Spare L f → a'.Spare L f

namespace Builds

/-- Building nothing. -/
theorem refl (hs : a.Sound L) : Builds L a a where
  sound := hs
  book := SameBook.refl a
  next := le_refl _
  keeps _ _ _ h := h
  leaf _ _ _ := rfl
  written := .refl a
  bytes _ _ := rfl
  spare _ h := h

/-- What was a table still is. -/
theorem isTable {a' : AddressSpace w} (h : Builds L a a') {t : BitVec w}
    (ht : a.IsTable L t) :
    a'.IsTable L t := by
  obtain ⟨p, hp, hnode⟩ := ht
  exact ⟨p, hp, h.keeps p t (Nat.le_of_lt hp) hnode⟩

/-- Building, then building more. -/
theorem trans {b c : AddressSpace w} (h : Builds L a b) (h' : Builds L b c) :
    Builds L a c where
  sound := h'.sound
  book := h.book.trans h'.book
  next := h.next.trans h'.next
  keeps p f hp hf := h'.keeps p f hp (h.keeps p f hp hf)
  leaf p i hp := (h'.leaf p i hp).trans (h.leaf p i hp)
  written := h.written.trans h'.written h'.next
  bytes x hx :=
    (h'.bytes x hx).trans (h.bytes x fun t ht => hx t (h'.isTable ht))
  spare f hf := h'.spare f (h.spare f hf)

end Builds

omit [EntryWidth w] in
/-- An entry for a table: its frame and three flags. -/
theorem tableEntry_eq (f : BitVec w) :
    tableEntry f = f ||| (pte.P ||| pte.RW ||| pte.US) := by
  rw [tableEntry, BitVec.or_assoc, BitVec.or_assoc, BitVec.or_assoc]

/-- Small numbers are flags. -/
theorem ofNat_flags {n : Nat} (h : n < 4096) :
    (BitVec.ofNat w n) &&& 0xFFF = BitVec.ofNat w n := by
  obtain ⟨q, hq⟩ := PageWidth.exists_pow w
  have hpos := Nat.two_pow_pos w
  apply BitVec.eq_of_toNat_eq
  rw [toNat_and_FFF, BitVec.toNat_ofNat,
    Nat.mod_eq_of_lt (show n < 2 ^ w by omega), Nat.mod_eq_of_lt h]

omit [EntryWidth w] in
/-- Flags stay within their bits. -/
theorem or_flags {x y : BitVec w} (hx : x &&& 0xFFF = x)
    (hy : y &&& 0xFFF = y) :
    (x ||| y) &&& 0xFFF = x ||| y := by
  rw [BitVec.and_or_distrib_right, hx, hy]

/-- The present bit is seen whatever else is set. -/
theorem present_or (fl : BitVec w) : (pte.P ||| fl) &&& pte.P ≠ 0 := by
  obtain ⟨q, hq⟩ := PageWidth.exists_pow w
  have hpos := Nat.two_pow_pos w
  intro h
  rw [BitVec.and_or_distrib_right, BitVec.and_self] at h
  have hP : (pte.P : BitVec w) = 0 := (BitVec.or_eq_zero_iff.1 h).1
  have hone := congrArg BitVec.toNat hP
  rw [pte.P, BitVec.toNat_ofNat,
    Nat.mod_eq_of_lt (show 1 < 2 ^ w by omega)] at hone
  exact one_ne_zero (hone.trans BitVec.toNat_zero)

/-- Such an entry leads to its table. -/
theorem follow_tableEntry {f : BitVec w} (hf : Aligned f)
    (hlt : f.toNat < 2 ^ L.physBits) :
    L.follow (tableEntry f) = some f := by
  rw [tableEntry_eq]
  refine L.follow_frame hf hlt (or_flags (or_flags ?_ ?_) ?_) ?_
  · exact ofNat_flags (by omega)
  · exact ofNat_flags (by omega)
  · exact ofNat_flags (by omega)
  · rw [BitVec.or_assoc]
    exact present_or _

/-- One missing table put in. -/
theorem Builds.link (hs : a.Sound L) {π : List (Fin (fanout w))} {t : BitVec w}
    (ht : a.frameAt L π = some t) (hπ : π.length + 1 < L.depth)
    {i : Fin (fanout w)}
    (hi : L.child a.mem t i = none)
    (hfit : a.nextPhys + 4096 ≤ 2 ^ L.physBits) :
    let f := BitVec.ofNat w a.nextPhys
    let a' := { a.allocFrame.2 with mem := store a.mem (slot t i) (tableEntry f) }
    Builds L a a' ∧ a'.frameAt L (π ++ [i]) = some f := by
  intro f a'
  have hsp := hs.spare_mark hfit
  have hal := hsp.allocated
  have hat := (hs.nodes π t (by omega) ht).aligned
  have hfollow : L.follow (tableEntry f) = some f :=
    follow_tableEntry hal.aligned ((hs.alloc hfit).lt_physBits hal)
  have hzero : ∀ x, InFrame f x → a.mem.load8 x = 0 := hsp.zero
  have hft : ¬ InFrame t f := by
    intro hin
    exact hsp.fresh π (by omega) ((eq_of_inFrame hat hal.aligned hin rfl) ▸ ht)
  have hlink :
    Linked (L.child a.mem) (L.child a'.mem) (a.root L) L.depth π t i f := by
    refine ⟨hs.edit ht (by omega) i _, ?_, hsp.fresh, fun j => ?_⟩
    · exact (hs.child_at ht (by omega) i _).trans hfollow
    · -- The new frame is untouched by the store and all zero.
      have hne : ¬ (f = t ∧ j = i) := fun h => hft (h.1 ▸ rfl)
      rw [child_store a.mem hat hal.aligned, if_neg hne, Layout.child,
        load_slot_blank hal.aligned hzero, L.follow_zero]
  have hkeeps : ∀ p g, p.length ≤ L.depth → a.frameAt L p = some g →
    a'.frameAt L p = some g :=
    fun p g hp hg => hlink.node_mono hi hp hg
  have htable : ∀ t', a'.IsTable L t' → t' = f
    ∨ a.IsTable L t' := fun t' h => hlink.table_cases h
  have hnodes :
    ∀ p g, p.length ≤ L.depth → a'.frameAt L p = some g → a'.Allocated g := by
    intro p g hp hg
    rcases hlink.node_cases hp hg with ⟨-, rfl⟩ | ⟨-, hold⟩
    · exact ⟨hal.aligned, hal.pos, hal.lt⟩
    · exact (hs.nodes p g hp hold).mono (Nat.le_add_right _ _)
  have hother : ∀ x, ¬ InFrame t x → a'.mem.load8 x = a.mem.load8 x :=
    fun x hx => store_slot_other a.mem hat i _ hx
  have hsound : a'.Sound L := by
    refine ⟨(hs.alloc hfit).next_aligned, (hs.alloc hfit).next_pos,
      hfit, fun x hx => ?_, hlink.tree_after, hnodes⟩
    rw [hother x ?_]
    · exact hs.blank x (le_trans (Nat.le_add_right _ _) hx)
    · intro hin
      have hlt := (hs.nodes π t (by omega) ht).lt
      have htal := hat
      have hx' : a.nextPhys + 4096 ≤ x.toNat := hx
      rw [inFrame_iff] at hin
      rw [Aligned] at htal
      omega
  have hentry : ∀ p j, p.length < L.depth →
      a'.entryAt L p j = if p = π ∧ j = i then tableEntry f
        else a.entryAt L p j := by
    intro p j hp
    rw [entryAt, entryAt]
    cases hold : a.frameAt L p with
    | some t' =>
      rw [hkeeps p t' (by omega) hold]
      dsimp only
      rw [load_store_slot a.mem hat (hs.nodes p t' (by omega) hold).aligned]
      refine if_congr (and_congr_left' ⟨?_, ?_⟩) rfl rfl
      · rintro rfl
        exact hs.tree p π t' (by omega) (by omega) hold ht
      · rintro rfl
        exact Option.some.inj (hold.symm.trans ht)
    | none =>
      -- The table is still missing, or it is the new frame, which is empty.
      have hne : ¬ (p = π ∧ j = i) := by
        rintro ⟨rfl, -⟩
        rw [ht] at hold
        cases hold
      rw [if_neg hne]
      cases hnew : a'.frameAt L p with
      | none => rfl
      | some t' =>
        rcases hlink.node_cases (by omega) hnew with ⟨-, rfl⟩ | ⟨-, hback⟩
        · have hne : ¬ (f = t ∧ j = i) := fun h => hft (h.1 ▸ rfl)
          show load (store a.mem (slot t i) _) (slot f j) = 0
          rw [load_store_slot a.mem hat hal.aligned, if_neg hne,
            load_slot_blank hal.aligned hzero]
        · exact absurd (hold.symm.trans hback) (by simp)
  refine ⟨⟨hsound, rfl, Nat.le_add_right _ _, hkeeps, fun p j hp => ?_, fun p j hp => ?_,
    fun x hx => ?_, fun g hg => ?_⟩, hlink.node_slot⟩
  · rw [hentry p j (by omega), if_neg]
    rintro ⟨rfl, -⟩
    omega
  · rw [hentry p j hp]
    by_cases hpj : p = π ∧ j = i
    · rw [if_pos hpj]
      exact Or.inr
        (Or.inr ⟨f, ⟨hal.aligned, hal.pos, hal.lt⟩, Or.inl ⟨hpj.1 ▸ hπ, rfl⟩⟩)
    · rw [if_neg hpj]
      exact Or.inl rfl
  · exact hother x (hx t ⟨π, by omega, hkeeps π t (by omega) ht⟩)
  · have hgf : g ≠ f := hg.ne_mark hfit
    refine ⟨hg.allocated.mono (Nat.le_add_right _ _),
      hlink.fresh_after hg.fresh hgf, fun x hx => ?_⟩
    rw [hother x ?_]
    · exact hg.zero x hx
    · intro hin
      exact hg.fresh π (by omega)
        ((eq_of_inFrame hat hg.allocated.aligned hin hx) ▸ ht)

/-- Building takes frames and gives none back. -/
theorem nextPhys_tableFor (a : AddressSpace w) (t : BitVec w)
    (p : List (Fin (fanout w))) :
    a.nextPhys ≤ (a.tableFor L t p).2.nextPhys := by
  induction p generalizing a t with
  | nil => exact le_refl _
  | cons i p ih =>
    rw [tableFor]
    dsimp only
    split
    · refine le_trans ?_ (ih _ _)
      exact Nat.le_add_right _ _
    · exact ih _ _

/-- The tables on the way to a leaf. -/
theorem Builds.tableFor (hs : a.Sound L) {π p : List (Fin (fanout w))}
    {t : BitVec w}
    (ht : a.frameAt L π = some t) (hp : π.length + p.length < L.depth)
    (hfit : (a.tableFor L t p).2.nextPhys ≤ 2 ^ L.physBits) :
    Builds L a (a.tableFor L t p).2 ∧ (a.tableFor L t p).2.frameAt L (π ++ p)
      = some (a.tableFor L t p).1 := by
  induction p generalizing a t π with
  | nil =>
    refine ⟨Builds.refl hs, ?_⟩
    rw [List.append_nil]
    exact ht
  | cons i p ih =>
    rw [List.length_cons] at hp
    have happ : π ++ i :: p = π ++ [i] ++ p := by
      rw [List.append_assoc, List.singleton_append]
    have hlen : (π ++ [i]).length + p.length < L.depth := by
      rw [List.length_append, List.length_singleton]
      omega
    rw [AddressSpace.tableFor] at hfit ⊢
    dsimp only at hfit ⊢
    by_cases hP : load a.mem (slot t i) &&& pte.P = 0
    · rw [if_pos hP] at hfit ⊢
      have hi : L.child a.mem t i = none := if_pos hP
      have hroom : a.nextPhys + 4096 ≤ 2 ^ L.physBits := by
        refine le_trans ?_ ((nextPhys_tableFor _ _ _).trans hfit)
        exact le_refl _
      have hal := (hs.spare_mark hroom).allocated
      have hmask : tableEntry (BitVec.ofNat w a.nextPhys) &&& L.physMask
        = BitVec.ofNat w a.nextPhys := by
        have h := follow_tableEntry (L := L) hal.aligned
          ((hs.alloc hroom).lt_physBits hal)
        rw [Layout.follow] at h
        split at h
        · cases h
        · exact Option.some.inj h
      obtain ⟨hb, hnode⟩ := Builds.link hs ht (by omega) hi hroom
      rw [show a.allocFrame.1 = BitVec.ofNat w a.nextPhys from rfl] at hfit ⊢
      rw [hmask] at hfit ⊢
      obtain ⟨hb', hnode'⟩ := ih hb.sound hnode hlen hfit
      rw [happ]
      exact ⟨hb.trans hb', hnode'⟩
    · rw [if_neg hP] at hfit ⊢
      have hnode : a.frameAt L (π ++ [i])
        = some (load a.mem (slot t i) &&& L.physMask) := by
        rw [frameAt, node_concat,
          show node (L.child a.mem) (a.root L) π = some t from ht,
          Option.bind_some, Layout.child, Layout.follow, if_neg hP]
      rw [happ]
      exact ih hs hnode hlen hfit

/-- Where the tables are all there, nothing is built. -/
theorem tableFor_of_frameAt {π p : List (Fin (fanout w))} {t t' : BitVec w}
    (ht : a.frameAt L π = some t)
    (ht' : a.frameAt L (π ++ p) = some t') : a.tableFor L t p = (t', a) := by
  induction p generalizing t π with
  | nil =>
    rw [List.append_nil, ht, Option.some.injEq] at ht'
    rw [tableFor, ht']
  | cons i p ih =>
    have happ : π ++ i :: p = π ++ [i] ++ p := by
      rw [List.append_assoc, List.singleton_append]
    have hnext :
      a.frameAt L (π ++ [i]) = L.follow (load a.mem (slot t i)) := by
      rw [frameAt_leaf, entryAt, ht]
    have hP : ¬ load a.mem (slot t i) &&& pte.P = 0 := by
      intro hP
      rw [happ, frameAt, node_append,
        show node (L.child a.mem) (a.root L) (π ++ [i])
        = a.frameAt L (π ++ [i]) from rfl, hnext, Layout.follow,
          if_pos hP] at ht'
      cases ht'
    rw [Layout.follow, if_neg hP] at hnext
    rw [tableFor]
    dsimp only
    rw [if_neg hP]
    exact ih hnext (happ ▸ ht')

-- ======== one leaf

/-- What setting one leaf does: nothing to the other leaves, to bytes
outside the tables or to frames that are spare still. -/
structure Sets (L : Layout w) (a a' : AddressSpace w)
    (π : List (Fin (fanout w)))
    (i : Fin (fanout w)) (e : BitVec w) : Prop where
  sound : a'.Sound L
  book : SameBook a a'
  next : a.nextPhys ≤ a'.nextPhys
  leaf : ∀ p j, p.length + 1 = L.depth →
    a'.entryAt L p j = if p = π ∧ j = i then e else a.entryAt L p j
  written : Written L a a'
  bytes : ∀ x, (∀ t, a'.IsTable L t → ¬ InFrame t x) →
    a'.mem.load8 x = a.mem.load8 x
  spare : ∀ f, a.Spare L f → L.follow e ≠ some f → a'.Spare L f

/-- A leaf set after building. -/
theorem Builds.sets {b c : AddressSpace w} {π : List (Fin (fanout w))}
    {i : Fin (fanout w)}
    {e : BitVec w} (hab : Builds L a b) (hbc : Sets L b c π i e)
    (htable : ∀ t, b.IsTable L t → c.IsTable L t) : Sets L a c π i e where
  sound := hbc.sound
  book := hab.book.trans hbc.book
  next := hab.next.trans hbc.next
  leaf p j hp := by rw [hbc.leaf p j hp, hab.leaf p j hp]
  written := hab.written.trans hbc.written hbc.next
  bytes x hx :=
    (hbc.bytes x hx).trans (hab.bytes x fun t ht => hx t (htable t ht))
  spare f hf hne := hbc.spare f (hab.spare f hf) hne

/-- An entry stored to a lowest table. -/
theorem Sound.bottom (hs : a.Sound L)
    {π : List (Fin (fanout w))} {t : BitVec w}
    (ht : a.frameAt L π = some t) (hπ : π.length + 1 = L.depth)
    {i : Fin (fanout w)} {e : BitVec w}
    (he : ∀ f, L.follow e = some f → a.frameAt L (π ++ [i]) = some f
      ∨ a.Spare L f) :
    Bottom (L.child a.mem) (L.child (store a.mem (slot t i) e)) (a.root L)
      L.depth π t i where
  toEdit := hs.edit ht (by omega) i e
  last := hπ
  slot f hf := by
    rw [hs.child_at ht (by omega) i e] at hf
    rcases he f hf with hold | hspare
    · left
      rw [frameAt, node_concat, show node (L.child a.mem) (a.root L) π = some t
        from ht, Option.bind_some] at hold
      exact hold
    · exact Or.inr hspare.fresh

/-- An entry of a lowest table: nothing, or an allocated frame. -/
def IsLeaf (a : AddressSpace w) (e : BitVec w) : Prop :=
  e = 0 ∨ ∃ f, a.Allocated f ∧ ∃ prot user, e = f ||| leafFlags prot user

/-- Only the entry that was stored to changes. -/
theorem Sound.entryAt_store (hs : a.Sound L)
    {π : List (Fin (fanout w))} {t : BitVec w}
    (ht : a.frameAt L π = some t) (hπ : π.length + 1 = L.depth)
    {i : Fin (fanout w)} {e : BitVec w}
    (he : ∀ f, L.follow e = some f → a.frameAt L (π ++ [i]) = some f
      ∨ a.Spare L f)
    (p : List (Fin (fanout w))) (j : Fin (fanout w))
    (hp : p.length < L.depth) :
    entryAt L { a with mem := EntryWidth.store a.mem (slot t i) e } p j
      = if p = π ∧ j = i then e else a.entryAt L p j := by
  rw [entryAt, entryAt]
  have habove :
      AddressSpace.frameAt L { a with mem := EntryWidth.store a.mem (slot t i) e } p
      = a.frameAt L p := (hs.bottom ht hπ he).node_above hp
  rw [habove]
  cases hp' : a.frameAt L p with
  | none =>
    rw [if_neg]
    rintro ⟨rfl, -⟩
    rw [ht] at hp'
    cases hp'
  | some t' =>
    dsimp only
    rw [load_store_slot a.mem (hs.nodes π t (by omega) ht).aligned
      (hs.nodes p t' (by omega) hp').aligned]
    refine if_congr (and_congr_left' ⟨?_, ?_⟩) rfl rfl
    · rintro rfl
      exact hs.tree p π t' (by omega) (by omega) hp' ht
    · rintro rfl
      exact Option.some.inj (hp'.symm.trans ht)

/-- One entry of a lowest table. -/
theorem Sets.store (hs : a.Sound L) {π : List (Fin (fanout w))} {t : BitVec w}
    (ht : a.frameAt L π = some t) (hπ : π.length + 1 = L.depth)
    {i : Fin (fanout w)} {e : BitVec w}
    (he : ∀ f, L.follow e = some f → a.frameAt L (π ++ [i]) = some f
      ∨ a.Spare L f)
    (hform : a.IsLeaf e) :
    Sets L a { a with mem := EntryWidth.store a.mem (slot t i) e } π i e := by
  have hat := (hs.nodes π t (by omega) ht).aligned
  have hbot := hs.bottom ht hπ he
  have hother : ∀ x, ¬ InFrame t x →
      (EntryWidth.store a.mem (slot t i) e).load8 x = a.mem.load8 x :=
    fun x hx => store_slot_other a.mem hat i e hx
  have hentry := hs.entryAt_store ht hπ he
  refine ⟨⟨hs.next_aligned, hs.next_pos, hs.next_le, fun x hx => ?_, hbot.tree_after,
    fun p f hp hf => ?_⟩, rfl, le_refl _, fun p j hp => hentry p j (by omega),
      fun p j hp => ?_,
    fun x hx => ?_, fun f hf hne => ?_⟩
  · have hlt := (hs.nodes π t (by omega) ht).lt
    have hx' : a.nextPhys ≤ x.toNat := hx
    have htal := hat
    have hout : ¬ InFrame t x := by
      rw [inFrame_iff]
      rw [Aligned] at htal
      omega
    exact (hother x hout).trans (hs.blank x hx)
  · have hold : a.Allocated f := by
      rcases hbot.node_cases hp hf with hold | ⟨rfl, hfresh⟩
      · exact hs.nodes p f hp hold
      · have hslot : L.follow e = some f :=
          (hs.child_at ht (by omega) i e).symm.trans
            (hbot.node_slot.symm.trans hf)
        rcases he f hslot with hold | hspare
        · exact hs.nodes _ f hp hold
        · exact hspare.allocated
    exact ⟨hold.aligned, hold.pos, hold.lt⟩
  · rw [hentry p j hp]
    by_cases hpj : p = π ∧ j = i
    · rw [if_pos hpj]
      rcases hform with hzero | ⟨f, hf, hflags⟩
      · exact Or.inr (Or.inl hzero)
      · exact Or.inr
          (Or.inr ⟨f, ⟨hf.aligned, hf.pos, hf.lt⟩, Or.inr ⟨hpj.1 ▸ hπ, hflags⟩⟩)
    · rw [if_neg hpj]
      exact Or.inl rfl
  · refine hother x (hx t ?_)
    exact hbot.table_iff.2 ⟨π, by omega, ht⟩
  · have hslot :
      L.child (EntryWidth.store a.mem (slot t i) e) t i ≠ some f := by
      rw [hs.child_at ht (by omega) i e]
      exact hne
    refine ⟨⟨hf.allocated.aligned, hf.allocated.pos, hf.allocated.lt⟩,
      hbot.fresh_after hf.fresh hslot, fun x hx => ?_⟩
    refine (hother x fun hin => ?_).trans (hf.zero x hx)
    exact hf.fresh π (by omega)
      ((eq_of_inFrame hat hf.allocated.aligned hin hx) ▸ ht)

/-- A leaf is set in the last table, so the tables are the same. -/
theorem Sound.isTable_store (hs : a.Sound L)
    {π : List (Fin (fanout w))} {t : BitVec w}
    (ht : a.frameAt L π = some t) (hπ : π.length + 1 = L.depth)
    {i : Fin (fanout w)} {e : BitVec w}
    (he : ∀ f, L.follow e = some f → a.frameAt L (π ++ [i]) = some f
      ∨ a.Spare L f) (t' : BitVec w)
    (h : a.IsTable L t') :
    IsTable L { a with mem := store a.mem (slot t i) e } t' :=
  (hs.bottom ht hπ he).table_iff.2 h

/-- The flags of a leaf stay within their bits. -/
theorem leafFlags_low (prot : U32) (user : Bool) :
    (leafFlags prot user : BitVec w) &&& 0xFFF = leafFlags prot user := by
  have hz : (0 : BitVec w) &&& 0xFFF = 0 := BitVec.zero_and
  unfold leafFlags
  refine or_flags (or_flags (ofNat_flags (by omega)) ?_) ?_
  · split
    · exact ofNat_flags (by omega)
    · exact hz
  · split
    · exact ofNat_flags (by omega)
    · exact hz

/-- The flags of a leaf have the present bit. -/
theorem leafFlags_present (prot : U32) (user : Bool) :
    (leafFlags prot user : BitVec w) &&& pte.P ≠ 0 := by
  unfold leafFlags
  rw [BitVec.or_assoc]
  exact present_or _

/-- The entry `setPte` puts at the leaf. -/
theorem follow_leaf {phys : BitVec w} (hp : Aligned phys)
    (hlt : phys.toNat < 2 ^ L.physBits)
    (prot : U32) (user : Bool) :
    L.follow (phys ||| leafFlags prot user) = some phys :=
  L.follow_frame hp hlt (leafFlags_low prot user) (leafFlags_present prot user)

/-- Setting a leaf takes frames for its tables only. -/
theorem nextPhys_setPte (a : AddressSpace w) (lin phys : BitVec w)
    (prot : U32) (user : Bool) :
    a.nextPhys ≤ (a.setPte L lin phys prot user).nextPhys :=
  nextPhys_tableFor a _ _

/-- The leaf of a page, set to the frame it had or to a spare one. -/
theorem Sets.setPte (hs : a.Sound L) {lin phys : BitVec w}
    {prot : U32} {user : Bool}
    (hphys : a.frameAt L (L.indices lin) = some phys ∨ a.Spare L phys)
    (hfit : (a.setPte L lin phys prot user).nextPhys ≤ 2 ^ L.physBits) :
    Sets L a (a.setPte L lin phys prot user) (L.interior lin) (Layout.leaf lin)
      (phys ||| leafFlags prot user) := by
  have hlen := L.length_interior lin
  have hidx := L.length_indices lin
  have hal : a.Allocated phys := by
    rcases hphys with h | h
    · exact hs.nodes _ _ (by omega) h
    · exact h.allocated
  obtain ⟨hb, hnode⟩ :=
    Builds.tableFor (π := []) (p := L.interior lin) (t := a.root L) hs rfl
    (by rw [List.length_nil]; omega) hfit
  rw [List.nil_append] at hnode
  have hfollow := follow_leaf hal.aligned (hs.lt_physBits hal) prot user
  have hmask : phys &&& L.edgeMask = phys :=
    (L.mask_frame phys hal.aligned (hs.lt_physBits hal)).2
  have hphys' : ∀ f, L.follow (phys ||| leafFlags prot user) = some f →
      (a.tableFor L (a.root L) (L.interior lin)).2.frameAt L
        (L.interior lin ++ [Layout.leaf lin]) = some f
        ∨ (a.tableFor L (a.root L) (L.interior lin)).2.Spare L f := by
    intro f hf
    rw [hfollow, Option.some.injEq] at hf
    subst hf
    rcases hphys with h | h
    · exact Or.inl (hb.keeps _ _ (le_of_eq hidx) h)
    · exact Or.inr (hb.spare _ h)
  have hset := Sets.store hb.sound hnode hlen hphys'
    (Or.inr ⟨phys, hal.mono hb.next, prot, user, rfl⟩)
  have htable := hb.sound.isTable_store hnode hlen hphys'
  rw [AddressSpace.setPte]
  dsimp only
  rw [hmask]
  exact hb.sets hset htable

end AddressSpace

end Remu.Os
