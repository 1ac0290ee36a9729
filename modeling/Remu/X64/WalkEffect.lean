/-
What a page walk leaves behind, said in full.

A walk that faults has changed CR2. A walk that succeeds has put the
accessed mark on the entries of its path and, for a write, the dirty mark
on the leaf, wherever these entries share their cells; it has not touched
any byte outside them; and the address it returns is the frame of the leaf
over the offset bits of the leaf's page, whose size follows from how deep
the path goes (`walk_effect`).
-/
import Remu.Lib.ByteWords
import Remu.X64.Walk

namespace Remu.X64

open Word ByteRam

-- ======== leaves

/-- The offset bits of a page of `2 ^ bits` bytes. -/
def offsetMask (bits : Nat) : U64 := (1 <<< bits) - 1

/-- The frame bits of an entry: below 4 GiB in a 2-level table. -/
def frameBits (wide : Bool) : U64 := if wide then PHYS_MASK else 0xFFFFFFFF

/-- An address in the page of `bits` offset bits that the entry `e` maps. -/
def leafAddress (wide : Bool) (bits : Nat) (e lin : U64) : U64 :=
  (e &&& frameBits wide &&& ~~~offsetMask bits) ||| (lin &&& offsetMask bits)

/-- The offset bits of the page a path of `depth` entries ends in: each
level the walk stops short of adds the bits of its index. -/
def pageBits (wide long : Bool) (depth : Nat) : Nat :=
  if wide then 12 + 9 * ((if long then 4 else 2) - depth)
    else 12 + 10 * (2 - depth)

/-- An offset is its part within 4 KiB and the rest. -/
theorem and_split (lin : U64) {m : U64} (hm : m &&& 0xFFF = 0xFFF) :
    (lin &&& m &&& ~~~0xFFF) ||| (lin &&& 0xFFF) = lin &&& m := by
  calc (lin &&& m &&& ~~~0xFFF) ||| (lin &&& 0xFFF)
      = (lin &&& m &&& ~~~0xFFF) ||| (lin &&& m &&& 0xFFF) := by
        rw [BitVec.and_assoc lin m 0xFFF, hm]
    _ = lin &&& m &&& (~~~0xFFF ||| 0xFFF) := by
      rw [BitVec.and_or_distrib_left]
    _ = lin &&& m := by
        rw [show (~~~0xFFF ||| 0xFFF : U64) = BitVec.allOnes 64 by decide,
          BitVec.and_allOnes]

/-- Truncation to 32 bits is a mask. -/
theorem low32_and (lin : U64) :
    ((lin.setWidth 32).setWidth 64 : U64) = lin &&& 0xFFFFFFFF := by
  apply BitVec.eq_of_toNat_eq
  rw [toNat_and_low32]
  simp only [BitVec.toNat_setWidth]
  omega

theorem leafAddress_legacy (bits : Nat) (e lin : U64) :
    leafAddress false bits e lin
      = (e &&& (0xFFFFFFFF &&& ~~~offsetMask bits))
        ||| (lin &&& offsetMask bits) := by
  rw [← BitVec.and_assoc]
  rfl

section Leaf

variable {rd : U64 → U64} {cr3 lin : U64} {long nxe pse : Bool}

/-- The leaf of a 2-level path. -/
theorem legacyMapping_leaf {m : Mapping}
    (hm : legacyMapping rd cr3 pse lin = some m) :
    ∃ leaf, m.path.getLast? = some leaf
      ∧ m.frame ||| (lin &&& 0xFFF)
        = leafAddress false (pageBits false long m.path.length)
          (rd leaf) lin := by
  simp only [legacyMapping] at hm
  generalize hlin32 : ((lin.setWidth 32).setWidth 64 : U64) = lin32 at hm
  generalize (cr3 &&& (0xFFFFF000 : U64)) + ((lin32 >>> 22) <<< 2)
    = pdeAddr at hm
  generalize (rd pdeAddr &&& (0xFFFFF000 : U64))
    + (((lin32 >>> 12) &&& (0x3FF : U64)) <<< 2)
    = pteAddr at hm
  split at hm
  · cases hm
  split at hm
  · cases hm
    refine ⟨pdeAddr, rfl, ?_⟩
    have hlin : lin32 &&& 0x003FF000 = lin &&& 0x3FFFFF &&& ~~~0xFFF := by
      rw [← hlin32, low32_and, BitVec.and_assoc, BitVec.and_assoc]
      rfl
    show (rd pdeAddr &&& 0xFFC00000) ||| (lin32 &&& 0x003FF000)
      ||| (lin &&& 0xFFF)
      = leafAddress false 22 (rd pdeAddr) lin
    rw [leafAddress_legacy, hlin, BitVec.or_assoc, and_split lin (by decide)]
    rfl
  split at hm
  · cases hm
  · cases hm
    refine ⟨pteAddr, rfl, ?_⟩
    show (rd pteAddr &&& 0xFFFFF000) ||| (lin &&& 0xFFF)
      = leafAddress false 12 (rd pteAddr) lin
    rw [leafAddress_legacy]
    rfl

/-- The leaf of a descent, and the level it is on. -/
theorem descend_leaf {shifts : List (Fin 40)} {table : U64}
    {r : List U64 × U64}
    (hlast : shifts.getLast? = some 12)
    (hr : descend rd lin long nxe shifts table = some r) :
    ∃ leaf shift, r.1.getLast? = some leaf ∧ 0 < r.1.length
      ∧ shifts[r.1.length - 1]? = some shift
      ∧ r.2 = (rd leaf &&& PHYS_MASK &&& ~~~offsetMask shift.val)
        ||| (lin &&& offsetMask shift.val &&& ~~~0xFFF) := by
  induction shifts generalizing table r with
  | nil => cases hlast
  | cons shift rest ih =>
    simp only [descend] at hr
    split at hr
    · cases hr
    split at hr
    · cases hr
    split at hr
    · split at hr
      · cases hr
      · cases hr
        have hmask : pageMask rest.isEmpty shift = offsetMask shift.val := by
          cases rest with
          | nil =>
            cases hlast
            rfl
          | cons x rest => rfl
        rw [hmask]
        exact ⟨_, shift, rfl, Nat.zero_lt_one, rfl, rfl⟩
    case isFalse hdeeper =>
      obtain ⟨r', hr', rfl⟩ := Option.map_eq_some_iff.1 hr
      have hne : rest ≠ [] := by
        rintro rfl
        simp at hdeeper
      obtain ⟨leaf, shift', hleaf, hpos, hshift, hframe⟩ :=
        ih (by rwa [List.getLast?_cons_of_ne_nil hne] at hlast) hr'
      refine ⟨leaf, shift', ?_, Nat.succ_pos _, ?_, hframe⟩
      · rw [List.getLast?_cons_of_ne_nil (List.length_pos_iff.1 hpos)]
        exact hleaf
      · obtain ⟨n, hn⟩ := Nat.exists_eq_succ_of_ne_zero hpos.ne'
        rw [List.length_cons, Nat.add_sub_cancel, hn, List.getElem?_cons_succ,
          ← hshift, hn]
        rfl

/-- The leaf of a wide path. -/
theorem wideMapping_leaf {m : Mapping}
    (hm : wideMapping rd cr3 long nxe lin = some m) :
    ∃ leaf, m.path.getLast? = some leaf
      ∧ m.frame ||| (lin &&& 0xFFF)
        = leafAddress true (pageBits true long m.path.length)
          (rd leaf) lin := by
  obtain ⟨table, -, hm⟩ := Option.bind_eq_some_iff.1 hm
  obtain ⟨r, hr, rfl⟩ := Option.map_eq_some_iff.1 hm
  obtain ⟨leaf, shift, hleaf, hpos, hshift, hframe⟩ :=
    descend_leaf (by cases long <;> rfl) hr
  have hbits : shift.val = pageBits true long r.1.length
      ∧ offsetMask shift.val &&& 0xFFF = 0xFFF := by
    obtain ⟨n, hn⟩ := Nat.exists_eq_succ_of_ne_zero hpos.ne'
    rw [hn, Nat.succ_sub_one] at hshift
    rw [hn]
    revert hshift
    cases long with
    | true =>
      rcases n with _ | _ | _ | _ | n <;> intro hshift
        <;> cases hshift <;> decide
    | false =>
      rcases n with _ | _ | n <;> intro hshift <;> cases hshift <;> decide
  refine ⟨leaf, hleaf, ?_⟩
  dsimp only
  rw [hframe, BitVec.or_assoc, and_split _ hbits.2, hbits.1]
  rfl

end Leaf

-- ======== the whole effect

section Effect

variable {β : Type} [ByteRam 64 β]

/-- The bytes of an entry. -/
def entryBytes (wide : Bool) (a : U64) : List U64 :=
  Remu.bytesFrom a (if wide then 8 else 4)

/-- The byte stores that write an entry back. -/
def entryStores (wide : Bool) (a v : U64) : List (U64 × U8) :=
  if wide then Remu.byteStores (entryBytes wide a) v
  else Remu.byteStores (entryBytes wide a) (v.setWidth 32)

theorem putEntry_eq_pokeAll (wide : Bool) (b : β) (a v : U64) :
    putEntry wide b a v = pokeAll b (entryStores wide a v) := by
  unfold putEntry entryStores
  cases wide with
  | true =>
    rw [if_pos rfl, if_pos rfl]
    exact put64_eq_pokeAll b a v
  | false =>
    rw [if_neg (by decide), if_neg (by decide)]
    exact put32_eq_pokeAll b a (v.setWidth 32)

theorem mem_entryStores {wide : Bool} {a v : U64} {q : U64 × U8}
    (hq : q ∈ entryStores wide a v) :
    q.1 ∈ entryBytes wide a := by
  unfold entryStores at hq
  split at hq <;> exact Remu.mem_byteStores hq

/-- Writing an entry back leaves the bytes of no entry alone. -/
theorem byte_putEntry_other (wide : Bool) (b : β) (a v : U64) {x : U64}
    (hx : ∀ y ∈ entryBytes wide a, cell β x ≠ cell β y) :
    byte (putEntry wide b a v) x = byte b x := by
  rw [putEntry_eq_pokeAll]
  exact byte_pokeAll_other b _ fun p hp => hx _ (mem_entryStores hp)

/-- From memory `b` to `b'` the entries of the path have gained the
accessed mark, the leaf and what shares its cell the dirty mark if
`write`, and no other byte has changed. -/
structure MarksOnly (wide write : Bool) (path : List U64) (leaf : U64)
    (b b' : β) : Prop where
  leafEntry : ∀ a ∈ path, cell β a = cell β leaf →
    tableWord wide b' a
      = tableWord wide b a ||| pte.A ||| (if write then pte.D else 0)
  entry : ∀ a ∈ path, cell β a ≠ cell β leaf →
    tableWord wide b' a = tableWord wide b a ||| pte.A
  outside : ∀ x, (∀ a ∈ path, ∀ y ∈ entryBytes wide a, cell β x ≠ cell β y) →
    byte b' x = byte b x

theorem marksOnly_markPath {wide write : Bool} {path : List U64}
    {leaf : U64} (b : β)
    (haligned : ∀ a ∈ path, EntryAligned wide a)
    (hleaf : path.getLast? = some leaf) :
    MarksOnly wide write path leaf b
      (markPath wide write (tableWord wide b) path b) where
  leafEntry a ha hsame :=
    (EntryMemory.get_markPath (E := tableEntries wide) (b := b) EntryFits.mark
    haligned (.refl b) (haligned a ha)).1 ⟨leaf, hleaf, hsame⟩
  entry a ha hne := by
    refine ((EntryMemory.get_markPath (E := tableEntries wide) (b := b) EntryFits.mark haligned
      (.refl b) (haligned a ha)).2 ?_ ⟨a, ha, rfl⟩).trans
        (pteMarks.mark_false _)
    · rintro ⟨x, hx, hsame⟩
      rw [hleaf] at hx
      cases hx
      exact hne hsame
  outside x hx := EntryMemory.markPath_induct (E := tableEntries wide)
    (P := fun b' => byte b' x = byte b x)
    (fun a ha b' v h => (byte_putEntry_other wide b' a v (hx a ha)).trans h)
      rfl

end Effect

section Run

variable {β : Type} [Bus β] [Ram β]

/-- What a successful walk has done and found: it followed the path the
tables have for `lin`, marked it, filled the slot of the page in the TLB,
and returned the address in the leaf's page. -/
def Machine.WalkEffect (s : Machine β) (lin : U64) (write : Bool) (phys : U64)
    (s' : Machine β) : Prop :=
  ∃ m leaf, s.mapping lin = some m ∧ m.path.getLast? = some leaf
    ∧ MarksOnly s.wide write m.path leaf s.bus s'.bus
    ∧ phys = leafAddress s.wide (pageBits s.wide s.longMode m.path.length)
      (s.word leaf) lin
    ∧ ∃ ic e, s' = { s with
        icache := ic
        bus := s'.bus
        tlb := ⟨upd s.tlb.entries (Tlb.slot (lin >>> 12)) e⟩ }

/-- The leaf of what the tables have for `lin`. -/
theorem Machine.mapping_leaf {s : Machine β} {lin : U64} {m : Mapping}
    (hm : s.mapping lin = some m) :
    ∃ leaf, m.path.getLast? = some leaf ∧ m.frame ||| (lin &&& 0xFFF)
      = leafAddress s.wide (pageBits s.wide s.longMode m.path.length)
        (s.word leaf) lin := by
  unfold mapping at hm
  cases hw : s.wide with
  | true =>
    rw [hw, if_pos rfl] at hm
    exact wideMapping_leaf hm
  | false =>
    rw [hw, if_neg (by decide)] at hm
    exact legacyMapping_leaf hm

/-- **The effect of a walk.** A walk that faults has set CR2 to the linear
address and changed nothing else at all. One that succeeds has marked the
entries it went through, the leaf dirty if it was for a write, has
touched no other byte, and returns the leaf's frame over the offset bits
of the leaf's page. -/
theorem walk_effect (s : Machine β) (lin : U64) (access : Access) :
    match (walk lin access).run s with
    | (.error _, s') => s' = s.faulted lin
    | (.ok p, s') => s.WalkEffect lin (access == .write) p.val s' := by
  have hrun := run_walk lin access s
  rcases hw : (walk lin access).run s with ⟨e | p, s'⟩ <;> rw [hw] at hrun
  · exact hrun.1
  · obtain ⟨m, hm, -, hp, hwalked⟩ := hrun
    obtain ⟨leaf, hleaf, haddr⟩ := Machine.mapping_leaf hm
    obtain ⟨ic, e, rfl, -⟩ := hwalked.state
    exact ⟨m, leaf, hm, hleaf,
      marksOnly_markPath s.bus (Machine.mapping_aligned hm) hleaf,
      hp.trans haddr, ic, e, rfl⟩

end Run

end Remu.X64
