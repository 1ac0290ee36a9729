/-
Guest-physical memory, and the page-table entries kept in it.

The source keeps frames in a map, creates them zeroed when first written
and reads zero where there is none; as a function from addresses to bytes
that starts out zero, memory has no frames to create. An entry is one word
of the address width (`EntryWidth`): four bytes for the 386 tables, eight
for the long-mode ones, at its slot of a frame. Whatever an entry is
stored to, only that entry and the bytes of its frame can tell.
-/
import Remu.Lib.ByteWords

namespace Remu.Os

open ByteRam Word

variable {w : Nat}

-- ======== memory

/-- Guest-physical memory: the byte at every address. -/
structure PhysMem (w : Nat) where
  load8 : BitVec w → U8

namespace PhysMem

/-- Zeroed memory. -/
def new : PhysMem w := ⟨fun _ => 0⟩

/-- Stores a byte. -/
def store8 (m : PhysMem w) (a : BitVec w) (v : U8) : PhysMem w :=
  ⟨upd m.load8 a v⟩

/-- The caller keeps the span within one frame. -/
def copyIn (m : PhysMem w) (a : BitVec w) : List U8 → PhysMem w
  | [] => m
  | v :: vs => (m.store8 a v).copyIn (a + 1) vs

/-- `n` bytes from `a`; the caller keeps the span within one frame. -/
def copyOut (m : PhysMem w) (a : BitVec w) (n : Nat) : List U8 :=
  (bytesFrom a n).map m.load8

/-- An address has at least three bits. -/
theorem three_le_width (w : Nat) [hw : PageWidth w] : 3 ≤ w :=
  le_trans (by decide) hw.le

instance instByteRamPhysMem [PageWidth w] : ByteRam w (PhysMem w) where
  byte := load8
  poke := store8
  cell a := a
  wide := three_le_width w
  byte_poke _ _ _ _ := rfl
  byte_cell _ _ _ h := by rw [h]
  cell_low _ _ h := by rw [h]
  cell_add _ _ _ h := by rw [h]

/-- Little-endian words, within a frame or across two. -/
abbrev load32 (m : PhysMem 32) (a : U32) : U32 := get32 m a
/-- Stores a double word, low byte first. -/
abbrev store32 (m : PhysMem 32) (a v : U32) : PhysMem 32 := put32 m a v
/-- A quad word, low byte first. -/
abbrev load64 (m : PhysMem 64) (a : U64) : U64 := get64 m a
/-- Stores a quad word, low byte first. -/
abbrev store64 (m : PhysMem 64) (a v : U64) : PhysMem 64 := put64 m a v

/-- A store changes no other byte. -/
theorem load8_store8_ne (m : PhysMem w) {a x : BitVec w} (v : U8) (h : x ≠ a) :
    (m.store8 a v).load8 x = m.load8 x := upd_other m.load8 v h

/-- A store is read back. -/
theorem load8_store8_same (m : PhysMem w) (a : BitVec w) (v : U8) :
    (m.store8 a v).load8 a = v := upd_same m.load8 a v

-- The two word sizes, by their bytes.

/-- Aligned double words are one or apart. -/
theorem load32_store32 (m : PhysMem 32) {a b : U32} (v : U32)
    (ha : a.toNat % 4 = 0)
    (hb : b.toNat % 4 = 0) :
    (m.store32 a v).load32 b = if b = a then v else m.load32 b :=
  get32_put32 m ha hb v

/-- Aligned quad words are one or apart. -/
theorem load64_store64 (m : PhysMem 64) {a b : U64} (v : U64)
    (ha : a.toNat % 8 = 0)
    (hb : b.toNat % 8 = 0) :
    (m.store64 a v).load64 b = if b = a then v else m.load64 b :=
  get64_put64 m ha hb v

/-- A double word store changes four bytes only. -/
theorem store32_other (m : PhysMem 32) (a v x : U32)
    (h : ∀ i < 4, x ≠ a + BitVec.ofNat 32 i) :
    (m.store32 a v).load8 x = m.load8 x := by
  have h0 : x ≠ a := by simpa using h 0 (by omega)
  have h3 : x ≠ a + 2 + 1 := by
    rw [BitVec.add_assoc]
    exact h 3 (by omega)
  have h1 : x ≠ a + 1 := h 1 (by omega)
  have h2 : x ≠ a + 2 := h 2 (by omega)
  rw [store32, put32_eq]
  show ((((m.store8 _ _).store8 _ _).store8 _ _).store8 _ _).load8 x = _
  rw [load8_store8_ne _ _ h3, load8_store8_ne _ _ h2, load8_store8_ne _ _ h1,
    load8_store8_ne _ _ h0]

/-- A quad word store changes eight bytes only. -/
theorem store64_other (m : PhysMem 64) (a v x : U64)
    (h : ∀ i < 8, x ≠ a + BitVec.ofNat 64 i) :
    (m.store64 a v).load8 x = m.load8 x := by
  rw [store64, put64_eq_pokeAll]
  refine byte_pokeAll_other (w := 64) m _ fun p hp => ?_
  obtain ⟨i, hi, hpi⟩ := List.mem_map.1 (mem_byteStores hp)
  rw [← hpi]
  exact h i (List.mem_range.1 hi)

/-- The bytes of zero are zero. -/
theorem byteOf_zero (n i : Nat) : byteOf (0 : BitVec n) i = 0 := by
  simp [byteOf]

end PhysMem

-- ======== entries

/-- A width whose words are page-table entries, `fanout` to a frame. -/
class EntryWidth (w : Nat) extends PageWidth w where
  bytes : Nat
  fanout : Nat
  frame : fanout * bytes = 4096
  load : PhysMem w → BitVec w → BitVec w
  store : PhysMem w → BitVec w → BitVec w → PhysMem w
  load_store : ∀ m a b v, a.toNat % bytes = 0 → b.toNat % bytes = 0 →
    load (store m a v) b = if b = a then v else load m b
  store_other : ∀ m a v x, (∀ i < bytes, x ≠ a + BitVec.ofNat w i) →
    (store m a v).load8 x = m.load8 x
  load_congr : ∀ m m' a,
    (∀ i < bytes,
      m'.load8 (a + BitVec.ofNat w i) = m.load8 (a + BitVec.ofNat w i)) →
    load m' a = load m a
  load_blank :
    ∀ m a, (∀ i < bytes, m.load8 (a + BitVec.ofNat w i) = 0) → load m a = 0

/-- An i386 entry has four bytes. -/
instance instEntryWidth32 : EntryWidth 32 where
  bytes := 4
  fanout := 1024
  frame := rfl
  load := PhysMem.load32
  store := PhysMem.store32
  load_store m _ _ v ha hb := m.load32_store32 v ha hb
  store_other m a v x h := m.store32_other a v x h
  load_congr _ _ _ h := word32At_congr h
  load_blank _ _ h :=
    word32At_eq fun i hi => (h i hi).trans (PhysMem.byteOf_zero 32 i).symm

/-- An x86-64 entry has eight bytes. -/
instance instEntryWidth64 : EntryWidth 64 where
  bytes := 8
  fanout := 512
  frame := rfl
  load := PhysMem.load64
  store := PhysMem.store64
  load_store m _ _ v ha hb := m.load64_store64 v ha hb
  store_other m a v x h := m.store64_other a v x h
  load_congr _ _ _ h := word64At_congr h
  load_blank _ _ h :=
    word64At_eq fun i hi => (h i hi).trans (PhysMem.byteOf_zero 64 i).symm

namespace EntryWidth

variable [ew : EntryWidth w]

/-- An entry has a byte at least. -/
theorem bytes_pos : 0 < bytes w := by
  have h := frame (w := w)
  rcases Nat.eq_zero_or_pos (bytes w) with h0 | h0
  · rw [h0] at h
    omega
  · exact h0

/-- A table has an entry at least. -/
theorem fanout_pos : 0 < fanout w := by
  have h := frame (w := w)
  rcases Nat.eq_zero_or_pos (fanout w) with h0 | h0
  · rw [h0] at h
    omega
  · exact h0

end EntryWidth

open EntryWidth

-- ======== slots

/-- A frame's address. -/
def Aligned (f : BitVec w) : Prop := f.toNat % 4096 = 0

/-- `x` is a byte of the frame at `f`. -/
def InFrame (f x : BitVec w) : Prop := x >>> 12 = f >>> 12

/-- The bytes of a frame are those with its page number. -/
theorem inFrame_iff {f x : BitVec w} :
    InFrame f x ↔ x.toNat / 4096 = f.toNat / 4096 :=
  page_eq_iff x f

/-- Frames that share a byte are one. -/
theorem eq_of_inFrame {f f' x : BitVec w} (hf : Aligned f)
    (hf' : Aligned f') (h : InFrame f x) (h' : InFrame f' x) : f = f' := by
  rw [inFrame_iff] at h h'
  apply BitVec.eq_of_toNat_eq
  rw [Aligned] at hf hf'
  omega

section Slots

variable [ew : EntryWidth w]

/-- Where entry `i` of the table at `t` is. -/
def slot (t : BitVec w) (i : Fin (fanout w)) : BitVec w :=
  t + BitVec.ofNat w (i * bytes w)

/-- Room for a whole frame above its address. -/
theorem Aligned.add_lt {t : BitVec w} (ht : Aligned t) :
    t.toNat + 4096 ≤ 2 ^ w := by
  obtain ⟨q, hq⟩ := PageWidth.exists_pow w
  have := t.isLt
  rw [Aligned] at ht
  omega

/-- A slot lies within its frame. -/
theorem slot_offset_lt (i : Fin (fanout w)) :
    i * bytes w + bytes w ≤ 4096 := by
  rw [← frame (w := w), ← Nat.succ_mul]
  exact Nat.mul_le_mul_right _ i.isLt

/-- Where a slot is. -/
theorem toNat_slot {t : BitVec w} (ht : Aligned t) (i : Fin (fanout w)) :
    (slot t i).toNat = t.toNat + i * bytes w := by
  have hlt := ht.add_lt
  have hoff := slot_offset_lt i
  have hpos := bytes_pos (w := w)
  rw [slot, BitVec.toNat_add, BitVec.toNat_ofNat,
    Nat.mod_eq_of_lt (show i * bytes w < 2 ^ w by omega),
    Nat.mod_eq_of_lt (by omega)]

/-- A slot is aligned to its size. -/
theorem slot_aligned {t : BitVec w} (ht : Aligned t) (i : Fin (fanout w)) :
    (slot t i).toNat % bytes w = 0 := by
  have hdvd : bytes w ∣ 4096 := ⟨fanout w, by rw [Nat.mul_comm, frame]⟩
  have h : t.toNat % bytes w = 0 := by
    rw [← Nat.mod_mod_of_dvd _ hdvd, ht, Nat.zero_mod]
  rw [toNat_slot ht, Nat.add_mul_mod_self_right, h]

/-- The bytes of a slot are in its frame. -/
theorem inFrame_slot {t : BitVec w} (ht : Aligned t)
    (i : Fin (fanout w)) {k : Nat}
    (hk : k < bytes w) : InFrame t (slot t i + BitVec.ofNat w k) := by
  have hlt := ht.add_lt
  have hoff := slot_offset_lt i
  rw [inFrame_iff, BitVec.toNat_add, BitVec.toNat_ofNat, toNat_slot ht,
    Nat.mod_eq_of_lt (show k < 2 ^ w by omega), Nat.mod_eq_of_lt (by omega)]
  rw [Aligned] at ht
  omega

/-- Slots are told apart by table and place. -/
theorem slot_inj {t t' : BitVec w} (ht : Aligned t) (ht' : Aligned t')
    {i j : Fin (fanout w)} (h : slot t i = slot t' j) : t = t' ∧ i = j := by
  have hpos := bytes_pos (w := w)
  have hi := slot_offset_lt i
  have hj := slot_offset_lt j
  have hnat := congrArg BitVec.toNat h
  rw [toNat_slot ht, toNat_slot ht'] at hnat
  have htt : t.toNat = t'.toNat := by
    rw [Aligned] at ht ht'
    omega
  refine ⟨BitVec.eq_of_toNat_eq htt, Fin.ext ?_⟩
  exact Nat.eq_of_mul_eq_mul_right hpos (by omega)

/-- Slots are one or apart. -/
theorem load_store_slot (m : PhysMem w) {t t' : BitVec w}
    (ht : Aligned t) (ht' : Aligned t') (i j : Fin (fanout w)) (v : BitVec w) :
    load (store m (slot t i) v) (slot t' j)
      = if t' = t ∧ j = i then v else load m (slot t' j) := by
  rw [load_store _ _ _ _ (slot_aligned ht i) (slot_aligned ht' j)]
  by_cases h : t' = t ∧ j = i
  · rw [if_pos h, if_pos (by rw [h.1, h.2])]
  · rw [if_neg h, if_neg fun heq => h (slot_inj ht' ht heq)]

/-- Storing an entry changes bytes of its frame only. -/
theorem store_slot_other (m : PhysMem w) {t x : BitVec w} (ht : Aligned t)
    (i : Fin (fanout w))
    (v : BitVec w) (hx : ¬ InFrame t x) :
    (store m (slot t i) v).load8 x = m.load8 x := by
  refine store_other _ _ _ _ fun k hk heq => hx ?_
  rw [heq]
  exact inFrame_slot ht i hk

/-- The entries of a frame are in its bytes. -/
theorem load_slot_congr {m m' : PhysMem w} {t : BitVec w} (ht : Aligned t)
    (h : ∀ x, InFrame t x → m'.load8 x = m.load8 x) (i : Fin (fanout w)) :
    load m' (slot t i) = load m (slot t i) :=
  load_congr _ _ _ fun _ hk => h _ (inFrame_slot ht i hk)

/-- A frame of zeros is a table of empty entries. -/
theorem load_slot_blank {m : PhysMem w} {t : BitVec w} (ht : Aligned t)
    (h : ∀ x, InFrame t x → m.load8 x = 0) (i : Fin (fanout w)) :
    load m (slot t i) = 0 :=
  load_blank _ _ fun _ hk => h _ (inFrame_slot ht i hk)

end Slots

end Remu.Os
