/-
The wide accessors of `LinearMemory`.

`LinearMemory` overrides the composed accessors of the bus trait: a word
that ends inside the memory is one slice of it, and only a word that wraps
is composed of two halves. Both give what the composed accessors give
(`wide_eq_composed`): the index is masked first, so that the end of a word
inside the memory is computed without a wrap.
-/
import Mathlib.Data.Nat.Log
import Remu.Lib.WideAccess
import Remu.X64.Bus

namespace Remu.X64.LinearMemory

open ByteRam

-- ======== the memory

/-- The width of a memory of `size` bytes, above the least: `size` is rounded
up to a power of two, 64 KiB at least. `none` where there is no such power. -/
def extraFor (size : U64) : Option Nat :=
  if 2 ^ 63 < size.toNat then none
    else some (Nat.clog 2 (max size.toNat (2 ^ 16)) - 16)

/-- A zero-initialized memory. -/
def withSize (size : U64) : Option (Σ extra, LinearMemory extra) :=
  (extraFor size).map fun extra => ⟨extra, ⟨fun _ => 0⟩⟩

/-- A memory has the least power of two of bytes that is enough. -/
theorem extraFor_spec {size : U64} {extra : Nat}
    (h : extraFor size = some extra) : 16 + extra ≤ 63
    ∧ size.toNat ≤ 2 ^ (16 + extra) ∧ ∀ j, max size.toNat (2 ^ 16) ≤ 2 ^ j →
      16 + extra ≤ j := by
  rw [extraFor] at h
  split at h
  · cases h
  case isFalse hsize =>
    rw [Option.some.injEq] at h
    have hlow : 16 ≤ Nat.clog 2 (max size.toNat (2 ^ 16)) := by
      rw [← Nat.clog_pow 2 16 (by decide)]
      exact Nat.clog_mono_right 2 (le_max_right _ _)
    have hwidth : 16 + extra = Nat.clog 2 (max size.toNat (2 ^ 16)) := by omega
    rw [hwidth]
    refine ⟨Nat.clog_le_of_le_pow (max_le (by omega) (by decide)), ?_,
      fun j hj => Nat.clog_le_of_le_pow hj⟩
    exact (le_max_left _ _).trans (Nat.le_pow_clog (by decide) _)

variable {extra k : Nat}

/-- `self.ram.len()`. -/
abbrev len (extra : Nat) : Nat := 2 ^ (16 + extra)

/-- `self.ram[a..a + n]`; `none` is a panic. -/
def slice (m : LinearMemory extra) (a : U64) (n : Nat) : Option (List U8) :=
  if a.toNat + n ≤ len extra
    then some ((List.range n).map fun i => m.ram (a + BitVec.ofNat 64 i)) else none

/-- The bytes from `a` on replaced. -/
def putAll (m : LinearMemory extra) (a : U64) : List U8 → LinearMemory extra
  | [] => m
  | v :: vs => putAll ⟨upd m.ram a v⟩ (a + 1) vs

/-- `self.ram[a..a + n].copy_from_slice(bs)`. -/
def copyFromSlice (m : LinearMemory extra) (a : U64) (bs : List U8) :
    Option (LinearMemory extra) :=
  if a.toNat + bs.length ≤ len extra then some (m.putAll a bs) else none

-- ======== the accessors

/-- `a + n <= self.mask`; `none` where the sum does not fit. -/
def endsInside (extra n : Nat) (a : U64) : Option Bool :=
  if 2 ^ 64 ≤ a.toNat + n then none
    else some (decide (a + BitVec.ofNat 64 n ≤ mask extra))

/-- A word of `2 * n` bytes, by `half` unless it fits. -/
def readWide (n : Nat) (fits : U64 → Option Bool)
    (half : LinearMemory extra → U64 → Option (BitVec k × LinearMemory extra))
    (m : LinearMemory extra)
    (addr : U64) : Option (BitVec (k + k) × LinearMemory extra) :=
  let a := addr &&& mask extra
  (fits a).bind fun ok =>
    if ok then (m.slice a (n + n)).map fun bs => (leWord (k + k) bs, m)
      else composedRead n half m addr

/-- A wide store: at once where it fits, by halves where it does not. -/
def writeWide (n : Nat) (fits : U64 → Option Bool)
    (half : LinearMemory extra → U64 → BitVec k → Option (LinearMemory extra))
    (m : LinearMemory extra)
    (addr : U64) (v : BitVec (k + k)) : Option (LinearMemory extra) :=
  let a := addr &&& mask extra
  (fits a).bind fun ok =>
    if ok then m.copyFromSlice a (leBytes (n + n) v.toNat)
      else composedWrite n half m addr v

-- The 16-bit accessors compare the index itself.

/-- The accessors, by width. -/
def read16 (m : LinearMemory extra) (addr : U64) :
    Option (U16 × LinearMemory extra) :=
  readWide 1 (fun a => some (decide (a < mask extra)))
    (fun m a => some (m.read a, m)) m addr

def read32 (m : LinearMemory extra) (addr : U64) :
    Option (U32 × LinearMemory extra) :=
  readWide 2 (endsInside extra 3) read16 m addr

def read64 (m : LinearMemory extra) (addr : U64) :
    Option (U64 × LinearMemory extra) :=
  readWide 4 (endsInside extra 7) read32 m addr

/-- The stores, by width. -/
def write16 (m : LinearMemory extra) (addr : U64) (v : U16) :
    Option (LinearMemory extra) :=
  writeWide 1 (fun a => some (decide (a < mask extra)))
    (fun m a v => some (m.write a v)) m addr v

def write32 (m : LinearMemory extra) (addr : U64) (v : U32) :
    Option (LinearMemory extra) :=
  writeWide 2 (endsInside extra 3) write16 m addr v

def write64 (m : LinearMemory extra) (addr : U64) (v : U64) :
    Option (LinearMemory extra) :=
  writeWide 4 (endsInside extra 7) write32 m addr v

-- ======== inside the memory

variable {m : LinearMemory extra} {addr : U64} {n : Nat}

/-- The byte accessor as it is run over a range. -/
abbrev readByte (m : LinearMemory extra) (a : U64) : U8 × LinearMemory extra :=
  (m.read a, m)

/-- The size of the memory. -/
theorem toNat_mask (h : 16 + extra ≤ 63) :
    (mask extra).toNat = len extra - 1 := by
  have hle : 2 ^ (16 + extra) ≤ 2 ^ 63 := Nat.pow_le_pow_right (by decide) h
  rw [mask, wrapMask, BitVec.toNat_ofNat, Nat.mod_eq_of_lt (by omega)]

/-- An address is taken modulo that size. -/
theorem toNat_index (h : 16 + extra ≤ 63) (addr : U64) :
    (addr &&& mask extra).toNat = addr.toNat % len extra := by
  rw [mask, toNat_and_wrapMask, Nat.min_eq_left (by omega)]

/-- The next byte of a run inside the memory. -/
theorem next_index (h : 16 + extra ≤ 63) (addr : U64)
    (hin : (addr &&& mask extra).toNat + 1 < len extra) :
    (addr + 1) &&& mask extra = (addr &&& mask extra) + 1
      ∧ ((addr + 1) &&& mask extra).toNat
        = (addr &&& mask extra).toNat + 1 := by
  have hle : len extra ≤ 2 ^ 63 := Nat.pow_le_pow_right (by decide) h
  have hdvd : len extra ∣ 2 ^ 64 :=
    Nat.pow_dvd_pow 2 (show 16 + extra ≤ 64 by omega)
  have hright :
    ((addr &&& mask extra) + 1).toNat = (addr &&& mask extra).toNat + 1 := by
    rw [BitVec.toNat_add, show (1 : U64).toNat = 1 from rfl,
      Nat.mod_eq_of_lt (hin.trans_le (hle.trans (by decide)))]
  have hleft :
    ((addr + 1) &&& mask extra).toNat = (addr &&& mask extra).toNat + 1 := by
    rw [toNat_index h] at hin ⊢
    rw [toNat_index h, BitVec.toNat_add, show (1 : U64).toNat = 1 from rfl,
      Nat.mod_mod_of_dvd _ hdvd, Nat.add_mod,
      Nat.mod_eq_of_lt (show 1 < len extra by omega), Nat.mod_eq_of_lt hin]
  exact ⟨BitVec.eq_of_toNat_eq (hleft.trans hright.symm), hleft⟩

/-- A read that does not wrap. -/
theorem readSeq_inside (h : 16 + extra ≤ 63)
    (hin : (addr &&& mask extra).toNat + n ≤ len extra) :
    readSeq readByte n m addr
      = ((List.range n).map fun i =>
        m.ram ((addr &&& mask extra) + BitVec.ofNat 64 i), m) := by
  induction n generalizing addr with
  | zero => rfl
  | succ n ih =>
    have hzero : (addr &&& mask extra) + BitVec.ofNat 64 0
      = addr &&& mask extra := BitVec.add_zero _
    rw [readSeq, List.range_succ_eq_map, List.map_cons, List.map_map, hzero]
    dsimp only [readByte, read]
    cases n with
    | zero => rfl
    | succ n =>
      obtain ⟨hnext, hidx⟩ := next_index h addr (by omega)
      rw [ih (by rw [hidx]; omega), hnext]
      refine congrArg (fun bs => (m.ram (addr &&& mask extra) :: bs, m))
        (List.map_congr_left fun i _ => ?_)
      rw [Function.comp_apply, next_addr]

/-- A store that does not wrap. -/
theorem writeSeq_inside (h : 16 + extra ≤ 63) {bs : List U8}
    (hin : (addr &&& mask extra).toNat + bs.length ≤ len extra) :
    writeSeq write bs m addr = m.putAll (addr &&& mask extra) bs := by
  induction bs generalizing m addr with
  | nil => rfl
  | cons v vs ih =>
    rw [writeSeq, putAll, write]
    cases vs with
    | nil => rfl
    | cons v' vs =>
      rw [List.length_cons, List.length_cons] at hin
      obtain ⟨hnext, hidx⟩ := next_index h addr (by omega)
      rw [ih (by rw [hidx, List.length_cons]; omega), hnext]

-- ======== the tests

/-- A test sends just the words that end inside the memory to the slice. -/
def Tests (extra n : Nat) (fits : U64 → Option Bool) : Prop :=
  ∀ a : U64, a.toNat < len extra →
    fits a = some (decide (a.toNat + n ≤ len extra))

/-- The tests the accessors make say whether the word wraps. -/
theorem tests_lt (h : 16 + extra ≤ 63) :
    Tests extra 2 fun a => some (decide (a < mask extra)) := by
  intro a _
  have hpos := Nat.two_pow_pos (16 + extra)
  rw [Option.some.injEq, decide_eq_decide, BitVec.lt_def, toNat_mask h]
  omega

theorem tests_endsInside (h : 16 + extra ≤ 63) {n : Nat} (hn : n < 2 ^ 16) :
    Tests extra (n + 1) (endsInside extra n) := by
  intro a ha
  have hle : len extra ≤ 2 ^ 63 := Nat.pow_le_pow_right (by decide) h
  have hpos := Nat.two_pow_pos (16 + extra)
  rw [endsInside, if_neg (by omega), Option.some.injEq, decide_eq_decide,
    BitVec.le_def, toNat_mask h, BitVec.toNat_add, BitVec.toNat_ofNat,
    Nat.mod_eq_of_lt (show n < 2 ^ 64 by omega), Nat.mod_eq_of_lt (by omega)]
  omega

-- ======== the words

/-- A wide read is right where its halves are. -/
theorem readWide_right (h : 16 + extra ≤ 63) {fits : U64 → Option Bool}
    (hfits : Tests extra (n + n) fits)
    {half : LinearMemory extra → U64 → Option (BitVec k × LinearMemory extra)}
    (hk : 8 * n = k)
    (hhalf : ReadsWord readByte n k half) :
    ReadsWord readByte (n + n) (k + k) (readWide n fits half) := by
  intro m addr
  have hlt : (addr &&& mask extra).toNat < len extra := by
    rw [toNat_index h]
    exact Nat.mod_lt _ (Nat.two_pow_pos _)
  rw [readWide, hfits _ hlt, Option.bind_some]
  by_cases hin : (addr &&& mask extra).toNat + (n + n) ≤ len extra
  · rw [if_pos (decide_eq_true hin), slice, if_pos hin, Option.map_some,
      readSeq_inside h hin]
  · rw [decide_eq_false hin, if_neg Bool.false_ne_true]
    exact hhalf.halves hk m addr

/-- A wide store is right where its halves are. -/
theorem writeWide_right (h : 16 + extra ≤ 63) {fits : U64 → Option Bool}
    (hfits : Tests extra (n + n) fits)
    {half : LinearMemory extra → U64 → BitVec k → Option (LinearMemory extra)}
    (hk : 8 * n = k)
    (hhalf : WritesWord write n k half) :
    WritesWord write (n + n) (k + k) (writeWide n fits half) := by
  intro m addr v
  have hlt : (addr &&& mask extra).toNat < len extra := by
    rw [toNat_index h]
    exact Nat.mod_lt _ (Nat.two_pow_pos _)
  rw [writeWide, hfits _ hlt, Option.bind_some]
  by_cases hin : (addr &&& mask extra).toNat + (n + n) ≤ len extra
  · have hbs : (addr &&& mask extra).toNat + (leBytes (n + n) v.toNat).length
      ≤ len extra := by
      rw [length_leBytes]
      exact hin
    rw [if_pos (decide_eq_true hin), copyFromSlice, if_pos hbs,
      writeSeq_inside h hbs]
  · rw [decide_eq_false hin, if_neg Bool.false_ne_true]
    exact hhalf.halves hk m addr v

variable (h : 16 + extra ≤ 63)
include h

/-- Each accessor reads or writes the bytes it stands for. -/
theorem read16_right :
    ReadsWord readByte 2 16 fun (m : LinearMemory extra) a => m.read16 a :=
  readWide_right h (tests_lt h) rfl .byte

theorem read32_right :
    ReadsWord readByte 4 32 fun (m : LinearMemory extra) a => m.read32 a :=
  readWide_right (n := 2) h (tests_endsInside h (by decide))
    rfl (read16_right h)

theorem read64_right :
    ReadsWord readByte 8 64 fun (m : LinearMemory extra) a => m.read64 a :=
  readWide_right (n := 4) h (tests_endsInside h (by decide))
    rfl (read32_right h)

theorem write16_right :
    WritesWord write 2 16 fun (m : LinearMemory extra) a v => m.write16 a v :=
  writeWide_right h (tests_lt h) rfl .byte

theorem write32_right :
    WritesWord write 4 32 fun (m : LinearMemory extra) a v => m.write32 a v :=
  writeWide_right (n := 2) h (tests_endsInside h (by decide))
    rfl (write16_right h)

theorem write64_right :
    WritesWord write 8 64 fun (m : LinearMemory extra) a v => m.write64 a v :=
  writeWide_right (n := 4) h (tests_endsInside h (by decide))
    rfl (write32_right h)

omit h

-- The composed accessors of the bus trait.

/-- Each bus method reads or writes the bytes it stands for. -/
theorem busRead16_right :
    ReadsWord readByte 2 16 fun (m : LinearMemory extra) a =>
    some (Bus.read16 m a) :=
  ReadsWord.halves rfl .byte

theorem busRead32_right :
    ReadsWord readByte 4 32 fun (m : LinearMemory extra) a =>
    some (Bus.read32 m a) :=
  ReadsWord.halves rfl busRead16_right

theorem busRead64_right :
    ReadsWord readByte 8 64 fun (m : LinearMemory extra) a =>
    some (Bus.read64 m a) :=
  ReadsWord.halves rfl busRead32_right

theorem busWrite16_right :
    WritesWord write 2 16 fun (m : LinearMemory extra) a v =>
      some (Bus.write16 m a v) :=
  WritesWord.halves rfl .byte

theorem busWrite32_right :
    WritesWord write 4 32 fun (m : LinearMemory extra) a v =>
      some (Bus.write32 m a v) :=
  WritesWord.halves rfl busWrite16_right

theorem busWrite64_right :
    WritesWord write 8 64 fun (m : LinearMemory extra) a v =>
      some (Bus.write64 m a v) :=
  WritesWord.halves rfl busWrite32_right

-- ======== the law

/-- In a memory of any size, with any content, the accessors of their own do
what the composed ones do. -/
theorem wide_eq_composed {size : U64} {p : Σ extra, LinearMemory extra}
    (hsize : withSize size = some p) (m : LinearMemory p.1) (addr : U64) :
    m.read16 addr = some (Bus.read16 m addr)
      ∧ m.read32 addr = some (Bus.read32 m addr)
      ∧ m.read64 addr = some (Bus.read64 m addr)
      ∧ (∀ v, m.write16 addr v = some (Bus.write16 m addr v))
      ∧ (∀ v, m.write32 addr v = some (Bus.write32 m addr v))
      ∧ ∀ v, m.write64 addr v = some (Bus.write64 m addr v) := by
  rw [withSize, Option.map_eq_some_iff] at hsize
  obtain ⟨extra, hextra, rfl⟩ := hsize
  have h := (extraFor_spec hextra).1
  exact ⟨(read16_right h m addr).trans (busRead16_right m addr).symm,
    (read32_right h m addr).trans (busRead32_right m addr).symm,
    (read64_right h m addr).trans (busRead64_right m addr).symm,
    fun v => (write16_right h m addr v).trans (busWrite16_right m addr v).symm,
    fun v => (write32_right h m addr v).trans (busWrite32_right m addr v).symm,
    fun v => (write64_right h m addr v).trans (busWrite64_right m addr v).symm⟩

/-- 64 KiB, and a quad word across its end and across the end of the address
space. -/
theorem wide_eq_composed_wrapping :
    ∃ p, withSize 0x10000 = some p ∧ ∀ m : LinearMemory p.1,
    m.read64 0xFFFC = some (Bus.read64 m 0xFFFC)
      ∧ m.read64 0xFFFFFFFFFFFFFFFC
        = some (Bus.read64 m 0xFFFFFFFFFFFFFFFC) := by
  have hsize : withSize 0x10000
      = some ⟨Nat.clog 2 (max (0x10000 : U64).toNat (2 ^ 16)) - 16,
        ⟨fun _ => 0⟩⟩ := by
    rw [withSize, extraFor, if_neg (by decide)]
    rfl
  exact ⟨_, hsize,
    fun m => ⟨(wide_eq_composed hsize m _).2.2.1,
    (wide_eq_composed hsize m _).2.2.1⟩⟩

end Remu.X64.LinearMemory
