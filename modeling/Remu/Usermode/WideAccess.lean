/-
The wide accessors of the address space.

Inside a chunk a word is one slice of it; across a chunk boundary it is two
accesses of half its width, down to bytes. Either way it is what the byte
accessors do in ascending order, the latch included (`wide_by_bytes`): of a
run over unmapped bytes the first one stays latched.
-/
import Remu.Lib.WideAccess
import Remu.Usermode.AddrSpace

namespace Remu.Usermode

-- ======== slices

/-- `c[off..off + n]`; `none` is a panic. -/
def Chunk.slice (c : Chunk) (off n : Nat) : Option (List U8) :=
  if off + n ≤ CHUNK_SIZE
    then some ((List.range n).map fun i => c (off + i)) else none

/-- The bytes from `off` on replaced. -/
def Chunk.putAll (c : Chunk) (off : Nat) : List U8 → Chunk
  | [] => c
  | v :: vs => Chunk.putAll (upd c off v) (off + 1) vs

/-- `c[off..off + n].copy_from_slice(bs)`. -/
def Chunk.copyFromSlice (c : Chunk) (off : Nat) (bs : List U8) :
    Option Chunk :=
  if off + bs.length ≤ CHUNK_SIZE then some (c.putAll off bs) else none

namespace AddressSpace

-- ======== accessors

variable {k : Nat}

/-- A word of `2 * n` bytes, by `half` where it straddles two chunks. -/
def readWide (n : Nat)
    (half : AddressSpace → U32 → Option (BitVec k × AddressSpace))
    (m : AddressSpace) (addr : U32) : Option (BitVec (k + k) × AddressSpace) :=
  let off := addr.toNat % CHUNK_SIZE
  if off ≤ CHUNK_SIZE - (n + n) then
    match m.chunks (addr.toNat / CHUNK_SIZE) with
    | some c => (c.slice off (n + n)).map fun bs => (leWord (k + k) bs, m)
    | none => some (0, m.noteSegv addr false)
  else composedRead n half m addr

/-- Writes the low half, then the high half. -/
def writeWide (n : Nat)
    (half : AddressSpace → U32 → BitVec k → Option AddressSpace)
    (m : AddressSpace)
    (addr : U32) (v : BitVec (k + k)) : Option AddressSpace :=
  let off := addr.toNat % CHUNK_SIZE
  if off ≤ CHUNK_SIZE - (n + n) then
    match m.chunks (addr.toNat / CHUNK_SIZE) with
    | some c => (c.copyFromSlice off (leBytes (n + n) v.toNat)).map fun c =>
        { m with chunks := upd m.chunks (addr.toNat / CHUNK_SIZE) (some c) }
    | none => some (m.noteSegv addr true)
  else composedWrite n half m addr v

/-- Two byte reads. -/
def read16 (m : AddressSpace) (addr : U32) : Option (U16 × AddressSpace) :=
  readWide 1 (fun m a => some (m.read8 a)) m addr

/-- Two word reads. -/
def read32 (m : AddressSpace) (addr : U32) : Option (U32 × AddressSpace) :=
  readWide 2 read16 m addr

/-- Two byte writes. -/
def write16 (m : AddressSpace) (addr : U32) (v : U16) : Option AddressSpace :=
  writeWide 1 (fun m a v => some (m.write8 a v)) m addr v

/-- Two word writes. -/
def write32 (m : AddressSpace) (addr : U32) (v : U32) : Option AddressSpace :=
  writeWide 2 write16 m addr v

-- ======== inside a chunk

variable {m : AddressSpace} {addr : U32} {n : Nat}

/-- The next byte of a run inside a chunk. -/
theorem next_offset (addr : U32)
    (h : addr.toNat % CHUNK_SIZE + 1 < CHUNK_SIZE) :
    (addr + 1).toNat / CHUNK_SIZE = addr.toNat / CHUNK_SIZE
      ∧ (addr + 1).toNat % CHUNK_SIZE = addr.toNat % CHUNK_SIZE + 1 := by
  have hlt := addr.isLt
  unfold CHUNK_SIZE at h ⊢
  have hnext : (addr + 1).toNat = addr.toNat + 1 := by
    rw [BitVec.toNat_add, show (1 : U32).toNat = 1 from rfl,
      Nat.mod_eq_of_lt (by omega)]
  omega

/-- Bytes within a mapped chunk are read from it. -/
theorem readSeq_mapped {c : Chunk}
    (hc : m.chunks (addr.toNat / CHUNK_SIZE) = some c)
    (h : addr.toNat % CHUNK_SIZE + n ≤ CHUNK_SIZE) :
    readSeq read8 n m addr
      = ((List.range n).map fun i => c (addr.toNat % CHUNK_SIZE + i), m) := by
  induction n generalizing addr with
  | zero => rfl
  | succ n ih =>
    have hread : m.read8 addr = (c (addr.toNat % CHUNK_SIZE), m) := by
      rw [read8, byte?, hc, Option.map_some]
    rw [readSeq, hread, List.range_succ_eq_map, List.map_cons, List.map_map]
    dsimp only
    cases n with
    | zero => rfl
    | succ n =>
      obtain ⟨hchunk, hoff⟩ := next_offset addr (by omega)
      rw [ih (by rw [hchunk]; exact hc) (by omega), hoff]
      refine congrArg (fun bs => (c (addr.toNat % CHUNK_SIZE + 0) :: bs, m))
        (List.map_congr_left fun i _ => ?_)
      rw [Function.comp_apply, Nat.add_assoc, Nat.add_comm 1 i]

/-- A latch that holds an access keeps it. -/
theorem noteSegv_latched (h : m.segv.isSome) (a : U32) (write : Bool) :
    m.noteSegv a write = m := by
  obtain ⟨sg, hs⟩ := Option.isSome_iff_exists.1 h
  rw [noteSegv, hs, Option.some_or, ← hs]

/-- A fault leaves the latch set. -/
theorem isSome_noteSegv (m : AddressSpace) (a : U32) (write : Bool) :
    (m.noteSegv a write).segv.isSome := by
  rw [noteSegv]
  cases m.segv <;> rfl

/-- Past the first byte of an unmapped run nothing changes. -/
theorem readSeq_latched (hl : m.segv.isSome)
    (hc : m.chunks (addr.toNat / CHUNK_SIZE) = none)
    (h : addr.toNat % CHUNK_SIZE + n ≤ CHUNK_SIZE) :
    readSeq read8 n m addr = (List.replicate n 0, m) := by
  induction n generalizing addr with
  | zero => rfl
  | succ n ih =>
    have hread : m.read8 addr = (0, m) := by
      rw [read8, byte?, hc, Option.map_none]
      dsimp only
      rw [noteSegv_latched hl]
    rw [readSeq, hread, List.replicate_succ]
    dsimp only
    cases n with
    | zero => rfl
    | succ n =>
      obtain ⟨hchunk, hoff⟩ := next_offset addr (by omega)
      rw [ih (by rw [hchunk]; exact hc) (by omega)]

/-- Bytes within an unmapped chunk read as zero, and the first one faults. -/
theorem readSeq_unmapped (hc : m.chunks (addr.toNat / CHUNK_SIZE) = none)
    (h : addr.toNat % CHUNK_SIZE + (n + 1) ≤ CHUNK_SIZE) :
    readSeq read8 (n + 1) m addr
      = (List.replicate (n + 1) 0, m.noteSegv addr false) := by
  have hread : m.read8 addr = (0, m.noteSegv addr false) := by
    rw [read8, byte?, hc, Option.map_none]
  rw [readSeq, hread, List.replicate_succ]
  dsimp only
  cases n with
  | zero => rfl
  | succ n =>
    obtain ⟨hchunk, hoff⟩ := next_offset addr (by omega)
    rw [readSeq_latched (isSome_noteSegv m addr false)
      (by rw [hchunk]; exact hc) (by omega)]

/-- Bytes within a mapped chunk are stored to it. -/
theorem writeSeq_mapped {c : Chunk} {bs : List U8}
    (hc : m.chunks (addr.toNat / CHUNK_SIZE) = some c)
    (h : addr.toNat % CHUNK_SIZE + bs.length ≤ CHUNK_SIZE) :
    writeSeq write8 bs m addr = { m with
      chunks := upd m.chunks (addr.toNat / CHUNK_SIZE)
        (some (c.putAll (addr.toNat % CHUNK_SIZE) bs)) } := by
  induction bs generalizing m addr c with
  | nil =>
    have hsame :
      upd m.chunks (addr.toNat / CHUNK_SIZE) (some c) = m.chunks := by
      rw [upd_eq_update, ← hc, Function.update_eq_self]
    rw [writeSeq, Chunk.putAll, hsame]
  | cons v vs ih =>
    have hwrite :
      m.write8 addr v = m.putByte addr.toNat c v := by rw [write8, hc]
    rw [writeSeq, hwrite, Chunk.putAll]
    cases vs with
    | nil => rfl
    | cons v' vs =>
      rw [List.length_cons, List.length_cons] at h
      obtain ⟨hchunk, hoff⟩ := next_offset addr (by omega)
      have hc' : (m.putByte addr.toNat c v).chunks
          ((addr + 1).toNat / CHUNK_SIZE)
          = some (upd c (addr.toNat % CHUNK_SIZE) v) := by
        rw [hchunk]
        exact upd_same _ _ _
      rw [ih hc' (by rw [hoff, List.length_cons]; omega), hchunk, hoff]
      simp only [putByte, upd_eq_update, Function.update_idem, Chunk.putAll]

/-- A fault after the first is not recorded. -/
theorem writeSeq_latched {bs : List U8} (hl : m.segv.isSome)
    (hc : m.chunks (addr.toNat / CHUNK_SIZE) = none)
    (h : addr.toNat % CHUNK_SIZE + bs.length ≤ CHUNK_SIZE) :
    writeSeq write8 bs m addr = m := by
  induction bs generalizing addr with
  | nil => rfl
  | cons v vs ih =>
    have hwrite : m.write8 addr v = m := by
      rw [write8, hc]
      exact noteSegv_latched hl addr true
    rw [writeSeq, hwrite]
    cases vs with
    | nil => rfl
    | cons v' vs =>
      rw [List.length_cons, List.length_cons] at h
      obtain ⟨hchunk, hoff⟩ := next_offset addr (by omega)
      exact ih (by rw [hchunk]; exact hc)
        (by rw [hoff, List.length_cons]; omega)

/-- Within an unmapped chunk nothing is stored, and the first byte faults. -/
theorem writeSeq_unmapped {v : U8} {vs : List U8}
    (hc : m.chunks (addr.toNat / CHUNK_SIZE) = none)
    (h : addr.toNat % CHUNK_SIZE + (vs.length + 1) ≤ CHUNK_SIZE) :
    writeSeq write8 (v :: vs) m addr = m.noteSegv addr true := by
  have hwrite : m.write8 addr v = m.noteSegv addr true := by rw [write8, hc]
  rw [writeSeq, hwrite]
  cases vs with
  | nil => rfl
  | cons v' vs =>
    rw [List.length_cons] at h
    obtain ⟨hchunk, hoff⟩ := next_offset addr (by omega)
    exact writeSeq_latched (isSome_noteSegv m addr true)
      (by rw [hchunk]; exact hc) (by rw [hoff, List.length_cons]; omega)

-- ======== the words

/-- Zero bytes make zero. -/
theorem leNat_zeros (n : Nat) : leNat (List.replicate n 0) = 0 := by
  induction n with
  | zero => rfl
  | succ n ih => rw [List.replicate_succ, leNat_cons, ih]; rfl

/-- The fast path of a read is right, and so is the fallback. -/
theorem readWide_right
    {half : AddressSpace → U32 → Option (BitVec k × AddressSpace)} (hn : 0 < n)
    (hsmall : n + n ≤ CHUNK_SIZE) (hk : 8 * n = k)
    (h : ReadsWord read8 n k half) :
    ReadsWord read8 (n + n) (k + k) (readWide n half) := by
  intro m addr
  rw [readWide]
  split
  case isTrue hoff =>
    have hin : addr.toNat % CHUNK_SIZE + (n + n) ≤ CHUNK_SIZE := by omega
    cases hc : m.chunks (addr.toNat / CHUNK_SIZE) with
    | some c =>
      dsimp only
      rw [readSeq_mapped hc hin, Chunk.slice, if_pos hin, Option.map_some]
    | none =>
      obtain ⟨j, hj⟩ := Nat.exists_eq_add_of_le' (show 1 ≤ n + n by omega)
      rw [hj] at hin ⊢
      rw [readSeq_unmapped hc hin, leWord, leNat_zeros]
      rfl
  case isFalse => exact h.halves hk m addr

/-- A wide write made of two right halves is right. -/
theorem writeWide_right
    {half : AddressSpace → U32 → BitVec k → Option AddressSpace} (hn : 0 < n)
    (hsmall : n + n ≤ CHUNK_SIZE) (hk : 8 * n = k)
    (h : WritesWord write8 n k half) :
    WritesWord write8 (n + n) (k + k) (writeWide n half) := by
  intro m addr v
  rw [writeWide]
  split
  case isTrue hoff =>
    have hin : addr.toNat % CHUNK_SIZE + (leBytes (n + n) v.toNat).length
      ≤ CHUNK_SIZE := by
      rw [length_leBytes]
      omega
    cases hc : m.chunks (addr.toNat / CHUNK_SIZE) with
    | some c =>
      dsimp only
      rw [writeSeq_mapped hc hin, Chunk.copyFromSlice, if_pos hin,
        Option.map_some]
    | none =>
      cases hbs : leBytes (n + n) v.toNat with
      | nil =>
        have hlen := congrArg List.length hbs
        rw [length_leBytes, List.length_nil] at hlen
        omega
      | cons b bs =>
        rw [hbs, List.length_cons] at hin
        rw [writeSeq_unmapped hc hin]
  case isFalse => exact h.halves hk m addr v

/-- A word is read byte by byte. -/
theorem read16_right : ReadsWord read8 2 16 read16 :=
  readWide_right Nat.one_pos (by decide) rfl .byte

/-- A double word is read byte by byte. -/
theorem read32_right : ReadsWord read8 4 32 read32 :=
  readWide_right (n := 2) (k := 16) (by decide) (by decide) rfl read16_right

/-- A word is written byte by byte. -/
theorem write16_right : WritesWord write8 2 16 write16 :=
  writeWide_right Nat.one_pos (by decide) rfl .byte

/-- A double word is written byte by byte. -/
theorem write32_right : WritesWord write8 4 32 write32 :=
  writeWide_right (n := 2) (k := 16) (by decide) (by decide) rfl write16_right

-- ======== the latch

/-- Reading a mapped byte changes nothing. -/
theorem read8_mapped (h : m.isMapped addr) : (m.read8 addr).2 = m := by
  rw [isMapped, Option.isSome_iff_exists] at h
  obtain ⟨c, hc⟩ := h
  rw [read8, byte?, hc, Option.map_some]

/-- Mapped bytes are read without a trace. -/
theorem readSeq_isMapped (h : ∀ i < n, m.isMapped (addr + BitVec.ofNat 32 i)) :
    (readSeq read8 n m addr).2 = m := by
  induction n generalizing addr with
  | zero => rfl
  | succ n ih =>
    have hfirst : m.isMapped (addr + BitVec.ofNat 32 0) := h 0 (Nat.succ_pos n)
    rw [show addr + BitVec.ofNat 32 0 = addr from BitVec.add_zero addr] at hfirst
    rw [readSeq, read8_mapped hfirst]
    refine ih fun i hi => ?_
    rw [next_addr]
    exact h (i + 1) (Nat.succ_lt_succ hi)

/-- Writing a mapped byte does not fault and unmaps nothing. -/
theorem write8_mapped (h : m.isMapped addr) (v : U8) :
    (m.write8 addr v).segv = m.segv ∧ ∀ a,
      m.isMapped a → (m.write8 addr v).isMapped a := by
  rw [isMapped, Option.isSome_iff_exists] at h
  obtain ⟨c, hc⟩ := h
  rw [write8, hc]
  refine ⟨rfl, fun a ha => ?_⟩
  dsimp only [putByte, isMapped, upd]
  split
  · rfl
  · exact ha

/-- Writing mapped bytes does not fault. -/
theorem writeSeq_isMapped {bs : List U8}
    (h : ∀ i < bs.length, m.isMapped (addr + BitVec.ofNat 32 i)) :
    (writeSeq write8 bs m addr).segv = m.segv := by
  induction bs generalizing m addr with
  | nil => rfl
  | cons v vs ih =>
    have hfirst : m.isMapped (addr + BitVec.ofNat 32 0) := h 0 (Nat.succ_pos _)
    rw [show addr + BitVec.ofNat 32 0 = addr from BitVec.add_zero addr] at hfirst
    obtain ⟨hsegv, hkeeps⟩ := write8_mapped hfirst v
    rw [writeSeq, ih fun i hi => ?_, hsegv]
    refine hkeeps _ ?_
    rw [next_addr]
    exact h (i + 1) (Nat.succ_lt_succ hi)

-- ======== the law

/-- A word is its bytes in ascending order, the latch with it; and a word of
mapped bytes leaves the latch. -/
theorem wide_by_bytes (m : AddressSpace) (addr : U32) :
    (m.read16 addr
      = some (leWord 16 (readSeq read8 2 m addr).1, (readSeq read8 2 m addr).2)
      ∧ m.read32 addr = some (leWord 32 (readSeq read8 4 m addr).1,
        (readSeq read8 4 m addr).2)
      ∧ (∀ v, m.write16 addr v
        = some (writeSeq write8 (leBytes 2 v.toNat) m addr))
      ∧ ∀ v, m.write32 addr v
        = some (writeSeq write8 (leBytes 4 v.toNat) m addr))
    ∧ ((∀ i < 2, m.isMapped (addr + BitVec.ofNat 32 i)) →
      (∀ r, m.read16 addr = some r → r.2.segv = m.segv)
        ∧ ∀ v m', m.write16 addr v = some m' → m'.segv = m.segv)
    ∧ ((∀ i < 4, m.isMapped (addr + BitVec.ofNat 32 i)) →
      (∀ r, m.read32 addr = some r → r.2.segv = m.segv)
        ∧ ∀ v m', m.write32 addr v = some m' → m'.segv = m.segv) := by
  refine ⟨⟨read16_right m addr, read32_right m addr, write16_right m addr, write32_right m addr⟩,
    fun hmapped => ⟨fun r hr => ?_, fun v m' hm => ?_⟩,
      fun hmapped => ⟨fun r hr => ?_, fun v m' hm => ?_⟩⟩
  · rw [read16_right, Option.some.injEq] at hr
    rw [← hr, readSeq_isMapped hmapped]
  · rw [write16_right, Option.some.injEq] at hm
    rw [← hm, writeSeq_isMapped (by rw [length_leBytes]; exact hmapped)]
  · rw [read32_right, Option.some.injEq] at hr
    rw [← hr, readSeq_isMapped hmapped]
  · rw [write32_right, Option.some.injEq] at hm
    rw [← hm, writeSeq_isMapped (by rw [length_leBytes]; exact hmapped)]

/-- Two chunks, and a double word across them. -/
theorem wide_by_bytes_straddling :
    ∃ r, (AddressSpace.new.map 0x10000 0x20000).read32 0x1FFFE = some r
      ∧ r.1 = 0 ∧ r.2.segv = none := by
  have h := wide_by_bytes (AddressSpace.new.map 0x10000 0x20000) 0x1FFFE
  exact ⟨_, h.1.2.1, by decide, (h.2.2 (by decide)).1 _ h.1.2.1⟩

end AddressSpace

end Remu.Usermode
