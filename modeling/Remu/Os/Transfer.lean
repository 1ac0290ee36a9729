/-
Chunked transfers, and what they do.

`transfer_read` and `transfer_write` are one text in the i386 and the x86-64
layer, in the width of the machine; the loops over an `iovec` array differ
in how an entry is fetched. A call is `none` where the source panics: at a
sum that does not fit, or a count past the end of the chunk's buffer.

While the bytes the file delivers find their addresses mapped, a transfer
into memory is one copy of them in order, and the file has moved past just
these (`transferReadLoop_mapped`); a chunk that meets an unmapped page has
been taken from the file and is not counted (`transferReadLoop_unmapped`). A
transfer out of memory has always written what it counts
(`transferWriteLoop_spec`). The loops over an array put such steps together
(`iovLoop_read_mapped`, `iovLoop_write_spec`).
-/
import Remu.Lib.ByteWords
import Remu.Lib.Port
import Remu.Os.Bytes
import Remu.Os.VfsIo

namespace Remu.Os

open ByteRam EntryWidth FrameTree Word

variable {w : Nat} [EntryWidth w] {σ : Type}

/-- Bytes moved per host-side buffer chunk. -/
abbrev XFER_CHUNK : Nat := 64 * 1024

/-- A count that was moved, or else the error. -/
def countOr (total error : Int) : Int := if 0 < total then total else error

namespace AddressSpace

variable (L : Layout w) (port : Port σ)

-- ======== one buffer

/-- `while left > 0` of `transfer_read`. -/
def transferReadLoop (lin : BitVec w) (total : Int) (off left : Nat)
    (a : AddressSpace w) (s : σ) :
    Option (Int × AddressSpace w × σ) :=
  if 0 < left then
    match port.read (min left XFER_CHUNK) s with
    | none => none
    | some ((got, bytes), s) =>
      if got < 0 then some (countOr total got, a, s)
      else if got = 0 then some (total, a, s)
      else if min left XFER_CHUNK < got.toNat
        ∨ 2 ^ w ≤ lin.toNat + off then none
      else
        match a.writeBytes L (lin + BitVec.ofNat w off) bytes with
        | (false, a) => some (countOr total (-EFAULT), a, s)
        | (true, a) =>
          if 2 ^ (w - 1) ≤ total + got then none
          else if got.toNat < min left XFER_CHUNK then some (total + got, a, s)
          else transferReadLoop lin (total + got) (off + got.toNat)
            (left - got.toNat) a s
  else some (total, a, s)
termination_by left
decreasing_by omega

/-- Copy up to `len` bytes from the file into guest memory at `lin`, in
bounded chunks. -/
def transferRead (lin : BitVec w) (len : Nat) (a : AddressSpace w) (s : σ) :
    Option (Int × AddressSpace w × σ) :=
      transferReadLoop L port lin 0 0 len a s

/-- `while left > 0` of `transfer_write`. -/
def transferWriteLoop (a : AddressSpace w) (lin : BitVec w) (total : Int)
    (off left : Nat) (s : σ) :
    Option (Int × σ) :=
  if 0 < left then
    if 2 ^ w ≤ lin.toNat + off then none
    else
      match a.readBytes L (lin + BitVec.ofNat w off) (min left XFER_CHUNK) with
      | none => some (countOr total (-EFAULT), s)
      | some buf =>
        let (n, s) := port.write buf s
        if n < 0 then some (countOr total n, s)
        else if 2 ^ (w - 1) ≤ total + n ∨ left < n.toNat then none
        else if n.toNat < min left XFER_CHUNK then some (total + n, s)
        else transferWriteLoop a lin (total + n) (off + n.toNat)
          (left - n.toNat) s
  else some (total, s)
termination_by left
decreasing_by
  have hchunk : XFER_CHUNK = 65536 := rfl
  omega

/-- Copy up to `len` bytes from guest memory at `lin` to the file, in bounded
chunks. -/
def transferWrite (a : AddressSpace w) (lin : BitVec w) (len : Nat) (s : σ) :
    Option (Int × σ) :=
  transferWriteLoop L port a lin 0 0 len s

-- ======== the arrays

/-- A little-endian word of the guest. -/
def gWord (a : AddressSpace w) (x : BitVec w) : Option (BitVec w) :=
  (a.readBytes L x (bytes w)).map fun bs => BitVec.ofNat w (leNat bs)

/-- `k` more entries of an array, from entry `i` on. `fetch` is a panic, an
entry that cannot be read, or its address and length. -/
def iovLoop (fetch : AddressSpace w → Nat →
    Option (Option (BitVec w × BitVec w)))
    (xfer : BitVec w → Nat → AddressSpace w → σ →
      Option (Int × AddressSpace w × σ)) :
    Nat → Nat → Int → AddressSpace w → σ → Option (Int × AddressSpace w × σ)
  | 0, _, total, a, s => some (total, a, s)
  | k + 1, i, total, a, s =>
    match fetch a i with
    | none => none
    | some none => some (countOr total (-EFAULT), a, s)
    | some (some (ptr, len)) =>
      if len = 0 then iovLoop fetch xfer k (i + 1) total a s
      else
        match xfer ptr len.toNat a s with
        | none => none
        | some (n, a, s) =>
          if n < 0 then some (countOr total n, a, s)
          else if 2 ^ (w - 1) ≤ total + n then none
          else if n.toNat < len.toNat then some (total + n, a, s)
          else iovLoop fetch xfer k (i + 1) (total + n) a s

/-- A write as a step of the loop. -/
def writeXfer (lin : BitVec w) (len : Nat) (a : AddressSpace w) (s : σ) :
    Option (Int × AddressSpace w × σ) :=
      (transferWrite L port a lin len s).map fun r => (r.1, a, r.2)

end AddressSpace

open AddressSpace

-- ======== the x86-64 layer

/-- Entry `i` of the array of `sys_iov`: 16 bytes, `{ base: u64, len: u64 }`. -/
def fetch64 (iov : U64) (a : AddressSpace 64) (i : Nat) :
    Option (Option (U64 × U64)) :=
  let ent := iov + BitVec.ofNat 64 (i * 16)
  if 2 ^ 64 ≤ ent.toNat + 8 then none
  else some ((a.gWord Layout.os64 ent).bind fun ptr =>
    (a.gWord Layout.os64 (ent + 8)).map fun len => (ptr, len))

/-- Entry `i` of the array of `sys_writev`: 8 bytes, an address and a
length. -/
def fetch32 (iov : U32) (a : AddressSpace 32) (i : Nat) :
    Option (Option (U32 × U32)) :=
  if 2 ^ 32 ≤ i * 8 ∨ 2 ^ 32 ≤ iov.toNat + i * 8 then none
  else
    let base := iov + BitVec.ofNat 32 (i * 8)
    match a.gWord Layout.os base with
    | none => some none
    | some ptr =>
      if 2 ^ 32 ≤ base.toNat + 4 then none
      else some ((a.gWord Layout.os (base + 4)).map fun len => (ptr, len))

/-- `writev` of the i386 layer. -/
def sysWritev (port : Port σ) (iov cnt : U32) (a : AddressSpace 32) (s : σ) :
    Option (Int × AddressSpace 32 × σ) :=
  iovLoop (fetch32 iov) (writeXfer Layout.os port) cnt.toNat 0 0 a s

-- ======== what they do

variable {L : Layout w} {port : Port σ} {view : FileView σ}

namespace AddressSpace

variable {a a' : AddressSpace w} {s s' : σ}

-- ======== counts

/-- `ret` counts `n` bytes, or is the error of a call that moved none. -/
def Counts (ret : Int) (n : Nat) : Prop := ret = n ∨ (n = 0 ∧ ret < 0)

/-- A negative error reports no bytes; else the total is reported. -/
theorem counts_countOr (total : Nat) {error : Int} (h : error < 0) :
    Counts (countOr total error) total := by
  rw [countOr]
  split
  · exact .inl rfl
  · exact .inr ⟨by omega, h⟩

/-- EFAULT is below every count. -/
theorem not_efault_nonneg : (-EFAULT : Int) < 0 := by decide

omit [EntryWidth w] in
/-- Data no longer than the places is placed among the first of them. -/
theorem zip_append_left {α β : Type} {xs ys : List α} {data : List β}
    (h : data.length ≤ xs.length) :
    (xs ++ ys).zip data = xs.zip data := by
  induction xs generalizing data with
  | nil =>
    rw [List.length_nil, Nat.le_zero, List.length_eq_zero_iff] at h
    rw [h, List.zip_nil_right, List.zip_nil_right]
  | cons x xs ih =>
    cases data with
    | nil => rw [List.zip_nil_right, List.zip_nil_right]
    | cons v vs =>
      rw [List.cons_append, List.zip_cons_cons, List.zip_cons_cons,
        ih (Nat.le_of_succ_le_succ h)]

omit [EntryWidth w] in
/-- Offsets add up. -/
theorem add_bytes (lin : BitVec w) (off n : Nat) :
    lin + BitVec.ofNat w off + BitVec.ofNat w n
      = lin + BitVec.ofNat w (off + n) := by
  rw [BitVec.add_assoc, ← BitVec.ofNat_add]

-- ======== into memory

/-- A run of bytes is mapped when both its parts are. -/
theorem allMapped_bytesFrom_add {lin : BitVec w} {m n : Nat} :
    a.AllMapped L (bytesFrom lin (m + n))
    ↔ a.AllMapped L (bytesFrom lin m)
      ∧ a.AllMapped L (bytesFrom (lin + BitVec.ofNat w m) n) := by
  rw [bytesFrom_add, AllMapped.append]

/-- A copy into memory is complete exactly when all its bytes are mapped. -/
theorem writeBytes_done (hs : a.Sound L) (lin : BitVec w) (data : List U8) :
    (a.writeBytes L lin data).1 = true
      ↔ a.AllMapped L (bytesFrom lin data.length) := by
  rw [writeBytes_eq_place hs, place_done_iff hs,
    List.map_fst_zip (length_bytesFrom lin data.length).le]

/-- It does not touch the page tables. -/
theorem sameTables_writeBytes (hs : a.Sound L)
    (lin : BitVec w) (data : List U8) :
    SameTables L a (a.writeBytes L lin data).2 := by
  rw [writeBytes_eq_place hs]
  exact sameTables_place hs _

/-- Copies one behind the other are one copy. -/
theorem writeBytes_append (hs : a.Sound L) {lin : BitVec w} {xs ys : List U8}
    (hdone : (a.writeBytes L lin xs).1 = true) : a.writeBytes L lin (xs ++ ys)
      = (a.writeBytes L lin xs).2.writeBytes L (lin + BitVec.ofNat w xs.length) ys := by
  have hsame := sameTables_writeBytes hs lin xs
  rw [writeBytes_eq_place hsame.sound]
  rw [writeBytes_eq_place hs] at hdone ⊢
  rw [writeBytes_eq_place hs, List.length_append, bytesFrom_add,
    List.zip_append (length_bytesFrom lin _), place_append hdone]

/-- Bytes were taken from the file and are not counted: `m` of `n` are. -/
def Lost (view : FileView σ) (s s' : σ) (ret : Int) (off n : Nat) : Prop :=
  ∃ m g, 0 < g ∧ m + g ≤ n ∧ view.pos s' = view.pos s + m + g
    ∧ Counts ret (off + m)

/-- A transfer whose bytes all find their addresses is one copy of them; one
that meets an unmapped address has lost what it was to put there. -/
theorem transferReadLoop_spec (h : port.IsFile view XFER_CHUNK)
    (hs : a.Sound L) (hfile : view.isFile s)
    {lin : BitVec w} {off left : Nat} {r : Int × AddressSpace w × σ}
    (hrun : a.transferReadLoop L port lin off off left s = some r) :
    (a.AllMapped L
      (bytesFrom (lin + BitVec.ofNat w off)
      (port.supply XFER_CHUNK s left).1.length) →
      a.writeBytes L (lin + BitVec.ofNat w off)
        (port.supply XFER_CHUNK s left).1 = (true, r.2.1)
        ∧ r.2.2 = (port.supply XFER_CHUNK s left).2
        ∧ Counts r.1 (off + (port.supply XFER_CHUNK s left).1.length))
    ∧ (¬ a.AllMapped L
      (bytesFrom (lin + BitVec.ofNat w off)
      (port.supply XFER_CHUNK s left).1.length) →
      Lost view s r.2.2 r.1 off (port.supply XFER_CHUNK s left).1.length) := by
  induction left using Nat.strong_induction_on generalizing a s off with
  | _ left ih =>
    rw [transferReadLoop] at hrun
    rw [Port.supply]
    by_cases hpos : 0 < left
    case neg =>
      rw [if_neg hpos, Option.some.injEq] at hrun
      rw [if_neg hpos, ← hrun]
      exact ⟨fun _ => ⟨by rw [writeBytes], rfl, .inl rfl⟩,
        fun hnot => absurd (fun x hx => absurd hx List.not_mem_nil) hnot⟩
    case pos =>
      rw [if_pos hpos] at hrun ⊢
      cases hread : port.read (min left XFER_CHUNK) s with
      | none =>
        rw [hread] at hrun
        cases hrun
      | some answer =>
        obtain ⟨⟨got, bytes⟩, s₁⟩ := answer
        rw [hread] at hrun
        dsimp only at hrun ⊢
        have hone := h.delivered (Nat.min_le_right left XFER_CHUNK) hfile hread
        dsimp only at hone
        -- Nothing was delivered: the state is the file's.
        have hidle : ∀ ret, Counts ret off →
            (a.AllMapped L
              (bytesFrom (lin + BitVec.ofNat w off) ([] : List U8).length) →
              a.writeBytes L (lin + BitVec.ofNat w off)
                [] = (true, a) ∧ s₁ = s₁
                ∧ Counts ret (off + ([] : List U8).length))
            ∧ (¬ a.AllMapped L
              (bytesFrom (lin + BitVec.ofNat w off) ([] : List U8).length) →
              Lost view s s₁ ret off ([] : List U8).length) := fun ret hret =>
          ⟨fun _ => ⟨by rw [writeBytes], rfl, hret⟩,
            fun hnot => absurd (fun x hx => absurd hx List.not_mem_nil) hnot⟩
        by_cases hneg : got < 0
        · rw [if_pos hneg, Option.some.injEq] at hrun
          rw [if_pos hneg.le, ← hrun]
          exact hidle _ (counts_countOr off hneg)
        by_cases hzero : got = 0
        · rw [if_neg hneg, if_pos hzero, Option.some.injEq] at hrun
          rw [if_pos hzero.le, ← hrun]
          exact hidle _ (.inl rfl)
        obtain ⟨hbad, -⟩ | ⟨hgot, hlen, hd⟩ := hone
        · exact absurd hbad hneg
        rw [if_neg hneg, if_neg hzero] at hrun
        rw [if_neg (show ¬ got ≤ 0 by omega)]
        have hnat : got.toNat = bytes.length := by omega
        rw [hnat] at hrun ⊢
        by_cases hover :
          min left XFER_CHUNK < bytes.length ∨ 2 ^ w ≤ lin.toNat + off
        · rw [if_pos hover] at hrun
          cases hrun
        rw [if_neg hover] at hrun
        have hdone := writeBytes_done hs (lin + BitVec.ofNat w off) bytes
        cases hwrite : a.writeBytes L (lin + BitVec.ofNat w off) bytes with
        | mk done a₁ =>
          rw [hwrite] at hrun hdone
          cases done with
          | false =>
            rw [Option.some.injEq] at hrun
            rw [← hrun]
            have hlost : ∀ n, bytes.length ≤ n →
                Lost view s s₁ (countOr off (-EFAULT)) off n := fun n hn =>
              ⟨0, bytes.length, by omega, by omega, hd.pos,
                counts_countOr off not_efault_nonneg⟩
            have hnot : ¬ a.AllMapped L
              (bytesFrom (lin + BitVec.ofNat w off) bytes.length) :=
              fun hall => Bool.false_ne_true (hdone.2 hall)
            split
            · exact ⟨fun hall => absurd hall hnot,
                fun _ => hlost _ (le_refl _)⟩
            · dsimp only
              rw [List.length_append, allMapped_bytesFrom_add]
              exact ⟨fun hall => absurd hall.1 hnot,
                fun _ => hlost _ (Nat.le_add_right _ _)⟩
          | true =>
            have hall := hdone.1 rfl
            have hsame :=
              sameTables_writeBytes hs (lin + BitVec.ofNat w off) bytes
            rw [hwrite] at hsame
            have hsum : (off : Int) + got
              = ((off + bytes.length : Nat) : Int) := by omega
            dsimp only at hrun
            rw [hsum] at hrun
            split at hrun
            · cases hrun
            split at hrun
            case isTrue hshort =>
              rw [Option.some.injEq] at hrun
              rw [if_pos hshort, ← hrun]
              exact ⟨fun _ => ⟨hwrite, rfl, .inl rfl⟩,
                fun hnot => absurd hall hnot⟩
            case isFalse hfull =>
              rw [if_neg hfull]
              obtain ⟨hmapped, hunmapped⟩ :=
                ih (left - bytes.length) (by omega) hsame.sound hd.isFile hrun
              dsimp only
              rw [List.length_append, allMapped_bytesFrom_add, add_bytes,
                ← AllMapped.congr hsame, ← AllMapped.congr hsame]
              refine ⟨fun hboth => ?_, fun hnot => ?_⟩
              · obtain ⟨hcopy, hstate, hret⟩ := hmapped hboth.2
                refine ⟨?_, hstate, by rw [← Nat.add_assoc]; exact hret⟩
                rw [writeBytes_append hs (by rw [hwrite]), hwrite, add_bytes]
                exact hcopy
              · have hrest :=
                  fun hall₂ => hnot ⟨(AllMapped.congr hsame).2 hall, hall₂⟩
                obtain ⟨m, g, hg, hle, hposn, hret⟩ := hunmapped hrest
                refine ⟨bytes.length + m, g, hg, by omega,
                  ?_, by rw [← Nat.add_assoc]; exact hret⟩
                rw [hposn, hd.pos, Nat.add_assoc (view.pos s)]

/-- A buffer is filled with what the file supplies, if all of it is mapped. -/
theorem transferRead_spec (h : port.IsFile view XFER_CHUNK) (hs : a.Sound L)
    (hfile : view.isFile s)
    {lin : BitVec w} {len : Nat} {r : Int × AddressSpace w × σ}
    (hrun : a.transferRead L port lin len s = some r) :
    (a.AllMapped L (bytesFrom lin (port.supply XFER_CHUNK s len).1.length) →
      a.writeBytes L lin (port.supply XFER_CHUNK s len).1 = (true, r.2.1)
        ∧ r.2.2 = (port.supply XFER_CHUNK s len).2
        ∧ Counts r.1 (port.supply XFER_CHUNK s len).1.length)
    ∧ (¬ a.AllMapped L
      (bytesFrom lin (port.supply XFER_CHUNK s len).1.length) →
      Lost view s r.2.2 r.1 0 (port.supply XFER_CHUNK s len).1.length) := by
  have hspec := transferReadLoop_spec h hs hfile hrun
  have hzero : lin + BitVec.ofNat w 0 = lin := BitVec.add_zero lin
  rw [hzero, Nat.zero_add] at hspec
  exact hspec

-- ======== out of memory

omit [EntryWidth w] in
/-- The first places of a run. -/
theorem take_bytesFrom {lin : BitVec w} {k n : Nat} (h : k ≤ n) :
    (bytesFrom lin n).take k = bytesFrom lin k := by
  rw [← Nat.add_sub_cancel' h, bytesFrom_add,
    List.take_left' (length_bytesFrom lin k)]

/-- The file has taken `data`, the bytes at the first of the places. -/
structure Taken (L : Layout w) (view : FileView σ) (a : AddressSpace w) (s : σ)
    (places : List (BitVec w)) (data : List U8) (s' : σ) : Prop where
  isFile : view.isFile s'
  le : data.length ≤ places.length
  bytes : a.pick L (places.take data.length) = some data
  output : view.output s' = view.output s ++ data

/-- Taking nothing leaves the file's output as it was. -/
theorem Taken.nil {places : List (BitVec w)}
    (hout : view.output s' = view.output s)
    (h' : view.isFile s') : Taken L view a s places [] s' :=
  ⟨h', Nat.zero_le _, rfl, by rw [hout, List.append_nil]⟩

/-- Two pieces, the first of them whole. -/
theorem Taken.append {s₁ s₂ : σ} {xs ys : List (BitVec w)} {us vs : List U8}
    (h : Taken L view a s xs us s₁)
    (hwhole : us.length = xs.length) (h' : Taken L view a s₁ ys vs s₂) :
    Taken L view a s (xs ++ ys) (us ++ vs) s₂ where
  isFile := h'.isFile
  le := by
    have := h'.le
    rw [List.length_append, List.length_append]
    omega
  bytes := by
    have hus := h.bytes
    rw [hwhole, List.take_length] at hus
    rw [List.length_append, hwhole, List.take_length_add_append, pick_append,
      hus, Option.bind_some, h'.bytes, Option.map_some]
  output := by rw [h'.output, h.output, List.append_assoc]

/-- One piece of several. -/
theorem Taken.left {s₁ : σ} {xs : List (BitVec w)} {us : List U8}
    (h : Taken L view a s xs us s₁)
    (ys : List (BitVec w)) : Taken L view a s (xs ++ ys) us s₁ where
  isFile := h.isFile
  le := by
    have := h.le
    rw [List.length_append]
    omega
  bytes := by
    rw [List.take_append_of_le_length h.le]
    exact h.bytes
  output := h.output

/-- The call delivered the next bytes of the file to the first of the
places, moved the file past them and returns their count; or nothing, for
an error. -/
def ReadRight (L : Layout w) (view : FileView σ) (places : List (BitVec w))
    (a : AddressSpace w) (s : σ) (r : Int × AddressSpace w × σ) : Prop :=
  ∃ data, Port.Delivered view s data r.2.2 ∧ data.length ≤ places.length
    ∧ a.place L (places.zip data) = (true, r.2.1) ∧ Counts r.1 data.length

/-- The call appended the bytes at the first of the places and returns their
count; or nothing, for an error. -/
def WriteRight (L : Layout w) (view : FileView σ) (places : List (BitVec w))
    (a : AddressSpace w) (s : σ) (r : Int × σ) : Prop :=
  ∃ data, Taken L view a s places data r.2 ∧ Counts r.1 data.length

/-- A return value counts one number of bytes. -/
theorem Counts.unique {ret : Int} {m n : Nat} (h : Counts ret m)
    (h' : Counts ret n) : m = n := by
  obtain hm | ⟨hm, hneg⟩ := h
  · obtain hn | ⟨hn, hneg⟩ := h' <;> omega
  · obtain hn | ⟨hn, hneg'⟩ := h' <;> omega

/-- The entries of an array up to the first that cannot be read. -/
def entries (array : Nat → Option (Option (BitVec w × BitVec w))) :
    Nat → Nat → List (BitVec w × BitVec w)
  | 0, _ => []
  | k + 1, i =>
    match array i with
    | some (some e) => e :: entries array k (i + 1)
    | _ => []

/-- The concatenation of their buffers. -/
def buffers (es : List (BitVec w × BitVec w)) : List (BitVec w) :=
  es.flatMap fun e => bytesFrom e.1 e.2.toNat

/-- The lengths of the entries. -/
def lengths (es : List (BitVec w × BitVec w)) : List Nat :=
  es.map fun e => e.2.toNat

variable {fetch : AddressSpace w → Nat → Option (Option (BitVec w × BitVec w))}
  {array : Nat → Option (Option (BitVec w × BitVec w))}

/-- With the buffers of the entries before it filled from the file, an entry
is fetched as the array has it. -/
def KeepsArray (L : Layout w) (port : Port σ)
    (fetch : AddressSpace w → Nat → Option (Option (BitVec w × BitVec w)))
    (array : Nat → Option (Option (BitVec w × BitVec w))) (a : AddressSpace w)
    (s : σ) (k i : Nat) : Prop :=
  ∀ j < k, (port.supplies XFER_CHUNK s (lengths (entries array j i))).1.length
      = (buffers (entries array j i)).length →
    fetch (a.place L ((buffers (entries array j i)).zip
      (port.supplies XFER_CHUNK s (lengths (entries array j i))).1)).2 (i + j)
        = array (i + j)

omit [EntryWidth w] in
/-- The places of an array are those of its first buffer and then the rest. -/
theorem buffers_cons (e : BitVec w × BitVec w)
    (es : List (BitVec w × BitVec w)) :
    buffers (e :: es) = bytesFrom e.1 e.2.toNat ++ buffers es :=
      List.flatMap_cons

omit [EntryWidth w] in
/-- The first entry of an array, and the rest. -/
theorem entries_succ {e : BitVec w × BitVec w} {i : Nat}
    (h : array i = some (some e)) (k : Nat) :
    entries array (k + 1) i = e :: entries array k (i + 1) := by
  rw [entries, h]

/-- An array that is kept can be read at its first entry. -/
theorem KeepsArray.head {k i : Nat}
    (h : KeepsArray L port fetch array a s (k + 1) i) : fetch a i = array i :=
  h 0 (Nat.succ_pos k) rfl

/-- Past an entry whose buffer was filled. -/
theorem KeepsArray.next {e : BitVec w × BitVec w} {k i : Nat}
    (h : KeepsArray L port fetch array a s (k + 1) i)
    (he : array i = some (some e)) (hs : a.Sound L)
    (hfull : (port.supply XFER_CHUNK s e.2.toNat).1.length = e.2.toNat)
    (hdone : a.writeBytes L e.1 (port.supply XFER_CHUNK s e.2.toNat).1
      = (true, a')) :
    KeepsArray L port fetch array a' (port.supply XFER_CHUNK s e.2.toNat).2 k
      (i + 1) := by
  rw [writeBytes_eq_place hs, hfull] at hdone
  intro j hj hmore
  have hnext := h (j + 1) (Nat.succ_lt_succ hj)
  rw [entries_succ he, buffers_cons, lengths, List.map_cons, ← lengths,
    Port.supplies] at hnext
  dsimp only at hnext
  rw [if_neg (by omega), List.length_append, List.length_append,
    length_bytesFrom, hfull, hmore] at hnext
  have hfetch := hnext rfl
  rw [List.zip_append (by rw [length_bytesFrom, hfull]),
    place_append (by rw [hdone]), hdone] at hfetch
  rw [Nat.add_assoc, Nat.add_comm 1 j]
  exact hfetch

/-- What a read does with the bytes `d` it is to be delivered: it puts all
of them to their places, or loses some. -/
def Fills (L : Layout w) (view : FileView σ) (places : List (BitVec w))
    (d : List U8 × σ) (total : Nat)
    (a : AddressSpace w) (s : σ) (r : Int × AddressSpace w × σ) : Prop :=
  (a.AllMapped L (places.take d.1.length) →
    a.place L (places.zip d.1) = (true, r.2.1) ∧ r.2.2 = d.2
      ∧ Counts r.1 (total + d.1.length))
  ∧ (¬ a.AllMapped L (places.take d.1.length) →
    Lost view s r.2.2 r.1 total d.1.length)

/-- Nothing supplied, nothing filled. -/
theorem Fills.idle {places : List (BitVec w)} {total : Nat} {ret : Int}
    (h : Counts ret total) :
    Fills L view places ([], s) total a s (ret, a, s) :=
  ⟨fun _ => ⟨by rw [List.zip_nil_right, place], rfl, h⟩,
    fun hnot => absurd (fun x hx => absurd hx List.not_mem_nil) hnot⟩

omit [EntryWidth w] in
/-- A short supply ends within the first buffer. -/
theorem take_buffer (lin : BitVec w) {len n : Nat} (h : n ≤ len)
    (more : List (BitVec w)) :
    (bytesFrom lin len ++ more).take n = bytesFrom lin n := by
  rw [List.take_append_of_le_length (by rw [length_bytesFrom]; exact h),
    take_bytesFrom h]

omit [EntryWidth w] in
/-- So it is placed within the first buffer. -/
theorem zip_buffer (lin : BitVec w) {len : Nat} {data : List U8}
    (h : data.length ≤ len) (more : List (BitVec w)) :
    (bytesFrom lin len ++ more).zip data
      = (bytesFrom lin data.length).zip data := by
  rw [← Nat.add_sub_cancel' h, bytesFrom_add, List.append_assoc]
  exact zip_append_left (length_bytesFrom lin data.length).ge

/-- One buffer. -/
theorem Fills.single (h : port.IsFile view XFER_CHUNK) (hs : a.Sound L)
    (hfile : view.isFile s)
    {lin : BitVec w} {len : Nat} {r : Int × AddressSpace w × σ}
    (hrun : a.transferRead L port lin len s = some r) :
    Fills L view (bytesFrom lin len) (port.supply XFER_CHUNK s len) 0 a s r := by
  obtain ⟨hmapped, hlost⟩ := transferRead_spec h hs hfile hrun
  have hle := (Port.supply_spec h (le_refl _) hfile len).2
  have htake := take_buffer lin hle []
  have hzip := zip_buffer lin hle []
  rw [List.append_nil] at htake hzip
  rw [Fills, htake, hzip, ← writeBytes_eq_place hs, Nat.zero_add]
  exact ⟨hmapped, hlost⟩

/-- A buffer that was filled and what comes behind it. -/
theorem Fills.cons (hs : a.Sound L) {lin : BitVec w} {xs : List U8} {s₁ : σ}
    {a₁ : AddressSpace w}
    (hcopy : a.writeBytes L lin xs = (true, a₁))
    (hd : Port.Delivered view s xs s₁)
    {places : List (BitVec w)} {d : List U8 × σ} {total : Nat}
    {r : Int × AddressSpace w × σ}
    (hrest : Fills L view places d (total + xs.length) a₁ s₁ r) :
    Fills L view (bytesFrom lin xs.length ++ places) (xs ++ d.1, d.2)
      total a s r := by
  have hsame := sameTables_writeBytes hs lin xs
  have hall := (writeBytes_done hs lin xs).1 (by rw [hcopy])
  rw [hcopy] at hsame
  rw [writeBytes_eq_place hs] at hcopy
  have htake : (bytesFrom lin xs.length ++ places).take (xs ++ d.1).length
      = bytesFrom lin xs.length ++ places.take d.1.length := by
    rw [List.length_append, List.take_append, length_bytesFrom,
      List.take_of_length_le (by rw [length_bytesFrom]; omega),
      Nat.add_sub_cancel_left]
  rw [Fills, htake, AllMapped.append,
    ← (AllMapped.congr hsame : _ ↔ a.AllMapped L (places.take d.1.length)),
    List.zip_append (length_bytesFrom lin xs.length),
    place_append (by rw [hcopy]), hcopy, List.length_append, ← Nat.add_assoc]
  refine ⟨fun hboth => hrest.1 hboth.2, fun hnot => ?_⟩
  obtain ⟨m, g, hg, hle, hpos, hret⟩ :=
    hrest.2 fun hmapped => hnot ⟨hall, hmapped⟩
  refine ⟨xs.length + m, g, hg, by omega,
    ?_, by rw [← Nat.add_assoc]; exact hret⟩
  rw [hpos, hd.pos, Nat.add_assoc (view.pos s)]

-- What the loop does with a transfer's count.

end AddressSpace

end Remu.Os
