/-
`writev` against the array it is given.

What a call has to move is a list of places: the addresses of the buffers'
bytes in order, with a gap for an entry that cannot be read or a byte past
the end of the address space (`places`). The loop fetches an entry that is
not mapped as zeros and goes on, so it can move bytes from behind a gap;
and it sums in 32 bits. `WriteSound` says when it does neither, by what can
be read of the buffers (`chunksFrom`) and what the file takes of it
(`accepts`).
-/
import Remu.Usermode.Files

namespace Remu.Usermode

-- ======== the array

namespace AddressSpace

/-- Entry `i` of an array, when its eight bytes are there. -/
def entry (m : AddressSpace) (iov : U32) (i : Nat) : Option (U32 × U32) :=
  if (m.readBytes (iov.toNat + i * 8) 8).2
    then some (m.fetched iov i) else none

/-- What is at the places. -/
def contents (m : AddressSpace) (ps : List (Option Nat)) : List (Option U8) :=
  ps.map fun p => p.bind m.byte?

end AddressSpace

/-- The places of `n` bytes from `base` on. -/
def bufferPlaces (base n : Nat) : List (Option Nat) :=
  (List.range' base n).map fun x => if x < 2 ^ 32 then some x else none

/-- The places of `k` entries from entry `i` on. -/
def places (m : AddressSpace) (iov : U32) : Nat → Nat → List (Option Nat)
  | 0, _ => []
  | k + 1, i =>
    (match m.entry iov i with
      | some (base, len) => bufferPlaces base.toNat len.toNat
      | none => [none]) ++ places m iov k (i + 1)

/-- The places of a buffer, cut in two. -/
theorem bufferPlaces_add (base n k : Nat) :
    bufferPlaces base (n + k)
      = bufferPlaces base n ++ bufferPlaces (base + n) k := by
  rw [bufferPlaces, bufferPlaces, bufferPlaces, ← List.map_append,
    List.range'_append_1]

/-- The first place and the rest; a buffer that runs past 2^32 has none
there. -/
theorem bufferPlaces_succ (base n : Nat) :
    bufferPlaces base (n + 1) = (if base < 2 ^ 32 then some base else none)
      :: bufferPlaces (base + 1) n := by
  rw [bufferPlaces, List.range'_succ, List.map_cons, bufferPlaces]

/-- One for each byte. -/
theorem length_bufferPlaces (base n : Nat) :
    (bufferPlaces base n).length = n := by
  rw [bufferPlaces, List.length_map, List.length_range']

/-- A place inside the address space is an address. -/
theorem bufferPlaces_eq {base n : Nat} (h : base + n ≤ 2 ^ 32) :
    bufferPlaces base n = (List.range' base n).map some := by
  rw [bufferPlaces]
  refine List.map_congr_left fun x hx => ?_
  rw [List.mem_range'_1] at hx
  exact if_pos (by omega)

/-- A place past its end is a gap. -/
theorem none_mem_bufferPlaces {base n : Nat} (hbase : base ≤ 2 ^ 32)
    (h : 2 ^ 32 < base + n) :
    (bufferPlaces base n)[2 ^ 32 - base]? = some none := by
  rw [bufferPlaces, List.getElem?_map, List.getElem?_range' (by omega),
    Option.map_some, if_neg (by omega)]

/-- What memory holds at places, cut in two. -/
theorem AddressSpace.contents_append (m : AddressSpace)
    (ps qs : List (Option Nat)) :
    m.contents (ps ++ qs) = m.contents ps ++ m.contents qs := List.map_append

theorem AddressSpace.length_contents (m : AddressSpace)
    (ps : List (Option Nat)) :
    (m.contents ps).length = ps.length := List.length_map _

-- ======== memory

/-- A read returns what is at its places, or meets a gap. -/
theorem readBytes_spec (m : AddressSpace) (a n : Nat) :
    ((m.readBytes a n).2 = true →
      (m.readBytes a n).1.map some = m.contents (bufferPlaces a n))
      ∧ ((m.readBytes a n).2 = false →
        none ∈ m.contents (bufferPlaces a n)) := by
  induction n generalizing a with
  | zero => exact ⟨fun _ => rfl, fun h => Bool.noConfusion h⟩
  | succ n ih =>
    obtain ⟨hdone, hgap⟩ := ih (a + 1)
    rw [bufferPlaces_succ, AddressSpace.contents, List.map_cons,
      AddressSpace.readBytes]
    by_cases ha : 2 ^ 32 ≤ a
    · rw [if_pos ha, if_neg (Nat.not_lt.2 ha)]
      exact ⟨fun h => Bool.noConfusion h, fun _ => List.mem_cons_self⟩
    · rw [if_neg ha, if_pos (Nat.not_le.1 ha), Option.bind_some]
      cases hb : m.byte? a with
      | none =>
        exact ⟨fun h => Bool.noConfusion h, fun _ => List.mem_cons_self⟩
      | some v =>
        refine ⟨fun h => ?_, fun h => List.mem_cons_of_mem _ (hgap h)⟩
        rw [List.map_cons, hdone h]
        rfl

/-- A read that is not cut short is as long as it was meant to be. -/
theorem length_readBytes {m : AddressSpace} {a n : Nat} {tmp : List U8}
    (hread : m.readBytes a n = (tmp, true)) : tmp.length = n := by
  have hspec := (readBytes_spec m a n).1
  rw [hread] at hspec
  have hlen := congrArg List.length (hspec rfl)
  rwa [List.length_map, AddressSpace.length_contents,
    length_bufferPlaces] at hlen

-- ======== files

namespace Fd

/-- Everything the file has taken. -/
def output : Fd → List U8
  | stdin s | stdout s | stderr s | file s => s.written
  | sink v => v

/-- How many bytes a write moved. -/
def moved : Except U32 Nat → Nat
  | .ok n => n
  | .error _ => 0

/-- A write takes a prefix of what it is offered. -/
theorem write_takes (f : Fd) (bytes : List U8) :
    (f.write bytes).2.output = f.output ++ bytes.take (moved (f.write bytes).1)
      ∧ moved (f.write bytes).1 ≤ bytes.length
      ∧ ∀ e, (f.write bytes).1 = .error e → e = EIO ∨ e = EBADF := by
  have hstream : ∀ s : Stream, (s.write bytes).2.written
        = s.written ++ bytes.take
          (moved (((s.write bytes).1.map .ok).getD (.error EIO)))
      ∧ moved (((s.write bytes).1.map .ok).getD (.error EIO)) ≤ bytes.length
      ∧ ∀ e, ((s.write bytes).1.map Except.ok).getD (.error EIO) = .error e →
        e = EIO ∨ e = EBADF := by
    intro s
    rw [Stream.write]
    cases s.answer s.calls with
    | none =>
      refine ⟨?_, Nat.zero_le _, fun e he => ?_⟩
      · exact (List.append_nil _).symm
      · exact .inl (Except.error.inj he).symm
    | some k => exact ⟨rfl, Nat.min_le_right _ _, fun e he => by cases he⟩
  cases f with
  | stdin s =>
    refine ⟨(List.append_nil _).symm, Nat.zero_le _, fun e he => ?_⟩
    exact .inr (Except.error.inj he).symm
  | stdout s => exact hstream s
  | stderr s => exact hstream s
  | file s => exact hstream s
  | sink v =>
    refine ⟨?_, Nat.le_refl _, fun e he => by cases he⟩
    rw [write, output, output, moved, List.take_length]

end Fd

-- ======== one buffer at a time

/-- What a write takes of a chunk is at its places, as long as they are in
the address space. -/
theorem readBytes_take {m : AddressSpace} {buf : U32}
    {total n w : Nat} {tmp : List U8}
    (hread : m.readBytes (buf + BitVec.ofNat 32 total).toNat n = (tmp, true))
    (hw : w ≤ n) :
    (tmp.take w).length = w ∧ (buf.toNat + (total + w) ≤ 2 ^ 32 →
      (tmp.take w).map some
        = m.contents (bufferPlaces (buf.toNat + total) w)) := by
  have hspec := (readBytes_spec m (buf + BitVec.ofNat 32 total).toNat n).1
  rw [hread] at hspec
  have hbytes := hspec rfl
  dsimp only at hbytes
  have hlen := length_readBytes hread
  have htake : (tmp.take w).length = w := by
    rw [List.length_take]
    omega
  refine ⟨htake, fun hfit => ?_⟩
  rcases Nat.eq_zero_or_pos w with rfl | hpos
  · rfl
  · have haddr : (buf + BitVec.ofNat 32 total).toNat = buf.toNat + total := by
      rw [BitVec.toNat_add, BitVec.toNat_ofNat]
      omega
    rw [haddr, show n = w + (n - w) by omega, bufferPlaces_add,
      AddressSpace.contents_append] at hbytes
    rw [← List.take_append_drop w tmp, List.map_append] at hbytes
    refine (List.append_inj hbytes ?_).1
    rw [List.length_map, htake, AddressSpace.length_contents,
      length_bufferPlaces]

/-- A write that stood at `total` has moved `out`: bytes from their places,
in order. -/
structure Moves (m : AddressSpace) (f : Fd) (buf count : U32) (total : Nat)
    (r : Except U32 Nat × Fd) (out : List U8) : Prop where
  output : r.2.output = f.output ++ out
  ok : ∀ n, r.1 = .ok n → n = total + out.length
  error : ∀ e, r.1 = .error e → total = 0 ∧ out = []
  le : total + out.length ≤ count.toNat
  bytes : buf.toNat + (total + out.length) ≤ 2 ^ 32 →
    out.map some = m.contents (bufferPlaces (buf.toNat + total) out.length)

/-- It stops with nothing more. -/
theorem Moves.stop {m : AddressSpace} {f f' : Fd} {buf count : U32}
    {total : Nat} {e : U32}
    (htotal : total ≤ count.toNat) (hf : f'.output = f.output) :
    Moves m f buf count total (if 0 < total then .ok total else .error e, f') [] where
  output := by rw [hf, List.append_nil]
  ok n hn := by
    dsimp only at hn
    split at hn
    · exact (Except.ok.inj hn).symm
    · cases hn
  error e' he := by
    dsimp only at he
    split at he
    · cases he
    · exact ⟨by omega, rfl⟩
  le := htotal
  bytes _ := rfl

/-- A write moves a prefix of the buffer. -/
theorem writeFromGuest_moves (m : AddressSpace) (f : Fd)
    (buf count : U32) (total : Nat) (htotal : total ≤ count.toNat) :
    ∃ out, Moves m f buf count total (writeFromGuest m f buf count total) out := by
  induction f, total using writeFromGuest.induct m buf count with
  | case1 f total hlt tmp hread =>
    refine ⟨[], ?_⟩
    rw [writeFromGuest, if_pos hlt, hread]
    exact .stop htotal rfl
  | case2 f total hlt tmp hread e f' hwrite =>
    refine ⟨[], ?_⟩
    have htakes := (f.write_takes tmp).1
    rw [hwrite, Fd.moved, List.take_zero, List.append_nil] at htakes
    rw [writeFromGuest, if_pos hlt, hread]
    dsimp only
    rw [hwrite]
    exact .stop htotal htakes
  | case3 f total hlt tmp hread w f' hwrite hshort =>
    obtain ⟨htakes, -, -⟩ := f.write_takes tmp
    obtain ⟨hlen, hbytes⟩ := readBytes_take hread hshort.le
    have hchunk := (chunkLen_le (count.toNat - total)).1
    rw [hwrite, Fd.moved] at htakes
    refine ⟨tmp.take w, ?_⟩
    rw [writeFromGuest, if_pos hlt, hread]
    dsimp only
    rw [hwrite]
    dsimp only
    rw [if_pos hshort]
    refine ⟨htakes, fun n hn => ?_, fun e he => ?_, by omega, ?_⟩
    · rw [hlen, Except.ok.inj hn]
    · cases he
    · rw [hlen]
      exact hbytes
  | case4 f total hlt tmp hread w f' hwrite hfull ih =>
    obtain ⟨htakes, hle, -⟩ := f.write_takes tmp
    obtain ⟨hlen, hbytes⟩ := readBytes_take hread (Nat.le_refl _)
    have hchunk := (chunkLen_le (count.toNat - total)).1
    have hpos : 0 < chunkLen (count.toNat - total) := chunkLen_pos (by omega)
    have htmp := length_readBytes hread
    rw [hwrite, Fd.moved] at htakes hle
    have hw : w = chunkLen (count.toNat - total) := by omega
    obtain ⟨out, hout⟩ := ih (by omega)
    refine ⟨tmp.take w ++ out, ?_⟩
    rw [writeFromGuest, if_pos hlt, hread]
    dsimp only
    rw [hwrite]
    dsimp only
    rw [if_neg hfull]
    have hlen' : (tmp.take w ++ out).length = w + out.length := by
      rw [List.length_append, hw, hlen]
    refine ⟨?_, fun n hn => ?_, fun e he => ?_, ?_, fun hfit => ?_⟩
    · rw [hout.output, htakes, List.append_assoc]
    · rw [hout.ok n hn, hlen', Nat.add_assoc]
    · have := (hout.error e he).1
      omega
    · have := hout.le
      rw [hlen']
      omega
    · rw [hlen'] at hfit ⊢
      rw [List.map_append, bufferPlaces_add, AddressSpace.contents_append, hw,
        hbytes (by omega), hout.bytes (by omega), hw, Nat.add_assoc]
  | case5 f total hlt =>
    refine ⟨[], ?_⟩
    rw [writeFromGuest, if_neg hlt]
    refine ⟨(List.append_nil _).symm, fun n hn => (Except.ok.inj hn).symm,
      fun e he => ?_, htotal, fun _ => rfl⟩
    cases he

/-- A write of a buffer that moves nothing had nothing to move, met a gap,
or was refused what it offered. -/
theorem writeFromGuest_nothing (m : AddressSpace) (f : Fd) (buf count : U32)
    (hnone : Fd.moved (writeFromGuest m f buf count 0).1 = 0) :
    count = 0 ∧ writeFromGuest m f buf count 0 = (.ok 0, f)
      ∨ none ∈ m.contents (bufferPlaces buf.toNat count.toNat)
        ∧ writeFromGuest m f buf count 0 = (.error EFAULT, f)
      ∨ ∃ bytes, bytes ≠ []
        ∧ bytes.map some <+: m.contents (bufferPlaces buf.toNat count.toNat)
        ∧ writeFromGuest m f buf count 0 = f.write bytes := by
  rw [writeFromGuest] at hnone ⊢
  by_cases hpos : 0 < count.toNat
  · right
    rw [if_pos hpos] at hnone ⊢
    have hspec :=
      readBytes_spec m (buf + BitVec.ofNat 32 0).toNat
        (chunkLen (count.toNat - 0))
    have hbuf : buf + BitVec.ofNat 32 0 = buf := BitVec.add_zero buf
    rw [hbuf, Nat.sub_zero] at hspec hnone ⊢
    have hchunk := (chunkLen_le count.toNat).1
    have hchunk0 := chunkLen_pos hpos
    have hsplit : bufferPlaces buf.toNat count.toNat
        = bufferPlaces buf.toNat (chunkLen count.toNat)
        ++ bufferPlaces (buf.toNat + chunkLen count.toNat)
          (count.toNat - chunkLen count.toNat) := by
      rw [← bufferPlaces_add, Nat.add_sub_cancel' hchunk]
    rw [hsplit, AddressSpace.contents_append]
    cases hread : m.readBytes buf.toNat (chunkLen count.toNat) with
    | mk tmp done =>
      rw [hread] at hspec hnone
      cases done with
      | false => exact .inl ⟨List.mem_append_left _ (hspec.2 rfl), rfl⟩
      | true =>
        right
        have hbytes := hspec.1 rfl
        dsimp only at hbytes hnone ⊢
        refine ⟨tmp, ?_, hbytes ▸ List.prefix_append _ _, ?_⟩
        · rintro rfl
          have hlen := congrArg List.length hbytes
          rw [AddressSpace.length_contents, length_bufferPlaces, List.map_nil,
            List.length_nil] at hlen
          omega
        · cases hwrite : f.write tmp with
          | mk r f' =>
            rw [hwrite] at hnone
            cases r with
            | error e => rfl
            | ok w =>
              dsimp only at hnone ⊢
              by_cases hshort : w < chunkLen count.toNat
              · rw [if_pos hshort, Nat.zero_add]
              · rw [if_neg hshort] at hnone
                exfalso
                -- a whole chunk has moved already
                have hle := (f.write_takes tmp).2.1
                rw [hwrite, Fd.moved] at hle
                have hlen := congrArg List.length hbytes
                rw [List.length_map, AddressSpace.length_contents,
                  length_bufferPlaces] at hlen
                obtain ⟨out, hout⟩ :=
                  writeFromGuest_moves m f' buf count (0 + w) (by omega)
                cases hr : (writeFromGuest m f' buf count (0 + w)).1 with
                | error e =>
                  have := (hout.error e hr).1
                  omega
                | ok n =>
                  have := hout.ok n hr
                  rw [hr, Fd.moved] at hnone
                  omega
  · left
    rw [if_neg hpos]
    exact ⟨BitVec.eq_of_toNat_eq (by simpa using Nat.not_lt.1 hpos), rfl⟩

/-- The write of a whole buffer: what it has moved and, where that is nothing,
why. -/
structure Gathered (m : AddressSpace) (f : Fd) (base len : U32)
    (r : Except U32 Nat × Fd) (out : List U8) : Prop
    extends Moves m f base len 0 r out where
  nothing : Fd.moved r.1 = 0 →
    len = 0 ∧ r = (.ok 0, f)
      ∨ none ∈ m.contents (bufferPlaces base.toNat len.toNat)
        ∧ r = (.error EFAULT, f)
      ∨ ∃ bytes, bytes ≠ []
        ∧ bytes.map some <+: m.contents (bufferPlaces base.toNat len.toNat)
        ∧ r = f.write bytes

theorem writeFromGuest_gathered (m : AddressSpace) (f : Fd) (base len : U32) :
    ∃ out, Gathered m f base len (writeFromGuest m f base len 0) out := by
  obtain ⟨out, hout⟩ := writeFromGuest_moves m f base len 0 (Nat.zero_le _)
  exact ⟨out, hout, writeFromGuest_nothing m f base len⟩

namespace Gathered

variable {m : AddressSpace} {f f₁ : Fd} {base len e : U32} {n : Nat}
  {out : List U8}

/-- As many bytes as it reports. -/
theorem length (h : Gathered m f base len (.ok n, f₁) out) :
    out.length = n := by
  rw [h.ok n rfl, Nat.zero_add]

/-- An error moves nothing. -/
theorem output_of_error (h : Gathered m f base len (.error e, f₁) out) :
    f₁.output = f.output := by
  have hgrow := h.output
  rw [(h.error e rfl).2, List.append_nil] at hgrow
  exact hgrow

/-- An empty buffer meets no error. -/
theorem ne_zero_of_error (h : Gathered m f base len (.error e, f₁) out) :
    len ≠ 0 := by
  rintro rfl
  rcases h.nothing rfl with ⟨-, h⟩ | ⟨hgap, -⟩ | ⟨bytes, hne, hpre, -⟩
  · cases h
  · cases hgap
  · exact hne (List.map_eq_nil_iff.1 (List.prefix_nil.1 hpre))

/-- An empty buffer leaves the file as it is. -/
theorem same_of_whole (h : Gathered m f base len (.ok len.toNat, f₁) out)
    (hnil : out = []) : f₁ = f := by
  have hn := h.length
  rw [hnil, List.length_nil] at hn
  rcases h.nothing hn.symm with ⟨-, h⟩ | ⟨-, h⟩ | ⟨bytes, hne, hpre, -⟩
  · exact (Prod.mk.inj h).2
  · cases h
  · rw [← hn] at hpre
    exact absurd (List.map_eq_nil_iff.1 (List.prefix_nil.1 hpre)) hne

end Gathered

-- ======== what a file accepts

/-- What can be read of a buffer from `total` on, chunk by chunk, up to the
first chunk that cannot be. -/
def AddressSpace.chunksFrom (m : AddressSpace) (buf count : U32)
    (total : Nat) : List (List U8) :=
  if total < count.toNat then
    match m.readBytes (buf + BitVec.ofNat 32 total).toNat
      (chunkLen (count.toNat - total)) with
    | (_, false) => []
    | (tmp, true) =>
      tmp :: m.chunksFrom buf count (total + chunkLen (count.toNat - total))
  else []
termination_by count.toNat - total
decreasing_by
  have hpos : 0 < chunkLen (count.toNat - total) := chunkLen_pos (by omega)
  omega

/-- How many bytes of some chunks a file accepts, and the file after that. It
is offered a chunk when it has taken the whole of the chunk before. -/
def Fd.accepts : Fd → List (List U8) → Nat × Fd
  | f, [] => (0, f)
  | f, tmp :: rest =>
    let (r, f₁) := f.write tmp
    if moved r < tmp.length then (moved r, f₁)
    else
      let (n, f₂) := f₁.accepts rest
      (moved r + n, f₂)

/-- A buffer whose first chunk is all of it. -/
theorem chunksFrom_short {m : AddressSpace} {buf count : U32} {tmp : List U8}
    (hpos : 0 < count.toNat) (hchunk : chunkLen count.toNat = count.toNat)
    (hread : m.readBytes buf.toNat count.toNat = (tmp, true)) :
    m.chunksFrom buf count 0 = [tmp] := by
  have hbuf : buf + BitVec.ofNat 32 0 = buf := BitVec.add_zero buf
  rw [AddressSpace.chunksFrom, if_pos hpos, hbuf, Nat.sub_zero, hchunk,
    hread, Nat.zero_add]
  dsimp only
  rw [AddressSpace.chunksFrom, if_neg (Nat.lt_irrefl _)]

/-- **A write moves what the file accepts** of the chunks that can be read. -/
theorem writeFromGuest_accepts (m : AddressSpace) (f : Fd)
    (buf count : U32) (total : Nat) :
    (writeFromGuest m f buf count total).2
      = (f.accepts (m.chunksFrom buf count total)).2
      ∧ Fd.moved (writeFromGuest m f buf count total).1
        = total + (f.accepts (m.chunksFrom buf count total)).1 := by
  have hstop : ∀ {t : Nat}
    (e : U32), Fd.moved (if 0 < t then .ok t else .error e) = t := by
    intro t e
    split
    · rfl
    · rw [Fd.moved]
      omega
  induction f, total using writeFromGuest.induct m buf count with
  | case1 f total hlt tmp hread =>
    rw [writeFromGuest, AddressSpace.chunksFrom, if_pos hlt, if_pos hlt, hread]
    exact ⟨rfl, hstop EFAULT⟩
  | case2 f total hlt tmp hread e f' hwrite =>
    have hpos : 0 < chunkLen (count.toNat - total) := chunkLen_pos (by omega)
    rw [writeFromGuest, AddressSpace.chunksFrom, if_pos hlt, if_pos hlt, hread]
    dsimp only
    rw [Fd.accepts, hwrite]
    dsimp only
    rw [Fd.moved, length_readBytes hread, if_pos hpos]
    exact ⟨rfl, hstop e⟩
  | case3 f total hlt tmp hread w f' hwrite hshort =>
    rw [writeFromGuest, AddressSpace.chunksFrom, if_pos hlt, if_pos hlt, hread]
    dsimp only
    rw [Fd.accepts, hwrite]
    dsimp only
    rw [if_pos hshort, Fd.moved, length_readBytes hread, if_pos hshort]
    exact ⟨rfl, rfl⟩
  | case4 f total hlt tmp hread w f' hwrite hfull ih =>
    -- the file took the whole chunk, and is offered the next
    have hle := (f.write_takes tmp).2.1
    rw [hwrite, Fd.moved, length_readBytes hread] at hle
    have hw : w = chunkLen (count.toNat - total) := by omega
    rw [writeFromGuest, AddressSpace.chunksFrom, if_pos hlt, if_pos hlt, hread]
    dsimp only
    rw [Fd.accepts, hwrite]
    dsimp only
    rw [if_neg hfull, Fd.moved, length_readBytes hread, if_neg hfull, ← hw]
    exact ⟨ih.1, ih.2.trans (Nat.add_assoc _ _ _)⟩
  | case5 f total hlt =>
    rw [writeFromGuest, AddressSpace.chunksFrom, if_neg hlt, if_neg hlt]
    exact ⟨rfl, rfl⟩

/-- A write fails with `EFAULT` when no chunk of its buffer can be read. -/
theorem writeFromGuest_fault {m : AddressSpace} {f : Fd} {buf count : U32}
    (hpos : 0 < count.toNat) :
    (writeFromGuest m f buf count 0).1 = .error EFAULT
      ↔ m.chunksFrom buf count 0 = [] := by
  rw [writeFromGuest, AddressSpace.chunksFrom, if_pos hpos, if_pos hpos]
  generalize hread :
    m.readBytes (buf + BitVec.ofNat 32 0).toNat (chunkLen (count.toNat - 0)) = r
  obtain ⟨tmp, done⟩ := r
  cases done with
  | false => exact iff_of_true rfl rfl
  | true =>
    dsimp only
    refine iff_of_false (fun h => ?_) (List.cons_ne_nil _ _)
    have herrno := (f.write_takes tmp).2.2
    generalize f.write tmp = r at h herrno
    obtain ⟨e | w, f'⟩ := r
    · -- the errors of a file are its own
      rcases herrno e rfl with rfl | rfl <;> cases h
    · dsimp only at h
      split at h
      · cases h
      · rename_i hfull
        have hchunk := chunkLen_pos (show 0 < count.toNat - 0 by omega)
        have hgone := writeFromGuest_accepts m f' buf count (0 + w)
        rw [h, Fd.moved] at hgone
        omega

/-- It moves all of its buffer or stops before. -/
theorem writeFromGuest_whole {m : AddressSpace} {f : Fd} {buf count : U32} :
    Fd.moved (writeFromGuest m f buf count 0).1 = count.toNat
      ↔ (writeFromGuest m f buf count 0).1 = .ok count.toNat := by
  constructor
  · intro h
    cases hr : (writeFromGuest m f buf count 0).1 with
    | ok n =>
      rw [hr, Fd.moved] at h
      rw [h]
    | error e =>
      rw [hr, Fd.moved] at h
      rw [writeFromGuest, if_neg (by omega)] at hr
      cases hr
  · intro h
    rw [h, Fd.moved]

-- ======== the whole array

/-- The file was offered the next bytes and took none. -/
def Refused (f : Fd) (demand : List (Option U8)) (ret : U32) : Prop :=
  ∃ bytes, bytes ≠ [] ∧ bytes.map some <+: demand
    ∧ ((f.write bytes).1 = .ok 0 ∧ ret = 0 ∨ ∃ e,
      (f.write bytes).1 = .error e ∧ ret = err e)

/-- What a call returns that has moved nothing: there was nothing to move,
a gap was met, or the file refused. -/
def NothingWritten (f : Fd) (demand : List (Option U8)) (ret : U32) : Prop :=
  demand = [] ∧ ret = 0 ∨ none ∈ demand ∧ ret = err EFAULT
    ∨ Refused f demand ret

/-- A call that has moved `total` bytes, and has `demand` to move, overflows
no sum, moves a prefix of it and returns the count of it all. -/
def WriteRight (f : Fd) (total : Nat) (demand : List (Option U8))
    (res : Option (U32 × Fd)) : Prop :=
  ∃ ret f' out, res = some (ret, f') ∧ f'.output = f.output ++ out
    ∧ out.map some <+: demand
    ∧ if total = 0 ∧ out = [] then NothingWritten f demand ret
      else ret.toNat = total + out.length

/-- The file accepts nothing of the entries from `i` on, each taken as it is
fetched; and where nothing was moved before, one of them has a buffer of
which no chunk can be read. -/
def WriteIdle (m : AddressSpace) (iov : U32) : Nat → Nat → Nat → Fd → Prop
  | 0, _, total, _ => 0 < total
  | k + 1, i, total, f =>
    let (base, len) := m.fetched iov i
    let offered := m.chunksFrom base len 0
    IndexFits iov i ∧ (f.accepts offered).1 = 0
      ∧ (len = 0 → WriteIdle m iov k (i + 1) total f)
      ∧ (len ≠ 0 → total = 0 → offered = [])

/-- At every entry the loop comes to: it can be read, the bytes the file
accepts of its buffer end in the address space, and the count of all of them
fits in 32 bits. Or an entry cannot be read, and nothing is accepted from
there on. The loop comes to the next entry when the file accepts all of one. -/
def WriteSound (m : AddressSpace) (iov : U32) : Nat → Nat → Nat → Fd → Prop
  | 0, _, _, _ => True
  | k + 1, i, total, f =>
    match m.entry iov i with
    | none => WriteIdle m iov (k + 1) i total f
    | some (base, len) =>
      let accepted := f.accepts (m.chunksFrom base len 0)
      base.toNat + accepted.1 ≤ 2 ^ 32 ∧ total + accepted.1 < 2 ^ 32
        ∧ (accepted.1 = len.toNat →
          WriteSound m iov k (i + 1) (total + len.toNat) accepted.2)

/-- An entry that can be read is fetched as it is. -/
theorem entry_eq_some {m : AddressSpace} {iov : U32} {i : Nat} {e : U32 × U32}
    (h : m.entry iov i = some e) : m.fetched iov i = e ∧ IndexFits iov i := by
  rw [AddressSpace.entry] at h
  split at h
  case isFalse => cases h
  case isTrue hread =>
    refine ⟨Option.some.inj h, ?_⟩
    by_contra hfit
    rw [IndexFits] at hfit
    have hbytes := (readBytes_spec m (iov.toNat + i * 8) 8).1 hread
    have hgap : none ∈ m.contents (bufferPlaces (iov.toNat + i * 8) 8) := by
      rw [show 8 = 7 + 1 by rfl, bufferPlaces_add,
        AddressSpace.contents_append]
      refine List.mem_append_right _ ?_
      rw [bufferPlaces_succ, if_neg (by omega)]
      exact List.mem_cons_self
    rw [← hbytes, List.mem_map] at hgap
    obtain ⟨v, -, hv⟩ := hgap
    cases hv

/-- Bytes from the places of a buffer end in the address space. -/
theorem end_of_prefix {m : AddressSpace} {base : U32} {len : Nat}
    {out : List U8} {D : List (Option U8)}
    (h : out.map some <+: m.contents (bufferPlaces base.toNat len) ++ D)
    (hlen : out.length ≤ len) :
    base.toNat + out.length ≤ 2 ^ 32 := by
  by_contra hpast
  have hbase := base.isLt
  have hgap : (bufferPlaces base.toNat len)[2 ^ 32 - base.toNat]?
    = some none :=
    none_mem_bufferPlaces (by omega) (by omega)
  obtain ⟨t, ht⟩ := h
  have hget : (out.map some ++ t)[2 ^ 32 - base.toNat]?
      = (m.contents (bufferPlaces base.toNat len) ++ D)[2 ^
        32 - base.toNat]? := by rw [ht]
  rw [List.getElem?_append_left (by rw [List.length_map]; omega),
    List.getElem?_append_left (by
    rw [AddressSpace.length_contents, length_bufferPlaces]
    omega), AddressSpace.contents, List.getElem?_map, List.getElem?_map, hgap,
    List.getElem?_eq_getElem (by omega)] at hget
  cases hget

/-- The loop adds to what the file has taken. -/
theorem writevLoop_appends (m : AddressSpace) (iov : U32) (k i total : Nat)
    (f : Fd) {ret : U32} {f' : Fd}
    (h : writevLoop m iov k i total f = some (ret, f')) :
    ∃ out, f'.output = f.output ++ out := by
  induction k generalizing i total f with
  | zero =>
    cases h
    exact ⟨[], (List.append_nil _).symm⟩
  | succ k ih =>
    rw [writevLoop] at h
    split at h
    · cases h
    · dsimp only at h
      obtain ⟨out, hout⟩ :=
        writeFromGuest_moves m f (m.fetched iov i).1 (m.fetched iov i).2 0
        (Nat.zero_le _)
      have hgrow := hout.output
      split at h
      · rename_i hr
        cases h
        rw [hr] at hgrow
        exact ⟨out, hgrow⟩
      · rename_i hr
        rw [hr] at hgrow
        split at h
        · cases h
        · split at h
          · cases h
            exact ⟨out, hgrow⟩
          · obtain ⟨rest, hrest⟩ := ih _ _ _ h
            exact ⟨out ++ rest, by rw [hrest, hgrow, List.append_assoc]⟩

/-- Behind a gap nothing may be moved. -/
theorem writeRight_gap {f : Fd} {total : Nat} {D : List (Option U8)}
    {res : Option (U32 × Fd)} :
    WriteRight f total (none :: D) res ↔ ∃ ret f', res = some (ret, f')
      ∧ f'.output = f.output
      ∧ if total = 0 then ret = err EFAULT else ret.toNat = total := by
  constructor
  · rintro ⟨ret, f', out, hres, hout, hpre, hret⟩
    obtain rfl : out = [] := by
      cases out with
      | nil => rfl
      | cons v out =>
        rw [List.map_cons, List.cons_prefix_cons] at hpre
        cases hpre.1
    rw [List.append_nil] at hout
    refine ⟨ret, f', hres, hout, ?_⟩
    by_cases h0 : total = 0
    · rw [if_pos ⟨h0, rfl⟩] at hret
      rw [if_pos h0]
      rcases hret with ⟨hnil, -⟩ | ⟨-, heq⟩ | ⟨bytes, hne, hpre, -⟩
      · cases hnil
      · exact heq
      · cases bytes with
        | nil => exact absurd rfl hne
        | cons v bytes =>
          rw [List.map_cons, List.cons_prefix_cons] at hpre
          cases hpre.1
    · rw [if_neg fun h => h0 h.1] at hret
      rw [if_neg h0]
      exact hret
  · rintro ⟨ret, f', hres, hout, hret⟩
    refine ⟨ret, f', [], hres, by rw [hout, List.append_nil],
      List.nil_prefix, ?_⟩
    by_cases h0 : total = 0
    · rw [if_pos h0] at hret
      rw [if_pos ⟨h0, rfl⟩]
      exact .inr (.inl ⟨List.mem_cons_self, hret⟩)
    · rw [if_neg h0] at hret
      rw [if_neg fun h => h0 h.1]
      exact hret

/-- What has been moved comes first. -/
theorem writeRight_append {f f₁ : Fd} {total : Nat} {out : List U8}
    {E D : List (Option U8)}
    {res : Option (U32 × Fd)} (hout : f₁.output = f.output ++ out)
    (hlen : out.length = E.length) (hsame : out = [] → f₁ = f)
    (hgrow : ∀ ret f', res = some (ret, f') → ∃ rest,
      f'.output = f₁.output ++ rest) :
    WriteRight f total (E ++ D) res ↔ out.map some = E
      ∧ WriteRight f₁ (total + out.length) D res := by
  by_cases hne : out = []
  · subst hne
    obtain rfl : E = [] := List.length_eq_zero_iff.1 hlen.symm
    rw [hsame rfl, List.nil_append, List.length_nil, Nat.add_zero]
    exact (and_iff_right rfl).symm
  · have hpos := List.length_pos_iff.2 hne
    constructor
    · rintro ⟨ret, f', all, hres, hall, hpre, hret⟩
      obtain ⟨rest, hrest⟩ := hgrow ret f' hres
      rw [hrest, hout, List.append_assoc, List.append_cancel_left_eq] at hall
      subst hall
      obtain ⟨t, ht⟩ := hpre
      rw [List.map_append, List.append_assoc] at ht
      obtain ⟨hE, hD⟩ := List.append_inj ht (by rw [List.length_map, hlen])
      refine ⟨hE, ret, f', rest, hres, hrest, ⟨t, hD⟩, ?_⟩
      rw [if_neg fun h => hne (List.append_eq_nil_iff.1 h.2).1,
        List.length_append] at hret
      rw [if_neg (by omega), hret, Nat.add_assoc]
    · rintro ⟨rfl, ret, f', rest, hres, hrest, ⟨t, ht⟩, hret⟩
      refine ⟨ret, f', out ++ rest,
        hres, by rw [hrest, hout, List.append_assoc], ⟨t, ?_⟩, ?_⟩
      · rw [List.map_append, List.append_assoc, ht]
      · rw [if_neg (by omega)] at hret
        rw [if_neg fun h => hne (List.append_eq_nil_iff.1 h.2).1, hret,
          List.length_append, Nat.add_assoc]

/-- A count that fits is its own number. -/
theorem toNat_count {total : Nat} (h : total < 2 ^ 32) :
    (BitVec.ofNat 32 total).toNat = total := by
  rw [BitVec.toNat_ofNat, Nat.mod_eq_of_lt h]

/-- No error is a count. -/
theorem zero_ne_fault : (0 : U32) ≠ err EFAULT := by
  decide

/-- An error that is EFAULT. -/
theorem err_inj {e : U32} (h : err e = err EFAULT) : e = EFAULT :=
  BitVec.neg_inj.1 h

namespace Gathered

variable {m : AddressSpace} {f f₁ : Fd} {base len e : U32} {n total : Nat}
  {out : List U8} {D : List (Option U8)} {res : Option (U32 × Fd)}

/-- After an error the call ends, and rightly. -/
theorem writeRight_error (h : Gathered m f base len (.error e, f₁) out)
    (htotal : total < 2 ^ 32) (D : List (Option U8)) :
    WriteRight f total (m.contents (bufferPlaces base.toNat len.toNat) ++ D)
      (some (if 0 < total then BitVec.ofNat 32 total else err e, f₁)) := by
  refine ⟨_, f₁, [], rfl, by rw [h.output_of_error, List.append_nil],
    List.nil_prefix, ?_⟩
  by_cases h0 : total = 0
  · rw [if_pos ⟨h0, rfl⟩, if_neg (by omega)]
    rcases h.nothing rfl with ⟨-, h⟩ | ⟨hgap, h⟩ | ⟨bytes, hne, hpre, h⟩
    · cases h
    · cases h
      exact .inr (.inl ⟨List.mem_append_left _ hgap, rfl⟩)
    · refine .inr (.inr ⟨bytes, hne, hpre.trans (List.prefix_append _ _),
        .inr ⟨e, ?_, rfl⟩⟩)
      rw [← h]
  · rw [if_neg fun h => h0 h.1, if_pos (by omega), toNat_count htotal]
    rfl

/-- After a short write the call ends, rightly if what was moved ends in the
address space. -/
theorem writeRight_short (h : Gathered m f base len (.ok n, f₁) out)
    (hshort : n < len.toNat) (hsum : total + n < 2 ^ 32) :
    WriteRight f total (m.contents (bufferPlaces base.toNat len.toNat) ++ D)
      (some (BitVec.ofNat 32 (total + n), f₁))
      ↔ base.toNat + n ≤ 2 ^ 32 := by
  have hlen := h.length
  constructor
  · rintro ⟨ret, f', all, hres, hall, hpre, -⟩
    cases hres
    rw [h.output, List.append_cancel_left_eq] at hall
    subst hall
    have hend := end_of_prefix hpre (by omega)
    omega
  · intro hend
    refine ⟨_, f₁, out, rfl, h.output, ?_, ?_⟩
    · have hbytes := h.bytes (by omega)
      rw [Nat.add_zero, hlen] at hbytes
      rw [hbytes, ← Nat.add_sub_cancel' hshort.le, bufferPlaces_add,
        AddressSpace.contents_append, List.append_assoc]
      exact List.prefix_append _ _
    · by_cases h0 : total = 0 ∧ out = []
      · obtain ⟨h0, rfl⟩ := h0
        rw [List.length_nil] at hlen
        subst hlen
        rw [if_pos ⟨h0, rfl⟩, h0]
        rcases h.nothing rfl with ⟨hcount, -⟩ | ⟨-, h⟩ | ⟨bytes, hne, hpre, h⟩
        · rw [hcount] at hshort
          exact absurd hshort (Nat.not_lt_zero _)
        · cases h
        · refine .inr (.inr ⟨bytes, hne,
            hpre.trans (List.prefix_append _ _), .inl ⟨?_, rfl⟩⟩)
          rw [← h]
      · rw [if_neg h0, toNat_count hsum, hlen]

/-- After a whole buffer the call goes on. -/
theorem writeRight_whole (h : Gathered m f base len (.ok len.toNat, f₁) out)
    (hgrow : ∀ ret f', res = some (ret, f') → ∃ rest,
      f'.output = f₁.output ++ rest) :
    WriteRight f total (m.contents (bufferPlaces base.toNat len.toNat) ++ D)
      res
      ↔ base.toNat + len.toNat ≤ 2 ^ 32
        ∧ WriteRight f₁ (total + len.toNat) D res := by
  have hlen := h.length
  rw [writeRight_append h.output (by
    rw [AddressSpace.length_contents, length_bufferPlaces, hlen])
    h.same_of_whole hgrow, hlen]
  refine and_congr_left fun _ => ⟨fun hmoved => ?_, fun hend => ?_⟩
  · have hend : base.toNat + out.length ≤ 2 ^ 32 :=
      end_of_prefix (m := m) (D := [])
        (by rw [List.append_nil, hmoved]) hlen.le
    omega
  · have hbytes := h.bytes (by omega)
    rw [hlen] at hbytes
    exact hbytes

/-- Behind a gap only EFAULT is right, where nothing has been moved. -/
theorem writeRight_gap_error (h : Gathered m f base len (.error e, f₁) out)
    (htotal : total < 2 ^ 32) :
    WriteRight f total (none :: D)
      (some (if 0 < total then BitVec.ofNat 32 total else err e, f₁))
      ↔ (total = 0 → e = EFAULT) := by
  rw [writeRight_gap]
  constructor
  · rintro ⟨ret, f', hres, -, hret⟩ h0
    cases hres
    rw [if_pos h0, if_neg (by omega)] at hret
    exact err_inj hret
  · intro hfault
    refine ⟨_, f₁, rfl, h.output_of_error, ?_⟩
    by_cases h0 : total = 0
    · rw [if_pos h0, if_neg (by omega), hfault h0]
    · rw [if_neg h0, if_pos (by omega), toNat_count htotal]

/-- Behind a gap a file that takes nothing ends the call rightly only where
something has been moved. -/
theorem writeRight_gap_none (h : Gathered m f base len (.ok 0, f₁) out)
    (htotal : total < 2 ^ 32) :
    WriteRight f total (none :: D) (some (BitVec.ofNat 32 total, f₁))
      ↔ total ≠ 0 := by
  rw [writeRight_gap]
  constructor
  · rintro ⟨ret, f', hres, -, hret⟩ h0
    cases hres
    rw [if_pos h0, h0] at hret
    exact zero_ne_fault hret
  · intro h0
    have hgrow := h.output
    rw [List.length_eq_zero_iff.1 h.length, List.append_nil] at hgrow
    refine ⟨_, f₁, rfl, hgrow, ?_⟩
    rw [if_neg h0, toNat_count htotal]

/-- Bytes from behind a gap are not right. -/
theorem not_writeRight_gap (h : Gathered m f base len (.ok n, f₁) out)
    (hn : n ≠ 0)
    (hgrow : ∀ ret f', res = some (ret, f') → ∃ rest,
      f'.output = f₁.output ++ rest) :
    ¬ WriteRight f total (none :: D) res := by
  rw [writeRight_gap]
  rintro ⟨ret, f', hres, hsame, -⟩
  obtain ⟨rest, hrest⟩ := hgrow ret f' hres
  rw [hrest, h.output, List.append_assoc] at hsame
  have hnil := (List.append_eq_nil_iff.1
    (List.append_right_eq_self.1 hsame)).1
  exact hn (by rw [← h.length, hnil, List.length_nil])

end Gathered

/-- What is left of the loop after a buffer adds to what the file has
taken. -/
theorem writevRest_appends (m : AddressSpace) (iov len : U32)
    (k i total n : Nat) (f₁ : Fd) (ret : U32) (f' : Fd)
    (h : (if n < len.toNat then some (BitVec.ofNat 32 (total + n), f₁)
      else writevLoop m iov k i (total + n) f₁) = some (ret, f')) :
    ∃ rest, f'.output = f₁.output ++ rest := by
  split at h
  · cases h
    exact ⟨[], (List.append_nil _).symm⟩
  · exact writevLoop_appends m iov k i _ f₁ h

/-- The loop behind a gap. -/
theorem writevLoop_idle (m : AddressSpace) (iov : U32) (D : List (Option U8))
    (k i total : Nat) (f : Fd)
    (htotal : total < 2 ^ 32) :
    WriteRight f total (none :: D) (writevLoop m iov k i total f)
      ↔ WriteIdle m iov k i total f := by
  induction k generalizing i f with
  | zero =>
    rw [writeRight_gap, writevLoop, WriteIdle]
    constructor
    · rintro ⟨ret, f', hres, -, hret⟩
      cases hres
      by_contra hpos
      rw [if_pos (by omega), show total = 0 by omega] at hret
      exact zero_ne_fault hret
    · intro hpos
      refine ⟨_, f, rfl, rfl, ?_⟩
      rw [if_neg (by omega), toNat_count htotal]
  | succ k ih =>
    rw [WriteIdle, writevLoop]
    generalize m.fetched iov i = e
    obtain ⟨base, len⟩ := e
    dsimp only
    by_cases hfit : IndexFits iov i
    · rw [if_neg (not_not.2 hfit), and_iff_right hfit]
      have hoffered : (len ≠ 0 → total = 0 → m.chunksFrom base len 0 = [])
          ↔ (len ≠ 0 → total = 0 →
            (writeFromGuest m f base len 0).1 = .error EFAULT) := by
        refine forall_congr' fun hlen => forall_congr' fun _ =>
          (writeFromGuest_fault ?_).symm
        exact Nat.pos_of_ne_zero fun h => hlen (BitVec.eq_of_toNat_eq h)
      have hcount := (writeFromGuest_accepts m f base len 0).2
      rw [Nat.zero_add] at hcount
      rw [← hcount, hoffered]
      obtain ⟨out, hout⟩ := writeFromGuest_gathered m f base len
      clear hoffered hcount
      generalize writeFromGuest m f base len 0 = r at hout ⊢
      obtain ⟨r, f₁⟩ := r
      cases r with
      | error e =>
        have hlen := hout.ne_zero_of_error
        rw [hout.writeRight_gap_error htotal]
        dsimp only [Fd.moved]
        constructor
        · intro hfault
          exact ⟨rfl, fun h => absurd h hlen,
            fun _ h0 => by rw [hfault h0]⟩
        · rintro ⟨-, -, hfault⟩ h0
          exact Except.error.inj (hfault hlen h0)
      | ok n =>
        dsimp only [Fd.moved]
        by_cases hn0 : n = 0
        · subst hn0
          rw [Nat.add_zero, if_neg (by omega), and_iff_right rfl]
          by_cases hlen : len = 0
          · subst hlen
            have hnil := List.length_eq_zero_iff.1 hout.length
            rw [if_neg (by decide), hout.same_of_whole hnil, ih]
            exact ⟨fun h => ⟨fun _ => h, fun hne => absurd rfl hne⟩,
              fun h => h.1 rfl⟩
          · have hpos : len.toNat ≠ 0 :=
              fun h => hlen (BitVec.eq_of_toNat_eq h)
            rw [if_pos (by omega), hout.writeRight_gap_none htotal]
            constructor
            · intro h0
              exact ⟨fun h => absurd h hlen, fun _ h => absurd h h0⟩
            · rintro ⟨-, hfault⟩ h0
              cases hfault hlen h0
        · -- bytes from behind the gap
          refine iff_of_false ?_ (fun h => hn0 h.1)
          refine hout.not_writeRight_gap hn0 fun ret f' hres => ?_
          split at hres
          · cases hres
          · exact writevRest_appends m iov len k _ total n f₁ ret f' hres
    · rw [if_pos hfit]
      refine iff_of_false ?_ (fun h => hfit h.1)
      rintro ⟨ret, f', out, hres, -⟩
      cases hres

/-- The loop on the entries from `i` on. -/
theorem writevLoop_right (m : AddressSpace) (iov : U32)
    (k i total : Nat) (f : Fd) (htotal : total < 2 ^ 32) :
    WriteRight f total (m.contents (places m iov k i))
      (writevLoop m iov k i total f)
      ↔ WriteSound m iov k i total f := by
  induction k generalizing i total f with
  | zero =>
    rw [places, writevLoop, WriteSound, iff_true]
    refine ⟨_, f, [], rfl, (List.append_nil _).symm, List.nil_prefix, ?_⟩
    by_cases h0 : total = 0
    · rw [if_pos ⟨h0, rfl⟩, h0]
      exact .inl ⟨rfl, rfl⟩
    · rw [if_neg fun h => h0 h.1, toNat_count htotal]
      rfl
  | succ k ih =>
    rw [places, WriteSound]
    cases hentry : m.entry iov i with
    | none => exact writevLoop_idle m iov _ (k + 1) i total f htotal
    | some e =>
      obtain ⟨base, len⟩ := e
      obtain ⟨hfetch, hfit⟩ := entry_eq_some hentry
      dsimp only
      rw [AddressSpace.contents_append, writevLoop,
        if_neg (not_not.2 hfit), hfetch]
      obtain ⟨hfile, hcount⟩ := writeFromGuest_accepts m f base len 0
      rw [Nat.zero_add] at hcount
      dsimp only
      rw [← hfile, ← hcount, writeFromGuest_whole]
      obtain ⟨out, hout⟩ := writeFromGuest_gathered m f base len
      clear hfile hcount
      generalize writeFromGuest m f base len 0 = r at hout ⊢
      obtain ⟨r, f₁⟩ := r
      have hbase := base.isLt
      cases r with
      | error e =>
        dsimp only [Fd.moved]
        exact iff_of_true (hout.writeRight_error htotal _)
          ⟨by omega, by omega, fun h => by cases h⟩
      | ok n =>
        dsimp only [Fd.moved]
        by_cases hsum : total + n < 2 ^ 32
        · rw [if_neg (by omega), and_iff_right hsum]
          by_cases hshort : n < len.toNat
          · rw [if_pos hshort, hout.writeRight_short hshort hsum]
            refine (and_iff_left fun h => ?_).symm
            have := Except.ok.inj h
            omega
          · have hle := hout.le
            rw [hout.length, Nat.zero_add] at hle
            obtain rfl : n = len.toNat := by omega
            rw [if_neg hshort, hout.writeRight_whole fun ret f' hres =>
              writevLoop_appends m iov k _ _ f₁ hres, ih _ _ _ hsum]
            exact and_congr_right fun _ =>
              ⟨fun hsound _ => hsound, fun hsound => hsound rfl⟩
        · rw [if_pos (by omega)]
          refine iff_of_false ?_ (fun h => hsum h.2.1)
          rintro ⟨ret, f', all, hres, -⟩
          cases hres

end Remu.Usermode
