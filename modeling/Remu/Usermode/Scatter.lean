/-
`readv` against the array it is given.

A read takes its bytes from the file before it stores them, so a buffer
that is not mapped loses what was read; and it fetches an entry when it
comes to it, after the reads before have been stored. `ReadSound` says when
neither happens.
-/
import Remu.Usermode.Gather
import Remu.Usermode.Image

namespace Remu.Usermode

-- ======== memory

namespace AddressSpace

/-- Store a byte where it is mapped. -/
def storeAt (m : AddressSpace) (p : Nat × U8) : AddressSpace :=
  match m.chunks (p.1 / CHUNK_SIZE) with
  | some c => m.putByte p.1 c p.2
  | none => m

/-- Store bytes, each at its own address, in order. -/
def scatter (m : AddressSpace) (l : List (Nat × U8)) : AddressSpace :=
  l.foldl storeAt m

theorem byte_storeAt_isSome (m : AddressSpace) (p : Nat × U8) (x : Nat) :
    ((m.storeAt p).byte? x).isSome = (m.byte? x).isSome := by
  rw [storeAt]
  split
  · rename_i c hc
    rw [byte_putByte m hc]
    split
    · rename_i hx
      rw [hx, byte?, hc]
      rfl
    · rfl
  · rfl

theorem byte_scatter_isSome (m : AddressSpace)
    (l : List (Nat × U8)) (x : Nat) :
    ((m.scatter l).byte? x).isSome = (m.byte? x).isSome := by
  induction l generalizing m with
  | nil => rfl
  | cons p l ih => exact (ih (m.storeAt p)).trans (m.byte_storeAt_isSome p x)

/-- What is not stored to is kept. -/
theorem byte_scatter_ne (m : AddressSpace) (l : List (Nat × U8)) {x : Nat}
    (hx : ∀ p ∈ l, p.1 ≠ x) :
    (m.scatter l).byte? x = m.byte? x := by
  induction l generalizing m with
  | nil => rfl
  | cons p l ih =>
    refine (ih (m.storeAt p) fun q hq =>
      hx q (List.mem_cons_of_mem _ hq)).trans ?_
    rw [storeAt]
    split
    · rename_i c hc
      rw [byte_putByte m hc, if_neg fun h => hx p List.mem_cons_self h.symm]
    · rfl

/-- `n` bytes from `a` on are there. -/
def Mapped (m : AddressSpace) (a n : Nat) : Prop :=
  ∀ x, a ≤ x → x < a + n → x < 2 ^ 32 ∧ (m.byte? x).isSome

/-- A copy succeeds when its bytes are there. -/
theorem writeBytes_scatter (m : AddressSpace) (a : Nat) (data : List U8) :
    ((m.writeBytes a data).1 = true ↔ m.Mapped a data.length)
      ∧ ((m.writeBytes a data).1 = true →
        (m.writeBytes a data).2
          = m.scatter ((List.range' a data.length).zip data)) := by
  induction data generalizing m a with
  | nil =>
    refine ⟨iff_of_true rfl fun x hlo hhi => ?_, fun _ => rfl⟩
    rw [List.length_nil] at hhi
    omega
  | cons v data ih =>
    rw [writeBytes, List.length_cons, List.range'_succ, List.zip_cons_cons]
    by_cases ha : 2 ^ 32 ≤ a
    · rw [if_pos ha]
      refine ⟨iff_of_false Bool.false_ne_true fun h => ?_,
        fun h => absurd h Bool.false_ne_true⟩
      have := (h a (Nat.le_refl a) (by omega)).1
      omega
    · rw [if_neg ha]
      cases hc : m.chunks (a / CHUNK_SIZE) with
      | none =>
        refine ⟨iff_of_false Bool.false_ne_true fun h => ?_,
          fun h => absurd h Bool.false_ne_true⟩
        have := (h a (Nat.le_refl a) (by omega)).2
        rw [byte?, hc] at this
        cases this
      | some c =>
        obtain ⟨hdone, hmem⟩ := ih (m.putByte a c v) (a + 1)
        have hput : m.storeAt (a, v) = m.putByte a c v := by
          rw [storeAt]
          dsimp only
          rw [hc]
        have hsome :
          ∀ x, ((m.putByte a c v).byte? x).isSome = (m.byte? x).isSome := by
          intro x
          rw [← hput]
          exact m.byte_storeAt_isSome (a, v) x
        dsimp only
        refine ⟨?_, fun h => ?_⟩
        · rw [hdone]
          constructor
          · intro h x hlo hhi
            rcases Nat.eq_or_lt_of_le hlo with rfl | hlt
            · rw [byte?, hc]
              exact ⟨by omega, rfl⟩
            · rw [← hsome]
              exact h x hlt (by omega)
          · intro h x hlo hhi
            rw [hsome]
            exact h x (by omega) (by omega)
        · rw [hmem h, scatter, scatter, List.foldl_cons, hput]

end AddressSpace

-- ======== files

/-- Everything a file has delivered. -/
def Fd.taken : Fd → List U8
  | .stdin s | .stdout s | .stderr s | .file s => s.delivered
  | .sink _ => []

def takenBy (f : Option Fd) : List U8 := (f.map Fd.taken).getD []

/-- Read from what a descriptor is open on. -/
def readSlot (f : Option Fd) (n : Nat) : Except U32 (List U8) × Option Fd :=
  match f with
  | none => (.error EBADF, none)
  | some f => ((f.read n).1, some (f.read n).2)

/-- What a read says of its file. -/
structure Reads (f : Option Fd) (n : Nat) : Prop where
  ok : ∀ bytes, (readSlot f n).1 = .ok bytes →
    takenBy (readSlot f n).2 = takenBy f ++ bytes ∧ bytes.length ≤ n
  error : ∀ e, (readSlot f n).1 = .error e →
    takenBy (readSlot f n).2 = takenBy f ∧ (e = EIO ∨ e = EBADF) ∧ ∀ k,
      (readSlot f k).1 = .error e
  eof : (readSlot f n).1 = .ok [] → 0 < n → (readSlot f 1).1 = .ok []

theorem reads_of_stream (s : Stream) (n : Nat) (mk : Stream → Fd)
    (htaken : ∀ s, (mk s).taken = s.delivered)
    (hread : ∀ k,
      (mk s).read k
      = (((s.read k).1.map .ok).getD (.error EIO), mk (s.read k).2)) :
    Reads (some (mk s)) n := by
  have hslot : ∀ k, readSlot (some (mk s)) k
      = (((s.read k).1.map .ok).getD (.error EIO),
        some (mk (s.read k).2)) := by
    intro k
    rw [readSlot, hread]
  cases hans : s.answer s.calls with
  | none =>
    have hnone : ∀ k,
      readSlot (some (mk s)) k
      = (.error EIO, some (mk { s with calls := s.calls + 1 })) := by
      intro k
      rw [hslot, Stream.read, hans]
      rfl
    constructor
    · intro bytes h
      rw [hnone] at h
      cases h
    · intro e h
      rw [hnone] at h
      cases h
      refine ⟨?_, .inl rfl, fun k => by rw [hnone]⟩
      rw [hnone]
      exact (htaken _).trans (htaken s).symm
    · intro h
      rw [hnone] at h
      cases h
  | some k =>
    have hsome : ∀ n, (readSlot (some (mk s)) n).1
        = .ok ((List.range (min k n)).map fun j =>
          s.input (s.delivered.length + j)) := by
      intro n
      rw [hslot, Stream.read, hans]
      rfl
    constructor
    · intro bytes h
      rw [hsome] at h
      cases h
      refine ⟨?_, ?_⟩
      · rw [hslot, Stream.read, hans]
        dsimp only
        rw [takenBy, takenBy, Option.map_some, Option.map_some,
          Option.getD_some, Option.getD_some, htaken, htaken]
      · rw [List.length_map, List.length_range]
        exact Nat.min_le_right _ _
    · intro e h
      rw [hsome] at h
      cases h
    · intro h hn
      rw [hsome] at h ⊢
      have hlen := congrArg List.length (Except.ok.inj h)
      rw [List.length_map, List.length_range, List.length_nil] at hlen
      rw [show min k 1 = 0 by omega]
      rfl

theorem readSlot_spec (f : Option Fd) (n : Nat) : Reads f n := by
  have hbad : ∀ f : Option Fd,
    (∀ k, readSlot f k = (.error EBADF, f)) → Reads f n := by
    intro f hf
    constructor
    · intro bytes h
      rw [hf] at h
      cases h
    · intro e h
      rw [hf] at h ⊢
      cases h
      exact ⟨rfl, .inr rfl, fun k => by rw [hf]⟩
    · intro h
      rw [hf] at h
      cases h
  cases f with
  | none => exact hbad none fun _ => rfl
  | some f =>
    cases f with
    | stdin s => exact reads_of_stream s n .stdin (fun _ => rfl) fun _ => rfl
    | stdout s => exact hbad _ fun _ => rfl
    | stderr s => exact hbad _ fun _ => rfl
    | file s => exact reads_of_stream s n .file (fun _ => rfl) fun _ => rfl
    | sink v =>
      constructor
      · intro bytes h
        cases h
        exact ⟨rfl, Nat.zero_le _⟩
      · intro e h
        cases h
      · intro _ _
        rfl

/-- A read into guest memory, by the read of the file. -/
theorem sysRead_error {f f' : Option Fd} {e : U32}
    (m : AddressSpace) (buf count : U32)
    (h : readSlot f (chunkLen count.toNat) = (.error e, f')) :
    sysRead m f buf count = (err e, f', m) := by
  cases f with
  | none =>
    cases h
    rfl
  | some f =>
    rw [readSlot] at h
    rw [sysRead]
    obtain ⟨h₁, rfl⟩ := Prod.mk.inj h
    cases hread : f.read (chunkLen count.toNat) with
    | mk r f₁ =>
      rw [hread] at h₁
      cases h₁
      rfl

theorem sysRead_ok {f f' : Option Fd} {bytes : List U8}
    (m : AddressSpace) (buf count : U32)
    (h : readSlot f (chunkLen count.toNat) = (.ok bytes, f')) :
    sysRead m f buf count
      = (if (m.writeBytes buf.toNat bytes).1 then BitVec.ofNat 32 bytes.length
      else err EFAULT, f', (m.writeBytes buf.toNat bytes).2) := by
  cases f with
  | none => cases h
  | some f =>
    rw [readSlot] at h
    rw [sysRead]
    obtain ⟨h₁, rfl⟩ := Prod.mk.inj h
    cases hread : f.read (chunkLen count.toNat) with
    | mk r f₁ =>
      rw [hread] at h₁
      cases h₁
      dsimp only
      cases hwrite : m.writeBytes buf.toNat bytes with
      | mk done m' => cases done <;> rfl

-- ======== the whole array

/-- The file after `j` reads of no bytes. -/
def idled (f : Option Fd) (j : Nat) : Option Fd :=
  (fun g => (readSlot g 0).2)^[j] f

/-- The file was asked for the next bytes and had none. -/
def Denied (f : Option Fd) (ps : List (Option Nat)) (ret : U32) : Prop :=
  ∃ (j : Nat) (addrs : List Nat), addrs.map some <+: ps
    ∧ ((readSlot (idled f j) addrs.length).1 = .ok [] ∧ addrs ≠ [] ∧ ret = 0
      ∨ ∃ e, (readSlot (idled f j) addrs.length).1 = .error e ∧ ret = err e)

/-- What a call returns that has moved nothing: there was nothing to fill,
a gap or an unmapped byte was met, or the file had nothing. -/
def NothingRead (f : Option Fd) (ps : List (Option Nat)) (m : AddressSpace)
    (ret : U32) : Prop :=
  ps = [] ∧ ret = 0 ∨ (∃ p ∈ ps, p.bind m.byte? = none)
    ∧ ret = err EFAULT ∨ Denied f ps ret

/-- A call that has moved `total` bytes, and has the places `ps` to fill,
overflows no sum, fills the first of them with what it takes from the file
and returns the count of it all; `N` is what it may return for nothing. -/
def ReadResult (N : U32 → Prop) (f : Option Fd) (total : Nat)
    (ps : List (Option Nat)) (m : AddressSpace)
    (res : Option (U32 × Option Fd × AddressSpace)) : Prop :=
  ∃ (ret : U32) (f' : Option Fd) (data : List U8) (addrs : List Nat),
    res = some (ret, f', m.scatter (addrs.zip data))
      ∧ takenBy f' = takenBy f ++ data ∧ addrs.map some <+: ps
      ∧ addrs.length = data.length
      ∧ (∀ x ∈ addrs, (m.byte? x).isSome)
      ∧ if total = 0
      ∧ data = [] then N ret else ret.toNat = total + data.length

def ReadRight (f : Option Fd) (total : Nat)
    (ps : List (Option Nat)) (m : AddressSpace)
    (res : Option (U32 × Option Fd × AddressSpace)) : Prop :=
  ReadResult (NothingRead f ps m) f total ps m res

/-- The file delivers nothing for the entries from `i` on, each taken as it
is fetched; and where it delivered nothing before, it answers one of them
with an error. -/
def ReadIdle (iov : U32) (m : AddressSpace) :
    Nat → Nat → Nat → Option Fd → Prop
  | 0, _, total, _ => 0 < total
  | k + 1, i, total, f =>
    let len := (m.fetched iov i).2
    IndexFits iov i ∧
      match readSlot f (chunkLen len.toNat) with
      | (.error _, _) => True
      | (.ok bytes, f) =>
        bytes = [] ∧ (len = 0 → ReadIdle iov m k (i + 1) total f)
          ∧ (len ≠ 0 → 0 < total)

/-- At every entry of the array in `m₀` the loop comes to: it can be read,
it still is what it was, and the bytes the file delivers find its buffer
mapped. Or nothing is taken from there on. -/
def ReadSound (m₀ : AddressSpace) (iov : U32) :
    Nat → Nat → Nat → Option Fd → AddressSpace → Prop
  | 0, _, _, _, _ => True
  | k + 1, i, total, f, m =>
    match m₀.entry iov i with
    | none => ReadIdle iov m (k + 1) i total f
    | some (base, len) =>
      m.fetched iov i = (base, len) ∧
        match readSlot f (chunkLen len.toNat) with
        | (.error _, _) => True
        | (.ok bytes, f) =>
          m.Mapped base.toNat bytes.length ∧ (bytes.length = len.toNat →
            ReadSound m₀ iov k (i + 1) (total + bytes.length) f
              (m.writeBytes base.toNat bytes).2)

-- ======== behind a gap

theorem readResult_gap {N : U32 → Prop} {f : Option Fd} {total : Nat}
    {D : List (Option Nat)}
    {m : AddressSpace} {res : Option (U32 × Option Fd × AddressSpace)} :
    ReadResult N f total (none :: D) m res ↔ ∃ ret f', res = some (ret, f', m)
      ∧ takenBy f' = takenBy f
      ∧ if total = 0 then N ret else ret.toNat = total := by
  constructor
  · rintro ⟨ret, f', data, addrs, hres, htaken, hpre, hlen, -, hret⟩
    obtain rfl : addrs = [] := by
      cases addrs with
      | nil => rfl
      | cons x addrs =>
        rw [List.map_cons, List.cons_prefix_cons] at hpre
        cases hpre.1
    obtain rfl : data = [] := List.length_eq_zero_iff.1 hlen.symm
    rw [List.append_nil] at htaken
    refine ⟨ret, f', hres, htaken, ?_⟩
    by_cases h0 : total = 0
    · rw [if_pos ⟨h0, rfl⟩] at hret
      rwa [if_pos h0]
    · rw [if_neg fun h => h0 h.1] at hret
      rwa [if_neg h0]
  · rintro ⟨ret, f', hres, htaken, hret⟩
    refine ⟨ret, f', [], [], hres, by rw [htaken, List.append_nil],
      List.nil_prefix, rfl, fun x hx => absurd hx List.not_mem_nil, ?_⟩
    by_cases h0 : total = 0
    · rw [if_pos h0] at hret
      rwa [if_pos ⟨h0, rfl⟩]
    · rw [if_neg h0] at hret
      rwa [if_neg fun h => h0 h.1]

/-- Behind a gap nothing is read but errors. -/
theorem nothingRead_gap {f : Option Fd} {D : List (Option Nat)}
    {m : AddressSpace} {ret : U32} :
    NothingRead f (none :: D) m ret
      ↔ ret = err EFAULT ∨ ∃ j e, (readSlot (idled f j) 0).1 = .error e
        ∧ ret = err e := by
  constructor
  · rintro (⟨h, -⟩ | ⟨-, h⟩ | ⟨j, addrs, hpre, hret⟩)
    · cases h
    · exact .inl h
    · obtain rfl : addrs = [] := by
        cases addrs with
        | nil => rfl
        | cons x addrs =>
          rw [List.map_cons, List.cons_prefix_cons] at hpre
          cases hpre.1
      rcases hret with ⟨-, h, -⟩ | ⟨e, he, h⟩
      · exact absurd rfl h
      · exact .inr ⟨j, e, he, h⟩
  · rintro (h | ⟨j, e, he, h⟩)
    · exact .inr (.inl ⟨⟨none, List.mem_cons_self, rfl⟩, h⟩)
    · exact .inr (.inr ⟨j, [], List.nil_prefix, .inr ⟨e, he, h⟩⟩)

/-- What a file's error says as a result. -/
theorem err_file {f : Option Fd} {n : Nat} {e : U32}
    (h : (readSlot f n).1 = .error e) :
    err e ≠ 0 ∧ (err e).toInt < 0 ∧ err e ≠ err EFAULT := by
  rcases ((readSlot_spec f n).error e h).2.1 with rfl | rfl <;> decide

theorem not_nothingRead_zero {f : Option Fd} {D : List (Option Nat)}
    {m : AddressSpace} :
    ¬ NothingRead f (none :: D) m 0 := by
  rw [nothingRead_gap]
  rintro (h | ⟨j, e, he, h⟩)
  · exact zero_ne_fault h
  · exact (err_file he).1 h.symm

/-- The loop adds to what has been taken. -/
theorem readvLoop_grows (iov : U32) (k i total : Nat) (f : Option Fd)
    (m : AddressSpace) {ret : U32}
    {f' : Option Fd} {m' : AddressSpace}
    (h : readvLoop iov k i total f m = some (ret, f', m')) :
    ∃ rest, takenBy f' = takenBy f ++ rest := by
  induction k generalizing i total f m with
  | zero =>
    cases h
    exact ⟨[], (List.append_nil _).symm⟩
  | succ k ih =>
    rw [readvLoop] at h
    split at h
    · cases h
    · dsimp only at h
      have hread := readSlot_spec f (chunkLen (m.fetched iov i).2.toNat)
      have hstep : ∃ bytes,
          takenBy (sysRead m f (m.fetched iov i).1 (m.fetched iov i).2).2.1
          = takenBy f ++ bytes := by
        cases hr : readSlot f (chunkLen (m.fetched iov i).2.toNat) with
        | mk r f₁ =>
          cases r with
          | error e =>
            rw [sysRead_error m _ _ hr]
            have := (hread.error e (by rw [hr])).1
            rw [hr] at this
            exact ⟨[], by rw [this, List.append_nil]⟩
          | ok bytes =>
            rw [sysRead_ok m _ _ hr]
            have := (hread.ok bytes (by rw [hr])).1
            rw [hr] at this
            exact ⟨bytes, this⟩
      obtain ⟨bytes, hbytes⟩ := hstep
      split at h
      · cases h
        exact ⟨bytes, hbytes⟩
      · split at h
        · cases h
        · split at h
          · cases h
            exact ⟨bytes, hbytes⟩
          · obtain ⟨rest, hrest⟩ := ih _ _ _ _ h
            exact ⟨bytes ++ rest, by rw [hrest, hbytes, List.append_assoc]⟩

-- ======== one iteration

section Iteration

variable {iov : U32} {k i total : Nat} {f f' : Option Fd}
  {m : AddressSpace} {base len : U32}

theorem readvLoop_error {e : U32} (hfit : IndexFits iov i)
    (hfetch : m.fetched iov i = (base, len))
    (h : readSlot f (chunkLen len.toNat) = (.error e, f')) :
    readvLoop iov (k + 1) i total f m
      = some (if 0 < total then BitVec.ofNat 32 total else err e, f', m) := by
  rw [readvLoop, if_neg (not_not.2 hfit), hfetch]
  dsimp only
  rw [sysRead_error m _ _ h]
  exact if_pos (err_file (f := f) (n := chunkLen len.toNat) (by rw [h])).2.1

theorem readvLoop_ok {bytes : List U8} (hfit : IndexFits iov i)
    (hfetch : m.fetched iov i = (base, len))
    (htotal : total + 65536 < 2 ^ 32)
    (h : readSlot f (chunkLen len.toNat) = (.ok bytes, f')) :
    readvLoop iov (k + 1) i total f m = if (m.writeBytes base.toNat bytes).1
      then
        if bytes.length < len.toNat then
          some (BitVec.ofNat 32 (total + bytes.length), f',
            (m.writeBytes base.toNat bytes).2)
        else readvLoop iov k (i + 1) (total + bytes.length) f'
          (m.writeBytes base.toNat bytes).2
      else some (if 0 < total then BitVec.ofNat 32 total else err EFAULT, f',
        (m.writeBytes base.toNat bytes).2) := by
  have hread := ((readSlot_spec f (chunkLen len.toNat)).ok bytes (by rw [h])).2
  have hchunk := (chunkLen_le len.toNat).2
  rw [readvLoop, if_neg (not_not.2 hfit), hfetch]
  dsimp only
  rw [sysRead_ok m _ _ h]
  dsimp only
  split
  · have hcount : (BitVec.ofNat 32 bytes.length).toNat = bytes.length :=
      toNat_count (by omega)
    have hpos : ¬ (BitVec.ofNat 32 bytes.length).toInt < 0 := by
      rw [BitVec.toInt_eq_toNat_cond, hcount, if_pos (by omega)]
      omega
    rw [if_neg hpos, hcount, if_neg (by omega)]
    simp only [BitVec.lt_def, hcount]
  · exact if_pos (by decide)

/-- Room for one chunk more. -/
theorem room_of_succ {n : Nat} (hn : n ≤ 65536)
    (htotal : total + (k + 1) * 65536 < 2 ^ 32) :
    total + n + k * 65536 < 2 ^ 32 := by
  rw [Nat.succ_mul] at htotal
  generalize k * 65536 = room at *
  omega

/-- A file that has answered a read of no bytes denies what it denies after
it. -/
theorem NothingRead.before {ps : List (Option Nat)} {ret : U32}
    (hnext : (readSlot f 0).2 = f')
    (h : NothingRead f' ps m ret) : NothingRead f ps m ret := by
  refine h.imp_right (Or.imp_right ?_)
  rintro ⟨j, addrs, hpre, hret⟩
  refine ⟨j + 1, addrs, hpre, ?_⟩
  rw [idled, Function.iterate_succ_apply, hnext]
  exact hret

/-- The loop behind a gap, if it takes nothing. -/
theorem ReadIdle.right (D : List (Option Nat))
    (htotal : total + k * 65536 < 2 ^ 32)
    (h : ReadIdle iov m k i total f) :
    ReadRight f total (none :: D) m (readvLoop iov k i total f m) := by
  induction k generalizing i f with
  | zero =>
    have hpos : 0 < total := h
    refine readResult_gap.2 ⟨_, f, rfl, rfl, ?_⟩
    rw [if_neg (by omega), toNat_count (by omega)]
  | succ k ih =>
    rw [ReadIdle] at h
    obtain ⟨hfit, h⟩ := h
    generalize hfetch : m.fetched iov i = entry at h
    obtain ⟨base, len⟩ := entry
    dsimp only at h
    have hread := readSlot_spec f (chunkLen len.toNat)
    have hroom : total + 65536 < 2 ^ 32 := by omega
    cases hr : readSlot f (chunkLen len.toNat) with
    | mk r f₁ =>
      rw [hr] at h
      cases r with
      | error e =>
        obtain ⟨htaken, -, hany⟩ := hread.error e (by rw [hr])
        rw [hr] at htaken
        rw [readvLoop_error hfit hfetch hr]
        refine readResult_gap.2 ⟨_, f₁, rfl, htaken, ?_⟩
        by_cases h0 : total = 0
        · rw [if_pos h0, if_neg (by omega), nothingRead_gap]
          exact .inr ⟨0, e, hany 0, rfl⟩
        · rw [if_neg h0, if_pos (by omega), toNat_count (by omega)]
      | ok bytes =>
        obtain ⟨rfl, hempty, hpos⟩ := h
        have htaken := (hread.ok [] (by rw [hr])).1
        rw [hr, List.append_nil] at htaken
        rw [readvLoop_ok hfit hfetch hroom hr,
          show m.writeBytes base.toNat [] = (true, m) from rfl, if_pos rfl,
          List.length_nil, Nat.add_zero]
        dsimp only
        by_cases hlen : len = 0
        · have hzero : len.toNat = 0 := by rw [hlen]; rfl
          rw [hzero] at hr
          have hnext :
            (readSlot f 0).2 = f₁ := by rw [show readSlot f 0 = _ from hr]
          rw [if_neg (by omega)]
          obtain ⟨ret, f', hres, hsame, hret⟩ := readResult_gap.1
            (ih (room_of_succ (Nat.zero_le _) htotal) (hempty hlen))
          refine readResult_gap.2 ⟨ret, f', hres, hsame.trans htaken, ?_⟩
          by_cases h0 : total = 0
          · rw [if_pos h0] at hret ⊢
            exact hret.before hnext
          · rw [if_neg h0] at hret ⊢
            exact hret
        · have hne : len.toNat ≠ 0 := fun h => hlen (BitVec.eq_of_toNat_eq h)
          have := hpos hlen
          rw [if_pos (by omega)]
          refine readResult_gap.2 ⟨_, f₁, rfl, htaken, ?_⟩
          rw [if_neg (by omega), toNat_count (by omega)]

/-- And only if. -/
theorem readIdle_of_result (D : List (Option Nat))
    (htotal : total + k * 65536 < 2 ^ 32)
    (h : ReadResult (· ≠ 0) f total (none :: D) m
      (readvLoop iov k i total f m)) :
    ReadIdle iov m k i total f := by
  induction k generalizing i f with
  | zero =>
    obtain ⟨ret, f', hres, -, hret⟩ := readResult_gap.1 h
    cases hres
    change 0 < total
    by_contra hpos
    rw [if_pos (by omega), show total = 0 by omega] at hret
    exact hret rfl
  | succ k ih =>
    by_cases hfit : IndexFits iov i
    case neg =>
      rw [readvLoop, if_pos hfit] at h
      obtain ⟨ret, f', data, addrs, hres, -⟩ := h
      cases hres
    rw [ReadIdle, and_iff_right hfit]
    generalize hfetch : m.fetched iov i = entry
    obtain ⟨base, len⟩ := entry
    dsimp only
    have hread := readSlot_spec f (chunkLen len.toNat)
    have hroom : total + 65536 < 2 ^ 32 := by omega
    cases hr : readSlot f (chunkLen len.toNat) with
    | mk r f₁ =>
      cases r with
      | error e => trivial
      | ok bytes =>
        obtain ⟨htaken, hle⟩ := hread.ok bytes (by rw [hr])
        rw [hr] at htaken
        dsimp only at htaken ⊢
        rw [readvLoop_ok hfit hfetch hroom hr] at h
        by_cases hbytes : bytes = []
        · subst hbytes
          rw [List.append_nil] at htaken
          rw [show m.writeBytes base.toNat [] = (true, m) from rfl, if_pos rfl,
            List.length_nil, Nat.add_zero] at h
          dsimp only at h
          refine ⟨rfl, fun hlen => ?_, fun hlen => ?_⟩
          · have hzero : len.toNat = 0 := by rw [hlen]; rfl
            rw [if_neg (by omega)] at h
            refine ih (room_of_succ (Nat.zero_le _) htotal) ?_
            obtain ⟨ret, f', hres, hsame, hret⟩ := readResult_gap.1 h
            exact readResult_gap.2 ⟨ret, f', hres,
              hsame.trans htaken.symm, hret⟩
          · have hne : len.toNat ≠ 0 := fun h => hlen (BitVec.eq_of_toNat_eq h)
            rw [if_pos (by omega)] at h
            obtain ⟨ret, f', hres, -, hret⟩ := readResult_gap.1 h
            cases hres
            by_contra hpos
            rw [if_pos (by omega), show total = 0 by omega] at hret
            exact hret rfl
        · -- bytes for places behind the gap
          exfalso
          obtain ⟨ret, f', hres, hsame, -⟩ := readResult_gap.1 h
          have hmore : ∃ rest, takenBy f' = takenBy f₁ ++ rest := by
            split at hres
            · split at hres
              · obtain ⟨-, h⟩ := Prod.mk.inj (Option.some.inj hres)
                obtain ⟨rfl, -⟩ := Prod.mk.inj h
                exact ⟨[], (List.append_nil _).symm⟩
              · exact readvLoop_grows iov k _ _ f₁ _ hres
            · obtain ⟨-, h⟩ := Prod.mk.inj (Option.some.inj hres)
              obtain ⟨rfl, -⟩ := Prod.mk.inj h
              exact ⟨[], (List.append_nil _).symm⟩
          obtain ⟨rest, hrest⟩ := hmore
          rw [hrest, htaken, List.append_assoc] at hsame
          exact hbytes
            (List.append_eq_nil_iff.1 (List.append_right_eq_self.1 hsame)).1

variable {f₁ : Option Fd} {bytes : List U8} {D : List (Option Nat)}

/-- Bytes that find their buffer mapped go to its first places. -/
theorem places_of_mapped (hle : bytes.length ≤ len.toNat)
    (hmap : m.Mapped base.toNat bytes.length) :
    bufferPlaces base.toNat len.toNat
      = (List.range' base.toNat bytes.length).map some
      ++ bufferPlaces (base.toNat + bytes.length)
        (len.toNat - bytes.length) := by
  have hbase := base.isLt
  have hend : base.toNat + bytes.length ≤ 2 ^ 32 := by
    rcases Nat.eq_zero_or_pos bytes.length with h0 | hpos
    · omega
    · have := (hmap (base.toNat + bytes.length - 1) (by omega) (by omega)).1
      omega
  rw [← bufferPlaces_eq hend, ← bufferPlaces_add, Nat.add_sub_cancel' hle]

/-- An entry whose bytes are stored. -/
theorem ReadRight.step (hfit : IndexFits iov i)
    (hfetch : m.fetched iov i = (base, len))
    (htotal : total + (k + 1) * 65536 < 2 ^ 32)
    (hr : readSlot f (chunkLen len.toNat) = (.ok bytes, f₁))
    (hmap : m.Mapped base.toNat bytes.length)
    (hrest : bytes.length = len.toNat → ReadRight f₁ (total + bytes.length) D
      (m.writeBytes base.toNat bytes).2
      (readvLoop iov k (i + 1) (total + bytes.length) f₁
        (m.writeBytes base.toNat bytes).2)) :
    ReadRight f total (bufferPlaces base.toNat len.toNat ++ D) m
      (readvLoop iov (k + 1) i total f m) := by
  have hspec := readSlot_spec f (chunkLen len.toNat)
  obtain ⟨htaken, hchunk⟩ := hspec.ok bytes (by rw [hr])
  rw [hr] at htaken
  dsimp only at htaken
  have hlen := hchunk.trans (chunkLen_le len.toNat).1
  have hroom : total + 65536 < 2 ^ 32 := by omega
  have hsmall := hchunk.trans (chunkLen_le len.toNat).2
  obtain ⟨hdone, hmem⟩ := m.writeBytes_scatter base.toNat bytes
  rw [readvLoop_ok hfit hfetch hroom hr, if_pos (hdone.2 hmap)]
  have hsome :
    ∀ x ∈ List.range' base.toNat bytes.length, (m.byte? x).isSome := by
    intro x hx
    rw [List.mem_range'_1] at hx
    exact (hmap x hx.1 hx.2).2
  by_cases hshort : bytes.length < len.toNat
  · rw [if_pos hshort]
    refine ⟨BitVec.ofNat 32 (total + bytes.length), f₁, bytes,
      List.range' base.toNat bytes.length, ?_,
      htaken, ?_, List.length_range', hsome, ?_⟩
    · rw [hmem (hdone.2 hmap)]
    · rw [places_of_mapped hlen hmap, List.append_assoc]
      exact List.prefix_append _ _
    · by_cases h0 : total = 0 ∧ bytes = []
      · obtain ⟨rfl, rfl⟩ := h0
        rw [if_pos ⟨rfl, rfl⟩]
        -- the file has no byte for the first place
        refine .inr (.inr ⟨0, [base.toNat], ?_, .inl ⟨?_, List.cons_ne_nil _ _, rfl⟩⟩)
        · rw [show len.toNat = len.toNat - 1 + 1 by omega, bufferPlaces_succ,
            if_pos base.isLt, List.cons_append]
          exact List.cons_prefix_cons.2 ⟨rfl, List.nil_prefix⟩
        · exact hspec.eof (by rw [hr]) (chunkLen_pos (by omega))
      · rw [if_neg h0, toNat_count (by omega)]
  · have hfull : bytes.length = len.toNat := by omega
    rw [if_neg hshort]
    obtain ⟨ret, f', data, addrs, hres, hdata, hpre, haddrs, hplaces, hret⟩ :=
      hrest hfull
    refine ⟨ret, f', bytes ++ data,
      List.range' base.toNat bytes.length ++ addrs, ?_, ?_, ?_, ?_, ?_, ?_⟩
    · rw [hres, List.zip_append List.length_range', hmem (hdone.2 hmap),
        AddressSpace.scatter, AddressSpace.scatter, AddressSpace.scatter,
        List.foldl_append]
    · rw [hdata, htaken, List.append_assoc]
    · rw [places_of_mapped hlen hmap, ← hfull, Nat.sub_self, List.map_append,
        List.append_assoc]
      exact (List.prefix_append_right_inj _).2 hpre
    · rw [List.length_append, List.length_append, List.length_range', haddrs]
    · intro x hx
      rcases List.mem_append.1 hx with hx | hx
      · exact hsome x hx
      · have := hplaces x hx
        rwa [hmem (hdone.2 hmap), AddressSpace.byte_scatter_isSome] at this
    · by_cases h0 : total = 0 ∧ bytes ++ data = []
      · obtain ⟨rfl, hnil⟩ := h0
        obtain ⟨rfl, rfl⟩ := List.append_eq_nil_iff.1 hnil
        have hzero : len.toNat = 0 := hfull.symm
        rw [hzero] at hr ⊢
        rw [if_pos ⟨rfl, hnil⟩]
        rw [if_pos ⟨rfl, rfl⟩] at hret
        exact NothingRead.before (by rw [show readSlot f 0 = _ from hr]) hret
      · rw [if_neg h0, List.length_append, ← Nat.add_assoc]
        rwa [if_neg fun h =>
          h0 ⟨by omega,
          List.append_eq_nil_iff.2
          ⟨List.length_eq_zero_iff.1 (by omega), h.2⟩⟩]
          at hret

/-- The converse: `N` and `N'` agree where nothing has been moved. -/
theorem ReadResult.unstep {N N' : U32 → Prop}
    (hN : len.toNat = 0 → ∀ ret, N ret → N' ret)
    (hfit : IndexFits iov i) (hfetch : m.fetched iov i = (base, len))
    (htotal : total + (k + 1) * 65536 < 2 ^ 32)
    (hr : readSlot f (chunkLen len.toNat) = (.ok bytes, f₁))
    (h : ReadResult N f total (bufferPlaces base.toNat len.toNat ++ D) m
      (readvLoop iov (k + 1) i total f m)) :
    m.Mapped base.toNat bytes.length
      ∧ (bytes.length = len.toNat → ReadResult N' f₁ (total + bytes.length) D
      (m.writeBytes base.toNat bytes).2
      (readvLoop iov k (i + 1) (total + bytes.length) f₁
        (m.writeBytes base.toNat bytes).2)) := by
  obtain ⟨htaken, hchunk⟩ :=
    (readSlot_spec f (chunkLen len.toNat)).ok bytes (by rw [hr])
  rw [hr] at htaken
  dsimp only at htaken
  have hlen := hchunk.trans (chunkLen_le len.toNat).1
  have hsmall := hchunk.trans (chunkLen_le len.toNat).2
  have hroom : total + 65536 < 2 ^ 32 := by omega
  obtain ⟨hdone, hmem⟩ := m.writeBytes_scatter base.toNat bytes
  rw [readvLoop_ok hfit hfetch hroom hr] at h
  by_cases hwrite : (m.writeBytes base.toNat bytes).1 = true
  · have hmap := hdone.1 hwrite
    rw [if_pos hwrite] at h
    refine ⟨hmap, fun hfull => ?_⟩
    rw [if_neg (by omega)] at h
    obtain ⟨ret, f', all, places, hres, hall, hpre, hplaces, hsome, hret⟩ := h
    obtain ⟨data, hdata⟩ := readvLoop_grows iov k _ _ f₁ _ hres
    rw [hdata, htaken, List.append_assoc, List.append_cancel_left_eq] at hall
    subst hall
    rw [List.length_append] at hplaces
    rw [places_of_mapped hlen hmap, ← hfull, Nat.sub_self,
      List.append_assoc] at hpre
    -- the first places are those of this buffer
    obtain ⟨t, ht⟩ := hpre
    have hsplit := List.take_append_drop bytes.length places
    rw [← hsplit, List.map_append, List.append_assoc] at ht
    obtain ⟨hfirst, hlater⟩ := List.append_inj ht (by
      rw [List.length_map, List.length_map, List.length_take,
        List.length_range']
      omega)
    have hrange :
      places.take bytes.length = List.range' base.toNat bytes.length :=
      List.map_injective_iff.2 (Option.some_injective Nat) hfirst
    have hdrop : (places.drop bytes.length).length = data.length := by
      rw [List.length_drop]
      omega
    refine ⟨ret, f', data, places.drop bytes.length, ?_, hdata,
      ⟨t, hlater⟩, hdrop, ?_, ?_⟩
    · rw [hres, hmem hwrite, ← hrange]
      conv_lhs => rw [← hsplit]
      rw [List.zip_append (by rw [List.length_take]; omega),
        AddressSpace.scatter, AddressSpace.scatter, AddressSpace.scatter,
        List.foldl_append]
    · intro x hx
      rw [hmem hwrite, AddressSpace.byte_scatter_isSome]
      exact hsome x (List.mem_of_mem_drop hx)
    · by_cases h0 : total + bytes.length = 0 ∧ data = []
      · have hnil : bytes = [] := List.length_eq_zero_iff.1 (by omega)
        rw [if_pos h0]
        rw [if_pos ⟨by omega, by rw [hnil, h0.2]; rfl⟩] at hret
        exact hN (by rw [← hfull, hnil]; rfl) ret hret
      · rw [if_neg h0]
        rw [if_neg fun h => h0 (by
          obtain ⟨h1, h2⟩ := List.append_eq_nil_iff.1 h.2
          rw [h.1, h1]
          exact ⟨rfl, h2⟩), List.length_append, ← Nat.add_assoc] at hret
        exact hret
  · -- what was taken is lost
    exfalso
    rw [if_neg hwrite] at h
    obtain ⟨ret, f', data, places, hres, hall, -, -, -, hret⟩ := h
    obtain ⟨hval, hres⟩ := Prod.mk.inj (Option.some.inj hres)
    obtain ⟨rfl, -⟩ := Prod.mk.inj hres
    rw [htaken, List.append_cancel_left_eq] at hall
    subst hall
    have hne : bytes ≠ [] := by
      rintro rfl
      exact hwrite rfl
    have hpos := List.length_pos_iff.2 hne
    rw [if_neg fun h => hne h.2, ← hval] at hret
    split at hret
    · rw [toNat_count (by omega)] at hret
      omega
    · have hfault : (err EFAULT).toNat = 2 ^ 32 - 14 := by decide
      omega

end Iteration

-- ======== all iterations

/-- The loop on the entries from `i` on, if the array is sound. -/
theorem ReadSound.right {m₀ : AddressSpace} {iov : U32} {k i total : Nat}
    {f : Option Fd} {m : AddressSpace}
    (htotal : total + k * 65536 < 2 ^ 32)
    (h : ReadSound m₀ iov k i total f m) :
    ReadRight f total (places m₀ iov k i) m (readvLoop iov k i total f m) := by
  induction k generalizing i total f m with
  | zero =>
    refine ⟨BitVec.ofNat 32 total, f, [], [], rfl, (List.append_nil _).symm,
      List.nil_prefix, rfl, fun x hx => absurd hx List.not_mem_nil, ?_⟩
    by_cases h0 : total = 0
    · rw [if_pos ⟨h0, rfl⟩, h0]
      exact .inl ⟨rfl, rfl⟩
    · rw [if_neg fun h => h0 h.1, toNat_count (by omega)]
      rfl
  | succ k ih =>
    rw [ReadSound] at h
    rw [places]
    cases hentry : m₀.entry iov i with
    | none =>
      rw [hentry] at h
      exact ReadIdle.right _ htotal h
    | some e =>
      obtain ⟨base, len⟩ := e
      obtain ⟨-, hfit⟩ := entry_eq_some hentry
      rw [hentry] at h
      obtain ⟨hfetch, h⟩ := h
      dsimp only
      cases hr : readSlot f (chunkLen len.toNat) with
      | mk r f₁ =>
        rw [hr] at h
        cases r with
        | error e =>
          obtain ⟨htaken, -, hany⟩ :=
            (readSlot_spec f (chunkLen len.toNat)).error e (by rw [hr])
          rw [hr] at htaken
          rw [readvLoop_error hfit hfetch hr]
          refine ⟨_, f₁, [], [], rfl, htaken.trans (List.append_nil _).symm,
            List.nil_prefix, rfl, fun x hx => absurd hx List.not_mem_nil, ?_⟩
          by_cases h0 : total = 0
          · rw [if_pos ⟨h0, rfl⟩, if_neg (by omega)]
            exact .inr (.inr ⟨0, [], List.nil_prefix, .inr ⟨e, hany 0, rfl⟩⟩)
          · rw [if_neg fun h => h0 h.1, if_pos (by omega),
              toNat_count (by omega)]
            rfl
        | ok bytes =>
          have hchunk :=
            ((readSlot_spec f (chunkLen len.toNat)).ok bytes (by rw [hr])).2
          have hsmall := hchunk.trans (chunkLen_le len.toNat).2
          exact ReadRight.step hfit hfetch htotal hr h.1 fun hfull =>
            ih (room_of_succ hsmall htotal) (h.2 hfull)

/-- No buffer of the array lies over the array. -/
def Apart (m : AddressSpace) (iov : U32) (cnt : Nat) : Prop :=
  ∀ i < cnt, ∀ base len, m.entry iov i = some (base, len) → ∀ x,
    base.toNat ≤ x →
    x < base.toNat + len.toNat → ¬ (iov.toNat ≤ x ∧ x < iov.toNat + 8 * cnt)

theorem readBytes_congr {m m' : AddressSpace} {a n : Nat}
    (h : ∀ x, a ≤ x → x < a + n → m.byte? x = m'.byte? x) :
    m.readBytes a n = m'.readBytes a n := by
  induction n generalizing a with
  | zero => rfl
  | succ n ih =>
    rw [AddressSpace.readBytes, AddressSpace.readBytes,
      h a (Nat.le_refl a) (by omega),
      ih fun x hlo hhi => h x (by omega) (by omega)]

/-- And only if, when it is apart from its buffers. -/
theorem readSound_of_result {m₀ : AddressSpace} {iov : U32} {cnt : Nat}
    (hapart : Apart m₀ iov cnt)
    {k i total : Nat} {f : Option Fd} {m : AddressSpace} (hcnt : i + k = cnt)
    (hkept : ∀ x, iov.toNat ≤ x → x < iov.toNat + 8 * cnt →
      m.byte? x = m₀.byte? x)
    (htotal : total + k * 65536 < 2 ^ 32)
    (h : ReadResult (fun ret => (places m₀ iov k i).head? = some none →
      ret ≠ 0) f total (places m₀ iov k i) m
      (readvLoop iov k i total f m)) : ReadSound m₀ iov k i total f m := by
  induction k generalizing i total f m with
  | zero => trivial
  | succ k ih =>
    rw [ReadSound]
    rw [places] at h
    cases hentry : m₀.entry iov i with
    | none =>
      rw [hentry] at h
      dsimp only at h ⊢
      refine readIdle_of_result (places m₀ iov k (i + 1)) htotal ?_
      obtain ⟨ret, f', hres, htaken, hret⟩ := readResult_gap.1 h
      refine readResult_gap.2 ⟨ret, f', hres, htaken, ?_⟩
      split at hret
      · rename_i h0
        rw [if_pos h0]
        exact hret rfl
      · rename_i h0
        rw [if_neg h0]
        exact hret
    | some e =>
      obtain ⟨base, len⟩ := e
      obtain ⟨hfetch, hfit⟩ := entry_eq_some hentry
      rw [hentry] at h
      dsimp only at h ⊢
      have hsame : m.fetched iov i = (base, len) := by
        rw [← hfetch, AddressSpace.fetched, AddressSpace.fetched,
          AddressSpace.readU32, AddressSpace.readU32, AddressSpace.readU32,
          AddressSpace.readU32,
          readBytes_congr fun x hlo hhi => hkept x (by omega) (by omega),
          readBytes_congr fun x hlo hhi => hkept x (by omega) (by omega)]
      refine ⟨hsame, ?_⟩
      cases hr : readSlot f (chunkLen len.toNat) with
      | mk r f₁ =>
        cases r with
        | error e => trivial
        | ok bytes =>
          have hchunk :=
            ((readSlot_spec f (chunkLen len.toNat)).ok bytes (by rw [hr])).2
          have hsmall := hchunk.trans (chunkLen_le len.toNat).2
          obtain ⟨hmap, hrest⟩ := h.unstep (fun hzero ret hret => by
            rw [hzero] at hret
            exact hret) hfit hsame htotal hr
          refine ⟨hmap,
            fun hfull => ih (by omega) (fun x hlo hhi => ?_)
            (room_of_succ hsmall htotal) (hrest hfull)⟩
          -- the bytes stored are not the array's
          obtain ⟨hdone, hmem⟩ := m.writeBytes_scatter base.toNat bytes
          rw [hmem (hdone.2 hmap), AddressSpace.byte_scatter_ne,
            hkept x hlo hhi]
          intro p hp hpx
          have hrange := (List.of_mem_zip hp).1
          rw [List.mem_range'_1, hpx] at hrange
          exact hapart i (by omega) base len hentry x hrange.1 (by omega)
            ⟨hlo, hhi⟩

end Remu.Usermode
