/-
`writev` and `readv`.

A vectored call gathers or scatters the first bytes of its buffers and
returns their count exactly when the entries its loop comes to can be read
(`vectored_exact_iff`); for `readv` the bytes a file delivers also have to
find their buffer mapped. The rest is arithmetic: an index or a count past
2^32, and a buffer past the end of the address space.
-/
import Remu.Usermode.Scatter

namespace Remu.Usermode

-- ======== the descriptor table

/-- A descriptor that has been put. -/
theorem FdTable.get_put {fds : FdTable} {fd : U32} {f : Fd}
    (h : fds.get fd = some f) (f' : Fd) :
    (fds.put fd (some f')).get fd = some f' := by
  rw [get] at h
  cases hget : fds[fd.toNat]? with
  | none =>
    rw [hget] at h
    cases h
  | some o =>
    obtain ⟨hlt, -⟩ := List.getElem?_eq_some_iff.1 hget
    rw [get, put, List.getElem?_set_self hlt]
    rfl

/-- A read leaves its descriptor open, or closed. -/
theorem sysRead_isSome (m : AddressSpace) (f : Option Fd) (buf count : U32) :
    (sysRead m f buf count).2.1.isSome = f.isSome := by
  cases f with
  | none => rfl
  | some f =>
    rw [sysRead]
    split
    · rfl
    · split <;> rfl

/-- A vectored read keeps its file. -/
theorem readvLoop_isSome (iov : U32) (k i total : Nat) (f : Option Fd)
    (m : AddressSpace) {ret : U32}
    {f' : Option Fd} {m' : AddressSpace}
    (h : readvLoop iov k i total f m = some (ret, f', m')) :
    f'.isSome = f.isSome := by
  induction k generalizing i total f m with
  | zero =>
    cases h
    rfl
  | succ k ih =>
    have hstep := sysRead_isSome m f (m.fetched iov i).1 (m.fetched iov i).2
    rw [readvLoop] at h
    split at h
    · cases h
    · dsimp only at h
      split at h
      · cases h
        exact hstep
      · split at h
        · cases h
        · split at h
          · cases h
            exact hstep
          · exact (ih _ _ _ _ h).trans hstep

-- ======== the result

/-- `writev` overflows no sum, writes the first bytes of its buffers and
returns their count, or `EFAULT`, 0 or the file's error for none. -/
def WritevRight (m : AddressSpace) (fds : FdTable) (fd iov cnt : U32) : Prop :=
  match fds.get fd with
  | none => sysWritev m fds fd iov cnt = some (err EBADF, fds)
  | some f => WriteRight f 0 (m.contents (places m iov cnt.toNat 0))
      ((sysWritev m fds fd iov cnt).bind fun r =>
        (r.2.get fd).map fun f' => (r.1, f'))

/-- `readv` overflows no sum, fills the first bytes of its buffers with what
it takes from the file and returns the count of it. -/
def ReadvRight (m : AddressSpace) (fds : FdTable) (fd iov cnt : U32) : Prop :=
  ReadRight (fds.get fd) 0 (places m iov cnt.toNat 0) m
    ((sysReadv m fds fd iov cnt).map fun r => (r.1, r.2.1.get fd, r.2.2))

/-- The condition of a vectored write, on the file the descriptor names. -/
def WritevSound (m : AddressSpace) (fds : FdTable) (fd iov cnt : U32) : Prop :=
  match fds.get fd with
  | none => True
  | some f => WriteSound m iov cnt.toNat 0 0 f

/-- The condition of a vectored read. -/
def ReadvSound (m : AddressSpace) (fds : FdTable) (fd iov cnt : U32) : Prop :=
  ReadSound m iov cnt.toNat 0 0 (fds.get fd) m

/-- A vectored write is right exactly under its condition. -/
theorem writev_iff {m : AddressSpace} {fds : FdTable} {fd iov cnt : U32}
    (hcnt : cnt ≤ MAX_IOV) :
    WritevRight m fds fd iov cnt ↔ WritevSound m fds fd iov cnt := by
  rw [WritevRight, WritevSound, sysWritev, if_neg (BitVec.not_lt.2 hcnt)]
  cases hf : fds.get fd with
  | none => exact iff_of_true rfl trivial
  | some f =>
    dsimp only
    rw [← writevLoop_right m iov cnt.toNat 0 0 f (by decide)]
    cases hloop : writevLoop m iov cnt.toNat 0 0 f with
    | none => exact Iff.rfl
    | some r =>
      rw [Option.map_some, Option.bind_some, FdTable.get_put hf]
      exact Iff.rfl

/-- What `readv` leaves behind its descriptor. -/
theorem readv_slot {m : AddressSpace} {fds : FdTable} {fd iov cnt : U32}
    (hcnt : cnt ≤ MAX_IOV) :
    (sysReadv m fds fd iov cnt).map (fun r => (r.1, r.2.1.get fd, r.2.2))
      = readvLoop iov cnt.toNat 0 0 (fds.get fd) m := by
  rw [sysReadv, if_neg (BitVec.not_lt.2 hcnt), Option.map_map]
  cases hloop : readvLoop iov cnt.toNat 0 0 (fds.get fd) m with
  | none => rfl
  | some r =>
    obtain ⟨ret, f', m'⟩ := r
    have hkeep := readvLoop_isSome iov _ _ _ _ m hloop
    rw [Option.map_some, Function.comp_apply]
    dsimp only
    cases hf : fds.get fd with
    | none =>
      rw [hf] at hkeep
      obtain rfl : f' = none := by
        cases f' with
        | none => rfl
        | some f' => cases hkeep
      rw [FdTable.put, hf]
    | some f =>
      rw [hf] at hkeep
      cases f' with
      | none => cases hkeep
      | some f' => rw [FdTable.get_put hf]

/-- A vectored read is right under its condition. -/
theorem readv_right_of_sound {m : AddressSpace} {fds : FdTable}
    {fd iov cnt : U32} (hcnt : cnt ≤ MAX_IOV)
    (h : ReadvSound m fds fd iov cnt) : ReadvRight m fds fd iov cnt := by
  have hbound := BitVec.le_def.1 hcnt
  rw [ReadvRight, readv_slot hcnt]
  refine ReadSound.right ?_ h
  have hmax : MAX_IOV.toNat = 1024 := by decide
  omega

/-- A vectored read that is right meets its condition, where no buffer meets
the array. -/
theorem readv_sound_of_right {m : AddressSpace} {fds : FdTable}
    {fd iov cnt : U32} (hcnt : cnt ≤ MAX_IOV)
    (hapart : Apart m iov cnt.toNat) (h : ReadvRight m fds fd iov cnt) :
    ReadvSound m fds fd iov cnt := by
  have hbound := BitVec.le_def.1 hcnt
  have hmax : MAX_IOV.toNat = 1024 := by decide
  rw [ReadvRight, readv_slot hcnt] at h
  refine readSound_of_result hapart (Nat.zero_add _)
    (fun x _ _ => rfl) (by omega) ?_
  obtain ⟨ret, f', data, addrs, hres, htaken, hpre, hlen, hsome, hret⟩ := h
  refine ⟨ret, f', data, addrs, hres, htaken, hpre, hlen, hsome, ?_⟩
  by_cases h0 : (0 : Nat) = 0 ∧ data = []
  · rw [if_pos h0] at hret ⊢
    rintro hgap rfl
    obtain ⟨p, D, hps⟩ : ∃ p D, places m iov cnt.toNat 0 = p :: D := by
      cases hps : places m iov cnt.toNat 0 with
      | nil =>
        rw [hps] at hgap
        cases hgap
      | cons p D => exact ⟨p, D, rfl⟩
    rw [hps, List.head?_cons, Option.some.injEq] at hgap
    rw [hps, hgap] at hret
    exact not_nothingRead_zero hret
  · rw [if_neg h0] at hret ⊢
    exact hret

/-- For every memory, every array of at most 1024 entries and every file:
`writev` is exact if and only if the array is sound for it; and so is
`readv`, at least where no buffer lies over the array. -/
theorem vectored_exact_iff (m : AddressSpace) (fds : FdTable)
    (fd iov cnt : U32) (hcnt : cnt ≤ MAX_IOV) :
    (WritevRight m fds fd iov cnt ↔ WritevSound m fds fd iov cnt)
      ∧ (ReadvSound m fds fd iov cnt → ReadvRight m fds fd iov cnt)
      ∧ (Apart m iov cnt.toNat →
        (ReadvRight m fds fd iov cnt ↔ ReadvSound m fds fd iov cnt)) :=
  ⟨writev_iff hcnt, readv_right_of_sound hcnt,
    fun hapart =>
      ⟨readv_sound_of_right hcnt hapart, readv_right_of_sound hcnt⟩⟩

-- ======== an example

/-- An array of two entries: two bytes at 0x10020, then three at 0x10010. -/
def twoEntries : AddressSpace :=
  let m := (AddressSpace.new.map 0x10000 0x1000).writeBytes 0x10000
    [0x20, 0, 1, 0, 2, 0, 0, 0, 0x10, 0, 1, 0, 3, 0, 0, 0]
  ((m.2.writeBytes 0x10010 [1, 2, 3]).2.writeBytes 0x10020 [4, 5]).2

/-- A file of the host that counts from 7 on. -/
def counting : Stream :=
  { answer := fun _ => some 8, input := fun n => BitVec.ofNat 8 (7 + n), calls := 0
    delivered := [], written := [] }

/-- The file as descriptor 0 and captured output as descriptor 1. -/
def twoFiles : FdTable := [some (.file counting), some (.sink [])]

/-- The array of the example. -/
theorem entries_twoEntries :
    twoEntries.entry 0x10000 0 = some (0x10020, 2)
      ∧ twoEntries.entry 0x10000 1 = some (0x10010, 3) :=
  ⟨rfl, rfl⟩

/-- All of both buffers is offered to the file. -/
theorem chunks_twoEntries : twoEntries.chunksFrom 0x10020 2 0 = [[4, 5]]
    ∧ twoEntries.chunksFrom 0x10010 3 0 = [[1, 2, 3]] :=
  ⟨chunksFrom_short (by decide) rfl rfl, chunksFrom_short (by decide) rfl rfl⟩

/-- Two buffers each way: five bytes go out and five come in. -/
theorem vectored_exact_twoEntries :
    WritevRight twoEntries twoFiles 1 0x10000 2
      ∧ ReadvRight twoEntries twoFiles 0 0x10000 2 := by
  obtain ⟨hwrite, -, -⟩ :=
    vectored_exact_iff twoEntries twoFiles 1 0x10000 2 (by decide)
  obtain ⟨-, hread, -⟩ :=
    vectored_exact_iff twoEntries twoFiles 0 0x10000 2 (by decide)
  obtain ⟨hfirst, hsecond⟩ := entries_twoEntries
  obtain ⟨hchunk₁, hchunk₂⟩ := chunks_twoEntries
  have htwo : (2 : U32).toNat = 0 + 1 + 1 := rfl
  refine ⟨hwrite.2 ?_, hread ?_⟩
  · have hslot : twoFiles.get 1 = some (.sink []) := rfl
    rw [WritevSound, hslot, htwo]
    dsimp only
    rw [WriteSound, hfirst]
    dsimp only
    rw [hchunk₁]
    refine ⟨by decide, by decide, fun _ => ?_⟩
    rw [WriteSound, hsecond]
    dsimp only
    rw [hchunk₂]
    exact ⟨by decide, by decide, fun _ => trivial⟩
  · have hslot : twoFiles.get 0 = some (.file counting) := rfl
    rw [ReadvSound, hslot, htwo, ReadSound, hfirst]
    refine ⟨rfl, (AddressSpace.writeBytes_scatter _ 0x10020 [7, 8]).1.1 rfl,
      fun _ => ?_⟩
    rw [ReadSound, hsecond]
    exact ⟨rfl, (AddressSpace.writeBytes_scatter _ 0x10010 [9, 10, 11]).1.1
      rfl, fun _ => trivial⟩

/-- An array that is not mapped: `writev` returns 0 instead of `EFAULT`. -/
theorem writev_unmapped : ¬ WritevRight .new twoFiles 1 0x1000 1 := by
  rw [writev_iff (by decide)]
  have hslot : twoFiles.get 1 = some (.sink []) := rfl
  have hentry : AddressSpace.new.entry 0x1000 0 = none := rfl
  have hfetch : AddressSpace.new.fetched 0x1000 0 = (0, 0) := rfl
  rw [WritevSound, hslot]
  dsimp only
  rw [show (1 : U32).toNat = 0 + 1 from rfl, WriteSound, hentry]
  dsimp only
  rw [WriteIdle, hfetch]
  rintro ⟨-, -, hidle, -⟩
  exact absurd (hidle rfl) (by rw [WriteIdle]; decide)

end Remu.Usermode
