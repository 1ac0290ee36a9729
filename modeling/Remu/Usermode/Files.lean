/-
File descriptors and the vectored system calls.

A host stream answers each call as it likes: with an error, or with any
number of the bytes it was offered or asked for. A call that gets past its
checks is `none` where a 32-bit sum of the source does not fit.
-/
import Remu.Lib.Port
import Remu.Usermode.Process

namespace Remu.Usermode

-- ======== constants

abbrev EIO : U32 := 5
abbrev EBADF : U32 := 9
abbrev EFAULT : U32 := 14
abbrev EINVAL : U32 := 22

abbrev IO_CHUNK : Nat := 64 * 1024
/-- Linux `UIO_MAXIOV`. -/
abbrev MAX_IOV : U32 := 1024

-- ======== guest memory

namespace AddressSpace

/-- `n` bytes from `addr` on, up to the first that is not mapped; `false`
reports that. -/
def readBytes (m : AddressSpace) (addr : Nat) : Nat → List U8 × Bool
  | 0 => ([], true)
  | n + 1 =>
    if 2 ^ 32 ≤ addr then ([], false)
    else
      match m.byte? addr with
      | none => ([], false)
      | some v =>
        let (bytes, done) := m.readBytes (addr + 1) n
        (v :: bytes, done)

/-- A little-endian word; the bytes that were not read are 0. -/
def readU32 (m : AddressSpace) (addr : Nat) : U32 :=
  u32le (m.readBytes addr 4).1 0

end AddressSpace

-- ======== the files

/-- One open file description. -/
inductive Fd where
  | stdin (s : Stream)
  | stdout (s : Stream)
  | stderr (s : Stream)
  | file (s : Stream)
  /-- In-memory output capture. -/
  | sink (v : List U8)

namespace Fd

/-- Write: how many bytes were taken, or an errno. -/
def write (f : Fd) (bytes : List U8) : Except U32 Nat × Fd :=
  match f with
  | stdin s => (.error EBADF, stdin s)
  | stdout s =>
    (((s.write bytes).1.map .ok).getD (.error EIO), stdout (s.write bytes).2)
  | stderr s =>
    (((s.write bytes).1.map .ok).getD (.error EIO), stderr (s.write bytes).2)
  | file s =>
    (((s.write bytes).1.map .ok).getD (.error EIO), file (s.write bytes).2)
  | sink v => (.ok bytes.length, sink (v ++ bytes))

/-- Read up to `n` bytes, or an errno. -/
def read (f : Fd) (n : Nat) : Except U32 (List U8) × Fd :=
  match f with
  | stdin s => (((s.read n).1.map .ok).getD (.error EIO), stdin (s.read n).2)
  | stdout s => (.error EBADF, stdout s)
  | stderr s => (.error EBADF, stderr s)
  | file s => (((s.read n).1.map .ok).getD (.error EIO), file (s.read n).2)
  | sink v => (.ok [], sink v)

end Fd

/-- The descriptor table. -/
abbrev FdTable : Type := List (Option Fd)

namespace FdTable

def get (fds : FdTable) (fd : U32) : Option Fd := fds[fd.toNat]?.join

/-- The table after the file behind `fd` has moved. -/
def put (fds : FdTable) (fd : U32) (f : Option Fd) : FdTable :=
  match f with
  | none => fds
  | some f => fds.set fd.toNat (some f)

end FdTable

-- ======== system calls

/-- The size of the next chunk. -/
def chunkLen (left : Nat) : Nat := min left IO_CHUNK

theorem chunkLen_pos {left : Nat} (h : 0 < left) : 0 < chunkLen left := by
  rw [chunkLen, IO_CHUNK]
  omega

theorem chunkLen_le (left : Nat) :
    chunkLen left ≤ left ∧ chunkLen left ≤ 65536 := by
  rw [chunkLen, IO_CHUNK]
  omega

/-- Write the rest of `count` guest bytes at `buf`, chunked; a short write
returns what was written. -/
def writeFromGuest (m : AddressSpace) (f : Fd) (buf count : U32)
    (total : Nat) : Except U32 Nat × Fd :=
  if total < count.toNat then
    match m.readBytes (buf + BitVec.ofNat 32 total).toNat
      (chunkLen (count.toNat - total)) with
    | (_, false) => (if 0 < total then .ok total else .error EFAULT, f)
    | (tmp, true) =>
      match f.write tmp with
      | (.error e, f) => (if 0 < total then .ok total else .error e, f)
      | (.ok w, f) =>
        if w < chunkLen (count.toNat - total) then (.ok (total + w), f)
        else writeFromGuest m f buf count (total + w)
  else (.ok total, f)
termination_by count.toNat - total
decreasing_by
  have hpos : 0 < chunkLen (count.toNat - total) := chunkLen_pos (by omega)
  omega

/-- Read into guest memory, a chunk at most. -/
def sysRead (m : AddressSpace) (f : Option Fd) (buf count : U32) :
    U32 × Option Fd × AddressSpace :=
  match f with
  | none => (err EBADF, none, m)
  | some f =>
    match f.read (chunkLen count.toNat) with
    | (.error e, f) => (err e, some f, m)
    | (.ok bytes, f) =>
      match m.writeBytes buf.toNat bytes with
      | (false, m) => (err EFAULT, some f, m)
      | (true, m) => (BitVec.ofNat 32 bytes.length, some f, m)

/-- `iov + i * 8 + 4` fits. -/
def IndexFits (iov : U32) (i : Nat) : Prop := iov.toNat + i * 8 + 4 < 2 ^ 32

instance (iov : U32) (i : Nat) : Decidable (IndexFits iov i) :=
  inferInstanceAs (Decidable (_ < _))

/-- The `base` and `len` of entry `i`, as they are fetched. -/
def AddressSpace.fetched (m : AddressSpace) (iov : U32) (i : Nat) :
    U32 × U32 :=
  (m.readU32 (iov.toNat + i * 8), m.readU32 (iov.toNat + i * 8 + 4))

/-- `k` more entries of `writev`, from entry `i` on. -/
def writevLoop (m : AddressSpace) (iov : U32) :
    Nat → Nat → Nat → Fd → Option (U32 × Fd)
  | 0, _, total, f => some (BitVec.ofNat 32 total, f)
  | k + 1, i, total, f =>
    if ¬ IndexFits iov i then none
    else
      let (base, len) := m.fetched iov i
      match writeFromGuest m f base len 0 with
      | (.error e, f) =>
        some (if 0 < total then BitVec.ofNat 32 total else err e, f)
      | (.ok n, f) =>
        if 2 ^ 32 ≤ total + n then none
        else if n < len.toNat then some (BitVec.ofNat 32 (total + n), f)
        else writevLoop m iov k (i + 1) (total + n) f

/-- `writev`. -/
def sysWritev (m : AddressSpace) (fds : FdTable) (fd iov cnt : U32) :
    Option (U32 × FdTable) :=
  if MAX_IOV < cnt then some (err EINVAL, fds)
  else
    match fds.get fd with
    | none => some (err EBADF, fds)
    | some f =>
      (writevLoop m iov cnt.toNat 0 0 f).map fun r =>
        (r.1, fds.put fd (some r.2))

/-- `k` more entries of `readv`. -/
def readvLoop (iov : U32) :
    Nat → Nat → Nat → Option Fd → AddressSpace →
      Option (U32 × Option Fd × AddressSpace)
  | 0, _, total, f, m => some (BitVec.ofNat 32 total, f, m)
  | k + 1, i, total, f, m =>
    if ¬ IndexFits iov i then none
    else
      let (base, len) := m.fetched iov i
      let (r, f, m) := sysRead m f base len
      if r.toInt < 0
        then some (if 0 < total then BitVec.ofNat 32 total else r, f, m)
      else if 2 ^ 32 ≤ total + r.toNat then none
      else if r < len then some (BitVec.ofNat 32 (total + r.toNat), f, m)
      else readvLoop iov k (i + 1) (total + r.toNat) f m

/-- `readv`. -/
def sysReadv (m : AddressSpace) (fds : FdTable) (fd iov cnt : U32) :
    Option (U32 × FdTable × AddressSpace) :=
  if MAX_IOV < cnt then some (err EINVAL, fds, m)
  else (readvLoop iov cnt.toNat 0 0 (fds.get fd) m).map fun r =>
    (r.1, fds.put fd r.2.1, r.2.2)

end Remu.Usermode
