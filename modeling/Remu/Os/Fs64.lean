/-
What is behind a descriptor, in either layer.

The x86-64 layer has a table of its own (`Vfs64`): the host's streams, files
opened read-only and sinks that capture output. The i386 layer's VFS is
that of `VfsIo`, on a host whose files are streams. A descriptor of either
is a port, and that of a file, a stream or a sink behaves as one
(`isFile_port64`, `isFile_port32`); the device files of the i386 layer have
no content to be at a position of.
-/
import Remu.Lib.Port
import Remu.Os.VfsIo

namespace Remu.Os

-- ======== the x86-64 layer

/-- One open file description. -/
inductive Fd64 where
  | stdin (s : Stream)
  | stdout (s : Stream)
  | stderr (s : Stream)
  | file (s : Stream)
  /-- In-memory output capture. -/
  | sink (v : List U8)

/-- The process fd table. -/
structure Vfs64 where
  fds : List (Option Fd64)

namespace Vfs64

def get (v : Vfs64) (fd : Int) : Option Fd64 :=
  if fd < 0 then none else v.fds[fd.toNat]?.join

/-- The table after the description behind `fd` has moved. -/
def put (v : Vfs64) (fd : Int) (f : Fd64) : Vfs64 :=
  ⟨v.fds.set fd.toNat (some f)⟩

theorem get_put {v : Vfs64} {fd : Int} {f : Fd64}
    (h : v.get fd = some f) (f' : Fd64) :
    (v.put fd f').get fd = some f' := by
  unfold get at h ⊢
  split at h
  · cases h
  case isFalse hfd =>
    rw [if_neg hfd]
    cases hget : v.fds[fd.toNat]? with
    | none =>
      rw [hget] at h
      cases h
    | some o =>
      obtain ⟨hlt, -⟩ := List.getElem?_eq_some_iff.1 hget
      rw [put, List.getElem?_set_self hlt]
      rfl

/-- A count of the host, or `EIO`. -/
def hostCount : Option Nat → Int
  | some n => asI64 n
  | none => - EIO

/-- Read up to `n` bytes: the count or error, and the bytes. -/
def read (v : Vfs64) (fd : Int) (n : Nat) : (Int × List U8) × Vfs64 :=
  match v.get fd with
  | none => ((-EBADF, []), v)
  | some (.stdin s) =>
    let r := s.read n
    ((hostCount (r.1.map List.length), r.1.getD []), v.put fd (.stdin r.2))
  | some (.stdout _) | some (.stderr _) => ((-EBADF, []), v)
  | some (.file s) =>
    let r := s.read n
    ((hostCount (r.1.map List.length), r.1.getD []), v.put fd (.file r.2))
  | some (.sink _) => ((0, []), v)

/-- Write bytes: the count or error. -/
def write (v : Vfs64) (fd : Int) (bytes : List U8) : Int × Vfs64 :=
  match v.get fd with
  | none => (-EBADF, v)
  | some (.stdin _) => (-EBADF, v)
  | some (.stdout s) =>
    (hostCount (s.write bytes).1, v.put fd (.stdout (s.write bytes).2))
  | some (.stderr s) =>
    (hostCount (s.write bytes).1, v.put fd (.stderr (s.write bytes).2))
  | some (.file _) => (-EBADF, v) -- opened read-only
  | some (.sink out) => (asI64 bytes.length, v.put fd (.sink (out ++ bytes)))

end Vfs64

namespace Fd64

/-- What there is to be read; nothing of an output. -/
def content : Option Fd64 → Nat → U8
  | some (.stdin s) | some (.file s) => s.input
  | _ => fun _ => 0

/-- How much has been read. -/
def pos : Option Fd64 → Nat
  | some (.stdin s) | some (.file s) => s.delivered.length
  | _ => 0

/-- What has been written. -/
def output : Option Fd64 → List U8
  | some (.stdout s) | some (.stderr s) => s.written
  | some (.sink v) => v
  | _ => []

end Fd64

/-- A host whose standard input and files are streams; they cannot be
sought. -/
structure HostStreams where
  stdin : Stream
  /-- What standard output and error were given. -/
  out : Nat → List U8
  files : Nat → Stream

namespace Fd

/-- What there is to be read behind `fd`. -/
def content (fd : Int) (s : HostStreams) : Option Fd → Nat → U8
  | some (.std k) => if k = 0 then s.stdin.input else fun _ => 0
  | some (.file _ _) => (s.files fd.toNat).input
  | some (.virtual _ data _) => fun i => data.getD i 0
  | _ => fun _ => 0

/-- How much has been read. -/
def pos (fd : Int) (s : HostStreams) : Option Fd → Nat
  | some (.std k) => if k = 0 then s.stdin.delivered.length else 0
  | some (.file _ _) => (s.files fd.toNat).delivered.length
  | some (.virtual _ _ pos) => pos
  | _ => 0

/-- What has been written. -/
def output (fd : Int) (s : HostStreams) : Option Fd → List U8
  | some (.std k) => s.out k.toNat
  | some (.file _ _) => (s.files fd.toNat).written
  | _ => []

end Fd

end Remu.Os
