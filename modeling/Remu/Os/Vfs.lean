/-
The virtual filesystem: a host directory as guest `/`.

The host is a tree of directories, files and symbolic links, with
canonicalization, directory listing and opening as POSIX has them. It
grants every permission. A host path is the list of its components; a
guest path is text, normalized by the guest rules and then joined to the
root. Beside its result an open returns what it touched on the host.
-/
import Remu.Lib.Resolve
import Remu.Lib.Word

namespace Remu.Os

open Resolve

-- ======== the host

/-- Text, and the name of a file. -/
abbrev Str : Type := List Char

/-- A host path: where it starts, and its components. -/
structure HostPath where
  absolute : Bool
  comps : List (Comp Str)
deriving DecidableEq, Repr

namespace HostPath

/-- `Path::join` with a relative path. -/
def join (p : HostPath) (rel : List (Comp Str)) : HostPath :=
  { p with comps := p.comps ++ rel }

/-- `Path::parent`. -/
def parent (p : HostPath) : Option HostPath :=
  if p.comps = [] then none else some { p with comps := p.comps.dropLast }

end HostPath

/-- The host's filesystem: its objects by canonical path, the directory
relative paths start from, and the number of links a resolution may
follow. -/
structure Host where
  nodes : List (Path Str × Node Str)
  cwd : Path Str
  links : Nat

/-- Why an open fails. -/
inductive IoError where
  | notFound
  | notDirectory
  | isDirectory
  | loop
  | invalidInput
deriving DecidableEq, Repr

def IoError.ofFailure : Failure → IoError
  | .notFound => .notFound
  | .notDirectory => .notDirectory
  | .loop => .loop

/-- `OpenOptions`. -/
structure OpenOptions where
  read : Bool
  write : Bool
  append : Bool
  truncate : Bool
  create : Bool
deriving DecidableEq, Repr

/-- The combinations the standard library turns into an open: some access,
creation and truncation with write access only, and no truncation of a
file that is appended to. -/
def OpenOptions.valid (o : OpenOptions) : Bool :=
  (o.read || o.write || o.append)
    && (o.write || o.append || !(o.truncate || o.create))
    && !(o.append && o.truncate)

/-- What an open does to a host object. -/
inductive Access where
  | list (p : Path Str)
  | openFile (p : Path Str) (o : OpenOptions)
  | create (p : Path Str)
deriving DecidableEq, Repr

/-- The canonical path of the object. -/
def Access.path : Access → Path Str
  | .list p => p
  | .openFile p _ => p
  | .create p => p

namespace Host

def tree (h : Host) (p : Path Str) : Option (Node Str) := h.nodes.lookup p

/-- Follow a host path, every link on it included. -/
def resolve (h : Host) (p : HostPath) : Found Str :=
  Resolve.resolve h.tree h.links (if p.absolute then [] else h.cwd) p.comps

/-- `Path::canonicalize`. -/
def canonicalize (h : Host) (p : HostPath) : Option (Path Str) :=
  match h.resolve p with
  | .dir q _ => some q
  | .file q => some q
  | .missing _ _ => none
  | .fail _ => none

/-- `Path::is_dir`. -/
def isDir (h : Host) (p : HostPath) : Bool :=
  match h.resolve p with
  | .dir _ _ => true
  | _ => false

/-- `read_dir`: the names in a directory. -/
def readDir (h : Host) (p : Path Str) : List Str :=
  h.nodes.filterMap fun node => if node.1.dropLast = p
    then node.1.getLast? else none

/-- `OpenOptions::open`: the object opened and what was done to the host. -/
def openWith (h : Host) (p : HostPath) (o : OpenOptions) :
    Except IoError (Path Str × Host × List Access) :=
  if !o.valid then .error .invalidInput
  else
    match h.resolve p with
    | .file q => .ok (q, h, [.openFile q o])
    | .dir q _ =>
      if o.write || o.append then .error .isDirectory
        else .ok (q, h, [.openFile q o])
    | .missing d n =>
      if o.create then
        .ok (d ++ [n], { h with nodes := (d ++ [n], .file) :: h.nodes },
          [.create (d ++ [n])])
      else .error .notFound
    | .fail e => .error (.ofFailure e)

end Host

-- ======== the VFS

/-- A directory entry snapshot. -/
structure DirEnt where
  name : Str
  isDir : Bool
deriving DecidableEq, Repr

/-- Kinds of virtual device or generated file. -/
inductive Virt where
  | null
  | zero
  | full
  | random
  | generated
deriving DecidableEq, Repr

/-- An open file descriptor. -/
inductive Fd where
  | std (n : U8)
  | file (file : Path Str) (path : Str)
  | dir (entries : List DirEnt) (pos : Nat) (path : Str)
  | virtual (kind : Virt) (data : List U8) (pos : Nat)
deriving DecidableEq, Repr

/-- The filesystem state of one process. Generated files are kept as their
bytes. -/
structure Vfs where
  rootfs : Option HostPath
  canonRoot : Option (Path Str)
  cwd : Str
  fds : List (Option Fd)
  execPath : List U8
  cmdline : List U8
  maps : List U8

abbrev ENOENT : Int := 2
abbrev EINVAL : Int := 22

abbrev O_WRONLY : U32 := 0x1
abbrev O_RDWR : U32 := 0x2
abbrev O_CREAT : U32 := 0x40
abbrev O_TRUNC : U32 := 0x200
abbrev O_APPEND : U32 := 0x400

/-- ASCII text as bytes. -/
def ascii (s : String) : List U8 :=
  s.toList.map fun c => BitVec.ofNat 8 c.toNat

/-- `errno_from_io`, as far as these errors go. -/
def errnoFromIo : IoError → Int
  | .notFound => ENOENT
  | _ => EINVAL

/-- One component of a guest path on the stack of those before it. -/
def pushPart (parts : List Str) (comp : Str) : List Str :=
  if comp = [] ∨ comp = ['.'] then parts
  else if comp = ['.', '.'] then parts.dropLast
  else parts ++ [comp]

/-- The components of the text of a relative path. -/
def relComps (s : Str) : List (Comp Str) :=
  (s.splitOn '/').filterMap fun c =>
    if c = [] then none
    else if c = ['.'] then some .here
    else if c = ['.', '.'] then some .up
    else some (.name c)

/-- The file an open leaves open, or its error. -/
structure Opened where
  ret : Int
  vfs : Vfs
  host : Host
  accesses : List Access

namespace Vfs

/-- A VFS over `rootfs`, its canonical path taken at once. -/
def new (h : Host) (rootfs : Option HostPath) : Vfs where
  rootfs
  canonRoot := rootfs.bind h.canonicalize
  cwd := ['/']
  fds := [some (.std 0), some (.std 1), some (.std 2)]
  execPath := ascii "/a.out"
  cmdline := []
  maps := []

/-- Put `fd` into the first free slot. -/
def install (v : Vfs) (fd : Fd) : Int × Vfs :=
  match v.fds.findIdx? (·.isNone) with
  | some i => (i, { v with fds := v.fds.set i (some fd) })
  | none => (v.fds.length, { v with fds := v.fds ++ [some fd] })

/-- The stack of components of a guest path. -/
def parts (v : Vfs) (path : Str) : List Str :=
  let start := if path.head? = some '/' then [] else v.cwd
  ((start ++ '/' :: path).splitOn '/').foldl pushPart []

/-- Normalize a guest path to an absolute form without `.` and `..`. -/
def normalize (v : Vfs) (path : Str) : Str :=
  '/' :: ['/'].intercalate (v.parts path)

/-- Resolve a virtual device path to its kind. -/
def virtDev (guest : Str) : Option Virt :=
  if guest = "/dev/null".toList then some .null
  else if guest = "/dev/zero".toList then some .zero
  else if guest = "/dev/full".toList then some .full
  else if guest = "/dev/random".toList
    ∨ guest = "/dev/urandom".toList then some .random
  else none

/-- The content of a virtual `/proc` file. -/
def generated (v : Vfs) (guest : Str) : Option (List U8) :=
  if guest = "/proc/self/cmdline".toList then some v.cmdline
  else if guest = "/proc/self/maps".toList then some v.maps
  else if guest = "/proc/self/exe".toList then some v.execPath
  else if guest = "/proc/cpuinfo".toList then
    some (ascii "processor\t: 0\nvendor_id\t: GenuineIntel\n")
  else none

/-- The virtual file a guest path names. -/
def overlay (v : Vfs) (guest : Str) : Option Fd :=
  match virtDev guest with
  | some kind => some (.virtual kind [] 0)
  | none => (v.generated guest).map fun data => .virtual .generated data 0

/-- The host path of a normalized guest path, before it is checked. -/
def candidate (root : HostPath) (guest : Str) : HostPath :=
  root.join (relComps (guest.dropWhile (· = '/')))

/-- Map a normalized guest path to a host path. What the candidate, or
else its parent, canonicalizes to must be under the canonical root. -/
def hostPath (h : Host) (v : Vfs) (guest : Str) : Option HostPath :=
  v.rootfs.bind fun root =>
    let cand := candidate root guest
    match v.canonRoot with
    | none => some cand
    | some canonRoot =>
      let resolved :=
        (h.canonicalize cand).or (cand.parent.bind h.canonicalize)
      match resolved with
      | none => some cand
      | some r => if canonRoot <+: r then some cand else none

/-- The options a flag word selects. -/
def options (flags : U32) : OpenOptions where
  read := flags &&& O_WRONLY == 0
  write := flags &&& (O_WRONLY ||| O_RDWR) != 0
  append := flags &&& O_APPEND != 0
  truncate := flags &&& O_TRUNC != 0
  create := flags &&& O_CREAT != 0

/-- The entries of a directory, `.` and `..` first. -/
def entries (h : Host) (host : HostPath) (p : Path Str) : List DirEnt :=
  ⟨['.'], true⟩ :: ⟨['.', '.'], true⟩ ::
    (h.readDir p).map fun n => ⟨n, h.isDir (host.join [.name n])⟩

/-- Open a host path: as a directory to list, or with the flags. -/
def openHost (h : Host) (v : Vfs) (guest : Str) (host : HostPath)
    (flags : U32) : Opened :=
  match h.resolve host with
  | .dir p _ =>
    let (fd, v) := v.install (.dir (entries h host p) 0 guest)
    ⟨fd, v, h, [.list p]⟩
  | _ =>
    match h.openWith host (options flags) with
    | .ok (file, h, accesses) =>
      let (fd, v) := v.install (.file file guest)
      ⟨fd, v, h, accesses⟩
    | .error e => ⟨-errnoFromIo e, v, h, []⟩

/-- `open`, and `openat` with its directory resolved. -/
def openPath (h : Host) (v : Vfs) (path : Str) (flags : U32) : Opened :=
  let guest := v.normalize path
  match v.overlay guest with
  | some file =>
    let (fd, v) := v.install file
    ⟨fd, v, h, []⟩
  | none =>
    match v.hostPath h guest with
    | none => ⟨-ENOENT, v, h, []⟩
    | some host => openHost h v guest host flags

end Vfs

end Remu.Os
