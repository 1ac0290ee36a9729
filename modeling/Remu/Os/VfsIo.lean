/-
Reading, writing and seeking in the VFS of the i386 layer.

The standard streams and the files behind descriptors are the host's
(`HostIo`); devices and generated files are the VFS's own. A call is `none`
where the source panics: a slice that starts past the end of its vector, or
a signed sum that does not fit.
-/
import Remu.Os.Vfs

namespace Remu.Os

-- ======== constants

abbrev EIO : Int := 5
abbrev EBADF : Int := 9
abbrev EFAULT : Int := 14
abbrev ENOTDIR : Int := 20
abbrev EISDIR : Int := 21
abbrev ENOSPC : Int := 28
abbrev ESPIPE : Int := 29

/-- `n as i32`. -/
def asI32 (n : Nat) : Int := (BitVec.ofNat 32 n).toInt

/-- `n as i64`. -/
def asI64 (n : Nat) : Int := (BitVec.ofNat 64 n).toInt

theorem asI64_of_lt {n : Nat} (h : n < 2 ^ 63) : asI64 n = n := by
  rw [asI64, BitVec.toInt_eq_toNat_bmod, BitVec.toNat_ofNat,
    Nat.mod_eq_of_lt (by omega), Int.bmod_eq_of_le (by omega) (by omega)]

theorem asI32_eq_iff {n : Nat} : asI32 n = n ↔ n < 2 ^ 31 := by
  have hle : asI32 n < 2 ^ 31 := (BitVec.ofNat 32 n).toInt_lt
  constructor
  · intro h
    omega
  · intro h
    rw [asI32, BitVec.toInt_eq_toNat_bmod, BitVec.toNat_ofNat,
      Nat.mod_eq_of_lt (by omega), Int.bmod_eq_of_le (by omega) (by omega)]

theorem asI32_nonneg_iff {n : Nat} (h : n < 2 ^ 32) :
    0 ≤ asI32 n ↔ n < 2 ^ 31 := by
  constructor
  · intro hnonneg
    rw [asI32, BitVec.toInt_eq_toNat_cond, BitVec.toNat_ofNat,
      Nat.mod_eq_of_lt h] at hnonneg
    split at hnonneg <;> omega
  · intro hlt
    rw [asI32_eq_iff.2 hlt]
    omega

-- ======== the host

/-- Where a seek starts from. -/
inductive SeekFrom where
  | start (n : Nat)
  | current (off : Int)
  | fromEnd (off : Int)
deriving DecidableEq, Repr

/-- The host's streams and files, the files by the descriptor that has
them open; `none` is an error. -/
structure HostIo (σ : Type) where
  readStdin : Nat → σ → Option (List U8) × σ
  /-- Standard output or error; what the host says to it is ignored. -/
  writeStd : Nat → List U8 → σ → σ
  readFile : Nat → Nat → σ → Option (List U8) × σ
  writeFile : Nat → List U8 → σ → Option Nat × σ
  seekFile : Nat → SeekFrom → σ → Option Nat × σ

-- ======== devices and files

/-- One step of the generator. -/
def xorshift (x : U32) : U32 :=
  let x := x ^^^ (x <<< 13)
  let x := x ^^^ (x >>> 17)
  x ^^^ (x <<< 5)

def randomBytes : Nat → U32 → List U8
  | 0, _ => []
  | n + 1, x => (xorshift x).setWidth 8 :: randomBytes n (xorshift x)

/-- The generator is seeded by the position. -/
def randomSeed (pos : Nat) : U32 :=
  let x := 0x2545F491 + BitVec.ofNat 32 pos
  if x < 1 then 1 else x

/-- Read up to `n` bytes of a virtual file: the bytes and the new
position. -/
def Virt.read (kind : Virt) (data : List U8) (pos n : Nat) :
    Option (List U8 × Nat) :=
  match kind with
  | .null => some ([], pos)
  | .zero | .full => some (List.replicate n 0, pos)
  | .random => some (randomBytes n (randomSeed pos), pos + n)
  | .generated =>
    let k := min (data.length - min pos data.length) n
    if data.length < pos + k then none
      else some ((data.drop pos).take k, pos + k)

/-- Seek in a virtual file: the result and the new position. -/
def seekVirtual (data : List U8) (pos : Nat) (off : U64) (whence : U32) :
    Option (Int × Nat) :=
  let base? : Option Int :=
    if whence = 0 then some 0
    else if whence = 1 then some (asI64 pos)
    else if whence = 2 then some (asI64 data.length)
    else none
  match base? with
  | none => some (-EINVAL, pos)
  | some base =>
    if base + off.toInt < -2 ^ 63 ∨ 2 ^ 63 ≤ base + off.toInt then none
    else
      let np := max (base + off.toInt) 0
      some (np, np.toNat)

namespace Vfs

/-- What a descriptor is open on. -/
def slot (v : Vfs) (fd : Int) : Option Fd :=
  if fd < 0 then none else v.fds[fd.toNat]?.join

def setSlot (v : Vfs) (fd : Int) (f : Fd) : Vfs :=
  { v with fds := v.fds.set fd.toNat (some f) }

theorem slot_setSlot {v : Vfs} {fd : Int} {f : Fd}
    (h : v.slot fd = some f) (f' : Fd) :
    (v.setSlot fd f').slot fd = some f' := by
  unfold slot at h ⊢
  split at h
  · cases h
  case isFalse hfd =>
    rw [if_neg hfd]
    cases hget : v.fds[fd.toNat]? with
    | none =>
      rw [hget] at h
      cases h
    | some o =>
      obtain ⟨hlt, -⟩ := List.getElem?_eq_some_iff.1 hget
      rw [setSlot, List.getElem?_set_self hlt]
      rfl

variable {σ : Type} (io : HostIo σ)

/-- Read up to `n` bytes: the count or error, the bytes, and what is left
behind. -/
def read (v : Vfs) (s : σ) (fd : Int) (n : Nat) :
    Option ((Int × List U8) × Vfs × σ) :=
  match v.slot fd with
  | none => some ((-EBADF, []), v, s)
  | some (.std k) =>
    if k = 0 then
      match io.readStdin n s with
      | (some bytes, s) => some ((asI32 bytes.length, bytes), v, s)
      | (none, s) => some ((- EIO, []), v, s)
    else some ((-EBADF, []), v, s)
  | some (.file _ _) =>
    match io.readFile fd.toNat n s with
    | (some bytes, s) => some ((asI32 bytes.length, bytes), v, s)
    | (none, s) => some ((- EIO, []), v, s)
  | some (.dir _ _ _) => some ((-EISDIR, []), v, s)
  | some (.virtual kind data pos) =>
    (kind.read data pos n).map fun (bytes, pos) =>
      ((asI32 bytes.length, bytes), v.setSlot fd (.virtual kind data pos), s)

/-- Write bytes: the count or error. -/
def write (v : Vfs) (s : σ) (fd : Int) (bytes : List U8) : Int × σ :=
  match v.slot fd with
  | none => (-EBADF, s)
  | some (.std k) =>
    if k = 1 ∨ k = 2 then (asI32 bytes.length, io.writeStd k.toNat bytes s)
      else (-EBADF, s)
  | some (.file _ _) =>
    match io.writeFile fd.toNat bytes s with
    | (some n, s) => (asI32 n, s)
    | (none, s) => (- EIO, s)
  | some (.dir _ _ _) => (-EBADF, s)
  | some (.virtual kind _ _) =>
    match kind with
    | .null | .zero | .random => (asI32 bytes.length, s)
    | .full => (-ENOSPC, s)
    | .generated => (-EBADF, s)

/-- Seek: the new offset or an error. -/
def lseek (v : Vfs) (s : σ) (fd : Int) (off : U64) (whence : U32) :
    Option (Int × Vfs × σ) :=
  match v.slot fd with
  | none => some (-EBADF, v, s)
  | some (.file _ _) =>
    let sk? : Option SeekFrom :=
      if whence = 0 then some (.start off.toNat)
      else if whence = 1 then some (.current off.toInt)
      else if whence = 2 then some (.fromEnd off.toInt)
      else none
    match sk? with
    | none => some (-EINVAL, v, s)
    | some sk =>
      match io.seekFile fd.toNat sk s with
      | (some n, s) => some (asI64 n, v, s)
      | (none, s) => some (- EIO, v, s)
  | some (.virtual kind data pos) =>
    (seekVirtual data pos off whence).map fun (ret, pos) =>
      (ret, v.setSlot fd (.virtual kind data pos), s)
  | some (.std _) | some (.dir _ _ _) => some (-ESPIPE, v, s)

/-- Hand the entries of a directory to `emit`, one by one, until it
refuses one; the cursor moves past those it took. -/
def nextDents {τ : Type} (v : Vfs) (fd : Int) (emit : τ → DirEnt → Bool × τ) (t : τ) :
    Option (Nat × τ × Vfs) :=
  match v.slot fd with
  | some (.dir entries pos path) =>
    let (n, t) := feed (entries.drop pos) t
    some (n, t, v.setSlot fd (.dir entries (pos + n) path))
  | _ => none
where
  feed : List DirEnt → τ → Nat × τ
    | [], t => (0, t)
    | e :: es, t =>
      match emit t e with
      | (false, t) => (0, t)
      | (true, t) =>
        let (n, t) := feed es t
        (n + 1, t)

end Vfs

end Remu.Os
