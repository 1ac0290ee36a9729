/-
The stack a program starts on.

`build_stack` puts the argument and environment strings, the name of the
platform, the path of the program and sixteen bytes below the stack top,
each below the one before, and below all of them the block of words the
program is entered with. What a copy into guest memory returns is not looked
at. `readEntry` is the other side: what the entry code of a program reads
from the stack pointer on.

While every address of a range is mapped and no two of them are names of
one byte (`Window`), a copy into it is an update of the array of its bytes,
and so is any number of copies.
-/
import Remu.Lib.ByteWords
import Remu.Os.Bytes

namespace Remu.Os

open EntryWidth FrameTree Word

variable {w : Nat} [EntryWidth w]

namespace AddressSpace

variable {L : Layout w} {a a' : AddressSpace w} {bottom : BitVec w} {n : Nat}

/-- The `n` bytes from `bottom` on are mapped, and as many. -/
structure Window (L : Layout w) (a : AddressSpace w) (bottom : BitVec w)
    (n : Nat) : Prop where
  sound : a.Sound L
  mapped : a.Mapped L bottom n
  spread : L.Spread bottom n

/-- What a window holds at offset `o`. -/
def Window.Has (L : Layout w) (a : AddressSpace w) (bottom : BitVec w)
    (o : Nat) (data : List U8) : Prop :=
  ∀ i, i < data.length →
    a.guestByte L (bottom + BitVec.ofNat w (o + i)) = data[i]?

namespace Window

omit [EntryWidth w] in
/-- Two offsets add up. -/
theorem add_offset (bottom : BitVec w) (o k : Nat) :
    bottom + BitVec.ofNat w o + BitVec.ofNat w k
      = bottom + BitVec.ofNat w (o + k) := by
  rw [BitVec.add_assoc, ← BitVec.ofNat_add]

/-- A copy into a window is an update of its array. -/
theorem write (h : Window L a bottom n) {o : Nat} {data : List U8}
    (hfit : o + data.length ≤ n) :
    ∃ a', a.writeBytes L (bottom + BitVec.ofNat w o) data = (true, a')
      ∧ Window L a' bottom n
      ∧ Has L a' bottom o data
      ∧ ∀ k, k < n → ¬ (o ≤ k ∧ k < o + data.length) →
        a'.guestByte L (bottom + BitVec.ofNat w k)
          = a.guestByte L (bottom + BitVec.ofNat w k) := by
  obtain ⟨m, hcopied, hfull, -⟩ :=
    copied_writeBytes h.sound (bottom + BitVec.ofNat w o) data
  have hmapped : a.Mapped L (bottom + BitVec.ofNat w o) data.length := by
    intro i hi
    rw [add_offset]
    exact h.mapped (o + i) (by omega)
  have hdone := (writeBytes_done_iff h.sound).2 hmapped
  obtain rfl := hfull.1 hdone
  have hone : ∀ j k q,
      j < n → k < n → a.resolve L (bottom + BitVec.ofNat w j) = some q →
      a.resolve L (bottom + BitVec.ofNat w k) = some q → j = k := by
    intro j k q hj hk hjq hkq
    obtain ⟨hpage, hoff⟩ := resolve_inj h.sound hjq hkq
    exact h.spread j k hj hk hpage hoff
  refine ⟨_, Prod.ext hdone rfl,
    ⟨hcopied.same.sound, fun i hi => ?_, h.spread⟩, fun i hi => ?_,
    fun k hk hout => ?_⟩
  · rw [hcopied.same.resolve]
    exact h.mapped i hi
  · obtain ⟨q, hq⟩ := hcopied.mapped i hi
    rw [add_offset] at hq
    rw [guestByte, hcopied.same.resolve, hq, Option.map_some,
      List.getElem?_eq_getElem hi]
    congr 1
    refine hcopied.last i q _ hi (List.getElem?_eq_getElem hi)
      (by rw [add_offset]; exact hq) ?_
    intro j hj hij hjq
    rw [add_offset] at hjq
    have := hone _ _ q (by omega) (by omega) hq hjq
    omega
  · rw [guestByte, guestByte, hcopied.same.resolve]
    cases hq : a.resolve L (bottom + BitVec.ofNat w k) with
    | none => rfl
    | some q =>
      rw [Option.map_some, Option.map_some, hcopied.other q]
      intro i hi hiq
      rw [add_offset] at hiq
      have := hone _ _ q hk (by omega) hq hiq
      omega

/-- What a window holds, put together from two. -/
theorem Has.append {o : Nat} {xs ys : List U8} (hx : Has L a bottom o xs)
    (hy : Has L a bottom (o + xs.length) ys) :
    Has L a bottom o (xs ++ ys) := by
  intro i hi
  rw [List.length_append] at hi
  by_cases hlt : i < xs.length
  · rw [List.getElem?_append_left hlt]
    exact hx i hlt
  · rw [List.getElem?_append_right (by omega)]
    have := hy (i - xs.length) (by omega)
    rwa [show o + xs.length + (i - xs.length) = o + i by omega] at this

/-- A window holds the first part of what it holds. -/
theorem Has.left {o : Nat} {xs ys : List U8}
    (h : Has L a bottom o (xs ++ ys)) : Has L a bottom o xs := by
  intro i hi
  have := h i (by rw [List.length_append]; omega)
  rwa [List.getElem?_append_left hi] at this

theorem Has.right {o : Nat} {xs ys : List U8}
    (h : Has L a bottom o (xs ++ ys)) :
    Has L a bottom (o + xs.length) ys := by
  intro i hi
  have := h (xs.length + i) (by rw [List.length_append]; omega)
  rw [List.getElem?_append_right (by omega), Nat.add_sub_cancel_left,
    ← Nat.add_assoc] at this
  exact this

/-- What another copy does not touch is still there. -/
theorem Has.keep {o p m : Nat} {data : List U8} (h : Has L a bottom o data)
    (hkeep : ∀ k, k < n → ¬ (p ≤ k ∧ k < p + m) →
      a'.guestByte L (bottom + BitVec.ofNat w k)
        = a.guestByte L (bottom + BitVec.ofNat w k))
    (hin : o + data.length ≤ n) (hout : o + data.length ≤ p ∨ p + m ≤ o) :
    Has L a' bottom o data := by
  intro i hi
  rw [hkeep (o + i) (by omega) (by omega)]
  exact h i hi

end Window

end AddressSpace

-- ======== the image

/-- What `build_stack` takes from a loaded image. -/
structure ElfImage (w : Nat) where
  /-- Entry point (with load bias applied). -/
  entry : BitVec w
  /-- Linear address of the program headers in the loaded image (`AT_PHDR`). -/
  phdr : BitVec w
  /-- Program-header entry size and count (`AT_PHENT` / `AT_PHNUM`). -/
  phent : U16
  phnum : U16
deriving DecidableEq, Repr

namespace auxv

/-- The end of the auxiliary vector. -/
abbrev AT_NULL : BitVec w := BitVec.ofNat w 0
/-- The address of the program headers. -/
abbrev AT_PHDR : BitVec w := BitVec.ofNat w 3
/-- The size of a program header. -/
abbrev AT_PHENT : BitVec w := BitVec.ofNat w 4
/-- How many there are. -/
abbrev AT_PHNUM : BitVec w := BitVec.ofNat w 5
/-- The size of a page. -/
abbrev AT_PAGESZ : BitVec w := BitVec.ofNat w 6
/-- The address of the interpreter. -/
abbrev AT_BASE : BitVec w := BitVec.ofNat w 7
abbrev AT_FLAGS : BitVec w := BitVec.ofNat w 8
/-- The program's entry point. -/
abbrev AT_ENTRY : BitVec w := BitVec.ofNat w 9
abbrev AT_UID : BitVec w := BitVec.ofNat w 11
abbrev AT_EUID : BitVec w := BitVec.ofNat w 12
abbrev AT_GID : BitVec w := BitVec.ofNat w 13
abbrev AT_EGID : BitVec w := BitVec.ofNat w 14
/-- The name of the platform. -/
abbrev AT_PLATFORM : BitVec w := BitVec.ofNat w 15
abbrev AT_HWCAP : BitVec w := BitVec.ofNat w 16
abbrev AT_CLKTCK : BitVec w := BitVec.ofNat w 17
abbrev AT_SECURE : BitVec w := BitVec.ofNat w 23
/-- The address of sixteen random bytes. -/
abbrev AT_RANDOM : BitVec w := BitVec.ofNat w 25
/-- The name the program was started by. -/
abbrev AT_EXECFN : BitVec w := BitVec.ofNat w 31

end auxv

/-- The auxiliary vector. -/
def auxTable (image : ElfImage w) (interpBase : Option (BitVec w))
    (random platform execfn : BitVec w) :
    List (BitVec w × BitVec w) :=
  [(auxv.AT_PHDR, image.phdr), (auxv.AT_PHENT, image.phent.setWidth w),
    (auxv.AT_PHNUM, image.phnum.setWidth w),
      (auxv.AT_PAGESZ, BitVec.ofNat w 4096),
    (auxv.AT_BASE, interpBase.getD 0), (auxv.AT_FLAGS, 0),
      (auxv.AT_ENTRY, image.entry),
    (auxv.AT_UID, 0), (auxv.AT_EUID, 0), (auxv.AT_GID, 0), (auxv.AT_EGID, 0),
      (auxv.AT_SECURE, 0),
    (auxv.AT_CLKTCK, BitVec.ofNat w 100), (auxv.AT_HWCAP, 0),
      (auxv.AT_RANDOM, random),
    (auxv.AT_PLATFORM, platform), (auxv.AT_EXECFN, execfn), (auxv.AT_NULL, 0)]

-- ======== the writer

/-- Initial mapped stack: 256 KiB. -/
def INIT_STACK : Nat := 0x40000

/-- 16 fixed bytes for `AT_RANDOM`. -/
def RANDOM16 : List U8 :=
  [0x9e, 0x37, 0x79, 0xb9, 0x7f, 0x4a, 0x7c, 0x15, 0xf3, 0x9c, 0xc0, 0x60,
    0x5c, 0xed, 0xc8, 0x34]

/-- A string and its NUL. -/
def cstring (s : List U8) : List U8 := s ++ [0]

/-- The bytes of some words. -/
def wordBytes (vs : List (BitVec w)) : List U8 :=
  vs.flatMap fun v => leBytes (bytes w) v.toNat

/-- The words of some pairs. -/
def pairWords (ps : List (BitVec w × BitVec w)) : List (BitVec w) :=
  ps.flatMap fun p => [p.1, p.2]

/-- The block a program is entered with. -/
def entryBlock (argvPtrs envpPtrs : List (BitVec w))
    (aux : List (BitVec w × BitVec w)) :
    List (BitVec w) :=
  [BitVec.ofNat w argvPtrs.length] ++ argvPtrs ++ [0]
    ++ (envpPtrs ++ [0]) ++ pairWords aux

namespace AddressSpace

variable (L : Layout w)

/-- Push `bytes` below `sp`, returning the address they were written to;
`none` is an address below zero. -/
def push (a : AddressSpace w) (sp : BitVec w) (data : List U8) :
    Option (BitVec w × AddressSpace w) :=
  let len := BitVec.ofNat w data.length
  if sp.toNat < len.toNat then none
    else some (sp - len, (a.writeBytes L (sp - len) data).2)

/-- Push a list, the first uppermost: the addresses, the last of them or the
stack pointer as it was, and the space. -/
def pushAll (a : AddressSpace w) (sp : BitVec w) :
    List (List U8) → Option (List (BitVec w) × BitVec w × AddressSpace w)
  | [] => some ([], sp, a)
  | data :: rest =>
    (a.push L sp data).bind fun (p, a) => (pushAll a p rest).map
      fun (ps, sp, a) => (p :: ps, sp, a)

/-- Words upwards from `p`. They end below the address the block was made
room from, so that `p` stays in its width. -/
def writeWords (a : AddressSpace w) (p : BitVec w) :
    List (BitVec w) → AddressSpace w
  | [] => a
  | v :: vs =>
    writeWords (a.writeBytes L p (leBytes (bytes w) v.toNat)).2
      (p + BitVec.ofNat w (bytes w)) vs

/-- The pointer block, below `sp` and on a boundary of 16 bytes. -/
def placeBlock (a : AddressSpace w) (sp : BitVec w)
    (argvPtrs envpPtrs : List (BitVec w))
    (aux : List (BitVec w × BitVec w)) : Option (BitVec w × AddressSpace w) :=
  let words :=
    1 + (argvPtrs.length + 1) + (envpPtrs.length + 1) + aux.length * 2
  let need := (BitVec.ofNat w words).toNat * bytes w
  if 2 ^ w ≤ need ∨ sp.toNat < need then none
  else
    let base := (sp - BitVec.ofNat w need) &&& ~~~(0xF : BitVec w)
    some (base, a.writeWords L base (entryBlock argvPtrs envpPtrs aux))

/-- Build the initial stack; the entry stack pointer. -/
def buildStack (platformName : List U8) (a : AddressSpace w)
    (image : ElfImage w)
    (interpBase : Option (BitVec w)) (argv envp : List (List U8))
    (execPath : List U8) :
    Option (BitVec w × AddressSpace w) := do
  let (argvPtrs, sp, a) ← a.pushAll L L.stackTop (argv.map cstring)
  let (envpPtrs, sp, a) ← a.pushAll L sp (envp.map cstring)
  let (platform, a) ← a.push L sp platformName
  let (execfn, a) ← a.push L platform (cstring execPath)
  let (random, a) ← a.push L execfn RANDOM16
  a.placeBlock L random argvPtrs envpPtrs
    (auxTable image interpBase random platform execfn)

/-- The stack region, as it is mapped before. -/
def mapStack (a : AddressSpace w) : AddressSpace w :=
  a.map L (L.stackTop - BitVec.ofNat w INIT_STACK) (BitVec.ofNat w INIT_STACK)
    (PROT_READ ||| PROT_WRITE)
    .stack

end AddressSpace

/-- `"i686\0"` -/
def i686 : List U8 := [0x69, 0x36, 0x38, 0x36, 0]

/-- `"x86_64\0"` -/
def x86_64 : List U8 := [0x78, 0x38, 0x36, 0x5F, 0x36, 0x34, 0]

/-- `build_stack` of the i386 layer. -/
def buildStack32 (a : AddressSpace 32) (image : ElfImage 32)
    (interpBase : Option U32)
    (argv envp : List (List U8)) (execPath : List U8) :
    Option (U32 × AddressSpace 32) :=
  a.buildStack Layout.os i686 image interpBase argv envp execPath

/-- `build_stack` of the x86-64 layer. -/
def buildStack64 (a : AddressSpace 64) (image : ElfImage 64)
    (interpBase : Option U64)
    (argv envp : List (List U8)) (execPath : List U8) :
    Option (U64 × AddressSpace 64) :=
  a.buildStack Layout.os64 x86_64 image interpBase argv envp execPath

-- ======== the reader

/-- What a program finds at its stack pointer. -/
structure Entry (w : Nat) where
  argc : BitVec w
  argvPtrs : List (BitVec w)
  envpPtrs : List (BitVec w)
  argv : List (List U8)
  envp : List (List U8)
  aux : List (BitVec w × BitVec w)
deriving DecidableEq, Repr

namespace AddressSpace

variable (L : Layout w) (a : AddressSpace w)

/-- Bytes of the guest, where all are mapped. -/
def guestBytes (x : BitVec w) : Nat → Option (List U8)
  | 0 => some []
  | n + 1 =>
    (a.guestByte L x).bind fun b => (guestBytes (x + 1) n).map (b :: ·)

/-- A word of the guest. -/
def guestWord (x : BitVec w) : Option (BitVec w) :=
  (a.guestBytes L x (bytes w)).map fun bs => BitVec.ofNat w (leNat bs)

/-- Where the `n`-th word from `x` on is. -/
def wordAt (x : BitVec w) (n : Nat) : BitVec w :=
  x + BitVec.ofNat w (bytes w * n)

/-- The bytes before the next NUL. -/
def readString (x : BitVec w) : Nat → Option (List U8)
  | 0 => none
  | fuel + 1 =>
    (a.guestByte L x).bind fun b => if b = 0 then some []
      else (readString (x + 1) fuel).map (b :: ·)

/-- Words of the guest, one after another. -/
def readWords (x : BitVec w) : Nat → Option (List (BitVec w))
  | 0 => some []
  | n + 1 =>
    (a.guestWord L x).bind fun v => (readWords (wordAt x 1) n).map (v :: ·)

/-- The words before the next zero. -/
def readList (x : BitVec w) : Nat → Option (List (BitVec w))
  | 0 => none
  | fuel + 1 =>
    (a.guestWord L x).bind fun v => if v = 0 then some []
      else (readList (wordAt x 1) fuel).map (v :: ·)

/-- The pairs up to one whose tag is `AT_NULL`. -/
def readPairs (x : BitVec w) : Nat → Option (List (BitVec w × BitVec w))
  | 0 => none
  | fuel + 1 =>
    (a.guestWord L x).bind fun t => (a.guestWord L (wordAt x 1)).bind fun v =>
      if t = auxv.AT_NULL then some [(t, v)]
        else (readPairs (wordAt x 2) fuel).map ((t, v) :: ·)

/-- The process-entry layout: `argc`, as many pointers and a zero, the
environment's pointers and a zero, the auxiliary vector. No list and no
string is followed further than `fuel`. -/
def readEntry (sp : BitVec w) (fuel : Nat) : Option (Entry w) := do
  let argc ← a.guestWord L sp
  let argvPtrs ← a.readWords L (wordAt sp 1) argc.toNat
  let null ← a.guestWord L (wordAt sp (1 + argc.toNat))
  if null ≠ 0 then none
  else
    let envpPtrs ← a.readList L (wordAt sp (1 + argc.toNat + 1)) fuel
    let aux ← a.readPairs L
      (wordAt sp (1 + argc.toNat + 1 + envpPtrs.length + 1)) fuel
    let argv ← argvPtrs.mapM fun p => a.readString L p fuel
    let envp ← envpPtrs.mapM fun p => a.readString L p fuel
    some ⟨argc, argvPtrs, envpPtrs, argv, envp, aux⟩

end AddressSpace

end Remu.Os
