/-
Guest memory a byte at a time.

A copy in or out goes a page at a time and stops at the first page that is
not there. Said of bytes it is a walk along a list of addresses
(`pick`, `place`), and walks along two lists are one along both: so copies
of chunks, and of scattered buffers, are copies of what they consist of.
-/
import Remu.Lib.ByteRam
import Remu.Os.Contents

namespace Remu.Os

open ByteRam EntryWidth FrameTree Word

variable {w : Nat}

-- ======== addresses

theorem bytesFrom_zero (lin : BitVec w) : bytesFrom lin 0 = [] := rfl

theorem bytesFrom_succ (lin : BitVec w) (n : Nat) :
    bytesFrom lin (n + 1) = lin :: bytesFrom (lin + 1) n := by
  have hzero : lin + BitVec.ofNat w 0 = lin := BitVec.add_zero lin
  rw [bytesFrom, bytesFrom, List.range_succ_eq_map, List.map_cons,
    List.map_map, hzero]
  congr 1
  refine List.map_congr_left fun i _ => ?_
  exact (AddressSpace.add_succ lin i).symm

theorem bytesFrom_add (lin : BitVec w) (m n : Nat) :
    bytesFrom lin (m + n)
      = bytesFrom lin m ++ bytesFrom (lin + BitVec.ofNat w m) n := by
  induction m generalizing lin with
  | zero =>
    have hzero : lin + BitVec.ofNat w 0 = lin := BitVec.add_zero lin
    rw [Nat.zero_add, bytesFrom_zero, List.nil_append, hzero]
  | succ m ih =>
    rw [Nat.succ_add, bytesFrom_succ, bytesFrom_succ, ih,
      AddressSpace.add_succ, List.cons_append]

@[simp] theorem length_bytesFrom (lin : BitVec w) (n : Nat) :
    (bytesFrom lin n).length = n := by
  rw [bytesFrom, List.length_map, List.length_range]

variable [EntryWidth w]

namespace AddressSpace

variable {L : Layout w} {a a' : AddressSpace w} {lin : BitVec w}

/-- The byte at an address of the guest. -/
def guestByte (L : Layout w) (a : AddressSpace w) (x : BitVec w) : Option U8 :=
  (a.resolve L x).map a.mem.load8

/-- The bytes at some addresses; `none` when one leads nowhere. -/
def pick (L : Layout w) (a : AddressSpace w) :
    List (BitVec w) → Option (List U8)
  | [] => some []
  | x :: xs => (a.guestByte L x).bind fun b => (pick L a xs).map (b :: ·)

/-- Bytes stored at some addresses, one after another, up to the first that
leads nowhere. -/
def place (L : Layout w) (a : AddressSpace w) :
    List (BitVec w × U8) → Bool × AddressSpace w
  | [] => (true, a)
  | (x, v) :: cells =>
    match a.resolve L x with
    | none => (false, a)
    | some p => place L { a with mem := a.mem.store8 p v } cells

/-- Every address leads somewhere. -/
def AllMapped (L : Layout w) (a : AddressSpace w) (xs : List (BitVec w)) : Prop :=
  ∀ x ∈ xs, a.resolve L x ≠ none

theorem pick_append (xs ys : List (BitVec w)) :
    a.pick L (xs ++ ys) = (a.pick L xs).bind fun us =>
      (a.pick L ys).map (us ++ ·) := by
  induction xs with
  | nil =>
    rw [List.nil_append, pick, Option.bind_some]
    cases a.pick L ys <;> rfl
  | cons x xs ih =>
    rw [List.cons_append, pick, pick, ih]
    cases a.guestByte L x with
    | none => rfl
    | some b =>
      rw [Option.bind_some, Option.bind_some]
      cases a.pick L xs with
      | none => rfl
      | some us =>
        rw [Option.map_some, Option.bind_some, Option.bind_some,
          Option.map_map]
        rfl

theorem length_pick {xs : List (BitVec w)} {data : List U8}
    (h : a.pick L xs = some data) :
    data.length = xs.length := by
  induction xs generalizing data with
  | nil =>
    cases h
    rfl
  | cons x xs ih =>
    rw [pick, Option.bind_eq_some_iff] at h
    obtain ⟨b, -, hrest⟩ := h
    obtain ⟨us, hus, rfl⟩ := Option.map_eq_some_iff.1 hrest
    rw [List.length_cons, List.length_cons, ih hus]

/-- Storing keeps the tables. -/
theorem sameTables_place (hs : a.Sound L) (cells : List (BitVec w × U8)) :
    SameTables L a (a.place L cells).2 := by
  induction cells generalizing a with
  | nil => exact SameTables.refl hs
  | cons c cells ih =>
    obtain ⟨x, v⟩ := c
    rw [place]
    cases hx : a.resolve L x with
    | none => exact SameTables.refl hs
    | some p =>
      have hstep := hs.store8 hx v
      exact hstep.trans (ih hstep.sound)

theorem place_done_iff (hs : a.Sound L) {cells : List (BitVec w × U8)} :
    (a.place L cells).1 = true ↔ a.AllMapped L (cells.map Prod.fst) := by
  induction cells generalizing a with
  | nil => exact iff_of_true rfl fun x hx => absurd hx List.not_mem_nil
  | cons c cells ih =>
    obtain ⟨x, v⟩ := c
    rw [place, List.map_cons]
    cases hx : a.resolve L x with
    | none =>
      exact iff_of_false Bool.false_ne_true fun h => h x List.mem_cons_self hx
    | some p =>
      have hstep := hs.store8 hx v
      rw [ih hstep.sound]
      constructor
      · intro h y hy
        rcases List.mem_cons.1 hy with rfl | hrest
        · rw [hx]
          exact Option.some_ne_none p
        · rw [← hstep.resolve]
          exact h y hrest
      · intro h y hy
        rw [hstep.resolve]
        exact h y (List.mem_cons_of_mem x hy)

theorem place_append {cells more : List (BitVec w × U8)}
    (h : (a.place L cells).1 = true) :
    a.place L (cells ++ more) = (a.place L cells).2.place L more := by
  induction cells generalizing a with
  | nil => rfl
  | cons c cells ih =>
    obtain ⟨x, v⟩ := c
    rw [List.cons_append, place]
    rw [place] at h ⊢
    cases hx : a.resolve L x with
    | none =>
      rw [hx] at h
      cases h
    | some p =>
      rw [hx] at h
      exact ih h

theorem AllMapped.congr (h : SameTables L a a') {xs : List (BitVec w)} :
    a'.AllMapped L xs ↔ a.AllMapped L xs := by
  constructor
  · intro hall x hx
    rw [← h.resolve]
    exact hall x hx
  · intro hall x hx
    rw [h.resolve]
    exact hall x hx

theorem AllMapped.append {xs ys : List (BitVec w)} :
    a.AllMapped L (xs ++ ys) ↔ a.AllMapped L xs ∧ a.AllMapped L ys := by
  constructor
  · intro h
    exact ⟨fun x hx => h x (List.mem_append_left ys hx),
      fun x hx => h x (List.mem_append_right xs hx)⟩
  · intro h x hx
    rcases List.mem_append.1 hx with hl | hr
    · exact h.1 x hl
    · exact h.2 x hr

-- ======== copies

/-- A copy in stores at the addresses from `lin` on. -/
theorem writeBytes_eq_place (hs : a.Sound L)
    (lin : BitVec w) (data : List U8) :
    a.writeBytes L lin data
      = a.place L ((bytesFrom lin data.length).zip data) := by
  rw [writeBytes_eq hs]
  clear hs
  induction data generalizing a lin with
  | nil => rfl
  | cons v vs ih =>
    rw [pokeBytes, List.length_cons, bytesFrom_succ, List.zip_cons_cons, place]
    cases a.resolve L lin with
    | none => rfl
    | some p => exact ih (lin + 1)

end AddressSpace

end Remu.Os
