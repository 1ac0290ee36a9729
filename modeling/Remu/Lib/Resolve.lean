/-
Path resolution in a tree with symbolic links.

An object of the tree is named by its canonical path: the names from the
root down, no link among them. Resolution walks a list of components from
a directory, one name after another, and starts over in the middle when it
meets a link. It ends at a directory, at a file, or at a name missing from
a directory that exists, which is where a new file would go. The number of
links it may follow is bounded.

The law of the whole library is `resolve_append`: resolving a longer path
is resolving its beginning, then the rest from there.
-/
import Mathlib.Data.List.Basic

namespace Remu.Resolve

variable {Name : Type}

/-- One component of a path as it is written. -/
inductive Comp (Name : Type) where
  | here
  | up
  | name (n : Name)
deriving DecidableEq, Repr

/-- A canonical path. -/
abbrev Path (Name : Type) : Type := List Name

/-- What the tree has at a canonical path. -/
inductive Node (Name : Type) where
  | dir
  | file
  | link (absolute : Bool) (target : List (Comp Name))
deriving DecidableEq, Repr

/-- Why a path leads nowhere. -/
inductive Failure where
  | notFound
  | notDirectory
  | loop
deriving DecidableEq, Repr

-- ======== one stretch

/-- Where a walk stops that follows no link. -/
inductive Stop (Name : Type) where
  | dir (p : Path Name)
  | file (p : Path Name)
  /-- `n` is missing from `d`. -/
  | missing (d : Path Name) (n : Name)
  /-- A link to `target`, with `rest` left to walk behind it. -/
  | jump (start : Path Name) (target rest : List (Comp Name))
  | fail (e : Failure)
deriving DecidableEq, Repr

/-- Walk `comps` from the directory `cur` up to the first link. -/
def descend (tree : Path Name → Option (Node Name)) :
    Path Name → List (Comp Name) → Stop Name
  | cur, [] => .dir cur
  | cur, .here :: rest => descend tree cur rest
  | cur, .up :: rest => descend tree cur.dropLast rest
  | cur, .name n :: rest =>
    match tree (cur ++ [n]) with
    | none => if rest = [] then .missing cur n else .fail .notFound
    | some .dir => descend tree (cur ++ [n]) rest
    | some .file =>
      if rest = [] then .file (cur ++ [n]) else .fail .notDirectory
    | some (.link absolute target) =>
      .jump (if absolute then [] else cur) target rest

namespace Stop

/-- Walk on from where a walk stopped. -/
def andThen (tree : Path Name → Option (Node Name)) (ys : List (Comp Name)) :
    Stop Name → Stop Name
  | .dir p => descend tree p ys
  | .file p => if ys = [] then .file p else .fail .notDirectory
  | .missing d n => if ys = [] then .missing d n else .fail .notFound
  | .jump start target rest => .jump start target (rest ++ ys)
  | .fail e => .fail e

end Stop

variable (tree : Path Name → Option (Node Name))

theorem descend_append (cur : Path Name) (xs ys : List (Comp Name)) :
    descend tree cur (xs ++ ys) = (descend tree cur xs).andThen tree ys := by
  induction xs generalizing cur with
  | nil => rfl
  | cons x xs ih =>
    cases x with
    | here => exact ih cur
    | up => exact ih cur.dropLast
    | name n =>
      rw [List.cons_append, descend, descend]
      cases tree (cur ++ [n]) with
      | none =>
        dsimp only
        by_cases hxs : xs = []
        · rw [hxs, List.nil_append, if_pos rfl]
          rfl
        · rw [if_neg hxs, if_neg fun h => hxs (List.append_eq_nil_iff.1 h).1]
          rfl
      | some node =>
        cases node with
        | dir => exact ih (cur ++ [n])
        | file =>
          dsimp only
          by_cases hxs : xs = []
          · rw [hxs, List.nil_append, if_pos rfl]
            rfl
          · rw [if_neg hxs, if_neg fun h => hxs (List.append_eq_nil_iff.1 h).1]
            rfl
        | link absolute target => rfl

-- ======== whole walks

/-- Where a path leads, with the number of links still allowed. -/
inductive Found (Name : Type) where
  | dir (p : Path Name) (left : Nat)
  | file (p : Path Name)
  | missing (d : Path Name) (n : Name)
  | fail (e : Failure)
deriving DecidableEq, Repr

/-- Where a stretch leads, `follow` taking a link on. -/
def Stop.settle (follow : Path Name → List (Comp Name) → Found Name)
    (links : Nat) :
    Stop Name → Found Name
  | .dir p => .dir p links
  | .file p => .file p
  | .missing d n => .missing d n
  | .jump start target rest => follow start (target ++ rest)
  | .fail e => .fail e

/-- Resolve `comps` from `cur`, following at most `links` links. -/
def resolve : Nat → Path Name → List (Comp Name) → Found Name
  | 0, cur, comps => (descend tree cur comps).settle (fun _ _ => .fail .loop) 0
  | links + 1, cur, comps =>
    (descend tree cur comps).settle (resolve links) (links + 1)

namespace Found

/-- Resolve on from where a path leads. -/
def andThen (ys : List (Comp Name)) : Found Name → Found Name
  | .dir p left => resolve tree left p ys
  | .file p => if ys = [] then .file p else .fail .notDirectory
  | .missing d n => if ys = [] then .missing d n else .fail .notFound
  | .fail e => .fail e

end Found

/-- Settling a stretch walked on is resolving on from where it settles,
if following a link is. -/
theorem settle_andThen {follow : Path Name → List (Comp Name) → Found Name}
    {links : Nat}
    (hresolve : ∀ p ys,
      resolve tree links p ys = (descend tree p ys).settle follow links)
    (hfollow : ∀ start comps ys,
      follow start (comps ++ ys) = (follow start comps).andThen tree ys)
    (stop : Stop Name) (ys : List (Comp Name)) :
    (stop.andThen tree ys).settle follow links
      = (stop.settle follow links).andThen tree ys := by
  cases stop with
  | dir p => exact (hresolve p ys).symm
  | file p =>
    rw [Stop.andThen, Stop.settle, Found.andThen]
    split <;> rfl
  | missing d n =>
    rw [Stop.andThen, Stop.settle, Found.andThen]
    split <;> rfl
  | jump start target rest =>
    rw [Stop.andThen, Stop.settle, Stop.settle, ← List.append_assoc, hfollow]
  | fail e => rfl

/-- Resolving a path is resolving its beginning, then the rest. -/
theorem resolve_append (links : Nat) (cur : Path Name)
    (xs ys : List (Comp Name)) :
    resolve tree links cur (xs ++ ys)
      = (resolve tree links cur xs).andThen tree ys := by
  induction links generalizing cur xs ys with
  | zero =>
    rw [resolve, resolve, descend_append]
    exact settle_andThen tree (fun _ _ => rfl) (fun _ _ _ => rfl) _ ys
  | succ links ih =>
    rw [resolve, resolve, descend_append]
    exact settle_andThen tree (fun _ _ => rfl) ih _ ys

/-- A path resolves as its first stretch settles. -/
theorem resolve_eq_settle (links : Nat) :
    ∃ follow, ∀ p ys,
      resolve tree links p ys = (descend tree p ys).settle follow links := by
  cases links with
  | zero => exact ⟨_, fun _ _ => rfl⟩
  | succ links => exact ⟨_, fun _ _ => rfl⟩

/-- What is missing behind a beginning is missing from where the beginning
leads, which is a directory. -/
theorem resolve_append_missing {links : Nat} {cur d : Path Name}
    {xs ys : List (Comp Name)} {m : Name}
    (hys : ys ≠ []) (h : resolve tree links cur (xs ++ ys) = .missing d m) :
    ∃ p left follow, resolve tree links cur xs = .dir p left
      ∧ (descend tree p ys).settle follow left = .missing d m := by
  rw [resolve_append] at h
  cases hxs : resolve tree links cur xs with
  | dir p left =>
    obtain ⟨follow, hfollow⟩ := resolve_eq_settle tree left
    rw [hxs, Found.andThen, hfollow] at h
    exact ⟨p, left, follow, rfl, h⟩
  | file p =>
    rw [hxs, Found.andThen, if_neg hys] at h
    cases h
  | missing d' n' =>
    rw [hxs, Found.andThen, if_neg hys] at h
    cases h
  | fail e =>
    rw [hxs] at h
    cases h

/-- Only a path that ends in a name leads to a missing file. -/
theorem resolve_missing_last {links : Nat} {cur d : Path Name}
    {comps : List (Comp Name)} {m : Name}
    (h : resolve tree links cur comps = .missing d m) :
    ∃ xs n, comps = xs ++ [.name n] := by
  rcases List.eq_nil_or_concat comps with rfl | ⟨xs, c, rfl⟩
  · obtain ⟨follow, hfollow⟩ := resolve_eq_settle tree links
    rw [hfollow] at h
    cases h
  · rw [List.concat_eq_append] at h ⊢
    cases c with
    | name n => exact ⟨xs, n, rfl⟩
    | here =>
      obtain ⟨p, left, follow, -, hlast⟩ :=
        resolve_append_missing tree (List.cons_ne_nil _ _) h
      cases hlast
    | up =>
      obtain ⟨p, left, follow, -, hlast⟩ :=
        resolve_append_missing tree (List.cons_ne_nil _ _) h
      cases hlast

/-- Where a path leads to a missing file, all but its last name leads to a
directory; the file is missing from that directory, or the last name is a
link there. -/
theorem resolve_missing {links : Nat} {cur d : Path Name}
    {xs : List (Comp Name)} {n m : Name}
    (h : resolve tree links cur (xs ++ [.name n]) = .missing d m) :
    ∃ p left, resolve tree links cur xs = .dir p left
      ∧ ((d = p ∧ m = n) ∨ ∃ absolute target,
        tree (p ++ [n]) = some (.link absolute target)) := by
  obtain ⟨p, left, follow, hdir, hlast⟩ :=
    resolve_append_missing tree (List.cons_ne_nil _ _) h
  refine ⟨p, left, hdir, ?_⟩
  rw [descend] at hlast
  cases hnode : tree (p ++ [n]) with
  | none =>
    rw [hnode] at hlast
    cases hlast
    exact .inl ⟨rfl, rfl⟩
  | some node =>
    rw [hnode] at hlast
    cases node with
    | dir => cases hlast
    | file => cases hlast
    | link absolute target => exact .inr ⟨absolute, target, rfl⟩

end Remu.Resolve
