/-
What opening a guest path may touch on the host.

The check canonicalizes the candidate, or its parent when the candidate
leads nowhere, and an open follows links again. For an object that exists
the two agree, so nothing outside the canonical root is listed, read,
written or truncated. For a missing one the parent is checked, which is
not where the file goes when the last component is a link: an open that
may create then creates the link's target, wherever that is.
-/
import Remu.Os.Vfs

namespace Remu.Os

open Resolve

-- ======== the defect

/-- In a directory under `root` the last component of `cand` is a link, and
what it leads to is missing from a directory that is not under `root`. -/
def EscapingLink (h : Host) (root : Path Str) (cand : HostPath) : Prop :=
  ∃ (parent : HostPath) (p : Path Str) (left : Nat) (n : Str) (absolute : Bool)
    (target : List (Comp Str)) (d : Path Str) (m : Str),
    cand = parent.join [.name n] ∧ h.resolve parent = .dir p left ∧ root <+: p
      ∧ h.tree (p ++ [n]) = some (.link absolute target)
      ∧ h.resolve cand = .missing d m ∧ ¬ root <+: d ++ [m]

/-- An open with these flags creates a file that is missing. -/
def creates (flags : U32) : Bool :=
  (Vfs.options flags).valid && (Vfs.options flags).create

/-- Only a candidate that leads to a missing file is such a link. -/
theorem EscapingLink.missing {h : Host} {root : Path Str} {cand : HostPath}
    (hlink : EscapingLink h root cand) :
    ∃ d m, h.resolve cand = .missing d m := by
  obtain ⟨-, -, -, -, -, -, d, m, -, -, -, -, hmissing, -⟩ := hlink
  exact ⟨d, m, hmissing⟩

-- ======== the check and the open

variable {h : Host}

theorem canonicalize_dir {p : HostPath} {q : Path Str} {left : Nat}
    (hp : h.resolve p = .dir q left) :
    h.canonicalize p = some q := by
  rw [Host.canonicalize, hp]

theorem canonicalize_file {p : HostPath} {q : Path Str}
    (hp : h.resolve p = .file q) :
    h.canonicalize p = some q := by
  rw [Host.canonicalize, hp]

theorem canonicalize_missing {p : HostPath} {d : Path Str} {m : Str}
    (hp : h.resolve p = .missing d m) :
    h.canonicalize p = none := by
  rw [Host.canonicalize, hp]

/-- A candidate that leads to a missing file: its parent is a directory,
and the file is missing from it or behind a link in it. -/
theorem resolve_candidate {cand : HostPath} {d : Path Str} {m : Str}
    (hmissing : h.resolve cand = .missing d m) :
    ∃ parent p left n, cand = parent.join [.name n] ∧ cand.parent = some parent
      ∧ h.resolve parent = .dir p left
      ∧ ((d = p ∧ m = n) ∨ ∃ absolute target,
        h.tree (p ++ [n]) = some (.link absolute target)) := by
  obtain ⟨absolute, comps⟩ := cand
  obtain ⟨xs, n, rfl⟩ := resolve_missing_last _ hmissing
  obtain ⟨p, left, hdir, hlast⟩ := resolve_missing _ hmissing
  refine ⟨⟨absolute, xs⟩, p, left, n, rfl, ?_, hdir, hlast⟩
  rw [HostPath.parent, if_neg (by simp)]
  dsimp only
  rw [List.dropLast_concat]

variable {v : Vfs} {r : HostPath} {root : Path Str} {guest : Str}

/-- What is let through is the candidate. -/
theorem hostPath_eq (hroot : v.rootfs = some r) {host : HostPath}
    (hhost : v.hostPath h guest = some host) :
    host = Vfs.candidate r guest := by
  rw [Vfs.hostPath, hroot] at hhost
  dsimp only [Option.bind_some] at hhost
  split at hhost
  · exact (Option.some.inj hhost).symm
  split at hhost
  · exact (Option.some.inj hhost).symm
  split at hhost
  · exact (Option.some.inj hhost).symm
  · cases hhost

/-- A candidate that exists is let through exactly when it is under the
root. -/
theorem hostPath_of_canonicalize (hroot : v.rootfs = some r)
    (hcanon : v.canonRoot = some root)
    {q : Path Str} (hq : h.canonicalize (Vfs.candidate r guest) = some q) :
    v.hostPath h guest = if root <+: q
      then some (Vfs.candidate r guest) else none := by
  rw [Vfs.hostPath, hroot, hcanon]
  dsimp only [Option.bind_some]
  rw [hq]
  rfl

/-- A candidate that is missing is let through exactly when its parent is
under the root. -/
theorem hostPath_of_missing (hroot : v.rootfs = some r)
    (hcanon : v.canonRoot = some root)
    {d p : Path Str} {m : Str} {parent : HostPath} {left : Nat}
    (hmissing : h.resolve (Vfs.candidate r guest) = .missing d m)
    (hparent : (Vfs.candidate r guest).parent = some parent)
    (hdir : h.resolve parent = .dir p left) :
    v.hostPath h guest = if root <+: p
      then some (Vfs.candidate r guest) else none := by
  rw [Vfs.hostPath, hroot, hcanon]
  dsimp only [Option.bind_some]
  rw [canonicalize_missing hmissing, hparent, Option.none_or, Option.bind_some,
    canonicalize_dir hdir]

-- ======== what is touched

variable {flags : U32} {host : HostPath}

/-- An open of what exists touches that and nothing else. -/
theorem accesses_of_canonicalize {q : Path Str}
    (hq : h.canonicalize host = some q) :
    ∀ a ∈ (Vfs.openHost h v guest host flags).accesses, a.path = q := by
  intro a ha
  rw [Host.canonicalize] at hq
  rw [Vfs.openHost] at ha
  cases hres : h.resolve host with
  | dir p left =>
    rw [hres] at hq ha
    obtain rfl := Option.some.inj hq
    obtain rfl := List.mem_singleton.1 ha
    rfl
  | file p =>
    rw [hres] at hq ha
    obtain rfl := Option.some.inj hq
    dsimp only [Host.openWith] at ha
    rw [hres] at ha
    cases hvalid : (Vfs.options flags).valid with
    | false =>
      rw [hvalid] at ha
      exact absurd ha List.not_mem_nil
    | true =>
      rw [hvalid] at ha
      obtain rfl := List.mem_singleton.1 ha
      rfl
  | missing d m =>
    rw [hres] at hq
    cases hq
  | fail e =>
    rw [hres] at hq
    cases hq

/-- An open of what is missing creates it, or touches nothing. -/
theorem accesses_of_missing {d : Path Str} {m : Str}
    (hmissing : h.resolve host = .missing d m) :
    (Vfs.openHost h v guest host flags).accesses
      = if creates flags then [.create (d ++ [m])] else [] := by
  rw [Vfs.openHost, hmissing]
  dsimp only [Host.openWith]
  rw [hmissing, creates]
  cases (Vfs.options flags).valid with
  | false => rfl
  | true =>
    cases (Vfs.options flags).create with
    | false => rfl
    | true => rfl

/-- A path that leads nowhere touches nothing. -/
theorem accesses_of_fail {e : Failure} (hfail : h.resolve host = .fail e) :
    (Vfs.openHost h v guest host flags).accesses = [] := by
  rw [Vfs.openHost, hfail]
  dsimp only [Host.openWith]
  rw [hfail]
  cases (Vfs.options flags).valid with
  | false => rfl
  | true => rfl

/-- The accesses of an open are those of the host open behind the overlay
and the check. -/
theorem accesses_openPath (path : Str) :
    (v.openPath h path flags).accesses
      = if (v.overlay (v.normalize path)).isSome then []
        else (v.hostPath h (v.normalize path)).elim [] fun host =>
          (Vfs.openHost h v (v.normalize path) host flags).accesses := by
  rw [Vfs.openPath]
  dsimp only
  cases v.overlay (v.normalize path) with
  | some file => rfl
  | none =>
    cases v.hostPath h (v.normalize path) with
    | none => rfl
    | some host => rfl

/-- A candidate that exists is opened under the root or not at all. -/
theorem confined_of_canonicalize (hroot : v.rootfs = some r)
    (hcanon : v.canonRoot = some root)
    {q : Path Str} (hq : h.canonicalize (Vfs.candidate r guest) = some q) :
    ∀ a ∈ (v.hostPath h guest).elim [] fun host =>
      (Vfs.openHost h v guest host flags).accesses, root <+: a.path := by
  intro a ha
  rw [hostPath_of_canonicalize hroot hcanon hq] at ha
  by_cases hin : root <+: q
  · rw [if_pos hin] at ha
    rw [accesses_of_canonicalize hq a ha]
    exact hin
  · rw [if_neg hin] at ha
    exact absurd ha List.not_mem_nil

/-- A candidate that is missing is created under the root unless it is a
link that leads out. -/
theorem confined_of_missing (hroot : v.rootfs = some r)
    (hcanon : v.canonRoot = some root)
    {d : Path Str} {m : Str}
    (hmissing : h.resolve (Vfs.candidate r guest) = .missing d m) :
    (∀ a ∈ (v.hostPath h guest).elim [] fun host =>
        (Vfs.openHost h v guest host flags).accesses, root <+: a.path)
      ↔ ¬ (creates flags = true
        ∧ EscapingLink h root (Vfs.candidate r guest)) := by
  obtain ⟨parent, p, left, n, hcand, hparent, hdir, hlast⟩ :=
    resolve_candidate hmissing
  rw [hostPath_of_missing hroot hcanon hmissing hparent hdir]
  by_cases hin : root <+: p
  case neg =>
    rw [if_neg hin]
    refine iff_of_true (fun a ha => absurd ha List.not_mem_nil) fun hbad => ?_
    obtain ⟨-, parent', p', left', n', _, _, _, _, hcand', hdir', hin', -⟩ := hbad
    -- The parent of a candidate is its own, so the two directories are one.
    have heq : parent'.join [.name n'] = parent.join [.name n] :=
      hcand'.symm.trans hcand
    obtain rfl : parent' = parent := by
      obtain ⟨absolute, comps⟩ := parent
      obtain ⟨absolute', comps'⟩ := parent'
      obtain ⟨habs, hcomps⟩ := HostPath.mk.inj heq
      rw [HostPath.mk.injEq]
      exact ⟨habs, List.append_inj_left' hcomps rfl⟩
    rw [hdir] at hdir'
    cases hdir'
    exact hin hin'
  case pos =>
    rw [if_pos hin, Option.elim_some, accesses_of_missing hmissing]
    cases hcreates : creates flags with
    | false =>
      refine iff_of_true (fun a ha => absurd ha List.not_mem_nil)
        fun hbad => ?_
      cases hbad.1
    | true =>
      rw [if_pos rfl]
      constructor
      · rintro hall ⟨-, _, _, _, _, _, _, d', m', -, -, -, -, hmissing', hout⟩
        rw [hmissing] at hmissing'
        cases hmissing'
        exact hout (hall _ List.mem_cons_self)
      · intro hbad a ha
        obtain rfl := List.mem_singleton.1 ha
        by_contra hout
        refine hbad ⟨rfl, parent, p, left, n, ?_⟩
        rcases hlast with ⟨rfl, rfl⟩ | ⟨absolute, target, hlink⟩
        · exact absurd (hin.trans (List.prefix_append _ _)) hout
        · exact ⟨absolute, target, d, m, hcand, hdir, hin, hlink,
            hmissing, hout⟩

/-- For every host tree, guest path and flag word: everything an open
touches is under the canonical root, unless it creates a file through a
link that leads out. -/
theorem open_confined_iff (hroot : v.rootfs = some r)
    (hcanon : v.canonRoot = some root) (path : Str) (flags : U32) :
    (∀ a ∈ (v.openPath h path flags).accesses, root <+: a.path)
      ↔ ¬ (v.overlay (v.normalize path) = none ∧ creates flags = true
          ∧ EscapingLink h root (Vfs.candidate r (v.normalize path))) := by
  rw [accesses_openPath]
  cases hover : v.overlay (v.normalize path) with
  | some file =>
    refine iff_of_true (fun a ha => absurd ha List.not_mem_nil) fun hbad => ?_
    cases hbad.1
  | none =>
    dsimp only [Option.isSome_none]
    rw [if_neg (by decide), and_iff_right rfl]
    cases hres : h.resolve (Vfs.candidate r (v.normalize path)) with
    | dir q left =>
      refine iff_of_true
        (confined_of_canonicalize hroot hcanon (canonicalize_dir hres))
        fun hbad => ?_
      obtain ⟨d, m, hmissing⟩ := hbad.2.missing
      rw [hres] at hmissing
      cases hmissing
    | file q =>
      refine iff_of_true
        (confined_of_canonicalize hroot hcanon (canonicalize_file hres))
        fun hbad => ?_
      obtain ⟨d, m, hmissing⟩ := hbad.2.missing
      rw [hres] at hmissing
      cases hmissing
    | missing d m => exact confined_of_missing hroot hcanon hres
    | fail e =>
      refine iff_of_true (fun a ha => ?_) fun hbad => ?_
      · cases hhost : v.hostPath h (v.normalize path) with
        | none =>
          rw [hhost] at ha
          exact absurd ha List.not_mem_nil
        | some host =>
          obtain rfl := hostPath_eq hroot hhost
          rw [hhost, Option.elim_some, accesses_of_fail hres] at ha
          exact absurd ha List.not_mem_nil
      · obtain ⟨d, m, hmissing⟩ := hbad.2.missing
        rw [hres] at hmissing
        cases hmissing

/-- A host with a rootfs at `/r` that holds a link to `/x`, which does not
exist. -/
def linkedHost : Host where
  nodes := [(["r".toList], .dir),
    (["r".toList, "l".toList], .link true [.name "x".toList])]
  cwd := []
  links := 40

/-- The rootfs. -/
def jail : HostPath := ⟨true, [.name "r".toList]⟩

/-- The rootfs holds a file too, and a link to it in a directory. -/
def sharedHost : Host where
  nodes := linkedHost.nodes ++
    [(["r".toList, "f".toList], .file), (["r".toList, "d".toList], .dir),
      (["r".toList, "d".toList, "k".toList],
        .link false [.up, .name "f".toList])]
  cwd := []
  links := 40

/-- Creating through the link to the file opens it, and a new file is made
in the directory: both under the root. -/
theorem open_confined_iff_sharedHost :
    let opened := fun path =>
      ((Vfs.new sharedHost (some jail)).openPath sharedHost path
        (O_WRONLY ||| O_CREAT)).accesses
    ((opened "/d/k".toList).map Access.path = [["r".toList, "f".toList]]
      ∧ ∀ a ∈ opened "/d/k".toList, ["r".toList] <+: a.path)
    ∧ (opened "/d/../d/n".toList).map Access.path
      = [["r".toList, "d".toList, "n".toList]]
      ∧ ∀ a ∈ opened "/d/../d/n".toList, ["r".toList] <+: a.path := by
  refine ⟨⟨by decide, (open_confined_iff (r := jail) rfl rfl _ _).2 ?_⟩, by decide,
    (open_confined_iff (r := jail) rfl rfl _ _).2 ?_⟩
  · rintro ⟨-, -, hescapes⟩
    obtain ⟨d, m, hmissing⟩ := hescapes.missing
    rw [show sharedHost.resolve (Vfs.candidate jail
      ((Vfs.new sharedHost (some jail)).normalize "/d/k".toList))
        = .file ["r".toList, "f".toList] by
        decide] at hmissing
    cases hmissing
  · rintro ⟨-, -, -, -, -, -, -, -, d, m, -, -, -, -, hmissing, hout⟩
    rw [show sharedHost.resolve (Vfs.candidate jail
      ((Vfs.new sharedHost (some jail)).normalize "/d/../d/n".toList))
        = .missing ["r".toList, "d".toList] "n".toList by decide] at hmissing
    cases hmissing
    exact hout (by decide)

/-- Creating through it makes `/x`. -/
theorem createLink_escapes :
    linkedHost.canonicalize jail = some ["r".toList]
      ∧ ((Vfs.new linkedHost (some jail)).openPath linkedHost "/l".toList
          (O_WRONLY ||| O_CREAT)).accesses = [.create ["x".toList]]
      ∧ ¬ (["r".toList] : Path Str) <+: ["x".toList] := by decide

end Remu.Os
