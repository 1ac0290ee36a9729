/-
Caches: values validated by write stamps, and direct-mapped lookaside
tables.

Every place a cached value was computed from lies on a page, and a clock
counts the stores. A store stamps its page with the new time, a fill is
dated with the present one, and a cached value is live as long as it is
not older than the stamp of its page, nor than the last invalidation of
everything. Nothing is ever searched or dropped, and values of different
pages may share a stamp. The law is `Coherent`: what is live is good. It
needs one fact about the memory behind the cache, that a store spoils only
values of the pages it stamps. Nothing here knows what the values are
computed from.

A lookaside table has slots that each hold one tagged entry, and a key is
answered by the entry of its slot when the tag is the key. The one law is
`Holds`: every answer satisfies what the owner of the table says an entry
for that key has to satisfy. Filling a slot needs the fact for the new entry
only, evicting one needs nothing, and when the truth moves only the facts
behind the present answers have to move along.
-/
import Mathlib.Logic.Function.Basic
import Remu.Lib.Word

namespace Remu

/-- A direct-mapped cache with entries `I`, stamp slots `P` and values
`V`. -/
structure Stamped (P I V : Type) where
  entry : I → V
  version : I → Nat
  stamp : P → Nat
  clock : Nat
  inval : Nat

namespace Stamped

variable {P I V M : Type}

-- ======== operations

/-- A store on page `p`. -/
def touch [DecidableEq P] (c : Stamped P I V) (p : P) : Stamped P I V :=
  { c with clock := c.clock + 1, stamp := Function.update c.stamp p (c.clock + 1) }

/-- Stores on several pages. -/
def touchAll [DecidableEq P] (c : Stamped P I V) (ps : List P) :
    Stamped P I V := ps.foldl touch c

/-- Kill every current entry. -/
def invalidate (c : Stamped P I V) : Stamped P I V :=
  { c with clock := c.clock + 1, inval := c.clock + 1 }

/-- Put `v` into slot `i`. -/
def fill [DecidableEq I] (c : Stamped P I V) (i : I) (v : V) : Stamped P I V :=
  { c with entry := Function.update c.entry i v, version := Function.update c.version i c.clock }

-- ======== the law

variable (page : V → P) (Good : M → V → Prop)

/-- No date lies in the future. -/
structure Dated (c : Stamped P I V) : Prop where
  stamp : ∀ p, c.stamp p ≤ c.clock
  inval : c.inval ≤ c.clock
  version : ∀ i, c.version i ≤ c.clock

/-- Slot `i` is neither older than its page nor than the last
invalidation. -/
def Live (c : Stamped P I V) (i : I) : Prop :=
  c.stamp (page (c.entry i)) ≤ c.version i ∧ c.inval ≤ c.version i

/-- What is live is good in the present memory. -/
structure Coherent (c : Stamped P I V) (m : M) : Prop extends Dated c where
  live : ∀ i, c.Live page i → Good m (c.entry i)

variable {page Good} {c : Stamped P I V} {m m' : M}

section Store

variable [DecidableEq P]

theorem Dated.touch (h : c.Dated) (p : P) : (c.touch p).Dated where
  stamp q := by
    by_cases hq : q = p
    · rw [hq]
      exact Nat.le_of_eq (Function.update_self ..)
    · have hs : (c.touch p).stamp q = c.stamp q := Function.update_of_ne hq ..
      exact hs ▸ Nat.le_succ_of_le (h.stamp q)
  inval := Nat.le_succ_of_le h.inval
  version i := Nat.le_succ_of_le (h.version i)

/-- Behind a store, what is live was live and is on another page. -/
theorem Live.of_touch (h : c.Dated) {p : P} {i : I}
    (hl : (c.touch p).Live page i) :
    c.Live page i ∧ page (c.entry i) ≠ p := by
  obtain ⟨hstamp, hinval⟩ := hl
  have hne : page (c.entry i) ≠ p := by
    rintro rfl
    have hs : (c.touch (page (c.entry i))).stamp (page (c.entry i))
      = c.clock + 1 :=
      Function.update_self ..
    have hv : c.clock + 1 ≤ c.version i := hs ▸ hstamp
    exact absurd (h.version i) (by omega)
  have hs : (c.touch p).stamp (page (c.entry i))
    = c.stamp (page (c.entry i)) :=
    Function.update_of_ne hne ..
  exact ⟨⟨hs ▸ hstamp, hinval⟩, hne⟩

theorem entry_touchAll (c : Stamped P I V) (ps : List P) :
    (c.touchAll ps).entry = c.entry := by
  induction ps generalizing c with
  | nil => rfl
  | cons p ps ih => exact ih (c.touch p)

theorem Dated.touchAll (h : c.Dated) (ps : List P) :
    (c.touchAll ps).Dated := by
  induction ps generalizing c with
  | nil => exact h
  | cons p ps ih => exact ih (h.touch p)

theorem Live.of_touchAll (h : c.Dated) {ps : List P} {i : I}
    (hl : (c.touchAll ps).Live page i) :
    c.Live page i ∧ page (c.entry i) ∉ ps := by
  induction ps generalizing c with
  | nil => exact ⟨hl, List.not_mem_nil⟩
  | cons p ps ih =>
    obtain ⟨hl', hps⟩ := ih (h.touch p) hl
    obtain ⟨hl'', hp⟩ := Live.of_touch h hl'
    exact ⟨hl'', List.not_mem_cons_of_ne_of_not_mem hp hps⟩

/-- A store that spoils no live value of a page it leaves unstamped. -/
theorem Coherent.store_live (h : c.Coherent page Good m) {ps : List P}
    (hframe : ∀ i, c.Live page i → page (c.entry i) ∉ ps → Good m (c.entry i) →
      Good m' (c.entry i)) :
    (c.touchAll ps).Coherent page Good m' where
  toDated := h.toDated.touchAll ps
  live i hl := by
    obtain ⟨hl', hps⟩ := Live.of_touchAll h.toDated hl
    rw [entry_touchAll]
    exact hframe i hl' hps (h.live i hl')

/-- A store that spoils values of the stamped pages only. -/
theorem Coherent.store (h : c.Coherent page Good m) {ps : List P}
    (hframe : ∀ v, page v ∉ ps → Good m v → Good m' v) :
    (c.touchAll ps).Coherent page Good m' :=
  h.store_live fun _ _ hps hgood => hframe _ hps hgood

end Store

/-- Any change of memory, when everything is invalidated. -/
theorem Coherent.invalidate (h : c.Dated) :
    c.invalidate.Coherent page Good m where
  stamp p := Nat.le_succ_of_le (h.stamp p)
  inval := Nat.le_refl _
  version i := Nat.le_succ_of_le (h.version i)
  live i hl :=
    absurd (Nat.le_trans hl.2 (h.version i)) (Nat.not_succ_le_self _)

/-- Filling in a good value. -/
theorem Coherent.fill [DecidableEq I] (h : c.Coherent page Good m) (i : I)
    {v : V} (hv : Good m v) :
    (c.fill i v).Coherent page Good m where
  stamp := h.stamp
  inval := h.inval
  version j := by
    by_cases hj : j = i
    · rw [hj]
      exact Nat.le_of_eq (Function.update_self ..)
    · have hver : (c.fill i v).version j = c.version j :=
        Function.update_of_ne hj ..
      exact hver ▸ h.version j
  live j hl := by
    by_cases hj : j = i
    · have he : (c.fill i v).entry i = v := Function.update_self ..
      rw [hj, he]
      exact hv
    · have he : (c.fill i v).entry j = c.entry j := Function.update_of_ne hj ..
      have hver : (c.fill i v).version j = c.version j :=
        Function.update_of_ne hj ..
      obtain ⟨hstamp, hinval⟩ := hl
      rw [he] at hstamp ⊢
      exact h.live j ⟨hver ▸ hstamp, hver ▸ hinval⟩

end Stamped

-- ======== 64-bit clocks

/-- The same cache with 64-bit dates: residues of the true ones, which are
the dates themselves until the clock wraps. -/
structure Ticking (P I V : Type) where
  entry : I → V
  version : I → U64
  stamp : P → U64
  clock : Nat
  inval : U64

namespace Ticking

variable {P I V : Type}

/-- The dates as numbers. -/
def dated (c : Ticking P I V) : Stamped P I V where
  entry := c.entry
  version i := (c.version i).toNat
  stamp p := (c.stamp p).toNat
  clock := c.clock
  inval := c.inval.toNat

theorem toNat_now {n : Nat} (h : n < 2 ^ 64) : (BitVec.ofNat 64 n).toNat = n :=
  BitVec.toNat_ofNat .. ▸ Nat.mod_eq_of_lt h

theorem toNat_update {κ : Type} [DecidableEq κ] (f : κ → U64) (k : κ) {n : Nat}
    (h : n < 2 ^ 64) :
    (fun j => (Function.update f k (BitVec.ofNat 64 n) j).toNat)
      = Function.update (fun j => (f j).toNat) k n := by
  have hnow := toNat_now h
  have hcomp := Function.comp_update BitVec.toNat f k (BitVec.ofNat 64 n)
  rw [hnow] at hcomp
  exact hcomp

theorem dated_touch [DecidableEq P] (c : Ticking P I V) (p : P)
    (h : c.clock + 1 < 2 ^ 64) :
    dated { c with
      clock := c.clock + 1
      stamp := Function.update c.stamp p (BitVec.ofNat 64 (c.clock + 1)) }
        = c.dated.touch p := by
  unfold dated Stamped.touch
  rw [toNat_update c.stamp p h]

theorem dated_invalidate (c : Ticking P I V) (h : c.clock + 1 < 2 ^ 64) :
    dated { c with clock := c.clock + 1, inval := BitVec.ofNat 64 (c.clock + 1) }
      = c.dated.invalidate := by
  unfold dated Stamped.invalidate
  rw [toNat_now h]

theorem dated_fill [DecidableEq I] (c : Ticking P I V) (i : I) (v : V)
    (h : c.clock < 2 ^ 64) :
    dated { c with
      entry := Function.update c.entry i v
      version := Function.update c.version i (BitVec.ofNat 64 c.clock) }
        = c.dated.fill i v := by
  unfold dated Stamped.fill
  rw [toNat_update c.version i h]

end Ticking

end Remu

-- ======== lookaside tables

namespace Remu.Lookaside

variable {K S E : Type} [DecidableEq K] [DecidableEq S]
variable {slot : K → S} {tag : E → K}

/-- The entry that answers for `k`. -/
def look (slot : K → S) (tag : E → K) (t : S → E) (k : K) : Option E :=
  if tag (t (slot k)) = k then some (t (slot k)) else none

omit [DecidableEq S] in
theorem look_eq_some {t : S → E} {k : K} {e : E} :
    look slot tag t k = some e ↔ tag (t (slot k)) = k ∧ t (slot k) = e := by
  unfold look
  split
  case isTrue h =>
    constructor
    · intro he
      cases he
      exact ⟨h, rfl⟩
    · rintro ⟨-, rfl⟩
      rfl
  case isFalse h =>
    constructor
    · intro he
      cases he
    · rintro ⟨hk, -⟩
      exact absurd hk h

/-- Every answer of the table satisfies `T`. -/
def Holds (slot : K → S) (tag : E → K) (t : S → E) (T : K → E → Prop) : Prop :=
  ∀ k e, look slot tag t k = some e → T k e

namespace Holds

variable {t : S → E} {T T' : K → E → Prop}

omit [DecidableEq S] in
/-- An answer is an entry under its own tag. -/
theorem of_entries (h : ∀ i, T (tag (t i)) (t i)) : Holds slot tag t T := by
  intro k e he
  obtain ⟨hk, rfl⟩ := look_eq_some.1 he
  rw [← hk]
  simpa only [hk] using h (slot k)

omit [DecidableEq S] in
/-- The truth may move as long as it stays true of the answers. -/
theorem mono (h : Holds slot tag t T) (hT : ∀ k e, T k e → T' k e) :
    Holds slot tag t T' := fun k e he => hT k e (h k e he)

/-- A new entry only has to be true itself: what it evicts is gone. -/
theorem replace (h : Holds slot tag t T) {i : S} {e : E} (he : T (tag e) e) :
    Holds slot tag (upd t i e) T := by
  intro k e' hk
  obtain ⟨htag, hval⟩ := look_eq_some.1 hk
  by_cases hi : slot k = i
  · rw [hi, upd_same] at htag hval
    rw [← hval, ← htag]
    exact he
  · rw [upd_other _ _ hi] at htag hval
    exact h k e' (look_eq_some.2 ⟨htag, hval⟩)

end Holds

end Remu.Lookaside
