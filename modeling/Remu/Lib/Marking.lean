/-
Marking the entries along a path.

A walk reads the entries of a path and then writes some of them back with
marks added: one mark on every entry, and a second one on the last when
the walk is for a write. The entries live in memory where addresses may
share a cell, so one write-back may be seen at several entries.

Whatever the sharing, the marks only grow and nothing else moves
(`marked_markPath`), every entry of the path ends marked
(`markPath_accessed`, `markPath_dirty`), entries elsewhere keep their
value (`markPath_other`), and a path that is marked already is left alone
(`markPath_of_marked`). In full, the entries of the path end with the
accessed mark and those that are the last one with the dirty mark besides
(`get_markPath`).
-/
import Remu.Lib.Word

namespace Remu

open Word

-- ======== marks

/-- The two marks. Each is absorbed by a value that shows it, as single
bits are. -/
structure Marks (k : Nat) where
  accessed : BitVec k
  dirty : BitVec k
  accessed_ne : accessed ≠ 0
  dirty_ne : dirty ≠ 0
  accessed_absorb : ∀ v, v &&& accessed ≠ 0 → v ||| accessed = v
  dirty_absorb : ∀ v, v &&& dirty ≠ 0 → v ||| dirty = v

/-- A bit that is set absorbs its setting. -/
theorem or_eq_self_of_bit {w : Nat} {v : BitVec w} {k : Nat}
    (h : v &&& BitVec.twoPow w k ≠ 0) :
    v ||| BitVec.twoPow w k = v := by
  have hbit : v.getLsbD k = true := by
    rw [BitVec.and_twoPow] at h
    by_contra hf
    rw [if_neg (by simpa using hf)] at h
    exact h rfl
  refine BitVec.eq_of_getLsbD_eq fun i hi => ?_
  rw [BitVec.getLsbD_or, BitVec.getLsbD_twoPow]
  by_cases hik : k = i
  · subst hik
    simp [hbit]
  · simp [hik]

theorem or_and_self_ne_zero {w : Nat} (v : BitVec w)
    {t : BitVec w} (ht : t ≠ 0) :
    (v ||| t) &&& t ≠ 0 := by
  have heq : (v ||| t) &&& t = t := by
    refine BitVec.eq_of_getLsbD_eq fun i _ => ?_
    rw [BitVec.getLsbD_and, BitVec.getLsbD_or]
    exact Bool.and_eq_right_iff_imp.2 fun h => by rw [h, Bool.or_true]
  rw [heq]
  exact ht

namespace Marks

variable {k : Nat} (M : Marks k)

def both : BitVec k := M.accessed ||| M.dirty

/-- An entry after its accessed update, and its dirty update if `d`. -/
def mark (v : BitVec k) (d : Bool) : BitVec k :=
  v ||| M.accessed ||| (if d then M.dirty else 0)

theorem mark_false (v : BitVec k) : M.mark v false = v ||| M.accessed :=
  BitVec.or_zero

theorem mark_true (v : BitVec k) : M.mark v true = v ||| M.both := by
  rw [mark, if_pos rfl, both, BitVec.or_assoc]

theorem mark_eq (v : BitVec k) (d : Bool) :
    ∃ t, M.mark v d = v ||| (t &&& M.both) := by
  cases d with
  | true => exact ⟨M.both, by rw [BitVec.and_self, mark_true]⟩
  | false =>
    refine ⟨M.accessed, ?_⟩
    have hin : M.accessed &&& M.both = M.accessed := by
      refine BitVec.eq_of_getLsbD_eq fun i _ => ?_
      rw [both, BitVec.getLsbD_and, BitVec.getLsbD_or]
      exact Bool.and_eq_left_iff_imp.2 fun h => by rw [h, Bool.true_or]
    rw [mark_false, hin]

theorem mark_grows (v : BitVec k) (d : Bool) : Grows M.both v (M.mark v d) :=
  M.mark_eq v d

/-- A bit of an entry stays, or it is one of the marks and is set. -/
theorem getLsbD_mark (v : BitVec k) (d : Bool) (i : Nat) :
    (M.mark v d).getLsbD i = v.getLsbD i
      ∨ M.both.getLsbD i = true ∧ (M.mark v d).getLsbD i = true := by
  obtain ⟨t, ht⟩ := M.mark_eq v d
  rw [ht, BitVec.getLsbD_or, BitVec.getLsbD_and]
  cases M.both.getLsbD i with
  | false => exact .inl (by rw [Bool.and_false, Bool.or_false])
  | true =>
    cases t.getLsbD i with
    | false => exact .inl (Bool.or_false _)
    | true => exact .inr ⟨rfl, Bool.or_true _⟩

theorem mark_accessed (v : BitVec k) (d : Bool) :
    M.mark v d &&& M.accessed ≠ 0 := by
  have hA := or_and_self_ne_zero v M.accessed_ne
  intro hz
  rw [mark, BitVec.and_or_distrib_right] at hz
  exact hA (BitVec.or_eq_zero_iff.1 hz).1

theorem mark_dirty (v : BitVec k) : M.mark v true &&& M.dirty ≠ 0 :=
  or_and_self_ne_zero _ M.dirty_ne

theorem mark_of_marked {v : BitVec k} {d : Bool} (hA : v &&& M.accessed ≠ 0)
    (hD : d = true → v &&& M.dirty ≠ 0) : M.mark v d = v := by
  rw [mark, M.accessed_absorb v hA]
  cases d with
  | true => exact M.dirty_absorb v (hD rfl)
  | false => exact BitVec.or_zero

theorem marked_of_mark {v : BitVec k} {d : Bool} (h : M.mark v d = v) :
    v &&& M.accessed ≠ 0 ∧ (d = true → v &&& M.dirty ≠ 0) := by
  refine ⟨?_, ?_⟩
  · rw [← h]
    exact M.mark_accessed v d
  · rintro rfl
    rw [← h]
    exact M.mark_dirty v

/-- The entry lacks a mark that this access sets. -/
def stale (v : BitVec k) (d : Bool) : Bool :=
  v &&& M.accessed == 0 || (d && v &&& M.dirty == 0)

theorem stale_iff (v : BitVec k) (d : Bool) :
    M.stale v d = true ↔ M.mark v d ≠ v := by
  constructor
  · intro h hsame
    obtain ⟨hA, hD⟩ := M.marked_of_mark hsame
    rcases Bool.or_eq_true_iff.1 h with h | h
    · exact hA (beq_iff_eq.1 h)
    · obtain ⟨hd, h⟩ := Bool.and_eq_true_iff.1 h
      exact hD hd (beq_iff_eq.1 h)
  · intro h
    by_contra hf
    rw [stale, Bool.or_eq_true, Bool.and_eq_true, beq_iff_eq, beq_iff_eq,
      not_or, not_and] at hf
    exact h (M.mark_of_marked hf.1 hf.2)

end Marks

-- ======== entries

/-- Words of `k` bits in a memory, at addresses that may share a cell. A
word read back after a store is the stored one where the cells agree and
the old one elsewhere. -/
structure EntryMemory (β A : Type) (k : Nat) where
  get : β → A → BitVec k
  put : β → A → BitVec k → β
  Aligned : A → Prop
  Fits : BitVec k → Prop
  Same : A → A → Prop
  same_refl : ∀ a, Same a a
  get_same : ∀ b {x y}, Same x y → get b x = get b y
  fits_get : ∀ b a, Fits (get b a)
  get_put_same : ∀ b {x y v}, Aligned x → Aligned y → Fits v → Same y x →
    get (put b x v) y = v
  get_put_other : ∀ b {x y v}, Aligned x → Aligned y → Fits v → ¬ Same y x →
    get (put b x v) y = get b y

namespace EntryMemory

variable {β A : Type} {k : Nat} (E : EntryMemory β A k) (M : Marks k)

/-- Accessed on every entry of the path, dirty on the last for writes. The
entries were all read, as `rd`, before the first is written. -/
def markPath (write : Bool) (rd : A → BitVec k) : List A → β → β
  | [], b => b
  | a :: rest, b =>
    let v := M.mark (rd a) (rest.isEmpty && write)
    markPath write rd rest (if v ≠ rd a then E.put b a v else b)

/-- Every entry of `b` is its value in `b₀` with some marks added. -/
def Marked (b₀ b : β) : Prop :=
  ∀ y, E.Aligned y → Grows M.both (E.get b₀ y) (E.get b y)

variable {E M}

theorem Marked.refl (b : β) : E.Marked M b b := fun _ _ => .refl _ _

section

variable {b₀ : β} {write : Bool} {path : List A}
variable (hfits : ∀ v d, E.Fits v → E.Fits (M.mark v d))
include hfits

theorem Marked.put {b : β} (h : E.Marked M b₀ b) {a : A}
    (ha : E.Aligned a) (d : Bool) :
    E.Marked M b₀ (E.put b a (M.mark (E.get b₀ a) d)) := by
  intro y hy
  have hfit := hfits _ d (E.fits_get b₀ a)
  by_cases hcell : E.Same y a
  · rw [E.get_put_same b ha hy hfit hcell, E.get_same b₀ hcell]
    exact M.mark_grows _ _
  · rw [E.get_put_other b ha hy hfit hcell]
    exact h y hy

theorem marked_markPath (ha : ∀ a ∈ path, E.Aligned a) {b : β}
    (h : E.Marked M b₀ b) :
    E.Marked M b₀ (E.markPath M write (E.get b₀) path b) := by
  induction path generalizing b with
  | nil => exact h
  | cons a rest ih =>
    refine ih (fun x hx => ha x (List.mem_cons_of_mem _ hx)) ?_
    split
    · exact h.put hfits (ha a List.mem_cons_self) _
    · exact h

/-- Entries off the path are not written. -/
theorem markPath_other (ha : ∀ a ∈ path, E.Aligned a) {b : β}
    {y : A} (hy : E.Aligned y) (hne : ∀ a ∈ path, ¬ E.Same y a) :
    E.get (E.markPath M write (E.get b₀) path b) y = E.get b y := by
  induction path generalizing b with
  | nil => rfl
  | cons a rest ih =>
    refine (ih (fun x hx => ha x (List.mem_cons_of_mem _ hx))
      (fun x hx => hne x (List.mem_cons_of_mem _ hx))).trans ?_
    split
    · exact E.get_put_other b (ha a List.mem_cons_self) hy
        (hfits _ _ (E.fits_get b₀ a)) (hne a List.mem_cons_self)
    · rfl

/-- A mark every store of the walk carries stays. -/
theorem markPath_keeps {t : BitVec k} (ha : ∀ a ∈ path, E.Aligned a) {b : β}
    {y : A} (hy : E.Aligned y)
    (ht : ∀ a ∈ path, E.Same y a → ∀ d, M.mark (E.get b₀ a) d &&& t ≠ 0)
    (hb : E.get b y &&& t ≠ 0) :
    E.get (E.markPath M write (E.get b₀) path b) y &&& t ≠ 0 := by
  induction path generalizing b with
  | nil => exact hb
  | cons a rest ih =>
    refine ih (fun x hx => ha x (List.mem_cons_of_mem _ hx))
      (fun x hx => ht x (List.mem_cons_of_mem _ hx)) ?_
    split
    · have hfit := hfits _ (rest.isEmpty && write) (E.fits_get b₀ a)
      by_cases hcell : E.Same y a
      · rw [E.get_put_same b (ha a List.mem_cons_self) hy hfit hcell]
        exact ht a List.mem_cons_self hcell _
      · rw [E.get_put_other b (ha a List.mem_cons_self) hy hfit hcell]
        exact hb
    · exact hb

/-- After its own turn an entry carries the marks of its turn. -/
theorem put_mark {d : Bool} {b : β} (h : E.Marked M b₀ b)
    {a : A} {t : BitVec k}
    (ha : E.Aligned a) (ht : M.mark (E.get b₀ a) d &&& t ≠ 0) :
    E.get (if M.mark (E.get b₀ a) d ≠ E.get b₀ a then E.put b a (M.mark (E.get b₀ a) d) else b) a
      &&& t ≠ 0 := by
  split
  · rw [E.get_put_same b ha ha (hfits _ _ (E.fits_get b₀ a)) (E.same_refl a)]
    exact ht
  case isFalse hsame =>
    rw [not_not.1 hsame] at ht
    exact (h a ha).ne_zero ht

/-- Whether the entry at `y` is the last of the path. -/
def IsLeaf (E : EntryMemory β A k) (path : List A) (y : A) : Prop :=
  ∃ a, path.getLast? = some a ∧ E.Same y a

/-- In between, an entry holds what it held, or that with its accessed
mark. -/
def Underway (E : EntryMemory β A k) (M : Marks k) (b₀ b : β) : Prop :=
  ∀ y, E.Aligned y → E.get b y = E.get b₀ y
    ∨ E.get b y = M.mark (E.get b₀ y) false

omit hfits in
theorem Underway.refl (b : β) : Underway E M b b := fun _ _ => Or.inl rfl

omit hfits in
/-- Where the mark of a turn changes nothing, none of the entry's states
differs from it. -/
theorem Underway.skip {b : β} (h : Underway E M b₀ b) {y : A}
    (hy : E.Aligned y) {d : Bool}
    (hmark : M.mark (E.get b₀ y) d = E.get b₀ y) :
    E.get b y = M.mark (E.get b₀ y) d := by
  have hfalse : M.mark (E.get b₀ y) false = E.get b₀ y :=
    M.mark_of_marked (M.marked_of_mark hmark).1 fun hf => by cases hf
  rcases h y hy with h | h
  · rw [h, hmark]
  · rw [h, hfalse, hmark]

/-- The turn of one entry, seen at another. -/
theorem get_turn {b : β} (h : Underway E M b₀ b) {a y : A}
    (ha : E.Aligned a) (hy : E.Aligned y) (d : Bool) :
    (E.Same y a → E.get (if M.mark (E.get b₀ a) d ≠ E.get b₀ a
        then E.put b a (M.mark (E.get b₀ a) d) else b) y
          = M.mark (E.get b₀ y) d)
      ∧ (¬ E.Same y a → E.get (if M.mark (E.get b₀ a) d ≠ E.get b₀ a
        then E.put b a (M.mark (E.get b₀ a) d) else b) y = E.get b y) := by
  have hfit := hfits _ d (E.fits_get b₀ a)
  refine ⟨fun hsame => ?_, fun hne => ?_⟩
  · rw [E.get_same b₀ hsame]
    split
    · exact E.get_put_same b ha hy hfit hsame
    case isFalse hskip =>
      have hmark := not_not.1 hskip
      rw [← E.get_same b₀ hsame] at hmark ⊢
      exact h.skip hy hmark
  · split
    · exact E.get_put_other b ha hy hfit hne
    · rfl

/-- What the last turn does not overwrite: the accessed mark on the
entries of the path, nothing on the others. -/
theorem get_markPath (ha : ∀ a ∈ path, E.Aligned a) {b : β}
    (h : Underway E M b₀ b) {y : A} (hy : E.Aligned y) :
    (E.IsLeaf path y → E.get (E.markPath M write (E.get b₀) path b) y
        = M.mark (E.get b₀ y) write)
      ∧ (¬ E.IsLeaf path y → (∃ a ∈ path, E.Same y a) →
        E.get (E.markPath M write (E.get b₀) path b) y
          = M.mark (E.get b₀ y) false) := by
  induction path generalizing b with
  | nil =>
    refine ⟨?_, ?_⟩
    · rintro ⟨a, hlast, -⟩
      cases hlast
    · rintro - ⟨a, hmem, -⟩
      cases hmem
  | cons a rest ih =>
    have hax := ha a List.mem_cons_self
    have hrest :
      ∀ z ∈ rest, E.Aligned z := fun z hz => ha z (List.mem_cons_of_mem _ hz)
    have hturn :=
      fun {z} hz => get_turn hfits h hax (y := z) hz (rest.isEmpty && write)
    cases rest with
    | nil =>
      -- The leaf's own turn.
      refine ⟨?_, ?_⟩
      · rintro ⟨_, hlast, hsame⟩
        cases hlast
        exact (hturn hy).1 hsame
      · rintro hleaf ⟨x, hx, hsame⟩
        rw [List.mem_singleton.1 hx] at hsame
        exact absurd ⟨a, rfl, hsame⟩ hleaf
    | cons x rest =>
      have hunder : Underway E M b₀ (if M.mark (E.get b₀ a) false ≠ E.get b₀ a
          then E.put b a (M.mark (E.get b₀ a) false) else b) := by
        intro z hz
        by_cases hsame : E.Same z a
        · exact Or.inr ((hturn hz).1 hsame)
        · have hkeep := (hturn hz).2 hsame
          exact (h z hz).imp hkeep.trans hkeep.trans
      have hlater := ih hrest hunder
      have hleaf : E.IsLeaf (a :: x :: rest) y ↔ E.IsLeaf (x :: rest) y := by
        unfold IsLeaf
        rw [List.getLast?_cons_cons]
      refine ⟨fun hl => hlater.1 (hleaf.1 hl), fun hl hmem => ?_⟩
      have hl' : ¬ E.IsLeaf (x :: rest) y := fun h => hl (hleaf.2 h)
      by_cases hin : ∃ z ∈ x :: rest, E.Same y z
      · exact hlater.2 hl' hin
      · -- Only this turn touches the entry.
        obtain ⟨z, hz, hsame⟩ := hmem
        have hza : z = a :=
          (List.mem_cons.1 hz).resolve_right fun hz' => hin ⟨z, hz', hsame⟩
        subst hza
        refine (markPath_other hfits hrest hy fun w hw hs =>
          hin ⟨w, hw, hs⟩).trans ?_
        exact (hturn hy).1 hsame

theorem markPath_accessed (ha : ∀ a ∈ path, E.Aligned a) {b : β}
    (h : E.Marked M b₀ b) {a : A} (hmem : a ∈ path) :
    E.get (E.markPath M write (E.get b₀) path b) a &&& M.accessed ≠ 0 := by
  induction path generalizing b with
  | nil => cases hmem
  | cons x rest ih =>
    have hx := ha x List.mem_cons_self
    have hrest :
      ∀ y ∈ rest, E.Aligned y := fun y hy => ha y (List.mem_cons_of_mem _ hy)
    rcases List.mem_cons.1 hmem with rfl | hmem
    · exact markPath_keeps hfits hrest hx (fun _ _ _ d => M.mark_accessed _ d)
        (put_mark hfits h hx (M.mark_accessed _ _))
    · refine ih hrest ?_ hmem
      split
      · exact h.put hfits hx _
      · exact h

theorem markPath_dirty (ha : ∀ a ∈ path, E.Aligned a) {b : β}
    (h : E.Marked M b₀ b) {a : A} (hlast : path.getLast? = some a) :
    E.get (E.markPath M true (E.get b₀) path b) a &&& M.dirty ≠ 0 := by
  induction path generalizing b with
  | nil => cases hlast
  | cons x rest ih =>
    have hx := ha x List.mem_cons_self
    cases rest with
    | nil =>
      cases hlast
      exact put_mark hfits h hx (M.mark_dirty _)
    | cons y rest =>
      rw [List.getLast?_cons_cons] at hlast
      refine ih (fun z hz => ha z (List.mem_cons_of_mem _ hz)) ?_ hlast
      split
      · exact h.put hfits hx _
      · exact h

end

/-- What every mark set on an entry of the path keeps, marking the path
keeps. -/
theorem markPath_steps {P : β → Prop} {write : Bool} {rd : A → BitVec k}
    {path : List A} {b : β}
    (hput : ∀ a ∈ path, ∀ b d, P b → P (E.put b a (M.mark (rd a) d)))
    (h : P b) :
    P (E.markPath M write rd path b) := by
  induction path generalizing b with
  | nil => exact h
  | cons a rest ih =>
    refine ih (fun x hx => hput x (List.mem_cons_of_mem _ hx)) ?_
    split
    · exact hput a List.mem_cons_self _ _ h
    · exact h

/-- What every store to an entry of the path keeps. -/
theorem markPath_induct {P : β → Prop} {write : Bool} {rd : A → BitVec k}
    {path : List A} {b : β}
    (hput : ∀ a ∈ path, ∀ b v, P b → P (E.put b a v)) (h : P b) :
    P (E.markPath M write rd path b) :=
  markPath_steps (fun a ha b _ => hput a ha b _) h

/-- A path that is marked already is left alone. -/
theorem markPath_of_marked {b₀ b : β} {write : Bool} {path : List A}
    (hA : ∀ a ∈ path, E.get b₀ a &&& M.accessed ≠ 0)
    (hD : write = true → ∀ a, path.getLast? = some a →
      E.get b₀ a &&& M.dirty ≠ 0) :
    E.markPath M write (E.get b₀) path b = b := by
  induction path generalizing b with
  | nil => rfl
  | cons a rest ih =>
    have hsame : M.mark (E.get b₀ a) (rest.isEmpty && write) = E.get b₀ a := by
      refine M.mark_of_marked (hA a List.mem_cons_self) fun hd => ?_
      obtain ⟨hnil, hw⟩ := Bool.and_eq_true_iff.1 hd
      rw [List.isEmpty_iff] at hnil
      exact hD hw a (by rw [hnil]; rfl)
    simp only [markPath, hsame, ne_eq, not_true, if_false]
    refine ih (fun x hx => hA x (List.mem_cons_of_mem _ hx)) fun hw x
      hx => hD hw x ?_
    cases rest with
    | nil => cases hx
    | cons y rest => rw [List.getLast?_cons_cons]; exact hx

end EntryMemory

end Remu
