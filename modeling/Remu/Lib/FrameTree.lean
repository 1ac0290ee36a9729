/-
Trees of frames in a memory.

A frame may hold links to other frames in its slots; a path of slots from
the root then leads to a frame or nowhere (`node`). A memory is a tree down
to a depth when no frame is reached along two paths (`Tree`), and what a
write does to it depends on the slots it changes: none, one that now leads
to a fresh frame (`Linked`), or one of the lowest tables (`Bottom`). Which
slots a write changes is asked of the tables only, the frames above the
bottom; a bottom frame may hold anything.
-/
import Mathlib.Data.List.Infix

namespace Remu.FrameTree

variable {φ ι : Type}

-- ======== nodes

/-- The frame a path leads to from `t`. -/
def node (child : φ → ι → Option φ) (t : φ) : List ι → Option φ
  | [] => some t
  | i :: p => (child t i).bind fun t' => node child t' p

variable {c c' : φ → ι → Option φ} {root t f : φ} {i : ι}
  {π p : List ι} {d : Nat}

theorem node_append (c : φ → ι → Option φ) (t : φ) (p q : List ι) :
    node c t (p ++ q) = (node c t p).bind fun t' => node c t' q := by
  induction p generalizing t with
  | nil => rfl
  | cons i p ih =>
    rw [List.cons_append, node, node, Option.bind_assoc]
    congr 1
    funext t'
    exact ih t'

theorem node_concat (c : φ → ι → Option φ) (t : φ) (p : List ι) (i : ι) :
    node c t (p ++ [i]) = (node c t p).bind fun t' => c t' i := by
  rw [node_append]
  congr 1
  funext t'
  rw [node]
  cases c t' i <;> rfl

/-- No frame is reached along two paths. -/
def Tree (c : φ → ι → Option φ) (root : φ) (d : Nat) : Prop :=
  ∀ p q f, p.length ≤ d → q.length ≤ d → node c root p = some f →
    node c root q = some f → p = q

/-- A frame reached above the bottom. -/
def Table (c : φ → ι → Option φ) (root : φ) (d : Nat) (t : φ) : Prop :=
  ∃ p, p.length < d ∧ node c root p = some t

/-- A frame no path leads to. -/
def Fresh (c : φ → ι → Option φ) (root : φ) (d : Nat) (f : φ) : Prop :=
  ∀ p, p.length ≤ d → node c root p ≠ some f

-- ======== writes

/-- Nothing moves when the slots of the tables lead where they did. -/
theorem node_congr (h : ∀ t, Table c root d t → ∀ i, c' t i = c t i)
    (hp : p.length ≤ d) :
    node c' root p = node c root p := by
  induction p using List.reverseRecOn with
  | nil => rfl
  | append_singleton q j ih =>
    rw [List.length_append, List.length_singleton] at hp
    have hq := ih (by omega)
    rw [node_concat, node_concat, hq]
    cases ht : node c root q with
    | none => rfl
    | some t => exact h t ⟨q, hp, ht⟩ j

theorem Tree.congr (htree : Tree c root d)
    (h : ∀ t, Table c root d t → ∀ i, c' t i = c t i) :
    Tree c' root d := by
  intro p q f hp hq hpf hqf
  rw [node_congr h hp] at hpf
  rw [node_congr h hq] at hqf
  exact htree p q f hp hq hpf hqf

/-- A write that changes no slot of a table but slot `i` of the table at
`π`. -/
structure Edit (c c' : φ → ι → Option φ) (root : φ) (d : Nat)
    (π : List ι) (t : φ) (i : ι) :
    Prop where
  tree : Tree c root d
  at_ : node c root π = some t
  above : π.length < d
  other : ∀ t' j, Table c root d t' → ¬ (t' = t ∧ j = i) → c' t' j = c t' j

namespace Edit

variable (h : Edit c c' root d π t i)

include h

/-- Paths that do not pass the slot lead where they did. -/
theorem node_other (hp : p.length ≤ d) (hn : ¬ (π ++ [i]) <+: p) :
    node c' root p = node c root p := by
  induction p using List.reverseRecOn with
  | nil => rfl
  | append_singleton q j ih =>
    rw [List.length_append, List.length_singleton] at hp
    have hq := ih (by omega) fun hpre =>
      hn (hpre.trans (List.prefix_append q [j]))
    rw [node_concat, node_concat, hq]
    cases ht : node c root q with
    | none => rfl
    | some t' =>
      refine h.other t' j ⟨q, hp, ht⟩ ?_
      rintro ⟨rfl, rfl⟩
      have hqπ : q = π :=
        h.tree q π t' (by omega) (by have := h.above; omega) ht h.at_
      exact hn (hqπ ▸ List.prefix_rfl)

theorem node_at : node c' root π = some t := by
  rw [h.node_other (Nat.le_of_lt h.above) ?_]
  · exact h.at_
  · intro hpre
    have := hpre.length_le
    rw [List.length_append, List.length_singleton] at this
    omega

/-- Below the slot a path goes on from where the slot leads. -/
theorem node_below (r : List ι) :
    node c' root (π ++ [i] ++ r) = (c' t i).bind fun f => node c' f r := by
  rw [node_append, node_concat, h.node_at, Option.bind_some]

end Edit

/-- The slot now leads to a fresh frame that leads nowhere itself. -/
structure Linked (c c' : φ → ι → Option φ) (root : φ) (d : Nat)
    (π : List ι) (t : φ) (i : ι)
    (f : φ) : Prop extends Edit c c' root d π t i where
  slot : c' t i = some f
  fresh : Fresh c root d f
  bare : ∀ j, c' f j = none

namespace Linked

variable (h : Linked c c' root d π t i f)

include h

theorem node_slot : node c' root (π ++ [i]) = some f := by
  rw [node_concat, h.node_at, Option.bind_some, h.slot]

theorem node_below_slot {r : List ι} (hr : r ≠ []) :
    node c' root (π ++ [i] ++ r) = none := by
  rw [h.node_below, h.slot, Option.bind_some]
  cases r with
  | nil => exact absurd rfl hr
  | cons j r => rw [node, h.bare, Option.bind_none]

/-- Every frame reached is the new one or one reached before. -/
theorem node_cases {f' : φ} (hp : p.length ≤ d)
    (hf : node c' root p = some f') :
    p = π ++ [i] ∧ f' = f ∨ ¬ (π ++ [i]) <+: p ∧ node c root p = some f' := by
  by_cases hpre : (π ++ [i]) <+: p
  · obtain ⟨r, rfl⟩ := hpre
    by_cases hr : r = []
    · subst hr
      rw [List.append_nil, h.node_slot, Option.some.injEq] at hf
      exact Or.inl ⟨List.append_nil _, hf.symm⟩
    · rw [h.node_below_slot hr] at hf
      cases hf
  · rw [h.node_other hp hpre] at hf
    exact Or.inr ⟨hpre, hf⟩

theorem tree_after : Tree c' root d := by
  intro p q f' hp hq hpf hqf
  rcases h.node_cases hp hpf with ⟨rfl, rfl⟩ | ⟨-, hpf⟩
  · rcases h.node_cases hq hqf with ⟨rfl, -⟩ | ⟨-, hqf⟩
    · rfl
    · exact absurd hqf (h.fresh q hq)
  · rcases h.node_cases hq hqf with ⟨-, rfl⟩ | ⟨-, hqf⟩
    · exact absurd hpf (h.fresh p hp)
    · exact h.tree p q f' hp hq hpf hqf

/-- A table of the new tree is the new frame or was a table. -/
theorem table_cases {t' : φ} (ht : Table c' root d t') :
    t' = f ∨ Table c root d t' := by
  obtain ⟨p, hp, hnode⟩ := ht
  rcases h.node_cases (Nat.le_of_lt hp) hnode with ⟨-, rfl⟩ | ⟨-, hnode⟩
  · exact Or.inl rfl
  · exact Or.inr ⟨p, hp, hnode⟩

/-- Frames that were fresh still are, the linked one apart. -/
theorem fresh_after {f' : φ} (hf : Fresh c root d f') (hne : f' ≠ f) :
    Fresh c' root d f' := by
  intro p hp hnode
  rcases h.node_cases hp hnode with ⟨-, rfl⟩ | ⟨-, hnode⟩
  · exact hne rfl
  · exact hf p hp hnode

/-- Where the slot led nowhere before, no path is lost. -/
theorem node_mono (hempty : c t i = none) (hp : p.length ≤ d) {f' : φ}
    (hf : node c root p = some f') : node c' root p = some f' := by
  rw [h.node_other hp, hf]
  rintro ⟨r, rfl⟩
  rw [node_append, node_concat, h.at_, Option.bind_some, hempty,
    Option.bind_none] at hf
  cases hf

end Linked

/-- A slot of the lowest tables that now leads nowhere, where it led, or to
a fresh frame. -/
structure Bottom (c c' : φ → ι → Option φ) (root : φ) (d : Nat)
    (π : List ι) (t : φ) (i : ι) :
    Prop extends Edit c c' root d π t i where
  last : π.length + 1 = d
  slot : ∀ f, c' t i = some f → c t i = some f ∨ Fresh c root d f

namespace Bottom

variable (h : Bottom c c' root d π t i)

include h

theorem node_above (hp : p.length < d) : node c' root p = node c root p := by
  refine h.node_other (Nat.le_of_lt hp) fun hpre => ?_
  have hlen := hpre.length_le
  have hlast := h.last
  rw [List.length_append, List.length_singleton] at hlen
  omega

theorem node_slot : node c' root (π ++ [i]) = c' t i := by
  rw [node_concat, h.node_at, Option.bind_some]

theorem table_iff : Table c' root d f ↔ Table c root d f :=
  exists_congr fun _ => and_congr_right fun hp => by rw [h.node_above hp]

/-- Every frame reached was reached along the same path, or is the fresh
one in the slot. -/
theorem node_cases (hp : p.length ≤ d) (hf : node c' root p = some f) :
    node c root p = some f ∨ p = π ++ [i] ∧ Fresh c root d f := by
  by_cases hpre : (π ++ [i]) <+: p
  · have hlast := h.last
    have hpe : π ++ [i] = p := hpre.eq_of_length_le (by
      rw [List.length_append, List.length_singleton]
      omega)
    rw [← hpe, h.node_slot] at hf
    rcases h.slot f hf with hold | hfresh
    · left
      rw [← hpe, node_concat, h.at_, Option.bind_some, hold]
    · exact Or.inr ⟨hpe.symm, hfresh⟩
  · rw [h.node_other hp hpre] at hf
    exact Or.inl hf

theorem tree_after : Tree c' root d := by
  intro p q f hp hq hpf hqf
  rcases h.node_cases hp hpf with hpf' | ⟨rfl, hfresh⟩
  · rcases h.node_cases hq hqf with hqf' | ⟨-, hfresh⟩
    · exact h.tree p q f hp hq hpf' hqf'
    · exact absurd hpf' (hfresh p hp)
  · rcases h.node_cases hq hqf with hqf' | ⟨rfl, -⟩
    · exact absurd hqf' (hfresh q hq)
    · rfl

/-- Fresh frames stay fresh, the one in the slot apart. -/
theorem fresh_after (hf : Fresh c root d f) (hne : c' t i ≠ some f) :
    Fresh c' root d f := by
  intro p hp hnode
  rcases h.node_cases hp hnode with hold | ⟨rfl, -⟩
  · exact hf p hp hold
  · rw [h.node_slot] at hnode
    exact hne hnode

end Bottom

end Remu.FrameTree
