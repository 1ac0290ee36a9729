/-
Lists that are searched, and lists that grow.

`firstMatch` acts on the first element that is hit and puts it back. Where
no two elements are hit by the same thing the order does not matter: acting
on the first is acting on every element that is hit.

`Since p q` says that some element of a list satisfies `p`, and none after
it satisfies `q`: the past operator, for a list that grows at its end. A
latch is of this kind. What sets it is `p`, what clears it is `q`, and
`since_concat` is its step.
-/
import Mathlib.Data.List.Basic

namespace Remu

-- ======== the first hit

variable {ρ α : Type} {hit : ρ → Bool} {act : ρ → α × ρ}

/-- Act on the first element that is hit. -/
def firstMatch (hit : ρ → Bool) (act : ρ → α × ρ) :
    List ρ → Option (α × List ρ)
  | [] => none
  | r :: rs =>
    if hit r then some ((act r).1, (act r).2 :: rs)
    else (firstMatch hit act rs).map fun p => (p.1, r :: p.2)

theorem firstMatch_none {rs : List ρ} (h : ∀ r ∈ rs, hit r = false) :
    firstMatch hit act rs = none := by
  induction rs with
  | nil => rfl
  | cons r rs ih =>
    rw [firstMatch, h r List.mem_cons_self, if_neg Bool.false_ne_true,
      ih fun s hs => h s (List.mem_cons_of_mem r hs)]
    rfl

/-- Only one element is hit. -/
theorem firstMatch_apart {rs : List ρ}
    (hapart : rs.Pairwise fun r r' => hit r = true → ¬hit r' = true)
    {r : ρ} (hr : r ∈ rs) (hhit : hit r = true) :
    firstMatch hit act rs
      = some ((act r).1, rs.map fun s => if hit s then (act s).2 else s) := by
  induction rs with
  | nil => exact absurd hr List.not_mem_nil
  | cons s rs ih =>
    obtain ⟨hhead, htail⟩ := List.pairwise_cons.1 hapart
    rw [firstMatch, List.map_cons]
    rcases List.mem_cons.1 hr with rfl | hr
    · have hrest : (rs.map fun s => if hit s then (act s).2 else s) = rs := by
        refine (List.map_congr_left fun s hs => if_neg (hhead s hs hhit)).trans
          (List.map_id rs)
      rw [if_pos hhit, if_pos hhit, hrest]
    · have hmiss : ¬hit s = true := fun hs => hhead r hr hs hhit
      rw [if_neg hmiss, if_neg hmiss, ih htail hr]
      rfl

-- ======== since

variable {p q : α → Prop}

/-- `p` held once, and `q` has not held since. -/
def Since (p q : α → Prop) (l : List α) : Prop :=
  ∃ a x b, l = a ++ x :: b ∧ p x ∧ ∀ y ∈ b, ¬q y

theorem not_since_nil : ¬Since p q [] := by
  rintro ⟨a, x, b, h, -⟩
  exact absurd h.symm
    (List.append_ne_nil_of_right_ne_nil a (List.cons_ne_nil x b))

theorem since_concat {l : List α} {z : α} :
    Since p q (l ++ [z]) ↔ p z ∨ (Since p q l ∧ ¬q z) := by
  constructor
  · rintro ⟨a, x, b, h, hp, hq⟩
    rcases List.eq_nil_or_concat' b with rfl | ⟨b, y, rfl⟩
    · obtain ⟨-, hz⟩ := List.append_inj' h rfl
      cases hz
      exact .inl hp
    · rw [← List.cons_append, ← List.append_assoc] at h
      obtain ⟨hl, hz⟩ := List.append_inj' h rfl
      cases hz
      exact .inr ⟨⟨a, x, b, hl, hp, fun w hw => hq w (List.mem_append_left _ hw)⟩,
        hq z (List.mem_append_right _ List.mem_cons_self)⟩
  · rintro (hp | ⟨⟨a, x, b, rfl, hp, hq⟩, hz⟩)
    · exact ⟨l, z, [], rfl, hp, fun y hy => absurd hy List.not_mem_nil⟩
    · refine ⟨a, x, b ++ [z], by rw [List.append_assoc, List.cons_append], hp,
        fun y hy => ?_⟩
      rcases List.mem_append.1 hy with hy | hy
      · exact hq y hy
      · exact List.mem_singleton.1 hy ▸ hz

end Remu
