/-
Two computations side by side.

`Pairs` compares the outcomes of two runs: both failed alike, or both
succeeded with related results. Two programs that take the same steps on
the state and only reckon differently with what they read are compared
head by head (`Pairs.same`), and what is left to show is about the two
reckonings.

`Commutes` is the case of one program from two states: it cannot tell a
state from its image, so its run from the image is the image of its run.

A store of several parts has to find a place for each part before it can
put it there, and finding may fail and may change the state. One way is to
find every place before anything is put down, so that a failure leaves
nothing half done; the other is to find a place, fill it, and go on. The
second run is then ahead of the first by what it has put down already, and
as long as that does not disturb the finding (`Keeps`) both end the
same (`Keeps.fillEach`).

Nothing here knows there is a machine.
-/
import Remu.Lib.Fallible

namespace Remu.Fallible

variable {σ τ ε α α' β β' γ : Type}

-- ======== two outcomes

/-- Both runs failed with one error in states related by `E`, or both
succeeded with results and states related by `Q`. -/
def Pairs (E : σ → τ → Prop) (Q : α → β → σ → τ → Prop) :
    Except ε α × σ → Except ε β × τ → Prop
  | (.ok a, s), (.ok b, t) => Q a b s t
  | (.error e, s), (.error e', t) => e = e' ∧ E s t
  | _, _ => False

namespace Pairs

variable {E : σ → τ → Prop} {Q : α → β → σ → τ → Prop}

/-- The second state seen through `T`. -/
theorem image {r : Except ε α × σ} {r' : Except ε β × γ} (T : γ → τ)
    (h : Pairs E Q r (r'.1, T r'.2)) :
    Pairs (fun s t => E s (T t)) (fun a b s t => Q a b s (T t)) r r' := by
  rcases r with ⟨e | a, s⟩ <;> rcases r' with ⟨e' | b, t⟩ <;> exact h

variable {s : σ} {Q : α' → β' → σ → σ → Prop}

/-- The same head: what follows is compared from where it left off. -/
theorem same {x : Fallible σ ε α} {f : α → Fallible σ ε α'}
    {g : α → Fallible σ ε β'}
    (h : ∀ a s', x s = (.ok a, s') → Pairs Eq Q (f a s') (g a s')) :
    Pairs Eq Q ((x >>= f) s) ((x >>= g) s) := by
  rw [bind_apply, bind_apply]
  rcases hx : x s with ⟨e | a, s'⟩
  · exact ⟨rfl, rfl⟩
  · exact h a s' hx

/-- Heads that keep step: what follows is compared on their two results. -/
theorem bind {x : Fallible σ ε α} {y : Fallible σ ε β}
    {f : α → Fallible σ ε α'}
    {g : β → Fallible σ ε β'} {P : α → β → σ → σ → Prop}
    (hxy : Pairs Eq P (x s) (y s))
    (h : ∀ a b s₁ s₂, P a b s₁ s₂ → Pairs Eq Q (f a s₁) (g b s₂)) :
    Pairs Eq Q ((x >>= f) s) ((y >>= g) s) := by
  rw [bind_apply, bind_apply]
  rcases hx : x s with ⟨e | a, s₁⟩ <;> rcases hy : y s with ⟨e' | b, s₂⟩ <;>
    rw [hx, hy] at hxy
  · exact hxy
  · exact hxy.elim
  · exact hxy.elim
  · exact h a b s₁ s₂ hxy

end Pairs

-- ======== one program, two states

/-- From the image of a state `x` does what it does from the state. -/
def Commutes (T : σ → σ) (x : Fallible σ ε α) : Prop :=
  ∀ s, x (T s) = ((x s).1, T (x s).2)

namespace Commutes

variable {T : σ → σ}

theorem pure (a : α) : Commutes T (Pure.pure a : Fallible σ ε α) :=
  fun _ => rfl

theorem throw (e : ε) : Commutes T (throw e : Fallible σ ε α) := fun _ => rfl

theorem bind {x : Fallible σ ε α} {f : α → Fallible σ ε β} (hx : Commutes T x)
    (hf : ∀ a, Commutes T (f a)) : Commutes T (x >>= f) := by
  intro s
  rw [bind_apply, bind_apply, hx s]
  rcases x s with ⟨e | a, s'⟩
  · rfl
  · exact hf a s'

/-- Reading the state does no harm as long as what follows cannot tell. -/
theorem get_bind {f : σ → Fallible σ ε α} (hsame : ∀ s, f (T s) = f s)
    (hf : ∀ s, Commutes T (f s)) : Commutes T (get >>= f) := by
  intro s
  show f (T s) (T s) = _
  rw [hsame]
  exact hf s s

end Commutes

end Remu.Fallible

-- ======== finding first, or one at a time

namespace Remu.Staged

variable {σ ε A P V : Type}

/-- All the places, in order. -/
def findAll (find : A → Fallible σ ε P) : List A → Fallible σ ε (List P)
  | [] => pure []
  | a :: rest => do
    let p ← find a
    let ps ← findAll find rest
    return p :: ps

/-- Each place found and filled before the next one is looked for. -/
def fillEach (find : A → Fallible σ ε P) (put : P → V → σ → σ) :
    List (A × V) → Fallible σ ε Unit
  | [] => pure ()
  | (a, v) :: rest => do
    let p ← find a
    Fallible.modify (put p v)
    fillEach find put rest

section

variable {find : A → Fallible σ ε P} {put : P → V → σ → σ}

theorem length_findAll {l : List A} {ps : List P} {s s' : σ}
    (h : findAll find l s = (.ok ps, s')) : ps.length = l.length := by
  induction l generalizing ps s with
  | nil =>
    cases h
    rfl
  | cons a rest ih =>
    rw [findAll, Fallible.bind_eq_ok] at h
    obtain ⟨p, s₁, -, h⟩ := h
    rw [Fallible.bind_eq_ok] at h
    obtain ⟨ps', s₂, hps, hret⟩ := h
    cases hret
    rw [List.length_cons, List.length_cons, ih hps]

/-- `Ahead done s t`: the state `t` is `s` with `done` put down. It stays
so when more is put down, at places that `Free` allows, and when the same
place is found in both. -/
structure Keeps (find : A → Fallible σ ε P)
    (put : P → V → σ → σ) (Names : A → Prop)
    (Free : P → Prop) (Ahead : List (P × V) → σ → σ → Prop) : Prop where
  put : ∀ {done s t p}, Free p → Ahead done s t → ∀ v,
    Ahead (done ++ [(p, v)]) s (put p v t)
  find : ∀ {done s t a p s'}, Names a → Ahead done s t →
    find a s = (.ok p, s') →
    ∃ t', find a t = (.ok p, t') ∧ Ahead done s' t'

/-- If all places can be found, then they can be found and filled one by
one, and the outcome is that of filling them afterwards. -/
theorem Keeps.fillEach {Names : A → Prop} {Free : P → Prop}
    {Ahead : List (P × V) → σ → σ → Prop}
    (hk : Keeps find put Names Free Ahead) {avs : List (A × V)} {ps : List P}
    {done : List (P × V)}
    {s s' t : σ} (hnames : ∀ x ∈ avs, Names x.1) (hfree : ∀ p ∈ ps, Free p)
    (hfind : findAll find (avs.map Prod.fst) s = (.ok ps, s'))
    (ht : Ahead done s t) :
    ∃ t', Staged.fillEach find put avs t = (.ok (), t')
      ∧ Ahead (done ++ ps.zip (avs.map Prod.snd)) s' t' := by
  induction avs generalizing ps done s t with
  | nil =>
    cases hfind
    refine ⟨t, rfl, ?_⟩
    rw [List.map_nil, List.zip_nil_right, List.append_nil]
    exact ht
  | cons x rest ih =>
    obtain ⟨a, v⟩ := x
    rw [List.map_cons, findAll, Fallible.bind_eq_ok] at hfind
    obtain ⟨p, s₁, hp, hfind⟩ := hfind
    rw [Fallible.bind_eq_ok] at hfind
    obtain ⟨ps', s₂, hps, hret⟩ := hfind
    cases hret
    obtain ⟨t₁, hpt, ht₁⟩ := hk.find (hnames _ List.mem_cons_self) ht hp
    have ht₂ := hk.put (hfree p List.mem_cons_self) ht₁ v
    obtain ⟨t', hrest, ht'⟩ :=
      ih (fun x hx => hnames x (List.mem_cons_of_mem _ hx))
      (fun q hq => hfree q (List.mem_cons_of_mem _ hq)) hps ht₂
    refine ⟨t', ?_, ?_⟩
    · rw [Staged.fillEach, Fallible.bind_of_ok hpt]
      exact hrest
    · rw [List.map_cons, List.zip_cons_cons]
      rw [List.append_assoc, List.singleton_append] at ht'
      exact ht'

end

end Remu.Staged
