/-
Fallible state computations: a function from a state to a result and a
state, where a failure keeps the state it failed in. This is the shape of
an interpreter written against `&mut self` with early returns: an error
propagates outwards, and whatever the failing callee already changed stays
changed until somebody rewinds it.

Two layers:

- `Fallible σ ε` is the plain monad, with the inversion lemmas that peel a
  `>>=` apart on either outcome, the failures a computation may end in, what
  it returns under an invariant, and the rules of two runs in lockstep and of
  one that follows the other;
- `Bounded R ε` bundles a computation with the fact that it moves the
  state along a preorder `R` whatever its outcome. Sequencing composes the
  facts, so a program assembled from bounded primitives is bounded by
  construction and no theorem about it has to walk its text.

`Within cost n Q x` says that `x` succeeds from every state, with a result
in `Q`, and raises the measure `cost` by no more than `n`. A sequence is
charged for its head first, and its continuation for what is left, so that
a budget fixed once is threaded through the text of a computation; that
the head fits is a comparison of numerals, closed by `rfl`.

Nothing here knows there is a machine.
-/
import Mathlib.Logic.Relation
import Mathlib.Order.Defs.Unbundled

namespace Remu

/-- A computation on `σ` that may fail with `ε`; the state it reached is
returned either way. -/
def Fallible (σ ε α : Type) : Type := σ → Except ε α × σ

namespace Fallible

variable {σ τ ε α β γ : Type}

/-- Sequencing: a failure keeps the state and skips the continuation. -/
def bind (x : Fallible σ ε α) (f : α → Fallible σ ε β) : Fallible σ ε β :=
  fun s => match x s with
    | (.ok a, s') => f a s'
    | (.error e, s') => (.error e, s')

instance : Monad (Fallible σ ε) where
  pure a := fun s => (.ok a, s)
  bind := bind

instance : MonadExceptOf ε (Fallible σ ε) where
  throw e := fun s => (.error e, s)
  tryCatch x h := fun s => match x s with
    | (.error e, s') => h e s'
    | r => r

/-- Read the state. -/
def get : Fallible σ ε σ := fun s => (.ok s, s)

/-- Replace the state by its image. -/
def modify (f : σ → σ) : Fallible σ ε Unit := fun s => (.ok (), f s)

/-- Run `x` and hand its outcome to the caller instead of propagating it:
the `let Err(e) = x else` of the source. -/
def outcome (x : Fallible σ ε α) : Fallible σ ε (Except ε α) :=
  fun s => ((.ok (x s).1), (x s).2)

@[simp] theorem pure_apply (a : α) (s : σ) :
    (Pure.pure a : Fallible σ ε α) s = (.ok a, s) := rfl

@[simp] theorem throw_apply (e : ε) (s : σ) :
    (throw e : Fallible σ ε α) s = (.error e, s) := rfl

@[simp] theorem get_apply (s : σ) :
    (get : Fallible σ ε σ) s = (.ok s, s) := rfl

@[simp] theorem modify_apply (f : σ → σ) (s : σ) :
    (modify f : Fallible σ ε Unit) s = (.ok (), f s) := rfl

@[simp] theorem outcome_apply (x : Fallible σ ε α) (s : σ) :
    outcome x s = (.ok (x s).1, (x s).2) := rfl

/-- A sequence stops at the first error and keeps the state it stopped in. -/
theorem bind_apply (x : Fallible σ ε α) (f : α → Fallible σ ε β) (s : σ) :
    (x >>= f) s = match x s with
      | (.ok a, s') => f a s'
      | (.error e, s') => (.error e, s') := rfl

/-- A `>>=` whose head succeeds is its continuation. -/
theorem bind_of_ok {x : Fallible σ ε α} {f : α → Fallible σ ε β}
    {s s' : σ} {a : α} (h : x s = (.ok a, s')) : (x >>= f) s = f a s' := by
  rw [bind_apply, h]

/-- A `>>=` whose head fails fails there. -/
theorem bind_of_error {x : Fallible σ ε α} {f : α → Fallible σ ε β}
    {s s' : σ} {e : ε} (h : x s = (.error e, s')) :
    (x >>= f) s = (.error e, s') := by
  rw [bind_apply, h]

/-- A successful `>>=` splits into two successes. -/
theorem bind_eq_ok {x : Fallible σ ε α} {f : α → Fallible σ ε β}
    {s s'' : σ} {b : β} :
    (x >>= f) s = (.ok b, s'')
      ↔ ∃ a s', x s = (.ok a, s') ∧ f a s' = (.ok b, s'') := by
  rw [bind_apply]
  rcases hx : x s with ⟨e | a, s'⟩
  · simp
  · constructor
    · intro h
      exact ⟨a, s', rfl, h⟩
    · rintro ⟨a₁, s₁, hs, hf⟩
      cases hs
      exact hf

/-- A failing `>>=` failed in its head or in its continuation. -/
theorem bind_eq_error {x : Fallible σ ε α} {f : α → Fallible σ ε β}
    {s s'' : σ} {e : ε} :
    (x >>= f) s = (.error e, s'')
      ↔ x s = (.error e, s'')
        ∨ ∃ a s', x s = (.ok a, s') ∧ f a s' = (.error e, s'') := by
  rw [bind_apply]
  rcases hx : x s with ⟨e₁ | a, s'⟩
  · simp
  · constructor
    · intro h
      exact Or.inr ⟨a, s', rfl, h⟩
    · rintro (hs | ⟨a₁, s₁, hs, hf⟩)
      · cases hs
      · cases hs
        exact hf

@[simp] theorem map_apply (f : α → β) (x : Fallible σ ε α) (s : σ) :
    (f <$> x) s = match x s with
      | (.ok a, s') => (.ok (f a), s')
      | (.error e, s') => (.error e, s') := rfl

instance : LawfulMonad (Fallible σ ε) := LawfulMonad.mk' _
  (by
    intro α x
    funext s
    simp only [map_apply]
    rcases x s with ⟨_ | _, _⟩ <;> rfl)
  (by intro α β a f; rfl)
  (by
    intro α β γ x f g
    funext s
    simp only [bind_apply]
    rcases x s with ⟨_ | _, _⟩ <;> rfl)

-- ------------------------------------------------- state change, plainly

/-- `x` moves the state along `R`, whatever its outcome. -/
def Along (R : σ → σ → Prop) (x : Fallible σ ε α) : Prop := ∀ s, R s (x s).2

section Along

variable {R : σ → σ → Prop} [IsPreorder σ R]

/-- What goes along a preorder: nothing does, reading does, and sequences
do. -/
theorem Along.pure (a : α) : Along R (Pure.pure a : Fallible σ ε α) :=
  fun s => refl_of R s

theorem Along.get : Along R (get : Fallible σ ε σ) := fun s => refl_of R s

/-- A sequence goes along where its parts do. -/
theorem Along.bind {x : Fallible σ ε α}
    {f : α → Fallible σ ε β} (hx : Along R x)
    (hf : ∀ a, Along R (f a)) : Along R (x >>= f) := by
  intro s
  have h := hx s
  rw [bind_apply]
  rcases hr : x s with ⟨e | a, s'⟩ <;> rw [hr] at h
  · exact h
  · exact trans_of R h (hf a s')

omit [IsPreorder σ R] in
/-- A sequence whose first part moves along `R` ends in its error, or goes
on from there. -/
theorem Along.bind_cases {x : Fallible σ ε α} {f : α → Fallible σ ε β} {s : σ}
    {P : Except ε β × σ → Prop} (hx : Along R x)
    (herr : ∀ e s', R s s' → P (.error e, s'))
    (hok : ∀ a s', x s = (.ok a, s') → R s s' → P (f a s')) :
    P ((x >>= f) s) := by
  have h := hx s
  rw [bind_apply]
  rcases hr : x s with ⟨e | a, s'⟩ <;> rw [hr] at h
  · exact herr e s' h
  · exact hok a s' hr h

end Along

-- ------------------------------------------------------- what it may throw

/-- Every error of `x` satisfies `V`. A sequence throws what its parts
throw, so the fact is established along the text of a computation, like the
relation its states move along. -/
def Throws (V : ε → Prop) (x : Fallible σ ε α) : Prop :=
  ∀ s e s', x s = (.error e, s') → V e

section Throws

variable {V : ε → Prop}

theorem Throws.of_ok {x : Fallible σ ε α}
    (h : ∀ s, ∃ a s', x s = (.ok a, s')) : Throws V x := by
  intro s e s' hx
  obtain ⟨a, t, ha⟩ := h s
  rw [ha] at hx
  cases hx

/-- What throws only errors in `V`. -/
theorem Throws.pure (a : α) : Throws V (Pure.pure a : Fallible σ ε α) :=
  of_ok fun s => ⟨a, s, rfl⟩

theorem Throws.get : Throws V (get : Fallible σ ε σ) :=
  of_ok fun s => ⟨s, s, rfl⟩

theorem Throws.modify (f : σ → σ) : Throws V (modify f : Fallible σ ε Unit) :=
  of_ok fun s => ⟨(), f s, rfl⟩

theorem Throws.throw {e : ε} (h : V e) :
    Throws V (throw e : Fallible σ ε α) := by
  intro s e' s' hx
  cases hx
  exact h

/-- A sequence throws what its parts throw. -/
theorem Throws.bind {x : Fallible σ ε α}
    {f : α → Fallible σ ε β} (hx : Throws V x)
    (hf : ∀ a, Throws V (f a)) : Throws V (x >>= f) := by
  intro s e s' h
  rcases bind_eq_error.1 h with hxe | ⟨a, t, -, hfe⟩
  · exact hx s e s' hxe
  · exact hf a t e s' hfe

end Throws

-- ------------------------------------------------ what it returns, and keeps

/-- Started where `I` holds, a successful run returns a value with `P` and
ends where `I` holds. -/
def Under (I : σ → Prop) (P : α → Prop) (x : Fallible σ ε α) : Prop :=
  ∀ s a s', I s → x s = (.ok a, s') → P a ∧ I s'

section Under

variable {I : σ → Prop} {P : α → Prop}

/-- What keeps an invariant and returns values in `P`. -/
theorem Under.pure {a : α} (h : P a) :
    Under I P (Pure.pure a : Fallible σ ε α) := by
  intro s b s' hs hx
  cases hx
  exact ⟨h, hs⟩

theorem Under.get : Under I I (get : Fallible σ ε σ) := by
  intro s a s' hs hx
  cases hx
  exact ⟨hs, hs⟩

/-- A weaker statement of the value. -/
theorem Under.mono {Q : α → Prop} {x : Fallible σ ε α} (hx : Under I P x)
    (h : ∀ a, P a → Q a) : Under I Q x :=
  fun s a s' hs hxa => ⟨h a (hx s a s' hs hxa).1, (hx s a s' hs hxa).2⟩

/-- The invariant carries over and the value is used. -/
theorem Under.bind {Q : β → Prop} {x : Fallible σ ε α}
    {f : α → Fallible σ ε β} (hx : Under I P x)
    (hf : ∀ a, P a → Under I Q (f a)) : Under I Q (x >>= f) := by
  intro s b s'' hs h
  obtain ⟨a, s', hxa, hfa⟩ := bind_eq_ok.1 h
  obtain ⟨ha, hs'⟩ := hx s a s' hs hxa
  exact hf a ha s' b s'' hs' hfa

theorem Under.map {Q : β → Prop} {x : Fallible σ ε α} {g : α → β}
    (hx : Under I P x) (h : ∀ a, P a → Q (g a)) :
    Under I Q (g <$> x) := by
  rw [map_eq_pure_bind]
  exact hx.bind fun a ha => pure (h a ha)

end Under

-- ---------------------------------------------------- two runs in lockstep

/-- A run of `x` from `s` and one of `y` from a related `t` give the same
outcome in related states, as long as `x` ends in a `Fine` state. `Fine` is
what may be lost but never regained. -/
structure Lockstep (Fine : σ → Prop) (R : σ → τ → Prop) (x : Fallible σ ε α)
    (y : Fallible τ ε α) : Prop where
  back : ∀ s, Fine (x s).2 → Fine s
  step : ∀ {s t}, R s t → Fine (x s).2 → (x s).1 = (y t).1 ∧ R (x s).2 (y t).2

section Lockstep

variable {Fine : σ → Prop} {R : σ → τ → Prop}

/-- Two computations over two states, returning the same. -/
theorem Lockstep.pure (a : α) :
    Lockstep Fine R (Pure.pure a : Fallible σ ε α) (Pure.pure a) where
  back _ h := h
  step h _ := ⟨rfl, h⟩

theorem Lockstep.throw (e : ε) :
    Lockstep Fine R (throw e : Fallible σ ε α) (throw e) where
  back _ h := h
  step h _ := ⟨rfl, h⟩

/-- A sequence in lockstep, part by part. -/
theorem Lockstep.bind {x : Fallible σ ε α} {y : Fallible τ ε α}
    {f : α → Fallible σ ε β}
    {g : α → Fallible τ ε β} (hx : Lockstep Fine R x y)
    (hf : ∀ a, Lockstep Fine R (f a) (g a)) :
    Lockstep Fine R (x >>= f) (y >>= g) where
  back s h := by
    have hback := hx.back s
    rw [bind_apply] at h
    rcases hr : x s with ⟨e | a, s'⟩ <;> rw [hr] at h hback
    · exact hback h
    · exact hback ((hf a).back s' h)
  step {s t} hR h := by
    have hstep := hx.step hR
    rw [bind_apply] at h ⊢
    rw [bind_apply]
    rcases hr : x s with ⟨e | a, s'⟩ <;> rw [hr] at h hstep
    · obtain ⟨he, hR'⟩ := hstep h
      rcases hy : y t with ⟨o, t'⟩
      rw [hy] at he hR'
      subst he
      exact ⟨rfl, hR'⟩
    · obtain ⟨ha, hR'⟩ := hstep ((hf a).back s' h)
      rcases hy : y t with ⟨o, t'⟩
      rw [hy] at ha hR'
      subst ha
      exact (hf a).step hR' h

end Lockstep

-- ----------------------------------------------- one run following another

/-- Where a run of `x` from `s` succeeds in a `Fine` state, `y` succeeds from
every related `t`, with the same value and in a related state. A failure of
`x` says nothing about `y`. -/
structure Follows (Fine : σ → Prop) (R : σ → τ → Prop) (x : Fallible σ ε α)
    (y : Fallible τ ε α) : Prop where
  back : ∀ {s a s'}, x s = (.ok a, s') → Fine s' → Fine s
  step : ∀ {s t a s'}, R s t → x s = (.ok a, s') → Fine s' → ∃ t',
    y t = (.ok a, t') ∧ R s' t'

section Follows

variable {Fine : σ → Prop} {R : σ → τ → Prop}

/-- One computation followed by another on the states where the first is
fine. -/
theorem Follows.pure (a : α) :
    Follows Fine R (Pure.pure a : Fallible σ ε α) (Pure.pure a) where
  back h hs := by
    cases h
    exact hs
  step {s t a s'} hR h _ := by
    cases h
    exact ⟨t, rfl, hR⟩

theorem Follows.throw (e : ε) :
    Follows Fine R (throw e : Fallible σ ε α) (throw e) where
  back h _ := by
    cases h
  step _ h _ := by
    cases h

/-- A sequence is followed part by part. -/
theorem Follows.bind {x : Fallible σ ε α} {y : Fallible τ ε α}
    {f : α → Fallible σ ε β}
    {g : α → Fallible τ ε β} (hx : Follows Fine R x y)
    (hf : ∀ a, Follows Fine R (f a) (g a)) :
    Follows Fine R (x >>= f) (y >>= g) where
  back h hs := by
    obtain ⟨a, s', hxa, hfa⟩ := bind_eq_ok.1 h
    exact hx.back hxa ((hf a).back hfa hs)
  step hR h hs := by
    obtain ⟨a, s', hxa, hfa⟩ := bind_eq_ok.1 h
    obtain ⟨t', hya, hR'⟩ := hx.step hR hxa ((hf a).back hfa hs)
    obtain ⟨t'', hga, hR''⟩ := (hf a).step hR' hfa hs
    exact ⟨t'', (bind_of_ok hya).trans hga, hR''⟩

/-- Both read their states. -/
theorem Follows.get {f : σ → Fallible σ ε α} {g : τ → Fallible τ ε α}
    (hback : ∀ {s a s'}, f s s = (.ok a, s') → Fine s' → Fine s)
    (hfg : ∀ {s t}, R s t → Follows Fine R (f s) (g t)) :
    Follows Fine R (Fallible.get >>= f) (Fallible.get >>= g) where
  back h hs := hback h hs
  step hR h hs := (hfg hR).step hR h hs

end Follows

end Fallible

-- ======== bounded computations

/-- A computation together with the fact that it moves the state along
`R`, whether it succeeds or fails. -/
structure Bounded {σ : Type} (R : σ → σ → Prop) (ε α : Type) where
  run : Fallible σ ε α
  bound : ∀ s, R s (run s).2

namespace Bounded

variable {σ ε α β γ : Type} {R : σ → σ → Prop}

/-- A bounded computation is its run. -/
theorem ext {x y : Bounded R ε α} (hxy : ∀ s, x.run s = y.run s) :
    x = y := by
  obtain ⟨rx, _⟩ := x
  obtain ⟨ry, _⟩ := y
  have hr : rx = ry := funext hxy
  subst hr
  rfl

section Preorder

variable [IsPreorder σ R]

instance : Monad (Bounded R ε) where
  pure a := ⟨Pure.pure a, Fallible.Along.pure a⟩
  bind x f := ⟨x.run >>= fun a => (f a).run,
    Fallible.Along.bind x.bound fun a => (f a).bound⟩

instance : MonadExceptOf ε (Bounded R ε) where
  throw e := ⟨throw e, fun s => refl_of R s⟩
  tryCatch x h := ⟨tryCatch x.run fun e => (h e).run, fun s => by
    have hx := x.bound s
    simp only [tryCatch, tryCatchThe, MonadExceptOf.tryCatch]
    rcases hr : x.run s with ⟨e | a, s'⟩ <;> rw [hr] at hx
    · exact trans_of R hx ((h e).bound s')
    · exact hx⟩

@[simp] theorem run_pure (a : α) :
    (Pure.pure a : Bounded R ε α).run = Pure.pure a := rfl

@[simp] theorem run_throw (e : ε) :
    (throw e : Bounded R ε α).run = throw e := rfl

@[simp] theorem run_bind (x : Bounded R ε α) (f : α → Bounded R ε β) :
    (x >>= f).run = x.run >>= fun a => (f a).run := rfl

@[simp] theorem run_map (f : α → β) (x : Bounded R ε α) :
    (f <$> x).run = f <$> x.run := rfl

/-- Two continuations that agree where the computation arrives. -/
theorem bind_congr_at {x : Bounded R ε α} {f g : α → Bounded R ε β} {s : σ}
    (h : ∀ a t, x.run s = (.ok a, t) → (f a).run t = (g a).run t) :
    (x >>= f).run s = (x >>= g).run s := by
  rw [run_bind, run_bind]
  rcases hx : x.run s with ⟨e | a, t⟩
  · rw [Fallible.bind_of_error hx, Fallible.bind_of_error hx]
  · rw [Fallible.bind_of_ok hx, Fallible.bind_of_ok hx]
    exact h a t hx

instance : LawfulMonad (Bounded R ε) := LawfulMonad.mk' _
  (by
    intro α x
    refine Bounded.ext fun s => ?_
    rw [run_map, id_map])
  (by intro α β a f; rfl)
  (by
    intro α β γ x f g
    refine Bounded.ext fun s => ?_
    simp only [run_bind, bind_assoc])

/-- Read the state. -/
def get : Bounded R ε σ := ⟨Fallible.get, fun s => refl_of R s⟩

@[simp] theorem run_get : (get : Bounded R ε σ).run = Fallible.get := rfl

end Preorder

/-- Replace the state by an image that `R` allows. -/
def modify (f : σ → σ) (h : ∀ s, R s (f s)) : Bounded R ε Unit :=
  ⟨Fallible.modify f, h⟩

/-- The outcome of a computation as a value. -/
def outcome (x : Bounded R ε α) : Bounded R ε (Except ε α) :=
  ⟨Fallible.outcome x.run, x.bound⟩

@[simp] theorem run_modify (f : σ → σ) (h : ∀ s, R s (f s)) :
    (modify f h : Bounded R ε Unit).run = Fallible.modify f := rfl

@[simp] theorem run_outcome (x : Bounded R ε α) :
    (outcome x).run = Fallible.outcome x.run := rfl

/-- `R` allows no more than `R'` does. -/
class Within (R R' : σ → σ → Prop) : Prop where
  sub : ∀ {s s'}, R s s' → R' s s'

/-- A computation under a wider bound. -/
def lift {R' : σ → σ → Prop} [Within R R'] (x : Bounded R ε α) :
    Bounded R' ε α :=
  ⟨x.run, fun s => Within.sub (x.bound s)⟩

@[simp] theorem run_lift {R' : σ → σ → Prop} [Within R R']
    (x : Bounded R ε α) :
    (x.lift : Bounded R' ε α).run = x.run := rfl

end Bounded

end Remu

-- ======== budgets

namespace Remu.Fallible

variable {σ ε α γ : Type} {cost : σ → Nat} {n : Nat} {Q : α → Prop}

/-- From every state `x` succeeds with a result in `Q`, at a cost of no more
than `n`. -/
def Within (cost : σ → Nat) (n : Nat) (Q : α → Prop) (x : Fallible σ ε α) : Prop :=
  ∀ s, ∃ a s', x s = (.ok a, s') ∧ Q a ∧ cost s' ≤ cost s + n

/-- The same of a result nothing is asked of. -/
def Spends (cost : σ → Nat) (n : Nat) (x : Fallible σ ε α) : Prop :=
  Within cost n (fun _ => True) x

namespace Within

theorem pure {a : α} (h : Q a) :
    Within cost n Q (Pure.pure a : Fallible σ ε α) :=
  fun s => ⟨a, s, rfl, h, Nat.le_add_right _ _⟩

/-- A larger budget allows what a smaller one does. -/
theorem mono {x : Fallible σ ε α} {m : Nat} {R : α → Prop}
    (h : Within cost m R x) (hn : m ≤ n)
    (hQ : ∀ a, R a → Q a) : Within cost n Q x := by
  intro s
  obtain ⟨a, s', hx, ha, hcost⟩ := h s
  exact ⟨a, s', hx, hQ a ha, by omega⟩

/-- The continuation is charged what is left. -/
theorem bind {m : Nat} {P : γ → Prop} {x : Fallible σ ε γ}
    {f : γ → Fallible σ ε α}
    (hx : Within cost m P x) (h : m.ble n = true)
    (hf : ∀ a, P a → Within cost (n - m) Q (f a)) :
    Within cost n Q (x >>= f) := by
  intro s
  have hle := Nat.le_of_ble_eq_true h
  obtain ⟨a, s', ha, hPa, hcost⟩ := hx s
  obtain ⟨c, s'', hc, hQc, hcost'⟩ := hf a hPa s'
  exact ⟨c, s'', (bind_of_ok ha).trans hc, hQc, by omega⟩

/-- A conditional needs the budget of its dearer branch. -/
theorem ite {c : Prop} [Decidable c] {x y : Fallible σ ε α}
    (hx : Within cost n Q x)
    (hy : Within cost n Q y) : Within cost n Q (if c then x else y) := by
  split
  · exact hx
  · exact hy

end Within

namespace Spends

theorem pure (a : α) : Spends cost n (Pure.pure a : Fallible σ ε α) :=
  Within.pure trivial

theorem mono {x : Fallible σ ε α} {m : Nat} (h : Spends cost m x)
    (hn : m.ble n = true) :
    Spends cost n x := Within.mono h (Nat.le_of_ble_eq_true hn) fun _ h => h

theorem bind {m : Nat} {x : Fallible σ ε γ} {f : γ → Fallible σ ε α}
    (hx : Spends cost m x)
    (h : m.ble n = true) (hf : ∀ a, Within cost (n - m) Q (f a)) :
    Within cost n Q (x >>= f) :=
  Within.bind hx h fun a _ => hf a

/-- Changing what the cost does not see is free. -/
theorem modify {g : σ → σ} (h : ∀ s, cost (g s) = cost s) :
    Spends cost 0 (modify g : Fallible σ ε Unit) :=
  fun s => ⟨(), g s, rfl, trivial, Nat.le_of_eq (h s)⟩

end Spends

end Remu.Fallible
