/-
Numbers written in limbs, lowest first, and the chains that add and
subtract them limb by limb.

A chain is a step run along a list with a state that it hands on
(`thread`); the lowest limb may have a step of its own, which takes no
carry in (`chain`). A `Column` says what the list, the results and the
state stand for: a digit of each number, a digit of the result, and the
carry. If every step is exact in its own column, the chain is exact in all
of them, and the carry that is left says whether the result fits. Addition
and subtraction are one law with a sign.
-/
import Mathlib.Data.Nat.Digits.Defs
import Mathlib.Tactic.LinearCombination

namespace Remu

variable {α δ σ : Type}

-- ======== chains

/-- Run a step along a list, with its state. -/
def thread (step : α → σ → δ × σ) : List α → σ → List δ × σ
  | [], s => ([], s)
  | x :: xs, s =>
    let (d, s) := step x s
    let (ds, s) := thread step xs s
    (d :: ds, s)

/-- Run `first` on the first element and `rest` on the others. -/
def chain (first rest : α → σ → δ × σ) : List α → σ → List δ × σ
  | [], s => ([], s)
  | x :: xs, s =>
    let (d, s) := first x s
    let (ds, s) := thread rest xs s
    (d :: ds, s)

variable {first rest step : α → σ → δ × σ}

theorem length_thread (step : α → σ → δ × σ) (xs : List α) (s : σ) :
    (thread step xs s).1.length = xs.length := by
  induction xs generalizing s with
  | nil => rfl
  | cons x xs ih => exact congrArg (· + 1) (ih _)

theorem length_chain (first rest : α → σ → δ × σ) (xs : List α) (s : σ) :
    (chain first rest xs s).1.length = xs.length := by
  cases xs with
  | nil => rfl
  | cons x xs => exact congrArg (· + 1) (length_thread rest xs _)

/-- The last step of a thread sees the state the others leave. -/
theorem thread_concat (xs : List α) (x : α) (s : σ) :
    thread step (xs ++ [x]) s
      = ((thread step xs s).1 ++ [(step x (thread step xs s).2).1],
        (step x (thread step xs s).2).2) := by
  induction xs generalizing s with
  | nil => rfl
  | cons y ys ih =>
    rw [List.cons_append, thread]
    dsimp only
    rw [ih]
    rfl

/-- The last step of a chain that is not the first one too. -/
theorem chain_concat {xs : List α} (hne : xs ≠ []) (x : α) (s : σ) :
    chain first rest (xs ++ [x]) s
      = ((chain first rest xs s).1 ++ [(rest x (chain first rest xs s).2).1],
          (rest x (chain first rest xs s).2).2) := by
  cases xs with
  | nil => exact absurd rfl hne
  | cons y ys =>
    rw [List.cons_append, chain]
    dsimp only
    rw [thread_concat]
    rfl

/-- What every step keeps, the thread keeps. -/
theorem thread_keeps {P : α → Prop} {M : σ → Prop}
    (hkeep : ∀ x s, P x → M s → M (step x s).2)
    {xs : List α} (hxs : ∀ x ∈ xs, P x) {s : σ} (hs : M s) :
    M (thread step xs s).2 := by
  induction xs generalizing s with
  | nil => exact hs
  | cons x xs ih =>
    exact ih (fun y hy => hxs y (List.mem_cons_of_mem x hy))
      (hkeep x s (hxs x List.mem_cons_self) hs)

/-- What a step keeps and gives along a whole thread. -/
theorem forall_thread_while {P : α → Prop} {M : σ → Prop} {Q : δ → Prop}
    (hkeep : ∀ x s, P x → M s → M (step x s).2)
    (hstep : ∀ x s, P x → M s → Q (step x s).1)
    {xs : List α} (hxs : ∀ x ∈ xs, P x) {s : σ} (hs : M s) :
    ∀ d ∈ (thread step xs s).1, Q d := by
  induction xs generalizing s with
  | nil => exact fun d hd => absurd hd List.not_mem_nil
  | cons x xs ih =>
    intro d hd
    have hx := hxs x List.mem_cons_self
    rcases List.mem_cons.1 hd with rfl | hd
    · exact hstep x s hx hs
    · exact ih (fun y hy => hxs y (List.mem_cons_of_mem x hy))
        (hkeep x s hx hs) d hd

theorem forall_thread {P : α → Prop} {Q : δ → Prop}
    (hstep : ∀ x s, P x → Q (step x s).1)
    {xs : List α} (hxs : ∀ x ∈ xs, P x) (s : σ) :
    ∀ d ∈ (thread step xs s).1, Q d :=
  forall_thread_while (M := fun _ => True) (fun _ _ _ _ => trivial)
    (fun x s hx _ => hstep x s hx) hxs trivial

theorem forall_chain {P : α → Prop} {Q : δ → Prop}
    (hfirst : ∀ x s, P x → Q (first x s).1)
    (hrest : ∀ x s, P x → Q (rest x s).1) {xs : List α}
    (hxs : ∀ x ∈ xs, P x) (s : σ) :
    ∀ d ∈ (chain first rest xs s).1, Q d := by
  cases xs with
  | nil => exact fun d hd => absurd hd List.not_mem_nil
  | cons x xs =>
    intro d hd
    rcases List.mem_cons.1 hd with rfl | hd
    · exact hfirst x s (hxs x List.mem_cons_self)
    · exact forall_thread hrest (fun y hy => hxs y (List.mem_cons_of_mem x hy)) _ d hd

/-- Steps that give the same from related states give the same lists. -/
theorem thread_agree {τ : Type} {step' : α → τ → δ × τ}
    {P : α → Prop} {R : σ → τ → Prop}
    (hstep : ∀ x s t, P x → R s t → (step x s).1 = (step' x t).1
      ∧ R (step x s).2 (step' x t).2)
    {xs : List α} (hxs : ∀ x ∈ xs, P x) {s : σ} {t : τ} (h : R s t) :
    (thread step xs s).1 = (thread step' xs t).1 := by
  induction xs generalizing s t with
  | nil => rfl
  | cons x xs ih =>
    obtain ⟨hd, hnext⟩ := hstep x s t (hxs x List.mem_cons_self) h
    rw [thread, thread]
    dsimp only
    rw [hd, ih (fun y hy => hxs y (List.mem_cons_of_mem x hy)) hnext]

theorem chain_agree {τ : Type} {first' rest' : α → τ → δ × τ}
    {P : α → Prop} {R : σ → τ → Prop}
    (hfirst : ∀ x s t, P x → (first x s).1 = (first' x t).1
      ∧ R (first x s).2 (first' x t).2)
    (hrest : ∀ x s t, P x → R s t → (rest x s).1 = (rest' x t).1
      ∧ R (rest x s).2 (rest' x t).2)
    {xs : List α} (hxs : ∀ x ∈ xs, P x) (s : σ) (t : τ) :
    (chain first rest xs s).1 = (chain first' rest' xs t).1 := by
  cases xs with
  | nil => rfl
  | cons x xs =>
    obtain ⟨hd, hnext⟩ := hfirst x s t (hxs x List.mem_cons_self)
    rw [chain, chain]
    dsimp only
    rw [hd, thread_agree hrest (fun y hy => hxs y (List.mem_cons_of_mem x hy)) hnext]

-- ======== columns

/-- What a chain works on: two numbers in base `base`, a digit of each for
every element, and the carry that a state holds. The sign is 1 for a sum
and -1 for a difference. -/
structure Column (α δ σ : Type) where
  base : Nat
  sign : Int
  lhs : α → Nat
  rhs : α → Nat
  digit : δ → Nat
  carry : σ → Nat

namespace Column

variable (C : Column α δ σ)

/-- One position, with `c` coming in, is worked out exactly. -/
def Exact (x : α) (c : Nat) (out : δ × σ) : Prop :=
  (C.digit out.1 : Int) + C.sign * (C.base * C.carry out.2)
    = C.lhs x + C.sign * (C.rhs x + c)

/-- The number that `f` reads off a list. -/
def number {γ : Type} (f : γ → Nat) (l : List γ) : Nat :=
  Nat.ofDigits C.base (l.map f)

variable {C}

theorem number_nil {γ : Type} (f : γ → Nat) : C.number f [] = 0 := rfl

theorem number_cons {γ : Type} (f : γ → Nat) (x : γ) (l : List γ) :
    C.number f (x :: l) = f x + C.base * C.number f l := Nat.ofDigits_cons ..

theorem number_lt {γ : Type} {f : γ → Nat} (hb : 1 < C.base) {l : List γ}
    (hl : ∀ x ∈ l, f x < C.base) : C.number f l < C.base ^ l.length := by
  have h := Nat.ofDigits_lt_base_pow_length (l := l.map f) hb
    (by simpa using hl)
  rwa [List.length_map] at h

/-- Steps that are exact in a mode they keep make an exact thread. -/
theorem thread_exact_while {P : α → Prop} {M : σ → Prop}
    (hkeep : ∀ x s, P x → M s → M (step x s).2)
    (hstep : ∀ x s, P x → M s → C.Exact x (C.carry s) (step x s)) {xs : List α}
    (hxs : ∀ x ∈ xs, P x) {s : σ} (hs : M s) :
    (C.number C.digit (thread step xs s).1 : Int)
        + C.sign * (C.base ^ xs.length * C.carry (thread step xs s).2)
      = C.number C.lhs xs + C.sign * (C.number C.rhs xs + C.carry s) := by
  induction xs generalizing s with
  | nil =>
    rw [thread, number_nil, number_nil, number_nil, List.length_nil, pow_zero]
    push_cast
    ring
  | cons x xs ih =>
    have hx := hstep x s (hxs x List.mem_cons_self) hs
    have hrest :=
      ih (fun y hy => hxs y (List.mem_cons_of_mem x hy))
        (hkeep x s (hxs x List.mem_cons_self) hs)
    rw [Exact] at hx
    rw [thread, number_cons, number_cons, number_cons,
      List.length_cons, pow_succ]
    push_cast
    linear_combination hx + (C.base : Int) * hrest

/-- Exact steps make an exact thread. -/
theorem thread_exact {P : α → Prop}
    (hstep : ∀ x s, P x → C.Exact x (C.carry s) (step x s))
    {xs : List α} (hxs : ∀ x ∈ xs, P x) (s : σ) :
    (C.number C.digit (thread step xs s).1 : Int)
        + C.sign * (C.base ^ xs.length * C.carry (thread step xs s).2)
      = C.number C.lhs xs + C.sign * (C.number C.rhs xs + C.carry s) :=
  thread_exact_while (M := fun _ => True) (fun _ _ _ _ => trivial)
    (fun x s hx _ => hstep x s hx) hxs trivial

/-- An exact chain: nothing comes into the lowest position. -/
theorem chain_exact {P : α → Prop}
    (hfirst : ∀ x s, P x → C.Exact x 0 (first x s))
    (hrest : ∀ x s, P x → C.Exact x (C.carry s) (rest x s))
    {xs : List α} (hne : xs ≠ []) (hxs : ∀ x ∈ xs, P x) (s : σ) :
    (C.number C.digit (chain first rest xs s).1 : Int)
        + C.sign * (C.base ^ xs.length * C.carry (chain first rest xs s).2)
      = C.number C.lhs xs + C.sign * C.number C.rhs xs := by
  cases xs with
  | nil => exact absurd rfl hne
  | cons x xs =>
    have hx := hfirst x s (hxs x List.mem_cons_self)
    have hthread :=
      thread_exact hrest (fun y hy => hxs y (List.mem_cons_of_mem x hy))
        (first x s).2
    rw [Exact] at hx
    rw [chain, number_cons, number_cons, number_cons,
      List.length_cons, pow_succ]
    push_cast at hx ⊢
    linear_combination hx + (C.base : Int) * hthread

end Column

-- ======== what is left

/-- A number of `m` values and a carry worth `m`: the number is the total
modulo `m`. -/
theorem emod_of_carry {r m : Nat} {c t : Int} (hr : r < m)
    (h : (r : Int) + m * c = t) : (r : Int) = t % m := by
  rw [← h, Int.add_mul_emod_self_left, Int.emod_eq_of_lt (by omega) (by omega)]

/-- There is a carry exactly when the total is out of range. -/
theorem carry_iff {r m : Nat} {c t : Int} (hr : r < m)
    (h : (r : Int) + m * c = t) :
    c ≠ 0 ↔ ¬(0 ≤ t ∧ t < m) := by
  rw [not_iff_not.symm, not_not, not_not]
  constructor
  · rintro rfl
    omega
  · rintro ⟨hlo, hhi⟩
    rcases Int.lt_trichotomy c 0 with hc | hc | hc
    · have : (m : Int) * c ≤ m * (-1) :=
        Int.mul_le_mul_of_nonneg_left (by omega) (by omega)
      omega
    · exact hc
    · have : (m : Int) * 1 ≤ m * c :=
        Int.mul_le_mul_of_nonneg_left (by omega) (by omega)
      omega

/-- A carry flag is set exactly when the total is out of range, and what is
beside it is the total modulo the range. -/
theorem total_of_carry {d m : Nat} {s t : Int} {c : Bool}
    (hs : s ≠ 0) (hd : d < m)
    (h : (d : Int) + s * (m * c.toNat) = t) :
    (d : Int) = t % m ∧ (c = true ↔ ¬(0 ≤ t ∧ t < m)) := by
  rw [mul_left_comm] at h
  have hcarry : s * c.toNat ≠ 0 ↔ c = true := by
    cases c <;> simp [hs]
  exact ⟨emod_of_carry hd h, hcarry.symm.trans (carry_iff hd h)⟩

/-- Bounds on a number are bounds on what stands above its low part. -/
theorem between_iff {r m : Nat} (hr : r < m) (d lo hi : Int) :
    (m * lo ≤ r + m * d ∧ (r : Int) + m * d < m * hi) ↔ lo ≤ d ∧ d < hi := by
  have hm : (0 : Int) < m := by omega
  constructor
  · rintro ⟨h₁, h₂⟩
    refine ⟨?_, ?_⟩
    · by_contra hlt
      have : (m : Int) * (d + 1) ≤ m * lo :=
        Int.mul_le_mul_of_nonneg_left (by omega) hm.le
      rw [mul_add] at this
      omega
    · by_contra hge
      have : (m : Int) * hi ≤ m * d :=
        Int.mul_le_mul_of_nonneg_left (by omega) hm.le
      omega
  · rintro ⟨h₁, h₂⟩
    have hlo : (m : Int) * lo ≤ m * d := Int.mul_le_mul_of_nonneg_left h₁ hm.le
    have hhi : (m : Int) * (d + 1) ≤ m * hi :=
      Int.mul_le_mul_of_nonneg_left (by omega) hm.le
    rw [mul_add] at hhi
    omega

/-- A number is negative when what stands above its low part is. -/
theorem neg_iff {r m : Nat} (hr : r < m) (d : Int) :
    (r : Int) + m * d < 0 ↔ d < 0 := by
  have h := between_iff hr d d 0
  constructor
  · intro hlt
    exact (h.1 ⟨by omega, by rwa [mul_zero]⟩).2
  · intro hlt
    have := (h.2 ⟨le_rfl, hlt⟩).2
    rwa [mul_zero] at this

end Remu
