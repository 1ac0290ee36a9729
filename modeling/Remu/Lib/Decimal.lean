/-
Packed decimal bytes and their adjustment.

A byte of two decimal digits is added as a binary number and then adjusted:
the low digit if it passed nine or carried out of its nibble, the high one
if the byte passed ninety-nine or carried out. The adjusters differ in the
threshold for the high digit and in the borrow they report. What comes out
of an exact addition of packed bytes never lies between the thresholds, so
each of them does one position of an exact decimal sum or difference.
-/
import Remu.Lib.Adders
import Remu.Lib.Limbs
import Remu.Lib.Word

namespace Remu

/-- Two decimal digits. -/
def Packed (b : BitVec 8) : Prop := b.toNat % 16 ≤ 9 ∧ b.toNat / 16 ≤ 9

instance (b : BitVec 8) : Decidable (Packed b) :=
  inferInstanceAs (Decidable (_ ∧ _))

/-- The number they stand for. -/
def unpacked (b : BitVec 8) : Nat := b.toNat / 16 * 10 + b.toNat % 16

theorem unpacked_lt {b : BitVec 8} (h : Packed b) : unpacked b < 100 := by
  obtain ⟨hlo, hhi⟩ := h
  unfold unpacked
  omega

theorem unpacked_inj {a b : BitVec 8} (ha : Packed a) (hb : Packed b)
    (h : unpacked a = unpacked b) :
    a = b := by
  apply BitVec.eq_of_toNat_eq
  obtain ⟨halo, hahi⟩ := ha
  obtain ⟨hblo, hbhi⟩ := hb
  unfold unpacked at h
  omega

/-- AL, CF and AF after a step. -/
abbrev Status := BitVec 8 × Bool × Bool

/-- `d` is one position of a decimal sum (`s = 1`) or difference (`s = -1`). -/
structure DecimalStep (s : Int) (a b : BitVec 8) (c : Bool) (d : Status) :
    Prop where
  packed : Packed d.1
  exact : (unpacked d.1 : Int) + s * (100 * d.2.1.toNat)
    = unpacked a + s * (unpacked b + c.toNat)
  /-- The carry out of the low digit. -/
  aux : d.2.2 = true
    ↔ ¬(0 ≤ ((a.toNat % 16 : Nat) : Int) + s * (((b.toNat % 16 : Nat) : Int) + c.toNat)
    ∧ ((a.toNat % 16 : Nat) : Int) + s
      * (((b.toNat % 16 : Nat) : Int) + c.toNat) < 10)

-- ======== the adjusters

/-- AL, CF and AF after a decimal adjustment of a sum, with the largest byte
that leaves the high digit alone. -/
def adjustUp (check al : BitVec 8) (cf af : Bool) : Status :=
  let low := decide (9 < al &&& 0xF) || af
  let high := decide (check < al) || cf
  let al := if low then al + 6 else al
  (if high then al + 0x60 else al, high, low)

/-- The same of a difference; `borrow` is what the low digit reports. -/
def adjustDown (check al : BitVec 8) (borrow cf af : Bool) : Status :=
  let low := decide (9 < al &&& 0xF) || af
  let high := decide (check < al) || cf
  let al := if low then al - 6 else al
  (if high then al - 0x60 else al, high || (low && borrow), low)

/-- The low nibble of a byte against nine. -/
theorem nine_lt_low (al : BitVec 8) :
    (9 < al &&& 0xF) ↔ 9 < al.toNat % 16 := by
  have hlow : (al &&& 0xF).toNat = al.toNat % 16 :=
    Word.toNat_and_mask al 4 (by decide)
  rw [BitVec.lt_def, hlow]
  rfl

theorem toNat_adjustUp (check al : BitVec 8) (cf af : Bool) :
    (adjustUp check al cf af).1.toNat
      = (al.toNat + 6 * (adjustUp check al cf af).2.2.toNat + 96
        * (adjustUp check al cf af).2.1.toNat) % 256 := by
  unfold adjustUp
  dsimp only
  generalize (decide (9 < al &&& 0xF) || af) = low
  generalize (decide (check < al) || cf) = high
  cases low <;> cases high <;> simp
  exact (Nat.mod_eq_of_lt al.isLt).symm

theorem toNat_adjustDown (check al : BitVec 8) (borrow cf af : Bool) :
    ((adjustDown check al borrow cf af).1.toNat + 6 * (adjustDown check al borrow cf af).2.2.toNat
        + 96 * (decide (check < al) || cf).toNat) % 256 = al.toNat := by
  have hal := al.isLt
  unfold adjustDown
  dsimp only
  generalize (decide (9 < al &&& 0xF) || af) = low
  generalize (decide (check < al) || cf) = high
  cases low <;> cases high <;> simp <;> omega

/-- A threshold that an adjuster may use: above ninety-nine the byte always
has a high digit to adjust, and up to 0x9F only after a carry. -/
def Threshold (af : Bool) (check : BitVec 8) : Prop :=
  check = 0x99 ∨ af = true ∧ check = 0x9F

theorem decimal_of_adjustUp {a b al : BitVec 8} {c cf af ovf : Bool}
    (ha : Packed a) (hb : Packed b)
    (h : Limb 1 a b c al cf af ovf) {check : BitVec 8}
    (hcheck : Threshold af check) :
    DecimalStep 1 a b c (adjustUp check al cf af) := by
  obtain ⟨halo, hahi⟩ := ha
  obtain ⟨hblo, hbhi⟩ := hb
  have hc := Bool.toNat_le c
  have hal := al.isLt
  have hsum : al.toNat + 256 * cf.toNat = a.toNat + (b.toNat + c.toNat) := by
    have := h.exact
    omega
  have haux : af = true ↔ 16 ≤ a.toNat % 16 + b.toNat % 16 + c.toNat := by
    rw [h.aux]
    omega
  have hlow : (adjustUp check al cf af).2.2 = true
    ↔ 10 ≤ a.toNat % 16 + b.toNat % 16 + c.toNat := by
    show (decide (9 < al &&& 0xF) || af) = true ↔ _
    rw [Bool.or_eq_true, decide_eq_true_iff, nine_lt_low, haux]
    omega
  have hhigh : (adjustUp check al cf af).2.1 = true
      ↔ 10 ≤ a.toNat / 16 + b.toNat / 16
        + (adjustUp check al cf af).2.2.toNat := by
    generalize (adjustUp check al cf af).2.2 = low at hlow
    show (decide (check < al) || cf) = true ↔ _
    rw [Bool.or_eq_true, decide_eq_true_iff, BitVec.lt_def]
    rcases hcheck with rfl | ⟨haf, rfl⟩
    · cases cf <;> cases low <;> simp at hsum hlow ⊢ <;> omega
    · have := haux.1 haf
      cases cf <;> cases low <;> simp at hsum hlow ⊢ <;> omega
  have hr := toNat_adjustUp check al cf af
  generalize adjustUp check al cf af = d at hr hlow hhigh ⊢
  obtain ⟨r, high, low⟩ := d
  dsimp only at hr hlow hhigh
  refine ⟨?_, ?_, ?_⟩
  · unfold Packed
    cases cf <;> cases low <;> cases high
      <;> simp at hlow hhigh hr hsum ⊢ <;> omega
  · unfold unpacked
    cases cf <;> cases low <;> cases high
      <;> simp at hlow hhigh hr hsum ⊢ <;> omega
  · rw [hlow]
    omega

theorem decimal_of_adjustDown {a b al : BitVec 8} {c cf af ovf : Bool}
    (ha : Packed a) (hb : Packed b)
    (h : Limb (-1) a b c al cf af ovf) {check : BitVec 8}
    (hcheck : Threshold af check) {borrow : Bool}
    (hborrow : borrow = true → cf = true ∨ al.toNat < 6) :
    DecimalStep (-1) a b c (adjustDown check al borrow cf af) := by
  obtain ⟨halo, hahi⟩ := ha
  obtain ⟨hblo, hbhi⟩ := hb
  have hc := Bool.toNat_le c
  have hal := al.isLt
  have hdiff : al.toNat + (b.toNat + c.toNat) = a.toNat + 256 * cf.toNat := by
    have := h.exact
    omega
  have haux : af = true ↔ a.toNat % 16 < b.toNat % 16 + c.toNat := by
    rw [h.aux]
    omega
  have hlow : (adjustDown check al borrow cf af).2.2 = true
    ↔ a.toNat % 16 < b.toNat % 16 + c.toNat := by
    show (decide (9 < al &&& 0xF) || af) = true ↔ _
    rw [Bool.or_eq_true, decide_eq_true_iff, nine_lt_low, haux]
    omega
  have hhigh : (decide (check < al) || cf) = true
      ↔ a.toNat / 16
        < b.toNat / 16 + (adjustDown check al borrow cf af).2.2.toNat := by
    generalize (adjustDown check al borrow cf af).2.2 = low at hlow
    rw [Bool.or_eq_true, decide_eq_true_iff, BitVec.lt_def]
    rcases hcheck with rfl | ⟨haf, rfl⟩
    · cases cf <;> cases low <;> simp at hdiff hlow ⊢ <;> omega
    · have := haux.1 haf
      cases cf <;> cases low <;> simp at hdiff hlow ⊢ <;> omega
  -- A borrow out of the low digit leaves at least six in it.
  have hcf : (adjustDown check al borrow cf af).2.1
    = (decide (check < al) || cf) := by
    have hnone : cf = false → (adjustDown check al borrow cf af).2.2 = true →
      borrow = false := by
      intro hcf hset
      have hlow := hlow.1 hset
      by_contra hb
      rcases hborrow (eq_true_of_ne_false hb) with h | h
      · exact absurd hcf (by rw [h]; decide)
      · rw [hcf, Bool.toNat_false] at hdiff
        omega
    show ((decide (check < al) || cf) || ((adjustDown check al borrow cf af).2.2 && borrow)) = _
    generalize (adjustDown check al borrow cf af).2.2 = low at hnone
    cases cf <;> cases low <;> simp at hnone ⊢
    rw [hnone]
    intro h
    cases h
  have hr := toNat_adjustDown check al borrow cf af
  rw [← hcf] at hr hhigh
  generalize adjustDown check al borrow cf af = d at hr hlow hhigh ⊢
  obtain ⟨r, high, low⟩ := d
  dsimp only at hr hlow hhigh
  have hlt := r.isLt
  refine ⟨?_, ?_, ?_⟩
  · unfold Packed
    cases cf <;> cases low <;> cases high
      <;> simp at hlow hhigh hr hdiff ⊢ <;> omega
  · unfold unpacked
    cases cf <;> cases low <;> cases high
      <;> simp at hlow hhigh hr hdiff ⊢ <;> omega
  · rw [hlow]
    omega

-- ======== chains

/-- A position and the carry into it determine the digit and both carries. -/
theorem DecimalStep.unique {s : Int} {a b : BitVec 8} {c : Bool}
    {d d' : Status} (hs : s = 1 ∨ s = -1)
    (h : DecimalStep s a b c d) (h' : DecimalStep s a b c d') : d = d' := by
  obtain ⟨r, cf, af⟩ := d
  obtain ⟨r', cf', af'⟩ := d'
  have hlt := unpacked_lt h.packed
  have hlt' := unpacked_lt h'.packed
  have hcf : cf = cf' := by
    have he := h.exact
    have he' := h'.exact
    cases cf <;> cases cf' <;> simp at he he' hlt hlt' ⊢
      <;> rcases hs with rfl | rfl <;> omega
  have hr : r = r' := by
    refine unpacked_inj h.packed h'.packed ?_
    have he := h.exact
    have he' := h'.exact
    rw [hcf] at he
    dsimp only at he he' ⊢
    omega
  have haf : af = af' := Bool.eq_iff_iff.2 (h.aux.trans h'.aux.symm)
  rw [hcf, hr, haf]

variable {σ τ : Type}

/-- Steps that do one decimal position each, the first without a carry in. -/
structure DecimalSteps (s : Int) (carry : σ → Bool)
    (first rest : BitVec 8 × BitVec 8 → σ → Status × σ) :
    Prop where
  first : ∀ p x, Packed p.1 → Packed p.2 →
    DecimalStep s p.1 p.2 false (first p x).1
      ∧ carry (first p x).2 = (first p x).1.2.1
  rest : ∀ p x, Packed p.1 → Packed p.2 →
    DecimalStep s p.1 p.2 (carry x) (rest p x).1
      ∧ carry (rest p x).2 = (rest p x).1.2.1

/-- The number of a list of packed bytes, lowest first. -/
def packedValue (l : List (BitVec 8)) : Nat :=
  Nat.ofDigits 100 (l.map unpacked)

/-- What a chain on the positions `l` leaves: packed digits, those of the
sum or difference, and the decimal carry. -/
structure DecimalLaw (s : Int) (l : List (BitVec 8 × BitVec 8))
    (digits : List (BitVec 8)) (cf : Bool) :
    Prop where
  length : digits.length = l.length
  packed : ∀ d ∈ digits, Packed d
  number : (packedValue digits : Int)
    = (packedValue (l.map Prod.fst) + s * packedValue (l.map Prod.snd))
      % 100 ^ l.length
  carry : cf = true ↔
    ¬(0 ≤ (packedValue (l.map Prod.fst) : Int) + s * packedValue
      (l.map Prod.snd)
      ∧ (packedValue (l.map Prod.fst) : Int) + s * packedValue (l.map Prod.snd)
        < 100 ^ l.length)

namespace DecimalSteps

variable {s : Int} {carry : σ → Bool}
  {first rest : BitVec 8 × BitVec 8 → σ → Status × σ}

/-- The two numbers, the digits and the carry of a chain. -/
def column (s : Int) (carry : σ → Bool) :
    Column (BitVec 8 × BitVec 8) Status σ where
  base := 100
  sign := s
  lhs p := unpacked p.1
  rhs p := unpacked p.2
  digit d := unpacked d.1
  carry x := (carry x).toNat

theorem law (h : DecimalSteps s carry first rest) (hs : s ≠ 0)
    {l : List (BitVec 8 × BitVec 8)}
    (hne : l ≠ []) (hl : ∀ p ∈ l, Packed p.1 ∧ Packed p.2) (x : σ) :
    DecimalLaw s l ((chain first rest l x).1.map Prod.fst)
      (carry (chain first rest l x).2) := by
  have hexact := Column.chain_exact (C := column s carry)
    (fun p y hp => by
      obtain ⟨hstep, hcarry⟩ := h.first p y hp.1 hp.2
      have := hstep.exact
      rw [← hcarry] at this
      exact_mod_cast this)
    (fun p y hp => by
      obtain ⟨hstep, hcarry⟩ := h.rest p y hp.1 hp.2
      have := hstep.exact
      rw [← hcarry] at this
      exact_mod_cast this) hne hl x
  have hpacked := forall_chain (Q := fun d : Status => Packed d.1)
    (fun p y hp => (h.first p y hp.1 hp.2).1.packed)
      (fun p y hp => (h.rest p y hp.1 hp.2).1.packed) hl x
  have hnumber : packedValue ((chain first rest l x).1.map Prod.fst)
      = (column s carry).number (column s carry).digit
        (chain first rest l x).1 := by
    rw [packedValue, List.map_map]
    rfl
  have hlhs : packedValue (l.map Prod.fst)
    = (column s carry).number (column s carry).lhs l := by
    rw [packedValue, List.map_map]
    rfl
  have hrhs : packedValue (l.map Prod.snd)
    = (column s carry).number (column s carry).rhs l := by
    rw [packedValue, List.map_map]
    rfl
  have hlen : ((chain first rest l x).1.map Prod.fst).length = l.length := by
    rw [List.length_map, length_chain]
  have hlt : packedValue ((chain first rest l x).1.map Prod.fst)
    < 100 ^ l.length := by
    rw [hnumber, ← length_chain first rest l x]
    exact Column.number_lt (show 1 < 100 by decide) fun d hd =>
      unpacked_lt (hpacked d hd)
  have hwhole : (packedValue ((chain first rest l x).1.map Prod.fst) : Int)
        + s * ((100 ^ l.length : Nat) * (carry (chain first rest l x).2).toNat)
      = packedValue (l.map Prod.fst) + s * packedValue (l.map Prod.snd) := by
    rw [hnumber, hlhs, hrhs]
    push_cast
    exact hexact
  obtain ⟨htotal, hcarry⟩ := total_of_carry hs hlt hwhole
  push_cast at htotal hcarry
  refine ⟨hlen, ?_, htotal, hcarry⟩
  intro d hd
  obtain ⟨e, he, rfl⟩ := List.mem_map.1 hd
  exact hpacked e he

/-- Two chains of such steps go through the same statuses. -/
theorem agree (hs : s = 1 ∨ s = -1) (h : DecimalSteps s carry first rest)
    {carry' : τ → Bool}
    {first' rest' : BitVec 8 × BitVec 8 → τ → Status × τ}
    (h' : DecimalSteps s carry' first' rest')
    {l : List (BitVec 8 × BitVec 8)} (hl : ∀ p ∈ l, Packed p.1 ∧ Packed p.2)
    (x : σ) (y : τ) :
    (chain first rest l x).1 = (chain first' rest' l y).1 := by
  have hsame : ∀ {p : BitVec 8 × BitVec 8} {c : Bool} {out : Status × σ}
      {out' : Status × τ},
      DecimalStep s p.1 p.2 c out.1 ∧ carry out.2 = out.1.2.1 →
      DecimalStep s p.1 p.2 c out'.1 ∧ carry' out'.2 = out'.1.2.1 →
      out.1 = out'.1 ∧ carry out.2 = carry' out'.2 := by
    rintro p c out out' ⟨hstep, hc⟩ ⟨hstep', hc'⟩
    have hstatus := DecimalStep.unique hs hstep hstep'
    refine ⟨hstatus, ?_⟩
    rw [hc, hc']
    exact congrArg (fun d => d.2.1) hstatus
  refine chain_agree (R := fun x y => carry x = carry' y) ?_ ?_ hl x y
  · intro p x y hp
    exact hsame (h.first p x hp.1 hp.2) (h'.first p y hp.1 hp.2)
  · intro p x y hp hxy
    have hstep := h.rest p x hp.1 hp.2
    rw [hxy] at hstep
    exact hsame hstep (h'.rest p y hp.1 hp.2)

end DecimalSteps

end Remu
