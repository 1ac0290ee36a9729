/-
The 8086's microcoded division against the division law.

CORD rotates the dividend left through the carry and takes the divisor off
where it goes in. The carry it rotates in is the borrow of the trial
subtraction, so the quotient arrives complemented, above the one bit that
was in the carry at the start; the last rotation pushes that bit out. The
invariant (`UnderWay`) reads the low half and the carry together as one
number of `w + 1` bits: the rest of the dividend, with the complement of
the quotient so far below it.

The signed entry works on magnitudes. The quotient's top bit is tested
before its sign is put back, so -2^(w-1) is refused.
-/
import Remu.Lib.Quotient
import Remu.Lib.Restoring
import Remu.X86.Cpu

namespace Remu.X86

namespace Div

variable {w : Nat}

-- ======== the microcode

/-- `a - b`: result, borrow, overflow and auxiliary carry. -/
def subFl (a b : BitVec w) : BitVec w × Bool × Bool × Bool :=
  let r := a - b
  (r, decide (a < b), Alu.subOverflow a b r, Alu.auxCarry a b r)

/-- Negation, with the carry of `0 - v`. -/
def negV (v : BitVec w) : BitVec w × Bool := (0 - v, v != 0)

/-- One bit left through the carry. -/
def rclV (v : BitVec w) (carry : Bool) : BitVec w × Bool :=
  ((v <<< 1) ||| carryWord w carry, v.msb)

/-- The flags of a trial subtraction. -/
def trial (f : Flags) (t : BitVec w × Bool × Bool × Bool) : Flags :=
  (((f.set Flags.AF t.2.2.2).set Flags.OF t.2.2.1).set Flags.CF t.2.1).setSzp t.1

/-- The registers of the loop. -/
structure Cord (w : Nat) where
  tmpa : BitVec w
  tmpc : BitVec w
  carry : Bool
  flags : Flags

/-- One bit of the quotient. -/
def Cord.turn (tmpb : BitVec w) (s : Cord w) : Cord w :=
  let (tmpc, carry) := rclV s.tmpc s.carry
  let (tmpa, carry) := rclV s.tmpa carry
  if carry then { s with tmpa := tmpa - tmpb, tmpc, carry := false }
  else
    let t := subFl tmpa tmpb
    { tmpa := if t.2.1 then tmpa else t.1, tmpc, carry := t.2.1, flags := trial s.flags t }

/-- The unsigned core: the complemented quotient, the remainder and the
quotient's range check, or a divide fault. -/
def cord (f : Flags) (tmpa tmpb tmpc : BitVec w) :
    Option (BitVec w × BitVec w × Bool) × Flags :=
  let t := subFl tmpa tmpb
  let f := trial f t
  if !t.2.1 then (none, f)
  else
    let s := (Cord.turn tmpb)^[w] ⟨tmpa, tmpc, t.2.1, f⟩
    let (tmpc, carry) := rclV s.tmpc s.carry
    let (_, carry) := rclV tmpc carry
    (some (tmpc, s.tmpa, carry), s.flags.set Flags.CF carry)

/-- Make the dividend positive, unless `skip`, and the divisor. -/
def negate (f : Flags) (tmpa tmpb tmpc : BitVec w) (neg skip : Bool) :
    (BitVec w × BitVec w × BitVec w × Bool) × Flags :=
  let (tmpa, tmpc, neg) :=
    if !skip then
      let (c, cy) := negV tmpc
      (if cy then ~~~tmpa else (negV tmpa).1, c, !neg)
    else (tmpa, tmpc, neg)
  let carry := tmpb.msb
  let (tmpb, neg) := if carry then ((negV tmpb).1, !neg) else (tmpb, neg)
  ((tmpa, tmpb, tmpc, neg), f.set Flags.CF carry)

def prediv (f : Flags) (tmpa tmpb tmpc : BitVec w) (neg : Bool) :
    (BitVec w × BitVec w × BitVec w × Bool) × Flags :=
  let negative := tmpa.msb
  negate f tmpa tmpb tmpc neg (!negative)

/-- Signed fix-up: the remainder and the quotient. `tmpb` is the upper half
of the dividend as it was. -/
def postdiv (f : Flags) (tmpa tmpb tmpc : BitVec w) (carry neg : Bool) :
    Option (BitVec w × BitVec w) × Flags :=
  if !carry then (none, f)
  else
    let tmpa := if tmpb.msb then (negV tmpa).1 else tmpa
    let sigma := if neg then tmpc + 1 else ~~~tmpc
    (some (tmpa, sigma), f.remove (Flags.CF ||| Flags.OF))

/-- DIV and IDIV: the remainder and the quotient, or a divide fault. -/
def divide (f : Flags) (rep : Bool) (hi lo divisor : BitVec w) (sgn : Bool) :
    Option (BitVec w × BitVec w) × Flags :=
  let neg := sgn && rep
  let ((tmpa, tmpb, tmpc, neg), f) :=
    if sgn then prediv f hi divisor lo neg else ((hi, divisor, lo, neg), f)
  match cord f tmpa tmpb tmpc with
  | (none, f) => (none, f)
  | (some (c, a, carry), f) =>
    if sgn then postdiv f a hi c carry neg else (some (a, ~~~c), f)

end Div

namespace Cpu

/-- AX by a byte: the quotient into AL, the remainder into AH; `false` on a
divide fault. -/
def div8 (cpu : Cpu) (divisor : U8) (sgn : Bool) : Bool × Cpu :=
  let dividend := cpu.regs.ax
  match Div.divide cpu.regs.flags cpu.rep.isSome ((dividend >>> 8).setWidth 8)
      (dividend.setWidth 8)
      divisor sgn with
  | (none, f) => (false, cpu.setFlags f)
  | (some (rem, quot), f) =>
    (true, { cpu with regs := { cpu.regs with
      ax := (rem.setWidth 16 <<< 8) ||| quot.setWidth 16, flags := f } })

/-- DX:AX by a word: the quotient into AX, the remainder into DX. -/
def div16 (cpu : Cpu) (divisor : U16) (sgn : Bool) : Bool × Cpu :=
  match Div.divide cpu.regs.flags cpu.rep.isSome cpu.regs.dx
    cpu.regs.ax divisor sgn with
  | (none, f) => (false, cpu.setFlags f)
  | (some (rem, quot), f) =>
    (true, { cpu with regs := { cpu.regs with ax := quot, dx := rem, flags := f } })

/-- AL by `base`, through the same core: the quotient into AH, the remainder
into AL. -/
def aam (cpu : Cpu) (base : U8) : Bool × Cpu :=
  match Div.cord cpu.regs.flags 0 base (cpu.regs.ax.setWidth 8) with
  | (some (quotient, remainder, _), f) =>
    (true, { cpu with regs := { cpu.regs with
      ax := ((~~~quotient).setWidth 16 <<< 8) ||| remainder.setWidth 16
      flags := (f.setSzp remainder).remove (Flags.CF ||| Flags.AF ||| Flags.OF) } })
  | (none, f) =>
    (false, cpu.setFlags
      ((f.setSzp (0 : U8)).remove (Flags.CF ||| Flags.AF ||| Flags.OF)))

end Cpu

-- ======== the loop

namespace Div

/-- A rotation through the carry doubles. -/
theorem toNat_rclV (hw : 0 < w) (v : BitVec w) (c : Bool) :
    (rclV v c).1.toNat + 2 ^ w * (rclV v c).2.toNat
      = 2 * v.toNat + c.toNat := by
  have hlt := v.isLt
  have hhalf : 2 ^ w = 2 * 2 ^ (w - 1) := by
    rw [← Nat.pow_succ']
    congr 1
    omega
  have hlow : (rclV v c).1.toNat = 2 * v.toNat % 2 ^ w + c.toNat := by
    have heven : 2 * v.toNat % 2 ^ w = 2 ^ 1 * (v.toNat % 2 ^ (w - 1)) := by
      rw [hhalf, Nat.mul_mod_mul_left, Nat.pow_one]
    rw [rclV, BitVec.toNat_or, toNat_carryWord hw, BitVec.toNat_shiftLeft,
      Nat.shiftLeft_eq, Nat.mul_comm, Nat.pow_one, heven,
      ← Nat.two_pow_add_eq_or_of_lt (Bool.toNat_lt _)]
  have hmsb : v.msb = decide (2 ^ (w - 1) ≤ v.toNat) := BitVec.msb_eq_decide v
  rw [hlow, rclV, hmsb]
  by_cases hbig : 2 ^ (w - 1) ≤ v.toNat
  · have hmod : 2 * v.toNat % 2 ^ w = 2 * v.toNat - 2 ^ w := by
      rw [Nat.mod_eq_sub_mod (by omega), Nat.mod_eq_of_lt (by omega)]
    rw [hmod, decide_eq_true hbig, Bool.toNat_true]
    omega
  · rw [Nat.mod_eq_of_lt (by omega), decide_eq_false hbig, Bool.toNat_false]
    omega

/-- A division under way: `i` bits done and `k` to come. The leading bits
`n` are divided, and the low half with the carry below it holds the rest of
the dividend above the complement of the quotient. -/
structure UnderWay (N : Nat) (b : BitVec w) (i k : Nat) (s : Cord w)
    (n q rest : Nat) : Prop where
  bits : i + k = w
  part : Partial b.toNat n q s.tmpa.toNat
  split : N = 2 ^ k * n + rest
  rest_lt : rest < 2 ^ k
  quot_lt : q < 2 ^ i
  word : 2 * s.tmpc.toNat + s.carry.toNat + q + 1 = 2 ^ (i + 1) * (rest + 1)

/-- What one turn does to the registers, with the bit `t` of the dividend
coming down. -/
theorem Cord.turn_spec (hw : 0 < w) {b : BitVec w} {s : Cord w}
    (ha : s.tmpa.toNat < b.toNat) :
    ∃ t : Bool, (s.turn b).tmpc.toNat + 2 ^ w * t.toNat
      = 2 * s.tmpc.toNat + s.carry.toNat
      ∧ (s.turn b).tmpa.toNat + b.toNat * (!(s.turn b).carry).toNat
        = 2 * s.tmpa.toNat + t.toNat
      ∧ ((s.turn b).carry = true ↔ 2 * s.tmpa.toNat + t.toNat < b.toNat) := by
  have hb := b.isLt
  have hclaw := toNat_rclV hw s.tmpc s.carry
  rcases hc : rclV s.tmpc s.carry with ⟨tmpc, t⟩
  have halaw := toNat_rclV hw s.tmpa t
  have ht := Bool.toNat_le t
  rcases hr : rclV s.tmpa t with ⟨a, top⟩
  have hlt := a.isLt
  rw [hc] at hclaw
  rw [hr] at halaw
  refine ⟨t, ?_⟩
  cases top with
  | true =>
    -- the doubled remainder does not fit the register: the divisor goes in,
    -- and the wrapping subtraction makes up for the lost bit
    simp only [Bool.toNat_true, Nat.mul_one] at halaw
    have hsub : (a - b).toNat = a.toNat + 2 ^ w - b.toNat := by
      rw [BitVec.toNat_sub, Nat.add_comm, ← Nat.add_sub_assoc hb.le,
        Nat.mod_eq_of_lt (by omega)]
    simp only [Cord.turn, hc, hr, if_true, hsub, Bool.not_false,
      Bool.toNat_true, Bool.false_eq_true, false_iff]
    refine ⟨hclaw, ?_, ?_⟩ <;> omega
  | false =>
    simp only [Bool.toNat_false, Nat.mul_zero, Nat.add_zero] at halaw
    have hin : a < b ↔ 2 * s.tmpa.toNat + t.toNat < b.toNat := by
      rw [BitVec.lt_def, halaw]
    simp only [Cord.turn, hc, hr, Bool.false_eq_true, if_false, subFl,
      decide_eq_true_eq]
    refine ⟨hclaw, ?_, hin⟩
    by_cases hlow : a < b
    · rw [if_pos hlow, decide_eq_true hlow]
      exact halaw
    · have hle : b ≤ a := BitVec.not_lt.1 hlow
      have hle' := BitVec.le_def.1 hle
      rw [if_neg hlow, decide_eq_false hlow, BitVec.toNat_sub_of_le hle]
      simp only [Bool.not_false, Bool.toNat_true]
      omega

/-- The bit rotated out is the top bit of the rest. -/
theorem top_bit {P K c q rest : Nat} {t : Bool} (hq : q < P) (hc : c < P * K)
    (hrest : rest < 2 * K) (h : c + P * K * t.toNat + q + 1 = P * (rest + 1)) :
    K * t.toNat ≤ rest ∧ rest < K * t.toNat + K := by
  cases t with
  | true =>
    simp only [Bool.toNat_true, Nat.mul_one] at h ⊢
    refine ⟨?_, by omega⟩
    by_contra hlt
    have hle : P * (rest + 1) ≤ P * K := Nat.mul_le_mul_left _ (by omega)
    omega
  | false =>
    simp only [Bool.toNat_false, Nat.mul_zero, Nat.add_zero, Nat.zero_add] at h ⊢
    refine ⟨Nat.zero_le _, ?_⟩
    by_contra hge
    have hle : P * (K + 1) ≤ P * (rest + 1) := Nat.mul_le_mul_left _ (by omega)
    rw [Nat.mul_succ] at hle
    omega

/-- One turn brings one bit down. -/
theorem UnderWay.turn {N : Nat} {b : BitVec w} {i k : Nat}
    {s : Cord w} {n q rest : Nat} (h : UnderWay N b i (k + 1) s n q rest) :
    ∃ n' q' rest', UnderWay N b (i + 1) k (s.turn b) n' q' rest' := by
  obtain ⟨hbits, hpart, hsplit, hrest, hquot, hword⟩ := h
  have hw : 0 < w := by omega
  obtain ⟨t, hc, ha, hcarry⟩ := Cord.turn_spec hw (b := b) hpart.short
  have hpow : 2 ^ w = 2 ^ (i + 1) * 2 ^ k := by
    rw [← Nat.pow_add]
    congr 1
    omega
  have hk : 2 ^ (k + 1) = 2 * 2 ^ k := Nat.pow_succ'
  have hi : 2 ^ (i + 1) = 2 * 2 ^ i := Nat.pow_succ'
  have hi' : 2 ^ (i + 1 + 1) = 2 * 2 ^ (i + 1) := Nat.pow_succ'
  have hclt := (s.turn b).tmpc.isLt
  rw [hpow] at hc hclt
  rw [hk] at hrest hsplit
  obtain ⟨hle, hlt⟩ :=
    top_bit (q := q) (by omega) hclt hrest (t := t) (by omega)
  -- what is left of the rest once its top bit is down
  obtain ⟨rest', rfl⟩ := Nat.exists_eq_add_of_le hle
  have hsplit' : N = 2 ^ k * (2 * n + t.toNat) + rest' := by
    rw [hsplit]
    ring
  have hword' : 2 * (s.turn b).tmpc.toNat + (2 * q + 2)
    = 2 ^ (i + 1 + 1) * (rest' + 1) := by
    have h2 : 2 * (2 ^ (i + 1) * (2 ^ k * t.toNat + rest' + 1))
        = 2 ^ (i + 1 + 1) * (rest' + 1) + 2
          * (2 ^ (i + 1) * 2 ^ k * t.toNat) := by
      rw [hi']
      ring
    omega
  by_cases hin : (s.turn b).carry = true
  · have hstays := hcarry.1 hin
    rw [hin] at ha
    simp only [Bool.not_true, Bool.toNat_false, Nat.mul_zero,
      Nat.add_zero] at ha
    refine ⟨2 * n + t.toNat, 2 * q, rest', by omega, ?_,
      hsplit', by omega, by omega, ?_⟩
    · rw [ha]
      exact hpart.stays_out hstays
    · rw [hin, Bool.toNat_true]
      omega
  · have hgoes := Nat.not_lt.1 (mt hcarry.2 hin)
    rw [Bool.not_eq_true] at hin
    rw [hin] at ha
    simp only [Bool.not_false, Bool.toNat_true, Nat.mul_one] at ha
    have hrem : (s.turn b).tmpa.toNat
      = 2 * s.tmpa.toNat + t.toNat - b.toNat := by omega
    refine ⟨2 * n + t.toNat, 2 * q + 1, rest', by omega, ?_,
      hsplit', by omega, by omega, ?_⟩
    · rw [hrem]
      exact hpart.goes_in (Bool.toNat_le t) hgoes
    · rw [hin, Bool.toNat_false]
      omega

/-- The state after all the turns to come. -/
theorem UnderWay.turns {N : Nat} {b : BitVec w} {i k : Nat}
    {s : Cord w} {n q rest : Nat} (h : UnderWay N b i k s n q rest) :
    ∃ n' q' rest', UnderWay N b w 0 ((Cord.turn b)^[k] s) n' q' rest' := by
  induction k generalizing i s n q rest with
  | zero =>
    have hi : i = w := h.bits
    exact ⟨n, q, rest, hi ▸ h⟩
  | succ k ih =>
    obtain ⟨n', q', rest', h'⟩ := h.turn
    exact ih h'

/-- The loop starts with the whole lower half to come and a carry that
belongs to no quotient bit. -/
theorem underWay_start (f : Flags) {a b : BitVec w}
    (c : BitVec w) (hlt : a < b) :
    UnderWay (2 ^ w * a.toNat + c.toNat) b 0 w ⟨a, c, true, f⟩
      a.toNat 0 c.toNat where
  bits := Nat.zero_add w
  part := ⟨by rw [Nat.zero_mul, Nat.zero_add], hlt⟩
  split := rfl
  rest_lt := c.isLt
  quot_lt := Nat.one_pos
  word := by
    simp only [Bool.toNat_true, Nat.zero_add, Nat.pow_one]
    omega

/-- What the loop leaves: the remainder, and the complement of the quotient
in the low half and the carry. -/
theorem UnderWay.done {N : Nat} {b : BitVec w} {s : Cord w} {n q rest : Nat}
    (h : UnderWay N b w 0 s n q rest) :
    s.tmpa.toNat = N % b.toNat ∧ N / b.toNat < 2 ^ w
      ∧ 2 * s.tmpc.toNat + s.carry.toNat + N / b.toNat + 1 = 2 ^ (w + 1) := by
  obtain ⟨-, hpart, hsplit, hrest, hquot, hword⟩ := h
  have hzero : rest = 0 := by simpa using hrest
  subst hzero
  have hn : N = n := by simpa using hsplit
  subst hn
  obtain ⟨hq, hr⟩ := hpart.eq_div_mod
  rw [← hq]
  refine ⟨hr, hquot, ?_⟩
  rw [hword, Nat.zero_add, Nat.mul_one]

/-- The core faults when the divisor does not exceed the upper half, and
else divides; its carry says whether the quotient's top bit is clear. -/
theorem cord_spec (hw : 0 < w) (f : Flags) (a b c : BitVec w) :
    ((cord f a b c).1 = none ↔ b ≤ a)
      ∧ ∀ tmpc tmpa carry, (cord f a b c).1 = some (tmpc, tmpa, carry) →
        (~~~tmpc).toNat = (2 ^ w * a.toNat + c.toNat) / b.toNat
          ∧ tmpa.toNat = (2 ^ w * a.toNat + c.toNat) % b.toNat
          ∧ (carry = true
            ↔ (2 ^ w * a.toNat + c.toNat) / b.toNat < 2 ^ (w - 1)) := by
  by_cases hlt : a < b
  · obtain ⟨n, q, rest, hdone⟩ :=
      (underWay_start (trial f (subFl a b)) c hlt).turns
    obtain ⟨hrem, hquot, hword⟩ := hdone.done
    have hcord : (cord f a b c).1
        = some ((rclV ((Cord.turn b)^[w] ⟨a, c, true, trial f (subFl a b)⟩).tmpc
              ((Cord.turn b)^[w] ⟨a, c, true, trial f (subFl a b)⟩).carry).1,
            ((Cord.turn b)^[w] ⟨a, c, true, trial f (subFl a b)⟩).tmpa,
            (rclV ((Cord.turn b)^[w] ⟨a, c, true, trial f (subFl a b)⟩).tmpc
              ((Cord.turn b)^[w]
                ⟨a, c, true, trial f (subFl a b)⟩).carry).1.msb) := by
      have hborrow : (subFl a b).2.1 = true := decide_eq_true hlt
      simp only [cord, hborrow, Bool.not_true, Bool.false_eq_true, if_false]
      rfl
    generalize (Cord.turn b)^[w] ⟨a, c, true, trial f (subFl a b)⟩
      = s at hcord hrem hword
    rw [hcord]
    refine ⟨iff_of_false (Option.some_ne_none _) (BitVec.not_le.2 hlt), ?_⟩
    rintro tmpc tmpa carry ⟨⟩
    have hlaw := toNat_rclV hw s.tmpc s.carry
    have hclt := (rclV s.tmpc s.carry).1.isLt
    have hbit := Bool.toNat_le (rclV s.tmpc s.carry).2
    have hpow : 2 ^ (w + 1) = 2 * 2 ^ w := Nat.pow_succ'
    have hhalf : 2 ^ w = 2 * 2 ^ (w - 1) := by
      rw [← Nat.pow_succ']
      congr 1
      omega
    -- the last rotation pushes out the carry the loop started with
    have hone : (rclV s.tmpc s.carry).2 = true := by
      cases hz : (rclV s.tmpc s.carry).2 with
      | true => rfl
      | false =>
        rw [hz, Bool.toNat_false, Nat.mul_zero] at hlaw
        omega
    rw [hone, Bool.toNat_true, Nat.mul_one] at hlaw
    have hcompl : (rclV s.tmpc s.carry).1.toNat
        = 2 ^ w - 1 - (2 ^ w * a.toNat + c.toNat) / b.toNat := by omega
    refine ⟨?_, hrem, ?_⟩
    · rw [BitVec.toNat_not, hcompl]
      omega
    · rw [BitVec.msb_eq_decide, decide_eq_true_eq, hcompl]
      omega
  · have hborrow : (subFl a b).2.1 = false := decide_eq_false hlt
    have hcord : (cord f a b c).1 = none := by
      simp only [cord, hborrow, Bool.not_false, if_true]
    rw [hcord]
    refine ⟨iff_of_true rfl (BitVec.not_lt.1 hlt), ?_⟩
    intro tmpc tmpa carry h
    exact absurd h.symm (Option.some_ne_none _)

-- ======== the signs

theorem toNat_append (hi lo : BitVec w) :
    (hi ++ lo).toNat = 2 ^ w * hi.toNat + lo.toNat := by
  rw [BitVec.toNat_append, ← Nat.shiftLeft_add_eq_or_of_lt lo.isLt,
    Nat.shiftLeft_eq, Nat.mul_comm]

theorem negV_fst (v : BitVec w) : (negV v).1 = -v := BitVec.zero_sub v

/-- The double-width negation, as NEGATE does it by halves. -/
theorem neg_append {hi : BitVec w} (hhi : hi.toNat ≠ 0) (lo : BitVec w) :
    (if (negV lo).2 then ~~~hi else (negV hi).1) ++ (negV lo).1
      = -(hi ++ lo) := by
  have hh := hi.isLt
  have hl := lo.isLt
  have hdouble : 2 ^ (w + w) = 2 ^ w * 2 ^ w := Nat.pow_add 2 w w
  have hfit : 2 ^ w * hi.toNat + lo.toNat < 2 ^ (w + w) := by
    rw [← toNat_append]
    exact (hi ++ lo).isLt
  refine BitVec.eq_of_toNat_eq ?_
  rw [toNat_append, BitVec.toNat_neg, toNat_append,
    Nat.mod_eq_of_lt (Nat.sub_lt (by omega) ?_)]
  · have hsplit :
      2 ^ w * (2 ^ w - hi.toNat) = 2 ^ (w + w) - 2 ^ w * hi.toNat := by
      rw [hdouble, Nat.mul_sub]
    by_cases hzero : lo = 0
    · subst hzero
      simp [negV, hsplit,
        Nat.mod_eq_of_lt (show 2 ^ w - hi.toNat < 2 ^ w by omega)]
    · have hne : lo.toNat ≠ 0 :=
        fun h => hzero (BitVec.eq_of_toNat_eq (by simpa using h))
      have hcarry : (negV lo).2 = true := by simpa [negV] using hzero
      have hlow : (negV lo).1.toNat = 2 ^ w - lo.toNat := by
        rw [negV_fst, BitVec.toNat_neg, Nat.mod_eq_of_lt (by omega)]
      have hone : 2 ^ w * (2 ^ w - hi.toNat)
        = 2 ^ w * (2 ^ w - 1 - hi.toNat) + 2 ^ w := by
        rw [← Nat.mul_succ]
        congr 1
        omega
      rw [if_pos hcarry, BitVec.toNat_not, hlow]
      omega
  · have hpos : 0 < 2 ^ w * hi.toNat :=
      Nat.mul_pos (Nat.two_pow_pos w) (Nat.pos_of_ne_zero hhi)
    omega

/-- PREIDIV leaves the magnitudes and the sign of the quotient. -/
theorem prediv_spec (hw : 0 < w) (f : Flags)
    (hi d lo : BitVec w) (neg : Bool) :
    ∃ a c, (prediv f hi d lo neg).1 = (a, d.abs, c, (neg ^^ hi.msb) ^^ d.msb)
      ∧ a ++ c = (hi ++ lo).abs := by
  have hmsb : (hi ++ lo).msb = hi.msb := by
    rw [BitVec.msb_append]
    simp [show w ≠ 0 by omega]
  have hdiv : d.abs = if d.msb then (negV d).1 else d := by
    rw [negV_fst]
    rfl
  rw [BitVec.abs_eq (hi ++ lo), hmsb, hdiv]
  cases hneg : hi.msb with
  | true =>
    have hne : hi.toNat ≠ 0 := by
      intro h
      rw [BitVec.msb_eq_decide, h, decide_eq_true_eq] at hneg
      exact absurd hneg (Nat.not_le.2 (Nat.two_pow_pos _))
    refine ⟨_, _, ?_, neg_append hne lo⟩
    cases hd : d.msb <;> cases neg <;> simp [prediv, negate, hneg, hd]
  | false =>
    refine ⟨hi, lo, ?_, rfl⟩
    cases hd : d.msb <;> cases neg <;> simp [prediv, negate, hneg, hd]

-- ======== the laws

/-- The divisor does not exceed the upper half exactly when no word holds
the quotient. -/
theorem gate_iff (hi lo d : BitVec w) :
    d ≤ hi ↔ d = 0 ∨ 2 ^ w ≤ (2 ^ w * hi.toNat + lo.toNat) / d.toNat := by
  have hl := lo.isLt
  by_cases hzero : d = 0
  · subst hzero
    exact iff_of_true (BitVec.le_def.2 (by simp)) (.inl rfl)
  · have hpos : 0 < d.toNat :=
      Nat.pos_of_ne_zero fun h =>
        hzero (BitVec.eq_of_toNat_eq (by simpa using h))
    rw [Nat.le_div_iff_mul_le hpos, or_iff_right hzero, BitVec.le_def]
    constructor
    · intro hle
      exact Nat.le_add_right_of_le (Nat.mul_le_mul_left _ hle)
    · intro hle
      by_contra hlt
      have hnext : 2 ^ w * (hi.toNat + 1) ≤ 2 ^ w * d.toNat :=
        Nat.mul_le_mul_left _ (by omega)
      rw [Nat.mul_succ] at hnext
      omega

theorem divide_unsigned (hw : 0 < w) (f : Flags) (rep : Bool)
    (hi lo d : BitVec w) :
    ((divide f rep hi lo d false).1 = none ↔ d = 0
      ∨ 2 ^ w ≤ (hi ++ lo).toNat / d.toNat)
      ∧ ∀ r q, (divide f rep hi lo d false).1 = some (r, q) →
        q.toNat = (hi ++ lo).toNat / d.toNat
          ∧ r.toNat = (hi ++ lo).toNat % d.toNat := by
  obtain ⟨hfault, hsome⟩ := cord_spec hw f hi d lo
  rw [toNat_append, ← gate_iff, ← hfault]
  rcases hc : cord f hi d lo with ⟨_ | ⟨tmpc, a, carry⟩, f'⟩
  · have hnone :
      divide f rep hi lo d false = (none, f') := by simp [divide, hc]
    rw [hnone]
    refine ⟨iff_of_true rfl rfl, ?_⟩
    intro r q h
    exact absurd h.symm (Option.some_ne_none _)
  · have hdone : divide f rep hi lo d false = (some (a, ~~~tmpc), f') := by
      simp [divide, hc]
    rw [hdone]
    refine ⟨iff_of_false (Option.some_ne_none _) (Option.some_ne_none _), ?_⟩
    rintro r q ⟨⟩
    obtain ⟨hq, hr, -⟩ := hsome tmpc a carry (by rw [hc])
    exact ⟨hq, hr⟩

/-- The quotient of the magnitudes, and of the integers. -/
theorem natAbs_tdiv_toInt (x : BitVec (w + w)) (d : BitVec w) :
    (x.toInt.tdiv d.toInt).natAbs = x.abs.toNat / d.abs.toNat := by
  rw [toInt_eq_signed x, toInt_eq_signed d, tdiv_signed, natAbs_signed]

theorem abs_eq_zero_iff {d : BitVec w} : d.abs = 0 ↔ d = 0 := by
  rw [BitVec.abs_eq]
  split
  · exact BitVec.neg_eq_zero_iff
  · rfl

theorem divide_signed (hw : 0 < w) (f : Flags) (rep : Bool)
    (hi lo d : BitVec w) :
    ((divide f rep hi lo d true).1 = none
        ↔ d = 0 ∨ 2 ^ (w - 1) - 1 < ((hi ++ lo).toInt.tdiv d.toInt).natAbs)
      ∧ ∀ r q, (divide f rep hi lo d true).1 = some (r, q) →
        q.toInt = (if rep then -(hi ++ lo).toInt.tdiv d.toInt else (hi ++ lo).toInt.tdiv d.toInt)
          ∧ r.toInt = (hi ++ lo).toInt.tmod d.toInt := by
  obtain ⟨a, c, hpre, habs⟩ := prediv_spec hw f hi d lo rep
  rcases hp : prediv f hi d lo rep with ⟨p, f₁⟩
  obtain rfl : p = (a, d.abs, c, (rep ^^ hi.msb) ^^ d.msb) := by
    rw [hp] at hpre; exact hpre
  obtain ⟨hfault, hsome⟩ := cord_spec hw f₁ a d.abs c
  rw [gate_iff a c, ← toNat_append, habs, abs_eq_zero_iff] at hfault
  simp only [← toNat_append, habs] at hsome
  have hmsb : (hi ++ lo).msb = hi.msb := by
    rw [BitVec.msb_append]
    simp [show w ≠ 0 by omega]
  have hpos : 0 < 2 ^ (w - 1) := Nat.two_pow_pos _
  have hhalf : 2 ^ w = 2 * 2 ^ (w - 1) := by
    rw [← Nat.pow_succ']
    congr 1
    omega
  rw [natAbs_tdiv_toInt]
  rcases hc : cord f₁ a d.abs c with ⟨_ | ⟨tmpc, tmpa, carry⟩, f₂⟩
  · have hnone :
      divide f rep hi lo d true = (none, f₂) := by simp [divide, hp, hc]
    rw [hc] at hfault
    rw [hnone]
    refine ⟨iff_of_true rfl ((hfault.1 rfl).imp_right fun h => by omega), ?_⟩
    intro r q h
    exact absurd h.symm (Option.some_ne_none _)
  · obtain ⟨hq, hr, hcarry⟩ := hsome tmpc tmpa carry (by rw [hc])
    rw [hc] at hfault
    have hd : d ≠ 0 := fun h => Option.some_ne_none _ (hfault.2 (.inl h))
    rw [or_iff_right hd]
    cases carry with
    | false =>
      have hnone : divide f rep hi lo d true = (none, f₂) := by
        simp [divide, hp, hc, postdiv]
      rw [hnone]
      refine ⟨iff_of_true rfl ?_, ?_⟩
      · have hbig := mt hcarry.2 Bool.false_ne_true
        omega
      · intro r q h
        exact absurd h.symm (Option.some_ne_none _)
    | true =>
      have hsmall := hcarry.1 rfl
      have hdone : (divide f rep hi lo d true).1
          = some (if hi.msb then -tmpa else tmpa,
            if (rep ^^ hi.msb) ^^ d.msb then -(~~~tmpc) else ~~~tmpc) := by
        have hneg : tmpc + 1 = -(~~~tmpc) := by
          rw [BitVec.neg_eq_not_add, BitVec.not_not]
          rfl
        simp only [divide, hp, hc, postdiv, if_true, Bool.not_true,
          Bool.false_eq_true, if_false, Bool.true_and, negV_fst, hneg]
      rw [hdone]
      refine ⟨iff_of_false (Option.some_ne_none _) (by omega), ?_⟩
      rintro r q ⟨⟩
      rw [toInt_eq_signed (hi ++ lo), toInt_eq_signed d, tdiv_signed,
        tmod_signed, hmsb]
      have hfits : ∀ (n : Bool) (x : BitVec w), x.toNat < 2 ^ (w - 1) →
          Fits true w (signed n x.toNat) := by
        intro n x hx
        rw [fits_signed_magnitude hw]
        split
        · exact hx.le
        · exact hx
      have hshort : tmpa.toNat < 2 ^ (w - 1) := by
        have hdpos : 0 < d.abs.toNat :=
          Nat.pos_of_ne_zero fun h =>
            hd (abs_eq_zero_iff.1 (BitVec.eq_of_toNat_eq (by simpa using h)))
        have hdle : d.abs.toNat ≤ 2 ^ (w - 1) := by
          have h1 := BitVec.le_toInt d
          have h2 := BitVec.toInt_lt (x := d)
          have hcast :
            ((2 ^ (w - 1) : Nat) : Int) = 2 ^ (w - 1) := by norm_cast
          rw [← natAbs_toInt]
          omega
        rw [hr]
        exact Nat.lt_of_lt_of_le (Nat.mod_lt _ hdpos) hdle
      constructor
      · rw [toInt_signed (hfits _ _ (by omega)), hq]
        cases rep <;> cases hi.msb <;> cases d.msb <;> simp [signed]
      · rw [toInt_signed (hfits _ _ hshort), hr]

end Div

-- ======== instructions

/-- DIV and IDIV of one width, with the registers they take and leave their
operands in. -/
structure Divider (w : Nat) where
  run : Cpu → BitVec w → Bool → Bool × Cpu
  dividend : Cpu → BitVec (w + w)
  quotient : Cpu → BitVec w
  remainder : Cpu → BitVec w

namespace Divider

/-- AX by a byte, into AL and AH. -/
def byte : Divider 8 where
  run := Cpu.div8
  dividend cpu := cpu.regs.ax
  quotient cpu := cpu.regs.ax.setWidth 8
  remainder cpu := (cpu.regs.ax >>> 8).setWidth 8

/-- DX:AX by a word, into AX and DX. -/
def word : Divider 16 where
  run := Cpu.div16
  dividend cpu := cpu.regs.dx ++ cpu.regs.ax
  quotient cpu := cpu.regs.ax
  remainder cpu := cpu.regs.dx

variable {w : Nat}

/-- DIV of `d` on the state `cpu` is exact: it faults when the divisor is
zero or no word holds the quotient, and else leaves quotient and
remainder. -/
structure Unsigned (V : Divider w) (cpu : Cpu) (d : BitVec w) : Prop where
  faults : (V.run cpu d false).1 = false ↔ d = 0
    ∨ 2 ^ w ≤ (V.dividend cpu).toNat / d.toNat
  quotient : (V.run cpu d false).1 = true →
    (V.quotient (V.run cpu d false).2).toNat = (V.dividend cpu).toNat / d.toNat
  remainder : (V.run cpu d false).1 = true →
    (V.remainder (V.run cpu d false).2).toNat
      = (V.dividend cpu).toNat % d.toNat

/-- IDIV of `d` is exact: -2^(w-1) is refused as a quotient, and a repeat
prefix negates the quotient that is left. -/
structure Signed (V : Divider w) (cpu : Cpu) (d : BitVec w) : Prop where
  faults : (V.run cpu d true).1 = false
    ↔ d = 0 ∨ 2 ^ (w - 1) - 1 < ((V.dividend cpu).toInt.tdiv d.toInt).natAbs
  quotient : (V.run cpu d true).1 = true →
    (V.quotient (V.run cpu d true).2).toInt
    = if cpu.rep.isSome then -(V.dividend cpu).toInt.tdiv d.toInt
      else (V.dividend cpu).toInt.tdiv d.toInt
  remainder : (V.run cpu d true).1 = true →
    (V.remainder (V.run cpu d true).2).toInt
      = (V.dividend cpu).toInt.tmod d.toInt

end Divider

/-- A fault, if it is one, changed FLAGS only. -/
def FaultClean (cpu : Cpu) (p : Bool × Cpu) : Prop :=
  p.1 = false → ∃ f, p.2 = cpu.setFlags f

/-- AAM of `base` is exact. -/
structure AamExact (cpu : Cpu) (base : U8) : Prop where
  faults : (cpu.aam base).1 = false ↔ base = 0
  ah : (cpu.aam base).1 = true →
    ((cpu.aam base).2.regs.ax >>> 8).setWidth 8 = cpu.regs.al / base
  al : (cpu.aam base).1 = true →
    (cpu.aam base).2.regs.ax.setWidth 8 = cpu.regs.al % base
  clean : FaultClean cpu (cpu.aam base)

namespace Divider

variable {w : Nat}

/-- The instruction stores what the microcode returns. -/
structure Stores (V : Divider w) (cpu : Cpu) (d : BitVec w) (sgn : Bool)
    (out : Option (BitVec w × BitVec w) × Flags) : Prop where
  of_none : out.1 = none → V.run cpu d sgn = (false, cpu.setFlags out.2)
  of_some : ∀ r q, out.1 = some (r, q) → (V.run cpu d sgn).1 = true
    ∧ V.quotient (V.run cpu d sgn).2 = q ∧ V.remainder (V.run cpu d sgn).2 = r

variable {V : Divider w} {cpu : Cpu} {d : BitVec w} {sgn : Bool}
  {out : Option (BitVec w × BitVec w) × Flags}

theorem Stores.faults_iff (h : V.Stores cpu d sgn out) :
    (V.run cpu d sgn).1 = false ↔ out.1 = none := by
  rcases hout : out.1 with _ | ⟨r, q⟩
  · rw [h.of_none hout]
    exact iff_of_true rfl rfl
  · rw [(h.of_some r q hout).1]
    exact iff_of_false Bool.noConfusion (Option.some_ne_none _)

theorem Stores.clean (h : V.Stores cpu d sgn out) :
    FaultClean cpu (V.run cpu d sgn) := by
  intro hfault
  rw [h.of_none (h.faults_iff.1 hfault)]
  exact ⟨out.2, rfl⟩

/-- What the microcode returned, when it did not fault. -/
theorem Stores.done (h : V.Stores cpu d sgn out)
    (hok : (V.run cpu d sgn).1 = true) :
    ∃ r q, out.1 = some (r, q) ∧ V.quotient (V.run cpu d sgn).2 = q
      ∧ V.remainder (V.run cpu d sgn).2 = r := by
  rcases hout : out.1 with _ | ⟨r, q⟩
  · rw [h.faults_iff.2 hout] at hok
    exact Bool.noConfusion hok
  · exact ⟨r, q, rfl, (h.of_some r q hout).2⟩

/-- A divider that stores what the microcode returns is exact. -/
theorem unsigned_of_stores (hw : 0 < w) {hi lo : BitVec w}
    (hD : V.dividend cpu = hi ++ lo)
    (h : V.Stores cpu d false
      (Div.divide cpu.regs.flags cpu.rep.isSome hi lo d false)) :
    V.Unsigned cpu d := by
  obtain ⟨hfault, hsome⟩ :=
    Div.divide_unsigned hw cpu.regs.flags cpu.rep.isSome hi lo d
  constructor
  · rw [h.faults_iff, hD]
    exact hfault
  · intro hok
    obtain ⟨r, q, hout, hq, -⟩ := h.done hok
    rw [hq, hD]
    exact (hsome r q hout).1
  · intro hok
    obtain ⟨r, q, hout, -, hr⟩ := h.done hok
    rw [hr, hD]
    exact (hsome r q hout).2

theorem signed_of_stores (hw : 0 < w) {hi lo : BitVec w}
    (hD : V.dividend cpu = hi ++ lo)
    (h : V.Stores cpu d true
      (Div.divide cpu.regs.flags cpu.rep.isSome hi lo d true)) :
    V.Signed cpu d := by
  obtain ⟨hfault, hsome⟩ :=
    Div.divide_signed hw cpu.regs.flags cpu.rep.isSome hi lo d
  constructor
  · rw [h.faults_iff, hD]
    exact hfault
  · intro hok
    obtain ⟨r, q, hout, hq, -⟩ := h.done hok
    rw [hq, hD]
    exact (hsome r q hout).1
  · intro hok
    obtain ⟨r, q, hout, -, hr⟩ := h.done hok
    rw [hr, hD]
    exact (hsome r q hout).2

end Divider

/-- AX from its halves. -/
theorem halves_joined (hi lo : U8) :
    (((hi.setWidth 16 <<< 8) ||| lo.setWidth 16 : U16) >>> 8).setWidth 8 = hi
      ∧ ((hi.setWidth 16 <<< 8) ||| lo.setWidth 16 : U16).setWidth 8 = lo := by
  have hjoin : ((hi.setWidth 16 <<< 8) ||| lo.setWidth 16 : U16) = hi ++ lo :=
    shift_or_eq_append hi lo
  rw [hjoin]
  constructor
  · refine BitVec.eq_of_getLsbD_eq fun i hi' => ?_
    rw [BitVec.getLsbD_setWidth, BitVec.getLsbD_ushiftRight,
      BitVec.getLsbD_append]
    simp [hi', show ¬ 8 + i < 8 by omega]
  · refine BitVec.eq_of_getLsbD_eq fun i hi' => ?_
    rw [BitVec.getLsbD_setWidth, BitVec.getLsbD_append]
    simp [hi']

theorem Divider.byte_stores (cpu : Cpu) (d : U8) (sgn : Bool) :
    byte.Stores cpu d sgn
      (Div.divide cpu.regs.flags cpu.rep.isSome
      ((cpu.regs.ax >>> 8).setWidth 8) (cpu.regs.ax.setWidth 8) d sgn) := by
  rcases hout :
    Div.divide cpu.regs.flags cpu.rep.isSome ((cpu.regs.ax >>> 8).setWidth 8)
    (cpu.regs.ax.setWidth 8) d sgn with ⟨_ | ⟨r, q⟩, f⟩
  · have hrun : byte.run cpu d sgn = (false, cpu.setFlags f) := by
      simp only [byte, Cpu.div8, hout]
    refine ⟨fun _ => hrun, ?_⟩
    intro r q h
    exact absurd h.symm (Option.some_ne_none _)
  · obtain ⟨hh, hl⟩ := halves_joined r q
    refine ⟨fun h => absurd h (Option.some_ne_none _), ?_⟩
    rintro r' q' ⟨⟩
    simp only [byte, Cpu.div8, hout]
    exact ⟨trivial, hl, hh⟩

theorem Divider.word_stores (cpu : Cpu) (d : U16) (sgn : Bool) :
    word.Stores cpu d sgn
      (Div.divide cpu.regs.flags cpu.rep.isSome cpu.regs.dx
        cpu.regs.ax d sgn) := by
  rcases hout :
    Div.divide cpu.regs.flags cpu.rep.isSome cpu.regs.dx cpu.regs.ax d sgn
    with ⟨_ | ⟨r, q⟩, f⟩
  · have hrun : word.run cpu d sgn = (false, cpu.setFlags f) := by
      simp only [word, Cpu.div16, hout]
    refine ⟨fun _ => hrun, ?_⟩
    intro r q h
    exact absurd h.symm (Option.some_ne_none _)
  · refine ⟨fun h => absurd h (Option.some_ne_none _), ?_⟩
    rintro r' q' ⟨⟩
    simp only [word, Cpu.div16, hout, and_self]

/-- AX is the byte dividend, by its halves. -/
theorem ax_eq_append (x : U16) : x = (x >>> 8).setWidth 8 ++ x.setWidth 8 := by
  refine BitVec.eq_of_getLsbD_eq fun i hi => ?_
  rw [BitVec.getLsbD_append, BitVec.getLsbD_setWidth, BitVec.getLsbD_setWidth,
    BitVec.getLsbD_ushiftRight]
  by_cases h : i < 8
  · simp [h]
  · simp [h, show i - 8 < 8 by omega, show 8 + (i - 8) = i by omega]

theorem aam_exact (cpu : Cpu) (base : U8) : AamExact cpu base := by
  obtain ⟨hfault, hsome⟩ :=
    Div.cord_spec (by decide) cpu.regs.flags 0 base (cpu.regs.ax.setWidth 8)
  have hlow : 2 ^ 8 * (0 : U8).toNat + (cpu.regs.ax.setWidth 8).toNat
    = cpu.regs.al.toNat :=
    Nat.zero_add _
  rw [hlow] at hsome
  rcases hc : Div.cord cpu.regs.flags 0 base (cpu.regs.ax.setWidth 8)
    with ⟨_ | ⟨quotient, remainder, carry⟩, f⟩
  · have hrun : cpu.aam base = (false, cpu.setFlags
        ((f.setSzp (0 : U8)).remove
          (Flags.CF ||| Flags.AF ||| Flags.OF))) := by
      simp only [Cpu.aam, hc]
    rw [hc] at hfault
    have hzero : base = 0 := BitVec.le_zero_iff.1 (hfault.1 rfl)
    constructor
    · rw [hrun]
      exact iff_of_true rfl hzero
    · rw [hrun]
      intro h
      exact Bool.noConfusion h
    · rw [hrun]
      intro h
      exact Bool.noConfusion h
    · rw [hrun]
      exact fun _ => ⟨_, rfl⟩
  · obtain ⟨hq, hr, -⟩ := hsome quotient remainder carry (by rw [hc])
    obtain ⟨hh, hl⟩ := halves_joined (~~~quotient) remainder
    have hrun : (cpu.aam base).1 = true ∧ (cpu.aam base).2.regs.ax
        = ((~~~quotient).setWidth 16 <<< 8) ||| remainder.setWidth 16 := by
      simp only [Cpu.aam, hc, and_self]
    rw [hc] at hfault
    have hne : base ≠ 0 := by
      rintro rfl
      exact Option.some_ne_none _ (hfault.2 (BitVec.le_refl _))
    constructor
    · rw [hrun.1]
      exact iff_of_false Bool.noConfusion hne
    · intro _
      rw [hrun.2, hh]
      exact BitVec.eq_of_toNat_eq (hq.trans (BitVec.toNat_udiv).symm)
    · intro _
      rw [hrun.2, hl]
      exact BitVec.eq_of_toNat_eq (hr.trans (BitVec.toNat_umod).symm)
    · rw [FaultClean, hrun.1]
      intro h
      exact Bool.noConfusion h

/-- The microcoded divisions are exact at both widths, and a fault leaves
every register but FLAGS. -/
theorem divisions_exact (cpu : Cpu) :
    (∀ d, Divider.byte.Unsigned cpu d ∧ Divider.byte.Signed cpu d
        ∧ ∀ sgn, FaultClean cpu (cpu.div8 d sgn))
      ∧ (∀ d, Divider.word.Unsigned cpu d ∧ Divider.word.Signed cpu d
        ∧ ∀ sgn, FaultClean cpu (cpu.div16 d sgn))
      ∧ ∀ base, AamExact cpu base := by
  refine ⟨fun d => ?_, fun d => ?_, aam_exact cpu⟩
  · have hD := ax_eq_append cpu.regs.ax
    exact ⟨Divider.unsigned_of_stores (by decide) hD
      (Divider.byte_stores cpu d false),
      Divider.signed_of_stores (by decide) hD (Divider.byte_stores cpu d true),
      fun sgn => (Divider.byte_stores cpu d sgn).clean⟩
  · exact ⟨Divider.unsigned_of_stores (by decide)
      rfl (Divider.word_stores cpu d false),
      Divider.signed_of_stores (by decide)
        rfl (Divider.word_stores cpu d true),
      fun sgn => (Divider.word_stores cpu d sgn).clean⟩

/-- -128 is refused as a quotient. -/
example : (({ Cpu.new with regs.ax := 0xFF80 } : Cpu).div8 1 true).1
    = false := by decide

end Remu.X86
