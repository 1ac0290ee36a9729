/-
DIV and IDIV against the division law.

The law is stated on what the architecture names: the dividend in AX or in
a register pair, the quotient and the remainder in their destinations, and
every other byte of the register file. The word-level quotients of `Alu`
satisfy it at every width (`divideWords`), and the stores put the two words
where they belong at every width but one: the byte remainder goes to
register number 4, which is AH only as long as there is no REX prefix.
-/
import Remu.Lib.Quotient
import Remu.X64.Operands
import Remu.X64.Step

namespace Remu.X64

variable {β : Type} [Bus β]

-- ======== widths

/-- The operand widths of a division. -/
inductive Width where
  | byte
  | word
  | dword
  | qword
deriving DecidableEq, Repr

namespace Width

/-- The bits of a width. -/
abbrev bits : Width → Nat
  | byte => 8
  | word => 16
  | dword => 32
  | qword => 64

/-- The width of an operand size. -/
def ofSize : OpSize → Width
  | O16 => word
  | O32 => dword
  | O64 => qword

/-- A width has a bit. -/
theorem bits_pos (z : Width) : 0 < z.bits := by
  cases z <;> decide

/-- AX, DX:AX, EDX:EAX or RDX:RAX. -/
def dividend : (z : Width) → HotRegs → BitVec (z.bits + z.bits)
  | byte, r => r.reg16 reg.RAX
  | word, r => r.reg16 reg.RDX ++ r.reg16 reg.RAX
  | dword, r => r.reg32 reg.RDX ++ r.reg32 reg.RAX
  | qword, r => r.reg64 reg.RDX ++ r.reg64 reg.RAX

/-- AL, AX, EAX or RAX. -/
def quotient : (z : Width) → HotRegs → BitVec z.bits
  | byte, r => (r.gpr reg.RAX).setWidth 8
  | word, r => (r.gpr reg.RAX).setWidth 16
  | dword, r => (r.gpr reg.RAX).setWidth 32
  | qword, r => r.gpr reg.RAX

/-- AH, DX, EDX or RDX. -/
def remainder : (z : Width) → HotRegs → BitVec z.bits
  | byte, r => (r.gpr reg.RAX >>> 8).setWidth 8
  | word, r => (r.gpr reg.RDX).setWidth 16
  | dword, r => (r.gpr reg.RDX).setWidth 32
  | qword, r => r.gpr reg.RDX

/-- Byte `k` of register `i` belongs to a destination. A 32-bit
destination is the whole register: its upper half is cleared. -/
def Writes : Width → U8 → Nat → Prop
  | byte, i, k => i = reg.RAX ∧ k < 2
  | word, i, k => (i = reg.RAX ∨ i = reg.RDX) ∧ k < 2
  | dword, i, _ => i = reg.RAX ∨ i = reg.RDX
  | qword, i, _ => i = reg.RAX ∨ i = reg.RDX

end Width

/-- Byte `k` of register `i`. -/
def HotRegs.byteAt (r : HotRegs) (i : U8) (k : Nat) : U8 :=
  (r.gpr i >>> (8 * k)).setWidth 8

-- ======== the law

/-- The operands of a division as integers. -/
structure Division where
  sgn : Bool
  z : Width
  /-- The divisor word. -/
  v : BitVec z.bits

namespace Division

def dividend (d : Division) (r : HotRegs) : Int :=
  reading d.sgn (d.z.dividend r)

/-- The divisor, read the same way. -/
def divisor (d : Division) : Int := reading d.sgn d.v

/-- What raises #DE: a zero divisor, or a quotient no word of the width
holds. -/
def Faults (d : Division) (r : HotRegs) : Prop :=
  d.divisor = 0 ∨ ¬ Fits d.sgn d.z.bits ((d.dividend r).tdiv d.divisor)

/-- The registers after a division that does not fault. -/
structure Result (d : Division) (r r' : HotRegs) : Prop where
  law : reading d.sgn (d.z.quotient r') * d.divisor + reading d.sgn
    (d.z.remainder r')
    = d.dividend r
  short : (reading d.sgn (d.z.remainder r')).natAbs < d.divisor.natAbs
  nonneg : 0 ≤ d.dividend r → 0 ≤ reading d.sgn (d.z.remainder r')
  nonpos : d.dividend r ≤ 0 → reading d.sgn (d.z.remainder r') ≤ 0
  kept : ∀ i k, k < 8 → ¬ d.z.Writes i k → r'.byteAt i k = r.byteAt i k
  cleared : d.z = .dword → r'.gpr reg.RAX >>> 32 = 0
    ∧ r'.gpr reg.RDX >>> 32 = 0

/-- The division law of an instruction started in `s`: #DE exactly when it
is due and with nothing written, else the result. Nothing but the general
registers and RIP moves. -/
structure Lawful (d : Division) (s : Machine β)
    (out : Except Exception U32 × Machine β) :
    Prop where
  fault : ∀ e, out.1 = .error e →
    e = Exception.de ∧ d.Faults s.regs.toHotRegs ∧ out.2.regs.gpr = s.regs.gpr
  done : ∀ n, out.1 = .ok n →
    ¬ d.Faults s.regs.toHotRegs
      ∧ d.Result s.regs.toHotRegs out.2.regs.toHotRegs
  frame : out.2.regs
    = { s.regs with gpr := out.2.regs.gpr, rip := out.2.regs.rip }

end Division

/-- The instruction at `s`, whose opcode has been fetched, is a division
that gets as far as dividing: it decodes, carries no LOCK, and its operand
can be read. -/
inductive Divides (s : Machine β) : U8 → Division → Prop
  | byte {m : ModRm} {op : Operand} {v : U8} {s₁ s₂ s₃ : Machine β}
      (hm : modrm.run s = (.ok (m, op), s₁)) (hsub : 6 ≤ m.sub)
      (hlock : (lockCheck false).run s₁ = (.ok (), s₂))
      (hv : (readOp8 op).run s₂ = (.ok v, s₃)) :
      Divides s 0xF6 ⟨m.sub == 7, .byte, v⟩
  | wide {m : ModRm} {op : Operand} {v : U64} {s₁ s₂ s₃ : Machine β}
      (hm : modrm.run s = (.ok (m, op), s₁)) (hsub : 6 ≤ m.sub)
      (hlock : (lockCheck false).run s₁ = (.ok (), s₂))
      (hv : (readOp op).run s₂ = (.ok v, s₃)) :
      Divides s 0xF7 ⟨m.sub == 7, .ofSize s.osize, v.setWidth _⟩

-- ======== word division

/-- The quotient and remainder words, by signedness. -/
def divideWords (sgn : Bool) {w : Nat} (D : BitVec (w + w)) (v : BitVec w) :
    Option (BitVec w × BitVec w) :=
  if sgn then HotRegs.sdivide D v else HotRegs.udivide D v

/-- An unsigned division by something. -/
theorem udivide_of_ne {w : Nat} {D : BitVec (w + w)}
    {v : BitVec w} (hv : v ≠ 0) :
    HotRegs.udivide D v
      = if 2 ^ w ≤ (D / v.setWidth (w + w)).toNat then none
        else some ((D / v.setWidth (w + w)).setWidth w,
          (D % v.setWidth (w + w)).setWidth w) := by
  rw [HotRegs.udivide, if_neg hv]

/-- A signed division by something. -/
theorem sdivide_of_ne {w : Nat} {D : BitVec (w + w)}
    {v : BitVec w} (hv : v ≠ 0) :
    HotRegs.sdivide D v
      = if D.sdiv (v.signExtend (w + w))
            ≠ ((D.sdiv (v.signExtend (w + w))).setWidth w).signExtend (w + w) then none
        else some ((D.sdiv (v.signExtend (w + w))).setWidth w,
          (D.srem (v.signExtend (w + w))).setWidth w) := by
  rw [HotRegs.sdivide, if_neg hv]

/-- Division by zero has no result. -/
theorem divideWords_zero (sgn : Bool) {w : Nat} (D : BitVec (w + w)) :
    divideWords sgn D (0 : BitVec w) = none := by
  cases sgn with
  | true => rw [divideWords, if_pos rfl, HotRegs.sdivide, if_pos rfl]
  | false => rw [divideWords, if_neg (by simp), HotRegs.udivide, if_pos rfl]

/-- The words of a division are refused exactly when it faults, and read
as the truncated quotient and remainder otherwise. -/
theorem divideWords_spec (sgn : Bool) {w : Nat} (hw : 0 < w)
    (D : BitVec (w + w)) {v : BitVec w} (hv : v ≠ 0) :
    match divideWords sgn D v with
    | none => ¬ Fits sgn w ((reading sgn D).tdiv (reading sgn v))
    | some p => reading sgn p.1 = (reading sgn D).tdiv (reading sgn v)
        ∧ reading sgn p.2 = (reading sgn D).tmod (reading sgn v) := by
  cases sgn with
  | true =>
    rw [divideWords, if_pos rfl, sdivide_of_ne hv]
    by_cases hfit : Fits true w (D.toInt.tdiv v.toInt)
    · rw [if_neg (not_not.2 ((sdiv_check_iff hw D v).2 hfit))]
      exact ⟨toInt_sdiv_double hw hfit, toInt_srem_double hw D hv⟩
    · rw [if_pos fun h => hfit ((sdiv_check_iff hw D v).1 h)]
      exact hfit
  | false =>
    have hq := toNat_udiv_double D v
    rw [divideWords, if_neg (by simp), udivide_of_ne hv]
    by_cases hbig : 2 ^ w ≤ (D / v.setWidth (w + w)).toNat
    · rw [if_pos hbig]
      show ¬ Fits false w ((D.toNat : Int).tdiv v.toNat)
      rw [fits_unsigned_iff, ← hq]
      rintro ⟨-, hlt⟩
      have hlt' : (D / v.setWidth (w + w)).toNat < 2 ^ w := by
        exact_mod_cast hlt
      omega
    · rw [if_neg hbig]
      refine ⟨?_, toNat_umod_double D hv⟩
      show (((D / v.setWidth (w + w)).setWidth w).toNat : Int)
        = (D.toNat : Int).tdiv v.toNat
      rw [← hq, BitVec.toNat_setWidth, Nat.mod_eq_of_lt (by omega)]

/-- The one dividend the byte form checks apart overflows anyway. -/
theorem idiv8_eq (v : U8) (r : HotRegs) :
    HotRegs.idiv8 v r = HotRegs.sdivide (r.reg16 0 : BitVec (8 + 8)) v := by
  unfold HotRegs.idiv8
  split
  case isTrue h =>
    obtain ⟨hD, rfl⟩ := h
    rw [hD]
    rfl
  case isFalse => rfl

/-- A pair of registers as one word. -/
theorem pair_eq_append {w : Nat} (hi lo : BitVec w) :
    HotRegs.pair hi lo = hi ++ lo :=
  shift_or_eq_append hi lo

-- ======== stores

/-- The low `n` bits. -/
abbrev lowMask (n : Nat) : U64 := BitVec.ofNat 64 (2 ^ n - 1)

/-- The mask of the low bits. -/
theorem getLsbD_lowMask (n i : Nat) :
    (lowMask n).getLsbD i = (decide (i < 64) && decide (i < n)) := by
  rw [BitVec.getLsbD_ofNat, Nat.testBit_two_pow_sub_one]

/-- `old` with `v` in the bits from `pos` on. -/
def spliced {w : Nat} (old : U64) (v : BitVec w) (pos : Nat) : U64 :=
  (old &&& ~~~(lowMask w <<< pos)) ||| (v.setWidth 64 <<< pos)

/-- A field put into a register, bit by bit. -/
theorem getLsbD_spliced {w : Nat} (old : U64) (v : BitVec w) (pos : Nat)
    {i : Nat} (hi : i < 64) :
    (spliced old v pos).getLsbD i
      = if pos ≤ i ∧ i < pos + w then v.getLsbD (i - pos)
        else old.getLsbD i := by
  rw [spliced, BitVec.getLsbD_or, BitVec.getLsbD_and, BitVec.getLsbD_not,
    BitVec.getLsbD_shiftLeft, BitVec.getLsbD_shiftLeft, getLsbD_lowMask,
    BitVec.getLsbD_setWidth]
  by_cases hpos : pos ≤ i
  · by_cases hw : i < pos + w
    · simp [hi, hpos, hw, show ¬ i < pos by omega, show i - pos < w by omega,
        show i - pos < 64 by omega]
    · have hv : v.getLsbD (i - pos) = false :=
        BitVec.getLsbD_of_ge _ _ (by omega)
      simp [hi, hpos, hw, show ¬ i < pos by omega, show ¬ i - pos < w by omega, hv]
  · simp [hi, hpos, show i < pos by omega]

/-- The spliced bits read back. -/
theorem spliced_read {w : Nat} (old : U64) (v : BitVec w) {pos : Nat}
    (h : pos + w ≤ 64) :
    (spliced old v pos >>> pos).setWidth w = v := by
  refine BitVec.eq_of_getLsbD_eq fun i hi => ?_
  rw [BitVec.getLsbD_setWidth, BitVec.getLsbD_ushiftRight,
    getLsbD_spliced _ _ _ (by omega), if_pos (by omega)]
  simp [hi]

/-- A field put into the low bits is read back. -/
theorem spliced_read_low {w : Nat} (old : U64) (v : BitVec w) (h : w ≤ 64) :
    (spliced old v 0).setWidth w = v := by
  have hread := @spliced_read w old v 0 (by omega)
  rwa [BitVec.ushiftRight_zero] at hread

/-- Bits elsewhere are kept. -/
theorem spliced_other {w n : Nat} (old : U64) (v : BitVec w) {pos k : Nat}
    (h : k + n ≤ pos ∨ pos + w ≤ k) :
    (spliced old v pos >>> k).setWidth n = (old >>> k).setWidth n := by
  refine BitVec.eq_of_getLsbD_eq fun i hi => ?_
  rw [BitVec.getLsbD_setWidth, BitVec.getLsbD_setWidth,
    BitVec.getLsbD_ushiftRight, BitVec.getLsbD_ushiftRight]
  by_cases hlt : k + i < 64
  · rw [getLsbD_spliced _ _ _ hlt, if_neg (by omega)]
  · rw [BitVec.getLsbD_of_ge _ _ (by omega),
      BitVec.getLsbD_of_ge _ _ (by omega)]

/-- Splicing in what is there changes nothing. -/
theorem spliced_self {w : Nat} {old : U64} {v : BitVec w} {pos : Nat}
    (h : (old >>> pos).setWidth w = v) : spliced old v pos = old := by
  refine BitVec.eq_of_getLsbD_eq fun i hi => ?_
  rw [getLsbD_spliced _ _ _ hi]
  split
  case isTrue hin =>
    rw [← h, BitVec.getLsbD_setWidth, BitVec.getLsbD_ushiftRight,
      show pos + (i - pos) = i by omega]
    simp [show i - pos < w by omega]
  case isFalse => rfl

namespace HotRegs

/-- A register write at each width, as a field put in. -/
theorem gpr_setReg64 (r : HotRegs) (i : U8) (v : U64) :
    (r.setReg64 i v).gpr = upd r.gpr (i &&& 15) v := rfl

theorem gpr_setReg16 (r : HotRegs) (i : U8) (v : U16) :
    (r.setReg16 i v).gpr
      = upd r.gpr (i &&& 15) (spliced (r.gpr (i &&& 15)) v 0) := by
  rw [setReg16, gpr_setReg64, spliced, BitVec.shiftLeft_zero,
    BitVec.shiftLeft_zero]
  rfl

theorem gpr_setReg8_low (r : HotRegs) (i : U8) (rex : Bool) (v : U8)
    (h : (!rex && i &&& 0xC == 4) = false) :
    (r.setReg8 i rex v).gpr
      = upd r.gpr (i &&& 15) (spliced (r.gpr (i &&& 15)) v 0) := by
  rw [setReg8, h, if_neg (by simp), gpr_setReg64, spliced,
    BitVec.shiftLeft_zero, BitVec.shiftLeft_zero]
  rfl

theorem gpr_setReg8_high (r : HotRegs) (i : U8) (v : U8)
    (h : (i &&& 0xC == 4) = true) :
    (r.setReg8 i false v).gpr
      = upd r.gpr (i &&& 3) (spliced (r.gpr (i &&& 3)) v 8) := by
  rw [setReg8, h, if_pos (by simp), spliced]
  rfl

/-- AL first, then register number 4: AH without REX. -/
theorem gpr_setDiv8_legacy (r : HotRegs) (p : U8 × U8) :
    (setDiv8 false r p).gpr
      = upd r.gpr reg.RAX (spliced (spliced (r.gpr reg.RAX) p.1 0) p.2 8) := by
  rw [setDiv8, gpr_setReg8_high _ _ _ (by decide),
    gpr_setReg8_low _ _ _ _ (by decide)]
  funext i
  by_cases hi : i = reg.RAX
  · subst hi
    rfl
  · rw [upd_other _ _ hi]
    exact (upd_other _ _ hi).trans (upd_other _ _ hi)

/-- With REX, register number 4 is SPL. -/
theorem gpr_setDiv8_rex (r : HotRegs) (p : U8 × U8) :
    (setDiv8 true r p).gpr
      = upd (upd r.gpr reg.RAX (spliced (r.gpr reg.RAX) p.1 0)) reg.RSP
          (spliced (r.gpr reg.RSP) p.2 0) := by
  rw [setDiv8, gpr_setReg8_low _ _ _ _ (by decide),
    gpr_setReg8_low _ _ _ _ (by decide)]
  rfl

theorem gpr_setDiv16 (r : HotRegs) (p : U16 × U16) :
    (setDiv16 r p).gpr
      = upd (upd r.gpr reg.RAX (spliced (r.gpr reg.RAX) p.1 0)) reg.RDX
          (spliced (r.gpr reg.RDX) p.2 0) := by
  rw [setDiv16, gpr_setReg16, gpr_setReg16]
  rfl

theorem gpr_setDiv32 (r : HotRegs) (p : U32 × U32) :
    (setDiv32 r p).gpr
      = upd (upd r.gpr reg.RAX (p.1.setWidth 64)) reg.RDX (p.2.setWidth 64) := rfl

theorem gpr_setDiv64 (r : HotRegs) (p : U64 × U64) :
    (setDiv64 r p).gpr = upd (upd r.gpr reg.RAX p.1) reg.RDX p.2 := rfl

end HotRegs

/-- The store of a division's quotient and remainder at each width. -/
def Width.store (rex : Bool) :
    (z : Width) → HotRegs → BitVec z.bits × BitVec z.bits → HotRegs
  | .byte => HotRegs.setDiv8 rex
  | .word => HotRegs.setDiv16
  | .dword => HotRegs.setDiv32
  | .qword => HotRegs.setDiv64

namespace Width

/-- The quotient, read back. -/
theorem quotient_store (rex : Bool) (z : Width) (r : HotRegs)
    (p : BitVec z.bits × BitVec z.bits) :
    z.quotient (z.store rex r p) = p.1 := by
  cases z with
  | byte =>
    cases rex with
    | true =>
      show ((HotRegs.setDiv8 true r p).gpr reg.RAX).setWidth 8 = p.1
      rw [HotRegs.gpr_setDiv8_rex, upd_other _ _ (by decide), upd_same]
      exact spliced_read_low _ _ (by decide)
    | false =>
      show ((HotRegs.setDiv8 false r p).gpr reg.RAX).setWidth 8 = p.1
      rw [HotRegs.gpr_setDiv8_legacy, upd_same]
      have hal := @spliced_other 8 8 (spliced (r.gpr reg.RAX) p.1 0) p.2
        8 0 (by decide)
      rw [BitVec.ushiftRight_zero, BitVec.ushiftRight_zero] at hal
      exact hal.trans (spliced_read_low _ _ (by decide))
  | word =>
    show ((HotRegs.setDiv16 r p).gpr reg.RAX).setWidth 16 = p.1
    rw [HotRegs.gpr_setDiv16, upd_other _ _ (by decide), upd_same]
    exact spliced_read_low _ _ (by decide)
  | dword =>
    show ((HotRegs.setDiv32 r p).gpr reg.RAX).setWidth 32 = p.1
    rw [HotRegs.gpr_setDiv32, upd_other _ _ (by decide), upd_same]
    simp
  | qword => rfl

/-- The remainder is found where the architecture looks for it, a byte
remainder under REX apart. -/
theorem remainder_store {rex : Bool} {z : Width}
    (h : z = byte → rex = false) (r : HotRegs)
    (p : BitVec z.bits × BitVec z.bits) :
    z.remainder (z.store rex r p) = p.2 := by
  cases z with
  | byte =>
    obtain rfl := h rfl
    show ((HotRegs.setDiv8 false r p).gpr reg.RAX >>> 8).setWidth 8 = p.2
    rw [HotRegs.gpr_setDiv8_legacy, upd_same]
    exact @spliced_read 8 _ _ 8 (by decide)
  | word =>
    show ((HotRegs.setDiv16 r p).gpr reg.RDX).setWidth 16 = p.2
    rw [HotRegs.gpr_setDiv16, upd_same]
    exact spliced_read_low _ _ (by decide)
  | dword =>
    show ((HotRegs.setDiv32 r p).gpr reg.RDX).setWidth 32 = p.2
    rw [HotRegs.gpr_setDiv32, upd_same]
    simp
  | qword => rfl

/-- A pair of registers written in their low bits keeps every other byte. -/
theorem byteAt_upd_upd {r r' : HotRegs} {a b : U64} {i : U8} {k n : Nat}
    (hgpr : r'.gpr = upd (upd r.gpr reg.RAX a) reg.RDX b)
    (ha : n ≤ k → (a >>> (8 * k)).setWidth 8 = r.byteAt reg.RAX k)
    (hb : n ≤ k → (b >>> (8 * k)).setWidth 8 = r.byteAt reg.RDX k)
    (hout : ¬ ((i = reg.RAX ∨ i = reg.RDX) ∧ k < n)) :
    r'.byteAt i k = r.byteAt i k := by
  rw [HotRegs.byteAt, hgpr]
  by_cases hd : i = reg.RDX
  · subst hd
    rw [upd_same]
    exact hb (Nat.le_of_not_lt fun hlt => hout ⟨Or.inr rfl, hlt⟩)
  · rw [upd_other _ _ hd]
    by_cases hx : i = reg.RAX
    · subst hx
      rw [upd_same]
      exact ha (Nat.le_of_not_lt fun hlt => hout ⟨Or.inl rfl, hlt⟩)
    · rw [upd_other _ _ hx, HotRegs.byteAt]

/-- Every byte outside the destinations is kept, a byte remainder under REX
apart. -/
theorem byteAt_store {rex : Bool} {z : Width}
    (h : z = byte → rex = false) (r : HotRegs)
    (p : BitVec z.bits × BitVec z.bits) {i : U8} {k : Nat} (hk : k < 8)
    (hout : ¬ z.Writes i k) : (z.store rex r p).byteAt i k = r.byteAt i k := by
  cases z with
  | byte =>
    obtain rfl := h rfl
    show (HotRegs.setDiv8 false r p).byteAt i k = r.byteAt i k
    rw [HotRegs.byteAt, HotRegs.gpr_setDiv8_legacy]
    by_cases hi : i = reg.RAX
    · have h2 : 2 ≤ k := Nat.le_of_not_lt fun hlt => hout ⟨hi, hlt⟩
      subst hi
      rw [upd_same, spliced_other _ _ (by omega), spliced_other _ _ (by omega),
        HotRegs.byteAt]
    · rw [upd_other _ _ hi, HotRegs.byteAt]
  | word =>
    exact byteAt_upd_upd (n := 2) (HotRegs.gpr_setDiv16 r p)
      (fun hn => spliced_other _ _ (by omega))
        (fun hn => spliced_other _ _ (by omega)) hout
  | dword =>
    exact byteAt_upd_upd (n := 8) (HotRegs.gpr_setDiv32 r p)
      (by omega) (by omega)
      fun hc => hout hc.1
  | qword =>
    exact byteAt_upd_upd (n := 8) (HotRegs.gpr_setDiv64 r p)
      (by omega) (by omega)
      fun hc => hout hc.1

/-- A 32-bit result clears the upper halves. -/
theorem cleared_store {rex : Bool} {z : Width} (hz : z = dword) (r : HotRegs)
    (p : BitVec z.bits × BitVec z.bits) :
    (z.store rex r p).gpr reg.RAX >>> 32 = 0
      ∧ (z.store rex r p).gpr reg.RDX >>> 32 = 0 := by
  have hclear : ∀ x : U32, (x.setWidth 64) >>> 32 = (0 : U64) := by
    intro x
    refine BitVec.eq_of_toNat_eq ?_
    have hx := x.isLt
    simp [Nat.shiftRight_eq_div_pow]
    omega
  subst hz
  show (HotRegs.setDiv32 r p).gpr reg.RAX >>> 32 = 0
    ∧ (HotRegs.setDiv32 r p).gpr reg.RDX >>> 32 = 0
  rw [HotRegs.gpr_setDiv32, upd_same, upd_other _ _ (by decide), upd_same]
  exact ⟨hclear _, hclear _⟩

/-- The store writes general registers only. -/
theorem store_frame (rex : Bool) (z : Width) (r : HotRegs)
    (p : BitVec z.bits × BitVec z.bits) :
    z.store rex r p = { r with gpr := (z.store rex r p).gpr } := by
  cases z with
  | byte => cases rex <;> rfl
  | word => rfl
  | dword => rfl
  | qword => rfl

end Width

-- ======== the instruction

namespace Division

/-- The words a division computes from the registers. -/
def words (d : Division) (r : HotRegs) :
    Option (BitVec d.z.bits × BitVec d.z.bits) :=
  divideWords d.sgn (d.z.dividend r) d.v

/-- The registers a division leaves, unless it faults. -/
def outcome (d : Division) (rex : Bool) (r : HotRegs) : Option HotRegs :=
  (d.words r).map (d.z.store rex r)

/-- DIV by width is one division. -/
theorem outcome_unsigned (rex : Bool) (z : Width)
    (v : BitVec z.bits) (r : HotRegs) :
    (⟨false, z, v⟩ : Division).outcome rex r
      = (HotRegs.udivide (z.dividend r) v).map (z.store rex r) := rfl

/-- IDIV by width is one division. -/
theorem outcome_signed (rex : Bool) (z : Width)
    (v : BitVec z.bits) (r : HotRegs) :
    (⟨true, z, v⟩ : Division).outcome rex r
      = (HotRegs.sdivide (z.dividend r) v).map (z.store rex r) := rfl

end Division

/-- Where a division made in `s` ends: #DE, or the new registers. -/
def divided {α : Type} (s : Machine β) (a : α) :
    Option HotRegs → Except Exception α × Machine β
  | none => (.error Exception.de, s)
  | some r => (.ok a, s.withHot r)

/-- A division that has a result stores it, else raises #DE. -/
theorem run_divide {w : Nat} (qr : HotRegs → Option (BitVec w × BitVec w))
    (put : HotRegs → BitVec w × BitVec w → HotRegs)
    (hput : ∀ r p, (put r p).rflags.vm = r.rflags.vm) (s : Machine β) :
    (divide qr put hput).run s
      = divided s () ((qr s.regs.toHotRegs).map (put s.regs.toHotRegs)) := by
  rw [divide, Bounded.run_bind, Fallible.bind_of_ok (run_self s)]
  cases qr s.regs.toHotRegs <;> rfl

/-- The cycle count is returned only by a division that was made. -/
theorem run_divided_cost {n : U32} {s : Machine β} {x : Calm β Unit}
    {o : Option HotRegs}
    (hx : x.run s = divided s () o) :
    (x >>= fun _ => pure n).run s = divided s n o := by
  rw [Bounded.run_bind]
  cases o with
  | none => exact Fallible.bind_of_error hx
  | some r => exact Fallible.bind_of_ok hx

/-- The two sub-opcodes that divide. -/
theorem ModRm.sub_cases {m : ModRm} (h : 6 ≤ m.sub) :
    m.sub = 6 ∨ m.sub = 7 := by
  have hall : ∀ b : U8, 6 ≤ (b >>> 3) &&& 7 → (b >>> 3) &&& 7 = 6
    ∨ (b >>> 3) &&& 7 = 7 := by
    decide
  exact hall m.byte h

/-- A dividing sub-opcode is none of the others of its group. -/
theorem ModRm.sub_others {m : ModRm} (h : 6 ≤ m.sub) :
    ¬ m.sub ≤ 1 ∧ (m.sub == 2 || m.sub == 3) = false ∧ m.sub ≠ 2 ∧ m.sub ≠ 3
      ∧ m.sub ≠ 4 ∧ m.sub ≠ 5 := by
  rcases ModRm.sub_cases h with h6 | h7
  · rw [h6]
    decide
  · rw [h7]
    decide

/-- The byte form: every arm but DIV and IDIV is passed by. -/
theorem run_group3b {m : ModRm} {op : Operand} {v : U8}
    {s s₁ s₂ s₃ : Machine β}
    (hm : modrm.run s = (.ok (m, op), s₁)) (hsub : 6 ≤ m.sub)
    (hlock : (lockCheck false).run s₁ = (.ok (), s₂))
    (hv : (readOp8 op).run s₂ = (.ok v, s₃)) :
    ∃ n, (group3b (β := β)).run s
      = divided s₃ n ((⟨m.sub == 7, .byte, v⟩ : Division).outcome s₃.rex.isSome
          s₃.regs.toHotRegs) := by
  obtain ⟨h01, hlocked, h2, h3, h4, h5⟩ := ModRm.sub_others hsub
  unfold group3b
  rw [Bounded.run_bind, Fallible.bind_of_ok hm]
  dsimp only
  rw [if_neg h01, pure_bind, hlocked, Bool.and_false, Bounded.run_bind,
    Fallible.bind_of_ok hlock, Bounded.run_bind, Fallible.bind_of_ok hv,
    Bounded.run_bind, Fallible.bind_of_ok (run_self s₃)]
  rw [if_neg h01, if_neg h2, if_neg h3, if_neg h4, if_neg h5]
  rcases ModRm.sub_cases hsub with h6 | h7
  · rw [h6, if_pos rfl]
    exact ⟨17, run_divided_cost (run_divide _ _ _ _)⟩
  · rw [h7, if_neg (by decide)]
    refine ⟨22, run_divided_cost ((run_divide _ _ _ _).trans ?_)⟩
    rw [idiv8_eq]
    rfl

/-- DIV at the operand size. -/
theorem run_divW (v : U64) (s : Machine β) :
    (divW v).run s
      = divided s ()
          ((⟨false, .ofSize s.osize, v.setWidth _⟩ : Division).outcome
          s.rex.isSome
          s.regs.toHotRegs) := by
  rw [divW, Bounded.run_bind, Fallible.bind_of_ok (run_self s)]
  generalize s.osize = z
  cases z with
  | O16 =>
    refine (run_divide _ _ _ _).trans ?_
    rw [Division.outcome_unsigned, HotRegs.div16, pair_eq_append]
    rfl
  | O32 =>
    refine (run_divide _ _ _ _).trans ?_
    rw [Division.outcome_unsigned, HotRegs.div32, pair_eq_append]
    rfl
  | O64 =>
    refine (run_divide _ _ _ _).trans ?_
    have hv : v.setWidth (Width.ofSize O64).bits = v := BitVec.setWidth_eq v
    rw [Division.outcome_unsigned, HotRegs.div64, pair_eq_append, hv]
    rfl

/-- IDIV at the operand size. -/
theorem run_idivW (v : U64) (s : Machine β) :
    (idivW v).run s
      = divided s ()
          ((⟨true, .ofSize s.osize, v.setWidth _⟩ : Division).outcome
          s.rex.isSome
          s.regs.toHotRegs) := by
  rw [idivW, Bounded.run_bind, Fallible.bind_of_ok (run_self s)]
  generalize s.osize = z
  cases z with
  | O16 =>
    refine (run_divide _ _ _ _).trans ?_
    rw [Division.outcome_signed, HotRegs.idiv16, pair_eq_append]
    rfl
  | O32 =>
    refine (run_divide _ _ _ _).trans ?_
    rw [Division.outcome_signed, HotRegs.idiv32, pair_eq_append]
    rfl
  | O64 =>
    refine (run_divide _ _ _ _).trans ?_
    have hv : v.setWidth (Width.ofSize O64).bits = v := BitVec.setWidth_eq v
    rw [Division.outcome_signed, HotRegs.idiv64, pair_eq_append, hv]
    rfl

/-- The form at the operand size. -/
theorem run_group3 {m : ModRm} {op : Operand} {v : U64}
    {s s₁ s₂ s₃ : Machine β}
    (hm : modrm.run s = (.ok (m, op), s₁)) (hsub : 6 ≤ m.sub)
    (hlock : (lockCheck false).run s₁ = (.ok (), s₂))
    (hv : (readOp op).run s₂ = (.ok v, s₃)) :
    ∃ n, (group3 (β := β)).run s
      = divided s₃ n
          ((⟨m.sub == 7, .ofSize s₃.osize, v.setWidth _⟩ : Division).outcome
          s₃.rex.isSome s₃.regs.toHotRegs) := by
  obtain ⟨h01, hlocked, h2, h3, h4, h5⟩ := ModRm.sub_others hsub
  unfold group3
  rw [Bounded.run_bind, Fallible.bind_of_ok hm]
  dsimp only
  rw [Bounded.run_bind, Fallible.bind_of_ok (run_self s₁), if_neg h01,
    pure_bind, hlocked, Bool.and_false, Bounded.run_bind,
    Fallible.bind_of_ok hlock, Bounded.run_bind, Fallible.bind_of_ok hv]
  rw [if_neg h01, if_neg h2, if_neg h3, if_neg h4, if_neg h5]
  rcases ModRm.sub_cases hsub with h6 | h7
  · rw [h6, if_pos rfl]
    exact ⟨30, run_divided_cost (run_divW v s₃)⟩
  · rw [h7, if_neg (by decide)]
    exact ⟨35, run_divided_cost (run_idivW v s₃)⟩

/-- A dividing instruction reads on to the point of the division and ends
there. -/
theorem Divides.run {s : Machine β} {opcode : U8} {d : Division}
    (h : Divides s opcode d) :
    ∃ (sd : Machine β) (n : U32), SameFile s sd
      ∧ (dispatchCalm opcode).run s
        = divided sd n (d.outcome s.rex.isSome sd.regs.toHotRegs) := by
  cases h with
  | byte hm hsub hlock hv =>
    have hsame :=
      ((ReadsOn.modrm _ _ _ hm).trans (ReadsOn.lockCheck _ _ _ _ hlock)).trans
      ((MemOnly.readOp8 _).readsOn _ _ _ hv)
    obtain ⟨n, hn⟩ := run_group3b hm hsub hlock hv
    rw [hsame.rex] at hn
    exact ⟨_, n, hsame, hn⟩
  | wide hm hsub hlock hv =>
    have hsame :=
      ((ReadsOn.modrm _ _ _ hm).trans (ReadsOn.lockCheck _ _ _ _ hlock)).trans
      ((MemOnly.readOp _).readsOn _ _ _ hv)
    obtain ⟨n, hn⟩ := run_group3 hm hsub hlock hv
    rw [hsame.rex, hsame.osize] at hn
    exact ⟨_, n, hsame, hn⟩

-- ======== the law decided

namespace Division

/-- A division has no outcome exactly when it faults; otherwise it stores
the truncated quotient and remainder. -/
theorem outcome_cases (d : Division) (rex : Bool) (r : HotRegs) :
    (d.outcome rex r = none ∧ d.Faults r)
      ∨ ∃ p, d.outcome rex r = some (d.z.store rex r p) ∧ ¬ d.Faults r
        ∧ reading d.sgn p.1 = (d.dividend r).tdiv d.divisor
        ∧ reading d.sgn p.2 = (d.dividend r).tmod d.divisor := by
  by_cases hv : d.v = 0
  · refine Or.inl ⟨?_, Or.inl (reading_eq_zero_iff.2 hv)⟩
    rw [outcome, words, hv, divideWords_zero]
    rfl
  have hne : d.divisor ≠ 0 := fun h => hv (reading_eq_zero_iff.1 h)
  have hspec := divideWords_spec d.sgn d.z.bits_pos (d.z.dividend r) hv
  rw [outcome, words]
  cases hw : divideWords d.sgn (d.z.dividend r) d.v with
  | none =>
    rw [hw] at hspec
    exact Or.inl ⟨rfl, Or.inr hspec⟩
  | some p =>
    rw [hw] at hspec
    obtain ⟨hq, hr⟩ := hspec
    refine Or.inr ⟨p, rfl, ?_, hq, hr⟩
    rintro (h0 | hfit)
    · exact hne h0
    · exact hfit ⟨p.1, hq⟩

/-- The division has a byte remainder, and the REX prefix sends it to SPL:
neither AH nor SPL ends as the law wants, unless both already held the
remainder. -/
def Misplaced (d : Division) (rex : Bool) (r : HotRegs) : Prop :=
  d.z = .byte ∧ rex = true ∧ ¬ d.Faults r
    ∧ ¬ (reading d.sgn ((r.gpr reg.RAX >>> 8).setWidth 8)
      = (d.dividend r).tmod d.divisor
      ∧ reading d.sgn ((r.gpr reg.RSP).setWidth 8)
        = (d.dividend r).tmod d.divisor)

/-- Stored where the architecture looks, the words make the result. -/
theorem result_store {d : Division} {rex : Bool} {r : HotRegs}
    (hz : d.z = .byte → rex = false)
    {p : BitVec d.z.bits × BitVec d.z.bits} (hd : d.divisor ≠ 0)
    (hq : reading d.sgn p.1 = (d.dividend r).tdiv d.divisor)
    (hr : reading d.sgn p.2 = (d.dividend r).tmod d.divisor) :
    d.Result r (d.z.store rex r p) := by
  obtain ⟨hlaw, hshort, hnonneg, hnonpos⟩ := tdiv_tmod_law (d.dividend r) hd
  have hquot := d.z.quotient_store rex r p
  have hrem := Width.remainder_store hz r p
  refine ⟨?_, ?_, ?_, ?_, ?_, ?_⟩
  · rw [hquot, hrem, hq, hr]
    exact hlaw
  · rw [hrem, hr]
    exact hshort
  · rw [hrem, hr]
    exact hnonneg
  · rw [hrem, hr]
    exact hnonpos
  · intro i k hk hout
    exact Width.byteAt_store hz r p hk hout
  · intro hdw
    exact Width.cleared_store hdw r p

/-- The byte remainder under REX: AH is not written and SPL is. -/
theorem result_rex_iff {sgn : Bool} {v : U8} {r : HotRegs} {p : U8 × U8}
    (hd : (⟨sgn, .byte, v⟩ : Division).divisor ≠ 0)
    (hq : reading sgn p.1 = ((⟨sgn, .byte, v⟩ : Division).dividend r).tdiv
      (⟨sgn, .byte, v⟩ : Division).divisor)
    (hr : reading sgn p.2 = ((⟨sgn, .byte, v⟩ : Division).dividend r).tmod
      (⟨sgn, .byte, v⟩ : Division).divisor) :
    (⟨sgn, .byte, v⟩ : Division).Result r (HotRegs.setDiv8 true r p)
      ↔ (r.gpr reg.RAX >>> 8).setWidth 8 = p.2
        ∧ (r.gpr reg.RSP).setWidth 8 = p.2 := by
  constructor
  · intro h
    obtain ⟨-, hrem⟩ := tdiv_tmod_of_law hd h.law h.short h.nonneg h.nonpos
    have hah : Width.byte.remainder (HotRegs.setDiv8 true r p)
        = (r.gpr reg.RAX >>> 8).setWidth 8 := by
      show ((HotRegs.setDiv8 true r p).gpr reg.RAX >>> 8).setWidth 8 = _
      rw [HotRegs.gpr_setDiv8_rex, upd_other _ _ (by decide), upd_same,
        spliced_other _ _ (by omega)]
    have hspl := h.kept reg.RSP 0 (by decide) fun hc => absurd hc.1 (by decide)
    rw [HotRegs.byteAt, HotRegs.byteAt, HotRegs.gpr_setDiv8_rex, upd_same,
      BitVec.ushiftRight_zero, BitVec.ushiftRight_zero,
      spliced_read_low _ _ (by decide)] at hspl
    refine ⟨reading_inj (b := sgn) ?_, hspl.symm⟩
    rw [hr, ← hrem, hah]
  · rintro ⟨hah, hspl⟩
    have hsame : HotRegs.setDiv8 true r p = HotRegs.setDiv8 false r p := by
      refine (Width.store_frame true .byte r p).trans (.trans ?_
        (Width.store_frame false .byte r p).symm)
      refine congrArg (fun g => ({ r with gpr := g } : HotRegs)) ?_
      show (HotRegs.setDiv8 true r p).gpr = (HotRegs.setDiv8 false r p).gpr
      have hrsp : spliced (r.gpr reg.RSP) p.2 0 = r.gpr reg.RSP :=
        spliced_self (by rw [BitVec.ushiftRight_zero, hspl])
      have hrax : spliced (spliced (r.gpr reg.RAX) p.1 0) p.2 8
        = spliced (r.gpr reg.RAX) p.1 0 :=
        spliced_self (by rw [spliced_other _ _ (by omega), hah])
      rw [HotRegs.gpr_setDiv8_rex, HotRegs.gpr_setDiv8_legacy, hrsp, hrax]
      funext i
      by_cases hi : i = reg.RSP
      · subst hi
        rw [upd_same, upd_other _ _ (by decide)]
      · rw [upd_other _ _ hi]
    rw [hsame]
    exact result_store (d := ⟨sgn, .byte, v⟩)
      (show _ → false = false from fun _ => rfl) hd hq hr

/-- The result holds unless the remainder is misplaced. -/
theorem result_store_iff {d : Division} {rex : Bool} {r : HotRegs}
    {p : BitVec d.z.bits × BitVec d.z.bits} (hfault : ¬ d.Faults r)
    (hq : reading d.sgn p.1 = (d.dividend r).tdiv d.divisor)
    (hr : reading d.sgn p.2 = (d.dividend r).tmod d.divisor) :
    d.Result r (d.z.store rex r p) ↔ ¬ d.Misplaced rex r := by
  have hd : d.divisor ≠ 0 := fun h => hfault (Or.inl h)
  by_cases hz : d.z = .byte → rex = false
  · refine iff_of_true (result_store hz hd hq hr) ?_
    rintro ⟨hb, hrex, -⟩
    rw [hz hb] at hrex
    cases hrex
  · rcases d with ⟨sgn, z, v⟩
    obtain ⟨hb, hrex⟩ := Classical.not_imp.1 hz
    obtain rfl : rex = true := Bool.eq_true_of_not_eq_false hrex
    dsimp only at hb
    subst hb
    refine (result_rex_iff hd hq hr).trans ?_
    rw [Misplaced, ← hr]
    constructor
    · rintro ⟨hah, hspl⟩ ⟨-, -, -, hmis⟩
      exact hmis ⟨congrArg (reading sgn) hah, congrArg (reading sgn) hspl⟩
    · intro h
      by_cases hc :
          reading sgn ((r.gpr reg.RAX >>> 8).setWidth 8) = reading sgn p.2
          ∧ reading sgn ((r.gpr reg.RSP).setWidth 8) = reading sgn p.2
      · exact ⟨reading_inj hc.1, reading_inj hc.2⟩
      · exact absurd ⟨rfl, rfl, hfault, hc⟩ h

end Division

namespace Division

variable {r r₁ r' : HotRegs} {d : Division}

/-- Only the general registers are operands. -/
theorem dividend_gpr (d : Division) (h : r₁.gpr = r.gpr) :
    d.dividend r₁ = d.dividend r := by
  refine congrArg (reading d.sgn) ?_
  cases d.z with
  | byte => simp only [Width.dividend, HotRegs.reg16, h]
  | word => simp only [Width.dividend, HotRegs.reg16, h]
  | dword => simp only [Width.dividend, HotRegs.reg32, h]
  | qword => simp only [Width.dividend, HotRegs.reg64, h]

/-- The law reads the general registers only. -/
theorem faults_gpr (h : r₁.gpr = r.gpr) : d.Faults r₁ ↔ d.Faults r := by
  rw [Faults, Faults, dividend_gpr d h]

theorem misplaced_gpr {rex : Bool} (h : r₁.gpr = r.gpr) :
    d.Misplaced rex r₁ ↔ d.Misplaced rex r := by
  rw [Misplaced, Misplaced, faults_gpr h, dividend_gpr d h, h]

theorem result_gpr (h : r₁.gpr = r.gpr) : d.Result r₁ r' ↔ d.Result r r' := by
  have hbyte : ∀ i k, r₁.byteAt i k = r.byteAt i k := by
    intro i k
    rw [HotRegs.byteAt, HotRegs.byteAt, h]
  have hdiv := dividend_gpr d h
  constructor
  · rintro ⟨hlaw, hshort, hnonneg, hnonpos, hkept, hclear⟩
    rw [hdiv] at hlaw hnonneg hnonpos
    exact ⟨hlaw, hshort, hnonneg, hnonpos,
      fun i k hk ho => (hkept i k hk ho).trans (hbyte i k), hclear⟩
  · rintro ⟨hlaw, hshort, hnonneg, hnonpos, hkept, hclear⟩
    rw [← hdiv] at hlaw hnonneg hnonpos
    exact ⟨hlaw, hshort, hnonneg, hnonpos,
      fun i k hk ho => (hkept i k hk ho).trans (hbyte i k).symm, hclear⟩

end Division

/-- A division instruction obeys the law exactly when it does not misplace
a byte remainder: at every width and signedness, for every register file,
prefix combination and divisor, #DE is raised if and only if the divisor is
zero or the quotient does not fit, and otherwise the destinations hold the
truncated quotient and remainder and every other byte is kept. -/
theorem division_lawful_iff {s : Machine β} {opcode : U8} {d : Division}
    (h : Divides s opcode d) :
    d.Lawful s ((dispatchCalm opcode).run s)
      ↔ ¬ d.Misplaced s.rex.isSome s.regs.toHotRegs := by
  obtain ⟨sd, n, hsame, hrun⟩ := h.run
  have hgpr : sd.regs.toHotRegs.gpr = s.regs.toHotRegs.gpr := hsame.gpr
  rw [hrun]
  rcases d.outcome_cases s.rex.isSome sd.regs.toHotRegs
    with ⟨hnone, hfault⟩ | ⟨p, hsome, hfine, hq, hr⟩
  · rw [hnone]
    have hfault' := (Division.faults_gpr hgpr).1 hfault
    refine iff_of_true ⟨?fault, ?done, ?frame⟩ fun hmis => hmis.2.2.1 hfault'
    case fault =>
      intro e he
      cases he
      exact ⟨rfl, hfault', hgpr⟩
    case done =>
      intro n hn
      cases hn
    case frame =>
      show sd.regs = { s.regs with gpr := sd.regs.gpr, rip := sd.regs.rip }
      rw [hsame.gpr]
      exact hsame.regs
  · rw [hsome]
    rw [← Division.misplaced_gpr hgpr, ← Division.result_store_iff hfine hq hr]
    constructor
    · intro hlaw
      exact (Division.result_gpr hgpr).2 (hlaw.done n rfl).2
    · intro hres
      refine ⟨?fault, ?done, ?frame⟩
      case fault =>
        intro e he
        cases he
      case done =>
        intro _ _
        exact ⟨fun hf => hfine ((Division.faults_gpr hgpr).2 hf),
          (Division.result_gpr hgpr).1 hres⟩
      case frame =>
        obtain ⟨g, hg⟩ : ∃ g, d.z.store s.rex.isSome sd.regs.toHotRegs p
            = { sd.regs.toHotRegs with gpr := g } := ⟨_, Width.store_frame ..⟩
        rw [hg, divided, Machine.withHot, hsame.regs]

/-- DIV BL under a REX prefix in 64-bit mode, with AX = 7 and BL = 2. The
opcode has been fetched, and the fetch cache holds its page. -/
def rexDivBl : Machine (FlatBus Unit) :=
  { Cpu.new with
    regs := { Machine.longFlatRegs Registers.new 2 0 with
      gpr := fun i => if i = reg.RAX then 7 else if i = reg.RBX then 2 else 0 }
    m64 := true
    rex := some 0x40
    osize := O32
    asize := O64
    ilen := 2
    fetchTag := 0
    bus := { mem := fun _ => 0xF3, ports := () } }

/-- The instruction of the counterexample is a division. -/
theorem rexDivBl_divides : Divides rexDivBl 0xF6 ⟨false, .byte, 2⟩ :=
  .byte (m := ⟨0xF3, 0, 0⟩) (show modrm.run _ = (.ok (_, .reg 3), _) from rfl)
    (by decide) rfl rfl

/-- Without the prefix the same division is lawful. -/
theorem division_lawful_iff_divBl :
    (⟨false, .byte, 2⟩ : Division).Lawful { rexDivBl with rex := none }
      ((dispatchCalm 0xF6).run { rexDivBl with rex := none }) := by
  have hdiv : Divides { rexDivBl with rex := none } 0xF6 ⟨false, .byte, 2⟩ :=
    .byte (m := ⟨0xF3, 0, 0⟩)
      (show modrm.run _ = (.ok (_, .reg 3), _) from rfl) (by decide) rfl rfl
  refine (division_lawful_iff hdiv).2 fun hmis => ?_
  have hrex : false = true := hmis.2.1
  cases hrex

/-- The remainder of 7 by 2 goes to SPL and AH keeps 0: the law fails. -/
theorem rexDivBl_unlawful :
    Divides rexDivBl 0xF6 ⟨false, .byte, 2⟩
      ∧ ¬ (⟨false, .byte, 2⟩ : Division).Lawful rexDivBl
        ((dispatchCalm 0xF6).run rexDivBl) := by
  refine ⟨rexDivBl_divides, fun h => ?_⟩
  have hlaw := (h.done 17 rfl).2.law
  have hne : ¬ reading false
        (Width.byte.quotient
        ((dispatchCalm 0xF6).run rexDivBl).2.regs.toHotRegs)
        * (⟨false, .byte, 2⟩ : Division).divisor
      + reading false
        (Width.byte.remainder
        ((dispatchCalm 0xF6).run rexDivBl).2.regs.toHotRegs)
      = (⟨false, .byte, 2⟩ : Division).dividend rexDivBl.regs.toHotRegs := by
    decide
  exact hne hlaw

end Remu.X64
