/-
Flag arithmetic: the arithmetic, logic, shift and rotate operations, the
multiplies and divides, and the BCD adjustments.

Each operation is a pure function of its operands and EFLAGS (or of the
hot registers, where it reads and writes AX and DX), generic in the
operand width. The 386 masks shift counts to five bits and runs them
through a barrel shifter; its signed divide keeps a remainder of exactly
the operand width. Where it leaves a flag undefined the value here is the
one the source fixes.

No operation moves `EFLAGS.VM`; the simp lemmas beside the definitions say
so once and `modifyFlags` uses them silently.
-/
import Remu.X32.Cpu

namespace Remu.X32

open EFlags (CF PF AF ZF SF OF)

variable {w : Nat}

namespace Alu

-- ======== add, subtract, logic

/-- Carry out of bit 3. -/
def auxCarry (a b r : BitVec w) : Bool := (a ^^^ b ^^^ r) &&& 0x10 != 0

/-- Overflow of an addition: the result's sign differs from both. -/
def addOverflow (a b r : BitVec w) : Bool := ((a ^^^ r) &&& (b ^^^ r)).msb

/-- Overflow of a subtraction. -/
def subOverflow (a b r : BitVec w) : Bool := ((a ^^^ b) &&& (a ^^^ r)).msb

/-- Install the six status flags of an addition or subtraction. -/
def arith (cf af ovf : Bool) (r : BitVec w) (f : EFlags) : BitVec w × EFlags :=
  (r, (((f.set CF cf).set AF af).set OF ovf).setSzp r)

/-- CF as a word. -/
def carry (f : EFlags) : BitVec w := if f.contains CF then 1 else 0

/-- ADD. -/
def add (a b : BitVec w) (f : EFlags) : BitVec w × EFlags :=
  let r := a + b
  arith (r < a) (auxCarry a b r) (addOverflow a b r) r f

/-- ADC: the carry of the exact sum of three. -/
def adc (a b : BitVec w) (f : EFlags) : BitVec w × EFlags :=
  let c : BitVec w := carry f
  let r := a + b + c
  arith (2 ^ w ≤ a.toNat + b.toNat + c.toNat) (auxCarry a b r)
    (addOverflow a b r) r f

/-- SUB and CMP. -/
def sub (a b : BitVec w) (f : EFlags) : BitVec w × EFlags :=
  let r := a - b
  arith (a < b) (auxCarry a b r) (subOverflow a b r) r f

/-- SBB: borrow out of the exact difference. -/
def sbb (a b : BitVec w) (f : EFlags) : BitVec w × EFlags :=
  let c : BitVec w := carry f
  let r := a - b - c
  arith (a.toNat < b.toNat + c.toNat) (auxCarry a b r) (subOverflow a b r) r f

/-- CF, OF and AF clear, SF, ZF and PF from the result. -/
def logic (r : BitVec w) (f : EFlags) : BitVec w × EFlags :=
  (r, (f.remove (CF ||| OF ||| AF)).setSzp r)

/-- AND and TEST. -/
def and (a b : BitVec w) : EFlags → BitVec w × EFlags := logic (a &&& b)
def or (a b : BitVec w) : EFlags → BitVec w × EFlags := logic (a ||| b)
def xor (a b : BitVec w) : EFlags → BitVec w × EFlags := logic (a ^^^ b)

/-- INC and DEC leave CF. -/
def inc (a : BitVec w) (f : EFlags) : BitVec w × EFlags :=
  let r := a + 1
  (r, ((f.set AF (a &&& 0xF == 0xF)).set OF (r == BitVec.intMin w)).setSzp r)

/-- DEC leaves CF alone. -/
def dec (a : BitVec w) (f : EFlags) : BitVec w × EFlags :=
  let r := a - 1
  (r, ((f.set AF (a &&& 0xF == 0)).set OF (a == BitVec.intMin w)).setSzp r)

/-- NEG: CF unless the operand is zero, OF for the most negative number. -/
def neg (a : BitVec w) (f : EFlags) : BitVec w × EFlags :=
  arith (a != 0) (a &&& 0xF != 0) (a == BitVec.intMin w) (-a) f

/-- The eight-slot ALU table: ADD OR ADC SBB AND SUB XOR CMP. -/
def table (i : U8) (a b : BitVec w) : EFlags → BitVec w × EFlags :=
  if i = 0 then add a b
  else if i = 1 then or a b
  else if i = 2 then adc a b
  else if i = 3 then sbb a b
  else if i = 4 then and a b
  else if i = 5 then sub a b
  else if i = 6 then xor a b
  else sub a b

-- ======== shifts and rotates

/-- The shift count: five bits. -/
def shiftCount (count : U32) : Nat := (count &&& 31).toNat

/-- A count that is a multiple of the width pulls CF from the replicated
lane of the 32-bit shifter. -/
def shl (v : BitVec w) (count : U32) (f : EFlags) : BitVec w × EFlags :=
  let n := shiftCount count
  if n = 0 then (v, f)
  else
    let wide : U64 := v.setWidth 64 <<< n
    let r : BitVec w := wide.setWidth w
    let cf := if n % w = 0 then v.getLsbD 0 else wide.getLsbD w
    (r, (((f.set CF cf).set OF (r.msb != cf)).remove AF).setSzp r)

/-- OF is the sign before the last one-bit step. -/
def shr (v : BitVec w) (count : U32) (f : EFlags) : BitVec w × EFlags :=
  let n := shiftCount count
  if n = 0 then (v, f)
  else
    let r := v >>> n
    let cf := if n % w = 0 then v.msb else v.getLsbD (n - 1)
    (r, (((f.set CF cf).set OF (v >>> (n - 1)).msb).remove AF).setSzp r)

/-- SAR: the sign is shifted in, past the width too. -/
def sar (v : BitVec w) (count : U32) (f : EFlags) : BitVec w × EFlags :=
  let n := shiftCount count
  if n = 0 then (v, f)
  else
    let sx : U64 := v.signExtend 64
    let r : BitVec w := (sx.sshiftRight n).setWidth w
    (r, ((f.set CF (sx.getLsbD (n - 1))).remove (OF ||| AF)).setSzp r)

/-- ROL: CF is the bit that comes round. -/
def rol (v : BitVec w) (count : U32) (f : EFlags) : BitVec w × EFlags :=
  let n := shiftCount count
  if n = 0 then (v, f)
  else
    let r := v.rotateLeft (n % w)
    let cf := r.getLsbD 0
    (r, (f.set CF cf).set OF (r.msb != cf))

/-- ROR. -/
def ror (v : BitVec w) (count : U32) (f : EFlags) : BitVec w × EFlags :=
  let n := shiftCount count
  if n = 0 then (v, f)
  else
    let r := v.rotateRight (n % w)
    (r, (f.set CF r.msb).set OF (r ^^^ (r <<< 1)).msb)

/-- One step of the rotate through carry: the value and CF. -/
def rclStep (p : BitVec w × EFlags) : BitVec w × EFlags :=
  ((p.1 <<< 1) ||| carry p.2, p.2.set CF p.1.msb)

/-- One step to the right; OF is set before the rotation. -/
def rcrStep (p : BitVec w × EFlags) : BitVec w × EFlags :=
  let cf := p.2.contains CF
  ((p.1 >>> 1) ||| (carry p.2 <<< (w - 1)),
    (p.2.set OF (p.1.msb != cf)).set CF (p.1.getLsbD 0))

/-- Run a step `n` times. -/
def stepTimes (step : BitVec w × EFlags → BitVec w × EFlags) :
    Nat → BitVec w × EFlags → BitVec w × EFlags
  | 0, p => p
  | n + 1, p => stepTimes step n (step p)

/-- The full masked count is iterated: the rotation is periodic, but the
flags are those of the last step. -/
def rcl (v : BitVec w) (count : U32) (f : EFlags) : BitVec w × EFlags :=
  let n := shiftCount count
  if n = 0 then (v, f)
  else
    let (r, f) := stepTimes rclStep n (v, f)
    (r, f.set OF (r.msb != f.contains CF))

/-- RCR, a bit at a time as the source has it. -/
def rcr (v : BitVec w) (count : U32) (f : EFlags) : BitVec w × EFlags :=
  stepTimes rcrStep (shiftCount count) (v, f)

/-- The shift group by sub-opcode; /6 aliases SHL. -/
def shift (sub : U8) (v : BitVec w) (n : U32) : EFlags → BitVec w × EFlags :=
  if sub = 0 then rol v n
  else if sub = 1 then ror v n
  else if sub = 2 then rcl v n
  else if sub = 3 then rcr v n
  else if sub = 4 then shl v n
  else if sub = 5 then shr v n
  else if sub = 6 then shl v n
  else sar v n

-- ======== multiplication

/-- CF and OF say the product does not fit the destination half. -/
def mulFlags (overflow : Bool) (lo : BitVec w) (f : EFlags) : EFlags :=
  (((f.set CF overflow).set OF overflow).remove AF).setSzp lo

/-- The signed product and whether it overflows the operand width. -/
def signedProduct (a b : BitVec w) : BitVec (w + w) × Bool :=
  let r := a.signExtend (w + w) * b.signExtend (w + w)
  (r, r != (r.setWidth w).signExtend (w + w))

/-- Two-operand IMUL. -/
def imulTrunc (a b : BitVec w) (f : EFlags) : BitVec w × EFlags :=
  let (r, overflow) := signedProduct a b
  (r.setWidth w, mulFlags overflow (r.setWidth w) f)

end Alu

namespace HotRegs

open Alu

/-- Put a double-width product into an accumulator pair. -/
def setPair16 (r : HotRegs) (p : BitVec (16 + 16)) : HotRegs :=
  (r.setReg16 0 (p.setWidth 16)).setReg16 2 ((p >>> 16).setWidth 16)

/-- EDX:EAX. -/
def setPair32 (r : HotRegs) (p : BitVec (32 + 32)) : HotRegs :=
  (r.setReg32 0 (p.setWidth 32)).setReg32 2 ((p >>> 32).setWidth 32)

/-- The unsigned double-width product. -/
def product (a b : BitVec w) : BitVec (w + w) :=
  a.setWidth (w + w) * b.setWidth (w + w)

/-- CF and OF say whether the high half matters. -/
def withMulFlags (r : HotRegs) (overflow : Bool) (lo : BitVec w) : HotRegs :=
  { r with eflags := mulFlags overflow lo r.eflags }

/-- MUL, by operand size. -/
def mul8 (v : U8) (r : HotRegs) : HotRegs :=
  let p : U16 := product (r.reg8 0) v
  (r.setReg16 0 p).withMulFlags (p &&& 0xFF00 != 0) (p.setWidth 8)

def mul16 (v : U16) (r : HotRegs) : HotRegs :=
  let p := product (r.reg16 0) v
  (r.setPair16 p).withMulFlags (p >>> 16 != 0) (p.setWidth 16)

def mul32 (v : U32) (r : HotRegs) : HotRegs :=
  let p := product (r.reg32 0) v
  (r.setPair32 p).withMulFlags (p >>> 32 != 0) (p.setWidth 32)

/-- IMUL of one operand, by operand size. -/
def imul8 (v : U8) (r : HotRegs) : HotRegs :=
  let (p, overflow) := signedProduct (r.reg8 0) v
  (r.setReg16 0 p).withMulFlags overflow (p.setWidth 8)

def imul16 (v : U16) (r : HotRegs) : HotRegs :=
  let (p, overflow) := signedProduct (r.reg16 0) v
  (r.setPair16 p).withMulFlags overflow (p.setWidth 16)

def imul32 (v : U32) (r : HotRegs) : HotRegs :=
  let (p, overflow) := signedProduct (r.reg32 0) v
  (r.setPair32 p).withMulFlags overflow (p.setWidth 32)

-- ======== division

/-- `hi:lo` as one double-width word. -/
def pair (hi lo : BitVec w) : BitVec (w + w) :=
  (hi.setWidth (w + w) <<< w) ||| lo.setWidth (w + w)

/-- Unsigned quotient and remainder; `none` is the divide fault (divisor
zero or a quotient that does not fit). -/
def udivide (dividend : BitVec (w + w)) (v : BitVec w) :
    Option (BitVec w × BitVec w) :=
  if v = 0 then none
  else
    let q := dividend / v.setWidth (w + w)
    if 2 ^ w ≤ q.toNat then none
    else some (q.setWidth w, (dividend % v.setWidth (w + w)).setWidth w)

/-- The divider's loop, bits `i - 1` down to 0 of the low half: quotient and
remainder. The remainder register is exactly `w` bits, so a bit shifted
past the top is lost. -/
def idivLoop (lo divisor : BitVec w) :
    Nat → BitVec w → BitVec w → BitVec w × BitVec w
  | 0, q, r => (q, r)
  | i + 1, q, r =>
    let r := (r <<< 1) ||| ((lo >>> i) &&& 1)
    if divisor ≤ r then idivLoop lo divisor i (q ||| (1 <<< i)) (r - divisor)
    else idivLoop lo divisor i q r

/-- The 386's restoring divide of magnitudes. -/
def idivLossy (dividend : BitVec (w + w)) (divisor : BitVec w) :
    BitVec w × BitVec w :=
  idivLoop (dividend.setWidth w) divisor w 0 ((dividend >>> w).setWidth w)

/-- Signed quotient and remainder. The smallest dividend overflows the
internal negate; the sign check is made on the lossy quotient, and exactly
the smallest quotient is admitted. -/
def sdivide (dividend : BitVec (w + w)) (v : BitVec w) :
    Option (BitVec w × BitVec w) :=
  if v = 0 then none
  else if dividend = BitVec.intMin (w + w) then none
  else
    let (q, r) := idivLossy dividend.abs v.abs
    let rem := if dividend.msb then -r else r
    if dividend.msb != v.msb then
      if BitVec.intMin w < q then none else some (-q, rem)
    else if BitVec.intMin w ≤ q then none
    else some (q, rem)

/-- DIV, by operand size; `none` is #DE. -/
def div8 (v : U8) (r : HotRegs) : Option (U8 × U8) :=
  udivide (r.reg16 0 : BitVec (8 + 8)) v

def div16 (v : U16) (r : HotRegs) : Option (U16 × U16) :=
  udivide (pair (r.reg16 2) (r.reg16 0)) v

def div32 (v : U32) (r : HotRegs) : Option (U32 × U32) :=
  udivide (pair (r.reg32 2) (r.reg32 0)) v

/-- IDIV, by operand size. -/
def idiv8 (v : U8) (r : HotRegs) : Option (U8 × U8) :=
  sdivide (r.reg16 0 : BitVec (8 + 8)) v

def idiv16 (v : U16) (r : HotRegs) : Option (U16 × U16) :=
  sdivide (pair (r.reg16 2) (r.reg16 0)) v

def idiv32 (v : U32) (r : HotRegs) : Option (U32 × U32) :=
  sdivide (pair (r.reg32 2) (r.reg32 0)) v

/-- Quotient to AL, remainder to AH. -/
def setDiv8 (r : HotRegs) (qr : U8 × U8) : HotRegs :=
  (r.setReg8 0 qr.1).setReg8 4 qr.2

/-- Quotient and remainder put back. -/
def setDiv16 (r : HotRegs) (qr : U16 × U16) : HotRegs :=
  (r.setReg16 0 qr.1).setReg16 2 qr.2

def setDiv32 (r : HotRegs) (qr : U32 × U32) : HotRegs :=
  (r.setReg32 0 qr.1).setReg32 2 qr.2

-- ======== BCD adjustments

/-- Change the flags of a register file. -/
def onFlags (r : HotRegs) (g : EFlags → EFlags) : HotRegs :=
  { r with eflags := g r.eflags }

/-- Adjust AL after adding packed digits. -/
def daa (r : HotRegs) : HotRegs :=
  let oldAl := r.reg8 0
  let oldCf := r.eflags.contains CF
  let low := decide (9 < oldAl &&& 0xF) || r.eflags.contains AF
  let high := decide (0x99 < oldAl) || oldCf
  let al := if low then oldAl + 6 else oldAl
  let al := if high then al + 0x60 else al
  (r.onFlags fun f =>
    (((f.set AF low).set CF high).remove OF).setSzp al).setReg8 0 al

/-- Adjust AL after subtracting packed digits. -/
def das (r : HotRegs) : HotRegs :=
  let oldAl := r.reg8 0
  let oldCf := r.eflags.contains CF
  let low := decide (9 < oldAl &&& 0xF) || r.eflags.contains AF
  let high := decide (0x99 < oldAl) || oldCf
  let al := if low then oldAl - 6 else oldAl
  let al := if high then al - 0x60 else al
  let cf := high || (low && (oldCf || decide (oldAl < 6)))
  (r.onFlags fun f => (((f.set AF low).set CF cf).remove OF).setSzp al).setReg8 0 al

/-- The tail AAA and AAS share: AL keeps its low nibble. -/
def maskAl (r : HotRegs) : HotRegs :=
  let masked := r.reg8 0 &&& 0x0F
  (r.setReg8 0 masked).onFlags fun f => (f.remove OF).setSzp masked

/-- AAA and AAS: adjust AX by `d` when the low nibble is not a digit. -/
def asciiAdjust (d : U16) (r : HotRegs) : HotRegs :=
  if 9 < r.reg8 0 &&& 0xF ∨ r.eflags.contains AF then
    ((r.setReg16 0 (r.reg16 0 + d)).onFlags (·.insert (AF ||| CF))).maskAl
  else (r.onFlags (·.remove (AF ||| CF))).maskAl

/-- Adjust AX after adding unpacked digits. -/
def aaa (r : HotRegs) : HotRegs := r.asciiAdjust 0x106
/-- Adjust AX after subtracting unpacked digits. -/
def aas (r : HotRegs) : HotRegs := r.asciiAdjust (-0x106)

/-- The flags AAM leaves when its base is zero, before the divide fault:
PF shows the divider's internal path. -/
def aamFault (al : U8) (f : EFlags) : EFlags :=
  (f.remove (CF ||| OF ||| AF ||| SF ||| ZF)).set PF
    (EFlags.evenParity (al * 0x81))

/-- Split AL into two digits. -/
def aam (base : U8) (r : HotRegs) : HotRegs :=
  let al := r.reg8 0
  ((r.setReg8 4 (al / base)).setReg8 0 (al % base)).onFlags fun f =>
    (f.remove (CF ||| OF ||| AF)).setSzp (al % base)

/-- Join two digits into AL. -/
def aad (base : U8) (r : HotRegs) : HotRegs :=
  let al := r.reg8 0 + r.reg8 4 * base
  (r.setReg16 0 (al.setWidth 16)).onFlags fun f =>
    (f.remove (CF ||| OF ||| AF)).setSzp al

end HotRegs

-- ======== VM is nobody's output

namespace Alu

@[simp] theorem vm_arith (cf af ovf : Bool) (r : BitVec w) (f : EFlags) :
    (arith cf af ovf r f).2.vm = f.vm := by simp [arith]

@[simp] theorem vm_logic (r : BitVec w) (f : EFlags) :
    (logic r f).2.vm = f.vm := by simp [logic]

@[simp] theorem vm_add (a b : BitVec w) (f : EFlags) :
    (add a b f).2.vm = f.vm := vm_arith ..

@[simp] theorem vm_adc (a b : BitVec w) (f : EFlags) :
    (adc a b f).2.vm = f.vm := vm_arith ..

@[simp] theorem vm_sub (a b : BitVec w) (f : EFlags) :
    (sub a b f).2.vm = f.vm := vm_arith ..

@[simp] theorem vm_sbb (a b : BitVec w) (f : EFlags) :
    (sbb a b f).2.vm = f.vm := vm_arith ..

@[simp] theorem vm_and (a b : BitVec w) (f : EFlags) :
    (and a b f).2.vm = f.vm := vm_logic ..

@[simp] theorem vm_or (a b : BitVec w) (f : EFlags) :
    (or a b f).2.vm = f.vm := vm_logic ..

@[simp] theorem vm_xor (a b : BitVec w) (f : EFlags) :
    (xor a b f).2.vm = f.vm := vm_logic ..

@[simp] theorem vm_inc (a : BitVec w) (f : EFlags) :
    (inc a f).2.vm = f.vm := by simp [inc]

@[simp] theorem vm_dec (a : BitVec w) (f : EFlags) :
    (dec a f).2.vm = f.vm := by simp [dec]

theorem vm_inc8 (a : U8) (f : EFlags) : (inc a f).2.vm = f.vm := vm_inc a f

theorem vm_dec8 (a : U8) (f : EFlags) : (dec a f).2.vm = f.vm := vm_dec a f

@[simp] theorem vm_neg (a : BitVec w) (f : EFlags) :
    (neg a f).2.vm = f.vm := vm_arith ..

@[simp] theorem vm_table (i : U8) (a b : BitVec w) (f : EFlags) :
    (table i a b f).2.vm = f.vm := by
  unfold table
  repeat' split
  all_goals simp

@[simp] theorem vm_shl (v : BitVec w) (n : U32) (f : EFlags) :
    (shl v n f).2.vm = f.vm := by
  unfold shl
  dsimp only
  split <;> simp

@[simp] theorem vm_shr (v : BitVec w) (n : U32) (f : EFlags) :
    (shr v n f).2.vm = f.vm := by
  unfold shr
  dsimp only
  split <;> simp

@[simp] theorem vm_sar (v : BitVec w) (n : U32) (f : EFlags) :
    (sar v n f).2.vm = f.vm := by
  unfold sar
  dsimp only
  split <;> simp

@[simp] theorem vm_rol (v : BitVec w) (n : U32) (f : EFlags) :
    (rol v n f).2.vm = f.vm := by
  unfold rol
  dsimp only
  split <;> simp

@[simp] theorem vm_ror (v : BitVec w) (n : U32) (f : EFlags) :
    (ror v n f).2.vm = f.vm := by
  unfold ror
  dsimp only
  split <;> simp

/-- A rotate that goes bit by bit leaves VM alone, by induction on the
count. -/
theorem vm_stepTimes {step : BitVec w × EFlags → BitVec w × EFlags}
    (hstep : ∀ p, (step p).2.vm = p.2.vm) (n : Nat) (p : BitVec w × EFlags) :
    (stepTimes step n p).2.vm = p.2.vm := by
  induction n generalizing p with
  | zero => rfl
  | succ n ih => rw [stepTimes, ih, hstep]

@[simp] theorem vm_rcl (v : BitVec w) (n : U32) (f : EFlags) :
    (rcl v n f).2.vm = f.vm := by
  unfold rcl
  dsimp only
  split
  · rfl
  · rw [EFlags.vm_set _ _ _ (by decide)]
    exact vm_stepTimes (fun p => by simp [rclStep]) _ _

@[simp] theorem vm_rcr (v : BitVec w) (n : U32) (f : EFlags) :
    (rcr v n f).2.vm = f.vm :=
  vm_stepTimes (fun p => by simp [rcrStep]) _ _

@[simp] theorem vm_shift (sub : U8) (v : BitVec w) (n : U32) (f : EFlags) :
    (shift sub v n f).2.vm = f.vm := by
  unfold shift
  repeat' split
  all_goals simp

@[simp] theorem vm_mulFlags (overflow : Bool) (lo : BitVec w) (f : EFlags) :
    (mulFlags overflow lo f).vm = f.vm := by simp [mulFlags]

@[simp] theorem vm_imulTrunc (a b : BitVec w) (f : EFlags) :
    (imulTrunc a b f).2.vm = f.vm := vm_mulFlags ..

end Alu

namespace HotRegs

open Alu

@[simp] theorem vm_withMulFlags (r : HotRegs)
    (overflow : Bool) (lo : BitVec w) :
    (r.withMulFlags overflow lo).eflags.vm = r.eflags.vm := vm_mulFlags ..

@[simp] theorem vm_mul8 (v : U8) (r : HotRegs) :
    (mul8 v r).eflags.vm = r.eflags.vm := vm_withMulFlags ..

@[simp] theorem vm_mul16 (v : U16) (r : HotRegs) :
    (mul16 v r).eflags.vm = r.eflags.vm := vm_withMulFlags ..

@[simp] theorem vm_mul32 (v : U32) (r : HotRegs) :
    (mul32 v r).eflags.vm = r.eflags.vm := vm_withMulFlags ..

@[simp] theorem vm_imul8 (v : U8) (r : HotRegs) :
    (imul8 v r).eflags.vm = r.eflags.vm := vm_withMulFlags ..

@[simp] theorem vm_imul16 (v : U16) (r : HotRegs) :
    (imul16 v r).eflags.vm = r.eflags.vm := vm_withMulFlags ..

@[simp] theorem vm_imul32 (v : U32) (r : HotRegs) :
    (imul32 v r).eflags.vm = r.eflags.vm := vm_withMulFlags ..

@[simp] theorem eflags_setDiv8 (r : HotRegs) (qr : U8 × U8) :
    (setDiv8 r qr).eflags = r.eflags := by simp [setDiv8]

@[simp] theorem eflags_setDiv16 (r : HotRegs) (qr : U16 × U16) :
    (setDiv16 r qr).eflags = r.eflags := rfl

@[simp] theorem eflags_setDiv32 (r : HotRegs) (qr : U32 × U32) :
    (setDiv32 r qr).eflags = r.eflags := rfl

@[simp] theorem vm_daa (r : HotRegs) :
    (daa r).eflags.vm = r.eflags.vm := by simp [daa, onFlags]

@[simp] theorem vm_das (r : HotRegs) :
    (das r).eflags.vm = r.eflags.vm := by simp [das, onFlags]

@[simp] theorem vm_maskAl (r : HotRegs) :
    (maskAl r).eflags.vm = r.eflags.vm := by simp [maskAl, onFlags]

@[simp] theorem vm_asciiAdjust (d : U16) (r : HotRegs) :
    (asciiAdjust d r).eflags.vm = r.eflags.vm := by
  unfold asciiAdjust
  split <;> simp [onFlags]

@[simp] theorem vm_aaa (r : HotRegs) :
    (aaa r).eflags.vm = r.eflags.vm := vm_asciiAdjust ..

@[simp] theorem vm_aas (r : HotRegs) :
    (aas r).eflags.vm = r.eflags.vm := vm_asciiAdjust ..

@[simp] theorem vm_aamFault (al : U8) (f : EFlags) :
    (aamFault al f).vm = f.vm := by
  simp [aamFault]

@[simp] theorem vm_aam (base : U8) (r : HotRegs) :
    (aam base r).eflags.vm = r.eflags.vm := by simp [aam, onFlags]

@[simp] theorem vm_aad (base : U8) (r : HotRegs) :
    (aad base r).eflags.vm = r.eflags.vm := by simp [aad, onFlags]

end HotRegs

/-- Raise #DE, or store the quotient and remainder with `put`. -/
def divide {β : Type} [Bus β] (qr : HotRegs → Option (BitVec w × BitVec w))
    (put : HotRegs → BitVec w × BitVec w → HotRegs)
    (hput : ∀ r p, (put r p).eflags.vm = r.eflags.vm := by intro r p; simp) :
    Calm β Unit := do
  let s ← self
  match qr s.regs.toHotRegs with
  | none => throw Exception.de
  | some p => modifyHot (put · p) (hput · p)

end Remu.X32
