/-
Flag arithmetic: the arithmetic, logic, shift and rotate operations, the
multiplies and divides, and the BCD adjustments.

Each operation is a pure function of its operands and RFLAGS (or of the
hot registers, where it reads and writes AX and DX), generic in the
operand width. AF after logic operations and after shifts is undefined on
hardware and cleared here; the flags after a divide are left alone.

No operation moves `RFLAGS.VM`; the simp lemmas beside the definitions say
so once and `modifyFlags` uses them silently.
-/
import Remu.X64.Cpu

namespace Remu.X64

open RFlags (CF PF AF ZF SF OF)

variable {w : Nat}

namespace Alu

-- ======== add, subtract, logic

/-- Carry out of bit 3. -/
def auxCarry (a b r : BitVec w) : Bool := (a ^^^ b ^^^ r) &&& 0x10 != 0

/-- Overflow of an addition: the result's sign differs from both. -/
def addOverflow (a b r : BitVec w) : Bool := ((a ^^^ r) &&& (b ^^^ r)).msb

/-- Overflow of a subtraction. -/
def subOverflow (a b r : BitVec w) : Bool := ((a ^^^ b) &&& (a ^^^ r)).msb

/-- Install the six status flags of an addition or subtraction. -/
def arith (cf af ovf : Bool) (r : BitVec w) (f : RFlags) : BitVec w × RFlags :=
  (r, (((f.set CF cf).set AF af).set OF ovf).setSzp r)

/-- CF as a word. -/
def carry (f : RFlags) : BitVec w := if f.contains CF then 1 else 0

/-- ADD. -/
def add (a b : BitVec w) (f : RFlags) : BitVec w × RFlags :=
  let r := a + b
  arith (r < a) (auxCarry a b r) (addOverflow a b r) r f

/-- ADC: the carry of the exact sum of three. -/
def adc (a b : BitVec w) (f : RFlags) : BitVec w × RFlags :=
  let c : BitVec w := carry f
  let r := a + b + c
  arith (2 ^ w ≤ a.toNat + b.toNat + c.toNat) (auxCarry a b r)
    (addOverflow a b r) r f

/-- SUB and CMP. -/
def sub (a b : BitVec w) (f : RFlags) : BitVec w × RFlags :=
  let r := a - b
  arith (a < b) (auxCarry a b r) (subOverflow a b r) r f

/-- SBB: borrow out of the exact difference. -/
def sbb (a b : BitVec w) (f : RFlags) : BitVec w × RFlags :=
  let c : BitVec w := carry f
  let r := a - b - c
  arith (a.toNat < b.toNat + c.toNat) (auxCarry a b r) (subOverflow a b r) r f

/-- CF, OF and AF clear, SF, ZF and PF from the result. -/
def logic (r : BitVec w) (f : RFlags) : BitVec w × RFlags :=
  (r, (f.remove (CF ||| OF ||| AF)).setSzp r)

/-- AND and TEST. -/
def and (a b : BitVec w) : RFlags → BitVec w × RFlags := logic (a &&& b)
def or (a b : BitVec w) : RFlags → BitVec w × RFlags := logic (a ||| b)
def xor (a b : BitVec w) : RFlags → BitVec w × RFlags := logic (a ^^^ b)

/-- INC and DEC leave CF. -/
def inc (a : BitVec w) (f : RFlags) : BitVec w × RFlags :=
  let r := a + 1
  (r, ((f.set AF (a &&& 0xF == 0xF)).set OF (r == BitVec.intMin w)).setSzp r)

/-- DEC leaves CF alone. -/
def dec (a : BitVec w) (f : RFlags) : BitVec w × RFlags :=
  let r := a - 1
  (r, ((f.set AF (a &&& 0xF == 0)).set OF (a == BitVec.intMin w)).setSzp r)

/-- NEG: CF unless the operand is zero, OF for the most negative number. -/
def neg (a : BitVec w) (f : RFlags) : BitVec w × RFlags :=
  arith (a != 0) (a &&& 0xF != 0) (a == BitVec.intMin w) (-a) f

/-- The eight-slot ALU table: ADD OR ADC SBB AND SUB XOR CMP. -/
def table (i : U8) (a b : BitVec w) : RFlags → BitVec w × RFlags :=
  if i = 0 then add a b
  else if i = 1 then or a b
  else if i = 2 then adc a b
  else if i = 3 then sbb a b
  else if i = 4 then and a b
  else if i = 5 then sub a b
  else if i = 6 then xor a b
  else sub a b

-- ======== shifts and rotates

/-- The shift count: 5 bits, 6 for 64-bit operands. -/
def shiftCount (w : Nat) (count : U32) : Nat :=
  (count &&& (if w = 64 then 63 else 31)).toNat

/-- SHL: CF is the last bit out; OF where the count is 1. -/
def shl (v : BitVec w) (count : U32) (f : RFlags) : BitVec w × RFlags :=
  let n := shiftCount w count
  if n = 0 then (v, f)
  else
    let wide : U128 := v.setWidth 128 <<< n
    let r : BitVec w := wide.setWidth w
    let cf := wide.getLsbD w
    (r, (((f.set CF cf).set OF (r.msb != cf)).remove AF).setSzp r)

/-- SHR. -/
def shr (v : BitVec w) (count : U32) (f : RFlags) : BitVec w × RFlags :=
  let n := shiftCount w count
  if n = 0 then (v, f)
  else
    let r : BitVec w := if w ≤ n then 0 else v >>> n
    let cf := decide (n ≤ w) && v.getLsbD (n - 1)
    (r, (((f.set CF cf).set OF v.msb).remove AF).setSzp r)

/-- SAR: the sign is shifted in, past the width too. -/
def sar (v : BitVec w) (count : U32) (f : RFlags) : BitVec w × RFlags :=
  let n := shiftCount w count
  if n = 0 then (v, f)
  else
    let sx := v.sshiftRight (min (n - 1) (w - 1))
    let r := sx.sshiftRight 1
    (r, ((f.set CF (sx.getLsbD 0)).remove (OF ||| AF)).setSzp r)

/-- ROL: CF is the bit that comes round. -/
def rol (v : BitVec w) (count : U32) (f : RFlags) : BitVec w × RFlags :=
  let n := shiftCount w count
  if n = 0 then (v, f)
  else
    let r := v.rotateLeft (n % w)
    let cf := r.getLsbD 0
    (r, (f.set CF cf).set OF (r.msb != cf))

/-- ROR. -/
def ror (v : BitVec w) (count : U32) (f : RFlags) : BitVec w × RFlags :=
  let n := shiftCount w count
  if n = 0 then (v, f)
  else
    let r := v.rotateRight (n % w)
    (r, (f.set CF r.msb).set OF (r ^^^ (r <<< 1)).msb)

/-- `v:CF`, the value the through-carry rotates turn. -/
def withCarry (v : BitVec w) (f : RFlags) : BitVec (2 * w) :=
  (v.setWidth (2 * w) <<< 1) ||| carry f

/-- The low `w + 1` bits. -/
def carryMask (w : Nat) : BitVec (2 * w) := (1 <<< (w + 1)) - 1

/-- The masked count is reduced modulo `w + 1`: the carry takes part. -/
def rcl (v : BitVec w) (count : U32) (f : RFlags) : BitVec w × RFlags :=
  let n := shiftCount w count % (w + 1)
  if n = 0 then (v, f)
  else
    let x := withCarry v f
    let rot := ((x <<< n) ||| (x >>> (w + 1 - n))) &&& carryMask w
    let r : BitVec w := (rot >>> 1).setWidth w
    let cf := rot.getLsbD 0
    (r, (f.set CF cf).set OF (r.msb != cf))

/-- RCR: the operand and CF as one word of `w + 1` bits. -/
def rcr (v : BitVec w) (count : U32) (f : RFlags) : BitVec w × RFlags :=
  let n := shiftCount w count % (w + 1)
  if n = 0 then (v, f)
  else
    let x := withCarry v f
    let rot := ((x >>> n) ||| (x <<< (w + 1 - n))) &&& carryMask w
    let r : BitVec w := (rot >>> 1).setWidth w
    (r, (f.set OF (v.msb != f.contains CF)).set CF (rot.getLsbD 0))

/-- The shift group by sub-opcode; /6 aliases SHL. -/
def shift (sub : U8) (v : BitVec w) (n : U32) : RFlags → BitVec w × RFlags :=
  if sub = 0 then rol v n
  else if sub = 1 then ror v n
  else if sub = 2 then rcl v n
  else if sub = 3 then rcr v n
  else if sub = 4 then shl v n
  else if sub = 5 then shr v n
  else if sub = 6 then shl v n
  else sar v n

-- ======== multiplication

/-- CF and OF say the product does not fit the destination half. -/
def mulFlags (overflow : Bool) (lo : BitVec w) (f : RFlags) : RFlags :=
  (((f.set CF overflow).set OF overflow).remove AF).setSzp lo

/-- The signed product and whether it overflows the operand width. -/
def signedProduct (a b : BitVec w) : BitVec (w + w) × Bool :=
  let r := a.signExtend (w + w) * b.signExtend (w + w)
  (r, r != (r.setWidth w).signExtend (w + w))

/-- Two-operand IMUL. -/
def imulTrunc (a b : BitVec w) (f : RFlags) : BitVec w × RFlags :=
  let (r, overflow) := signedProduct a b
  (r.setWidth w, mulFlags overflow (r.setWidth w) f)

end Alu

namespace HotRegs

open Alu

/-- Put a double-width product into an accumulator pair. -/
def setPair16 (r : HotRegs) (p : BitVec (16 + 16)) : HotRegs :=
  (r.setReg16 0 (p.setWidth 16)).setReg16 2 ((p >>> 16).setWidth 16)

/-- EDX:EAX. -/
def setPair32 (r : HotRegs) (p : BitVec (32 + 32)) : HotRegs :=
  (r.setReg32 0 (p.setWidth 32)).setReg32 2 ((p >>> 32).setWidth 32)

/-- RDX:RAX. -/
def setPair64 (r : HotRegs) (p : BitVec (64 + 64)) : HotRegs :=
  (r.setReg64 0 (p.setWidth 64)).setReg64 2 ((p >>> 64).setWidth 64)

/-- The unsigned double-width product. -/
def product (a b : BitVec w) : BitVec (w + w) :=
  a.setWidth (w + w) * b.setWidth (w + w)

/-- CF and OF say whether the high half matters. -/
def withMulFlags (r : HotRegs) (overflow : Bool) (lo : BitVec w) : HotRegs :=
  { r with rflags := mulFlags overflow lo r.rflags }

/-- MUL, by operand size. -/
def mul8 (v : U8) (rex : Bool) (r : HotRegs) : HotRegs :=
  let p : U16 := product (r.reg8 0 rex) v
  (r.setReg16 0 p).withMulFlags (p &&& 0xFF00 != 0) (p.setWidth 8)

def mul16 (v : U16) (r : HotRegs) : HotRegs :=
  let p := product (r.reg16 0) v
  (r.setPair16 p).withMulFlags (p >>> 16 != 0) (p.setWidth 16)

def mul32 (v : U32) (r : HotRegs) : HotRegs :=
  let p := product (r.reg32 0) v
  (r.setPair32 p).withMulFlags (p >>> 32 != 0) (p.setWidth 32)

def mul64 (v : U64) (r : HotRegs) : HotRegs :=
  let p := product (r.reg64 0) v
  (r.setPair64 p).withMulFlags (p >>> 64 != 0) (p.setWidth 64)

/-- IMUL of one operand, by operand size. -/
def imul8 (v : U8) (rex : Bool) (r : HotRegs) : HotRegs :=
  let (p, overflow) := signedProduct (r.reg8 0 rex) v
  (r.setReg16 0 p).withMulFlags overflow (p.setWidth 8)

def imul16 (v : U16) (r : HotRegs) : HotRegs :=
  let (p, overflow) := signedProduct (r.reg16 0) v
  (r.setPair16 p).withMulFlags overflow (p.setWidth 16)

def imul32 (v : U32) (r : HotRegs) : HotRegs :=
  let (p, overflow) := signedProduct (r.reg32 0) v
  (r.setPair32 p).withMulFlags overflow (p.setWidth 32)

def imul64 (v : U64) (r : HotRegs) : HotRegs :=
  let (p, overflow) := signedProduct (r.reg64 0) v
  (r.setPair64 p).withMulFlags overflow (p.setWidth 64)

-- ======== division

/-- `hi:lo` as one double-width word. -/
def pair (hi lo : BitVec w) : BitVec (w + w) :=
  (hi.setWidth (w + w) <<< w) ||| lo.setWidth (w + w)

/-- Unsigned quotient and remainder; `none` is the divide fault (divisor
zero or a quotient that does not fit). -/
def udivide (dividend : BitVec (w + w)) (v : BitVec w) :
    Option (BitVec w × BitVec w) :=
  if v = 0 then none
  else
    let q := dividend / v.setWidth (w + w)
    if 2 ^ w ≤ q.toNat then none
    else some (q.setWidth w, (dividend % v.setWidth (w + w)).setWidth w)

/-- Signed quotient and remainder, truncating. -/
def sdivide (dividend : BitVec (w + w)) (v : BitVec w) :
    Option (BitVec w × BitVec w) :=
  if v = 0 then none
  else
    let q := dividend.sdiv (v.signExtend (w + w))
    if q ≠ (q.setWidth w).signExtend (w + w) then none
    else some (q.setWidth w, (dividend.srem (v.signExtend (w + w))).setWidth w)

/-- DIV, by operand size; `none` is #DE. -/
def div8 (v : U8) (r : HotRegs) : Option (U8 × U8) :=
  udivide (r.reg16 0 : BitVec (8 + 8)) v

def div16 (v : U16) (r : HotRegs) : Option (U16 × U16) :=
  udivide (pair (r.reg16 2) (r.reg16 0)) v

def div32 (v : U32) (r : HotRegs) : Option (U32 × U32) :=
  udivide (pair (r.reg32 2) (r.reg32 0)) v

def div64 (v : U64) (r : HotRegs) : Option (U64 × U64) :=
  udivide (pair (r.reg64 2) (r.reg64 0)) v

/-- IDIV, by operand size. The 8-bit form checks the one quotient that would
overflow by hand. -/
def idiv8 (v : U8) (r : HotRegs) : Option (U8 × U8) :=
  if r.reg16 0 = BitVec.intMin 16 ∧ v = 0xFF then none
  else sdivide (r.reg16 0 : BitVec (8 + 8)) v

def idiv16 (v : U16) (r : HotRegs) : Option (U16 × U16) :=
  sdivide (pair (r.reg16 2) (r.reg16 0)) v

def idiv32 (v : U32) (r : HotRegs) : Option (U32 × U32) :=
  sdivide (pair (r.reg32 2) (r.reg32 0)) v

def idiv64 (v : U64) (r : HotRegs) : Option (U64 × U64) :=
  sdivide (pair (r.reg64 2) (r.reg64 0)) v

/-- Quotient to AL, remainder to register number 4 (AH without REX). -/
def setDiv8 (rex : Bool) (r : HotRegs) (qr : U8 × U8) : HotRegs :=
  (r.setReg8 0 rex qr.1).setReg8 4 rex qr.2

/-- Quotient and remainder put back. -/
def setDiv16 (r : HotRegs) (qr : U16 × U16) : HotRegs :=
  (r.setReg16 0 qr.1).setReg16 2 qr.2

def setDiv32 (r : HotRegs) (qr : U32 × U32) : HotRegs :=
  (r.setReg32 0 qr.1).setReg32 2 qr.2

def setDiv64 (r : HotRegs) (qr : U64 × U64) : HotRegs :=
  (r.setReg64 0 qr.1).setReg64 2 qr.2

-- ======== BCD adjustments

/-- Change the flags of a register file. -/
def onFlags (r : HotRegs) (g : RFlags → RFlags) : HotRegs :=
  { r with rflags := g r.rflags }

/-- Adjust AL after adding packed digits. -/
def daa (rex : Bool) (r : HotRegs) : HotRegs :=
  let oldAl := r.reg8 0 rex
  let oldCf := r.rflags.contains CF
  let low := decide (9 < oldAl &&& 0xF) || r.rflags.contains AF
  let high := decide (0x99 < oldAl) || oldCf
  let al := if low then oldAl + 6 else oldAl
  let al := if high then al + 0x60 else al
  (r.onFlags fun f => (((f.set AF low).set CF high).remove OF).setSzp
    al).setReg8 0 rex al

/-- Adjust AL after subtracting packed digits. -/
def das (rex : Bool) (r : HotRegs) : HotRegs :=
  let oldAl := r.reg8 0 rex
  let oldCf := r.rflags.contains CF
  let low := decide (9 < oldAl &&& 0xF) || r.rflags.contains AF
  let high := decide (0x99 < oldAl) || oldCf
  let al := if low then oldAl - 6 else oldAl
  let al := if high then al - 0x60 else al
  let cf := high || (low && (oldCf || decide (oldAl < 6)))
  (r.onFlags fun f => (((f.set AF low).set CF cf).remove OF).setSzp al).setReg8 0 rex al

/-- The tail AAA and AAS share: AL keeps its low nibble. -/
def maskAl (rex : Bool) (r : HotRegs) : HotRegs :=
  let masked := r.reg8 0 rex &&& 0x0F
  (r.setReg8 0 rex masked).onFlags fun f => (f.remove OF).setSzp masked

/-- AAA and AAS: adjust AX by `d` when the low nibble is not a digit. -/
def asciiAdjust (d : U16) (rex : Bool) (r : HotRegs) : HotRegs :=
  if 9 < r.reg8 0 rex &&& 0xF ∨ r.rflags.contains AF then
    ((r.setReg16 0 (r.reg16 0 + d)).onFlags (·.insert (AF ||| CF))).maskAl rex
  else (r.onFlags (·.remove (AF ||| CF))).maskAl rex

/-- Adjust AX after adding unpacked digits. -/
def aaa (rex : Bool) (r : HotRegs) : HotRegs := r.asciiAdjust 0x106 rex
/-- Adjust AX after subtracting unpacked digits. -/
def aas (rex : Bool) (r : HotRegs) : HotRegs := r.asciiAdjust (-0x106) rex

/-- The flags AAM leaves when its base is zero, before the divide fault. -/
def aamFault (f : RFlags) : RFlags :=
  (f.remove (CF ||| OF ||| AF ||| SF)).insert (ZF ||| PF)

/-- Split AL into two digits. -/
def aam (base : U8) (rex : Bool) (r : HotRegs) : HotRegs :=
  let al := r.reg8 0 rex
  ((r.setReg8 4 rex (al / base)).setReg8 0 rex (al % base)).onFlags fun f =>
    (f.remove (CF ||| OF ||| AF)).setSzp (al % base)

/-- Join two digits into AL. -/
def aad (base : U8) (rex : Bool) (r : HotRegs) : HotRegs :=
  let al := r.reg8 0 rex + r.reg8 4 rex * base
  (r.setReg16 0 (al.setWidth 16)).onFlags fun f =>
    (f.remove (CF ||| OF ||| AF)).setSzp al

end HotRegs

-- ======== VM is nobody's output

namespace Alu

@[simp] theorem vm_arith (cf af ovf : Bool) (r : BitVec w) (f : RFlags) :
    (arith cf af ovf r f).2.vm = f.vm := by simp [arith]

@[simp] theorem vm_logic (r : BitVec w) (f : RFlags) :
    (logic r f).2.vm = f.vm := by simp [logic]

@[simp] theorem vm_add (a b : BitVec w) (f : RFlags) :
    (add a b f).2.vm = f.vm := vm_arith ..

@[simp] theorem vm_adc (a b : BitVec w) (f : RFlags) :
    (adc a b f).2.vm = f.vm := vm_arith ..

@[simp] theorem vm_sub (a b : BitVec w) (f : RFlags) :
    (sub a b f).2.vm = f.vm := vm_arith ..

@[simp] theorem vm_sbb (a b : BitVec w) (f : RFlags) :
    (sbb a b f).2.vm = f.vm := vm_arith ..

@[simp] theorem vm_and (a b : BitVec w) (f : RFlags) :
    (and a b f).2.vm = f.vm := vm_logic ..

@[simp] theorem vm_or (a b : BitVec w) (f : RFlags) :
    (or a b f).2.vm = f.vm := vm_logic ..

@[simp] theorem vm_xor (a b : BitVec w) (f : RFlags) :
    (xor a b f).2.vm = f.vm := vm_logic ..

@[simp] theorem vm_inc (a : BitVec w) (f : RFlags) :
    (inc a f).2.vm = f.vm := by simp [inc]

@[simp] theorem vm_dec (a : BitVec w) (f : RFlags) :
    (dec a f).2.vm = f.vm := by simp [dec]

theorem vm_inc8 (a : U8) (f : RFlags) : (inc a f).2.vm = f.vm := vm_inc a f

theorem vm_dec8 (a : U8) (f : RFlags) : (dec a f).2.vm = f.vm := vm_dec a f

@[simp] theorem vm_neg (a : BitVec w) (f : RFlags) :
    (neg a f).2.vm = f.vm := vm_arith ..

@[simp] theorem vm_table (i : U8) (a b : BitVec w) (f : RFlags) :
    (table i a b f).2.vm = f.vm := by
  unfold table
  repeat' split
  all_goals simp

@[simp] theorem vm_shl (v : BitVec w) (n : U32) (f : RFlags) :
    (shl v n f).2.vm = f.vm := by
  unfold shl
  dsimp only
  split <;> simp

@[simp] theorem vm_shr (v : BitVec w) (n : U32) (f : RFlags) :
    (shr v n f).2.vm = f.vm := by
  unfold shr
  dsimp only
  split <;> simp

@[simp] theorem vm_sar (v : BitVec w) (n : U32) (f : RFlags) :
    (sar v n f).2.vm = f.vm := by
  unfold sar
  dsimp only
  split <;> simp

@[simp] theorem vm_rol (v : BitVec w) (n : U32) (f : RFlags) :
    (rol v n f).2.vm = f.vm := by
  unfold rol
  dsimp only
  split <;> simp

@[simp] theorem vm_ror (v : BitVec w) (n : U32) (f : RFlags) :
    (ror v n f).2.vm = f.vm := by
  unfold ror
  dsimp only
  split <;> simp

@[simp] theorem vm_rcl (v : BitVec w) (n : U32) (f : RFlags) :
    (rcl v n f).2.vm = f.vm := by
  unfold rcl
  dsimp only
  split <;> simp

@[simp] theorem vm_rcr (v : BitVec w) (n : U32) (f : RFlags) :
    (rcr v n f).2.vm = f.vm := by
  unfold rcr
  dsimp only
  split <;> simp

@[simp] theorem vm_shift (sub : U8) (v : BitVec w) (n : U32) (f : RFlags) :
    (shift sub v n f).2.vm = f.vm := by
  unfold shift
  repeat' split
  all_goals simp

@[simp] theorem vm_mulFlags (overflow : Bool) (lo : BitVec w) (f : RFlags) :
    (mulFlags overflow lo f).vm = f.vm := by simp [mulFlags]

@[simp] theorem vm_imulTrunc (a b : BitVec w) (f : RFlags) :
    (imulTrunc a b f).2.vm = f.vm := vm_mulFlags ..

end Alu

namespace HotRegs

open Alu

@[simp] theorem vm_withMulFlags (r : HotRegs)
    (overflow : Bool) (lo : BitVec w) :
    (r.withMulFlags overflow lo).rflags.vm = r.rflags.vm := vm_mulFlags ..

@[simp] theorem vm_mul8 (v : U8) (rex : Bool) (r : HotRegs) :
    (mul8 v rex r).rflags.vm = r.rflags.vm := vm_withMulFlags ..

@[simp] theorem vm_mul16 (v : U16) (r : HotRegs) :
    (mul16 v r).rflags.vm = r.rflags.vm := vm_withMulFlags ..

@[simp] theorem vm_mul32 (v : U32) (r : HotRegs) :
    (mul32 v r).rflags.vm = r.rflags.vm := vm_withMulFlags ..

@[simp] theorem vm_mul64 (v : U64) (r : HotRegs) :
    (mul64 v r).rflags.vm = r.rflags.vm := vm_withMulFlags ..

@[simp] theorem vm_imul8 (v : U8) (rex : Bool) (r : HotRegs) :
    (imul8 v rex r).rflags.vm = r.rflags.vm := vm_withMulFlags ..

@[simp] theorem vm_imul16 (v : U16) (r : HotRegs) :
    (imul16 v r).rflags.vm = r.rflags.vm := vm_withMulFlags ..

@[simp] theorem vm_imul32 (v : U32) (r : HotRegs) :
    (imul32 v r).rflags.vm = r.rflags.vm := vm_withMulFlags ..

@[simp] theorem vm_imul64 (v : U64) (r : HotRegs) :
    (imul64 v r).rflags.vm = r.rflags.vm := vm_withMulFlags ..

@[simp] theorem rflags_setDiv8 (rex : Bool) (r : HotRegs) (qr : U8 × U8) :
    (setDiv8 rex r qr).rflags = r.rflags := by simp [setDiv8]

@[simp] theorem rflags_setDiv16 (r : HotRegs) (qr : U16 × U16) :
    (setDiv16 r qr).rflags = r.rflags := rfl

@[simp] theorem rflags_setDiv32 (r : HotRegs) (qr : U32 × U32) :
    (setDiv32 r qr).rflags = r.rflags := rfl

@[simp] theorem rflags_setDiv64 (r : HotRegs) (qr : U64 × U64) :
    (setDiv64 r qr).rflags = r.rflags := rfl

@[simp] theorem vm_daa (rex : Bool) (r : HotRegs) :
    (daa rex r).rflags.vm = r.rflags.vm := by simp [daa, onFlags]

@[simp] theorem vm_das (rex : Bool) (r : HotRegs) :
    (das rex r).rflags.vm = r.rflags.vm := by simp [das, onFlags]

@[simp] theorem vm_maskAl (rex : Bool) (r : HotRegs) :
    (maskAl rex r).rflags.vm = r.rflags.vm := by simp [maskAl, onFlags]

@[simp] theorem vm_asciiAdjust (d : U16) (rex : Bool) (r : HotRegs) :
    (asciiAdjust d rex r).rflags.vm = r.rflags.vm := by
  unfold asciiAdjust
  split <;> simp [onFlags]

@[simp] theorem vm_aaa (rex : Bool) (r : HotRegs) :
    (aaa rex r).rflags.vm = r.rflags.vm := vm_asciiAdjust ..

@[simp] theorem vm_aas (rex : Bool) (r : HotRegs) :
    (aas rex r).rflags.vm = r.rflags.vm := vm_asciiAdjust ..

@[simp] theorem vm_aamFault (f : RFlags) : (aamFault f).vm = f.vm := by
  simp [aamFault]

@[simp] theorem vm_aam (base : U8) (rex : Bool) (r : HotRegs) :
    (aam base rex r).rflags.vm = r.rflags.vm := by simp [aam, onFlags]

@[simp] theorem vm_aad (base : U8) (rex : Bool) (r : HotRegs) :
    (aad base rex r).rflags.vm = r.rflags.vm := by simp [aad, onFlags]

end HotRegs

/-- Raise #DE, or store the quotient and remainder with `put`. -/
def divide {β : Type} [Bus β] (qr : HotRegs → Option (BitVec w × BitVec w))
    (put : HotRegs → BitVec w × BitVec w → HotRegs)
    (hput : ∀ r p, (put r p).rflags.vm = r.rflags.vm := by intro r p; simp) :
    Calm β Unit := do
  let s ← self
  match qr s.regs.toHotRegs with
  | none => throw Exception.de
  | some p => modifyHot (put · p) (hput · p)

end Remu.X64
