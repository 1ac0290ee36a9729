/-
The 8086's flags and the part of its arithmetic that decimal numbers use:
the adders, and the adjustments of AL after them.

The adjustments follow the 8088 rather than the manual: the threshold of
the high digit depends on AF, and OF is set from ranges of AL.
-/
import Remu.Lib.Adders
import Remu.Lib.Fields
import Remu.Lib.Word

namespace Remu.X86

/-- The FLAGS register. -/
structure Flags where
  bits : U16
deriving DecidableEq, Repr

namespace Flags

/-- Carry. -/
abbrev CF : U16 := 0x0001
/-- Parity. -/
abbrev PF : U16 := 0x0004
/-- Carry out of bit 3. -/
abbrev AF : U16 := 0x0010
/-- Zero. -/
abbrev ZF : U16 := 0x0040
/-- Sign. -/
abbrev SF : U16 := 0x0080
/-- Overflow. -/
abbrev OF : U16 := 0x0800

/-- Whether all the flags of the mask are set. -/
def contains (f : Flags) (m : U16) : Bool := f.bits &&& m == m

/-- Sets the flags of the mask. -/
def insert (f : Flags) (m : U16) : Flags := ⟨f.bits ||| m⟩

/-- Clears the flags of the mask. -/
def remove (f : Flags) (m : U16) : Flags := ⟨f.bits &&& ~~~m⟩

/-- Sets or clears them. -/
def set (f : Flags) (m : U16) (v : Bool) : Flags :=
  if v then f.insert m else f.remove m

/-- An even number of set bits. -/
def evenParity (v : U8) : Bool :=
  (List.range 8).countP (fun i => v.getLsbD i) % 2 == 0

/-- SF, ZF and PF from a result of any width. -/
def setSzp {w : Nat} (f : Flags) (v : BitVec w) : Flags :=
  ((f.set SF v.msb).set ZF (v == 0)).set PF (evenParity (v.setWidth 8))

end Flags

open Flags (CF PF AF ZF SF OF)

-- ======== adders

namespace Alu

variable {w : Nat}

/-- Carry out of bit 3. -/
def auxCarry (a b r : BitVec w) : Bool := (a ^^^ b ^^^ r) &&& 0x10 != 0

/-- A sum overflows when both operands have the sign the result lacks. -/
def addOverflow (a b r : BitVec w) : Bool := ((a ^^^ r) &&& (b ^^^ r)).msb

/-- A difference overflows when the operands' signs differ and the result has
the second's. -/
def subOverflow (a b r : BitVec w) : Bool := ((a ^^^ b) &&& (a ^^^ r)).msb

/-- Install the six status flags of an addition or subtraction. -/
def arith (cf af ovf : Bool) (r : BitVec w) (f : Flags) : BitVec w × Flags :=
  (r, (((f.set CF cf).set AF af).set OF ovf).setSzp r)

/-- CF as a number. -/
def carry (f : Flags) : BitVec w := if f.contains CF then 1 else 0

/-- ADD with its flags. -/
def add (a b : BitVec w) (f : Flags) : BitVec w × Flags :=
  let r := a + b
  arith (2 ^ w ≤ a.toNat + b.toNat) (auxCarry a b r) (addOverflow a b r) r f

/-- ADC: the carry is part of the sum. -/
def adc (a b : BitVec w) (f : Flags) : BitVec w × Flags :=
  let c : BitVec w := carry f
  let r := a + b + c
  arith (2 ^ w ≤ a.toNat + b.toNat + c.toNat) (auxCarry a b r)
    (addOverflow a b r) r f

/-- SUB with its flags. -/
def sub (a b : BitVec w) (f : Flags) : BitVec w × Flags :=
  let r := a - b
  arith (a.toNat < b.toNat) (auxCarry a b r) (subOverflow a b r) r f

/-- SBB: the borrow is part of the difference. -/
def sbb (a b : BitVec w) (f : Flags) : BitVec w × Flags :=
  let c : BitVec w := carry f
  let r := a - b - c
  arith (a.toNat < b.toNat + c.toNat) (auxCarry a b r) (subOverflow a b r) r f

end Alu

-- ======== BCD adjustments

/-- The accumulator and the flags: all the adjustments touch. -/
structure Registers where
  ax : U16
  flags : Flags
deriving DecidableEq, Repr

namespace Registers

/-- The low byte of AX. -/
def al (r : Registers) : U8 := r.ax.setWidth 8

/-- Writes the low byte of AX. -/
def setAl (r : Registers) (v : U8) : Registers :=
  { r with ax := (r.ax &&& 0xFF00) ||| v.setWidth 16 }

/-- The largest AL that leaves the high digit alone. -/
def alCheck (oldAf : Bool) : U8 := if oldAf then 0x9F else 0x99

/-- Decimal adjust after addition. -/
def daa (r : Registers) : Registers :=
  let oldAl := r.al
  let oldCf := r.flags.contains CF
  let oldAf := r.flags.contains AF
  let ovf := if oldCf then decide (0x1A ≤ oldAl ∧ oldAl ≤ 0x7F)
    else decide (0x7A ≤ oldAl ∧ oldAl ≤ 0x7F)
  let low := decide (9 < oldAl &&& 0xF) || oldAf
  let high := decide (alCheck oldAf < oldAl) || oldCf
  let al := if low then oldAl + 6 else oldAl
  let al := if high then al + 0x60 else al
  { r with flags := (((r.flags.set OF ovf).set AF low).set CF high).setSzp al }.setAl al

/-- Decimal adjust after subtraction. -/
def das (r : Registers) : Registers :=
  let oldAl := r.al
  let oldCf := r.flags.contains CF
  let oldAf := r.flags.contains AF
  let ovf := match oldAf, oldCf with
    | false, false => decide (0x9A ≤ oldAl ∧ oldAl ≤ 0xDF)
    | true, false =>
      decide (0x80 ≤ oldAl ∧ oldAl ≤ 0x85) || decide
        (0xA0 ≤ oldAl ∧ oldAl ≤ 0xE5)
    | false, true => decide (0x80 ≤ oldAl ∧ oldAl ≤ 0xDF)
    | true, true => decide (0x80 ≤ oldAl ∧ oldAl ≤ 0xE5)
  let low := decide (9 < oldAl &&& 0xF) || oldAf
  let high := decide (alCheck oldAf < oldAl) || oldCf
  let al := if low then oldAl - 6 else oldAl
  let al := if high then al - 0x60 else al
  { r with flags := (((r.flags.set OF ovf).set AF low).set CF high).setSzp al }.setAl al

end Registers

end Remu.X86
