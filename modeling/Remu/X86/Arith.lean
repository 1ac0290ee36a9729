/-
The rest of the 8086's arithmetic: logic, INC, DEC and NEG, the shifts and
rotates, multiplication, and the ASCII adjustments.

The 8086 does not mask a shift count: the shifts repeat a one-bit step as
often as CL says, and a count of zero leaves the flags alone. Flags that
the manual leaves undefined are set to what the source sets them to.
-/
import Remu.X86.Cpu

namespace Remu.X86

open Flags (CF PF AF ZF SF OF)

namespace Alu

variable {w : Nat}

-- ======== logic

/-- The result of a logical operation. -/
def logic (r : BitVec w) (f : Flags) : BitVec w × Flags :=
  (r, (f.remove (CF ||| OF ||| AF)).setSzp r)

/-- AND with its flags. -/
def and (a b : BitVec w) (f : Flags) : BitVec w × Flags := logic (a &&& b) f

/-- OR with its flags. -/
def or (a b : BitVec w) (f : Flags) : BitVec w × Flags := logic (a ||| b) f

/-- XOR with its flags. -/
def xor (a b : BitVec w) (f : Flags) : BitVec w × Flags := logic (a ^^^ b) f

/-- The eight operations by their encoding; CMP is SUB that is not written
back. -/
def table (i : U8) : BitVec w → BitVec w → Flags → BitVec w × Flags :=
  match i.toNat with
  | 0 => add
  | 1 => or
  | 2 => adc
  | 3 => sbb
  | 4 => and
  | 5 => sub
  | 6 => xor
  | _ => sub

-- ======== one operand

/-- CF is preserved. -/
def inc (a : BitVec w) (f : Flags) : BitVec w × Flags :=
  let r := a + 1
  (r, ((f.set AF (a &&& 0xF == 0xF)).set OF (r.msb && !a.msb)).setSzp r)

/-- CF is preserved. -/
def dec (a : BitVec w) (f : Flags) : BitVec w × Flags :=
  let r := a - 1
  (r, ((f.set AF (a &&& 0xF == 0)).set OF (a.msb && !r.msb)).setSzp r)

/-- NEG: CF tells whether the operand was not zero. -/
def neg (a : BitVec w) (f : Flags) : BitVec w × Flags :=
  let r := 0 - a
  (r, (((f.set CF (a != 0)).set AF (a &&& 0xF != 0)).set OF (a == BitVec.intMin w)).setSzp r)

-- ======== shifts and rotates

/-- SHL by the count; a count of 0 leaves the flags. -/
def shl (v : BitVec w) (count : Nat) (f : Flags) : BitVec w × Flags :=
  if count = 0 then (v, f)
  else
    let (v, f) :=
      (fun p : BitVec w × Flags => (p.1 <<< 1, p.2.set CF p.1.msb))^[count] (v, f)
    (v, ((f.set OF (v.msb != f.contains CF)).remove AF).setSzp v)

/-- SHR by the count. -/
def shr (v : BitVec w) (count : Nat) (f : Flags) : BitVec w × Flags :=
  if count = 0 then (v, f)
  else
    let (v, f) := (fun p : BitVec w × Flags =>
      (p.1 >>> 1, (p.2.set OF p.1.msb).set CF (p.1.getLsbD 0)))^[count] (v, f)
    (v, (f.remove AF).setSzp v)

/-- SAR by the count. -/
def sar (v : BitVec w) (count : Nat) (f : Flags) : BitVec w × Flags :=
  if count = 0 then (v, f)
  else
    let (v, f) :=
      (fun p : BitVec w × Flags =>
        (p.1.sshiftRight 1, p.2.set CF (p.1.getLsbD 0)))^[count] (v, f)
    (v, (f.remove (OF ||| AF)).setSzp v)

/-- ROL by the count. -/
def rol (v : BitVec w) (count : Nat) (f : Flags) : BitVec w × Flags :=
  if count = 0 then (v, f)
  else
    let (v, f) := (fun p : BitVec w × Flags =>
      (p.1.rotateLeft 1, p.2.set CF ((p.1.rotateLeft 1).getLsbD 0)))^[count] (v, f)
    (v, f.set OF (v.msb != f.contains CF))

/-- ROR by the count. -/
def ror (v : BitVec w) (count : Nat) (f : Flags) : BitVec w × Flags :=
  if count = 0 then (v, f)
  else
    let (v, f) :=
      (fun p : BitVec w × Flags =>
        (p.1.rotateRight 1, p.2.set CF (p.1.getLsbD 0)))^[count] (v, f)
    (v, f.set OF (v ^^^ (v <<< 1)).msb)

/-- RCL: one rotation of the value with CF, `count` times. -/
def rcl (v : BitVec w) (count : Nat) (f : Flags) : BitVec w × Flags :=
  if count = 0 then (v, f)
  else
    let (v, f) := (fun p : BitVec w × Flags =>
      ((p.1 <<< 1) ||| carry p.2, p.2.set CF p.1.msb))^[count] (v, f)
    (v, f.set OF (v.msb != f.contains CF))

/-- OF is computed before each step. -/
def rcr (v : BitVec w) (count : Nat) (f : Flags) : BitVec w × Flags :=
  if count = 0 then (v, f)
  else
    (fun p : BitVec w × Flags =>
      let cf := p.2.contains CF
      ((p.1 >>> 1) ||| (carry p.2 <<< (w - 1)),
        (p.2.set OF (p.1.msb != cf)).set CF (p.1.getLsbD 0)))^[count] (v, f)

/-- The undocumented `/6`: all ones. -/
def setmo (v : BitVec w) (count : Nat) (f : Flags) : BitVec w × Flags :=
  if count = 0 then (v, f) else or (BitVec.allOnes w) (BitVec.allOnes w) f

/-- The shift group by its encoding. -/
def shiftTable (i : U8) : BitVec w → Nat → Flags → BitVec w × Flags :=
  match i.toNat with
  | 0 => rol
  | 1 => ror
  | 2 => rcl
  | 3 => rcr
  | 4 => shl
  | 5 => shr
  | 6 => setmo
  | _ => sar

end Alu

-- ======== multiplication

namespace RegFile

/-- MUL of AL into AX. -/
def mul8 (r : RegFile) (v : U8) : RegFile :=
  let p : U16 := (r.ax &&& 0xFF) * v.setWidth 16
  let hi := p &&& 0xFF00 != 0
  { r with ax := p, flags := ((r.flags.set CF hi).set OF hi).setSzp (p.setWidth 8) }

/-- MUL of AX into DX:AX. -/
def mul16 (r : RegFile) (v : U16) : RegFile :=
  let p : U32 := r.ax.setWidth 32 * v.setWidth 32
  let dx : U16 := (p >>> 16).setWidth 16
  let hi := dx != 0
  { r with
    ax := p.setWidth 16, dx
    flags := ((r.flags.set CF hi).set OF hi).setSzp (p.setWidth 16) }

/-- IMUL of AL into AX. -/
def imul8 (r : RegFile) (v : U8) : RegFile :=
  let p : U16 := (r.ax.setWidth 8).signExtend 16 * v.signExtend 16
  let wide := p != (p.setWidth 8).signExtend 16
  { r with ax := p, flags := ((r.flags.set CF wide).set OF wide).setSzp (p.setWidth 8) }

/-- IMUL of AX into DX:AX. -/
def imul16 (r : RegFile) (v : U16) : RegFile :=
  let p : U32 := r.ax.signExtend 32 * v.signExtend 32
  let wide := p != (p.setWidth 16).signExtend 32
  { r with
    ax := p.setWidth 16, dx := (p >>> 16).setWidth 16
    flags := ((r.flags.set CF wide).set OF wide).setSzp (p.setWidth 16) }

end RegFile

-- ======== ASCII adjustments

namespace Registers

/-- ASCII adjust after addition. -/
def aaa (r : Registers) : Registers :=
  let oldAl := r.al
  let oldAf := r.flags.contains AF
  let adjust := decide (9 < oldAl &&& 0xF) || oldAf
  let newAl := if adjust then oldAl + 6 else oldAl
  let ah := if adjust then (r.ax &&& 0xFF00) + 0x100 else r.ax &&& 0xFF00
  let f := if adjust then r.flags.insert (AF ||| CF)
    else r.flags.remove (AF ||| CF)
  { ax := ah ||| (newAl &&& 0x0F).setWidth 16
    flags := ((f.setSzp newAl).set SF
      (decide (0x7A ≤ oldAl ∧ oldAl ≤ 0xF9))).set OF
      (decide (0x7A ≤ oldAl ∧ oldAl ≤ 0x7F)) }

/-- ASCII adjust after subtraction. -/
def aas (r : Registers) : Registers :=
  let oldAl := r.al
  let oldAf := r.flags.contains AF
  let adjust := decide (9 < oldAl &&& 0xF) || oldAf
  let newAl := if adjust then oldAl - 6 else oldAl
  let ah := if adjust then ((r.ax &&& 0xFF00) - 0x100) &&& 0xFF00
    else r.ax &&& 0xFF00
  let f := if adjust then r.flags.insert (AF ||| CF)
    else r.flags.remove (AF ||| CF)
  let sf := (!oldAf && decide (0x80 ≤ oldAl))
    || (oldAf && (decide (oldAl ≤ 0x05) || decide (0x86 ≤ oldAl)))
  { ax := ah ||| (newAl &&& 0x0F).setWidth 16
    flags := ((f.setSzp newAl).set SF sf).set OF
      (oldAf && decide (0x80 ≤ oldAl ∧ oldAl ≤ 0x85)) }

/-- ASCII adjust before division, in any base. -/
def aad (r : Registers) (base : U8) : Registers :=
  let al : U8 := r.ax.setWidth 8 + (r.ax >>> 8).setWidth 8 * base
  { ax := al.setWidth 16, flags := (r.flags.remove (CF ||| OF ||| AF)).setSzp al }

end Registers

end Remu.X86
