/-
The host of the template JITs: the x86-64 instructions they emit.

Both JITs run on an x86-64 host and emit the same few instructions, at
doubleword and quadword size. An operand is a register, an immediate or a
field of the emulated processor, which the emitted code addresses through
RBP; the fields are cells of their own (`Cells`), whatever the layout.

The six status flags are the processor's business. Where the manual leaves a
flag undefined it takes any value: the state carries an arbitrary sequence
of such values (`junk`), and what is proved holds for all of them. A divide
error is recorded in `fault`.
-/
import Remu.Lib.Adders
import Remu.Lib.Assembly
import Remu.Lib.Fields

namespace Remu.Jit

-- ======== flags

/-- The status flags. -/
inductive Status where
  | CF
  | PF
  | AF
  | ZF
  | SF
  | OF
deriving DecidableEq, Repr

/-- What the host's flags are. -/
abbrev Flags := Status → Bool

variable {w : Nat}

/-- An even number of ones in the low byte. -/
def parity (r : BitVec w) : Bool :=
  (List.range 8).countP (fun i => (r.setWidth 8).getLsbD i) % 2 == 0

/-- The flags of an adder: of `a + b + c`. -/
def addFlags (a b : BitVec w) (c : Bool) : Flags
  | .CF => decide (2 ^ w ≤ a.toNat + b.toNat + c.toNat)
  | .AF => decide (16 ≤ a.toNat % 16 + b.toNat % 16 + c.toNat)
  | .OF => !decide (-2 ^ (w - 1) ≤ a.toInt + (b.toInt + c.toNat)
      ∧ a.toInt + (b.toInt + c.toNat) < 2 ^ (w - 1))
  | .SF => (a + b + carryWord w c).msb
  | .ZF => a + b + carryWord w c == 0
  | .PF => parity (a + b + carryWord w c)

/-- The flags of a subtractor: of `a - b - c`. -/
def subFlags (a b : BitVec w) (c : Bool) : Flags
  | .CF => decide (a.toNat < b.toNat + c.toNat)
  | .AF => decide (a.toNat % 16 < b.toNat % 16 + c.toNat)
  | .OF => !decide (-2 ^ (w - 1) ≤ a.toInt - (b.toInt + c.toNat)
      ∧ a.toInt - (b.toInt + c.toNat) < 2 ^ (w - 1))
  | .SF => (a - b - carryWord w c).msb
  | .ZF => a - b - carryWord w c == 0
  | .PF => parity (a - b - carryWord w c)

/-- SF, ZF and PF of a result, the others from `f`. -/
def szpFlags (r : BitVec w) (f : Flags) : Flags
  | .SF => r.msb
  | .ZF => r == 0
  | .PF => parity r
  | φ => f φ

/-- AND, OR, XOR and TEST: AF is undefined. -/
def logicFlags (r : BitVec w) (u : Flags) : Flags
  | .CF => false
  | .OF => false
  | φ => szpFlags r u φ

/-- INC and DEC leave CF. -/
def keepCarry (f g : Flags) : Flags
  | .CF => f .CF
  | φ => g φ

/-- The host's ALU operations. -/
inductive AluOp where
  | add
  | or
  | adc
  | sbb
  | and
  | sub
  | xor
  | cmp
deriving DecidableEq, Repr

/-- What an operation computes; CMP's difference goes nowhere. -/
def AluOp.result (op : AluOp) (a b : BitVec w) (c : Bool) : BitVec w :=
  match op with
  | .add => a + b
  | .or => a ||| b
  | .adc => a + b + carryWord w c
  | .sbb => a - b - carryWord w c
  | .and => a &&& b
  | .sub => a - b
  | .xor => a ^^^ b
  | .cmp => a - b

/-- The flags they leave; those undefined come from `u`. -/
def AluOp.flags (op : AluOp) (a b : BitVec w) (c : Bool) (u : Flags) : Flags :=
  match op with
  | .add => addFlags a b false
  | .or => logicFlags (a ||| b) u
  | .adc => addFlags a b c
  | .sbb => subFlags a b c
  | .and => logicFlags (a &&& b) u
  | .sub => subFlags a b false
  | .xor => logicFlags (a ^^^ b) u
  | .cmp => subFlags a b false

/-- The host's shifts and rotates. -/
inductive ShiftOp where
  | rol
  | ror
  | shl
  | shr
  | sar
deriving DecidableEq, Repr

/-- The count, masked to the operand. -/
def shiftCount (w : Nat) (count : U8) : Nat :=
  count.toNat % (if w = 64 then 64 else 32)

/-- What they give. -/
def ShiftOp.result (op : ShiftOp) (a : BitVec w) (n : Nat) : BitVec w :=
  match op with
  | .rol => a.rotateLeft n
  | .ror => a.rotateRight n
  | .shl => a <<< n
  | .shr => a >>> n
  | .sar => a.sshiftRight n

/-- OF is defined for a count of one, AF after no shift; a rotation leaves
the flags of the result alone, and a count of zero leaves all. -/
def ShiftOp.flags (op : ShiftOp) (a : BitVec w) (n : Nat) (f u : Flags) : Flags :=
  if n = 0 then f
  else
    let r := op.result a n
    match op with
    | .rol => fun
      | .CF => r.getLsbD 0
      | .OF => if n = 1 then r.msb ^^ r.getLsbD 0 else u .OF
      | φ => f φ
    | .ror => fun
      | .CF => r.msb
      | .OF => if n = 1 then r.msb ^^ r.getLsbD (w - 2) else u .OF
      | φ => f φ
    | .shl => fun
      | .CF => a.getLsbD (w - n)
      | .OF => if n = 1 then r.msb ^^ a.getLsbD (w - n) else u .OF
      | φ => szpFlags r u φ
    | .shr => fun
      | .CF => a.getLsbD (n - 1)
      | .OF => if n = 1 then a.msb else u .OF
      | φ => szpFlags r u φ
    | .sar => fun
      | .CF => a.getLsbD (n - 1)
      | .OF => if n = 1 then false else u .OF
      | φ => szpFlags r u φ

/-- CF and OF say that the product does not fit; the rest is undefined. -/
def imulFlags (a b : BitVec w) (u : Flags) : Flags
  | .CF | .OF =>
    !decide (-2 ^ (w - 1) ≤ a.toInt * b.toInt
      ∧ a.toInt * b.toInt < 2 ^ (w - 1))
  | φ => u φ

/-- The conditions of the jumps. -/
inductive Cc where
  | o
  | no
  | b
  | ae
  | z
  | nz
  | be
  | a
  | s
  | ns
  | p
  | np
  | l
  | ge
  | le
  | g
deriving DecidableEq, Repr

/-- Whether a condition holds. -/
def Cc.holds (f : Flags) : Cc → Bool
  | .o => f .OF
  | .no => !f .OF
  | .b => f .CF
  | .ae => !f .CF
  | .z => f .ZF
  | .nz => !f .ZF
  | .be => f .CF || f .ZF
  | .a => !(f .CF || f .ZF)
  | .s => f .SF
  | .ns => !f .SF
  | .p => f .PF
  | .np => !f .PF
  | .l => f .SF != f .OF
  | .ge => !(f .SF != f .OF)
  | .le => f .ZF || (f .SF != f .OF)
  | .g => !(f .ZF || (f .SF != f .OF))

-- ======== operands

/-- DWORD and QWORD. -/
inductive Size where
  | d
  | q
deriving DecidableEq, Repr

/-- The bits of an operand size. -/
abbrev Size.bits : Size → Nat
  | .d => 32
  | .q => 64

/-- The registers that are used. -/
inductive Reg where
  | rax
  | rcx
  | rdx
  | rbp
  | r8
  | r9
  | r10
  | r11
deriving DecidableEq, Repr

/-- The fields of the emulated processor, by size. -/
class Cells (κ : Size → Type) (μ : Type) where
  read : {z : Size} → κ z → μ → BitVec z.bits
  write : {z : Size} → κ z → BitVec z.bits → μ → μ

/-- A register, a place in memory or an immediate. -/
inductive Operand (κ : Size → Type) (z : Size) where
  | reg (r : Reg)
  | mem (k : κ z)
  | imm (v : BitVec z.bits)

/-- The host machine. -/
structure Host (μ : Type) where
  reg : Reg → U64
  flags : Flags
  stack : List U64
  mem : μ
  /-- What the undefined flags are, at each instruction. -/
  junk : Nat → Flags
  clock : Nat
  /-- A division has failed. -/
  fault : Bool

namespace Host

variable {κ : Size → Type} {μ : Type} [Cells κ μ]

/-- The undefined flags of the instruction under way. -/
def undefined (s : Host μ) : Flags := s.junk s.clock

/-- Write a register. -/
def setReg (s : Host μ) (r : Reg) (v : U64) : Host μ :=
  { s with reg := fun r' => if r' = r then v else s.reg r' }

/-- Read an operand. -/
def read {z : Size} (s : Host μ) : Operand κ z → BitVec z.bits
  | .reg r => (s.reg r).setWidth z.bits
  | .mem k => Cells.read k s.mem
  | .imm v => v

/-- A doubleword written to a register clears the upper half. -/
def write {z : Size} (s : Host μ) (o : Operand κ z) (v : BitVec z.bits) : Host μ :=
  match o with
  | .reg r => s.setReg r (v.setWidth 64)
  | .mem k => { s with mem := Cells.write k v s.mem }
  | .imm _ => s

/-- Write the flags. -/
def setFlags (s : Host μ) (f : Flags) : Host μ := { s with flags := f }

section Fields

variable (s : Host μ) (r r' : Reg) (v : U64) (f : Flags)

omit [Cells κ μ]

@[simp] theorem reg_setReg_self : (s.setReg r v).reg r = v := if_pos rfl

@[simp] theorem reg_setReg_other {r r' : Reg} (h : r' ≠ r) :
    (s.setReg r v).reg r' = s.reg r' := if_neg h

@[simp] theorem flags_setReg : (s.setReg r v).flags = s.flags := rfl

@[simp] theorem stack_setReg : (s.setReg r v).stack = s.stack := rfl

@[simp] theorem mem_setReg : (s.setReg r v).mem = s.mem := rfl

@[simp] theorem fault_setReg : (s.setReg r v).fault = s.fault := rfl

@[simp] theorem reg_setFlags : (s.setFlags f).reg = s.reg := rfl

@[simp] theorem flags_setFlags : (s.setFlags f).flags = f := rfl

@[simp] theorem stack_setFlags : (s.setFlags f).stack = s.stack := rfl

@[simp] theorem mem_setFlags : (s.setFlags f).mem = s.mem := rfl

@[simp] theorem fault_setFlags : (s.setFlags f).fault = s.fault := rfl

end Fields

end Host

-- ======== instructions

/-- The instructions the emitter uses. -/
inductive Insn (κ : Size → Type) where
  | mov {z : Size} (dst src : Operand κ z)
  | alu {z : Size} (op : AluOp) (dst src : Operand κ z)
  | test {z : Size} (dst src : Operand κ z)
  | inc {z : Size} (dst : Operand κ z)
  | dec {z : Size} (dst : Operand κ z)
  | shift {z : Size} (op : ShiftOp) (dst : Operand κ z) (count : U8)
  | imul {z : Size} (dst : Reg) (src : Operand κ z)
  | lahf
  | setoAl
  /-- `movzx r32, al` -/
  | movzxAl (dst : Reg)
  /-- `movzx r32, ah` -/
  | movzxAh (dst : Reg)
  /-- `lea r, [r + disp]` -/
  | lea (r : Reg) (disp : U32)
  /-- `div r`: RDX:RAX by `r`. -/
  | div (r : Reg)
  | push (r : Reg)
  | pop (r : Reg)

/-- `loop` counts RCX down; neither branch touches the flags. -/
inductive Branch where
  | jcc (cc : Cc)
  | loop
deriving DecidableEq, Repr

namespace Host

variable {κ : Size → Type} {μ : Type} [Cells κ μ]

/-- AH after LAHF: SF, ZF, 0, AF, 0, PF, 1, CF. -/
def ahOf (f : Flags) : U8 :=
  (if f .SF then 0x80 else 0) ||| (if f .ZF then 0x40 else 0)
    ||| (if f .AF then 0x10 else 0)
    ||| (if f .PF then 0x04 else 0) ||| 0x02 ||| (if f .CF then 0x01 else 0)

/-- The byte of a register at bit `k`. -/
def byteAt (x : U64) (k : Nat) : U8 := (x >>> k).setWidth 8

/-- Put a byte into a register. -/
def setByte (x : U64) (k : Nat) (v : U8) : U64 :=
  (x &&& ~~~Word.fieldMask 64 k 8) ||| (v.setWidth 64 <<< k)

/-- It, bit by bit. -/
theorem getLsbD_setByte (x : U64) (k : Nat) (v : U8) {i : Nat} (hi : i < 64) :
    (setByte x k v).getLsbD i = if k ≤ i ∧ i < k + 8 then v.getLsbD (i - k)
      else x.getLsbD i :=
  Word.getLsbD_insert x v k hi

/-- A byte put into a register is read back. -/
theorem byteAt_setByte (x : U64) {k : Nat} (hk : k + 8 ≤ 64) (v : U8) :
    byteAt (setByte x k v) k = v := by
  refine BitVec.eq_of_getLsbD_eq fun i hi => ?_
  rw [byteAt, BitVec.getLsbD_setWidth, BitVec.getLsbD_ushiftRight,
    getLsbD_setByte _ _ _ (by omega), if_pos (by omega),
    Nat.add_sub_cancel_left, decide_eq_true hi, Bool.true_and]

/-- The other bytes of the register stay. -/
theorem byteAt_setByte_other (x : U64) {j k : Nat} (hj : j + 8 ≤ 64)
    (h : j + 8 ≤ k ∨ k + 8 ≤ j) (v : U8) :
    byteAt (setByte x k v) j = byteAt x j := by
  refine BitVec.eq_of_getLsbD_eq fun i hi => ?_
  rw [byteAt, byteAt, BitVec.getLsbD_setWidth, BitVec.getLsbD_setWidth,
    BitVec.getLsbD_ushiftRight, BitVec.getLsbD_ushiftRight,
    getLsbD_setByte _ _ _ (by omega), if_neg (by omega)]

/-- RDX:RAX by `v`. -/
def divide (s : Host μ) (v : U64) : Host μ :=
  let n := (s.reg .rdx).toNat * 2 ^ 64 + (s.reg .rax).toNat
  if v = 0 ∨ 2 ^ 64 ≤ n / v.toNat then { s with fault := true }
  else ((s.setReg .rax (BitVec.ofNat 64 (n / v.toNat))).setReg .rdx
    (BitVec.ofNat 64 (n % v.toNat))).setFlags
    s.undefined

/-- What an instruction does, the count of instructions apart. -/
def effect (s : Host μ) : Insn κ → Host μ
  | .mov dst src => s.write dst (s.read src)
  | .alu op dst src =>
    let a := s.read dst
    let b := s.read src
    let t := s.setFlags (op.flags a b (s.flags .CF) s.undefined)
    if op = .cmp then t else t.write dst (op.result a b (s.flags .CF))
  | .test dst src =>
    s.setFlags (logicFlags (s.read dst &&& s.read src) s.undefined)
  | .inc dst =>
    let a := s.read dst
    (s.setFlags (keepCarry s.flags (addFlags a 1 false))).write dst (a + 1)
  | .dec dst =>
    let a := s.read dst
    (s.setFlags (keepCarry s.flags (subFlags a 1 false))).write dst (a - 1)
  | .shift (z := z) op dst count =>
    let a := s.read dst
    let n := shiftCount z.bits count
    (s.setFlags (op.flags a n s.flags s.undefined)).write dst (op.result a n)
  | .imul (z := z) dst src =>
    let a := s.read (κ := κ) (z := z) (.reg dst)
    let b := s.read src
    (s.setFlags (imulFlags a b s.undefined)).write (κ := κ) (z := z)
      (.reg dst) (a * b)
  | .lahf => s.setReg .rax (setByte (s.reg .rax) 8 (ahOf s.flags))
  | .setoAl =>
    s.setReg .rax (setByte (s.reg .rax) 0 (if s.flags .OF then 1 else 0))
  | .movzxAl dst => s.setReg dst ((byteAt (s.reg .rax) 0).setWidth 64)
  | .movzxAh dst => s.setReg dst ((byteAt (s.reg .rax) 8).setWidth 64)
  | .lea r disp => s.setReg r (s.reg r + disp.signExtend 64)
  | .div r => s.divide (s.reg r)
  | .push r => { s with stack := s.reg r :: s.stack }
  | .pop r => { s.setReg r (s.stack.headD 0) with stack := s.stack.tail }

/-- One more instruction. -/
def tick (s : Host μ) : Host μ := { s with clock := s.clock + 1 }

section Tick

variable (s : Host μ)

omit [Cells κ μ]

@[simp] theorem reg_tick : s.tick.reg = s.reg := rfl

@[simp] theorem flags_tick : s.tick.flags = s.flags := rfl

@[simp] theorem stack_tick : s.tick.stack = s.stack := rfl

@[simp] theorem mem_tick : s.tick.mem = s.mem := rfl

@[simp] theorem fault_tick : s.tick.fault = s.fault := rfl

end Tick

/-- How a branch decides. -/
def decide (s : Host μ) : Branch → Bool × Host μ
  | .jcc cc => (cc.holds s.flags, s)
  | .loop => (s.reg .rcx - 1 != 0, s.setReg .rcx (s.reg .rcx - 1))

end Host

/-- The host. -/
def host (κ : Size → Type) (μ : Type) [Cells κ μ] :
    Isa (Insn κ) Branch (Host μ) where
  op i s := (s.effect i).tick
  branch c s := s.decide c

section Ops

variable {κ : Size → Type} {μ : Type} [Cells κ μ] {z : Size} (s : Host μ)

@[simp] theorem op_host (i : Insn κ) : (host κ μ).op i s = (s.effect i).tick := rfl

@[simp] theorem branch_host (c : Branch) :
    (host κ μ).branch c s = s.decide c := rfl

@[simp] theorem Host.read_reg (r : Reg) :
    s.read (κ := κ) (z := z) (.reg r) = (s.reg r).setWidth z.bits := rfl

@[simp] theorem Host.read_mem (k : κ z) :
    s.read (.mem k) = Cells.read k s.mem := rfl

@[simp] theorem Host.read_imm (v : BitVec z.bits) :
    s.read (κ := κ) (.imm v) = v := rfl

@[simp] theorem Host.write_reg (r : Reg) (v : BitVec z.bits) :
    s.write (κ := κ) (.reg r) v = s.setReg r (v.setWidth 64) := rfl

@[simp] theorem Host.write_mem (k : κ z) (v : BitVec z.bits) :
    s.write (.mem k) v = { s with mem := Cells.write k v s.mem } := rfl

end Ops

end Remu.Jit
