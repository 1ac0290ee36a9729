/-
The 8086's instructions: one table of arms over the opcode byte.

An arm is the list of opcodes it answers to and what it does; the first
arm that lists the opcode is taken, as in the source's `match`. Prefixes
are in no arm: the step loop consumes them. Handlers return the cycles
they consume.

The loop of a repeated string instruction is granted a number of turns; it
stops early when they are used up.
-/
import Remu.X86.Arith
import Remu.X86.Division
import Remu.X86.Operand

namespace Remu.X86

open Flags (CF PF AF ZF SF OF)

/-- An arm of the dispatch. -/
structure Arm (β : Type) where
  opcodes : List U8
  run : U8 → Exec β Nat

/-- The opcodes from `lo` to `hi`. -/
def opcodeRange (lo hi : Nat) : List U8 :=
  (List.range' lo (hi + 1 - lo)).map (BitVec.ofNat 8)

namespace Exec

variable {β : Type} [Bus β]

-- ======== helpers

/-- Condition code `n`. -/
def cond (f : Flags) (n : U8) : Bool :=
  let r := match (n >>> 1).toNat with
    | 0 => f.contains OF
    | 1 => f.contains CF
    | 2 => f.contains ZF
    | 3 => f.contains CF || f.contains ZF
    | 4 => f.contains SF
    | 5 => f.contains PF
    | 6 => f.contains SF != f.contains OF
    | _ => f.contains ZF || (f.contains SF != f.contains OF)
  r != (n &&& 1 != 0)

/-- Cycles of a memory form and of a register form. -/
def cyclesOf (op : Operand) (mem reg : Nat) : Exec β Nat := do
  let e ← ea
  pure (if op.isMem then mem + e else reg)

/-- `op r/m, r`. -/
def opRmR (z : Size)
    (f : BitVec z.bits → BitVec z.bits → Flags → BitVec z.bits × Flags)
    (wb : Bool) :
    Exec β Nat := do
  let d ← modrm
  let a ← readOp z d.2
  let r ← regs
  let v ← alu (f a (r.reg z (ModRm.reg d.1)))
  whenever wb (writeOp z d.2 v)
  cyclesOf d.2 (if wb then 16 else 9) 3

/-- `op r, r/m`. -/
def opRRm (z : Size)
    (f : BitVec z.bits → BitVec z.bits → Flags → BitVec z.bits × Flags)
    (wb : Bool) :
    Exec β Nat := do
  let d ← modrm
  let r ← regs
  let b ← readOp z d.2
  let v ← alu (f (r.reg z (ModRm.reg d.1)) b)
  whenever wb (modifyRegs fun r => r.setReg z (ModRm.reg d.1) v)
  cyclesOf d.2 9 3

/-- `op AL/AX, imm`. -/
def opAccImm (z : Size)
    (f : BitVec z.bits → BitVec z.bits → Flags → BitVec z.bits × Flags)
    (wb : Bool) : Exec β Nat := do
  let b ← fetch z
  let r ← regs
  let v ← alu (f (r.reg z reg.AX) b)
  whenever wb (modifyRegs fun r => r.setReg z reg.AX v)
  pure 4

/-- The immediate group: `op r/m, imm`. -/
def opRmImm (z : Size) (imm : Exec β (BitVec z.bits)) : Exec β Nat := do
  let d ← modrm
  let a ← readOp z d.2
  let b ← imm
  let v ← alu (Alu.table (ModRm.reg d.1) a b)
  let wb := ModRm.reg d.1 ≠ 7
  whenever wb (writeOp z d.2 v)
  cyclesOf d.2 (if wb then 17 else 10) 4

/-- The offset and segment of a far indirect transfer; the register form
keeps CS. -/
def farOperand : Operand → Exec β (U16 × U16)
  | .mem seg off => do
    let o ← read16 seg off
    let s ← read16 seg (off + 2)
    pure (o, s)
  | .reg i => do
    let r ← regs
    pure (r.reg16 i, r.cs)

/-- The shift group; `count` is absent in the one-bit forms. -/
def shiftGrp (z : Size) (count : Option Nat) : Exec β Nat := do
  let d ← modrm
  let n := count.getD 1
  let v ← readOp z d.2
  let v ← alu (Alu.shiftTable (ModRm.reg d.1) v n)
  writeOp z d.2 v
  match count with
  | none => cyclesOf d.2 15 2
  | some n => cyclesOf d.2 (20 + 4 * n) (8 + 4 * n)

def ioRead16 (port : U16) : Exec β U16 := do
  let lo ← ioRead port
  let hi ← ioRead (port + 1)
  pure (word lo hi)

def ioWrite16 (port : U16) (v : U16) : Exec β Unit := do
  ioWrite port (v.setWidth 8)
  ioWrite (port + 1) ((v >>> 8).setWidth 8)

def inPort : (z : Size) → U16 → Exec β (BitVec z.bits)
  | .byte => ioRead
  | .word => ioRead16

def outPort : (z : Size) → U16 → BitVec z.bits → Exec β Unit
  | .byte => ioWrite
  | .word => ioWrite16

/-- Jump by a fetched displacement when `taken` says so. -/
def jumpIf (taken : RegFile → Bool) (yes no : Nat) : Exec β Nat := do
  let rel ← fetchSigned
  let r ← regs
  if taken r then
    modifyRegs fun r => { r with ip := r.ip + rel }
    pure yes
  else pure no

/-- LOOP and its conditional forms. -/
def loopIf (taken : Flags → Bool) (yes no : Nat) : Exec β Nat := do
  let rel ← fetchSigned
  modifyRegs fun r => { r with cx := r.cx - 1 }
  let r ← regs
  if r.cx ≠ 0 ∧ taken r.flags then
    modifyRegs fun r => { r with ip := r.ip + rel }
    pure yes
  else pure no

/-- A division; a fault raises INT 0. -/
def divideBy (run : Cpu → Bool × Cpu) : Exec β Unit := do
  let c ← cpu
  modifyCpu fun _ => (run c).2
  whenever ((run c).1 = false) (interrupt 0)

/-- XCHG `r/m, r`. -/
def exchange (z : Size) : Exec β Nat := do
  let d ← modrm
  let a ← readOp z d.2
  let r ← regs
  writeOp z d.2 (r.reg z (ModRm.reg d.1))
  modifyRegs fun r => r.setReg z (ModRm.reg d.1) a
  cyclesOf d.2 17 4

/-- MOV `r/m, r`. -/
def moveToRm (z : Size) : Exec β Nat := do
  let d ← modrm
  let r ← regs
  writeOp z d.2 (r.reg z (ModRm.reg d.1))
  cyclesOf d.2 9 2

/-- MOV `r, r/m`. -/
def moveFromRm (z : Size) : Exec β Nat := do
  let d ← modrm
  let v ← readOp z d.2
  modifyRegs fun r => r.setReg z (ModRm.reg d.1) v
  cyclesOf d.2 8 2

/-- MOV of the accumulator from a direct address. -/
def moveFromMem (z : Size) : Exec β Nat := do
  let off ← fetchWord
  let c ← cpu
  let v ← read z (c.segOr reg.DS) off
  modifyRegs fun r => r.setReg z reg.AX v
  pure 10

def moveToMem (z : Size) : Exec β Nat := do
  let off ← fetchWord
  let c ← cpu
  write z (c.segOr reg.DS) off (c.regs.reg z reg.AX)
  pure 10

/-- MOV `r, imm`. -/
def moveImm (z : Size) (i : U8) : Exec β Nat := do
  let v ← fetch z
  modifyRegs fun r => r.setReg z i v
  pure 4

/-- MOV `r/m, imm`. -/
def moveRmImm (z : Size) : Exec β Nat := do
  let d ← modrm
  let v ← fetch z
  writeOp z d.2 v
  cyclesOf d.2 10 4

/-- LEA. -/
def loadAddress (i : U8) : Operand → Exec β Unit
  | .mem _ off => modifyRegs fun r => r.setReg16 i off
  | .reg _ => pure ()

/-- LES and LDS. -/
def loadFar (toEs : Bool) (i : U8) : Operand → Exec β Unit
  | .mem seg off => do
    let v ← read16 seg off
    let s ← read16 seg (off + 2)
    modifyRegs fun r => r.setReg16 i v
    modifyRegs fun r => if toEs then { r with es := s } else { r with ds := s }
  | .reg _ => pure ()

/-- The operand fetch of an absent coprocessor. -/
def touch : Operand → Exec β Unit
  | .mem seg off => do
    let _ ← read8 seg off
    pure ()
  | .reg _ => pure ()

def popIp : Exec β Unit := do
  let v ← pop16
  modifyRegs fun r => { r with ip := v }

def popCs : Exec β Unit := do
  let v ← pop16
  modifyRegs fun r => { r with cs := v }

/-- CALL far: CS and IP are pushed and replaced. -/
def callFar (off seg : U16) : Exec β Unit := do
  let r ← regs
  push16 r.cs
  push16 r.ip
  modifyRegs fun r => { r with cs := seg, ip := off }

/-- IN with a port from the instruction. -/
def inImm (z : Size) : Exec β Nat := do
  let p ← fetchByte
  let v ← inPort z (p.setWidth 16)
  modifyRegs fun r => r.setReg z reg.AX v
  pure 10

def outImm (z : Size) : Exec β Nat := do
  let p ← fetchByte
  let r ← regs
  outPort z (p.setWidth 16) (r.reg z reg.AX)
  pure 10

/-- IN with the port in DX. -/
def inDx (z : Size) : Exec β Nat := do
  let r ← regs
  let v ← inPort z r.dx
  modifyRegs fun r => r.setReg z reg.AX v
  pure 8

def outDx (z : Size) : Exec β Nat := do
  let r ← regs
  outPort z r.dx (r.reg z reg.AX)
  pure 8

def setFlag (f : Flags → Flags) : Exec β Nat := do
  modifyRegs fun r => { r with flags := f r.flags }
  pure 2

/-- INC or DEC of a decoded operand. -/
def countRm (z : Size) (op : Operand) (up : Bool) : Exec β Nat := do
  let v ← readOp z op
  let r ← alu (if up then Alu.inc v else Alu.dec v)
  writeOp z op r
  cyclesOf op 15 3

/-- The base timings of MUL, IMUL, DIV and IDIV. -/
structure GroupTiming where
  mul : Nat
  imul : Nat
  div : Nat
  idiv : Nat

/-- The groups F6 and F7: TEST NOT NEG MUL IMUL DIV IDIV. -/
def unaryGroup (z : Size) (t : GroupTiming)
    (mul imul : RegFile → BitVec z.bits → RegFile)
    (div : Cpu → BitVec z.bits → Bool → Bool × Cpu) : Exec β Nat := do
  let d ← modrm
  let v ← readOp z d.2
  let e ← ea
  let mem := d.2.isMem
  match (ModRm.reg d.1).toNat with
  | 0 | 1 =>
    let b ← fetch z
    let _ ← alu (Alu.and v b)
    pure (if mem then 11 + e else 5)
  | 2 =>
    writeOp z d.2 (~~~v)
    pure (if mem then 16 + e else 3)
  | 3 =>
    let r ← alu (Alu.neg v)
    writeOp z d.2 r
    pure (if mem then 16 + e else 3)
  | 4 =>
    modifyRegs fun r => mul r v
    pure (t.mul + if mem then 6 + e else 0)
  | 5 =>
    modifyRegs fun r => imul r v
    pure (t.imul + if mem then 6 + e else 0)
  | 6 =>
    divideBy fun c => div c v false
    pure (t.div + if mem then 6 + e else 0)
  | _ =>
    divideBy fun c => div c v true
    pure (t.idiv + if mem then 6 + e else 0)

/-- PUSH SP pushes the value already decremented. -/
def pushed (op : Operand) : Exec β U16 :=
  if op = .reg 4 then do
    let r ← regs
    pure (r.sp - 2)
  else readOp .word op

/-- The group FF: INC DEC CALL CALL-far JMP JMP-far PUSH. -/
def controlGroup (i : U8) (op : Operand) : Exec β Nat := do
  let e ← ea
  let mem := op.isMem
  match i.toNat with
  | 0 => countRm .word op true
  | 1 => countRm .word op false
  | 2 =>
    let v ← readOp .word op
    let r ← regs
    push16 r.ip
    modifyRegs fun r => { r with ip := v }
    pure (if mem then 21 + e else 16)
  | 3 =>
    let p ← farOperand op
    callFar p.1 p.2
    pure (37 + e)
  | 4 =>
    let v ← readOp .word op
    modifyRegs fun r => { r with ip := v }
    pure (if mem then 18 + e else 11)
  | 5 =>
    let p ← farOperand op
    modifyRegs fun r => { r with cs := p.2, ip := p.1 }
    pure (24 + e)
  | _ =>
    let v ← pushed op
    push16 v
    pure (if mem then 16 + e else 11)

-- ======== string operations

/-- The element size, down when DF is set. -/
def delta (z : Size) (f : Flags) : U16 :=
  let n : U16 := match z with
    | .byte => 1
    | .word => 2
  if f.contains Flags.DF then -n else n

def movs (z : Size) : Exec β Unit := do
  let c ← cpu
  let d := delta z c.regs.flags
  let v ← read z (c.segOr reg.DS) c.regs.si
  write z c.regs.es c.regs.di v
  modifyRegs fun r => { r with si := r.si + d, di := r.di + d }

def cmps (z : Size) : Exec β Unit := do
  let c ← cpu
  let d := delta z c.regs.flags
  let a ← read z (c.segOr reg.DS) c.regs.si
  let b ← read z c.regs.es c.regs.di
  let _ ← alu (Alu.sub a b)
  modifyRegs fun r => { r with si := r.si + d, di := r.di + d }

def stos (z : Size) : Exec β Unit := do
  let r ← regs
  let d := delta z r.flags
  write z r.es r.di (r.reg z reg.AX)
  modifyRegs fun r => { r with di := r.di + d }

def lods (z : Size) : Exec β Unit := do
  let c ← cpu
  let d := delta z c.regs.flags
  let v ← read z (c.segOr reg.DS) c.regs.si
  modifyRegs fun r => r.setReg z reg.AX v
  modifyRegs fun r => { r with si := r.si + d }

def scas (z : Size) : Exec β Unit := do
  let r ← regs
  let d := delta z r.flags
  let b ← read z r.es r.di
  let r ← regs
  let _ ← alu (Alu.sub (r.reg z reg.AX) b)
  modifyRegs fun r => { r with di := r.di + d }

/-- The repetitions: CX counts them down, and a comparison also ends them
on ZF. -/
def repLoop (one : Exec β Unit) (cmp contOnZf : Bool) (per : Nat) :
    Nat → Nat → Exec β Nat
  | 0, _ => throw Stop.fuel
  | fuel + 1, cycles => do
    let r ← regs
    if r.cx = 0 then pure cycles
    else
      one
      modifyRegs fun r => { r with cx := r.cx - 1 }
      let r ← regs
      if cmp ∧ r.flags.contains ZF ≠ contOnZf then pure (cycles + per)
      else repLoop one cmp contOnZf per fuel (cycles + per)

/-- A string primitive under the active repeat prefix. -/
def repStr (fuel : Nat) (one : Exec β Unit) (cmp : Bool) (base per : Nat) :
    Exec β Nat := do
  let c ← cpu
  match c.rep with
  | none =>
    one
    pure base
  | some contOnZf => repLoop one cmp contOnZf per fuel 9

-- ======== the table

variable (fuel : Nat)

/-- ADD OR ADC SBB AND SUB XOR CMP, five forms each, and the immediate
group. -/
def aluArms : List (Arm β) := [
  ⟨[0x00, 0x08, 0x10, 0x18, 0x20, 0x28, 0x30, 0x38], fun op =>
    opRmR .byte (Alu.table (op >>> 3)) (op ≠ 0x38)⟩,
  ⟨[0x01, 0x09, 0x11, 0x19, 0x21, 0x29, 0x31, 0x39], fun op =>
    opRmR .word (Alu.table (op >>> 3)) (op ≠ 0x39)⟩,
  ⟨[0x02, 0x0A, 0x12, 0x1A, 0x22, 0x2A, 0x32, 0x3A], fun op =>
    opRRm .byte (Alu.table (op >>> 3)) (op ≠ 0x3A)⟩,
  ⟨[0x03, 0x0B, 0x13, 0x1B, 0x23, 0x2B, 0x33, 0x3B], fun op =>
    opRRm .word (Alu.table (op >>> 3)) (op ≠ 0x3B)⟩,
  ⟨[0x04, 0x0C, 0x14, 0x1C, 0x24, 0x2C, 0x34, 0x3C], fun op =>
    opAccImm .byte (Alu.table (op >>> 3)) (op ≠ 0x3C)⟩,
  ⟨[0x05, 0x0D, 0x15, 0x1D, 0x25, 0x2D, 0x35, 0x3D], fun op =>
    opAccImm .word (Alu.table (op >>> 3)) (op ≠ 0x3D)⟩,
  ⟨[0x80, 0x82], fun _ => opRmImm .byte fetchByte⟩,
  ⟨[0x81, 0x83],
    fun op => opRmImm .word (if op = 0x81 then fetchWord else fetchSigned)⟩]

/-- PUSH and POP. -/
def stackArms : List (Arm β) := [
  ⟨[0x06, 0x0E, 0x16, 0x1E], fun op => do
    let r ← regs
    push16 (r.seg (op >>> 3))
    pure 10⟩,
  ⟨[0x07, 0x17, 0x1F], fun op => do
    let v ← pop16
    modifyRegs fun r => r.setSeg (op >>> 3) v
    whenever (op = 0x17)
      (modifyCpu fun c => { c with inhibitInterrupts := true })
    pure 8⟩,
  ⟨[0x0F], fun _ => do
    let v ← pop16
    modifyRegs fun r => { r with cs := v }
    pure 8⟩,
  ⟨opcodeRange 0x50 0x57, fun op => do
    -- PUSH SP pushes the value already decremented
    let r ← regs
    push16 (if op &&& 7 = 4 then r.sp - 2 else r.reg16 (op &&& 7))
    pure 11⟩,
  ⟨opcodeRange 0x58 0x5F, fun op => do
    let v ← pop16
    modifyRegs fun r => r.setReg16 (op &&& 7) v
    pure 8⟩,
  ⟨[0x8F], fun _ => do
    let d ← modrm
    let v ← pop16
    writeOp .word d.2 v
    cyclesOf d.2 17 8⟩,
  ⟨[0x9C], fun _ => do
    let r ← regs
    push16 r.flags.toWord
    pure 10⟩,
  ⟨[0x9D], fun _ => do
    let v ← pop16
    modifyRegs fun r => { r with flags := Flags.fromWord v }
    pure 8⟩]

/-- INC, DEC and the conditional jumps. -/
def countArms : List (Arm β) := [
  ⟨opcodeRange 0x40 0x47, fun op => do
    let r ← regs
    let v ← alu (Alu.inc (r.reg16 (op &&& 7)))
    modifyRegs fun r => r.setReg16 (op &&& 7) v
    pure 2⟩,
  ⟨opcodeRange 0x48 0x4F, fun op => do
    let r ← regs
    let v ← alu (Alu.dec (r.reg16 (op &&& 7)))
    modifyRegs fun r => r.setReg16 (op &&& 7) v
    pure 2⟩,
  ⟨opcodeRange 0x60 0x7F,
    fun op => jumpIf (fun r => cond r.flags (op &&& 0xF)) 16 4⟩]

/-- TEST and XCHG. -/
def exchangeArms : List (Arm β) := [
  ⟨[0x84], fun _ => opRmR .byte Alu.and false⟩,
  ⟨[0x85], fun _ => opRmR .word Alu.and false⟩,
  ⟨[0x86], fun _ => exchange .byte⟩,
  ⟨[0x87], fun _ => exchange .word⟩,
  ⟨opcodeRange 0x90 0x97, fun op => do
    modifyRegs fun r =>
      ({ r with ax := r.reg16 (op &&& 7) } : RegFile).setReg16 (op &&& 7) r.ax
    pure 3⟩,
  ⟨[0xA8], fun _ => opAccImm .byte Alu.and false⟩,
  ⟨[0xA9], fun _ => opAccImm .word Alu.and false⟩]

/-- MOV and LEA. -/
def moveArms : List (Arm β) := [
  ⟨[0x88], fun _ => moveToRm .byte⟩,
  ⟨[0x89], fun _ => moveToRm .word⟩,
  ⟨[0x8A], fun _ => moveFromRm .byte⟩,
  ⟨[0x8B], fun _ => moveFromRm .word⟩,
  ⟨[0x8C], fun _ => do
    let d ← modrm
    let r ← regs
    writeOp .word d.2 (r.seg (ModRm.reg d.1))
    cyclesOf d.2 9 2⟩,
  ⟨[0x8E], fun _ => do
    let d ← modrm
    let v ← readOp .word d.2
    modifyRegs fun r => r.setSeg (ModRm.reg d.1) v
    whenever (ModRm.reg d.1 &&& 3 = reg.SS)
      (modifyCpu fun c => { c with inhibitInterrupts := true })
    cyclesOf d.2 8 2⟩,
  ⟨[0x8D], fun _ => do
    -- the register form leaves the register alone
    let d ← modrm
    loadAddress (ModRm.reg d.1) d.2
    let e ← ea
    pure (2 + e)⟩,
  ⟨[0xA0], fun _ => moveFromMem .byte⟩,
  ⟨[0xA1], fun _ => moveFromMem .word⟩,
  ⟨[0xA2], fun _ => moveToMem .byte⟩,
  ⟨[0xA3], fun _ => moveToMem .word⟩,
  ⟨opcodeRange 0xB0 0xB7, fun op => moveImm .byte (op &&& 7)⟩,
  ⟨opcodeRange 0xB8 0xBF, fun op => moveImm .word (op &&& 7)⟩,
  ⟨[0xC6], fun _ => moveRmImm .byte⟩,
  ⟨[0xC7], fun _ => moveRmImm .word⟩,
  ⟨[0xC4, 0xC5], fun op => do
    let d ← modrm
    loadFar (op = 0xC4) (ModRm.reg d.1) d.2
    let e ← ea
    pure (16 + e)⟩]

/-- Conversions, flag transfers and the BCD adjustments. -/
def adjustArms : List (Arm β) := [
  ⟨[0x98], fun _ => do
    modifyRegs fun r => { r with ax := (r.ax.setWidth 8).signExtend 16 }
    pure 2⟩,
  ⟨[0x99], fun _ => do
    modifyRegs fun r => { r with dx := if r.ax.msb then 0xFFFF else 0 }
    pure 5⟩,
  ⟨[0x9E], fun _ => do
    modifyRegs fun r => { r with
      flags := Flags.fromWord ((r.flags.bits &&& 0xFF00) ||| (r.ax >>> 8)) }
    pure 4⟩,
  ⟨[0x9F], fun _ => do
    modifyRegs fun r =>
      let lo : U8 := (r.flags.bits.setWidth 8 &&& 0xD5) ||| 0x02
      { r with ax := (r.ax &&& 0x00FF) ||| (lo.setWidth 16 <<< 8) }
    pure 4⟩,
  ⟨[0x27], fun _ => do
    modifyRegs fun r => { r with toRegisters := r.toRegisters.daa }
    pure 4⟩,
  ⟨[0x2F], fun _ => do
    modifyRegs fun r => { r with toRegisters := r.toRegisters.das }
    pure 4⟩,
  ⟨[0x37], fun _ => do
    modifyRegs fun r => { r with toRegisters := r.toRegisters.aaa }
    pure 8⟩,
  ⟨[0x3F], fun _ => do
    modifyRegs fun r => { r with toRegisters := r.toRegisters.aas }
    pure 8⟩,
  ⟨[0xD4], fun _ => do
    let base ← fetchByte
    divideBy fun c => c.aam base
    pure 83⟩,
  ⟨[0xD5], fun _ => do
    let base ← fetchByte
    modifyRegs fun r => { r with toRegisters := r.toRegisters.aad base }
    pure 60⟩]

/-- String operations. -/
def stringArms : List (Arm β) := [
  ⟨[0xA4], fun _ => repStr fuel (movs .byte) false 18 17⟩,
  ⟨[0xA5], fun _ => repStr fuel (movs .word) false 18 17⟩,
  ⟨[0xA6], fun _ => repStr fuel (cmps .byte) true 22 22⟩,
  ⟨[0xA7], fun _ => repStr fuel (cmps .word) true 22 22⟩,
  ⟨[0xAA], fun _ => repStr fuel (stos .byte) false 11 10⟩,
  ⟨[0xAB], fun _ => repStr fuel (stos .word) false 11 10⟩,
  ⟨[0xAC], fun _ => repStr fuel (lods .byte) false 12 13⟩,
  ⟨[0xAD], fun _ => repStr fuel (lods .word) false 12 13⟩,
  ⟨[0xAE], fun _ => repStr fuel (scas .byte) true 15 15⟩,
  ⟨[0xAF], fun _ => repStr fuel (scas .word) true 15 15⟩]

/-- Shifts and rotates. -/
def shiftArms : List (Arm β) := [
  ⟨[0xD0], fun _ => shiftGrp .byte none⟩,
  ⟨[0xD1], fun _ => shiftGrp .word none⟩,
  ⟨[0xD2], fun _ => do
    let r ← regs
    shiftGrp .byte (some (r.cx.setWidth 8).toNat)⟩,
  ⟨[0xD3], fun _ => do
    let r ← regs
    shiftGrp .word (some (r.cx.setWidth 8).toNat)⟩]

/-- RET, RETF and the software interrupts. -/
def returnArms : List (Arm β) := [
  ⟨[0xC3, 0xC1], fun _ => do
    popIp
    pure 16⟩,
  ⟨[0xC2, 0xC0], fun _ => do
    let n ← fetchWord
    popIp
    modifyRegs fun r => { r with sp := r.sp + n }
    pure 20⟩,
  ⟨[0xCB, 0xC9], fun _ => do
    popIp
    popCs
    pure 26⟩,
  ⟨[0xCA, 0xC8], fun _ => do
    let n ← fetchWord
    popIp
    popCs
    modifyRegs fun r => { r with sp := r.sp + n }
    pure 25⟩,
  ⟨[0xCC], fun _ => do
    interrupt 3
    pure 52⟩,
  ⟨[0xCD], fun _ => do
    let v ← fetchByte
    interrupt v
    pure 51⟩,
  ⟨[0xCE], fun _ => do
    let r ← regs
    if r.flags.contains OF then
      interrupt 4
      pure 53
    else pure 4⟩,
  ⟨[0xCF], fun _ => do
    popIp
    popCs
    let f ← pop16
    modifyRegs fun r => { r with flags := Flags.fromWord f }
    pure 24⟩]

/-- SALC, XLAT and ESC. -/
def escapeArms : List (Arm β) := [
  ⟨[0xD6], fun _ => do
    modifyRegs fun r =>
      r.setReg8 reg.AX (if r.flags.contains CF then 0xFF else 0)
    pure 3⟩,
  ⟨[0xD7], fun _ => do
    let c ← cpu
    let v ← read8 (c.segOr reg.DS) (c.regs.bx + (c.regs.ax &&& 0xFF))
    modifyRegs fun r => r.setReg8 reg.AX v
    pure 11⟩,
  ⟨opcodeRange 0xD8 0xDF, fun _ => do
    let d ← modrm
    touch d.2
    cyclesOf d.2 8 2⟩]

/-- Loops, IN and OUT. -/
def portArms : List (Arm β) := [
  ⟨[0xE0], fun _ => loopIf (fun f => !f.contains ZF) 19 5⟩,
  ⟨[0xE1], fun _ => loopIf (fun f => f.contains ZF) 18 6⟩,
  ⟨[0xE2], fun _ => loopIf (fun _ => true) 17 5⟩,
  ⟨[0xE3], fun _ => jumpIf (fun r => r.cx = 0) 18 6⟩,
  ⟨[0xE4], fun _ => inImm .byte⟩,
  ⟨[0xE5], fun _ => inImm .word⟩,
  ⟨[0xE6], fun _ => outImm .byte⟩,
  ⟨[0xE7], fun _ => outImm .word⟩,
  ⟨[0xEC], fun _ => inDx .byte⟩,
  ⟨[0xED], fun _ => inDx .word⟩,
  ⟨[0xEE], fun _ => outDx .byte⟩,
  ⟨[0xEF], fun _ => outDx .word⟩]

/-- CALL and JMP. -/
def transferArms : List (Arm β) := [
  ⟨[0x9A], fun _ => do
    let off ← fetchWord
    let seg ← fetchWord
    callFar off seg
    pure 28⟩,
  ⟨[0xE8], fun _ => do
    let rel ← fetchWord
    let r ← regs
    push16 r.ip
    modifyRegs fun s => { s with ip := r.ip + rel }
    pure 19⟩,
  ⟨[0xE9], fun _ => do
    let rel ← fetchWord
    modifyRegs fun r => { r with ip := r.ip + rel }
    pure 15⟩,
  ⟨[0xEA], fun _ => do
    let off ← fetchWord
    let seg ← fetchWord
    modifyRegs fun r => { r with ip := off, cs := seg }
    pure 15⟩,
  ⟨[0xEB], fun _ => do
    let rel ← fetchSigned
    modifyRegs fun r => { r with ip := r.ip + rel }
    pure 15⟩]

/-- Processor control. -/
def controlArms : List (Arm β) := [
  ⟨[0x9B], fun _ => pure 3⟩,
  ⟨[0xF4], fun _ => do
    modifyCpu fun c => { c with halted := true }
    pure 2⟩,
  ⟨[0xF5], fun _ => setFlag fun f => f.toggle CF⟩,
  ⟨[0xF8], fun _ => setFlag fun f => f.remove CF⟩,
  ⟨[0xF9], fun _ => setFlag fun f => f.insert CF⟩,
  ⟨[0xFA], fun _ => setFlag fun f => f.remove Flags.IF⟩,
  ⟨[0xFB], fun _ => do
    modifyCpu fun c => { c with inhibitInterrupts := true }
    setFlag fun f => f.insert Flags.IF⟩,
  ⟨[0xFC], fun _ => setFlag fun f => f.remove Flags.DF⟩,
  ⟨[0xFD], fun _ => setFlag fun f => f.insert Flags.DF⟩]

/-- The groups F6, F7, FE and FF. -/
def groupArms : List (Arm β) := [
  ⟨[0xF6], fun _ => unaryGroup .byte ⟨70, 90, 85, 110⟩ RegFile.mul8
    RegFile.imul8 Cpu.div8⟩,
  ⟨[0xF7], fun _ => unaryGroup .word ⟨118, 144, 155, 176⟩ RegFile.mul16
    RegFile.imul16 Cpu.div16⟩,
  ⟨[0xFE], fun _ => do
    let d ← modrm
    countRm .byte d.2 (ModRm.reg d.1 &&& 1 = 0)⟩,
  ⟨[0xFF], fun _ => do
    let d ← modrm
    controlGroup (ModRm.reg d.1) d.2⟩]

/-- Every arm of the dispatch. -/
def arms : List (Arm β) :=
  aluArms ++ stackArms ++ countArms ++ exchangeArms ++ moveArms ++ adjustArms
    ++ stringArms fuel
    ++ shiftArms ++ returnArms ++ escapeArms ++ portArms ++ transferArms
      ++ controlArms ++ groupArms

/-- Execute the instruction whose opcode byte is `opcode`. -/
def dispatch (opcode : U8) : Exec β Nat :=
  match (arms fuel).find? fun a => a.opcodes.contains opcode with
  | some a => a.run opcode
  | none => throw Stop.unreachable

end Exec

end Remu.X86
