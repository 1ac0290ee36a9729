/-
ModRM decoding and operand access, at either operand width.

The source writes every operand helper once for bytes and once for words;
here each is one definition over the width.
-/
import Remu.X86.Cpu

namespace Remu.X86

-- ModRM fields.
namespace ModRm

def md (m : U8) : U8 := m >>> 6

def reg (m : U8) : U8 := (m >>> 3) &&& 7

def rm (m : U8) : U8 := m &&& 7

end ModRm

/-- A resolved operand: a register, or memory with its segment resolved. -/
inductive Operand where
  | reg (i : U8)
  | mem (seg off : U16)
deriving DecidableEq, Repr

def Operand.isMem : Operand → Bool
  | reg _ => false
  | mem _ _ => true

/-- The operand widths. -/
inductive Size where
  | byte
  | word
deriving DecidableEq, Repr

abbrev Size.bits : Size → Nat
  | byte => 8
  | word => 16

namespace RegFile

def reg : (z : Size) → RegFile → U8 → BitVec z.bits
  | .byte => reg8
  | .word => reg16

def setReg : (z : Size) → RegFile → U8 → BitVec z.bits → RegFile
  | .byte => setReg8
  | .word => setReg16

end RegFile

namespace Exec

variable {β : Type} [Bus β]

/-- A flag-setting operation on the processor's flags. -/
def alu {α : Type} (op : Flags → α × Flags) : Exec β α := do
  let r ← regs
  let out := op r.flags
  modifyRegs fun r => { r with flags := out.2 }
  pure out.1

def fetch : (z : Size) → Exec β (BitVec z.bits)
  | .byte => fetchByte
  | .word => fetchWord

/-- A fetched byte, sign-extended to a word. -/
def fetchSigned : Exec β U16 := do
  let b ← fetchByte
  pure (b.signExtend 16)

def read : (z : Size) → U16 → U16 → Exec β (BitVec z.bits)
  | .byte => read8
  | .word => read16

def write : (z : Size) → U16 → U16 → BitVec z.bits → Exec β Unit
  | .byte => write8
  | .word => write16

/-- The bases of an effective address: the offset, the default segment, and
the penalty without a displacement. -/
def eaBase (r : RegFile) (rm : U8) : U16 × U8 × Fin 13 :=
  match rm.toNat with
  | 0 => (r.bx + r.si, reg.DS, 7)
  | 1 => (r.bx + r.di, reg.DS, 8)
  | 2 => (r.bp + r.si, reg.SS, 8)
  | 3 => (r.bp + r.di, reg.SS, 7)
  | 4 => (r.si, reg.DS, 5)
  | 5 => (r.di, reg.DS, 5)
  | 6 => (r.bp, reg.SS, 5)
  | _ => (r.bx, reg.DS, 5)

/-- The displacement, sign-extended when it is a byte. -/
def displacement (md : U8) : Exec β U16 :=
  if md = 0 then pure 0 else if md = 1 then fetchSigned else fetchWord

/-- Fetch a ModRM byte and its displacement, resolve the operand and record
its penalty. -/
def modrm : Exec β (U8 × Operand) := do
  let m ← fetchByte
  if ModRm.md m = 3 then
    modifyCpu fun c => { c with eaCycles := 0 }
    pure (m, Operand.reg (ModRm.rm m))
  else if ModRm.md m = 0 ∧ ModRm.rm m = 6 then
    let off ← fetchWord
    modifyCpu fun c => { c with eaCycles := 6 }
    let c ← cpu
    pure (m, Operand.mem (c.segOr reg.DS) off)
  else
    let disp ← displacement (ModRm.md m)
    let c ← cpu
    let e := eaBase c.regs (ModRm.rm m)
    modifyCpu fun c =>
      { c with eaCycles := if ModRm.md m = 0 then e.2.2 else e.2.2 + 4 }
    pure (m, Operand.mem (c.segOr e.2.1) (e.1 + disp))

/-- The penalty of the operand decoded last. -/
def ea : Exec β Nat := do
  let c ← cpu
  pure c.eaCycles

def readOp (z : Size) : Operand → Exec β (BitVec z.bits)
  | .reg i => do
    let r ← regs
    pure (r.reg z i)
  | .mem seg off => read z seg off

def writeOp (z : Size) (op : Operand) (v : BitVec z.bits) : Exec β Unit :=
  match op with
  | .reg i => modifyRegs fun r => r.setReg z i v
  | .mem seg off => write z seg off v

end Exec

end Remu.X86
