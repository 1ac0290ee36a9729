/-
The ARM32 register file: sixteen 32-bit registers with per-mode banking
(r8–r14), the status registers and the seven processor modes.

`gpr` always holds the current mode's view. Switching modes spills r8–r14
into the old mode's bank and loads the new mode's, so each of the thirty-one
general registers lives either in the window or in a bank, and which of the
two depends on the mode.
-/
import Mathlib.Logic.Function.Basic
import Remu.Lib.Word

namespace Remu.Arm32

-- ======== modes

/-- The seven processor modes. -/
inductive Mode where
  | usr
  | fiq
  | irq
  | svc
  | abt
  | und
  | sys
deriving DecidableEq, Repr

namespace Mode

/-- The encoding in a status register. -/
def bits : Mode → U32
  | usr => 0x10
  | fiq => 0x11
  | irq => 0x12
  | svc => 0x13
  | abt => 0x17
  | und => 0x1B
  | sys => 0x1F

/-- Decode a mode field; `none` for the reserved encodings. -/
def fromBits (bits : U32) : Option Mode :=
  match (bits &&& 0x1F).toNat with
  | 0x10 => some usr
  | 0x11 => some fiq
  | 0x12 => some irq
  | 0x13 => some svc
  | 0x17 => some abt
  | 0x1B => some und
  | 0x1F => some sys
  | _ => none

/-- Whether the mode has a banked SPSR. -/
def hasSpsr : Mode → Bool
  | usr => false
  | sys => false
  | _ => true

/-- Every mode but user mode. -/
def privileged (m : Mode) : Bool := m != usr

/-- Whether two modes share their entire register bank. -/
def sameBank (a b : Mode) : Bool := a == b || (!a.hasSpsr && !b.hasSpsr)

/-- Index into the SPSR bank and the r13–r14 banks. -/
def bank : Mode → Option (Fin 5)
  | fiq => some 0
  | svc => some 1
  | abt => some 2
  | irq => some 3
  | und => some 4
  | usr => none
  | sys => none

end Mode

-- ======== status registers

/-- A program status register, all 32 bits stored raw. -/
structure Psr where
  bits : U32
deriving DecidableEq, Repr

namespace psr

/-- Negative. -/
abbrev N : U32 := 0x80000000
/-- Zero. -/
abbrev Z : U32 := 0x40000000
/-- Carry. -/
abbrev C : U32 := 0x20000000
/-- Overflow. -/
abbrev V : U32 := 0x10000000
/-- IRQs masked. -/
abbrev I : U32 := 0x80
/-- FIQs masked. -/
abbrev F : U32 := 0x40
/-- Thumb state. -/
abbrev T : U32 := 0x20
/-- The mode bits. -/
abbrev MODE : U32 := 0x1F

end psr

namespace Psr

/-- Overwrite the bits under `mask` with those of `value`. -/
def write (p : Psr) (value mask : U32) : Psr :=
  ⟨(p.bits &&& ~~~mask) ||| (value &&& mask)⟩

/-- The raw mode field, which may be a reserved encoding. -/
def modeBits (p : Psr) : U32 := p.bits &&& psr.MODE

/-- The register-bank mode: a reserved encoding selects the user bank. -/
def mode (p : Psr) : Mode := (Mode.fromBits p.bits).getD .usr

/-- Everything but User mode proper. -/
def privileged (p : Psr) : Bool := p.modeBits != Mode.usr.bits

/-- Replace the mode field. -/
def setMode (p : Psr) (m : Mode) : Psr := ⟨(p.bits &&& ~~~psr.MODE) ||| m.bits⟩

def n (p : Psr) : Bool := p.bits &&& psr.N != 0
def z (p : Psr) : Bool := p.bits &&& psr.Z != 0
def c (p : Psr) : Bool := p.bits &&& psr.C != 0
def v (p : Psr) : Bool := p.bits &&& psr.V != 0
def i (p : Psr) : Bool := p.bits &&& psr.I != 0
def f (p : Psr) : Bool := p.bits &&& psr.F != 0
def t (p : Psr) : Bool := p.bits &&& psr.T != 0

/-- Set or clear flag bits. -/
def set (p : Psr) (bit : U32) (on : Bool) : Psr :=
  if on then ⟨p.bits ||| bit⟩ else ⟨p.bits &&& ~~~bit⟩

/-- N and Z from a result. -/
def setNz (p : Psr) (v : U32) : Psr :=
  ⟨(p.bits &&& ~~~(psr.N ||| psr.Z)) ||| (v &&& psr.N) ||| (if v = 0 then psr.Z else 0)⟩

end Psr

-- ======== the register file

-- Literals of the array indices.
instance neZero16 : NeZero 16 := ⟨Nat.succ_ne_zero 15⟩
instance neZero8 : NeZero 8 := ⟨Nat.succ_ne_zero 7⟩
instance neZero7 : NeZero 7 := ⟨Nat.succ_ne_zero 6⟩
instance neZero5 : NeZero 5 := ⟨Nat.succ_ne_zero 4⟩
instance neZero4 : NeZero 4 := ⟨Nat.succ_ne_zero 3⟩
instance neZero2 : NeZero 2 := ⟨Nat.succ_ne_zero 1⟩

/-- The register file: the current mode's window and the inactive copies. -/
structure Registers where
  gpr : Fin 16 → U32
  cpsr : Psr
  /-- Banked SPSRs of FIQ, SVC, ABT, IRQ and UND. -/
  spsr : Fin 5 → Psr
  /-- r8–r14 of the user bank. -/
  usrBank : Fin 7 → U32
  /-- r8–r14 of the FIQ bank. -/
  fiqBank : Fin 7 → U32
  /-- r13–r14 of SVC, ABT, IRQ and UND. -/
  excBank : Fin 4 → Fin 2 → U32

/-- The place of a banked register in a seven-register bank: `i - 8`. -/
def bankIx (i : Fin 16) : Fin 7 := Fin.ofNat 7 (i - 8)

/-- The register a place of a seven-register bank holds: `k + 8`. -/
def bankReg (k : Fin 7) : Fin 16 := Fin.ofNat 16 (k + 8)

/-- The place of r13 or r14 in an exception bank: `i - 13`. -/
def excIx (i : Fin 16) : Fin 2 := Fin.ofNat 2 (i - 13)

/-- The register a place of an exception bank holds: `k + 13`. -/
def excReg (k : Fin 2) : Fin 16 := Fin.ofNat 16 (k + 13)

/-- The exception bank of a bank index: `b - 1`. -/
def excSlot (b : Fin 5) : Fin 4 := Fin.ofNat 4 (b - 1)

namespace Registers

/-- The power-on state: Supervisor mode, interrupts disabled. -/
def new : Registers where
  gpr := fun _ => 0
  cpsr := ⟨Mode.svc.bits ||| psr.I ||| psr.F⟩
  spsr := fun _ => ⟨Mode.svc.bits⟩
  usrBank := fun _ => 0
  fiqBank := fun _ => 0
  excBank := fun _ _ => 0

/-- Writes a register of the current bank. -/
def setGpr (r : Registers) (i : Fin 16) (v : U32) : Registers :=
  { r with gpr := upd r.gpr i v }

/-- Spill the window into the storage of `old`. -/
def spill (r : Registers) (old : Mode) : Registers :=
  match old with
  | .fiq => { r with fiqBank := fun k => r.gpr (bankReg k) }
  | m =>
    let r := { r with usrBank := fun k => if k < 5 then r.gpr (bankReg k) else r.usrBank k }
    match m.bank with
    | some b =>
      { r with excBank := upd r.excBank (excSlot b) fun k => r.gpr (excReg k) }
    | none =>
      { r with usrBank := fun k => if k < 5 then r.usrBank k else r.gpr (bankReg k) }

/-- Load the storage of `new` into the window. -/
def load (r : Registers) (new : Mode) : Registers :=
  match new with
  | .fiq =>
    { r with gpr := fun i => if 8 ≤ i ∧ i < 15 then r.fiqBank (bankIx i) else r.gpr i }
  | m =>
    let r := { r with gpr := fun i => if 8 ≤ i ∧ i < 13 then r.usrBank (bankIx i) else r.gpr i }
    match m.bank with
    | some b =>
      (r.setGpr 13 (r.excBank (excSlot b) 0)).setGpr 14
        (r.excBank (excSlot b) 1)
    | none => (r.setGpr 13 (r.usrBank 5)).setGpr 14 (r.usrBank 6)

/-- Switch to mode `new`; User and System share a bank. -/
def setMode (r : Registers) (new : Mode) : Registers :=
  let old := r.cpsr.mode
  if old = new then { r with cpsr := r.cpsr.setMode new }
  else
    let r := (r.spill old).load new
    { r with cpsr := r.cpsr.setMode new }

/-- The raw SPSR image MRS reads; the CPSR where there is none. -/
def spsrBits (r : Registers) : U32 :=
  match r.cpsr.mode.bank with
  | some b => (r.spsr b).bits
  | none => r.cpsr.bits

/-- The current mode's banked SPSR image. -/
def spsrBanked (r : Registers) : Option U32 :=
  r.cpsr.mode.bank.map fun b => (r.spsr b).bits

/-- Write the current mode's SPSR under `mask`; discarded where there is
none. -/
def setSpsr (r : Registers) (value mask : U32) : Registers :=
  match r.cpsr.mode.bank with
  | some b => { r with spsr := upd r.spsr b ((r.spsr b).write value mask) }
  | none => r

/-- Replace the current mode's SPSR (exception entry). -/
def spsrStore (r : Registers) (p : Psr) : Registers :=
  match r.cpsr.mode.bank with
  | some b => { r with spsr := upd r.spsr b p }
  | none => r

/-- Register `i` of the user bank, whatever the current mode. -/
def userReg (r : Registers) (i : Fin 16) : U32 :=
  let cur := r.cpsr.mode
  if i < 8 ∨ i = 15 then r.gpr i
  else if i < 13 then
    if cur ≠ .fiq then r.gpr i else r.usrBank (bankIx i)
  else if !cur.hasSpsr then r.gpr i
  else r.usrBank (bankIx i)

/-- Write register `i` of the user bank, whatever the current mode. -/
def setUserReg (r : Registers) (i : Fin 16) (v : U32) : Registers :=
  let cur := r.cpsr.mode
  if i < 8 ∨ i = 15 then r.setGpr i v
  else if i < 13 then
    if cur ≠ .fiq then r.setGpr i v
      else { r with usrBank := upd r.usrBank (bankIx i) v }
  else if !cur.hasSpsr then r.setGpr i v
  else { r with usrBank := upd r.usrBank (bankIx i) v }

/-- Write register `i` as seen from `mode`. -/
def setRegOf (r : Registers) (mode : Mode) (i : Fin 16) (v : U32) :
    Registers :=
  let cur := r.cpsr.mode
  if cur.sameBank mode || i < 8 || i == 15 then r.setGpr i v
  else
    let fiqBanked := (8 ≤ i && i ≤ 14) && (cur == .fiq) != (mode == .fiq)
    let excBanked := 13 ≤ i && i ≤ 14
    if !fiqBanked && !excBanked then r.setGpr i v
    else match mode with
      | .fiq => { r with fiqBank := upd r.fiqBank (bankIx i) v }
      | m =>
        if i < 13 then { r with usrBank := upd r.usrBank (bankIx i) v }
        else match m.bank with
          | some b =>
            let row := upd (r.excBank (excSlot b)) (excIx i) v
            { r with excBank := upd r.excBank (excSlot b) row }
          | none => { r with usrBank := upd r.usrBank (bankIx i) v }

/-- Register `i` as seen from `mode`. -/
def regOf (r : Registers) (mode : Mode) (i : Fin 16) : U32 :=
  let cur := r.cpsr.mode
  if cur.sameBank mode || i < 8 || i == 15 then r.gpr i
  else
    let fiqBanked := (8 ≤ i && i ≤ 14) && (cur == .fiq) != (mode == .fiq)
    let excBanked := 13 ≤ i && i ≤ 14
    if !fiqBanked && !excBanked then r.gpr i
    else match mode with
      | .fiq => r.fiqBank (bankIx i)
      | m =>
        if i < 13 then r.usrBank (bankIx i)
        else match m.bank with
          | some b => r.excBank (excSlot b) (excIx i)
          | none => r.usrBank (bankIx i)

end Registers

end Remu.Arm32
