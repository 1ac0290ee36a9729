/-
The ARM and Thumb decoders and the barrel shifter.

Both decoders are pure functions of the fetched word, and produce one
register-independent record that a single executor runs, so a record is
worth caching. Thumb instructions map onto the ARM operations wherever the
semantics match; the two shapes that do not, the split BL pair and the
word-aligned PC, have an operation and a register number of their own.
-/
import Remu.Arm32.Registers

namespace Remu.Arm32

-- ======== ALU helpers

namespace shift

abbrev LSL : U8 := 0
abbrev LSR : U8 := 1
abbrev ASR : U8 := 2
abbrev ROR : U8 := 3

end shift

/-- Whether bit `n - 1` of `value` is set: the last bit shifted out to the
right. -/
def bitBelow (value : U32) (n : Nat) : Bool := value &&& (1 <<< (n - 1)) != 0

/-- Shift by an immediate amount, with its special encodings of zero. -/
def shiftImm (ty amount : U8) (value : U32) (carryIn : Bool) : U32 × Bool :=
  let n := amount.toNat
  if ty = shift.LSL then
    if n = 0 then (value, carryIn)
      else (value <<< n, value &&& (1 <<< (32 - n)) != 0)
  else if ty = shift.LSR then
    if n = 0 then (0, value >>> 31 != 0) else (value >>> n, bitBelow value n)
  else if ty = shift.ASR then
    if n = 0 then (value.sshiftRight 31, value >>> 31 != 0)
    else (value.sshiftRight n, bitBelow value n)
  else if ty = shift.ROR ∧ n = 0 then
    ((value >>> 1) ||| ((BitVec.ofBool carryIn).setWidth 32 <<< 31),
      value &&& 1 != 0)
  else (value.rotateRight n, bitBelow value n)

/-- Shift by the low byte of a register. -/
def shiftReg (ty amount : U8) (value : U32) (carryIn : Bool) : U32 × Bool :=
  let n := amount.toNat
  if n = 0 then (value, carryIn)
  else if ty = shift.LSL then
    if n ≤ 31 then (value <<< n, value &&& (1 <<< (32 - n)) != 0)
    else if n = 32 then (0, value &&& 1 != 0)
    else (0, false)
  else if ty = shift.LSR then
    if n ≤ 31 then (value >>> n, bitBelow value n)
    else if n = 32 then (0, value >>> 31 != 0)
    else (0, false)
  else if ty = shift.ASR then
    if n ≤ 31 then (value.sshiftRight n, bitBelow value n)
    else (value.sshiftRight 31, value >>> 31 != 0)
  else
    let r := n % 32
    if r = 0 then (value, value >>> 31 != 0)
      else (value.rotateRight r, bitBelow value r)

/-- `a + b + carry`: result, carry-out and overflow. -/
def addWithCarry (a b : U32) (carry : Bool) : U32 × Bool × Bool :=
  let r1 := a + b
  let c1 := BitVec.uaddOverflow a b
  let k := (BitVec.ofBool carry).setWidth 32
  let r := r1 + k
  let c2 := BitVec.uaddOverflow r1 k
  (r, c1 || c2, ((a ^^^ r) &&& (b ^^^ r)) >>> 31 != 0)

/-- `a - b - !carry`; the carry-out is set when nothing was borrowed. -/
def subWithCarry (a b : U32) (carry : Bool) : U32 × Bool × Bool :=
  addWithCarry a (~~~b) carry

/-- Early termination of the multiplier array. -/
def mulCycles (rs : U32) (signed : Bool) : U32 :=
  let stops (m : Nat) : Bool :=
    rs >>> (8 * m) == 0 || (signed && rs >>> (8 * m) == 0xFFFFFFFF >>> (8 * m))
  if stops 1 then 1 else if stops 2 then 2 else if stops 3 then 3 else 4

-- ======== decoded records

/-- The word-aligned PC as a base register, of Thumb code only. -/
abbrev PCA : U8 := 16

namespace aluOp

abbrev AND : U8 := 0x0
abbrev EOR : U8 := 0x1
abbrev SUB : U8 := 0x2
abbrev RSB : U8 := 0x3
abbrev ADD : U8 := 0x4
abbrev ADC : U8 := 0x5
abbrev SBC : U8 := 0x6
abbrev RSC : U8 := 0x7
abbrev TST : U8 := 0x8
abbrev TEQ : U8 := 0x9
abbrev CMP : U8 := 0xA
abbrev CMN : U8 := 0xB
abbrev ORR : U8 := 0xC
abbrev MOV : U8 := 0xD
abbrev BIC : U8 := 0xE
abbrev MVN : U8 := 0xF

end aluOp

-- Layouts of `DecodedInsn.aux`, one namespace for each family of operations.

namespace dp

abbrev OP : U8 := 0x0F
abbrev S : U8 := 0x10
abbrev TY_SHIFT : Nat := 5
abbrev TY : U8 := 0x60
abbrev ROT : U8 := 0x80

end dp

namespace xfer

abbrev BYTE : U8 := 0x01
abbrev PRE : U8 := 0x02
abbrev UP : U8 := 0x04
abbrev WB : U8 := 0x08
abbrev REG : U8 := 0x10
abbrev USER : U8 := 0x20
abbrev TY_SHIFT : Nat := 6

end xfer

namespace hw

abbrev SH : U8 := 0x03
abbrev H : U8 := 0x01
abbrev SB : U8 := 0x02
abbrev SHW : U8 := 0x03
abbrev PRE : U8 := 0x04
abbrev UP : U8 := 0x08
abbrev WB : U8 := 0x10
abbrev REG : U8 := 0x20

end hw

namespace blk

abbrev PRE : U8 := 0x01
abbrev UP : U8 := 0x02
abbrev S : U8 := 0x04
abbrev WB : U8 := 0x08
abbrev EMPTY : U8 := 0x10

end blk

namespace mul

abbrev ACC : U8 := 0x01
abbrev SIGNED : U8 := 0x02
abbrev S : U8 := 0x10

end mul

namespace sr

abbrev SPSR : U8 := 0x01
abbrev FIELD_SHIFT : Nat := 4

end sr

/-- A branch with link. -/
abbrev BR_LINK : U8 := 0x01
/-- The second half of a Thumb BL. -/
abbrev TBL_SUFFIX : U8 := 0x01

/-- Handler discriminant of a decoded instruction. -/
inductive Op where
  | dpImm
  | dpShImm
  | dpShReg
  | mul
  | mull
  | mrs
  | msrReg
  | msrImm
  | branchImm
  | bx
  | ldr
  | str
  | ldrMisc
  | strMisc
  | ldm
  | stm
  | swp
  | swi
  | undef
  | thumbBl
deriving DecidableEq, Repr

/-- Register-independent decode products of one instruction. -/
structure DecodedInsn where
  op : Op
  cond : U8
  rd : U8
  rn : U8
  rm : U8
  rs : U8
  aux : U8
  len : U8
  imm : U32
deriving DecidableEq, Repr

/-- A skeleton with every other field zero. -/
def DecodedInsn.new (op : Op) (cond len : U8) : DecodedInsn :=
  ⟨op, cond, 0, 0, 0, 0, 0, len, 0⟩

/-- The condition that always passes. -/
abbrev COND_AL : U8 := 14

/-- Bits `k .. k + 3` of an instruction word. -/
def nibble (w : U32) (k : Nat) : U8 := ((w >>> k) &&& 0xF).setWidth 8

/-- Bit `k` of an instruction word, as the mask `m` or nothing. -/
def bitTo (w : U32) (k : Nat) (m : U8) : U8 := ((w >>> k) &&& 1).setWidth 8 * m

/-- `m` under a condition. -/
def maskIf (b : Bool) (m : U8) : U8 := if b then m else 0

/-- Whether bit `k` is set. -/
def hasBit (w : U32) (k : Nat) : Bool := w &&& (1 <<< k) != 0

-- ======== ARM decoder

/-- The register-operand data-processing forms. -/
def decodeDpReg (w : U32) (d : DecodedInsn) : DecodedInsn :=
  let d := { d with
    rn := nibble w 16
    rd := nibble w 12
    rm := nibble w 0
    aux := nibble w 21 ||| bitTo w 20 dp.S
      ||| (((w >>> 5) &&& 3).setWidth 8 <<< dp.TY_SHIFT) }
  if hasBit w 4 then { d with op := .dpShReg, rs := nibble w 8 }
  else { d with op := .dpShImm, rs := ((w >>> 7) &&& 0x1F).setWidth 8 }

/-- The halfword and signed transfers; a signed store stays undefined. -/
def decodeHalf (w : U32) (d : DecodedInsn) : DecodedInsn :=
  let sh : U8 := ((w >>> 5) &&& 3).setWidth 8
  let load := hasBit w 20
  if sh ≠ 0 ∧ (load ∨ sh = hw.H) then
    let pre := hasBit w 24
    let d := { d with
      op := if load then .ldrMisc else .strMisc
      rn := nibble w 16
      rd := nibble w 12
      aux := sh ||| maskIf pre hw.PRE ||| maskIf (hasBit w 23) hw.UP
        ||| maskIf (!pre || hasBit w 21) hw.WB }
    if hasBit w 22 then { d with imm := ((w >>> 4) &&& 0xF0) ||| (w &&& 0xF) }
    else { d with aux := d.aux ||| hw.REG, rm := nibble w 0 }
  else d

/-- Group 000: the extension spaces, then the register forms. -/
def decodeGroup0 (w : U32) (d : DecodedInsn) : DecodedInsn :=
  if w &&& 0x0FFFFFF0 = 0x012FFF10 then { d with op := .bx, rm := nibble w 0 }
  else if w &&& 0x0FB00FF0 = 0x01000090 then
    { d with
      op := .swp
      rn := nibble w 16
      rd := nibble w 12
      rm := nibble w 0
      aux := ((w >>> 22) &&& 1).setWidth 8 }
  else if w &&& 0x0FC000F0 = 0x00000090 then
    { d with
      op := .mul
      rd := nibble w 16
      rn := nibble w 12
      rs := nibble w 8
      rm := nibble w 0
      aux := bitTo w 21 mul.ACC ||| bitTo w 20 mul.S }
  else if w &&& 0x0F8000F0 = 0x00800090 then
    { d with
      op := .mull
      rd := nibble w 16
      rn := nibble w 12
      rs := nibble w 8
      rm := nibble w 0
      aux := bitTo w 21 mul.ACC ||| bitTo w 22 mul.SIGNED
        ||| bitTo w 20 mul.S }
  else if w &&& 0x0E000090 = 0x00000090 then decodeHalf w d
  else if w &&& 0x0FBF0FFF = 0x010F0000 then
    { d with op := .mrs, rd := nibble w 12, aux := ((w >>> 22) &&& 1).setWidth 8 }
  else if w &&& 0x0FB0FFF0 = 0x0120F000 then
    { d with
      op := .msrReg
      rm := nibble w 0
      aux := bitTo w 22 sr.SPSR ||| (nibble w 16 <<< sr.FIELD_SHIFT) }
  else decodeDpReg w d

/-- Group 001: MSR and the data-processing immediates. -/
def decodeGroup1 (w : U32) (d : DecodedInsn) : DecodedInsn :=
  if w &&& 0x0FB0F000 = 0x0320F000 then
    { d with
      op := .msrImm
      aux := bitTo w 22 sr.SPSR ||| (nibble w 16 <<< sr.FIELD_SHIFT)
      imm := (w &&& 0xFF).rotateRight (((w >>> 8) &&& 0xF).toNat * 2) }
  else
    let rot := (w >>> 8) &&& 0xF
    { d with
      op := .dpImm
      rn := nibble w 16
      rd := nibble w 12
      imm := (w &&& 0xFF).rotateRight (rot.toNat * 2)
      aux := nibble w 21 ||| bitTo w 20 dp.S ||| maskIf (rot != 0) dp.ROT }

/-- Groups 010 and 011: the single transfers. -/
def decodeGroup23 (w : U32) (d : DecodedInsn) : DecodedInsn :=
  if hasBit w 25 ∧ hasBit w 4 then d
  else
    let pre := hasBit w 24
    let wbit := hasBit w 21
    let d := { d with
      op := if hasBit w 20 then .ldr else .str
      rn := nibble w 16
      rd := nibble w 12
      aux := bitTo w 22 xfer.BYTE ||| maskIf pre xfer.PRE ||| maskIf
        (hasBit w 23) xfer.UP
        ||| maskIf (!pre || wbit) xfer.WB ||| maskIf (!pre && wbit) xfer.USER }
    if hasBit w 25 then
      { d with
        aux := d.aux
          ||| (xfer.REG ||| (((w >>> 5) &&& 3).setWidth 8 <<< xfer.TY_SHIFT))
        rm := nibble w 0
        rs := ((w >>> 7) &&& 0x1F).setWidth 8 }
    else { d with imm := w &&& 0xFFF }

/-- Group 100: the block transfers; an empty list moves the PC alone. -/
def decodeGroup4 (w : U32) (d : DecodedInsn) : DecodedInsn :=
  let d := { d with
    op := if hasBit w 20 then .ldm else .stm
    rn := nibble w 16
    aux := bitTo w 24 blk.PRE ||| bitTo w 23 blk.UP ||| bitTo w 22
      blk.S ||| bitTo w 21 blk.WB
    imm := w &&& 0xFFFF }
  if d.imm = 0 then { d with imm := 1 <<< 15, aux := d.aux ||| blk.EMPTY } else d

/-- Decode one 32-bit ARM instruction. -/
def decodeArm (w : U32) : DecodedInsn :=
  let d := DecodedInsn.new .undef ((w >>> 28).setWidth 8) 4
  match ((w >>> 25) &&& 7).toNat with
  | 0 => decodeGroup0 w d
  | 1 => decodeGroup1 w d
  | 2 => decodeGroup23 w d
  | 3 => decodeGroup23 w d
  | 4 => decodeGroup4 w d
  | 5 =>
    { d with
      op := .branchImm
      aux := bitTo w 24 BR_LINK
      imm := ((w &&& 0x00FFFFFF) <<< 8).sshiftRight 6 }
  | 6 => d
  | _ =>
    if hasBit w 24 then { d with op := .swi, imm := w &&& 0x00FFFFFF } else d

-- ======== Thumb decoder

/-- Format 4: the register ALU operations. -/
def decodeThumbAlu (w : U32) (rd rs : U8) (d : DecodedInsn) : DecodedInsn :=
  let d := { d with rd := rd }
  let op := (w >>> 6) &&& 0xF
  let shifted (ty : U8) : DecodedInsn :=
    { d with
      op := .dpShReg
      rm := rd
      rs := rs
      aux := aluOp.MOV ||| dp.S ||| (ty <<< dp.TY_SHIFT) }
  match op.toNat with
  | 0x2 => shifted 0
  | 0x3 => shifted 1
  | 0x4 => shifted 2
  | 0x7 => shifted 3
  | 0x9 => { d with op := .dpImm, rn := rs, aux := aluOp.RSB ||| dp.S }
  | 0xD => { d with op := .mul, rm := rd, rs := rs, aux := mul.S }
  | _ =>
    { d with op := .dpShImm, rn := rd, rm := rs, aux := op.setWidth 8 ||| dp.S }

/-- Format 5: the high-register operations and BX. -/
def decodeThumbHigh (w : U32) (rd : U8) (d : DecodedInsn) : DecodedInsn :=
  let rdFull := rd ||| (((w >>> 7) &&& 1).setWidth 8 <<< 3)
  let rsFull := nibble w 3
  match ((w >>> 8) &&& 3).toNat with
  | 0 =>
    { d with op := .dpShImm, rd := rdFull, rn := rdFull, rm := rsFull, aux := aluOp.ADD }
  | 1 =>
    { d with op := .dpShImm, rn := rdFull, rm := rsFull, aux := aluOp.CMP ||| dp.S }
  | 2 =>
    { d with op := .dpShImm, rd := rdFull, rm := rsFull, aux := aluOp.MOV }
  | _ => { d with op := .bx, rm := rsFull }

/-- A block transfer of the listed registers, with the empty-list quirk. -/
def thumbBlock (d : DecodedInsn) : DecodedInsn :=
  if d.imm = 0 then { d with imm := 1 <<< 15, aux := d.aux ||| blk.EMPTY } else d

/-- Formats 13 and 14: the stack-pointer adjustments, PUSH and POP. -/
def decodeThumbMisc (w : U32) (d : DecodedInsn) : DecodedInsn :=
  let block : DecodedInsn :=
    if hasBit w 11 then
      thumbBlock { d with
        rn := 13
        op := .ldm
        aux := blk.UP ||| blk.WB
        imm := (w &&& 0xFF) ||| (if hasBit w 8 then 1 <<< 15 else 0) }
    else
      thumbBlock { d with
        rn := 13
        op := .stm
        aux := blk.PRE ||| blk.WB
        imm := (w &&& 0xFF) ||| (if hasBit w 8 then 1 <<< 14 else 0) }
  match ((w >>> 8) &&& 0xF).toNat with
  | 0x0 =>
    { d with
      op := .dpImm
      rd := 13
      rn := 13
      imm := (w &&& 0x7F) * 4
      aux := if hasBit w 7 then aluOp.SUB else aluOp.ADD }
  | 0x4 => block
  | 0x5 => block
  | 0xC => block
  | 0xD => block
  | _ => d

/-- Formats 7 and 8: the register-offset transfers. -/
def decodeThumbRegOff (w : U32) (rd rs : U8) (d : DecodedInsn) : DecodedInsn :=
  let d := { d with rd := rd, rn := rs, rm := ((w >>> 6) &&& 7).setWidth 8 }
  if !hasBit w 9 then
    { d with
      op := if hasBit w 11 then .ldr else .str
      aux := xfer.PRE ||| xfer.UP ||| xfer.REG ||| maskIf
        (hasBit w 10) xfer.BYTE }
  else
    let misc (op : Op) (sh : U8) : DecodedInsn :=
      { d with op := op, aux := sh ||| hw.PRE ||| hw.UP ||| hw.REG }
    match ((w >>> 10) &&& 3).toNat with
    | 0 => misc .strMisc hw.H
    | 1 => misc .ldrMisc hw.SB
    | 2 => misc .ldrMisc hw.H
    | _ => misc .ldrMisc hw.SHW

/-- Decode one 16-bit Thumb instruction. -/
def decodeThumb (half : U16) : DecodedInsn :=
  let w : U32 := half.setWidth 32
  let d := DecodedInsn.new .undef COND_AL 2
  let rd : U8 := (w &&& 7).setWidth 8
  let rs : U8 := ((w >>> 3) &&& 7).setWidth 8
  let high : U8 := ((w >>> 8) &&& 7).setWidth 8
  -- Format 1
  let shiftForm : DecodedInsn :=
    { d with
      op := .dpShImm
      rd := rd
      rm := rs
      rs := ((w >>> 6) &&& 0x1F).setWidth 8
      aux := aluOp.MOV ||| dp.S
        ||| (((w >>> 11) &&& 3).setWidth 8 <<< dp.TY_SHIFT) }
  -- Format 3
  let immForm (op : U8) : DecodedInsn :=
    { d with op := .dpImm, rd := high, rn := high, imm := w &&& 0xFF, aux := dp.S ||| op }
  -- Format 9
  let offForm : DecodedInsn :=
    let byte := hasBit w 12
    let off := (w >>> 6) &&& 0x1F
    { d with
      op := if hasBit w 11 then .ldr else .str
      rd := rd
      rn := rs
      imm := if byte then off else off * 4
      aux := xfer.PRE ||| xfer.UP ||| maskIf byte xfer.BYTE }
  -- Format 10
  let halfForm : DecodedInsn :=
    { d with
      op := if hasBit w 11 then .ldrMisc else .strMisc
      rd := rd
      rn := rs
      imm := ((w >>> 6) &&& 0x1F) * 2
      aux := hw.H ||| hw.PRE ||| hw.UP }
  -- Format 11
  let spForm : DecodedInsn :=
    { d with
      op := if hasBit w 11 then .ldr else .str
      rd := high
      rn := 13
      imm := (w &&& 0xFF) * 4
      aux := xfer.PRE ||| xfer.UP }
  -- Format 12
  let adrForm : DecodedInsn :=
    { d with
      op := .dpImm
      rd := high
      rn := if hasBit w 11 then 13 else PCA
      imm := (w &&& 0xFF) * 4
      aux := aluOp.ADD }
  -- Format 15
  let blockForm : DecodedInsn :=
    thumbBlock { d with
      op := if hasBit w 11 then .ldm else .stm
      rn := high
      imm := w &&& 0xFF
      aux := blk.UP ||| blk.WB }
  -- Formats 16 and 17
  let condForm : DecodedInsn :=
    let cond := nibble w 8
    if cond = 0xF then { d with op := .swi, imm := w &&& 0xFF }
    else
      { d with
        op := .branchImm
        cond := cond
        imm := ((w &&& 0xFF) <<< 24).sshiftRight 23 }
  -- Format 19
  let blForm : DecodedInsn :=
    { d with op := .thumbBl, aux := maskIf (hasBit w 11) TBL_SUFFIX, imm := w &&& 0x7FF }
  match (w >>> 11).toNat with
  | 0b00000 => shiftForm
  | 0b00001 => shiftForm
  | 0b00010 => shiftForm
  | 0b00011 =>
    let d := { d with
      rd := rd
      rn := rs
      aux := (if hasBit w 9 then aluOp.SUB else aluOp.ADD) ||| dp.S }
    if hasBit w 10 then { d with op := .dpImm, imm := (w >>> 6) &&& 7 }
    else { d with op := .dpShImm, rm := ((w >>> 6) &&& 7).setWidth 8 }
  | 0b00100 => immForm aluOp.MOV
  | 0b00101 => immForm aluOp.CMP
  | 0b00110 => immForm aluOp.ADD
  | 0b00111 => immForm aluOp.SUB
  | 0b01000 =>
    if !hasBit w 10 then decodeThumbAlu w rd rs d else decodeThumbHigh w rd d
  | 0b01001 =>
    { d with
      op := .ldr
      rd := high
      rn := PCA
      imm := (w &&& 0xFF) * 4
      aux := xfer.PRE ||| xfer.UP }
  | 0b01010 => decodeThumbRegOff w rd rs d
  | 0b01011 => decodeThumbRegOff w rd rs d
  | 0b01100 => offForm
  | 0b01101 => offForm
  | 0b01110 => offForm
  | 0b01111 => offForm
  | 0b10000 => halfForm
  | 0b10001 => halfForm
  | 0b10010 => spForm
  | 0b10011 => spForm
  | 0b10100 => adrForm
  | 0b10101 => adrForm
  | 0b10110 => decodeThumbMisc w d
  | 0b10111 => decodeThumbMisc w d
  | 0b11000 => blockForm
  | 0b11001 => blockForm
  | 0b11010 => condForm
  | 0b11011 => condForm
  | 0b11100 =>
    { d with op := .branchImm, imm := ((w &&& 0x7FF) <<< 21).sshiftRight 20 }
  | 0b11110 => blForm
  | 0b11111 => blForm
  | _ => d

end Remu.Arm32
