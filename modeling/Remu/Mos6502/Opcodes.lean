/-
The 6502's instruction set: what an instruction does, how it finds its
operand, and the decode table.

Opcodes the table leaves out are undocumented ones; they jam the
processor.
-/
import Remu.Lib.Word

namespace Remu.Mos6502

/-- What an instruction does. -/
inductive Operation where
  | ADC | AND | ASL | BCC | BCS | BEQ | BIT | BMI | BNE | BPL | BRK | BVC | BVS | CLC
  | CLD | CLI | CLV | CMP | CPX | CPY | DEC | DEX | DEY | EOR | INC | INX | INY | JMP
  | JSR | LDA | LDX | LDY | LSR | NOP | ORA | PHA | PHP | PLA | PLP | ROL | ROR | RTI
  | RTS | SBC | SEC | SED | SEI | STA | STX | STY | TAX | TAY | TSX | TXA | TXS | TYA
  | KIL
deriving DecidableEq, Repr

/-- How an instruction locates its operand. -/
inductive AddressingMode where
  | implied
  | accumulator
  | immediate
  | zeroPage
  /-- Indexed, wrapping within the zero page. -/
  | zeroPageX
  | zeroPageY
  | absolute
  | absoluteX
  | absoluteY
  /-- JMP through a pointer that does not leave its page. -/
  | indirect
  /-- JSR fetches its target itself, between the pushes. -/
  | jsrAbsolute
  | indexedIndirect
  | indirectIndexed
  | relative
deriving DecidableEq, Repr

/-- Metadata of one opcode. -/
structure OpInfo where
  operation : Operation
  mode : AddressingMode
  /-- Before the penalties of a page crossing or a branch. -/
  cycles : U8
  pagePenalty : Bool
deriving DecidableEq, Repr

/-- A table entry. -/
def OpInfo.op (operation : Operation) (mode : AddressingMode) (cycles : U8)
    (pagePenalty : Bool) : OpInfo :=
  { operation, mode, cycles, pagePenalty }

/-- The official opcodes. -/
def officialOpcodes : List (U8 × OpInfo) :=
  [(0x69, .op .ADC .immediate 2 false), (0x65, .op .ADC .zeroPage 3 false),
    (0x75, .op .ADC .zeroPageX 4 false), (0x6D, .op .ADC .absolute 4 false),
    (0x7D, .op .ADC .absoluteX 4 true), (0x79, .op .ADC .absoluteY 4 true),
    (0x61, .op .ADC .indexedIndirect 6 false),
      (0x71, .op .ADC .indirectIndexed 5 true),
    (0x29, .op .AND .immediate 2 false), (0x25, .op .AND .zeroPage 3 false),
    (0x35, .op .AND .zeroPageX 4 false), (0x2D, .op .AND .absolute 4 false),
    (0x3D, .op .AND .absoluteX 4 true), (0x39, .op .AND .absoluteY 4 true),
    (0x21, .op .AND .indexedIndirect 6 false),
      (0x31, .op .AND .indirectIndexed 5 true),
    (0x0A, .op .ASL .accumulator 2 false), (0x06, .op .ASL .zeroPage 5 false),
    (0x16, .op .ASL .zeroPageX 6 false), (0x0E, .op .ASL .absolute 6 false),
    (0x1E, .op .ASL .absoluteX 7 false),
    (0x90, .op .BCC .relative 2 false), (0xB0, .op .BCS .relative 2 false),
    (0xF0, .op .BEQ .relative 2 false), (0x30, .op .BMI .relative 2 false),
    (0xD0, .op .BNE .relative 2 false), (0x10, .op .BPL .relative 2 false),
    (0x50, .op .BVC .relative 2 false), (0x70, .op .BVS .relative 2 false),
    (0x24, .op .BIT .zeroPage 3 false), (0x2C, .op .BIT .absolute 4 false),
    (0x00, .op .BRK .implied 7 false),
    (0x18, .op .CLC .implied 2 false), (0xD8, .op .CLD .implied 2 false),
    (0x58, .op .CLI .implied 2 false), (0xB8, .op .CLV .implied 2 false),
    (0x38, .op .SEC .implied 2 false), (0xF8, .op .SED .implied 2 false),
    (0x78, .op .SEI .implied 2 false),
    (0xC9, .op .CMP .immediate 2 false), (0xC5, .op .CMP .zeroPage 3 false),
    (0xD5, .op .CMP .zeroPageX 4 false), (0xCD, .op .CMP .absolute 4 false),
    (0xDD, .op .CMP .absoluteX 4 true), (0xD9, .op .CMP .absoluteY 4 true),
    (0xC1, .op .CMP .indexedIndirect 6 false),
      (0xD1, .op .CMP .indirectIndexed 5 true),
    (0xE0, .op .CPX .immediate 2 false), (0xE4, .op .CPX .zeroPage 3 false),
    (0xEC, .op .CPX .absolute 4 false), (0xC0, .op .CPY .immediate 2 false),
    (0xC4, .op .CPY .zeroPage 3 false), (0xCC, .op .CPY .absolute 4 false),
    (0xC6, .op .DEC .zeroPage 5 false), (0xD6, .op .DEC .zeroPageX 6 false),
    (0xCE, .op .DEC .absolute 6 false), (0xDE, .op .DEC .absoluteX 7 false),
    (0xCA, .op .DEX .implied 2 false), (0x88, .op .DEY .implied 2 false),
    (0x49, .op .EOR .immediate 2 false), (0x45, .op .EOR .zeroPage 3 false),
    (0x55, .op .EOR .zeroPageX 4 false), (0x4D, .op .EOR .absolute 4 false),
    (0x5D, .op .EOR .absoluteX 4 true), (0x59, .op .EOR .absoluteY 4 true),
    (0x41, .op .EOR .indexedIndirect 6 false),
      (0x51, .op .EOR .indirectIndexed 5 true),
    (0xE6, .op .INC .zeroPage 5 false), (0xF6, .op .INC .zeroPageX 6 false),
    (0xEE, .op .INC .absolute 6 false), (0xFE, .op .INC .absoluteX 7 false),
    (0xE8, .op .INX .implied 2 false), (0xC8, .op .INY .implied 2 false),
    (0x4C, .op .JMP .absolute 3 false), (0x6C, .op .JMP .indirect 5 false),
    (0x20, .op .JSR .jsrAbsolute 6 false),
    (0xA9, .op .LDA .immediate 2 false), (0xA5, .op .LDA .zeroPage 3 false),
    (0xB5, .op .LDA .zeroPageX 4 false), (0xAD, .op .LDA .absolute 4 false),
    (0xBD, .op .LDA .absoluteX 4 true), (0xB9, .op .LDA .absoluteY 4 true),
    (0xA1, .op .LDA .indexedIndirect 6 false),
      (0xB1, .op .LDA .indirectIndexed 5 true),
    (0xA2, .op .LDX .immediate 2 false), (0xA6, .op .LDX .zeroPage 3 false),
    (0xB6, .op .LDX .zeroPageY 4 false), (0xAE, .op .LDX .absolute 4 false),
    (0xBE, .op .LDX .absoluteY 4 true),
    (0xA0, .op .LDY .immediate 2 false), (0xA4, .op .LDY .zeroPage 3 false),
    (0xB4, .op .LDY .zeroPageX 4 false), (0xAC, .op .LDY .absolute 4 false),
    (0xBC, .op .LDY .absoluteX 4 true),
    (0x4A, .op .LSR .accumulator 2 false), (0x46, .op .LSR .zeroPage 5 false),
    (0x56, .op .LSR .zeroPageX 6 false), (0x4E, .op .LSR .absolute 6 false),
    (0x5E, .op .LSR .absoluteX 7 false),
    (0xEA, .op .NOP .implied 2 false),
    (0x09, .op .ORA .immediate 2 false), (0x05, .op .ORA .zeroPage 3 false),
    (0x15, .op .ORA .zeroPageX 4 false), (0x0D, .op .ORA .absolute 4 false),
    (0x1D, .op .ORA .absoluteX 4 true), (0x19, .op .ORA .absoluteY 4 true),
    (0x01, .op .ORA .indexedIndirect 6 false),
      (0x11, .op .ORA .indirectIndexed 5 true),
    (0x48, .op .PHA .implied 3 false), (0x08, .op .PHP .implied 3 false),
    (0x68, .op .PLA .implied 4 false), (0x28, .op .PLP .implied 4 false),
    (0x2A, .op .ROL .accumulator 2 false), (0x26, .op .ROL .zeroPage 5 false),
    (0x36, .op .ROL .zeroPageX 6 false), (0x2E, .op .ROL .absolute 6 false),
    (0x3E, .op .ROL .absoluteX 7 false), (0x6A, .op .ROR .accumulator 2 false),
    (0x66, .op .ROR .zeroPage 5 false), (0x76, .op .ROR .zeroPageX 6 false),
    (0x6E, .op .ROR .absolute 6 false), (0x7E, .op .ROR .absoluteX 7 false),
    (0x40, .op .RTI .implied 6 false), (0x60, .op .RTS .implied 6 false),
    (0xE9, .op .SBC .immediate 2 false), (0xE5, .op .SBC .zeroPage 3 false),
    (0xF5, .op .SBC .zeroPageX 4 false), (0xED, .op .SBC .absolute 4 false),
    (0xFD, .op .SBC .absoluteX 4 true), (0xF9, .op .SBC .absoluteY 4 true),
    (0xE1, .op .SBC .indexedIndirect 6 false),
      (0xF1, .op .SBC .indirectIndexed 5 true),
    (0x85, .op .STA .zeroPage 3 false), (0x95, .op .STA .zeroPageX 4 false),
    (0x8D, .op .STA .absolute 4 false), (0x9D, .op .STA .absoluteX 5 false),
    (0x99, .op .STA .absoluteY 5 false),
      (0x81, .op .STA .indexedIndirect 6 false),
    (0x91, .op .STA .indirectIndexed 6 false),
    (0x86, .op .STX .zeroPage 3 false), (0x96, .op .STX .zeroPageY 4 false),
    (0x8E, .op .STX .absolute 4 false), (0x84, .op .STY .zeroPage 3 false),
    (0x94, .op .STY .zeroPageX 4 false), (0x8C, .op .STY .absolute 4 false),
    (0xAA, .op .TAX .implied 2 false), (0xA8, .op .TAY .implied 2 false),
    (0xBA, .op .TSX .implied 2 false), (0x8A, .op .TXA .implied 2 false),
    (0x9A, .op .TXS .implied 2 false), (0x98, .op .TYA .implied 2 false)]

/-- The decode table; an opcode it does not list jams the processor. -/
def OPCODES (opcode : U8) : OpInfo :=
  (officialOpcodes.lookup opcode).getD (.op .KIL .implied 2 false)

end Remu.Mos6502
