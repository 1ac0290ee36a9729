/-
The code of a block.

What the two JITs emit around the operations of a body: the prologue that
checks the block against the store stamps, the exits that write the flags,
the cycles and the instruction pointer, and the loop of a block that goes
back to its own start. The processor enters through `Fields`: its cells, the
code of one operation and the code that stores an instruction pointer.

The block is called with the budget in RDX and returns the number of
instructions retired in RAX. RBP points to the processor; its value on entry
is on the stack.
-/
import Remu.Jit.Plan

namespace Remu.Jit

open Item

/-- The cells the frame of a block uses, and the emitters that depend on the
processor. -/
structure Fields (κ : Size → Type) (α : Type) (w : Nat) where
  flags : κ .d
  cycles : κ .q
  /-- The pointer to the stamps, the stamps themselves, and the
  invalidation clock. -/
  stamps : κ .q
  stamp : Nat → κ .q
  inval : κ .q
  emitBody : α → List (Insn κ)
  emitIp : BitVec w → List (Insn κ)

variable {κ : Size → Type} {α : Type} {w : Nat}

/-- Emitted code: instructions, labels and branches. -/
abbrev Code (κ : Size → Type) : Type := List (Item (Insn κ) Branch)

-- The labels of a block.

/-- The label a stale block leaves by. -/
abbrev STALE : Nat := 0
/-- The label a loop comes back to. -/
abbrev BODY_TOP : Nat := 1
/-- The label a turn goes on at. -/
abbrev CONT : Nat := 2
/-- The label a loop leaves by when the budget has run out. -/
abbrev BUDGET_DONE : Nat := 3
/-- The exit of a block that falls through. -/
abbrev EXIT_FT : Nat := 4
/-- The exit of a block whose branch is taken. -/
abbrev EXIT_TAKEN : Nat := 5

/-- `jcc_to!`: the host condition of a guest condition code. -/
def jccTo (cc : U8) : Cc :=
  let c := cc &&& 0xF
  if c = 0x0 then .o
  else if c = 0x1 then .no
  else if c = 0x2 then .b
  else if c = 0x3 then .ae
  else if c = 0x4 then .z
  else if c = 0x5 then .nz
  else if c = 0x6 then .be
  else if c = 0x7 then .a
  else if c = 0x8 then .s
  else if c = 0x9 then .ns
  else if c = 0xA then .p
  else if c = 0xB then .np
  else if c = 0xC then .l
  else if c = 0xD then .ge
  else if c = 0xE then .le
  else .g

namespace Insn

-- Shorthands, by size.

/-- A 64-bit move. -/
abbrev movq (dst src : Operand κ .q) : Insn κ := .mov dst src
/-- A 32-bit move. -/
abbrev movd (dst src : Operand κ .d) : Insn κ := .mov dst src
/-- A 64-bit operation. -/
abbrev aluq (op : AluOp) (dst src : Operand κ .q) : Insn κ := .alu op dst src
/-- A 32-bit operation. -/
abbrev alud (op : AluOp) (dst src : Operand κ .d) : Insn κ := .alu op dst src

end Insn

open Insn

variable (F : Fields κ α w)

/-- The status flags in the low byte: those LAHF knows. -/
abbrev LAHF_FLAGS : U32 := 0xD5

/-- Write the live host flags to the guest's. -/
def emitMaterialize (fromHost const0 const1 : U32) : List (Insn κ) :=
  let clear := fromHost ||| const0 ||| const1
  if clear = 0 then []
  else
    let low := fromHost &&& LAHF_FLAGS
    let of := fromHost &&& OF
    [.lahf, .setoAl, .movzxAl .rcx,
      .shift (z := .d) .shl (.reg .rcx) 11,
      alud .and (.reg .rcx) (.imm of),
      .movzxAh .rax,
      alud .and (.reg .rax) (.imm low),
      alud .or (.reg .rax) (.reg .rcx),
      alud .or (.reg .rax) (.imm const1),
      movd (.reg .rcx) (.mem F.flags),
      alud .and (.reg .rcx) (.imm (~~~clear)),
      alud .or (.reg .rcx) (.reg .rax),
      movd (.mem F.flags) (.reg .rcx)]

/-- Cycles retired on an exit path. -/
inductive Cyc where
  | r11
  | const (c : U32)

/-- The cycles of a turn, added. -/
def emitCycles : Cyc → Insn κ
  | .r11 => aluq .add (.mem F.cycles) (.reg .r11)
  | .const c => aluq .add (.mem F.cycles) (.imm (c.signExtend 64))

/-- The retired count: R8 of a loop, the length of a block. -/
def emitRetired (retiredR8 : Bool) (ninsns : U32) : Insn κ :=
  if retiredR8 then movq (.reg .rax) (.reg .r8)
    else movd (.reg .rax) (.imm ninsns)

/-- An exit: flags, cycles, instruction pointer and the retired count. -/
def emitExit (p : Plan α w) (ip : BitVec w) (retiredR8 : Bool) (ninsns : U32)
    (cyc : Cyc) : Code κ :=
  ((if p.flagsDirty then emitMaterialize F p.matFromHost p.matConst0 p.matConst1 else [])
    ++ [emitCycles F cyc] ++ F.emitIp ip ++ [emitRetired retiredR8 ninsns,
      .pop .rbp]).map .op ++ [.ret]

/-- The back edge of a loop: RCX counts down, and while it is not zero the
body runs again. LOOP reaches only its neighbourhood, the jump behind it
any block. -/
def emitBackedge : Code κ :=
  [.branch .loop CONT, .jump BUDGET_DONE, .label CONT, .jump BODY_TOP,
    .label BUDGET_DONE]

/-- Count one traversal. -/
def emitCount (ninsns cyc : U32) : Code κ :=
  [.lea .r8 ninsns, .lea .r11 cyc].map .op

/-- The head of a loop: the number of traversals the budget allows in RCX. -/
def emitLoopHead (ninsns : U32) : Code κ :=
  [alud .xor (.reg .r8) (.reg .r8),
    alud .xor (.reg .r11) (.reg .r11),
    movq (.reg .rax) (.reg .rdx),
    alud .xor (.reg .rdx) (.reg .rdx),
    movd (.reg .r9) (.imm ninsns),
    .div .r9,
    movq (.reg .rcx) (.reg .rax)].map .op ++ [.label BODY_TOP]

/-- The body of a block. -/
def emitBodies (p : Plan α w) : Code κ := (p.body.flatMap F.emitBody).map .op

/-- Behind the body of a loop. -/
def emitLoopEnd (p : Plan α w) : Code κ :=
  match p.term with
  | .jcc cc _ fallthrough =>
    [.branch (.jcc (jccTo (cc ^^^ 1))) EXIT_FT]
      ++ emitCount p.ninsns (p.bodyCycles + CYC_JCC_TAKEN)
      ++ emitBackedge
      ++ emitExit F p p.startIp true p.ninsns .r11
      ++ [.label EXIT_FT]
      ++ emitCount p.ninsns (p.bodyCycles + CYC_JCC_NOT)
      ++ emitExit F p fallthrough true p.ninsns .r11
  | .jmp _ =>
    emitCount p.ninsns (p.bodyCycles + CYC_JMP)
      ++ emitBackedge
      ++ emitExit F p p.startIp true p.ninsns .r11
  -- A loop ends in a branch.
  | .fall _ => []

/-- Behind the body of any other block. -/
def emitEnd (p : Plan α w) : Code κ :=
  match p.term with
  | .jcc cc taken fallthrough =>
    [.branch (.jcc (jccTo cc)) EXIT_TAKEN]
      ++ emitExit F p fallthrough false p.ninsns
        (.const (p.bodyCycles + CYC_JCC_NOT))
      ++ [.label EXIT_TAKEN]
      ++ emitExit F p taken false p.ninsns
        (.const (p.bodyCycles + CYC_JCC_TAKEN))
  | .jmp target =>
    emitExit F p target false p.ninsns (.const (p.bodyCycles + CYC_JMP))
  | .fall ip => emitExit F p ip false p.ninsns (.const p.bodyCycles)

/-- The prologue: leave for `STALE` when the page has been written since
`version`, or everything invalidated. -/
def emitPrologue (version : U64) (stampSlot : Nat) : Code κ :=
  [.push .rbp,
    movq (.reg .rbp) (.reg .rcx),
    movq (.reg .rax) (.imm version),
    movq (.reg .r10) (.mem F.stamps),
    aluq .cmp (.reg .rax) (.mem (F.stamp stampSlot))].map .op
    ++ [.branch (.jcc .b) STALE, .op (aluq .cmp (.reg .rax) (.mem F.inval)),
      .branch (.jcc .b) STALE]

/-- The way out of a stale block: nothing retired. -/
def emitStale : Code κ :=
  [.label STALE, .op (alud .xor (.reg .rax) (.reg .rax)),
    .op (.pop .rbp), .ret]

/-- The body: a loop, or a straight run. -/
def emitMain (p : Plan α w) : Code κ :=
  if p.selfLoop then emitLoopHead p.ninsns ++ emitBodies F p ++ emitLoopEnd F p
  else emitBodies F p ++ emitEnd F p

/-- A whole block. -/
def emitBlock (p : Plan α w) (version : U64) (stampSlot : Nat) : Code κ :=
  emitPrologue F version stampSlot ++ emitMain F p ++ emitStale

end Remu.Jit
