/-
The template JIT of the 386 core: decode-ahead and translation.

Decode-ahead runs the decoder of the instruction cache and stops at what it
cannot translate. Only register forms at 32-bit operand size are taken, so
every operation of a body is one 32-bit host instruction or two on register
slots in memory.
-/
import Remu.Jit.Emit
import Remu.X32.Step

namespace Remu.X32

open Jit (Size Cells Fields Insn AluOp ShiftOp FlagEffect Term Cand Plan Code)
open Jit.Insn (movd alud)

variable {β : Type}

-- ======== the cells

/-- The fields of the processor that emitted code addresses. -/
inductive Cell : Size → Type where
  | gpr (i : U8) : Cell .d
  | eflags : Cell .d
  | eip : Cell .d
  | cycles : Cell .q
  | stamps : Cell .q
  | stamp (slot : Nat) : Cell .q
  | inval : Cell .q

/-- Where the boxed stamps are does not matter: they are cells themselves. -/
def Cell.read : {z : Size} → Cell z → Machine β → BitVec z.bits
  | _, .gpr i, s => s.regs.gpr i
  | _, .eflags, s => s.regs.eflags.bits
  | _, .eip, s => s.regs.eip
  | _, .cycles, s => s.cycles
  | _, .stamps, _ => 0
  | _, .stamp slot, s => s.icache.stamps (BitVec.ofNat 32 slot)
  | _, .inval, s => s.icache.inval

/-- Write a cell of the guest. -/
def Cell.write : {z : Size} → Cell z → BitVec z.bits → Machine β → Machine β
  | _, .gpr i, v, s =>
    { s with regs := { s.regs with gpr := upd s.regs.gpr i v } }
  | _, .eflags, v, s => { s with regs := { s.regs with eflags := ⟨v⟩ } }
  | _, .eip, v, s => { s with regs := { s.regs with eip := v } }
  | _, .cycles, v, s => { s with cycles := v }
  | _, .stamps, _, s => s
  | _, .stamp slot, v, s =>
    { s with icache := { s.icache with stamps := upd s.icache.stamps (BitVec.ofNat 32 slot) v } }
  | _, .inval, v, s => { s with icache := { s.icache with inval := v } }

instance : Cells Cell (Machine β) where
  read := Cell.read
  write := Cell.write

-- ======== operations

/-- A translated operation of a body; every operand is 32 bits wide. `wb`
is false for TEST and CMP. -/
inductive Body where
  | storeImm (reg : U8) (val : U32)
  | incDec (reg : U8) (dec : Bool)
  | aluRR (dst src aluop : U8) (wb : Bool)
  | aluImm (dst aluop : U8) (imm : U32) (wb : Bool)
  | shift (reg shop count : U8)
  | imul (dst src : U8)
deriving DecidableEq, Repr

/-- The host operation of a selector that writes back. -/
def aluOf (aluop : U8) : AluOp :=
  if aluop = 0 then .add
  else if aluop = 1 then .or
  else if aluop = 2 then .adc
  else if aluop = 3 then .sbb
  else if aluop = 4 then .and
  else if aluop = 5 then .sub
  else .xor

/-- An ALU operation on a register slot: CMP and TEST do not write. -/
def emitAluOn (src : Jit.Operand Cell .d) (aluop dst : U8) (wb : Bool) :
    List (Insn Cell) :=
  if aluop = 7 then [alud .cmp (.mem (.gpr dst)) src]
  else if !wb then [.test (.mem (.gpr dst)) src]
  else [alud (aluOf aluop) (.mem (.gpr dst)) src]

/-- The source is in EAX. -/
def emitAlu (aluop dst : U8) (wb : Bool) : List (Insn Cell) :=
  emitAluOn (.reg .rax) aluop dst wb

/-- An ALU operation with an immediate. -/
def emitAluImm (aluop dst : U8) (imm : U32) (wb : Bool) : List (Insn Cell) :=
  emitAluOn (.imm imm) aluop dst wb

/-- The host's shift for a guest's number. -/
def shiftOf (shop : U8) : ShiftOp :=
  if shop = 0 then .rol
  else if shop = 1 then .ror
  else if shop = 4 then .shl
  else if shop = 5 then .shr
  else .sar

/-- The code of an operation. -/
def emitBody : Body → List (Insn Cell)
  | .storeImm reg val => [movd (.mem (.gpr reg)) (.imm val)]
  | .incDec reg dec =>
    if dec then [.dec (.mem (.gpr reg))] else [.inc (.mem (.gpr reg))]
  | .aluRR dst src aluop wb =>
    movd (.reg .rax) (.mem (.gpr src)) :: emitAlu aluop dst wb
  | .aluImm dst aluop imm wb => emitAluImm aluop dst imm wb
  | .shift reg shop count => [.shift (shiftOf shop) (.mem (.gpr reg)) count]
  | .imul dst src =>
    [movd (.reg .rax) (.mem (.gpr dst)),
      .imul (z := .d) .rax (.mem (.gpr src)),
      movd (.mem (.gpr dst)) (.reg .rax)]

/-- The frame of a block of this core. -/
def fields : Fields Cell Body 32 where
  flags := .eflags
  cycles := .cycles
  stamps := .stamps
  stamp := .stamp
  inval := .inval
  emitBody := emitBody
  emitIp ip := [movd (.mem .eip) (.imm ip)]

-- ======== classification

/-- The operation of a record, with its flag effect and cycle weight;
terminators apart. -/
def classifyBody (d : DecodedInsn) : Option (Body × FlagEffect × U32) :=
  if !d.osize32 then none
  else
    let reg := d.kind = .reg
    match d.op with
    | .MovRegImmW => some (.storeImm d.reg d.imm, {}, Jit.CYC_MOV)
    | .MovRmImmW =>
      if reg then some (.storeImm d.base d.imm, {}, Jit.CYC_MOV) else none
    | .IncReg => some (.incDec d.reg false, Jit.incDecEffect, Jit.CYC_INCDEC)
    | .DecReg => some (.incDec d.reg true, Jit.incDecEffect, Jit.CYC_INCDEC)
    | .IncDecRmW =>
      if reg then some (.incDec d.base (d.aux ≠ 0), Jit.incDecEffect,
        Jit.CYC_INCDEC) else none
    | .AluRmRW =>
      if reg then some (.aluRR d.base d.reg d.aux d.wb, Jit.aluEffect d.aux,
        Jit.CYC_ALU) else none
    | .AluRRmW =>
      if reg then some (.aluRR d.reg d.base d.aux d.wb, Jit.aluEffect d.aux,
        Jit.CYC_ALU) else none
    | .AluAccImmW =>
      some (.aluImm 0 d.aux d.imm d.wb, Jit.aluEffect d.aux, Jit.CYC_ALU)
    | .AluGrpImmW =>
      if reg then some (.aluImm d.base d.aux d.imm d.wb, Jit.aluEffect d.aux,
        Jit.CYC_ALU) else none
    | .ShiftRmW =>
      if reg ∧ d.aux &&& 0x80 = 0 then
        let shop := d.aux &&& 7
        -- RCL and RCR are not translated.
        if shop = 2 ∨ shop = 3 then none
        else
          let count := d.imm &&& 0x1F
          some (.shift d.base shop (count.setWidth 8),
            Jit.shiftEffect shop count, Jit.CYC_SHIFT)
      else none
    | .ImulRRmW =>
      if reg then some (.imul d.reg d.base, Jit.imulEffect, Jit.CYC_IMUL) else none
    | _ => none

/-- The way out of a branch record that ends at `end_`. -/
def branchTerm (d : DecodedInsn) (end_ : U32) : Term 32 :=
  let target := end_ + d.imm
  if d.op = .JmpRel then .jmp target else .jcc (d.aux &&& 0xF) target end_

/-- The candidate of a branch record. -/
def branchCand (d : DecodedInsn) (end_ : U32) : Cand Body 32 where
  body := none
  term := some (branchTerm d end_)
  effect := { reads := if d.op = .JmpRel then 0 else Jit.jccReads (d.aux &&& 0xF) }
  cyc := if d.op = .JmpRel then Jit.CYC_JMP else 0
  endIp := end_

/-- The candidate of any other record. -/
def bodyCand (p : Body × FlagEffect × U32) (end_ : U32) : Cand Body 32 where
  body := some p.1
  term := none
  effect := p.2.1
  cyc := p.2.2
  endIp := end_

-- ======== decode-ahead

variable [Bus β]

/-- Decode the instruction at EIP without executing it. -/
def jitDecodeOne : Exec β (Option DecodedInsn) := do
  Fallible.modify Machine.resetDecode
  let r ← Fallible.outcome scanPrefixes.run
  match r with
  | .error _ => return none
  | .ok (opcode, npfx) => do
    let s ← Fallible.get
    if s.lock || s.rep.isSome then return none
    else do
      let r ← Fallible.outcome (tryDecode opcode npfx).run
      match r with
      | .ok (.hot d) => return some d
      | _ => return none

/-- Put EIP back and stop. -/
def stopAt (eip : U32) : Exec β (List (Cand Body 32)) := do
  (setEip eip).run
  return []

/-- The first pass: candidates up to a terminator, the end of the page, an
untranslatable instruction or the length cap. A prefix costs the
interpreter a cycle, so prefixed forms are refused. -/
def pass1 (phys : U32) : Nat → U32 → Exec β (List (Cand Body 32))
  | 0, _ => pure []
  | n + 1, total =>
    if 0x1000 ≤ (phys &&& 0xFFF) + total then pure []
    else do
      let s ← Fallible.get
      let insnStart := s.regs.eip
      let r ← jitDecodeOne
      match r with
      | none => stopAt insnStart
      | some d =>
        let len := d.len.setWidth 32
        if d.npfx ≠ 0 ∨ 0x1000 < (phys &&& 0xFFF) + total + len
          then stopAt insnStart
        else
          let end_ := insnStart + len
          if d.op = .Jcc ∨ d.op = .JmpRel then return [branchCand d end_]
          else
            match classifyBody d with
            | none => stopAt insnStart
            | some p => do
              let rest ← pass1 phys n (total + len)
              return bodyCand p end_ :: rest

/-- Decode-ahead and the analysis of the flags. -/
def jitPlan (phys startEip : U32) : Exec β (Option (Plan Body 32)) := do
  let cands ← pass1 phys Jit.MAX_BLOCK_INSNS 0
  return Jit.planOf startEip cands

/-- Translate the block at EIP: its code, version and stamp slot. Decode-
ahead is speculative, so EIP and CR2 are put back. -/
def jitTranslate (phys : U32) : Exec β (Option (Plan Body 32 × U64 × Nat)) := do
  let s ← Fallible.get
  let plan ← jitPlan phys s.regs.eip
  (setEip s.regs.eip).run
  (setCr2 s.regs.cr2).run
  let t ← Fallible.get
  return plan.map fun p => (p, t.icache.now, (ICache.stampSlot phys).toNat)

end Remu.X32
