/-
The operations of a translated body, and the records they stand for.

An operation does to the register slots and to the host's flags what the
interpreter does to the registers and to EFLAGS (`Mirrors`), as far as its
flag effect promises. What the interpreter alone notes about the instruction
it runs, the sizes and prefixes and where it began, is written anew by every
instruction (`settled`).
-/
import Remu.Jit.Block
import Remu.X32.EffectiveAddr
import Remu.X32.Flags
import Remu.X32.JitDecode

namespace Remu.X32

open Jit (Size Cells Fields Insn Host FlagEffect FlagsDo Term Cand Plan Guest
  Spares Does Obeys flagsOf)

variable {β : Type}

-- ======== the guest

/-- Without the interpreter's notes. -/
def Machine.settled (s : Machine β) : Machine β :=
  { s with toDecodeState := Cpu.new.toDecodeState, startEip := 0, coldSaved := false }

/-- Without flags, cycles and EIP either. -/
def Machine.bare (s : Machine β) : Machine β :=
  { s.settled with regs := { s.regs with eflags := EFlags.empty, eip := 0 }, cycles := 0 }

/-- The 386 as a guest of the generated code: its registers, flags, cycles and
EIP. -/
def guest : Guest fields (Machine β) where
  ip s := s.regs.eip
  Alike s t := s.bare = t.bare
  equiv := ⟨fun _ => rfl, Eq.symm, Eq.trans⟩
  alike_flags _ _ := rfl
  alike_cycles _ _ := rfl
  flags_flags _ _ := rfl
  flags_cycles _ _ := rfl
  cycles_flags _ _ := rfl
  cycles_cycles _ _ := rfl
  spares_ip _ _ := ⟨fun _ _ => rfl, rfl, rfl⟩
  alike_ip _ _ := rfl
  ip_ip _ _ := rfl
  flags_ip _ _ := rfl
  cycles_ip _ _ := rfl

@[simp] theorem guest_ip (s : Machine β) : guest.ip s = s.regs.eip := rfl

@[simp] theorem guest_flags (s : Machine β) :
    guest.flags s = s.regs.eflags.bits := rfl

@[simp] theorem guest_cycles (s : Machine β) : guest.cycles s = s.cycles := rfl

/-- The same is the same apart from the notes. -/
theorem same_iff (s t : Machine β) :
    guest.Same s t ↔ s.settled = t.settled := by
  constructor
  · rintro ⟨halike, hflags, hcycles, hip⟩
    have hback : ∀ u : Machine β, u.settled
        = { u.bare with
            regs :=
              { u.bare.regs with
                eflags := ⟨u.regs.eflags.bits⟩, eip := u.regs.eip }
            cycles := u.cycles } := fun _ => rfl
    have halike : s.bare = t.bare := halike
    have hflags : s.regs.eflags.bits = t.regs.eflags.bits := hflags
    have hcycles : s.cycles = t.cycles := hcycles
    have hip : s.regs.eip = t.regs.eip := hip
    rw [hback s, hback t, halike, hflags, hcycles, hip]
  · intro h
    have hbare : s.settled.bare = t.settled.bare := congrArg Machine.bare h
    exact ⟨hbare, congrArg (·.regs.eflags.bits) h, congrArg (·.cycles) h,
      congrArg (·.regs.eip) h⟩

-- ======== one interpreted step

variable [Bus β]

/-- A step of the interpreter that finds `d` in the cache. -/
def Machine.stepHit (s : Machine β) (d : DecodedInsn) : Machine β :=
  match runHit d s.begin with
  | (.ok c, t) => t.addCycles c
  | (.error e, t) =>
    match faultEpilogue e s.regs.gpr t with
    | (some c, u) => u.addCycles c
    | (none, u) => u

/-- A fast step that hits its record executes it. -/
theorem stepFast_of_probe {s : Machine β} {d : DecodedInsn}
    (h : s.begin.probe = some d) :
    (stepFast s).2 = s.stepHit d := by
  have hexec : execOne s = runHit d s.begin := by
    rw [execOne, Fallible.bind_of_ok (Fallible.modify_apply _ _),
      Fallible.bind_of_ok (Fallible.get_apply _), h]
  rw [stepFast, execRewound, hexec, Machine.stepHit]
  rcases runHit d s.begin with ⟨e | c, t⟩
  · dsimp only
    rcases faultEpilogue e s.regs.gpr t with ⟨_ | c, u⟩ <;> rfl
  · rfl

/-- The state an instruction runs in. -/
def Machine.prepare (s : Machine β) (d : DecodedInsn) : Machine β :=
  s.begin.beginDecoded d

/-- A hit that completes adds the cycles of the handler and of the prefixes. -/
theorem stepHit_of_run {s t : Machine β} {d : DecodedInsn} {c : U32}
    (h : (execDecoded d).run (s.prepare d) = (.ok c, t)) :
    s.stepHit d = t.addCycles (c + d.npfx.setWidth 32) := by
  have hrun : runHit d s.begin = (.ok (c + d.npfx.setWidth 32), t) := by
    rw [runHit, Fallible.bind_of_ok (Fallible.modify_apply _ _)]
    exact Fallible.bind_of_ok h
  rw [Machine.stepHit, hrun]

-- ======== register forms

section Wide

variable {s : Machine β} (hs : s.osize32 = true)

include hs

/-- The operand forms a block may hold, registers all. -/
theorem run_readOp_reg (i : U8) :
    (readOp (.reg i) : Calm β U32).run s = (.ok (s.regs.reg32 i), s) := by
  rw [readOp, Bounded.run_bind, Fallible.bind_of_ok (run_self s), hs]
  rfl

theorem run_writeOp_reg (i : U8) (v : U32) :
    (writeOp (.reg i) v : Calm β Unit).run s
      = (.ok (), s.withHot (s.regs.setReg32 i v)) := by
  rw [writeOp, Bounded.run_bind, Fallible.bind_of_ok (run_self s), hs]
  rfl

theorem run_writeReg (i : U8) (v : U32) :
    (writeReg i v : Calm β Unit).run s
      = (.ok (), s.withHot (s.regs.setReg32 i v)) := by
  rw [writeReg, Bounded.run_bind, Fallible.bind_of_ok (run_self s)]
  refine (run_modifyHot _ _ s).trans ?_
  rw [hs]
  rfl

/-- At 32-bit operand size the wide half of a handler runs. -/
theorem run_onWidth {f : U32 → EFlags → U32 × EFlags}
    {g : U16 → EFlags → U16 × EFlags}
    (hf : ∀ a e, (f a e).2.vm = e.vm) (hg : ∀ a e, (g a e).2.vm = e.vm)
    (v : U32) :
    (onWidth s.osize32 f g v hf hg : Calm β U32).run s
      = (.ok (f v s.regs.eflags).1,
      s.withHot { s.regs.toHotRegs with eflags := (f v s.regs.eflags).2 }) := by
  rw [onWidth, if_pos hs]
  exact run_withFlags _ _ s

/-- The ALU table moves the flags and nothing else. -/
theorem run_alu (i : U8) (a b : U32) :
    (alu i a b : Calm β U32).run s = (.ok (Alu.table i a b s.regs.eflags).1,
      s.withHot { s.regs.toHotRegs with eflags := (Alu.table i a b s.regs.eflags).2 }) := by
  rw [alu, Bounded.run_bind, Fallible.bind_of_ok (run_self s)]
  exact run_onWidth hs _ _ a

omit [Bus β] in
/-- A register read at 32-bit operand size. -/
theorem regOp_wide (i : U8) : s.regOp i = s.regs.reg32 i := by
  rw [Cpu.regOp, hs]
  rfl

end Wide

-- ======== one operation

/-- What an operation does to registers and flags. -/
abbrev Act : Type := (U8 → U32) → EFlags → (U8 → U32) × EFlags

/-- The machine behind it. -/
def Machine.acted {β : Type} (s : Machine β) (act : Act) : Machine β :=
  s.withHot { s.regs.toHotRegs with
    gpr := (act s.regs.gpr s.regs.eflags).1,
    eflags := (act s.regs.gpr s.regs.eflags).2 }

/-- The host does `act` to the slots, and to its own flags what `e`
promises. -/
def Mirrors (act : Act) (e : FlagEffect) (b : Body) : Prop :=
  ∀ {β : Type} (h : Host (Machine β)) (f : EFlags),
    (∀ φ, Jit.has e.reads φ = true → h.flags φ = flagsOf f.bits φ) →
    ((Jit.host Cell (Machine β)).exec (fields.emitBody b) h).mem
      = h.mem.withGpr (act h.mem.regs.gpr f).1
      ∧ FlagsDo e h.flags
        ((Jit.host Cell (Machine β)).exec (fields.emitBody b) h).flags f.bits
        (act h.mem.regs.gpr f).2.bits
      ∧ Spares [.rax] h
        ((Jit.host Cell (Machine β)).exec (fields.emitBody b) h)

-- ======== the operations

/-- A register number below 8 is its own low three bits. -/
theorem and_7 {i : U8} (hi : i < 8) : i &&& 7 = i := by
  have hall : ∀ n < 8, (BitVec.ofNat 8 n) &&& 7 = BitVec.ofNat 8 n := by decide
  have h := hall i.toNat (BitVec.lt_def.1 hi)
  rwa [BitVec.ofNat_toNat, BitVec.setWidth_eq] at h

/-- MOV. -/
def Act.store (i : U8) (v : U32) : Act := fun r f => (upd r (i &&& 7) v, f)

/-- A result and its flags to a register. -/
def Act.result (i : U8) (g : U32 → EFlags → U32 × EFlags) : Act := fun r f =>
  (upd r (i &&& 7) (g (r (i &&& 7)) f).1, (g (r (i &&& 7)) f).2)

/-- An ALU operation of the table. -/
def Act.alu (aluop dst : U8) (src : (U8 → U32) → U32) (wb : Bool) : Act :=
  fun r f =>
  let p := Alu.table aluop (r (dst &&& 7)) (src r) f
  (if wb then upd r (dst &&& 7) p.1 else r, p.2)

/-- Host code that stores an immediate mirrors MOV. -/
theorem mirrors_store {i : U8} (hi : i < 8) (v : U32) :
    Mirrors (.store i v) {} (.storeImm i v) := by
  intro β h f _
  refine ⟨?_, .none _ _, fun _ _ => rfl, rfl, rfl⟩
  rw [Act.store, and_7 hi]
  rfl

/-- The flags of a result, as the emitted code packs them. -/
theorem bits_setSzp {w : Nat} (f : EFlags) (r : BitVec w) :
    (f.setSzp r).bits = Jit.putSzp f.bits r := by
  rw [EFlags.setSzp, EFlags.set_eq_put, EFlags.set_eq_put, EFlags.set_eq_put]
  rfl

/-- INC: the host's flags but for CF. -/
theorem mirrors_inc {i : U8} (hi : i < 8) :
    Mirrors (.result i Alu.inc) Jit.incDecEffect (.incDec i false) := by
  intro β h f _
  refine ⟨?_, ?_, fun _ _ => rfl, rfl, rfl⟩
  · rw [Act.result, and_7 hi]
    rfl
  · have hbits : (Act.result i Alu.inc h.mem.regs.gpr f).2.bits
        = Jit.putSzp
          (Flag.put (Flag.put f.bits Jit.AF (h.mem.regs.gpr i &&& 0xF == 0xF)) Jit.OF
          (h.mem.regs.gpr i + 1 == BitVec.intMin 32))
            (h.mem.regs.gpr i + 1) := by
      rw [Act.result, and_7 hi, Alu.inc, bits_setSzp, EFlags.set_eq_put,
        EFlags.set_eq_put]
    rw [hbits]
    have hflags :
        ((Jit.host Cell (Machine β)).exec (fields.emitBody (.incDec i false)) h).flags
        = Jit.keepCarry h.flags (Jit.addFlags (h.mem.regs.gpr i) 1 false) := rfl
    rw [hflags, Jit.incFlags_eq (by decide)]
    exact .incDec _ _ _ _ _

/-- DEC: the same, downward. -/
theorem mirrors_dec {i : U8} (hi : i < 8) :
    Mirrors (.result i Alu.dec) Jit.incDecEffect (.incDec i true) := by
  intro β h f _
  refine ⟨?_, ?_, fun _ _ => rfl, rfl, rfl⟩
  · rw [Act.result, and_7 hi]
    rfl
  · have hbits : (Act.result i Alu.dec h.mem.regs.gpr f).2.bits
        = Jit.putSzp
          (Flag.put (Flag.put f.bits Jit.AF (h.mem.regs.gpr i &&& 0xF == 0)) Jit.OF
          (h.mem.regs.gpr i == BitVec.intMin 32)) (h.mem.regs.gpr i - 1) := by
      rw [Act.result, and_7 hi, Alu.dec, bits_setSzp, EFlags.set_eq_put,
        EFlags.set_eq_put]
    rw [hbits]
    have hflags :
        ((Jit.host Cell (Machine β)).exec (fields.emitBody (.incDec i true)) h).flags
        = Jit.keepCarry h.flags (Jit.subFlags (h.mem.regs.gpr i) 1 false) := rfl
    rw [hflags, Jit.decFlags_eq (by decide)]
    exact .incDec _ _ _ _ _

-- ======== the ALU

/-- A status flag of the guest, at its position in the packed word. -/
theorem contains_eq_flagsOf (f : EFlags) (φ : Jit.Status) :
    f.contains (BitVec.twoPow 32 φ.pos) = flagsOf f.bits φ := by
  have hne : BitVec.twoPow 32 φ.pos ≠ 0#32 := by cases φ <;> decide
  rw [EFlags.contains, BitVec.and_twoPow, flagsOf]
  cases f.bits.getLsbD φ.pos with
  | true => rw [if_pos rfl, beq_self_eq_true]
  | false =>
    rw [if_neg Bool.false_ne_true]
    exact beq_eq_false_iff_ne.2 hne.symm

/-- The carry as a word of any width. -/
theorem carry_eq {w : Nat} (f : EFlags) :
    (Alu.carry f : BitVec w) = carryWord w (flagsOf f.bits .CF) := by
  rw [← contains_eq_flagsOf]
  rfl

/-- The flags of an addition or a subtraction, packed. -/
theorem bits_arith {w : Nat} (cf af ovf : Bool) (r : BitVec w) (f : EFlags) :
    (Alu.arith cf af ovf r f).2.bits = Jit.putArith f.bits cf af ovf r := by
  rw [Alu.arith, bits_setSzp, EFlags.set_eq_put, EFlags.set_eq_put,
    EFlags.set_eq_put]
  rfl

/-- The host operation of a selector. -/
def hostOp (aluop : U8) : Jit.AluOp := if aluop = 7 then .cmp else aluOf aluop

/-- The eight operations of the ALU table. -/
theorem selector_cases {i : U8} (hi : i < 8) :
    i = 0 ∨ i = 1 ∨ i = 2 ∨ i = 3 ∨ i = 4 ∨ i = 5 ∨ i = 6 ∨ i = 7 := by
  bv_omega

section Table

variable {w : Nat} (hw : 4 < w) (a b : BitVec w) (f : EFlags) (φ : Jit.Flags)

/-- Result and flags of the host's operation `op` are those of the
interpreter's `p`. -/
def Computes (e : FlagEffect) (op : Jit.AluOp) (p : BitVec w × EFlags) : Prop :=
  op.result a b (φ .CF) = p.1 ∧ ∀ u,
    FlagsDo e φ (op.flags a b (φ .CF) u) f.bits p.2.bits

include hw

/-- ADC with the guest's carry loaded into the host. -/
theorem computes_adc (hc : φ .CF = flagsOf f.bits .CF) :
    Computes a b f φ { exact := Jit.ALL, reads := Jit.CF } .adc
      (Alu.adc a b f) := by
  refine ⟨?_, fun u => ?_⟩
  · rw [hc, Alu.adc, carry_eq]
    rfl
  · rw [Alu.adc, bits_arith, carry_eq, ← hc, toNat_carryWord (by omega)]
    show FlagsDo _ _ (Jit.addFlags a b (φ .CF)) _ _
    rw [Jit.addFlags_eq hw]
    exact .arith ..

theorem computes_sbb (hc : φ .CF = flagsOf f.bits .CF) :
    Computes a b f φ { exact := Jit.ALL, reads := Jit.CF } .sbb
      (Alu.sbb a b f) := by
  refine ⟨?_, fun u => ?_⟩
  · rw [hc, Alu.sbb, carry_eq]
    rfl
  · rw [Alu.sbb, bits_arith, carry_eq, ← hc, toNat_carryWord (by omega)]
    show FlagsDo _ _ (Jit.subFlags a b (φ .CF)) _ _
    rw [Jit.subFlags_eq hw]
    exact .arith ..

theorem computes_add :
    Computes a b f φ { exact := Jit.ALL } .add (Alu.add a b f) := by
  have hcf : decide (a + b < a)
    = decide (2 ^ w ≤ a.toNat + b.toNat + false.toNat) :=
    decide_eq_decide.2 (add_lt_iff a b)
  refine ⟨rfl, fun u => ?_⟩
  rw [Alu.add, bits_arith, hcf]
  show FlagsDo _ _ (Jit.addFlags a b false) _ _
  rw [Jit.addFlags_eq hw, Jit.carryWord_false,
    show a + b + 0 = a + b from BitVec.add_zero _]
  exact .arith ..

/-- SUB and CMP compute the same flags. -/
theorem computes_sub {op : Jit.AluOp} (hop : op = .sub ∨ op = .cmp) :
    Computes a b f φ { exact := Jit.ALL } op (Alu.sub a b f) := by
  have hflags : FlagsDo { exact := Jit.ALL } φ (Jit.subFlags a b false) f.bits
    (Alu.sub a b f).2.bits := by
    rw [Alu.sub, bits_arith, Jit.subFlags_eq hw, Jit.carryWord_false,
      show a - b - 0 = a - b from BitVec.sub_zero _]
    exact .arith ..
  rcases hop with rfl | rfl
  · exact ⟨rfl, fun _ => hflags⟩
  · exact ⟨rfl, fun _ => hflags⟩

omit hw in
/-- After a logic operation the host's AF is undefined and masked out. -/
theorem flagsDo_logic (r : BitVec w) (u : Jit.Flags) :
    FlagsDo { exact := Jit.CF ||| Jit.OF ||| Jit.SF ||| Jit.ZF ||| Jit.PF,
              const0 := Jit.AF } φ (Jit.logicFlags r u)
      f.bits (Alu.logic r f).2.bits := by
  rw [Alu.logic, bits_setSzp]
  exact .logic φ u f.bits r

/-- The table of the ALU. -/
theorem computes_table {i : U8} (hi : i < 8)
    (hc : ∀ ψ, Jit.has (Jit.aluEffect i).reads ψ = true →
      φ ψ = flagsOf f.bits ψ) :
    Computes a b f φ (Jit.aluEffect i) (hostOp i) (Alu.table i a b f) := by
  rcases selector_cases hi with rfl | rfl | rfl | rfl | rfl | rfl | rfl | rfl
  · exact computes_add hw a b f φ
  · exact ⟨rfl, fun u => flagsDo_logic f φ (a ||| b) u⟩
  · exact computes_adc hw a b f φ (hc .CF rfl)
  · exact computes_sbb hw a b f φ (hc .CF rfl)
  · exact ⟨rfl, fun u => flagsDo_logic f φ (a &&& b) u⟩
  · exact computes_sub hw a b f φ (.inl rfl)
  · exact ⟨rfl, fun u => flagsDo_logic f φ (a ^^^ b) u⟩
  · exact computes_sub hw a b f φ (.inr rfl)

end Table

/-- CMP is emitted without writing back, never as an operation of its own. -/
theorem aluOf_ne_cmp (aluop : U8) : aluOf aluop ≠ .cmp := by
  unfold aluOf
  split_ifs <;> exact Jit.AluOp.noConfusion

omit [Bus β] in
/-- An ALU operation on the slot of a register. -/
theorem exec_emitAluOn {aluop dst : U8} {wb : Bool}
    (hb : WritesBack aluop wb) (hd : dst < 8)
    (src : Jit.Operand Cell .d) (h : Host (Machine β)) (f : EFlags)
    (hreads : ∀ ψ, Jit.has (Jit.aluEffect aluop).reads ψ = true →
      h.flags ψ = flagsOf f.bits ψ) :
    ((Jit.host Cell (Machine β)).exec (emitAluOn src aluop dst wb) h).mem
        = h.mem.withGpr
          (Act.alu aluop dst (fun _ => h.read src) wb h.mem.regs.gpr f).1
      ∧ FlagsDo (Jit.aluEffect aluop) h.flags
        ((Jit.host Cell (Machine β)).exec (emitAluOn src aluop dst wb) h).flags
        f.bits (Act.alu aluop dst (fun _ => h.read src) wb
          h.mem.regs.gpr f).2.bits
      ∧ Spares [] h
        ((Jit.host Cell (Machine β)).exec (emitAluOn src aluop dst wb) h) := by
  obtain ⟨hresult, hflags⟩ :=
    computes_table (by decide : 4 < 32) (h.mem.regs.gpr dst) (h.read src) f
      h.flags hb.lt hreads
  have hflags := hflags h.undefined
  rw [Act.alu, and_7 hd]
  dsimp only
  rw [← hresult]
  cases wb with
  | true =>
    have hne : aluop ≠ 7 := fun heq => Bool.true_eq_false_eq_False (hb.cmp heq)
    have hop : hostOp aluop = aluOf aluop := if_neg hne
    rw [hop] at hflags ⊢
    rw [emitAluOn, if_neg hne, if_neg (by decide), Isa.exec_cons, Isa.exec_nil,
      Jit.op_host, Host.effect, if_neg (aluOf_ne_cmp aluop)]
    exact ⟨rfl, hflags, fun _ _ => rfl, rfl, rfl⟩
  | false =>
    rcases hb.test rfl with rfl | rfl
    · exact ⟨rfl, hflags, fun _ _ => rfl, rfl, rfl⟩
    · exact ⟨rfl, hflags, fun _ _ => rfl, rfl, rfl⟩

/-- An ALU operation with an immediate. -/
theorem mirrors_aluImm {aluop dst : U8} {wb : Bool} (hb : WritesBack aluop wb)
    (hd : dst < 8) (imm : U32) :
    Mirrors (.alu aluop dst (fun _ => imm) wb) (Jit.aluEffect aluop)
      (.aluImm dst aluop imm wb) := by
  intro β h f hreads
  obtain ⟨hmem, hflags, hspares⟩ := exec_emitAluOn hb hd (.imm imm) h f hreads
  exact ⟨hmem, hflags,
    ⟨fun r _ => hspares.reg r List.not_mem_nil, hspares.stack, hspares.fault⟩⟩

/-- A register held in a 64-bit host register and read back. -/
theorem narrow_wide (v : U32) : (v.setWidth 64).setWidth 32 = v := by
  rw [BitVec.setWidth_setWidth_of_le v (by decide : 32 ≤ 64),
    BitVec.setWidth_eq]

/-- An ALU operation between registers. -/
theorem mirrors_aluRR {aluop dst src : U8} {wb : Bool}
    (hb : WritesBack aluop wb) (hd : dst < 8) (hs : src < 8) :
    Mirrors (.alu aluop dst (fun r => r (src &&& 7)) wb) (Jit.aluEffect aluop)
      (.aluRR dst src aluop wb) := by
  intro β h f hreads
  have hload :
      (Jit.host Cell (Machine β)).op
      (Jit.Insn.movd (.reg .rax) (.mem (.gpr src))) h
      = (h.setReg .rax ((h.mem.regs.gpr src).setWidth 64)).tick := rfl
  have hexec :
      (Jit.host Cell (Machine β)).exec
      (fields.emitBody (.aluRR dst src aluop wb)) h
      = (Jit.host Cell (Machine β)).exec (emitAluOn (.reg .rax) aluop dst wb)
        (h.setReg .rax ((h.mem.regs.gpr src).setWidth 64)).tick := rfl
  obtain ⟨hmem, hflags, hspares⟩ := exec_emitAluOn hb hd (.reg .rax)
    (h.setReg .rax ((h.mem.regs.gpr src).setWidth 64)).tick f hreads
  have hread : ((h.setReg .rax ((h.mem.regs.gpr src).setWidth 64)).tick).read
      (κ := Cell) (z := .d) (.reg .rax)
      = h.mem.regs.gpr (src &&& 7) := by
    rw [and_7 hs]
    exact narrow_wide _
  rw [hexec]
  rw [hread] at hmem hflags
  refine ⟨hmem, hflags, ⟨fun r hr => ?_, hspares.stack, hspares.fault⟩⟩
  rw [hspares.reg r List.not_mem_nil]
  exact Host.reg_setReg_other _ _ (List.ne_of_not_mem_cons hr)

-- ======== multiplication

/-- Two-operand IMUL. -/
def Act.imul (dst src : U8) : Act := fun r f =>
  (upd r (dst &&& 7) (Alu.imulTrunc (r (dst &&& 7)) (r (src &&& 7)) f).1,
    (Alu.imulTrunc (r (dst &&& 7)) (r (src &&& 7)) f).2)

/-- The truncated product. -/
theorem imulTrunc_fst (a b : U32) (f : EFlags) :
    (Alu.imulTrunc a b f).1 = a * b := Jit.product_low a b

/-- After IMUL only CF and OF are defined on the host. -/
theorem flagsDo_imul (a b : U32) (f : EFlags) (φ u : Jit.Flags) :
    FlagsDo Jit.imulEffect φ (Jit.imulFlags a b u) f.bits
      (Alu.imulTrunc a b f).2.bits := by
  have hbits : (Alu.imulTrunc a b f).2.bits
      = Jit.putSzp
        (Flag.put (Flag.put (Flag.put f.bits Jit.CF (Alu.signedProduct a b).2) Jit.OF
        (Alu.signedProduct a b).2) Jit.AF false)
          ((Alu.signedProduct a b).1.setWidth 32) := by
    show (EFlags.setSzp _ _).bits = _
    rw [bits_setSzp, EFlags.set_eq_put, EFlags.set_eq_put]
    rfl
  rw [hbits]
  exact .imul φ u f.bits a b _ (Jit.product_overflow (by decide) a b)

/-- IMUL between registers. -/
theorem mirrors_imul {dst src : U8} (hd : dst < 8) (hs : src < 8) :
    Mirrors (.imul dst src) Jit.imulEffect (.imul dst src) := by
  intro β h f _
  have hlow : ∀ v : U32,
      (((v.setWidth 64).setWidth 32 * h.mem.regs.gpr src).setWidth 64).setWidth 32
      = v * h.mem.regs.gpr src := by
    intro v
    rw [narrow_wide, narrow_wide]
  have hmem : ((Jit.host Cell (Machine β)).exec
      (fields.emitBody (.imul dst src)) h).mem
      = h.mem.withGpr (upd h.mem.regs.gpr dst
        ((((h.mem.regs.gpr dst).setWidth 64).setWidth 32 * h.mem.regs.gpr
          src).setWidth 64 |>.setWidth 32)) := rfl
  have hflags :
      ((Jit.host Cell (Machine β)).exec (fields.emitBody (.imul dst src)) h).flags
      = Jit.imulFlags (((h.mem.regs.gpr dst).setWidth 64).setWidth 32)
        (h.mem.regs.gpr src)
        ((h.setReg .rax ((h.mem.regs.gpr dst).setWidth 64)).tick.undefined) := rfl
  refine ⟨?_, ?_, fun r hr => ?_, rfl, rfl⟩
  · rw [hmem, hlow, Act.imul, and_7 hd, and_7 hs, imulTrunc_fst]
  · rw [hflags, narrow_wide, Act.imul, and_7 hd, and_7 hs]
    exact flagsDo_imul ..
  · have hne := List.ne_of_not_mem_cons hr
    exact (Host.reg_setReg_other _ _ hne).trans (Host.reg_setReg_other _ _ hne)

-- ======== shifts

section Shift

variable (v imm : U32) (f : EFlags) (φ : Jit.Flags)

/-- Result and flags of the host's shift `op` are those of the
interpreter's `p`. -/
def Shifts (shop : U8) (op : Jit.ShiftOp) (p : U32 × EFlags) : Prop :=
  op.result v (Alu.shiftCount imm) = p.1
    ∧ ∀ u, FlagsDo (Jit.shiftEffect shop (imm &&& 0x1F)) φ
      (op.flags v (Alu.shiftCount imm) φ u) f.bits p.2.bits

/-- The count is taken modulo 32 on both sides. -/
theorem shiftCount_lt : Alu.shiftCount imm < 32 := by
  have hmask : (imm &&& 31).toNat = imm.toNat % 2 ^ 5 :=
    Word.toNat_and_mask imm 5 (by decide)
  rw [Alu.shiftCount, hmask]
  exact Nat.mod_lt _ (by decide)

theorem shiftCount_one {imm : U32} (h : imm &&& 0x1F = 1) :
    Alu.shiftCount imm = 1 := by
  rw [Alu.shiftCount, h]
  rfl

/-- A count of zero changes nothing. -/
theorem shifts_zero (shop : U8) (op : Jit.ShiftOp)
    (h : Alu.shiftCount imm = 0) :
    Shifts v imm f φ shop op (v, f) := by
  have hzero : imm &&& 0x1F = 0 := BitVec.eq_of_toNat_eq h
  have hresult : op.result v 0 = v := by
    cases op
    · simp [Jit.ShiftOp.result, BitVec.rotateLeft, BitVec.rotateLeftAux,
        BitVec.ushiftRight_eq_zero]
    · simp [Jit.ShiftOp.result, BitVec.rotateRight, BitVec.rotateRightAux]
    · exact BitVec.shiftLeft_zero v
    · exact BitVec.ushiftRight_zero v
    · exact BitVec.sshiftRight_zero
  refine ⟨?_, fun u => ?_⟩
  · rw [h, hresult]
  · rw [h, hzero, Jit.shiftEffect, if_pos rfl, Jit.ShiftOp.flags, if_pos rfl]
    exact .none ..

variable {imm} (hn : Alu.shiftCount imm ≠ 0)

include hn

theorem count_ne_zero : imm &&& 0x1F ≠ 0 := by
  intro h
  apply hn
  rw [Alu.shiftCount, h]
  rfl

/-- The shifts and rotates, each against the host's own. -/
theorem shifts_shl : Shifts v imm f φ 4 .shl (Alu.shl v imm f) := by
  have hlt := shiftCount_lt imm
  have hresult : (v.setWidth 64 <<< Alu.shiftCount imm).setWidth 32
    = v <<< Alu.shiftCount imm := by
    rw [BitVec.setWidth_shiftLeft_of_le (by decide), narrow_wide]
  have hcf : (v.setWidth 64 <<< Alu.shiftCount imm).getLsbD 32
    = v.getLsbD (32 - Alu.shiftCount imm) := by
    rw [BitVec.getLsbD_shiftLeft, BitVec.getLsbD_setWidth]
    simp [show ¬32 < Alu.shiftCount imm by omega,
      show 32 - Alu.shiftCount imm < 64 by omega]
  rw [Alu.shl, if_neg hn]
  dsimp only
  rw [hresult, hcf, Nat.mod_eq_of_lt hlt, if_neg hn]
  refine ⟨rfl, fun u => ?_⟩
  rw [bits_setSzp, EFlags.set_eq_put, EFlags.set_eq_put]
  refine .shl_shr (.inl rfl) (count_ne_zero hn) _ _ ?_ ?_ ?_
  · rw [Jit.ShiftOp.flags, if_neg hn]
  · intro hone
    rw [shiftCount_one hone]
    rfl
  · intro ψ hcf hof haf
    rw [Jit.ShiftOp.flags, if_neg hn]
    cases ψ
    case CF => exact absurd rfl hcf
    case OF => exact absurd rfl hof
    case AF => exact absurd rfl haf
    all_goals rfl

theorem shifts_shr : Shifts v imm f φ 5 .shr (Alu.shr v imm f) := by
  have hlt := shiftCount_lt imm
  rw [Alu.shr, if_neg hn]
  dsimp only
  rw [Nat.mod_eq_of_lt hlt, if_neg hn]
  refine ⟨rfl, fun u => ?_⟩
  rw [bits_setSzp, EFlags.set_eq_put, EFlags.set_eq_put]
  refine .shl_shr (.inr rfl) (count_ne_zero hn) _ _ ?_ ?_ ?_
  · rw [Jit.ShiftOp.flags, if_neg hn]
  · intro hone
    rw [shiftCount_one hone, BitVec.ushiftRight_zero]
    rfl
  · intro ψ hcf hof haf
    rw [Jit.ShiftOp.flags, if_neg hn]
    cases ψ
    case CF => exact absurd rfl hcf
    case OF => exact absurd rfl hof
    case AF => exact absurd rfl haf
    all_goals rfl

theorem shifts_sar : Shifts v imm f φ 7 .sar (Alu.sar v imm f) := by
  have hlt := shiftCount_lt imm
  have hresult :
      ((v.signExtend 64).sshiftRight (Alu.shiftCount imm)).setWidth 32
      = v.sshiftRight (Alu.shiftCount imm) := by
    refine BitVec.eq_of_getLsbD_eq fun i hi => ?_
    rw [BitVec.getLsbD_setWidth, BitVec.getLsbD_sshiftRight,
      BitVec.getLsbD_sshiftRight, BitVec.getLsbD_signExtend,
      BitVec.msb_signExtend]
    by_cases hin : Alu.shiftCount imm + i < 32
    · simp [hi, hin, show ¬64 ≤ i by omega, show ¬32 ≤ i by omega,
        show Alu.shiftCount imm + i < 64 by omega]
    · simp [hi, hin, show ¬64 ≤ i by omega, show ¬32 ≤ i by omega,
        show Alu.shiftCount imm + i < 64 by omega]
  have hcf : (v.signExtend 64).getLsbD (Alu.shiftCount imm - 1)
    = v.getLsbD (Alu.shiftCount imm - 1) := by
    rw [BitVec.getLsbD_signExtend]
    simp [show Alu.shiftCount imm - 1 < 64 by omega,
      show Alu.shiftCount imm - 1 < 32 by omega]
  rw [Alu.sar, if_neg hn]
  dsimp only
  rw [hresult, hcf]
  refine ⟨rfl, fun u => ?_⟩
  rw [bits_setSzp, EFlags.set_eq_put]
  refine .sar (count_ne_zero hn) _ _ ?_ ?_
  · rw [Jit.ShiftOp.flags, if_neg hn]
  · intro ψ hcf hof haf
    rw [Jit.ShiftOp.flags, if_neg hn]
    cases ψ
    case CF => exact absurd rfl hcf
    case OF => exact absurd rfl hof
    case AF => exact absurd rfl haf
    all_goals rfl

theorem shifts_rol : Shifts v imm f φ 0 .rol (Alu.rol v imm f) := by
  rw [Alu.rol, if_neg hn]
  dsimp only
  rw [Nat.mod_eq_of_lt (shiftCount_lt imm)]
  refine ⟨rfl, fun u => ?_⟩
  rw [EFlags.set_eq_put, EFlags.set_eq_put]
  refine .rotate (.inl rfl) (count_ne_zero hn) _ ?_ ?_ ?_
  · rw [Jit.ShiftOp.flags, if_neg hn]
    rfl
  · intro hone
    rw [shiftCount_one hone]
    rfl
  · intro ψ hcf hof
    rw [Jit.ShiftOp.flags, if_neg hn]
    cases ψ
    case CF => exact absurd rfl hcf
    case OF => exact absurd rfl hof
    all_goals rfl

theorem shifts_ror : Shifts v imm f φ 1 .ror (Alu.ror v imm f) := by
  have hof : ∀ r : U32,
    (r ^^^ (r <<< 1)).msb = (r.msb ^^ r.getLsbD (32 - 2)) := by
    intro r
    rw [BitVec.msb_xor, BitVec.msb_eq_getLsbD_last (r <<< 1),
      BitVec.getLsbD_shiftLeft]
    rfl
  rw [Alu.ror, if_neg hn]
  dsimp only
  rw [Nat.mod_eq_of_lt (shiftCount_lt imm), hof]
  refine ⟨rfl, fun u => ?_⟩
  rw [EFlags.set_eq_put, EFlags.set_eq_put]
  refine .rotate (.inr rfl) (count_ne_zero hn) _ ?_ ?_ ?_
  · rw [Jit.ShiftOp.flags, if_neg hn]
    rfl
  · intro hone
    rw [shiftCount_one hone]
    rfl
  · intro ψ hcf hof
    rw [Jit.ShiftOp.flags, if_neg hn]
    cases ψ
    case CF => exact absurd rfl hcf
    case OF => exact absurd rfl hof
    all_goals rfl

end Shift

/-- The shifts that are translated as they are. The alias /6 of SHL becomes
SAR, which is the same only for a count of zero. -/
def Faithful (shop : U8) (imm : U32) : Prop := shop = 6 → imm &&& 0x1F = 0

/-- The operation a shift's number selects; RCL, RCR and the alias of SHL are
not translated faithfully and are shut out. -/
theorem shifts_dispatch {shop : U8} {imm : U32} (hshop : shop < 8)
    (hrotate : shop ≠ 2 ∧ shop ≠ 3)
    (hf : Faithful shop imm) (v : U32) (f : EFlags) (φ : Jit.Flags) :
    Shifts v imm f φ shop (shiftOf shop) (Alu.shift shop v imm f) := by
  by_cases hn : Alu.shiftCount imm = 0
  · have hnone : Alu.shift shop v imm f = (v, f) := by
      rcases selector_cases hshop with rfl | rfl | rfl | rfl | rfl | rfl | rfl | rfl
      case inr.inr.inl => exact absurd rfl hrotate.1
      case inr.inr.inr.inl => exact absurd rfl hrotate.2
      all_goals exact if_pos hn
    rw [hnone]
    exact shifts_zero v imm f φ shop _ hn
  · rcases selector_cases hshop with rfl | rfl | rfl | rfl | rfl | rfl | rfl | rfl
    · exact shifts_rol v f φ hn
    · exact shifts_ror v f φ hn
    · exact absurd rfl hrotate.1
    · exact absurd rfl hrotate.2
    · exact shifts_shl v f φ hn
    · exact shifts_shr v f φ hn
    · exact absurd (congrArg BitVec.toNat (hf rfl)) hn
    · exact shifts_sar v f φ hn

/-- A shift of a register by an immediate. -/
theorem mirrors_shift {i shop : U8} {imm : U32} (hi : i < 8) (hshop : shop < 8)
    (hrotate : shop ≠ 2 ∧ shop ≠ 3) (hf : Faithful shop imm) :
    Mirrors (.result i fun v => Alu.shift shop v imm)
      (Jit.shiftEffect shop (imm &&& 0x1F))
      (.shift i shop ((imm &&& 0x1F).setWidth 8)) := by
  intro β h f _
  obtain ⟨hresult, hflags⟩ :=
    shifts_dispatch hshop hrotate hf (h.mem.regs.gpr i) f h.flags
  have hcount :
    Jit.shiftCount 32 ((imm &&& 0x1F).setWidth 8) = Alu.shiftCount imm := by
    have hlt : (imm &&& 31).toNat < 32 := shiftCount_lt imm
    rw [Jit.shiftCount, if_neg (by decide), BitVec.toNat_setWidth,
      Nat.mod_eq_of_lt (show _ < 2 ^ 8 by omega), Nat.mod_eq_of_lt hlt]
    rfl
  have hmem : ((Jit.host Cell (Machine β)).exec
      (fields.emitBody (.shift i shop ((imm &&& 0x1F).setWidth 8))) h).mem
      = h.mem.withGpr
        (upd h.mem.regs.gpr i ((shiftOf shop).result (h.mem.regs.gpr i)
        (Jit.shiftCount 32 ((imm &&& 0x1F).setWidth 8)))) := rfl
  have hfl : ((Jit.host Cell (Machine β)).exec
      (fields.emitBody (.shift i shop ((imm &&& 0x1F).setWidth 8))) h).flags
      = (shiftOf shop).flags (h.mem.regs.gpr i)
        (Jit.shiftCount 32 ((imm &&& 0x1F).setWidth 8)) h.flags
        h.undefined := rfl
  refine ⟨?_, ?_, fun _ _ => rfl, rfl, rfl⟩
  · rw [hmem, hcount, Act.result, and_7 hi, hresult]
  · rw [hfl, hcount, Act.result, and_7 hi]
    exact hflags _

-- ======== the handlers

section Handlers

variable {s : Machine β} {d : DecodedInsn}

/-- A handler that continues after a read. -/
theorem run_then {α γ : Type} {x : Calm β α} {f : α → Calm β γ}
    {s t : Machine β} {a : α} (h : x.run s = (.ok a, t)) :
    (x >>= f).run s = (f a).run t := by
  rw [Bounded.run_bind]
  exact Fallible.bind_of_ok h

/-- A register operand needs no address. -/
theorem run_eaOperand (hk : d.kind = .reg) (s : Machine β) :
    (eaOperand d : Calm β Operand).run s = (.ok (.reg d.base), s) := by
  rw [eaOperand, run_then (run_self s), Cpu.eaOperand, if_pos hk]
  rfl

/-- Registers that take a 32-bit result. -/
def Puts (put : U32 → Calm β Unit) (i : U8) : Prop :=
  ∀ (s : Machine β) (v : U32), s.osize32 = true →
    (put v).run s = (.ok (), s.withHot (s.regs.setReg32 i v))

/-- Writes of a register operand. -/
theorem puts_writeOp (i : U8) : Puts (β := β) (writeOp (.reg i)) i :=
  fun _ v hs => run_writeOp_reg hs i v

theorem puts_writeReg (i : U8) : Puts (β := β) (writeReg i) i :=
  fun _ v hs => run_writeReg hs i v

/-- A result and its flags, and the register they go to. -/
theorem run_result {x : Calm β U32} {put : U32 → Calm β Unit} {i : U8}
    (hput : Puts put i) (c : U32)
    {p : U32 × EFlags} {act : Act} (hs : s.osize32 = true)
    (hx : x.run s
      = (.ok p.1, s.withHot { s.regs.toHotRegs with eflags := p.2 }))
    (hact : act s.regs.gpr s.regs.eflags
      = (upd s.regs.gpr (i &&& 7) p.1, p.2)) :
    (x >>= fun r => put r >>= fun _ => pure c).run s
      = (.ok c, s.acted act) := by
  have hs' : (s.withHot { s.regs.toHotRegs with eflags := p.2 }).osize32
    = true := hs
  rw [run_then hx, run_then (hput _ p.1 hs'), Machine.acted, hact]
  rfl

/-- The same where CMP and TEST keep the register. -/
theorem run_writeBack {x : Calm β U32} {put : U32 → Calm β Unit} {i : U8}
    (hput : Puts put i) (c : U32) (wb : Bool)
    {p : U32 × EFlags} {act : Act} (hs : s.osize32 = true)
    (hx : x.run s
      = (.ok p.1, s.withHot { s.regs.toHotRegs with eflags := p.2 }))
    (hact : act s.regs.gpr s.regs.eflags
      = (if wb then upd s.regs.gpr (i &&& 7) p.1 else s.regs.gpr, p.2)) :
    (x >>= fun r => whenever wb (put r) >>= fun _ => pure c).run s
      = (.ok c, s.acted act) := by
  have hs' : (s.withHot { s.regs.toHotRegs with eflags := p.2 }).osize32
    = true := hs
  rw [run_then hx, Machine.acted, hact]
  cases wb with
  | true =>
    rw [whenever, if_pos rfl, run_then (hput _ p.1 hs')]
    rfl
  | false => rfl

variable (hs : s.osize32 = true)

include hs

/-- The handlers on registers, each one operation of the table above. -/
theorem run_movRegImmW :
    (Exec.movRegImmW d : Calm β U32).run s
    = (.ok 2, s.acted (.store d.reg d.imm)) := by
  rw [Exec.movRegImmW, run_then (run_writeReg hs d.reg d.imm)]
  rfl

theorem run_movRmImmW (hk : d.kind = .reg) :
    (Exec.movRmImmW d : Calm β U32).run s
      = (.ok 2, s.acted (.store d.base d.imm)) := by
  rw [Exec.movRmImmW, run_then (run_eaOperand hk s),
    run_then (run_writeOp_reg hs d.base d.imm)]
  rfl

theorem run_incReg :
    (Exec.incReg d : Calm β U32).run s
    = (.ok 2, s.acted (.result d.reg Alu.inc)) := by
  rw [Exec.incReg, run_then (run_self s), regOp_wide hs]
  refine run_result (puts_writeReg d.reg) 2 hs ?_ rfl
  rw [unary, run_then (run_self s)]
  exact run_onWidth hs _ _ _

theorem run_decReg :
    (Exec.decReg d : Calm β U32).run s
    = (.ok 2, s.acted (.result d.reg Alu.dec)) := by
  rw [Exec.decReg, run_then (run_self s), regOp_wide hs]
  refine run_result (puts_writeReg d.reg) 2 hs ?_ rfl
  rw [unary, run_then (run_self s)]
  exact run_onWidth hs _ _ _

theorem run_incDecRmW (hk : d.kind = .reg) :
    (Exec.incDecRmW d : Calm β U32).run s
    = (.ok 2, s.acted
      (.result d.base (if d.aux = 0 then Alu.inc else Alu.dec))) := by
  rw [Exec.incDecRmW, run_then (run_eaOperand hk s),
    run_then (run_readOp_reg hs d.base)]
  by_cases haux : d.aux = 0
  · rw [if_pos haux, if_pos haux]
    refine run_result (puts_writeOp d.base) 2 hs ?_ rfl
    rw [unary, run_then (run_self s)]
    exact run_onWidth hs _ _ _
  · rw [if_neg haux, if_neg haux]
    refine run_result (puts_writeOp d.base) 2 hs ?_ rfl
    rw [unary, run_then (run_self s)]
    exact run_onWidth hs _ _ _

theorem run_aluRmRW (hk : d.kind = .reg) : (Exec.aluRmRW d : Calm β U32).run s
    = (.ok 2, s.acted
      (.alu d.aux d.base (fun r => r (d.reg &&& 7)) d.wb)) := by
  rw [Exec.aluRmRW, run_then (run_eaOperand hk s),
    run_then (run_readOp_reg hs d.base), run_then (run_self s), regOp_wide hs]
  exact run_writeBack (puts_writeOp d.base) 2 d.wb hs
    (run_alu hs d.aux _ _) rfl

theorem run_aluRRmW (hk : d.kind = .reg) : (Exec.aluRRmW d : Calm β U32).run s
    = (.ok 2, s.acted
      (.alu d.aux d.reg (fun r => r (d.base &&& 7)) d.wb)) := by
  rw [Exec.aluRRmW, run_then (run_eaOperand hk s), run_then (run_self s),
    run_then (run_readOp_reg hs d.base), regOp_wide hs]
  exact run_writeBack (puts_writeReg d.reg) 2 d.wb hs
    (run_alu hs d.aux _ _) rfl

theorem run_aluAccImmW : (Exec.aluAccImmW d : Calm β U32).run s
    = (.ok 2, s.acted (.alu d.aux 0 (fun _ => d.imm) d.wb)) := by
  have hacc : s.acc = s.regs.reg32 0 := regOp_wide hs 0
  rw [Exec.aluAccImmW, run_then (run_self s), hacc]
  exact run_writeBack (puts_writeReg reg.EAX) 2 d.wb hs
    (run_alu hs d.aux _ _) rfl

theorem run_aluGrpImmW (hk : d.kind = .reg) :
    (Exec.aluGrpImmW d : Calm β U32).run s
    = (.ok 2, s.acted (.alu d.aux d.base (fun _ => d.imm) d.wb)) := by
  rw [Exec.aluGrpImmW, run_then (run_eaOperand hk s),
    run_then (run_readOp_reg hs d.base)]
  exact run_writeBack (puts_writeOp d.base) 2 d.wb hs
    (run_alu hs d.aux _ _) rfl

theorem run_shiftRmW (hk : d.kind = .reg) (hcl : d.aux &&& 0x80 = 0) :
    (Exec.shiftRmW d : Calm β U32).run s
    = (.ok 3, s.acted
      (.result d.base fun v => Alu.shift (d.aux &&& 7) v d.imm)) := by
  have hcount : s.decodedCount d = d.imm := if_neg (not_not.2 hcl)
  rw [Exec.shiftRmW, run_then (run_eaOperand hk s),
    run_then (run_readOp_reg hs d.base), run_then (run_self s), hcount]
  refine run_result (puts_writeOp d.base) 3 hs ?_ rfl
  rw [shiftDispatch, run_then (run_self s)]
  exact run_onWidth hs _ _ _

theorem run_imulRRmW (hk : d.kind = .reg) :
    (Exec.imulRRmW d : Calm β U32).run s
    = (.ok 20, s.acted (.imul d.reg d.base)) := by
  rw [Exec.imulRRmW, run_then (run_eaOperand hk s),
    run_then (run_readOp_reg hs d.base), run_then (run_self s), regOp_wide hs]
  refine run_result (puts_writeReg d.reg) 20 hs ?_ rfl
  rw [imulTrunc, run_then (run_self s)]
  exact run_onWidth hs _ _ _

end Handlers

end Remu.X32
