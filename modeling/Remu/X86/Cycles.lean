/-
What an instruction of the 8086 costs: the cycles it reports and the bus
accesses it makes.

Accesses are counted by a bus wrapped around the machine's (`Counted`).
Every arm of the dispatch comes back, with 1100 cycles and 16 accesses at
most, except that a repeated string instruction may take 65535 turns of 22
cycles and 4 accesses. CX measures its loop: no string primitive writes it.
-/
import Remu.Lib.Fallible
import Remu.X86.Dispatch

namespace Remu.X86

open Fallible

/-- A machine with a counter on its bus. -/
structure Counted (β : Type) where
  machine : β
  count : Nat

instance {β : Type} [Bus β] : Bus (Counted β) where
  read b addr :=
    ((Bus.read b.machine addr).1, ⟨(Bus.read b.machine addr).2, b.count + 1⟩)
  write b addr v := ⟨Bus.write b.machine addr v, b.count + 1⟩
  ioRead b port :=
    ((Bus.ioRead b.machine port).1,
      ⟨(Bus.ioRead b.machine port).2, b.count + 1⟩)
  ioWrite b port v := ⟨Bus.ioWrite b.machine port v, b.count + 1⟩

namespace Exec

variable {β α : Type}

/-- The accesses counted so far. -/
def accesses (s : Machine (Counted β)) : Nat := s.bus.count

/-- At most `n` accesses. -/
abbrev Touches (n : Nat) (x : Exec (Counted β) α) : Prop := Spends accesses n x

/-- At most `n` accesses, and `c` cycles. -/
abbrev Takes (n c : Nat) (x : Exec (Counted β) Nat) : Prop :=
  Within accesses n (· ≤ c) x

variable {n c : Nat}

-- ======== primitives

/-- Reading or changing the registers touches nothing. -/
theorem touches_cpu : Touches 0 (cpu : Exec (Counted β) Cpu) :=
  fun s => ⟨s.cpu, s, rfl, trivial, Nat.le_refl _⟩

theorem touches_regs : Touches 0 (regs : Exec (Counted β) RegFile) :=
  fun s => ⟨s.cpu.regs, s, rfl, trivial, Nat.le_refl _⟩

theorem touches_modifyCpu (f : Cpu → Cpu) :
    Touches 0 (modifyCpu f : Exec (Counted β) Unit) :=
  Spends.modify fun _ => rfl

theorem touches_modifyRegs (f : RegFile → RegFile) :
    Touches 0 (modifyRegs f : Exec (Counted β) Unit) :=
  touches_modifyCpu _

theorem touches_whenever (p : Prop) [Decidable p]
    {m : Exec (Counted β) Unit} (h : Touches n m) :
    Touches n (whenever p m) := h.ite (Spends.pure ())

theorem touches_alu (op : Flags → α × Flags) :
    Touches 0 (alu op : Exec (Counted β) α) :=
  touches_regs.bind rfl fun _ => (touches_modifyRegs _).bind rfl
    fun _ => Spends.pure _

/-- An effective address charges at most 12 cycles. -/
theorem within_ea : Within accesses 0 (· ≤ 12) (ea : Exec (Counted β) Nat) :=
  touches_cpu.bind rfl fun c => .pure (by omega)

variable [Bus β]

/-- A byte is one access. -/
theorem touches_read8 (seg off : U16) :
    Touches 1 (read8 seg off : Exec (Counted β) U8) :=
  fun _ => ⟨_, _, rfl, trivial, Nat.le_refl _⟩

theorem touches_write8 (seg off : U16) (v : U8) :
    Touches 1 (write8 seg off v : Exec (Counted β) Unit) :=
  fun _ => ⟨_, _, rfl, trivial, Nat.le_refl _⟩

theorem touches_ioRead (port : U16) :
    Touches 1 (ioRead port : Exec (Counted β) U8) :=
  fun _ => ⟨_, _, rfl, trivial, Nat.le_refl _⟩

theorem touches_ioWrite (port : U16) (v : U8) :
    Touches 1 (ioWrite port v : Exec (Counted β) Unit) :=
  fun _ => ⟨_, _, rfl, trivial, Nat.le_refl _⟩

/-- A word is two accesses, one for each byte. -/
theorem touches_read16 (seg off : U16) :
    Touches 2 (read16 seg off : Exec (Counted β) U16) :=
  (touches_read8 seg off).bind rfl fun _ => (touches_read8 _ _).bind rfl
    fun _ => Spends.pure _

theorem touches_write16 (seg off v : U16) :
    Touches 2 (write16 seg off v : Exec (Counted β) Unit) :=
  (touches_write8 seg off _).bind rfl fun _ => touches_write8 _ _ _

theorem touches_fetchByte : Touches 1 (fetchByte : Exec (Counted β) U8) :=
  touches_regs.bind rfl fun _ => (touches_read8 _ _).bind rfl fun _ =>
    (touches_modifyRegs _).bind rfl fun _ => Spends.pure _

theorem touches_fetchWord : Touches 2 (fetchWord : Exec (Counted β) U16) :=
  touches_fetchByte.bind rfl fun _ => touches_fetchByte.bind rfl
    fun _ => Spends.pure _

/-- A sign-extended byte costs no more than a word. -/
theorem touches_fetchSigned : Touches 2 (fetchSigned : Exec (Counted β) U16) :=
  touches_fetchByte.bind rfl fun _ => Spends.pure _

/-- The stack pointer moves without an access; the word is two. -/
theorem touches_push16 (v : U16) :
    Touches 2 (push16 v : Exec (Counted β) Unit) :=
  (touches_modifyRegs _).bind rfl fun _ => touches_regs.bind rfl fun _ =>
    touches_write16 _ _ _

theorem touches_pop16 : Touches 2 (pop16 : Exec (Counted β) U16) :=
  touches_regs.bind rfl fun _ => (touches_read16 _ _).bind rfl fun _ =>
    (touches_modifyRegs _).bind rfl fun _ => Spends.pure _

/-- Three words pushed and the two of the vector. -/
theorem touches_interrupt (vector : U8) :
    Touches 10 (interrupt vector : Exec (Counted β) Unit) :=
  touches_regs.bind rfl fun _ => (touches_push16 _).bind rfl fun _ =>
    (touches_modifyRegs _).bind rfl fun _ =>
    touches_regs.bind rfl fun _ => (touches_push16 _).bind rfl fun _ =>
      touches_regs.bind rfl fun _ =>
      (touches_push16 _).bind rfl fun _ =>
        (touches_read16 _ _).bind rfl fun _ =>
        (touches_modifyRegs _).bind rfl fun _ => (touches_read16 _ _).bind
          rfl fun _ =>
          (touches_modifyRegs _).mono rfl

-- ======== operands

/-- An immediate of either size. -/
theorem touches_fetch (z : Size) :
    Touches 2 (fetch z : Exec (Counted β) (BitVec z.bits)) := by
  cases z with
  | byte => exact touches_fetchByte.mono rfl
  | word => exact touches_fetchWord

/-- An operand of either size. -/
theorem touches_read (z : Size) (seg off : U16) :
    Touches 2 (read z seg off : Exec (Counted β) (BitVec z.bits)) := by
  cases z with
  | byte => exact (touches_read8 seg off).mono rfl
  | word => exact touches_read16 seg off

theorem touches_write (z : Size) (seg off : U16) (v : BitVec z.bits) :
    Touches 2 (write z seg off v : Exec (Counted β) Unit) := by
  cases z with
  | byte => exact (touches_write8 seg off v).mono rfl
  | word => exact touches_write16 seg off v

/-- A register costs nothing, memory its bytes. -/
theorem touches_readOp (z : Size) (op : Operand) :
    Touches 2 (readOp z op : Exec (Counted β) (BitVec z.bits)) := by
  cases op with
  | reg i => exact touches_regs.bind rfl fun _ => Spends.pure _
  | mem seg off => exact touches_read z seg off

theorem touches_writeOp (z : Size) (op : Operand) (v : BitVec z.bits) :
    Touches 2 (writeOp z op v : Exec (Counted β) Unit) := by
  cases op with
  | reg i => exact (touches_modifyRegs fun r => r.setReg z i v).mono rfl
  | mem seg off => exact touches_write z seg off v

/-- No byte, one byte or two. -/
theorem touches_displacement (md : U8) :
    Touches 2 (displacement md : Exec (Counted β) U16) :=
  .ite (Spends.pure _) (.ite touches_fetchSigned touches_fetchWord)

/-- The ModRM byte and its displacement. -/
theorem touches_modrm : Touches 3 (modrm : Exec (Counted β) (U8 × Operand)) :=
  touches_fetchByte.bind rfl fun _ =>
    .ite ((touches_modifyCpu _).bind rfl fun _ => Spends.pure _)
      (.ite (touches_fetchWord.bind rfl fun _ => (touches_modifyCpu _).bind rfl fun _ =>
          touches_cpu.bind rfl fun _ => Spends.pure _)
        ((touches_displacement _).bind rfl fun _ =>
          touches_cpu.bind rfl fun _ =>
          (touches_modifyCpu _).bind rfl fun _ => Spends.pure _))

/-- Offset and segment. -/
theorem touches_farOperand (op : Operand) :
    Touches 4 (farOperand op : Exec (Counted β) (U16 × U16)) := by
  cases op with
  | reg i => exact touches_regs.bind rfl fun _ => Spends.pure _
  | mem seg off =>
    exact (touches_read16 _ _).bind rfl fun _ => (touches_read16 _ _).bind rfl
      fun _ => Spends.pure _

theorem touches_inPort (z : Size) (p : U16) :
    Touches 2 (inPort z p : Exec (Counted β) (BitVec z.bits)) := by
  cases z with
  | byte => exact (touches_ioRead p).mono rfl
  | word =>
    exact (touches_ioRead p).bind rfl fun _ => (touches_ioRead _).bind rfl
      fun _ => Spends.pure _

theorem touches_outPort (z : Size) (p : U16) (v : BitVec z.bits) :
    Touches 2 (outPort z p v : Exec (Counted β) Unit) := by
  cases z with
  | byte => exact (touches_ioWrite p v).mono rfl
  | word => exact (touches_ioWrite p _).bind rfl fun _ => touches_ioWrite _ _

theorem touches_popIp : Touches 2 (popIp : Exec (Counted β) Unit) :=
  touches_pop16.bind rfl fun _ => (touches_modifyRegs _).mono rfl

theorem touches_popCs : Touches 2 (popCs : Exec (Counted β) Unit) :=
  touches_pop16.bind rfl fun _ => (touches_modifyRegs _).mono rfl

/-- CS and IP pushed. -/
theorem touches_callFar (off seg : U16) :
    Touches 4 (callFar off seg : Exec (Counted β) Unit) :=
  touches_regs.bind rfl fun _ => (touches_push16 _).bind rfl fun _ =>
    (touches_push16 _).bind rfl fun _ =>
    (touches_modifyRegs _).mono rfl

/-- A quotient that does not fit raises the divide interrupt. -/
theorem touches_divideBy (run : Cpu → Bool × Cpu) :
    Touches 10 (divideBy run : Exec (Counted β) Unit) :=
  touches_cpu.bind rfl fun _ => (touches_modifyCpu _).bind rfl fun _ =>
    touches_whenever _ (touches_interrupt 0)

omit [Bus β] in
theorem touches_loadAddress (i : U8) (op : Operand) :
    Touches 0 (loadAddress i op : Exec (Counted β) Unit) := by
  cases op with
  | reg i => exact Spends.pure ()
  | mem seg off => exact touches_modifyRegs fun r => r.setReg16 i off

theorem touches_pushed (op : Operand) :
    Touches 2 (pushed op : Exec (Counted β) U16) :=
  .ite (touches_regs.bind rfl fun _ => Spends.pure _) (touches_readOp .word op)

/-- A far pointer is four bytes. -/
theorem touches_loadFar (toEs : Bool) (i : U8) (op : Operand) :
    Touches 4 (loadFar toEs i op : Exec (Counted β) Unit) := by
  cases op with
  | reg i => exact Spends.pure ()
  | mem seg off =>
    exact (touches_read16 _ _).bind rfl fun _ =>
      (touches_read16 _ _).bind rfl fun _ =>
      (touches_modifyRegs _).bind rfl fun _ => (touches_modifyRegs _).mono rfl

/-- An operand that is read and thrown away. -/
theorem touches_touch (op : Operand) :
    Touches 1 (touch op : Exec (Counted β) Unit) := by
  cases op with
  | reg i => exact Spends.pure ()
  | mem seg off => exact (touches_read8 _ _).bind rfl fun _ => Spends.pure ()

-- ======== handlers

omit [Bus β] in
/-- The charge of an operand: the memory figure and its address, or the
register figure. -/
theorem takes_cyclesOf (op : Operand) {mem reg : Nat}
    (hmem : (mem + 12).ble c = true)
    (hreg : reg.ble c = true) :
    Takes n c (cyclesOf op mem reg : Exec (Counted β) Nat) := by
  have hmem' := Nat.le_of_ble_eq_true hmem
  have hreg' := Nat.le_of_ble_eq_true hreg
  refine within_ea.bind (Nat.ble_eq_true_of_le (Nat.zero_le n))
    fun e he => .pure ?_
  split <;> omega

omit [Bus β] in
/-- A constant number of cycles. -/
theorem takes_pure (k : Nat) (h : k.ble c = true) :
    Takes n c (pure k : Exec (Counted β) Nat) :=
  .pure (Nat.le_of_ble_eq_true h)

/-- The handlers: none of them makes more than 16 accesses or charges more than
1100 cycles. -/
theorem takes_opRmR (z : Size)
    (f : BitVec z.bits → BitVec z.bits → Flags → BitVec z.bits × Flags)
    (wb : Bool) : Takes 16 1100 (opRmR z f wb : Exec (Counted β) Nat) :=
  touches_modrm.bind rfl fun d => (touches_readOp z d.2).bind rfl fun _ =>
    touches_regs.bind rfl fun _ =>
    (touches_alu _).bind rfl fun _ =>
      (touches_whenever _ (touches_writeOp z d.2 _)).bind rfl fun _ =>
      takes_cyclesOf d.2 (by split <;> rfl) rfl

theorem takes_opRRm (z : Size)
    (f : BitVec z.bits → BitVec z.bits → Flags → BitVec z.bits × Flags)
    (wb : Bool) : Takes 16 1100 (opRRm z f wb : Exec (Counted β) Nat) :=
  touches_modrm.bind rfl fun d => touches_regs.bind rfl fun _ =>
    (touches_readOp z d.2).bind rfl fun _ =>
    (touches_alu _).bind rfl fun _ =>
      (touches_whenever _ (touches_modifyRegs _)).bind rfl fun _ =>
      takes_cyclesOf d.2 rfl rfl

theorem takes_opAccImm (z : Size)
    (f : BitVec z.bits → BitVec z.bits → Flags → BitVec z.bits × Flags)
    (wb : Bool) : Takes 16 1100 (opAccImm z f wb : Exec (Counted β) Nat) :=
  (touches_fetch z).bind rfl fun _ => touches_regs.bind rfl fun _ =>
    (touches_alu _).bind rfl fun _ =>
    (touches_whenever _ (touches_modifyRegs _)).bind rfl fun _ =>
      takes_pure 4 rfl

theorem takes_opRmImm (z : Size) {imm : Exec (Counted β) (BitVec z.bits)}
    (h : Touches 2 imm) :
    Takes 16 1100 (opRmImm z imm) :=
  touches_modrm.bind rfl fun d => (touches_readOp z d.2).bind rfl fun _ =>
    h.bind rfl fun _ =>
    (touches_alu _).bind rfl fun _ =>
      (touches_whenever _ (touches_writeOp z d.2 _)).bind rfl fun _ =>
      takes_cyclesOf d.2 (by split <;> rfl) rfl

/-- The count of a shift is at most 255. -/
theorem takes_shiftGrp (z : Size) (count : Option Nat)
    (h : ∀ k ∈ count, k ≤ 255) :
    Takes 16 1100 (shiftGrp z count : Exec (Counted β) Nat) := by
  refine touches_modrm.bind rfl fun d => (touches_readOp z d.2).bind rfl
    fun _ => (touches_alu _).bind rfl fun _ =>
    (touches_writeOp z d.2 _).bind rfl fun _ => ?_
  cases count with
  | none => exact takes_cyclesOf d.2 rfl rfl
  | some k =>
    have hk : k ≤ 255 := h k rfl
    exact takes_cyclesOf d.2 (Nat.ble_eq_true_of_le (by omega))
      (Nat.ble_eq_true_of_le (by omega))

/-- A conditional jump charges one of two figures. -/
theorem takes_jumpIf (taken : RegFile → Bool) {yes no : Nat}
    (hyes : yes.ble 1100 = true)
    (hno : no.ble 1100 = true) :
    Takes 16 1100 (jumpIf taken yes no : Exec (Counted β) Nat) :=
  touches_fetchSigned.bind rfl fun _ => touches_regs.bind rfl fun _ =>
    .ite ((touches_modifyRegs _).bind rfl fun _ => takes_pure yes hyes)
      (takes_pure no hno)

theorem takes_loopIf (taken : Flags → Bool) {yes no : Nat}
    (hyes : yes.ble 1100 = true)
    (hno : no.ble 1100 = true) :
    Takes 16 1100 (loopIf taken yes no : Exec (Counted β) Nat) :=
  touches_fetchSigned.bind rfl fun _ => (touches_modifyRegs _).bind rfl
    fun _ => touches_regs.bind rfl fun _ =>
    .ite ((touches_modifyRegs _).bind rfl fun _ => takes_pure yes hyes)
      (takes_pure no hno)

theorem takes_exchange (z : Size) :
    Takes 16 1100 (exchange z : Exec (Counted β) Nat) :=
  touches_modrm.bind rfl fun d => (touches_readOp z d.2).bind rfl fun _ =>
    touches_regs.bind rfl fun _ =>
    (touches_writeOp z d.2 _).bind rfl fun _ => (touches_modifyRegs _).bind rfl
      fun _ => takes_cyclesOf d.2 rfl rfl

theorem takes_moveToRm (z : Size) :
    Takes 16 1100 (moveToRm z : Exec (Counted β) Nat) :=
  touches_modrm.bind rfl fun d => touches_regs.bind rfl fun _ =>
    (touches_writeOp z d.2 _).bind rfl fun _ =>
    takes_cyclesOf d.2 rfl rfl

theorem takes_moveFromRm (z : Size) :
    Takes 16 1100 (moveFromRm z : Exec (Counted β) Nat) :=
  touches_modrm.bind rfl fun d => (touches_readOp z d.2).bind rfl fun _ =>
    (touches_modifyRegs _).bind rfl fun _ =>
    takes_cyclesOf d.2 rfl rfl

theorem takes_moveFromMem (z : Size) :
    Takes 16 1100 (moveFromMem z : Exec (Counted β) Nat) :=
  touches_fetchWord.bind rfl fun _ => touches_cpu.bind rfl fun _ =>
    (touches_read z _ _).bind rfl fun _ =>
    (touches_modifyRegs _).bind rfl fun _ => takes_pure 10 rfl

theorem takes_moveToMem (z : Size) :
    Takes 16 1100 (moveToMem z : Exec (Counted β) Nat) :=
  touches_fetchWord.bind rfl fun _ => touches_cpu.bind rfl fun _ =>
    (touches_write z _ _ _).bind rfl fun _ => takes_pure 10 rfl

theorem takes_moveImm (z : Size) (i : U8) :
    Takes 16 1100 (moveImm z i : Exec (Counted β) Nat) :=
  (touches_fetch z).bind rfl fun _ => (touches_modifyRegs _).bind rfl
    fun _ => takes_pure 4 rfl

theorem takes_moveRmImm (z : Size) :
    Takes 16 1100 (moveRmImm z : Exec (Counted β) Nat) :=
  touches_modrm.bind rfl fun d => (touches_fetch z).bind rfl fun _ =>
    (touches_writeOp z d.2 _).bind rfl fun _ =>
    takes_cyclesOf d.2 rfl rfl

theorem takes_inImm (z : Size) :
    Takes 16 1100 (inImm z : Exec (Counted β) Nat) :=
  touches_fetchByte.bind rfl fun _ => (touches_inPort z _).bind rfl fun _ =>
    (touches_modifyRegs _).bind rfl fun _ =>
    takes_pure 10 rfl

theorem takes_outImm (z : Size) :
    Takes 16 1100 (outImm z : Exec (Counted β) Nat) :=
  touches_fetchByte.bind rfl fun _ => touches_regs.bind rfl fun _ =>
    (touches_outPort z _ _).bind rfl fun _ =>
    takes_pure 10 rfl

theorem takes_inDx (z : Size) :
    Takes 16 1100 (inDx z : Exec (Counted β) Nat) :=
  touches_regs.bind rfl fun _ => (touches_inPort z _).bind rfl fun _ =>
    (touches_modifyRegs _).bind rfl fun _ =>
    takes_pure 8 rfl

theorem takes_outDx (z : Size) :
    Takes 16 1100 (outDx z : Exec (Counted β) Nat) :=
  touches_regs.bind rfl fun _ => (touches_outPort z _ _).bind rfl
    fun _ => takes_pure 8 rfl

omit [Bus β] in
theorem takes_setFlag (f : Flags → Flags) :
    Takes n 1100 (setFlag f : Exec (Counted β) Nat) :=
  (touches_modifyRegs _).bind (Nat.ble_eq_true_of_le (Nat.zero_le n))
    fun _ => takes_pure 2 rfl

theorem takes_countRm (z : Size) (op : Operand) (up : Bool) :
    Takes 13 1100 (countRm z op up : Exec (Counted β) Nat) :=
  (touches_readOp z op).bind rfl fun _ => (touches_alu _).bind rfl fun _ =>
    (touches_writeOp z op _).bind rfl fun _ =>
    takes_cyclesOf op rfl rfl

omit [Bus β] in
/-- Cycles that depend on whether the operand is in memory. -/
theorem takes_either (mem : Bool) {a b : Nat} (ha : a ≤ c) (hb : b ≤ c) :
    Takes n c (pure (if mem then a else b) : Exec (Counted β) Nat) := by
  refine .pure ?_
  split <;> assumption

/-- The group with the multiplies and the divides, whose figures are the
highest in the table. -/
theorem takes_unaryGroup (z : Size) (t : GroupTiming)
    (mul imul : RegFile → BitVec z.bits → RegFile)
    (div : Cpu → BitVec z.bits → Bool → Bool × Cpu)
    (ht : t.mul ≤ 200 ∧ t.imul ≤ 200 ∧ t.div ≤ 200 ∧ t.idiv ≤ 200) :
    Takes 16 1100 (unaryGroup z t mul imul div : Exec (Counted β) Nat) := by
  refine touches_modrm.bind rfl fun d => (touches_readOp z d.2).bind rfl
    fun v => within_ea.bind rfl fun e he => ?_
  have hlong : ∀ k, k ≤ 200 → (k + if d.2.isMem then 6 + e else 0) ≤ 1100 := by
    intro k hk
    split <;> omega
  dsimp only
  split
  · exact (touches_fetch z).bind rfl fun _ => (touches_alu _).bind rfl fun _ =>
      takes_either _ (by omega) (by omega)
  · exact (touches_fetch z).bind rfl fun _ => (touches_alu _).bind rfl fun _ =>
      takes_either _ (by omega) (by omega)
  · exact (touches_writeOp z d.2 _).bind rfl fun _ =>
      takes_either _ (by omega) (by omega)
  · exact (touches_alu _).bind rfl fun _ =>
      (touches_writeOp z d.2 _).bind rfl fun _ =>
      takes_either _ (by omega) (by omega)
  · exact (touches_modifyRegs _).bind rfl fun _ => .pure (hlong _ ht.1)
  · exact (touches_modifyRegs _).bind rfl fun _ => .pure (hlong _ ht.2.1)
  · exact (touches_divideBy _).bind rfl fun _ => .pure (hlong _ ht.2.2.1)
  · exact (touches_divideBy _).bind rfl fun _ => .pure (hlong _ ht.2.2.2)

/-- INC, DEC, CALL, JMP and PUSH of an operand. -/
theorem takes_controlGroup (i : U8) (op : Operand) :
    Takes 13 1100 (controlGroup i op : Exec (Counted β) Nat) := by
  refine within_ea.bind rfl fun e he => ?_
  dsimp only
  split
  · exact takes_countRm .word op true
  · exact takes_countRm .word op false
  · exact (touches_readOp .word op).bind rfl fun _ => touches_regs.bind rfl
      fun _ => (touches_push16 _).bind rfl fun _ =>
      (touches_modifyRegs _).bind rfl fun _ =>
        takes_either _ (by omega) (by omega)
  · exact (touches_farOperand op).bind rfl fun _ =>
      (touches_callFar _ _).bind rfl fun _ =>
      .pure (show 37 + e ≤ 1100 by omega)
  · exact (touches_readOp .word op).bind rfl fun _ =>
      (touches_modifyRegs _).bind rfl fun _ =>
      takes_either _ (by omega) (by omega)
  · exact (touches_farOperand op).bind rfl fun _ =>
      (touches_modifyRegs _).bind rfl fun _ =>
      .pure (show 24 + e ≤ 1100 by omega)
  · exact (touches_pushed op).bind rfl fun _ =>
      (touches_push16 _).bind rfl fun _ =>
      takes_either _ (by omega) (by omega)

-- ======== string operations

/-- CX is left alone. -/
def SameCx (s s' : Machine (Counted β)) : Prop :=
  s'.cpu.regs.cx = s.cpu.regs.cx

instance : IsPreorder (Machine (Counted β)) SameCx where
  refl _ := rfl
  trans _ _ _ h h' := Eq.trans h' h

omit [Bus β] in
/-- What a string primitive does leaves CX alone, so that only the loop counts
it down. -/
theorem keeps_cpu : Along SameCx (cpu : Exec (Counted β) Cpu) := fun _ => rfl

omit [Bus β] in
theorem keeps_regs : Along SameCx (regs : Exec (Counted β) RegFile) :=
  fun _ => rfl

omit [Bus β] in
theorem keeps_modifyRegs {f : RegFile → RegFile} (h : ∀ r, (f r).cx = r.cx) :
    Along SameCx (modifyRegs f : Exec (Counted β) Unit) :=
      fun s => h s.cpu.regs

omit [Bus β] in
theorem keeps_alu (op : Flags → α × Flags) :
    Along SameCx (alu op : Exec (Counted β) α) := fun _ => rfl

theorem keeps_read (z : Size) (seg off : U16) :
    Along SameCx (read z seg off : Exec (Counted β) (BitVec z.bits)) := by
  cases z <;> exact fun _ => rfl

theorem keeps_write (z : Size) (seg off : U16) (v : BitVec z.bits) :
    Along SameCx (write z seg off v : Exec (Counted β) Unit) := by
  cases z <;> exact fun _ => rfl

/-- One turn of a string instruction: it comes back, and leaves CX to the
loop. -/
structure Turn (one : Exec (Counted β) Unit) : Prop where
  touches : Touches 4 one
  keeps : Along SameCx one

/-- The five string primitives, each a turn of the loop. -/
theorem turn_movs (z : Size) : Turn (movs z : Exec (Counted β) Unit) where
  touches := touches_cpu.bind rfl fun _ =>
    (touches_read z _ _).bind rfl fun _ =>
    (touches_write z _ _ _).bind rfl fun _ => touches_modifyRegs _
  keeps := keeps_cpu.bind fun _ => (keeps_read z _ _).bind fun _ =>
    (keeps_write z _ _ _).bind fun _ =>
    keeps_modifyRegs fun _ => rfl

theorem turn_cmps (z : Size) : Turn (cmps z : Exec (Counted β) Unit) where
  touches := touches_cpu.bind rfl fun _ =>
    (touches_read z _ _).bind rfl fun _ =>
    (touches_read z _ _).bind rfl fun _ => (touches_alu _).bind rfl fun _ =>
      touches_modifyRegs _
  keeps := keeps_cpu.bind fun _ => (keeps_read z _ _).bind fun _ =>
    (keeps_read z _ _).bind fun _ =>
    (keeps_alu _).bind fun _ => keeps_modifyRegs fun _ => rfl

theorem turn_stos (z : Size) : Turn (stos z : Exec (Counted β) Unit) where
  touches := touches_regs.bind rfl fun _ =>
    (touches_write z _ _ _).bind rfl fun _ =>
    (touches_modifyRegs _).mono rfl
  keeps := keeps_regs.bind fun _ => (keeps_write z _ _ _).bind fun _ =>
    keeps_modifyRegs fun _ => rfl

theorem turn_lods (z : Size) : Turn (lods z : Exec (Counted β) Unit) where
  touches := touches_cpu.bind rfl fun _ =>
    (touches_read z _ _).bind rfl fun _ =>
    (touches_modifyRegs _).bind rfl fun _ => (touches_modifyRegs _).mono rfl
  keeps := keeps_cpu.bind fun _ => (keeps_read z _ _).bind fun _ =>
    (keeps_modifyRegs fun r => by cases z <;> rfl).bind fun _ =>
      keeps_modifyRegs fun _ => rfl

theorem turn_scas (z : Size) : Turn (scas z : Exec (Counted β) Unit) where
  touches := touches_regs.bind rfl fun _ =>
    (touches_read z _ _).bind rfl fun _ =>
    touches_regs.bind rfl fun _ => (touches_alu _).bind rfl fun _ =>
      (touches_modifyRegs _).mono rfl
  keeps := keeps_regs.bind fun _ => (keeps_read z _ _).bind fun _ =>
    keeps_regs.bind fun _ =>
    (keeps_alu _).bind fun _ => keeps_modifyRegs fun _ => rfl

omit [Bus β] in
/-- The repetitions take CX turns at most. -/
theorem repLoop_returns {one : Exec (Counted β) Unit} (h : Turn one)
    (cmp contOnZf : Bool) (per : Nat)
    {fuel : Nat} (cycles : Nat) (s : Machine (Counted β))
    (hfuel : s.cpu.regs.cx.toNat < fuel) :
    ∃ k s', repLoop one cmp contOnZf per fuel cycles s = (.ok k, s')
      ∧ k ≤ cycles + per * s.cpu.regs.cx.toNat
      ∧ accesses s' ≤ accesses s + 4 * s.cpu.regs.cx.toNat := by
  induction fuel generalizing cycles s with
  | zero => omega
  | succ fuel ih =>
    rw [repLoop, bind_of_ok (show regs s = (.ok s.cpu.regs, s) from rfl)]
    by_cases hzero : s.cpu.regs.cx = 0
    · rw [if_pos hzero]
      exact ⟨cycles, s, rfl, Nat.le_add_right _ _, Nat.le_add_right _ _⟩
    · rw [if_neg hzero]
      obtain ⟨u, t, hone, -, hacc⟩ := h.touches s
      have hcx : t.cpu.regs.cx = s.cpu.regs.cx := by
        have hkeep := h.keeps s
        rw [hone] at hkeep
        exact hkeep
      have hpos : 0 < s.cpu.regs.cx.toNat :=
        Nat.pos_of_ne_zero fun h0 =>
          hzero (BitVec.eq_of_toNat_eq (by simpa using h0))
      -- the state with CX counted down
      let t' : Machine (Counted β) :=
        { t with cpu := { t.cpu with regs := { t.cpu.regs with cx := t.cpu.regs.cx - 1 } } }
      have hcx' : t'.cpu.regs.cx.toNat + 1 = s.cpu.regs.cx.toNat := by
        show (t.cpu.regs.cx - 1).toNat + 1 = _
        have hone : (1 : U16) ≤ s.cpu.regs.cx :=
          BitVec.le_def.2 (show 1 ≤ s.cpu.regs.cx.toNat from hpos)
        rw [hcx, BitVec.toNat_sub_of_le hone]
        exact Nat.sub_add_cancel hpos
      have hper : per * s.cpu.regs.cx.toNat
        = per * t'.cpu.regs.cx.toNat + per := by
        rw [← hcx', Nat.mul_succ]
      rw [bind_of_ok hone,
        bind_of_ok (show modifyRegs _ t = (.ok (), t') from rfl),
        bind_of_ok (show regs t' = (.ok t'.cpu.regs, t') from rfl)]
      have hacc' : accesses t' ≤ accesses s + 4 := hacc
      split
      · exact ⟨cycles + per, t', rfl, by rw [hper]; omega, by omega⟩
      · obtain ⟨k, s', hrun, hk, ha⟩ := ih (cycles + per) t' (by omega)
        exact ⟨k, s', hrun, by rw [hper]; omega, by omega⟩

omit [Bus β] in
/-- The loop runs at most 65535 turns, CX being a word. -/
theorem takes_repStr {fuel : Nat} (hfuel : 2 ^ 16 ≤ fuel)
    {one : Exec (Counted β) Unit} (h : Turn one)
    (cmp : Bool) {base per : Nat} (hbase : base.ble 22 = true)
    (hper : per.ble 22 = true) :
    Takes 262140 1441779 (repStr fuel one cmp base per) := by
  have hbase' := Nat.le_of_ble_eq_true hbase
  have hper' := Nat.le_of_ble_eq_true hper
  refine touches_cpu.bind rfl fun c => ?_
  cases c.rep with
  | none => exact h.touches.bind rfl fun _ => .pure (by omega)
  | some contOnZf =>
    intro s
    have hcx := s.cpu.regs.cx.isLt
    obtain ⟨k, s', hrun, hk, ha⟩ :=
      repLoop_returns h cmp contOnZf per 9 s (by omega : _ < fuel)
    have hmul : per * s.cpu.regs.cx.toNat ≤ 22 * 65535 :=
      Nat.mul_le_mul hper' (by omega)
    exact ⟨k, s', hrun, by omega, by omega⟩

-- ======== the table

/-- The bounds of an instruction that does not repeat. -/
abbrev Short (x : Exec (Counted β) Nat) : Prop := Takes 16 1100 x

/-- The table, arm by arm. -/
theorem short_alu :
    ∀ a ∈ (aluArms : List (Arm (Counted β))), ∀ op, Short (a.run op) := by
  simp only [aluArms, List.forall_mem_cons, List.not_mem_nil, false_imp_iff,
    implies_true, and_true]
  refine ⟨?_, ?_, ?_, ?_, ?_, ?_, ?_, ?_⟩ <;> intro op
  · exact takes_opRmR _ _ _
  · exact takes_opRmR _ _ _
  · exact takes_opRRm _ _ _
  · exact takes_opRRm _ _ _
  · exact takes_opAccImm _ _ _
  · exact takes_opAccImm _ _ _
  · exact takes_opRmImm .byte (touches_fetchByte.mono rfl)
  · exact takes_opRmImm .word (.ite touches_fetchWord touches_fetchSigned)

theorem short_stack :
    ∀ a ∈ (stackArms : List (Arm (Counted β))), ∀ op, Short (a.run op) := by
  simp only [stackArms, List.forall_mem_cons, List.not_mem_nil, false_imp_iff,
    implies_true, and_true]
  refine ⟨?_, ?_, ?_, ?_, ?_, ?_, ?_, ?_⟩ <;> intro op
  · exact touches_regs.bind rfl fun _ => (touches_push16 _).bind rfl fun _ =>
      takes_pure 10 rfl
  · exact touches_pop16.bind rfl fun _ =>
      (touches_modifyRegs _).bind rfl fun _ =>
      (touches_whenever _ (touches_modifyCpu _)).bind rfl fun _ =>
        takes_pure 8 rfl
  · exact touches_pop16.bind rfl fun _ => (touches_modifyRegs _).bind rfl
      fun _ => takes_pure 8 rfl
  · exact touches_regs.bind rfl fun _ => (touches_push16 _).bind rfl fun _ =>
      takes_pure 11 rfl
  · exact touches_pop16.bind rfl fun _ => (touches_modifyRegs _).bind rfl
      fun _ => takes_pure 8 rfl
  · exact touches_modrm.bind rfl fun d => touches_pop16.bind rfl fun _ =>
      (touches_writeOp .word d.2 _).bind rfl fun _ =>
        takes_cyclesOf d.2 rfl rfl
  · exact touches_regs.bind rfl fun _ => (touches_push16 _).bind rfl fun _ =>
      takes_pure 10 rfl
  · exact touches_pop16.bind rfl fun _ => (touches_modifyRegs _).bind rfl
      fun _ => takes_pure 8 rfl

theorem short_count :
    ∀ a ∈ (countArms : List (Arm (Counted β))), ∀ op, Short (a.run op) := by
  simp only [countArms, List.forall_mem_cons, List.not_mem_nil, false_imp_iff,
    implies_true, and_true]
  refine ⟨?_, ?_, ?_⟩ <;> intro op
  · exact touches_regs.bind rfl fun _ => (touches_alu _).bind rfl fun _ =>
      (touches_modifyRegs _).bind rfl fun _ =>
      takes_pure 2 rfl
  · exact touches_regs.bind rfl fun _ => (touches_alu _).bind rfl fun _ =>
      (touches_modifyRegs _).bind rfl fun _ =>
      takes_pure 2 rfl
  · exact takes_jumpIf _ rfl rfl

theorem short_exchange :
    ∀ a ∈ (exchangeArms : List (Arm (Counted β))), ∀ op, Short (a.run op) := by
  simp only [exchangeArms, List.forall_mem_cons, List.not_mem_nil,
    false_imp_iff, implies_true, and_true]
  refine ⟨?_, ?_, ?_, ?_, ?_, ?_, ?_⟩ <;> intro op
  · exact takes_opRmR _ _ _
  · exact takes_opRmR _ _ _
  · exact takes_exchange _
  · exact takes_exchange _
  · exact (touches_modifyRegs _).bind rfl fun _ => takes_pure 3 rfl
  · exact takes_opAccImm _ _ _
  · exact takes_opAccImm _ _ _

theorem short_move :
    ∀ a ∈ (moveArms : List (Arm (Counted β))), ∀ op, Short (a.run op) := by
  simp only [moveArms, List.forall_mem_cons, List.not_mem_nil, false_imp_iff,
    implies_true, and_true]
  refine ⟨?_, ?_, ?_, ?_, ?_, ?_, ?_, ?_, ?_, ?_, ?_, ?_, ?_, ?_, ?_, ?_⟩
    <;> intro op
  · exact takes_moveToRm _
  · exact takes_moveToRm _
  · exact takes_moveFromRm _
  · exact takes_moveFromRm _
  · exact touches_modrm.bind rfl fun d => touches_regs.bind rfl fun _ =>
      (touches_writeOp .word d.2 _).bind rfl fun _ =>
        takes_cyclesOf d.2 rfl rfl
  · exact touches_modrm.bind rfl fun d =>
      (touches_readOp .word d.2).bind rfl fun _ =>
      (touches_modifyRegs _).bind rfl fun _ =>
        (touches_whenever _ (touches_modifyCpu _)).bind rfl fun _ =>
        takes_cyclesOf d.2 rfl rfl
  · exact touches_modrm.bind rfl fun d =>
      (touches_loadAddress _ d.2).bind rfl fun _ =>
      within_ea.bind rfl fun e he => .pure (show 2 + e ≤ 1100 by omega)
  · exact takes_moveFromMem _
  · exact takes_moveFromMem _
  · exact takes_moveToMem _
  · exact takes_moveToMem _
  · exact takes_moveImm _ _
  · exact takes_moveImm _ _
  · exact takes_moveRmImm _
  · exact takes_moveRmImm _
  · exact touches_modrm.bind rfl fun d =>
      (touches_loadFar _ _ d.2).bind rfl fun _ =>
      within_ea.bind rfl fun e he => .pure (show 16 + e ≤ 1100 by omega)

theorem short_adjust :
    ∀ a ∈ (adjustArms : List (Arm (Counted β))), ∀ op, Short (a.run op) := by
  simp only [adjustArms, List.forall_mem_cons, List.not_mem_nil, false_imp_iff,
    implies_true, and_true]
  refine ⟨?_, ?_, ?_, ?_, ?_, ?_, ?_, ?_, ?_, ?_⟩ <;> intro op
  · exact (touches_modifyRegs _).bind rfl fun _ => takes_pure 2 rfl
  · exact (touches_modifyRegs _).bind rfl fun _ => takes_pure 5 rfl
  · exact (touches_modifyRegs _).bind rfl fun _ => takes_pure 4 rfl
  · exact (touches_modifyRegs _).bind rfl fun _ => takes_pure 4 rfl
  · exact (touches_modifyRegs _).bind rfl fun _ => takes_pure 4 rfl
  · exact (touches_modifyRegs _).bind rfl fun _ => takes_pure 4 rfl
  · exact (touches_modifyRegs _).bind rfl fun _ => takes_pure 8 rfl
  · exact (touches_modifyRegs _).bind rfl fun _ => takes_pure 8 rfl
  · exact touches_fetchByte.bind rfl fun _ => (touches_divideBy _).bind rfl
      fun _ => takes_pure 83 rfl
  · exact touches_fetchByte.bind rfl fun _ => (touches_modifyRegs _).bind rfl
      fun _ => takes_pure 60 rfl

/-- CL is a byte. -/
theorem takes_shiftByCl (z : Size) :
    Short (regs >>= fun r => shiftGrp z (some (r.cx.setWidth 8).toNat) : Exec
      (Counted β) Nat) := by
  refine touches_regs.bind rfl fun r => takes_shiftGrp z _ ?_
  rintro k ⟨⟩
  exact Nat.le_of_lt_succ (r.cx.setWidth 8).isLt

theorem short_shift :
    ∀ a ∈ (shiftArms : List (Arm (Counted β))), ∀ op, Short (a.run op) := by
  simp only [shiftArms, List.forall_mem_cons, List.not_mem_nil, false_imp_iff,
    implies_true, and_true]
  refine ⟨?_, ?_, ?_, ?_⟩ <;> intro op
  · exact takes_shiftGrp _ none fun _ h => absurd h (Option.not_mem_none _)
  · exact takes_shiftGrp _ none fun _ h => absurd h (Option.not_mem_none _)
  · exact takes_shiftByCl .byte
  · exact takes_shiftByCl .word

theorem short_return :
    ∀ a ∈ (returnArms : List (Arm (Counted β))), ∀ op, Short (a.run op) := by
  simp only [returnArms, List.forall_mem_cons, List.not_mem_nil, false_imp_iff,
    implies_true, and_true]
  refine ⟨?_, ?_, ?_, ?_, ?_, ?_, ?_, ?_⟩ <;> intro op
  · exact touches_popIp.bind rfl fun _ => takes_pure 16 rfl
  · exact touches_fetchWord.bind rfl fun _ => touches_popIp.bind rfl fun _ =>
      (touches_modifyRegs _).bind rfl fun _ => takes_pure 20 rfl
  · exact touches_popIp.bind rfl fun _ => touches_popCs.bind rfl fun _ =>
      takes_pure 26 rfl
  · exact touches_fetchWord.bind rfl fun _ => touches_popIp.bind rfl fun _ =>
      touches_popCs.bind rfl fun _ =>
      (touches_modifyRegs _).bind rfl fun _ => takes_pure 25 rfl
  · exact (touches_interrupt 3).bind rfl fun _ => takes_pure 52 rfl
  · exact touches_fetchByte.bind rfl fun _ => (touches_interrupt _).bind rfl
      fun _ => takes_pure 51 rfl
  · exact touches_regs.bind rfl fun _ =>
      .ite ((touches_interrupt 4).bind rfl fun _ => takes_pure 53 rfl)
        (takes_pure 4 rfl)
  · exact touches_popIp.bind rfl fun _ => touches_popCs.bind rfl fun _ =>
      touches_pop16.bind rfl fun _ =>
      (touches_modifyRegs _).bind rfl fun _ => takes_pure 24 rfl

theorem short_escape :
    ∀ a ∈ (escapeArms : List (Arm (Counted β))), ∀ op, Short (a.run op) := by
  simp only [escapeArms, List.forall_mem_cons, List.not_mem_nil, false_imp_iff,
    implies_true, and_true]
  refine ⟨?_, ?_, ?_⟩ <;> intro op
  · exact (touches_modifyRegs _).bind rfl fun _ => takes_pure 3 rfl
  · exact touches_cpu.bind rfl fun _ => (touches_read8 _ _).bind rfl fun _ =>
      (touches_modifyRegs _).bind rfl fun _ =>
      takes_pure 11 rfl
  · exact touches_modrm.bind rfl fun d => (touches_touch d.2).bind rfl fun _ =>
      takes_cyclesOf d.2 rfl rfl

theorem short_port :
    ∀ a ∈ (portArms : List (Arm (Counted β))), ∀ op, Short (a.run op) := by
  simp only [portArms, List.forall_mem_cons, List.not_mem_nil, false_imp_iff,
    implies_true, and_true]
  refine ⟨?_, ?_, ?_, ?_, ?_, ?_, ?_, ?_, ?_, ?_, ?_, ?_⟩ <;> intro op
  · exact takes_loopIf _ rfl rfl
  · exact takes_loopIf _ rfl rfl
  · exact takes_loopIf _ rfl rfl
  · exact takes_jumpIf _ rfl rfl
  · exact takes_inImm _
  · exact takes_inImm _
  · exact takes_outImm _
  · exact takes_outImm _
  · exact takes_inDx _
  · exact takes_inDx _
  · exact takes_outDx _
  · exact takes_outDx _

theorem short_transfer :
    ∀ a ∈ (transferArms : List (Arm (Counted β))), ∀ op, Short (a.run op) := by
  simp only [transferArms, List.forall_mem_cons, List.not_mem_nil,
    false_imp_iff, implies_true, and_true]
  refine ⟨?_, ?_, ?_, ?_, ?_⟩ <;> intro op
  · exact touches_fetchWord.bind rfl fun _ =>
      touches_fetchWord.bind rfl fun _ =>
      (touches_callFar _ _).bind rfl fun _ => takes_pure 28 rfl
  · exact touches_fetchWord.bind rfl fun _ => touches_regs.bind rfl fun _ =>
      (touches_push16 _).bind rfl fun _ =>
      (touches_modifyRegs _).bind rfl fun _ => takes_pure 19 rfl
  · exact touches_fetchWord.bind rfl fun _ => (touches_modifyRegs _).bind rfl
      fun _ => takes_pure 15 rfl
  · exact touches_fetchWord.bind rfl fun _ =>
      touches_fetchWord.bind rfl fun _ =>
      (touches_modifyRegs _).bind rfl fun _ => takes_pure 15 rfl
  · exact touches_fetchSigned.bind rfl fun _ => (touches_modifyRegs _).bind rfl
      fun _ => takes_pure 15 rfl

omit [Bus β] in
theorem short_control :
    ∀ a ∈ (controlArms : List (Arm (Counted β))), ∀ op, Short (a.run op) := by
  simp only [controlArms, List.forall_mem_cons, List.not_mem_nil,
    false_imp_iff, implies_true, and_true]
  refine ⟨?_, ?_, ?_, ?_, ?_, ?_, ?_, ?_, ?_⟩ <;> intro op
  · exact takes_pure 3 rfl
  · exact (touches_modifyCpu _).bind rfl fun _ => takes_pure 2 rfl
  · exact takes_setFlag _
  · exact takes_setFlag _
  · exact takes_setFlag _
  · exact takes_setFlag _
  · exact (touches_modifyCpu _).bind rfl fun _ => takes_setFlag _
  · exact takes_setFlag _
  · exact takes_setFlag _

theorem short_group :
    ∀ a ∈ (groupArms : List (Arm (Counted β))), ∀ op, Short (a.run op) := by
  simp only [groupArms, List.forall_mem_cons, List.not_mem_nil, false_imp_iff,
    implies_true, and_true]
  refine ⟨?_, ?_, ?_, ?_⟩ <;> intro op
  · exact takes_unaryGroup _ _ _ _ _ (by decide)
  · exact takes_unaryGroup _ _ _ _ _ (by decide)
  · exact touches_modrm.bind rfl fun d => takes_countRm .byte d.2 _
  · exact touches_modrm.bind rfl fun d => takes_controlGroup _ d.2

/-- The string instructions are the long ones. -/
theorem takes_string {fuel : Nat} (hfuel : 2 ^ 16 ≤ fuel) :
    ∀ a ∈ (stringArms fuel : List (Arm (Counted β))), ∀ op,
      Takes 262140 1441779 (a.run op) := by
  simp only [stringArms, List.forall_mem_cons, List.not_mem_nil, false_imp_iff,
    implies_true, and_true]
  refine ⟨?_, ?_, ?_, ?_, ?_, ?_, ?_, ?_, ?_, ?_⟩ <;> intro op
  · exact takes_repStr hfuel (turn_movs _) _ rfl rfl
  · exact takes_repStr hfuel (turn_movs _) _ rfl rfl
  · exact takes_repStr hfuel (turn_cmps _) _ rfl rfl
  · exact takes_repStr hfuel (turn_cmps _) _ rfl rfl
  · exact takes_repStr hfuel (turn_stos _) _ rfl rfl
  · exact takes_repStr hfuel (turn_stos _) _ rfl rfl
  · exact takes_repStr hfuel (turn_lods _) _ rfl rfl
  · exact takes_repStr hfuel (turn_lods _) _ rfl rfl
  · exact takes_repStr hfuel (turn_scas _) _ rfl rfl
  · exact takes_repStr hfuel (turn_scas _) _ rfl rfl

/-- Every arm comes back. -/
theorem takes_arms {fuel : Nat} (hfuel : 2 ^ 16 ≤ fuel) :
    ∀ a ∈ (arms fuel : List (Arm (Counted β))), ∀ op,
      Takes 262140 1441779 (a.run op) := by
  have hshort : ∀ x : Exec (Counted β) Nat, Short x → Takes 262140 1441779 x :=
    fun x h => h.mono (by decide) fun k hk => Nat.le_trans hk (by decide)
  intro a ha op
  simp only [arms, List.mem_append] at ha
  rcases ha with ((((((((((((h | h) | h) | h) | h) | h) | h) | h) | h) | h) | h) | h) | h) | h
  · exact hshort _ (short_alu a h op)
  · exact hshort _ (short_stack a h op)
  · exact hshort _ (short_count a h op)
  · exact hshort _ (short_exchange a h op)
  · exact hshort _ (short_move a h op)
  · exact hshort _ (short_adjust a h op)
  · exact takes_string hfuel a h op
  · exact hshort _ (short_shift a h op)
  · exact hshort _ (short_return a h op)
  · exact hshort _ (short_escape a h op)
  · exact hshort _ (short_port a h op)
  · exact hshort _ (short_transfer a h op)
  · exact hshort _ (short_control a h op)
  · exact hshort _ (short_group a h op)

end Exec

end Remu.X86
