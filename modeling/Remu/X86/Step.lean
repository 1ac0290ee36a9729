/-
One step of the 8086, and when it comes back.

Two loops in a step have no bound in the source. The repetitions of a
string instruction are counted down by CX, which no string primitive
writes, so there are 65535 at most. The prefix loop has no such measure: it
ends at the first byte that is not a prefix, and IP wraps within the
segment, so it ends exactly when the code segment holds such a byte. Memory
does not change while prefixes are read, and the first such byte is at most
65535 bytes away.
-/
import Remu.X86.Cycles

namespace Remu.X86

open Fallible

-- ======== the step

/-- Cycles consumed by servicing an interrupt. -/
abbrev interruptCycles : Nat := 61

/-- What a prefix byte records; nothing for any other byte. -/
def notePrefix (b : U8) (c : Cpu) : Option Cpu :=
  if b = 0x26 then some { c with segOverride := some reg.ES }
  else if b = 0x2E then some { c with segOverride := some reg.CS }
  else if b = 0x36 then some { c with segOverride := some reg.SS }
  else if b = 0x3E then some { c with segOverride := some reg.DS }
  else if b = 0xF0 ∨ b = 0xF1 then some c
  else if b = 0xF2 then some { c with rep := some false }
  else if b = 0xF3 then some { c with rep := some true }
  else none

/-- The prefix bytes. -/
def prefixBytes : List U8 := [0x26, 0x2E, 0x36, 0x3E, 0xF0, 0xF1, 0xF2, 0xF3]

def IsPrefix (b : U8) : Prop := b ∈ prefixBytes

instance : DecidablePred IsPrefix :=
  fun b => inferInstanceAs (Decidable (b ∈ _))

namespace Exec

variable {β : Type} [Bus β]

/-- Consume prefixes up to the opcode byte. -/
def prefixes : Nat → Nat → Exec β (U8 × Nat)
  | 0, _ => throw Stop.fuel
  | fuel + 1, cycles => do
    let b ← fetchByte
    let c ← cpu
    match notePrefix b c with
    | some c' =>
      modifyCpu fun _ => c'
      prefixes fuel (cycles + 2)
    | none => pure (b, cycles)

/-- Count the cycles of a step. -/
def account (cycles : Nat) : Exec β Nat := do
  modifyCpu fun c => { c with cycles := c.cycles + BitVec.ofNat 64 cycles }
  pure cycles

def service (vector : U8) : Exec β Nat := do
  interrupt vector
  account interruptCycles

/-- The instruction at CS:IP, and the trap after it. -/
def instruction (fuel : Nat) : Exec β Nat := do
  let r ← regs
  let trap := r.flags.contains Flags.TF
  modifyCpu fun c => { c with segOverride := none, rep := none }
  let p ← prefixes fuel 0
  let cycles ← dispatch fuel p.1
  let c ← cpu
  if trap ∧ c.regs.flags.contains Flags.TF ∧ ¬ c.inhibitInterrupts then
    interrupt 1
    account (p.2 + cycles + interruptCycles)
  else account (p.2 + cycles)

/-- Execute one instruction, or service a pending interrupt. -/
def step (fuel : Nat) : Exec β Nat := do
  let c ← cpu
  modifyCpu fun c => { c with inhibitInterrupts := false }
  if ¬ c.inhibitInterrupts ∧ c.nmiPending then
    modifyCpu fun c => { c with nmiPending := false, halted := false }
    service 2
  else if ¬ c.inhibitInterrupts ∧ c.intr.isSome
    ∧ c.regs.flags.contains Flags.IF then
    modifyCpu fun c => { c with intr := none, halted := false }
    service (c.intr.getD 0)
  else if c.halted then account 1
  else instruction fuel

end Exec

/-- An interrupt is recognized before the next instruction. -/
def Cpu.Recognizes (c : Cpu) : Prop :=
  c.inhibitInterrupts = false
    ∧ (c.nmiPending = true ∨ (c.intr.isSome ∧ c.regs.flags.contains Flags.IF))

-- ======== counted accesses

/-- A bus whose reads have no effect. -/
class Memory (β : Type) extends Bus β where
  peek : β → U32 → U8
  read_eq : ∀ b addr, read b addr = (peek b addr, b)

instance : Memory LinearMemory where
  peek m addr := m.ram (addr.setWidth 20)
  read_eq _ _ := rfl

/-- Granted enough turns a step returns, with a cycle count of 32 bits and
no more than 2^19 bus accesses. -/
def Returns {β : Type} [Bus β] (cpu : Cpu) (bus : β) : Prop :=
  ∃ n, ∀ fuel, n ≤ fuel → ∃ cycles s,
    Exec.step fuel ⟨cpu, (⟨bus, 0⟩ : Counted β)⟩ = (.ok cycles, s)
    ∧ cycles < 2 ^ 32 ∧ s.bus.count ≤ 2 ^ 19

-- ======== the prefixes

theorem isPrefix_of_notePrefix {b : U8} {c c' : Cpu}
    (h : notePrefix b c = some c') :
    IsPrefix b ∧ c'.regs = c.regs := by
  unfold notePrefix at h
  split_ifs at h <;> cases h <;> refine ⟨?_, rfl⟩ <;>
    simp only [IsPrefix, prefixBytes, List.mem_cons, List.not_mem_nil,
      or_false] <;> tauto

theorem not_isPrefix_of_notePrefix {b : U8} {c : Cpu}
    (h : notePrefix b c = none) : ¬ IsPrefix b := by
  intro hb
  simp only [IsPrefix, prefixBytes, List.mem_cons,
    List.not_mem_nil, or_false] at hb
  rcases hb with rfl | rfl | rfl | rfl | rfl | rfl | rfl | rfl <;> cases h

section Prefixes

variable {β : Type} [Memory β]

/-- The byte at an offset of the code segment. -/
def codeByte (s : Machine (Counted β)) (off : U16) : U8 :=
  Memory.peek s.bus.machine (Cpu.phys s.cpu.regs.cs off)

theorem fetchByte_eq (s : Machine (Counted β)) :
    Exec.fetchByte s = (.ok (codeByte s s.cpu.regs.ip),
    ⟨{ s.cpu with regs := { s.cpu.regs with ip := s.cpu.regs.ip + 1 } },
      s.bus.machine, s.bus.count + 1⟩) := by
  have hread : Bus.read s.bus (Cpu.phys s.cpu.regs.cs s.cpu.regs.ip)
      = (codeByte s s.cpu.regs.ip, ⟨s.bus.machine, s.bus.count + 1⟩) := by
    show ((Bus.read s.bus.machine _).1,
      Counted.mk (Bus.read s.bus.machine _).2 _) = _
    rw [Memory.read_eq]
    rfl
  rw [Exec.fetchByte,
    bind_of_ok (show Exec.regs s = (.ok s.cpu.regs, s) from rfl)]
  have hread8 : Exec.read8 s.cpu.regs.cs s.cpu.regs.ip s
      = (.ok (codeByte s s.cpu.regs.ip),
        { s with bus := ⟨s.bus.machine, s.bus.count + 1⟩ }) := by
    rw [Exec.read8, hread]
  rw [bind_of_ok hread8]
  rfl

/-- One turn of the prefix loop: a prefix is noted and passed, and any other
byte ends it. -/
theorem prefixes_succ (fuel cycles : Nat) (s : Machine (Counted β)) :
    (¬ IsPrefix (codeByte s s.cpu.regs.ip) ∧ ∃ s',
        Exec.prefixes (fuel + 1) cycles s
        = (.ok (codeByte s s.cpu.regs.ip, cycles), s')
          ∧ s'.bus.count = s.bus.count + 1)
      ∨ (IsPrefix (codeByte s s.cpu.regs.ip) ∧ ∃ s' : Machine (Counted β),
        Exec.prefixes (fuel + 1) cycles s = Exec.prefixes fuel (cycles + 2) s'
          ∧ s'.cpu.regs.ip = s.cpu.regs.ip + 1
          ∧ (∀ off, codeByte s' off = codeByte s off)
          ∧ s'.bus.count = s.bus.count + 1) := by
  rw [Exec.prefixes, bind_of_ok (fetchByte_eq s),
    bind_of_ok (show Exec.cpu (⟨_, _⟩ : Machine (Counted β))
    = (.ok _, ⟨_, _⟩) from rfl)]
  rcases hnote : notePrefix (codeByte s s.cpu.regs.ip)
    { s.cpu with regs := { s.cpu.regs with ip := s.cpu.regs.ip + 1 } } with _ | c'
  · exact .inl ⟨not_isPrefix_of_notePrefix hnote, _, rfl, rfl⟩
  · obtain ⟨hpre, hregs⟩ := isPrefix_of_notePrefix hnote
    refine .inr ⟨hpre, ⟨c', s.bus.machine, s.bus.count + 1⟩, rfl, ?_, ?_, rfl⟩
    · rw [hregs]
    · intro off
      rw [codeByte, codeByte, hregs]

/-- The loop comes back at the first byte that is not a prefix. -/
theorem prefixes_returns {k fuel : Nat} (hk : k < fuel) (cycles : Nat)
    (s : Machine (Counted β))
    (hpre : ∀ i,
      i < k → IsPrefix (codeByte s (s.cpu.regs.ip + BitVec.ofNat 16 i)))
    (hend : ¬ IsPrefix (codeByte s (s.cpu.regs.ip + BitVec.ofNat 16 k))) :
    ∃ b s', Exec.prefixes fuel cycles s = (.ok (b, cycles + 2 * k), s')
      ∧ ¬ IsPrefix b
      ∧ s'.bus.count = s.bus.count + k + 1 := by
  induction k generalizing fuel cycles s with
  | zero =>
    obtain ⟨fuel, rfl⟩ : ∃ f, fuel = f + 1 := ⟨fuel - 1, by omega⟩
    rw [show BitVec.ofNat 16 0 = 0#16 from rfl, BitVec.add_zero] at hend
    rcases prefixes_succ fuel cycles s with ⟨hb, s', hrun, hcount⟩ | ⟨hb, -⟩
    · exact ⟨_, s', hrun, hb, hcount⟩
    · exact absurd hb hend
  | succ k ih =>
    obtain ⟨fuel, rfl⟩ : ∃ f, fuel = f + 1 := ⟨fuel - 1, by omega⟩
    have hfirst := hpre 0 (Nat.succ_pos k)
    rw [show BitVec.ofNat 16 0 = 0#16 from rfl, BitVec.add_zero] at hfirst
    rcases prefixes_succ fuel cycles s with ⟨hb, -⟩ | ⟨-, s', hrun, hip, hcode, hcount⟩
    · exact absurd hfirst hb
    · have hshift : ∀ i, codeByte s' (s'.cpu.regs.ip + BitVec.ofNat 16 i)
          = codeByte s (s.cpu.regs.ip + BitVec.ofNat 16 (i + 1)) := by
        intro i
        rw [hcode, hip, BitVec.add_assoc, Nat.add_comm i 1, BitVec.ofNat_add]
        rfl
      have hroom : k < fuel := by omega
      obtain ⟨b, t, hprefixes, hb, hcount'⟩ := ih hroom (cycles + 2) s'
        (fun i hi => hshift i ▸ hpre (i + 1) (by omega)) (hshift k ▸ hend)
      refine ⟨b, t, ?_, hb, by omega⟩
      rw [hrun, hprefixes]
      congr 3
      omega

/-- With a prefix everywhere in the code segment no number of turns is
enough. -/
theorem prefixes_diverges {s : Machine (Counted β)}
    (h : ∀ off, IsPrefix (codeByte s off))
    (fuel cycles : Nat) :
    ∃ s', Exec.prefixes fuel cycles s = (.error Stop.fuel, s') := by
  induction fuel generalizing cycles s with
  | zero => exact ⟨s, rfl⟩
  | succ fuel ih =>
    rcases prefixes_succ fuel cycles s with ⟨hb, -⟩ | ⟨-, s', hrun, -, hcode, -⟩
    · exact absurd (h _) hb
    · obtain ⟨t, ht⟩ :=
        ih (s := s') (fun off => hcode off ▸ h off) (cycles + 2)
      exact ⟨t, hrun.trans ht⟩

/-- A segment with an opcode byte has a first one within 64 KiB. -/
theorem exists_first {P : U16 → Prop} [DecidablePred P] (ip : U16)
    (h : ∃ off, ¬ P off) :
    ∃ k, k < 2 ^ 16 ∧ (∀ i, i < k → P (ip + BitVec.ofNat 16 i))
      ∧ ¬ P (ip + BitVec.ofNat 16 k) := by
  obtain ⟨off, hoff⟩ := h
  have hreach : ip + BitVec.ofNat 16 (off - ip).toNat = off := by
    rw [BitVec.ofNat_toNat, BitVec.setWidth_eq, BitVec.add_comm,
      BitVec.sub_add_cancel]
  have hat : ¬ P (ip + BitVec.ofNat 16 (off - ip).toNat) := by
    rw [hreach]
    exact hoff
  have hex : ∃ k, ¬ P (ip + BitVec.ofNat 16 k) := ⟨_, hat⟩
  obtain ⟨k, hk, hmin⟩ : ∃ k, ¬ P (ip + BitVec.ofNat 16 k) ∧ ∀ i,
    i < k → P (ip + BitVec.ofNat 16 i) :=
    ⟨Nat.find hex, Nat.find_spec hex,
      fun i hi => not_not.1 (Nat.find_min hex hi)⟩
  have hle : k ≤ (off - ip).toNat := Nat.not_lt.1 fun hlt => hat (hmin _ hlt)
  exact ⟨k, Nat.lt_of_le_of_lt hle (off - ip).isLt, hmin, hk⟩

end Prefixes

-- ======== dispatch

namespace Exec

/-- The opcodes the arms answer to, arm by arm. -/
def armOpcodes : List (List U8) :=
  (arms 0 : List (Arm LinearMemory)).map Arm.opcodes

variable {β : Type} [Bus β]

/-- They do not depend on the machine, nor on the turns granted. -/
theorem opcodes_arms (fuel : Nat) :
    (arms fuel : List (Arm β)).map Arm.opcodes = armOpcodes := by
  simp only [armOpcodes, arms, aluArms, stackArms, countArms, exchangeArms,
    moveArms, adjustArms, stringArms, shiftArms, returnArms, escapeArms,
    portArms, transferArms, controlArms, groupArms, List.map_append,
    List.map_cons, List.map_nil]

/-- A list of bytes as a set of bits. -/
def byteMask : List U8 → Nat
  | [] => 0
  | b :: l => 2 ^ b.toNat ||| byteMask l

theorem testBit_byteMask (l : List U8) (b : U8) :
    (byteMask l).testBit b.toNat = true ↔ b ∈ l := by
  induction l with
  | nil => simp [byteMask]
  | cons a l ih =>
    rw [byteMask, Nat.testBit_or, Nat.testBit_two_pow, Bool.or_eq_true,
      decide_eq_true_eq, ih, List.mem_cons, BitVec.toNat_inj]
    exact or_congr_left eq_comm

/-- Every byte that is not a prefix has an arm. -/
theorem arms_cover (b : U8) : IsPrefix b ∨ b ∈ armOpcodes.flatten := by
  have hmask : byteMask (prefixBytes ++ armOpcodes.flatten) = 2 ^ 256 - 1 := by
    decide +kernel
  rw [IsPrefix, ← List.mem_append, ← testBit_byteMask, hmask,
    Nat.testBit_two_pow_sub_one, decide_eq_true_eq]
  exact b.isLt

theorem takes_dispatch {fuel : Nat} (hfuel : 2 ^ 16 ≤ fuel) {opcode : U8}
    (h : ¬ IsPrefix opcode) :
    Takes 262140 1441779 (dispatch fuel opcode : Exec (Counted β) Nat) := by
  have hcover : opcode ∈ armOpcodes.flatten :=
    (arms_cover opcode).resolve_left h
  rw [← opcodes_arms fuel (β := Counted β), ← List.flatMap_def] at hcover
  obtain ⟨a, ha, hop⟩ := List.mem_flatMap.1 hcover
  have hc : a.opcodes.contains opcode = true := List.contains_iff_mem.2 hop
  unfold dispatch
  cases hfind : List.find? (fun a => a.opcodes.contains opcode)
    (arms fuel : List (Arm (Counted β))) with
  | none => exact absurd hc (List.find?_eq_none.1 hfind a ha)
  | some a' =>
    have hmem := List.mem_of_find?_eq_some hfind
    exact takes_arms hfuel a' hmem opcode

-- ======== the step

omit [Bus β] in
theorem takes_account {n c : Nat} (cycles : Nat) (h : cycles ≤ c) :
    Takes n c (account cycles : Exec (Counted β) Nat) :=
  fun _ => ⟨cycles, _, rfl, h, Nat.le_add_right _ _⟩

theorem takes_service (vector : U8) :
    Takes 10 61 (service vector : Exec (Counted β) Nat) :=
  (touches_interrupt vector).bind rfl fun _ => takes_account _ (Nat.le_refl _)

/-- The opcode and what follows it, after `before` cycles of prefixes. -/
def rest (fuel before : Nat) (trap : Bool) (opcode : U8) : Exec β Nat := do
  let cycles ← dispatch fuel opcode
  let c ← cpu
  if trap ∧ c.regs.flags.contains Flags.TF ∧ ¬ c.inhibitInterrupts then
    interrupt 1
    account (before + cycles + interruptCycles)
  else account (before + cycles)

theorem takes_rest {fuel : Nat} (hfuel : 2 ^ 16 ≤ fuel) (before : Nat)
    (trap : Bool) {opcode : U8} (h : ¬ IsPrefix opcode) :
    Takes 262150 (before + 1441840)
      (rest fuel before trap opcode : Exec (Counted β) Nat) :=
  Within.bind (takes_dispatch hfuel h) rfl fun k hk =>
    touches_cpu.bind rfl fun _ =>
    .ite ((touches_interrupt 1).bind rfl fun _ =>
        takes_account _ (show before + k + 61 ≤ before + 1441840 by omega))
      (takes_account _ (show before + k ≤ before + 1441840 by omega))

/-- An instruction with an opcode byte comes back. -/
theorem instruction_returns {β : Type} [Memory β] {fuel : Nat}
    (hfuel : 2 ^ 16 ≤ fuel) (s : Machine (Counted β))
    (h : ∃ off, ¬ IsPrefix (codeByte s off)) :
    ∃ k s', instruction fuel s = (.ok k, s') ∧ k < 2 ^ 32
      ∧ s'.bus.count ≤ s.bus.count + 327686 := by
  obtain ⟨k, hk, hpre, hend⟩ := exists_first s.cpu.regs.ip h
  let t : Machine (Counted β) :=
    { s with cpu := { s.cpu with segOverride := none, rep := none } }
  obtain ⟨b, t', hprefixes, hb, hcount⟩ :=
    prefixes_returns (Nat.lt_of_lt_of_le hk hfuel) 0 t hpre hend
  obtain ⟨c, s', hrest, hc, hacc⟩ :=
    takes_rest hfuel (0 + 2 * k) (s.cpu.regs.flags.contains Flags.TF) hb t'
  refine ⟨c, s', ?_, by omega, ?_⟩
  · rw [instruction, bind_of_ok (show regs s = (.ok s.cpu.regs, s) from rfl),
      bind_of_ok (show modifyCpu _ s = (.ok (), t) from rfl),
      bind_of_ok hprefixes]
    exact hrest
  · have hcount' : t'.bus.count = s.bus.count + k + 1 := hcount
    have hacc' : s'.bus.count ≤ t'.bus.count + 262150 := hacc
    omega

end Exec

section Returns

variable {β : Type} [Memory β]

/-- A step that takes an interrupt or finds the processor halted does not
reach the instruction. -/
theorem step_returns_early {cpu : Cpu} (h : cpu.Recognizes ∨ cpu.halted = true)
    (fuel : Nat) (s : Machine (Counted β)) (hs : s.cpu = cpu) :
    ∃ k s', Exec.step fuel s = (.ok k, s') ∧ k ≤ 61
      ∧ s'.bus.count ≤ s.bus.count + 10 := by
  subst hs
  let t : Machine (Counted β) :=
    { s with cpu := { s.cpu with inhibitInterrupts := false } }
  have hstart : ∀ y : Cpu → Exec (Counted β) Nat,
      (Exec.cpu >>= fun c => Exec.modifyCpu
        (fun c => { c with inhibitInterrupts := false }) >>= fun _ => y c) s
        = y s.cpu t := fun y => rfl
  rw [Exec.step, hstart]
  by_cases hnmi : ¬ s.cpu.inhibitInterrupts ∧ s.cpu.nmiPending
  · rw [if_pos hnmi]
    exact ((Exec.touches_modifyCpu _).bind rfl fun _ => Exec.takes_service 2) t
  rw [if_neg hnmi]
  by_cases hintr : ¬ s.cpu.inhibitInterrupts ∧ s.cpu.intr.isSome
    ∧ s.cpu.regs.flags.contains Flags.IF
  · rw [if_pos hintr]
    exact ((Exec.touches_modifyCpu _).bind rfl fun _ => Exec.takes_service _) t
  rw [if_neg hintr]
  have hhalt : s.cpu.halted = true := by
    refine h.resolve_left ?_
    rintro ⟨hfree, hpending⟩
    have hfree' : ¬ s.cpu.inhibitInterrupts = true := by
      rw [hfree]; exact Bool.false_ne_true
    exact hpending.elim (fun hn => hnmi ⟨hfree', hn⟩) fun hi =>
      hintr ⟨hfree', hi⟩
  rw [if_pos hhalt]
  exact Exec.takes_account 1 (by decide) t

/-- Otherwise the step is the instruction's. -/
theorem step_eq_instruction (fuel : Nat) (s : Machine (Counted β))
    (h : ¬ s.cpu.Recognizes) (hrun : ¬ s.cpu.halted = true) : Exec.step fuel s
      = Exec.instruction fuel { s with cpu := { s.cpu with inhibitInterrupts := false } } := by
  have hstart : ∀ y : Cpu → Exec (Counted β) Nat,
      (Exec.cpu >>= fun c => Exec.modifyCpu
        (fun c => { c with inhibitInterrupts := false }) >>= fun _ => y c) s
        = y s.cpu { s with cpu := { s.cpu with inhibitInterrupts := false } } := fun y => rfl
  have hnmi : ¬ (¬ s.cpu.inhibitInterrupts ∧ s.cpu.nmiPending) := by
    intro hn
    exact h ⟨Bool.not_eq_true _ ▸ hn.1, .inl hn.2⟩
  have hintr :
    ¬ (¬ s.cpu.inhibitInterrupts ∧ s.cpu.intr.isSome
    ∧ s.cpu.regs.flags.contains Flags.IF) := by
    intro hi
    exact h ⟨Bool.not_eq_true _ ▸ hi.1, .inr hi.2⟩
  rw [Exec.step, hstart, if_neg hnmi, if_neg hintr, if_neg hrun]

/-- A step that reaches a segment of nothing but prefixes does not return. -/
theorem not_returns {cpu : Cpu} {bus : β} (hrec : ¬ cpu.Recognizes)
    (hhalt : ¬ cpu.halted = true)
    (hall : ∀ off, IsPrefix (Memory.peek bus (Cpu.phys cpu.regs.cs off))) :
    ¬ Returns cpu bus := by
  rintro ⟨n, hn⟩
  obtain ⟨k, s', hstep, -, -⟩ := hn n (Nat.le_refl n)
  rw [step_eq_instruction n _ hrec hhalt, Exec.instruction,
    bind_of_ok (show Exec.regs (⟨_, _⟩ : Machine (Counted β)) = (.ok _, ⟨_, _⟩)
    from rfl), bind_of_ok
    (show Exec.modifyCpu _ (⟨_, _⟩ : Machine (Counted β)) = (.ok (), ⟨_, _⟩) from rfl)] at hstep
  obtain ⟨t, ht⟩ := prefixes_diverges (β := β)
    (s := ⟨{ cpu with
      inhibitInterrupts := false, segOverride := none, rep := none },
      ⟨bus, 0⟩⟩) hall n 0
  rw [bind_of_error ht] at hstep
  cases hstep

/-- A step returns exactly when it takes an interrupt, the processor is
halted, or the code segment holds a byte that is not a prefix. -/
theorem step_returns_iff (cpu : Cpu) (bus : β) : Returns cpu bus
    ↔ cpu.Recognizes ∨ cpu.halted = true
      ∨ ∃ off, ¬ IsPrefix (Memory.peek bus (Cpu.phys cpu.regs.cs off)) := by
  constructor
  · intro h
    by_contra hnot
    rw [not_or, not_or, not_exists] at hnot
    obtain ⟨hrec, hhalt, hall⟩ := hnot
    exact not_returns hrec hhalt (fun off => not_not.1 (hall off)) h
  · intro h
    refine ⟨2 ^ 16, fun fuel hfuel => ?_⟩
    by_cases hearly : cpu.Recognizes ∨ cpu.halted = true
    · obtain ⟨k, s', hstep, hk, hcount⟩ :=
        step_returns_early hearly fuel ⟨cpu, (⟨bus, 0⟩ : Counted β)⟩ rfl
      have hcount' : s'.bus.count ≤ 0 + 10 := hcount
      exact ⟨k, s', hstep, by omega, by omega⟩
    · have hcode := (or_assoc.2 h).resolve_left hearly
      rw [not_or] at hearly
      obtain ⟨k, s', hrun, hk, hcount⟩ := Exec.instruction_returns hfuel
        (⟨{ cpu with inhibitInterrupts := false }, ⟨bus, 0⟩⟩ : Machine
          (Counted β)) hcode
      have hcount' : s'.bus.count ≤ 0 + 327686 := hcount
      exact ⟨k, s', (step_eq_instruction fuel _ hearly.1 hearly.2).trans hrun,
        hk, by omega⟩

end Returns

/-- Memory full of ES overrides, from power-on. -/
theorem prefixes_do_not_return :
    ¬ Returns Cpu.new (⟨fun _ => 0x26⟩ : LinearMemory) := by
  refine not_returns ?_ (by decide) fun off => (by decide : IsPrefix 0x26)
  rintro ⟨-, h | ⟨h, -⟩⟩ <;> exact absurd h (by decide)

end Remu.X86
