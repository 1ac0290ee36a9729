/-
A service and the RTI that ends its handler.

A service pushes PC and P at three addresses of page one, wherever the
stack pointer is in it; RTI pulls them in the opposite order. What P gets
back is what was pushed because U is set and B clear before the service.
On a flat memory nothing but the three bytes changes.
-/
import Remu.Mos6502.Protocol

namespace Remu.Mos6502

open Status (I)

-- ======== stack

/-- The address a push with stack pointer `sp` stores at. -/
def stackAddr (sp : U8) : U16 := 0x0100 ||| sp.setWidth 16

/-- The stack is page one. -/
theorem toNat_stackAddr (sp : U8) :
    (stackAddr sp).toNat = 0x100 + sp.toNat := by
  have hlt := sp.isLt
  have hor := Nat.two_pow_add_eq_or_of_lt hlt 1
  rw [stackAddr, BitVec.toNat_or, BitVec.toNat_setWidth,
    Nat.mod_eq_of_lt (by omega)]
  exact hor.symm

/-- Each stack pointer has its own place in page one. -/
theorem stackAddr_inj {s t : U8} (h : stackAddr s = stackAddr t) : s = t := by
  have := congrArg BitVec.toNat h
  rw [toNat_stackAddr, toNat_stackAddr] at this
  exact BitVec.eq_of_toNat_eq (by omega)

/-- The three bytes a service pushes. -/
def pushedAt (sp : U8) : List U16 :=
  [stackAddr sp, stackAddr (sp - 1), stackAddr (sp - 1 - 1)]

/-- Memory after a service of `r`. -/
def FlatMemory.pushed (m : FlatMemory) (r : Registers) : FlatMemory :=
  ((m.write (stackAddr r.sp) ((r.pc >>> 8).setWidth 8)).write
    (stackAddr (r.sp - 1)) (r.pc.setWidth 8)).write
    (stackAddr (r.sp - 1 - 1)) (r.p.pushed false)

namespace FlatMemory

variable {m : FlatMemory} {r : Registers}

/-- What a service pushes, read back. -/
theorem pushed_status : (m.pushed r).read
    (stackAddr (r.sp - 1 - 1)) = r.p.pushed false := upd_same ..

theorem pushed_low :
    (m.pushed r).read (stackAddr (r.sp - 1)) = r.pc.setWidth 8 := by
  have hne : r.sp - 1 ≠ r.sp - 1 - 1 := by bv_omega
  exact (upd_other _ _ fun h => hne (stackAddr_inj h)).trans (upd_same ..)

theorem pushed_high :
    (m.pushed r).read (stackAddr r.sp) = (r.pc >>> 8).setWidth 8 := by
  have hne : r.sp ≠ r.sp - 1 - 1 := by bv_omega
  have hne' : r.sp ≠ r.sp - 1 := by bv_omega
  exact (upd_other _ _ fun h => hne (stackAddr_inj h)).trans
    ((upd_other _ _ fun h => hne' (stackAddr_inj h)).trans (upd_same ..))

/-- A service writes nowhere but on the stack. -/
theorem pushed_other {addr : U16} (h : addr ∉ pushedAt r.sp) :
    (m.pushed r).read addr = m.read addr := by
  simp only [pushedAt, List.mem_cons, List.not_mem_nil, or_false, not_or] at h
  exact (upd_other _ _ h.2.2).trans
    ((upd_other _ _ h.2.1).trans (upd_other _ _ h.1))

end FlatMemory

/-- The PC from its halves. -/
theorem word_halves (pc : U16) :
    word (pc.setWidth 8) ((pc >>> 8).setWidth 8) = pc := by
  apply BitVec.eq_of_getLsbD_eq
  intro i hi
  simp only [word, BitVec.getLsbD_or, BitVec.getLsbD_setWidth,
    BitVec.getLsbD_shiftLeft, BitVec.getLsbD_ushiftRight]
  by_cases h : i < 8
  · simp [h, hi]
  · simp [h, hi, show i - 8 < 8 by omega, show i - 8 < 16 by omega,
      show 8 + (i - 8) = i by omega]

/-- Vectors lie above the stack. -/
theorem not_mem_pushedAt {addr : U16} (h : 0x200 ≤ addr.toNat) (sp : U8) :
    addr ∉ pushedAt sp := by
  have hne : ∀ t : U8, addr ≠ stackAddr t := by
    intro t ht
    have ht := ht ▸ toNat_stackAddr t
    have hlt := t.isLt
    omega
  simp only [pushedAt, List.mem_cons, List.not_mem_nil, or_false, not_or]
  exact ⟨hne _, hne _, hne _⟩

/-- Where `vector` points. -/
def FlatMemory.target (m : FlatMemory) (vector : U16) : U16 :=
  word (m.read vector) (m.read (vector + 1))

namespace Machine

/-- The machine after a service. -/
def serviced (m : Machine FlatMemory) (vector : U16) : Machine FlatMemory where
  cpu :=
    { m.cpu with
      regs :=
        { m.cpu.regs with
          sp := m.cpu.regs.sp - 1 - 1 - 1
          p := m.cpu.regs.p.insert I
          pc := (m.bus.pushed m.cpu.regs).target vector } }.addCycles 7
  bus := m.bus.pushed m.cpu.regs

/-- The registers an RTI with its opcode fetched leaves. -/
def returned (r : Registers) (m : FlatMemory) : Registers :=
  { r with
    sp := r.sp + 1 + 1 + 1
    p := Status.pulled (m.read (stackAddr (r.sp + 1)))
    pc := word (m.read (stackAddr (r.sp + 1 + 1)))
      (m.read (stackAddr (r.sp + 1 + 1 + 1))) }

/-- RTI takes back what was pushed. -/
theorem instruction_rti {m : Machine FlatMemory}
    (hop : m.bus.read m.cpu.regs.pc = 0x40) :
    (Exec.instruction m).2.cpu.regs = returned m.cpu.regs m.bus
      ∧ (Exec.instruction m).2.bus = m.bus := by
  have hfetch : Exec.fetchByte m
      = (.ok 0x40, { m with cpu.regs.pc := m.cpu.regs.pc + 1 }) :=
        congrArg (fun b => (Except.ok b, _)) hop
  have hinfo : OPCODES 0x40 = .op .RTI .implied 6 false := rfl
  rw [Exec.instruction, Fallible.bind_of_ok hfetch, Exec.dispatch, hinfo]
  exact ⟨rfl, rfl⟩

/-- A service and the RTI give the registers back. -/
theorem returned_serviced (m : Machine FlatMemory) (vector : U16)
    (hp : m.cpu.regs.p.Settled) :
    returned (m.serviced vector).cpu.regs (m.serviced vector).bus
      = m.cpu.regs := by
  have hone : ∀ sp : U8,
    sp - 1 + 1 = sp := fun sp => BitVec.sub_add_cancel sp 1
  have hsp : (m.serviced vector).cpu.regs.sp = m.cpu.regs.sp - 1 - 1 - 1 := rfl
  have hbus : (m.serviced vector).bus = m.bus.pushed m.cpu.regs := rfl
  rw [returned, hsp, hone, hone, hone, hbus, FlatMemory.pushed_status,
    FlatMemory.pushed_low, FlatMemory.pushed_high, word_halves,
    hp.pulled_pushed]
  rfl

/-- Calls that move the IRQ line only. -/
def IrqMoves (ls : List Call) : Prop := ∀ c ∈ ls, ∃ level, c = .setIrq level

/-- They leave all but the line as it is. -/
theorem run_irqMoves {ls : List Call} (h : IrqMoves ls)
    (m : Machine FlatMemory) :
    ∃ level, run ls m = { m with cpu.irqLine := level } := by
  induction ls generalizing m with
  | nil => exact ⟨m.cpu.irqLine, rfl⟩
  | cons c ls ih =>
    obtain ⟨level, rfl⟩ := h c List.mem_cons_self
    exact ih (fun d hd => h d (List.mem_cons_of_mem _ hd)) _

/-- The service that a step came to. -/
def Serves (m : Machine β) (vector : U16) : Prop :=
  (m.event .step = .nmi ∧ vector = NMI_VECTOR)
    ∨ (m.event .step = .irq ∧ vector = IRQ_VECTOR)

/-- A machine that is serviced is not halted. -/
theorem Serves.not_halted {m : Machine FlatMemory} {vector : U16}
    (h : m.Serves vector) : m.cpu.halted = false := by
  rcases h with ⟨h, -⟩ | ⟨h, -⟩
  · exact ((event_nmi_iff m).1 h).1
  · exact ((event_irq_iff m).1 h).1

/-- A service, as a step. -/
theorem Serves.call {m : Machine FlatMemory} {vector : U16}
    (h : m.Serves vector) :
    m.call .step = { m with cpu.nmiPending := false }.serviced vector := by
  show (Exec.step m).2 = _
  rw [step_eq]
  rcases h with ⟨h, rfl⟩ | ⟨h, rfl⟩
  · rw [h]
    rfl
  · have hclear : m.cpu.nmiPending = false :=
      Bool.eq_false_iff.2 ((event_irq_iff m).1 h).2.1
    rw [h, ← hclear]
    rfl

/-- A vector that a service reads lies above the stack. -/
theorem Serves.vector {m : Machine FlatMemory} {vector : U16}
    (h : m.Serves vector) :
    0x200 ≤ vector.toNat ∧ 0x200 ≤ (vector + 1).toNat := by
  rcases h with ⟨-, rfl⟩ | ⟨-, rfl⟩ <;> decide

/-- With interrupts masked and nothing latched a step is an instruction. -/
theorem event_masked {m : Machine FlatMemory} (hhalted : m.cpu.halted = false)
    (hnmi : m.cpu.nmiPending = false)
    (hi : m.cpu.regs.p.contains I = true) : m.event .step = .instruction := by
  rw [event, hhalted, hnmi, hi, Bool.not_true, Bool.and_false]
  rfl

/-- A service whose handler is an RTI that the pushes do not overwrite gives
the registers back, whatever the IRQ line does in between, and changes only
the three bytes. -/
def RoundTrips (m : Machine FlatMemory) : Prop :=
  ∀ vector, m.Serves vector → m.bus.read (m.bus.target vector) = 0x40 →
    m.bus.target vector ∉ pushedAt m.cpu.regs.sp → ∀ ls, IrqMoves ls →
      (run (.step :: ls ++ [.step]) m).cpu.regs = m.cpu.regs
        ∧ ∀ addr, addr ∉ pushedAt m.cpu.regs.sp →
          (run (.step :: ls ++ [.step]) m).bus.read addr = m.bus.read addr

/-- Service and RTI undo each other. -/
theorem roundTrips {m : Machine FlatMemory} (hp : m.cpu.regs.p.Settled) :
    m.RoundTrips := by
  intro vector hserves hop hnot ls hls
  obtain ⟨level, hmoved⟩ :=
    run_irqMoves hls ({ m with cpu.nmiPending := false }.serviced vector)
  obtain ⟨u, hu⟩ : ∃ u,
    run ls ({ m with cpu.nmiPending := false }.serviced vector) = u := ⟨_, rfl⟩
  have hrun : run (.step :: ls ++ [.step]) m = u.call .step := by
    rw [run_concat, run, List.foldl_cons, hserves.call]
    exact congrArg (call · .step) hu
  rw [hu] at hmoved
  have hregs : u.cpu.regs = (m.serviced vector).cpu.regs := by
    rw [hmoved]
    rfl
  have hbus : u.bus = m.bus.pushed m.cpu.regs := by
    rw [hmoved]
    rfl
  have hevent : u.event .step = .instruction := by
    refine event_masked ?_ ?_ ?_
    · rw [hmoved]
      exact hserves.not_halted
    · rw [hmoved]
      rfl
    · rw [hregs]
      exact Status.contains_set m.cpu.regs.p (by decide) true
  have htarget : u.cpu.regs.pc = m.bus.target vector := by
    rw [hregs]
    show (m.bus.pushed m.cpu.regs).target vector = _
    rw [FlatMemory.target,
      FlatMemory.pushed_other (not_mem_pushedAt hserves.vector.1 _),
      FlatMemory.pushed_other (not_mem_pushedAt hserves.vector.2 _),
      FlatMemory.target]
  have hopcode : u.bus.read u.cpu.regs.pc = 0x40 := by
    rw [hbus, htarget, FlatMemory.pushed_other hnot, hop]
  have hcall : u.call .step = (Exec.instruction u).2 := by
    show (Exec.step u).2 = _
    rw [step_eq, hevent]
    rfl
  obtain ⟨hback, hsame⟩ := instruction_rti hopcode
  rw [hrun, hcall, hback, hsame, hregs, hbus]
  refine ⟨returned_serviced m vector hp,
    fun addr haddr => FlatMemory.pushed_other haddr⟩

end Machine

-- ======== the protocol

open Machine (run trace boot)

/-- The state after the calls `h`, and what the next call comes to. -/
structure ProtocolLaw {β : Type} [Bus β] (bus : β) (h : List Call) : Prop where
  settled : (run h (boot bus)).cpu.regs.p.Settled
  edge : ∀ level, (run h (boot bus)).event (.setNmi level) = .edge
    ↔ level = false ∧ ¬NmiLow (trace h (boot bus))
  idle : (run h (boot bus)).event .step = .idle
    ↔ (run h (boot bus)).cpu.halted = true
  /-- A step services an NMI exactly when it is the first live one after an
  edge that no reset dropped. -/
  nmi : (run h (boot bus)).event .step = .nmi
    ↔ (run h (boot bus)).cpu.halted = false ∧ Latched (trace h (boot bus))
  irq : (run h (boot bus)).event .step = .irq
    ↔ (run h (boot bus)).cpu.halted = false ∧ ¬Latched (trace h (boot bus))
      ∧ IrqAsserted (trace h (boot bus))
      ∧ (run h (boot bus)).cpu.regs.p.contains I = false
  does : Exec.step (run h (boot bus))
    = (run h (boot bus)).does ((run h (boot bus)).event .step)

/-- The protocol law of any history. -/
theorem protocolLaw {β : Type} [Bus β] (bus : β) (h : List Call) :
    ProtocolLaw bus h := by
  have htracks := tracks_run bus h
  refine ⟨htracks.settled, fun level => ?_, ?_, ?_, ?_, Machine.step_eq _⟩
  · rw [← htracks.prevNmi]
    show (if _ then Event.edge else Event.level) = .edge ↔ _
    cases (run h (boot bus)).cpu.prevNmi <;> cases level <;> decide
  · exact Machine.event_idle_iff _
  · rw [← htracks.nmiPending]
    exact Machine.event_nmi_iff _
  · rw [← htracks.nmiPending, ← htracks.irqLine]
    exact Machine.event_irq_iff _

/-- Over every sequence of calls, with any machine on the bus; the round trip
with a flat memory. -/
theorem interrupt_protocol {β : Type} [Bus β] (bus : β)
    (mem : FlatMemory) (h : List Call) :
    ProtocolLaw bus h ∧ (run h (boot mem)).RoundTrips :=
  ⟨protocolLaw bus h, Machine.roundTrips (tracks_run mem h).settled⟩

/-- An edge before a reset is not serviced after it. -/
theorem edge_dropped_by_reset :
    Since (fun x : Call × Event => x.2 = .edge) (·.2.Live)
      (trace [.setNmi false, .reset] (boot FlatMemory.new))
      ∧ (run [.setNmi false, .reset] (boot FlatMemory.new)).cpu.halted = false
      ∧ (run [.setNmi false, .reset] (boot FlatMemory.new)).event .step
        = .instruction := by
  refine ⟨⟨[], (.setNmi false, .edge), [(.reset, .reset)], rfl, rfl, fun y hy => ?_⟩, rfl, rfl⟩
  rw [List.mem_singleton.1 hy]
  rintro (h | h | h) <;> cases h

end Remu.Mos6502
