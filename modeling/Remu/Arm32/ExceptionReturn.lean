/-
Exceptions are transparent.

An exception is taken from a step: an interrupt line at the boundary, or an
instruction that traps. What it saves is the CPSR, in the SPSR of its own
bank, and the address to go back to, in the LR of its own bank and as far
off as the return instruction takes off again. A handler that keeps both,
and every register not banked for it, ends with that instruction; the CPSR
it restores then decides the state and the bank in which the PC is loaded,
and the interrupted program goes on as if nothing had happened.
-/
import Remu.Arm32.Banking

namespace Remu.Arm32

variable {β : Type} [Bus β]

-- ======== executing a step

/-- An address as the prefetch unit aligns it. -/
def alignedPc (thumb : Bool) (a : U32) : U32 :=
  a &&& (if thumb then ~~~1 else ~~~3)

namespace Core

/-- The address of the instruction at the boundary. -/
def fetchPc (c : Core) : U32 := alignedPc c.regs.cpsr.t (c.gpr 15)

/-- An FIQ is pending and not masked. -/
def fiqDue (c : Core) : Bool := c.events &&& EVT_FIQ != 0 && !c.regs.cpsr.f

/-- An IRQ is pending and not masked. -/
def irqDue (c : Core) : Bool := c.events &&& EVT_IRQ != 0 && !c.regs.cpsr.i

/-- The core as instruction `d` finds it. -/
structure Begun (c : Core) (d : DecodedInsn) (c₀ : Core) : Prop where
  regs : c₀.regs = c.regs.setGpr 15 (c.fetchPc + d.len.setWidth 32)
  trapSwi : c₀.trapSwi = c.trapSwi
  trapFaults : c₀.trapFaults = c.trapFaults

end Core

/-- The next step executes instruction `d`. -/
structure Executes (m : Machine β) (d : DecodedInsn) : Prop where
  noFiq : m.toCore.fiqDue = false
  noIrq : m.toCore.irqDue = false
  awake : m.halted = false
  fetched : (fetch m.regs.cpsr.t m.toCore.fetchPc m).1 = .ok d

/-- The registers an instruction leaves, its fault disposed of. -/
def settled : Except Exception U32 × Machine β → Registers
  | (.ok _, m) => m.regs
  | (.error e, m) => (m.toCore.faultEpilogue e).regs

/-- A fetch changes the bus and the cache and not the core. -/
theorem fetchFresh_core (thumb : Bool) (pc : U32) (m : Machine β) :
    ∃ d b, ∀ c, fetchFresh thumb pc { m with toCore := c }
      = (.ok d, { m with toCore := c, bus := b }) := by
  cases thumb with
  | true =>
    exact ⟨decodeThumb (Bus.read16 m.bus pc).1,
      (Bus.read16 m.bus pc).2, fun _ => rfl⟩
  | false =>
    exact ⟨decodeArm (Bus.read32 m.bus pc).1,
      (Bus.read32 m.bus pc).2, fun _ => rfl⟩

/-- Fetching neither reads nor changes the core. -/
theorem fetch_core (thumb : Bool) (pc : U32) (m : Machine β) (c : Core) :
    fetch thumb pc { m with toCore := c }
      = ((fetch thumb pc m).1, { (fetch thumb pc m).2 with toCore := c }) := by
  obtain ⟨d, b, hfresh⟩ := fetchFresh_core thumb pc m
  have hself : fetchFresh thumb pc m = (.ok d, { m with bus := b }) :=
    hfresh m.toCore
  unfold fetch
  rw [hself, hfresh c]
  by_cases hhit :
    (!m.fusedOnly && m.icache.hit (ICache.keyOf pc thumb)
    (ICache.entrySlot pc) pc) = true
  · rw [if_pos hhit, if_pos hhit]
  · rw [if_neg hhit, if_neg hhit]
    dsimp only
    by_cases hfused : (!m.fusedOnly) = true
    · rw [if_pos hfused, if_pos hfused]
    · rw [if_neg hfused, if_neg hfused]

omit [Bus β] in
/-- The registers after a step, whichever way it ends. -/
theorem regs_settled (out : Except Exception U32 × Machine β) :
    (match out with
      | (.ok cycles, m) => (cycles, m)
      | (.error e, m) =>
        (EXCEPTION_CYCLES,
          { m with toCore := m.toCore.faultEpilogue e })).2.regs
        = settled out := by
  rcases out with ⟨_ | _, _⟩ <;> rfl

/-- A step runs the record it fetches. -/
theorem execOne_executes {m : Machine β} {d : DecodedInsn}
    (h : (fetch m.regs.cpsr.t m.toCore.fetchPc m).1 = .ok d) :
    ∃ m₀ : Machine β, m.toCore.Begun d m₀.toCore
      ∧ (execOne m).2.regs = settled (execDecoded d m₀) := by
  have hfetch := fetch_core m.regs.cpsr.t m.toCore.fetchPc m
    { m.toCore with thumb := m.regs.cpsr.t, startPc := m.toCore.fetchPc }
  rw [h] at hfetch
  have hbody : execBody m.regs.cpsr.t m.toCore.fetchPc m
      = execDecoded d { (fetch m.regs.cpsr.t m.toCore.fetchPc m).2 with
        toCore := { m.toCore with thumb := m.regs.cpsr.t, startPc := m.toCore.fetchPc }.setGpr 15
          (m.toCore.fetchPc + d.len.setWidth 32) } := by
    rw [execBody, Fallible.bind_of_ok (show onCore _ m = (.ok (), _) from rfl),
      Fallible.bind_of_ok hfetch,
      Fallible.bind_of_ok (show onCore _ _ = (.ok (), _) from rfl)]
  refine ⟨{ (fetch m.regs.cpsr.t m.toCore.fetchPc m).2 with
    toCore := { m.toCore with thumb := m.regs.cpsr.t, startPc := m.toCore.fetchPc }.setGpr 15
      (m.toCore.fetchPc + d.len.setWidth 32) }, ⟨rfl, rfl, rfl⟩, ?_⟩
  rw [← hbody]
  exact regs_settled _

/-- Dropping a stale host trap leaves the lines as they are. -/
theorem events_lines (events : U8) :
    events &&& ~~~EVT_HOST_TRAP &&& EVT_FIQ = events &&& EVT_FIQ
      ∧ events &&& ~~~EVT_HOST_TRAP &&& EVT_IRQ = events &&& EVT_IRQ := by
  constructor
  · rw [BitVec.and_assoc]
    rfl
  · rw [BitVec.and_assoc]
    rfl

/-- The slow path, by what is due. -/
theorem stepSlow_eq (m : Machine β) :
    (stepSlow m).2
      = let m' := { m with events := m.events &&& ~~~EVT_HOST_TRAP }
        if m.toCore.fiqDue then { m' with toCore := m'.toCore.deliver .fiq }
        else if m.toCore.irqDue
          then { m' with toCore := m'.toCore.deliver .irq }
        else if m.halted then { m' with toCore := m'.toCore.charge 1 }
        else (stepFast m').2 := by
  obtain ⟨hfiq, hirq⟩ := events_lines m.events
  rw [stepSlow]
  dsimp only
  rw [hfiq, hirq]
  by_cases h : m.toCore.fiqDue = true
  · rw [if_pos h,
      if_pos (show (m.events &&& EVT_FIQ != 0 && !m.regs.cpsr.f)
      = true from h)]
  · rw [if_neg h,
      if_neg (show ¬ (m.events &&& EVT_FIQ != 0 && !m.regs.cpsr.f)
      = true from h)]
    by_cases h' : m.toCore.irqDue = true
    · rw [if_pos h',
        if_pos (show (m.events &&& EVT_IRQ != 0 && !m.regs.cpsr.i)
        = true from h')]
    · rw [if_neg h',
        if_neg (show ¬ (m.events &&& EVT_IRQ != 0 && !m.regs.cpsr.i)
        = true from h')]
      by_cases h'' : m.halted = true
      · rw [if_pos h'', if_pos h'']
      · rw [if_neg h'', if_neg h'']

/-- A due line is an event. -/
theorem boundaryPending_of_event {c : Core} {k : U8} (h : c.events &&& k ≠ 0) :
    c.boundaryPending = true := by
  have hne : c.events ≠ 0 := by
    intro h0
    rw [h0] at h
    simp at h
  rw [Core.boundaryPending, Bool.or_eq_true, bne_iff_ne]
  exact .inl hne

/-- The boundary passes on to the instruction. -/
theorem step_executes {m : Machine β} {d : DecodedInsn} (h : Executes m d) :
    ∃ m₀ : Machine β, m.toCore.Begun d m₀.toCore
      ∧ (step m).2.regs = settled (execDecoded d m₀) := by
  obtain ⟨hfiq, hirq, hawake, hfetched⟩ := h
  by_cases hpending : m.boundaryPending = true
  · have hfetched' : (fetch m.regs.cpsr.t m.toCore.fetchPc
        { m with toCore := { m.toCore with
          events := m.events &&& ~~~EVT_HOST_TRAP } }).1 = .ok d := by
      rw [fetch_core]
      exact hfetched
    obtain ⟨m₀, hbegun, hsettled⟩ := execOne_executes hfetched'
    refine ⟨m₀, ⟨hbegun.regs, hbegun.trapSwi, hbegun.trapFaults⟩, ?_⟩
    rw [← hsettled, step, if_pos hpending, stepSlow_eq]
    dsimp only
    rw [if_neg (by rw [hfiq]; exact Bool.false_ne_true),
      if_neg (by rw [hirq]; exact Bool.false_ne_true),
      if_neg (by rw [hawake]; exact Bool.false_ne_true)]
    rfl
  · have hfast : (step m).2.regs = (execOne m).2.regs := by
      rw [step, if_neg hpending]
      rfl
    rw [hfast]
    exact execOne_executes hfetched

-- ======== the entries

/-- The exception is taken by the next step, and the address at which the
interrupted program is to go on: the instruction at the boundary for an
interrupt, the one behind it for a trap. -/
inductive Takes (m : Machine β) : Exception → U32 → Prop
  | fiq (hdue : m.toCore.fiqDue = true) : Takes m .fiq m.toCore.fetchPc
  | irq (hfiq : m.toCore.fiqDue = false) (hdue : m.toCore.irqDue = true) :
    Takes m .irq m.toCore.fetchPc
  | swi {d : DecodedInsn} (h : Executes m d) (hop : d.op = .swi)
      (hcond : m.toCore.condPass d.cond = true) (htrap : m.trapSwi = false) :
      Takes m .swi
        (alignedPc m.regs.cpsr.t (m.toCore.fetchPc + d.len.setWidth 32))
  | undefined {d : DecodedInsn} (h : Executes m d) (hop : d.op = .undef)
      (hcond : m.toCore.condPass d.cond = true)
      (htrap : m.trapFaults = false) :
      Takes m .undefined
        (alignedPc m.regs.cpsr.t (m.toCore.fetchPc + d.len.setWidth 32))

/-- How far past the address to go back to the LR is. -/
def lrOffset : Exception → U32
  | .irq => 4
  | .fiq => 4
  | _ => 0

/-- Apart from the PC, `c` has the registers of `r`. -/
structure AtEntry (r : Registers) (c : Core) : Prop where
  cpsr : c.regs.cpsr = r.cpsr
  spsr : c.regs.spsr = r.spsr
  file : ∀ x, x ≠ .pc → c.regs.file x = r.file x

/-- The registers themselves stand at the entry. -/
theorem AtEntry.of_regs {r : Registers} {c : Core} (h : c.regs = r) :
    AtEntry r c := by
  subst h
  exact ⟨rfl, rfl, fun _ _ => rfl⟩

/-- Only the PC may differ. -/
theorem AtEntry.setGpr {r : Registers} {c : Core} {v : U32}
    (h : c.regs = r.setGpr 15 v) : AtEntry r c := by
  refine ⟨?_, ?_, ?_⟩
  · rw [h]
    rfl
  · rw [h]
    rfl
  · intro x hx
    rw [h, Registers.file_setGpr]
    exact upd_other _ _ hx

-- An instruction whose condition passes, by its operation.

section Executed

variable {m : Machine β} {d : DecodedInsn}
  (hcond : m.toCore.condPass d.cond = true)
include hcond

/-- An SWI record runs `execSwi`. -/
theorem execDecoded_swi (hop : d.op = .swi) :
    execDecoded d m = onCore Core.execSwi m := by
  rw [execDecoded,
    Fallible.bind_of_ok (show core m = (.ok m.toCore, m) from rfl), hcond, hop]
  rfl

theorem execDecoded_undef (hop : d.op = .undef) :
    execDecoded d m = (.error Exception.undefined, m) := by
  rw [execDecoded,
    Fallible.bind_of_ok (show core m = (.ok m.toCore, m) from rfl), hcond, hop]
  rfl

/-- A data-processing record runs `execDp`. -/
theorem execDecoded_dp (hop : d.op = .dpImm ∨ d.op = .dpShImm) :
    execDecoded d m = onCore (Core.execDp d) m := by
  rw [execDecoded,
    Fallible.bind_of_ok (show core m = (.ok m.toCore, m) from rfl), hcond]
  rcases hop with hop | hop
  · rw [hop]
    rfl
  · rw [hop]
    rfl

end Executed

namespace Core.Begun

variable {c c₀ : Core} {d : DecodedInsn}

/-- A condition passes by the flags, which the fetch leaves. -/
theorem condPass (h : c.Begun d c₀) (hcond : c.condPass d.cond = true) :
    c₀.condPass d.cond = true := by
  rw [Core.condPass, h.regs]
  exact hcond

/-- The PC leads to the next instruction. -/
theorem gpr_pc (h : c.Begun d c₀) :
    c₀.gpr 15 = c.fetchPc + d.len.setWidth 32 := by
  rw [Core.gpr, h.regs]
  exact upd_same c.regs.gpr 15 _

end Core.Begun

/-- The entry: the exception is raised on the interrupted registers, and
its return address leads back. -/
theorem Takes.entry {m : Machine β} {e : Exception} {pc : U32}
    (h : Takes m e pc) :
    ∃ c, AtEntry m.regs c ∧ (step m).2.regs = (c.raise e).regs
      ∧ alignedPc m.regs.cpsr.t (c.returnAddress e - lrOffset e) = pc := by
  have hback : ∀ a : U32, a + 4 - 4 = a := fun a => BitVec.add_sub_cancel a 4
  cases h with
  | fiq hdue =>
    have hevent : m.events &&& EVT_FIQ ≠ 0 := by
      rw [Core.fiqDue, Bool.and_eq_true, bne_iff_ne] at hdue
      exact hdue.1
    refine ⟨{ m.toCore with
      events := m.events &&& ~~~EVT_HOST_TRAP, halted := false }, .of_regs rfl, ?_, ?_⟩
    · rw [step, if_pos (boundaryPending_of_event hevent), stepSlow_eq, hdue]
      rfl
    · exact congrArg _ (hback _)
  | irq hfiq hdue =>
    have hevent : m.events &&& EVT_IRQ ≠ 0 := by
      rw [Core.irqDue, Bool.and_eq_true, bne_iff_ne] at hdue
      exact hdue.1
    refine ⟨{ m.toCore with
      events := m.events &&& ~~~EVT_HOST_TRAP, halted := false }, .of_regs rfl, ?_, ?_⟩
    · rw [step, if_pos (boundaryPending_of_event hevent),
        stepSlow_eq, hfiq, hdue]
      rfl
    · exact congrArg _ (hback _)
  | @swi d h hop hcond htrap =>
    obtain ⟨m₀, hbegun, hstep⟩ := step_executes h
    refine ⟨m₀.toCore, .setGpr hbegun.regs, ?_, ?_⟩
    · rw [hstep, execDecoded_swi (hbegun.condPass hcond) hop, onCore,
        Core.execSwi, hbegun.trapSwi, htrap]
      rfl
    · show alignedPc _ (m₀.toCore.gpr 15 - 0#32) = _
      rw [BitVec.sub_zero, hbegun.gpr_pc]
  | @undefined d h hop hcond htrap =>
    obtain ⟨m₀, hbegun, hstep⟩ := step_executes h
    refine ⟨m₀.toCore, .setGpr hbegun.regs, ?_, ?_⟩
    · rw [hstep, execDecoded_undef (hbegun.condPass hcond) hop, settled,
        Core.faultEpilogue, hbegun.trapFaults, htrap]
      rfl
    · show alignedPc _ (m₀.toCore.gpr 15 - 0#32) = _
      rw [BitVec.sub_zero, hbegun.gpr_pc]

-- ======== what is saved

/-- A mode switch does not touch the saved status registers. -/
theorem Registers.spsr_setMode (r : Registers) (new : Mode) :
    (r.setMode new).spsr = r.spsr := by
  rw [Registers.setMode]
  by_cases h : r.cpsr.mode = new
  · rw [if_pos h]
  · rw [if_neg h]
    generalize r.cpsr.mode = old
    cases old <;> cases new <;> rfl

namespace Core

/-- An entry is made in the exception's own mode. -/
theorem mode_raise (c : Core) (e : Exception) :
    (c.raise e).regs.cpsr.mode = e.mode := by
  have hmode :
    ((c.regs.setMode e.mode).spsrStore c.regs.cpsr).cpsr.mode = e.mode := by
    rw [Registers.cpsr_spsrStore, Registers.mode_setMode]
  have hflags : ∀ p : Psr,
    ((p.set psr.T false).set psr.I true).mode = p.mode := fun p => by
    rw [Psr.mode_set _ _ (by decide), Psr.mode_set _ _ (by decide)]
  show (if e = .fiq then _ else _ : Psr).mode = _
  by_cases h : e = .fiq
  · rw [if_pos h, Psr.mode_set _ _ (by decide), hflags]
    exact hmode
  · rw [if_neg h, hflags]
    exact hmode

/-- The interrupted CPSR is in the SPSR of the handler's bank. -/
theorem spsr_raise (c : Core) (e : Exception) (b : Fin 5) :
    (c.raise e).regs.spsr b = if e.mode.bank = some b then c.regs.cpsr
      else c.regs.spsr b := by
  show ((c.regs.setMode e.mode).spsrStore c.regs.cpsr).spsr b = _
  rw [Registers.spsrStore, Registers.mode_setMode]
  cases hbank : e.mode.bank with
  | none => rw [if_neg (by simp), Registers.spsr_setMode]
  | some b' =>
    show upd _ b' _ b = _
    rw [Registers.spsr_setMode]
    by_cases h : b = b'
    · rw [h, upd_same, if_pos rfl]
    · rw [upd_other _ _ h, if_neg fun h' => h (Option.some.inj h').symm]

/-- The banked LR is never the PC. -/
theorem arch_lr_ne_pc (m : Mode) : arch m 14 ≠ .pc := by
  cases m <;> decide

/-- The return address is in the LR of the handler's bank. -/
theorem lr_raise (c : Core) (e : Exception) :
    (c.raise e).regs.file (arch e.mode 14) = c.returnAddress e := by
  rw [file_raise, upd_other _ _ (arch_lr_ne_pc e.mode), upd_same]

/-- An entry writes the LR of its mode and the PC, no other register. -/
theorem file_raise_other (c : Core) (e : Exception) {x : Flat}
    (hlr : x ≠ arch e.mode 14) (hpc : x ≠ .pc) :
    (c.raise e).regs.file x = c.regs.file x := by
  rw [file_raise, upd_other _ _ hpc, upd_other _ _ hlr]

end Core

-- ======== the return

/-- SUBS PC, LR, #4 from an interrupt, MOVS PC, LR from a trap. -/
def returnWord : Exception → U32
  | .irq => 0xE25EF004
  | .fiq => 0xE25EF004
  | _ => 0xE1B0F00E

/-- A data operation that writes the PC with S set, in a mode with an SPSR:
the CPSR comes back first and decides how the PC is loaded. -/
theorem execDp_restores {d : DecodedInsn} {c : Core} (hrd : d.rd = 15)
    (hs : (d.aux &&& dp.S != 0) = true)
    (hmode : c.regs.cpsr.mode.hasSpsr = true) {o : U32 × Bool × Bool}
    (halu : Core.aluResult (d.aux &&& dp.OP)
      (if d.op = .dpShReg then c.regOp12 d.rn else c.regOp d.rn)
      (c.operand2 d).1 (c.operand2 d).2 c.regs.cpsr.c c.regs.cpsr.v
        = (o, true)) :
    (c.execDp d).2 = c.restoreCpsr.branchTo o.1 := by
  obtain ⟨r, carry, v⟩ := o
  rw [Core.execDp]
  dsimp only
  rw [halu]
  dsimp only
  rw [hs, hmode, hrd]
  rfl

/-- With the carry set nothing is borrowed. -/
theorem subWithCarry_borrowless (a b : U32) :
    (subWithCarry a b true).1 = a - b := by
  show a + ~~~b + 1#32 = a - b
  rw [BitVec.sub_eq_add_neg, BitVec.neg_eq_not_add, BitVec.add_assoc]

/-- The return instruction restores CPSR and branches to LR less its offset. -/
theorem execDp_return (e : Exception) {c : Core}
    (h : c.regs.cpsr.mode.hasSpsr = true) :
    (c.execDp (decodeArm (returnWord e))).2
      = c.restoreCpsr.branchTo (c.gpr 14 - lrOffset e) := by
  have hsubs : decodeArm 0xE25EF004
      = ⟨.dpImm, 14, 15, 14, 0, 0, aluOp.SUB ||| dp.S, 4, 4⟩ := by decide
  have hmovs : decodeArm 0xE1B0F00E
      = ⟨.dpShImm, 14, 15, 0, 14, 0, aluOp.MOV ||| dp.S, 4, 0⟩ := by decide
  have hfour : (c.execDp (decodeArm 0xE25EF004)).2
    = c.restoreCpsr.branchTo (c.gpr 14 - 4) := by
    rw [hsubs, ← subWithCarry_borrowless]
    exact execDp_restores rfl rfl h rfl
  have hzero : (c.execDp (decodeArm 0xE1B0F00E)).2
    = c.restoreCpsr.branchTo (c.gpr 14 - 0) := by
    rw [hmovs, show c.gpr 14 - 0 = c.gpr 14 from BitVec.sub_zero _]
    exact execDp_restores (o := (c.gpr 14, c.regs.cpsr.c, c.regs.cpsr.v))
      rfl rfl h rfl
  cases e with
  | irq => exact hfour
  | fiq => exact hfour
  | _ => exact hzero

/-- Register `x` is banked for mode `m`: the mode has one of its own under
the number. -/
def Banked (m : Mode) (x : Flat) : Prop :=
  arch m x.number = x ∧ arch .usr x.number ≠ x

/-- What a handler of `e` keeps from its entry to its return: its mode, the
LR and the SPSRs, and the registers of the interrupted program. -/
structure Handled (e : Exception) (entry exit : Registers) : Prop where
  mode : exit.cpsr.mode = entry.cpsr.mode
  lr : exit.gpr 14 = entry.gpr 14
  spsr : exit.spsr = entry.spsr
  file : ∀ x, ¬ Banked e.mode x → x ≠ .pc → exit.file x = entry.file x

/-- A handler may do nothing. -/
theorem Handled.refl (e : Exception) (r : Registers) : Handled e r r :=
  ⟨rfl, rfl, rfl, fun _ _ _ => rfl⟩

/-- The modes of exceptions have an SPSR and an LR of their own. -/
theorem Exception.mode_banked (e : Exception) :
    e.mode.hasSpsr = true ∧ (∃ b, e.mode.bank = some b)
      ∧ Banked e.mode (arch e.mode 14) := by
  cases e <;> refine ⟨rfl, ⟨_, rfl⟩, ?_, ?_⟩ <;> decide

/-- The interrupted program goes on where and as it was. -/
structure Resumes (m : Machine β) (e : Exception) (pc : U32) (m' : Machine β) :
    Prop where
  /-- Mode, T, I, F and the flags: every bit. -/
  cpsr : m'.regs.cpsr = m.regs.cpsr
  pc : m'.toCore.fetchPc = pc
  file : ∀ x, ¬ Banked e.mode x → x ≠ .pc → m'.regs.file x = m.regs.file x
  spsr : ∀ b, e.mode.bank ≠ some b → m'.regs.spsr b = m.regs.spsr b

/-- The next fetch behind a branch. -/
theorem Core.fetchPc_branchTo (c : Core) (a : U32) :
    (c.branchTo a).fetchPc = alignedPc c.regs.cpsr.t a := by
  have hgpr : (c.branchTo a).gpr 15 = if c.regs.cpsr.t
    then a &&& ~~~1 else a :=
    upd_same c.regs.gpr 15 _
  rw [Core.fetchPc, hgpr]
  show alignedPc c.regs.cpsr.t _ = _
  cases c.regs.cpsr.t with
  | true =>
    show a &&& ~~~1 &&& ~~~1 = a &&& ~~~1
    rw [BitVec.and_assoc, BitVec.and_self]
  | false => rfl

/-- In a handler the restored CPSR is the saved one. -/
theorem Core.restoreCpsr_eq {c : Core} {b : Fin 5}
    (h : c.regs.cpsr.mode.bank = some b) :
    c.restoreCpsr = c.installCpsr (c.regs.spsr b) := by
  rw [Core.restoreCpsr, Registers.spsrBanked, h]
  rfl

/-- The return instruction at the end of a handler. -/
theorem step_return {h : Machine β} {e : Exception}
    (hmode : h.regs.cpsr.mode = e.mode)
    (hreturn : Executes h (decodeArm (returnWord e))) {b : Fin 5}
    (hbank : e.mode.bank = some b) :
    ∃ c, AtEntry h.regs c ∧ c.regs.gpr 14 = h.regs.gpr 14
      ∧ (step h).2.regs
        = ((c.installCpsr (h.regs.spsr b)).branchTo
        (h.regs.gpr 14 - lrOffset e)).regs := by
  obtain ⟨m₀, hbegun, hstep⟩ := step_executes hreturn
  have hentry : AtEntry h.regs m₀.toCore := .setGpr hbegun.regs
  have hlr : m₀.regs.gpr 14 = h.regs.gpr 14 := by
    rw [hbegun.regs]
    exact upd_other h.regs.gpr
      (h.toCore.fetchPc + (decodeArm (returnWord e)).len.setWidth 32)
      (show (14 : Fin 16) ≠ 15 by decide)
  have hmode₀ : m₀.regs.cpsr.mode = e.mode := by
    rw [hentry.cpsr, hmode]
  have hcond : m₀.toCore.condPass (decodeArm (returnWord e)).cond = true := by
    cases e <;> rfl
  have hop : (decodeArm (returnWord e)).op = .dpImm
    ∨ (decodeArm (returnWord e)).op = .dpShImm := by
    cases e <;> decide
  refine ⟨m₀.toCore, hentry, hlr, ?_⟩
  have hdp := execDp_return e (c := m₀.toCore)
    (by rw [hmode₀]; exact e.mode_banked.1)
  rw [Core.restoreCpsr_eq (b := b) (by rw [hmode₀, hbank]), hentry.spsr,
    show m₀.toCore.gpr 14 = h.regs.gpr 14 from hlr] at hdp
  rw [hstep, execDecoded_dp hcond hop, ← hdp]
  rfl

/-- An IRQ or FIQ left by SUBS PC, LR, #4, and an SWI or an undefined
instruction left by MOVS PC, LR, are transparent. -/
theorem exception_transparent {m h : Machine β} {e : Exception} {pc : U32}
    (htake : Takes m e pc)
    (hhandled : Handled e (step m).2.regs h.regs)
    (hreturn : Executes h (decodeArm (returnWord e))) :
    Resumes m e pc (step h).2 := by
  obtain ⟨-, ⟨b, hbank⟩, hlrBanked⟩ := e.mode_banked
  obtain ⟨c, hentry, hraise, hback⟩ := htake.entry
  rw [hraise] at hhandled
  have hmode : h.regs.cpsr.mode = e.mode :=
    hhandled.mode.trans (c.mode_raise e)
  obtain ⟨c₀, hexit, -, hstep⟩ := step_return hmode hreturn hbank
  have hsaved : h.regs.spsr b = m.regs.cpsr := by
    rw [hhandled.spsr, c.spsr_raise, if_pos hbank, hentry.cpsr]
  have hlr : h.regs.gpr 14 = c.returnAddress e := by
    rw [hhandled.lr, Registers.gpr_eq_file, c.mode_raise, c.lr_raise]
  rw [hsaved, hlr] at hstep
  refine ⟨?cpsr, ?pc, ?file, ?spsr⟩
  case cpsr =>
    rw [hstep]
    rfl
  case pc =>
    have hfetch :=
      (c₀.installCpsr m.regs.cpsr).fetchPc_branchTo
        (c.returnAddress e - lrOffset e)
    rw [← hback, Core.fetchPc, Core.gpr, hstep]
    exact hfetch
  case file =>
    intro x hx hpc
    have hnotLr : x ≠ arch e.mode 14 := by
      rintro rfl
      exact hx hlrBanked
    rw [hstep, Core.file_branchTo, upd_other _ _ hpc, Core.file_installCpsr,
      hexit.file x hpc, hhandled.file x hx hpc,
      c.file_raise_other e hnotLr hpc, hentry.file x hpc]
  case spsr =>
    intro b' hb'
    rw [hstep]
    show ((c₀.regs.setMode m.regs.cpsr.mode).spsr b') = _
    rw [Registers.spsr_setMode, hexit.spsr, hhandled.spsr, c.spsr_raise,
      if_neg hb', hentry.spsr]

/-- Thumb code of User mode at 0x1002 with the IRQ line driven, and
SUBS PC, LR, #4 at the vector. -/
def irqThumb : Machine LinearMemory :=
  { Cpu.new with
    regs := { Registers.new with
      gpr := fun i => if i = 15 then 0x1002 else 7
      cpsr := ⟨0x90000030⟩ }
    events := EVT_IRQ
    bus := { LinearMemory.withSize 0 with
      ram := fun a => if a = 0x18 then 0x04 else if a = 0x19 then 0xF0
        else if a = 0x1A then 0x5E
        else if a = 0x1B then 0xE2 else 0 } }

/-- Taken from Thumb code and left at once. -/
theorem exception_transparent_thumb :
    (step irqThumb).2.toCore.fetchPc = 0x18
      ∧ Resumes irqThumb .irq 0x1002 (step (step irqThumb).2).2 :=
  ⟨by decide,
    exception_transparent (.irq rfl rfl) (.refl _ _) ⟨rfl, rfl, rfl, rfl⟩⟩

end Remu.Arm32
