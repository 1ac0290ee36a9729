/-
ENTER and LEAVE in the 64-bit core.

ENTER pushes the frame pointer, copies the display of the enclosing frames
from below it, and makes room. Three widths meet here: the operand size sets
the width of a slot and of the frame pointer's step, the mode and SS.B the
width of the stack pointer. The display is read where the frame pointer
points at the operand size, so it is the display only where that is also
where it points at the stack's address size.
-/
import Remu.Lib.Truncated
import Remu.X64.EffectiveAddr
import Remu.X64.Exchange
import Remu.X64.NearCall

namespace Remu.X64

open Word

variable {β : Type} [Bus β]

-- ======== widths

/-- The width of a stack address. -/
def Cpu.stackSize (c : Cpu) : OpSize :=
  if c.m64 then O64 else if (c.regs.seg reg.SS).db then O32 else O16

/-- Wrapping at the stack's width is taking the low bits. -/
theorem Cpu.and_stackWrap (c : Cpu) (x : U64) :
    x &&& c.stackWrap = low c.stackSize.bits x := by
  unfold stackWrap stackSize
  split
  · exact and_mask_eq_low (n := 64) (by decide) x
  · split
    · exact and_mask_eq_low (n := 32) (by decide) x
    · exact and_mask_eq_low (n := 16) (by decide) x

theorem HotRegs.regSized_eq_low (r : HotRegs) (z : OpSize) (i : U8) :
    r.regSized z i = low z.bits (r.gpr (i &&& 15)) := by
  cases z with
  | O16 => rfl
  | O32 => rfl
  | O64 => exact (low_eq_self (by decide) _).symm

theorem Cpu.stackPtr_eq_low (c : Cpu) :
    c.stackPtr = low c.stackSize.bits (c.regs.gpr reg.RSP) := by
  rw [← and_stackWrap]
  unfold stackPtr stackWrap
  split
  · exact BitVec.and_allOnes.symm
  · split <;> rfl

/-- A push goes to the slot below the stack pointer. -/
theorem Cpu.pushOff_eq_slot (c : Cpu) (z : OpSize) :
    c.pushOff z.bytes = slot c.stackSize.bits (c.regs.gpr reg.RSP)
      z.width.bytes 1 := by
  rw [pushOff, and_stackWrap, stackPtr_eq_low,
    low_sub_low (by cases c.stackSize <;> decide), slot, Nat.one_mul]
  cases z <;> rfl

/-- A register written at a size reads back at it. -/
theorem low_setRegSized (r : HotRegs) (z : OpSize) (i : U8) (v : U64) :
    low z.bits ((r.setRegSized z i v).gpr (i &&& 15)) = low z.bits v := by
  rw [← HotRegs.regSized_eq_low, regSized_setRegSized]
  cases z <;> rfl

/-- A register write leaves the others alone. -/
theorem gpr_setRegSized_other (r : HotRegs) (z : OpSize) {i j : U8} (v : U64)
    (h : j ≠ i &&& 15) :
    (r.setRegSized z i v).gpr j = r.gpr j := by
  cases z <;> exact upd_other _ _ h

/-- The stack pointer moves at the stack's width. -/
theorem Cpu.movedSp_eq (c : Cpu) (d : U64) :
    c.movedSp d = (c.regs.setRegSized c.stackSize reg.RSP
      (c.regs.gpr reg.RSP + d)).gpr reg.RSP := by
  have h32 := BitVec.setWidth_add (c.regs.gpr reg.RSP) d
    (show 32 ≤ 64 by decide)
  have h16 := BitVec.setWidth_add (c.regs.gpr reg.RSP) d
    (show 16 ≤ 64 by decide)
  unfold movedSp stackSize
  split
  · rfl
  · split
    · exact congrArg (BitVec.setWidth 64) h32.symm
    · exact congrArg
        (fun v : U16 => (c.regs.gpr reg.RSP &&& ~~~0xFFFF) ||| v.setWidth 64) h16.symm

/-- The stack pointer moves at the stack's width; what lies above it stays. -/
theorem Cpu.low_movedSp (c : Cpu) (d : U64) :
    low c.stackSize.bits (c.movedSp d)
      = low c.stackSize.bits (c.regs.gpr reg.RSP + d) := by
  rw [movedSp_eq]
  exact low_setRegSized _ _ reg.RSP _

/-- The stack pointer moved. -/
def Machine.adjusted (s : Machine β) (d : U64) : Machine β :=
  s.withHot (s.regs.setReg64 reg.RSP (s.movedSp d))

/-- Moving the stack pointer never fails. -/
theorem run_adjust (s : Machine β) (d : U64) :
    (adjustSp d).run s = (.ok (), s.adjusted d) := rfl

omit [Bus β] in
theorem gpr_adjusted (s : Machine β) (d : U64) {i : U8} (hi : i ≠ reg.RSP) :
    (s.adjusted d).regs.gpr i = s.regs.gpr i := upd_other _ _ hi

omit [Bus β] in
/-- A move of the stack pointer is one at the stack's width. -/
theorem low_rsp_adjusted (s : Machine β) (d : U64) :
    low s.stackSize.bits ((s.adjusted d).regs.gpr reg.RSP)
      = low s.stackSize.bits (s.regs.gpr reg.RSP + d) := by
  rw [← s.low_movedSp d, ← HotRegs.rsp_setReg64 s.regs.toHotRegs (s.movedSp d)]
  rfl

-- ======== pushes

/-- The same mode, sizes and segments. -/
structure SameStack (s t : Machine β) : Prop where
  m64 : t.m64 = s.m64
  cold : t.regs.toColdRegs = s.regs.toColdRegs
  decode : t.toDecodeState = s.toDecodeState

namespace SameStack

variable {s t u : Machine β}

omit [Bus β] in
/-- Accesses that leave the stack where it was compose. -/
theorem trans (h : SameStack s t) (h' : SameStack t u) : SameStack s u :=
  ⟨h'.m64.trans h.m64, h'.cold.trans h.cold, h'.decode.trans h.decode⟩

omit [Bus β] in
theorem withHot (s : Machine β) (r : HotRegs) : SameStack s (s.withHot r) :=
  ⟨rfl, rfl, rfl⟩

/-- What works on memory alone leaves the stack where it was. -/
theorem of_memOnly {α : Type} {x : Calm β α} (hx : MemOnly x) {a : α}
    (h : x.run s = (.ok a, t)) :
    SameStack s t := by
  obtain ⟨hr, hd⟩ := hx _ _ _ h
  exact ⟨m64_of_run h, by rw [hr], hd⟩

omit [Bus β] in
/-- What such accesses leave alone. -/
theorem stackSize (h : SameStack s t) : t.stackSize = s.stackSize := by
  unfold Cpu.stackSize
  rw [h.m64, h.cold]

omit [Bus β] in
theorem osize (h : SameStack s t) : t.osize = s.osize := by
  show t.toDecodeState.osize = s.toDecodeState.osize
  rw [h.decode]

omit [Bus β] in
theorem stackOsize (h : SameStack s t) : t.stackOsize = s.stackOsize := by
  unfold Cpu.stackOsize
  rw [h.m64, h.osize]
  unfold Cpu.rexW
  rw [h.decode]

end SameStack

theorem MemOnly.linWrite32 (lin : U64) (v : U32) :
    MemOnly (linWrite32 lin v : Calm β Unit) := by
  unfold X64.linWrite32
  refine MemOnly.self.bind fun s => ?_
  split
  · exact .stampedStore _ _ _ _
  split
  · exact (MemOnly.translate _ _).bind fun _ => .pageStore _ _ _ _ _
  · exact .linWriteSplit _ _ _ _

theorem memOnly_writeSized (z : OpSize) (seg : U8) (off v : U64) :
    MemOnly (writeSized z (.mem seg off) v : Calm β Unit) := by
  cases z
  · exact (MemOnly.linAddr _ _ _ _).bind fun _ => .linWrite16 _ _
  · exact (MemOnly.linAddr _ _ _ _).bind fun _ => .linWrite32 _ _
  · exact (MemOnly.linAddr _ _ _ _).bind fun _ => .linWrite64 _ _

/-- `v` is stored below the stack pointer, and the stack pointer is there. -/
def Machine.Pushes (s : Machine β) (z : OpSize) (v : U64) (t : Machine β) : Prop :=
  ∃ u, (writeSized z (.mem reg.SS (s.pushOff z.bytes)) v).run s = (.ok (), u)
    ∧ t = u.adjusted (-z.bytes)

/-- A push stores first and moves the stack pointer after. -/
theorem run_pushSized (z : OpSize) (v : U64) (s : Machine β) :
    (pushSized z v).run s
      = ((writeSized z (.mem reg.SS (s.pushOff z.bytes)) v).run >>= fun _ =>
        (adjustSp (-z.bytes)).run) s := by
  cases z <;> rfl

/-- When a push succeeds. -/
theorem pushes_iff {z : OpSize} {v : U64} {s t : Machine β} :
    (pushSized z v).run s = (.ok (), t) ↔ s.Pushes z v t := by
  rw [run_pushSized, Fallible.bind_eq_ok]
  constructor
  · rintro ⟨_, u, hu, hsp⟩
    rw [run_adjust] at hsp
    cases hsp
    exact ⟨u, hu, rfl⟩
  · rintro ⟨u, hu, rfl⟩
    exact ⟨(), u, hu, rfl⟩

namespace Machine.Pushes

variable {s t : Machine β} {z : OpSize} {v : U64}

/-- A push does not change the stack's width. -/
theorem sameStack (h : s.Pushes z v t) : SameStack s t := by
  obtain ⟨u, hu, rfl⟩ := h
  exact (SameStack.of_memOnly (memOnly_writeSized _ _ _ _) hu).trans
    (.withHot _ _)

theorem gpr (h : s.Pushes z v t) {i : U8} (hi : i ≠ reg.RSP) :
    t.regs.gpr i = s.regs.gpr i := by
  obtain ⟨u, hu, rfl⟩ := h
  rw [← (memOnly_writeSized _ _ _ _ _ _ _ hu).1]
  exact gpr_adjusted u _ hi

/-- A push takes one slot. -/
theorem low_rsp (h : s.Pushes z v t) :
    low s.stackSize.bits (t.regs.gpr reg.RSP)
      = low s.stackSize.bits
        (s.regs.gpr reg.RSP - BitVec.ofNat 64 z.width.bytes) := by
  have hsize := h.sameStack.stackSize
  obtain ⟨u, hu, rfl⟩ := h
  rw [← hsize, ← (memOnly_writeSized _ _ _ _ _ _ _ hu).1]
  have hbytes : z.bytes = BitVec.ofNat 64 z.width.bytes := by cases z <;> rfl
  rw [BitVec.sub_eq_add_neg, ← hbytes]
  exact low_rsp_adjusted u _

/-- After a push the stack pointer is where the value is. -/
theorem stackPtr (h : s.Pushes z v t) : t.stackPtr = s.pushOff z.bytes := by
  rw [Cpu.stackPtr_eq_low, h.sameStack.stackSize, h.low_rsp,
    Cpu.pushOff_eq_slot, slot, Nat.one_mul]

end Machine.Pushes

-- ======== the display

/-- The walk down the display, with the offsets it reads and the words there. -/
def displayReads : Nat → Calm β (List (U64 × U64))
  | 0 => pure []
  | n + 1 => do
    let s ← self
    writeRegOsize reg.RBP (s.regs.regSized s.osize reg.RBP - s.osize.bytes)
    let s ← self
    let off := s.regs.regSized s.osize reg.RBP
    let v ← readSized s.osize (.mem reg.SS off)
    pushSized s.osize v
    let rest ← displayReads n
    return (off, v) :: rest

/-- It is the walk of the code. -/
theorem displayLoop_eq (n : Nat) :
    (displayLoop n : Calm β Unit) = (fun _ => ()) <$> displayReads n := by
  induction n with
  | zero => rfl
  | succ n ih =>
    rw [displayLoop, displayReads, ih]
    simp only [map_eq_pure_bind, bind_assoc, pure_bind]

/-- The frame pointer one slot down. -/
def Machine.stepped (s : Machine β) : Machine β :=
  s.withHot (s.regs.setRegSized s.osize reg.RBP
    (s.regs.regSized s.osize reg.RBP - s.osize.bytes))

/-- The bytes of a size as a word. -/
theorem OpSize.bytes_eq (z : OpSize) :
    z.bytes = BitVec.ofNat 64 z.width.bytes := by cases z <;> rfl

omit [Bus β] in
/-- The display pointer moves down one slot. -/
theorem low_rbp_stepped (s : Machine β) :
    low s.osize.bits (s.stepped.regs.gpr reg.RBP)
      = low s.osize.bits
        (s.regs.gpr reg.RBP - BitVec.ofNat 64 s.osize.width.bytes) := by
  refine (low_setRegSized _ _ reg.RBP _).trans ?_
  rw [HotRegs.regSized_eq_low, OpSize.bytes_eq]
  exact low_sub_low (OpSize.bits_le _) _ _

/-- One word of the display copied. -/
theorem display_step {s s₁ s₂ : Machine β} {off v : U64}
    (hv : (readSized s.osize (.mem reg.SS off)).run s.stepped = (.ok v, s₁))
    (hpush : (pushSized s.osize v).run s₁ = (.ok (), s₂)) :
    SameStack s s₂
      ∧ low s.osize.bits (s₂.regs.gpr reg.RBP)
        = low s.osize.bits
          (s.regs.gpr reg.RBP - BitVec.ofNat 64 s.osize.width.bytes)
      ∧ low s.stackSize.bits (s₂.regs.gpr reg.RSP)
        = low s.stackSize.bits
          (s.regs.gpr reg.RSP - BitVec.ofNat 64 s.osize.width.bytes) := by
  have hread := SameStack.of_memOnly (MemOnly.readSized _ _) hv
  have hregs := (MemOnly.readSized _ _ _ _ _ hv).1
  have hstore := pushes_iff.mp hpush
  have hrsp : s.stepped.regs.gpr reg.RSP = s.regs.gpr reg.RSP :=
    gpr_setRegSized_other _ _ _ (by decide)
  refine ⟨(SameStack.withHot s _).trans (hread.trans hstore.sameStack), ?_, ?_⟩
  · rw [hstore.gpr (by decide), hregs, low_rbp_stepped]
  · have hlow := hstore.low_rsp
    rwa [hread.stackSize, hregs, hrsp,
      show s.stepped.stackSize = s.stackSize from rfl] at hlow

/-- The offsets are the slots below the frame pointer, at the operand size. -/
theorem displayReads_spec {n : Nat} {s t : Machine β}
    {reads : List (U64 × U64)} (h : (displayReads n).run s = (.ok reads, t)) :
    SameStack s t
      ∧ reads.map Prod.fst
        = (List.range n).map
          (fun i => slot s.osize.bits (s.regs.gpr reg.RBP)
          s.osize.width.bytes (i + 1))
      ∧ low s.stackSize.bits (t.regs.gpr reg.RSP)
        = slot s.stackSize.bits (s.regs.gpr reg.RSP)
          s.osize.width.bytes n := by
  induction n generalizing s reads with
  | zero =>
    cases h
    exact ⟨⟨rfl, rfl, rfl⟩, rfl, (slot_zero _ _).symm⟩
  | succ n ih =>
    simp only [displayReads, Bounded.run_bind, Fallible.bind_eq_ok] at h
    obtain ⟨_, _, hself, _, s₁, hstep, _, _, hself', v, s₂, hv, _, s₃, hpush,
      rest, s₄, hrest, hret⟩ := h
    cases hself
    cases hself'
    cases hstep
    cases hret
    obtain ⟨hsame, hbp, hsp⟩ := display_step (s := s) hv hpush
    obtain ⟨hsame', hoffs, hsp'⟩ := ih hrest
    rw [hsame.osize] at hoffs hsp'
    rw [hsame.stackSize] at hsp'
    refine ⟨hsame.trans hsame', ?_,
      hsp'.trans (slot_of_step (OpSize.bits_le _) hsp n)⟩
    rw [List.range_succ_eq_map, List.map_cons, List.map_cons,
      List.map_map, hoffs]
    refine congrArg₂ List.cons ?_
      (List.map_congr_left fun i _ =>
      slot_of_step (OpSize.bits_le _) hbp (i + 1))
    rw [slot, Nat.zero_add, Nat.one_mul, ← low_rbp_stepped]
    exact HotRegs.regSized_eq_low _ _ _

-- ======== ENTER

/-- ENTER through the states it passes: the frame pointer pushed (`s₀`), the
display copied (`s₁`) and the new frame pointer after it (`s₂`). The display
is read from the slots `off`. -/
structure Enters (off : Nat → U64) (alloc : U64) (level : Nat)
    (s s₀ s₁ s₂ t : Machine β) (reads : List (U64 × U64)) : Prop where
  saved : s.Pushes s.osize (s.regs.gpr reg.RBP) s₀
  copied : (displayReads (level - 1)).run s₀ = (.ok reads, s₁)
  slots : reads.map Prod.fst
    = (List.range (level - 1)).map fun i => off (i + 1)
  framed : if level = 0 then s₂ = s₁ else s₁.Pushes s.osize s₀.stackPtr s₂
  memory : t = s₂.withHot t.regs.toHotRegs
  pointer : t.regs.regSized s.osize reg.RBP = low s.osize.bits s₀.stackPtr
  top : t.stackPtr
    = low s.stackSize.bits
    (slot s.stackSize.bits s₀.stackPtr s.osize.width.bytes level - alloc)

/-- ENTER with the display where it belongs: below the old frame pointer at
the stack's address size. -/
def EnterLaw (alloc : U64) (level : Nat) (s t : Machine β) : Prop :=
  ∃ s₀ s₁ s₂ reads,
    Enters (slot s.stackSize.bits (s.regs.gpr reg.RBP) s.osize.width.bytes)
    alloc level s s₀ s₁ s₂ t reads

/-- The slots of the display are the same at the operand size. -/
def Machine.DisplayInReach (s : Machine β) (level : Nat) : Prop :=
  level ≤ 1 ∨ s.osize = s.stackSize
    ∨ ((level - 1) * s.osize.width.bytes
        ≤ (low (max s.osize.bits s.stackSize.bits) (s.regs.gpr reg.RBP)).toNat
      ∧ (low (max s.osize.bits s.stackSize.bits) (s.regs.gpr reg.RBP)).toNat
        < 2 ^ min s.osize.bits s.stackSize.bits + s.osize.width.bytes)

/-- A display loop that ends has read the pointers it copies. -/
theorem reads_of_displayLoop {n : Nat} {s t : Machine β} {u : Unit}
    (h : (displayLoop n).run s = (.ok u, t)) :
    ∃ reads, (displayReads n).run s = (.ok reads, t) := by
  rw [displayLoop_eq, Bounded.run_map, Fallible.map_apply] at h
  rcases hrun :
    (displayReads n).run s with ⟨e | reads, t'⟩ <;> rw [hrun] at h <;> cases h
  exact ⟨reads, rfl⟩

/-- Where ENTER does read the display. -/
theorem enter_cases {alloc : U64} {level : Nat} {s t : Machine β}
    (hz : s.stackOsize = s.osize)
    (h : (enter alloc level).run s = (.ok (), t)) :
    ∃ s₀ s₁ s₂ reads,
      Enters (slot s.osize.bits (s.regs.gpr reg.RBP) s.osize.width.bytes)
      alloc level s s₀ s₁ s₂ t reads := by
  simp only [enter, Bounded.run_bind, Fallible.bind_eq_ok] at h
  obtain ⟨_, _, hself, _, s₀, hpush, _, _, hself', _, s₂, hdisplay, _,
    s₃, hbp, hsp⟩ := h
  cases hself
  cases hself'
  cases hbp
  cases hsp
  have hsaved : s.Pushes s.osize (s.regs.gpr reg.RBP) s₀ := by
    rw [← pushes_iff, ← hz]
    exact hpush
  have hbase := hsaved.sameStack
  obtain ⟨s₁, reads, hcopied, hframed⟩ : ∃ s₁ reads,
      (displayReads (level - 1)).run s₀ = (.ok reads, s₁)
      ∧ if level = 0 then s₂ = s₁ else s₁.Pushes s.osize s₀.stackPtr s₂ := by
    rcases Nat.eq_zero_or_pos level with rfl | hpos
    · cases hdisplay
      exact ⟨_, [], rfl, rfl⟩
    · rw [whenever, if_pos hpos, Bounded.run_bind,
        Fallible.bind_eq_ok] at hdisplay
      obtain ⟨_, s₁, hloop, hframe⟩ := hdisplay
      obtain ⟨reads, hreads⟩ := reads_of_displayLoop hloop
      refine ⟨s₁, reads, hreads, ?_⟩
      rw [if_neg (by omega), ← pushes_iff, ← hz,
        ← (hbase.trans (displayReads_spec hreads).1).stackOsize]
      exact hframe
  obtain ⟨hsame, hslots, hsp⟩ := displayReads_spec hcopied
  rw [hbase.osize, hsaved.gpr (by decide)] at hslots
  rw [hbase.osize, hbase.stackSize] at hsp
  have hstack : SameStack s s₂ ∧ low s.stackSize.bits (s₂.regs.gpr reg.RSP)
      = slot s.stackSize.bits (s₀.regs.gpr reg.RSP)
        s.osize.width.bytes level := by
    rcases Nat.eq_zero_or_pos level with rfl | hpos
    · obtain rfl : s₂ = s₁ := hframed
      exact ⟨hbase.trans hsame, hsp⟩
    · rw [if_neg (by omega)] at hframed
      have hlow := hframed.low_rsp
      rw [(hbase.trans hsame).stackSize] at hlow
      have hdown := slot_down (OpSize.bits_le _) hsp hlow
      rw [Nat.sub_add_cancel hpos] at hdown
      exact ⟨(hbase.trans hsame).trans hframed.sameStack, hdown⟩
  obtain ⟨hsame₂, hrsp⟩ := hstack
  refine ⟨s₀, s₁, s₂, reads, hsaved, hcopied, hslots, hframed, rfl, ?_, ?_⟩
  · rw [HotRegs.regSized_eq_low, ← hsame₂.osize]
    exact (congrArg _ (gpr_adjusted _ _ (by decide))).trans
      (low_setRegSized _ _ reg.RBP _)
  · have hmoved :=
      low_rsp_adjusted
        (s₂.withHot (s₂.regs.setRegSized s₂.osize reg.RBP s₀.stackPtr)) (-alloc)
    have hkept : (s₂.regs.setRegSized s₂.osize reg.RBP s₀.stackPtr).gpr reg.RSP
      = s₂.regs.gpr reg.RSP :=
      gpr_setRegSized_other _ _ _ (by decide)
    have hptr : slot s.stackSize.bits s₀.stackPtr s.osize.width.bytes level
        = slot s.stackSize.bits (s₀.regs.gpr reg.RSP)
          s.osize.width.bytes level := by
      rw [Cpu.stackPtr_eq_low, hbase.stackSize, slot_low (OpSize.bits_le _)]
    rw [hptr, ← hrsp, low_sub_low (OpSize.bits_le _), ← hkept,
      ← hsame₂.stackSize, BitVec.sub_eq_add_neg]
    exact (Cpu.stackPtr_eq_low _).trans hmoved

omit [Bus β] in
/-- The condition is that the two widths agree on every slot. -/
theorem displayInReach_iff (s : Machine β) (level : Nat) :
    s.DisplayInReach level ↔ ∀ k, 1 ≤ k → k ≤ level - 1 →
      slot s.osize.bits (s.regs.gpr reg.RBP) s.osize.width.bytes k
        = slot s.stackSize.bits (s.regs.gpr reg.RBP)
          s.osize.width.bytes k := by
  have hpos : 0 < s.osize.width.bytes := by cases s.osize <;> decide
  have hle : s.osize.width.bytes ≤ 2 ^ min s.osize.bits s.stackSize.bits := by
    cases s.osize <;> cases s.stackSize <;> decide
  have hinj : s.osize.bits = s.stackSize.bits ↔ s.osize = s.stackSize := by
    cases s.osize <;> cases s.stackSize <;> decide
  rw [slots_agree (OpSize.bits_le _) (OpSize.bits_le _) _ hpos hle, hinj,
    Nat.sub_eq_zero_iff_le]
  rfl

/-- ENTER meets its law exactly when the display is in reach of its reads. -/
theorem enterLaw_iff {alloc : U64} {level : Nat} {s t : Machine β}
    (hz : s.stackOsize = s.osize)
    (h : (enter alloc level).run s = (.ok (), t)) :
    EnterLaw alloc level s t ↔ s.DisplayInReach level := by
  rw [displayInReach_iff]
  obtain ⟨s₀, s₁, s₂, reads, hent⟩ := enter_cases hz h
  constructor
  · rintro ⟨u₀, u₁, u₂, reads', hlaw⟩ k hk hk'
    obtain ⟨-, hcode, -⟩ := displayReads_spec hlaw.copied
    rw [hlaw.slots, hlaw.saved.sameStack.osize,
      hlaw.saved.gpr (by decide)] at hcode
    have hall :=
      List.map_inj_left.mp hcode (k - 1) (List.mem_range.mpr (by omega))
    rw [Nat.sub_add_cancel hk] at hall
    exact hall.symm
  · intro hreach
    refine ⟨s₀, s₁, s₂, reads, { hent with slots := hent.slots.trans ?_ }⟩
    refine List.map_inj_left.mpr fun i hi => hreach (i + 1) (by omega) ?_
    have := List.mem_range.mp hi
    omega

-- ======== LEAVE

/-- The slot at offset `off` of the stack segment holds `v`. -/
def Machine.HoldsAt (s : Machine β) (z : OpSize) (off v : U64) : Prop :=
  ∃ t, (readSized z (.mem reg.SS off)).run s = (.ok v, t)

/-- The machine with the operand size of a stack instruction. -/
def Machine.sized (s : Machine β) : Machine β :=
  s.withDecode { s.toDecodeState with osize := s.stackOsize }

/-- A LEAVE in `u` undoes the ENTER from `s` to `t`: in the same mode, with
the frame pointer ENTER left and with the slot it points at as it was. -/
def LeaveLaw (s t : Machine β) : Prop :=
  s.osize = s.stackSize → ∀ u : Machine β,
    u.stackSize = s.stackSize → u.stackOsize = s.osize →
    u.regs.regSized s.osize reg.RBP = t.regs.regSized s.osize reg.RBP →
    u.sized.HoldsAt s.osize (s.pushOff s.osize.bytes)
      (s.regs.regSized s.osize reg.RBP) →
    ∃ v, leave.run u = (.ok 4, v)
      ∧ v.regs.regSized s.osize reg.RSP = s.regs.regSized s.osize reg.RSP
      ∧ v.regs.regSized s.osize reg.RBP = s.regs.regSized s.osize reg.RBP

/-- A pop loads first and moves the stack pointer after. -/
theorem run_popSized {z : OpSize} {s t : Machine β} {v : U64}
    (h : (readSized z (.mem reg.SS s.stackPtr)).run s = (.ok v, t)) :
    (popSized z).run s = (.ok v, t.adjusted z.bytes) := by
  have hnarrow : ∀ {n : Nat} {rd : Calm β (BitVec n)} (d : U64),
      ((fun x : BitVec n => x.setWidth 64) <$> rd : Calm β U64).run s
        = (.ok v, t) →
      ((fun x : BitVec n => x.setWidth 64) <$> (do
        let x ← rd
        adjustSp d
        return x) : Calm β U64).run s = (.ok v, t.adjusted d) := by
    intro n rd d hrd
    rw [Bounded.run_map, Fallible.map_apply] at hrd ⊢
    rcases hx : rd.run s with ⟨e | x, t'⟩ <;> rw [hx] at hrd <;> cases hrd
    rw [Bounded.run_bind, Fallible.bind_of_ok hx]
    rfl
  cases z with
  | O16 => exact hnarrow 2 h
  | O32 => exact hnarrow 4 h
  | O64 =>
    show (readSized O64 (.mem reg.SS s.stackPtr) >>= fun x =>
      adjustSp 8 >>= fun _ => pure x : Calm β U64).run s = _
    rw [Bounded.run_bind, Fallible.bind_of_ok h]
    rfl

omit [Bus β] in
theorem stackOsize_sized (s : Machine β) :
    s.sized.stackOsize = s.stackOsize := by
  show (if s.m64 then (if s.prefix66 && !s.rexW then O16 else O64) else s.stackOsize) = s.stackOsize
  unfold Cpu.stackOsize
  split <;> rfl

section Reads

variable (gpr : U8 → U64)

/-- LEAVE's load does not depend on the general registers. -/
theorem Blind.check (r : Except Exception U64) :
    Blind gpr (check r : Calm β U64) := by
  cases r
  · exact .throw _
  · exact .pure _

theorem Blind.linAddr (seg : U8) (off : U64) (size : Nat) (write : Bool) :
    Blind gpr (linAddr seg off size write : Calm β U64) :=
  .self_bind (fun _ => rfl) fun _ => .check gpr _

theorem Blind.linRead8 (lin : U64) : Blind gpr (linRead8 lin : Calm β U8) := by
  refine .self_bind (fun _ => rfl) fun s => ?_
  split
  · exact .touchBus _ _
  · exact (Blind.translate gpr _ _).bind fun _ => .touchBus _ _

theorem Blind.readHalves {w : Nat} {lo hi : Calm β (BitVec w)}
    (hlo : Blind gpr lo) (hhi : Blind gpr hi) :
    Blind gpr (readHalves lo hi) := hlo.bind fun _ => hhi.bind fun _ => .pure _

theorem Blind.linRead16 (lin : U64) :
    Blind gpr (linRead16 lin : Calm β U16) := by
  refine .self_bind (fun _ => rfl) fun s => ?_
  split
  · exact .touchBus _ _
  split
  · exact (Blind.translate gpr _ _).bind fun _ => .touchBus _ _
  · exact .readHalves gpr (.linRead8 gpr _) (.linRead8 gpr _)

theorem Blind.linRead32 (lin : U64) :
    Blind gpr (linRead32 lin : Calm β U32) := by
  refine .self_bind (fun _ => rfl) fun s => ?_
  split
  · exact .touchBus _ _
  split
  · exact (Blind.translate gpr _ _).bind fun _ => .touchBus _ _
  · exact .readHalves gpr (.linRead16 gpr _) (.linRead16 gpr _)

theorem Blind.linRead64 (lin : U64) :
    Blind gpr (linRead64 lin : Calm β U64) := by
  refine .self_bind (fun _ => rfl) fun s => ?_
  split
  · exact .touchBus _ _
  split
  · exact (Blind.translate gpr _ _).bind fun _ => .touchBus _ _
  · exact .readHalves gpr (.linRead32 gpr _) (.linRead32 gpr _)

/-- What memory holds does not depend on the registers. -/
theorem Blind.readSized (z : OpSize) (seg : U8) (off : U64) :
    Blind gpr (readSized z (.mem seg off) : Calm β U64) := by
  cases z
  · exact .map _ ((Blind.linAddr gpr _ _ _ _).bind fun _ => .linRead16 gpr _)
  · exact .map _ ((Blind.linAddr gpr _ _ _ _).bind fun _ => .linRead32 gpr _)
  · exact (Blind.linAddr gpr _ _ _ _).bind fun _ => .linRead64 gpr _

end Reads

/-- The stack pointer released to the frame pointer. -/
def Machine.released (s : Machine β) : Machine β :=
  s.withHot (s.regs.setRegSized s.stackSize reg.RSP (s.regs.gpr reg.RBP))

/-- LEAVE: the stack pointer from RBP, then a pop into it. -/
theorem run_leave (s : Machine β) :
    leave.run s = (do
      let v ← popSized s.stackOsize
      writeRegOsize reg.RBP v
      return 4 : Calm β U32).run s.sized.released := by
  have hrelease :
      ((if s.sized.m64 then setReg64 reg.RSP (s.sized.regs.gpr reg.RBP)
      else if (s.sized.regs.seg reg.SS).db
        then setReg64 reg.RSP ((s.sized.regs.reg32 reg.RBP).setWidth 64)
      else modifyHot (·.setReg16 reg.RSP (s.sized.regs.reg16 reg.RBP)) : Calm β
        Unit)).run s.sized
      = (.ok (), s.sized.released) := by
    unfold Machine.released Cpu.stackSize
    split
    · rfl
    · split <;> rfl
  have hosize : useStackOsize.run s = (.ok (), s.sized) := rfl
  have hsame : s.sized.released.stackOsize = s.stackOsize := stackOsize_sized s
  rw [leave, Bounded.run_bind, Fallible.bind_of_ok hosize, Bounded.run_bind,
    Fallible.bind_of_ok (run_self _), Bounded.run_bind,
    Fallible.bind_of_ok hrelease, ← hsame]
  rfl

/-- A register write at the operand size. -/
theorem run_writeRegOsize {s : Machine β} {z : OpSize} (hz : s.osize = z)
    (i : U8) (v : U64) (n : U32) :
    (writeRegOsize i v >>= fun _ => pure n : Calm β U32).run s
      = (.ok n, s.withHot (s.regs.setRegSized z i v)) := by
  subst hz
  rfl

/-- LEAVE of a slot that can be read. -/
theorem leave_slot {u : Machine β} {v : U64}
    (h : u.sized.HoldsAt u.stackOsize u.sized.released.stackPtr v) :
    ∃ w : Machine β, leave.run u = (.ok 4, w)
      ∧ low u.stackSize.bits (w.regs.gpr reg.RSP)
        = low u.stackSize.bits
          (u.sized.released.regs.gpr reg.RSP + u.stackOsize.bytes)
      ∧ w.regs.regSized u.stackOsize reg.RBP = low u.stackOsize.bits v := by
  obtain ⟨x, hread⟩ := h
  have hgpr : u.sized.released
    = u.sized.withGpr (u.sized.released.regs.gpr) := by
    unfold Machine.released
    cases u.sized.stackSize <;> rfl
  have hreleased :=
    Blind.readSized u.sized.released.regs.gpr u.stackOsize reg.SS
    u.sized.released.stackPtr u.sized
  rw [hread] at hreleased
  have hpop := run_popSized ((congrArg _ hgpr).trans hreleased)
  have hsame := SameStack.of_memOnly (MemOnly.readSized _ _) hread
  have hrun :=
    run_writeRegOsize
      (s := (x.withGpr u.sized.released.regs.gpr).adjusted u.stackOsize.bytes)
    hsame.osize reg.RBP v 4
  refine ⟨_, ((run_leave u).trans (Fallible.bind_of_ok hpop)).trans hrun, ?_, ?_⟩
  · have hmoved :=
      low_rsp_adjusted (x.withGpr u.sized.released.regs.gpr) u.stackOsize.bytes
    rw [show (x.withGpr u.sized.released.regs.gpr).stackSize = u.stackSize
      from hsame.stackSize] at hmoved
    exact (congrArg _ (gpr_setRegSized_other _ _ _ (by decide))).trans hmoved
  · rw [HotRegs.regSized_eq_low]
    exact low_setRegSized _ _ reg.RBP v

/-- LEAVE undoes the frame. -/
theorem leave_lawful {off : Nat → U64} {alloc : U64} {level : Nat}
    {s s₀ s₁ s₂ t : Machine β}
    {reads : List (U64 × U64)}
    (h : Enters off alloc level s s₀ s₁ s₂ t reads) : LeaveLaw s t := by
  intro hsize u hstack hosize hbp hslot
  have hlow : low s.osize.bits (s.pushOff s.osize.bytes)
    = s.pushOff s.osize.bytes := by
    rw [Cpu.pushOff_eq_slot, ← hsize, slot, low_low]
  have hrsp : low s.osize.bits (u.sized.released.regs.gpr reg.RSP)
    = s.pushOff s.osize.bytes := by
    have hset :=
      low_setRegSized u.regs.toHotRegs u.stackSize reg.RSP (u.regs.gpr reg.RBP)
    rw [HotRegs.regSized_eq_low, h.pointer, h.saved.stackPtr, hlow] at hbp
    rw [← hbp, ← hstack.trans hsize.symm]
    exact hset
  have hptr : u.sized.released.stackPtr = s.pushOff s.osize.bytes := by
    rw [← hrsp, Cpu.stackPtr_eq_low,
      show u.sized.released.stackSize = u.stackSize from rfl, hstack, ← hsize]
  obtain ⟨w, hrun, hsp, hbp'⟩ :=
    leave_slot (u := u) (by rw [hosize, hptr]; exact hslot)
  rw [hosize] at hsp hbp'
  rw [hstack, ← hsize] at hsp
  refine ⟨w, hrun, ?_, ?_⟩
  · rw [HotRegs.regSized_eq_low, HotRegs.regSized_eq_low]
    refine hsp.trans ?_
    rw [← low_add_low (OpSize.bits_le _), hrsp, Cpu.pushOff_eq_slot, ← hsize,
      slot, low_add_low (OpSize.bits_le _), Nat.one_mul, OpSize.bytes_eq,
      BitVec.sub_add_cancel]
    rfl
  · rw [hbp', HotRegs.regSized_eq_low, low_low]

-- ======== instructions

/-- ENTER's operands. -/
def enterOperands : Calm β (U64 × Nat) := do
  useStackOsize
  let alloc ← fetch16
  let level := (← fetch8) &&& 0x1F
  return (alloc.setWidth 64, level.toNat)

/-- An ENTER that completes, and the LEAVE after it, obey their laws exactly
when the display is within reach of the operand size. -/
theorem enter_lawful_iff {s t : Machine β} {cost : U32}
    (h : enterArm.run s = (.ok cost, t)) :
    ∃ alloc level s', enterOperands.run s = (.ok (alloc, level), s')
      ∧ s'.regs.gpr = s.regs.gpr
      ∧ (EnterLaw alloc level s' t ∧ LeaveLaw s' t
        ↔ s'.DisplayInReach level) := by
  simp only [enterArm, Bounded.run_bind, Fallible.bind_eq_ok] at h
  obtain ⟨_, s₁, hsize, alloc, s₂, halloc, b, s₃, hlevel, _, t',
    henter, hret⟩ := h
  cases hsize
  cases hret
  have hread :=
    (ReadsOn.fetch16 _ _ _ halloc).trans (ReadsOn.fetch8 _ _ _ hlevel)
  have hz : s₃.stackOsize = s₃.osize := by
    have hm : s₃.m64 = s.sized.m64 :=
      (m64_of_run hlevel).trans (m64_of_run halloc)
    have hsized : s₃.stackOsize = s.sized.stackOsize := by
      unfold Cpu.stackOsize Cpu.rexW
      rw [hm, hread.prefix66, hread.rex, hread.osize]
      rfl
    rw [hsized, stackOsize_sized, hread.osize]
    rfl
  refine ⟨alloc.setWidth 64, (b &&& 0x1F).toNat, s₃, ?_, hread.gpr, ?_⟩
  · simp only [enterOperands, Bounded.run_bind, Fallible.bind_eq_ok]
    exact ⟨_, _, rfl, alloc, s₂, halloc, b, s₃, hlevel, rfl⟩
  · obtain ⟨_, _, _, _, hent⟩ := enter_cases hz henter
    rw [enterLaw_iff hz henter, and_iff_left (leave_lawful hent)]

end Remu.X64
