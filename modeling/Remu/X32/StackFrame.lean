/-
ENTER and LEAVE in the 32-bit core.

The copy of the display takes a doubleword from where the frame pointer
points at the stack's address size, but a word from where its low half
points: with a 16-bit operand on a 32-bit stack that is the display only
while the frame pointer stays below 64K.
-/
import Remu.Lib.Truncated
import Remu.X32.EffectiveAddr
import Remu.X32.Reading

namespace Remu.X32

open Word

variable {β : Type} [Bus β]

-- ======== widths

/-- The bits of a doubleword or a word. -/
def widthBits (wide : Bool) : Nat := if wide then 32 else 16

/-- The bytes of a doubleword or a word. -/
def widthBytes (wide : Bool) : Nat := if wide then 4 else 2

/-- A stack is at most 32 bits wide. -/
theorem widthBits_le (wide : Bool) :
    widthBits wide ≤ 32 := by cases wide <;> decide

/-- The bytes of a slot as a word. -/
theorem slotBytes_eq (wide : Bool) :
    slotBytes wide = BitVec.ofNat 32 (widthBytes wide) := by
  cases wide <;> rfl

/-- Whether stack addresses are 32-bit. -/
def Cpu.stackWide (c : Cpu) : Bool := (c.regs.seg reg.SS).db

/-- Wrapping at the stack's width is taking the low bits. -/
theorem Cpu.and_stackWrap (c : Cpu) (x : U32) :
    x &&& c.stackWrap = low (widthBits c.stackWide) x := by
  unfold stackWrap stackWide
  cases (c.regs.seg reg.SS).db
  · exact and_mask_eq_low (n := 16) (by decide) x
  · exact and_mask_eq_low (n := 32) (by decide) x

theorem HotRegs.regSized_eq_low (r : HotRegs) (wide : Bool) (i : U8) :
    r.regSized wide i = low (widthBits wide) (r.gpr (i &&& 7)) := by
  cases wide
  · rfl
  · exact (low_eq_self (by decide) _).symm

theorem Cpu.stackPtr_eq_low (c : Cpu) :
    c.stackPtr = low (widthBits c.stackWide) (c.regs.gpr reg.ESP) := by
  rw [← and_stackWrap]
  unfold stackPtr stackWrap
  split
  · exact BitVec.and_allOnes.symm
  · rfl

/-- A push goes to the slot below the stack pointer. -/
theorem Cpu.pushOff_eq_slot (c : Cpu) (wide : Bool) :
    c.pushOff (slotBytes wide) = slot (widthBits c.stackWide)
      (c.regs.gpr reg.ESP) (widthBytes wide) 1 := by
  rw [pushOff, and_stackWrap, stackPtr_eq_low, low_sub_low (widthBits_le _),
    slot, Nat.one_mul, slotBytes_eq]

/-- A register written at a width reads back at it. -/
theorem low_setRegSized (r : HotRegs) (wide : Bool) (i : U8) (v : U32) :
    low (widthBits wide) ((r.setRegSized wide i v).gpr (i &&& 7))
      = low (widthBits wide) v := by
  cases wide with
  | false =>
    refine congrArg (BitVec.setWidth 32)
      (BitVec.eq_of_getLsbD_eq fun k hk => ?_)
    have hset : (r.setRegSized false i v).gpr (i &&& 7)
        = (r.gpr (i &&& 7) &&& 0xFFFF0000) ||| (v.setWidth 16).setWidth 32 :=
          upd_same _ _ _
    rw [hset]
    have hk' : k < 16 := hk
    simp [widthBits, hk', show k < 32 by omega]
  | true => exact congrArg _ (upd_same _ _ _)

/-- A register write leaves the others alone. -/
theorem gpr_setRegSized_other (r : HotRegs) (wide : Bool) {i j : U8}
    (v : U32) (h : j ≠ i &&& 7) :
    (r.setRegSized wide i v).gpr j = r.gpr j := by
  cases wide <;> exact upd_other _ _ h

/-- The stack pointer moves at the stack's width. -/
theorem Cpu.movedSp_eq (c : Cpu) (d : U32) :
    c.movedSp d = (c.regs.setRegSized c.stackWide reg.ESP
      (c.regs.gpr reg.ESP + d)).gpr reg.ESP := by
  have h16 := BitVec.setWidth_add (c.regs.gpr reg.ESP) d
    (show 16 ≤ 32 by decide)
  unfold movedSp stackWide
  cases (c.regs.seg reg.SS).db
  · exact congrArg
      (fun v : U16 => (c.regs.gpr reg.ESP &&& 0xFFFF0000) ||| v.setWidth 32) h16.symm
  · rfl

/-- The stack pointer moves at the stack's width; what lies above it stays. -/
theorem Cpu.low_movedSp (c : Cpu) (d : U32) :
    low (widthBits c.stackWide) (c.movedSp d)
      = low (widthBits c.stackWide) (c.regs.gpr reg.ESP + d) := by
  rw [movedSp_eq]
  exact low_setRegSized _ _ reg.ESP _

/-- The stack pointer moved. -/
def Machine.adjusted (s : Machine β) (d : U32) : Machine β :=
  s.withHot (s.regs.setReg32 reg.ESP (s.movedSp d))

/-- Moving the stack pointer never fails. -/
theorem run_adjust (s : Machine β) (d : U32) :
    (adjustSp d).run s = (.ok (), s.adjusted d) := rfl

omit [Bus β] in
theorem gpr_adjusted (s : Machine β) (d : U32) {i : U8} (hi : i ≠ reg.ESP) :
    (s.adjusted d).regs.gpr i = s.regs.gpr i := upd_other _ _ hi

omit [Bus β] in
/-- A move of the stack pointer is one at the stack's width. -/
theorem low_esp_adjusted (s : Machine β) (d : U32) :
    low (widthBits s.stackWide) ((s.adjusted d).regs.gpr reg.ESP)
      = low (widthBits s.stackWide) (s.regs.gpr reg.ESP + d) := by
  have hset : (s.adjusted d).regs.gpr reg.ESP = s.movedSp d :=
    upd_same s.regs.gpr reg.ESP _
  rw [hset, s.low_movedSp d]

-- ======== pushes

/-- A store works on memory alone. -/
theorem MemOnly.stampedStore (first last : U32) (w : β → β)
    (hw : ∀ b, BusStore b first last (w b)) :
    MemOnly (stampedStore first last w hw) := by
  intro s b s' h
  cases h
  exact ⟨rfl, rfl⟩

theorem MemOnly.linWriteSplit {k : Nat} (lin : U32) (n : Nat)
    (hn : n + 1 < 4096) (v : BitVec k) :
    MemOnly (linWriteSplit lin n hn v : Calm β Unit) := by
  intro s a s' h
  unfold X32.linWriteSplit at h
  dsimp only at h
  rw [Fallible.bind_eq_ok] at h
  obtain ⟨ps, s₁, hps, h⟩ := h
  cases h
  obtain ⟨hr, hd⟩ := MemOnly.translateAll _ _ _ _ hps
  exact ⟨hr, hd⟩

theorem MemOnly.linWrite16 (lin : U32) (v : U16) :
    MemOnly (linWrite16 lin v : Calm β Unit) := by
  unfold X32.linWrite16
  refine MemOnly.self.bind fun s => ?_
  split
  · exact .stampedStore _ _ _ _
  split
  · exact (MemOnly.translate _ _).bind fun _ => .pageStore _ _ _ _ _
  · exact .linWriteSplit _ _ _ _

theorem MemOnly.linWrite32 (lin : U32) (v : U32) :
    MemOnly (linWrite32 lin v : Calm β Unit) := by
  unfold X32.linWrite32
  refine MemOnly.self.bind fun s => ?_
  split
  · exact .stampedStore _ _ _ _
  split
  · exact (MemOnly.translate _ _).bind fun _ => .pageStore _ _ _ _ _
  · exact .linWriteSplit _ _ _ _

/-- An address is checked against the machine as it stands. -/
theorem MemOnly.linAddr (seg : U8) (off : U32) (size : Nat) (write : Bool) :
    MemOnly (linAddr seg off size write : Calm β U32) := by
  refine MemOnly.self.bind fun s => ?_
  intro t a t' h
  rw [run_check] at h
  obtain rfl : t = t' := congrArg Prod.snd h
  exact ⟨rfl, rfl⟩

theorem memOnly_writeSized (wide : Bool) (seg : U8) (off v : U32) :
    MemOnly (writeSized wide (.mem seg off) v : Calm β Unit) := by
  cases wide
  · exact (MemOnly.linAddr _ _ _ _).bind fun _ => .linWrite16 _ _
  · exact (MemOnly.linAddr _ _ _ _).bind fun _ => .linWrite32 _ _

/-- The same sizes. -/
structure SameStack (s t : Machine β) : Prop where
  stackWide : t.stackWide = s.stackWide
  osize32 : t.osize32 = s.osize32

namespace SameStack

variable {s t u : Machine β}

omit [Bus β] in
/-- Accesses that leave the stack where it was compose. -/
theorem trans (h : SameStack s t) (h' : SameStack t u) : SameStack s u :=
  ⟨h'.stackWide.trans h.stackWide, h'.osize32.trans h.osize32⟩

omit [Bus β] in
theorem withHot (s : Machine β) (r : HotRegs) : SameStack s (s.withHot r) :=
  ⟨rfl, rfl⟩

omit [Bus β] in
theorem of_unmoved (h : Unmoved s t) : SameStack s t := by
  refine ⟨?_, h.osize32⟩
  unfold Cpu.stackWide
  rw [h.seg]

end SameStack

/-- `v` is stored below the stack pointer, and the stack pointer is there. -/
def Machine.Pushes (s : Machine β) (wide : Bool) (v : U32) (t : Machine β) : Prop :=
  ∃ u, (writeSized wide (.mem reg.SS (s.pushOff (slotBytes wide))) v).run s
    = (.ok (), u)
    ∧ t = u.adjusted (-slotBytes wide)

/-- A push stores first and moves the stack pointer after. -/
theorem run_pushWidth (wide : Bool) (v : U32) (s : Machine β) :
    (pushWidth wide v).run s
      = ((writeSized wide (.mem reg.SS (s.pushOff (slotBytes wide))) v).run
          >>= fun _ => (adjustSp (-slotBytes wide)).run) s := by
  cases wide <;> rfl

/-- When a push succeeds. -/
theorem pushes_iff {wide : Bool} {v : U32} {s t : Machine β} :
    (pushWidth wide v).run s = (.ok (), t) ↔ s.Pushes wide v t := by
  rw [run_pushWidth, Fallible.bind_eq_ok]
  constructor
  · rintro ⟨_, u, hu, hsp⟩
    rw [run_adjust] at hsp
    cases hsp
    exact ⟨u, hu, rfl⟩
  · rintro ⟨u, hu, rfl⟩
    exact ⟨(), u, hu, rfl⟩

namespace Machine.Pushes

variable {s t : Machine β} {wide : Bool} {v : U32}

/-- A push does not change the stack's width. -/
theorem sameStack (h : s.Pushes wide v t) : SameStack s t := by
  obtain ⟨u, hu, rfl⟩ := h
  exact (SameStack.of_unmoved
    ((memOnly_writeSized _ _ _ _).onlyReads _ _ _ hu)).trans (.withHot _ _)

theorem gpr (h : s.Pushes wide v t) {i : U8} (hi : i ≠ reg.ESP) :
    t.regs.gpr i = s.regs.gpr i := by
  obtain ⟨u, hu, rfl⟩ := h
  rw [← (memOnly_writeSized _ _ _ _ _ _ _ hu).1]
  exact gpr_adjusted u _ hi

/-- A push takes one slot. -/
theorem low_esp (h : s.Pushes wide v t) :
    low (widthBits s.stackWide) (t.regs.gpr reg.ESP)
      = low (widthBits s.stackWide)
        (s.regs.gpr reg.ESP - BitVec.ofNat 32 (widthBytes wide)) := by
  have hsize := h.sameStack.stackWide
  obtain ⟨u, hu, rfl⟩ := h
  rw [← hsize, ← (memOnly_writeSized _ _ _ _ _ _ _ hu).1,
    BitVec.sub_eq_add_neg, ← slotBytes_eq]
  exact low_esp_adjusted u _

/-- After a push the stack pointer is where the value is. -/
theorem stackPtr (h : s.Pushes wide v t) :
    t.stackPtr = s.pushOff (slotBytes wide) := by
  rw [Cpu.stackPtr_eq_low, h.sameStack.stackWide, h.low_esp,
    Cpu.pushOff_eq_slot, slot, Nat.one_mul]

end Machine.Pushes

-- ======== the display

/-- The walk down the display, with the offsets it reads and the words there. -/
def displayReads : Nat → Calm β (List (U32 × U32))
  | 0 => pure []
  | n + 1 => do
    let s ← self
    writeReg reg.EBP (s.regOp reg.EBP - slotBytes s.osize32)
    let s ← self
    let v ← readSized s.osize32 (.mem reg.SS s.displayOff)
    pushWidth s.osize32 v
    let rest ← displayReads n
    return (s.displayOff, v) :: rest

/-- It is the walk of the code. -/
theorem displayLoop_eq (n : Nat) :
    (displayLoop n : Calm β Unit) = (fun _ => ()) <$> displayReads n := by
  induction n with
  | zero => rfl
  | succ n ih =>
    rw [displayLoop, displayReads, ih]
    simp only [map_eq_pure_bind, bind_assoc, pure_bind]

/-- A display loop that ends has read the pointers it copies. -/
theorem reads_of_displayLoop {n : Nat} {s t : Machine β} {u : Unit}
    (h : (displayLoop n).run s = (.ok u, t)) :
    ∃ reads, (displayReads n).run s = (.ok reads, t) := by
  rw [displayLoop_eq, Bounded.run_map, Fallible.map_apply] at h
  rcases hrun :
    (displayReads n).run s with ⟨e | reads, t'⟩ <;> rw [hrun] at h <;> cases h
  exact ⟨reads, rfl⟩

/-- The bits of the frame pointer that address the display: those of the
stack pointer in the 32-bit form. -/
def Cpu.displayBits (c : Cpu) : Nat :=
  if c.osize32 then widthBits c.stackWide else 16

/-- The display pointer is no wider than the operand. -/
theorem Cpu.displayBits_le (c : Cpu) :
    c.displayBits ≤ widthBits c.osize32 := by
  unfold displayBits
  cases c.osize32
  · exact le_refl 16
  · exact widthBits_le _

/-- The display is read at the low bits of EBP. -/
theorem Cpu.displayOff_eq_low (c : Cpu) :
    c.displayOff = low c.displayBits (c.regs.gpr reg.EBP) := by
  unfold displayOff displayBits
  split
  · exact c.and_stackWrap _
  · rfl

/-- The frame pointer one slot down. -/
def Machine.stepped (s : Machine β) : Machine β :=
  s.withHot (s.regs.setRegSized s.osize32 reg.EBP
    (s.regOp reg.EBP - slotBytes s.osize32))

omit [Bus β] in
/-- The display pointer moves down one slot. -/
theorem low_ebp_stepped (s : Machine β) :
    low s.displayBits (s.stepped.regs.gpr reg.EBP)
      = low s.displayBits
        (s.regs.gpr reg.EBP - BitVec.ofNat 32 (widthBytes s.osize32)) := by
  have hwide : low (widthBits s.osize32) (s.stepped.regs.gpr reg.EBP)
      = low (widthBits s.osize32)
        (s.regs.gpr reg.EBP - BitVec.ofNat 32 (widthBytes s.osize32)) := by
    refine (low_setRegSized _ _ reg.EBP _).trans ?_
    rw [Cpu.regOp, HotRegs.regSized_eq_low, slotBytes_eq]
    exact low_sub_low (widthBits_le _) _ _
  exact low_of_low s.displayBits_le hwide

/-- One word of the display copied. -/
theorem display_step {s s₁ s₂ : Machine β} {off v : U32}
    (hv : (readSized s.osize32 (.mem reg.SS off)).run s.stepped = (.ok v, s₁))
    (hpush : (pushWidth s.osize32 v).run s₁ = (.ok (), s₂)) :
    SameStack s s₂
      ∧ low s.displayBits (s₂.regs.gpr reg.EBP)
        = low s.displayBits
          (s.regs.gpr reg.EBP - BitVec.ofNat 32 (widthBytes s.osize32))
      ∧ low (widthBits s.stackWide) (s₂.regs.gpr reg.ESP)
        = low (widthBits s.stackWide)
          (s.regs.gpr reg.ESP - BitVec.ofNat 32 (widthBytes s.osize32)) := by
  have hread := OnlyReads.readSized _ _ _ _ _ hv
  have hsame := SameStack.of_unmoved hread
  have hstore := pushes_iff.mp hpush
  have hesp : s.stepped.regs.gpr reg.ESP = s.regs.gpr reg.ESP :=
    gpr_setRegSized_other _ _ _ (by decide)
  refine ⟨(SameStack.withHot s _).trans (hsame.trans hstore.sameStack), ?_, ?_⟩
  · rw [hstore.gpr (by decide), hread.gpr, low_ebp_stepped]
  · have hlow := hstore.low_esp
    rwa [hsame.stackWide, hread.gpr, hesp,
      show s.stepped.stackWide = s.stackWide from rfl] at hlow

omit [Bus β] in
theorem SameStack.displayBits {s t : Machine β} (h : SameStack s t) :
    t.displayBits = s.displayBits := by
  unfold Cpu.displayBits
  rw [h.osize32, h.stackWide]

/-- The offsets are the slots below the frame pointer. -/
theorem displayReads_spec {n : Nat} {s t : Machine β}
    {reads : List (U32 × U32)} (h : (displayReads n).run s = (.ok reads, t)) :
    SameStack s t
      ∧ reads.map Prod.fst
        = (List.range n).map
          (fun i => slot s.displayBits (s.regs.gpr reg.EBP)
          (widthBytes s.osize32) (i + 1))
      ∧ low (widthBits s.stackWide) (t.regs.gpr reg.ESP)
        = slot (widthBits s.stackWide) (s.regs.gpr reg.ESP)
          (widthBytes s.osize32) n := by
  induction n generalizing s reads with
  | zero =>
    cases h
    exact ⟨⟨rfl, rfl⟩, rfl, (slot_zero _ _).symm⟩
  | succ n ih =>
    simp only [displayReads, Bounded.run_bind, Fallible.bind_eq_ok] at h
    obtain ⟨_, _, hself, _, s₁, hstep, _, _, hself', v, s₂, hv, _, s₃, hpush,
      rest, s₄, hrest, hret⟩ := h
    cases hself
    cases hself'
    cases hstep
    cases hret
    obtain ⟨hsame, hbp, hsp⟩ := display_step (s := s) hv hpush
    obtain ⟨hsame', hoffs, hsp'⟩ := ih hrest
    have hbits : s.displayBits ≤ 32 := s.displayBits_le.trans (widthBits_le _)
    rw [hsame.displayBits, hsame.osize32] at hoffs
    rw [hsame.osize32, hsame.stackWide] at hsp'
    refine ⟨hsame.trans hsame', ?_,
      hsp'.trans (slot_of_step (widthBits_le _) hsp n)⟩
    rw [List.range_succ_eq_map, List.map_cons, List.map_cons,
      List.map_map, hoffs]
    refine congrArg₂ List.cons ?_
      (List.map_congr_left fun i _ => slot_of_step hbits hbp (i + 1))
    rw [slot, Nat.zero_add, Nat.one_mul, ← low_ebp_stepped]
    exact s.stepped.displayOff_eq_low

-- ======== ENTER

/-- ENTER through the states it passes: the frame pointer pushed (`s₀`), the
display copied (`s₁`) and the new frame pointer after it (`s₂`). The display
is read from the slots `off`. -/
structure Enters (off : Nat → U32) (alloc : U32) (level : Nat)
    (s s₀ s₁ s₂ t : Machine β) (reads : List (U32 × U32)) : Prop where
  saved : s.Pushes s.osize32 (s.regs.gpr reg.EBP) s₀
  copied : (displayReads (level - 1)).run s₀ = (.ok reads, s₁)
  slots : reads.map Prod.fst
    = (List.range (level - 1)).map fun i => off (i + 1)
  framed : if level = 0 then s₂ = s₁ else s₁.Pushes s.osize32 s₀.stackPtr s₂
  memory : t = s₂.withHot t.regs.toHotRegs
  pointer : t.regs.regSized s.osize32 reg.EBP
    = low (widthBits s.osize32) s₀.stackPtr
  top : t.stackPtr
    = low (widthBits s.stackWide)
      (slot (widthBits s.stackWide) s₀.stackPtr (widthBytes s.osize32)
      level - alloc)

/-- ENTER with the display where it belongs: below the old frame pointer at
the stack's address size. -/
def EnterLaw (alloc : U32) (level : Nat) (s t : Machine β) : Prop :=
  ∃ s₀ s₁ s₂ reads,
    Enters (slot (widthBits s.stackWide) (s.regs.gpr reg.EBP)
    (widthBytes s.osize32))
    alloc level s s₀ s₁ s₂ t reads

/-- The slots of the display are the same by the low half of the frame
pointer. -/
def Machine.DisplayInReach (s : Machine β) (level : Nat) : Prop :=
  level ≤ 1 ∨ s.osize32 = true ∨ s.stackWide = false
    ∨ ((level - 1) * 2 ≤ (s.regs.gpr reg.EBP).toNat
      ∧ (s.regs.gpr reg.EBP).toNat < 2 ^ 16 + 2)

/-- Where ENTER does read the display. -/
theorem enter_cases {alloc : U32} {level : Nat} {s t : Machine β}
    (h : (enter alloc level).run s = (.ok (), t)) :
    ∃ s₀ s₁ s₂ reads,
      Enters (slot s.displayBits (s.regs.gpr reg.EBP) (widthBytes s.osize32))
      alloc level s s₀ s₁ s₂ t reads := by
  simp only [enter, Bounded.run_bind, Fallible.bind_eq_ok] at h
  obtain ⟨_, _, hself, _, s₀, hpush, _, _, hself', _, s₂, hdisplay, _,
    s₃, hbp, hsp⟩ := h
  cases hself
  cases hself'
  cases hbp
  cases hsp
  have hsaved : s.Pushes s.osize32 (s.regs.gpr reg.EBP) s₀ :=
    pushes_iff.mp hpush
  have hbase := hsaved.sameStack
  obtain ⟨s₁, reads, hcopied, hframed⟩ : ∃ s₁ reads,
      (displayReads (level - 1)).run s₀ = (.ok reads, s₁)
      ∧ if level = 0 then s₂ = s₁ else s₁.Pushes s.osize32 s₀.stackPtr s₂ := by
    rcases Nat.eq_zero_or_pos level with rfl | hpos
    · cases hdisplay
      exact ⟨_, [], rfl, rfl⟩
    · rw [whenever, if_pos hpos, Bounded.run_bind,
        Fallible.bind_eq_ok] at hdisplay
      obtain ⟨_, s₁, hloop, hframe⟩ := hdisplay
      obtain ⟨reads, hreads⟩ := reads_of_displayLoop hloop
      refine ⟨s₁, reads, hreads, ?_⟩
      rw [if_neg (by omega), ← pushes_iff,
        ← (hbase.trans (displayReads_spec hreads).1).osize32]
      exact hframe
  obtain ⟨hsame, hslots, hsp⟩ := displayReads_spec hcopied
  rw [hbase.displayBits, hbase.osize32, hsaved.gpr (by decide)] at hslots
  rw [hbase.osize32, hbase.stackWide] at hsp
  have hstack :
      SameStack s s₂ ∧ low (widthBits s.stackWide) (s₂.regs.gpr reg.ESP)
      = slot (widthBits s.stackWide) (s₀.regs.gpr reg.ESP)
        (widthBytes s.osize32) level := by
    rcases Nat.eq_zero_or_pos level with rfl | hpos
    · obtain rfl : s₂ = s₁ := hframed
      exact ⟨hbase.trans hsame, hsp⟩
    · rw [if_neg (by omega)] at hframed
      have hlow := hframed.low_esp
      rw [(hbase.trans hsame).stackWide] at hlow
      have hdown := slot_down (widthBits_le _) hsp hlow
      rw [Nat.sub_add_cancel hpos] at hdown
      exact ⟨(hbase.trans hsame).trans hframed.sameStack, hdown⟩
  obtain ⟨hsame₂, hesp⟩ := hstack
  refine ⟨s₀, s₁, s₂, reads, hsaved, hcopied, hslots, hframed, rfl, ?_, ?_⟩
  · rw [HotRegs.regSized_eq_low, ← hsame₂.osize32]
    exact (congrArg _ (gpr_adjusted _ _ (by decide))).trans
      (low_setRegSized _ _ reg.EBP _)
  · have hmoved :=
      low_esp_adjusted
        (s₂.withHot (s₂.regs.setRegSized s₂.osize32 reg.EBP s₀.stackPtr)) (-alloc)
    have hkept : (s₂.regs.setRegSized s₂.osize32 reg.EBP s₀.stackPtr).gpr
      reg.ESP = s₂.regs.gpr reg.ESP :=
      gpr_setRegSized_other _ _ _ (by decide)
    have hptr : slot (widthBits s.stackWide) s₀.stackPtr
        (widthBytes s.osize32) level
        = slot (widthBits s.stackWide) (s₀.regs.gpr reg.ESP)
          (widthBytes s.osize32) level := by
      rw [Cpu.stackPtr_eq_low, hbase.stackWide, slot_low (widthBits_le _)]
    rw [hptr, ← hesp, low_sub_low (widthBits_le _), ← hkept,
      ← hsame₂.stackWide, BitVec.sub_eq_add_neg]
    exact (Cpu.stackPtr_eq_low _).trans hmoved

omit [Bus β] in
/-- The condition is that both addresses of every slot agree. -/
theorem displayInReach_iff (s : Machine β) (level : Nat) :
    s.DisplayInReach level ↔ ∀ k, 1 ≤ k → k ≤ level - 1 →
      slot s.displayBits (s.regs.gpr reg.EBP) (widthBytes s.osize32) k
        = slot (widthBits s.stackWide) (s.regs.gpr reg.EBP)
          (widthBytes s.osize32) k := by
  have hle : s.displayBits ≤ 32 := s.displayBits_le.trans (widthBits_le _)
  unfold Machine.DisplayInReach Cpu.displayBits at *
  cases hwide : s.osize32
  · cases hstack : s.stackWide
    · exact iff_of_true (.inr (.inr (.inl rfl))) fun _ _ _ => rfl
    · have hagree :=
        slots_agree (n := 16) (m := 32) (by decide) le_rfl
          (s.regs.gpr reg.EBP) (b := 2)
        (by decide) (by decide) (level - 1)
      rw [show max 16 32 = 32 from rfl, low_eq_self le_rfl,
        Nat.sub_eq_zero_iff_le] at hagree
      refine Iff.trans ?_ hagree.symm
      simp
  · exact iff_of_true (.inr (.inl rfl)) fun _ _ _ => rfl

/-- ENTER meets its law exactly when the display is in reach of its reads. -/
theorem enterLaw_iff {alloc : U32} {level : Nat} {s t : Machine β}
    (h : (enter alloc level).run s = (.ok (), t)) :
    EnterLaw alloc level s t ↔ s.DisplayInReach level := by
  rw [displayInReach_iff]
  obtain ⟨s₀, s₁, s₂, reads, hent⟩ := enter_cases h
  constructor
  · rintro ⟨u₀, u₁, u₂, reads', hlaw⟩ k hk hk'
    obtain ⟨-, hcode, -⟩ := displayReads_spec hlaw.copied
    rw [hlaw.slots, hlaw.saved.sameStack.displayBits,
      hlaw.saved.sameStack.osize32, hlaw.saved.gpr (by decide)] at hcode
    have hall :=
      List.map_inj_left.mp hcode (k - 1) (List.mem_range.mpr (by omega))
    rw [Nat.sub_add_cancel hk] at hall
    exact hall.symm
  · intro hreach
    refine ⟨s₀, s₁, s₂, reads, { hent with slots := hent.slots.trans ?_ }⟩
    refine List.map_inj_left.mpr fun i hi => hreach (i + 1) (by omega) ?_
    have := List.mem_range.mp hi
    omega

-- ======== LEAVE

section Reads

variable (gpr : U8 → U32)

/-- LEAVE's load does not depend on the general registers. -/
theorem Blind.check (r : Except Exception U32) :
    Blind gpr (check r : Calm β U32) := by
  cases r
  · exact .throw _
  · exact .pure _

theorem Blind.linAddr (seg : U8) (off : U32) (size : Nat) (write : Bool) :
    Blind gpr (linAddr seg off size write : Calm β U32) :=
  .self_bind (fun _ => rfl) fun _ => .check gpr _

theorem Blind.linRead16 (lin : U32) :
    Blind gpr (linRead16 lin : Calm β U16) := by
  refine .self_bind (fun _ => rfl) fun s => ?_
  split
  · exact .touchBus _ _
  split
  · exact (Blind.translate gpr _ _).bind fun _ => .touchBus _ _
  · exact (Blind.linRead8 gpr _).bind fun _ => (Blind.linRead8 gpr _).bind
      fun _ => .pure _

theorem Blind.linRead32 (lin : U32) :
    Blind gpr (linRead32 lin : Calm β U32) := by
  refine .self_bind (fun _ => rfl) fun s => ?_
  split
  · exact .touchBus _ _
  split
  · exact (Blind.translate gpr _ _).bind fun _ => .touchBus _ _
  · exact (Blind.linRead16 gpr _).bind fun _ => (Blind.linRead16 gpr _).bind
      fun _ => .pure _

/-- What memory holds does not depend on the registers. -/
theorem Blind.readSized (wide : Bool) (seg : U8) (off : U32) :
    Blind gpr (readSized wide (.mem seg off) : Calm β U32) := by
  cases wide
  · exact .map _ ((Blind.linAddr gpr _ _ _ _).bind fun _ => .linRead16 gpr _)
  · exact (Blind.linAddr gpr _ _ _ _).bind fun _ => .linRead32 gpr _

end Reads

/-- The slot at offset `off` of the stack segment holds `v`. -/
def Machine.HoldsAt (s : Machine β) (wide : Bool) (off v : U32) : Prop :=
  ∃ t, (readSized wide (.mem reg.SS off)).run s = (.ok v, t)

/-- A LEAVE in `u` undoes the ENTER from `s` to `t`: with the frame pointer
ENTER left and with the slot it points at as it was. -/
def LeaveLaw (s t : Machine β) : Prop :=
  s.osize32 = s.stackWide → ∀ u : Machine β,
    u.stackWide = s.stackWide → u.osize32 = s.osize32 →
    u.regs.regSized s.osize32 reg.EBP = t.regs.regSized s.osize32 reg.EBP →
    u.HoldsAt s.osize32 (s.pushOff (slotBytes s.osize32)) (s.regOp reg.EBP) →
    ∃ v, leave.run u = (.ok 4, v)
      ∧ v.regs.regSized s.osize32 reg.ESP = s.regs.regSized s.osize32 reg.ESP
      ∧ v.regs.regSized s.osize32 reg.EBP = s.regs.regSized s.osize32 reg.EBP

/-- The stack pointer released to the frame pointer. -/
def Machine.released (s : Machine β) : Machine β :=
  s.withHot (s.regs.setRegSized s.stackWide reg.ESP (s.regs.gpr reg.EBP))

/-- A pop loads first and moves the stack pointer after. -/
theorem run_pop {wide : Bool} {s t : Machine β} {v : U32}
    (hwide : s.osize32 = wide)
    (h : (readSized wide (.mem reg.SS s.stackPtr)).run s = (.ok v, t)) :
    pop.run s = (.ok v, t.adjusted (slotBytes wide)) := by
  rw [pop, Bounded.run_bind, Fallible.bind_of_ok (run_self s), hwide]
  cases wide with
  | false =>
    have hread :
      ((fun x : U16 => x.setWidth 32) <$> read16 reg.SS s.stackPtr : Calm β
      U32).run s = (.ok v, t) := h
    show ((fun x : U16 => x.setWidth 32) <$> pop16 : Calm β U32).run s = _
    rw [Bounded.run_map, Fallible.map_apply] at hread ⊢
    rcases hx : (read16 reg.SS s.stackPtr : Calm β U16).run s with ⟨e | x, t'⟩
      <;> rw [hx] at hread <;> cases hread
    rw [pop16, Bounded.run_bind, Fallible.bind_of_ok (run_self s),
      Bounded.run_bind, Fallible.bind_of_ok hx]
    rfl
  | true =>
    have hread : (read32 reg.SS s.stackPtr : Calm β U32).run s = (.ok v, t) := h
    show (pop32 : Calm β U32).run s = _
    rw [pop32, Bounded.run_bind, Fallible.bind_of_ok (run_self s),
      Bounded.run_bind, Fallible.bind_of_ok hread]
    rfl

/-- LEAVE of a slot that can be read. -/
theorem leave_slot {u : Machine β} {v : U32}
    (h : u.HoldsAt u.osize32 u.released.stackPtr v) :
    ∃ w : Machine β, leave.run u = (.ok 4, w)
      ∧ low (widthBits u.stackWide) (w.regs.gpr reg.ESP)
        = low (widthBits u.stackWide)
          (u.released.regs.gpr reg.ESP + slotBytes u.osize32)
      ∧ w.regs.regSized u.osize32 reg.EBP = low (widthBits u.osize32) v := by
  obtain ⟨x, hread⟩ := h
  have hgpr : u.released = u.withGpr u.released.regs.gpr := by
    unfold Machine.released
    cases u.stackWide <;> rfl
  have hblind :=
    Blind.readSized u.released.regs.gpr u.osize32 reg.SS u.released.stackPtr u
  rw [hread] at hblind
  have hpop :=
    run_pop (show u.released.osize32 = u.osize32 from rfl)
      ((congrArg _ hgpr).trans hblind)
  have hsame := SameStack.of_unmoved (OnlyReads.readSized _ _ _ _ _ hread)
  have hrelease :
    (setStackPtr (u.regs.gpr reg.EBP)).run u = (.ok (), u.released) := rfl
  have hrun : leave.run u
      = (.ok 4, ((x.withGpr u.released.regs.gpr).adjusted (slotBytes u.osize32)).withHot
      (((x.withGpr u.released.regs.gpr).adjusted
        (slotBytes u.osize32)).regs.setRegSized x.osize32 reg.EBP v)) := by
    rw [leave, Bounded.run_bind, Fallible.bind_of_ok (run_self u),
      Bounded.run_bind, Fallible.bind_of_ok hrelease, Bounded.run_bind,
      Fallible.bind_of_ok hpop]
    rfl
  refine ⟨_, hrun, ?_, ?_⟩
  · have hmoved :=
      low_esp_adjusted (x.withGpr u.released.regs.gpr) (slotBytes u.osize32)
    rw [show (x.withGpr u.released.regs.gpr).stackWide = u.stackWide from hsame.stackWide] at hmoved
    exact (congrArg _ (gpr_setRegSized_other _ _ _ (by decide))).trans hmoved
  · rw [HotRegs.regSized_eq_low, ← hsame.osize32]
    exact low_setRegSized _ _ reg.EBP v

/-- LEAVE undoes the frame. -/
theorem leave_lawful {off : Nat → U32} {alloc : U32} {level : Nat}
    {s s₀ s₁ s₂ t : Machine β}
    {reads : List (U32 × U32)}
    (h : Enters off alloc level s s₀ s₁ s₂ t reads) : LeaveLaw s t := by
  intro hsize u hstack hosize hbp hslot
  have hlow : low (widthBits s.osize32) (s.pushOff (slotBytes s.osize32))
    = s.pushOff (slotBytes s.osize32) := by
    rw [Cpu.pushOff_eq_slot, ← hsize, slot, low_low]
  have hesp : low (widthBits s.osize32) (u.released.regs.gpr reg.ESP)
    = s.pushOff (slotBytes s.osize32) := by
    have hset :=
      low_setRegSized u.regs.toHotRegs u.stackWide reg.ESP (u.regs.gpr reg.EBP)
    rw [HotRegs.regSized_eq_low, h.pointer, h.saved.stackPtr, hlow] at hbp
    rw [← hbp, ← hstack.trans hsize.symm]
    exact hset
  have hptr : u.released.stackPtr = s.pushOff (slotBytes s.osize32) := by
    rw [← hesp, Cpu.stackPtr_eq_low,
      show u.released.stackWide = u.stackWide from rfl, hstack, ← hsize]
  obtain ⟨w, hrun, hsp, hbp'⟩ :=
    leave_slot (u := u) (by rw [hosize, hptr]; exact hslot)
  rw [hosize] at hsp hbp'
  rw [hstack, ← hsize] at hsp
  refine ⟨w, hrun, ?_, ?_⟩
  · rw [HotRegs.regSized_eq_low, HotRegs.regSized_eq_low]
    refine hsp.trans ?_
    rw [← low_add_low (widthBits_le _), hesp, Cpu.pushOff_eq_slot, ← hsize,
      slot, low_add_low (widthBits_le _), Nat.one_mul, slotBytes_eq,
      BitVec.sub_add_cancel]
    rfl
  · rw [hbp', Cpu.regOp, HotRegs.regSized_eq_low, low_low]

-- ======== instructions

/-- ENTER's operands. -/
def enterOperands : Calm β (U32 × Nat) := do
  let alloc ← fetch16
  let level := (← fetch8) &&& 0x1F
  return (alloc.setWidth 32, level.toNat)

/-- An ENTER that completes, and the LEAVE after it, obey their laws exactly
when the display is within reach of the operand size. -/
theorem enter_lawful_iff {s t : Machine β} {cost : U32}
    (h : enterArm.run s = (.ok cost, t)) :
    ∃ alloc level s', enterOperands.run s = (.ok (alloc, level), s')
      ∧ s'.regs.gpr = s.regs.gpr
      ∧ (EnterLaw alloc level s' t ∧ LeaveLaw s' t
        ↔ s'.DisplayInReach level) := by
  simp only [enterArm, Bounded.run_bind, Fallible.bind_eq_ok] at h
  obtain ⟨alloc, s₁, halloc, b, s₂, hlevel, _, t', henter, hret⟩ := h
  cases hret
  have hread :=
    (OnlyReads.fetch16 _ _ _ halloc).trans (OnlyReads.fetch8 _ _ _ hlevel)
  refine ⟨alloc.setWidth 32, (b &&& 0x1F).toNat, s₂, ?_, hread.gpr, ?_⟩
  · simp only [enterOperands, Bounded.run_bind, Fallible.bind_eq_ok]
    exact ⟨alloc, s₁, halloc, b, s₂, hlevel, rfl⟩
  · obtain ⟨_, _, _, _, hent⟩ := enter_cases henter
    rw [enterLaw_iff henter, and_iff_left (leave_lawful hent)]

end Remu.X32
