/-
What POPF and IRET may do to the flags.

Both pop an image and load it under a mask, and the mask is where the
protection is: by mode, by privilege and by operand size. It is computed
twice. POPF and the real-mode forms of IRET add RF, AC and ID to it for a
wide operand only; IRET in protected mode has AC and ID in it always.

So every flag is protected as it should be, except that an IRET of sixteen
bits in protected mode clears AC and ID: its image has no such bits
(`flags_guarded_iff`).
-/
import Remu.X64.Execute
import Remu.X64.Disturbed

namespace Remu.X64

variable {β : Type} {α γ : Type}

-- ======== flag loads

namespace RFlags

/-- No reserved bit is set: the flags type has no other values. -/
def Defined (f : RFlags) : Prop := f.bits &&& ~~~ALL = 0

/-- A defined flag word has no other bits. -/
theorem Defined.getLsbD {f : RFlags} (h : f.Defined) (i : Nat) :
    (f.bits.getLsbD i && ALL.getLsbD i) = f.bits.getLsbD i := by
  have hbit := congrArg (·.getLsbD i) h
  simp only [BitVec.getLsbD_and, BitVec.getLsbD_not] at hbit
  by_cases hi : i < 32
  · simp only [hi, decide_true, Bool.true_and] at hbit
    cases hf : f.bits.getLsbD i <;> rw [hf] at hbit <;> simp_all
  · rw [BitVec.getLsbD_of_ge _ _ (by omega), Bool.false_and]

/-- A loaded flag comes from the image under the mask and is kept
elsewhere. -/
theorem getLsbD_load {f : RFlags} (h : f.Defined) (v : U64)
    (m : U32) (i : Nat) :
    (f.load v m).bits.getLsbD i
      = if m.getLsbD i then v.getLsbD i && ALL.getLsbD i
        else f.bits.getLsbD i := by
  have hf := h.getLsbD i
  simp only [load, fromBitsTruncate, BitVec.getLsbD_and, BitVec.getLsbD_or,
    BitVec.getLsbD_not, BitVec.getLsbD_setWidth]
  by_cases hi : i < 32
  · generalize ALL.getLsbD i = a at hf ⊢
    cases m.getLsbD i <;> simp_all
  · simp [BitVec.getLsbD_of_ge _ i (by omega : 32 ≤ i)]

/-- A flag load leaves only defined bits. -/
theorem defined_load (f : RFlags) (v : U64) (m : U32) :
    (f.load v m).Defined := by
  unfold Defined load fromBitsTruncate
  rw [BitVec.and_assoc, BitVec.and_not_self]
  exact BitVec.and_zero

end RFlags

-- ======== the masks

/-- A mask below bit 16 has no bit from there on. -/
theorem getLsbD_narrow {m : U32} (hm : m.toNat < 65536)
    {k : Nat} (hk : 16 ≤ k) :
    m.getLsbD k = false := by
  have hpow : 2 ^ 16 ≤ 2 ^ k := Nat.pow_le_pow_right (by decide) hk
  exact Nat.testBit_lt_two_pow (by omega)

namespace Cpu

variable (c : Cpu)

/-- Outside ring 0, in V86 mode too, POPF does not load IOPL. -/
theorem popfMask_iopl (h : 0 < c.cpl) :
    c.popfMask.getLsbD 12 = false ∧ c.popfMask.getLsbD 13 = false := by
  have hcpl : c.regs.rflags.contains RFlags.VM = true
    ∨ c.protectedMode = true := by
    unfold cpl at h
    split at h
    · exact .inl ‹_›
    split at h
    · exact .inr ‹_›
    · exact absurd h (by decide)
  unfold popfMask
  dsimp only
  rw [if_pos h]
  rcases hcpl with hvm | hp
  · have hp : c.protectedMode = false := by
      unfold protectedMode
      rw [hvm]
      simp
    rw [hp, hvm, if_neg (by decide), if_pos rfl]
    split <;> decide
  · rw [hp, if_pos rfl]
    repeat' split
    all_goals decide

/-- Without the privilege POPF does not load IF. -/
theorem popfMask_if (hp : c.protectedMode = true)
    (h : c.regs.rflags.iopl < c.cpl) :
    c.popfMask.getLsbD 9 = false := by
  have hpos : 0 < c.cpl := by
    rw [BitVec.lt_def] at h ⊢
    exact Nat.lt_of_le_of_lt (Nat.zero_le _) h
  unfold popfMask
  dsimp only
  rw [hp, if_pos rfl, if_pos hpos, if_pos h]
  split <;> decide

/-- A 16-bit POPF loads the low half only. -/
theorem popfMask_narrow (h : c.osize = O16) {k : Nat} (hk : 16 ≤ k) :
    c.popfMask.getLsbD k = false := by
  refine getLsbD_narrow ?_ hk
  unfold popfMask
  dsimp only
  rw [if_pos h]
  repeat' split
  all_goals decide

/-- IRET outside ring 0 does not load IOPL. -/
theorem iretFlagMask_iopl {l : U8} (h : 0 < l) :
    (c.iretFlagMask l).getLsbD 12 = false
      ∧ (c.iretFlagMask l).getLsbD 13 = false := by
  unfold iretFlagMask
  dsimp only
  rw [if_pos h]
  repeat' split
  all_goals decide

/-- IRET below IOPL does not load IF. -/
theorem iretFlagMask_if {l : U8} (h : c.regs.rflags.iopl < l) :
    (c.iretFlagMask l).getLsbD 9 = false := by
  have hpos : 0 < l := by
    rw [BitVec.lt_def] at h ⊢
    exact Nat.lt_of_le_of_lt (Nat.zero_le _) h
  unfold iretFlagMask
  dsimp only
  rw [if_pos hpos, if_pos h]
  split <;> decide

/-- Of the flags from bit 16 on, a narrow IRET loads AC and ID. -/
theorem iretFlagMask_narrow (h : c.osize = O16) (l : U8)
    {k : Nat} (hk : 16 ≤ k) :
    (c.iretFlagMask l).getLsbD k = (decide (k = 18) || decide (k = 21)) := by
  have hsplit :
    c.iretFlagMask l
    = c.iretFlagMask l &&& 0xFFFF ||| (RFlags.AC ||| RFlags.ID) := by
    unfold iretFlagMask
    dsimp only
    rw [if_pos h]
    repeat' split
    all_goals decide
  have hlow : (c.iretFlagMask l &&& 0xFFFF).getLsbD k = false := by
    refine getLsbD_narrow ?_ hk
    rw [BitVec.toNat_and]
    exact Nat.lt_succ_of_le Nat.and_le_right
  have hhigh : RFlags.AC ||| RFlags.ID = BitVec.twoPow 32 18 ||| BitVec.twoPow
    32 21 := by decide
  rw [hsplit, BitVec.getLsbD_or, hlow, hhigh, BitVec.getLsbD_or,
    BitVec.getLsbD_twoPow, BitVec.getLsbD_twoPow]
  grind

end Cpu

-- ======== the law

/-- The two instructions that pop flags. -/
inductive FlagReturn where
  | popf
  | iret
deriving DecidableEq, Repr

/-- The operand size of the pop. -/
def FlagReturn.osize (i : FlagReturn) (c : Cpu) : OpSize :=
  match i with
  | .popf => c.stackOsize
  | .iret => c.osize

/-- What a flag return from `s` to `s'` must not change. -/
structure FlagsGuarded (i : FlagReturn) (s s' : Machine β) : Prop where
  iopl : 0 < s.cpl →
    s'.regs.rflags.bits &&& RFlags.IOPL = s.regs.rflags.bits &&& RFlags.IOPL
  intr : s.regs.rflags.iopl < s.cpl →
    s'.regs.rflags.bits &&& RFlags.IF = s.regs.rflags.bits &&& RFlags.IF
  vm : s'.regs.rflags.vm ≠ s.regs.rflags.vm →
    i = .iret ∧ s.osize = O32 ∧ s.cpl = 0 ∧ s.longMode = false
  reserved : s'.regs.rflags.bits &&& ~~~RFlags.ALL
    = s.regs.rflags.bits &&& ~~~RFlags.ALL
  narrow : i.osize s.toCpu = O16 → ∀ k, 16 ≤ k →
    s'.regs.rflags.bits.getLsbD k = s.regs.rflags.bits.getLsbD k

namespace FlagsGuarded

variable {i : FlagReturn} {s s' : Machine β}

/-- Flags that have not moved have been guarded. -/
theorem kept (h : s'.regs.rflags = s.regs.rflags) : FlagsGuarded i s s' := by
  constructor
  · exact fun _ => by rw [h]
  · exact fun _ => by rw [h]
  · exact fun hne => absurd (by rw [h]) hne
  · rw [h]
  · exact fun _ _ _ => by rw [h]

/-- A load under a mask with the right bits missing. -/
theorem load (hdef : s.regs.rflags.Defined) {v : U64} {m : U32}
    (hload : s'.regs.rflags = s.regs.rflags.load v m)
    (hiopl : 0 < s.cpl → m.getLsbD 12 = false ∧ m.getLsbD 13 = false)
    (hif : s.regs.rflags.iopl < s.cpl → m.getLsbD 9 = false)
    (hvm : RFlags.SparesVm m) (hnarrow : i.osize s.toCpu = O16 → ∀ k, 16 ≤ k →
      s'.regs.rflags.bits.getLsbD k
        = s.regs.rflags.bits.getLsbD k) : FlagsGuarded i s s' where
  iopl h := by
    have hmask :
      RFlags.IOPL = BitVec.twoPow 32 12 ||| BitVec.twoPow 32 13 := by decide
    obtain ⟨h12, h13⟩ := hiopl h
    refine BitVec.eq_of_getLsbD_eq fun k _ => ?_
    rw [hload, BitVec.getLsbD_and, BitVec.getLsbD_and,
      RFlags.getLsbD_load hdef, hmask, BitVec.getLsbD_or,
      BitVec.getLsbD_twoPow, BitVec.getLsbD_twoPow]
    by_cases hk12 : k = 12
    · rw [hk12, h12, if_neg Bool.false_ne_true]
    by_cases hk13 : k = 13
    · rw [hk13, h13, if_neg Bool.false_ne_true]
    · simp [Ne.symm hk12, Ne.symm hk13]
  intr h := by
    have hmask : RFlags.IF = BitVec.twoPow 32 9 := by decide
    refine BitVec.eq_of_getLsbD_eq fun k _ => ?_
    rw [hload, BitVec.getLsbD_and, BitVec.getLsbD_and,
      RFlags.getLsbD_load hdef, hmask, BitVec.getLsbD_twoPow]
    by_cases hk : k = 9
    · rw [hk, hif h, if_neg Bool.false_ne_true]
    · simp [Ne.symm hk]
  vm h := absurd (by rw [hload, RFlags.vm_load _ _ _ hvm]) h
  reserved := by rw [hload, RFlags.defined_load, hdef]
  narrow := hnarrow

end FlagsGuarded

-- ======== up to the load

/-- What the mask is computed from is as it was. -/
structure Poised (s s' : Machine β) : Prop where
  rflags : s'.regs.rflags = s.regs.rflags
  cold : s'.regs.toColdRegs = s.regs.toColdRegs
  osize : s'.osize = s.osize
  m64 : s'.m64 = s.m64

instance instIsPreorderPoised : IsPreorder (Machine β) Poised where
  refl _ := ⟨rfl, rfl, rfl, rfl⟩
  trans _ _ _ h h' :=
    ⟨h'.rflags.trans h.rflags, h'.cold.trans h.cold, h'.osize.trans h.osize,
    h'.m64.trans h.m64⟩

/-- The flags, CR0 and the operand size are as they were: what a transfer
keeps that has loaded segments. -/
structure FlagsKept (s s' : Machine β) : Prop where
  rflags : s'.regs.rflags = s.regs.rflags
  cr0 : s'.regs.cr0 = s.regs.cr0
  osize : s'.osize = s.osize

instance instIsPreorderFlagsKept : IsPreorder (Machine β) FlagsKept where
  refl _ := ⟨rfl, rfl, rfl⟩
  trans _ _ _ h h' :=
    ⟨h'.rflags.trans h.rflags, h'.cr0.trans h.cr0, h'.osize.trans h.osize⟩

/-- A disturbance moves memory and caches, none of what the load goes by. -/
theorem Disturbed.poised {s s' : Machine β} (h : Disturbed s s') :
    Poised s s' := by
  obtain ⟨_, _, _, _, rfl⟩ := h
  exact ⟨rfl, rfl, rfl, rfl⟩

namespace Poised

variable {s s' : Machine β}

/-- What a poised machine still has in common with the one before. -/
theorem cpl (h : Poised s s') : s'.cpl = s.cpl := by
  unfold Cpu.cpl Cpu.protectedMode
  rw [h.rflags, h.cold]

theorem protectedMode (h : Poised s s') :
    s'.protectedMode = s.protectedMode := by
  unfold Cpu.protectedMode
  rw [h.rflags, h.cold]

theorem longMode (h : Poised s s') : s'.longMode = s.longMode := by
  unfold Cpu.longMode
  rw [h.cold]

/-- Up to the load the flags are those of the start. -/
theorem flagsKept (h : Poised s s') : FlagsKept s s' :=
  ⟨h.rflags, by rw [h.cold], h.osize⟩

end Poised

variable [Bus β]

/-- What only works on memory and caches leaves the machine poised. -/
theorem Mild.poised {x : Calm β α} (h : Mild x) :
    Fallible.Along Poised x.run :=
  fun s => (h s).poised

/-- Popping the frame moves the stack pointer. -/
theorem poised_adjustSp (delta : U64) :
    Fallible.Along Poised (adjustSp delta : Calm β Unit).run :=
  fun _ => ⟨rfl, rfl, rfl, rfl⟩

/-- A pop at any size. -/
theorem poised_popSized (z : OpSize) :
    Fallible.Along Poised (popSized z : Calm β U64).run := by
  cases z with
  | O16 =>
    exact Fallible.Along.bind
      (Fallible.Along.bind Mild.self.poised fun _ => Fallible.Along.bind
      (Mild.read16 _ _).poised fun _ =>
        Fallible.Along.bind (poised_adjustSp _) fun _ =>
      .pure _) fun _ => .pure _
  | O32 =>
    exact Fallible.Along.bind
      (Fallible.Along.bind Mild.self.poised fun _ => Fallible.Along.bind
      (Mild.read32 _ _).poised fun _ =>
        Fallible.Along.bind (poised_adjustSp _) fun _ =>
      .pure _) fun _ => .pure _
  | O64 =>
    exact Fallible.Along.bind Mild.self.poised fun _ => Fallible.Along.bind
      (Mild.read64 _ _).poised fun _ => Fallible.Along.bind (poised_adjustSp _)
        fun _ => .pure _

theorem poised_popOp : Fallible.Along Poised (popOp : Calm β U64).run :=
  Fallible.Along.bind Mild.self.poised fun _ => poised_popSized _

theorem poised_popStackIf (c : Bool) :
    Fallible.Along Poised (popStackIf c : Calm β (U64 × U16)).run := by
  unfold popStackIf
  split
  · exact Fallible.Along.bind poised_popOp fun _ => Fallible.Along.bind
      poised_popOp fun _ => .pure _
  · exact .pure _

-- ======== segment loads

/-- A computation, under whatever bound, that keeps the flags. -/
def KeepsFlags {R : Machine β → Machine β → Prop} (x : Bounded R Exception α) : Prop :=
  Fallible.Along FlagsKept x.run

namespace KeepsFlags

section AnyBound

omit [Bus β]

variable {R : Machine β → Machine β → Prop} [IsPreorder (Machine β) R]

/-- The closure rules of what leaves the flags alone. -/
theorem pure (a : α) : KeepsFlags (pure a : Bounded R Exception α) :=
  Fallible.Along.pure a

theorem throw (e : Exception) : KeepsFlags (throw e : Bounded R Exception α) :=
  fun s => refl_of FlagsKept s

theorem self : KeepsFlags (self : Bounded R Exception (Machine β)) :=
  Fallible.Along.get

/-- A sequence leaves the flags alone where its parts do. -/
theorem bind {x : Bounded R Exception α} {f : α → Bounded R Exception γ}
    (hx : KeepsFlags x)
    (hf : ∀ a, KeepsFlags (f a)) : KeepsFlags (x >>= f) :=
      Fallible.Along.bind hx hf

theorem raiseIf (c : Prop) [Decidable c] (e : Exception) :
    KeepsFlags (raiseIf c e : Bounded R Exception Unit) := by
  unfold X64.raiseIf
  split
  · exact .throw e
  · exact .pure ()

theorem whenever (c : Prop) [Decidable c] {m : Bounded R Exception Unit}
    (hm : KeepsFlags m) :
    KeepsFlags (whenever c m) := by
  unfold X64.whenever
  split
  · exact hm
  · exact .pure ()

omit [IsPreorder (Machine β) R] in
theorem lift {R' : Machine β → Machine β → Prop} [Bounded.Within R R']
    {x : Bounded R Exception α} (h : KeepsFlags x) :
    KeepsFlags (x.lift : Bounded R' Exception α) := h

end AnyBound

/-- A mild computation, also within a transfer. -/
theorem mild {x : Calm β α} (h : Mild x) : KeepsFlags (x.lift : Xfer β α) :=
  fun s => (h s).poised.flagsKept

/-- A part of the return before the load. -/
theorem poised {x : Calm β α} (h : Fallible.Along Poised x.run) :
    KeepsFlags (x.lift : Xfer β α) := fun s => (h s).flagsKept

/-- A write of the hot registers that leaves the flags alone. -/
theorem modifyHot {g : HotRegs → HotRegs}
    {h : ∀ r, (g r).rflags.vm = r.rflags.vm}
    (hg : ∀ r, (g r).rflags = r.rflags) :
    KeepsFlags (modifyHot g h : Calm β Unit) :=
  fun _ => ⟨hg _, rfl, rfl⟩

theorem setRip (v : U64) : KeepsFlags (setRip v : Calm β Unit) :=
  modifyHot fun _ => rfl

theorem warmWrite {g : ColdRegs → ColdRegs} {h : ∀ r, (g r).SameMode r} :
    KeepsFlags (warmWrite g h : Warm β Unit) := fun _ => ⟨rfl, (h _).1, rfl⟩

omit [Bus β] in
/-- The save before a delivery keeps the flags. -/
theorem flagsKept_prepared (s : Machine β) : FlagsKept s s.prepared := by
  refine ⟨congrArg (·.rflags) s.regs_prepared,
    congrArg (·.cr0) s.regs_prepared, ?_⟩
  unfold Machine.prepared
  split <;> rfl

theorem prepared {m : Warm β α} (hm : KeepsFlags m) :
    KeepsFlags (prepared m) :=
  fun s => trans_of FlagsKept (flagsKept_prepared s) (hm s.prepared)

theorem coldWrite {g : ColdRegs → ColdRegs} {h : ∀ r, (g r).SameMode r} :
    KeepsFlags (coldWrite g h : Xfer β Unit) := prepared warmWrite

/-- Segment loads of the return. -/
theorem loadCs (sel : U16) (d : Descriptor) (cpl : U8) :
    KeepsFlags (loadCs sel d cpl : Xfer β Unit) :=
  (mild (.markAccessed d)).bind fun _ => coldWrite

theorem loadOuterSs (ss : U16) (sp : U64) (rpl : U8) :
    KeepsFlags (loadOuterSs ss sp rpl : Xfer β Unit) := by
  refine self.bind fun s => ?_
  split
  · split
    · exact coldWrite.bind fun _ => lift (modifyHot fun _ => rfl)
    · exact throw _
  · refine (raiseIf _ _).bind fun _ =>
      (mild (.readDescriptor ss)).bind fun d =>
      (raiseIf _ _).bind fun _ => (raiseIf _ _).bind fun _ =>
        (mild (.markAccessed d)).bind fun _ =>
      coldWrite.bind fun _ => self.bind fun s' => ?_
    split
    · exact lift (modifyHot fun _ => rfl)
    · exact lift (modifyHot fun _ => HotRegs.rflags_setStack _ _ _)

theorem farReal (sel : U16) (off : U64) :
    KeepsFlags (farReal sel off : Xfer β Unit) :=
  prepared (self.bind fun _ => (raiseIf _ _).bind fun _ =>
    warmWrite.bind fun _ => lift (setRip _))

end KeepsFlags

-- ======== POPF

/-- POPF's own pop. -/
theorem poised_pop : Fallible.Along Poised (pop : Calm β U64).run :=
  Fallible.Along.bind Mild.self.poised fun _ => poised_popSized _

/-- In virtual-8086 mode the instruction goes on at IOPL 3 only, and has moved
nothing. -/
theorem run_v86Iopl_ok {s s' : Machine β}
    (h : (v86Iopl : Calm β Unit).run s = (.ok (), s')) :
    ¬ (s.regs.rflags.contains RFlags.VM ∧ s.regs.rflags.iopl < 3)
      ∧ s' = s := by
  rw [v86Iopl, Bounded.run_bind, Fallible.bind_of_ok (run_self s),
    run_raiseIf] at h
  split at h <;> cases h
  exact ⟨‹_›, rfl⟩

/-- Where IOPL is below CPL, and POPF still goes on, it is in protected
mode. -/
theorem protectedMode_of_iopl {c : Cpu}
    (hv86 : ¬ (c.regs.rflags.contains RFlags.VM ∧ c.regs.rflags.iopl < 3))
    (h : c.regs.rflags.iopl < c.cpl) : c.protectedMode = true := by
  unfold Cpu.cpl at h
  split at h
  · exact absurd ⟨‹_›, h⟩ hv86
  split at h
  · assumption
  · exact absurd h (by rw [BitVec.lt_def]; exact Nat.not_lt_zero _)

/-- POPF guards the flags, whatever is popped. -/
theorem popf_guarded (s : Machine β) (hdef : s.regs.rflags.Defined) :
    FlagsGuarded .popf s ((popf : Calm β U32).run s).2 := by
  have hv86 : Fallible.Along Poised (v86Iopl : Calm β Unit).run :=
    Fallible.Along.bind Mild.self.poised fun _ => (Mild.raiseIf _ _).poised
  refine Fallible.Along.bind_cases (P := fun out => FlagsGuarded .popf s out.2) hv86
    (fun e s' h => .kept h.rflags) fun _ s' hok _ => ?_
  obtain ⟨hiopl, rfl⟩ := run_v86Iopl_ok hok
  -- The stack's operand size is what the pop and the mask see.
  obtain ⟨s₁, hs₁⟩ : ∃ s₁,
    s₁ = s'.withDecode { s'.toDecodeState with osize := s'.stackOsize } :=
    ⟨_, rfl⟩
  have hflags : s₁.regs = s'.regs := by rw [hs₁]; rfl
  have hcpl : s₁.cpl = s'.cpl := by rw [hs₁]; rfl
  have hprot : s₁.protectedMode = s'.protectedMode := by rw [hs₁]; rfl
  have hsize : s₁.osize = s'.stackOsize := by rw [hs₁]; rfl
  have hrun : ((useStackOsize >>= fun _ => pop >>= fun v => self >>= fun s : Machine β =>
      loadFlags v s.popfMask s.popfMask_vm >>= fun _ => Pure.pure 5 : Calm
        β U32)).run s'
      = ((pop >>= fun v => self >>= fun s : Machine β =>
        loadFlags v s.popfMask s.popfMask_vm >>= fun _ => Pure.pure 5 : Calm β
          U32)).run s₁ := by
    rw [hs₁]
    rfl
  show FlagsGuarded .popf s' (((useStackOsize >>= fun _ => pop >>= fun v =>
    self >>= fun s : Machine β =>
      loadFlags v s.popfMask s.popfMask_vm >>= fun _ =>
      Pure.pure 5 : Calm β U32)).run s').2
  rw [hrun]
  refine Fallible.Along.bind_cases
    (P := fun out => FlagsGuarded .popf s' out.2) poised_pop
    (fun e s₂ h => .kept (by rw [h.rflags, hflags])) fun v s₂ _ h => ?_
  have hf : s₂.regs.rflags = s'.regs.rflags := by rw [h.rflags, hflags]
  have hload : s₂.regs.rflags.load v s₂.popfMask
    = s'.regs.rflags.load v s₂.popfMask := by rw [hf]
  refine .load hdef hload (fun hpos => ?_) (fun hlt => ?_) s₂.popfMask_vm
    fun hnarrow k hk => ?_
  · exact s₂.popfMask_iopl (by rw [h.cpl, hcpl]; exact hpos)
  · refine s₂.popfMask_if ?_ (by rw [h.cpl, hcpl, hf]; exact hlt)
    rw [h.protectedMode, hprot]
    exact protectedMode_of_iopl hiopl hlt
  · show (s₂.regs.rflags.load v s₂.popfMask).bits.getLsbD k = _
    rw [hload, RFlags.getLsbD_load hdef,
      s₂.popfMask_narrow (by rw [h.osize, hsize]; exact hnarrow) hk,
      if_neg Bool.false_ne_true]

-- ======== IRET

omit [Bus β] in
/-- The law over a sequence: what keeps the flags may come first. -/
theorem FlagsGuarded.after {R : Machine β → Machine β → Prop}
    [IsPreorder (Machine β) R]
    {i : FlagReturn} {s s₁ : Machine β} {x : Bounded R Exception α}
    {f : α → Bounded R Exception γ} (h : FlagsKept s s₁) (hx : KeepsFlags x)
    (hf : ∀ a s₂, x.run s₁ = (.ok a, s₂) → FlagsKept s s₂ →
      FlagsGuarded i s ((f a).run s₂).2) : FlagsGuarded i s
        ((x >>= f).run s₁).2 :=
  Fallible.Along.bind_cases (P := fun out => FlagsGuarded i s out.2) hx
    (fun _ _ h' => .kept (trans_of FlagsKept h h').rflags)
    fun a s₂ ha h' => hf a s₂ ha (trans_of FlagsKept h h')

/-- IRET without protection: the mask is POPF's. -/
theorem iretReal_guarded (v86 : Bool) (s : Machine β)
    (hdef : s.regs.rflags.Defined)
    (hprot : s.protectedMode = false) (hio : ¬ s.regs.rflags.iopl < s.cpl) :
    FlagsGuarded .iret s ((iretReal v86 : Xfer β U32).run s).2 := by
  refine .after (refl_of FlagsKept s) (.poised poised_popOp)
    fun ip s₁ _ h₁ => ?_
  refine .after h₁ (.poised poised_popOp) fun cs s₂ _ h₂ => ?_
  refine .after h₂ (.poised poised_popOp) fun fl s₃ _ h₃ => ?_
  refine .after h₃ .self fun s₃' _ hself _ => ?_
  cases hself
  refine .after h₃ (.farReal (cs.setWidth 16) (s₃.realIp ip))
    fun _ s₄ _ h => ?_
  have hkeep : ∀ k, s₄.popfMask.getLsbD k = false →
      (s₄.popfMask &&& ~~~(if v86 then RFlags.IOPL ||| RFlags.VM else 0)).getLsbD k = false := by
    intro k hk
    rw [BitVec.getLsbD_and, hk, Bool.false_and]
  have hload : ∀ m,
    s₄.regs.rflags.load fl m = s.regs.rflags.load fl m :=
    fun m => by rw [h.rflags]
  refine .load hdef (hload _) (fun hpos => ?_) (fun hlt => absurd hlt hio)
    (and_vm _ _ s₄.popfMask_vm) fun hnarrow k hk => ?_
  · -- Without protection only V86 mode is outside ring 0.
    have hvm : s.regs.rflags.contains RFlags.VM = true := by
      by_contra hvm
      unfold Cpu.cpl at hpos
      rw [if_neg hvm, hprot, if_neg Bool.false_ne_true] at hpos
      exact absurd hpos (by decide)
    have hpos₄ : 0 < s₄.cpl := by
      unfold Cpu.cpl
      rw [h.rflags, if_pos hvm]
      decide
    exact ⟨hkeep _ (s₄.popfMask_iopl hpos₄).1,
      hkeep _ (s₄.popfMask_iopl hpos₄).2⟩
  · show (s₄.regs.rflags.load fl _).bits.getLsbD k = _
    rw [hload, RFlags.getLsbD_load hdef,
      hkeep k (s₄.popfMask_narrow (by rw [h.osize]; exact hnarrow) hk),
      if_neg Bool.false_ne_true]

/-- IRETD into V86 mode takes every flag from the image; only ring 0 gets
there. -/
theorem iretToV86_guarded (ip : U64) (cs : U16) (fl : U64) {s s₀ : Machine β}
    (hdef : s.regs.rflags.Defined) (hsize : s.osize = O32) (hcpl : s.cpl = 0)
    (hlong : s.longMode = false) (h₀ : FlagsKept s s₀) :
    FlagsGuarded .iret s ((iretToV86 ip cs fl : Xfer β U32).run s₀).2 := by
  have hpop : KeepsFlags (pop32.lift : Warm β U32) := fun s' =>
    (Fallible.Along.bind Mild.self.poised (fun _ => Fallible.Along.bind
      (Mild.read32 _ _).poised fun _ =>
        Fallible.Along.bind (poised_adjustSp _) fun _ =>
      .pure _) s').flagsKept
  have hloaded : ∀ s' : Machine β,
      s'.regs.rflags = RFlags.fromBitsTruncate (fl.setWidth 32) →
      FlagsGuarded .iret s s' := by
    intro s' hs'
    constructor
    · exact fun h => absurd h (by rw [hcpl]; decide)
    · exact fun h =>
        absurd h (by rw [hcpl, BitVec.lt_def]; exact Nat.not_lt_zero _)
    · exact fun _ => ⟨rfl, hsize, hcpl, hlong⟩
    · rw [hs', hdef, RFlags.fromBitsTruncate, BitVec.and_assoc,
        BitVec.and_not_self]
      exact BitVec.and_zero
    · exact fun h => absurd (hsize.symm.trans h) (by decide)
  have h := trans_of FlagsKept h₀ (KeepsFlags.flagsKept_prepared s₀)
  unfold iretToV86
  rw [run_prepared]
  refine .after h hpop fun sp s₁ _ h₁ => ?_
  refine .after h₁ hpop fun ss s₂ _ h₂ => ?_
  refine .after h₂ hpop fun es s₃ _ h₃ => ?_
  refine .after h₃ hpop fun ds s₄ _ h₄ => ?_
  refine .after h₄ hpop fun fs s₅ _ h₅ => ?_
  refine .after h₅ hpop fun gs s₆ _ _ => ?_
  exact hloaded _ rfl

/-- A protected return from `s`: the flags come from the image under the
mask if it completes, and are kept if it faults. -/
structure Returns (s : Machine β) (fl : U64) (m : U32)
    (out : Except Exception U32 × Machine β) : Prop where
  error : ∀ e, out.1 = .error e → out.2.regs.rflags = s.regs.rflags
  ok : ∀ c, out.1 = .ok c → out.2.regs.rflags = s.regs.rflags.load fl m

omit [Bus β] in
/-- A return that faults has loaded no flags. -/
theorem Returns.failed {s s' : Machine β} {fl : U64} {m : U32} {e : Exception}
    (h : FlagsKept s s') : Returns s fl m (.error e, s') where
  error _ _ := h.rflags
  ok _ hc := by cases hc

omit [Bus β] in
/-- A return that loads its flags under the mask. -/
theorem Returns.loaded {s s' : Machine β} {fl : U64} {m c : U32}
    (h : s'.regs.rflags = s.regs.rflags.load fl m) :
    Returns s fl m (.ok c, s') where
  error _ he := by cases he
  ok _ _ := h

/-- What comes before the load of a return keeps the flags. -/
theorem Returns.after {s s₁ : Machine β} {fl : U64} {m : U32} {x : Xfer β α}
    {f : α → Xfer β U32} (h : FlagsKept s s₁) (hx : KeepsFlags x)
    (hf : ∀ a s₂, x.run s₁ = (.ok a, s₂) → FlagsKept s s₂ →
      Returns s fl m ((f a).run s₂)) :
    Returns s fl m ((x >>= f).run s₁) := by
  refine Fallible.Along.bind_cases (P := Returns s fl m) hx (fun e s₂ h' => ?_)
    fun a s₂ ha h' => hf a s₂ ha (trans_of FlagsKept h h')
  exact .failed (trans_of FlagsKept h h')

omit [Bus β] in
/-- The mask depends on nothing a pop or a descriptor read changes. -/
theorem Poised.iretFlagMask {s s' : Machine β} (h : Poised s s') (l : U8) :
    s'.iretFlagMask l = s.iretFlagMask l := by
  unfold Cpu.iretFlagMask
  rw [h.osize, h.rflags]

/-- A return in protected mode loads under the mask of the level it leaves. -/
theorem iretProtected_returns (ip : U64) (sel : U16)
    (fl : U64) {s s₀ : Machine β} (h₀ : Poised s s₀) :
    Returns s fl (s.iretFlagMask s.cpl)
      ((iretProtected ip sel fl : Xfer β U32).run s₀) := by
  refine .after h₀.flagsKept .self fun _ _ hself _ => ?_
  cases hself
  refine .after h₀.flagsKept (.poised (poised_popStackIf _))
    fun popped s₁ hpop _ => ?_
  obtain ⟨sp, ss⟩ := popped
  have h₁ : Poised s s₁ := by
    have hp := poised_popStackIf s₀.m64 s₀
    rw [show (popStackIf s₀.m64).run s₀ = (.ok (sp, ss), s₁) from hpop] at hp
    exact trans_of Poised h₀ hp
  refine .after h₁.flagsKept .self fun _ _ hself _ => ?_
  cases hself
  refine .after h₁.flagsKept (.mild (.returnTarget sel ip)) fun d
    s₂ htarget _ => ?_
  have h₂ : Poised s s₂ := by
    have hp := (Mild.returnTarget sel ip).poised s₁
    rw [show (returnTarget sel ip).run s₁ = (.ok d, s₂) from htarget] at hp
    exact trans_of Poised h₁ hp
  refine .after h₂.flagsKept .self fun _ _ hself _ => ?_
  cases hself
  have hmask : s₂.iretFlagMask s₁.cpl = s.iretFlagMask s.cpl := by
    rw [h₂.iretFlagMask, h₁.cpl]
  dsimp only
  split
  · refine .after h₂.flagsKept (.poised (poised_popStackIf _))
      fun _ s₃ _ h₃ => ?_
    refine .after h₃ (.loadCs sel d _) fun _ s₄ _ h₄ => ?_
    refine .after h₄ (.loadOuterSs _ _ _) fun _ s₅ _ h₅ => ?_
    refine .after h₅ (.lift (.setRip ip)) fun _ s₆ _ h₆ => ?_
    have hkeep := KeepsFlags.coldWrite (g := (·.validateDataSegs (rplOf sel)))
      (h := ColdRegs.sameMode_self) (s₆.withHot { s₆.regs.toHotRegs with
        rflags := s₆.regs.rflags.load fl (s₂.iretFlagMask s₁.cpl) })
    refine .loaded (hkeep.rflags.trans ?_)
    rw [← hmask, ← h₆.rflags]
    rfl
  · refine .after h₂.flagsKept (.loadCs sel d _) fun _ s₃ _ h₃ => ?_
    refine .after h₃ (.whenever _ (.loadOuterSs _ _ _)) fun _ s₄ _ h₄ => ?_
    refine .after h₄ (.lift (.setRip ip)) fun _ s₅ _ h₅ => ?_
    refine .loaded ?_
    rw [← hmask, ← h₅.rflags]
    rfl

-- ======== the exact law

/-- A word popped has nothing above it. -/
theorem popOp_narrow {s s' : Machine β} {v : U64} (hsize : s.osize = O16)
    (h : (popOp : Calm β U64).run s = (.ok v, s')) {k : Nat} (hk : 16 ≤ k) :
    v.getLsbD k = false := by
  unfold popOp at h
  rw [Bounded.run_bind, Fallible.bind_of_ok (run_self s), hsize] at h
  obtain ⟨w, rfl⟩ : ∃ w : U16, w.setWidth 64 = v := by
    simp only [popSized, Bounded.run_map, Fallible.map_apply] at h
    rcases hr : (pop16 : Calm β U16).run s with ⟨_ | w, _⟩
      <;> rw [hr] at h <;> cases h
    exact ⟨w, rfl⟩
  rw [BitVec.getLsbD_setWidth, BitVec.getLsbD_of_ge w k hk, Bool.and_false]

omit [Bus β] in
/-- A protected return of a narrow image is guarded where it has no AC and
no ID to lose. -/
theorem guarded_protected_iff {s s' : Machine β} (hdef : s.regs.rflags.Defined)
    {fl : U64} (hfl : s.osize = O16 → ∀ k, 16 ≤ k → fl.getLsbD k = false)
    (hload : s'.regs.rflags = s.regs.rflags.load fl (s.iretFlagMask s.cpl)) :
    FlagsGuarded .iret s s'
      ↔ ¬ (s.osize = O16
        ∧ s.regs.rflags.bits &&& (RFlags.AC ||| RFlags.ID) ≠ 0) := by
  have hmask : RFlags.AC ||| RFlags.ID = BitVec.twoPow 32 18 ||| BitVec.twoPow
    32 21 := by decide
  constructor
  · rintro hg ⟨hsize, hne⟩
    refine hne (BitVec.eq_of_getLsbD_eq fun k _ => ?_)
    rw [BitVec.getLsbD_and, hmask, BitVec.getLsbD_or, BitVec.getLsbD_twoPow,
      BitVec.getLsbD_twoPow]
    have hlost : ∀ j, 16 ≤ j → (j = 18 ∨ j = 21) →
      s.regs.rflags.bits.getLsbD j = false := by
      intro j hj hor
      rw [← hg.narrow hsize j hj, hload, RFlags.getLsbD_load hdef,
        s.iretFlagMask_narrow hsize _ hj, hfl hsize j hj,
        if_pos (by simpa using hor), Bool.false_and]
    by_cases h18 : k = 18
    · rw [h18, hlost 18 (by decide) (.inl rfl), Bool.false_and]
      rfl
    by_cases h21 : k = 21
    · rw [h21, hlost 21 (by decide) (.inr rfl), Bool.false_and]
      rfl
    · simp [Ne.symm h18, Ne.symm h21]
  · intro hclear
    refine .load hdef hload (fun h => s.iretFlagMask_iopl h)
      (fun h => s.iretFlagMask_if h) (s.iretFlagMask_vm _) fun hsize k hk => ?_
    have hzero : s.regs.rflags.bits &&& (RFlags.AC ||| RFlags.ID) = 0 := by
      by_contra hne
      exact hclear ⟨hsize, hne⟩
    have hbit := congrArg (·.getLsbD k) hzero
    rw [hload, RFlags.getLsbD_load hdef, s.iretFlagMask_narrow hsize _ hk,
      hfl hsize k hk]
    rw [hmask] at hbit
    simp only [BitVec.getLsbD_and, BitVec.getLsbD_or,
      BitVec.getLsbD_twoPow] at hbit
    grind

/-- What is to be shown of an IRET from `s`. -/
structure IretLaw (s : Machine β) (out : Except Exception U32 × Machine β) :
    Prop where
  error : ∀ e, out.1 = .error e → FlagsGuarded .iret s out.2
  ok : ∀ c, out.1 = .ok c → (FlagsGuarded .iret s out.2
    ↔ ¬ (s.osize = O16 ∧ s.protectedMode = true
      ∧ s.regs.rflags.bits &&& (RFlags.AC ||| RFlags.ID) ≠ 0))

namespace IretLaw

variable {s : Machine β} {out : Except Exception U32 × Machine β}

omit [Bus β] in
/-- Guarded flags meet the exact law where the operand size is not the
exception. -/
theorem of_guarded (hg : FlagsGuarded .iret s out.2)
    (h : ¬ (s.osize = O16 ∧ s.protectedMode = true)) : IretLaw s out :=
  ⟨fun _ _ => hg, fun _ _ => ⟨fun _ hbad => h ⟨hbad.1, hbad.2.1⟩, fun _ => hg⟩⟩

omit [Bus β] in
/-- The exact law of a return in protected mode, read off its load. -/
theorem of_returns (hdef : s.regs.rflags.Defined)
    (hprot : s.protectedMode = true) {fl : U64}
    (hfl : s.osize = O16 → ∀ k, 16 ≤ k → fl.getLsbD k = false)
    (h : Returns s fl (s.iretFlagMask s.cpl) out) : IretLaw s out := by
  refine ⟨fun e he => .kept (h.error e he), fun c hc => ?_⟩
  rw [guarded_protected_iff hdef hfl (h.ok c hc)]
  exact not_congr ⟨fun ⟨hsize, hne⟩ => ⟨hsize, hprot, hne⟩,
    fun ⟨hsize, _, hne⟩ => ⟨hsize, hne⟩⟩

/-- What leaves the machine poised may stand before the law. -/
theorem after {s₁ : Machine β} {x : Calm β α}
    {f : α → Xfer β U32} (h : Poised s s₁) (hx : Fallible.Along Poised x.run)
    (hf : ∀ a s₂, x.run s₁ = (.ok a, s₂) → Poised s s₂ →
      IretLaw s ((f a).run s₂)) :
    IretLaw s ((x.lift >>= f).run s₁) := by
  refine Fallible.Along.bind_cases (P := IretLaw s) hx (fun e s₂ h' => ?_)
    fun a s₂ ha h' => hf a s₂ ha (trans_of Poised h h')
  exact ⟨fun _ _ => .kept (trans_of Poised h h').rflags,
    fun _ hc => (nomatch hc)⟩

end IretLaw

/-- Outside V86 mode CPL exceeds nothing but under protection. -/
theorem not_iopl_of_real {c : Cpu}
    (hvm : c.regs.rflags.contains RFlags.VM = false)
    (hprot : c.protectedMode = false) : ¬ c.regs.rflags.iopl < c.cpl := by
  unfold Cpu.cpl
  rw [hvm, hprot, BitVec.lt_def]
  exact Nat.not_lt_zero _

/-- IRET in every mode, case by case as the source has them. -/
theorem iret_law (s : Machine β)
    (hmode : s.regs.rflags.contains RFlags.VM = true →
      s.regs.cr0 &&& cr0.PE ≠ 0)
    (hdef : s.regs.rflags.Defined) :
    IretLaw s ((X64.iret : Xfer β U32).run s) := by
  unfold X64.iret
  rw [Bounded.run_bind, Fallible.bind_of_ok (run_self s)]
  by_cases hpe : s.regs.cr0 &&& cr0.PE = 0
  · have hvm : s.regs.rflags.contains RFlags.VM = false := by
      by_contra h
      exact hmode (by simpa using h) hpe
    have hprot : s.protectedMode = false := by
      unfold Cpu.protectedMode
      rw [hpe]
      rfl
    rw [if_pos hpe]
    exact .of_guarded
      (iretReal_guarded false s hdef hprot (not_iopl_of_real hvm hprot))
      fun h => absurd h.2 (by rw [hprot]; decide)
  rw [if_neg hpe]
  by_cases hvm : s.regs.rflags.contains RFlags.VM = true
  · have hprot : s.protectedMode = false := by
      unfold Cpu.protectedMode
      rw [hvm, Bool.not_true, Bool.and_false]
    have hreal : ¬ (s.osize = O16 ∧ s.protectedMode = true) :=
      fun h => absurd h.2 (by rw [hprot]; decide)
    rw [if_pos hvm, Bounded.run_bind]
    by_cases hio : s.regs.rflags.iopl < 3
    · rw [Fallible.bind_apply, run_raiseIf, if_pos hio]
      exact .of_guarded (.kept rfl) hreal
    · rw [Fallible.bind_of_ok (by rw [run_raiseIf, if_neg hio])]
      refine .of_guarded (iretReal_guarded true s hdef hprot ?_) hreal
      unfold Cpu.cpl
      rw [if_pos hvm]
      exact hio
  rw [if_neg hvm, Bounded.run_bind]
  have hprot : s.protectedMode = true := by
    unfold Cpu.protectedMode
    rw [Bool.eq_false_of_not_eq_true hvm, Bool.not_false,
      Bool.and_true, bne_iff_ne]
    exact hpe
  by_cases hnt : (s.regs.rflags.contains RFlags.NT && !s.longMode) = true
  · rw [Fallible.bind_apply, run_raiseIf, if_pos hnt]
    exact ⟨fun _ _ => .kept rfl, fun _ hc => (nomatch hc)⟩
  rw [Fallible.bind_of_ok (by rw [run_raiseIf, if_neg hnt])]
  refine .after (refl_of Poised s) poised_popOp fun ip s₁ _ h₁ => ?_
  refine .after h₁ poised_popOp fun sel s₂ _ h₂ => ?_
  refine .after h₂ poised_popOp fun fl s₃ hfl h₃ => ?_
  rw [Bounded.run_bind, Fallible.bind_of_ok (run_self s₃)]
  split
  case isTrue hv86 =>
    simp only [Bool.and_eq_true, Bool.not_eq_true', beq_iff_eq] at hv86
    obtain ⟨⟨⟨hlong, hsize⟩, -⟩, hcpl⟩ := hv86
    rw [h₃.osize] at hsize
    refine .of_guarded
      (iretToV86_guarded ip _ fl hdef hsize (h₃.cpl.symm.trans hcpl)
      (h₃.longMode.symm.trans hlong) h₃.flagsKept) fun h =>
        absurd (hsize.symm.trans h.1) (by decide)
  case isFalse =>
    refine .of_returns hdef hprot (fun hsize k hk => ?_)
      (iretProtected_returns ip _ fl h₃)
    exact popOp_narrow (h₂.osize.trans hsize) hfl hk

/-- The instruction a flag return is. -/
def FlagReturn.exec (i : FlagReturn) : Xfer β U32 :=
  match i with
  | .popf => X64.popf.lift
  | .iret => X64.iret

/-- **The flag law.** POPF and IRET guard the flags, and so does an IRET
that faults; one that completes does exactly when it is not a narrow return
in protected mode with AC or ID set. VM set means protection is on, and no
reserved flag is ever set. -/
theorem flags_guarded_iff (i : FlagReturn) (s : Machine β)
    (hmode : s.regs.rflags.contains RFlags.VM = true →
      s.regs.cr0 &&& cr0.PE ≠ 0)
    (hdef : s.regs.rflags.Defined) :
    (∀ e s', (i.exec : Xfer β U32).run s = (.error e, s') →
      FlagsGuarded i s s')
      ∧ ∀ c s', (i.exec : Xfer β U32).run s = (.ok c, s') →
        (FlagsGuarded i s s'
          ↔ ¬ (i = .iret ∧ s.osize = O16 ∧ s.protectedMode = true
          ∧ s.regs.rflags.bits &&& (RFlags.AC ||| RFlags.ID) ≠ 0)) := by
  cases i with
  | popf =>
    have hg := popf_guarded s hdef
    refine ⟨fun e s' h => ?_, fun c s' h => ?_⟩
    · rw [show (popf : Calm β U32).run s = (.error e, s') from h] at hg
      exact hg
    · rw [show (popf : Calm β U32).run s = (.ok c, s') from h] at hg
      exact ⟨fun _ hbad => absurd hbad.1 (by decide), fun _ => hg⟩
  | iret =>
    have hlaw := iret_law s hmode hdef
    refine ⟨fun e s' h => ?_, fun c s' h => ?_⟩
    · rw [show (X64.iret : Xfer β U32).run s = (.error e, s') from h] at hlaw
      exact hlaw.error e rfl
    · rw [show (X64.iret : Xfer β U32).run s = (.ok c, s') from h] at hlaw
      rw [hlaw.ok c rfl]
      exact not_congr ⟨fun hbad => ⟨rfl, hbad⟩, fun hbad => hbad.2⟩

/-- Ring 0 of flat 32-bit protection with AC set: an IRET of sixteen bits
with a frame of IP 0x1234, CS 8 and FLAGS 2 on the stack. -/
def narrowIretBench : Machine (FlatBus Unit) :=
  { Cpu.new with
    osize := O16
    regs := { Cpu.new.regs with
      cr0 := cr0.PE
      rflags := ⟨RFlags.AC⟩
      gpr := fun i => if i = reg.RSP then 0x100 else 0
      gdtr := { base := 0, limit := 0xFF }
      seg := fun i =>
        if i = reg.CS
          then { sel := 8, base := 0, limit := 0xFFFF, attrs := 0x9B }
        else { sel := 16, base := 0, limit := 0xFFFFFFFF, attrs := 0xC93 } }
    bus := {
      mem := fun a => if a = 8 ∨ a = 9 then 0xFF else if a = 13 then 0x9B
        else if a = 0x100 then 0x34 else if a = 0x101 then 0x12
        else if a = 0x102 then 8 else if a = 0x104 then 2 else 0
      ports := () } }

/-- The narrow return clears AC. -/
theorem flags_guarded_narrowIret :
    (X64.iret.run narrowIretBench).1 = .ok 22
      ∧ ¬ FlagsGuarded .iret narrowIretBench
        (X64.iret.run narrowIretBench).2 := by
  refine ⟨by decide, fun h => ?_⟩
  exact absurd (h.narrow rfl 18 (by decide)) (by decide)

/-- The law at that return. -/
theorem flags_guarded_iff_narrowIret :
    FlagsGuarded .iret narrowIretBench (X64.iret.run narrowIretBench).2
      ↔ ¬ (FlagReturn.iret = .iret ∧ narrowIretBench.osize = O16
        ∧ narrowIretBench.protectedMode = true
        ∧ narrowIretBench.regs.rflags.bits &&& (RFlags.AC ||| RFlags.ID) ≠ 0) :=
  (flags_guarded_iff .iret narrowIretBench (by decide) rfl).2 22 _
    (Prod.ext (by decide) rfl)

end Remu.X64
