/-
The exceptions an event delivery may run into.

Delivering an event reads gates and descriptors, picks a stack and pushes a
frame. What can go wrong there is a bad table entry, an absent segment, a
stack fault or a page fault: exceptions that are contributory in the sense
of the double-fault rules, or page faults, and no others. `Severe` singles
these out, and every computation a delivery is made of throws severe
exceptions only (`Severely`).
-/
import Remu.X64.Interrupt

namespace Remu.X64

/-- Contributory, or a page fault. -/
def Severe (e : Exception) : Prop :=
  contributory e.vector = true ∨ e.vector = 14

/-- The exceptions a segment or a page raises are severe. -/
theorem Severe.gp (c : U16) : Severe (Exception.gp c) :=
  .inl (show contributory 13 = true by decide)

theorem Severe.np (c : U16) : Severe (Exception.np c) :=
  .inl (show contributory 11 = true by decide)

theorem Severe.ts (c : U16) : Severe (Exception.ts c) :=
  .inl (show contributory 10 = true by decide)

theorem Severe.ss (c : U16) : Severe (Exception.ss c) :=
  .inl (show contributory 12 = true by decide)

theorem Severe.pf (c : U16) : Severe (Exception.pf c) := .inr rfl

/-- A segment violation is #SS for SS and #GP else. -/
theorem Severe.segFault (seg : U8) : Severe (segFault seg) := by
  unfold X64.segFault
  split
  · exact .ss 0
  · exact .gp 0

variable {β : Type} [Bus β] {α γ : Type}

/-- A computation, under whatever bound, that throws severe exceptions
only. -/
def Severely {R : Machine β → Machine β → Prop} (x : Bounded R Exception α) : Prop :=
  Fallible.Throws Severe x.run

namespace Severely

section AnyBound

omit [Bus β]

variable {R : Machine β → Machine β → Prop} [IsPreorder (Machine β) R]

/-- The closure rules; every computation below is put together by them. -/
theorem pure (a : α) : Severely (pure a : Bounded R Exception α) :=
  Fallible.Throws.pure a

theorem self : Severely (self : Bounded R Exception (Machine β)) :=
  Fallible.Throws.get

theorem throw {e : Exception} (h : Severe e) :
    Severely (throw e : Bounded R Exception α) :=
  Fallible.Throws.throw h

/-- A sequence raises what its parts raise. -/
theorem bind {x : Bounded R Exception α} {f : α → Bounded R Exception γ}
    (hx : Severely x)
    (hf : ∀ a, Severely (f a)) : Severely (x >>= f) :=
      Fallible.Throws.bind hx hf

theorem raiseIf (c : Prop) [Decidable c] {e : Exception} (h : Severe e) :
    Severely (raiseIf c e : Bounded R Exception Unit) := by
  unfold X64.raiseIf
  split
  · exact throw h
  · exact pure ()

/-- A check raises the error it was given. -/
theorem check {r : Except Exception α} (h : ∀ e, r = .error e → Severe e) :
    Severely (check r : Bounded R Exception α) := by
  cases r with
  | ok a => exact pure a
  | error e => exact throw (h e rfl)

theorem whenever (c : Prop) [Decidable c] {m : Bounded R Exception Unit}
    (hm : Severely m) :
    Severely (whenever c m) := by
  unfold X64.whenever
  split
  · exact hm
  · exact pure ()

omit [IsPreorder (Machine β) R] in
/-- A plain change of the state. -/
theorem change {x : Bounded R Exception Unit} {f : Machine β → Machine β}
    (h : x.run = Fallible.modify f) : Severely x := by
  unfold Severely
  rw [h]
  exact Fallible.Throws.modify f

omit [IsPreorder (Machine β) R] in
/-- A wider bound on effects does not change what is raised. -/
theorem lift {R' : Machine β → Machine β → Prop} [Bounded.Within R R']
    {x : Bounded R Exception α} (h : Severely x) :
    Severely (x.lift : Bounded R' Exception α) := h

end AnyBound

-- ======== translation

theorem touchBus (f : β → α × β) (h : ∀ b, BusTouch b (f b).2) :
    Severely (touchBus f h : Calm β α) :=
      Fallible.Throws.of_ok fun _ => ⟨_, _, rfl⟩

/-- A walk raises nothing but page faults. -/
theorem faultIf (c : Prop) [Decidable c] (lin : U64) (access : Access)
    (present rsvd : Bool) :
    Severely (faultIf c lin access present rsvd : Calm β Unit) := by
  unfold X64.faultIf
  split
  · intro s e s' h
    cases h
    exact .pf _
  · exact pure ()

theorem updateAccessed (write : Bool) (l : List PteRef) :
    Severely (updateAccessed write l : Calm β Unit) := by
  induction l with
  | nil => exact pure ()
  | cons r rest ih =>
    unfold X64.updateAccessed
    exact (whenever _ (change rfl)).bind fun _ => ih

theorem legacyLeaf (lin : U64) (access : Access) (lin32 pdeAddr : U64)
    (hpde : pdeAddr &&& 3 = 0) (pde : U64) (large : Bool) :
    Severely (legacyLeaf lin access lin32 pdeAddr hpde pde large : Calm β
      LegacyLeaf) := by
  unfold X64.legacyLeaf
  split
  · exact pure _
  · exact (touchBus _ _).bind fun _ => (faultIf _ _ _ _ _).bind fun _ => pure _

theorem walkLegacy (lin : U64) (access : Access) :
    Severely (walkLegacy lin access : Calm β (Translated lin)) := by
  unfold X64.walkLegacy
  exact self.bind fun _ => (touchBus _ _).bind fun _ =>
    (faultIf _ _ _ _ _).bind fun _ =>
    (legacyLeaf _ _ _ _ _ _ _).bind fun _ => self.bind fun _ =>
    (faultIf _ _ _ _ _).bind fun _ => (whenever _ (change rfl)).bind fun _ =>
    (whenever _ (change rfl)).bind fun _ => (change rfl).bind fun _ => pure _

theorem walkLevels (lin : U64) (access : Access) (long nxe : Bool)
    (shifts : List (Fin 40)) (table : U64) (levels : List PteRef) :
    Severely (walkLevels lin access long nxe shifts table levels : Calm β
      (WideWalk lin)) := by
  induction shifts generalizing table levels with
  | nil => exact pure _
  | cons shift rest ih =>
    unfold X64.walkLevels
    refine (touchBus _ _).bind fun _ => (faultIf _ _ _ _ _).bind fun _ =>
      (faultIf _ _ _ _ _).bind fun _ => ?_
    split
    · exact (faultIf _ _ _ _ _).bind fun _ => pure _
    · exact ih _ _

theorem readPdpte (lin : U64) (access : Access) :
    Severely (readPdpte lin access : Calm β U64) := by
  unfold X64.readPdpte
  exact self.bind fun _ => (touchBus _ _).bind fun _ =>
    (faultIf _ _ _ _ _).bind fun _ =>
    (faultIf _ _ _ _ _).bind fun _ => pure _

theorem walkWide (lin : U64) (access : Access) :
    Severely (walkWide lin access : Calm β (Translated lin)) := by
  unfold X64.walkWide
  refine self.bind fun s => Severely.bind ?_ fun _ =>
    (walkLevels _ _ _ _ _ _ _).bind fun _ =>
    self.bind fun _ => (faultIf _ _ _ _ _).bind fun _ =>
      (updateAccessed _ _).bind fun _ =>
    (change rfl).bind fun _ => pure _
  split
  · exact pure _
  · exact readPdpte _ _

theorem translate (lin : U64) (access : Access) :
    Severely (translate lin access : Calm β (Translated lin)) := by
  unfold X64.translate
  refine self.bind fun s => ?_
  dsimp only
  split
  · exact pure _
  · unfold X64.walk
    refine self.bind fun s => ?_
    split
    · exact walkLegacy _ _
    · exact walkWide _ _

/-- Translations one after another, by induction on the list. -/
theorem translateAll (lins : List U64) :
    Severely (translateAll lins : Calm β (List U64)) := by
  induction lins with
  | nil => exact pure _
  | cons lin rest ih =>
    exact (translate lin .write).bind fun _ => ih.bind fun _ => pure _

-- ======== linear accesses

/-- A crossing read: both halves. -/
theorem readHalves {w : Nat} {lo hi : Calm β (BitVec w)} (hlo : Severely lo)
    (hhi : Severely hi) :
    Severely (readHalves lo hi) := hlo.bind fun _ => hhi.bind fun _ => pure _

theorem linRead8 (lin : U64) : Severely (linRead8 lin : Calm β U8) := by
  refine self.bind fun s => ?_
  split
  · exact touchBus _ _
  · exact (translate _ _).bind fun _ => touchBus _ _

/-- A wide access in one go, or by its halves. -/
theorem wide {w : Nat} {lin lim : U64} {one : U64 → Calm β (BitVec (w + w))}
    {lo hi : Calm β (BitVec w)} (hone : ∀ a, Severely (one a))
    (hlo : Severely lo) (hhi : Severely hi) :
    Severely (X64.self >>= fun s : Machine β =>
      if !s.paging then one lin
      else if lin &&& 0xFFF < lim
        then X64.translate lin .read >>= fun phys => one phys.val
      else X64.readHalves lo hi) := by
  refine self.bind fun s => ?_
  split
  · exact hone _
  split
  · exact (translate _ _).bind fun _ => hone _
  · exact readHalves hlo hhi

theorem linRead16 (lin : U64) : Severely (linRead16 lin : Calm β U16) :=
  wide (fun _ => touchBus _ _) (linRead8 _) (linRead8 _)

theorem linRead32 (lin : U64) : Severely (linRead32 lin : Calm β U32) :=
  wide (fun _ => touchBus _ _) (linRead16 _) (linRead16 _)

theorem linRead64 (lin : U64) : Severely (linRead64 lin : Calm β U64) :=
  wide (fun _ => touchBus _ _) (linRead32 _) (linRead32 _)

/-- A crossing write translates both pages first. -/
theorem linWriteSplit (lin : U64) (n : Nat) (hn : n + 1 < 4096) (v : U64) :
    Severely (linWriteSplit lin n hn v : Calm β Unit) :=
  Fallible.Throws.bind (translateAll _) fun _ => Fallible.Throws.modify _

theorem linWrite8 (lin : U64) (v : U8) :
    Severely (linWrite8 lin v : Calm β Unit) := by
  refine self.bind fun s => ?_
  split
  · exact change rfl
  · exact (translate _ _).bind fun _ => change rfl

theorem linWrite16 (lin : U64) (v : U16) :
    Severely (linWrite16 lin v : Calm β Unit) := by
  refine self.bind fun s => ?_
  split
  · exact change rfl
  split
  · exact (translate _ _).bind fun _ => change rfl
  · exact linWriteSplit _ _ _ _

theorem linWrite32 (lin : U64) (v : U32) :
    Severely (linWrite32 lin v : Calm β Unit) := by
  refine self.bind fun s => ?_
  split
  · exact change rfl
  split
  · exact (translate _ _).bind fun _ => change rfl
  · exact linWriteSplit _ _ _ _

theorem linWrite64 (lin : U64) (v : U64) :
    Severely (linWrite64 lin v : Calm β Unit) := by
  refine self.bind fun s => ?_
  split
  · exact change rfl
  split
  · exact (translate _ _).bind fun _ => change rfl
  · exact linWriteSplit _ _ _ _

/-- The supervisor's access restores the privilege level, fault or not. -/
theorem asSupervisor {x : Calm β α} (hx : Severely x) :
    Severely (asSupervisor x) := by
  refine self.bind fun s => (change rfl).bind fun _ => ?_
  intro t e t' h
  rw [Bounded.run_bind, Fallible.bind_apply] at h
  have hout : (Bounded.outcome x).run t = (.ok (x.run t).1, (x.run t).2) := rfl
  rw [hout] at h
  rcases hrun : x.run t with ⟨e' | a, t₁⟩ <;> rw [hrun] at h
  · cases h
    exact hx t _ t₁ hrun
  · cases h

theorem sysRead16 (lin : U64) : Severely (sysRead16 lin : Calm β U16) :=
  asSupervisor (linRead16 lin)

theorem sysRead32 (lin : U64) : Severely (sysRead32 lin : Calm β U32) :=
  asSupervisor (linRead32 lin)

theorem sysRead64 (lin : U64) : Severely (sysRead64 lin : Calm β U64) :=
  asSupervisor (linRead64 lin)

-- ======== stacks

/-- An address check raises the segment's fault. -/
theorem linAddr (seg : U8) (off : U64) (size : Nat) (write : Bool) :
    Severely (linAddr seg off size write : Calm β U64) := by
  have hdenied : ∀ {c : Prop} [Decidable c] {lin : U64} {e : Exception},
      (if c then Except.ok lin else .error (X64.segFault seg)) = .error e →
        Severe e := by
    intro c _ lin e h
    split at h <;> cases h
    exact .segFault seg
  refine self.bind fun s => check fun e h => ?_
  unfold Cpu.linAddr at h
  by_cases hm : s.m64 = true
  · rw [if_pos hm] at h
    exact hdenied h
  · rw [if_neg hm] at h
    exact hdenied h

theorem adjustSp (delta : U64) : Severely (adjustSp delta : Calm β Unit) :=
  self.bind fun _ => change rfl

theorem push16 (v : U16) : Severely (push16 v : Calm β Unit) :=
  self.bind fun _ => ((linAddr _ _ _ _).bind fun _ => linWrite16 _ _).bind
    fun _ => adjustSp _

theorem push32 (v : U32) : Severely (push32 v : Calm β Unit) :=
  self.bind fun _ => ((linAddr _ _ _ _).bind fun _ => linWrite32 _ _).bind
    fun _ => adjustSp _

/-- Pushes, by induction on the words. -/
theorem pushAll (wide : Bool) (l : List U64) :
    Severely (pushAll wide l : Calm β Unit) := by
  induction l with
  | nil => exact pure ()
  | cons v rest ih =>
    refine Severely.bind ?_ fun _ => ih
    unfold pushWidth
    split
    · exact push32 _
    · exact push16 _

theorem pushAllAt (l : List U64) (rsp : U64) :
    Severely (pushAllAt l rsp : Calm β U64) := by
  induction l generalizing rsp with
  | nil => exact pure _
  | cons v rest ih =>
    exact ((raiseIf _ (.ss 0)).bind fun _ => (linWrite64 _ _).bind fun _ =>
      pure _).bind fun _ => ih _

/-- A stack from the TSS: #TS where the TSS is too short. -/
theorem tssStack (level : U8) :
    Severely (tssStack level : Calm β (U16 × U64)) := by
  refine self.bind fun s => ?_
  dsimp only
  split
  · exact (raiseIf _ (.ts _)).bind fun _ => (sysRead32 _).bind fun _ =>
      (sysRead16 _).bind fun _ =>
      pure _
  · exact (raiseIf _ (.ts _)).bind fun _ => (sysRead16 _).bind fun _ =>
      (sysRead16 _).bind fun _ =>
      pure _

theorem tssSlot (off : Nat) : Severely (tssSlot off : Calm β U64) :=
  self.bind fun _ => (raiseIf _ (.ts _)).bind fun _ => sysRead64 _

-- ======== descriptors

theorem readUpperHalf (d : Descriptor) (index : Nat) (limit : U32)
    {e : Exception} (h : Severe e) :
    Severely (readUpperHalf d index limit e : Calm β Descriptor) :=
  (raiseIf _ h).bind fun _ => (sysRead64 _).bind fun _ =>
    (raiseIf _ h).bind fun _ => pure _

theorem readDescriptorErr (sel : U16) {err : U16 → Exception}
    (h : ∀ c, Severe (err c)) :
    Severely (readDescriptorErr sel err : Calm β Descriptor) := by
  refine self.bind fun s => (raiseIf _ (h _)).bind fun _ =>
    (sysRead32 _).bind fun _ =>
    (sysRead32 _).bind fun _ => self.bind fun s' => ?_
  dsimp only
  split
  · exact readUpperHalf _ _ _ (h _)
  · exact pure _

theorem readDescriptor (sel : U16) :
    Severely (readDescriptor sel : Calm β Descriptor) :=
  readDescriptorErr sel .gp

theorem markAccessed (d : Descriptor) :
    Severely (markAccessed d : Calm β Unit) :=
  whenever _ (asSupervisor (linWrite8 _ _))

theorem prepared {m : Warm β α} (hm : Severely m) : Severely (prepared m) :=
  fun s e s' h => hm s.prepared e s' h

theorem coldWrite {g : ColdRegs → ColdRegs} {h : ∀ r, (g r).SameMode r} :
    Severely (coldWrite g h : Xfer β Unit) := prepared (change rfl)

theorem loadCs (sel : U16) (d : Descriptor) (cpl : U8) :
    Severely (loadCs sel d cpl : Xfer β Unit) :=
      (lift (markAccessed d)).bind fun _ => coldWrite

theorem switchStack (ss : U16) (sp : U64) (newCpl : U8) :
    Severely (switchStack ss sp newCpl : Xfer β Unit) :=
  (raiseIf _ (.ts _)).bind fun _ => (raiseIf _ (.ts _)).bind fun _ =>
    (lift (readDescriptorErr ss .ts)).bind fun _ =>
      (raiseIf _ (.ts _)).bind fun _ =>
    (raiseIf _ (.ss _)).bind fun _ => (lift (markAccessed _)).bind fun _ =>
    coldWrite.bind fun _ => lift (change rfl)

-- ======== delivery

/-- A vector past the IDT's limit raises what the caller names. -/
theorem readIdt (vector : U8) (size : Nat) {e : Exception} (h : Severe e) :
    Severely (readIdt vector size e : Calm β Descriptor) :=
  self.bind fun _ => (raiseIf _ h).bind fun _ => (sysRead32 _).bind fun _ =>
    (sysRead32 _).bind fun _ => pure _

/-- A gate and its code segment. -/
theorem gateTarget (gate : Descriptor) (vector : U8) (cls : Event) :
    Severely (gateTarget gate vector cls : Calm β (U16 × Descriptor)) :=
  self.bind fun _ => (raiseIf _ (.gp _)).bind fun _ =>
    (raiseIf _ (.np _)).bind fun _ =>
    (raiseIf _ (.gp _)).bind fun _ => (readDescriptor _).bind fun _ =>
      self.bind fun _ =>
    (raiseIf _ (.gp _)).bind fun _ => (raiseIf _ (.np _)).bind fun _ => pure _

theorem handlerStack (ist : U8) (change : Bool) (newCpl : U8) :
    Severely (handlerStack ist change newCpl : Calm β U64) := by
  unfold X64.handlerStack
  split
  · exact tssSlot _
  split
  · exact tssSlot _
  · exact self.bind fun _ => pure _

/-- Delivery raises only severe exceptions, through every mode. -/
theorem interruptLong (e : Exception) (cls : Event) :
    Severely (interruptLong e cls : Xfer β Unit) :=
  (lift (readIdt _ _ (.gp _))).bind fun _ => (lift (sysRead64 _)).bind fun _ =>
    (raiseIf _ (.gp _)).bind fun _ => (lift (gateTarget _ _ _)).bind fun _ =>
    (raiseIf _ (.gp _)).bind fun _ => (raiseIf _ (.gp _)).bind fun _ =>
      self.bind fun _ =>
    (lift (handlerStack _ _ _)).bind fun _ => self.bind fun _ =>
    (whenever _ coldWrite).bind fun _ =>
      (lift (asSupervisor (pushAllAt _ _))).bind fun _ =>
    (lift (change rfl)).bind fun _ => (loadCs _ _ _).bind fun _ =>
      (lift (change rfl)).bind fun _ =>
    lift (change rfl)

theorem pushIntFrame (wide : Bool) (outer : Option (U16 × U64))
    (error : Option U16) :
    Severely (pushIntFrame wide outer error : Calm β Unit) :=
      self.bind fun _ => pushAll _ _

theorem v86Interrupt (e : Exception) (gd : Descriptor)
    (gsel : U16) (goff : U64) (trap wide : Bool) (ext : U16) :
    Severely (v86Interrupt e gd gsel goff trap wide ext : Xfer β Unit) :=
  (raiseIf _ (.gp _)).bind fun _ =>
    prepared <| (lift (tssStack 0)).bind fun _ =>
    self.bind fun _ => (lift (change rfl)).bind fun _ =>
      (lift (switchStack _ _ _)).bind fun _ =>
    (lift (asSupervisor (pushAll _ _))).bind fun _ =>
      (change rfl).bind fun _ =>
    (lift (markAccessed _)).bind fun _ => (lift coldWrite).bind fun _ =>
      lift (change rfl)

theorem enterLegacy (e : Exception) (cls : Event) (gsel : U16)
    (gd : Descriptor) (wide : Bool) :
    Severely (enterLegacy e cls gsel gd wide : Xfer β Unit) := by
  refine self.bind fun s => ?_
  split
  · exact (lift (tssStack _)).bind fun _ => self.bind fun _ =>
      (switchStack _ _ _).bind fun _ =>
      (lift (asSupervisor (pushIntFrame _ _ _))).bind fun _ => loadCs _ _ _
  split
  · exact (lift (pushIntFrame _ _ _)).bind fun _ => loadCs _ _ _
  · exact throw (.gp _)

theorem interruptLegacy (e : Exception) (cls : Event) :
    Severely (interruptLegacy e cls : Xfer β Unit) := by
  refine (lift (readIdt _ _ (.gp _))).bind fun _ =>
    (raiseIf _ (.gp _)).bind fun _ =>
    (lift (gateTarget _ _ _)).bind fun _ => (raiseIf _ (.gp _)).bind fun _ =>
      self.bind fun s => ?_
  split
  · exact v86Interrupt _ _ _ _ _ _ _
  · exact (enterLegacy _ _ _ _ _).bind fun _ => (lift (change rfl)).bind
      fun _ => lift (change rfl)

theorem interruptReal (vector : U8) (cls : Event) :
    Severely (interruptReal vector cls : Xfer β Unit) :=
  prepared <| self.bind fun _ => (raiseIf _ (.gp _)).bind fun _ =>
    (lift (sysRead16 _)).bind fun _ => (lift (sysRead16 _)).bind fun _ =>
      self.bind fun _ =>
    (lift (push16 _)).bind fun _ => self.bind fun _ =>
      (lift (push16 _)).bind fun _ =>
    (lift (push16 _)).bind fun _ => (lift (change rfl)).bind fun _ =>
      (change rfl).bind fun _ =>
    lift (change rfl)

/-- Putting the registers back does not change what was raised. -/
theorem rollback {m : Xfer β Unit} (hm : Severely m) :
    Severely (rollback m) := by
  intro s e s' h
  obtain ⟨⟨t, ht⟩, -⟩ := rollback_error h
  exact hm s e t ht

/-- A delivery runs into severe exceptions only. -/
theorem raise (e : Exception) (cls : Event) :
    Severely (raise e cls : Xfer β Unit) := by
  refine self.bind fun s => ?_
  split
  · refine rollback (self.bind fun s => ?_)
    split
    · exact interruptLong _ _
    · exact interruptLegacy _ _
  · exact rollback (interruptReal _ _)

end Severely

end Remu.X64
