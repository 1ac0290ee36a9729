/-
What a memory access may disturb, however it ends.

`MemOnly` is about the accesses that succeed. One that faults has also
moved CR2, and perhaps marked table entries and filled TLB slots on the way
to the fault. Nothing else: the general registers, the flags, the segments
and the decode state are those of before on either outcome. What an
instruction that has only accessed memory so far may be rewound to is
therefore the state it started in.
-/
import Remu.X64.Transfer

namespace Remu.X64

/-- Memory, stamps, the TLB and CR2 at most are not what they were. -/
def Disturbed {β : Type} (s s' : Machine β) : Prop :=
  ∃ cr2 tlb icache bus,
    s' = { s with regs := { s.regs with cr2 }, tlb, icache, bus }

variable {β : Type} {α γ : Type}

instance instIsPreorderDisturbed : IsPreorder (Machine β) Disturbed where
  refl s := ⟨s.regs.cr2, s.tlb, s.icache, s.bus, rfl⟩
  trans := by
    rintro _ _ _ ⟨_, _, _, _, rfl⟩ ⟨cr2, tlb, icache, bus, rfl⟩
    exact ⟨cr2, tlb, icache, bus, rfl⟩

namespace Disturbed

variable {s s' : Machine β}

/-- The notes on the instruction under way are as they were. -/
theorem decode (h : Disturbed s s') : s'.toDecodeState = s.toDecodeState := by
  obtain ⟨_, _, _, _, rfl⟩ := h
  rfl

end Disturbed

variable [Bus β]

/-- An implicit supervisor access is the access under the override. -/
theorem run_asSupervisor (x : Calm β α) (s : Machine β) :
    (asSupervisor x).run s
      = ((x.run { s with supervisorOverride := true }).1,
        { (x.run { s with supervisorOverride := true }).2 with
          supervisorOverride := s.supervisorOverride }) := by
  rw [asSupervisor, Bounded.run_bind, Fallible.bind_of_ok (run_self s),
    Bounded.run_bind,
    Fallible.bind_of_ok
      (show (modifyDecode ({ · with supervisorOverride := true }) : Calm β Unit).run s
      = (.ok (), { s with supervisorOverride := true }) from rfl),
        Bounded.run_bind,
    Fallible.bind_of_ok
      (show (Bounded.outcome x).run { s with supervisorOverride := true }
      = (.ok (x.run { s with supervisorOverride := true }).1,
        (x.run { s with supervisorOverride := true }).2) from rfl)]
  cases (x.run { s with supervisorOverride := true }).1 <;> rfl

/-- A computation that disturbs no more than that. -/
def Mild (x : Calm β α) : Prop := Fallible.Along Disturbed x.run

namespace Mild

/-- The closure rules of what disturbs a machine and no more. -/
theorem pure (a : α) : Mild (pure a : Calm β α) := Fallible.Along.pure a

theorem throw (e : Exception) : Mild (throw e : Calm β α) :=
  fun s => refl_of Disturbed s

theorem self : Mild (self : Calm β (Machine β)) := Fallible.Along.get

/-- A sequence disturbs no more than its parts. -/
theorem bind {x : Calm β α} {f : α → Calm β γ} (hx : Mild x)
    (hf : ∀ a, Mild (f a)) :
    Mild (x >>= f) := Fallible.Along.bind hx hf

theorem raiseIf (c : Prop) [Decidable c] (e : Exception) :
    Mild (raiseIf c e : Calm β Unit) := by
  unfold X64.raiseIf
  split
  · exact .throw e
  · exact .pure ()

theorem whenever (c : Prop) [Decidable c] {m : Calm β Unit} (hm : Mild m) :
    Mild (whenever c m) := by
  unfold X64.whenever
  split
  · exact hm
  · exact .pure ()

theorem check (r : Except Exception α) : Mild (check r : Calm β α) := by
  cases r with
  | ok a => exact .pure a
  | error e => exact .throw e

theorem touchBus (f : β → α × β) (h : ∀ b, BusTouch b (f b).2) :
    Mild (touchBus f h : Calm β α) :=
      fun s => ⟨s.regs.cr2, s.tlb, s.icache, (f s.bus).2, rfl⟩

theorem setCr2 (v : U64) : Mild (setCr2 v : Calm β Unit) :=
  fun s => ⟨v, s.tlb, s.icache, s.bus, rfl⟩

/-- A store moves memory and the stamp of its page. -/
theorem stampedStore (first last : U64) (w : β → β)
    (h : ∀ b, BusStore b first last (w b)) :
    Mild (stampedStore first last w h : Calm β Unit) :=
  fun s => ⟨s.regs.cr2, s.tlb, s.icache.stampWriteSpan first last, w s.bus, rfl⟩

theorem pageStore (first last : U64) (w : β → β)
    (hpage : last >>> 12 = first >>> 12)
    (h : ∀ b, BusStore b first last (w b)) :
    Mild (pageStore first last w hpage h : Calm β Unit) :=
  fun s => ⟨s.regs.cr2, s.tlb, s.icache.stampWrite first, w s.bus, rfl⟩

theorem modifyTlb (g : Tlb → Tlb) : Mild (modifyTlb g : Calm β Unit) :=
  fun s => ⟨s.regs.cr2, g s.tlb, s.icache, s.bus, rfl⟩

-- ======== translation

/-- A page fault records its address. -/
theorem faultIf (c : Prop) [Decidable c] (lin : U64) (access : Access)
    (present rsvd : Bool) :
    Mild (faultIf c lin access present rsvd : Calm β Unit) := by
  unfold X64.faultIf
  split
  · exact ((setCr2 _).bind fun _ => self.bind fun _ => .pure _).bind
      fun _ => .throw _
  · exact .pure ()

/-- Marks are set in the tables, so in memory. -/
theorem updateAccessed (write : Bool) (l : List PteRef) :
    Mild (updateAccessed write l : Calm β Unit) := by
  induction l with
  | nil => exact .pure ()
  | cons r rest ih =>
    unfold X64.updateAccessed
    exact (whenever _ (pageStore _ _ _ _ _)).bind fun _ => ih

theorem legacyLeaf (lin : U64) (access : Access) (lin32 pdeAddr : U64)
    (hpde : pdeAddr &&& 3 = 0) (pde : U64) (large : Bool) :
    Mild (legacyLeaf lin access lin32 pdeAddr hpde pde large : Calm β
      LegacyLeaf) := by
  unfold X64.legacyLeaf
  split
  · exact .pure _
  · exact (touchBus _ _).bind fun _ => (faultIf _ _ _ _ _).bind
      fun _ => .pure _

theorem walkLegacy (lin : U64) (access : Access) :
    Mild (walkLegacy lin access : Calm β _) := by
  unfold X64.walkLegacy
  exact self.bind fun _ => (touchBus _ _).bind fun _ =>
    (faultIf _ _ _ _ _).bind fun _ =>
    (legacyLeaf _ _ _ _ _ _ _).bind fun _ => self.bind fun _ =>
    (faultIf _ _ _ _ _).bind fun _ =>
      (whenever _ (pageStore _ _ _ _ _)).bind fun _ =>
    (whenever _ (pageStore _ _ _ _ _)).bind fun _ => (modifyTlb _).bind
      fun _ => .pure _

/-- A walk, by induction on its levels. -/
theorem walkLevels (lin : U64) (access : Access) (long nxe : Bool)
    (shifts : List (Fin 40)) (table : U64) (levels : List PteRef) :
    Mild (walkLevels lin access long nxe shifts table levels : Calm β _) := by
  induction shifts generalizing table levels with
  | nil => exact .pure _
  | cons shift rest ih =>
    unfold X64.walkLevels
    refine (touchBus _ _).bind fun _ => (faultIf _ _ _ _ _).bind fun _ =>
      (faultIf _ _ _ _ _).bind fun _ => ?_
    split
    · exact (faultIf _ _ _ _ _).bind fun _ => .pure _
    · exact ih _ _

theorem readPdpte (lin : U64) (access : Access) :
    Mild (readPdpte lin access : Calm β U64) := by
  unfold X64.readPdpte
  exact self.bind fun _ => (touchBus _ _).bind fun _ =>
    (faultIf _ _ _ _ _).bind fun _ =>
    (faultIf _ _ _ _ _).bind fun _ => .pure _

theorem walkWide (lin : U64) (access : Access) :
    Mild (walkWide lin access : Calm β _) := by
  unfold X64.walkWide
  refine self.bind fun s => Mild.bind ?_ fun _ =>
    (walkLevels _ _ _ _ _ _ _).bind fun _ =>
    self.bind fun _ => (faultIf _ _ _ _ _).bind fun _ =>
      (updateAccessed _ _).bind fun _ =>
    (modifyTlb _).bind fun _ => .pure _
  split
  · exact .pure _
  · exact readPdpte _ _

theorem translate (lin : U64) (access : Access) :
    Mild (translate lin access : Calm β _) := by
  unfold X64.translate
  refine self.bind fun s => ?_
  dsimp only
  split
  · exact .pure _
  · unfold X64.walk
    refine self.bind fun s => ?_
    split
    · exact walkLegacy _ _
    · exact walkWide _ _

/-- Translations one after another, by induction on the list. -/
theorem translateAll (lins : List U64) :
    Mild (translateAll lins : Calm β (List U64)) := by
  induction lins with
  | nil => exact .pure _
  | cons lin rest ih =>
    exact (translate lin .write).bind fun _ => ih.bind fun _ => .pure _

-- ======== linear accesses

theorem readHalves {w : Nat} {lo hi : Calm β (BitVec w)}
    (hlo : Mild lo) (hhi : Mild hi) :
    Mild (readHalves lo hi) := hlo.bind fun _ => hhi.bind fun _ => .pure _

/-- Loads and stores at each width, and the ones that cross a page. -/
theorem linRead8 (lin : U64) : Mild (linRead8 lin : Calm β U8) := by
  refine self.bind fun s => ?_
  split
  · exact touchBus _ _
  · exact (translate _ _).bind fun _ => touchBus _ _

/-- A wide access in one go, or by its halves. -/
theorem wide {w : Nat} {lin lim : U64} {one : U64 → Calm β (BitVec (w + w))}
    {lo hi : Calm β (BitVec w)} (hone : ∀ a, Mild (one a)) (hlo : Mild lo)
    (hhi : Mild hi) :
    Mild (X64.self >>= fun s : Machine β =>
      if !s.paging then one lin
      else if lin &&& 0xFFF < lim
        then X64.translate lin .read >>= fun phys => one phys.val
      else X64.readHalves lo hi) := by
  refine self.bind fun s => ?_
  split
  · exact hone _
  split
  · exact (translate _ _).bind fun _ => hone _
  · exact readHalves hlo hhi

theorem linRead16 (lin : U64) : Mild (linRead16 lin : Calm β U16) :=
  wide (fun _ => touchBus _ _) (linRead8 _) (linRead8 _)

theorem linRead32 (lin : U64) : Mild (linRead32 lin : Calm β U32) :=
  wide (fun _ => touchBus _ _) (linRead16 _) (linRead16 _)

theorem linRead64 (lin : U64) : Mild (linRead64 lin : Calm β U64) :=
  wide (fun _ => touchBus _ _) (linRead32 _) (linRead32 _)

theorem linWriteSplit (lin : U64) (n : Nat) (hn : n + 1 < 4096) (v : U64) :
    Mild (linWriteSplit lin n hn v : Calm β Unit) := by
  refine Fallible.Along.bind (translateAll _) fun ps => fun s => ?_
  exact ⟨s.regs.cr2, s.tlb, _, _, rfl⟩

theorem linWrite8 (lin : U64) (v : U8) :
    Mild (linWrite8 lin v : Calm β Unit) := by
  refine self.bind fun s => ?_
  split
  · exact pageStore _ _ _ _ _
  · exact (translate _ _).bind fun _ => pageStore _ _ _ _ _

theorem linWrite16 (lin : U64) (v : U16) :
    Mild (linWrite16 lin v : Calm β Unit) := by
  refine self.bind fun s => ?_
  split
  · exact stampedStore _ _ _ _
  split
  · exact (translate _ _).bind fun _ => pageStore _ _ _ _ _
  · exact linWriteSplit _ _ _ _

theorem linWrite32 (lin : U64) (v : U32) :
    Mild (linWrite32 lin v : Calm β Unit) := by
  refine self.bind fun s => ?_
  split
  · exact stampedStore _ _ _ _
  split
  · exact (translate _ _).bind fun _ => pageStore _ _ _ _ _
  · exact linWriteSplit _ _ _ _

theorem linWrite64 (lin : U64) (v : U64) :
    Mild (linWrite64 lin v : Calm β Unit) := by
  refine self.bind fun s => ?_
  split
  · exact stampedStore _ _ _ _
  split
  · exact (translate _ _).bind fun _ => pageStore _ _ _ _ _
  · exact linWriteSplit _ _ _ _

/-- The override is put back on either outcome. -/
theorem asSupervisor {x : Calm β α} (hx : Mild x) : Mild (asSupervisor x) := by
  intro s
  obtain ⟨cr2, tlb, icache, bus, hrun⟩ :=
    hx { s with supervisorOverride := true }
  rw [run_asSupervisor, hrun]
  exact ⟨cr2, tlb, icache, bus, rfl⟩

-- ======== instructions

/-- An address check moves nothing. -/
theorem linAddr (seg : U8) (off : U64) (size : Nat) (write : Bool) :
    Mild (linAddr seg off size write : Calm β U64) :=
      self.bind fun _ => check _

theorem read16 (seg : U8) (off : U64) : Mild (read16 seg off : Calm β U16) :=
  (linAddr _ _ _ _).bind fun _ => linRead16 _

theorem read32 (seg : U8) (off : U64) : Mild (read32 seg off : Calm β U32) :=
  (linAddr _ _ _ _).bind fun _ => linRead32 _

theorem read64 (seg : U8) (off : U64) : Mild (read64 seg off : Calm β U64) :=
  (linAddr _ _ _ _).bind fun _ => linRead64 _

-- ======== descriptors

theorem sysRead32 (lin : U64) : Mild (sysRead32 lin : Calm β U32) :=
  asSupervisor (linRead32 lin)

theorem sysRead64 (lin : U64) : Mild (sysRead64 lin : Calm β U64) :=
  asSupervisor (linRead64 lin)

theorem readUpperHalf (d : Descriptor) (index : Nat)
    (limit : U32) (e : Exception) :
    Mild (readUpperHalf d index limit e : Calm β Descriptor) :=
  (raiseIf _ _).bind fun _ => (sysRead64 _).bind fun _ =>
    (raiseIf _ _).bind fun _ => .pure _

/-- Reading a descriptor is reading memory with the supervisor's rights. -/
theorem readDescriptorErr (sel : U16) (err : U16 → Exception) :
    Mild (readDescriptorErr sel err : Calm β Descriptor) := by
  refine self.bind fun s => (raiseIf _ _).bind fun _ =>
    (sysRead32 _).bind fun _ =>
    (sysRead32 _).bind fun _ => self.bind fun s' => ?_
  dsimp only
  split
  · exact readUpperHalf _ _ _ _
  · exact .pure _

theorem readDescriptor (sel : U16) :
    Mild (readDescriptor sel : Calm β Descriptor) :=
  readDescriptorErr sel _

/-- The accessed bit of a descriptor is a store. -/
theorem markAccessed (d : Descriptor) : Mild (markAccessed d : Calm β Unit) :=
  whenever _ (asSupervisor (linWrite8 _ _))

/-- The checks of a return read and do not write. -/
theorem returnTarget (sel : U16) (ip : U64) :
    Mild (returnTarget sel ip : Calm β Descriptor) :=
  (raiseIf _ _).bind fun _ => self.bind fun _ => (raiseIf _ _).bind fun _ =>
    (readDescriptor _).bind fun _ => (check _).bind fun _ => self.bind fun _ =>
    (check _).bind fun _ => .pure _

end Mild

end Remu.X64
