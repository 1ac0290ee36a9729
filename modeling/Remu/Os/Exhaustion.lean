/-
The allocator past its last frame.

Frames are never given back, so a page that is mapped and unmapped costs
one each time and leaves the tables as they were (`Idle.cycle`). The frame
after the last has address 2^52. A leaf is masked to the bits of a frame
before it is stored, an interior entry is not: the host, which masks what
it reads, goes where the entry leads without its bit 52, the processor
stops there (`Idle.overrun`).
-/
import Remu.Os.Separation

namespace Remu.Os

open EntryWidth FrameTree Word ByteRam

namespace AddressSpace

-- ======== entries, exactly

section Entries

variable {w : Nat} [EntryWidth w] {L : Layout w}
  {a b : AddressSpace w} {lin t : BitVec w}

/-- A page mapped where the tables are there costs its frame, and only its
entry changes. -/
theorem entryAt_mapPage (hs : a.Sound L)
    (ht : a.frameAt L (L.interior lin) = some t)
    (hnone : a.frameOf L lin = none)
    (hfit : a.nextPhys + 4096 ≤ 2 ^ L.physBits) (prot : U32)
    (user : Bool) : (a.mapPage L prot user lin).nextPhys = a.nextPhys + 4096
      ∧ ∀ p i, p.length < L.depth → (a.mapPage L prot user lin).entryAt L p i
        = if p = L.interior lin ∧ i = Layout.leaf lin
          then BitVec.ofNat w a.nextPhys ||| leafFlags prot user
            else a.entryAt L p i := by
  have hspare := hs.spare_mark hfit
  have hal := hspare.allocated
  have hlt := (hs.alloc hfit).lt_physBits hal
  have htables :
      a.allocFrame.2.tableFor L (a.allocFrame.2.root L) (L.interior lin)
      = (t, a.allocFrame.2) := tableFor_of_frameAt (π := []) rfl ht
  have hmap : a.mapPage L prot user lin = { a.allocFrame.2 with
      mem := store a.mem (slot t (Layout.leaf lin))
        (BitVec.ofNat w a.nextPhys ||| leafFlags prot user) } := by
    have hmask :
      BitVec.ofNat w a.nextPhys &&& L.edgeMask = BitVec.ofNat w a.nextPhys :=
      (L.mask_frame _ hal.aligned hlt).2
    rw [mapPage, resolve_eq_none.2 hnone]
    show setPte L a.allocFrame.2 lin (BitVec.ofNat w a.nextPhys) prot user = _
    rw [setPte, htables, hmask]
    rfl
  rw [hmap]
  refine ⟨rfl, fun p i hp => ?_⟩
  refine (hs.alloc hfit).entryAt_store (t := t) ht (L.length_interior lin)
    (fun f hf => ?_) p i hp
  rw [follow_leaf hal.aligned hlt, Option.some.injEq] at hf
  exact Or.inr (hf ▸ hspare)

/-- A page unmapped where the tables are there: its entry is empty. -/
theorem entryAt_unmapPage (hs : a.Sound L)
    (ht : a.frameAt L (L.interior lin) = some t)
    (p : List (Fin (fanout w))) (i : Fin (fanout w))
    (hp : p.length < L.depth) :
    (a.unmapPage L lin).entryAt L p i
      = if p = L.interior lin ∧ i = Layout.leaf lin then 0
        else a.entryAt L p i := by
  rw [unmapPage, ht]
  refine hs.entryAt_store ht (L.length_interior lin) (fun f hf => ?_) p i hp
  rw [L.follow_zero] at hf
  cases hf

/-- Paths lead where the entries say. -/
theorem frameAt_congr (hcr3 : b.cr3 = a.cr3) {p : List (Fin (fanout w))}
    (hp : p.length ≤ L.depth)
    (h : ∀ p i, p.length < L.depth → b.entryAt L p i = a.entryAt L p i) :
    b.frameAt L p = a.frameAt L p := by
  cases p using List.reverseRecOn with
  | nil => rw [frameAt, frameAt, root, root, hcr3]; rfl
  | append_singleton q i =>
    rw [List.length_append, List.length_singleton] at hp
    rw [frameAt_leaf, frameAt_leaf, h q i (by omega)]

end Entries

-- ======== idling

variable {a : AddressSpace 64} {s : X64.Machine (PhysMem 64)}

/-- The page that comes and goes. -/
abbrev idlePage : U64 := 0x1000

/-- Its tables are there, it is not, and slot 1 of the root is empty. -/
structure Idle (a : AddressSpace 64) : Prop where
  sound : a.Sound Layout.os64
  cr3 : a.cr3 = 0x1000
  tables : ∃ t, a.frameAt Layout.os64 (Layout.os64.interior idlePage) = some t
  gone : a.pteEntry Layout.os64 idlePage = 0
  free : a.entryAt Layout.os64 [] 1 = 0

/-- Map the page, and unmap it. -/
abbrev mapIdle : Op 64 := .mmapFixed idlePage 0x1000 3
abbrev unmapIdle : Op 64 := .unmap idlePage 0x1000

theorem rangePages_idle : rangePages idlePage 0x1000 = [idlePage] := by decide

theorem samePages_mapIdle (a : AddressSpace 64) :
    SamePages (a.mapPage Layout.os64 3 true idlePage)
      (mapIdle.apply Layout.os64 a) := by
  have hmap : a.mapPage Layout.os64 3 true idlePage
    = a.mapRange Layout.os64 idlePage 0x1000 3 true := by
    rw [mapRange, rangePages_idle]
    rfl
  rw [hmap]
  exact (SamePages.pushVma _ _ _ _ _).trans (.setTop _ _)

theorem samePages_unmapIdle (a : AddressSpace 64) :
    SamePages (a.unmapPage Layout.os64 idlePage)
      (unmapIdle.apply Layout.os64 a) := by
  have hunmap : a.unmapPage Layout.os64 idlePage
      = (rangePages idlePage 0x1000).foldl (unmapPage Layout.os64) a := by
    rw [rangePages_idle]
    rfl
  rw [hunmap]
  exact .setVmas _ _

/-- A frame is gone, and nothing else. -/
theorem Idle.cycle (h : a.Idle) (hfit : a.nextPhys + 4096 ≤ 2 ^ 52) :
    (unmapIdle.apply Layout.os64 (mapIdle.apply Layout.os64 a)).Idle
      ∧ (unmapIdle.apply Layout.os64 (mapIdle.apply Layout.os64 a)).nextPhys
        = a.nextPhys + 4096 := by
  obtain ⟨t, ht⟩ := h.tables
  have hnone : a.frameOf Layout.os64 idlePage = none := by
    rw [frameOf_eq, h.gone, Layout.follow_zero]
  obtain ⟨hnext, hentry⟩ := entryAt_mapPage h.sound ht hnone hfit 3 true
  have hmap := samePages_mapIdle a
  have hfit' :
    (mapIdle.apply Layout.os64 a).nextPhys ≤ 2 ^ Layout.os64.physBits := by
    rw [hmap.next, hnext]
    exact hfit
  have hs := h.sound.apply mapIdle hfit'
  have hcr3 := (Effect.apply h.sound mapIdle nofun hfit').cr3
  generalize mapIdle.apply Layout.os64 a = b at *
  have ht' : b.frameAt Layout.os64 (Layout.os64.interior idlePage)
    = some t := by
    rw [← ht, show Layout.os64.interior idlePage = [0, 0] ++ [0] from rfl,
      frameAt_leaf, frameAt_leaf, hmap.entryAt, hentry _ _ (by decide),
      if_neg (by decide)]
  have hunmap := samePages_unmapIdle b
  have hnext' : (unmapIdle.apply Layout.os64 b).nextPhys = b.nextPhys := by
    rw [hunmap.next, nextPhys_unmapPage]
  have hs' := hs.apply unmapIdle (hnext'.le.trans hfit')
  have hcr3' := (Effect.apply hs unmapIdle nofun (hnext'.le.trans hfit')).cr3
  generalize unmapIdle.apply Layout.os64 b = c at *
  -- The entry that was set is empty again.
  have hsame : ∀ p i, p.length < Layout.os64.depth →
      c.entryAt Layout.os64 p i = a.entryAt Layout.os64 p i := by
    intro p i hp
    rw [hunmap.entryAt, entryAt_unmapPage hs ht' p i hp,
      hmap.entryAt, hentry p i hp]
    split
    case isTrue hleaf =>
      rw [hleaf.1, hleaf.2]
      exact h.gone.symm
    case isFalse => rfl
  refine ⟨⟨hs', hcr3'.trans (hcr3.trans h.cr3), ⟨t, ?_⟩, ?_, ?_⟩, by rw [hnext', hmap.next, hnext]⟩
  · rw [frameAt_congr (hcr3'.trans hcr3) (by decide) hsame]
    exact ht
  · exact (hsame _ _ (by decide)).trans h.gone
  · exact (hsame _ _ (by decide)).trans h.free

-- ======== past the end

/-- The page to be mapped when there is no frame left: its table is at
slots 1, 1, 1, and it at slot 2. -/
abbrev overrunPage : U64 := 0x8040202000

abbrev mapOverrun : Op 64 := .mmapFixed overrunPage 0x1000 3

/-- The frame of the table, past the end by one, with the flags of an
interior entry. -/
abbrev overrunEntry : U64 := tableEntry (BitVec.ofNat 64 (2 ^ 52 + 4096))

theorem samePages_mapOverrun (a : AddressSpace 64) :
    SamePages (a.mapPage Layout.os64 3 true overrunPage)
      (mapOverrun.apply Layout.os64 a) := by
  have hmap : a.mapPage Layout.os64 3 true overrunPage
      = a.mapRange Layout.os64 overrunPage 0x1000 3 true := by
    rw [mapRange, show rangePages overrunPage 0x1000 = [overrunPage] by decide]
    rfl
  rw [hmap]
  exact (SamePages.pushVma _ _ _ _ _).trans (.setTop _ _)

theorem Idle.frameOf_overrun (h : a.Idle) :
    a.frameOf Layout.os64 overrunPage = none := by
  rw [frameOf, show Layout.os64.indices overrunPage = [] ++ [1] ++ [1, 1, 2] from rfl, frameAt,
    node_append,
      show node (Layout.os64.child a.mem) (a.root Layout.os64) ([] ++ [1])
      = a.frameAt Layout.os64 ([] ++ [1]) from rfl, frameAt_leaf, h.free,
        Layout.follow_zero]
  rfl

/-- The new table's entry leads back to the root, where the leaf ends up
as well. -/
theorem Idle.mapPage_overrun (h : a.Idle) (hlast : a.nextPhys = 2 ^ 52) :
    a.mapPage Layout.os64 3 true overrunPage = { a with
      nextPhys := a.nextPhys + 4096 + 4096
      mem := store (store a.mem (slot 0x1000 1) overrunEntry)
        (slot 0x1000 2) 7 } := by
  have hroot : a.root Layout.os64 = 0x1000 := by
    rw [root, h.cr3]
    decide
  have hslot : load a.mem (slot 0x1000 1) = 0 := by
    have hfree := h.free
    rw [entryAt, frameAt, hroot] at hfree
    exact hfree
  have haligned : Aligned (0x1000 : U64) := (aligned_iff _).2 (by decide)
  -- Two more levels go by the entry that was just written.
  have hback : ∀ (b : AddressSpace 64) p,
      b.mem = store a.mem (slot 0x1000 1) overrunEntry →
      b.tableFor Layout.os64 0x1000 (1 :: p)
        = b.tableFor Layout.os64 0x1000 p := by
    intro b p hb
    have hload : load b.mem (slot 0x1000 1) = overrunEntry := by
      rw [hb, load_store_slot _ haligned haligned, if_pos ⟨rfl, rfl⟩]
    rw [tableFor]
    dsimp only
    rw [hload, if_neg (by decide),
      show overrunEntry &&& Layout.os64.physMask = 0x1000 by decide]
  rw [mapPage, resolve_eq_none.2 h.frameOf_overrun]
  show setPte Layout.os64 a.allocFrame.2 overrunPage
    (BitVec.ofNat 64 a.nextPhys) 3 true = _
  rw [setPte, show a.allocFrame.2.root Layout.os64 = 0x1000 from hroot,
    show Layout.os64.interior overrunPage = [1, 1, 1] from rfl, tableFor]
  dsimp only
  rw [show load a.allocFrame.2.mem (slot 0x1000 1) = 0 from hslot,
    if_pos (by decide)]
  rw [show a.allocFrame.2.allocFrame.1 = BitVec.ofNat 64 (2 ^ 52 + 4096) by
      show BitVec.ofNat 64 (a.nextPhys + 4096) = _
      rw [hlast],
    show overrunEntry &&& Layout.os64.physMask = 0x1000 by
      decide, hback _ _ rfl, hback _ _ rfl, tableFor,
    show Layout.leaf overrunPage = 2 by decide,
    show BitVec.ofNat 64 a.nextPhys &&& Layout.os64.edgeMask
      ||| leafFlags 3 true = 7 by
      rw [hlast]
      decide]
  rfl

/-- The host resolves the page that was mapped past the end, and the
processor has no mapping for it. -/
theorem Idle.overrun (h : a.Idle) (hlast : a.nextPhys = 2 ^ 52) :
    (mapOverrun.apply Layout.os64 a).resolve Layout.os64 overrunPage = some 0
      ∧ (s.bus = (mapOverrun.apply Layout.os64 a).mem → s.regs.cr3 = 0x1000 →
        s.wide = true →
        s.longMode = true → s.mapping overrunPage = none) := by
  have hsame := samePages_mapOverrun a
  rw [h.mapPage_overrun hlast] at hsame
  have hmem := hsame.mem
  have hcr3 := hsame.cr3.trans h.cr3
  generalize mapOverrun.apply Layout.os64 a = b at *
  have haligned : Aligned (0x1000 : U64) := (aligned_iff _).2 (by decide)
  have hroot : b.root Layout.os64 = 0x1000 := by
    rw [root, hcr3]
    decide
  have hload : load b.mem (slot 0x1000 1) = overrunEntry := by
    rw [hmem, load_store_slot _ haligned haligned, if_neg (by decide),
      load_store_slot _ haligned haligned, if_pos ⟨rfl, rfl⟩]
  have hleaf : load b.mem (slot 0x1000 2) = 7 := by
    rw [hmem, load_store_slot _ haligned haligned, if_pos ⟨rfl, rfl⟩]
  constructor
  · have hback : Layout.os64.child b.mem 0x1000 1 = some 0x1000 := by
      rw [Layout.child, hload]
      decide
    have hend : Layout.os64.child b.mem 0x1000 2 = some 0 := by
      rw [Layout.child, hleaf]
      decide
    rw [resolve_eq, frameOf,
      show Layout.os64.indices overrunPage = [1, 1, 1, 2] from rfl, frameAt,
      hroot, node, hback, Option.bind_some, node, hback, Option.bind_some,
      node, hback, Option.bind_some, node, hend, Option.bind_some, node]
    decide
  · intro hbus hreg hwide hlong
    rw [X64.Machine.mapping_wide hwide, hbus, hreg, hlong, X64.wideMapping,
      X64.wideTable, if_pos rfl, Option.bind_some, if_pos rfl, X64.descend,
      show overrunPage >>> (39 : Fin 40).val = 1 by decide]
    have hslot :
        ((0x1000 : U64) &&& X64.PHYS_MASK &&& X64.PHYS_MASK)
        + (((1 : U64) &&& (0x1FF : U64)) <<< 3)
        = slot 0x1000 1 := by decide
    dsimp only
    rw [hslot, show get64 b.mem (slot 0x1000 1) = overrunEntry from hload,
      if_neg (by decide),
      if_pos (by cases s.regs.msr.efer &&& X64.efer.NXE != 0 <;> decide)]
    rfl

end AddressSpace

end Remu.Os
