/-
Paging: legacy 32-bit (2-level), PAE (3-level) and long-mode (4-level)
walks with the software TLB.

A translation is returned with the fact that it keeps the low twelve bits
of the linear address, and a page-table entry's address with its
alignment. That is what shows that each stamp the code takes covers the
bytes the store behind it writes, which is the whole content of
`CalmPrim.store`.
-/
import Remu.Lib.Word
import Remu.X64.Cold

namespace Remu.X64

open Word

/-- The access kind of a translation. -/
inductive Access where
  | read
  | write
  | fetch
deriving DecidableEq, Repr

-- Page-table entry bits shared by all levels and formats.

namespace pte

/-- Present. -/
abbrev P : U64 := 0x1
/-- Writable. -/
abbrev RW : U64 := 0x2
/-- Reachable from user mode. -/
abbrev US : U64 := 0x4
/-- Accessed. -/
abbrev A : U64 := 0x20
/-- Dirty. -/
abbrev D : U64 := 0x40
/-- A large page, mapped by this entry itself. -/
abbrev PS : U64 := 0x80
/-- Not executable. -/
abbrev NX : U64 := 0x8000000000000000

end pte

/-- A page frame: frame bits only. -/
abbrev Frame : Type := { p : U64 // p &&& ~~~PHYS_MASK = 0 }

/-- Masks that select nothing inside a larger mask that selects nothing. -/
theorem and_eq_zero_of_sub {p m m' : U64} (h : p &&& m = 0)
    (hm : m &&& m' = m') :
    p &&& m' = 0 := by
  rw [← hm, ← BitVec.and_assoc, h]
  simp

/-- The bits no physical address has. -/
abbrev HIGH : U64 := 0xFFF0000000000000

/-- A frame starts on a page boundary. -/
theorem Frame.aligned (f : Frame) : f.1 &&& 0xFFF = 0 :=
  and_eq_zero_of_sub f.2 (by decide)

/-- A frame lies below `2^52`. -/
theorem Frame.low (f : Frame) : f.1 &&& HIGH = 0 :=
  and_eq_zero_of_sub f.2 (by decide)

/-- A physical address for `lin`: translation keeps the page offset, and
stays below 2^52. -/
structure Translated (lin : U64) where
  val : U64
  offset : val &&& 0xFFF = lin &&& 0xFFF
  low : val &&& HIGH = 0

/-- So does any address within it. -/
theorem low_or_offset (f : Frame) (lin : U64) :
    (f.1 ||| (lin &&& 0xFFF)) &&& HIGH = 0 := by
  have ho : lin &&& 0xFFF &&& HIGH = 0 := by
    rw [BitVec.and_assoc, show (0xFFF &&& HIGH : U64) = 0 by decide]
    exact BitVec.and_zero
  rw [BitVec.and_or_distrib_right, f.low, ho, BitVec.or_self]

/-- The address of byte `lin` within `f`. -/
def Frame.at (f : Frame) (lin : U64) : Translated lin where
  val := f.1 ||| (lin &&& 0xFFF)
  offset := offset_or f.1 lin f.aligned
  low := low_or_offset f lin

/-- A physical address without its page offset is a frame. -/
theorem page_framed {p : U64} (h : p &&& HIGH = 0) :
    (p &&& ~~~0xFFF) &&& ~~~PHYS_MASK = 0 := by
  rw [BitVec.and_assoc,
    show (~~~0xFFF &&& ~~~PHYS_MASK : U64) = HIGH by decide, h]

namespace Cpu

/-- Explicit accesses use CPL; implicit ones are supervisor accesses. -/
def userAccess (c : Cpu) : Bool := c.cpl == 3 && !c.supervisorOverride

/-- Whether a cached translation allows the access. -/
def tlbPermits (c : Cpu) (e : TlbEntry) (access : Access) : Bool :=
  let user := c.userAccess
  match access with
  | .read => !user || e.user
  | .fetch => (!user || e.user) && !e.nx
  | .write =>
    let prot := if user then e.user && e.writable
      else e.writable || c.regs.cr0 &&& cr0.WP == 0
    prot && e.dirty

/-- Whether the rights a walk collects allow the access. -/
def walkPermits (c : Cpu) (access : Access) (userOk writable nx : Bool) : Bool :=
  let user := c.userAccess
  match access with
  | .read => !user || userOk
  | .fetch => (!user || userOk) && !nx
  | .write => if user then userOk && writable
      else writable || c.regs.cr0 &&& cr0.WP == 0

/-- The #PF error code. -/
def pfCode (c : Cpu) (access : Access) (present rsvd : Bool) : U16 :=
  (if present then 1 else 0)
    ||| (if access = .write then 1 else 0) <<< 1
    ||| (if c.userAccess then 1 else 0) <<< 2
    ||| (if rsvd then 1 else 0) <<< 3
    ||| (if access = .fetch && c.regs.msr.efer &&& efer.NXE != 0 then 1 else 0) <<< 4

end Cpu

variable {β : Type} [Bus β]

/-- Forgets every cached translation. -/
def flushTlb : Calm β Unit := do
  fetchInvalidate
  modifyTlb Tlb.flush

/-- Forgets the translations of one page. -/
def invlpg (lin : U64) : Calm β Unit := do
  fetchInvalidate
  modifyTlb (·.invalidate lin)

/-- Record CR2 and build the page fault. -/
def pageFault (lin : U64) (access : Access) (present rsvd : Bool) :
    Calm β Exception := do
  setCr2 lin
  let s ← self
  return Exception.pf (s.pfCode access present rsvd)

/-- `if c { return Err(self.page_fault(..)) }`. -/
def faultIf (c : Prop) [Decidable c] (lin : U64) (access : Access)
    (present rsvd : Bool) : Calm β Unit :=
  if c then pageFault lin access present rsvd >>= throw else pure ()

/-- A stamp of one page followed by a store inside it. -/
def pageStore (first last : U64) (w : β → β)
    (hpage : last >>> 12 = first >>> 12)
    (h : ∀ b, BusStore b first last (w b)) : Calm β Unit :=
  calmStep
    (fun s => { s with icache := s.icache.stampWrite first, bus := w s.bus })
    fun s => by
      have hstore := CalmPrim.store s first last (w s.bus) (h s.bus)
      simpa only [ICache.stampWriteSpan, hpage, ne_eq, not_true, if_false] using hstore

/-- Write back a 64-bit page-table entry. -/
def storeEntry64 (a : U64) (ha : a &&& 7 = 0) (v : U64) : Calm β Unit :=
  pageStore a (a + 7) (Bus.write64 · a v) (page_aligned8 a ha) (.write64 · a v)

/-- Write back a 32-bit page-table entry. -/
def storeEntry32 (a : U64) (ha : a &&& 3 = 0) (v : U32) : Calm β Unit :=
  pageStore a (a + 3) (Bus.write32 · a v) (page_aligned4 a ha) (.write32 · a v)

/-- Install a 4 KiB translation. -/
def tlbFill (lin phys : U64) (hphys : phys &&& HIGH = 0)
    (user writable nx dirty : Bool) : Calm β Unit :=
  modifyTlb fun t =>
    let page := lin >>> 12
    ⟨upd t.entries (Tlb.slot page)
      { tag := page, phys := phys &&& ~~~0xFFF, user, writable, nx, dirty,
        framed := page_framed hphys }⟩

-- ======== legacy walk

/-- The leaf of a 2-level walk: where its entry is, the entry, the
combined protection and the frame. -/
structure LegacyLeaf where
  addr : U64
  aligned : addr &&& 3 = 0
  leaf : U64
  userOk : Bool
  writable : Bool
  frame : Frame

/-- The base of a 4 MiB page fits the physical address mask. -/
theorem legacy_large_framed (pde lin : U64) :
    ((pde &&& 0xFFC00000) ||| (lin &&& 0x003FF000)) &&& ~~~PHYS_MASK = 0 := by
  have h1 : (0xFFC00000 &&& ~~~PHYS_MASK : U64) = 0 := by decide
  have h2 : (0x003FF000 &&& ~~~PHYS_MASK : U64) = 0 := by decide
  rw [BitVec.and_or_distrib_right, BitVec.and_assoc, h1, BitVec.and_assoc, h2]
  simp

/-- The base of a 4 KiB page fits it too. -/
theorem frame_bits_framed (e : U64) :
    (e &&& 0xFFFFF000) &&& ~~~PHYS_MASK = 0 := by
  have h : (0xFFFFF000 &&& ~~~PHYS_MASK : U64) = 0 := by decide
  rw [BitVec.and_assoc, h]
  simp

/-- The low twelve bits survive the truncation to 32 bits. -/
theorem low32_offset (lin : U64) :
    (lin.setWidth 32).setWidth 64 &&& 0xFFF = lin &&& (0xFFF : U64) := by
  apply BitVec.eq_of_toNat_eq
  rw [toNat_and_FFF, toNat_and_FFF]
  simp only [BitVec.toNat_setWidth]
  omega

/-- The leaf below a page-directory entry: the entry itself when it maps a
4 MiB page, else the page-table entry it leads to. -/
def legacyLeaf (lin : U64) (access : Access) (lin32 pdeAddr : U64)
    (hpde : pdeAddr &&& 3 = 0) (pde : U64) (large : Bool) :
    Calm β LegacyLeaf :=
  if large then
    pure { addr := pdeAddr, aligned := hpde, leaf := pde,
           userOk := pde &&& pte.US != 0,
           writable := pde &&& pte.RW != 0,
           frame := ⟨_, legacy_large_framed pde lin32⟩ }
  else do
    let pteAddr :=
      (pde &&& (0xFFFFF000 : U64)) + (((lin32 >>> 12) &&& (0x3FF : U64)) <<< 2)
    let ptev : U64 := (← busRead32 pteAddr).setWidth 64
    faultIf (ptev &&& pte.P = 0) lin access false false
    return { addr := pteAddr, aligned := aligned4_add _ _ _ (by decide),
             leaf := ptev,
             userOk := pde &&& ptev &&& pte.US != 0,
             writable := pde &&& ptev &&& pte.RW != 0,
             frame := ⟨_, frame_bits_framed ptev⟩ }

/-- The leaf lacks an accessed or dirty bit this access sets. -/
def leafStale (leaf : U64) (write : Bool) : Bool :=
  leaf &&& pte.A == 0 || (write && leaf &&& pte.D == 0)

/-- The leaf after its accessed and dirty updates. -/
def touchedLeaf (leaf : U64) (write : Bool) : U64 :=
  if leafStale leaf write then leaf ||| pte.A ||| (if write then pte.D else 0)
  else leaf

/-- After a write the leaf is dirty, whether or not it had to be written
back. -/
theorem touchedLeaf_dirty (leaf : U64) :
    (touchedLeaf leaf true &&& pte.D != 0) = true := by
  unfold touchedLeaf
  split
  case isTrue =>
    have hD : (leaf ||| pte.A ||| pte.D) &&& pte.D = pte.D := by
      refine BitVec.eq_of_getLsbD_eq fun i _ => ?_
      rw [BitVec.getLsbD_and, BitVec.getLsbD_or]
      exact Bool.and_eq_right_iff_imp.2 fun h => by rw [h, Bool.or_true]
    simp only [if_true, hD]
    decide
  case isFalse hstale =>
    simp only [leafStale, Bool.true_and, Bool.or_eq_true, beq_iff_eq,
      not_or] at hstale
    simpa only [bne_iff_ne] using hstale.2

/-- Legacy 2-level walk: 32-bit entries, optional 4 MiB pages. -/
def walkLegacy (lin : U64) (access : Access) : Calm β (Translated lin) := do
  let s ← self
  let lin32 : U64 := (lin.setWidth 32).setWidth 64
  let pdeAddr := (s.regs.cr3 &&& (0xFFFFF000 : U64)) + ((lin32 >>> 22) <<< 2)
  have hpde : pdeAddr &&& 3 = 0 := aligned4_add _ _ _ (by decide)
  let pde : U64 := (← busRead32 pdeAddr).setWidth 64
  faultIf (pde &&& pte.P = 0) lin access false false
  let large := pde &&& pte.PS != 0 && s.regs.cr4 &&& cr4.PSE != 0
  let l ← legacyLeaf lin access lin32 pdeAddr hpde pde large
  let s ← self
  faultIf (!s.walkPermits access l.userOk l.writable false)
    lin access true false
  -- A/D write-backs are guest-visible stores, so they stamp too.
  whenever (!large && pde &&& pte.A == 0)
    (storeEntry32 pdeAddr hpde ((pde ||| pte.A).setWidth 32))
  let leaf := touchedLeaf l.leaf (access == .write)
  whenever (leafStale l.leaf (access == .write))
    (storeEntry32 l.addr l.aligned (leaf.setWidth 32))
  tlbFill lin l.frame.1 l.frame.low l.userOk l.writable false
    (leaf &&& pte.D != 0)
  return { l.frame.at lin32 with
    offset := ((l.frame.at lin32).offset).trans (low32_offset lin) }

-- ======== wide walk

/-- One level of a wide walk: where the entry is and what it held. -/
structure PteRef where
  addr : U64
  aligned : addr &&& 7 = 0
  val : U64

/-- The outcome of a wide descent: the entries from the top down, the
size mask of the leaf's page and the 4 KiB frame of `lin` within it. -/
structure WideWalk (lin : U64) where
  levels : List PteRef
  frame : Frame
  pageMask : U64
  inside : frame.1 ||| (lin &&& pageMask &&& ~~~0xFFF) = frame.1

/-- An address inside a walked page lies below `2^52`. -/
theorem WideWalk.inside_low {lin : U64} (w : WideWalk lin) :
    (w.frame.1 ||| (lin &&& w.pageMask &&& ~~~0xFFF)) &&& HIGH = 0 := by
  rw [w.inside]
  exact w.frame.low

/-- The offset bits of the page a leaf maps. -/
def pageMask (leafLevel : Bool) (shift : Fin 40) : U64 :=
  if leafLevel then 0xFFF else (1 <<< shift.val) - 1

/-- The offset mask of a large page has no high bits. -/
theorem pageMask_low :
    ∀ leafLevel shift, pageMask leafLevel shift &&& HIGH = 0 := by
  decide

/-- The base a wide walk computes fits the physical address mask. -/
theorem wide_frame_framed (e m lin : U64) (hm : m &&& HIGH = 0) :
    ((e &&& PHYS_MASK &&& ~~~m) ||| (lin &&& m &&& ~~~0xFFF)) &&& ~~~PHYS_MASK = 0 := by
  have h1 : e &&& PHYS_MASK &&& ~~~m &&& ~~~PHYS_MASK = 0 := by
    calc e &&& PHYS_MASK &&& ~~~m &&& ~~~PHYS_MASK
        = e &&& ~~~m &&& (PHYS_MASK &&& ~~~PHYS_MASK) := by ac_rfl
      _ = 0 := by
        rw [show (PHYS_MASK &&& ~~~PHYS_MASK : U64) = 0 from by decide]
        simp
  have h2 : lin &&& m &&& ~~~0xFFF &&& ~~~PHYS_MASK = 0 := by
    rw [page_framed]
    rw [BitVec.and_assoc, hm]
    exact BitVec.and_zero
  rw [BitVec.and_or_distrib_right, h1, h2, BitVec.or_self]

/-- Descend through the given levels, checking presence and reserved bits,
until a leaf. -/
def walkLevels (lin : U64) (access : Access) (long nxe : Bool) :
    List (Fin 40) → U64 → List PteRef → Calm β (WideWalk lin)
  | [], _, levels => pure ⟨levels, ⟨0, zero_framed⟩, 0, by simp⟩
  | shift :: rest, table, levels => do
    let addr := (table &&& PHYS_MASK)
      + (((lin >>> shift.val) &&& (0x1FF : U64)) <<< 3)
    let e ← busRead64 addr
    faultIf (e &&& pte.P = 0) lin access false false
    let leafLevel := rest.isEmpty
    let largeOk := shift == 21 || (long && shift == 30)
    faultIf ((!nxe && e &&& pte.NX != 0) || e &&& 0x7FF0000000000000 != 0
        || (!leafLevel && !largeOk && e &&& pte.PS != 0)) lin access true true
    let levels := levels ++ [⟨addr, aligned8_add _ _ _ (by decide), e⟩]
    if leafLevel || e &&& pte.PS != 0 then
      let mask := pageMask leafLevel shift
      -- Low frame bits below the page size must be zero.
      faultIf (e &&& PHYS_MASK &&& mask ≠ 0) lin access true true
      pure ⟨levels, ⟨_, wide_frame_framed e mask lin (pageMask_low _ _)⟩, mask, by
        rw [BitVec.or_assoc, BitVec.or_self]⟩
    else
      walkLevels lin access long nxe rest (e &&& PHYS_MASK) levels

/-- Accessed on every level; dirty on the leaf for writes. -/
def updateAccessed (write : Bool) : List PteRef → Calm β Unit
  | [] => pure ()
  | r :: rest => do
    let v := r.val ||| pte.A ||| (if rest.isEmpty && write then pte.D else 0)
    whenever (v ≠ r.val) (storeEntry64 r.addr r.aligned v)
    updateAccessed write rest

/-- The PAE page-directory-pointer entry: where the walk starts, after its
own presence and reserved-bit checks. -/
def readPdpte (lin : U64) (access : Access) : Calm β U64 := do
  let s ← self
  let pdpte ← busRead64
    ((s.regs.cr3 &&& (0xFFFFFFE0 : U64)) + (((lin >>> 30) &&& (3 : U64)) <<< 3))
  faultIf (pdpte &&& pte.P = 0) lin access false false
  faultIf (pdpte &&& (pte.RW ||| pte.US ||| pte.PS ||| pte.NX ||| 0x1E0) ≠ 0)
    lin access true true
  return pdpte &&& PHYS_MASK

/-- PAE (3-level) and long-mode (4-level) walk. -/
def walkWide (lin : U64) (access : Access) : Calm β (Translated lin) := do
  let s ← self
  let long := s.longMode
  let nxe := s.regs.msr.efer &&& efer.NXE != 0
  let table ← (if long then pure (s.regs.cr3 &&& PHYS_MASK) else readPdpte lin access)
  let shifts : List (Fin 40) := if long then [39, 30, 21, 12] else [21, 12]
  let w ← walkLevels lin access long nxe shifts table []
  let userOk := w.levels.all fun r => r.val &&& pte.US != 0
  let writable := w.levels.all fun r => r.val &&& pte.RW != 0
  let nx := w.levels.any fun r => nxe && r.val &&& pte.NX != 0
  let s ← self
  faultIf (!s.walkPermits access userOk writable nx) lin access true false
  let write := access == .write
  updateAccessed write w.levels
  let dirty := (w.levels.getLast?.any fun r => r.val &&& pte.D != 0) || write
  tlbFill lin (w.frame.1 ||| (lin &&& w.pageMask &&& ~~~0xFFF)) w.inside_low
    userOk writable nx dirty
  return w.frame.at lin

-- ======== translation

/-- Full page-table walk in the format the mode selects. -/
def walk (lin : U64) (access : Access) : Calm β (Translated lin) := do
  let s ← self
  if s.regs.cr4 &&& cr4.PAE = 0 then walkLegacy lin access
    else walkWide lin access

/-- Translate `lin`: a permitting TLB entry, or a walk. -/
def translate (lin : U64) (access : Access) : Calm β (Translated lin) := do
  let s ← self
  let page := lin >>> 12
  let e := s.tlb.entries (Tlb.slot page)
  if e.tag = page && s.tlbPermits e access then
    return Frame.at ⟨e.phys, e.framed⟩ lin
  walk lin access

/-- The translation of a code fetch. -/
def fetchTranslate (lin : U64) : Calm β (Translated lin) :=
  translate lin .fetch

end Remu.X64
