/-
386 paging: the two-level page-table walk with the software TLB.

A translation is returned with the fact that it keeps the low twelve bits
of the linear address, and a page-table entry's address with its
alignment. That is what shows that each stamp the code takes covers the
bytes the store behind it writes, which is the whole content of
`CalmPrim.store`.
-/
import Remu.X32.Cold

namespace Remu.X32

open Word

-- Page-table entry bits shared by PDEs and PTEs.

namespace pte

abbrev P : U32 := 0x1
abbrev RW : U32 := 0x2
abbrev US : U32 := 0x4
abbrev A : U32 := 0x20
abbrev D : U32 := 0x40

end pte

/-- A page frame: frame bits only. -/
abbrev Frame : Type := { p : U32 // p &&& ~~~FRAME = 0 }

theorem Frame.aligned (f : Frame) : f.1 &&& 0xFFF = 0 := f.2

theorem frame_framed (e : U32) : e &&& FRAME &&& ~~~FRAME = 0 := by
  rw [BitVec.and_assoc, show (FRAME &&& ~~~FRAME : U32) = 0 from by decide]
  exact BitVec.and_zero

/-- The frame an entry names. -/
def Frame.of (e : U32) : Frame := ⟨e &&& FRAME, frame_framed e⟩

/-- A physical address for `lin`: translation keeps the page offset. -/
structure Translated (lin : U32) where
  val : U32
  offset : val &&& 0xFFF = lin &&& 0xFFF

/-- The address of byte `lin` within `f`. -/
def Frame.at (f : Frame) (lin : U32) : Translated lin where
  val := f.1 ||| (lin &&& 0xFFF)
  offset := offset_or f.1 lin f.aligned

namespace Cpu

/-- Explicit accesses use CPL; implicit ones are supervisor accesses. -/
def userAccess (c : Cpu) : Bool := c.cpl == 3 && !c.supervisorOverride

/-- Whether a TLB entry answers this access: supervisor accesses ignore
the protection bits, and a write needs the dirty bit known set. -/
def tlbPermits (c : Cpu) (e : TlbEntry) (write : Bool) : Bool :=
  let user := c.userAccess
  (!user || (e.user && (!write || e.writable))) && (!write || e.dirty)

/-- The combined protection check of a walk. -/
def walkPermits (c : Cpu) (write userOk writable : Bool) : Bool :=
  let user := c.userAccess
  !(user && (!userOk || (write && !writable)))

/-- The #PF error code. -/
def pfCode (c : Cpu) (write present : Bool) : U16 :=
  (if present then 1 else 0) ||| (if write then 1 else 0) <<< 1
    ||| (if c.userAccess then 1 else 0) <<< 2

end Cpu

variable {β : Type} [Bus β]

def flushTlb : Calm β Unit := modifyTlb Tlb.flush

/-- `if c { self.regs.cr2 = lin; return Err(fault(..)) }`. -/
def faultIf (c : Prop) [Decidable c] (lin : U32) (write present : Bool) :
    Calm β Unit :=
  if c then do
    setCr2 lin
    let s ← self
    throw (Exception.pf (s.pfCode write present))
  else pure ()

/-- A stamp of one page followed by a store inside it. -/
def pageStore (first last : U32) (w : β → β)
    (hpage : last >>> 12 = first >>> 12)
    (h : ∀ b, BusStore b first last (w b)) : Calm β Unit :=
  calmStep
    (fun s => { s with icache := s.icache.stampWrite first, bus := w s.bus })
    fun s => by
      have hstore := CalmPrim.store s first last (w s.bus) (h s.bus)
      simpa only [ICache.stampWriteSpan, hpage, ne_eq, not_true, if_false] using hstore

/-- Write back a page-table entry. -/
def storeEntry (a : U32) (ha : a &&& 3 = 0) (v : U32) : Calm β Unit :=
  pageStore a (a + 3) (Bus.write32 · a v) (page_aligned4 a ha) (.write32 · a v)

/-- Install a translation. -/
def tlbFill (lin : U32) (phys : Frame) (user writable dirty : Bool) :
    Calm β Unit :=
  modifyTlb fun t =>
    let page := lin >>> 12
    ⟨upd t.entries (Tlb.slot page)
      { tag := page, phys := phys.1, user, writable, dirty, framed := phys.2 }⟩

/-- The address of the directory entry of `lin`. -/
def pdeAddr (cr3 lin : U32) : U32 := (cr3 &&& FRAME) + ((lin >>> 22) <<< 2)

/-- The address of the table entry of `lin` in the table of `pde`. -/
def pteAddr (pde lin : U32) : U32 :=
  (pde &&& FRAME) + (((lin >>> 12) &&& (0x3FF : U32)) <<< 2)

theorem pdeAddr_aligned (cr3 lin : U32) : pdeAddr cr3 lin &&& 3 = 0 :=
  aligned4_add _ _ _ (by decide)

theorem pteAddr_aligned (pde lin : U32) : pteAddr pde lin &&& 3 = 0 :=
  aligned4_add _ _ _ (by decide)

/-- The table entry lacks an accessed or dirty bit this access sets. -/
def pteStale (e : U32) (write : Bool) : Bool :=
  e &&& pte.A == 0 || (write && e &&& pte.D == 0)

/-- The table entry after its accessed and dirty updates. -/
def touchedPte (e : U32) (write : Bool) : U32 :=
  if pteStale e write then e ||| pte.A ||| (if write then pte.D else 0) else e

/-- After a write the entry is dirty, whether or not it had to be written
back. -/
theorem touchedPte_dirty (e : U32) :
    (touchedPte e true &&& pte.D != 0) = true := by
  unfold touchedPte
  split
  case isTrue =>
    have hD : (e ||| pte.A ||| pte.D) &&& pte.D = pte.D := by
      refine BitVec.eq_of_getLsbD_eq fun i _ => ?_
      rw [BitVec.getLsbD_and, BitVec.getLsbD_or]
      exact Bool.and_eq_right_iff_imp.2 fun h => by rw [h, Bool.or_true]
    simp only [if_true, hD]
    decide
  case isFalse hstale =>
    simp only [pteStale, Bool.true_and, Bool.or_eq_true, beq_iff_eq,
      not_or] at hstale
    simpa only [bne_iff_ne] using hstale.2

/-- Full two-level walk, updating accessed and dirty bits and the TLB. -/
def walk (lin : U32) (write : Bool) : Calm β (Translated lin) := do
  let s ← self
  let pdeA := pdeAddr s.regs.cr3 lin
  let pde ← busRead32 pdeA
  faultIf (pde &&& pte.P = 0) lin write false
  let pteA := pteAddr pde lin
  let e ← busRead32 pteA
  faultIf (e &&& pte.P = 0) lin write false
  let user := pde &&& e &&& pte.US != 0
  let rw := pde &&& e &&& pte.RW != 0
  let s ← self
  faultIf (!s.walkPermits write user rw) lin write true
  -- A guest can execute from its own page tables, so the accessed and
  -- dirty write-backs stamp too.
  whenever (pde &&& pte.A = 0)
    (storeEntry pdeA (pdeAddr_aligned _ _) (pde ||| pte.A))
  let v := touchedPte e write
  whenever (pteStale e write) (storeEntry pteA (pteAddr_aligned _ _) v)
  tlbFill lin (.of v) user rw (v &&& pte.D != 0)
  return (Frame.of v).at lin

/-- Translate `lin`: a permitting TLB entry, or a walk. -/
def translate (lin : U32) (write : Bool) : Calm β (Translated lin) := do
  let s ← self
  let page := lin >>> 12
  let e := s.tlb.entries (Tlb.slot page)
  if e.tag = page && s.tlbPermits e write then
    return Frame.at ⟨e.phys, e.framed⟩ lin
  walk lin write

end Remu.X32
