/-
Linear-address access: the accessors behind every segment-relative access,
stack access and descriptor fetch.

An access inside one page is one translation and one bus access. A store
that may cross a page translates every byte before any byte lands, stamps
the pages of the first and the last byte, and stores byte by byte. Two
stamps cover it because a successful write translation leaves a TLB entry
that answers every later one for the same page (`translate_held`), so
all bytes of one linear page go to one physical page.
-/
import Remu.X64.Paging

namespace Remu.X64

open Word

variable {β : Type} [Bus β]

-- ======== what a walk leaves alone

/-- A successful run leaves the register file and the decode state as they
were: what it may touch is memory, stamps and the TLB. -/
def MemOnly {α : Type} (x : Calm β α) : Prop :=
  ∀ s a s', x.run s = (.ok a, s') →
    s'.regs = s.regs ∧ s'.toDecodeState = s.toDecodeState

theorem MemOnly.pure {α : Type} (a : α) : MemOnly (pure a : Calm β α) := by
  intro s b s' h
  cases h
  exact ⟨rfl, rfl⟩

theorem MemOnly.bind {α γ : Type} {x : Calm β α} {f : α → Calm β γ}
    (hx : MemOnly x) (hf : ∀ a, MemOnly (f a)) : MemOnly (x >>= f) := by
  intro s b s'' h
  rw [Bounded.run_bind, Fallible.bind_eq_ok] at h
  obtain ⟨a, s', hxa, hfa⟩ := h
  obtain ⟨hr, hd⟩ := hx s a s' hxa
  obtain ⟨hr', hd'⟩ := hf a s' b s'' hfa
  exact ⟨hr'.trans hr, hd'.trans hd⟩

theorem MemOnly.throw {α : Type} (e : Exception) :
    MemOnly (throw e : Calm β α) := by
  intro s b s' h
  cases h

theorem MemOnly.self : MemOnly (self : Calm β (Machine β)) := by
  intro s b s' h
  cases h
  exact ⟨rfl, rfl⟩

theorem MemOnly.touchBus {α : Type} (f : β → α × β)
    (hf : ∀ b, BusTouch b (f b).2) : MemOnly (touchBus f hf) := by
  intro s b s' h
  cases h
  exact ⟨rfl, rfl⟩

theorem MemOnly.pageStore (first last : U64) (w : β → β)
    (hpage : last >>> 12 = first >>> 12)
    (hw : ∀ b, BusStore b first last (w b)) :
    MemOnly (pageStore first last w hpage hw) := by
  intro s b s' h
  cases h
  exact ⟨rfl, rfl⟩

theorem MemOnly.stampedStore (first last : U64) (w : β → β)
    (hw : ∀ b, BusStore b first last (w b)) :
    MemOnly (stampedStore first last w hw) := by
  intro s b s' h
  cases h
  exact ⟨rfl, rfl⟩

theorem MemOnly.tlbFill (lin phys : U64) (hphys : phys &&& HIGH = 0)
    (user writable nx dirty : Bool) :
    MemOnly (tlbFill lin phys hphys user writable nx dirty : Calm β Unit) := by
  intro s b s' h
  cases h
  exact ⟨rfl, rfl⟩

theorem MemOnly.whenever (c : Prop) [Decidable c] {m : Calm β Unit}
    (hm : MemOnly m) : MemOnly (whenever c m) := by
  unfold X64.whenever
  split
  · exact hm
  · exact MemOnly.pure ()

/-- A fault check that passes changes nothing; CR2 moves only with the
fault. -/
theorem run_faultIf_ok {c : Prop} [Decidable c] {lin : U64} {access : Access}
    {present rsvd : Bool} {s s' : Machine β}
    (h : (faultIf c lin access present rsvd).run s = (.ok (), s')) :
    ¬ c ∧ s' = s := by
  unfold faultIf at h
  split at h
  · rw [Bounded.run_bind, Fallible.bind_eq_ok] at h
    obtain ⟨e, s₁, -, hthrow⟩ := h
    cases hthrow
  case isFalse hc =>
    cases h
    exact ⟨hc, rfl⟩

theorem MemOnly.faultIf (c : Prop) [Decidable c] (lin : U64)
    (access : Access) (present rsvd : Bool) :
    MemOnly (faultIf c lin access present rsvd : Calm β Unit) := by
  intro s b s' h
  obtain ⟨-, rfl⟩ := run_faultIf_ok h
  exact ⟨rfl, rfl⟩

theorem MemOnly.updateAccessed (write : Bool) (l : List PteRef) :
    MemOnly (updateAccessed write l : Calm β Unit) := by
  induction l with
  | nil => exact MemOnly.pure ()
  | cons r rest ih =>
    unfold X64.updateAccessed
    exact (MemOnly.whenever _ (MemOnly.pageStore _ _ _ _ _)).bind fun _ => ih

theorem MemOnly.legacyLeaf (lin : U64) (access : Access) (lin32 pdeAddr : U64)
    (hpde : pdeAddr &&& 3 = 0) (pde : U64) (large : Bool) :
    MemOnly (legacyLeaf lin access lin32 pdeAddr hpde pde large : Calm β
      LegacyLeaf) := by
  unfold X64.legacyLeaf
  split
  · exact .pure _
  · exact (MemOnly.touchBus _ _).bind fun _ => (MemOnly.faultIf _ _ _ _ _).bind
      fun _ => .pure _

theorem MemOnly.walkLegacy (lin : U64) (access : Access) :
    MemOnly (walkLegacy lin access : Calm β _) := by
  unfold X64.walkLegacy
  exact MemOnly.self.bind fun _ => (MemOnly.touchBus _ _).bind fun _ =>
    (MemOnly.faultIf _ _ _ _ _).bind fun _ =>
      (MemOnly.legacyLeaf _ _ _ _ _ _ _).bind fun _ =>
    MemOnly.self.bind fun _ => (MemOnly.faultIf _ _ _ _ _).bind fun _ =>
    (MemOnly.whenever _ (MemOnly.pageStore _ _ _ _ _)).bind fun _ =>
    (MemOnly.whenever _ (MemOnly.pageStore _ _ _ _ _)).bind fun _ =>
    (MemOnly.tlbFill _ _ _ _ _ _ _).bind fun _ => .pure _

theorem MemOnly.walkLevels (lin : U64) (access : Access) (long nxe : Bool)
    (shifts : List (Fin 40)) (table : U64) (levels : List PteRef) :
    MemOnly (walkLevels lin access long nxe shifts table
      levels : Calm β _) := by
  induction shifts generalizing table levels with
  | nil => exact .pure _
  | cons shift rest ih =>
    unfold X64.walkLevels
    refine (MemOnly.touchBus _ _).bind fun _ =>
      (MemOnly.faultIf _ _ _ _ _).bind fun _ =>
      (MemOnly.faultIf _ _ _ _ _).bind fun _ => ?_
    split
    · exact (MemOnly.faultIf _ _ _ _ _).bind fun _ => .pure _
    · exact ih _ _

theorem MemOnly.readPdpte (lin : U64) (access : Access) :
    MemOnly (readPdpte lin access : Calm β U64) := by
  unfold X64.readPdpte
  exact MemOnly.self.bind fun _ => (MemOnly.touchBus _ _).bind fun _ =>
    (MemOnly.faultIf _ _ _ _ _).bind fun _ => (MemOnly.faultIf _ _ _ _ _).bind
      fun _ => .pure _

theorem MemOnly.walkWide (lin : U64) (access : Access) :
    MemOnly (walkWide lin access : Calm β _) := by
  unfold X64.walkWide
  refine MemOnly.self.bind fun s => MemOnly.bind ?_ fun _ =>
    (MemOnly.walkLevels _ _ _ _ _ _ _).bind fun _ => MemOnly.self.bind fun _ =>
    (MemOnly.faultIf _ _ _ _ _).bind fun _ =>
      (MemOnly.updateAccessed _ _).bind fun _ =>
    (MemOnly.tlbFill _ _ _ _ _ _ _).bind fun _ => .pure _
  split
  · exact .pure _
  · exact MemOnly.readPdpte _ _

theorem MemOnly.translate (lin : U64) (access : Access) :
    MemOnly (translate lin access : Calm β _) := by
  unfold X64.translate
  refine MemOnly.self.bind fun s => ?_
  dsimp only
  split
  · exact .pure _
  · unfold X64.walk
    refine MemOnly.self.bind fun s => ?_
    split
    · exact MemOnly.walkLegacy _ _
    · exact MemOnly.walkWide _ _

-- ======== a write translation is kept

/-- The TLB answers a write to the page of `lin` with the frame of `p`. -/
def TlbHolds (s : Machine β) (lin p : U64) : Prop :=
  (s.tlb.entries (Tlb.slot (lin >>> 12))).tag = lin >>> 12
    ∧ s.tlbPermits (s.tlb.entries (Tlb.slot (lin >>> 12))) .write = true
    ∧ (s.tlb.entries (Tlb.slot (lin >>> 12))).phys >>> 12 = p >>> 12

/-- A held page is answered from the TLB, with nothing changed. -/
theorem translate_held {s : Machine β} {lin lin' p : U64}
    (hold : TlbHolds s lin p) (hpage : lin' >>> 12 = lin >>> 12) :
    ∃ q : Translated lin', (translate lin' .write).run s = (.ok q, s)
      ∧ q.val >>> 12 = p >>> 12 := by
  obtain ⟨htag, hperm, hphys⟩ := hold
  refine ⟨Frame.at ⟨_, (s.tlb.entries (Tlb.slot (lin >>> 12))).framed⟩ lin', ?_, ?_⟩
  · unfold translate
    simp only [Bounded.run_bind, hpage]
    rw [Fallible.bind_of_ok (run_self s)]
    simp only [htag, hperm, decide_true, Bool.and_self, if_true]
    rfl
  · rw [← hphys]
    exact page_or
      _ _ (Frame.aligned ⟨_, (s.tlb.entries (Tlb.slot (lin >>> 12))).framed⟩)

/-- A filled entry that the walk's permission check admitted, and that is
dirty, admits writes afterwards. -/
theorem tlbHolds_fill {s s' : Machine β} {lin p : U64} {f : Frame}
    {user writable nx dirty : Bool} {sw : Machine β}
    (hperm : sw.walkPermits .write user writable nx = true)
    (hdirty : dirty = true)
    (hregs : s.regs = sw.regs) (hdec : s.toDecodeState = sw.toDecodeState)
    (hfill : (tlbFill lin f.1 f.low user writable nx dirty).run
      s = (.ok (), s'))
    (hp : p >>> 12 = f.1 >>> 12) : TlbHolds s' lin p := by
  subst hdirty
  cases hfill
  have hua : s.userAccess = sw.userAccess := by
    unfold Cpu.userAccess Cpu.cpl Cpu.protectedMode
    rw [hregs, hdec]
  have hframe : f.1 &&& ~~~0xFFF = f.1 := by
    apply BitVec.eq_of_toNat_eq
    have h0 : f.1.toNat % 4096 = 0 := by
      rw [← toNat_and_FFF, f.aligned]
      rfl
    have hor : f.1 &&& ~~~0xFFF ||| f.1 &&& 0xFFF = f.1 := by
      rw [← BitVec.and_or_distrib_left]
      have hall : (~~~0xFFF ||| 0xFFF : U64) = BitVec.allOnes 64 := by decide
      rw [hall, BitVec.and_allOnes]
    rw [f.aligned] at hor
    rw [show f.1 &&& ~~~0xFFF = f.1 by simpa using hor]
  refine ⟨?_, ?_, ?_⟩
  · simp only [upd_same]
  · simp only [upd_same, Cpu.tlbPermits, Bool.and_true]
    simp only [Cpu.walkPermits] at hperm
    have hua' : Cpu.userAccess
        { s.toCpu with tlb := ⟨upd s.tlb.entries (Tlb.slot (lin >>> 12))
            { tag := lin >>> 12, phys := f.1 &&& ~~~0xFFF, user := user,
              writable := writable, nx := nx, dirty := true,
              framed := page_framed f.low }⟩ } = sw.userAccess := hua
    rw [hua', hregs]
    exact hperm
  · simp only [upd_same, hframe]
    exact hp.symm

/-- After a walk for writing the TLB holds the page, writable. -/
theorem walkLegacy_holds {s s' : Machine β} {lin : U64} {p : Translated lin}
    (h : (walkLegacy lin .write).run s = (.ok p, s')) :
    TlbHolds s' lin p.val := by
  unfold walkLegacy at h
  simp only [Bounded.run_bind, Fallible.bind_eq_ok] at h
  obtain ⟨_, _, -, _, _, -, ⟨⟩, _, -, l, _, -, sw, _, hsw, ⟨⟩, _,
    hperm, ⟨⟩, _, hpde, ⟨⟩, _, hleaf, ⟨⟩, _, hfill, hret⟩ := h
  cases hsw
  obtain ⟨hperm, rfl⟩ := run_faultIf_ok hperm
  obtain ⟨hr1, hd1⟩ :=
    MemOnly.whenever _ (MemOnly.pageStore _ _ _ _ _) _ _ _ hpde
  obtain ⟨hr2, hd2⟩ :=
    MemOnly.whenever _ (MemOnly.pageStore _ _ _ _ _) _ _ _ hleaf
  cases hret
  exact tlbHolds_fill (by simpa using hperm) (touchedLeaf_dirty l.leaf)
    (hr2.trans hr1) (hd2.trans hd1) hfill (page_or _ _ l.frame.aligned)

theorem walkWide_holds {s s' : Machine β} {lin : U64} {p : Translated lin}
    (h : (walkWide lin .write).run s = (.ok p, s')) :
    TlbHolds s' lin p.val := by
  unfold walkWide at h
  simp only [Bounded.run_bind, Fallible.bind_eq_ok] at h
  obtain ⟨_, _, -, _, _, -, w, _, -, sw, _, hsw, ⟨⟩, _, hperm, ⟨⟩, _, hacc,
    ⟨⟩, _, hfill, hret⟩ := h
  cases hsw
  obtain ⟨hperm, rfl⟩ := run_faultIf_ok hperm
  obtain ⟨hr, hd⟩ := MemOnly.updateAccessed _ _ _ _ _ hacc
  cases hret
  simp only [w.inside] at hfill
  exact tlbHolds_fill (by simpa using hperm) (by simp) hr hd hfill
    (page_or _ _ w.frame.aligned)

/-- A successful write translation leaves its page in the TLB. -/
theorem translate_holds {s s' : Machine β} {lin : U64} {p : Translated lin}
    (h : (translate lin .write).run s = (.ok p, s')) :
    TlbHolds s' lin p.val := by
  unfold translate at h
  rw [Bounded.run_bind, Fallible.bind_of_ok (run_self s)] at h
  dsimp only at h
  split at h
  case isTrue hhit =>
    simp only [Bool.and_eq_true, decide_eq_true_eq] at hhit
    cases h
    exact ⟨hhit.1, hhit.2,
      (page_or _ _ (Frame.aligned ⟨_, (s.tlb.entries _).framed⟩)).symm⟩
  case isFalse =>
    unfold walk at h
    rw [Bounded.run_bind, Fallible.bind_of_ok (run_self s)] at h
    split at h
    · exact walkLegacy_holds h
    · exact walkWide_holds h

-- ======== byte runs

/-- Translate every address of a list for writing, in order. -/
def translateAll : List U64 → Calm β (List U64)
  | [] => pure []
  | lin :: rest => do
    let p ← translate lin .write
    let ps ← translateAll rest
    return p.val :: ps

/-- Translations of a run of addresses, cut in two. -/
theorem translateAll_append (xs ys : List U64) :
    (translateAll (xs ++ ys) : Calm β (List U64)) = do
      let ps ← translateAll xs
      let qs ← translateAll ys
      return ps ++ qs := by
  induction xs with
  | nil => simp [translateAll]
  | cons lin rest ih =>
    simp only [List.cons_append, translateAll, ih, bind_assoc, pure_bind]

/-- A page the TLB holds goes to its one frame, however often it is
asked. -/
theorem translateAll_held {s : Machine β} {lin p : U64} {lins : List U64}
    (hold : TlbHolds s lin p) (hlins : ∀ l ∈ lins, l >>> 12 = lin >>> 12) :
    ∃ ps, (translateAll lins).run s = (.ok ps, s)
      ∧ ∀ q ∈ ps, q >>> 12 = p >>> 12 := by
  induction lins with
  | nil => exact ⟨[], rfl, by simp⟩
  | cons l rest ih =>
    obtain ⟨q, hq, hpage⟩ := translate_held hold (hlins l (by simp))
    obtain ⟨ps, hps, hall⟩ := ih fun l' hl' => hlins l' (by simp [hl'])
    refine ⟨q.val :: ps, ?_, ?_⟩
    · rw [translateAll, Bounded.run_bind, Fallible.bind_of_ok hq,
        Bounded.run_bind, Fallible.bind_of_ok hps]
      rfl
    · intro q' hq'
      rcases List.mem_cons.1 hq' with rfl | hq'
      · exact hpage
      · exact hall q' hq'

/-- Addresses of one linear page are translated into one physical page. -/
theorem translateAll_page {s s' : Machine β} {lin : U64} {lins ps : List U64}
    (hlins : ∀ l ∈ lins, l >>> 12 = lin >>> 12)
    (h : (translateAll lins).run s = (.ok ps, s')) :
    ∃ page, ∀ q ∈ ps, q >>> 12 = page := by
  cases lins with
  | nil =>
    cases h
    exact ⟨0, by simp⟩
  | cons l rest =>
    rw [translateAll, Bounded.run_bind, Fallible.bind_eq_ok] at h
    obtain ⟨p, s₁, hp, h⟩ := h
    have hrest : ∀ l' ∈ rest, l' >>> 12 = l >>> 12 := fun l' hl' =>
      (hlins l' (List.mem_cons_of_mem l hl')).trans (hlins l (by simp)).symm
    obtain ⟨qs, hqs, hall⟩ := translateAll_held (translate_holds hp) hrest
    rw [Bounded.run_bind, Fallible.bind_of_ok hqs] at h
    cases h
    refine ⟨p.val >>> 12, fun q hq => ?_⟩
    rcases List.mem_cons.1 hq with rfl | hq
    · rfl
    · exact hall q hq
/-- The addresses of `n` bytes from `lin`. -/
def bytesFrom (lin : U64) (n : Nat) : List U64 :=
  (List.range n).map fun i => lin + BitVec.ofNat 64 i

/-- The bytes of a run shorter than a page lie in the page of the first,
up to some point, and in the page of the last from there on. -/
theorem bytesFrom_pages (lin : U64) (n : Nat) (hn : n + 1 < 4096) :
    ∃ xs ys, bytesFrom lin (n + 1) = xs ++ ys
      ∧ (∀ l ∈ xs, l >>> 12 = lin >>> 12)
      ∧ (∀ l ∈ ys, l >>> 12 = (lin + BitVec.ofNat 64 n) >>> 12) := by
  have hlt := lin.isLt
  refine ⟨(bytesFrom lin (n + 1)).take (4096 - lin.toNat % 4096),
    (bytesFrom lin (n + 1)).drop (4096 - lin.toNat % 4096),
    (List.take_append_drop _ _).symm, fun l hl => ?_, fun l hl => ?_⟩
  · rw [bytesFrom, List.mem_iff_getElem] at hl
    obtain ⟨i, hi, rfl⟩ := hl
    simp only [List.length_take, List.length_map, List.length_range] at hi
    simp only [List.getElem_take, List.getElem_map, List.getElem_range]
    exact page_add lin i (by omega)
  · rw [bytesFrom, List.mem_iff_getElem] at hl
    obtain ⟨i, hi, rfl⟩ := hl
    simp only [List.length_drop, List.length_map, List.length_range] at hi
    simp only [List.getElem_drop, List.getElem_map, List.getElem_range]
    rw [page_eq_iff, BitVec.toNat_add, BitVec.toNat_add, BitVec.toNat_ofNat,
      BitVec.toNat_ofNat]
    omega

/-- The byte stores of `v`, low byte first. -/
def byteStores : List U64 → U64 → List (U64 × U8)
  | [], _ => []
  | p :: ps, v => (p, v.setWidth 8) :: byteStores ps (v >>> 8)

/-- The bytes of a store go to the places found for it. -/
theorem mem_byteStores {ps : List U64} {v : U64} {q : U64 × U8}
    (hq : q ∈ byteStores ps v) : q.1 ∈ ps := by
  induction ps generalizing v with
  | nil => simp [byteStores] at hq
  | cons p rest ih =>
    rw [byteStores, List.mem_cons] at hq
    rcases hq with rfl | hq
    · exact List.mem_cons_self
    · exact List.mem_cons_of_mem p (ih hq)

/-- `stamp_write_span` over the first and last of `ps`, then the bytes. -/
def scatter (ps : List U64) (v : U64) (s : Machine β) : Machine β :=
  { s with
    icache := s.icache.stampWriteSpan (ps.headD 0) (ps.getLastD 0)
    bus := (byteStores ps v).foldl (fun b p => Bus.write b p.1 p.2) s.bus }

/-- Each half of a translated run lies in one page, so the first and the
last address stand for all. -/
theorem pages_cover {xs ys : List U64} {page page' : U64}
    (hxs : ∀ q ∈ xs, q >>> 12 = page) (hys : ∀ q ∈ ys, q >>> 12 = page') :
    ∀ q ∈ xs ++ ys, q >>> 12 = ((xs ++ ys).headD 0) >>> 12
      ∨ q >>> 12 = ((xs ++ ys).getLastD 0) >>> 12 := by
  intro q hq
  rcases List.mem_append.1 hq with hx | hy
  · left
    obtain ⟨x, xs', rfl⟩ := List.exists_cons_of_ne_nil (List.ne_nil_of_mem hx)
    rw [hxs q hx, List.cons_append, List.headD_cons, hxs x List.mem_cons_self]
  · right
    have hne := List.ne_nil_of_mem hy
    have hlast : (xs ++ ys).getLastD 0 ∈ ys := by
      rw [List.getLastD_eq_getLast?, List.getLast?_append_of_ne_nil _ hne,
        List.getLast?_eq_getLast_of_ne_nil hne, Option.getD_some]
      exact List.getLast_mem hne
    rw [hys q hy, hys _ hlast]

/-- A store that crosses a page: all bytes are translated before any
lands, so a fault on the second page leaves the first untouched. -/
def linWriteSplit (lin : U64) (n : Nat) (hn : n + 1 < 4096) (v : U64) :
    Calm β Unit where
  run := do
    let ps ← (translateAll (bytesFrom lin (n + 1))).run
    Fallible.modify (scatter ps v)
  bound := fun s => by
    obtain ⟨xs, ys, hsplit, hxs, hys⟩ := bytesFrom_pages lin n hn
    have hcalm := (translateAll (bytesFrom lin (n + 1))).bound s
    rw [Fallible.bind_apply]
    rcases hrun :
      (translateAll (bytesFrom lin (n + 1))).run s with ⟨e | ps, s'⟩
    · rw [hrun] at hcalm
      exact hcalm
    · rw [hrun] at hcalm
      rw [hsplit, translateAll_append] at hrun
      simp only [Bounded.run_bind, Fallible.bind_eq_ok] at hrun
      obtain ⟨as, s₁, ha, bs, s₂, hb, hret⟩ := hrun
      cases hret
      obtain ⟨page, hpage⟩ := translateAll_page hxs ha
      obtain ⟨page', hpage'⟩ := translateAll_page hys hb
      refine hcalm.tail (.store _ _ _ _ (.scatter _ _ _ _ fun q hq => ?_))
      exact pages_cover hpage hpage' _ (mem_byteStores hq)

-- ======== linear accesses

/-- A byte, by its linear address. -/
def linRead8 (lin : U64) : Calm β U8 := do
  let s ← self
  if !s.paging then busRead lin
  else do
    let phys ← translate lin .read
    busRead phys.val

/-- `lo | hi << 8k`, the two halves read in order. -/
def readHalves {w : Nat} (lo hi : Calm β (BitVec w)) :
    Calm β (BitVec (w + w)) := do
  let l ← lo
  let h ← hi
  return l.setWidth (w + w) ||| (h.setWidth (w + w) <<< w)

/-- A word; a page crossing goes by halves. -/
def linRead16 (lin : U64) : Calm β U16 := do
  let s ← self
  if !s.paging then busRead16 lin
  else if lin &&& 0xFFF < 0xFFF then do
    let phys ← translate lin .read
    busRead16 phys.val
  else readHalves (linRead8 lin) (linRead8 (lin + 1))

def linRead32 (lin : U64) : Calm β U32 := do
  let s ← self
  if !s.paging then busRead32 lin
  else if lin &&& 0xFFF < 0xFFD then do
    let phys ← translate lin .read
    busRead32 phys.val
  else readHalves (linRead16 lin) (linRead16 (lin + 2))

def linRead64 (lin : U64) : Calm β U64 := do
  let s ← self
  if !s.paging then busRead64 lin
  else if lin &&& 0xFFF < 0xFF9 then do
    let phys ← translate lin .read
    busRead64 phys.val
  else readHalves (linRead32 lin) (linRead32 (lin + 4))

/-- A translated address inside the part of its page that `k` more bytes
do not leave. -/
theorem translated_page {lin m : U64} (p : Translated lin) (k : Nat)
    (hm : m.toNat + k ≤ 4096) (h : lin &&& 0xFFF < m) :
    (p.val + BitVec.ofNat 64 k) >>> 12 = p.val >>> 12 := by
  apply page_add
  rw [← toNat_and_FFF, p.offset]
  have := BitVec.lt_def.1 h
  omega

/-- Store a byte. -/
def linWrite8 (lin : U64) (v : U8) : Calm β Unit := do
  let s ← self
  if !s.paging then pageStore lin lin (Bus.write · lin v) rfl (.write · lin v)
  else do
    let phys ← translate lin .write
    pageStore phys.val phys.val (Bus.write · phys.val v)
      rfl (.write · phys.val v)

/-- Store a word; a page crossing translates both pages first. -/
def linWrite16 (lin : U64) (v : U16) : Calm β Unit := do
  let s ← self
  if !s.paging then
    stampedStore lin (lin + 1) (Bus.write16 · lin v) (.write16 · lin v)
  else if h : lin &&& 0xFFF < 0xFFF then do
    let phys ← translate lin .write
    pageStore phys.val (phys.val + 1) (Bus.write16 · phys.val v)
      (translated_page phys 1 (by decide) h) (.write16 · phys.val v)
  else linWriteSplit lin 1 (by decide) (v.setWidth 64)

def linWrite32 (lin : U64) (v : U32) : Calm β Unit := do
  let s ← self
  if !s.paging then
    stampedStore lin (lin + 3) (Bus.write32 · lin v) (.write32 · lin v)
  else if h : lin &&& 0xFFF < 0xFFD then do
    let phys ← translate lin .write
    pageStore phys.val (phys.val + 3) (Bus.write32 · phys.val v)
      (translated_page phys 3 (by decide) h) (.write32 · phys.val v)
  else linWriteSplit lin 3 (by decide) (v.setWidth 64)

def linWrite64 (lin : U64) (v : U64) : Calm β Unit := do
  let s ← self
  if !s.paging then
    stampedStore lin (lin + 7) (Bus.write64 · lin v) (.write64 · lin v)
  else if h : lin &&& 0xFFF < 0xFF9 then do
    let phys ← translate lin .write
    pageStore phys.val (phys.val + 7) (Bus.write64 · phys.val v)
      (translated_page phys 7 (by decide) h) (.write64 · phys.val v)
  else linWriteSplit lin 7 (by decide) v

-- ======== implicit supervisor accesses

/-- Run `m` as an implicit supervisor access; the override is put back
whatever the outcome. -/
def asSupervisor {α : Type} (m : Calm β α) : Calm β α := do
  let s ← self
  modifyDecode ({ · with supervisorOverride := true })
  let r ← Bounded.outcome m
  modifyDecode ({ · with supervisorOverride := s.supervisorOverride })
  match r with
  | .ok a => pure a
  | .error e => throw e

/-- Reads the processor makes for itself, at any privilege level. -/
def sysRead8 (lin : U64) : Calm β U8 := asSupervisor (linRead8 lin)
def sysRead16 (lin : U64) : Calm β U16 := asSupervisor (linRead16 lin)
def sysRead32 (lin : U64) : Calm β U32 := asSupervisor (linRead32 lin)
def sysRead64 (lin : U64) : Calm β U64 := asSupervisor (linRead64 lin)
/-- A write the processor makes for itself. -/
def sysWrite8 (lin : U64) (v : U8) : Calm β Unit :=
  asSupervisor (linWrite8 lin v)

end Remu.X64
