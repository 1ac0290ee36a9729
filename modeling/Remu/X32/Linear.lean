/-
Linear-address access: the accessors behind every segment-relative access,
stack access, instruction fetch and descriptor read.

An access inside one page is one translation and one bus access. A store
that may cross a page translates every byte before any byte lands, stamps
the pages of the first and the last byte, and stores byte by byte. Two
stamps cover it because a successful write translation leaves a TLB entry
that answers every later one for the same page (`translate_held`), so
all bytes of one linear page go to one physical page.
-/
import Remu.Lib.ByteRam
import Remu.X32.Paging

namespace Remu.X32

open Word

variable {β : Type} [Bus β]

-- ======== what a walk leaves alone

/-- A successful run leaves the register file and the decode state as they
were: what it may touch is memory, stamps and the TLB. -/
def MemOnly {α : Type} (x : Calm β α) : Prop :=
  ∀ s a s', x.run s = (.ok a, s') →
    s'.regs = s.regs ∧ s'.toDecodeState = s.toDecodeState

/-- The closure rules of what works on memory alone. -/
theorem MemOnly.pure {α : Type} (a : α) : MemOnly (pure a : Calm β α) := by
  intro s b s' h
  cases h
  exact ⟨rfl, rfl⟩

/-- A sequence works on memory alone where its parts do. -/
theorem MemOnly.bind {α γ : Type} {x : Calm β α} {f : α → Calm β γ}
    (hx : MemOnly x) (hf : ∀ a, MemOnly (f a)) : MemOnly (x >>= f) := by
  intro s b s'' h
  rw [Bounded.run_bind, Fallible.bind_eq_ok] at h
  obtain ⟨a, s', hxa, hfa⟩ := h
  obtain ⟨hr, hd⟩ := hx s a s' hxa
  obtain ⟨hr', hd'⟩ := hf a s' b s'' hfa
  exact ⟨hr'.trans hr, hd'.trans hd⟩

theorem MemOnly.self : MemOnly (self : Calm β (Machine β)) := by
  intro s b s' h
  cases h
  exact ⟨rfl, rfl⟩

theorem MemOnly.touchBus {α : Type} (f : β → α × β)
    (hf : ∀ b, BusTouch b (f b).2) : MemOnly (touchBus f hf) := by
  intro s b s' h
  cases h
  exact ⟨rfl, rfl⟩

theorem MemOnly.pageStore (first last : U32) (w : β → β)
    (hpage : last >>> 12 = first >>> 12)
    (hw : ∀ b, BusStore b first last (w b)) :
    MemOnly (pageStore first last w hpage hw) := by
  intro s b s' h
  cases h
  exact ⟨rfl, rfl⟩

/-- Filling the TLB. -/
theorem MemOnly.tlbFill (lin : U32) (phys : Frame)
    (user writable dirty : Bool) :
    MemOnly (tlbFill lin phys user writable dirty : Calm β Unit) := by
  intro s b s' h
  cases h
  exact ⟨rfl, rfl⟩

theorem MemOnly.whenever (c : Prop) [Decidable c] {m : Calm β Unit}
    (hm : MemOnly m) : MemOnly (whenever c m) := by
  unfold X32.whenever
  split
  · exact hm
  · exact MemOnly.pure ()

/-- A fault check that passes changes nothing; CR2 moves only with the
fault. -/
theorem run_faultIf_ok {c : Prop} [Decidable c] {lin : U32}
    {write present : Bool}
    {s s' : Machine β}
    (h : (faultIf c lin write present).run s = (.ok (), s')) :
    ¬ c ∧ s' = s := by
  unfold faultIf at h
  split at h
  · simp only [Bounded.run_bind, Fallible.bind_eq_ok] at h
    obtain ⟨_, _, -, _, _, -, hthrow⟩ := h
    cases hthrow
  case isFalse hc =>
    cases h
    exact ⟨hc, rfl⟩

theorem MemOnly.faultIf (c : Prop) [Decidable c] (lin : U32)
    (write present : Bool) :
    MemOnly (faultIf c lin write present : Calm β Unit) := by
  intro s b s' h
  obtain ⟨-, rfl⟩ := run_faultIf_ok h
  exact ⟨rfl, rfl⟩

/-- A walk moves marks, TLB and CR2. -/
theorem MemOnly.walk (lin : U32) (write : Bool) :
    MemOnly (walk lin write : Calm β _) := by
  unfold X32.walk
  exact MemOnly.self.bind fun _ => (MemOnly.touchBus _ _).bind fun _ =>
    (MemOnly.faultIf _ _ _ _).bind fun _ =>
      (MemOnly.touchBus _ _).bind fun _ =>
    (MemOnly.faultIf _ _ _ _).bind fun _ => MemOnly.self.bind fun _ =>
    (MemOnly.faultIf _ _ _ _).bind fun _ =>
    (MemOnly.whenever _ (MemOnly.pageStore _ _ _ _ _)).bind fun _ =>
    (MemOnly.whenever _ (MemOnly.pageStore _ _ _ _ _)).bind fun _ =>
    (MemOnly.tlbFill _ _ _ _ _).bind fun _ => .pure _

theorem MemOnly.translate (lin : U32) (write : Bool) :
    MemOnly (translate lin write : Calm β _) := by
  unfold X32.translate
  refine MemOnly.self.bind fun s => ?_
  dsimp only
  split
  · exact .pure _
  · exact MemOnly.walk _ _

-- ======== a write translation is kept

/-- The TLB answers a write to the page of `lin` with the frame of `p`. -/
def TlbHolds (s : Machine β) (lin p : U32) : Prop :=
  (s.tlb.entries (Tlb.slot (lin >>> 12))).tag = lin >>> 12
    ∧ s.tlbPermits (s.tlb.entries (Tlb.slot (lin >>> 12))) true = true
    ∧ (s.tlb.entries (Tlb.slot (lin >>> 12))).phys >>> 12 = p >>> 12

/-- A held page is answered from the TLB, with nothing changed. -/
theorem translate_held {s : Machine β} {lin lin' p : U32}
    (hold : TlbHolds s lin p) (hpage : lin' >>> 12 = lin >>> 12) :
    ∃ q : Translated lin', (translate lin' true).run s = (.ok q, s)
      ∧ q.val >>> 12 = p >>> 12 := by
  obtain ⟨htag, hperm, hphys⟩ := hold
  refine ⟨Frame.at ⟨_, (s.tlb.entries (Tlb.slot (lin >>> 12))).framed⟩ lin', ?_, ?_⟩
  · unfold translate
    simp only [Bounded.run_bind, hpage]
    rw [Fallible.bind_of_ok (run_self s)]
    simp only [htag, hperm, decide_true, Bool.and_self, if_true]
    rfl
  · rw [← hphys]
    exact page_or
      _ _ (Frame.aligned ⟨_, (s.tlb.entries (Tlb.slot (lin >>> 12))).framed⟩)

/-- A filled entry that the walk's protection check admitted, and that is
dirty, admits writes afterwards. -/
theorem tlbHolds_fill {s s' sw : Machine β} {lin p : U32} {f : Frame}
    {user writable dirty : Bool}
    (hperm : sw.walkPermits true user writable = true) (hdirty : dirty = true)
    (hregs : s.regs = sw.regs) (hdec : s.toDecodeState = sw.toDecodeState)
    (hfill : (tlbFill lin f user writable dirty).run s = (.ok (), s'))
    (hp : p >>> 12 = f.1 >>> 12) : TlbHolds s' lin p := by
  subst hdirty
  cases hfill
  have hua : s.userAccess = sw.userAccess := by
    unfold Cpu.userAccess Cpu.cpl Cpu.protectedMode
    rw [hregs, hdec]
  refine ⟨?_, ?_, ?_⟩
  · simp only [upd_same]
  · simp only [upd_same, Cpu.tlbPermits]
    simp only [Cpu.walkPermits] at hperm
    have hua' : Cpu.userAccess
        { s.toCpu with tlb := ⟨upd s.tlb.entries (Tlb.slot (lin >>> 12))
            { tag := lin >>> 12, phys := f.1, user := user, writable := writable,
              dirty := true, framed := f.2 }⟩ } = sw.userAccess := hua
    rw [hua']
    revert hperm
    cases sw.userAccess <;> cases user <;> cases writable <;> simp
  · simp only [upd_same]
    exact hp.symm

/-- After a walk for writing the TLB holds the page, writable. -/
theorem walk_holds {s s' : Machine β} {lin : U32} {p : Translated lin}
    (h : (walk lin true).run s = (.ok p, s')) : TlbHolds s' lin p.val := by
  unfold walk at h
  simp only [Bounded.run_bind, Fallible.bind_eq_ok] at h
  obtain ⟨_, _, -, _, _, -, ⟨⟩, _, -, e, _, -, ⟨⟩, _, -, sw, _, hsw, ⟨⟩, _,
    hperm, ⟨⟩, _, hpde, ⟨⟩, _, hpte, ⟨⟩, _, hfill, hret⟩ := h
  cases hsw
  obtain ⟨hperm, rfl⟩ := run_faultIf_ok hperm
  obtain ⟨hr1, hd1⟩ :=
    MemOnly.whenever _ (MemOnly.pageStore _ _ _ _ _) _ _ _ hpde
  obtain ⟨hr2, hd2⟩ :=
    MemOnly.whenever _ (MemOnly.pageStore _ _ _ _ _) _ _ _ hpte
  cases hret
  exact tlbHolds_fill (by simpa using hperm)
    (touchedPte_dirty e) (hr2.trans hr1)
    (hd2.trans hd1) hfill (page_or _ _ (Frame.of _).aligned)

/-- A successful write translation leaves its page in the TLB. -/
theorem translate_holds {s s' : Machine β} {lin : U32} {p : Translated lin}
    (h : (translate lin true).run s = (.ok p, s')) :
    TlbHolds s' lin p.val := by
  unfold translate at h
  rw [Bounded.run_bind, Fallible.bind_of_ok (run_self s)] at h
  dsimp only at h
  split at h
  case isTrue hhit =>
    simp only [Bool.and_eq_true, decide_eq_true_eq] at hhit
    cases h
    exact ⟨hhit.1, hhit.2,
      (page_or _ _ (Frame.aligned ⟨_, (s.tlb.entries _).framed⟩)).symm⟩
  case isFalse => exact walk_holds h

-- ======== byte runs

/-- Translate every address of a list for writing, in order. -/
def translateAll : List U32 → Calm β (List U32)
  | [] => pure []
  | lin :: rest => do
    let p ← translate lin true
    let ps ← translateAll rest
    return p.val :: ps

/-- Translations one after another, by induction on the list. -/
theorem MemOnly.translateAll (lins : List U32) :
    MemOnly (translateAll lins : Calm β (List U32)) := by
  induction lins with
  | nil => exact .pure _
  | cons lin rest ih =>
    exact (MemOnly.translate _ _).bind fun _ => ih.bind fun _ => .pure _

/-- A run of addresses, cut in two. -/
theorem translateAll_append (xs ys : List U32) :
    (translateAll (xs ++ ys) : Calm β (List U32)) = do
      let ps ← translateAll xs
      let qs ← translateAll ys
      return ps ++ qs := by
  induction xs with
  | nil => simp [translateAll]
  | cons lin rest ih =>
    simp only [List.cons_append, translateAll, ih, bind_assoc, pure_bind]

/-- A page the TLB holds goes to its one frame, however often it is
asked. -/
theorem translateAll_held {s : Machine β} {lin p : U32} {lins : List U32}
    (hold : TlbHolds s lin p) (hlins : ∀ l ∈ lins, l >>> 12 = lin >>> 12) :
    ∃ ps, (translateAll lins).run s = (.ok ps, s)
      ∧ ∀ q ∈ ps, q >>> 12 = p >>> 12 := by
  induction lins with
  | nil => exact ⟨[], rfl, by simp⟩
  | cons l rest ih =>
    obtain ⟨q, hq, hpage⟩ := translate_held hold (hlins l (by simp))
    obtain ⟨ps, hps, hall⟩ := ih fun l' hl' => hlins l' (by simp [hl'])
    refine ⟨q.val :: ps, ?_, ?_⟩
    · rw [translateAll, Bounded.run_bind, Fallible.bind_of_ok hq,
        Bounded.run_bind, Fallible.bind_of_ok hps]
      rfl
    · intro q' hq'
      rcases List.mem_cons.1 hq' with rfl | hq'
      · exact hpage
      · exact hall q' hq'

/-- Addresses of one linear page are translated into one physical page. -/
theorem translateAll_page {s s' : Machine β} {lin : U32} {lins ps : List U32}
    (hlins : ∀ l ∈ lins, l >>> 12 = lin >>> 12)
    (h : (translateAll lins).run s = (.ok ps, s')) :
    ∃ page, ∀ q ∈ ps, q >>> 12 = page := by
  cases lins with
  | nil =>
    cases h
    exact ⟨0, by simp⟩
  | cons l rest =>
    rw [translateAll, Bounded.run_bind, Fallible.bind_eq_ok] at h
    obtain ⟨p, s₁, hp, h⟩ := h
    have hrest : ∀ l' ∈ rest, l' >>> 12 = l >>> 12 := fun l' hl' =>
      (hlins l' (List.mem_cons_of_mem l hl')).trans (hlins l (by simp)).symm
    obtain ⟨qs, hqs, hall⟩ := translateAll_held (translate_holds hp) hrest
    rw [Bounded.run_bind, Fallible.bind_of_ok hqs] at h
    cases h
    refine ⟨p.val >>> 12, fun q hq => ?_⟩
    rcases List.mem_cons.1 hq with rfl | hq
    · rfl
    · exact hall q hq

/-- `stamp_write_span` over the first and last of `ps`, then the bytes. -/
def scatter {k : Nat} (ps : List U32) (v : BitVec k) (s : Machine β) :
    Machine β :=
  { s with
    icache := s.icache.stampWriteSpan (ps.headD 0) (ps.getLastD 0)
    bus := (byteStores ps v).foldl (fun b p => Bus.write b p.1 p.2) s.bus }

/-- A store that crosses a page: all bytes are translated before any
lands, so a fault on the second page leaves the first untouched. -/
def linWriteSplit {k : Nat} (lin : U32) (n : Nat)
    (hn : n + 1 < 4096) (v : BitVec k) :
    Calm β Unit where
  run := do
    let ps ← (translateAll (bytesFrom lin (n + 1))).run
    Fallible.modify (scatter ps v)
  bound := fun s => by
    obtain ⟨xs, ys, hsplit, hxs, hys⟩ := bytesFrom_pages lin n hn
    have hcalm := (translateAll (bytesFrom lin (n + 1))).bound s
    rw [Fallible.bind_apply]
    rcases hrun :
      (translateAll (bytesFrom lin (n + 1))).run s with ⟨e | ps, s'⟩
    · rw [hrun] at hcalm
      exact hcalm
    · rw [hrun] at hcalm
      rw [hsplit, translateAll_append] at hrun
      simp only [Bounded.run_bind, Fallible.bind_eq_ok] at hrun
      obtain ⟨as, s₁, ha, bs, s₂, hb, hret⟩ := hrun
      cases hret
      obtain ⟨page, hpage⟩ := translateAll_page hxs ha
      obtain ⟨page', hpage'⟩ := translateAll_page hys hb
      refine hcalm.tail (.store _ _ _ _ (.scatter _ _ _ _ fun q hq => ?_))
      exact pages_cover hpage hpage' _ (mem_byteStores hq)

-- ======== linear accesses

/-- A byte, by its linear address. -/
def linRead8 (lin : U32) : Calm β U8 := do
  let s ← self
  if !s.paging then busRead lin
  else do
    let phys ← translate lin false
    busRead phys.val

/-- `lo | hi << 8k`, the two halves read in order. -/
def readHalves {w : Nat} (lo hi : Calm β (BitVec w)) :
    Calm β (BitVec (w + w)) := do
  let l ← lo
  let h ← hi
  return l.setWidth (w + w) ||| (h.setWidth (w + w) <<< w)

/-- A word; a page crossing goes by halves. -/
def linRead16 (lin : U32) : Calm β U16 := do
  let s ← self
  if !s.paging then busRead16 lin
  else if lin &&& 0xFFF < 0xFFF then do
    let phys ← translate lin false
    busRead16 phys.val
  else readHalves (linRead8 lin) (linRead8 (lin + 1))

def linRead32 (lin : U32) : Calm β U32 := do
  let s ← self
  if !s.paging then busRead32 lin
  else if lin &&& 0xFFF < 0xFFD then do
    let phys ← translate lin false
    busRead32 phys.val
  else readHalves (linRead16 lin) (linRead16 (lin + 2))

/-- A translated address inside the part of its page that `k` more bytes
do not leave. -/
theorem translated_page {lin m : U32} (p : Translated lin) (k : Nat)
    (hm : m.toNat + k ≤ 4096) (h : lin &&& 0xFFF < m) :
    (p.val + BitVec.ofNat 32 k) >>> 12 = p.val >>> 12 := by
  apply page_add
  rw [← toNat_and_FFF, p.offset]
  have := BitVec.lt_def.1 h
  omega

/-- Store a byte. -/
def linWrite8 (lin : U32) (v : U8) : Calm β Unit := do
  let s ← self
  if !s.paging then pageStore lin lin (Bus.write · lin v) rfl (.write · lin v)
  else do
    let phys ← translate lin true
    pageStore phys.val phys.val (Bus.write · phys.val v)
      rfl (.write · phys.val v)

theorem pair_short : 1 + 1 < 4096 := by decide

theorem quad_short : 3 + 1 < 4096 := by decide

/-- Store a word; a page crossing translates both pages first. -/
def linWrite16 (lin : U32) (v : U16) : Calm β Unit := do
  let s ← self
  if !s.paging then
    stampedStore lin (lin + 1) (Bus.write16 · lin v) (.write16 · lin v)
  else if h : lin &&& 0xFFF < 0xFFF then do
    let phys ← translate lin true
    pageStore phys.val (phys.val + 1) (Bus.write16 · phys.val v)
      (translated_page phys 1 (by decide) h) (.write16 · phys.val v)
  else linWriteSplit lin 1 pair_short v

def linWrite32 (lin : U32) (v : U32) : Calm β Unit := do
  let s ← self
  if !s.paging then
    stampedStore lin (lin + 3) (Bus.write32 · lin v) (.write32 · lin v)
  else if h : lin &&& 0xFFF < 0xFFD then do
    let phys ← translate lin true
    pageStore phys.val (phys.val + 3) (Bus.write32 · phys.val v)
      (translated_page phys 3 (by decide) h) (.write32 · phys.val v)
  else linWriteSplit lin 3 quad_short v

-- ======== implicit supervisor accesses

/-- Run `m` as an implicit supervisor access; the override is put back
whatever the outcome. -/
def asSupervisor {α : Type} (m : Calm β α) : Calm β α := do
  let s ← self
  modifyDecode ({ · with supervisorOverride := true })
  let r ← Bounded.outcome m
  modifyDecode ({ · with supervisorOverride := s.supervisorOverride })
  match r with
  | .ok a => pure a
  | .error e => throw e

/-- Reads the processor makes for itself, at any privilege level. -/
def sysRead8 (lin : U32) : Calm β U8 := asSupervisor (linRead8 lin)
def sysRead16 (lin : U32) : Calm β U16 := asSupervisor (linRead16 lin)
def sysRead32 (lin : U32) : Calm β U32 := asSupervisor (linRead32 lin)
/-- A write the processor makes for itself. -/
def sysWrite8 (lin : U32) (v : U8) : Calm β Unit :=
  asSupervisor (linWrite8 lin v)

end Remu.X32
