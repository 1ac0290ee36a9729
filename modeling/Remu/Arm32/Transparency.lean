/-
Running with the instruction cache and without it.

The two machines are `Twins`: they differ in their caches only, and the
cached one is coherent, that is, every live entry holds the record of the
bytes memory has at its address. A store stamps the page of the address it
is given, while the memory wraps addresses at its size, so it may write the
bytes of a record and stamp another page. Twins stay twins as long as no
store does: every store is `Covered`, its own page stamps whatever live
record it writes into (`Careful`).

In a memory of 2^26 bytes all addresses of a cell share one of the 2^14
stamp slots of 2^12 bytes, so that every store is covered, and every smaller
memory has a program that runs stale code.
-/
import Mathlib.Tactic.IntervalCases
import Remu.Lib.Stamped
import Remu.Arm32.Execute

namespace Remu.Arm32

-- ======== addresses and cells

/-- The stamp slot of a RAM cell. -/
def slotOf (j : Nat) : Nat := j / 4096 % 16384

/-- The stamp slot of an address as a number. -/
theorem toNat_stampSlot (a : U32) :
    (ICache.stampSlot a).toNat = slotOf a.toNat := by
  have hmask : (STAMP_SLOTS - 1 : U32).toNat = 2 ^ 14 - 1 := rfl
  unfold ICache.stampSlot slotOf
  rw [BitVec.toNat_and, hmask, Nat.and_two_pow_sub_one_eq_mod,
    BitVec.toNat_ushiftRight, Nat.shiftRight_eq_div_pow]

namespace LinearMemory

variable {m : LinearMemory}

/-- The cell of an address: the address below the size of the memory. -/
theorem index_eq (m : LinearMemory) (a : U32) :
    m.index a = a.toNat % 2 ^ m.width :=
  Nat.and_two_pow_sub_one_eq_mod _ _

/-- The cells of an access that stays in an aligned word. -/
theorem slotOf_index (h : 26 ≤ m.width) {a : U32} {k : Nat}
    (hk : a.toNat % 4 + k < 4) :
    slotOf (m.index a + k) = slotOf a.toNat := by
  have hsplit : a.toNat % 2 ^ m.width % 2 ^ 26 = a.toNat % 2 ^ 26 :=
    Nat.mod_mod_of_dvd _ (Nat.pow_dvd_pow 2 h)
  rw [index_eq]
  unfold slotOf
  omega

/-- An access within an aligned word does not run past the end. -/
theorem index_lt (m : LinearMemory) {a : U32} {k : Nat}
    (hk : a.toNat % 4 + k < 4) :
    m.index a + k ≤ m.mask := by
  have hpow : 2 ^ m.width = 4 * 2 ^ (m.width - 2) := by
    rw [← Nat.pow_add 2 2]
    have := m.atLeast
    congr 1
    omega
  have hsplit : a.toNat % 2 ^ m.width % 4 = a.toNat % 4 :=
    Nat.mod_mod_of_dvd _ ⟨_, hpow⟩
  have hlt : a.toNat % 2 ^ m.width < 2 ^ m.width :=
    Nat.mod_lt _ (Nat.two_pow_pos _)
  rw [index_eq]
  unfold mask
  omega

/-- The cells of `n` bytes within an aligned word. -/
def cells (m : LinearMemory) (a : U32) (n : Nat) : List Nat :=
  (List.range n).map fun k => m.index a + k

/-- The cells of `n` bytes at `a` are consecutive. -/
theorem mem_cells {a : U32} {k n : Nat} (hk : k < n) :
    m.index a + k ∈ m.cells a n :=
  List.mem_map_of_mem (List.mem_range.2 hk)

/-- A store of `n` bytes at `a` writes their cells and no other. -/
structure Writes (a : U32) (n : Nat) (m m' : LinearMemory) : Prop where
  width : m'.width = m.width
  ram : ∀ j, j ∉ m.cells a n → m'.ram j = m.ram j

/-- A cell outside a store is none of its cells. -/
theorem ne_of_not_mem {a : U32} {j k n : Nat}
    (hj : j ∉ m.cells a n) (hk : k < n) :
    j ≠ m.index a + k := by
  rintro rfl
  exact hj (mem_cells hk)

/-- A byte store writes the one byte at its address. -/
theorem write_writes (a : U32) (v : U8) : Writes a 1 m (m.write a v) where
  width := rfl
  ram j hj := upd_other _ _ (ne_of_not_mem hj (k := 0) (by decide))

/-- A halfword store at an even address writes its two bytes. -/
theorem write16_writes {a : U32} (ha : a.toNat % 2 = 0) (v : U16) :
    Writes a 2 m (m.write16 a v) := by
  have hlt := m.index_lt (a := a) (k := 1) (by omega)
  unfold write16
  dsimp only
  rw [if_pos (by omega)]
  refine ⟨rfl, fun j hj => ?_⟩
  dsimp only
  rw [upd_other _ _ (ne_of_not_mem hj (k := 1) (by decide))]
  exact upd_other _ _ (ne_of_not_mem hj (k := 0) (by decide))

/-- A word store at a word address writes its four bytes. -/
theorem write32_writes {a : U32} (ha : a.toNat % 4 = 0) (v : U32) :
    Writes a 4 m (m.write32 a v) := by
  have hlt := m.index_lt (a := a) (k := 3) (by omega)
  unfold write32
  dsimp only
  rw [if_pos (by omega)]
  refine ⟨rfl, fun j hj => ?_⟩
  dsimp only
  rw [upd_other _ _ (ne_of_not_mem hj (k := 3) (by decide)),
    upd_other _ _ (ne_of_not_mem hj (k := 2) (by decide)),
    upd_other _ _ (ne_of_not_mem hj (k := 1) (by decide))]
  exact upd_other _ _ (ne_of_not_mem hj (k := 0) (by decide))

/-- The alignment of instructions. -/
def Aligned (thumb : Bool) (pc : U32) : Prop :=
  pc.toNat % (if thumb then 2 else 4) = 0

/-- The size of instructions. -/
abbrev insnSize (thumb : Bool) : Nat := if thumb then 2 else 4

/-- The instruction memory holds at `pc`. -/
def insnAt (m : LinearMemory) (thumb : Bool) (pc : U32) : DecodedInsn :=
  if thumb then decodeThumb (m.read16 pc) else decodeArm (m.read32 pc)

/-- A store elsewhere spoils no instruction. -/
theorem Writes.insnAt {a : U32} {n : Nat} {m' : LinearMemory}
    (h : Writes a n m m') {thumb : Bool} {pc : U32} (hpc : Aligned thumb pc)
    (hapart : (m.cells pc (insnSize thumb)).Disjoint (m.cells a n)) :
    m'.insnAt thumb pc = m.insnAt thumb pc := by
  have hindex : m'.index pc = m.index pc := by
    unfold index mask
    rw [h.width]
  have hmask : m'.mask = m.mask := by
    unfold mask
    rw [h.width]
  have hcell :
    ∀ k < insnSize thumb, m'.ram (m.index pc + k) = m.ram (m.index pc + k) :=
    fun k hk => h.ram _ fun hmem => hapart (mem_cells hk) hmem
  unfold LinearMemory.insnAt
  cases thumb with
  | true =>
    have h2 : pc.toNat % 2 = 0 := hpc
    have hlt := m.index_lt (a := pc) (k := 1) (by omega)
    have hfirst : m'.ram (m.index pc) = m.ram (m.index pc) :=
      hcell 0 (by decide)
    simp only [if_true, read16, hindex, hmask]
    rw [if_pos (by omega), if_pos (by omega), hcell 1 (by decide), hfirst]
  | false =>
    have h4 : pc.toNat % 4 = 0 := hpc
    have hlt := m.index_lt (a := pc) (k := 3) (by omega)
    have hfirst : m'.ram (m.index pc) = m.ram (m.index pc) :=
      hcell 0 (by decide)
    simp only [Bool.false_eq_true, if_false, read32, hindex, hmask]
    rw [if_pos (by omega), if_pos (by omega), hcell 3 (by decide),
      hcell 2 (by decide), hcell 1 (by decide), hfirst]

end LinearMemory

-- ======== the entries

namespace Entry

/-- The instruction address of a key. -/
def pc (e : Entry) : U32 := e.key.setWidth 32

/-- The state bit of a key. -/
def thumb (e : Entry) : Bool := e.key.getLsbD 63

/-- An entry holds the record of the instruction at its address. -/
def Good (m : LinearMemory) (e : Entry) : Prop :=
  LinearMemory.Aligned e.thumb e.pc ∧ e.insn = m.insnAt e.thumb e.pc

/-- The stamp slot of an entry. -/
def page (e : Entry) : U32 := ICache.stampSlot e.pc

/-- The cells of the instruction of an entry. -/
def cells (e : Entry) (m : LinearMemory) : List Nat :=
  m.cells e.pc (LinearMemory.insnSize e.thumb)

end Entry

namespace ICache

/-- A key's low half is the address it was made from. -/
theorem pc_keyOf (pc : U32) (thumb : Bool) :
    (keyOf pc thumb).setWidth 32 = pc := by
  have hlow : ((BitVec.ofBool thumb).setWidth 64 <<< 63 : U64).setWidth 32
    = 0#32 := by
    cases thumb <;> rfl
  unfold keyOf
  rw [BitVec.setWidth_or, hlow, BitVec.or_zero,
    BitVec.setWidth_setWidth_of_le _ (by omega), BitVec.setWidth_eq]

/-- A key's top bit is the instruction set it was made for. -/
theorem thumb_keyOf (pc : U32) (thumb : Bool) :
    (keyOf pc thumb).getLsbD 63 = thumb := by
  have hhigh : (pc.setWidth 64).getLsbD 63 = false := by
    rw [BitVec.getLsbD_setWidth, BitVec.getLsbD_of_ge _ _ (by omega),
      Bool.and_false]
  have hbit : ((BitVec.ofBool thumb).setWidth 64 <<< 63 : U64).getLsbD 63
    = thumb := by
    cases thumb <;> rfl
  unfold keyOf
  rw [BitVec.getLsbD_or, hhigh, hbit, Bool.false_or]

/-- The cache with its 64-bit dates. -/
def ticking (c : ICache) : Ticking U32 U32 Entry where
  entry := c.entries
  version i := (c.entries i).version
  stamp := c.stamps
  clock := c.clock
  inval := c.inval

/-- The entry in `slot` is neither older than its page nor than the last
invalidation: a probe for its address and state hits. -/
def LiveAt (c : ICache) (slot : U32) : Prop :=
  c.ticking.dated.Live Entry.page slot

/-- While the store clock has not wrapped, live entries are good. -/
def Ok (c : ICache) (m : LinearMemory) : Prop :=
  c.clock < 2 ^ 64 → c.ticking.dated.Coherent Entry.page Entry.Good m

/-- The empty cache is right about any memory. -/
theorem new_ok (m : LinearMemory) : new.Ok m := by
  intro _
  refine ⟨⟨fun _ => Nat.zero_le _, Nat.le_refl _, fun _ => Nat.zero_le _⟩,
    fun i hl => ?_⟩
  exact absurd hl.2 (show ¬(1 : U64).toNat ≤ (0 : U64).toNat by decide)

/-- After an invalidation no record is live, so the cache is right about
whatever the host has put into memory. -/
theorem Ok.invalidateAll {c : ICache} {m : LinearMemory} (h : c.Ok m)
    (m' : LinearMemory) :
    c.invalidateAll.Ok m' := by
  intro hclock
  have hdated := (h (Nat.lt_of_succ_lt hclock)).toDated
  exact c.ticking.dated_invalidate hclock ▸ Stamped.Coherent.invalidate hdated

/-- A stamped store is a touch of its page, seen as a history of dates, as long
as the clock has not wrapped. -/
theorem dated_stampWrite {c : ICache} {a : U32}
    (hclock : (c.stampWrite a).clock < 2 ^ 64) :
    (c.stampWrite a).ticking.dated
      = c.ticking.dated.touchAll [stampSlot a] := by
  refine Eq.trans ?_ (c.ticking.dated_touch (stampSlot a) hclock)
  unfold ICache.stampWrite
  rw [upd_eq_update]
  rfl

/-- What is live behind a store was live before, on another page. -/
theorem Ok.liveAt_stampWrite {c : ICache} {m : LinearMemory}
    (h : c.Ok m) {a slot : U32}
    (hclock : (c.stampWrite a).clock < 2 ^ 64)
    (hl : (c.stampWrite a).LiveAt slot) :
    c.LiveAt slot ∧ (c.entries slot).page ≠ stampSlot a := by
  unfold LiveAt at hl
  rw [dated_stampWrite hclock] at hl
  obtain ⟨hlive, hpage⟩ :=
    Stamped.Live.of_touchAll (h (Nat.lt_of_succ_lt hclock)).toDated hl
  exact ⟨hlive, fun heq => hpage (List.mem_singleton.2 heq)⟩

/-- A store that writes into no live record of another stamp slot. -/
theorem Ok.stampWrite {c : ICache} {m m' : LinearMemory}
    (h : c.Ok m) {a : U32} {n : Nat} (hwrites : LinearMemory.Writes a n m m')
    (hcovered : ∀ slot, c.LiveAt slot → (c.entries slot).page ≠ stampSlot a →
      ((c.entries slot).cells m).Disjoint (m.cells a n)) : (c.stampWrite a).Ok m' := by
  intro hclock
  rw [dated_stampWrite hclock]
  refine (h (Nat.lt_of_succ_lt hclock)).store_live fun i hl hpage
    hgood => ⟨hgood.1, ?_⟩
  have hapart := hcovered i hl fun heq => hpage (List.mem_singleton.2 heq)
  exact hgood.2.trans (hwrites.insnAt hgood.1 hapart).symm

/-- A record decoded afresh may be cached. -/
theorem Ok.fill {c : ICache} {m : LinearMemory} (h : c.Ok m)
    {thumb : Bool} {pc : U32}
    (hpc : LinearMemory.Aligned thumb pc) (slot : U32) :
    (c.fill (keyOf pc thumb) slot (m.insnAt thumb pc)).Ok m := by
  intro hclock
  let e : Entry := ⟨keyOf pc thumb, c.now, m.insnAt thumb pc⟩
  have hfill : (c.fill (keyOf pc thumb) slot (m.insnAt thumb pc)).ticking.dated
      = c.ticking.dated.fill slot e := by
    refine Eq.trans ?_ (c.ticking.dated_fill slot e hclock)
    have hversion : (fun i => (upd c.entries slot e i).version)
        = Function.update (fun i => (c.entries i).version) slot c.now := by
      rw [upd_eq_update]
      exact Function.comp_update (fun e : Entry => e.version) c.entries slot e
    unfold ICache.fill ICache.ticking
    rw [hversion, upd_eq_update]
    rfl
  have hgood : e.Good m := by
    unfold Entry.Good Entry.pc Entry.thumb
    rw [pc_keyOf, thumb_keyOf]
    exact ⟨hpc, rfl⟩
  exact hfill ▸ (h hclock).fill slot hgood

/-- A hit returns the instruction that memory holds. -/
theorem Ok.hit {c : ICache} {m : LinearMemory} (h : c.Ok m)
    (hclock : c.clock < 2 ^ 64)
    {thumb : Bool} {pc slot : U32}
    (hhit : c.hit (keyOf pc thumb) slot pc = true) :
    (c.entries slot).insn = m.insnAt thumb pc := by
  unfold ICache.hit at hhit
  simp only [Bool.and_eq_true, beq_iff_eq, decide_eq_true_eq] at hhit
  obtain ⟨⟨hkey, hstamp⟩, hinval⟩ := hhit
  have hpc : (c.entries slot).pc = pc := by
    unfold Entry.pc
    rw [hkey, pc_keyOf]
  have hthumb : (c.entries slot).thumb = thumb := by
    unfold Entry.thumb
    rw [hkey, thumb_keyOf]
  have hlive : c.ticking.dated.Live Entry.page slot := by
    refine ⟨?_, hinval⟩
    show (c.stamps (stampSlot (c.entries slot).pc)).toNat ≤ _
    rw [hpc]
    exact hstamp
  have hgood : (c.entries slot).insn
    = m.insnAt (c.entries slot).thumb (c.entries slot).pc :=
    ((h hclock).live slot hlive).2
  rw [hpc, hthumb] at hgood
  exact hgood

end ICache

-- ======== the stores

/-- A store: its address, and how many bytes it writes. -/
structure Store where
  addr : U32
  size : Nat

/-- The stores of `n` words from `addr` on. -/
def wordStores (addr : U32) : Nat → List Store
  | 0 => []
  | n + 1 => ⟨addr, 4⟩ :: wordStores (addr + 4) n

/-- The stores of an instruction, in order. -/
def Core.storesOf (c : Core) (d : DecodedInsn) : List Store :=
  if !c.condPass d.cond then []
  else match d.op with
  | .str =>
    let addr := (c.xferAddr d).1
    if d.aux &&& xfer.BYTE != 0 then [⟨addr, 1⟩] else [⟨addr &&& ~~~3, 4⟩]
  | .strMisc => [⟨(c.hwAddr d).1 &&& ~~~1, 2⟩]
  | .stm => wordStores (c.blkAddr d).1 (listed (d.imm.setWidth 16)).length
  | .swp =>
    let addr := c.regOp12 d.rn
    if d.aux &&& 1 != 0 then [⟨addr, 1⟩] else [⟨addr &&& ~~~3, 4⟩]
  | _ => []

/-- A store lies within an aligned word. -/
def Store.InWord (st : Store) : Prop := st.addr.toNat % 4 + st.size ≤ 4

/-- Every live record the store writes into is on the page it stamps, or on
one that shares the stamp. -/
def Machine.Covered (m : Machine LinearMemory) (st : Store) : Prop :=
  ∀ slot, m.icache.LiveAt slot →
    (m.icache.entries slot).page ≠ ICache.stampSlot st.addr →
    ((m.icache.entries slot).cells m.bus).Disjoint
      (m.bus.cells st.addr st.size)

/-- Fetch the instruction at `pc` and put the PC behind it. -/
def prefetch {β : Type} [Bus β] (thumb : Bool) (pc : U32) :
    Exec β DecodedInsn := do
  onCore fun c => ((), { c with thumb := thumb, startPc := pc })
  let d ← fetch thumb pc
  onCore fun c => ((), c.setGpr 15 (pc + d.len.setWidth 32))
  return d

/-- The body of an instruction: fetch, count the clock, execute. -/
theorem execBody_eq {β : Type} [Bus β] (thumb : Bool) (pc : U32) :
    (execBody thumb pc : Exec β U32) = prefetch thumb pc >>= execDecoded := by
  simp only [prefetch, bind_assoc, pure_bind]
  rfl

/-- The next step executes an instruction: no interrupt is taken, and the
processor is not halted. -/
def Core.executes (c : Core) : Bool :=
  let events := c.events &&& ~~~EVT_HOST_TRAP
  !(events &&& EVT_FIQ != 0 && !c.regs.cpsr.f)
    && !(events &&& EVT_IRQ != 0 && !c.regs.cpsr.i)
    && !c.halted

/-- The stores of the instruction at the PC are covered. -/
def Machine.CarefulInsn (m : Machine LinearMemory) : Prop :=
  let thumb := m.regs.cpsr.t
  let pc := m.gpr 15 &&& (if thumb then ~~~1 else ~~~3)
  ∀ d m', prefetch thumb pc m = (.ok d, m') → ∀ st ∈ m'.storesOf d,
    m'.Covered st

/-- So are those of the next step, which silences the doorbell first. -/
def Machine.Careful (m : Machine LinearMemory) : Prop :=
  m.executes = true →
    Machine.CarefulInsn { m with events := m.events &&& ~~~EVT_HOST_TRAP }

-- ======== the twins

/-- Machines that differ in their caches only; the first one uses its
cache, which is coherent. The memory has `2 ^ w` bytes. -/
structure Twins (w : Nat) (m m' : Machine LinearMemory) : Prop where
  core : m.toCore = m'.toCore
  bus : m.bus = m'.bus
  cached : m.fusedOnly = false
  fused : m'.fusedOnly = true
  width : m.bus.width = w
  ok : m.icache.Ok m.bus

/-- Twins before an instruction that still has `ss` to store. -/
structure Storing (w : Nat) (ss : List Store) (m m' : Machine LinearMemory) :
    Prop extends
    Twins w m m' where
  covered : ∀ st ∈ ss, m.Covered st

/-- The store clock has not wrapped. -/
def Unwrapped (m : Machine LinearMemory) : Prop := m.icache.clock < 2 ^ 64

/-- A computation that stores no more than `ss` and keeps twins twins, with
equal outcomes. -/
abbrev InStep {α : Type} (w : Nat) (ss : List Store)
    (x : Exec LinearMemory α) : Prop :=
  Fallible.Lockstep Unwrapped (Storing w ss) x x

section Rules

variable {α : Type} {w : Nat} {ss : List Store} {m m' : Machine LinearMemory}

/-- The same change of both cores. -/
theorem Twins.map (h : Twins w m m') (f : Core → Core) :
    Twins w { m with toCore := f m.toCore } { m' with toCore := f m'.toCore } :=
  ⟨congrArg f h.core, h.bus, h.cached, h.fused, h.width, h.ok⟩

/-- Twins stay twins under the same change of both register files. -/
theorem Storing.map (h : Storing w ss m m') (f : Core → Core) :
    Storing w ss { m with toCore := f m.toCore } { m' with toCore := f m'.toCore } :=
  ⟨h.toTwins.map f, h.covered⟩

/-- A store, which the cached twin stamps. What was covered stays so, since
nothing has come alive. -/
theorem Storing.store (h : Storing w ss m m') {st : Store}
    (hst : st ∈ ss) {b : LinearMemory}
    (hclock : (m.icache.stampWrite st.addr).clock < 2 ^ 64)
    (hwrites : LinearMemory.Writes st.addr st.size m.bus b) :
    Storing w ss { m with icache := m.icache.stampWrite st.addr, bus := b }
      { m' with icache := m'.icache.stampWrite st.addr, bus := b } where
  core := h.core
  bus := rfl
  cached := h.cached
  fused := h.fused
  width := hwrites.width.trans h.width
  ok := h.ok.stampWrite hwrites (h.covered st hst)
  covered st' hst' slot hl hpage := by
    have hcells : ∀ a n, b.cells a n = m.bus.cells a n := by
      intro a n
      unfold LinearMemory.cells LinearMemory.index LinearMemory.mask
      rw [hwrites.width]
    have hbefore :=
      h.covered st' hst' slot (h.ok.liveAt_stampWrite hclock hl).1 hpage
    unfold Entry.cells at hbefore ⊢
    rw [hcells, hcells]
    exact hbefore

/-- Reading the registers. -/
theorem inStep_core : InStep w ss core where
  back _ h := h
  step h _ := ⟨congrArg Except.ok h.core, h⟩

/-- An operation on the registers alone. -/
theorem inStep_onCore (f : Core → α × Core) : InStep w ss (onCore f) where
  back _ h := h
  step h _ := ⟨congrArg (fun c => Except.ok (f c).1) h.core,
    h.map fun c => (f c).2⟩

/-- A load of either twin reads the same byte: their memories agree. -/
theorem inStep_load8 (addr : U32) : InStep w ss (load8 addr) where
  back _ h := h
  step h _ := ⟨congrArg (fun b : LinearMemory => Except.ok (b.read addr)) h.bus, h⟩

theorem inStep_load16 (addr : U32) : InStep w ss (load16 addr) where
  back _ h := h
  step h _ := ⟨congrArg (fun b : LinearMemory => Except.ok (b.read16 addr)) h.bus, h⟩

theorem inStep_load32 (addr : U32) : InStep w ss (load32 addr) where
  back _ h := h
  step h _ := ⟨congrArg (fun b : LinearMemory => Except.ok (b.read32 addr)) h.bus, h⟩

/-- A store that is one of those announced keeps the twins: the cache loses
every record it touches. -/
theorem inStep_write8 {addr : U32} (hst : ⟨addr, 1⟩ ∈ ss) (v : U8) :
    InStep w ss (write8 addr v) where
  back _ h := Nat.lt_of_succ_lt h
  step {s t} h hclock := by
    refine ⟨rfl, ?_⟩
    have hstore := h.store hst hclock (LinearMemory.write_writes addr v)
    unfold write8
    rw [← h.bus]
    exact hstore

theorem inStep_write16 {addr : U32} (ha : addr.toNat % 2 = 0)
    (hst : ⟨addr, 2⟩ ∈ ss) (v : U16) :
    InStep w ss (write16 addr v) where
  back _ h := Nat.lt_of_succ_lt h
  step {s t} h hclock := by
    refine ⟨rfl, ?_⟩
    have hstore := h.store hst hclock (LinearMemory.write16_writes ha v)
    unfold write16
    rw [← h.bus]
    exact hstore

theorem inStep_write32 {addr : U32} (ha : addr.toNat % 4 = 0)
    (hst : ⟨addr, 4⟩ ∈ ss) (v : U32) :
    InStep w ss (write32 addr v) where
  back _ h := Nat.lt_of_succ_lt h
  step {s t} h hclock := by
    refine ⟨rfl, ?_⟩
    have hstore := h.store hst hclock (LinearMemory.write32_writes ha v)
    unfold write32
    rw [← h.bus]
    exact hstore

end Rules

-- ======== the executor

theorem mod4_aligned (a : U32) : (a &&& ~~~3).toNat % 4 = 0 := by
  have hzero : (a &&& ~~~3) &&& 3 = 0 := by
    rw [BitVec.and_assoc, show (~~~3 &&& 3 : U32) = 0 by decide]
    exact BitVec.and_zero
  have hnat := congrArg BitVec.toNat hzero
  have hmask : (3 : U32).toNat = 2 ^ 2 - 1 := rfl
  rw [BitVec.toNat_and, hmask, Nat.and_two_pow_sub_one_eq_mod] at hnat
  exact hnat

theorem mod2_aligned (a : U32) : (a &&& ~~~1).toNat % 2 = 0 := by
  have hzero : (a &&& ~~~1) &&& 1 = 0 := by
    rw [BitVec.and_assoc, show (~~~1 &&& 1 : U32) = 0 by decide]
    exact BitVec.and_zero
  have hnat := congrArg BitVec.toNat hzero
  have hmask : (1 : U32).toNat = 2 ^ 1 - 1 := rfl
  rw [BitVec.toNat_and, hmask, Nat.and_two_pow_sub_one_eq_mod] at hnat
  exact hnat

section Executor

variable {α : Type} {w : Nat} {ss : List Store}

theorem inStep_read32Rot (addr : U32) : InStep w ss (read32Rot addr) :=
  .bind (inStep_load32 _) fun _ => .pure _

theorem inStep_read16Rot (addr : U32) : InStep w ss (read16Rot addr) :=
  .bind (inStep_load16 _) fun _ => .pure _

theorem inStep_execLdr (d : DecodedInsn) : InStep w ss (execLdr d) := by
  refine .bind inStep_core fun c => ?_
  dsimp only
  split
  · exact .bind (inStep_load8 _) fun _ =>
      .bind (.pure _) fun _ => inStep_onCore _
  · exact .bind (inStep_read32Rot _) fun _ => inStep_onCore _

theorem inStep_loadMisc (sh : U8) (addr : U32) :
    InStep w ss (loadMisc sh addr) := by
  unfold loadMisc
  split
  · exact inStep_read16Rot addr
  split
  · exact .bind (inStep_load8 _) fun _ => .pure _
  split
  · exact .bind (inStep_load8 _) fun _ => .pure _
  · exact .bind (inStep_load16 _) fun _ => .pure _

theorem inStep_execLdrMisc (d : DecodedInsn) : InStep w ss (execLdrMisc d) :=
  .bind inStep_core fun _ =>
    .bind (inStep_loadMisc _ _) fun _ => inStep_onCore _

/-- A block load, by induction on the register list. -/
theorem inStep_ldmLoop (userBank : Bool) (is : List (Fin 16)) (addr : U32)
    (pcVal : Option U32) :
    InStep w ss (ldmLoop userBank is addr pcVal) := by
  induction is generalizing addr pcVal with
  | nil => exact .pure _
  | cons i is ih =>
    unfold ldmLoop
    refine .bind (inStep_load32 _) fun v => ?_
    split
    · exact ih _ _
    · exact .bind (inStep_onCore _) fun _ => ih _ _

theorem inStep_execLdm (d : DecodedInsn) : InStep w ss (execLdm d) :=
  .bind inStep_core fun _ => .bind (inStep_ldmLoop _ _ _ _)
    fun _ => inStep_onCore _

/-- Block transfers start aligned and step by words. -/
theorem inStep_stmLoop (d : DecodedInsn) (wb : U32)
    (is : List (Fin 16)) {addr : U32}
    (ha : addr.toNat % 4 = 0)
    (hss : ∀ st ∈ wordStores addr is.length, st ∈ ss) :
    InStep w ss (stmLoop d wb is addr) := by
  induction is generalizing addr with
  | nil => exact .pure _
  | cons i is ih =>
    have hnext : (addr + 4).toNat % 4 = 0 := by
      have hfour : (4 : U32).toNat = 4 := rfl
      rw [BitVec.toNat_add, hfour]
      omega
    refine .bind inStep_core fun _ => .bind (inStep_write32 ha ?_ _)
      fun _ => ih hnext ?_
    · exact hss _ List.mem_cons_self
    · exact fun st hst => hss st (List.mem_cons_of_mem _ hst)

/-- A block transfer goes by word addresses. -/
theorem Core.blkAddr_aligned (c : Core) (d : DecodedInsn) :
    (c.blkAddr d).1.toNat % 4 = 0 := by
  unfold Core.blkAddr
  dsimp only
  split
  · exact mod4_aligned _
  · exact mod4_aligned _

/-- A computation that begins on the core `c`, with the stores `ss` ahead. -/
structure InStepFrom (w : Nat) (ss : List Store) (c : Core)
    (x : Exec LinearMemory α) : Prop where
  back : ∀ m : Machine LinearMemory,
    m.toCore = c → Unwrapped (x m).2 → Unwrapped m
  step : ∀ {m m' : Machine LinearMemory}, m.toCore = c → Storing w ss m m' →
    Unwrapped (x m).2 →
    (x m).1 = (x m').1 ∧ Storing w ss (x m).2 (x m').2

/-- What is in step at every register file is in step at this one. -/
theorem InStep.from {x : Exec LinearMemory α} (h : InStep w ss x) (c : Core) :
    InStepFrom w ss c x :=
  ⟨fun m _ => h.back m, fun _ => h.step⟩

/-- Reading the core gives `c`. -/
theorem InStepFrom.core {c : Core} {f : Core → Exec LinearMemory α}
    (h : InStepFrom w ss c (f c)) :
    InStepFrom w ss c (Arm32.core >>= f) where
  back m hc hclock := by
    subst hc
    exact h.back m rfl hclock
  step {m m'} hc ht hclock := by
    subst hc
    have htwin : (Arm32.core >>= f) m' = f m.toCore m' :=
      congrArg (fun c => f c m') ht.core.symm
    rw [htwin]
    exact h.step rfl ht hclock

section Stores

variable {c : Core} {d : DecodedInsn}

/-- A store makes the one store its operands announce. -/
theorem inStep_execStr
    (hss : ∀ st ∈ (if d.aux &&& xfer.BYTE != 0 then [⟨(c.xferAddr d).1, 1⟩]
    else [⟨(c.xferAddr d).1 &&& ~~~3, 4⟩] : List Store), st ∈ ss) :
    InStepFrom w ss c (execStr d) := by
  refine .core (InStep.from ?_ c)
  dsimp only
  split
  case isTrue hbyte =>
    rw [if_pos hbyte] at hss
    exact .bind (inStep_write8 (hss _ List.mem_cons_self) _)
      fun _ => inStep_onCore _
  case isFalse hword =>
    rw [if_neg hword] at hss
    exact .bind (inStep_write32 (mod4_aligned _) (hss _ List.mem_cons_self) _)
      fun _ => inStep_onCore _

theorem inStep_execStrMisc (hss : ⟨(c.hwAddr d).1 &&& ~~~1, 2⟩ ∈ ss) :
    InStepFrom w ss c (execStrMisc d) := by
  refine .core (InStep.from ?_ c)
  exact .bind (inStep_write16 (mod2_aligned _) hss _) fun _ => inStep_onCore _

/-- A block store makes the run of word stores its list announces. -/
theorem inStep_execStm
    (hss : ∀ st ∈ wordStores (c.blkAddr d).1
      (listed (d.imm.setWidth 16)).length, st ∈ ss) :
    InStepFrom w ss c (execStm d) := by
  refine .core (InStep.from ?_ c)
  exact .bind (inStep_stmLoop d _ _ (c.blkAddr_aligned d) hss)
    fun _ => inStep_onCore _

/-- A swap stores once, at the address it has loaded from. -/
theorem inStep_execSwp
    (hss : ∀ st ∈ (if d.aux &&& 1 != 0 then [⟨c.regOp12 d.rn, 1⟩]
    else [⟨c.regOp12 d.rn &&& ~~~3, 4⟩] : List Store), st ∈ ss) :
    InStepFrom w ss c (execSwp d) := by
  refine .core (InStep.from ?_ c)
  dsimp only
  split
  case isTrue hbyte =>
    rw [if_pos hbyte] at hss
    exact .bind (inStep_load8 _) fun _ =>
      .bind (inStep_write8 (hss _ List.mem_cons_self) _)
      fun _ => .bind (.pure _) fun _ => inStep_onCore _
  case isFalse hword =>
    rw [if_neg hword] at hss
    exact .bind (inStep_read32Rot _) fun _ =>
      .bind (inStep_write32 (mod4_aligned _) (hss _ List.mem_cons_self) _) fun _ =>
      .bind (.pure _) fun _ => inStep_onCore _

end Stores

/-- An instruction stores what `storesOf` lists and nothing else. -/
theorem inStep_execDecoded (c : Core) (d : DecodedInsn) :
    InStepFrom w (c.storesOf d) c (execDecoded d) := by
  unfold Core.storesOf
  refine .core ?_
  by_cases hcond : (!c.condPass d.cond) = true
  · rw [if_pos hcond, if_pos hcond]
    exact InStep.from (.pure _) c
  rw [if_neg hcond, if_neg hcond]
  cases d.op with
  | ldr => exact InStep.from (inStep_execLdr d) c
  | str => exact inStep_execStr fun _ h => h
  | ldrMisc => exact InStep.from (inStep_execLdrMisc d) c
  | strMisc => exact inStep_execStrMisc List.mem_cons_self
  | ldm => exact InStep.from (inStep_execLdm d) c
  | stm => exact inStep_execStm fun _ h => h
  | swp => exact inStep_execSwp fun _ h => h
  | undef => exact InStep.from (.throw _) c
  | _ => exact InStep.from (inStep_onCore _) c

end Executor

-- ======== steps

/-- A fetch without the cache decodes what memory holds. -/
theorem fetchFresh_apply (thumb : Bool) (pc : U32) (m : Machine LinearMemory) :
    fetchFresh thumb pc m = (.ok (m.bus.insnAt thumb pc), m) := by
  unfold fetchFresh LinearMemory.insnAt
  cases thumb <;> rfl

section Fetch

variable {thumb : Bool} {pc : U32} {m : Machine LinearMemory}

/-- With the cache turned off a fetch decodes afresh. -/
theorem fetch_fused (h : m.fusedOnly = true) :
    fetch thumb pc m = (.ok (m.bus.insnAt thumb pc), m) := by
  unfold fetch
  rw [fetchFresh_apply]
  simp [h]

/-- A hit returns the record and moves nothing. -/
theorem fetch_hit (h : m.fusedOnly = false)
    (hhit : m.icache.hit (ICache.keyOf pc thumb) (ICache.entrySlot pc) pc = true) :
    fetch thumb pc m
      = (.ok (m.icache.entries (ICache.entrySlot pc)).insn, m) := by
  unfold fetch
  simp [h, hhit]

/-- A miss decodes afresh and fills the slot. -/
theorem fetch_miss (h : m.fusedOnly = false)
    (hmiss : m.icache.hit (ICache.keyOf pc thumb) (ICache.entrySlot pc) pc
      = false) :
    fetch thumb pc m = (.ok (m.bus.insnAt thumb pc), { m with
      icache := m.icache.fill (ICache.keyOf pc thumb) (ICache.entrySlot pc)
        (m.bus.insnAt thumb pc) }) := by
  unfold fetch
  rw [fetchFresh_apply]
  simp [h, hmiss]

end Fetch

/-- The only place where the twins do different things. -/
theorem inStep_fetch {w : Nat} {thumb : Bool} {pc : U32}
    (hpc : LinearMemory.Aligned thumb pc) :
    InStep w [] (fetch thumb pc) where
  back s h := by
    cases hf : s.fusedOnly with
    | true =>
      rw [fetch_fused hf] at h
      exact h
    | false =>
      cases hhit :
        s.icache.hit (ICache.keyOf pc thumb) (ICache.entrySlot pc) pc with
      | true =>
        rw [fetch_hit hf hhit] at h
        exact h
      | false =>
        rw [fetch_miss hf hhit] at h
        exact h
  step {s t} h hfine := by
    rw [fetch_fused h.fused, ← h.bus]
    cases hhit :
      s.icache.hit (ICache.keyOf pc thumb) (ICache.entrySlot pc) pc with
    | true =>
      rw [fetch_hit h.cached hhit] at hfine ⊢
      exact ⟨congrArg Except.ok (h.ok.hit hfine hhit), h⟩
    | false =>
      rw [fetch_miss h.cached hhit]
      have htwins : Twins w { s with
          icache := s.icache.fill (ICache.keyOf pc thumb) (ICache.entrySlot pc)
            (s.bus.insnAt thumb pc) } t :=
        ⟨h.core, h.bus, h.cached, h.fused, h.width, h.ok.fill hpc _⟩
      exact ⟨rfl, htwins, fun _ hst => absurd hst List.not_mem_nil⟩

/-- The fetch of either twin returns the same instruction: a live record is
what memory decodes to. -/
theorem inStep_prefetch {w : Nat} {thumb : Bool} {pc : U32}
    (hpc : LinearMemory.Aligned thumb pc) :
    InStep w [] (prefetch thumb pc) :=
  .bind (inStep_onCore _) fun _ => .bind (inStep_fetch hpc) fun _ =>
    .bind (inStep_onCore _) fun _ => .pure _

/-- Between instructions no store is under way. -/
theorem Twins.storing {w : Nat} {m m' : Machine LinearMemory}
    (h : Twins w m m') :
    Storing w [] m m' :=
  ⟨h, fun _ hst => absurd hst List.not_mem_nil⟩

section Body

variable {w : Nat} {thumb : Bool} {pc : U32} {m m' : Machine LinearMemory}

/-- The clock of an instruction's start has not wrapped if that of its end has
not. -/
theorem execBody_back (hpc : LinearMemory.Aligned thumb pc)
    (h : Unwrapped (execBody thumb pc m).2) : Unwrapped m := by
  have hback := (inStep_prefetch (w := 16) hpc).back m
  rw [execBody_eq, Fallible.bind_apply] at h
  rcases hr : prefetch thumb pc m with ⟨e | d, s⟩ <;> rw [hr] at h hback
  · exact hback h
  · exact hback ((inStep_execDecoded (w := 16) s.toCore d).back s rfl h)

/-- An instruction whose stores are covered keeps twins twins. -/
theorem Twins.execBody (ht : Twins w m m')
    (hpc : LinearMemory.Aligned thumb pc)
    (hcareful : ∀ d s, prefetch thumb pc m = (.ok d, s) → ∀ st ∈ s.storesOf d,
      s.Covered st)
    (h : Unwrapped (Arm32.execBody thumb pc m).2) :
    (Arm32.execBody thumb pc m).1 = (Arm32.execBody thumb pc m').1
      ∧ Twins w (Arm32.execBody thumb pc m).2
        (Arm32.execBody thumb pc m').2 := by
  have hstep := (inStep_prefetch (w := w) hpc).step ht.storing
  rw [execBody_eq, Fallible.bind_apply] at h ⊢
  rw [Fallible.bind_apply]
  rcases hr : prefetch thumb pc m with ⟨e | d, s⟩ <;> rw [hr] at h hstep
  · obtain ⟨he, hs⟩ := hstep h
    rcases hy : prefetch thumb pc m' with ⟨o, s'⟩
    rw [hy] at he hs
    subst he
    exact ⟨rfl, hs.toTwins⟩
  · have hexec := inStep_execDecoded (w := w) s.toCore d
    obtain ⟨hd, hs⟩ := hstep (hexec.back s rfl h)
    rcases hy : prefetch thumb pc m' with ⟨o, s'⟩
    rw [hy] at hd hs
    subst hd
    obtain ⟨hn, hs'⟩ := hexec.step rfl ⟨hs.toTwins, hcareful d s hr⟩ h
    exact ⟨hn, hs'.toTwins⟩

end Body

/-- One unit of work that keeps twins twins, from where `P` holds. -/
structure StepsAlike {α : Type} (P : Machine LinearMemory → Prop)
    (f : Machine LinearMemory → α × Machine LinearMemory) : Prop where
  back : ∀ m, Unwrapped (f m).2 → Unwrapped m
  step : ∀ {w m m'}, Twins w m m' → P m → Unwrapped (f m).2 →
    (f m).1 = (f m').1 ∧ Twins w (f m).2 (f m').2

/-- The fetch address is aligned for the instruction set. -/
theorem pc_aligned (thumb : Bool) (a : U32) :
    LinearMemory.Aligned thumb (a &&& (if thumb then ~~~1 else ~~~3)) := by
  cases thumb with
  | true => exact mod2_aligned a
  | false => exact mod4_aligned a

theorem stepsAlike_execOne : StepsAlike Machine.CarefulInsn execOne where
  back m h := by
    have hback := execBody_back (pc_aligned m.regs.cpsr.t (m.gpr 15)) (m := m)
    unfold execOne at h
    dsimp only at h
    rcases hr : execBody _ _ m with ⟨e | n, s⟩ <;> rw [hr] at h hback
    · exact hback h
    · exact hback h
  step {w m m'} ht hcareful h := by
    have hstep := ht.execBody (pc_aligned m.regs.cpsr.t (m.gpr 15)) hcareful
    unfold execOne at h ⊢
    rw [← ht.core]
    dsimp only at h ⊢
    rcases hr : execBody _ _ m with ⟨e | n, s⟩ <;> rw [hr] at h hstep
    · obtain ⟨he, hs⟩ := hstep h
      rcases hy : execBody _ _ m' with ⟨o, s'⟩
      rw [hy] at he hs
      subst he
      exact ⟨rfl, hs.map (Core.faultEpilogue e)⟩
    · obtain ⟨he, hs⟩ := hstep h
      rcases hy : execBody _ _ m' with ⟨o, s'⟩
      rw [hy] at he hs
      subst he
      exact ⟨rfl, hs⟩

theorem stepsAlike_stepFast : StepsAlike Machine.CarefulInsn stepFast where
  back m h := stepsAlike_execOne.back m h
  step {w m m'} ht hcareful h := by
    obtain ⟨hn, hs⟩ := stepsAlike_execOne.step ht hcareful h
    unfold stepFast
    dsimp only
    rw [hn]
    exact ⟨rfl, hs.map fun c => c.charge _⟩

theorem stepsAlike_stepSlow : StepsAlike Machine.Careful stepSlow where
  back m h := by
    unfold stepSlow at h
    dsimp only at h
    split at h
    · exact h
    split at h
    · exact h
    split at h
    · exact h
    · have hback := stepsAlike_stepFast.back _ h
      exact hback
  step {w m m'} ht hcareful h := by
    have ht' := ht.map fun c =>
      { c with events := c.events &&& ~~~EVT_HOST_TRAP }
    unfold stepSlow at h ⊢
    dsimp only at h ht' ⊢
    rw [← ht.core] at ht' ⊢
    split at h
    case isTrue hfiq =>
      rw [if_pos hfiq, if_pos hfiq]
      exact ⟨rfl, ht'.map fun c => c.deliver .fiq⟩
    case isFalse hfiq =>
    rw [if_neg hfiq, if_neg hfiq]
    split at h
    case isTrue hirq =>
      rw [if_pos hirq, if_pos hirq]
      exact ⟨rfl, ht'.map fun c => c.deliver .irq⟩
    case isFalse hirq =>
    rw [if_neg hirq, if_neg hirq]
    split at h
    case isTrue hhalt =>
      rw [if_pos hhalt, if_pos hhalt]
      exact ⟨rfl, ht'.map fun c => c.charge 1⟩
    case isFalse hhalt =>
      rw [if_neg hhalt, if_neg hhalt]
      have hexec : m.executes = true := by
        unfold Core.executes
        simp only [Bool.not_eq_true] at hfiq hirq hhalt
        dsimp only
        rw [hfiq, hirq, hhalt]
        rfl
      exact stepsAlike_stepFast.step ht' (hcareful hexec) h

/-- With nothing pending the next step executes the instruction at hand. -/
theorem Machine.Careful.idle {m : Machine LinearMemory} (h : m.Careful)
    (hidle : ¬m.boundaryPending = true) : m.CarefulInsn := by
  simp only [Core.boundaryPending, Bool.or_eq_true, not_or, Bool.not_eq_true,
    bne_eq_false_iff_eq] at hidle
  obtain ⟨hevents, hhalted⟩ := hidle
  have hexec : m.executes = true := by simp [Core.executes, hevents, hhalted]
  have hsilent : m.events &&& ~~~EVT_HOST_TRAP = m.events := by
    rw [hevents]
    exact BitVec.zero_and
  have hinsn := h hexec
  rw [hsilent] at hinsn
  exact hinsn

theorem stepsAlike_step : StepsAlike Machine.Careful step where
  back m h := by
    unfold step at h
    split at h
    · exact stepsAlike_stepSlow.back m h
    · exact stepsAlike_stepFast.back m h
  step {w m m'} ht hcareful h := by
    unfold step at h ⊢
    rw [← ht.core]
    split at h
    case isTrue hp =>
      rw [if_pos hp, if_pos hp]
      exact stepsAlike_stepSlow.step ht hcareful h
    case isFalse hp =>
      rw [if_neg hp, if_neg hp]
      exact stepsAlike_stepFast.step ht (hcareful.idle hp) h

theorem stepsAlike_runBoundary :
    StepsAlike (fun m => (runBoundary m).1 = none → m.Careful)
      runBoundary where
  back m h := by
    unfold runBoundary at h
    split at h
    · exact h
    split at h
    · exact h
    · exact stepsAlike_stepSlow.back m h
  step {w m m'} ht hcareful h := by
    unfold runBoundary at h hcareful ⊢
    rw [← ht.core]
    split at h
    case isTrue htrap =>
      rw [if_pos htrap, if_pos htrap]
      have ht' := ht.map fun c =>
        { c with events := c.events &&& ~~~EVT_HOST_TRAP }
      dsimp only at ht'
      rw [← ht.core] at ht'
      exact ⟨rfl, ht'⟩
    case isFalse htrap =>
    rw [if_neg htrap, if_neg htrap]
    rw [if_neg htrap] at hcareful
    split at h
    case isTrue hhalt =>
      rw [if_pos hhalt, if_pos hhalt]
      exact ⟨rfl, ht⟩
    case isFalse hhalt =>
      rw [if_neg hhalt, if_neg hhalt]
      rw [if_neg hhalt] at hcareful
      exact ⟨rfl, (stepsAlike_stepSlow.step ht (hcareful rfl) h).2⟩

/-- Every step of a batch is careful. -/
def LoopCareful : Nat → Machine LinearMemory → Prop
  | 0, _ => True
  | n + 1, m =>
    if m.boundaryPending then
      match runBoundary m with
      | (some _, _) => True
      | (none, m') => m.Careful ∧ LoopCareful n m'
    else m.Careful ∧ LoopCareful n (stepFast m).2

/-- A batch, by induction on what is left of it. -/
theorem stepsAlike_runLoop (n executed : Nat) :
    StepsAlike (LoopCareful n) (runLoop n executed) := by
  induction n generalizing executed with
  | zero => exact ⟨fun _ h => h, fun ht _ _ => ⟨rfl, ht⟩⟩
  | succ n ih =>
    constructor
    · intro m h
      unfold runLoop at h
      split at h
      · have hback := stepsAlike_runBoundary.back m
        rcases hr : runBoundary m with ⟨_ | exit, s⟩ <;> rw [hr] at h hback
        · exact hback ((ih (executed + 1)).back s h)
        · exact hback h
      · exact stepsAlike_stepFast.back m ((ih (executed + 1)).back _ h)
    · intro w m m' ht hcareful h
      unfold runLoop at h ⊢
      unfold LoopCareful at hcareful
      rw [← ht.core]
      split at h
      case isTrue hp =>
        rw [if_pos hp, if_pos hp]
        rw [if_pos hp] at hcareful
        have hstep := stepsAlike_runBoundary.step ht
        rcases hr : runBoundary m with ⟨_ | exit, s⟩
          <;> rw [hr] at h hstep hcareful
        · obtain ⟨ho, hs⟩ :=
            hstep (fun _ => hcareful.1) ((ih (executed + 1)).back s h)
          rcases hy : runBoundary m' with ⟨o, s'⟩
          rw [hy] at ho hs
          subst ho
          exact (ih (executed + 1)).step hs hcareful.2 h
        · obtain ⟨ho, hs⟩ := hstep (fun hnone => nomatch hnone) h
          rcases hy : runBoundary m' with ⟨o, s'⟩
          rw [hy] at ho hs
          subst ho
          exact ⟨rfl, hs⟩
      case isFalse hp =>
        rw [if_neg hp, if_neg hp]
        rw [if_neg hp] at hcareful
        have hfast := stepsAlike_stepFast.step ht (hcareful.1.idle hp)
          ((ih (executed + 1)).back _ h)
        exact (ih (executed + 1)).step hfast.2 hcareful.2 h

theorem stepsAlike_run (n : Nat) :
    StepsAlike (fun m => m.hostTrap = none → LoopCareful n m) (run n) where
  back m h := by
    unfold run at h
    split at h
    · exact h
    · exact (stepsAlike_runLoop n 0).back m h
  step {w m m'} ht hcareful h := by
    unfold run at h ⊢
    rw [← ht.core]
    split at h
    case isTrue htrap =>
      rw [if_pos htrap, if_pos htrap]
      exact ⟨rfl, ht⟩
    case isFalse htrap =>
      rw [if_neg htrap, if_neg htrap]
      rw [Bool.not_eq_true, Option.isSome_eq_false_iff,
        Option.isNone_iff_eq_none] at htrap
      exact (stepsAlike_runLoop n 0).step ht (hcareful htrap) h

-- ======== runs

/-- What happens to a machine: the CPU works, or the host acts. -/
inductive Act where
  | step
  | run (n : Nat)
  | reset
  /-- The host sets registers, flags, interrupt lines or hooks. -/
  | host (f : Core → Core)
  /-- The host writes memory and, as it has to, invalidates the cache. -/
  | load (addr : U32) (data : List U8)

/-- The machine behind an act. -/
def Act.apply (m : Machine LinearMemory) : Act → Machine LinearMemory
  | step => (Arm32.step m).2
  | run n => (Arm32.run n m).2
  | reset => { m with toCpu := m.toCpu.reset }
  | host f => { m with toCore := f m.toCore }
  | load addr data =>
    { m with icache := m.icache.invalidateAll, bus := m.bus.load addr data }

/-- A run: the actions one after another. -/
def runActs (as : List Act) (m : Machine LinearMemory) :
    Machine LinearMemory :=
  as.foldl Act.apply m

/-- A processor in any state with an empty cache, which it uses or not. -/
def started (c : Core) (b : LinearMemory) (fusedOnly : Bool) :
    Machine LinearMemory :=
  { toCore := c, icache := ICache.new, fusedOnly := fusedOnly, bus := b }

/-- Every step of an act is careful. -/
def Act.Careful (m : Machine LinearMemory) : Act → Prop
  | step => m.Careful
  | run n => m.hostTrap = none → LoopCareful n m
  | _ => True

/-- Every step of a run is careful. -/
def CarefulRun : List Act → Machine LinearMemory → Prop
  | [], _ => True
  | a :: as, m => a.Careful m ∧ CarefulRun as (a.apply m)

/-- An action only moves the clock forward. -/
theorem Act.back (a : Act) (m : Machine LinearMemory)
    (h : Unwrapped (a.apply m)) :
    Unwrapped m := by
  cases a with
  | step => exact stepsAlike_step.back m h
  | run n => exact (stepsAlike_run n).back m h
  | reset => exact Nat.lt_of_succ_lt h
  | host f => exact h
  | load addr data => exact Nat.lt_of_succ_lt h

/-- One action of a run keeps the twins. -/
theorem Twins.act {w : Nat} {m m' : Machine LinearMemory}
    (ht : Twins w m m') (a : Act)
    (hcareful : a.Careful m) (h : Unwrapped (a.apply m)) :
    Twins w (a.apply m) (a.apply m') := by
  cases a with
  | step => exact (stepsAlike_step.step ht hcareful h).2
  | run n => exact ((stepsAlike_run n).step ht hcareful h).2
  | reset =>
    have hcore := congrArg (fun c : Core => { c with
      regs := Registers.new
      halted := false
      events := c.events &&& (EVT_IRQ ||| EVT_FIQ)
      hostTrap := none }) ht.core
    exact ⟨hcore, ht.bus, ht.cached, ht.fused, ht.width, ht.ok.invalidateAll _⟩
  | host f => exact ht.map f
  | load addr data =>
    exact ⟨ht.core, congrArg (fun b : LinearMemory => b.load addr data) ht.bus,
      ht.cached, ht.fused, ht.width, ht.ok.invalidateAll _⟩

/-- The clock of a run's start has not wrapped if that of its end has not. -/
theorem runActs_back (as : List Act) (m : Machine LinearMemory)
    (h : Unwrapped (runActs as m)) :
    Unwrapped m := by
  induction as generalizing m with
  | nil => exact h
  | cons a as ih => exact a.back m (ih (a.apply m) h)

/-- A run whose steps are all careful keeps the twins, by induction on its
actions. -/
theorem Twins.runActs {w : Nat} {m m' : Machine LinearMemory}
    (ht : Twins w m m')
    (as : List Act) (hcareful : CarefulRun as m)
    (h : Unwrapped (runActs as m)) :
    Twins w (Arm32.runActs as m) (Arm32.runActs as m') := by
  induction as generalizing m m' with
  | nil => exact ht
  | cons a as ih =>
    exact ih (ht.act a hcareful.1 (runActs_back as _ h)) hcareful.2 h

/-- The registers, the status registers, the cycles and every other part of
the two processors but their caches, and the memories, are equal. -/
def Agree (m m' : Machine LinearMemory) : Prop :=
  m.toCore = m'.toCore ∧ m.bus = m'.bus

/-- A machine that was just started and its twin. -/
theorem twins_started (c : Core) (b : LinearMemory) :
    Twins b.width (started c b false) (started c b true) :=
  ⟨rfl, rfl, rfl, rfl, rfl, ICache.new_ok b⟩

/-- **The cache is transparent along careful runs.** Every program, state
and memory, and every run of steps, batches, resets, host changes and loads
from there: where each step stores only what its own pages stamp and the
store clock does not wrap, the run goes the same with the cache and without
it. -/
theorem cache_transparent (c : Core) (b : LinearMemory) (as : List Act)
    (hcareful : CarefulRun as (started c b false))
    (hclock : Unwrapped (runActs as (started c b false))) :
    Agree (runActs as (started c b false))
      (runActs as (started c b true)) := by
  have ht := (twins_started c b).runActs as hcareful hclock
  exact ⟨ht.core, ht.bus⟩

/-- Registers for a program that stores r0, the word of `MOV r2, #2`, through
r1. -/
def patchingCore (addr : U32) : Core where
  regs := { Registers.new with gpr := upd (upd (fun _ => 0) 0 0xE3A02002) 1 addr }
  cycles := 0
  halted := false
  events := 0
  startPc := 0
  thumb := false
  trapSwi := false
  trapFaults := false
  hostTrap := none

/-- `MOV r2, #1; STR r0, [r1]; B 0`. -/
def patchingProgram : List U8 :=
  [0x01, 0x20, 0xA0, 0xE3, 0x00, 0x00, 0x81, 0xE5, 0xFC, 0xFF, 0xFF, 0xEA]

/-- The memory of the program that patches itself. -/
def patchingMemory (width : Nat) : LinearMemory :=
  (⟨fun _ => 0, max 16 width, Nat.le_max_left _ _⟩ : LinearMemory).load 0
    patchingProgram

/-- Two passes over the first instruction, with the store between them. -/
abbrev twoPasses : List Act := [.step, .step, .step, .step]

/-- An instruction without stores is careful. -/
theorem Machine.CarefulInsn.of_none {m : Machine LinearMemory}
    {d : DecodedInsn} {s : Machine LinearMemory}
    (hr : prefetch m.regs.cpsr.t
      (m.gpr 15 &&& (if m.regs.cpsr.t then ~~~1 else ~~~3)) m
      = (.ok d, s)) (hnone : s.storesOf d = []) : m.CarefulInsn := by
  intro d' s' hr' st hst
  rw [hr] at hr'
  cases hr'
  rw [hnone] at hst
  cases hst

/-- An instruction with one store, which is covered. -/
theorem Machine.CarefulInsn.of_one {m : Machine LinearMemory} {d : DecodedInsn}
    {s : Machine LinearMemory} {st : Store}
    (hr : prefetch m.regs.cpsr.t
      (m.gpr 15 &&& (if m.regs.cpsr.t then ~~~1 else ~~~3)) m
      = (.ok d, s)) (hone : s.storesOf d = [st]) (hcovered : s.Covered st) :
    m.CarefulInsn := by
  intro d' s' hr' st' hst'
  rw [hr] at hr'
  cases hr'
  rw [hone] at hst'
  exact List.mem_singleton.1 hst' ▸ hcovered

/-- In a cache of two records every store on their pages is covered. -/
theorem covered_of_filled {m : Machine LinearMemory} {st : Store}
    {i j : U32} {e f : Entry}
    (hentries : m.icache.entries = upd (upd ICache.new.entries i e) j f)
    (hinval : 0 < m.icache.inval.toNat)
    (he : e.page = ICache.stampSlot st.addr)
    (hf : f.page = ICache.stampSlot st.addr) : m.Covered st := by
  intro slot hl hpage
  have hversion :
    m.icache.inval.toNat ≤ (m.icache.entries slot).version.toNat := hl.2
  exfalso
  rw [hentries] at hpage hversion
  rcases Decidable.eq_or_ne slot j with rfl | hj
  · exact hpage ((congrArg Entry.page (upd_same _ _ _)).trans hf)
  rw [upd_other _ _ hj] at hpage hversion
  rcases Decidable.eq_or_ne slot i with rfl | hi
  · exact hpage ((congrArg Entry.page (upd_same _ _ _)).trans he)
  rw [upd_other _ _ hi] at hversion
  exact absurd hversion (Nat.not_le_of_lt hinval)

/-- The program patches itself: with the address of its first instruction
itself in r1, it is careful in the default memory. -/
theorem careful_patching :
    CarefulRun twoPasses
      (started (patchingCore 0) (patchingMemory 24) false) :=
  ⟨fun _ => .of_none rfl rfl,
    fun _ => .of_one rfl rfl (covered_of_filled rfl (by decide) rfl rfl),
    fun _ => .of_none rfl rfl, fun _ => .of_none rfl rfl, trivial⟩

/-- Both machines run the new instruction the second time. -/
theorem cache_transparent_patching :
    Agree (runActs twoPasses
        (started (patchingCore 0) (patchingMemory 24) false))
        (runActs twoPasses (started (patchingCore 0) (patchingMemory 24) true))
      ∧ (runActs twoPasses
        (started (patchingCore 0) (patchingMemory 24) true)).regs.gpr 2 = 2 :=
  ⟨cache_transparent _ _ twoPasses careful_patching
    (by unfold Unwrapped; decide), rfl⟩

-- ======== large memories

/-- The stores of block transfers are words. -/
theorem inWord_wordStores {addr : U32} (ha : addr.toNat % 4 = 0) (n : Nat) :
    ∀ st ∈ wordStores addr n, st.InWord := by
  induction n generalizing addr with
  | zero => exact fun _ hst => absurd hst List.not_mem_nil
  | succ n ih =>
    have hnext : (addr + 4).toNat % 4 = 0 := by
      have hfour : (4 : U32).toNat = 4 := rfl
      rw [BitVec.toNat_add, hfour]
      omega
    rintro st (_ | ⟨_, hst⟩)
    · exact Nat.le_of_eq (congrArg (· + 4) ha)
    · exact ih hnext st hst

/-- Every store is aligned to its size. -/
theorem inWord_storesOf (c : Core) (d : DecodedInsn) :
    ∀ st ∈ c.storesOf d, st.InWord := by
  have hbyte :
    ∀ a : U32, Store.InWord ⟨a, 1⟩ := fun a => Nat.mod_lt a.toNat (by decide)
  have hhalf : ∀ a : U32, Store.InWord ⟨a &&& ~~~1, 2⟩ := by
    intro a
    have h2 := mod2_aligned a
    show (a &&& ~~~1).toNat % 4 + 2 ≤ 4
    omega
  have hword : ∀ a : U32, Store.InWord ⟨a &&& ~~~3, 4⟩ :=
    fun a => Nat.le_of_eq (congrArg (· + 4) (mod4_aligned a))
  unfold Core.storesOf
  split
  · exact fun _ hst => absurd hst List.not_mem_nil
  cases d.op with
  | str =>
    dsimp only
    split
    · exact List.forall_mem_singleton.2 (hbyte _)
    · exact List.forall_mem_singleton.2 (hword _)
  | strMisc => exact List.forall_mem_singleton.2 (hhalf _)
  | stm => exact inWord_wordStores (c.blkAddr_aligned d) _
  | swp =>
    dsimp only
    split
    · exact List.forall_mem_singleton.2 (hbyte _)
    · exact List.forall_mem_singleton.2 (hword _)
  | _ => exact fun _ hst => absurd hst List.not_mem_nil

/-- An instruction lies within an aligned word. -/
theorem LinearMemory.Aligned.add_lt {thumb : Bool} {pc : U32} {i : Nat}
    (h : LinearMemory.Aligned thumb pc)
    (hi : i < LinearMemory.insnSize thumb) :
    pc.toNat % 4 + i < 4 := by
  unfold LinearMemory.Aligned at h
  unfold LinearMemory.insnSize at hi
  cases thumb with
  | true =>
    rw [if_pos rfl] at h hi
    omega
  | false =>
    rw [if_neg (by decide)] at h hi
    omega

/-- Where all addresses of a cell share a stamp slot, every store is
covered. -/
theorem Twins.covered {w : Nat} {m m' : Machine LinearMemory}
    (ht : Twins w m m') (hw : 26 ≤ w)
    (hclock : Unwrapped m) {st : Store} (hst : st.InWord) : m.Covered st := by
  intro slot hl hpage j hj hj'
  have hwide : 26 ≤ m.bus.width := ht.width ▸ hw
  obtain ⟨haligned, -⟩ := (ht.ok hclock).live slot hl
  obtain ⟨i, hi, rfl⟩ := List.mem_map.1 hj
  obtain ⟨k, hk, heq⟩ := List.mem_map.1 hj'
  have hcode : (m.icache.entries slot).pc.toNat % 4 + i < 4 :=
    haligned.add_lt (List.mem_range.1 hi)
  have hdata : st.addr.toNat % 4 + k < 4 := by
    have hk' := List.mem_range.1 hk
    unfold Store.InWord at hst
    omega
  have hslot :
    slotOf (m.icache.entries slot).pc.toNat = slotOf st.addr.toNat := by
    rw [← LinearMemory.slotOf_index hwide hcode,
      ← LinearMemory.slotOf_index hwide hdata, heq]
  rw [← toNat_stampSlot, ← toNat_stampSlot] at hslot
  exact hpage (BitVec.eq_of_toNat_eq hslot)

/-- A fetch does not tick. -/
theorem clock_prefetch (thumb : Bool) (pc : U32) (m : Machine LinearMemory) :
    (prefetch thumb pc m).2.icache.clock = m.icache.clock := by
  have hfetch : ∀ s : Machine LinearMemory,
      (fetch thumb pc s).2.icache.clock = s.icache.clock := by
    intro s
    cases hf : s.fusedOnly with
    | true => rw [fetch_fused hf]
    | false =>
      cases hhit :
        s.icache.hit (ICache.keyOf pc thumb) (ICache.entrySlot pc) pc with
      | true => rw [fetch_hit hf hhit]
      | false =>
        rw [fetch_miss hf hhit]
        rfl
  have h := hfetch { m with toCore := { m.toCore with thumb := thumb, startPc := pc } }
  have hbegin :
      onCore (fun c : Core => ((), { c with thumb := thumb, startPc := pc })) m
      = (.ok (), { m with toCore := { m.toCore with thumb := thumb, startPc := pc } }) := rfl
  rw [prefetch, Fallible.bind_of_ok hbegin, Fallible.bind_apply]
  rcases hr : fetch thumb pc _ with ⟨e | d, s⟩ <;> rw [hr] at h <;> exact h

/-- In a large memory no byte has addresses in two stamp slots, so an
instruction cannot be careless. -/
theorem Twins.carefulInsn {w : Nat} {m m' : Machine LinearMemory}
    (ht : Twins w m m')
    (hw : 26 ≤ w) (hclock : Unwrapped m) : m.CarefulInsn := by
  intro d s hr st hst
  have hstep :=
    (inStep_prefetch (w := w) (pc_aligned m.regs.cpsr.t (m.gpr 15))).step
      ht.storing
  have htick := clock_prefetch m.regs.cpsr.t
    (m.gpr 15 &&& (if m.regs.cpsr.t then ~~~1 else ~~~3)) m
  rw [hr] at hstep htick
  have hclock' : Unwrapped s := by
    unfold Unwrapped
    rw [htick]
    exact hclock
  exact (hstep hclock').2.toTwins.covered hw hclock'
    (inWord_storesOf _ d st hst)

theorem Twins.careful {w : Nat} {m m' : Machine LinearMemory}
    (ht : Twins w m m')
    (hw : 26 ≤ w) (hclock : Unwrapped m) : m.Careful := fun _ =>
  (ht.map fun c =>
    { c with events := c.events &&& ~~~EVT_HOST_TRAP }).carefulInsn hw hclock

theorem Twins.loopCareful {w : Nat} {m m' : Machine LinearMemory}
    (ht : Twins w m m')
    (hw : 26 ≤ w) (n executed : Nat) (h : Unwrapped (runLoop n executed m).2) :
    LoopCareful n m := by
  induction n generalizing m m' executed with
  | zero => trivial
  | succ n ih =>
    have hback := (stepsAlike_runLoop (n + 1) executed).back m h
    have hcareful := ht.careful hw hback
    unfold runLoop at h
    unfold LoopCareful
    split at h
    case isTrue hp =>
      rw [if_pos hp]
      have hstep := stepsAlike_runBoundary.step ht fun _ => hcareful
      rcases hr : runBoundary m with ⟨_ | exit, s⟩ <;> rw [hr] at h hstep
      · have hs := (hstep ((stepsAlike_runLoop n (executed + 1)).back s h)).2
        exact ⟨hcareful, ih hs (executed + 1) h⟩
      · trivial
    case isFalse hp =>
      rw [if_neg hp]
      have hfast := stepsAlike_stepFast.step ht (hcareful.idle hp)
        ((stepsAlike_runLoop n (executed + 1)).back _ h)
      exact ⟨hcareful, ih hfast.2 (executed + 1) h⟩

/-- On a memory of 2^26 bytes every run is careful. -/
theorem Twins.carefulRun {w : Nat} {m m' : Machine LinearMemory}
    (ht : Twins w m m')
    (hw : 26 ≤ w) (as : List Act) (h : Unwrapped (Arm32.runActs as m)) :
    CarefulRun as m := by
  induction as generalizing m m' with
  | nil => trivial
  | cons a as ih =>
    have hclock := runActs_back as _ h
    have hcareful : a.Careful m := by
      cases a with
      | step => exact ht.careful hw (stepsAlike_step.back m hclock)
      | run n =>
        intro htrap
        change Unwrapped (run n m).2 at hclock
        unfold run at hclock
        rw [htrap, if_neg (by decide)] at hclock
        exact ht.loopCareful hw n 0 hclock
      | _ => trivial
    exact ⟨hcareful, ih (ht.act a hcareful hclock) h⟩

-- ======== small memories

/-- The machine that runs it with an alias of address zero in r1, beyond the
end of the memory. -/
def aliasing (width : Nat) (fusedOnly : Bool) : Machine LinearMemory :=
  started (patchingCore (1 <<< width)) (patchingMemory width) fusedOnly

/-- Below 2^26 bytes the second pass runs the old instruction from the
cache, and the new one, `MOV r2, #2`, without it. -/
theorem twoPasses_stale {width : Nat} (h : 16 ≤ width) (hw : width < 26) :
    (runActs twoPasses (aliasing width false)).regs.gpr 2 = 1
    ∧ (runActs twoPasses (aliasing width true)).regs.gpr 2 = 2
    ∧ (runActs twoPasses (aliasing width false)).icache.clock = 2 := by
  refine ⟨?_, ?_, ?_⟩
  · interval_cases width <;> rfl
  · interval_cases width <;> rfl
  · interval_cases width <;> rfl

/-- So the two runs part. -/
theorem twoPasses_part {width : Nat} (h : 16 ≤ width) (hw : width < 26) :
    Unwrapped (runActs twoPasses (aliasing width false))
    ∧ ¬Agree (runActs twoPasses (aliasing width false))
        (runActs twoPasses (aliasing width true)) := by
  obtain ⟨hold, hnew, hclock⟩ := twoPasses_stale h hw
  constructor
  · unfold Unwrapped
    rw [hclock]
    decide
  · intro hagree
    rw [hagree.1, hnew] at hold
    exact absurd hold (by decide)

/-- The sizes at which the condition is void: for a memory of the size
`with_size` makes of `size`, all programs, states and runs whose store clock
does not wrap go the same with the cache and without it, if and only if the
memory has at least 2^26 bytes. -/
theorem memory_transparent_iff (size : Nat) :
    (∀ (c : Core) (b : LinearMemory) (as : List Act),
      b.width = (LinearMemory.withSize size).width →
      Unwrapped (runActs as (started c b false)) →
      Agree (runActs as (started c b false)) (runActs as (started c b true)))
    ↔ 2 ^ 25 < size := by
  have hsize : 26 ≤ (LinearMemory.withSize size).width ↔ 2 ^ 25 < size := by
    show 26 ≤ max 16 (Nat.clog 2 size) ↔ _
    rw [le_max_iff, ← Nat.lt_clog_iff_pow_lt (by decide)]
    omega
  rw [← hsize]
  constructor
  · intro h
    by_contra hw
    have hleast := (LinearMemory.withSize size).atLeast
    obtain ⟨hclock, hpart⟩ := twoPasses_part hleast (Nat.lt_of_not_le hw)
    exact hpart (h _ _ twoPasses (Nat.max_eq_right hleast) hclock)
  · intro hw c b as hb hclock
    have hstart := twins_started c b
    have ht := hstart.runActs as (hstart.carefulRun (hb ▸ hw) as hclock) hclock
    exact ⟨ht.core, ht.bus⟩

/-- The default memory of 16 MiB: four steps tell the two machines apart. -/
theorem cache_stale_default :
    ¬Agree (runActs twoPasses (aliasing 24 false))
      (runActs twoPasses (aliasing 24 true)) := by
  intro h
  have hold : (runActs twoPasses (aliasing 24 false)).regs.gpr 2 = 1 := rfl
  have hnew : (runActs twoPasses (aliasing 24 true)).regs.gpr 2 = 2 := rfl
  rw [h.1, hnew] at hold
  exact absurd hold (by decide)

end Remu.Arm32
