/-
The laws both x86 cores share.

The 386 and the x86-64 core are written separately, and differ in table
formats, operand sizes and modes. What a maintainer relies on is the same:
a run is its steps, a cached translation is what a walk gives, a store is
its bytes, and ENTER, LEAVE, the bit tests and the repeated string
instructions do on one core what they do on the other. Each law is stated
here for both.
-/
import Remu.X32.Places
import Remu.X32.RepSteps
import Remu.X32.StackFrame
import Remu.X32.Stores
import Remu.X32.TlbSound
import Remu.X64.Places
import Remu.X64.CoherentRun
import Remu.X64.RepSteps
import Remu.X64.StackFrame
import Remu.X64.Stores
import Remu.X64.TlbSound

namespace Remu

open ByteRam

-- ======== running

-- `run_interp` takes the same single steps as the embedder's own loop over
-- `step`, and stops where that loop has to: before a boundary at which a
-- host trap is recorded, the processor is shut down, or it is halted with
-- nothing to wake it. Everything a step looks at (pending lines, the
-- one-instruction shadow, the trap flag) is processor state, so a run may be
-- cut anywhere. The one thing a run does that steps do not is to silence the
-- doorbell of the host trap it leaves for.

/-- A run is its steps, and the runs of two parts of a budget are the run
of the whole. -/
theorem run_eq_steps {β γ : Type} [X64.Bus β] [X32.Bus γ]
    (s : X64.Machine β) (t : X32.Machine γ) (n a b : Nat) (hb : 0 < b) :
    ((X64.batch β).Stepped n s (X64.runInterp s n)
      ∧ (X64.batch β).Continued (X64.runInterp s a)
          (X64.runInterp (X64.runInterp s a).2 b) (X64.runInterp s (a + b)))
    ∧ (X32.batch γ).Stepped n t (X32.runInterp t n)
      ∧ (X32.batch γ).Continued (X32.runInterp t a)
          (X32.runInterp (X32.runInterp t a).2 b)
          (X32.runInterp t (a + b)) := by
  simp only [X64.runInterp_eq, X32.runInterp_eq]
  exact ⟨⟨Batch.run_stepped n s, Batch.run_add a hb s⟩,
    Batch.run_stepped n t, Batch.run_add a hb t⟩

/-- A run that takes two steps and stops for another reason than the bell is
in the state behind them; cut behind the first, it has one left. -/
theorem Batch.Stepped.two {σ ε : Type} {B : Batch σ ε}
    {n : Nat} {s : σ} {e : ε}
    {r r₁ r₂ : (Nat × ε) × σ} (h : B.Stepped n s r)
    (hcut : B.Continued r₁ r₂ r) (hr : r.1 = (2, e))
    (he : e ≠ B.bell) (hfirst : r₁.1.1 = 1) :
    r.2 = B.step (B.step s) ∧ r₂.1 = (1, e) := by
  constructor
  · obtain hstate | ⟨hbell, -⟩ := h.state
    · rw [hstate, hr]
      rfl
    · rw [hr] at hbell
      exact absurd hbell he
  · have hcount := hcut.count
    have hexit := hcut.exit
    rw [hr] at hcount hexit
    rw [hfirst] at hcount
    exact Prod.ext (Nat.add_left_cancel hcount).symm hexit.symm

/-- A NOP at the reset vector and a HLT behind it. -/
def nopHalt {w : Nat} (a : BitVec w) : U8 :=
  if a.toNat = 0xFFFFFFF0 then 0x90
    else if a.toNat = 0xFFFFFFF1 then 0xF4 else 0

/-- The x86-64 core before `NOP; HLT`. -/
def nopHalt64 : X64.Machine (X64.FlatBus Unit) :=
  { X64.Cpu.new with bus := ⟨nopHalt, ()⟩ }

/-- The 386 core before the same program. -/
def nopHalt32 : X32.Machine (X32.FlatBus Unit) :=
  { X32.Cpu.new with bus := ⟨nopHalt, ()⟩ }

/-- On each core a run of five units takes two steps, the NOP and the HLT,
and stops at the halt; cut behind the NOP it does the same. -/
theorem run_eq_steps_nopHalt :
    ((X64.runInterp nopHalt64 5).1 = (2, .halted)
        ∧ (X64.runInterp nopHalt64 5).2 = (X64.step (X64.step nopHalt64).2).2
        ∧ (X64.runInterp (X64.runInterp nopHalt64 1).2 4).1 = (1, .halted))
      ∧ (X32.runInterp nopHalt32 5).1 = (2, .halted)
        ∧ (X32.runInterp nopHalt32 5).2 = (X32.step (X32.step nopHalt32).2).2
        ∧ (X32.runInterp (X32.runInterp nopHalt32 1).2 4).1
          = (1, .halted) := by
  obtain ⟨⟨h64, hcut64⟩, h32, hcut32⟩ :=
    run_eq_steps nopHalt64 nopHalt32 5 1 4 (by decide)
  have hrun64 :
    (X64.runInterp nopHalt64 5).1 = (2, .halted) := by decide
  have hrun32 :
    (X32.runInterp nopHalt32 5).1 = (2, .halted) := by decide
  exact ⟨⟨hrun64, h64.two hcut64 hrun64 (by decide) (by decide)⟩,
    hrun32, h32.two hcut32 hrun32 (by decide) (by decide)⟩

-- ======== translation caches

-- The two cores cache translations under different rules: the 64-bit one has
-- four table formats, three page sizes, CR0.WP, execute protection, INVLPG
-- and a separate cached fetch translation; the 386 has one table format and
-- none of the rest. The law is the same, and it is stated here for both.

/-- Over any run from a flushed cache, on either core, a cached answer is
the answer of a full walk. -/
theorem tlb_sound {β γ : Type} [X64.Bus β] [X64.Ram β] [X32.Bus γ] [X32.Ram γ]
    (s₀ s : X64.Machine β)
    (hs : Relation.ReflTransGen X64.TlbStep s₀.invalidateTlb s)
    (t₀ t : X32.Machine γ)
    (ht : Relation.ReflTransGen X32.TlbStep t₀.invalidateTlb t) :
    s.TlbFaithful ∧ t.TlbFaithful :=
  ⟨(X64.tlbOk_run hs).faithful, (X32.tlbOk_run ht).faithful⟩

/-- Page zero mapped to the frame at 3000 through tables at 1000 and 2000,
for everyone and writable, and nothing marked yet. -/
def onePage {w : Nat} (a : BitVec w) : U8 :=
  if a = 0x1000 then 7 else if a = 0x1001 then 0x20
  else if a = 0x2000 then 7 else if a = 0x2001 then 0x30 else 0

/-- The x86-64 core with one page mapped. -/
def onePage64 : X64.Machine (X64.FlatBus Unit) :=
  { X64.Cpu.new with regs := { X64.Registers.new with cr3 := 0x1000 }, bus := ⟨onePage, ()⟩ }

/-- The 386 core with one page mapped. -/
def onePage32 : X32.Machine (X32.FlatBus Unit) :=
  { X32.Cpu.new with regs := { X32.Registers.new with cr3 := 0x1000 }, bus := ⟨onePage, ()⟩ }

/-- After one write the page is answered for writes, from the frame at
3000, and a walk agrees. -/
theorem tlb_sound_onePage :
    (∃ q s', (X64.walk 0x10 .write).run
        ((X64.translate 0 .write).run onePage64.invalidateTlb).2
        = (.ok q, s') ∧ q.val = 0x3010)
      ∧ ∃ q s', (X32.walk 0x10 true).run
        ((X32.translate 0 true).run onePage32.invalidateTlb).2
        = (.ok q, s') ∧ q.val = 0x3010 := by
  have hapart : onePage64.invalidateTlb.PdpteApart :=
    fun hw => absurd hw (by decide)
  obtain ⟨h64, h32⟩ :=
    tlb_sound onePage64 _ (.single (.translate _ 0 .write hapart))
    onePage32 _ (.single (.translate _ 0 true))
  obtain ⟨-, q, s', hq, hval, -⟩ := h64.hit 0x10 .write (by decide)
  obtain ⟨-, r, t', hr, hval', -⟩ := h32.hit 0x10 true (by decide)
  exact ⟨⟨q, s', hq, hval.trans (by decide)⟩, r, t', hr,
    hval'.trans (by decide)⟩

-- ======== stores

-- The cores store bytes, words and double words alike, the 64-bit one quad
-- words besides. On both a store is all or nothing, comes to the same as
-- storing its bytes one by one, and leaves nothing in the instruction cache
-- that was decoded from the addresses it wrote. The law is stated here for
-- both. The cache goes by addresses and by a clock of 64 bits: a bus that
-- wraps them, as the default memory of 16 MiB does, and a clock that has come
-- round both keep a record alive whose bytes are gone (`stores_stale`).

/-- Every store of either core is lawful, whatever its instruction cache
has been through. -/
theorem stores_lawful {β γ : Type} [X64.Bus β] [X64.WordRam β]
    [X32.Bus γ] [X32.Ram γ]
    (s : X64.Machine β) (hs : s.icache.Reachable) (t : X32.Machine γ)
    (ht : t.icache.Reachable) :
    (∀ z lin v, X64.StoreLaw z lin v s) ∧ ∀ z lin v, X32.StoreLaw z lin v t :=
  ⟨X64.linStore_lawful s hs, X32.linStore_lawful t ht⟩

/-- The 386 core over an empty memory. -/
def empty32 : X32.Machine (X32.FlatBus Unit) :=
  { X32.Cpu.new with bus := ⟨fun _ => 0, ()⟩ }

/-- Tables at 0x1000 and 0x2000. Pages 0 and 1 are both in the frame at
0x3000, and page 2 is nowhere. -/
def folded {w : Nat} (a : BitVec w) : U8 :=
  if a = 0x1000 then 3 else if a = 0x1001 then 0x20
  else if a = 0x2000 then 3 else if a = 0x2001 then 0x30
  else if a = 0x2004 then 3 else if a = 0x2005 then 0x30 else 0

/-- The x86-64 core with two pages mapped to one frame. -/
def folded64 : X64.Machine (X64.FlatBus Unit) :=
  { X64.Cpu.new with
    regs := { X64.Registers.new with cr0 := 0x80000001, cr3 := 0x1000 },
    bus := ⟨folded, ()⟩ }

/-- The tables are not in the frame. -/
theorem folded_tables {l y : U64}
    (hl : l ∈ bytesFrom 0xFFE 4 ++ bytesFrom 0x1FFE 4)
    (hy : y ∈ folded64.tableBytes l) : y >>> 12 ≠ 3 := by
  have hapart :
      ((bytesFrom 0xFFE 4 ++ bytesFrom 0x1FFE 4).flatMap
      folded64.tableBytes).all
      (fun y => y >>> 12 != 3) = true := by
    decide
  exact bne_iff_ne.1
    (List.all_eq_true.1 hapart y (List.mem_flatMap_of_mem hl hy))

/-- With paging a double word across two pages goes to the end and to the
beginning of their frame, as its bytes do one by one, and one that goes on
into a page that is not there stores nothing. Without, a word at the end of
the space goes around it. -/
theorem stores_lawful_wrapping :
    (∃ t, (X64.storeEach (byteStores (bytesFrom 0xFFE 4) (0x44332211 : U32))).run folded64
        = (.ok (), t) ∧ t.bus.mem 0x3FFF = 0x22 ∧ t.bus.mem 0x3000 = 0x33)
      ∧ ((X64.linStore .dword 0x1FFE (0x44332211 : U32)).run
        folded64).2.bus.mem 0x3FFE = 0
      ∧ ∃ t, (X32.storeEach
        (byteStores (bytesFrom 0xFFFFFFFF 2) (0x2211 : U16))).run
        empty32 = (.ok (), t) ∧ t.bus.mem 0 = 0x22 := by
  obtain ⟨h64, h32⟩ := stores_lawful folded64 .new empty32 .new
  refine ⟨?_, ?_, ?_⟩
  · obtain ⟨ps, s₁, hps, -, hbytes, -⟩ :=
      (h64 .dword 0xFFE (0x44332211 : U32)).success
      ((X64.linStore .dword 0xFFE (0x44332211 : U32)).run folded64).2
      (Prod.ext (by decide) rfl)
    have hplaces :
        (X64.locateAll (X64.bytesFrom 0xFFE X64.StoreWidth.dword.bytes)
        folded64).1
        = .ok [0x3FFE, 0x3FFF, 0x3000, 0x3001] := by decide
    rw [hps] at hplaces
    cases hplaces
    have hframe :
        ([0x3FFE, 0x3FFF, 0x3000, 0x3001] : List U64).all
        (fun p => p >>> 12 == 3)
        = true := rfl
    have hapart : folded64.Apart (X64.bytesFrom 0xFFE 4)
      [0x3FFE, 0x3FFF, 0x3000, 0x3001] := by
      rintro p hp l hl y hy (rfl : p = y)
      exact folded_tables (List.mem_append_left _ hl) hy
        (beq_iff_eq.1 (List.all_eq_true.1 hframe p hp))
    obtain ⟨t, ht, hbytes⟩ := hbytes hapart
    exact ⟨t, ht, (hbytes 0x3FFF).symm.trans (by decide),
      (hbytes 0x3000).symm.trans (by decide)⟩
  · obtain ⟨hmarks, -⟩ := (h64 .dword 0x1FFE (0x44332211 : U32)).fault (.pf 2)
      ((X64.linStore .dword 0x1FFE (0x44332211 : U32)).run folded64).2
      (Prod.ext (by decide) rfl)
    refine (hmarks.outside 0x3FFE ?_).trans (by decide)
    rintro l hl y hy (rfl : (0x3FFE : U64) = y)
    exact folded_tables (List.mem_append_right _ hl)
      (List.mem_append_left _ hy) rfl
  · obtain ⟨qs, _, -, -, hbytes, -⟩ :=
      (h32 .word 0xFFFFFFFF (0x2211 : U16)).success _ rfl
    -- Without paging there are no tables to keep clear of.
    obtain ⟨u, hu, hbytes⟩ :=
      hbytes fun _ _ _ _ _ hy => absurd hy List.not_mem_nil
    exact ⟨u, hu, (hbytes 0).symm.trans (by decide)⟩

/-- A cache that answers the NOP at physical address 0. -/
def cachedNop : X64.ICache :=
  X64.ICache.new.fill 0 X64.Cpu.new.icacheCtx { X64.DecodedInsn.default with op := .Nop, len := 1 }

/-- A cache that holds a decoded NOP can be reached. -/
theorem reachable_cachedNop : cachedNop.Reachable := .fill .new _ _ _

/-- The NOP in the default memory of 16 MiB. -/
def aliasedNop : X64.Machine (X64.LinearMemory 8) :=
  { X64.Cpu.new with icache := cachedNop, bus := ⟨fun _ => 0x90⟩ }

/-- The NOP in flat memory, with the cache after `n` invalidations. -/
def agedNop (n : Nat) : X64.Machine (X64.FlatBus Unit) :=
  { X64.Cpu.new with
    icache := X64.ICache.invalidateAll^[n] cachedNop,
    bus := ⟨fun _ => 0x90, ()⟩ }

/-- A cache with a decoded NOP can be reached at any age. -/
theorem reachable_agedNop (n : Nat) : (agedNop n).icache.Reachable :=
  reachable_cachedNop.iterate n

/-- The clock has come to `n + 2`, of which the last invalidation has the low
64 bits. -/
theorem agedNop_eq (n : Nat) : agedNop (n + 1) = { X64.Cpu.new with
    icache := { cachedNop with clock := 1 + (n + 1), inval := BitVec.ofNat 64 (1 + (n + 1)) }
    bus := ⟨fun _ => 0x90, ()⟩ } := by
  rw [agedNop, X64.ICache.invalidateAll_iterate]
  rfl

/-- A byte store of `v` to `lin` changes the byte at 0, and the record of the
instruction there outlives it. -/
def Outlived {β : Type} [X64.Bus β] [X64.Ram β] (lin : U64) (v : U8)
    (s : X64.Machine β) : Prop :=
  s.icache.Reachable ∧ ∃ s' d, (X64.linStore .byte lin v).run s = (.ok (), s')
    ∧ s'.probeAt 0 = some d ∧ 0 < d.len.toNat
    ∧ byte s'.bus (0 : U64) ≠ byte s.bus (0 : U64)

/-- A store to the alias of address 0 beyond the end of the default memory
kills nothing there, and neither does a store to address 0 itself behind a
clock that has wrapped. -/
theorem stores_stale :
    Outlived 0x1000000 0xF4 aliasedNop
      ∧ Outlived 0 0xF4 (agedNop (2 ^ 64 - 2 + 1)) := by
  constructor
  · exact ⟨reachable_cachedNop, _, _, Prod.ext (by decide) rfl,
      rfl, by decide, by decide⟩
  · refine ⟨reachable_agedNop _, ?_⟩
    rw [agedNop_eq]
    exact ⟨_, _, Prod.ext rfl rfl, rfl, by decide, by decide⟩

-- ======== cycles of string instructions

-- An activation gives 5 cycles and 4 for every element, in a word of 32 bits.
-- The exact number fits for 1073741822 elements; the loop is bounded by the
-- count register alone where nothing is pending, so that it can run longer,
-- and the word wraps (`lods_cycles_wrap`). A step adds to the counter what its
-- instruction returns. An element that fails takes the number with it, so
-- that the elements before it are not counted. A run counts every cycle where
-- its loops end while the word has room, and fail at their first element or
-- not at all.

/-- The cycles of an activation are exact if and only if its loop ends within
1073741822 elements, or fails. In every run whose repeated string
instructions end while their words have room, and on the 64-bit core no WRMSR
sets it, the counter has risen by the exact number, whether the embedder
steps or the run loop does. -/
theorem rep_cycles_exact_iff (β₁ β₂ : Type) [X64.Bus β₁] [X32.Bus β₂] :
    (∀ (one : X64.Calm β₁ Unit) (cmp z : Bool) (s : X64.Machine β₁),
        s.rep = some z →
        (X64.CyclesExact one cmp z s
          ↔ X64.RepEndsWithin one cmp z 1073741822 s
            ∨ X64.RepFails one cmp z s))
      ∧ (∀ (one : X32.Calm β₂ Unit) (cmp z : Bool) (s : X32.Machine β₂),
        s.rep = some z →
        (X32.CyclesExact one cmp z s
          ↔ X32.RepEndsWithin one cmp z 1073741822 s
            ∨ X32.RepFails one cmp z s))
      ∧ (∀ (s : X64.Machine β₁) (n : Nat),
        (∀ i < n, (s.after i).RepInRoom ∧ (s.after i).SparesTsc) →
        (s.after n).cycles = s.cycles + BitVec.ofNat 64 (s.charges n)
          ∧ (X64.runInterp s n).2.cycles
            = s.cycles + BitVec.ofNat 64 (s.charges (X64.runInterp s n).1.1))
      ∧ ∀ (s : X32.Machine β₂) (n : Nat), (∀ i < n, (s.after i).RepInRoom) →
        (s.after n).cycles = s.cycles + BitVec.ofNat 64 (s.charges n)
          ∧ (X32.runInterp s n).2.cycles
            = s.cycles + BitVec.ofNat 64 (s.charges (X32.runInterp s n).1.1) :=
  ⟨fun one cmp z _ hrep => X64.cyclesExact_iff one cmp z hrep,
    fun one cmp z _ hrep => X32.cyclesExact_iff one cmp z hrep,
    fun _ _ h => ⟨X64.cycles_after h, X64.cycles_runInterp h⟩,
    fun _ _ h => ⟨X32.cycles_after h, X32.cycles_runInterp h⟩⟩

/-- REP LODSB at address zero, and zeros behind it. -/
def repCode {w : Nat} (a : BitVec w) : U8 :=
  if a = 0 then 0xF3 else if a = 1 then 0xAC else 0

/-- The x86-64 core before a repeated string instruction. -/
def repProgram64 : X64.Machine (X64.FlatBus Unit) :=
  { X64.Cpu.new with
    regs := { X64.Registers.new with
      gpr := fun i => if i = X64.reg.RCX then 3 else 0
      seg := fun _ => X64.SegReg.real 0
      rip := 0 }
    bus := ⟨repCode, ()⟩ }

/-- The 386 core before the same. -/
def repProgram32 : X32.Machine (X32.FlatBus Unit) :=
  { X32.Cpu.new with
    regs := { X32.Registers.new with
      gpr := fun i => if i = X32.reg.ECX then 3 else 0
      seg := fun _ => X32.SegReg.real 0
      eip := 0 }
    bus := ⟨repCode, ()⟩ }

/-- On either core three bytes take 18 cycles, one of them the prefix, and
the ADD behind them is counted on top. -/
theorem rep_cycles_exact_lods :
    X32.CyclesExact (X32.lods X32.str8) false true (X32.repLods 3)
      ∧ (repProgram64.after 1).cycles = 18 ∧ (repProgram32.after 1).cycles = 18
      ∧ (X64.runInterp repProgram64 2).2.cycles = 25
      ∧ (X32.runInterp repProgram32 2).2.cycles = 25 := by
  obtain ⟨-, hexact, hrun64, hrun32⟩ :=
    rep_cycles_exact_iff (X64.FlatBus Unit) (X32.FlatBus Unit)
  have hlods :
    X32.CyclesExact (X32.lods X32.str8) false true (X32.repLods 3) := by
    refine (hexact _ false true _ rfl).2
      (Repetition.elements_le_iff.1 fun k t hk => ?_)
    obtain ⟨t', ht'⟩ := X32.repLods_elements 3
    cases ht'.symm.trans hk
    decide
  have h64 : ∀ i < 2, (repProgram64.after i).RepInRoom
    ∧ (repProgram64.after i).SparesTsc := by
    have hspares : ∀ s : X64.Machine (X64.FlatBus Unit),
        (s.executing.map fun t => (X64.secondByte t.begin.resetDecode).1)
          = some (.ok none) →
        s.SparesTsc := by
      rintro s h t hx ⟨-, u, hu, -⟩
      rw [hx, Option.map_some, hu] at h
      cases h
    intro i hi
    match i, hi with
    | 0, _ =>
      exact ⟨X64.Machine.repInRoom_of_ok (c := 1) (k := 3)
        (by decide) (by decide), hspares _ (by decide +kernel)⟩
    | 1, _ => exact ⟨X64.Machine.repInRoom_of_isNone (by decide),
        hspares _ (by decide)⟩
  have h32 : ∀ i < 2, (repProgram32.after i).RepInRoom := by
    intro i hi
    match i, hi with
    | 0, _ =>
      exact X32.Machine.repInRoom_of_ok (c := 1) (k := 3)
        (by decide) (by decide)
    | 1, _ => exact X32.Machine.repInRoom_of_isNone (by decide)
  refine ⟨hlods, ?_, ?_, ?_, ?_⟩
  · refine (hrun64 repProgram64 1 fun i hi => h64 i (by omega)).1.trans ?_
    decide
  · refine (hrun32 repProgram32 1 fun i hi => h32 i (by omega)).1.trans ?_
    decide
  · refine (hrun64 repProgram64 2 h64).2.trans ?_
    decide
  · refine (hrun32 repProgram32 2 h32).2.trans ?_
    decide

/-- After 1073741823 bytes the word has wrapped to 1. -/
theorem lods_cycles_wrap :
    (∃ t, (X32.stringOp (X32.lods X32.str8) false).run (X32.repLods 0x3FFFFFFF)
      = (.ok 1, t))
      ∧ ¬X32.CyclesExact (X32.lods X32.str8) false true
        (X32.repLods 0x3FFFFFFF) := by
  obtain ⟨t, ht⟩ := X32.repLods_elements 0x3FFFFFFF
  have hrun :=
    X32.run_stringOp_elements (X32.lods X32.str8) false true
      (s := X32.repLods 0x3FFFFFFF) rfl
  rw [ht] at hrun
  refine ⟨⟨t, hrun⟩, fun hexact => ?_⟩
  obtain ⟨k, -, hk⟩ := hexact _ t hrun
  have hone : (BitVec.ofNat 32 (5 + 4 * (0x3FFFFFFF : U32).toNat)).toNat
    = 1 := by decide
  rw [hone] at hk
  omega

-- ======== stack frames

-- LEAVE always undoes ENTER where it should. ENTER finds its display by the
-- operand size, and so misses it where the stack's addresses are wider and the
-- frame pointer is beyond the reach of the operand.

/-- An ENTER that completes on either core, and the LEAVE after it, obey
their laws exactly when the display is within reach. -/
theorem enter_leave_lawful_iff {β γ : Type} [X32.Bus β] [X64.Bus γ] :
    (∀ (s t : X32.Machine β) (cost : U32), X32.enterArm.run s = (.ok cost, t) →
      ∃ alloc level s', X32.enterOperands.run s = (.ok (alloc, level), s')
        ∧ s'.regs.gpr = s.regs.gpr
        ∧ (X32.EnterLaw alloc level s' t ∧ X32.LeaveLaw s' t
          ↔ s'.DisplayInReach level))
      ∧ (∀ (s t : X64.Machine γ) (cost : U32),
        X64.enterArm.run s = (.ok cost, t) →
        ∃ alloc level s', X64.enterOperands.run s = (.ok (alloc, level), s')
          ∧ s'.regs.gpr = s.regs.gpr
          ∧ (X64.EnterLaw alloc level s' t ∧ X64.LeaveLaw s' t
            ↔ s'.DisplayInReach level)) :=
  ⟨fun _ _ _ h => X32.enter_lawful_iff h,
    fun _ _ _ h => X64.enter_lawful_iff h⟩

/-- Flat protected mode with a 32-bit stack at 0x30000 and the frame pointer
at `bp`, before the operands of ENTER 0, 2 with 16-bit operands. The display
below 0x20000 holds 0x1234, and 64K further down there is 0xBEEF. -/
def nested32 (bp : U32) : X32.Machine (X32.FlatBus Unit) :=
  { X32.Cpu.new with
    regs := { X32.Registers.new with
      cr0 := 1
      eip := 0
      gpr := fun i => if i = X32.reg.ESP then 0x30000 else if i = X32.reg.EBP
        then bp else 0
      seg := fun _ => { sel := 8, base := 0, limit := 0xFFFFFFFF, attrs := 0xC93 } }
    bus := ⟨fun a => if a = 2 then 2 else if a = 0x1FFFE then 0x34 else if a = 0x1FFFF then 0x12
      else if a = 0xFFFE then 0xEF else if a = 0xFFFF then 0xBE else 0, ()⟩ }

/-- The x86-64 core before ENTER with a display. -/
def nested64 (bp : U64) : X64.Machine (X64.FlatBus Unit) :=
  { X64.Cpu.new with
    regs := { X64.Registers.new with
      cr0 := 1
      rip := 0
      gpr := fun i => if i = X64.reg.RSP then 0x30000 else if i = X64.reg.RBP
        then bp else 0
      seg := fun _ => { sel := 8, base := 0, limit := 0xFFFFFFFF, attrs := 0xC93 } }
    bus := ⟨fun a => if a = 2 then 2 else if a = 0x1FFFE then 0x34 else if a = 0x1FFFF then 0x12
      else if a = 0xFFFE then 0xEF else if a = 0xFFFF then 0xBE else 0, ()⟩ }

/-- With the frame pointer below 64K and a slot the display is found. -/
theorem enter_leave_lawful_within :
    (X32.EnterLaw 0 2 (X32.enterOperands.run (nested32 0x10001)).2
        (X32.enterArm.run (nested32 0x10001)).2
        ∧ X32.LeaveLaw (X32.enterOperands.run (nested32 0x10001)).2
          (X32.enterArm.run (nested32 0x10001)).2)
      ∧ X64.EnterLaw 0 2 (X64.enterOperands.run (nested64 0x10001)).2
        (X64.enterArm.run (nested64 0x10001)).2
      ∧ X64.LeaveLaw (X64.enterOperands.run (nested64 0x10001)).2
        (X64.enterArm.run (nested64 0x10001)).2 := by
  obtain ⟨h32, h64⟩ :=
    enter_leave_lawful_iff (β := X32.FlatBus Unit) (γ := X64.FlatBus Unit)
  constructor
  · obtain ⟨alloc, level, s', hops, -, hiff⟩ :=
      h32 (nested32 0x10001) _ 18 (Prod.ext (by decide) rfl)
    have hargs : (X32.enterOperands.run (nested32 0x10001)).1
      = .ok (0, 2) := by decide
    rw [hops] at hargs ⊢
    cases hargs
    refine hiff.mpr (.inr (.inr (.inr ?_)))
    rw [show s' = (X32.enterOperands.run (nested32 0x10001)).2 by rw [hops]]
    decide
  · obtain ⟨alloc, level, s', hops, -, hiff⟩ :=
      h64 (nested64 0x10001) _ 18 (Prod.ext (by decide) rfl)
    have hargs : (X64.enterOperands.run (nested64 0x10001)).1
      = .ok (0, 2) := by decide
    rw [hops] at hargs ⊢
    cases hargs
    refine hiff.mpr (.inr (.inr ?_))
    rw [show s' = (X64.enterOperands.run (nested64 0x10001)).2 by rw [hops]]
    decide

/-- With the frame pointer at 0x20000 the word copied comes from 64K below
the display. -/
theorem enter_display_missed :
    ((X32.enterArm.run (nested32 0x20000)).1 = .ok 18
        ∧ (X32.enterOperands.run (nested32 0x20000)).1 = .ok (0, 2)
        ∧ ((X32.readSized false (.mem X32.reg.SS 0x1FFFE)).run
          (nested32 0x20000)).1 = .ok 0x1234
        ∧ ((X32.readSized false (.mem X32.reg.SS 0x2FFFC)).run
          (X32.enterArm.run (nested32 0x20000)).2).1 = .ok 0xBEEF
        ∧ ¬ X32.EnterLaw 0 2 (X32.enterOperands.run (nested32 0x20000)).2
          (X32.enterArm.run (nested32 0x20000)).2)
      ∧ (X64.enterArm.run (nested64 0x20000)).1 = .ok 18
      ∧ (X64.enterOperands.run (nested64 0x20000)).1 = .ok (0, 2)
      ∧ ((X64.readSized .O16 (.mem X64.reg.SS 0x1FFFE)).run
        (nested64 0x20000)).1 = .ok 0x1234
      ∧ ((X64.readSized .O16 (.mem X64.reg.SS 0x2FFFC)).run
        (X64.enterArm.run (nested64 0x20000)).2).1 = .ok 0xBEEF
      ∧ ¬ X64.EnterLaw 0 2 (X64.enterOperands.run (nested64 0x20000)).2
        (X64.enterArm.run (nested64 0x20000)).2 := by
  refine ⟨⟨by decide, by decide +kernel, by decide +kernel, by
    decide, fun hlaw => ?_⟩,
    by
      decide, by
        decide, by decide +kernel, by decide +kernel, fun hlaw => ?_⟩
  · have hrun : X32.enterArm.run (nested32 0x20000)
      = (.ok 18, (X32.enterArm.run (nested32 0x20000)).2) :=
      Prod.ext (by decide) rfl
    obtain ⟨alloc, level, s', hops, -, hiff⟩ := X32.enter_lawful_iff hrun
    have hargs : (X32.enterOperands.run (nested32 0x20000)).1
      = .ok (0, 2) := by decide
    rw [hops] at hargs hlaw
    cases hargs
    obtain ⟨_, _, _, _, hent⟩ := hlaw
    have hreach := hiff.mp ⟨⟨_, _, _, _, hent⟩, X32.leave_lawful hent⟩
    rw [show s' = (X32.enterOperands.run (nested32 0x20000)).2 by rw [hops]] at hreach
    revert hreach
    unfold X32.Machine.DisplayInReach
    decide
  · have hrun : X64.enterArm.run (nested64 0x20000)
      = (.ok 18, (X64.enterArm.run (nested64 0x20000)).2) :=
      Prod.ext (by decide) rfl
    obtain ⟨alloc, level, s', hops, -, hiff⟩ := X64.enter_lawful_iff hrun
    have hargs : (X64.enterOperands.run (nested64 0x20000)).1
      = .ok (0, 2) := by decide
    rw [hops] at hargs hlaw
    cases hargs
    obtain ⟨_, _, _, _, hent⟩ := hlaw
    have hreach := hiff.mp ⟨⟨_, _, _, _, hent⟩, X64.leave_lawful hent⟩
    rw [show s' = (X64.enterOperands.run (nested64 0x20000)).2 by rw [hops]] at hreach
    revert hreach
    unfold X64.Machine.DisplayInReach
    decide

-- ======== bit strings

-- Which bit of memory a pair of offset and index names depends on their sum
-- alone, whatever the operand size, up to the edge of what can be addressed.
-- An element that starts at the last offset goes on past it, so there a bit
-- beyond the edge is not the one that the wrapped sum names.

/-- Bit tests name their bits by offset and index, and change no others,
wherever the TLB agrees with the page tables. -/
theorem bit_strings {β γ : Type} [X32.Bus β] [X32.Ram β]
    [X64.Bus γ] [X64.WordRam γ] :
    (∀ s : X32.Machine β, s.TlbShows → s.BitStringLaw)
      ∧ (∀ s : X64.Machine γ, s.TlbShows → s.BitStringLaw) :=
  ⟨fun _ h => X32.bt_lawful h, fun _ h => X64.bt_lawful h⟩

/-- Flat protected mode before the operands of a bit test of the word at BX
and the index in AX, with the operand's segment at `base`. The only bits set
are those of the operand byte at 0. -/
def bitString32 (base bx ax : U32) : X32.Machine (X32.FlatBus Unit) :=
  { X32.Cpu.new with
    regs := { X32.Registers.new with
      cr0 := 1
      eip := 0
      gpr := fun i => if i = X32.reg.EBX then bx else if i = X32.reg.EAX
        then ax else 0
      seg := fun i => { sel := 8, base := if i = X32.reg.DS then base else 0,
                        limit := 0xFFFFFFFF, attrs := 0xC93 } }
    bus := ⟨fun a => if a = 0 then 7 else 0, ()⟩ }

/-- The x86-64 core before a bit test of a memory operand. -/
def bitString64 (base bx ax : U64) : X64.Machine (X64.FlatBus Unit) :=
  { X64.Cpu.new with
    regs := { X64.Registers.new with
      cr0 := 1
      rip := 0
      gpr := fun i => if i = X64.reg.RBX then bx else if i = X64.reg.RAX
        then ax else 0
      seg := fun i => { sel := 8, base := if i = X64.reg.DS then base else 0,
                        limit := 0xFFFFFFFF, attrs := 0xC93 } }
    bus := ⟨fun a => if a = 0 then 7 else 0, ()⟩ }

/-- Index -15 from offset 2 is bit 1 of the segment. -/
theorem bit_strings_negative :
    BitTest ((bitString32 0 2 0xFFF1).IsMark
          ((bitString32 0 2 0xFFF1).elementBytes X32.reg.DS 2 0xFFFFFFF1))
        (X32.modrm.run (bitString32 0 2 0xFFF1)).2.bus
        ((X32.btRegIndex 2).run (bitString32 0 2 0xFFF1)).2.bus 2 0 1 true
      ∧ BitTest ((bitString64 0 2 0xFFF1).IsMark
          ((bitString64 0 2 0xFFF1).elementBytes X64.reg.DS 2
            0xFFFFFFFFFFFFFFF1))
        (X64.modrm.run (bitString64 0 2 0xFFF1)).2.bus
        ((X64.btRegIndex 2).run (bitString64 0 2 0xFFF1)).2.bus 2 0
          1 true := by
  obtain ⟨h32, h64⟩ :=
    bit_strings (β := X32.FlatBus Unit) (γ := X64.FlatBus Unit)
  constructor
  · have hop : X32.modrm.run (bitString32 0 2 0xFFF1)
        = (.ok (⟨7⟩, .mem X32.reg.DS 2),
          (X32.modrm.run (bitString32 0 2 0xFFF1)).2) :=
      Prod.ext (by decide) rfl
    have hrun : (X32.btRegIndex 2).run (bitString32 0 2 0xFFF1)
        = (.ok 8, ((X32.btRegIndex 2).run (bitString32 0 2 0xFFF1)).2) :=
      Prod.ext (by decide) rfl
    obtain ⟨p, k, hname, htest⟩ :=
      (h32 _ fun hp => absurd hp (by decide)).run hop hrun
    rw [show (bitString32 0 2 0xFFF1).regs.signedSized _ _
      = 0xFFFFFFF1 by decide]
      at hname htest
    rw [show (bitString32 0 2 0xFFF1).bitNamed _ _ _ _
      = some (0, 1) by decide] at hname
    rw [show ((X32.btRegIndex 2).run (bitString32 0 2 0xFFF1)).2.regs.eflags.contains X32.EFlags.CF
      = true by decide] at htest
    cases hname
    exact htest
  · have hop : X64.modrm.run (bitString64 0 2 0xFFF1)
        = (.ok (⟨7, 0, 0⟩, .mem X64.reg.DS 2),
          (X64.modrm.run (bitString64 0 2 0xFFF1)).2) :=
      Prod.ext (by decide) rfl
    have hrun : (X64.btRegIndex 2).run (bitString64 0 2 0xFFF1)
        = (.ok 8, ((X64.btRegIndex 2).run (bitString64 0 2 0xFFF1)).2) :=
      Prod.ext (by decide) rfl
    obtain ⟨p, k, hname, htest⟩ :=
      (h64 _ fun hp => absurd hp (by decide)).run hop hrun
    rw [show (bitString64 0 2 0xFFF1).regs.signedSized _ _
      = 0xFFFFFFFFFFFFFFF1 by decide]
      at hname htest
    rw [show (bitString64 0 2 0xFFF1).bitNamed _ _ _ _
      = some (0, 1) by decide] at hname
    rw [show ((X64.btRegIndex 2).run (bitString64 0 2 0xFFF1)).2.regs.rflags.contains X64.RFlags.CF
      = true by decide] at htest
    cases hname
    exact htest

/-- CF after a test that completes. -/
def bitString32Carry (base bx ax : U32) : Option Bool :=
  match (X32.btRegIndex 0).run (bitString32 base bx ax) with
  | (.ok _, s') => some (s'.regs.eflags.contains X32.EFlags.CF)
  | (.error _, _) => none

/-- The bit it finds. -/
def bitString64Carry (base bx ax : U64) : Option Bool :=
  match (X64.btRegIndex 0).run (bitString64 base bx ax) with
  | (.ok _, s') => some (s'.regs.rflags.contains X64.RFlags.CF)
  | (.error _, _) => none

/-- The 32-bit machine with paging: page 4 is mapped to itself, and where it
was before, at 0x5000, all bits but one are set. -/
def pagedString (tlb : X32.Tlb) : X32.Machine (X32.FlatBus Unit) :=
  { bitString32 0 0x4000 0 with
    regs := { (bitString32 0 0x4000 0).regs with cr0 := 0x80000001, cr3 := 0x1000 }
    tlb
    bus := ⟨fun a => if a = 0 then 7 else if a = 0x1000 then 3 else if a = 0x1001 then 0x20
      else if a = 0x2000 then 3 else if a = 0x2010 then 3
        else if a = 0x2011 then 0x40
      else if a = 0x5000 then 0xFE else 0, ()⟩ }

/-- A TLB that has not been told that page 4 has moved. -/
def staleTlb : X32.Tlb where
  entries := upd X32.Tlb.new.entries 4
    { tag := 4, phys := 0x5000, user := false, writable := true,
      dirty := false, framed := by decide }

/-- Index 8 from the last 16-bit offset and index 16 from the one before have
one sum and test different bits, on either core; in legacy modes the last
linear address has the same effect. And a test may set the accessed bit of a
page, and write a word to another page than it was read from. -/
theorem bit_strings_parted :
    (bitNumber 16 (0xFFFF : U32) 8 = bitNumber 16 (0xFFFE : U32) 16
        ∧ bitString32Carry 0 0xFFFF 8 = some false
        ∧ bitString32Carry 0 0xFFFE 16 = some true)
      ∧ (bitNumber 16 (0xFFFF : U64) 8 = bitNumber 16 (0xFFFE : U64) 16
        ∧ bitString64Carry 0 0xFFFF 8 = some false
        ∧ bitString64Carry 0 0xFFFE 16 = some true)
      ∧ (bitNumber 16 (0 : U64) 8 = bitNumber 16 (1 : U64) 0
        ∧ bitString64Carry 0xFFFFFFFF 0 8 = some false
        ∧ bitString64Carry 0xFFFFFFFF 1 0 = some true)
      ∧ (((X32.btRegIndex 0).run (pagedString .new)).1 = .ok 8
      ∧ (pagedString .new).bus.mem 0x2010 = 0x03
        ∧ ((X32.btRegIndex 0).run (pagedString .new)).2.bus.mem 0x2010 = 0x23)
      ∧ ((X32.btRegIndex 1).run (pagedString staleTlb)).1 = .ok 8
      ∧ (pagedString staleTlb).bus.mem 0x4000 = 0
      ∧ ((X32.btRegIndex 1).run (pagedString staleTlb)).2.bus.mem 0x4000
        = 0xFF := by
  decide

end Remu
