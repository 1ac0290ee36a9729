/-
What a stamped store leaves of the instruction cache.

An entry answers a probe only if it is not older than the stamp of its
page. In every cache the processor can have, no entry is dated ahead of
the store clock and the instruction of a live entry ends in the page it
starts in. So behind a store no probe finds an instruction with a byte in
a page the store has stamped, whatever memory holds there.
-/
import Remu.Lib.Stamped
import Remu.X32.Step

namespace Remu.X32

open Word

-- ======== dates

namespace ICache

/-- The cache with its dates as numbers. -/
def dated (c : ICache) : Stamped U32 U32 Entry where
  entry := c.entries
  version i := (c.entries i).version.toNat
  stamp p := (c.stamps p).toNat
  clock := c.clock
  inval := c.inval.toNat

/-- A stamp is the clock while that has not wrapped. -/
theorem now_toNat {c : ICache} (h : c.clock < 2 ^ 64) :
    c.now.toNat = c.clock :=
  BitVec.toNat_ofNat .. ▸ Nat.mod_eq_of_lt h

/-- The cache as a history of dates: a stamped store is a touch of its slot. -/
theorem dated_stampWrite {c : ICache} (a : U32)
    (h : (c.stampWrite a).clock < 2 ^ 64) :
    (c.stampWrite a).dated = c.dated.touch (stampSlot a) := by
  have hnow : c.tick.now.toNat = c.clock + 1 := now_toNat (c := c.tick) h
  have hstamp : (fun p => (upd c.stamps (stampSlot a) c.tick.now p).toNat)
      = Function.update (fun p => (c.stamps p).toNat) (stampSlot a)
        (c.clock + 1) := by
    rw [upd_eq_update, ← hnow]
    exact Function.comp_update BitVec.toNat c.stamps _ _
  show Stamped.mk _ _ _ _ _ = Stamped.mk _ _ _ _ _
  exact congrArg (fun f => Stamped.mk (P := U32) (I := U32) c.entries
    (fun i => (c.entries i).version.toNat) f (c.clock + 1) c.inval.toNat) hstamp

/-- The slots a store from `first` to `last` stamps. -/
def spanSlots (first last : U32) : List U32 :=
  if first >>> 12 ≠ last >>> 12 then [stampSlot first, stampSlot last]
    else [stampSlot first]

/-- A store over two pages touches both slots. -/
theorem dated_stampWriteSpan {c : ICache} (first last : U32)
    (h : (c.stampWriteSpan first last).clock < 2 ^ 64) :
    (c.stampWriteSpan first last).dated
      = c.dated.touchAll (spanSlots first last) := by
  unfold stampWriteSpan spanSlots at *
  dsimp only at h ⊢
  split at h
  case isTrue hne =>
    have hfirst : (c.stampWrite first).clock < 2 ^ 64 := Nat.lt_of_succ_lt h
    rw [if_pos hne, if_pos hne, dated_stampWrite last h,
      dated_stampWrite first hfirst]
    rfl
  case isFalse heq =>
    rw [if_neg heq, if_neg heq, dated_stampWrite first h]
    rfl

/-- An invalidation dates everything. -/
theorem dated_invalidateAll {c : ICache} (h : c.invalidateAll.clock < 2 ^ 64) :
    c.invalidateAll.dated = c.dated.invalidate := by
  have hnow : c.tick.now.toNat = c.clock + 1 := now_toNat (c := c.tick) h
  exact congrArg (Stamped.mk (P := U32) (I := U32) c.entries
    (fun i => (c.entries i).version.toNat) (fun p => (c.stamps p).toNat)
      (c.clock + 1)) hnow

/-- A record filled in is dated now. -/
theorem dated_fill {c : ICache} (i : U32) {e : Entry} (he : e.version = c.now)
    (h : c.clock < 2 ^ 64) :
    ICache.dated { c with entries := upd c.entries i e }
      = c.dated.fill i e := by
  have hversion : (fun j => (upd c.entries i e j).version.toNat)
      = Function.update (fun j => (c.entries j).version.toNat) i c.clock := by
    have hnow : e.version.toNat = c.clock := he ▸ now_toNat h
    rw [upd_eq_update, ← hnow]
    exact Function.comp_update (fun e : Entry => e.version.toNat) c.entries _ e
  show Stamped.mk _ _ _ _ _ = Stamped.mk _ _ _ _ _
  rw [hversion, upd_eq_update]
  rfl

/-- The stamped slots are those of the two pages. -/
theorem mem_spanSlots {first last a : U32} :
    stampSlot a ∉ spanSlots first last → a >>> 12 ≠ first >>> 12
      ∧ a >>> 12 ≠ last >>> 12 := by
  intro h
  have hslot : ∀ {x : U32}, a >>> 12 = x >>> 12 → stampSlot a = stampSlot x :=
    fun hx => congrArg (· &&& (STAMP_SLOTS - 1)) hx
  unfold spanSlots at h
  split at h
  case isTrue =>
    exact ⟨fun hx => h (hslot hx ▸ List.mem_cons_self),
      fun hx => h (hslot hx ▸ List.mem_cons_of_mem _ List.mem_cons_self)⟩
  case isFalse heq =>
    have hfirst : a >>> 12 ≠ first >>> 12 :=
      fun hx => h (hslot hx ▸ List.mem_cons_self)
    exact ⟨hfirst, not_ne_iff.1 heq ▸ hfirst⟩

end ICache

-- ======== reachable caches

/-- A cache the processor can have: the one it starts with, and those that
stamped stores, invalidations and fills make of it. -/
inductive ICache.Reachable : ICache → Prop
  | new : Reachable new
  | store {c : ICache} (h : Reachable c) (first last : U32) :
      Reachable (c.stampWriteSpan first last)
  | invalidate {c : ICache} (h : Reachable c) : Reachable c.invalidateAll
  | fill {c : ICache} (h : Reachable c) (cpu : Cpu) (phys : U32)
      (d : DecodedInsn) :
      Reachable (c.fill phys cpu.icacheCtx d)

/-- The address bits of a key. -/
def Entry.phys (e : Entry) : U32 := e.key.setWidth 32

/-- The stamp slot an entry is compared with. -/
def Entry.line (e : Entry) : U32 := ICache.stampSlot e.phys

/-- The instruction of an entry ends in the page it starts in. -/
def Entry.InPage (e : Entry) : Prop :=
  (e.phys &&& 0xFFF).toNat + e.insn.len.toNat ≤ 0x1000

/-- The context bits of a key are above every address. -/
theorem Cpu.icacheCtx_low (c : Cpu) : c.icacheCtx &&& 0xFFFFFFFF = 0 := by
  have hshl : ∀ (x m : U64) (k : Nat), (m <<< k) &&& 0xFFFFFFFF = 0 →
      ((x &&& m) <<< k) &&& 0xFFFFFFFF = 0 := by
    intro x m k h
    rw [BitVec.shiftLeft_and_distrib, BitVec.and_assoc, h]
    exact BitVec.and_zero
  unfold icacheCtx
  rw [BitVec.and_or_distrib_right, BitVec.and_or_distrib_right,
    BitVec.and_or_distrib_right, hshl _ _ _ (by decide),
    hshl _ _ _ (by decide), hshl _ _ _ (by decide)]
  cases c.extensions <;> rfl

/-- The low half of a key is its address. -/
theorem key_phys (phys : U32) (c : Cpu) :
    (phys.setWidth 64 ||| c.icacheCtx).setWidth 32 = phys := by
  refine BitVec.eq_of_getLsbD_eq fun i hi => ?_
  have hbit := congrArg (fun x : U64 => x.getLsbD i) c.icacheCtx_low
  have hones : (0xFFFFFFFF : U64).getLsbD i = true := by
    rw [show (0xFFFFFFFF : U64) = (BitVec.allOnes 32).setWidth 64 from rfl,
      BitVec.getLsbD_setWidth, BitVec.getLsbD_allOnes, decide_eq_true hi,
      decide_eq_true (show i < 64 by omega)]
    rfl
  simp only [BitVec.getLsbD_and, hones, Bool.and_true] at hbit
  rw [BitVec.getLsbD_setWidth, decide_eq_true hi, Bool.true_and,
    BitVec.getLsbD_or, BitVec.getLsbD_setWidth,
    decide_eq_true (show i < 64 by omega), Bool.true_and, hbit]
  simp

namespace ICache

variable {c : ICache}

/-- Every stamped store advances the clock. -/
theorem clock_stampWriteSpan (c : ICache) (first last : U32) :
    c.clock < (c.stampWriteSpan first last).clock := by
  unfold stampWriteSpan
  dsimp only
  split
  · exact Nat.lt_add_of_pos_right (n := c.clock) (k := 2) (by decide)
  · exact Nat.lt_succ_self c.clock

/-- While the store clock has not wrapped, no entry is dated ahead of it
and what is live stays in its page. -/
theorem Reachable.coherent (h : c.Reachable) (hclock : c.clock < 2 ^ 64) :
    c.dated.Coherent Entry.line (fun (_ : Unit) e => e.InPage) () := by
  induction h with
  | new =>
    exact ⟨⟨fun _ => Nat.zero_le _, Nat.le_refl _, fun _ => Nat.zero_le _⟩,
      fun _ hl => absurd (show (1 : Nat) ≤ 0 from hl.2) (by decide)⟩
  | @store c _ first last ih =>
    rw [dated_stampWriteSpan first last hclock]
    exact (ih ((c.clock_stampWriteSpan first last).trans hclock)).store
      fun _ _ hin => hin
  | invalidate _ ih =>
    rw [dated_invalidateAll hclock]
    exact .invalidate (ih (Nat.lt_of_succ_lt hclock)).toDated
  | @fill c _ cpu phys d ih =>
    unfold ICache.fill at *
    split at hclock
    case isTrue hcross =>
      rw [if_pos hcross]
      exact ih hclock
    case isFalse hfits =>
      rw [if_neg hfits, dated_fill (c := c) (entrySlot phys) rfl hclock]
      refine (ih hclock).fill (entrySlot phys) ?_
      rw [Entry.InPage, Entry.phys, key_phys]
      exact Nat.le_of_not_lt hfits

/-- What a probe still finds after a stamped store has no byte in either
of the stamped pages. -/
theorem Reachable.probe_elsewhere (h : c.Reachable) {first last : U32}
    (hclock : (c.stampWriteSpan first last).clock < 2 ^ 64) {cpu : Cpu}
    (hcpu : cpu.icache = c.stampWriteSpan first last) {phys : U32}
    {d : DecodedInsn}
    (hprobe : cpu.probeAt phys = some d) {i : Nat} (hi : i < d.len.toNat) :
    (phys + BitVec.ofNat 32 i) >>> 12 ≠ first >>> 12
      ∧ (phys + BitVec.ofNat 32 i) >>> 12 ≠ last >>> 12 := by
  have hcoh := h.coherent ((c.clock_stampWriteSpan first last).trans hclock)
  unfold Cpu.probeAt at hprobe
  dsimp only at hprobe
  split at hprobe
  case isFalse => cases hprobe
  case isTrue hlive =>
    cases hprobe
    simp only [Cpu.entryLive, Bool.and_eq_true, beq_iff_eq,
      decide_eq_true_eq] at hlive
    obtain ⟨⟨⟨hkey, hstamp⟩, hinval⟩, -⟩ := hlive
    have hline :
      (cpu.icache.entries (entrySlot phys)).line = stampSlot phys := by
      rw [Entry.line, Entry.phys, hkey, key_phys]
    rw [← hline] at hstamp
    rw [hcpu] at hstamp hinval hline hkey hi
    have hdated :
      (c.stampWriteSpan first last).dated.Live Entry.line (entrySlot phys) :=
      ⟨BitVec.le_def.1 hstamp, BitVec.le_def.1 hinval⟩
    rw [dated_stampWriteSpan first last hclock] at hdated
    obtain ⟨hold, hpages⟩ := Stamped.Live.of_touchAll hcoh.toDated hdated
    have hentries : c.dated.entry (entrySlot phys)
        = (c.stampWriteSpan first last).entries (entrySlot phys) := by
      unfold stampWriteSpan
      dsimp only
      split <;> rfl
    rw [hentries, hline] at hpages
    have hin : ((c.stampWriteSpan first last).entries
      (entrySlot phys)).InPage :=
      hentries ▸ hcoh.live _ hold
    have hpage : (phys + BitVec.ofNat 32 i) >>> 12 = phys >>> 12 := by
      rw [Entry.InPage, Entry.phys, hkey, key_phys, toNat_and_FFF] at hin
      exact page_add phys i (by omega)
    rw [hpage]
    exact mem_spanSlots hpages

/-- Ordinary steps only stamp. -/
theorem Reachable.calm {β : Type} [Bus β] {s s' : Machine β}
    (h : s.icache.Reachable) (hs : CalmSteps s s') : s'.icache.Reachable := by
  induction hs with
  | refl => exact h
  | tail _ hstep ih =>
    cases hstep with
    | store first last => exact ih.store first last
    | _ => exact ih

end ICache

end Remu.X32
