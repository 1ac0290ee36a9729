/-
What a stamped store leaves of the instruction cache.

An entry answers a probe only if it is not older than the stamp of its
page. In every cache the processor can have, no entry is dated ahead of
the store clock and the instruction of a live entry ends in the page it
starts in. So behind a store no probe finds an instruction with a byte in
a page the store has stamped, whatever memory holds there.
-/
import Remu.X64.Coherence

namespace Remu.X64

open Word

-- ======== reachable caches

/-- A cache the processor can have: the one it starts with, and those that
stamped stores, invalidations and fills make of it. -/
inductive ICache.Reachable : ICache → Prop
  | new : Reachable new
  | store {c : ICache} (h : Reachable c) (first last : U64) :
      Reachable (c.stampWriteSpan first last)
  | invalidate {c : ICache} (h : Reachable c) : Reachable c.invalidateAll
  | fill {c : ICache} (h : Reachable c) (cpu : Cpu) (phys : U64)
      (d : DecodedInsn) :
      Reachable (c.fill phys cpu.icacheCtx d)

/-- Repeated invalidation moves the clock only. -/
theorem ICache.invalidateAll_iterate (c : ICache) (n : Nat) :
    ICache.invalidateAll^[n + 1] c
      = { c with clock := c.clock + (n + 1), inval := BitVec.ofNat 64 (c.clock + (n + 1)) } := by
  induction n with
  | zero => rfl
  | succ n ih =>
    rw [Function.iterate_succ_apply', ih]
    rfl

/-- Invalidating any number of times. -/
theorem ICache.Reachable.iterate {c : ICache} (h : c.Reachable) (n : Nat) :
    (ICache.invalidateAll^[n] c).Reachable := by
  induction n with
  | zero => exact h
  | succ n ih =>
    rw [Function.iterate_succ_apply']
    exact ih.invalidate

/-- The stamp slot an entry is compared with. -/
def Entry.line (e : Entry) : U64 := ICache.stampSlot e.key

/-- The instruction of an entry ends in the page it starts in. -/
def Entry.InPage (e : Entry) : Prop :=
  (e.key &&& 0xFFF).toNat + e.insn.len.toNat ≤ 0x1000

/-- The context bits of a key are above what a mask of low bits sees. -/
theorem key_and (phys : U64) (c : Cpu) {m : U64} (hm : m &&& ~~~HIGH = m) :
    (phys ||| c.icacheCtx) &&& m = phys &&& m := by
  have hctx : c.icacheCtx &&& m = 0 := by
    rw [← hm, BitVec.and_comm m, ← BitVec.and_assoc, c.icacheCtx_low]
    exact BitVec.zero_and
  rw [BitVec.and_or_distrib_right, hctx]
  exact BitVec.or_zero

/-- The stamp slot of a key is that of its address. -/
theorem stampSlot_key (phys : U64) (c : Cpu) :
    ICache.stampSlot (phys ||| c.icacheCtx) = ICache.stampSlot phys := by
  have hmask : ∀ a : U64, ICache.stampSlot a = (a &&& 0x3FFF000) >>> 12 := by
    intro a
    rw [BitVec.ushiftRight_and_distrib]
    rfl
  rw [hmask, hmask, key_and phys c (by decide)]

namespace ICache

variable {c : ICache}

/-- Every stamped store advances the clock. -/
theorem clock_stampWriteSpan (c : ICache) (first last : U64) :
    c.clock < (c.stampWriteSpan first last).clock := by
  unfold stampWriteSpan
  dsimp only
  split
  · exact Nat.lt_add_of_pos_right (n := c.clock) (k := 2) (by decide)
  · exact Nat.lt_succ_self c.clock

/-- While the store clock has not wrapped, no entry is dated ahead of it
and what is live stays in its page. -/
theorem Reachable.coherent (h : c.Reachable) (hclock : c.clock < 2 ^ 64) :
    c.dated.Coherent Entry.line (fun (_ : Unit) e => e.InPage) () := by
  induction h with
  | new =>
    exact ⟨⟨fun _ => Nat.zero_le _, Nat.le_refl _, fun _ => Nat.zero_le _⟩,
      fun _ hl => absurd (show (1 : Nat) ≤ 0 from hl.2) (by decide)⟩
  | @store c _ first last ih =>
    rw [dated_stampWriteSpan first last hclock]
    exact (ih ((c.clock_stampWriteSpan first last).trans hclock)).store
      fun _ _ hin => hin
  | invalidate _ ih =>
    rw [dated_invalidateAll hclock]
    exact .invalidate (ih (Nat.lt_of_succ_lt hclock)).toDated
  | @fill c _ cpu phys d ih =>
    unfold ICache.fill at *
    split at hclock
    case isTrue hcross =>
      rw [if_pos hcross]
      exact ih hclock
    case isFalse hfits =>
      rw [if_neg hfits, dated_fill (c := c) (entrySlot phys) rfl hclock]
      refine (ih hclock).fill (entrySlot phys) ?_
      rw [Entry.InPage, key_and phys cpu (by decide)]
      exact Nat.le_of_not_lt hfits

/-- What a probe still finds after a stamped store has no byte in either
of the stamped pages. -/
theorem Reachable.probe_elsewhere (h : c.Reachable) {first last : U64}
    (hclock : (c.stampWriteSpan first last).clock < 2 ^ 64) {cpu : Cpu}
    (hcpu : cpu.icache = c.stampWriteSpan first last) {phys : U64}
    {d : DecodedInsn}
    (hprobe : cpu.probeAt phys = some d) {i : Nat} (hi : i < d.len.toNat) :
    (phys + BitVec.ofNat 64 i) >>> 12 ≠ first >>> 12
      ∧ (phys + BitVec.ofNat 64 i) >>> 12 ≠ last >>> 12 := by
  have hcoh := h.coherent ((c.clock_stampWriteSpan first last).trans hclock)
  unfold Cpu.probeAt at hprobe
  dsimp only at hprobe
  split at hprobe
  case isFalse => cases hprobe
  case isTrue hlive =>
    cases hprobe
    simp only [Cpu.entryLive, Bool.and_eq_true, beq_iff_eq,
      decide_eq_true_eq] at hlive
    obtain ⟨⟨⟨hkey, hstamp⟩, hinval⟩, -⟩ := hlive
    have hline :
      (cpu.icache.entries (entrySlot phys)).line = stampSlot phys := by
      rw [Entry.line, hkey, stampSlot_key]
    rw [← hline] at hstamp
    rw [hcpu] at hstamp hinval hline hkey hi
    have hdated :
      (c.stampWriteSpan first last).dated.Live Entry.line (entrySlot phys) :=
      ⟨BitVec.le_def.1 hstamp, BitVec.le_def.1 hinval⟩
    rw [dated_stampWriteSpan first last hclock] at hdated
    obtain ⟨hold, hpages⟩ := Stamped.Live.of_touchAll hcoh.toDated hdated
    have hentries : c.dated.entry (entrySlot phys)
        = (c.stampWriteSpan first last).entries (entrySlot phys) := by
      unfold stampWriteSpan
      dsimp only
      split <;> rfl
    rw [hentries, hline] at hpages
    have hin : ((c.stampWriteSpan first last).entries
      (entrySlot phys)).InPage :=
      hentries ▸ hcoh.live _ hold
    have hpage : (phys + BitVec.ofNat 64 i) >>> 12 = phys >>> 12 := by
      rw [Entry.InPage, hkey, key_and phys cpu (by decide),
        toNat_and_FFF] at hin
      exact page_add phys i (by omega)
    rw [hpage]
    exact mem_spanSlots hpages

/-- Ordinary steps only stamp. -/
theorem Reachable.calm {β : Type} [Bus β] {s s' : Machine β}
    (h : s.icache.Reachable) (hs : CalmSteps s s') : s'.icache.Reachable := by
  induction hs with
  | refl => exact h
  | tail _ hstep ih =>
    cases hstep with
    | store first last => exact ih.store first last
    | _ => exact ih

end ICache

end Remu.X64
