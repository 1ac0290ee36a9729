/-
The instruction cache never serves a stale record.

Two laws carry this. `Tagged` is about the address of a probe: the cached
fetch translation is empty while paging is off and holds a physical frame,
so the key of an entry splits back into an address and the mode bits.
`CacheOk` is about the entries: while the store clock has not wrapped, a
live entry holds the record of the bytes that memory has at its address
now. Stores keep it because they stamp the pages they write, fills because
decoding does not write, and every other step because it changes neither
memory nor the cache.
-/
import Remu.Lib.Stamped
import Remu.X64.Rewind

namespace Remu.X64

open Word

-- ======== the fetch cache

/-- The cached fetch translation is usable whenever it is consulted. -/
structure Machine.Tagged {β : Type} (s : Machine β) : Prop where
  tagged : s.paging = false → s.fetchTag = EMPTY
  framed : s.fetchPage &&& ~~~PHYS_MASK = 0
  modeOk : s.regs.toColdRegs.ModeOk

/-- Paging depends on CR0 only. -/
theorem paging_of_sameMode (s s' : Cpu)
    (h : s'.regs.SameMode s.regs.toColdRegs) :
    s'.paging = s.paging := by
  unfold Cpu.paging
  rw [h.1]

/-- A change of registers within the mode keeps the fetch cache usable. -/
theorem Machine.Tagged.regs {β : Type} {s : Machine β}
    (h : s.Tagged) {r : Registers}
    (hr : r.SameMode s.regs.toColdRegs) :
    Machine.Tagged { s with regs := r } where
  tagged hoff :=
    h.tagged ((paging_of_sameMode s.toCpu { s.toCpu with regs := r } hr).symm.trans hoff)
  framed := h.framed
  modeOk := hr.modeOk h.modeOk

section Steps

variable {β : Type} [Bus β] {s s' : Machine β}

/-- Memory accesses keep the fetch tag in step with the mode. -/
theorem CalmPrim.tagged (h : CalmPrim s s') (hs : s.Tagged) : s'.Tagged := by
  cases h with
  | fetchDrop => exact ⟨fun _ => rfl, hs.framed, hs.modeOk⟩
  | fetchFill tag page hp hpage =>
    refine ⟨fun hoff => ?_, hpage, hs.modeOk⟩
    exact absurd (hp.symm.trans hoff) (by decide)
  | _ => exact ⟨hs.tagged, hs.framed, hs.modeOk⟩

omit [Bus β] in
/-- The empty tag is in step with every mode. -/
theorem Machine.Tagged.prepared (hs : s.Tagged) : s.prepared.Tagged := by
  refine ⟨fun _ => s.fetchTag_prepared, ?_, ?_⟩
  · unfold Machine.prepared
    split <;> exact hs.framed
  · rw [s.regs_prepared]
    exact hs.modeOk

/-- A transfer empties the tag. -/
theorem XferPrim.tagged (h : XferPrim s s') (hs : s.Tagged) : s'.Tagged := by
  cases h with
  | calm h => exact h.tagged hs
  | hot r => exact hs.regs ⟨rfl, rfl⟩
  | prepare => exact hs.prepared
  | write r hsaved hmode => exact hs.regs hmode

/-- A cold write empties the tag. -/
theorem ColdPrim.tagged (h : ColdPrim s s') (hs : s.Tagged) : s'.Tagged := by
  cases h with
  | xfer h => exact h.tagged hs
  | mode r hsaved htag hmode =>
    exact ⟨fun _ => htag, hs.framed, hmode hs.modeOk⟩
  | cycles n => exact ⟨hs.tagged, hs.framed, hs.modeOk⟩

end Steps

-- ======== entry keys

/-- The address bits of a key. -/
def Entry.phys (e : Entry) : U64 := e.key &&& ~~~HIGH

/-- The 64-bit mode bit of a key. -/
def Entry.m64 (e : Entry) : Bool := e.key.getLsbD 62

/-- The code-size bit of a key. -/
def Entry.db (e : Entry) : Bool := e.key.getLsbD 63

/-- A physical address has no bit from 52 on. -/
theorem phys_bit {a : U64} (h : a &&& HIGH = 0) {i : Nat}
    (hi : HIGH.getLsbD i = true) :
    a.getLsbD i = false := by
  have hbit := congrArg (fun x : U64 => x.getLsbD i) h
  simp only [BitVec.getLsbD_and, hi, Bool.and_true] at hbit
  exact hbit.trans BitVec.getLsbD_zero

namespace Cpu

/-- The mode bits of a key lie above every address. -/
theorem icacheCtx_low (c : Cpu) : c.icacheCtx &&& ~~~HIGH = 0 := by
  have hshl : ∀ (x m : U64) (k : Nat), (m <<< k) &&& ~~~HIGH = 0 →
      ((x &&& m) <<< k) &&& ~~~HIGH = 0 := by
    intro x m k h
    rw [BitVec.shiftLeft_and_distrib, BitVec.and_assoc, h]
    exact BitVec.and_zero
  unfold icacheCtx
  rw [BitVec.and_or_distrib_right, BitVec.and_or_distrib_right,
    BitVec.and_or_distrib_right, hshl _ _ _ (by decide),
    hshl _ _ _ (by decide), hshl _ _ _ (by decide)]
  cases c.m64 <;> rfl

variable {c : Cpu} {phys : U64} (h : phys &&& HIGH = 0)
include h

/-- The key holds the address in its low bits. -/
theorem key_phys : (phys ||| c.icacheCtx) &&& ~~~HIGH = phys := by
  rw [BitVec.and_or_distrib_right, icacheCtx_low]
  have hsplit : phys = (phys &&& ~~~HIGH) ||| (phys &&& HIGH) := by
    rw [← BitVec.and_or_distrib_left]
    exact BitVec.and_allOnes.symm
  rw [h] at hsplit
  exact hsplit.symm

/-- Bit 62 tells 64-bit code. -/
theorem key_m64 : (phys ||| c.icacheCtx).getLsbD 62 = c.m64 := by
  rw [BitVec.getLsbD_or, phys_bit h (by decide)]
  unfold icacheCtx
  simp only [BitVec.getLsbD_or, BitVec.getLsbD_shiftLeft, BitVec.getLsbD_and]
  cases c.m64 <;> simp

/-- Bit 63 tells the default size. -/
theorem key_db :
    (phys ||| c.icacheCtx).getLsbD 63 = (c.regs.seg reg.CS).db := by
  rw [BitVec.getLsbD_or, phys_bit h (by decide), SegReg.db_eq_bit]
  unfold icacheCtx
  simp only [BitVec.getLsbD_or, BitVec.getLsbD_shiftLeft, BitVec.getLsbD_and]
  cases c.m64 <;> simp

end Cpu

/-- A probe's address is a physical address: in 64-bit mode paging is on. -/
theorem Machine.Tagged.phys_low {β : Type} {s : Machine β} (h : s.Tagged)
    (hm64 : s.m64 = s.mode64) {phys : U64} (hphys : s.icachePhys = some phys) :
    phys &&& HIGH = 0 := by
  rw [Cpu.icachePhys] at hphys
  split at hphys
  case isTrue hoff =>
    have hlegacy : s.m64 = false := by
      by_contra hm
      rw [hm64, Cpu.mode64, Bool.not_eq_false, Bool.and_eq_true] at hm
      have hpg := h.modeOk.paged
        (by simpa only [Cpu.longMode, bne_iff_ne] using hm.1)
      rw [Bool.not_eq_true', Cpu.paging, bne_eq_false_iff_eq] at hoff
      exact hpg hoff
    cases hphys
    rw [Cpu.fetchLin, hlegacy, if_neg (by decide), BitVec.and_assoc,
      show (0xFFFFFFFF &&& HIGH : U64) = 0 by decide]
    exact BitVec.and_zero
  case isFalse =>
    split at hphys
    case isFalse => cases hphys
    case isTrue =>
      cases hphys
      exact low_or_offset ⟨s.fetchPage, h.framed⟩ _

-- ======== the entries

variable {π : Type} [Ports π]

/-- An entry holds the record of the bytes at its address, which lie in one
page. -/
structure Entry.Good (b : FlatBus π) (e : Entry) : Prop where
  short : e.insn.len.toNat ≤ 15
  fits : (e.phys &&& 0xFFF).toNat + e.insn.len.toNat ≤ 0x1000
  decodes : DecodesTo π e.m64 e.db (b.from e.phys) e.insn

/-- The stamp slot of an entry. -/
def Entry.page (e : Entry) : U64 := ICache.stampSlot e.phys

namespace ICache

/-- The cache with its dates as numbers. -/
def dated (c : ICache) : Stamped U64 U64 Entry where
  entry := c.entries
  version i := (c.entries i).version.toNat
  stamp p := (c.stamps p).toNat
  clock := c.clock
  inval := c.inval.toNat

/-- While the store clock has not wrapped, live entries are good. -/
def Ok (c : ICache) (b : FlatBus π) : Prop :=
  c.clock < 2 ^ 64 → c.dated.Coherent Entry.page Entry.Good b

/-- The clock as stamped is the clock while it has not wrapped. -/
theorem now_toNat {c : ICache} (h : c.clock < 2 ^ 64) :
    c.now.toNat = c.clock :=
  BitVec.toNat_ofNat .. ▸ Nat.mod_eq_of_lt h

/-- A byte store touches one slot. -/
theorem dated_stampWrite {c : ICache} (a : U64)
    (h : (c.stampWrite a).clock < 2 ^ 64) :
    (c.stampWrite a).dated = c.dated.touch (stampSlot a) := by
  have hnow : c.tick.now.toNat = c.clock + 1 := now_toNat (c := c.tick) h
  have hstamp : (fun p => (upd c.stamps (stampSlot a) c.tick.now p).toNat)
      = Function.update (fun p => (c.stamps p).toNat) (stampSlot a)
        (c.clock + 1) := by
    rw [upd_eq_update, ← hnow]
    exact Function.comp_update BitVec.toNat c.stamps _ _
  show Stamped.mk _ _ _ _ _ = Stamped.mk _ _ _ _ _
  exact congrArg (fun f => Stamped.mk (P := U64) (I := U64) c.entries
    (fun i => (c.entries i).version.toNat) f (c.clock + 1) c.inval.toNat) hstamp

/-- The slots a store from `first` to `last` stamps. -/
def spanSlots (first last : U64) : List U64 :=
  if first >>> 12 ≠ last >>> 12 then [stampSlot first, stampSlot last]
    else [stampSlot first]

/-- A wide store touches the slots it spans. -/
theorem dated_stampWriteSpan {c : ICache} (first last : U64)
    (h : (c.stampWriteSpan first last).clock < 2 ^ 64) :
    (c.stampWriteSpan first last).dated
      = c.dated.touchAll (spanSlots first last) := by
  unfold stampWriteSpan spanSlots at *
  dsimp only at h ⊢
  split at h
  case isTrue hne =>
    have hfirst : (c.stampWrite first).clock < 2 ^ 64 := Nat.lt_of_succ_lt h
    rw [if_pos hne, if_pos hne, dated_stampWrite last h,
      dated_stampWrite first hfirst]
    rfl
  case isFalse heq =>
    rw [if_neg heq, if_neg heq, dated_stampWrite first h]
    rfl

/-- Invalidating touches every slot. -/
theorem dated_invalidateAll {c : ICache} (h : c.invalidateAll.clock < 2 ^ 64) :
    c.invalidateAll.dated = c.dated.invalidate := by
  have hnow : c.tick.now.toNat = c.clock + 1 := now_toNat (c := c.tick) h
  exact congrArg (Stamped.mk (P := U64) (I := U64) c.entries
    (fun i => (c.entries i).version.toNat) (fun p => (c.stamps p).toNat)
      (c.clock + 1)) hnow

/-- A fill records one entry at the present time. -/
theorem dated_fill {c : ICache} (i : U64) {e : Entry} (he : e.version = c.now)
    (h : c.clock < 2 ^ 64) :
    ICache.dated { c with entries := upd c.entries i e }
      = c.dated.fill i e := by
  have hversion : (fun j => (upd c.entries i e j).version.toNat)
      = Function.update (fun j => (c.entries j).version.toNat) i c.clock := by
    have hnow : e.version.toNat = c.clock := he ▸ now_toNat h
    rw [upd_eq_update, ← hnow]
    exact Function.comp_update (fun e : Entry => e.version.toNat) c.entries _ e
  show Stamped.mk _ _ _ _ _ = Stamped.mk _ _ _ _ _
  rw [hversion, upd_eq_update]
  rfl

/-- The stamped slots are those of the two pages. -/
theorem mem_spanSlots {first last a : U64} :
    stampSlot a ∉ spanSlots first last → a >>> 12 ≠ first >>> 12
      ∧ a >>> 12 ≠ last >>> 12 := by
  intro h
  have hslot : ∀ {x : U64}, a >>> 12 = x >>> 12 → stampSlot a = stampSlot x :=
    fun hx => congrArg (· &&& (STAMP_SLOTS - 1)) hx
  unfold spanSlots at h
  split at h
  case isTrue =>
    exact ⟨fun hx => h (hslot hx ▸ List.mem_cons_self),
      fun hx => h (hslot hx ▸ List.mem_cons_of_mem _ List.mem_cons_self)⟩
  case isFalse heq =>
    have hfirst : a >>> 12 ≠ first >>> 12 :=
      fun hx => h (hslot hx ▸ List.mem_cons_self)
    exact ⟨hfirst, not_ne_iff.1 heq ▸ hfirst⟩

end ICache

-- ======== bus accesses

/-- Reads and port accesses leave flat memory alone. -/
theorem BusTouch.mem {b b' : FlatBus π} (h : BusTouch b b') :
    b'.mem = b.mem := by
  cases h with
  | read a => rfl
  | read16 a => exact congrArg FlatBus.mem (congrArg Prod.snd (b.read16_eq a))
  | read32 a => exact congrArg FlatBus.mem (congrArg Prod.snd (b.read32_eq a))
  | read64 a => exact congrArg FlatBus.mem (congrArg Prod.snd (b.read64_eq a))
  | ioRead p => rfl
  | ioWrite p v => rfl

/-- The pages between the ends of a span of at most eight bytes are those
of its ends. -/
theorem page_between (a : U64) {i n : Nat} (hi : i ≤ n) (hn : n < 8) :
    (a + BitVec.ofNat 64 i) >>> 12 = a >>> 12
      ∨ (a + BitVec.ofNat 64 i) >>> 12 = (a + BitVec.ofNat 64 n) >>> 12 := by
  simp only [page_eq_iff, BitVec.toNat_add, BitVec.toNat_ofNat]
  have := a.isLt
  omega

omit [Ports π] in
/-- A byte store changes one cell. -/
theorem FlatBus.store_other (b : FlatBus π) {x a : U64} (v : U8)
    (h : x >>> 12 ≠ a >>> 12) :
    (b.store a v).mem x = b.mem x :=
  upd_other _ _ fun hx => h (hx ▸ rfl)

/-- Byte stores on two pages change no other page. -/
theorem FlatBus.scatter_other (b : FlatBus π) {x first last : U64}
    (l : List (U64 × U8))
    (hl : ∀ p ∈ l, p.1 >>> 12 = first >>> 12 ∨ p.1 >>> 12 = last >>> 12)
    (hfirst : x >>> 12 ≠ first >>> 12) (hlast : x >>> 12 ≠ last >>> 12) :
    (l.foldl (fun b p => Bus.write b p.1 p.2) b).mem x = b.mem x := by
  induction l generalizing b with
  | nil => rfl
  | cons p l ih =>
    rw [List.foldl_cons, ih _ fun q hq => hl q (List.mem_cons_of_mem _ hq)]
    refine b.store_other p.2 ?_
    rcases hl p List.mem_cons_self with hp | hp
    · exact hp ▸ hfirst
    · exact hp ▸ hlast

/-- `x` lies in none of the pages of the `n + 1` bytes from `a`. -/
def Apart (x a : U64) (n : Nat) : Prop :=
  ∀ i ≤ n, x >>> 12 ≠ (a + BitVec.ofNat 64 i) >>> 12

/-- Bytes whose ends are on other pages are apart. -/
theorem Apart.of_ends {x a : U64} {n : Nat} (hn : n < 8)
    (hfirst : x >>> 12 ≠ a >>> 12)
    (hlast : x >>> 12 ≠ (a + BitVec.ofNat 64 n) >>> 12) : Apart x a n := by
  intro i hi hx
  rcases page_between a hi hn with hp | hp
  · exact hfirst (hx.trans hp)
  · exact hlast (hx.trans hp)

/-- The first byte is on another page. -/
theorem Apart.first {x a : U64} {n : Nat} (h : Apart x a n) :
    x >>> 12 ≠ a >>> 12 := by
  have h0 := h 0 (Nat.zero_le n)
  rwa [show a + BitVec.ofNat 64 0 = a from BitVec.add_zero a] at h0

/-- A shorter run is apart too. -/
theorem Apart.take {x a : U64} {m n : Nat} (h : Apart x a n) (hm : m ≤ n) :
    Apart x a m :=
  fun i hi => h i (Nat.le_trans hi hm)

/-- So is a later one. -/
theorem Apart.drop {x a : U64} {m n : Nat} (k : Nat)
    (h : Apart x a n) (hm : k + m ≤ n) :
    Apart x (a + BitVec.ofNat 64 k) m := by
  intro i hi
  rw [BitVec.add_assoc, ← BitVec.ofNat_add]
  exact h (k + i) (by omega)

/-- A word store does not touch a byte apart from it. -/
theorem FlatBus.write16_other (b : FlatBus π) {x a : U64}
    (v : U16) (h : Apart x a 1) :
    (Bus.write16 b a v).mem x = b.mem x :=
  (store_other _ _ (h.drop 1 (m := 0) (by decide)).first).trans
    (store_other _ _ h.first)

/-- A double word store does not. -/
theorem FlatBus.write32_other (b : FlatBus π) {x a : U64}
    (v : U32) (h : Apart x a 3) :
    (Bus.write32 b a v).mem x = b.mem x :=
  (write16_other _ _ (h.drop 2 (by decide))).trans
    (write16_other _ _ (h.take (by decide)))

/-- A quad word store does not. -/
theorem FlatBus.write64_other (b : FlatBus π) {x a : U64}
    (v : U64) (h : Apart x a 7) :
    (Bus.write64 b a v).mem x = b.mem x :=
  (write32_other _ _ (h.drop 4 (by decide))).trans
    (write32_other _ _ (h.take (by decide)))

/-- A store changes only the pages of its ends. -/
theorem BusStore.other {b b' : FlatBus π} {first last x : U64}
    (h : BusStore b first last b')
    (hfirst : x >>> 12 ≠ first >>> 12) (hlast : x >>> 12 ≠ last >>> 12) :
    b'.mem x = b.mem x := by
  cases h with
  | write v => exact b.store_other v hfirst
  | write16 v => exact b.write16_other v (.of_ends (by decide) hfirst hlast)
  | write32 v => exact b.write32_other v (.of_ends (by decide) hfirst hlast)
  | write64 v => exact b.write64_other v (.of_ends (by decide) hfirst hlast)
  | scatter _ l hl => exact b.scatter_other l hl hfirst hlast

/-- The record of bytes that did not change. -/
theorem DecodesTo.congr {m64 db : Bool}
    {code code' : Nat → U8} {d : DecodedInsn}
    (h : DecodesTo π m64 db code d)
    (heq : ∀ i < d.len.toNat, code i = code' i) :
    DecodesTo π m64 db code' d := by
  intro t hm64 hdb hcode hread
  obtain ⟨base, hbytes⟩ := hcode.bytes
  exact h t hm64 hdb ⟨hcode.rip, hcode.tagged, base, fun i hi =>
    ⟨(hbytes i hi).1, (hbytes i hi).2.trans (heq i hi).symm⟩⟩ hread

/-- An entry whose page did not change stays good. -/
theorem Entry.Good.frame {b b' : FlatBus π} {e : Entry} (h : e.Good b)
    (heq : ∀ x : U64, x >>> 12 = e.phys >>> 12 → b'.mem x = b.mem x) :
    e.Good b' where
  short := h.short
  fits := h.fits
  decodes := h.decodes.congr fun i hi => by
    refine (heq _ (page_add _ i ?_)).symm
    have hfits := h.fits
    rw [toNat_and_FFF] at hfits
    omega

namespace ICache

/-- Only memory matters. -/
theorem Ok.mem {c : ICache} {b b' : FlatBus π} (h : c.Ok b)
    (hmem : b'.mem = b.mem) :
    c.Ok b' := by
  intro hclock
  have hnone : (c.dated.touchAll []).Coherent Entry.page Entry.Good b' :=
    (h hclock).store fun _ _ hv => hv.frame fun x _ => congrFun hmem x
  exact hnone

/-- A stamped store keeps the cache. -/
theorem Ok.store {c : ICache} {b b' : FlatBus π}
    {first last : U64} (h : c.Ok b)
    (hb : BusStore b first last b') : (c.stampWriteSpan first last).Ok b' := by
  intro hclock
  have hgrow : c.clock ≤ (c.stampWriteSpan first last).clock := by
    unfold stampWriteSpan
    dsimp only
    split
    · exact Nat.le_add_right c.clock 2
    · exact Nat.le_succ c.clock
  rw [dated_stampWriteSpan first last hclock]
  refine (h (Nat.lt_of_le_of_lt hgrow hclock)).store fun e he hgood => ?_
  obtain ⟨hfirst, hlast⟩ := mem_spanSlots he
  exact hgood.frame fun x hx => hb.other (hx ▸ hfirst) (hx ▸ hlast)

/-- An invalidation is good for any change of memory. -/
theorem Ok.invalidateAll {c : ICache} {b : FlatBus π}
    (h : c.Ok b) (b' : FlatBus π) :
    c.invalidateAll.Ok b' := by
  intro hclock
  rw [dated_invalidateAll hclock]
  exact .invalidate (h (Nat.lt_of_succ_lt hclock)).toDated

/-- A fill with the record of the bytes at `phys` keeps the cache. -/
theorem Ok.fill {c : ICache} {b : FlatBus π} (h : c.Ok b)
    (cpu : Cpu) {phys : U64}
    {d : DecodedInsn} (hphys : phys &&& HIGH = 0) (hlen : d.len.toNat ≤ 15)
    (hdec : DecodesTo π cpu.m64 (cpu.regs.seg reg.CS).db (b.from phys) d) :
    (c.fill phys cpu.icacheCtx d).Ok b := by
  intro hclock
  unfold ICache.fill at *
  split at hclock
  case isTrue hcross =>
    rw [if_pos hcross]
    exact h hclock
  case isFalse hfits =>
  rw [if_neg hfits]
  let e : Entry :=
    { key := phys ||| cpu.icacheCtx, version := c.now, insn := d }
  have haddr : e.phys = phys := Cpu.key_phys hphys
  have hgood : e.Good b :=
    { short := hlen
      fits := by
        rw [haddr]
        exact Nat.le_of_not_lt hfits
      decodes := by
        have hm64 : e.m64 = cpu.m64 := Cpu.key_m64 hphys
        have hdb : e.db = (cpu.regs.seg reg.CS).db := Cpu.key_db hphys
        rw [haddr, hm64, hdb]
        exact hdec }
  have hfill := dated_fill (entrySlot phys) (e := e) rfl hclock
  exact hfill ▸ (h hclock).fill (entrySlot phys) hgood

end ICache

-- ======== one record

omit [Ports π] in
/-- The bytes at a known address within a page are a stream. -/
theorem Machine.Tagged.streams {s : Machine (FlatBus π)} (h : s.Tagged)
    {phys : U64} {n : Nat}
    (hphys : s.icachePhys = some phys)
    (hfits : (phys &&& 0xFFF).toNat + n ≤ 0x1000) :
    Streams (s.bus.from phys) s.regs.rip n s.resetDecode where
  rip := (BitVec.add_zero _).symm
  tagged := h.tagged
  bytes := ⟨phys, fun i hi =>
    ⟨Cpu.fetchPhys_add (c := s.resetDecode.toCpu) h.framed hphys (by omega), rfl⟩⟩

/-- A machine whose probes are safe. -/
structure Machine.Sound (s : Machine (FlatBus π)) : Prop extends s.Tagged where
  cache : s.icache.Ok s.bus

section Missed

variable {s s₁ s₂ : Machine (FlatBus π)} {p : U8 × U32} {d : DecodedInsn}

omit [Ports π] in
/-- Decoding keeps the mode bits of a key. -/
theorem Quiet.icacheCtx {s s' : Machine (FlatBus π)} (h : Quiet s s') :
    s'.icacheCtx = s.icacheCtx := by
  rw [h]
  rfl

/-- Remembering what a missed probe decoded keeps the machine sound. -/
theorem Machine.Sound.icacheFill (hs : s.Sound) (hm64 : s.m64 = s.mode64)
    (hscan : scanPrefixes.run s.resetDecode = (.ok p, s₁))
    (hlock : s₁.lock = false)
    (hrep : s₁.rep = none)
    (hdec : (tryDecode p.1 p.2).run s₁ = (.ok (.hot d), s₂))
    (hs₂ : s₂.Sound) : (s₂.icacheFill s.icachePhys d).Sound := by
  cases hphys : s.icachePhys with
  | none => exact hs₂
  | some phys =>
  refine ⟨⟨hs₂.tagged, hs₂.framed, hs₂.modeOk⟩, ?_⟩
  by_cases hcross : (phys &&& 0xFFF).toNat + d.len.toNat > 0x1000
  · have hskip : s₂.icache.fill phys s₂.icacheCtx d = s₂.icache :=
      if_pos hcross
    exact (congrArg (·.Ok s₂.bus) hskip).mpr hs₂.cache
  · have hcode := hs.streams hphys (Nat.le_of_not_lt hcross)
    have hquiet := quiet_of_hot hscan hdec hcode
    have hshort : d.len.toNat ≤ 15 := by
      obtain ⟨-, d₀, hr, -⟩ := tryDecode_hot.1 hdec
      rw [len_of_hot hdec]
      exact (lock_decodeOp p.1).short hr
        (lock_scanPrefixes.short hscan (Nat.zero_le 15))
    have hrecord := decodesTo_of_hot hscan hdec hcode hlock hrep
    have hctx : s₂.icacheCtx = s.icacheCtx := hquiet.icacheCtx
    have hbus : s₂.bus = s.bus := by
      rw [hquiet]
      rfl
    have hfill := hs₂.cache.fill s.toCpu (hs.phys_low hm64 hphys) hshort
      (by rwa [hbus])
    show (s₂.icache.fill phys s₂.icacheCtx d).Ok s₂.bus
    rwa [hctx]

end Missed

end Remu.X64
