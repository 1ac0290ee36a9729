/-
What a quad-word store leaves to be read.

A store is followed to where its bytes go: the address itself without
paging, and with it the frame of a TLB entry, which the store's own
translation has left behind. Each of the eight bytes has a cell of its own
whether or not the store crosses a page, and whatever the two pages are
mapped to, so reading the quad word back takes no walk and finds the value
stored. Even a store into the page tables is read back: the entries that
led it there are in the TLB.
-/
import Remu.Lib.ByteWords
import Remu.X64.Operands
import Remu.X64.TlbSound

namespace Remu.X64

open Word ByteRam

/-- RAM whose byte store is the bus's. -/
class PlainRam (β : Type) [Bus β] extends Ram β where
  write_eq : ∀ (b : β) a v, Bus.write b a v = poke b a v

instance instPlainRamFlatBus {π : Type} [Ports π] : PlainRam (FlatBus π) where
  write_eq _ _ _ := rfl

instance instPlainRamLinearMemory {extra : Nat} :
    PlainRam (LinearMemory extra) where
  write_eq _ _ _ := rfl

variable {β : Type} [Bus β] [PlainRam β]

-- ======== bytes in place

namespace Machine

/-- Where the byte at `lin` is: at `lin` itself, or where the TLB puts
it. -/
def place (s : Machine β) (lin : U64) : U64 :=
  if s.paging then s.tlbPhys lin else lin

/-- `lin` is read without a walk. -/
def Ready (s : Machine β) (lin : U64) : Prop :=
  s.paging = true → s.tlbHit lin .read = true

/-- The byte a read of `lin` finds. -/
def view (s : Machine β) (lin : U64) : U8 := byte s.bus (s.place lin)

omit [Bus β] [PlainRam β] in
/-- Within a page, or without pages, places follow each other as addresses
do. -/
theorem place_add {s : Machine β} {lin : U64} {i : Nat}
    (h : s.paging = true → lin.toNat % 4096 + i < 4096) :
    s.place (lin + BitVec.ofNat 64 i) = s.place lin + BitVec.ofNat 64 i := by
  by_cases hp : s.paging = true
  · rw [place, place, if_pos hp, if_pos hp, tlbPhys, tlbPhys,
      page_add lin i (h hp)]
    exact or_offset_add
      (Frame.aligned ⟨_, (s.tlb.entries (Tlb.slot (lin >>> 12))).framed⟩) (h hp)
  · rw [place, place, if_neg hp, if_neg hp]

end Machine

-- ======== reading

theorem run_ramRead8 (a : U64) (s : Machine β) :
    (busRead a).run s = (.ok (byte s.bus a), s) := by
  show (Except.ok (Bus.read s.bus a).1, { s with bus := (Bus.read s.bus a).2 }) = _
  rw [Ram.read_eq]

theorem run_ramRead16 (a : U64) (s : Machine β) :
    (busRead16 a).run s = (.ok (get16 s.bus a), s) := by
  show (Except.ok (Bus.read16 s.bus a).1,
    { s with bus := (Bus.read16 s.bus a).2 }) = _
  rw [Ram.read16_eq]

theorem run_linRead8_ready {s : Machine β} {lin : U64} (h : s.Ready lin) :
    (linRead8 lin).run s = (.ok (s.view lin), s) := by
  unfold linRead8
  rw [Bounded.run_bind, Fallible.bind_of_ok (run_self s)]
  by_cases hp : s.paging = true
  · obtain ⟨q, hq, hval⟩ := run_translate_hit (h hp)
    rw [if_neg (by rw [hp]; decide), Bounded.run_bind, Fallible.bind_of_ok hq,
      run_ramRead8, hval, Machine.view, Machine.place, if_pos hp]
  · rw [if_pos (by simpa using hp), run_ramRead8, Machine.view,
      Machine.place, if_neg hp]

omit [PlainRam β] in
/-- A wide read in one piece or in its halves: both find `v`. -/
theorem run_wide {w : Nat} {s : Machine β} {lin lim : U64}
    {one : U64 → Calm β (BitVec (w + w))}
    {lo hi : Calm β (BitVec w)} {g : U64 → BitVec (w + w)} {l h : BitVec w}
    {v : BitVec (w + w)}
    (hready : s.Ready lin) (hone : ∀ p, (one p).run s = (.ok (g p), s))
    (hg : (s.paging = true → lin &&& 0xFFF < lim) → g (s.place lin) = v)
    (hlo : lo.run s = (.ok l, s)) (hhi : hi.run s = (.ok h, s))
    (hv : l.setWidth (w + w) ||| (h.setWidth (w + w) <<< w) = v) :
    (do
      let s ← self
      if !s.paging then one lin
      else if lin &&& 0xFFF < lim then do
        let phys ← translate lin .read
        one phys.val
      else readHalves lo hi : Calm β (BitVec (w + w))).run s = (.ok v, s) := by
  rw [Bounded.run_bind, Fallible.bind_of_ok (run_self s)]
  by_cases hp : s.paging = true
  · have hplace : s.place lin = s.tlbPhys lin := if_pos hp
    rw [if_neg (by rw [hp]; decide)]
    split
    case isTrue hlt =>
      obtain ⟨q, hq, hval⟩ := run_translate_hit (hready hp)
      rw [Bounded.run_bind, Fallible.bind_of_ok hq, hone, hval, ← hplace,
        hg fun _ => hlt]
    case isFalse =>
      rw [readHalves, Bounded.run_bind, Fallible.bind_of_ok hlo,
        Bounded.run_bind, Fallible.bind_of_ok hhi, ← hv]
      rfl
  · have hplace : s.place lin = lin := if_neg hp
    rw [if_pos (by simpa using hp), hone, ← hg fun h => absurd h hp, hplace]

theorem run_linRead16_ready {s : Machine β} {lin : U64}
    (h : ∀ i < 2, s.Ready (lin + BitVec.ofNat 64 i)) :
    (linRead16 lin).run s = (.ok (word16At s.view lin), s) := by
  have h0 : s.Ready lin := by simpa using h 0 (by decide)
  refine run_wide (g := get16 s.bus) h0 (run_ramRead16 · s) (fun hin => ?_)
    (run_linRead8_ready h0) (run_linRead8_ready (h 1 (by decide))) rfl
  refine word16At_congr fun i hi => ?_
  rw [Machine.view,
    Machine.place_add fun hp => offset_lt (by decide) (hin hp) hi]

theorem run_linRead32_ready {s : Machine β} {lin : U64}
    (h : ∀ i < 4, s.Ready (lin + BitVec.ofNat 64 i)) :
    (linRead32 lin).run s = (.ok (word32At s.view lin), s) := by
  have h0 : s.Ready lin := by simpa using h 0 (by decide)
  have hhi : ∀ i < 2, s.Ready (lin + 2 + BitVec.ofNat 64 i) := fun i hi => by
    rw [BitVec.add_assoc, show (2 : U64) = BitVec.ofNat 64 2 from rfl,
      ← BitVec.ofNat_add]
    exact h (2 + i) (by omega)
  refine run_wide (g := get32 s.bus) h0 (run_ramRead32 · s) (fun hin => ?_)
    (run_linRead16_ready fun i hi => h i (by omega))
      (run_linRead16_ready hhi) rfl
  refine word32At_congr fun i hi => ?_
  rw [Machine.view,
    Machine.place_add fun hp => offset_lt (by decide) (hin hp) hi]

theorem run_linRead64_ready {s : Machine β} {lin : U64}
    (h : ∀ i < 8, s.Ready (lin + BitVec.ofNat 64 i)) :
    (linRead64 lin).run s = (.ok (word64At s.view lin), s) := by
  have h0 : s.Ready lin := by simpa using h 0 (by decide)
  have hhi : ∀ i < 4, s.Ready (lin + 4 + BitVec.ofNat 64 i) := fun i hi => by
    rw [BitVec.add_assoc, show (4 : U64) = BitVec.ofNat 64 4 from rfl,
      ← BitVec.ofNat_add]
    exact h (4 + i) (by omega)
  refine run_wide (g := get64 s.bus) h0 (run_ramRead64 · s) (fun hin => ?_)
    (run_linRead32_ready fun i hi => h i (by omega))
      (run_linRead32_ready hhi) rfl
  refine word64At_congr fun i hi => ?_
  rw [Machine.view,
    Machine.place_add fun hp => offset_lt (by decide) (hin hp) hi]

-- ======== translations that stay

/-- The TLB answers a write to `lin` with `q`. -/
structure Machine.Held (s : Machine β) (lin q : U64) : Prop where
  hit : s.tlbHit lin .write = true
  phys : s.tlbPhys lin = q

omit [Bus β] [PlainRam β] in
/-- What may be written may be read. -/
theorem Cpu.tlbPermits_read {c : Cpu} {e : TlbEntry}
    (h : c.tlbPermits e .write = true) :
    c.tlbPermits e .read = true := by
  dsimp only [Cpu.tlbPermits] at h ⊢
  cases hu : c.userAccess with
  | false => rfl
  | true =>
    rw [hu, if_pos rfl, Bool.and_eq_true, Bool.and_eq_true] at h
    rw [h.1.1]
    rfl

namespace Machine.Held

variable {s s' : Machine β} {lin lin' q : U64}

omit [PlainRam β] in
theorem of_translate {p : Translated lin}
    (h : (translate lin .write).run s = (.ok p, s')) :
    s'.Held lin p.val := by
  obtain ⟨htag, hperm, hphys⟩ := translate_holds h
  have hal := Frame.aligned
    ⟨_, (s'.tlb.entries (Tlb.slot (lin >>> 12))).framed⟩
  refine ⟨?_, eq_of_page ((page_or _ _ hal).trans hphys)
    ((offset_or _ _ hal).trans p.offset.symm)⟩
  rw [Machine.tlbHit, htag, hperm, decide_eq_true rfl]
  rfl

omit [Bus β] [PlainRam β] in
theorem place (h : s.Held lin q) (hp : s.paging = true) : s.place lin = q :=
  (if_pos hp).trans h.phys

omit [Bus β] [PlainRam β] in
theorem ready (h : s.Held lin q) : s.Ready lin := by
  intro _
  have hhit := h.hit
  rw [Machine.tlbHit, Bool.and_eq_true] at hhit ⊢
  exact ⟨hhit.1, Cpu.tlbPermits_read hhit.2⟩

omit [Bus β] [PlainRam β] in
/-- What answers an access is one TLB entry and the privilege. -/
theorem congr (h : s.Held lin q)
    (hentry : s'.tlb.entries (Tlb.slot (lin >>> 12))
      = s.tlb.entries (Tlb.slot (lin >>> 12)))
    (huser : s'.userAccess = s.userAccess) (hcr0 : s'.regs.cr0 = s.regs.cr0) :
    s'.Held lin q := by
  obtain ⟨hhit, hphys⟩ := h
  refine ⟨?_, ?_⟩
  · rw [Machine.tlbHit] at hhit ⊢
    rw [hentry]
    dsimp only [Cpu.tlbPermits] at hhit ⊢
    rw [huser, hcr0]
    exact hhit
  · rw [Machine.tlbPhys] at hphys ⊢
    rw [hentry]
    exact hphys

/-- A translation loses nothing that the TLB keeps elsewhere. -/
theorem translate (h : s.Held lin q) {p : Translated lin'}
    (hrun : (X64.translate lin' .write).run s = (.ok p, s'))
    (hslot : lin' >>> 12 = lin >>> 12
      ∨ Tlb.slot (lin' >>> 12) ≠ Tlb.slot (lin >>> 12)) :
    s'.Held lin q := by
  cases hhit : s.tlbHit lin' .write with
  | true =>
    obtain ⟨_, hrun', -⟩ := run_translate_hit hhit
    rw [hrun] at hrun'
    obtain rfl : s' = s := congrArg Prod.snd hrun'
    exact h
  | false =>
    have hne : Tlb.slot (lin >>> 12) ≠ Tlb.slot (lin' >>> 12) := by
      rcases hslot with heq | hne
      · have hsame : s.tlbHit lin' .write = s.tlbHit lin .write := by
          rw [Machine.tlbHit, Machine.tlbHit, heq]
        rw [hsame, h.hit] at hhit
        cases hhit
      · exact hne.symm
    rw [run_translate_miss hhit] at hrun
    have hout := run_walk lin' .write s
    rw [hrun] at hout
    obtain ⟨m, -, -, -, hwalked⟩ := hout
    obtain ⟨ic, e, rfl, -⟩ := hwalked.state
    exact h.congr (upd_other s.tlb.entries e hne) rfl rfl

end Machine.Held

/-- Two addresses whose pages do not evict each other. -/
def SlotsApart (a b : U64) : Prop :=
  a >>> 12 = b >>> 12 ∨ Tlb.slot (a >>> 12) ≠ Tlb.slot (b >>> 12)

omit [Bus β] [PlainRam β] in
theorem toNat_slot (page : U64) : (Tlb.slot page).toNat = page.toNat % 256 :=
  toNat_and_mask page 8 (by decide)

omit [Bus β] [PlainRam β] in
/-- Two pages next to each other have slots of their own. -/
theorem slotsApart_near (lin : U64) {i j : Nat}
    (hi : i < 4096) (hj : j < 4096) :
    SlotsApart (lin + BitVec.ofNat 64 i) (lin + BitVec.ofNat 64 j) := by
  by_cases h : Tlb.slot ((lin + BitVec.ofNat 64 i) >>> 12)
    = Tlb.slot ((lin + BitVec.ofNat 64 j) >>> 12)
  · left
    have hmod := congrArg BitVec.toNat h
    have hlt := lin.isLt
    rw [toNat_slot, toNat_slot, toNat_page, toNat_page] at hmod
    rw [page_eq_iff]
    rw [BitVec.toNat_add, BitVec.toNat_add, BitVec.toNat_ofNat,
      BitVec.toNat_ofNat] at hmod ⊢
    omega
  · exact .inr h

omit [PlainRam β] in
theorem MemOnly.translateAll (lins : List U64) :
    MemOnly (translateAll lins : Calm β (List U64)) := by
  induction lins with
  | nil => exact .pure _
  | cons lin rest ih =>
    exact (MemOnly.translate _ _).bind fun _ => ih.bind fun _ => .pure _

/-- Pages that do not evict each other are all held once all their bytes
are translated, and so is whatever was held and apart from them. -/
theorem held_translateAll {lins ps : List U64} {s s' : Machine β}
    (hap : ∀ a ∈ lins, ∀ b ∈ lins, SlotsApart a b)
    (hrun : (translateAll lins).run s = (.ok ps, s')) :
    List.Forall₂ s'.Held lins ps
      ∧ ∀ a q, s.Held a q → (∀ b ∈ lins, SlotsApart b a) → s'.Held a q := by
  induction lins generalizing s ps with
  | nil =>
    cases hrun
    exact ⟨.nil, fun _ _ h _ => h⟩
  | cons lin rest ih =>
    rw [translateAll, Bounded.run_bind, Fallible.bind_eq_ok] at hrun
    obtain ⟨p, s₁, hp, hrun⟩ := hrun
    rw [Bounded.run_bind, Fallible.bind_eq_ok] at hrun
    obtain ⟨qs, s₂, hqs, hret⟩ := hrun
    cases hret
    have hap' : ∀ a ∈ rest, ∀ b ∈ rest, SlotsApart a b := fun a ha b hb =>
      hap a (List.mem_cons_of_mem lin ha) b (List.mem_cons_of_mem lin hb)
    obtain ⟨hall, hkeep⟩ := ih hap' hqs
    have hfirst : s₁.Held lin p.val := .of_translate hp
    refine ⟨.cons (hkeep _ _ hfirst fun b hb =>
      hap b (List.mem_cons_of_mem lin hb) lin List.mem_cons_self) hall,
        fun a q ha hapart => ?_⟩
    exact hkeep _ _ (ha.translate hp (hapart lin List.mem_cons_self)) fun b hb =>
      hapart b (List.mem_cons_of_mem lin hb)

-- ======== storing

/-- The quad word at `lin` is `v`, with no walk between it and a read. -/
structure Machine.Stored (s : Machine β) (lin v : U64) : Prop where
  ready : ∀ i < 8, s.Ready (lin + BitVec.ofNat 64 i)
  bytes : ∀ i < 8, s.view (lin + BitVec.ofNat 64 i) = byteOf v i

theorem Machine.Stored.read {s : Machine β} {lin v : U64}
    (h : s.Stored lin v) :
    (linRead64 lin).run s = (.ok v, s) := by
  rw [run_linRead64_ready h.ready, word64At_eq h.bytes]

omit [Bus β] [PlainRam β] in
theorem Machine.tlbPhys_offset (s : Machine β) (lin : U64) :
    s.tlbPhys lin &&& 0xFFF = lin &&& 0xFFF :=
  offset_or _ _ (Frame.aligned
    ⟨_, (s.tlb.entries (Tlb.slot (lin >>> 12))).framed⟩)

omit [Bus β] [PlainRam β] in
/-- A place keeps the offset within the page. -/
theorem Machine.place_low (s : Machine β) (lin : U64) :
    (s.place lin).toNat % 8 = lin.toNat % 8 := by
  by_cases hp : s.paging = true
  · have hoff := congrArg BitVec.toNat (s.tlbPhys_offset lin)
    rw [toNat_and_FFF, toNat_and_FFF] at hoff
    rw [place, if_pos hp]
    omega
  · rw [place, if_neg hp]

/-- Eight bytes stored to the places of eight addresses are there. -/
theorem Machine.Stored.of_bus {s : Machine β} {lin v : U64} {b : β}
    (hready : ∀ i < 8, s.Ready (lin + BitVec.ofNat 64 i))
    (hbus : s.bus
      = pokeAll b (Remu.byteStores ((Remu.bytesFrom lin 8).map s.place) v)) :
    s.Stored lin v := by
  have hlen : ((Remu.bytesFrom lin 8).map s.place).length = 8 := rfl
  have hget : ∀ i (hi : i < ((Remu.bytesFrom lin 8).map s.place).length),
      ((Remu.bytesFrom lin 8).map s.place)[i]
        = s.place (lin + BitVec.ofNat 64 i) := by
    intro i hi
    simp only [Remu.bytesFrom, List.getElem_map, List.getElem_range]
  have hcells : (((Remu.bytesFrom lin 8).map s.place).map (cell β)).Nodup := by
    refine cells_nodup (c := lin.toNat) (by omega) fun i hi => ?_
    rw [hget i hi, Machine.place_low]
    exact toNat_add_mod (by decide) (by decide) lin i
  refine ⟨hready, fun i hi => ?_⟩
  rw [Machine.view, hbus, ← hget i (by omega)]
  exact byte_pokeAll b _ v hcells _

omit [Bus β] [PlainRam β] in
theorem byteStores_eq (ps : List U64) (v : U64) :
    byteStores ps v = Remu.byteStores ps v := by
  induction ps generalizing v with
  | nil => rfl
  | cons p rest ih => rw [byteStores, Remu.byteStores, ih]

omit [Bus β] [PlainRam β] in
theorem offset_le {lin : U64} (h : lin &&& 0xFFF < 0xFF9)
    {i : Nat} (hi : i < 8) :
    lin.toNat % 4096 + i < 4096 :=
  offset_lt (n := 8) (by decide) h hi

/-- A store within a page, or without pages. -/
theorem Machine.Stored.of_write64 {s : Machine β} {lin v : U64} {b : β}
    (hin : s.paging = true → lin &&& 0xFFF < 0xFF9) (hready : s.Ready lin)
    (hbus : s.bus = Bus.write64 b (s.place lin) v) : s.Stored lin v := by
  have hplace : ∀ i < 8,
    s.place (lin + BitVec.ofNat 64 i) = s.place lin + BitVec.ofNat 64 i :=
    fun i hi => place_add fun hp => offset_le (hin hp) hi
  refine .of_bus (b := b) (fun i hi hp => ?_) ?_
  · have hpage := page_add lin i (offset_le (hin hp) hi)
    have hhit := hready hp
    rw [tlbHit] at hhit ⊢
    rw [hpage]
    exact hhit
  · have hmap : (Remu.bytesFrom lin 8).map s.place
      = Remu.bytesFrom (s.place lin) 8 := by
      rw [Remu.bytesFrom, Remu.bytesFrom, List.map_map]
      exact List.map_congr_left fun i hi => hplace i (List.mem_range.1 hi)
    rw [hbus, Ram.write64_eq, put64_eq_pokeAll, hmap]

/-- A store byte by byte, each where its own translation put it. -/
theorem Machine.Stored.of_scatter {s s' : Machine β}
    {lin v : U64} {ps : List U64}
    (hp : s.paging = true)
    (hrun : (translateAll (bytesFrom lin 8)).run s = (.ok ps, s')) :
    (scatter ps v s').Stored lin v := by
  have hmem : ∀ a ∈ bytesFrom lin 8, ∃ i < 8, a = lin + BitVec.ofNat 64 i := by
    intro a ha
    obtain ⟨i, hi, rfl⟩ := List.mem_map.1 ha
    exact ⟨i, List.mem_range.1 hi, rfl⟩
  obtain ⟨hall, -⟩ := held_translateAll (fun a ha b hb => by
    obtain ⟨i, hi, rfl⟩ := hmem a ha
    obtain ⟨j, hj, rfl⟩ := hmem b hb
    exact slotsApart_near lin (by omega) (by omega)) hrun
  have hp' : s'.paging = true := by
    rw [Cpu.paging, (MemOnly.translateAll _ _ _ _ hrun).1]
    exact hp
  have hheld : ∀ a q, s'.Held a q → (scatter ps v s').Held a q :=
    fun a q h => h.congr rfl rfl rfl
  have hps : (Remu.bytesFrom lin 8).map (scatter ps v s').place = ps := by
    have hmap : List.Forall₂ (fun a q => (scatter ps v s').place a = q)
      (bytesFrom lin 8) ps :=
      hall.imp fun a q h => (hheld a q h).place hp'
    rw [← List.forall₂_map_left_iff, List.forall₂_eq_eq_eq] at hmap
    exact hmap
  refine .of_bus (b := s'.bus) (fun i hi => ?_) ?_
  · have hi' : lin + BitVec.ofNat 64 i ∈ bytesFrom lin 8 :=
      List.mem_map_of_mem (List.mem_range.2 hi)
    obtain ⟨q, hq⟩ : ∃ q, s'.Held (lin + BitVec.ofNat 64 i) q := by
      obtain ⟨k, hk, hget⟩ := List.mem_iff_getElem.1 hi'
      have hk' : k < ps.length := hall.length_eq ▸ hk
      have hheldk := hall.get hk hk'
      rw [List.get_eq_getElem, hget] at hheldk
      exact ⟨_, hheldk⟩
    exact (hheld _ q hq).ready
  · rw [hps, pokeAll, ← byteStores_eq]
    simp only [scatter, PlainRam.write_eq]

/-- A quad word that was stored is read back, whatever the store wrote
over. -/
theorem stored_linWrite64 {s s' : Machine β} {lin v : U64}
    (h : (linWrite64 lin v).run s = (.ok (), s')) : s'.Stored lin v := by
  unfold linWrite64 at h
  rw [Bounded.run_bind, Fallible.bind_of_ok (run_self s)] at h
  by_cases hp : s.paging = true
  · rw [if_neg (by rw [hp]; decide)] at h
    split at h
    case isTrue hlt =>
      rw [Bounded.run_bind, Fallible.bind_eq_ok] at h
      obtain ⟨p, s₁, hp₁, h⟩ := h
      have hheld := Machine.Held.of_translate hp₁
      obtain rfl : s' = { s₁ with
          icache := s₁.icache.stampWrite p.val,
          bus := Bus.write64 s₁.bus p.val v } :=
        (congrArg Prod.snd h).symm
      have hpaging : s₁.paging = true := by
        rw [Cpu.paging, (MemOnly.translate _ _ _ _ _ hp₁).1]
        exact hp
      have hheld' : Machine.Held { s₁ with
          icache := s₁.icache.stampWrite p.val,
          bus := Bus.write64 s₁.bus p.val v } lin p.val :=
        hheld.congr rfl rfl rfl
      refine .of_write64 (b := s₁.bus) (fun _ => hlt) hheld'.ready ?_
      rw [hheld'.place hpaging]
    case isFalse =>
      unfold linWriteSplit at h
      dsimp only at h
      rw [Fallible.bind_eq_ok] at h
      obtain ⟨ps, s₁, hps, h⟩ := h
      cases h
      exact .of_scatter hp hps
  · rw [if_pos (by simpa using hp)] at h
    obtain rfl : s' = { s with
        icache := s.icache.stampWriteSpan lin (lin + 7),
        bus := Bus.write64 s.bus lin v } :=
      (congrArg Prod.snd h).symm
    have hflat : Machine.place { s with
        icache := s.icache.stampWriteSpan lin (lin + 7),
        bus := Bus.write64 s.bus lin v } lin = lin :=
      if_neg hp
    refine .of_write64 (b := s.bus) (fun h => absurd h hp)
      (fun h => absurd h hp) ?_
    rw [hflat]

end Remu.X64
