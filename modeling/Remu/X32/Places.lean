/-
Where the bytes of memory are, in the 32-bit core, and its bit strings.

The 386 half of `X64.Places`: the tables have two levels and one format of
entries, CR3 is all that says where they are, and a translation knows reads
from writes and nothing else. So the place of an address is the address
itself or what the two entries make of it, and from the start of an
instruction to its end the place stays (`Follows`).

# Bit strings

As in the 64-bit core a register is a signed index into the string of bits
at a memory operand, and the access is to the word or doubleword it falls
in. The bit tested goes through the rotator, so CF is the low bit of a
rotation and OF changes with it. A segment base is added without a bound, so
nothing but the wrap of the offsets can part a byte from its neighbours.
-/
import Remu.Lib.BitMemory
import Remu.Lib.BitString
import Remu.X32.Execute0F
import Remu.X32.Flags
import Remu.X32.Reading
import Remu.X32.Stores

namespace Remu.X32

open Word ByteRam

variable {β : Type} [Bus β] [Ram β]

/-- A frame has no offset bits. -/
theorem mapping_frame {rd : U32 → U32} {cr3 lin : U32} {m : Mapping}
    (hm : tableMapping rd cr3 lin = some m) : m.frame &&& 0xFFF = 0 := by
  obtain ⟨pteA, -, -, -, -, hframe⟩ := tableMapping_eq_some hm
  rw [hframe, BitVec.and_assoc, show FRAME &&& 0xFFF = 0 by decide]
  exact BitVec.and_zero

namespace Machine

/-- Where the byte at `lin` is. -/
def physical (s : Machine β) (lin : U32) : Option U32 :=
  if s.paging then (s.mapping lin).map fun m => m.frame ||| (lin &&& 0xFFF)
    else some lin

/-- Bit `j` of the byte at `x` is the accessed or the dirty bit of an entry
that translates an address of `L`. -/
def IsMark (s : Machine β) (L : U32 → Prop) (x : U32) (j : Nat) : Prop :=
  (j = 5 ∨ j = 6) ∧ s.paging = true
    ∧ ∃ lin m, L lin ∧ s.mapping lin = some m ∧ ∃ a ∈ m.path,
      cell β x = cell β a

/-- What the TLB of `t` holds the tables of `s` say. -/
def Shows (s t : Machine β) : Prop :=
  s.paging = true →
    Lookaside.Holds Tlb.slot TlbEntry.tag t.tlb.entries fun page e =>
    ∀ lin : U32, lin >>> 12 = page → ∃ m, s.mapping lin = some m ∧ e.Shows m

/-- The TLB agrees with the page tables. -/
def TlbShows (s : Machine β) : Prop := s.Shows s

/-- The TLB of every state a run reaches agrees with the tables. -/
theorem TlbOk.tlbShows {s : Machine β} (h : s.TlbOk) : s.TlbShows := by
  refine fun _ => Lookaside.Holds.mono h fun page e hv lin hlin => ?_
  obtain ⟨m, hm, hshows, -⟩ := hv lin hlin
  exact ⟨m, hm, hshows⟩

/-- From `s` on only accessed and dirty bits have been set, since the memory
was `b` only those of the addresses of `L`, and the TLB has been filled from
the tables. -/
structure Follows (s : Machine β) (L : U32 → Prop) (b : β) (t : Machine β) :
    Prop where
  marks : s.MarksUp t
  agree : Agree (s.IsMark L) b t.bus
  tlb : s.Shows t

variable {s t t' : Machine β} {L : U32 → Prop} {b : β}

/-- Nothing has happened yet. -/
theorem Follows.refl (h : s.TlbShows) : s.Follows L s.bus s :=
  ⟨.refl s, .refl _ _, h⟩

/-- The memory is looked at from here on. -/
theorem Follows.anew {L' : U32 → Prop} (h : s.Follows L b t) :
    s.Follows L' t.bus t :=
  ⟨h.marks, .refl _ _, h.tlb⟩

/-- It is about the control registers, memory and the TLB. -/
theorem Follows.of_same (h : s.Follows L b t)
    (hregs : t'.regs.toColdRegs = t.regs.toColdRegs)
    (hbus : t'.bus = t.bus) (htlb : t'.tlb = t.tlb) : s.Follows L b t' := by
  have hword : t'.word = t.word := by
    funext a
    rw [word, word, hbus]
  refine ⟨⟨?_, ?_, ?_⟩, ?_, ?_⟩
  · rw [← h.marks.paging, Cpu.paging, Cpu.paging, hregs]
  · rw [hregs]
    exact h.marks.cr3
  · rw [hword]
    exact h.marks.grows
  · rw [hbus]
    exact h.agree
  · rw [Shows, htlb]
    exact h.tlb

/-- A mark is a matter of the cell, whatever address names it. -/
theorem isMark_cellwise (s : Machine β) (L : U32 → Prop) :
    Cellwise β (s.IsMark L) := by
  rintro x y j heq ⟨hj, hp, lin, m, hlin, hm, a, ha, hx⟩
  exact ⟨hj, hp, lin, m, hlin, hm, a, ha, heq.symm.trans hx⟩

/-- Bytes of a page stay together. -/
theorem physical_add {lin p : U32} (h : s.physical lin = some p) {i : Nat}
    (hin : s.paging = true → lin.toNat % 4096 + i < 4096) :
    s.physical (lin + BitVec.ofNat 32 i) = some (p + BitVec.ofNat 32 i) := by
  unfold physical at h ⊢
  by_cases hp : s.paging = true
  · rw [if_pos hp] at h ⊢
    obtain ⟨m, hm, rfl⟩ := Option.map_eq_some_iff.mp h
    rw [s.mapping_page (page_add lin i (hin hp)), hm, Option.map_some,
      or_offset_add (mapping_frame hm) (hin hp)]
  · rw [if_neg hp] at h ⊢
    cases h
    rfl

/-- A place keeps the offset within the page. -/
theorem physical_low {lin p : U32} (h : s.physical lin = some p) :
    p.toNat % 8 = lin.toNat % 8 := by
  unfold physical at h
  split at h
  · obtain ⟨m, hm, rfl⟩ := Option.map_eq_some_iff.mp h
    have hoff :=
      congrArg BitVec.toNat (offset_or m.frame lin (mapping_frame hm))
    rw [toNat_and_FFF, toNat_and_FFF] at hoff
    omega
  · cases h
    rfl

end Machine

-- ======== translations

/-- A bit of an entry stays, or it is bit 5 or 6 and is set. -/
theorem getLsbD_markEntry (v : U32) (d : Bool) (k : Nat) :
    (pteMarks.mark v d).getLsbD k = v.getLsbD k
      ∨ (k = 5 ∨ k = 6) ∧ (pteMarks.mark v d).getLsbD k = true := by
  refine (pteMarks.getLsbD_mark v d k).imp_right fun h => ⟨?_, h.2⟩
  have hall : ∀ k < 32, pteMarks.both.getLsbD k = true → k = 5
    ∨ k = 6 := by decide
  exact hall k (BitVec.lt_of_getLsbD h.1) h.1

namespace Machine

variable {s t t' : Machine β} {L : U32 → Prop} {b : β}

/-- Marking a path sets marks only. -/
theorem Follows.agree_markPath (h : s.Follows L b t) {lin : U32} {m : Mapping}
    (hp : s.paging = true) (hL : L lin) (hm : s.mapping lin = some m)
    (write : Bool) :
    Agree (s.IsMark L) b (markPath write t.word m.path t.bus) := by
  refine EntryMemory.markPath_steps (P := fun b' => Agree (s.IsMark L) b b')
    (fun a ha b' d hb => ?_) h.agree
  show Agree (s.IsMark L) b (put32 b' a (pteMarks.mark (t.word a) d))
  rw [put32_eq_pokeAll]
  refine hb.mark (s.isMark_cellwise L) h.agree (by decide)
    (fun i hi => byteOf_word32At (byte t.bus) a hi) fun i _ j hj => ?_
  refine (getLsbD_markEntry (t.word a) d (8 * i + j)).imp_right
    fun hset => ⟨?_, hset.2⟩
  obtain rfl : i = 0 := by omega
  exact ⟨by omega, hp, lin, m, hL, hm, a, ha, by rw [BitVec.add_zero]⟩

/-- Every translation gives the place its address had. -/
theorem Follows.translate (h : s.Follows L b t) (hp : t.paging = true)
    {lin : U32} (hL : L lin)
    (write : Bool) : s.Follows L b ((X32.translate lin write).run t).2
      ∧ ∀ q, ((X32.translate lin write).run t).1 = .ok q →
        s.physical lin = some q.val := by
  have hps : s.paging = true := h.marks.paging.symm.trans hp
  have hplace : ∀ {m : Mapping}, s.mapping lin = some m →
      s.physical lin = some (m.frame ||| (lin &&& 0xFFF)) := by
    intro m hm
    rw [physical, if_pos hps, hm]
    rfl
  cases hhit : t.tlbHit lin write with
  | true =>
    obtain ⟨q, hrun, hq⟩ := run_translate_hit hhit
    rw [hrun]
    refine ⟨h, fun q' hq' => ?_⟩
    cases hq'
    have htag := of_decide_eq_true (Bool.and_eq_true_iff.1 hhit).1
    obtain ⟨m, hm, hshows⟩ :=
      h.tlb hps _ _ (Lookaside.look_eq_some.2 ⟨htag, rfl⟩) lin rfl
    rw [hplace hm, hq, tlbPhys, hshows.phys]
  | false =>
    rw [run_translate_miss hhit]
    have hrun := run_walk lin write t
    rcases hw : (walk lin write).run t with ⟨e | q, t'⟩ <;> rw [hw] at hrun
    · obtain ⟨rfl, -⟩ := hrun
      refine ⟨h.of_same rfl rfl rfl, ?_⟩
      intro q hq
      cases hq
    · obtain ⟨m, hmt, -, hq, hwalked⟩ := hrun
      have hm := h.marks.mapping_back hmt
      have hmarks := h.marks.trans (.of_walked hmt hwalked)
      have hagree := h.agree_markPath hps hL hm write
      obtain ⟨ic, e, rfl, htag, hshows, -⟩ := hwalked.state
      refine ⟨⟨hmarks, hagree, fun _ => (h.tlb hps).replace fun lin' hlin' => ?_⟩, fun q' hq' => ?_⟩
      · exact ⟨m, (s.mapping_page (hlin'.trans htag)).trans hm, hshows⟩
      · cases hq'
        rw [hplace hm, hq]

end Machine

-- ======== reading

/-- A bus read is a byte of memory. -/
theorem run_ramRead8 (a : U32) (s : Machine β) :
    (busRead a).run s = (.ok (byte s.bus a), s) := by
  unfold busRead touchBus
  simp only [Ram.read_eq]

theorem run_ramRead16 (a : U32) (s : Machine β) :
    (busRead16 a).run s = (.ok (get16 s.bus a), s) := by
  unfold busRead16 touchBus
  simp only [Ram.read16_eq]

/-- If `t` follows `s₀`, whatever addresses are translated, so does `u`. -/
def Machine.Stays (s₀ t u : Machine β) : Prop :=
  s₀.Follows (fun _ => True) s₀.bus t → s₀.Follows (fun _ => True) s₀.bus u

instance instIsPreorderStays (s₀ : Machine β) :
    IsPreorder (Machine β) s₀.Stays where
  refl _ := id
  trans _ _ _ h h' := h' ∘ h

theorem reading_stays (s₀ : Machine β) : Reading s₀.Stays where
  translate t hp lin write q t' hrun h := by
    have htrans : s₀.Follows _ _ ((X32.translate lin write).run t).2 :=
      (h.translate hp trivial write).1
    rwa [hrun] at htrans
  busRead a t v t' hrun h := by
    rw [run_ramRead8] at hrun
    cases hrun
    exact h
  busRead16 a t v t' hrun h := by
    rw [run_ramRead16] at hrun
    cases hrun
    exact h
  busRead32 a t v t' hrun h := by
    rw [run_ramRead32] at hrun
    cases hrun
    exact h
  note _ _ _ h := h.of_same rfl rfl rfl
  eip _ _ h := h.of_same rfl rfl rfl

/-- `v` is the `n` bytes of `b` at the places of `lin` and the addresses after
it, but for marks of the addresses of `L` that are set in it. -/
def Machine.Sees (s : Machine β) (L : U32 → Prop) (b : β)
    (lin : U32) (n : Nat) {k : Nat} (v : BitVec k) : Prop :=
  Spells (s.IsMark L) b (fun i => s.physical (lin + BitVec.ofNat 32 i)) n v

namespace Machine

variable {s t t' : Machine β} {L : U32 → Prop} {b : β}

/-- Bytes read where the first of them is. -/
theorem Follows.sees (h : s.Follows L b t) {lin p : U32}
    (hp : s.physical lin = some p) {n k : Nat}
    {v : BitVec k}
    (hin : s.paging = true → ∀ i < n, lin.toNat % 4096 + i < 4096)
    (hv : ∀ i < n, byteOf v i = byte t.bus (p + BitVec.ofNat 32 i)) :
    s.Sees L b lin n v := by
  intro i hi
  refine ⟨_, physical_add hp fun hpg => hin hpg i hi, fun j _ => ?_⟩
  rw [hv i hi]
  exact h.agree _ j

/-- Two halves read one after the other. -/
theorem Sees.join {lin : U32} {m k : Nat} (hk : k = 8 * m) {lo hi : BitVec k}
    (hlo : s.Sees L b lin m lo)
    (hhi : s.Sees L b (lin + BitVec.ofNat 32 m) m hi) :
    s.Sees L b lin (2 * m)
      (lo.setWidth (k + k) ||| (hi.setWidth (k + k) <<< k)) := by
  refine Spells.join hk hlo fun i hi => ?_
  obtain ⟨p, hp, hbit⟩ := hhi i hi
  refine ⟨p, ?_, hbit⟩
  dsimp only at hp ⊢
  rw [BitVec.ofNat_add, ← BitVec.add_assoc, hp]

end Machine

/-- A read from a machine that follows `s` sees what is there in `s`, and the
machine still follows it. -/
def SeesBy (s : Machine β) (L : U32 → Prop) (b : β)
    (lin : U32) (n : Nat) {k : Nat} (rd : Calm β (BitVec k)) : Prop :=
  ∀ t v t', s.Follows L b t → rd.run t = (.ok v, t') → s.Follows L b t'
    ∧ s.Sees L b lin n v

namespace SeesBy

variable {s : Machine β} {L : U32 → Prop} {b : β}

/-- A load sees the byte the tables lead to. -/
theorem linRead8 {lin : U32} (hL : L lin) :
    SeesBy s L b lin 1 (linRead8 lin) := by
  intro t v t' h hrun
  rw [X32.linRead8, Bounded.run_bind, Fallible.bind_of_ok (run_self t)] at hrun
  have hone : ∀ {p : U32} {u : Machine β},
      s.Follows L b u → s.physical lin = some p →
      (busRead p).run u = (.ok v, t') → s.Follows L b t'
        ∧ s.Sees L b lin 1 v := by
    intro p u hu hp hread
    rw [run_ramRead8] at hread
    cases hread
    refine ⟨hu, hu.sees hp (fun _ i hi => by omega) fun i hi => ?_⟩
    obtain rfl : i = 0 := by omega
    rw [byteOf_zero, BitVec.add_zero]
  by_cases hp : t.paging = true
  · rw [if_neg (by rw [hp]; decide), Bounded.run_bind,
      Fallible.bind_eq_ok] at hrun
    obtain ⟨q, u, hq, hread⟩ := hrun
    have htrans := h.translate hp hL false
    rw [hq] at htrans
    exact hone htrans.1 (htrans.2 q rfl) hread
  · rw [if_pos (by simpa using hp)] at hrun
    have hps : ¬ s.paging = true := fun hps => hp (h.marks.paging.trans hps)
    exact hone h (if_neg hps) hrun

/-- A wide read in one piece or in its halves. -/
theorem wide {w m : Nat} (hw : w = 8 * m) {lin lim : U32}
    (hlim : lim.toNat + 2 * m ≤ 4097)
    (hL : L lin) {one : U32 → Calm β (BitVec (w + w))}
    {lo hi : Calm β (BitVec w)}
    {g : β → U32 → BitVec (w + w)}
    (hone : ∀ p t, (one p).run t = (.ok (g t.bus p), t))
    (hg : ∀ b p, ∀ i < 2 * m,
      byteOf (g b p) i = byte b (p + BitVec.ofNat 32 i))
    (hlo : SeesBy s L b lin m lo)
    (hhi : SeesBy s L b (lin + BitVec.ofNat 32 m) m hi) :
    SeesBy s L b lin (2 * m) (X32.self >>= fun t : Machine β =>
      if !t.paging then one lin
      else if lin &&& 0xFFF < lim
        then X32.translate lin false >>= fun phys => one phys.val
      else X32.readHalves lo hi) := by
  intro t v t' h hrun
  rw [Bounded.run_bind, Fallible.bind_of_ok (run_self t)] at hrun
  by_cases hp : t.paging = true
  · rw [if_neg (by rw [hp]; decide)] at hrun
    split at hrun
    case isTrue hlt =>
      rw [Bounded.run_bind, Fallible.bind_eq_ok] at hrun
      obtain ⟨q, u, hq, hread⟩ := hrun
      have htrans := h.translate hp hL false
      rw [hq] at htrans
      rw [hone] at hread
      cases hread
      refine ⟨htrans.1, htrans.1.sees (htrans.2 q rfl) ?_ (hg _ _)⟩
      exact fun _ i hi => offset_lt hlim hlt hi
    case isFalse =>
      simp only [X32.readHalves, Bounded.run_bind, Fallible.bind_eq_ok] at hrun
      obtain ⟨l, t₁, hl, r, t₂, hr, hret⟩ := hrun
      cases hret
      obtain ⟨h₁, hseesLo⟩ := hlo t l t₁ h hl
      obtain ⟨h₂, hseesHi⟩ := hhi t₁ r _ h₁ hr
      exact ⟨h₂, hseesLo.join hw hseesHi⟩
  · rw [if_pos (by simpa using hp), hone] at hrun
    cases hrun
    have hps : ¬ s.paging = true := fun hps => hp (h.marks.paging.trans hps)
    exact ⟨h, h.sees (if_neg hps) (fun hpg => absurd hpg hps) (hg _ _)⟩

theorem linRead16 {lin : U32} (hL : Spans L lin 2) :
    SeesBy s L b lin 2 (linRead16 lin) :=
  wide (m := 1) rfl (by decide) (hL.first (by decide))
    (fun p t => run_ramRead16 p t)
    (fun b p _ hi => byteOf_word16At (byte b) p hi)
    (linRead8 (hL.first (by decide))) (linRead8 (hL 1 (by decide)))

theorem linRead32 {lin : U32} (hL : Spans L lin 4) :
    SeesBy s L b lin 4 (linRead32 lin) :=
  wide (m := 2) rfl (by decide) (hL.first (by decide))
    (fun p t => run_ramRead32 p t)
    (fun b p _ hi => byteOf_word32At (byte b) p hi)
    (linRead16 (Spans.halves (n := 2) hL).1)
      (linRead16 (Spans.halves (n := 2) hL).2)

end SeesBy

-- ======== operands

/-- The width of a store at an operand size. -/
def sizeWidth (wide : Bool) : StoreWidth := if wide then .dword else .word

omit [Ram β] in
/-- A store to memory checks its segment first. -/
theorem run_writeSized (wide : Bool) (seg : U8) (off v : U32) (s : Machine β) :
    (writeSized wide (.mem seg off) v).run s
      = (X32.linAddr seg off (sizeWidth wide).bytes true >>= fun lin =>
          linStore (sizeWidth wide) lin (v.setWidth _) : Calm β Unit).run s := by
  cases wide with
  | false => rfl
  | true =>
    have hv : (v.setWidth (8 * (sizeWidth true).bytes) : U32) = v :=
      BitVec.setWidth_eq v
    rw [hv]
    rfl

omit [Ram β] in
/-- Finding places moves no register. -/
theorem regs_locateAll {s s' : Machine β} {lins ps : List U32}
    (h : locateAll lins s = (.ok ps, s')) : s'.regs = s.regs := by
  cases hp : s.paging with
  | false =>
    rw [locateAll_flat hp] at h
    cases h
    rfl
  | true =>
    rw [locateAll_paged hp] at h
    exact (MemOnly.translateAll _ _ _ _ h).1

namespace Machine.Follows

variable {s t t' : Machine β} {L : U32 → Prop} {b : β} {wide : Bool}
  {seg : U8} {off v : U32}

/-- The LOCK check has no part in it. -/
theorem lockCheck (h : s.Follows L b t) {ok : Bool}
    (hrun : (lockCheck ok).run t = (.ok (), t')) : s.Follows L b t' := by
  unfold X32.lockCheck at hrun
  rw [Bounded.run_bind, Fallible.bind_of_ok (run_self t), whenever] at hrun
  split at hrun
  · rw [Bounded.run_bind, Fallible.bind_eq_ok] at hrun
    obtain ⟨_, _, hraise, hmark⟩ := hrun
    obtain ⟨-, rfl⟩ := run_raiseIf_ok hraise
    cases hmark
    exact h.of_same rfl rfl rfl
  · cases hrun
    exact h

/-- A memory operand read at an operand size. -/
theorem readSized (h : s.Follows L b t)
    (hL : ∀ lin, t.linAddr seg off (sizeWidth wide).bytes false = .ok lin →
      Spans L lin (sizeWidth wide).bytes)
    (hrun : (readSized wide (.mem seg off)).run t = (.ok v, t')) :
    s.Follows L b t' ∧ ∃ lin,
      t.linAddr seg off (sizeWidth wide).bytes false = .ok lin
      ∧ s.Sees L b lin (sizeWidth wide).bytes v := by
  have hat : ∀ {n k : Nat} {rd : U32 → Calm β (BitVec k)} {u : BitVec k},
      (∀ lin, t.linAddr seg off n false = .ok lin →
        SeesBy s L b lin n (rd lin)) →
      (X32.linAddr seg off n false >>= rd).run t = (.ok u, t') →
      s.Follows L b t' ∧ ∃ lin, t.linAddr seg off n false = .ok lin
        ∧ s.Sees L b lin n u := by
    intro n k rd u hsees hread
    rw [Bounded.run_bind, Fallible.bind_eq_ok] at hread
    obtain ⟨lin, t₁, hlin, hread⟩ := hread
    rw [X32.linAddr, Bounded.run_bind, Fallible.bind_of_ok (run_self t),
      run_check] at hlin
    obtain rfl : t = t₁ := congrArg Prod.snd hlin
    have hlin := congrArg Prod.fst hlin
    obtain ⟨h', hsaw⟩ := hsees lin hlin t u t' h hread
    exact ⟨h', lin, hlin, hsaw⟩
  cases wide with
  | false =>
    change ((·.setWidth 32) <$> readOp16 (.mem seg off) : Calm β U32).run t
      = _ at hrun
    rw [Bounded.run_map, Fallible.map_apply] at hrun
    rcases hu : (readOp16 (.mem seg off)).run t with ⟨e | u, t₁⟩
      <;> rw [hu] at hrun <;> cases hrun
    obtain ⟨h', lin, hlin, hsees⟩ :=
      hat (fun lin hlin => .linRead16 (hL lin hlin)) hu
    refine ⟨h', lin, hlin, hsees.congr fun i hi => byteOf_low u ?_⟩
    have hi2 : i < 2 := hi
    omega
  | true => exact hat (fun lin hlin => .linRead32 (hL lin hlin)) hrun

/-- The places found for a store are those of its addresses. -/
theorem locateAll (h : s.Follows L b t) {lins ps : List U32}
    (hL : ∀ lin ∈ lins, L lin) (hrun : locateAll lins t = (.ok ps, t')) :
    s.Follows L b t' ∧ ps.map some = lins.map s.physical := by
  by_cases hp : t.paging = true
  · rw [locateAll_paged hp] at hrun
    induction lins generalizing t ps with
    | nil =>
      cases hrun
      exact ⟨h, rfl⟩
    | cons lin rest ih =>
      simp only [translateAll, Bounded.run_bind, Fallible.bind_eq_ok] at hrun
      obtain ⟨q, t₁, hq, qs, t₂, hqs, hret⟩ := hrun
      cases hret
      have htrans := h.translate hp (hL lin List.mem_cons_self) true
      rw [hq] at htrans
      have hp₁ : t₁.paging = true :=
        htrans.1.marks.paging.trans (h.marks.paging.symm.trans hp)
      obtain ⟨h₂, hrest⟩ :=
        ih htrans.1 (fun l hl => hL l (List.mem_cons_of_mem _ hl)) hqs hp₁
      exact ⟨h₂, by rw [List.map_cons, List.map_cons, hrest, htrans.2 q rfl]⟩
  · have hps : ¬ s.paging = true := fun hps => hp (h.marks.paging.trans hps)
    rw [locateAll_flat (by simpa using hp)] at hrun
    cases hrun
    exact ⟨h, List.map_congr_left fun lin _ => (if_neg hps).symm⟩

/-- A memory operand stored at an operand size. -/
theorem writeSized (h : s.Follows L b t)
    (hL : ∀ lin, t.linAddr seg off (sizeWidth wide).bytes true = .ok lin →
      ∀ l ∈ bytesFrom lin (sizeWidth wide).bytes, L l)
    (hrun : (writeSized wide (.mem seg off) v).run t = (.ok (), t')) :
    ∃ lin ps u, t.linAddr seg off (sizeWidth wide).bytes true = .ok lin
      ∧ s.Follows L b u
      ∧ ps.map some = (bytesFrom lin (sizeWidth wide).bytes).map s.physical
      ∧ (∀ x : U32, byte t'.bus x
        = byte (pokeAll u.bus
          (byteStores ps (v.setWidth (8 * (sizeWidth wide).bytes)))) x)
      ∧ t'.regs = t.regs := by
  rw [run_writeSized, X32.linAddr, bind_assoc, Bounded.run_bind,
    Fallible.bind_of_ok (run_self t), Bounded.run_bind, Fallible.bind_apply,
    run_check] at hrun
  rcases hlin : t.linAddr seg off (sizeWidth wide).bytes true with e | lin
    <;> rw [hlin] at hrun
  · cases hrun
  · change (linStore (sizeWidth wide) lin _).run t = _ at hrun
    rw [run_linStore, Fallible.bind_eq_ok] at hrun
    obtain ⟨ps, u, hps, hput⟩ := hrun
    cases hput
    obtain ⟨hu, hplaces⟩ := h.locateAll (hL lin hlin) hps
    refine ⟨lin, ps, u, rfl, hu, hplaces, fun x => ?_,
      (regs_locateAll hps : u.regs = t.regs)⟩
    rw [scatter, pokeAll]
    simp only [Ram.write_eq]

end Machine.Follows

-- ======== elements

/-- The bytes of an operand are a power of two. -/
def sizeLog (wide : Bool) : Nat := if wide then 2 else 1

/-- The element sizes as powers of two. -/
theorem bytes_sizeLog (wide : Bool) :
    (sizeWidth wide).bytes = 2 ^ sizeLog wide := by
  cases wide <;> rfl

/-- The width of offsets. -/
def Cpu.asizeBits (c : Cpu) : Nat := if c.asize32 then 32 else 16

/-- No address is wider than 32 bits. -/
theorem Cpu.asizeBits_le (c : Cpu) : c.asizeBits ≤ 32 := by
  unfold asizeBits
  split <;> decide

/-- The byte displacement of the code is that of an element. -/
theorem elementOff_eq (c : Cpu) (wide : Bool) (off idx : U32) :
    (off + bitDisp wide idx) &&& c.dataWrap
      = elementOff c.asizeBits (sizeLog wide) off idx := by
  have hdisp : bitDisp wide idx
      = idx.sshiftRight (sizeLog wide + 3) * BitVec.ofNat 32
        (2 ^ sizeLog wide) := by
    cases wide <;> rfl
  rw [elementOff, ← hdisp, Cpu.dataWrap, Cpu.asizeBits]
  cases c.asize32
  · exact and_mask_eq_low (n := 16) (by decide) _
  · exact and_mask_eq_low (n := 32) (by decide) _

/-- The bit within an element. -/
theorem elementBit_mask (wide : Bool) (idx : U32) :
    (idx &&& bitMask wide).toNat = elementBit (sizeLog wide) idx := by
  cases wide with
  | false => exact toNat_and_mask idx 4 (by decide)
  | true => exact toNat_and_mask idx 5 (by decide)

/-- The bit tested lies in the element. -/
theorem elementBit_lt (wide : Bool) (idx : U32) :
    elementBit (sizeLog wide) idx < 8 * (sizeWidth wide).bytes := by
  have hlt : elementBit (sizeLog wide) idx < 2 ^ (sizeLog wide + 3) :=
    Nat.mod_lt _ (Nat.two_pow_pos _)
  rwa [Nat.pow_add, Nat.mul_comm, ← bytes_sizeLog] at hlt

/-- The linear address of offset `off`. -/
def Cpu.segLinear (c : Cpu) (seg : U8) (off : U32) : U32 :=
  (c.regs.seg seg).base + off

/-- A checked address is base and offset. -/
theorem Cpu.linAddr_eq {c : Cpu} {seg : U8} {off lin : U32}
    {n : Nat} {write : Bool}
    (h : c.linAddr seg off n write = .ok lin) : lin = c.segLinear seg off := by
  unfold Cpu.linAddr at h
  split at h <;> cases h
  rfl

/-- The byte with bit `idx` of the string at `off` is in its element, and the
offsets do not wrap before it. -/
def Cpu.Within (c : Cpu) (wide : Bool) (off idx : U32) : Prop :=
  c.asize32 = true
    ∨ (elementOff c.asizeBits (sizeLog wide) off idx).toNat + elementBit
      (sizeLog wide) idx / 8
      < 2 ^ c.asizeBits

/-- The linear addresses of an operand at the operand size. -/
def Cpu.operandBytes (c : Cpu) (seg : U8) (off lin : U32) : Prop :=
  lin ∈ bytesFrom (c.segLinear seg off) (sizeWidth c.osize32).bytes

/-- Those of the element in which index `idx` from `off` falls. -/
def Cpu.elementBytes (c : Cpu) (seg : U8) (off idx : U32) : U32 → Prop :=
  c.operandBytes seg (elementOff c.asizeBits (sizeLog c.osize32) off idx)

-- ======== the flag

namespace Alu

/-- The rotation by its number takes a bit to CF. -/
theorem carry_bitTest {w : Nat} (v : BitVec w) {bit : Nat}
    (hbit : bit < w) (f : EFlags) :
    (bitTest v bit f).2.contains EFlags.CF = v.getLsbD bit := by
  have hlow : (v.rotateRight bit).getLsbD 0 = v.getLsbD bit := by
    rw [BitVec.getLsbD_rotateRight_of_lt hbit,
      decide_eq_true (show 0 < w - bit by omega), cond_true, Nat.add_zero]
  rw [bitTest, EFlags.contains_set_other _ (by decide),
    EFlags.contains_set _ (by decide), hlow]

end Alu

variable {β : Type} [Bus β]

/-- The test at the operand size moves nothing but flags, and CF is the bit. -/
theorem run_bitTest {wide : Bool} {v r : U32} {bit : Nat}
    (hbit : bit < 8 * (sizeWidth wide).bytes) {s s' : Machine β}
    (h : (onWidth wide (Alu.bitTest · bit) (Alu.bitTest · bit) v).run s
      = (.ok r, s')) :
    ∃ f, s' = s.withHot { s.regs.toHotRegs with eflags := f }
      ∧ f.contains EFlags.CF = v.getLsbD bit := by
  cases wide with
  | true =>
    rw [onWidth, if_pos rfl, run_withFlags] at h
    cases h
    exact ⟨_, rfl, Alu.carry_bitTest v hbit _⟩
  | false =>
    have h16 : bit < 16 := hbit
    rw [onWidth, if_neg Bool.false_ne_true, Bounded.run_map,
      Fallible.map_apply, run_withFlags] at h
    cases h
    refine ⟨_, rfl, (Alu.carry_bitTest (v.setWidth 16) h16 _).trans ?_⟩
    rw [BitVec.getLsbD_setWidth, decide_eq_true h16, Bool.true_and]

-- ======== one element

section Access

variable [Ram β] {s t s' : Machine β} {b : β}

/-- Where bit `n` of a segment is: a byte of memory and a bit of the byte. -/
def Machine.bitPlace (s : Machine β) (seg : U8) (n : Nat) :
    Option (U32 × Nat) :=
  (s.physical (s.segLinear seg (BitVec.ofNat 32 (n / 8)))).map
    fun p => (p, n % 8)

/-- The bit that index `idx` from `off` names at an operand size: a bit of the
element it falls in. -/
def Machine.bitNamed (s : Machine β) (wide : Bool) (seg : U8) (off idx : U32) :
    Option (U32 × Nat) :=
  (s.physical (s.segLinear seg (elementOff s.asizeBits (sizeLog wide) off idx)
    + BitVec.ofNat 32 (elementBit (sizeLog wide) idx / 8))).map
      fun p => (p, elementBit (sizeLog wide) idx % 8)

/-- Within reach it is bit `off * 8 + idx` of the segment. -/
theorem Machine.bitNamed_eq {wide : Bool} {off idx : U32}
    (h : s.Within wide off idx) (seg : U8) :
    s.bitNamed wide seg off idx
      = s.bitPlace seg (bitNumber s.asizeBits off idx) := by
  obtain ⟨hbyte, hbit⟩ := element_number s.asizeBits_le (r := sizeLog wide)
    (by cases wide <;> decide) off idx
      (h.imp_left fun h => by rw [Cpu.asizeBits, h]; rfl)
  rw [bitNamed, bitPlace, ← hbit, ← hbyte, Cpu.segLinear,
    Cpu.segLinear, BitVec.add_assoc]

/-- An index into the first element names the same bit at both sizes. -/
theorem Machine.bitNamed_small {idx : U32} {wide wide' : Bool}
    (h : idx.toNat < 8 * (sizeWidth wide).bytes)
    (h' : idx.toNat < 8 * (sizeWidth wide').bytes) (seg : U8) (off : U32) :
    s.bitNamed wide seg off idx = s.bitNamed wide' seg off idx := by
  have hfirst : ∀ z : Bool, idx.toNat < 8 * (sizeWidth z).bytes →
      elementOff s.asizeBits (sizeLog z) off idx = low s.asizeBits off
        ∧ elementBit (sizeLog z) idx = idx.toNat := by
    intro z hz
    have hlt : idx.toNat < 2 ^ (sizeLog z + 3) := by
      rwa [Nat.pow_add, Nat.mul_comm, ← bytes_sizeLog]
    exact elementOff_first (by cases z <;> decide) _ off hlt
  rw [bitNamed, bitNamed, (hfirst _ h).1, (hfirst _ h).2,
    (hfirst _ h').1, (hfirst _ h').2]

/-- A test of one bit of an element in memory, and what it does to it. -/
theorem btApply_memory {seg : U8} {off bit : U32} {op : U8} {cost : U32}
    (h : s.Follows (t.operandBytes seg off) b t)
    (hbit : bit.toNat < 8 * (sizeWidth t.osize32).bytes)
    (hrun : (btApply (.mem seg off) op bit).run t = (.ok cost, s')) :
    ∃ p, s.physical (t.segLinear seg off + BitVec.ofNat 32 (bit.toNat / 8)) = some p
      ∧ BitTest (s.IsMark (t.operandBytes seg off)) b s'.bus op p
        (bit.toNat % 8) (s'.regs.eflags.contains EFlags.CF) := by
  simp only [btApply, Bounded.run_bind, Fallible.bind_eq_ok] at hrun
  obtain ⟨_, t₁, hlock, v, t₂, hread, _, _, hself, _, t₃, hflag, _, t₄,
    hwrite, hret⟩ := hrun
  cases hself
  cases hret
  have hsame : Unmoved t t₁ := OnlyReads.lockCheck _ _ _ _ hlock
  have hsame₂ : Unmoved t t₂ := hsame.trans (OnlyReads.readOp _ _ _ _ hread)
  have h₁ := h.lockCheck hlock
  have hat : ∀ {u : Machine β} {n : Nat} {write : Bool}
      {lin : U32}, u.regs.seg = t.regs.seg →
      u.linAddr seg off n write = .ok lin → lin = t.segLinear seg off := by
    intro u n write lin hu hlin
    rw [Cpu.linAddr_eq hlin, Cpu.segLinear, Cpu.segLinear, hu]
  rw [readOp, Bounded.run_bind, Fallible.bind_of_ok (run_self t₁),
    hsame.osize32] at hread
  obtain ⟨h₂, lin, hlin, hsees⟩ := h₁.readSized (fun lin hlin => by
    rw [hat hsame.seg hlin]
    exact spans_bytesFrom _ _) hread
  obtain rfl := hat hsame.seg hlin
  obtain ⟨p, hp, -⟩ := hsees (bit.toNat / 8) (by omega)
  rw [hsame₂.osize32] at hflag
  obtain ⟨h₃, hcf₃, hsize₃, hseg₃⟩ : s.Follows (t.operandBytes seg off) b t₃
      ∧ t₃.regs.eflags.contains EFlags.CF = v.getLsbD bit.toNat
      ∧ t₃.osize32 = t.osize32 ∧ t₃.regs.seg = t.regs.seg := by
    obtain ⟨f, rfl, hcf⟩ := run_bitTest hbit hflag
    exact ⟨h₂.of_same rfl rfl rfl, hcf, hsame₂.osize32, hsame₂.seg⟩
  by_cases hop : op = 0
  · rw [whenever, if_neg (not_not.mpr hop)] at hwrite
    cases hwrite
    rw [hop, hcf₃]
    exact ⟨p, hp, .of_read hbit hsees h₃.agree hp⟩
  · rw [whenever, if_pos hop, writeOp, Bounded.run_bind,
      Fallible.bind_of_ok (run_self t₃), hsize₃] at hwrite
    obtain ⟨lin, ps, u, hlin, hu, hplaces, hstore, hregs⟩ :=
      h₃.writeSized (fun lin hlin l hl => by
      rwa [hat hseg₃ hlin] at hl) hwrite
    obtain rfl := hat hseg₃ hlin
    have hword := setWidth_withBit (m := 8 * (sizeWidth t.osize32).bytes)
      (by cases t.osize32 <;> decide) op v bit.toNat
    have hcf' : v.getLsbD bit.toNat
        = (v.setWidth (8 * (sizeWidth t.osize32).bytes)).getLsbD
          bit.toNat := by
      rw [BitVec.getLsbD_setWidth, decide_eq_true hbit, Bool.true_and]
    have hcells :=
      cells_places (β := β) hplaces (fun _ _ => Machine.physical_low)
      (by cases t.osize32 <;> decide)
    rw [hregs, hcf₃, hcf']
    refine ⟨p, hp, .of_store (s.isMark_cellwise _) ?_ hbit hcells
      (spells_places hplaces le_rfl hsees) hu.agree hop ?_
      ((getElem_places hplaces (by omega)).trans hp)⟩
    · rw [length_places hplaces]
    · rw [← hword]
      exact hstore

-- ======== the instruction

/-- What BT (`op` 0), BTS, BTR and BTC of a memory operand and a register do,
and which bit they do it to. Fetching the operands sets accessed bits and
changes no others; from there on only marks of the entries that translate
the element are set, and the bit named is tested and changed. -/
structure Machine.BitStringLaw (s : Machine β) : Prop where
  fetch : ∀ {m : ModRm} {o : Operand} {s₁ : Machine β},
    modrm.run s = (.ok (m, o), s₁) →
    Agree (s.IsMark fun _ => True) s.bus s₁.bus
  run : ∀ {op : U8} {cost : U32} {m : ModRm} {seg : U8} {off : U32}
    {s₁ s' : Machine β},
    modrm.run s = (.ok (m, .mem seg off), s₁) →
      (btRegIndex op).run s = (.ok cost, s') →
    let idx := s.regs.signedSized s.osize32 m.reg
    ∃ p k, s.bitNamed s.osize32 seg off idx = some (p, k)
      ∧ BitTest (s.IsMark (s.elementBytes seg off idx)) s₁.bus s'.bus op p k
        (s'.regs.eflags.contains EFlags.CF)
  string : ∀ wide seg off idx, s.Within wide off idx →
    s.bitNamed wide seg off idx
      = s.bitPlace seg (bitNumber s.asizeBits off idx)
  sizes : ∀ wide wide' seg off (idx : U32),
    idx.toNat < 8 * (sizeWidth wide).bytes →
    idx.toNat < 8 * (sizeWidth wide').bytes →
    s.bitNamed wide seg off idx = s.bitNamed wide' seg off idx
  pairs : ∀ wide wide' seg off off' idx idx',
    s.Within wide off idx → s.Within wide' off' idx' →
    bitNumber s.asizeBits off idx = bitNumber s.asizeBits off' idx' →
    s.bitNamed wide seg off idx = s.bitNamed wide' seg off' idx'

/-- Where the TLB agrees with the tables, operands are fetched from places
that stay. -/
theorem follows_modrm (htlb : s.TlbShows) {m : ModRm}
    {o : Operand} {s₁ : Machine β}
    (hop : modrm.run s = (.ok (m, o), s₁)) :
    s.Follows (fun _ => True) s.bus s₁ :=
  (reading_stays s).modrm _ _ _ hop (.refl htlb)

/-- The instruction on a memory element. -/
theorem btRegIndex_memory {op : U8} {cost : U32} {m : ModRm}
    {seg : U8} {off : U32}
    {s₁ : Machine β} (htlb : s.TlbShows)
    (hop : modrm.run s = (.ok (m, .mem seg off), s₁))
    (hrun : (btRegIndex op).run s = (.ok cost, s')) :
    let idx := s.regs.signedSized s.osize32 m.reg
    ∃ p k, s.bitNamed s.osize32 seg off idx = some (p, k)
      ∧ BitTest (s.IsMark (s.elementBytes seg off idx)) s₁.bus s'.bus op p k
        (s'.regs.eflags.contains EFlags.CF) := by
  intro idx
  have hsame : Unmoved s s₁ := OnlyReads.modrm _ _ _ hop
  have hlinear : s₁.segLinear = s.segLinear := by
    funext seg off
    rw [Cpu.segLinear, Cpu.segLinear, hsame.seg]
  rw [btRegIndex, Bounded.run_bind, Fallible.bind_of_ok hop, Bounded.run_bind,
    Fallible.bind_of_ok (run_self s₁)] at hrun
  have hsigned : s₁.regs.signedSized s₁.osize32 m.reg = idx := by
    rw [hsame.osize32, hsame.regs]
    rfl
  have hwrap : s₁.dataWrap = s.dataWrap := by
    rw [Cpu.dataWrap, Cpu.dataWrap, hsame.asize32]
  dsimp only at hrun
  rw [hsigned, hsame.osize32, hwrap, elementOff_eq] at hrun
  have hlt : (idx &&& bitMask s.osize32).toNat
    < 8 * (sizeWidth s₁.osize32).bytes := by
    rw [elementBit_mask, hsame.osize32]
    exact elementBit_lt _ _
  obtain ⟨p, hp, htest⟩ :=
    btApply_memory (follows_modrm htlb hop).anew hlt hrun
  rw [elementBit_mask, hlinear] at hp
  have helem :
      s₁.operandBytes seg (elementOff s.asizeBits (sizeLog s.osize32) off idx)
      = s.elementBytes seg off idx := by
    funext lin
    rw [Cpu.elementBytes, Cpu.operandBytes, Cpu.operandBytes,
      hlinear, hsame.osize32]
  rw [elementBit_mask, helem] at htest
  refine ⟨p, _, ?_, htest⟩
  rw [Machine.bitNamed, hp]
  rfl

/-- **The law of bit strings** holds wherever the TLB agrees with the page
tables. -/
theorem bt_lawful (htlb : s.TlbShows) : s.BitStringLaw where
  fetch hop := (follows_modrm htlb hop).agree
  run := btRegIndex_memory htlb
  string _ seg _ _ h := s.bitNamed_eq h seg
  sizes _ _ seg off _ h h' := s.bitNamed_small h h' seg off
  pairs _ _ seg _ _ _ _ h h' heq := by
    rw [s.bitNamed_eq h, s.bitNamed_eq h', heq]

end Access

end Remu.X32
