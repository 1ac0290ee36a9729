/-
Where the bytes of memory are, and bit strings in it.

A linear address has a place in physical memory: the address itself, or
where the page tables put it. An instruction that reads and then writes
translates the address more than once, for reading and for writing and byte
by byte, with walks that set accessed and dirty bits in between.

# Following a machine

As long as the TLB shows what the tables say, every one of these
translations gives the place the tables had at the start (`Follows`), and
memory is what it was but for accessed and dirty bits set in the entries
that translate the addresses in question. So a word that is read spells the
bytes at the places of its addresses (`Sees`), and one that is written goes
to these places.

# Bit strings

BT, BTS, BTR and BTC of a memory operand and a register take the register
for a signed index into a string of bits, and access the element it falls
in, a word of the operand size. What they test and change is one bit of
memory; and as long as the byte with the bit is not past the wrap of the
offsets, which bit it is depends on the sum of offset and index alone.
-/
import Remu.Lib.BitMemory
import Remu.Lib.BitString
import Remu.X64.Exchange
import Remu.X64.Flags
import Remu.X64.NearCall

namespace Remu.X64

open Word ByteRam

variable {β : Type} [Bus β] [Ram β]

namespace Machine

/-- Where the byte at `lin` is. -/
def physical (s : Machine β) (lin : U64) : Option U64 :=
  if s.paging then (s.mapping lin).map fun m => m.frame ||| (lin &&& 0xFFF)
    else some lin

/-- Bit `j` of the byte at `x` is the accessed or the dirty bit of an entry
that translates an address of `L`. -/
def IsMark (s : Machine β) (L : U64 → Prop) (x : U64) (j : Nat) : Prop :=
  (j = 5 ∨ j = 6) ∧ s.paging = true
    ∧ ∃ lin m, L lin ∧ s.mapping lin = some m ∧ ∃ a ∈ m.path,
      cell β x = cell β a

/-- What the TLB of `t` holds the tables of `s` say. -/
def Shows (s t : Machine β) : Prop :=
  s.paging = true →
    Lookaside.Holds Tlb.slot TlbEntry.tag t.tlb.entries fun page e =>
    ∀ lin : U64, lin >>> 12 = page → ∃ m, s.mapping lin = some m ∧ e.Shows m

/-- The TLB agrees with the page tables. -/
def TlbShows (s : Machine β) : Prop := s.Shows s

/-- The TLB of every state a run reaches agrees with the tables. -/
theorem TlbOk.tlbShows {s : Machine β} (h : s.TlbOk) : s.TlbShows := by
  refine fun _ => h.holds.mono fun page e hv lin hlin => ?_
  obtain ⟨m, hm, hshows, -⟩ := hv lin hlin
  exact ⟨m, hm, hshows⟩

/-- From `s` on only accessed and dirty bits have been set, since the memory
was `b` only those of the addresses of `L`, and the TLB has been filled from
the tables. -/
structure Follows (s : Machine β) (L : U64 → Prop) (b : β) (t : Machine β) :
    Prop where
  marks : s.MarksUp t
  agree : Agree (s.IsMark L) b t.bus
  tlb : s.Shows t

variable {s t t' : Machine β} {L : U64 → Prop} {b : β}

/-- Nothing has happened yet. -/
theorem Follows.refl (h : s.TlbShows) : s.Follows L s.bus s :=
  ⟨.refl s, .refl _ _, h⟩

/-- The memory is looked at from here on. -/
theorem Follows.anew {L' : U64 → Prop} (h : s.Follows L b t) :
    s.Follows L' t.bus t :=
  ⟨h.marks, .refl _ _, h.tlb⟩

/-- It is about the control registers, memory and the TLB. -/
theorem Follows.of_same (h : s.Follows L b t)
    (hregs : t'.regs.toColdRegs = t.regs.toColdRegs)
    (hbus : t'.bus = t.bus) (htlb : t'.tlb = t.tlb) : s.Follows L b t' := by
  have hword : t'.word = t.word := by
    funext a
    rw [word, word, Cpu.wide, Cpu.wide, hregs, hbus]
  refine ⟨⟨?_, ?_, ?_⟩, ?_, ?_⟩
  · rw [← h.marks.paging, Cpu.paging, Cpu.paging, hregs]
  · rw [hregs]
    exact h.marks.tables
  · rw [hword]
    exact h.marks.grows
  · rw [hbus]
    exact h.agree
  · rw [Shows, htlb]
    exact h.tlb

/-- A mark is a matter of the cell, whatever address names it. -/
theorem isMark_cellwise (s : Machine β) (L : U64 → Prop) :
    Cellwise β (s.IsMark L) := by
  rintro x y j heq ⟨hj, hp, lin, m, hlin, hm, a, ha, hx⟩
  exact ⟨hj, hp, lin, m, hlin, hm, a, ha, heq.symm.trans hx⟩

/-- Bytes of a page stay together. -/
theorem physical_add {lin p : U64} (h : s.physical lin = some p) {i : Nat}
    (hin : s.paging = true → lin.toNat % 4096 + i < 4096) :
    s.physical (lin + BitVec.ofNat 64 i) = some (p + BitVec.ofNat 64 i) := by
  unfold physical at h ⊢
  by_cases hp : s.paging = true
  · rw [if_pos hp] at h ⊢
    obtain ⟨m, hm, rfl⟩ := Option.map_eq_some_iff.mp h
    rw [s.mapping_page (page_add lin i (hin hp)), hm, Option.map_some,
      or_offset_add (mapping_frame hm) (hin hp)]
  · rw [if_neg hp] at h ⊢
    cases h
    rfl

/-- A place keeps the offset within the page. -/
theorem physical_low {lin p : U64} (h : s.physical lin = some p) :
    p.toNat % 8 = lin.toNat % 8 := by
  unfold physical at h
  split at h
  · obtain ⟨m, hm, rfl⟩ := Option.map_eq_some_iff.mp h
    have hoff :=
      congrArg BitVec.toNat (offset_or m.frame lin (mapping_frame hm))
    rw [toNat_and_FFF, toNat_and_FFF] at hoff
    omega
  · cases h
    rfl

end Machine

-- ======== translations

/-- A bit of an entry stays, or it is bit 5 or 6 and is set. -/
theorem getLsbD_markEntry (v : U64) (d : Bool) (k : Nat) :
    (markEntry v d).getLsbD k = v.getLsbD k
      ∨ (k = 5 ∨ k = 6) ∧ (markEntry v d).getLsbD k = true := by
  refine (pteMarks.getLsbD_mark v d k).imp_right fun h => ⟨?_, h.2⟩
  have hall : ∀ k < 64, pteMarks.both.getLsbD k = true → k = 5
    ∨ k = 6 := by decide
  exact hall k (BitVec.lt_of_getLsbD h.1) h.1

/-- The bytes of an entry. -/
theorem byteOf_tableWord (wide : Bool) (b : β) (a : U64) {i : Nat}
    (hi : i < if wide then 8 else 4) :
    byteOf (tableWord wide b a) i = byte b (a + BitVec.ofNat 64 i) := by
  cases wide with
  | true => exact byteOf_word64At (byte b) a hi
  | false =>
    have hlow :=
      byteOf_low (n := 32) (tableWord false b a) (i := i)
        (by simp at hi; omega)
    rw [← hlow]
    exact (congrArg (byteOf · i)
      (BitVec.setWidth_setWidth_of_le (get32 b a) (by decide))).trans
      (byteOf_word32At (byte b) a hi)

namespace Machine

variable {s t t' : Machine β} {L : U64 → Prop} {b : β}

/-- Marking a path sets marks only. -/
theorem Follows.agree_markPath (h : s.Follows L b t) {lin : U64} {m : Mapping}
    (hp : s.paging = true) (hL : L lin) (hm : s.mapping lin = some m)
    (write : Bool) :
    Agree (s.IsMark L) b (markPath t.wide write t.word m.path t.bus) := by
  refine EntryMemory.markPath_steps (P := fun b' => Agree (s.IsMark L) b b')
    (fun a ha b' d hb => ?_) h.agree
  have hmark : ∀ i < if t.wide then 8 else 4, ∀ j < 8,
      Risen (s.IsMark L) (a + BitVec.ofNat 64 i) j
        ((t.word a).getLsbD (8 * i + j))
        ((markEntry (t.word a) d).getLsbD (8 * i + j)) := by
    intro i _ j hj
    refine (getLsbD_markEntry (t.word a) d (8 * i + j)).imp_right
      fun hset => ⟨?_, hset.2⟩
    obtain rfl : i = 0 := by omega
    exact ⟨by omega, hp, lin, m, hL, hm, a, ha, by rw [BitVec.add_zero]⟩
  have hword : ∀ i < if t.wide then 8 else 4,
      byteOf (t.word a) i = byte t.bus (a + BitVec.ofNat 64 i) :=
    fun i hi => byteOf_tableWord _ _ _ hi
  show Agree (s.IsMark L) b (putEntry t.wide b' a (markEntry (t.word a) d))
  rw [putEntry_eq_pokeAll, entryStores, entryBytes]
  cases hw : t.wide with
  | true =>
    rw [hw] at hmark hword
    exact hb.mark (s.isMark_cellwise L) h.agree (by decide) hword hmark
  | false =>
    rw [hw] at hmark hword
    refine hb.mark (s.isMark_cellwise L) h.agree (u := (t.word a).setWidth 32)
      (by decide) (fun i hi => ?_) fun i hi j hj => ?_
    · rw [byteOf_low _ (by simp at hi; omega)]
      exact hword i hi
    · have hlow : 8 * i + j < 32 := by
        simp only [Bool.false_eq_true, if_false] at hi
        omega
      rw [BitVec.getLsbD_setWidth, BitVec.getLsbD_setWidth,
        decide_eq_true hlow, Bool.true_and, Bool.true_and]
      exact hmark i hi j hj

/-- Every translation gives the place its address had. -/
theorem Follows.translate (h : s.Follows L b t) (hp : t.paging = true)
    {lin : U64} (hL : L lin)
    (access : Access) : s.Follows L b ((X64.translate lin access).run t).2
      ∧ ∀ q, ((X64.translate lin access).run t).1 = .ok q →
        s.physical lin = some q.val := by
  have hps : s.paging = true := h.marks.paging.symm.trans hp
  have hplace : ∀ {m : Mapping}, s.mapping lin = some m →
      s.physical lin = some (m.frame ||| (lin &&& 0xFFF)) := by
    intro m hm
    rw [physical, if_pos hps, hm]
    rfl
  cases hhit : t.tlbHit lin access with
  | true =>
    obtain ⟨q, hrun, hq⟩ := run_translate_hit hhit
    rw [hrun]
    refine ⟨h, fun q' hq' => ?_⟩
    cases hq'
    have htag := of_decide_eq_true (Bool.and_eq_true_iff.1 hhit).1
    obtain ⟨m, hm, hshows⟩ :=
      h.tlb hps _ _ (Lookaside.look_eq_some.2 ⟨htag, rfl⟩) lin rfl
    rw [hplace hm, hq, tlbPhys, hshows.phys]
  | false =>
    rw [run_translate_miss hhit]
    have hrun := run_walk lin access t
    rcases hw : (walk lin access).run t with ⟨e | q, t'⟩ <;> rw [hw] at hrun
    · obtain ⟨rfl, -⟩ := hrun
      refine ⟨h.of_same rfl rfl rfl, ?_⟩
      intro q hq
      cases hq
    · obtain ⟨m, hmt, -, hq, hwalked⟩ := hrun
      have hm := h.marks.mapping_back hmt
      have hmarks := h.marks.trans (.of_walked hmt hwalked)
      have hagree := h.agree_markPath hps hL hm (access == .write)
      obtain ⟨ic, e, rfl, htag, hshows, -⟩ := hwalked.state
      refine ⟨⟨hmarks, hagree, fun _ => (h.tlb hps).replace fun lin' hlin' => ?_⟩, fun q' hq' => ?_⟩
      · exact ⟨m, (s.mapping_page (hlin'.trans htag)).trans hm, hshows⟩
      · cases hq'
        rw [hplace hm, hq]

end Machine

-- ======== reading

/-- If `t` follows `s₀`, whatever addresses are translated, so does `u`. -/
def Machine.Stays (s₀ t u : Machine β) : Prop :=
  s₀.Follows (fun _ => True) s₀.bus t → s₀.Follows (fun _ => True) s₀.bus u

instance instIsPreorderStays (s₀ : Machine β) :
    IsPreorder (Machine β) s₀.Stays where
  refl _ := id
  trans _ _ _ h h' := h' ∘ h

theorem reading_stays (s₀ : Machine β) : Reading s₀.Stays where
  translate _ hp _ access h := (h.translate hp trivial access).1
  busRead a t h := h.of_same rfl (congrArg Prod.snd (Ram.read_eq t.bus a)) rfl
  busRead16 a t h :=
    h.of_same rfl (congrArg Prod.snd (Ram.read16_eq t.bus a)) rfl
  busRead32 a t h :=
    h.of_same rfl (congrArg Prod.snd (Ram.read32_eq t.bus a)) rfl
  busRead64 a t h :=
    h.of_same rfl (congrArg Prod.snd (Ram.read64_eq t.bus a)) rfl
  note _ _ _ _ h := h.of_same rfl rfl rfl
  rip _ _ h := h.of_same rfl rfl rfl
  fetchPage _ _ _ h := h.of_same rfl rfl rfl

/-- `v` is the `n` bytes of `b` at the places of `lin` and the addresses after
it, but for marks of the addresses of `L` that are set in it. -/
def Machine.Sees (s : Machine β) (L : U64 → Prop) (b : β)
    (lin : U64) (n : Nat) {k : Nat} (v : BitVec k) : Prop :=
  Spells (s.IsMark L) b (fun i => s.physical (lin + BitVec.ofNat 64 i)) n v

section Sees

variable {β : Type} [Bus β] [PlainRam β] {s t t' : Machine β}
  {L : U64 → Prop} {b : β}

namespace Machine

/-- Bytes read where the first of them is. -/
theorem Follows.sees (h : s.Follows L b t) {lin p : U64}
    (hp : s.physical lin = some p) {n k : Nat}
    {v : BitVec k}
    (hin : s.paging = true → ∀ i < n, lin.toNat % 4096 + i < 4096)
    (hv : ∀ i < n, byteOf v i = byte t.bus (p + BitVec.ofNat 64 i)) :
    s.Sees L b lin n v := by
  intro i hi
  refine ⟨_, physical_add hp fun hpg => hin hpg i hi, fun j _ => ?_⟩
  rw [hv i hi]
  exact h.agree _ j

/-- Two halves read one after the other. -/
theorem Sees.join {lin : U64} {m k : Nat} (hk : k = 8 * m) {lo hi : BitVec k}
    (hlo : s.Sees L b lin m lo)
    (hhi : s.Sees L b (lin + BitVec.ofNat 64 m) m hi) :
    s.Sees L b lin (2 * m)
      (lo.setWidth (k + k) ||| (hi.setWidth (k + k) <<< k)) := by
  refine Spells.join hk hlo fun i hi => ?_
  obtain ⟨p, hp, hbit⟩ := hhi i hi
  refine ⟨p, ?_, hbit⟩
  dsimp only at hp ⊢
  rw [BitVec.ofNat_add, ← BitVec.add_assoc, hp]

end Machine

/-- A read from a machine that follows `s` sees what is there in `s`, and the
machine still follows it. -/
def SeesBy (s : Machine β) (L : U64 → Prop) (b : β)
    (lin : U64) (n : Nat) {k : Nat} (rd : Calm β (BitVec k)) : Prop :=
  ∀ t v t', s.Follows L b t → rd.run t = (.ok v, t') → s.Follows L b t'
    ∧ s.Sees L b lin n v

namespace SeesBy

/-- A load sees the byte the tables lead to. -/
theorem linRead8 {lin : U64} (hL : L lin) :
    SeesBy s L b lin 1 (linRead8 lin) := by
  intro t v t' h hrun
  rw [X64.linRead8, Bounded.run_bind, Fallible.bind_of_ok (run_self t)] at hrun
  have hone : ∀ {p : U64} {u : Machine β},
      s.Follows L b u → s.physical lin = some p →
      (busRead p).run u = (.ok v, t') → s.Follows L b t'
        ∧ s.Sees L b lin 1 v := by
    intro p u hu hp hread
    rw [run_ramRead8] at hread
    cases hread
    refine ⟨hu, hu.sees hp (fun _ i hi => by omega) fun i hi => ?_⟩
    obtain rfl : i = 0 := by omega
    rw [byteOf_zero, BitVec.add_zero]
  by_cases hp : t.paging = true
  · rw [if_neg (by rw [hp]; decide), Bounded.run_bind,
      Fallible.bind_eq_ok] at hrun
    obtain ⟨q, u, hq, hread⟩ := hrun
    have htrans := h.translate hp hL .read
    rw [hq] at htrans
    exact hone htrans.1 (htrans.2 q rfl) hread
  · rw [if_pos (by simpa using hp)] at hrun
    have hps : ¬ s.paging = true := fun hps => hp (h.marks.paging.trans hps)
    exact hone h (if_neg hps) hrun

/-- A wide read in one piece or in its halves. -/
theorem wide {w m : Nat} (hw : w = 8 * m) {lin lim : U64}
    (hlim : lim.toNat + 2 * m ≤ 4097)
    (hL : L lin) {one : U64 → Calm β (BitVec (w + w))}
    {lo hi : Calm β (BitVec w)}
    {g : β → U64 → BitVec (w + w)}
    (hone : ∀ p t, (one p).run t = (.ok (g t.bus p), t))
    (hg : ∀ b p, ∀ i < 2 * m,
      byteOf (g b p) i = byte b (p + BitVec.ofNat 64 i))
    (hlo : SeesBy s L b lin m lo)
    (hhi : SeesBy s L b (lin + BitVec.ofNat 64 m) m hi) :
    SeesBy s L b lin (2 * m) (X64.self >>= fun t : Machine β =>
      if !t.paging then one lin
      else if lin &&& 0xFFF < lim
        then X64.translate lin .read >>= fun phys => one phys.val
      else X64.readHalves lo hi) := by
  intro t v t' h hrun
  rw [Bounded.run_bind, Fallible.bind_of_ok (run_self t)] at hrun
  by_cases hp : t.paging = true
  · rw [if_neg (by rw [hp]; decide)] at hrun
    split at hrun
    case isTrue hlt =>
      rw [Bounded.run_bind, Fallible.bind_eq_ok] at hrun
      obtain ⟨q, u, hq, hread⟩ := hrun
      have htrans := h.translate hp hL .read
      rw [hq] at htrans
      rw [hone] at hread
      cases hread
      refine ⟨htrans.1, htrans.1.sees (htrans.2 q rfl) ?_ (hg _ _)⟩
      exact fun _ i hi => offset_lt hlim hlt hi
    case isFalse =>
      simp only [X64.readHalves, Bounded.run_bind, Fallible.bind_eq_ok] at hrun
      obtain ⟨l, t₁, hl, r, t₂, hr, hret⟩ := hrun
      cases hret
      obtain ⟨h₁, hseesLo⟩ := hlo t l t₁ h hl
      obtain ⟨h₂, hseesHi⟩ := hhi t₁ r _ h₁ hr
      exact ⟨h₂, hseesLo.join hw hseesHi⟩
  · rw [if_pos (by simpa using hp), hone] at hrun
    cases hrun
    have hps : ¬ s.paging = true := fun hps => hp (h.marks.paging.trans hps)
    exact ⟨h, h.sees (if_neg hps) (fun hpg => absurd hpg hps) (hg _ _)⟩

theorem linRead16 {lin : U64} (hL : Spans L lin 2) :
    SeesBy s L b lin 2 (linRead16 lin) :=
  wide (m := 1) rfl (by decide) (hL.first (by decide))
    (fun p t => run_ramRead16 p t)
    (fun b p _ hi => byteOf_word16At (byte b) p hi)
    (linRead8 (hL.first (by decide))) (linRead8 (hL 1 (by decide)))

theorem linRead32 {lin : U64} (hL : Spans L lin 4) :
    SeesBy s L b lin 4 (linRead32 lin) :=
  wide (m := 2) rfl (by decide) (hL.first (by decide))
    (fun p t => run_ramRead32 p t)
    (fun b p _ hi => byteOf_word32At (byte b) p hi)
    (linRead16 (Spans.halves (n := 2) hL).1)
      (linRead16 (Spans.halves (n := 2) hL).2)

theorem linRead64 {lin : U64} (hL : Spans L lin 8) :
    SeesBy s L b lin 8 (linRead64 lin) :=
  wide (m := 4) rfl (by decide) (hL.first (by decide))
    (fun p t => run_ramRead64 p t)
    (fun b p _ hi => byteOf_word64At (byte b) p hi)
    (linRead32 (Spans.halves (n := 4) hL).1)
      (linRead32 (Spans.halves (n := 4) hL).2)

end SeesBy

end Sees

-- ======== operands

section Operands

variable {β : Type} [Bus β] [WordRam β] {s t t' : Machine β}
  {L : U64 → Prop} {b : β} {z : OpSize} {seg : U8} {off v : U64}

namespace Machine.Follows

/-- The LOCK check has no part in it. -/
theorem lockCheck (h : s.Follows L b t) {ok : Bool}
    (hrun : (lockCheck ok).run t = (.ok (), t')) : s.Follows L b t' := by
  unfold X64.lockCheck at hrun
  rw [Bounded.run_bind, Fallible.bind_of_ok (run_self t), whenever] at hrun
  split at hrun
  · rw [Bounded.run_bind, Fallible.bind_eq_ok] at hrun
    obtain ⟨_, _, hraise, hmark⟩ := hrun
    obtain ⟨-, rfl⟩ := run_raiseIf_ok hraise
    cases hmark
    exact h.of_same rfl rfl rfl
  · cases hrun
    exact h

/-- A memory operand read at an operand size. -/
theorem readSized (h : s.Follows L b t)
    (hL : ∀ lin, t.linAddr seg off z.width.bytes false = .ok lin →
      Spans L lin z.width.bytes)
    (hrun : (readSized z (.mem seg off)).run t = (.ok v, t')) :
    s.Follows L b t' ∧ ∃ lin, t.linAddr seg off z.width.bytes false = .ok lin
      ∧ s.Sees L b lin z.width.bytes v := by
  have hat : ∀ {n k : Nat} {rd : U64 → Calm β (BitVec k)} {u : BitVec k},
      (∀ lin, t.linAddr seg off n false = .ok lin →
        SeesBy s L b lin n (rd lin)) →
      (X64.linAddr seg off n false >>= rd).run t = (.ok u, t') →
      s.Follows L b t' ∧ ∃ lin, t.linAddr seg off n false = .ok lin
        ∧ s.Sees L b lin n u := by
    intro n k rd u hsees hread
    rw [Bounded.run_bind, Fallible.bind_eq_ok] at hread
    obtain ⟨lin, t₁, hlin, hread⟩ := hread
    rw [X64.linAddr, Bounded.run_bind, Fallible.bind_of_ok (run_self t),
      run_check] at hlin
    obtain rfl : t = t₁ := congrArg Prod.snd hlin
    have hlin := congrArg Prod.fst hlin
    obtain ⟨h', hsaw⟩ := hsees lin hlin t u t' h hread
    exact ⟨h', lin, hlin, hsaw⟩
  have hnarrow :
      ∀ {n k : Nat} (hk : 8 * n = k) (_ : k ≤ 64) {rd : Calm β (BitVec k)},
      ((fun x : BitVec k => x.setWidth 64) <$> rd : Calm β U64).run t
        = (.ok v, t') →
      ∃ u : BitVec k, rd.run t = (.ok u, t') ∧ ∀ i < n,
        byteOf v i = byteOf u i := by
    intro n k hk hk64 rd hread
    rw [Bounded.run_map, Fallible.map_apply] at hread
    rcases hu : rd.run t with ⟨e | u, t₁⟩ <;> rw [hu] at hread <;> cases hread
    exact ⟨u, rfl, fun i hi => byteOf_low u (by omega)⟩
  cases z with
  | O16 =>
    obtain ⟨u, hread, hvu⟩ := hnarrow (n := 2) rfl (by decide) hrun
    obtain ⟨h', lin, hlin, hsees⟩ :=
      hat (fun lin hlin => .linRead16 (hL lin hlin)) hread
    exact ⟨h', lin, hlin, hsees.congr hvu⟩
  | O32 =>
    obtain ⟨u, hread, hvu⟩ := hnarrow (n := 4) rfl (by decide) hrun
    obtain ⟨h', lin, hlin, hsees⟩ :=
      hat (fun lin hlin => .linRead32 (hL lin hlin)) hread
    exact ⟨h', lin, hlin, hsees.congr hvu⟩
  | O64 => exact hat (fun lin hlin => .linRead64 (hL lin hlin)) hrun

/-- The places found for a store are those of its addresses. -/
theorem locateAll (h : s.Follows L b t) {lins ps : List U64}
    (hL : ∀ lin ∈ lins, L lin) (hrun : locateAll lins t = (.ok ps, t')) :
    s.Follows L b t' ∧ ps.map some = lins.map s.physical := by
  by_cases hp : t.paging = true
  · rw [locateAll_paged hp] at hrun
    induction lins generalizing t ps with
    | nil =>
      cases hrun
      exact ⟨h, rfl⟩
    | cons lin rest ih =>
      simp only [translateAll, Bounded.run_bind, Fallible.bind_eq_ok] at hrun
      obtain ⟨q, t₁, hq, qs, t₂, hqs, hret⟩ := hrun
      cases hret
      have htrans := h.translate hp (hL lin List.mem_cons_self) .write
      rw [hq] at htrans
      have hp₁ : t₁.paging = true :=
        htrans.1.marks.paging.trans (h.marks.paging.symm.trans hp)
      obtain ⟨h₂, hrest⟩ :=
        ih htrans.1 (fun l hl => hL l (List.mem_cons_of_mem _ hl)) hqs hp₁
      exact ⟨h₂, by rw [List.map_cons, List.map_cons, hrest, htrans.2 q rfl]⟩
  · have hps : ¬ s.paging = true := fun hps => hp (h.marks.paging.trans hps)
    rw [locateAll_flat (by simpa using hp)] at hrun
    cases hrun
    exact ⟨h, List.map_congr_left fun lin _ => (if_neg hps).symm⟩

/-- A memory operand stored at an operand size. -/
theorem writeSized (h : s.Follows L b t)
    (hL : ∀ lin, t.linAddr seg off z.width.bytes true = .ok lin →
      ∀ l ∈ bytesFrom lin z.width.bytes, L l)
    (hrun : (writeSized z (.mem seg off) v).run t = (.ok (), t')) :
    ∃ lin ps u, t.linAddr seg off z.width.bytes true = .ok lin
      ∧ s.Follows L b u
      ∧ ps.map some = (bytesFrom lin z.width.bytes).map s.physical
      ∧ (∀ x : U64, byte t'.bus x
        = byte (pokeAll u.bus
          (Remu.byteStores ps (v.setWidth (8 * z.width.bytes)))) x)
      ∧ t'.regs = t.regs := by
  obtain ⟨⟨lin, ps, u, hlin, hps, -, hstore⟩, hregs⟩ := stored_of_ok hrun
  obtain ⟨hu, hplaces⟩ := h.locateAll (hL lin hlin) hps
  exact ⟨lin, ps, u, hlin, hu, hplaces, hstore, hregs⟩

end Machine.Follows

end Operands

-- ======== elements

/-- The bytes of an operand are a power of two. -/
def OpSize.log : OpSize → Nat
  | O16 => 1
  | O32 => 2
  | O64 => 3

/-- The element sizes as powers of two. -/
theorem OpSize.log_le (z : OpSize) : z.log + 3 ≤ 64 := by cases z <;> decide

theorem OpSize.bytes_log (z : OpSize) :
    z.width.bytes = 2 ^ z.log := by cases z <;> rfl

/-- The byte displacement of the code is that of an element. -/
theorem elementOff_eq (c : Cpu) (z : OpSize) (off idx : U64) :
    (off + bitDisp z idx) &&& c.dataWrap
      = elementOff c.asize.bits z.log off idx := by
  have hdisp : bitDisp z idx = idx.sshiftRight (z.log + 3) * BitVec.ofNat
    64 (2 ^ z.log) := by
    cases z <;> rfl
  rw [elementOff, ← hdisp, Cpu.dataWrap]
  cases c.asize
  · exact and_mask_eq_low (n := 16) (by decide) _
  · exact and_mask_eq_low (n := 32) (by decide) _
  · exact and_mask_eq_low (n := 64) (by decide) _

/-- The bit within an element. -/
theorem elementBit_mask (z : OpSize) (idx : U64) :
    (idx &&& z.bitMask).toNat = elementBit z.log idx := by
  cases z with
  | O16 => exact toNat_and_mask idx 4 (by decide)
  | O32 => exact toNat_and_mask idx 5 (by decide)
  | O64 => exact toNat_and_mask idx 6 (by decide)

/-- The bit tested lies in the element. -/
theorem elementBit_lt (z : OpSize) (idx : U64) :
    elementBit z.log idx < 8 * z.width.bytes := by
  have hlt : elementBit z.log idx < 2 ^ (z.log + 3) :=
    Nat.mod_lt _ (Nat.two_pow_pos _)
  rwa [Nat.pow_add, Nat.mul_comm, ← z.bytes_log] at hlt

-- ======== addresses of bytes

/-- The linear address of offset `off`. -/
def Cpu.segLinear (c : Cpu) (seg : U8) (off : U64) : U64 :=
  if c.m64 then (if seg = reg.FS
    ∨ seg = reg.GS then (c.regs.seg seg).base else 0) + off
  else ((c.regs.seg seg).base.setWidth 32 + off.setWidth 32).setWidth 64

/-- A checked address is base and offset. -/
theorem Cpu.linAddr_eq {c : Cpu} {seg : U8} {off lin : U64}
    {n : Nat} {write : Bool}
    (h : c.linAddr seg off n write = .ok lin) : lin = c.segLinear seg off := by
  have hok : ∀ {b : Bool} {x : U64} {e : Exception},
      (if b then Except.ok x else .error e) = .ok lin → lin = x := by
    rintro (_ | _) x e hb <;> cases hb
    rfl
  unfold Cpu.linAddr at h
  unfold Cpu.segLinear
  by_cases hm : c.m64 = true
  · rw [if_pos hm] at h ⊢
    exact hok h
  · rw [if_neg hm] at h ⊢
    exact hok h

/-- The byte with bit `idx` of the string at `off` is in its element, and
neither the offsets nor in legacy modes the linear addresses wrap before it. -/
def Cpu.Within (c : Cpu) (z : OpSize) (seg : U8) (off idx : U64) : Prop :=
  let elem := elementOff c.asize.bits z.log off idx
  let i := elementBit z.log idx / 8
  (c.asize = O64 ∨ elem.toNat + i < 2 ^ c.asize.bits)
    ∧ (c.m64 = true ∨ (c.segLinear seg elem).toNat + i < 2 ^ 32)

/-- Linear addresses that do not wrap follow each other as offsets do. -/
theorem Cpu.segLinear_add {c : Cpu} {seg : U8} {off : U64} {i : Nat}
    (h : c.m64 = true ∨ (c.segLinear seg off).toNat + i < 2 ^ 32) :
    c.segLinear seg off + BitVec.ofNat 64 i
      = c.segLinear seg (off + BitVec.ofNat 64 i) := by
  unfold segLinear at h ⊢
  by_cases hm : c.m64 = true
  · rw [if_pos hm, if_pos hm, BitVec.add_assoc]
  · rw [or_iff_right hm, if_neg hm] at h
    rw [if_neg hm, if_neg hm]
    have hsum : ((off + BitVec.ofNat 64 i).setWidth 32 : U32)
        = off.setWidth 32 + BitVec.ofNat 32 i := by
      rw [BitVec.setWidth_add _ _ (by decide),
        BitVec.setWidth_ofNat_of_le (by decide)]
    rw [hsum, ← BitVec.add_assoc]
    generalize (c.regs.seg seg).base.setWidth 32 + off.setWidth 32 = lin at h
    apply BitVec.eq_of_toNat_eq
    have hlin := lin.isLt
    simp only [BitVec.toNat_add, BitVec.toNat_setWidth,
      BitVec.toNat_ofNat] at h ⊢
    omega

/-- A linear address goes by the mode and the segments. -/
theorem Cpu.segLinear_congr {c c' : Cpu} (hm : c'.m64 = c.m64)
    (hseg : c'.regs.seg = c.regs.seg) :
    c'.segLinear = c.segLinear := by
  funext seg off
  rw [segLinear, segLinear, hm, hseg]

/-- The linear addresses of an operand at the operand size. -/
def Cpu.operandBytes (c : Cpu) (seg : U8) (off lin : U64) : Prop :=
  lin ∈ bytesFrom (c.segLinear seg off) c.osize.width.bytes

/-- Those of the element in which index `idx` from `off` falls. -/
def Cpu.elementBytes (c : Cpu) (seg : U8) (off idx : U64) : U64 → Prop :=
  c.operandBytes seg (elementOff c.asize.bits c.osize.log off idx)

-- ======== one element

section Access

variable {β : Type} [Bus β] [WordRam β] {s t s' : Machine β} {b : β}

/-- Where bit `n` of a segment is: a byte of memory and a bit of the byte. -/
def Machine.bitPlace (s : Machine β) (seg : U8) (n : Nat) :
    Option (U64 × Nat) :=
  (s.physical (s.segLinear seg (BitVec.ofNat 64 (n / 8)))).map
    fun p => (p, n % 8)

/-- The bit that index `idx` from `off` names at operand size `z`: a bit of the
element it falls in. -/
def Machine.bitNamed (s : Machine β) (z : OpSize) (seg : U8) (off idx : U64) :
    Option (U64 × Nat) :=
  (s.physical (s.segLinear seg (elementOff s.asize.bits z.log off idx)
    + BitVec.ofNat 64 (elementBit z.log idx / 8))).map fun p =>
      (p, elementBit z.log idx % 8)

/-- Within reach it is bit `off * 8 + idx` of the segment. -/
theorem Machine.bitNamed_eq {z : OpSize} {seg : U8} {off idx : U64}
    (h : s.Within z seg off idx) :
    s.bitNamed z seg off idx
      = s.bitPlace seg (bitNumber s.asize.bits off idx) := by
  obtain ⟨hbyte, hbit⟩ :=
    element_number (by cases s.asize <;> decide) z.log_le off idx
    (h.1.imp_left fun h => by rw [h]; rfl)
  rw [bitNamed, bitPlace, ← hbit, ← hbyte, Cpu.segLinear_add h.2]

/-- An index into the first element names the same bit at both sizes. -/
theorem Machine.bitNamed_small {idx : U64} {z z' : OpSize}
    (h : idx.toNat < 8 * z.width.bytes)
    (h' : idx.toNat < 8 * z'.width.bytes) (seg : U8) (off : U64) :
    s.bitNamed z seg off idx = s.bitNamed z' seg off idx := by
  have hfirst : ∀ z : OpSize, idx.toNat < 8 * z.width.bytes →
      elementOff s.asize.bits z.log off idx = low s.asize.bits off
        ∧ elementBit z.log idx = idx.toNat := by
    intro z hz
    have hlt : idx.toNat < 2 ^ (z.log + 3) := by
      rwa [Nat.pow_add, Nat.mul_comm, ← z.bytes_log]
    exact elementOff_first (by cases z <;> decide) _ off hlt
  rw [bitNamed, bitNamed, (hfirst _ h).1, (hfirst _ h).2,
    (hfirst _ h').1, (hfirst _ h').2]

/-- A test of one bit of an element in memory, and what it does to it. -/
theorem btApply_memory {seg : U8} {off bit : U64} {op : U8} {cost : U32}
    (h : s.Follows (t.operandBytes seg off) b t)
    (hbit : bit.toNat < 8 * t.osize.width.bytes)
    (hrun : (btApply (.mem seg off) op bit).run t = (.ok cost, s')) :
    ∃ p, s.physical (t.segLinear seg off + BitVec.ofNat 64 (bit.toNat / 8)) = some p
      ∧ BitTest (s.IsMark (t.operandBytes seg off)) b s'.bus op p
        (bit.toNat % 8) (s'.regs.rflags.contains RFlags.CF) := by
  simp only [btApply, Bounded.run_bind, Fallible.bind_eq_ok] at hrun
  obtain ⟨_, t₁, hlock, v, t₂, hread, _, t₃, hflag, _, t₄, hwrite, hret⟩ := hrun
  cases hret
  have hsame : SameFile t t₁ := ReadsOn.lockCheck _ _ _ _ hlock
  have h₁ := h.lockCheck hlock
  have hm₁ : t₁.m64 = t.m64 := m64_of_run hlock
  have hm₂ : t₂.m64 = t.m64 := (m64_of_run hread).trans hm₁
  have hsame₂ : SameFile t t₂ :=
    hsame.trans ((MemOnly.readOp _).readsOn _ _ _ hread)
  have hat : ∀ {u : Machine β} {n : Nat} {write : Bool}
      {lin : U64}, u.m64 = t.m64 →
      u.regs.seg = t.regs.seg → u.linAddr seg off n write = .ok lin →
        lin = t.segLinear seg off :=
    fun hm hseg hlin => by
      rw [Cpu.linAddr_eq hlin, Cpu.segLinear_congr hm hseg]
  rw [readOp, Bounded.run_bind, Fallible.bind_of_ok (run_self t₁),
    hsame.osize] at hread
  obtain ⟨h₂, lin, hlin, hsees⟩ := h₁.readSized (fun lin hlin => by
    rw [hat hm₁ (by rw [hsame.regs]) hlin]
    exact spans_bytesFrom _ _) hread
  obtain rfl := hat hm₁ (by rw [hsame.regs]) hlin
  obtain ⟨p, hp, -⟩ := hsees (bit.toNat / 8) (by omega)
  obtain ⟨h₃, hcf, hsize, hm₃, hseg⟩ : s.Follows (t.operandBytes seg off) b t₃
      ∧ t₃.regs.rflags.contains RFlags.CF = v.getLsbD bit.toNat
      ∧ t₃.osize = t.osize ∧ t₃.m64 = t₂.m64 ∧ t₃.regs.seg = t₂.regs.seg := by
    cases hflag
    exact ⟨h₂.of_same rfl rfl rfl, RFlags.contains_set _ (by decide) _,
      hsame₂.osize, rfl, rfl⟩
  by_cases hop : op = 0
  · rw [whenever, if_neg (not_not.mpr hop)] at hwrite
    cases hwrite
    rw [hop, hcf]
    exact ⟨p, hp, .of_read hbit hsees h₃.agree hp⟩
  · rw [whenever, if_pos hop, writeOp, Bounded.run_bind,
      Fallible.bind_of_ok (run_self t₃), hsize] at hwrite
    have hseg₃ : t₃.regs.seg = t.regs.seg := by rw [hseg, hsame₂.regs]
    obtain ⟨lin, ps, u, hlin, hu, hplaces, hstore, hregs⟩ :=
      h₃.writeSized (fun lin hlin l hl => by
      rwa [hat (hm₃.trans hm₂) hseg₃ hlin] at hl) hwrite
    obtain rfl := hat (hm₃.trans hm₂) hseg₃ hlin
    have hword :=
      setWidth_withBit (m := 8 * t.osize.width.bytes)
        (by cases t.osize <;> decide) op v
      bit.toNat
    have hcf' : v.getLsbD bit.toNat
        = (v.setWidth (8 * t.osize.width.bytes)).getLsbD bit.toNat := by
      rw [BitVec.getLsbD_setWidth, decide_eq_true hbit, Bool.true_and]
    have hcells :=
      cells_places (β := β) hplaces (fun _ _ => Machine.physical_low)
      (by cases t.osize <;> decide)
    rw [hregs, hcf, hcf']
    refine ⟨p, hp, .of_store (s.isMark_cellwise _) ?_ hbit hcells
      (spells_places hplaces le_rfl hsees) hu.agree hop ?_
      ((getElem_places hplaces (by omega)).trans hp)⟩
    · rw [length_places hplaces]
    · rw [← hword]
      exact hstore

-- ======== the instruction

/-- What BT (`op` 0), BTS, BTR and BTC of a memory operand and a register do,
and which bit they do it to. Fetching the operands sets accessed bits and
changes no others; from there on only marks of the entries that translate
the element are set, and the bit named is tested and changed. -/
structure Machine.BitStringLaw (s : Machine β) : Prop where
  fetch : ∀ {m : ModRm} {o : Operand} {s₁ : Machine β},
    modrm.run s = (.ok (m, o), s₁) →
    Agree (s.IsMark fun _ => True) s.bus s₁.bus
  run : ∀ {op : U8} {cost : U32} {m : ModRm} {seg : U8} {off : U64}
    {s₁ s' : Machine β},
    modrm.run s = (.ok (m, .mem seg off), s₁) →
      (btRegIndex op).run s = (.ok cost, s') →
    let idx := s.regs.signedSized s.osize m.reg
    ∃ p k, s.bitNamed s.osize seg off idx = some (p, k)
      ∧ BitTest (s.IsMark (s.elementBytes seg off idx)) s₁.bus s'.bus op p k
        (s'.regs.rflags.contains RFlags.CF)
  string : ∀ z seg off idx, s.Within z seg off idx →
    s.bitNamed z seg off idx = s.bitPlace seg (bitNumber s.asize.bits off idx)
  sizes : ∀ (z z' : OpSize) seg off (idx : U64),
    idx.toNat < 8 * z.width.bytes →
    idx.toNat < 8 * z'.width.bytes →
      s.bitNamed z seg off idx = s.bitNamed z' seg off idx
  pairs : ∀ z z' seg off off' idx idx',
    s.Within z seg off idx → s.Within z' seg off' idx' →
    bitNumber s.asize.bits off idx = bitNumber s.asize.bits off' idx' →
    s.bitNamed z seg off idx = s.bitNamed z' seg off' idx'

/-- Where the TLB agrees with the tables, operands are fetched from places
that stay. -/
theorem follows_modrm (htlb : s.TlbShows) {m : ModRm}
    {o : Operand} {s₁ : Machine β}
    (hop : modrm.run s = (.ok (m, o), s₁)) :
    s.Follows (fun _ => True) s.bus s₁ := by
  have hfollows := (reading_stays s).modrm s (.refl htlb)
  rwa [hop] at hfollows

/-- The instruction on a memory element. -/
theorem btRegIndex_memory {op : U8} {cost : U32} {m : ModRm}
    {seg : U8} {off : U64}
    {s₁ : Machine β} (htlb : s.TlbShows)
    (hop : modrm.run s = (.ok (m, .mem seg off), s₁))
    (hrun : (btRegIndex op).run s = (.ok cost, s')) :
    let idx := s.regs.signedSized s.osize m.reg
    ∃ p k, s.bitNamed s.osize seg off idx = some (p, k)
      ∧ BitTest (s.IsMark (s.elementBytes seg off idx)) s₁.bus s'.bus op p k
        (s'.regs.rflags.contains RFlags.CF) := by
  intro idx
  have hsame : SameFile s s₁ := ReadsOn.modrm _ _ _ hop
  have hlinear : s₁.segLinear = s.segLinear :=
    Cpu.segLinear_congr (m64_of_run hop) (by rw [hsame.regs])
  rw [btRegIndex, Bounded.run_bind, Fallible.bind_of_ok hop, Bounded.run_bind,
    Fallible.bind_of_ok (run_self s₁)] at hrun
  have hsigned : s₁.regs.signedSized s₁.osize m.reg = idx := by
    rw [hsame.osize, hsame.regs]
    rfl
  have hwrap :
    s₁.dataWrap = s.dataWrap := by rw [Cpu.dataWrap, Cpu.dataWrap, hsame.asize]
  dsimp only at hrun
  rw [hsigned, hsame.osize, hwrap, elementOff_eq] at hrun
  have hlt : (idx &&& s.osize.bitMask).toNat < 8 * s₁.osize.width.bytes := by
    rw [elementBit_mask, hsame.osize]
    exact elementBit_lt _ _
  obtain ⟨p, hp, htest⟩ :=
    btApply_memory (follows_modrm htlb hop).anew hlt hrun
  rw [elementBit_mask, hlinear] at hp
  have helem :
      s₁.operandBytes seg (elementOff s.asize.bits s.osize.log off idx)
      = s.elementBytes seg off idx := by
    funext lin
    rw [Cpu.elementBytes, Cpu.operandBytes, Cpu.operandBytes,
      hlinear, hsame.osize]
  rw [elementBit_mask, helem] at htest
  refine ⟨p, _, ?_, htest⟩
  rw [Machine.bitNamed, hp]
  rfl

/-- **The law of bit strings** holds wherever the TLB agrees with the page
tables. -/
theorem bt_lawful (htlb : s.TlbShows) : s.BitStringLaw where
  fetch hop := (follows_modrm htlb hop).agree
  run := btRegIndex_memory htlb
  string _ _ _ _ h := s.bitNamed_eq h
  sizes _ _ seg off _ h h' := s.bitNamed_small h h' seg off
  pairs _ _ _ _ _ _ _ h h' heq := by
    rw [s.bitNamed_eq h, s.bitNamed_eq h', heq]

end Access

end Remu.X64
