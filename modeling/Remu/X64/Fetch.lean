/-
Instruction fetch as a stream of bytes.

When the physical address of an instruction is known without a walk and
its bytes lie in one page, fetching it is reading consecutive bytes of
flat memory: nothing but RIP and the length counter moves. `Streams` says
that of a state, and `Fetches` of a computation: it consumes so many bytes
and its value is a function of them. The wide fetches, which read a word
at once when the page allows it, are then worth the same as their halves.

# Two halves

A computation that succeeded has read the stream (`sound`), whatever the
limit checks on its way; and where the checks pass it succeeds
(`complete`). The first half is about the state a record was decoded in,
the second about the state it is compared with.
-/
import Remu.X64.Step

namespace Remu.X64

open Word

-- ======== the addresses

namespace Cpu

/-- The linear address `rip` names. -/
def fetchLinAt (c : Cpu) (rip : U64) : U64 :=
  let lin := (c.regs.seg reg.CS).base + rip
  if c.m64 then lin else lin &&& 0xFFFFFFFF

/-- The physical address `rip` names, when it is known without a walk. -/
def fetchPhys (c : Cpu) (rip : U64) : Option U64 :=
  let lin := c.fetchLinAt rip
  if !c.paging then some lin
  else if lin >>> 12 = c.fetchTag then some (c.fetchPage ||| (lin &&& 0xFFF))
  else none

/-- The cache is looked up by the address the fetch of RIP reads. -/
theorem icachePhys_eq (c : Cpu) : c.icachePhys = c.fetchPhys c.regs.rip := rfl

/-- The linear addresses of a page follow each other. -/
theorem fetchLinAt_add (c : Cpu) (rip : U64) {i : Nat}
    (hpage : (c.fetchLinAt rip &&& 0xFFF).toNat + i < 0x1000) :
    c.fetchLinAt (rip + BitVec.ofNat 64 i)
      = c.fetchLinAt rip + BitVec.ofNat 64 i := by
  unfold fetchLinAt at hpage ⊢
  dsimp only at hpage ⊢
  by_cases hm : c.m64 = true
  · simp only [if_pos hm, BitVec.add_assoc]
  · simp only [if_neg hm] at hpage ⊢
    rw [toNat_and_FFF, toNat_and_low32] at hpage
    apply BitVec.eq_of_toNat_eq
    rw [BitVec.toNat_add, toNat_and_low32, toNat_and_low32, ← BitVec.add_assoc,
      BitVec.toNat_add, BitVec.toNat_ofNat]
    omega

/-- So do the physical ones. -/
theorem fetchPhys_add {c : Cpu} {rip phys : U64} {i : Nat}
    (hframe : c.fetchPage &&& ~~~PHYS_MASK = 0)
    (hphys : c.fetchPhys rip = some phys)
    (hpage : (phys &&& 0xFFF).toNat + i < 0x1000) :
    c.fetchPhys (rip + BitVec.ofNat 64 i)
      = some (phys + BitVec.ofNat 64 i) := by
  have haligned : c.fetchPage &&& 0xFFF = 0 :=
    and_eq_zero_of_sub hframe (by decide)
  unfold fetchPhys at hphys ⊢
  dsimp only at hphys ⊢
  split at hphys
  case isTrue hoff =>
    cases hphys
    rw [if_pos hoff, c.fetchLinAt_add rip hpage]
  case isFalse hon =>
    split at hphys
    case isFalse => cases hphys
    case isTrue htag =>
      cases hphys
      rw [offset_or _ _ haligned] at hpage
      rw [if_neg hon, c.fetchLinAt_add rip hpage,
        page_add _ i (by rwa [← toNat_and_FFF]), if_pos htag]
      congr 1
      apply BitVec.eq_of_toNat_eq
      rw [toNat_or_offset _ _ haligned, BitVec.toNat_add, BitVec.toNat_add,
        toNat_or_offset _ _ haligned, BitVec.toNat_ofNat]
      rw [toNat_and_FFF] at hpage
      have h0 : c.fetchPage.toNat % 4096 = 0 := by
        rw [← toNat_and_FFF, haligned]
        rfl
      have := c.fetchPage.isLt
      omega

end Cpu

-- ======== the stream

variable {π : Type} {α γ : Type}

/-- The instruction at `start` is `code`, `n` bytes of it known to be
fetched from consecutive addresses, and the fetch stands behind the first
`ilen` of them. -/
structure Streams (code : Nat → U8) (start : U64) (n : Nat)
    (s : Machine (FlatBus π)) :
    Prop where
  rip : s.regs.rip = start + BitVec.ofNat 64 s.ilen.toNat
  tagged : s.paging = false → s.fetchTag = EMPTY
  bytes : ∃ base, ∀ i < n,
    s.fetchPhys (start + BitVec.ofNat 64 i) = some (base + BitVec.ofNat 64 i)
    ∧ s.bus.mem (base + BitVec.ofNat 64 i) = code i

/-- The first `n` bytes from `start` pass the fetch checks. -/
structure Readable (start : U64) (n : Nat) (s : Machine (FlatBus π)) :
    Prop where
  short : n ≤ 15
  ok : ∀ i < n, s.fetchOk (start + BitVec.ofNat 64 i) = true

/-- The state after `k` bytes are consumed. -/
def Machine.advance {β : Type} (s : Machine β) (k : Nat) : Machine β :=
  (s.withDecode { s.toDecodeState with ilen := s.ilen + BitVec.ofNat 8 k }).withHot
    { s.regs.toHotRegs with rip := s.regs.rip + BitVec.ofNat 64 k }

section Stream

variable {code : Nat → U8} {start : U64} {n : Nat} {s : Machine (FlatBus π)}

/-- The instruction length counts the bytes fetched, below 256. -/
theorem Machine.ilen_advance (s : Machine (FlatBus π)) {k : Nat}
    (h : s.ilen.toNat + k < 256) :
    (s.advance k).ilen.toNat = s.ilen.toNat + k := by
  have hlen : (s.advance k).ilen = s.ilen + BitVec.ofNat 8 k := rfl
  rw [hlen, BitVec.toNat_add, BitVec.toNat_ofNat]
  omega

/-- Advancing twice is advancing by the sum. -/
theorem Machine.advance_advance (s : Machine (FlatBus π)) (j k : Nat) :
    (s.advance j).advance k = s.advance (j + k) := by
  show (s.withDecode { s.toDecodeState with
      ilen := s.ilen + BitVec.ofNat 8 j + BitVec.ofNat 8 k }).withHot
    { s.regs.toHotRegs with rip := s.regs.rip + BitVec.ofNat 64 j + BitVec.ofNat 64 k } = _
  rw [BitVec.add_assoc, BitVec.add_assoc, ← BitVec.ofNat_add,
    ← BitVec.ofNat_add]
  rfl

/-- What is left of a stream streams on. -/
theorem Streams.advance (h : Streams code start n s) {k : Nat}
    (hk : s.ilen.toNat + k < 256) :
    Streams code start n (s.advance k) where
  rip := by
    rw [s.ilen_advance hk, BitVec.ofNat_add, ← BitVec.add_assoc, ← h.rip]
    rfl
  tagged := h.tagged
  bytes := h.bytes

/-- The decoder's own fields do not touch the stream. -/
theorem Streams.withDecode (h : Streams code start n s) {d : DecodeState}
    (hd : d.ilen = s.ilen) :
    Streams code start n (s.withDecode d) where
  rip := by
    have hlen : (s.withDecode d).ilen = s.ilen := hd
    rw [hlen]
    exact h.rip
  tagged := h.tagged
  bytes := h.bytes

/-- The bytes stay readable as the fetch advances. -/
theorem Readable.advance (h : Readable start n s) (k : Nat) :
    Readable start n (s.advance k) :=
  ⟨h.short, h.ok⟩

/-- The bytes the fetch stands before. -/
theorem Streams.ahead (h : Streams code start n s) (hn : s.ilen.toNat < n) :
    ∃ p, s.icachePhys = some p ∧ ∀ i, s.ilen.toNat + i < n →
      s.bus.mem (p + BitVec.ofNat 64 i) = code (s.ilen.toNat + i) := by
  obtain ⟨base, hbytes⟩ := h.bytes
  refine ⟨_, by rw [Cpu.icachePhys_eq, h.rip, (hbytes _ hn).1], fun i hi => ?_⟩
  rw [BitVec.add_assoc, ← BitVec.ofNat_add]
  exact (hbytes _ hi).2

/-- The next byte is readable and is the next byte of the code. -/
theorem Streams.next (h : Streams code start n s) (hn : s.ilen.toNat < n) :
    ∃ p, s.icachePhys = some p ∧ s.bus.mem p = code s.ilen.toNat := by
  obtain ⟨p, hp, hmem⟩ := h.ahead hn
  exact ⟨p, hp, by simpa using hmem 0 (by simpa using hn)⟩

/-- A page number is never the empty tag. -/
theorem page_ne_empty (a : U64) : a >>> 12 ≠ EMPTY := by
  intro h
  have h' := congrArg BitVec.toNat h
  rw [toNat_page] at h'
  have := a.isLt
  have hempty : (EMPTY : U64).toNat = 2 ^ 64 - 1 := rfl
  omega

/-- When the cached page answers, its address is the stream's. -/
theorem Streams.cached (h : Streams code start n s) {p : U64}
    (hp : s.icachePhys = some p)
    (htag : s.fetchLin >>> 12 = s.fetchTag) :
    s.fetchPage ||| (s.fetchLin &&& 0xFFF) = p := by
  have hon : s.paging = true := by
    by_contra hoff
    rw [h.tagged (Bool.eq_false_of_not_eq_true hoff)] at htag
    exact page_ne_empty _ htag
  rw [Cpu.icachePhys] at hp
  simpa only [hon, Bool.not_true, Bool.false_eq_true, if_false, htag, if_true,
    Option.some.injEq] using hp

end Stream

-- ======== byte fetches

variable [Ports π]

/-- At a known address a fetched byte is a byte of memory. -/
theorem run_fetchByte {s : Machine (FlatBus π)} {p : U64}
    (hp : s.icachePhys = some p) :
    (fetchByte s.fetchLin).run s = (.ok (s.bus.mem p), s) := by
  rw [Cpu.icachePhys] at hp
  unfold fetchByte
  rw [Bounded.run_bind, Fallible.bind_of_ok (run_self s)]
  split at hp
  case isTrue hoff =>
    cases hp
    rw [if_pos hoff]
    rfl
  case isFalse hon =>
    rw [if_neg hon]
    split at hp
    case isTrue htag =>
      cases hp
      rw [if_pos htag]
      rfl
    case isFalse => cases hp

/-- A byte fetch at a known address: two checks, then the byte. -/
theorem run_fetch8 {s : Machine (FlatBus π)} {p : U64}
    (hp : s.icachePhys = some p) :
    fetch8.run s
      = if 15 ≤ s.ilen then (.error Exception.ud, s)
        else if !s.fetchOk s.regs.rip then
          (.error (Exception.gp 0),
            s.withDecode { s.toDecodeState with ilen := s.ilen + 1 })
        else (.ok (s.bus.mem p), s.advance 1) := by
  unfold fetch8
  rw [Bounded.run_bind, Fallible.bind_of_ok (run_self s), Bounded.run_bind]
  split
  case isTrue hlong =>
    exact Fallible.bind_of_error (by rw [run_raiseIf, if_pos hlong])
  case isFalse hshort =>
  rw [Fallible.bind_of_ok (by rw [run_raiseIf, if_neg hshort]),
    Bounded.run_bind, Fallible.bind_of_ok (run_modifyDecode _ _),
    Bounded.run_bind, Fallible.bind_of_ok (run_self _), Bounded.run_bind]
  split
  case isTrue hbad =>
    refine Fallible.bind_of_error ?_
    rw [run_raiseIf]
    exact if_pos hbad
  case isFalse hok =>
  have hbyte :=
    run_fetchByte
      (s := s.withDecode { s.toDecodeState with ilen := s.ilen + 1 }) hp
  rw [Fallible.bind_of_ok (by rw [run_raiseIf]; exact if_neg hok),
    Bounded.run_bind, Fallible.bind_of_ok hbyte]
  rfl

/-- A computation that consumes `k` instruction bytes and computes `v` of
them. -/
structure Fetches (k : Nat) (x : Calm (FlatBus π) α) (v : (Nat → U8) → α) :
    Prop where
  /-- The value depends on the bytes consumed only. -/
  near : ∀ c c' : Nat → U8, (∀ i < k, c i = c' i) → v c = v c'
  length : ∀ {s a s'}, x.run s = (.ok a, s') → s'.ilen.toNat = s.ilen.toNat + k
  short : ∀ {s a s'}, x.run s = (.ok a, s') → s.ilen.toNat ≤ 15 →
    s'.ilen.toNat ≤ 15
  sound : ∀ {code start n s a s'},
    Streams code start n s → x.run s = (.ok a, s') →
    s.ilen.toNat + k ≤ n → a = v (fun i => code (s.ilen.toNat + i))
      ∧ s' = s.advance k
  complete : ∀ {code start n s}, Streams code start n s → Readable start n s →
    s.ilen.toNat + k ≤ n →
      x.run s = (.ok (v fun i => code (s.ilen.toNat + i)), s.advance k)

/-- A fetched byte is counted, and there was room for it. -/
theorem fetch8_ilen {s s' : Machine (FlatBus π)} {a : U8}
    (h : fetch8.run s = (.ok a, s')) :
    s.ilen.toNat < 15 ∧ s'.ilen.toNat = s.ilen.toNat + 1 := by
  unfold fetch8 at h
  simp only [Bounded.run_bind, Fallible.bind_eq_ok] at h
  obtain ⟨_, _, hs, ⟨⟩, _, hlen, ⟨⟩, _, hdec, _, _, hs₁, ⟨⟩, s₂, hok, b, s₃,
    hbyte, ⟨⟩, s₄, hrip, hret⟩ := h
  cases hs
  rw [run_raiseIf] at hlen
  split at hlen
  · cases hlen
  case isFalse hlt =>
  cases hlen
  cases hdec
  cases hs₁
  rw [run_raiseIf] at hok
  split at hok <;> cases hok
  obtain ⟨-, hd⟩ := MemOnly.fetchByte _ _ _ _ hbyte
  cases hrip
  cases hret
  have hi : s₃.ilen = s.ilen + 1 := congrArg DecodeState.ilen hd
  rw [BitVec.not_le, BitVec.lt_def] at hlt
  have h15 : (15 : U8).toNat = 15 := rfl
  have h1 : (1 : U8).toNat = 1 := rfl
  refine ⟨by omega, ?_⟩
  show s₃.ilen.toNat = _
  rw [hi, BitVec.toNat_add]
  omega

/-- One byte. -/
theorem fetches_fetch8 :
    Fetches 1 (fetch8 : Calm (FlatBus π) U8) (fun c => c 0) where
  near := fun c c' h => h 0 (by decide)
  length h := (fetch8_ilen h).2
  short h _ := by
    obtain ⟨hlt, heq⟩ := fetch8_ilen h
    omega
  sound := by
    intro code start n s a s' hs h hn
    obtain ⟨p, hp, hmem⟩ := hs.next (by omega)
    rw [run_fetch8 hp] at h
    split at h
    · cases h
    split at h
    · cases h
    cases h
    exact ⟨hmem, rfl⟩
  complete := by
    intro code start n s hs hr hn
    obtain ⟨p, hp, hmem⟩ := hs.next (by omega)
    have hok := hr.ok _ (show s.ilen.toNat < n by omega)
    have h15 : (15 : U8).toNat = 15 := rfl
    have hshort := hr.short
    rw [run_fetch8 hp, if_neg (by rw [BitVec.le_def]; omega),
      hs.rip, hok, hmem]
    rfl

-- ======== wide fetches

/-- Low half, then high half. -/
def joinHalves {w : Nat} (lo hi : BitVec w) : BitVec (w + w) :=
  lo.setWidth (w + w) ||| (hi.setWidth (w + w) <<< w)

/-- Two fetches in a row, joined. -/
theorem Fetches.halves {w k : Nat} {half : Calm (FlatBus π) (BitVec w)}
    {v : (Nat → U8) → BitVec w} (h : Fetches k half v) :
    Fetches (k + k) (readHalves half half)
      (fun c => joinHalves (v c) (v fun i => c (k + i))) where
  near := fun c c' hc => by
    rw [h.near c c' fun i hi => hc i (by omega),
      h.near (fun i => c (k + i)) (fun i => c' (k + i)) fun i hi =>
      hc (k + i) (by omega)]
  length := by
    intro s a s' hrun
    unfold readHalves at hrun
    simp only [Bounded.run_bind, Fallible.bind_eq_ok] at hrun
    obtain ⟨l, s₁, h₁, u, s₂, h₂, hret⟩ := hrun
    cases hret
    rw [h.length h₂, h.length h₁]
    omega
  short := by
    intro s a s' hrun hs
    unfold readHalves at hrun
    simp only [Bounded.run_bind, Fallible.bind_eq_ok] at hrun
    obtain ⟨l, s₁, h₁, u, s₂, h₂, hret⟩ := hrun
    cases hret
    exact h.short h₂ (h.short h₁ hs)
  sound := by
    intro code start n s a s' hs hrun hn
    unfold readHalves at hrun
    simp only [Bounded.run_bind, Fallible.bind_eq_ok] at hrun
    obtain ⟨l, s₁, h₁, u, s₂, h₂, hret⟩ := hrun
    have hn₁ := h.length h₁
    have hi := s'.ilen.isLt
    have hn₂ := h.length h₂
    cases hret
    obtain ⟨rfl, rfl⟩ := h.sound hs h₁ (by omega)
    obtain ⟨rfl, rfl⟩ := h.sound (hs.advance (by omega)) h₂ (by omega)
    rw [s.ilen_advance (by omega), s.advance_advance]
    refine ⟨?_, rfl⟩
    simp only [joinHalves, Nat.add_assoc]
  complete := by
    intro code start n s hs hr hn
    have hshort := hr.short
    have hi := s.ilen_advance (k := k) (by omega)
    have h₁ := h.complete hs hr (by omega)
    have h₂ := h.complete (hs.advance (by omega)) (hr.advance k) (by omega)
    unfold readHalves
    rw [Bounded.run_bind, Fallible.bind_of_ok h₁, Bounded.run_bind,
      Fallible.bind_of_ok h₂, hi, s.advance_advance]
    simp only [joinHalves, Nat.add_assoc]
    rfl

/-- The wide fetch, when the bus read behind it joins what the halves
read. -/
theorem run_fetchWide {w k : Nat} {n : U8} {v : (Nat → U8) → BitVec w}
    {rd : U64 → Calm (FlatBus π) (BitVec w)}
    (hn : n.setWidth 64 = BitVec.ofNat 64 k) (hn8 : n = BitVec.ofNat 8 k)
    (hrd : ∀ s a,
      (rd a).run s = (.ok (v fun i => s.bus.mem (a + BitVec.ofNat 64 i)), s))
    (s : Machine (FlatBus π)) :
    (fetchWide n rd).run s
      = if s.fetchWideOk n then
          (.ok (some (v fun i =>
            s.bus.mem ((s.fetchPage ||| (s.fetchLin &&& 0xFFF)) + BitVec.ofNat 64 i))),
            s.advance k)
        else (.ok none, s) := by
  unfold fetchWide
  rw [Bounded.run_bind, Fallible.bind_of_ok (run_self s)]
  by_cases hok : s.fetchWideOk n = true
  · rw [if_pos hok, if_neg (by rw [hok]; decide), Bounded.run_bind,
      Fallible.bind_of_ok (hrd s _), Bounded.run_bind,
      Fallible.bind_of_ok (run_modifyDecode _ _), Bounded.run_bind,
      Fallible.bind_of_ok (run_setRip _ _), hn]
    subst hn8
    rfl
  · rw [if_neg hok, if_pos (by rw [Bool.eq_false_of_not_eq_true hok]; decide)]
    rfl

omit [Ports π] in
/-- A word read at once is the next bytes of the stream. -/
theorem Streams.wide {code : Nat → U8} {start : U64} {n k : Nat} {z : U8}
    {s : Machine (FlatBus π)} (hs : Streams code start n s)
    (hok : s.fetchWideOk z = true) (hlen : s.ilen.toNat + k ≤ n) :
    ∀ i < k, s.bus.mem
      ((s.fetchPage ||| (s.fetchLin &&& 0xFFF)) + BitVec.ofNat 64 i)
      = code (s.ilen.toNat + i) := by
  intro i hi
  obtain ⟨p, hp, hmem⟩ := hs.ahead (by omega)
  simp only [Cpu.fetchWideOk, Bool.and_eq_true, beq_iff_eq] at hok
  rw [hs.cached hp hok.1.1.1]
  exact hmem i (by omega)

omit [Ports π] in
/-- A wide fetch leaves the instruction within fifteen bytes. -/
theorem fetchWideOk_room {k : Nat} {n : U8}
    {s : Machine (FlatBus π)} (hk8 : k ≤ 8)
    (hn8 : n = BitVec.ofNat 8 k) (hok : s.fetchWideOk n = true) :
    s.ilen.toNat + k ≤ 15 := by
  simp only [Cpu.fetchWideOk, Bool.and_eq_true, decide_eq_true_eq] at hok
  have hlen := BitVec.le_def.1 hok.1.2
  have hn' : n.toNat = k := by
    rw [hn8, BitVec.toNat_ofNat]
    omega
  have h15 : (15 - n : U8).toNat = 15 - k := by
    rw [BitVec.toNat_sub, hn', show (15 : U8).toNat = 15 from rfl]
    omega
  omega

/-- A wide fetch with its fallback succeeds in one of two ways. -/
theorem run_fetchOr {w k : Nat} {n : U8} {v : (Nat → U8) → BitVec w}
    {half : Calm (FlatBus π) (BitVec w)}
    {rd : U64 → Calm (FlatBus π) (BitVec (w + w))}
    (hn : n.setWidth 64 = BitVec.ofNat 64 (k + k))
    (hn8 : n = BitVec.ofNat 8 (k + k))
    (hrd : ∀ s a, (rd a).run s = (.ok (joinHalves
      (v fun i => s.bus.mem (a + BitVec.ofNat 64 i))
      (v fun i => s.bus.mem (a + BitVec.ofNat 64 (k + i)))), s))
    {s s' : Machine (FlatBus π)} {a : BitVec (w + w)}
    (hrun : (fetchOr (fetchWide n rd) half).run s = (.ok a, s')) :
    (s.fetchWideOk n = true ∧ s' = s.advance (k + k))
      ∨ (readHalves half half).run s = (.ok a, s') := by
  unfold fetchOr at hrun
  rw [Bounded.run_bind, Fallible.bind_apply, run_fetchWide
    (v := fun c => joinHalves (v c) (v fun i => c (k + i))) hn hn8 hrd] at hrun
  by_cases hok : s.fetchWideOk n = true
  · rw [if_pos hok] at hrun
    cases hrun
    exact Or.inl ⟨hok, rfl⟩
  · rw [if_neg hok] at hrun
    exact Or.inr hrun

/-- A wide fetch with its fallback consumes what its halves consume. -/
theorem Fetches.or {w k : Nat} {n : U8} {half : Calm (FlatBus π) (BitVec w)}
    {v : (Nat → U8) → BitVec w} {rd : U64 → Calm (FlatBus π) (BitVec (w + w))}
    (h : Fetches k half v) (hk8 : k + k ≤ 8)
    (hn : n.setWidth 64 = BitVec.ofNat 64 (k + k))
    (hn8 : n = BitVec.ofNat 8 (k + k))
    (hrd : ∀ s a, (rd a).run s = (.ok (joinHalves
      (v fun i => s.bus.mem (a + BitVec.ofNat 64 i))
      (v fun i => s.bus.mem (a + BitVec.ofNat 64 (k + i)))), s)) :
    Fetches (k + k) (fetchOr (fetchWide n rd) half)
      (fun c => joinHalves (v c) (v fun i => c (k + i))) where
  near := h.halves.near
  length := by
    intro s a s' hrun
    rcases run_fetchOr hn hn8 hrd hrun with ⟨hok, rfl⟩ | hrun
    · have := fetchWideOk_room hk8 hn8 hok
      exact s.ilen_advance (by omega)
    · exact h.halves.length hrun
  short := by
    intro s a s' hrun hs
    rcases run_fetchOr hn hn8 hrd hrun with ⟨hok, rfl⟩ | hrun
    · have := fetchWideOk_room hk8 hn8 hok
      rw [s.ilen_advance (by omega)]
      omega
    · exact h.halves.short hrun hs
  sound := by
    intro code start n' s a s' hs hrun hlen
    unfold fetchOr at hrun
    rw [Bounded.run_bind, Fallible.bind_apply, run_fetchWide
      (v := fun c => joinHalves (v c) (v fun i => c (k + i))) hn
        hn8 hrd] at hrun
    by_cases hok : s.fetchWideOk n = true
    · rw [if_pos hok] at hrun
      cases hrun
      exact ⟨h.halves.near _ _ (hs.wide hok hlen), rfl⟩
    · rw [if_neg hok] at hrun
      exact h.halves.sound hs hrun hlen
  complete := by
    intro code start n' s hs hr hlen
    unfold fetchOr
    rw [Bounded.run_bind, Fallible.bind_apply, run_fetchWide
      (v := fun c => joinHalves (v c) (v fun i => c (k + i))) hn hn8 hrd]
    by_cases hok : s.fetchWideOk n = true
    · rw [if_pos hok]
      have hv := h.halves.near _ _ (hs.wide hok hlen)
      exact Prod.ext (congrArg Except.ok hv) rfl
    · rw [if_neg hok]
      exact h.halves.complete hs hr hlen

/-- The values of two, four and eight bytes, low byte first. -/
def word16 (c : Nat → U8) : U16 := joinHalves (c 0) (c 1)
/-- Four bytes of code as a double word. -/
def word32 (c : Nat → U8) : U32 :=
  joinHalves (word16 c) (word16 fun i => c (2 + i))
/-- Eight bytes of code as a quad word. -/
def word64 (c : Nat → U8) : U64 :=
  joinHalves (word32 c) (word32 fun i => c (4 + i))

/-- The bytes of flat memory from `a` on. -/
def FlatBus.from {π : Type} (b : FlatBus π) (a : U64) : Nat → U8 :=
  fun i => b.mem (a + BitVec.ofNat 64 i)

omit [Ports π] in
/-- Memory seen from further on. -/
theorem FlatBus.from_add (b : FlatBus π) (a : U64) (k : Nat) :
    b.from (a + BitVec.ofNat 64 k) = fun i => b.from a (k + i) := by
  funext i
  simp only [FlatBus.from, BitVec.add_assoc, ← BitVec.ofNat_add]

/-- A wide read of the flat bus takes the bytes in order. -/
theorem FlatBus.read16_eq (b : FlatBus π) (a : U64) :
    Bus.read16 b a = (word16 (b.from a), b) := by
  have h0 : a + BitVec.ofNat 64 0 = a := BitVec.add_zero a
  show (joinHalves (b.mem a) (b.mem (a + 1)), b) = _
  rw [word16, FlatBus.from, h0]
  rfl

/-- So does a double word. -/
theorem FlatBus.read32_eq (b : FlatBus π) (a : U64) :
    Bus.read32 b a = (word32 (b.from a), b) := by
  show (joinHalves (Bus.read16 b a).1 (Bus.read16 b (a + 2)).1, b) = _
  rw [read16_eq, read16_eq, show (2 : U64) = BitVec.ofNat 64 2 from rfl, from_add]
  rfl

/-- So does a quad word. -/
theorem FlatBus.read64_eq (b : FlatBus π) (a : U64) :
    Bus.read64 b a = (word64 (b.from a), b) := by
  show (joinHalves (Bus.read32 b a).1 (Bus.read32 b (a + 4)).1, b) = _
  rw [read32_eq, read32_eq, show (4 : U64) = BitVec.ofNat 64 4 from rfl, from_add]
  rfl

theorem run_busRead16 (a : U64) (s : Machine (FlatBus π)) :
    (busRead16 a).run s = (.ok (word16 (s.bus.from a)), s) := by
  have h := congrArg Prod.fst (s.bus.read16_eq a)
  exact Prod.ext (congrArg (Except.ok (ε := Exception)) h) rfl

theorem run_busRead32 (a : U64) (s : Machine (FlatBus π)) :
    (busRead32 a).run s = (.ok (word32 (s.bus.from a)), s) := by
  have h := congrArg Prod.fst (s.bus.read32_eq a)
  exact Prod.ext (congrArg (Except.ok (ε := Exception)) h) rfl

theorem run_busRead64 (a : U64) (s : Machine (FlatBus π)) :
    (busRead64 a).run s = (.ok (word64 (s.bus.from a)), s) := by
  have h := congrArg Prod.fst (s.bus.read64_eq a)
  exact Prod.ext (congrArg (Except.ok (ε := Exception)) h) rfl

/-- A wide fetch takes the next bytes of the stream. -/
theorem fetches_fetch16 : Fetches 2 (fetch16 : Calm (FlatBus π) U16) word16 :=
  fetches_fetch8.or (by decide) rfl rfl fun s a => run_busRead16 a s

/-- Four of them for a double word. -/
theorem fetches_fetch32 : Fetches 4 (fetch32 : Calm (FlatBus π) U32) word32 :=
  fetches_fetch16.or (by decide) rfl rfl fun s a => run_busRead32 a s

/-- Eight of them for a quad word. -/
theorem fetches_fetch64 : Fetches 8 (fetch64 : Calm (FlatBus π) U64) word64 :=
  fetches_fetch32.or (by decide) rfl rfl fun s a => run_busRead64 a s

end Remu.X64
