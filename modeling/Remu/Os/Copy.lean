/-
Copies into guest memory.

Bytes stored to pages leave the tables alone (`Sound.data`), so every
address goes where it went before. A copy a page at a time is then a copy
a byte at a time (`writeBytes_eq`), and what that does is said of the
bytes: it runs until it meets an unmapped page, the last byte copied to a
place is the one found there, and nothing else changes (`Poked`).
-/
import Remu.Os.Pages

namespace Remu.Os

open EntryWidth FrameTree Word

variable {w : Nat} [EntryWidth w]

namespace AddressSpace

variable {L : Layout w} {a a' : AddressSpace w} {lin x : BitVec w}

-- ======== page stores

/-- The tables and the allocator's mark are what they were. -/
structure SameTables (L : Layout w) (a a' : AddressSpace w) : Prop where
  sound : a'.Sound L
  rest : a' = { a with mem := a'.mem }
  entry : ∀ lin, a'.pteEntry L lin = a.pteEntry L lin

namespace SameTables

theorem refl (hs : a.Sound L) : SameTables L a a := ⟨hs, rfl, fun _ => rfl⟩

theorem trans {b c : AddressSpace w} (h : SameTables L a b)
    (h' : SameTables L b c) :
    SameTables L a c where
  sound := h'.sound
  rest := by
    have h1 := h.rest
    have h2 := h'.rest
    rw [h2, h1]
  entry lin := (h'.entry lin).trans (h.entry lin)

theorem frameOf (h : SameTables L a a') (lin : BitVec w) :
    a'.frameOf L lin = a.frameOf L lin := by
  rw [frameOf_eq, frameOf_eq, h.entry]

theorem resolve (h : SameTables L a a') (lin : BitVec w) :
    a'.resolve L lin = a.resolve L lin := by
  rw [resolve_eq, resolve_eq, h.frameOf]

end SameTables

/-- Memory that differs in pages only has the tables' bytes. -/
theorem Sound.table_bytes (hs : a.Sound L) {m : PhysMem w}
    (h : ∀ x, m.load8 x ≠ a.mem.load8 x → ∃ lin f,
      a.frameOf L lin = some f ∧ InFrame f x)
    {t : BitVec w} (ht : a.IsTable L t) {x : BitVec w} (hx : InFrame t x) :
    m.load8 x = a.mem.load8 x := by
  by_contra hne
  obtain ⟨lin, f, hf, hin⟩ := h x hne
  have heq := eq_of_inFrame (hs.isTable_allocated ht).aligned
    (hs.frame_allocated hf).aligned hx hin
  exact hs.page_not_table (L.length_indices lin) hf ht heq

/-- What is not handed out is in no page. -/
theorem Sound.blank_bytes (hs : a.Sound L) {m : PhysMem w}
    (h : ∀ x, m.load8 x ≠ a.mem.load8 x → ∃ lin f,
      a.frameOf L lin = some f ∧ InFrame f x)
    {x : BitVec w} (hx : a.nextPhys ≤ x.toNat) :
    m.load8 x = a.mem.load8 x := by
  by_contra hne
  obtain ⟨lin, f, hf, hin⟩ := h x hne
  have hal := hs.frame_allocated hf
  have hlt := hal.lt
  have haligned := hal.aligned
  rw [Aligned] at haligned
  rw [inFrame_iff] at hin
  omega

/-- Memory that differs in pages only. -/
theorem Sound.data (hs : a.Sound L) (m : PhysMem w)
    (h : ∀ x, m.load8 x ≠ a.mem.load8 x → ∃ lin f, a.frameOf L lin = some f
      ∧ InFrame f x) :
    SameTables L a { a with mem := m } := by
  have hload :
    ∀ t, a.IsTable L t → ∀ i, load m (slot t i) = load a.mem (slot t i) :=
    fun t ht i => load_slot_congr (hs.isTable_allocated ht).aligned
      (fun _ => hs.table_bytes h ht) i
  have hchild : ∀ t, a.IsTable L t → ∀ i, L.child m t i = L.child a.mem t i :=
    fun t ht i => congrArg L.follow (hload t ht i)
  have hframe : ∀ p, p.length ≤ L.depth →
      AddressSpace.frameAt L { a with mem := m } p = a.frameAt L p :=
        fun p hp => node_congr hchild hp
  refine ⟨⟨hs.next_aligned, hs.next_pos, hs.next_le, fun x hx => ?_, hs.tree.congr hchild,
    fun p f hp hf => ?_⟩, rfl, fun lin => ?_⟩
  · exact (hs.blank_bytes h hx).trans (hs.blank x hx)
  · rw [hframe p hp] at hf
    have hal := hs.nodes p f hp hf
    exact ⟨hal.aligned, hal.pos, hal.lt⟩
  · have hlen := L.length_interior lin
    rw [pteEntry, pteEntry, hframe _ (by omega)]
    cases ht : a.frameAt L (L.interior lin) with
    | none => rfl
    | some t => exact hload t ⟨_, by omega, ht⟩ _

/-- A byte stored where an address of the process leads. -/
theorem Sound.store8 (hs : a.Sound L) {p : BitVec w}
    (hp : a.resolve L lin = some p) (v : U8) :
    SameTables L a { a with mem := a.mem.store8 p v } := by
  refine hs.data _ fun x hx => ?_
  rw [resolve_eq, Option.map_eq_some_iff] at hp
  obtain ⟨f, hf, rfl⟩ := hp
  refine ⟨lin, f, hf, ?_⟩
  have hxp : x = f ||| (lin &&& 0xFFF) := by
    by_contra hne
    exact hx (PhysMem.load8_store8_ne a.mem v hne)
  rw [hxp]
  exact inFrame_or (hs.frame_allocated hf).aligned lin

-- ======== a byte at a time

/-- Bytes stored one after another, each where its address leads, up to
the first that leads nowhere. -/
def pokeBytes (L : Layout w) (a : AddressSpace w) (lin : BitVec w) :
    List U8 → Bool × AddressSpace w
  | [] => (true, a)
  | v :: vs =>
    match a.resolve L lin with
    | none => (false, a)
    | some p => pokeBytes L { a with mem := a.mem.store8 p v } (lin + 1) vs

omit [EntryWidth w] in
/-- The place in a page of an address further on in it. -/
theorem offset_add [PageWidth w] (x : BitVec w) {k : Nat}
    (h : x.toNat % 4096 + k < 4096) :
    (x + BitVec.ofNat w k).toNat % 4096 = x.toNat % 4096 + k := by
  obtain ⟨q, hq⟩ := PageWidth.exists_pow w
  have hpos := Nat.two_pow_pos w
  rw [BitVec.toNat_add, BitVec.toNat_ofNat,
    mod_pow_mod (w := w) _ (d := 4096) (by decide),
    Nat.mod_eq_of_lt (show k < 2 ^ w by omega), Nat.add_mod]
  omega

/-- The next byte of a page is in the next place of its frame. -/
theorem resolve_succ (hs : a.Sound L) {p : BitVec w}
    (h : a.resolve L lin = some p)
    (hoff : lin.toNat % 4096 + 1 < 4096) :
    a.resolve L (lin + 1) = some (p + 1) := by
  have hpage : (lin + 1) >>> 12 = lin >>> 12 := page_add lin 1 hoff
  have hsum : (lin + 1).toNat % 4096 = lin.toNat % 4096 + 1 :=
    offset_add lin hoff
  rw [resolve_eq, Option.map_eq_some_iff] at h
  obtain ⟨f, hf, rfl⟩ := h
  have hal := (hs.frame_allocated hf).aligned
  have hz := (aligned_iff f).1 hal
  have hp : (f ||| (lin &&& 0xFFF)).toNat = f.toNat + lin.toNat % 4096 :=
    toNat_or_offset f lin hz
  have hpoff : (f ||| (lin &&& 0xFFF)).toNat % 4096 + 1 < 4096 := by
    rw [Aligned] at hal
    omega
  have hlt := hal.add_lt
  rw [resolve_eq, frameOf_samePage (Layout.samePage_of_page hpage), hf,
    Option.map_some, Option.some.injEq]
  apply BitVec.eq_of_toNat_eq
  have hone : (1 : BitVec w).toNat = 1 := by
    obtain ⟨q, hq⟩ := PageWidth.exists_pow w
    exact (BitVec.toNat_ofNat 1 w).trans (Nat.mod_eq_of_lt (by omega))
  rw [toNat_or_offset f (lin + 1) hz, hsum, BitVec.toNat_add, hp, hone,
    Nat.mod_eq_of_lt (show f.toNat + lin.toNat % 4096 + 1 < 2 ^ w by omega),
    Nat.add_assoc]

/-- A run of bytes inside a page. -/
theorem pokeBytes_page (hs : a.Sound L) {p : BitVec w} {vs rest : List U8}
    (h : a.resolve L lin = some p)
    (hlen : lin.toNat % 4096 + vs.length ≤ 4096) :
    a.pokeBytes L lin (vs ++ rest)
      = AddressSpace.pokeBytes L { a with mem := a.mem.copyIn p vs }
        (lin + BitVec.ofNat w vs.length) rest
    ∧ SameTables L a { a with mem := a.mem.copyIn p vs } := by
  induction vs generalizing a lin p with
  | nil =>
    have hzero : lin + BitVec.ofNat w 0 = lin := by simp
    rw [List.nil_append, List.length_nil, hzero]
    exact ⟨rfl, SameTables.refl hs⟩
  | cons v vs ih =>
    have hstep := hs.store8 h v
    rw [List.length_cons] at hlen
    rw [List.cons_append, pokeBytes, h]
    dsimp only
    cases vs with
    | nil => exact ⟨rfl, hstep⟩
    | cons v' vs =>
      rw [List.length_cons] at hlen
      have hnext : AddressSpace.resolve L { a with mem := a.mem.store8 p v }
        (lin + 1) = some (p + 1) := by
        rw [hstep.resolve]
        exact resolve_succ hs h (by omega)
      have hoff : (lin + 1).toNat % 4096 = lin.toNat % 4096 + 1 :=
        offset_add (k := 1) lin (by omega)
      obtain ⟨heq, hsame⟩ :=
        ih hstep.sound hnext (by rw [hoff, List.length_cons]; omega)
      have hadd : lin + 1 + BitVec.ofNat w (v' :: vs).length
          = lin + BitVec.ofNat w (v :: v' :: vs).length := by
        rw [BitVec.add_assoc, show (1 : BitVec w) = BitVec.ofNat w 1 from rfl,
          ← BitVec.ofNat_add, Nat.add_comm, List.length_cons (a := v)]
      refine ⟨?_, hstep.trans hsame⟩
      rw [heq, hadd]
      rfl

/-- A copy a page at a time is a copy a byte at a time. -/
theorem writeBytes_eq (hs : a.Sound L) (lin : BitVec w) (data : List U8) :
    a.writeBytes L lin data = a.pokeBytes L lin data := by
  induction hn :
    data.length using Nat.strong_induction_on generalizing a lin data with
  | _ n ih =>
    cases data with
    | nil => rw [writeBytes, pokeBytes]
    | cons v vs =>
      rw [writeBytes]
      cases hr : a.resolve L lin with
      | none => rw [pokeBytes, hr]
      | some p =>
        dsimp only
        have hpos := chunk_pos lin v vs
        have hlt := chunk_lt lin v vs
        generalize hk :
          min (4096 - lin.toNat % 4096) (v :: vs).length = k at hpos hlt
        have hmod := Nat.mod_lt lin.toNat (show 4096 > 0 by decide)
        have htake : ((v :: vs).take k).length = k := by
          rw [List.length_take]
          omega
        obtain ⟨heq, hsame⟩ : a.pokeBytes L lin
          ((v :: vs).take k ++ (v :: vs).drop k) = _ ∧ _ :=
          pokeBytes_page hs hr (by rw [htake]; omega)
        rw [List.take_append_drop, htake] at heq
        rw [heq]
        exact ih _ (hn ▸ hlt) hsame.sound _ _ rfl

-- ======== what is copied

/-- The first `n` bytes of `data` are where their addresses lead, the last
one where several lead to one place, and nothing else has changed. -/
structure Copied (L : Layout w) (a : AddressSpace w) (lin : BitVec w)
    (data : List U8) (n : Nat) (a' : AddressSpace w) : Prop where
  same : SameTables L a a'
  le : n ≤ data.length
  mapped : ∀ k < n, ∃ p, a.resolve L (lin + BitVec.ofNat w k) = some p
  other : ∀ x, (∀ k < n, a.resolve L (lin + BitVec.ofNat w k) ≠ some x) →
    a'.mem.load8 x = a.mem.load8 x
  last : ∀ k x v, k < n → data[k]? = some v →
    a.resolve L (lin + BitVec.ofNat w k) = some x →
    (∀ j < n, k < j → a.resolve L (lin + BitVec.ofNat w j) ≠ some x) →
      a'.mem.load8 x = v

omit [EntryWidth w] in
theorem add_succ (lin : BitVec w) (k : Nat) :
    lin + 1 + BitVec.ofNat w k = lin + BitVec.ofNat w (k + 1) := by
  rw [BitVec.add_assoc, show (1 : BitVec w) = BitVec.ofNat w 1 from rfl,
    ← BitVec.ofNat_add, Nat.add_comm]

/-- One more byte in front of a copy. -/
theorem Copied.cons (hs : a.Sound L) {p : BitVec w} {v : U8}
    {vs : List U8} {n : Nat} (hp : a.resolve L lin = some p)
    (h : Copied L { a with mem := a.mem.store8 p v } (lin + 1) vs n a') :
    Copied L a lin (v :: vs) (n + 1) a' := by
  have hstep := hs.store8 hp v
  have hzero : lin + BitVec.ofNat w 0 = lin := by simp
  have hres : ∀ k, AddressSpace.resolve L { a with mem := a.mem.store8 p v }
      (lin + 1 + BitVec.ofNat w k)
        = a.resolve L (lin + BitVec.ofNat w (k + 1)) := fun k => by
    rw [hstep.resolve, add_succ]
  refine ⟨hstep.trans h.same, Nat.succ_le_succ h.le,
    fun k hk => ?_, fun x hx => ?_, fun k x u hk hu hx hlast => ?_⟩
  · cases k with
    | zero => exact ⟨p, (congrArg (a.resolve L) hzero).trans hp⟩
    | succ k =>
      obtain ⟨q, hq⟩ := h.mapped k (Nat.lt_of_succ_lt_succ hk)
      exact ⟨q, (hres k).symm.trans hq⟩
  · have hfirst := hx 0 (Nat.succ_pos n)
    rw [hzero, hp, ne_eq, Option.some.injEq] at hfirst
    have hrest :=
      h.other x fun k hk hq => hx (k + 1) (Nat.succ_lt_succ hk)
        ((hres k).symm.trans hq)
    exact hrest.trans (PhysMem.load8_store8_ne a.mem v (Ne.symm hfirst))
  · cases k with
    | zero =>
      rw [hzero, hp, Option.some.injEq] at hx
      subst hx
      rw [List.getElem?_cons_zero, Option.some.injEq] at hu
      rw [← hu]
      refine (h.other p fun k hk hq => ?_).trans
        (PhysMem.load8_store8_same a.mem p v)
      exact hlast (k + 1) (Nat.succ_lt_succ hk) (Nat.succ_pos k)
        ((hres k).symm.trans hq)
    | succ k =>
      rw [List.getElem?_cons_succ] at hu
      refine h.last k x u (Nat.lt_of_succ_lt_succ hk) hu ((hres k).trans hx)
        fun j hj hkj hq => ?_
      exact hlast (j + 1) (Nat.succ_lt_succ hj) (Nat.succ_lt_succ hkj)
        ((hres j).symm.trans hq)

/-- A copy runs to its end or to the first unmapped page. -/
theorem copied_pokeBytes (hs : a.Sound L) (lin : BitVec w) (data : List U8) :
    ∃ n, Copied L a lin data n (a.pokeBytes L lin data).2
      ∧ ((a.pokeBytes L lin data).1 = true ↔ n = data.length)
      ∧ ((a.pokeBytes L lin data).1 = false →
        a.resolve L (lin + BitVec.ofNat w n) = none) := by
  have hzero : ∀ l : BitVec w, l + BitVec.ofNat w 0 = l := fun l => by simp
  have hstop : ∀ (b : AddressSpace w) l vs,
    b.Sound L → Copied L b l vs 0 b := fun b l vs hb =>
    ⟨SameTables.refl hb, Nat.zero_le _, nofun, fun _ _ => rfl, nofun⟩
  induction data generalizing a lin with
  | nil => exact ⟨0, hstop a lin [] hs, by rw [pokeBytes]; simp, nofun⟩
  | cons v vs ih =>
    rw [pokeBytes]
    cases hp : a.resolve L lin with
    | none => exact ⟨0, hstop a lin _ hs, by simp, fun _ =>
        (congrArg (a.resolve L) (hzero lin)).trans hp⟩
    | some p =>
      have hstep := hs.store8 hp v
      obtain ⟨n, hcopied, hdone, hfail⟩ := ih hstep.sound (lin + 1)
      refine ⟨n + 1, hcopied.cons hs hp, ?_, fun hf => ?_⟩
      · rw [List.length_cons, Nat.succ_inj]
        exact hdone
      · have hnone := hfail hf
        rw [hstep.resolve, add_succ] at hnone
        exact hnone

/-- `write_bytes` copies to its end or to the first unmapped page. -/
theorem copied_writeBytes (hs : a.Sound L) (lin : BitVec w) (data : List U8) :
    ∃ n, Copied L a lin data n (a.writeBytes L lin data).2
      ∧ ((a.writeBytes L lin data).1 = true ↔ n = data.length)
      ∧ ((a.writeBytes L lin data).1 = false →
        a.resolve L (lin + BitVec.ofNat w n) = none) := by
  rw [writeBytes_eq hs]
  exact copied_pokeBytes hs lin data

end AddressSpace

end Remu.Os
