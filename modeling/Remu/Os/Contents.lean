/-
What guest memory holds at an address.

A copy that finds its pages mapped leaves its bytes where their addresses
lead, as long as no two of its addresses are names of one byte; and a copy
is complete exactly when every page it meets is mapped.
-/
import Remu.Os.Copy

namespace Remu.Os

open EntryWidth FrameTree Word

variable {w : Nat} [EntryWidth w]

/-- Different addresses of `n` from `lin` are different bytes. -/
def Layout.Spread (L : Layout w) (lin : BitVec w) (n : Nat) : Prop :=
  ∀ j k, j < n → k < n →
    L.SamePage (lin + BitVec.ofNat w j) (lin + BitVec.ofNat w k) →
    (lin + BitVec.ofNat w j).toNat % 4096
      = (lin + BitVec.ofNat w k).toNat % 4096 → j = k

/-- All 2^32 addresses of the i386 layer are different bytes. -/
theorem Layout.spread_os (lin : U32) {n : Nat} (hn : n ≤ 2 ^ 32) :
    Layout.os.Spread lin n := by
  intro j k hj hk hpage hoff
  have hflat :=
    flat_os _ _ (lin + BitVec.ofNat 32 j).isLt (lin + BitVec.ofNat 32 k).isLt hpage
  rw [page_eq_iff] at hflat
  have heq : (lin + BitVec.ofNat 32 j).toNat
    = (lin + BitVec.ofNat 32 k).toNat := by omega
  rw [BitVec.toNat_add, BitVec.toNat_add, BitVec.toNat_ofNat,
    BitVec.toNat_ofNat] at heq
  omega

/-- The x86-64 layer tells 2^48 addresses apart. -/
theorem Layout.spread_os64 (lin : U64) {n : Nat} (hn : n ≤ 2 ^ 48) :
    Layout.os64.Spread lin n := by
  intro j k hj hk hpage hoff
  have hpage48 := AddressSpace.samePage_iff.1 hpage
  rw [AddressSpace.page48, AddressSpace.page48] at hpage48
  rw [BitVec.toNat_add, BitVec.toNat_add, BitVec.toNat_ofNat,
    BitVec.toNat_ofNat] at hpage48 hoff
  omega

namespace AddressSpace

variable {L : Layout w} {a : AddressSpace w} {lin : BitVec w} {data : List U8}

/-- The bytes from `lin` on are mapped and are these. -/
def Holds (L : Layout w) (a : AddressSpace w) (lin : BitVec w)
    (data : List U8) : Prop :=
  ∀ i v, data[i]? = some v → ∃ q, a.resolve L (lin + BitVec.ofNat w i) = some q
    ∧ a.mem.load8 q = v

/-- `n` addresses from `lin` on are mapped. -/
def Mapped (L : Layout w) (a : AddressSpace w) (lin : BitVec w) (n : Nat) : Prop :=
  ∀ i < n, a.resolve L (lin + BitVec.ofNat w i) ≠ none

instance instDecidableMapped (L : Layout w) (a : AddressSpace w)
    (lin : BitVec w) (n : Nat) :
    Decidable (a.Mapped L lin n) := inferInstanceAs (Decidable (∀ i < n, _))

/-- Addresses that lead to one byte are in one place of one page. -/
theorem resolve_inj (hs : a.Sound L) {x y q : BitVec w}
    (hx : a.resolve L x = some q)
    (hy : a.resolve L y = some q) :
    L.SamePage x y ∧ x.toNat % 4096 = y.toNat % 4096 := by
  rw [resolve_eq, Option.map_eq_some_iff] at hx hy
  obtain ⟨f, hf, hfq⟩ := hx
  obtain ⟨g, hg, hgq⟩ := hy
  have hfal := (hs.frame_allocated hf).aligned
  have hgal := (hs.frame_allocated hg).aligned
  have hfg : f = g := by
    refine eq_of_inFrame hfal hgal (hfq ▸ inFrame_or hfal x) ?_
    rw [← hgq]
    exact inFrame_or hgal y
  subst hfg
  refine ⟨hs.tree _ _ f (le_of_eq (L.length_indices x))
    (le_of_eq (L.length_indices y)) hf hg, ?_⟩
  have hz := (aligned_iff f).1 hfal
  have hsum := congrArg BitVec.toNat (hfq.trans hgq.symm)
  rw [toNat_or_offset f x hz, toNat_or_offset f y hz] at hsum
  exact Nat.add_left_cancel hsum

/-- A copy is complete when every address it meets is mapped. -/
theorem writeBytes_done_iff (hs : a.Sound L) :
    (a.writeBytes L lin data).1 = true ↔ a.Mapped L lin data.length := by
  obtain ⟨n, hcopied, hdone, hfail⟩ := copied_writeBytes hs lin data
  constructor
  · intro h i hi hnone
    obtain ⟨q, hq⟩ := hcopied.mapped i (by rw [hdone.1 h]; exact hi)
    rw [hq] at hnone
    cases hnone
  · intro h
    by_contra hnot
    rw [Bool.not_eq_true] at hnot
    have hne : n ≠ data.length := fun heq => by
      rw [hdone.2 heq] at hnot
      cases hnot
    have hle := hcopied.le
    exact h n (by omega) (hfail hnot)

/-- What a complete copy leaves behind. -/
theorem holds_writeBytes (hs : a.Sound L) (hspread : L.Spread lin data.length)
    (hdone : (a.writeBytes L lin data).1 = true) :
    (a.writeBytes L lin data).2.Holds L lin data := by
  obtain ⟨n, hcopied, hfull, -⟩ := copied_writeBytes hs lin data
  have hn := hfull.1 hdone
  intro i v hv
  obtain ⟨hi, -⟩ := List.getElem?_eq_some_iff.1 hv
  obtain ⟨q, hq⟩ := hcopied.mapped i (by rw [hn]; exact hi)
  refine ⟨q, (hcopied.same.resolve _).trans hq, ?_⟩
  refine hcopied.last i q v (by rw [hn]; exact hi) hv hq fun j hj hij hjq => ?_
  obtain ⟨hpage, hoff⟩ := resolve_inj hs hq hjq
  have heq := hspread i j hi (by rw [← hn]; exact hj) hpage hoff
  omega

end AddressSpace

end Remu.Os
