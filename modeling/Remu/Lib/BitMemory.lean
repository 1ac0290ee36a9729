/-
Memory bit by bit.

Two memories agree when the second has what the first has, but for bits of
a given set that have been set (`Agree`), and a word spells the bytes at some
places when it has what they have, but for such bits (`Spells`). Storing a
word that spells what is there already sets bits of the set and changes
nothing else, and storing it with one bit changed changes that bit besides
(`BitTest`). The set is for bits that are set on their own account, as
accessed and dirty bits are.
-/
import Remu.Lib.ByteWords

namespace Remu

open ByteRam

variable {w : Nat}

-- ======== bytes

theorem getLsbD_byteOf {k : Nat} (v : BitVec k) (i : Nat)
    {j : Nat} (hj : j < 8) :
    (byteOf v i).getLsbD j = v.getLsbD (8 * i + j) := by
  rw [byteOf, BitVec.getLsbD_setWidth, BitVec.getLsbD_ushiftRight,
    decide_eq_true hj, Bool.true_and]

theorem byteOf_zero (v : U8) : byteOf v 0 = v := by
  rw [byteOf, Nat.mul_zero, BitVec.ushiftRight_zero, BitVec.setWidth_eq]

/-- The bytes of two halves, one after the other. -/
theorem byteOf_join {k m : Nat} (hk : k = 8 * m) (lo hi : BitVec k)
    {i : Nat} (hi2 : i < 2 * m) :
    byteOf (lo.setWidth (k + k) ||| (hi.setWidth (k + k) <<< k)) i
      = if i < m then byteOf lo i else byteOf hi (i - m) := by
  refine BitVec.eq_of_getLsbD_eq fun j hj => ?_
  have hwide : 8 * i + j < k + k := by omega
  rw [getLsbD_byteOf _ _ hj, BitVec.getLsbD_or, BitVec.getLsbD_setWidth,
    BitVec.getLsbD_shiftLeft, BitVec.getLsbD_setWidth, decide_eq_true hwide,
    Bool.true_and, Bool.true_and]
  split
  · rw [getLsbD_byteOf _ _ hj, decide_eq_true (show 8 * i + j < k by omega),
      Bool.not_true, Bool.false_and, Bool.or_false]
  · rw [getLsbD_byteOf _ _ hj, BitVec.getLsbD_of_ge lo _ (by omega),
      Bool.false_or, decide_eq_false (show ¬ 8 * i + j < k by omega),
      decide_eq_true (show 8 * i + j - k < k + k by omega),
      show 8 * (i - m) + j = 8 * i + j - k by omega]
    rfl

theorem byteOf_word16At (f : BitVec w → U8) (a : BitVec w)
    {i : Nat} (hi : i < 2) :
    byteOf (word16At f a) i = f (a + BitVec.ofNat w i) := by
  rw [word16At, byteOf_join (m := 1) rfl _ _ hi]
  obtain rfl | rfl : i = 0 ∨ i = 1 := by omega
  · rw [if_pos (by decide), byteOf_zero, BitVec.add_zero]
  · rw [if_neg (by decide), byteOf_zero]
    rfl

theorem byteOf_word32At (f : BitVec w → U8) (a : BitVec w)
    {i : Nat} (hi : i < 4) :
    byteOf (word32At f a) i = f (a + BitVec.ofNat w i) := by
  rw [word32At, byteOf_join (m := 2) rfl _ _ hi]
  split
  case isTrue hlo => exact byteOf_word16At f a hlo
  case isFalse hhi =>
    rw [byteOf_word16At f _ (by omega), BitVec.add_assoc,
      show (2 : BitVec w) = BitVec.ofNat w 2 from rfl, ← BitVec.ofNat_add,
      show 2 + (i - 2) = i by omega]

theorem byteOf_word64At (f : BitVec w → U8) (a : BitVec w)
    {i : Nat} (hi : i < 8) :
    byteOf (word64At f a) i = f (a + BitVec.ofNat w i) := by
  rw [word64At, byteOf_join (m := 4) rfl _ _ hi]
  split
  case isTrue hlo => exact byteOf_word32At f a hlo
  case isFalse hhi =>
    rw [byteOf_word32At f _ (by omega), BitVec.add_assoc,
      show (4 : BitVec w) = BitVec.ofNat w 4 from rfl, ← BitVec.ofNat_add,
      show 4 + (i - 4) = i by omega]

-- ======== agreement

variable {β : Type} [ByteRam w β]

/-- Bit `j` of the byte at `x` was `u` and is `v`: it is what it was, or it
is of the set `M` and has been set. -/
def Risen (M : BitVec w → Nat → Prop) (x : BitVec w) (j : Nat) (u v : Bool) : Prop :=
  v = u ∨ M x j ∧ v = true

/-- The same memory but for bits of `M` that have been set. -/
def Agree (M : BitVec w → Nat → Prop) (b b' : β) : Prop :=
  ∀ x j, Risen M x j ((byte b x).getLsbD j) ((byte b' x).getLsbD j)

/-- `M` is a set of bits of cells. -/
def Cellwise (β : Type) [ByteRam w β] (M : BitVec w → Nat → Prop) : Prop :=
  ∀ x y j, cell β x = cell β y → M x j → M y j

/-- `v` is the `n` bytes at the places `place`, but for bits of `M` that are
set in it. -/
def Spells (M : BitVec w → Nat → Prop) (b : β)
    (place : Nat → Option (BitVec w)) (n : Nat)
    {k : Nat} (v : BitVec k) : Prop :=
  ∀ i < n, ∃ p, place i = some p
    ∧ ∀ j < 8, Risen M p j ((byte b p).getLsbD j) ((byteOf v i).getLsbD j)

section Agree

variable {M : BitVec w → Nat → Prop} {b b₀ b₁ : β}

omit [ByteRam w β] in
theorem Risen.trans {x : BitVec w} {j : Nat} {u v v' : Bool}
    (h : Risen M x j u v) (h' : Risen M x j v v') : Risen M x j u v' := by
  rcases h' with rfl | h'
  · exact h
  · exact .inr h'

theorem Agree.refl (M : BitVec w → Nat → Prop) (b : β) : Agree M b b :=
  fun _ _ => .inl rfl

/-- A store shows in the cells it goes to and nowhere else. -/
theorem byte_store (b : β) {ps : List (BitVec w)} {k : Nat} (v : BitVec k)
    (hcells : (ps.map (cell β)).Nodup) (x : BitVec w) :
    (∃ (i : Nat) (hi : i < ps.length), cell β x = cell β ps[i]
      ∧ byte (pokeAll b (byteStores ps v)) x = byteOf v i)
    ∨ (∀ q ∈ ps, cell β x ≠ cell β q)
      ∧ byte (pokeAll b (byteStores ps v)) x = byte b x := by
  by_cases hin : ∃ q ∈ ps, cell β x = cell β q
  · obtain ⟨q, hq, heq⟩ := hin
    obtain ⟨i, hi, rfl⟩ := List.mem_iff_getElem.mp hq
    exact .inl ⟨i, hi, heq,
      (byte_cell _ _ _ heq).trans (byte_pokeAll b ps v hcells hi)⟩
  · have hout : ∀ q ∈ ps,
      cell β x ≠ cell β q := fun q hq heq => hin ⟨q, hq, heq⟩
    exact .inr ⟨hout,
      byte_pokeAll_other b _ fun q hq => hout q.1 (mem_byteStores hq)⟩

/-- What a word that spells the places says of one of them. -/
theorem Spells.risen {ps : List (BitVec w)} {k n : Nat} {v : BitVec k}
    (hv : Spells M b (ps[·]?) n v) {i : Nat} (hn : i < n)
    (hi : i < ps.length) {j : Nat}
    (hj : j < 8) :
    Risen M ps[i] j ((byte b ps[i]).getLsbD j) ((byteOf v i).getLsbD j) := by
  obtain ⟨q, hq, hbit⟩ := hv i hn
  obtain rfl : ps[i] = q := by simpa [List.getElem?_eq_getElem hi] using hq
  exact hbit j hj

/-- A word that spells what was there is stored without a change. -/
theorem Agree.store (hM : Cellwise β M) (h : Agree M b₀ b)
    {ps : List (BitVec w)} {k : Nat}
    {v : BitVec k} (hcells : (ps.map (cell β)).Nodup)
    (hv : Spells M b₀ (ps[·]?) ps.length v) :
    Agree M b₀ (pokeAll b (byteStores ps v)) := by
  intro x j
  rcases byte_store b v hcells x with ⟨i, hi, heq, hbyte⟩ | ⟨-, hbyte⟩
  · rw [hbyte, byte_cell b₀ _ _ heq]
    rcases Nat.lt_or_ge j 8 with hj | hj
    · exact (hv.risen hi hi hj).imp_right fun hm =>
        ⟨hM _ _ j heq.symm hm.1, hm.2⟩
    · rw [BitVec.getLsbD_of_ge _ _ hj, BitVec.getLsbD_of_ge _ _ hj]
      exact .inl rfl
  · rw [hbyte]
    exact h x j

/-- Adjacent bytes, up to eight of them, have cells of their own. -/
theorem cells_bytesFrom (β : Type) [ByteRam w β] (a : BitVec w)
    {n : Nat} (hn : n ≤ 8) :
    ((bytesFrom a n).map (cell β)).Nodup := by
  refine cells_nodup (c := a.toNat) (by simp [bytesFrom, hn]) fun i hi => ?_
  simp only [bytesFrom, List.getElem_map, List.getElem_range]
  exact toNat_add_mod (ByteRam.wide β) (dvd_refl 8) a i

/-- A word stored with more bits of `M` than it was read with. -/
theorem Agree.mark (hM : Cellwise β M) (h : Agree M b₀ b)
    (h₁ : Agree M b₀ b₁) {a : BitVec w}
    {n k : Nat} (hn : n ≤ 8) {u v : BitVec k}
    (hword : ∀ i < n, byteOf u i = byte b₁ (a + BitVec.ofNat w i))
    (hmarks : ∀ i < n, ∀ j < 8,
      Risen M (a + BitVec.ofNat w i) j (u.getLsbD (8 * i + j))
        (v.getLsbD (8 * i + j))) :
    Agree M b₀ (pokeAll b (byteStores (bytesFrom a n) v)) := by
  refine h.store hM (cells_bytesFrom β a hn) fun i hi => ?_
  have hin : i < n := by simpa [bytesFrom] using hi
  refine ⟨a + BitVec.ofNat w i, by simp [bytesFrom, hin], fun j hj => ?_⟩
  have hmark := hmarks i hin j hj
  rw [← getLsbD_byteOf _ _ hj, ← getLsbD_byteOf _ _ hj, hword i hin] at hmark
  exact (h₁ _ j).trans hmark

end Agree

-- ======== places

/-- Two halves read one after the other. -/
theorem Spells.join {M : BitVec w → Nat → Prop} {b : β}
    {place : Nat → Option (BitVec w)}
    {m k : Nat} (hk : k = 8 * m) {lo hi : BitVec k}
    (hlo : Spells M b place m lo)
    (hhi : Spells M b (fun i => place (m + i)) m hi) :
    Spells M b place (2 * m)
      (lo.setWidth (k + k) ||| (hi.setWidth (k + k) <<< k)) := by
  intro i hi2
  rcases Nat.lt_or_ge i m with hlt | hge
  · obtain ⟨p, hp, hbit⟩ := hlo i hlt
    refine ⟨p, hp, fun j hj => ?_⟩
    rw [byteOf_join hk _ _ hi2, if_pos hlt]
    exact hbit j hj
  · obtain ⟨p, hp, hbit⟩ := hhi (i - m) (by omega)
    dsimp only at hp
    rw [Nat.add_sub_cancel' hge] at hp
    refine ⟨p, hp, fun j hj => ?_⟩
    rw [byteOf_join hk _ _ hi2, if_neg (by omega)]
    exact hbit j hj

/-- A word with the same low bytes. -/
theorem Spells.congr {M : BitVec w → Nat → Prop} {b : β}
    {place : Nat → Option (BitVec w)}
    {n k k' : Nat} {v : BitVec k} {v' : BitVec k'}
    (hv : ∀ i < n, byteOf v' i = byteOf v i)
    (h : Spells M b place n v) : Spells M b place n v' := by
  intro i hi
  obtain ⟨p, hp, hbit⟩ := h i hi
  exact ⟨p, hp, fun j hj => hv i hi ▸ hbit j hj⟩

section Places

variable {physical : BitVec w → Option (BitVec w)} {a : BitVec w} {n : Nat}
  {ps : List (BitVec w)} (h : ps.map some = (bytesFrom a n).map physical)

include h

omit [ByteRam w β] in
/-- Every byte has its place. -/
theorem length_places :
    ps.length = n := by simpa [bytesFrom] using congrArg List.length h

omit [ByteRam w β] in
/-- The places are in the order of the addresses. -/
theorem getElem_places {i : Nat} (hi : i < n) :
    ps[i]? = physical (a + BitVec.ofNat w i) := by
  have hlen : i < ps.length := (length_places h).symm ▸ hi
  have hget := congrArg (·[i]?) h
  simp only [bytesFrom, List.getElem?_map, List.getElem?_eq_getElem hlen,
    List.getElem?_range hi, Option.map_some, Option.some.injEq] at hget
  rw [List.getElem?_eq_getElem hlen, hget]

/-- The places of adjacent bytes have cells of their own, as long as a place
keeps the low bits of its address. -/
theorem cells_places
    (hlow : ∀ x p, physical x = some p → p.toNat % 8 = x.toNat % 8)
    (hn : n ≤ 8) :
    (ps.map (cell β)).Nodup := by
  have hlen := length_places h
  refine cells_nodup (c := a.toNat) (by omega) fun i hi => ?_
  have hget := getElem_places h (i := i) (by omega)
  rw [List.getElem?_eq_getElem hi] at hget
  rw [hlow _ _ hget.symm]
  exact toNat_add_mod (ByteRam.wide β) (dvd_refl 8) a i

/-- A word that is spelled there is spelled by the list of the places. -/
theorem spells_places {M : BitVec w → Nat → Prop} {b : β}
    {k m : Nat} {v : BitVec k}
    (hm : 8 * n ≤ m)
    (hv : Spells M b (fun i => physical (a + BitVec.ofNat w i)) n v) :
    Spells M b (ps[·]?) ps.length (v.setWidth m) := by
  intro i hi
  have hin : i < n := length_places h ▸ hi
  obtain ⟨p, hp, hbit⟩ := hv i hin
  refine ⟨p, (getElem_places h hin).trans hp, fun j hj => ?_⟩
  rw [byteOf_low _ (by omega)]
  exact hbit j hj

end Places

-- ======== addresses

section Spans

variable {L : BitVec w → Prop} {a : BitVec w} {n : Nat}

/-- The `n` addresses from `a` on are of `L`. -/
def Spans (L : BitVec w → Prop) (a : BitVec w) (n : Nat) : Prop :=
  ∀ i < n, L (a + BitVec.ofNat w i)

theorem Spans.first (h : Spans L a n) (hn : 0 < n) : L a := by
  have hzero := h 0 hn
  rwa [BitVec.add_zero] at hzero

theorem Spans.halves (h : Spans L a (n + n)) :
    Spans L a n ∧ Spans L (a + BitVec.ofNat w n) n := by
  refine ⟨fun i hi => h i (by omega), fun i hi => ?_⟩
  rw [BitVec.add_assoc, ← BitVec.ofNat_add]
  exact h (n + i) (by omega)

theorem spans_bytesFrom (a : BitVec w) (n : Nat) :
    Spans (· ∈ bytesFrom a n) a n :=
  fun _ hi => List.mem_map_of_mem (List.mem_range.2 hi)

end Spans

-- ======== one bit

/-- What a test of bit `k` of the byte at `p` answers, and what it leaves: the
bit is set, cleared or complemented by `op`, or for 0 left alone. Bits of `M`
may have been set besides, the tested one before the test. -/
structure BitTest (M : BitVec w → Nat → Prop) (b b' : β) (op : U8)
    (p : BitVec w) (k : Nat) (cf : Bool) : Prop where
  tested : Risen M p k ((byte b p).getLsbD k) cf
  changed : op ≠ 0 →
    (byte b' p).getLsbD k = if op = 1 then true else if op = 2
      then false else !cf
  others : ∀ x j, ¬ (cell β x = cell β p ∧ j = k) →
    Risen M x j ((byte b x).getLsbD j) ((byte b' x).getLsbD j)
  kept : op = 0 → Agree M b b'

/-- The word after its bit `n` is set, cleared or complemented. -/
def withBit {k : Nat} (op : U8) (v : BitVec k) (n : Nat) : BitVec k :=
  if op = 1 then v ||| BitVec.twoPow k n
  else if op = 2 then v &&& ~~~BitVec.twoPow k n
  else v ^^^ BitVec.twoPow k n

theorem getLsbD_withBit {k : Nat} (op : U8) (v : BitVec k)
    {n m : Nat} (hm : m < k) :
    (withBit op v n).getLsbD m
      = if m = n then (if op = 1 then true else if op = 2 then false else !v.getLsbD n)
        else v.getLsbD m := by
  have hbit : (BitVec.twoPow k n).getLsbD m = decide (m = n) := by
    rw [BitVec.getLsbD_twoPow]
    by_cases hnm : m = n
    · simp [← hnm, hm]
    · simp [hnm, Ne.symm hnm]
  unfold withBit
  by_cases hmn : m = n
  · subst hmn
    split
    · rw [BitVec.getLsbD_or, hbit]
      simp
    split
    · rw [BitVec.getLsbD_and, BitVec.getLsbD_not, hbit]
      simp
    · rw [BitVec.getLsbD_xor, hbit]
      simp
  · split
    · rw [BitVec.getLsbD_or, hbit]
      simp [hmn]
    split
    · rw [BitVec.getLsbD_and, BitVec.getLsbD_not, hbit]
      simp [hmn, hm]
    · rw [BitVec.getLsbD_xor, hbit]
      simp [hmn]

theorem setWidth_withBit {k m : Nat} (hm : m ≤ k) (op : U8)
    (v : BitVec k) (n : Nat) :
    (withBit op v n).setWidth m = withBit op (v.setWidth m) n := by
  refine BitVec.eq_of_getLsbD_eq fun i hi => ?_
  rw [BitVec.getLsbD_setWidth, decide_eq_true hi, Bool.true_and,
    getLsbD_withBit _ _ (by omega), getLsbD_withBit _ _ hi,
    BitVec.getLsbD_setWidth, BitVec.getLsbD_setWidth,
    decide_eq_true hi, Bool.true_and]
  by_cases hin : i = n
  · subst hin
    rw [if_pos rfl, if_pos rfl, decide_eq_true hi, Bool.true_and]
  · rw [if_neg hin, if_neg hin]

section BitTest

variable {M : BitVec w → Nat → Prop} {b b' b₁ : β} {op : U8} {k : Nat}
  {v : BitVec k} {n : Nat}

/-- A word read and, unless `op` is 0, stored back with its bit `n` changed. -/
theorem BitTest.of_store (hM : Cellwise β M) {ps : List (BitVec w)}
    (hlen : 8 * ps.length = k)
    (hn : n < k) (hcells : (ps.map (cell β)).Nodup)
    (hread : Spells M b (ps[·]?) ps.length v)
    (h₁ : Agree M b b₁) (hop : op ≠ 0)
    (hstore : ∀ x : BitVec w,
      byte b' x = byte (pokeAll b₁ (byteStores ps (withBit op v n))) x)
    {p : BitVec w} (hp : ps[n / 8]? = some p) :
    BitTest M b b' op p (n % 8) (v.getLsbD n) := by
  have hi : n / 8 < ps.length := by omega
  have hmod : n % 8 < 8 := Nat.mod_lt _ (by decide)
  have hdiv : 8 * (n / 8) + n % 8 = n := Nat.div_add_mod n 8
  obtain rfl : ps[n / 8] = p := by simpa [List.getElem?_eq_getElem hi] using hp
  refine ⟨?_, fun _ => ?_, fun x j hne => ?_, fun h0 => absurd h0 hop⟩
  · have hbit := hread.risen hi hi hmod
    rwa [getLsbD_byteOf _ _ hmod, hdiv] at hbit
  · rw [hstore, byte_pokeAll b₁ ps _ hcells hi, getLsbD_byteOf _ _ hmod, hdiv,
      getLsbD_withBit _ _ hn, if_pos rfl]
  · rw [hstore]
    rcases byte_store b₁ (withBit op v n) hcells x with ⟨i, hil, heq, hbyte⟩ | ⟨-, hbyte⟩
    · rw [hbyte, byte_cell b _ _ heq]
      rcases Nat.lt_or_ge j 8 with hj | hj
      · -- off the bit itself the word stored is the one that was read
        have hother : 8 * i + j ≠ n := by
          intro hij
          obtain rfl : i = n / 8 := by omega
          exact hne ⟨heq, by omega⟩
        have hbit := hread.risen hil hil hj
        rw [getLsbD_byteOf _ _ hj] at hbit ⊢
        rw [getLsbD_withBit _ _ (by omega), if_neg hother]
        exact hbit.imp_right fun hm => ⟨hM _ _ j heq.symm hm.1, hm.2⟩
      · rw [BitVec.getLsbD_of_ge _ _ hj, BitVec.getLsbD_of_ge _ _ hj]
        exact .inl rfl
    · rw [hbyte]
      exact h₁ x j

omit k v in
/-- A word read and left where it is. -/
theorem BitTest.of_read {k : Nat} {v : BitVec k}
    {place : Nat → Option (BitVec w)} {m : Nat}
    (hn : n < 8 * m) (hread : Spells M b place m v)
    (h : Agree M b b') {p : BitVec w}
    (hp : place (n / 8) = some p) :
    BitTest M b b' 0 p (n % 8) (v.getLsbD n) := by
  have hmod : n % 8 < 8 := Nat.mod_lt _ (by decide)
  refine ⟨?_, fun h0 => absurd rfl h0, fun x j _ => h x j, fun _ => h⟩
  obtain ⟨q, hq, hbit⟩ := hread (n / 8) (by omega)
  obtain rfl : p = q := Option.some.inj (hp.symm.trans hq)
  have hkept := hbit _ hmod
  rwa [getLsbD_byteOf _ _ hmod, Nat.div_add_mod n 8] at hkept

end BitTest

end Remu
