/-
STM and the matching LDM.

The four addressing modes differ in where the transfer starts and where the
base ends up. A pair matches when the load counts the other way and
steps before the access exactly when the store stepped after it: it then
starts at the same word and leaves the base where the store found it. In
between stand the words themselves. The listed registers go to
consecutive words, which never share a cell, whatever the base and wherever
the memory wraps, so that each one is read back.
-/
import Remu.Lib.Fields
import Remu.Arm32.Transparency

namespace Remu.Arm32

-- ======== words of memory

namespace LinearMemory

/-- The cells of the word at `a`. -/
def InWord (m : LinearMemory) (a : U32) (j : Nat) : Prop :=
  m.index a ≤ j ∧ j < m.index a + 4

/-- A word store writes its four bytes. -/
theorem ram_write32 (m : LinearMemory) {a : U32}
    (ha : a.toNat % 4 = 0) (v : U32) {j : Nat}
    (hj : ¬ m.InWord a j) : (m.write32 a v).ram j = m.ram j := by
  have hlt := m.index_lt (a := a) (k := 3) (by omega)
  have hne : ∀ k,
    k < 4 → j ≠ m.index a + k := fun k hk h => hj ⟨by omega, by omega⟩
  unfold write32
  dsimp only
  rw [if_pos hlt]
  dsimp only
  rw [upd_other _ _ (hne 3 (by omega)), upd_other _ _ (hne 2 (by omega)),
    upd_other _ _ (hne 1 (by omega))]
  exact upd_other _ _ (hne 0 (by omega))

@[simp] theorem width_write32 (m : LinearMemory) {a : U32}
    (ha : a.toNat % 4 = 0) (v : U32) :
    (m.write32 a v).width = m.width := by
  have hlt := m.index_lt (a := a) (k := 3) (by omega)
  unfold write32
  dsimp only
  rw [if_pos hlt]

/-- An aligned word is read from its four cells. -/
theorem read32_eq (m : LinearMemory) {a : U32} (ha : a.toNat % 4 = 0) :
    m.read32 a = (m.ram (m.index a)).setWidth 32
      ||| ((m.ram (m.index a + 1)).setWidth 32 <<< 8)
      ||| ((m.ram (m.index a + 2)).setWidth 32 <<< 16)
        ||| ((m.ram (m.index a + 3)).setWidth 32 <<< 24) := by
  have hlt := m.index_lt (a := a) (k := 3) (by omega)
  unfold read32
  dsimp only
  rw [if_pos hlt]

/-- A word from its bytes. -/
theorem join_bytes (v : U32) :
    (v.setWidth 8 : U8).setWidth 32
      ||| (((v >>> 8).setWidth 8 : U8).setWidth 32 <<< 8)
      ||| (((v >>> 16).setWidth 8 : U8).setWidth 32 <<< 16)
      ||| (((v >>> 24).setWidth 8 : U8).setWidth 32 <<< 24) = v := by
  refine BitVec.eq_of_getLsbD_eq fun i hi => ?_
  simp only [BitVec.getLsbD_or, BitVec.getLsbD_shiftLeft,
    BitVec.getLsbD_setWidth, BitVec.getLsbD_ushiftRight]
  by_cases h8 : i < 8
  · simp [hi, h8, show i < 16 by omega, show i < 24 by omega]
  by_cases h16 : i < 16
  · simp [hi, h8, h16, show i < 24 by omega, show i - 8 < 8 by omega,
      show i - 8 < 32 by omega, show 8 + (i - 8) = i by omega]
  by_cases h24 : i < 24
  · simp [hi, h8, h16, h24, show ¬ i - 8 < 8 by omega,
      show i - 16 < 8 by
        omega, show i - 16 < 32 by omega, show 16 + (i - 16) = i by omega]
  · simp [hi, h8, h16, h24, show ¬ i - 8 < 8 by omega,
      show ¬ i - 16
      < 8 by
        omega, show i - 24 < 8 by
          omega, show i - 24 < 32 by omega, show 24 + (i - 24) = i by omega]

/-- A word read back. -/
theorem read32_write32_same (m : LinearMemory) {a : U32}
    (ha : a.toNat % 4 = 0) (v : U32) :
    (m.write32 a v).read32 a = v := by
  have hlt := m.index_lt (a := a) (k := 3) (by omega)
  have hindex : (m.write32 a v).index a = m.index a := by
    rw [index_eq, index_eq, width_write32 m ha]
  rw [read32_eq _ ha, hindex]
  unfold write32
  dsimp only
  rw [if_pos hlt]
  refine Eq.trans ?_ (join_bytes v)
  simp [upd]

/-- Word addresses stay so in a smaller memory. -/
theorem index_mod4 (m : LinearMemory) {a : U32} (ha : a.toNat % 4 = 0) :
    m.index a % 4 = 0 := by
  have hdvd : 4 ∣ 2 ^ m.width :=
    Dvd.dvd.trans (by decide) (Nat.pow_dvd_pow 2 m.atLeast)
  rw [index_eq, Nat.mod_mod_of_dvd _ hdvd, ha]

/-- A word elsewhere is not touched. -/
theorem read32_write32_other (m : LinearMemory) {a b : U32}
    (ha : a.toNat % 4 = 0) (hb : b.toNat % 4 = 0)
    (hne : m.index b ≠ m.index a) (v : U32) :
    (m.write32 a v).read32 b = m.read32 b := by
  have hindex : (m.write32 a v).index b = m.index b := by
    rw [index_eq, index_eq, width_write32 m ha]
  have hma := m.index_mod4 ha
  have hmb := m.index_mod4 hb
  have hout : ∀ k,
    k < 4 → (m.write32 a v).ram (m.index b + k) = m.ram (m.index b + k) := by
    intro k hk
    refine m.ram_write32 ha v ?_
    rintro ⟨hle, hlt⟩
    omega
  rw [read32_eq _ hb, read32_eq _ hb, hindex, hout 3 (by omega),
    hout 2 (by omega), hout 1 (by omega),
    show (m.write32 a v).ram (m.index b) = m.ram (m.index b) from hout 0 (by omega)]

/-- Addresses less than 64 KiB apart have cells of their own. -/
theorem index_add_ne (m : LinearMemory) (a : U32) {k : Nat}
    (h0 : k ≠ 0) (hk : k < 65536) :
    m.index (a + BitVec.ofNat 32 k) ≠ m.index a := by
  have hdvd : 65536 ∣ 2 ^ m.width := Nat.pow_dvd_pow 2 m.atLeast
  intro h
  have hmod : m.index (a + BitVec.ofNat 32 k) % 65536 = m.index a % 65536 := by rw [h]
  rw [index_eq, index_eq, Nat.mod_mod_of_dvd _ hdvd, Nat.mod_mod_of_dvd _ hdvd,
    BitVec.toNat_add, BitVec.toNat_ofNat] at hmod
  omega

-- ======== runs of words

/-- Store words from `a` on. -/
def storeWords : LinearMemory → U32 → List U32 → LinearMemory
  | m, _, [] => m
  | m, a, v :: vs => storeWords (m.write32 a v) (a + 4) vs

/-- The `n` words from `a` on. -/
def loadWords (m : LinearMemory) : U32 → Nat → List U32
  | _, 0 => []
  | a, n + 1 => m.read32 a :: m.loadWords (a + 4) n

/-- The cells of the `n` words from `a` on. -/
def InWords (m : LinearMemory) (a : U32) (n j : Nat) : Prop :=
  ∃ k, k < n ∧ m.InWord (a + BitVec.ofNat 32 (4 * k)) j

/-- The next word address. -/
theorem add4_aligned {a : U32} (ha : a.toNat % 4 = 0) :
    (a + 4).toNat % 4 = 0 := by
  have h4 : (4 : U32).toNat = 4 := rfl
  rw [BitVec.toNat_add, h4]
  omega

/-- The k-th word behind the next is the next to the k-th. -/
theorem add4_add (a : U32) (k : Nat) :
    a + 4 + BitVec.ofNat 32 (4 * k) = a + BitVec.ofNat 32 (4 * (k + 1)) := by
  rw [BitVec.add_assoc, Nat.mul_add, Nat.add_comm, BitVec.ofNat_add]
  rfl

/-- Nothing outside the words is written. -/
theorem ram_storeWords (m : LinearMemory) {a : U32} (ha : a.toNat % 4 = 0)
    (vs : List U32) {j : Nat}
    (hj : ¬ m.InWords a vs.length j) :
    (m.storeWords a vs).ram j = m.ram j := by
  induction vs generalizing m a with
  | nil => rfl
  | cons v vs ih =>
    have hhead : ¬ m.InWord a j := by
      intro h
      refine hj ⟨0, Nat.succ_pos _, ?_⟩
      rwa [Nat.mul_zero, BitVec.add_zero]
    rw [storeWords, ih _ (add4_aligned ha), m.ram_write32 ha v hhead]
    rintro ⟨k, hk, hin⟩
    refine hj ⟨k + 1, Nat.succ_lt_succ hk, ?_⟩
    rw [add4_add, InWord, index_eq, width_write32 m ha] at hin
    rwa [InWord, index_eq]

/-- A word below the run is kept by it. -/
theorem read32_storeWords_other (m : LinearMemory) {a b : U32}
    (ha : a.toNat % 4 = 0) (hb : b.toNat % 4 = 0) (vs : List U32)
    (hne : ∀ k, k < vs.length →
      m.index b ≠ m.index (a + BitVec.ofNat 32 (4 * k))) :
    (m.storeWords a vs).read32 b = m.read32 b := by
  induction vs generalizing m a with
  | nil => rfl
  | cons v vs ih =>
    have hhead : m.index b ≠ m.index a := by
      have h := hne 0 (Nat.succ_pos _)
      rwa [Nat.mul_zero, BitVec.add_zero] at h
    rw [storeWords, ih _ (add4_aligned ha), m.read32_write32_other ha hb hhead]
    intro k hk
    have h := hne (k + 1) (Nat.succ_lt_succ hk)
    rwa [add4_add, index_eq, index_eq, width_write32 m ha,
      ← index_eq, ← index_eq]

/-- A run of words shorter than 64 KiB reads back. -/
theorem loadWords_storeWords (m : LinearMemory) {a : U32}
    (ha : a.toNat % 4 = 0) {vs : List U32}
    (hlen : 4 * vs.length < 65536) :
    (m.storeWords a vs).loadWords a vs.length = vs := by
  induction vs generalizing m a with
  | nil => rfl
  | cons v vs ih =>
    rw [List.length_cons] at hlen
    rw [List.length_cons, loadWords, storeWords,
      ih _ (add4_aligned ha) (by omega)]
    congr 1
    rw [read32_storeWords_other _ (add4_aligned ha) ha,
      read32_write32_same m ha]
    intro k hk
    rw [add4_add]
    exact (index_add_ne _ a (by omega) (by omega)).symm

end LinearMemory

-- ======== the encoding

/-- The upper bits of STM Rn! and LDM Rn!, always executed: P and U, S clear,
W set. -/
def blockHead (load pre up : Bool) : BitVec 12 :=
  0xE#4 ++ 0b100#3 ++ BitVec.ofBool pre ++ BitVec.ofBool up ++ 0b01#2
    ++ BitVec.ofBool load

/-- The instruction word of a block transfer. -/
def blockWord (load pre up : Bool) (rn : BitVec 4) (list : U16) : U32 :=
  blockHead load pre up ++ rn ++ list

/-- The record of a block transfer with write-back. -/
def blockInsn (load pre up : Bool) (rn : BitVec 4) (list : U16) :
    DecodedInsn :=
  { DecodedInsn.new (if load then .ldm else .stm) COND_AL 4 with
    rn := rn.setWidth 8
    aux := maskIf pre blk.PRE ||| maskIf up blk.UP ||| blk.WB
    imm := list.setWidth 32 }

section Encoding

variable (load pre up : Bool) (rn : BitVec 4) (list : U16)

/-- The fields of the instruction word, bit by bit. -/
theorem getLsbD_blockWord (k : Nat) :
    (blockWord load pre up rn list).getLsbD k
      = if k < 16 then list.getLsbD k else if k < 20 then rn.getLsbD (k - 16)
        else (blockHead load pre up).getLsbD (k - 20) := by
  rw [blockWord, BitVec.getLsbD_append, BitVec.getLsbD_append]
  by_cases h16 : k < 16
  · simp [h16]
  · by_cases h20 : k < 20
    · simp [h16, h20, show k - 16 < 4 by omega]
    · simp [h16, h20, show ¬ k - 16 < 4 by omega, Nat.sub_sub]

/-- A test of one bit. -/
theorem hasBit_eq (w : U32) {k : Nat} (hk : k < 32) :
    hasBit w k = w.getLsbD k := by
  rw [hasBit, Word.natCast_one_shiftLeft]
  exact Word.and_twoPow_ne_zero w hk

/-- Bit `k` under a mask, brought down. -/
theorem bitTo_eq (w : U32) (k : Nat) (m : U8) :
    bitTo w k m = maskIf (w.getLsbD k) m := by
  have hone : (w >>> k) &&& 1 = if w.getLsbD k then 1 else 0 := by
    refine BitVec.eq_of_getLsbD_eq fun i hi => ?_
    by_cases h : i = 0
    · subst h
      cases hbit : w.getLsbD k <;> simp [hbit]
    · cases w.getLsbD k <;> simp [h]
  rw [bitTo, hone, maskIf]
  cases w.getLsbD k <;> simp

/-- The base register, read back from the instruction word. -/
theorem nibble_blockWord :
    nibble (blockWord load pre up rn list) 16 = rn.setWidth 8 := by
  have hmask : (0xF : U32) = Word.fieldMask 32 0 4 := by decide
  refine BitVec.eq_of_getLsbD_eq fun i hi => ?_
  rw [nibble, hmask, BitVec.getLsbD_setWidth, BitVec.getLsbD_and,
    BitVec.getLsbD_ushiftRight, getLsbD_blockWord, Word.getLsbD_fieldMask,
    BitVec.getLsbD_setWidth]
  by_cases h : i < 4
  · simp [hi, h, show i < 32 by omega, show 16 + i < 20 by omega]
  · simp [hi, h, BitVec.getLsbD_of_ge rn i (by omega)]

theorem list_blockWord :
    blockWord load pre up rn list &&& 0xFFFF = list.setWidth 32 := by
  have hmask : (0xFFFF : U32) = Word.fieldMask 32 0 16 := by decide
  refine BitVec.eq_of_getLsbD_eq fun i hi => ?_
  rw [hmask, BitVec.getLsbD_and, getLsbD_blockWord, Word.getLsbD_fieldMask,
    BitVec.getLsbD_setWidth]
  by_cases h : i < 16
  · simp [hi, h]
  · simp [hi, h, BitVec.getLsbD_of_ge list i (by omega)]

/-- Bits of the head are known. -/
theorem head_blockWord {k : Nat} (hk : 20 ≤ k) :
    (blockWord load pre up rn list).getLsbD k
      = (blockHead load pre up).getLsbD (k - 20) := by
  rw [getLsbD_blockWord, if_neg (by omega), if_neg (by omega)]

theorem group_blockWord :
    (blockWord load pre up rn list >>> 25) &&& 7 = 4 := by
  have hmask : (7 : U32) = Word.fieldMask 32 0 3 := by decide
  refine BitVec.eq_of_getLsbD_eq fun i hi => ?_
  rw [hmask, BitVec.getLsbD_and, BitVec.getLsbD_ushiftRight,
    head_blockWord _ _ _ _ _ (by omega), Word.getLsbD_fieldMask]
  by_cases h : i < 3
  · have hhead : ∀ load pre up (i : Fin 3),
        (blockHead load pre up).getLsbD (25 + i - 20)
          = (4 : U32).getLsbD i := by decide
    simpa [hi, h] using hhead load pre up ⟨i, h⟩
  · have hfour : (4 : U32) = BitVec.twoPow 32 2 := by decide
    rw [hfour, BitVec.getLsbD_twoPow]
    simp [h, show ¬ 2 = i by omega]

theorem cond_blockWord :
    (blockWord load pre up rn list >>> 28).setWidth 8 = COND_AL := by
  refine BitVec.eq_of_getLsbD_eq fun i hi => ?_
  have hhead : ∀ load pre up (i : Fin 8),
      (blockHead load pre up).getLsbD (28 + i - 20) = COND_AL.getLsbD i := by decide
  rw [BitVec.getLsbD_setWidth, BitVec.getLsbD_ushiftRight,
    head_blockWord _ _ _ _ _ (by omega), hhead load pre up ⟨i, hi⟩,
    decide_eq_true hi, Bool.true_and]

/-- The decoder makes the record it should. -/
theorem decodeArm_blockWord {list : U16} (hne : list ≠ 0) :
    decodeArm (blockWord load pre up rn list)
      = blockInsn load pre up rn list := by
  have hlist : (list.setWidth 32 : U32) ≠ 0 := by
    intro h
    exact hne (by simpa using congrArg (BitVec.setWidth 16) h)
  have hbits : ∀ load pre up, (blockHead load pre up).getLsbD 0 = load
      ∧ (blockHead load pre up).getLsbD 4 = pre
      ∧ (blockHead load pre up).getLsbD 3 = up
      ∧ (blockHead load pre up).getLsbD 2 = false
      ∧ (blockHead load pre up).getLsbD 1 = true := by decide
  obtain ⟨h20, h24, h23, h22, h21⟩ := hbits load pre up
  rw [decodeArm, group_blockWord, cond_blockWord]
  show decodeGroup4 _ _ = _
  rw [decodeGroup4, nibble_blockWord, list_blockWord, hasBit_eq _ (by decide),
    bitTo_eq, bitTo_eq, bitTo_eq, bitTo_eq,
    head_blockWord _ _ _ _ _ (by decide), head_blockWord _ _ _ _ _ (by decide),
    head_blockWord _ _ _ _ _ (by decide), head_blockWord _ _ _ _ _ (by decide),
    head_blockWord _ _ _ _ _ (by decide)]
  dsimp only
  rw [if_neg hlist, h20, h24, h23, h22, h21, blockInsn]
  simp [maskIf, DecodedInsn.new]

end Encoding

-- ======== the registers

/-- The listed registers loaded from the words from `a` on. -/
def Registers.loadListed (b : LinearMemory) :
    List (Fin 16) → U32 → Registers → Registers
  | [], _, r => r
  | i :: is, a, r => loadListed b is (a + 4) (r.setGpr i (b.read32 a))

namespace Registers

variable (b : LinearMemory) (is : List (Fin 16)) (a : U32) (r : Registers)

/-- A register that is not listed is not loaded. -/
theorem gpr_loadListed_other {i : Fin 16} (hi : i ∉ is) :
    (r.loadListed b is a).gpr i = r.gpr i := by
  induction is generalizing a r with
  | nil => rfl
  | cons j is ih =>
    rw [List.mem_cons, not_or] at hi
    rw [loadListed, ih _ _ hi.2]
    exact upd_other _ _ hi.1

/-- A listed register has its word. -/
theorem gpr_loadListed {f : Fin 16 → U32}
    (h : b.loadWords a is.length = is.map f) {i : Fin 16}
    (hi : i ∈ is) : (r.loadListed b is a).gpr i = f i := by
  induction is generalizing a r with
  | nil => exact absurd hi List.not_mem_nil
  | cons j is ih =>
    rw [List.length_cons, LinearMemory.loadWords, List.map_cons,
      List.cons.injEq] at h
    by_cases hin : i ∈ is
    · exact ih _ _ h.2 hin
    · obtain rfl : i = j := (List.mem_cons.1 hi).resolve_right hin
      rw [loadListed, gpr_loadListed_other _ _ _ _ hin, h.1]
      exact upd_same _ _ _

end Registers

-- ======== the loops

/-- The store loop writes the words and nothing else. -/
theorem stmLoop_apply (d : DecodedInsn) (wb : U32)
    (is : List (Fin 16)) (a : U32) (m : Machine LinearMemory) :
    ∃ ic, stmLoop d wb is a m = (.ok (), { m with
      icache := ic
      bus := m.bus.storeWords a (is.map (m.toCore.stmValue d wb)) }) := by
  induction is generalizing m a with
  | nil => exact ⟨m.icache, rfl⟩
  | cons i is ih =>
    obtain ⟨ic, h⟩ := ih (a + 4) { m with
      icache := m.icache.stampWrite a
      bus := m.bus.write32 a (m.toCore.stmValue d wb i) }
    exact ⟨ic, h⟩

/-- The load loop loads the listed registers and leaves memory alone. -/
theorem ldmLoop_apply {is : List (Fin 16)} (hpc : (15 : Fin 16) ∉ is) (a : U32)
    (m : Machine LinearMemory) :
    ldmLoop false is a none m
      = (.ok none, { m with regs := m.regs.loadListed m.bus is a }) := by
  induction is generalizing m a with
  | nil => rfl
  | cons i is ih =>
    rw [List.mem_cons, not_or] at hpc
    have hload : load32 a m = (.ok (m.bus.read32 a), m) := rfl
    rw [ldmLoop, Fallible.bind_of_ok hload, if_neg (Ne.symm hpc.1),
      Fallible.bind_of_ok (show onCore _ m = (.ok (), _) from rfl), ih hpc.2]
    rfl

-- ======== the addresses

/-- The lowest word of a transfer of `n` registers. -/
def lowestWord (pre up : Bool) (base : U32) (n : Nat) : U32 :=
  (match up, pre with
    | true, false => base
    | true, true => base + 4
    | false, false => base - 4 * BitVec.ofNat 32 n + 4
    | false, true => base - 4 * BitVec.ofNat 32 n) &&& ~~~3

/-- The base behind a transfer of `n` registers. -/
def baseAfter (up : Bool) (base : U32) (n : Nat) : U32 :=
  if up then base + 4 * BitVec.ofNat 32 n else base - 4 * BitVec.ofNat 32 n

/-- The matching transfer walks the same words back to the same base. -/
theorem matching_words (pre up : Bool) (base : U32) (n : Nat) :
    lowestWord (!pre) (!up) (baseAfter up base n) n = lowestWord pre up base n
      ∧ baseAfter (!up) (baseAfter up base n) n = base := by
  cases up <;> cases pre <;> simp [lowestWord, baseAfter]

/-- A list has as many registers as ones. -/
theorem countOnes_eq (list : U16) :
    Core.countOnes list = (listed list).length := by
  rw [Core.countOnes, listed, ← List.countP_eq_length_filter,
    ← List.map_coe_finRange_eq_range, List.countP_map]
  rfl

/-- A list has at most sixteen registers. -/
theorem length_listed_le (list : U16) : (listed list).length ≤ 16 := by
  refine (List.length_filter_le _ _).trans ?_
  rw [List.length_finRange]

/-- A register is listed where its bit is set. -/
theorem mem_listed {list : U16} {i : Fin 16} :
    i ∈ listed list ↔ list.getLsbD i = true := by
  simp [listed]

-- ======== the instructions

section Transfer

variable (load pre up : Bool) {rn : Fin 16} {list : U16}

/-- The bits of the record's layout byte. -/
theorem aux_blockInsn (rn : BitVec 4) (list : U16) :
    ((blockInsn load pre up rn list).aux &&& blk.PRE != 0) = pre
      ∧ ((blockInsn load pre up rn list).aux &&& blk.UP != 0) = up
      ∧ ((blockInsn load pre up rn list).aux &&& blk.S != 0) = false
      ∧ ((blockInsn load pre up rn list).aux &&& blk.WB != 0) = true
      ∧ ((blockInsn load pre up rn list).aux &&& blk.EMPTY != 0) = false := by
  have hall : ∀ pre up,
      ((maskIf pre blk.PRE ||| maskIf up blk.UP ||| blk.WB) &&& blk.PRE != 0) = pre
      ∧ ((maskIf pre blk.PRE ||| maskIf up blk.UP ||| blk.WB) &&& blk.UP != 0) = up
      ∧ ((maskIf pre blk.PRE ||| maskIf up blk.UP ||| blk.WB) &&& blk.S != 0) = false
      ∧ ((maskIf pre blk.PRE ||| maskIf up blk.UP ||| blk.WB) &&& blk.WB != 0) = true
      ∧ ((maskIf pre blk.PRE ||| maskIf up blk.UP ||| blk.WB) &&& blk.EMPTY
        != 0) = false := by decide
  exact hall pre up

/-- The fields of the record. -/
theorem imm_blockInsn (rn : BitVec 4) (list : U16) :
    (blockInsn load pre up rn list).imm.setWidth 16 = list := by
  simp [blockInsn]

theorem ix_blockInsn (rn : Fin 16) (list : U16) :
    Core.ix (blockInsn load pre up ⟨rn⟩ list).rn = rn := by
  have hfield :
    ∀ rn : Fin 16, Core.ix ((⟨rn⟩ : BitVec 4).setWidth 8) = rn := by decide
  exact hfield rn

theorem toNat_blockInsn (rn : Fin 16) (list : U16) :
    (blockInsn load pre up ⟨rn⟩ list).rn.toNat = rn.val := by
  have hfield : ∀ rn : Fin 16,
    ((⟨rn⟩ : BitVec 4).setWidth 8 : U8).toNat = rn.val := by decide
  exact hfield rn

theorem regOp_blockInsn (hrn : rn ≠ 15) (c : Core) :
    c.regOp (blockInsn load pre up ⟨rn⟩ list).rn = c.regs.gpr rn := by
  have hfield :
      ∀ rn : Fin 16, rn ≠ 15 → ((⟨rn⟩ : BitVec 4).setWidth 8 : U8) ≠ 15
      ∧ ((⟨rn⟩ : BitVec 4).setWidth 8 : U8) ≠ PCA := by decide
  obtain ⟨h15, hpca⟩ := hfield rn hrn
  rw [Core.regOp,
    if_neg (show (blockInsn load pre up ⟨rn⟩ list).rn ≠ 15 from h15),
    if_neg (show (blockInsn load pre up ⟨rn⟩ list).rn ≠ PCA from hpca),
    Core.gpr, ix_blockInsn]

/-- The lowest word and the base after, for the four modes. -/
theorem blkAddr_blockInsn (hrn : rn ≠ 15) (c : Core) :
    c.blkAddr (blockInsn load pre up ⟨rn⟩ list)
      = (lowestWord pre up (c.regs.gpr rn) (listed list).length,
          baseAfter up (c.regs.gpr rn) (listed list).length) := by
  obtain ⟨hpre, hup, -, -, hempty⟩ := aux_blockInsn load pre up ⟨rn⟩ list
  unfold Core.blkAddr
  rw [regOp_blockInsn load pre up hrn, imm_blockInsn, countOnes_eq,
    hpre, hup, hempty]
  cases pre <;> cases up <;> rfl

/-- A listed register is stored as it stands. -/
theorem stmValue_blockInsn (hrn : list.getLsbD rn = false)
    (hpc : list.getLsbD 15 = false) (c : Core) (wb : U32)
    {i : Fin 16} (hi : i ∈ listed list) :
    c.stmValue (blockInsn load pre up ⟨rn⟩ list) wb i = c.regs.gpr i := by
  obtain ⟨-, -, hs, -, -⟩ := aux_blockInsn load pre up ⟨rn⟩ list
  have hbit := mem_listed.1 hi
  have hne : i ≠ rn := by
    rintro rfl
    rw [hrn] at hbit
    cases hbit
  have hpc' : i ≠ 15 := by
    rintro rfl
    exact Bool.false_ne_true (hpc.symm.trans hbit)
  have hval : i.val ≠ (blockInsn load pre up ⟨rn⟩ list).rn.toNat := fun h =>
    hne (Fin.ext (h.trans (toNat_blockInsn load pre up rn list)))
  rw [Core.stmValue, if_neg fun h => hval h.1, if_neg hpc', hs]
  rfl

/-- The record is executed as LDM or STM. -/
theorem execDecoded_blockWord (rn : BitVec 4) (hne : list ≠ 0)
    (m : Machine LinearMemory) :
    execDecoded (decodeArm (blockWord load pre up rn list)) m
      = if load then execLdm (blockInsn load pre up rn list) m
        else execStm (blockInsn load pre up rn list) m := by
  have hcond : m.toCore.condPass (blockInsn load pre up rn list).cond = true :=
    rfl
  rw [decodeArm_blockWord _ _ _ _ hne, execDecoded,
    Fallible.bind_of_ok (show core m = (.ok m.toCore, m) from rfl), hcond]
  cases load <;> rfl

/-- STM stores the listed registers and moves the base. -/
theorem execStm_blockInsn (hrn : rn ≠ 15) (hbase : list.getLsbD rn = false)
    (hpc : list.getLsbD 15 = false) (m : Machine LinearMemory) :
    ∃ cost ic, execStm (blockInsn load pre up ⟨rn⟩ list) m
      = (.ok cost, { m with
      regs := m.regs.setGpr rn
        (baseAfter up (m.regs.gpr rn) (listed list).length)
      icache := ic
      bus := m.bus.storeWords
        (lowestWord pre up (m.regs.gpr rn) (listed list).length)
        ((listed list).map m.regs.gpr) }) := by
  obtain ⟨-, -, hs, hwb, -⟩ := aux_blockInsn load pre up ⟨rn⟩ list
  have haddr : m.toCore.blkAddr (blockInsn load pre up ⟨rn⟩ list) = _ :=
    blkAddr_blockInsn load pre up hrn m.toCore
  obtain ⟨ic, hloop⟩ := stmLoop_apply (blockInsn load pre up ⟨rn⟩ list)
    (baseAfter up (m.regs.gpr rn) (listed list).length) (listed list)
    (lowestWord pre up (m.regs.gpr rn) (listed list).length) m
  have hvalues :
      (listed list).map (m.toCore.stmValue (blockInsn load pre up ⟨rn⟩ list)
      (baseAfter up (m.regs.gpr rn) (listed list).length))
        = (listed list).map m.regs.gpr :=
    List.map_congr_left fun i hi => stmValue_blockInsn load pre up
      hbase hpc _ _ hi
  rw [hvalues] at hloop
  refine ⟨BitVec.ofNat 32 (Core.countOnes list) + 1, ic, ?_⟩
  rw [execStm, Fallible.bind_of_ok (show core m = (.ok m.toCore, m) from rfl)]
  dsimp only
  rw [haddr, imm_blockInsn]
  dsimp only
  rw [Fallible.bind_of_ok hloop, hs, hwb, ix_blockInsn]
  rfl

/-- A load without the PC ends with the write-back. -/
theorem ldmFinish_none (d : DecodedInsn) (wb : U32) (c : Core) :
    ldmFinish d wb none c
      = (BitVec.ofNat 32 (Core.countOnes (d.imm.setWidth 16)) + 2,
          if d.aux &&& blk.WB != 0 && !(d.imm.setWidth 16 : U16).getLsbD
            d.rn.toNat then
            c.setListed (d.aux &&& blk.S
              != 0 && !(d.imm.setWidth 16 : U16).getLsbD 15) (Core.ix d.rn) wb
          else c) := rfl

/-- LDM loads the listed registers and moves the base. -/
theorem execLdm_blockInsn (hrn : rn ≠ 15) (hbase : list.getLsbD rn = false)
    (hpc : list.getLsbD 15 = false) (m : Machine LinearMemory) :
    ∃ cost, execLdm (blockInsn load pre up ⟨rn⟩ list) m = (.ok cost, { m with
      regs := (m.regs.loadListed m.bus (listed list)
        (lowestWord pre up (m.regs.gpr rn) (listed list).length)).setGpr rn
          (baseAfter up (m.regs.gpr rn) (listed list).length) }) := by
  obtain ⟨-, -, hs, hwb, -⟩ := aux_blockInsn load pre up ⟨rn⟩ list
  have haddr : m.toCore.blkAddr (blockInsn load pre up ⟨rn⟩ list) = _ :=
    blkAddr_blockInsn load pre up hrn m.toCore
  have hpc' : (15 : Fin 16) ∉ listed list :=
    fun h => Bool.false_ne_true (hpc.symm.trans (mem_listed.1 h))
  have hloop :=
    ldmLoop_apply hpc' (lowestWord pre up (m.regs.gpr rn) (listed list).length) m
  refine ⟨BitVec.ofNat 32 (Core.countOnes list) + 2, ?_⟩
  rw [execLdm, Fallible.bind_of_ok (show core m = (.ok m.toCore, m) from rfl)]
  dsimp only
  rw [haddr, imm_blockInsn, hs, Bool.false_and]
  dsimp only
  rw [Fallible.bind_of_ok hloop, onCore]
  dsimp only
  rw [ldmFinish_none, hs, hwb, imm_blockInsn, toNat_blockInsn,
    hbase, ix_blockInsn]
  rfl

end Transfer

-- ======== the round trip

/-- A transfer goes by word addresses. -/
theorem lowestWord_aligned (pre up : Bool) (base : U32) (n : Nat) :
    (lowestWord pre up base n).toNat % 4 = 0 := mod4_aligned _

/-- What the load leaves, behind the matching store and with the memory and
the base as the store left them. -/
structure LoadsBack (rn : Fin 16) (list : U16)
    (m m₂ m₃ : Machine LinearMemory) : Prop where
  restored : ∀ i : Fin 16, i = rn ∨ list.getLsbD i = true →
    m₃.regs.gpr i = m.regs.gpr i
  kept : ∀ i : Fin 16, i ≠ rn → list.getLsbD i = false →
    m₃.regs.gpr i = m₂.regs.gpr i
  memory : m₃.bus = m₂.bus

/-- STM Rn! and the matching LDM Rn!, for every mode, list and base: the
store writes its words and no others, and the load gives the listed
registers and the base back, whatever happened to the registers since. -/
theorem block_round_trip (pre up : Bool) {rn : Fin 16} {list : U16}
    (hne : list ≠ 0) (hrn : rn ≠ 15)
    (hbase : list.getLsbD rn = false) (hpc : list.getLsbD 15 = false)
    (m : Machine LinearMemory) :
    ∃ cost m₁, execDecoded (decodeArm (blockWord false pre up ⟨rn⟩ list)) m
      = (.ok cost, m₁)
      ∧ (∀ j, ¬ m.bus.InWords
          (lowestWord pre up (m.regs.gpr rn) (listed list).length)
          (listed list).length j → m₁.bus.ram j = m.bus.ram j)
      ∧ ∀ m₂ : Machine LinearMemory,
        m₂.bus = m₁.bus → m₂.regs.gpr rn = m₁.regs.gpr rn →
        ∃ cost' m₃, execDecoded
          (decodeArm (blockWord true (!pre) (!up) ⟨rn⟩ list)) m₂
          = (.ok cost', m₃)
          ∧ LoadsBack rn list m m₂ m₃ := by
  have ha := lowestWord_aligned pre up (m.regs.gpr rn) (listed list).length
  have hlen := length_listed_le list
  obtain ⟨cost, ic, hstm⟩ := execStm_blockInsn false pre up hrn hbase hpc m
  refine ⟨cost, _, (execDecoded_blockWord false pre up _ hne m).trans hstm, ?_, ?_⟩
  · intro j hj
    refine m.bus.ram_storeWords ha _ ?_
    rwa [List.length_map]
  · intro m₂ hbus hgpr
    have hback :
      m₂.regs.gpr rn = baseAfter up (m.regs.gpr rn) (listed list).length :=
      hgpr.trans (upd_same _ _ _)
    obtain ⟨hstart, hend⟩ :=
      matching_words pre up (m.regs.gpr rn) (listed list).length
    obtain ⟨cost', hldm⟩ :=
      execLdm_blockInsn true (!pre) (!up) hrn hbase hpc m₂
    rw [hback, hstart, hend] at hldm
    have hwords :
        m₂.bus.loadWords
        (lowestWord pre up (m.regs.gpr rn) (listed list).length)
        (listed list).length
        = (listed list).map m.regs.gpr := by
      rw [hbus]
      have hall : 4 * ((listed list).map m.regs.gpr).length < 65536 := by
        rw [List.length_map]
        omega
      have h := m.bus.loadWords_storeWords ha hall
      rwa [List.length_map] at h
    refine ⟨cost', _, (execDecoded_blockWord true _ _ _ hne m₂).trans hldm,
      ?restored, ?kept, rfl⟩
    case restored =>
      intro i hi
      by_cases hirn : i = rn
      · subst hirn
        exact upd_same _ _ _
      · refine (upd_other _ _ hirn).trans ?_
        exact Registers.gpr_loadListed _ _ _ _ hwords
          (mem_listed.2 (hi.resolve_left hirn))
    case kept =>
      intro i hirn hi
      refine (upd_other _ _ hirn).trans ?_
      refine Registers.gpr_loadListed_other _ _ _ _ fun h => ?_
      exact Bool.false_ne_true (hi.symm.trans (mem_listed.1 h))

/-- An unaligned base in R0, with less memory below it than a transfer down
needs. -/
def wrappingBase : Machine LinearMemory :=
  { Cpu.new with
    regs := { Registers.new with gpr := fun i => if i = 0 then 2 else 7 }
    bus := LinearMemory.withSize 0 }

/-- STMDA R0!, {R1, R14}, every other register cleared, and LDMIB. -/
theorem block_round_trip_wrapping :
    ∃ (m₁ m₂ m₃ : Machine LinearMemory) (cost cost' : U32),
      execDecoded (decodeArm (blockWord false false false 0 0x4002))
        wrappingBase = (.ok cost, m₁)
        ∧ m₂.bus = m₁.bus ∧ m₂.regs.gpr 14 = 0
        ∧ execDecoded (decodeArm (blockWord true true true 0 0x4002)) m₂
          = (.ok cost', m₃)
        ∧ m₃.regs.gpr 14 = 7 ∧ m₃.regs.gpr 0 = 2 := by
  obtain ⟨cost, m₁, hstm, -, hback⟩ :=
    block_round_trip false false (show (0x4002 : U16) ≠ 0 by decide)
    (show (0 : Fin 16) ≠ 15 by decide) (by decide) (by decide) wrappingBase
  obtain ⟨cost', m₃, hldm, hloads⟩ := hback
    { m₁ with regs := { m₁.regs with gpr := fun i => if i = 0 then m₁.regs.gpr 0 else 0 } } rfl rfl
  exact ⟨m₁, { m₁ with
    regs := { m₁.regs with gpr := fun i => if i = 0 then m₁.regs.gpr 0 else 0 } },
    m₃, cost, cost', hstm, rfl, rfl, hldm,
      hloads.restored 14 (.inr (by decide)),
    hloads.restored 0 (.inl rfl)⟩

end Remu.Arm32
