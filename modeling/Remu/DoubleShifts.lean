/-
SHLD and SHRD in the 64-bit core and in the 32-bit one.

Both shift the destination against copies of the source: SHRD works on
src:src:dst and SHLD on dst:src:src, so that a count past the word goes on
with the source. The 32-bit core splits this into shifts of one word or of
two by complementary amounts; the 64-bit core shifts one double word. Every
bit of a result is followed to the operand it comes from.
-/
import Remu.X32.Flags
import Remu.X32.Reading
import Remu.X32.Execute0F
import Remu.X64.Exchange
import Remu.X64.Flags

namespace Remu

variable {w : Nat}

-- ======== the window

/-- The word that a double shift by `n` leaves. -/
def shxdWindow (right : Bool) (dst src : BitVec w) (n : Nat) : BitVec w :=
  if right then ((src ++ src ++ dst) >>> n).setWidth w
  else (((dst ++ src ++ src) <<< n) >>> (w + w)).setWidth w

/-- The last bit shifted out. -/
def shxdLastOut (right : Bool) (dst src : BitVec w) (n : Nat) : Bool :=
  if right then (src ++ src ++ dst).getLsbD (n - 1)
    else (dst ++ src ++ src).getLsbD (w + w + w - n)

/-- To the right a change of sign in the last step, to the left the sign
against the bit shifted out. -/
def shxdOverflow (right : Bool) (dst src : BitVec w) (n : Nat) : Bool :=
  (shxdWindow right dst src n).msb
    != if right then (shxdWindow right dst src (n - 1)).msb
      else shxdLastOut right dst src n

example : shxdWindow true 0x1234#16 0xABCD#16 20 = 0xDABC
    ∧ shxdWindow false 0x1234#16 0xABCD#16 20 = 0xBCDA := by decide

/-- A bit of three stacked words. -/
theorem getLsbD_three (a b c : BitVec w) (i : Nat) :
    (a ++ b ++ c).getLsbD i
      = if i < w then c.getLsbD i else if i < w + w then b.getLsbD (i - w)
        else a.getLsbD (i - w - w) := by
  rw [BitVec.getLsbD_append, BitVec.getLsbD_append]
  by_cases h : i < w
  · rw [if_pos h, if_pos h]
  · by_cases h' : i < w + w
    · rw [if_neg h, if_neg h, if_pos (by omega), if_pos h']
    · rw [if_neg h, if_neg h, if_neg (by omega), if_neg h']

/-- The window of SHRD, bit by bit. -/
theorem getLsbD_window_right (dst src : BitVec w) (n : Nat)
    {i : Nat} (hi : i < w) :
    (shxdWindow true dst src n).getLsbD i
      = if n + i < w then dst.getLsbD (n + i) else if n + i < w + w
        then src.getLsbD (n + i - w)
        else src.getLsbD (n + i - w - w) := by
  rw [shxdWindow, if_pos rfl, BitVec.getLsbD_setWidth,
    BitVec.getLsbD_ushiftRight, getLsbD_three,
    decide_eq_true hi, Bool.true_and]

/-- The window of SHLD, bit by bit. -/
theorem getLsbD_window_left (dst src : BitVec w) {n : Nat} (hn : n ≤ w + w)
    {i : Nat} (hi : i < w) :
    (shxdWindow false dst src n).getLsbD i
      = if n ≤ i then dst.getLsbD (i - n) else if n ≤ w + i
        then src.getLsbD (w + i - n)
        else src.getLsbD (w + w + i - n) := by
  rw [shxdWindow, if_neg Bool.false_ne_true, BitVec.getLsbD_setWidth,
    BitVec.getLsbD_ushiftRight, BitVec.getLsbD_shiftLeft, getLsbD_three,
    decide_eq_true hi, decide_eq_true (by omega),
    decide_eq_false (by omega : ¬w + w + i < n)]
  simp only [Bool.true_and, Bool.not_false]
  by_cases h : n ≤ i
  · rw [if_pos h, if_neg (by omega), if_neg (by omega)]
    congr 1
    omega
  · by_cases h' : n ≤ w + i
    · rw [if_neg h, if_pos h', if_neg (by omega), if_pos (by omega)]
      congr 1
      omega
    · rw [if_neg h, if_neg h', if_pos (by omega)]

-- ======== the 32-bit core

namespace X32.Alu

open EFlags (CF AF OF)

/-- A step of the 386 core is a slice of the window. -/
theorem shrdStep32_eq (dst src : U32) {k : Nat} (hk : k < 32) :
    shrdStep32 dst src k = shxdWindow true dst src k := by
  apply BitVec.eq_of_getLsbD_eq
  intro i hi
  rw [getLsbD_window_right _ _ _ hi, shrdStep32]
  by_cases h0 : k = 0
  · rw [if_pos h0, h0, zero_add, if_pos hi]
  rw [if_neg h0, BitVec.getLsbD_or, BitVec.getLsbD_ushiftRight,
    BitVec.getLsbD_shiftLeft]
  by_cases h : k + i < 32
  · rw [if_pos h, decide_eq_true (by omega : i < 32 - k), Bool.not_true,
      Bool.and_false, Bool.false_and, Bool.or_false]
  · rw [if_neg h, if_pos (by omega), BitVec.getLsbD_of_ge dst _ (by omega),
      decide_eq_true hi, decide_eq_false (by omega : ¬i < 32 - k),
      Bool.false_or, Bool.not_false, Bool.true_and, Bool.true_and]
    congr 1
    omega

/-- A step of SHRD at 16 bits, where the count may pass the width. -/
theorem shrdStep16_eq (dst src : U16) {k : Nat} (hk : k < 32) :
    shrdStep16 dst src k = shxdWindow true dst src k := by
  apply BitVec.eq_of_getLsbD_eq
  intro i hi
  rw [getLsbD_window_right _ _ _ hi, shrdStep16]
  by_cases h0 : k = 0
  · rw [if_pos h0, h0, zero_add, if_pos hi]
  by_cases hle : k ≤ 16
  · rw [if_neg h0, if_pos hle]
    by_cases h : k + i < 16
    · simp [hi, h, show k + i < 32 by omega, show i < 16 - k by omega]
    · simp [hi, h, show k + i < 32 by omega, show ¬i < 16 - k by omega,
        show i < 32 by
          omega, show i - (16 - k)
            = k + i - 16 by
              omega, show k + i - 16 < 16 by
                omega, BitVec.getLsbD_of_ge dst (k + i) (by omega)]
  · rw [if_neg h0, if_neg hle]
    by_cases h : k + i < 32
    · simp [hi, h, show ¬k + i < 16 by omega, show i < 32 - k by omega,
        show k - 16 + i = k + i - 16 by omega]
    · simp [hi, h, show ¬k + i < 16 by omega, show ¬i < 32 - k by omega,
        show i - (32 - k)
        = k + i - 16 - 16 by
          omega, show k + i - 16 - 16 < 16 by
            omega, BitVec.getLsbD_of_ge src (k - 16 + i) (by omega)]

/-- SHLD at 16 bits, with the bit it shifts out last. -/
theorem shldStep16_eq (dst src : U16) {k : Nat} (hk : k < 32) :
    shldStep16 dst src k
      = (shxdWindow false dst src k, shxdLastOut false dst src k) := by
  rw [shxdLastOut, if_neg Bool.false_ne_true, getLsbD_three, shldStep16]
  by_cases hle : k ≤ 16
  · rw [if_pos hle, if_neg (by omega), if_neg (by omega)]
    refine Prod.ext (BitVec.eq_of_getLsbD_eq fun i hi => ?_) ?_
    · rw [getLsbD_window_left _ _ (by omega) hi]
      by_cases hend : k = 16
      · simp [hend, hi, show ¬16 ≤ i by omega]
      by_cases h : k ≤ i
      · simp [hend, hi, h, show ¬i < k by omega, show i < 32 by omega,
          show min (16 - k) 31
          = 16 - k by
            omega, show i - k < 16 by
              omega, BitVec.getLsbD_of_ge src (16 - k + i) (by omega)]
      · simp [hend, hi, h, show i < k by omega, show k ≤ 16 + i by omega,
          show min (16 - k) 31
          = 16 - k by
            omega, show 16 - k + i = 16 + i - k by
              omega, show 16 + i - k < 32 by omega]
    · simp [show 16 - k < 32 by omega, show 48 - k - 16 - 16 = 16 - k by omega]
  · rw [if_neg hle, if_neg (by omega), if_pos (by omega)]
    refine Prod.ext (BitVec.eq_of_getLsbD_eq fun i hi => ?_) ?_
    · rw [getLsbD_window_left _ _ (by omega) hi, if_neg (by omega)]
      by_cases h : k ≤ 16 + i
      · simp [hi, h, show ¬i < k - 16 by omega, show i < 32 by omega,
          show i - (k - 16)
          = 16 + i - k by
            omega, show 16 + i - k < 16 by
              omega, BitVec.getLsbD_of_ge src (32 - k + i) (by omega)]
      · simp [hi, h, show i < k - 16 by omega,
          show 32 - k + i = 32 + i - k by omega, show 32 + i - k < 32 by omega]
    · simp [show 48 - k - 16 = 32 - k by omega]

/-- SHLD at 32 bits. -/
theorem shld32_eq (dst src : U32) {k : Nat} (hk : k < 32) :
    (dst <<< k) ||| (src >>> (32 - k)) = shxdWindow false dst src k := by
  apply BitVec.eq_of_getLsbD_eq
  intro i hi
  rw [getLsbD_window_left _ _ (by omega) hi, BitVec.getLsbD_or,
    BitVec.getLsbD_shiftLeft, BitVec.getLsbD_ushiftRight]
  by_cases h : k ≤ i
  · simp [h, hi, show ¬i < k by omega,
      BitVec.getLsbD_of_ge src (32 - k + i) (by omega)]
  · simp [h, hi, show i < k by omega, show k ≤ 32 + i by omega,
      show 32 - k + i = 32 + i - k by omega]

/-- The flags and the result of a double shift by at least one. -/
theorem shxd32_eq (right : Bool) (dst src : U32) {n : Nat}
    (h0 : n ≠ 0) (hn : n < 32) :
    shxd32 right dst src n
      = shxdFlags (shxdLastOut right dst src n) (shxdOverflow right dst src n)
        (shxdWindow right dst src n) := by
  cases right with
  | true =>
    have hprev :
        (if n = 1 then dst else (dst >>> (n - 1)) ||| (src <<< (33 - n)))
        = shxdWindow true dst src (n - 1) := by
      rw [← shrdStep32_eq dst src (by omega), shrdStep32]
      by_cases h1 : n = 1
      · rw [if_pos h1, if_pos (by omega)]
      · rw [if_neg h1, if_neg (by omega), show 33 - n = 32 - (n - 1) by omega]
    rw [shxd32, if_pos rfl, shrd32, hprev, shrdStep32_eq dst src hn,
      shxdOverflow, if_pos rfl, shxdLastOut, if_pos rfl, getLsbD_three,
      if_pos (by omega), BitVec.msb_xor]
  | false =>
    rw [shxd32, if_neg Bool.false_ne_true, shld32, shld32_eq dst src hn,
      shxdOverflow, if_neg Bool.false_ne_true, shxdLastOut,
      if_neg Bool.false_ne_true, getLsbD_three, if_neg (by omega),
      if_neg (by omega), show 32 + 32 + 32 - n - 32 - 32 = 32 - n by omega]

/-- The 16-bit form in full: result, CF and OF. -/
theorem shxd16_eq (right : Bool) (dst src : U16) {n : Nat} (hn : n < 32) :
    shxd16 right dst src n
      = shxdFlags (shxdLastOut right dst src n) (shxdOverflow right dst src n)
        (shxdWindow right dst src n) := by
  cases right with
  | true =>
    have hcf : (if n ≤ 16 then dst.getLsbD (n - 1) else src.getLsbD (n - 17))
      = shxdLastOut true dst src n := by
      rw [shxdLastOut, if_pos rfl, getLsbD_three]
      by_cases h : n ≤ 16
      · rw [if_pos h, if_pos (by omega)]
      · rw [if_neg h, if_neg (by omega), if_pos (by omega),
          show n - 17 = n - 1 - 16 by omega]
    rw [shxd16, if_pos rfl, shrd16, hcf, shrdStep16_eq dst src hn,
      shrdStep16_eq dst src (by omega), shxdOverflow, if_pos rfl,
      BitVec.msb_xor]
  | false =>
    rw [shxd16, if_neg Bool.false_ne_true, shld16, shldStep16_eq dst src hn,
      shxdOverflow, if_neg Bool.false_ne_true]

/-- CF and OF, read back from the flags. -/
theorem contains_shxdFlags (cf ovf : Bool) (r : BitVec w) (f : EFlags) :
    (shxdFlags cf ovf r f).2.contains CF = cf
      ∧ (shxdFlags cf ovf r f).2.contains OF = ovf := by
  refine ⟨?_, ?_⟩
  · rw [shxdFlags, EFlags.contains_setSzp _ rfl rfl rfl,
      EFlags.contains_insert_other _ rfl, EFlags.contains_set_other _ rfl,
      EFlags.contains_set _ (by decide)]
  · rw [shxdFlags, EFlags.contains_setSzp _ rfl rfl rfl,
      EFlags.contains_insert_other _ rfl, EFlags.contains_set _ (by decide)]

end X32.Alu

namespace X32

variable {β : Type} [Bus β]

/-- The operands of SHLD and SHRD: where the destination is, what it holds,
the source, and the masked count. -/
def shxdOperands (opcode : U8) : Calm β (Operand × U32 × U32 × Nat) := do
  let s ← self
  let count : Option U32 :=
    if opcode &&& 1 = 0 then none else some ((s.regs.reg8 1).setWidth 32)
  let (m, op) ← modrm
  let dst ← readOp op
  let s ← self
  let c ← shiftCount count
  return (op, dst, s.regOp m.reg, (c &&& 31).toNat)

/-- A SHLD or SHRD behind its operands. -/
def shxdTail (right wide : Bool) (op : Operand) (dst src : U32) (n : Nat) :
    Calm β U32 :=
  if n = 0 then return op.cost 7 3
  else do
    let r ← onWidth wide (Alu.shxd32 right · src n)
      (Alu.shxd16 right · (src.setWidth 16) n) dst
    writeOp op r
    return op.cost 7 3

/-- The word stored, and the cycles. -/
def shxdStore (op : Operand) (r : U32) : Calm β U32 := do
  writeOp op r
  return op.cost 7 3

/-- The outcome `x` is the store of the window from `u`, with the flags of
the shift. -/
def StoresWindow (x : Except Exception U32 × Machine β)
    (right : Bool) (op : Operand)
    (dst src : BitVec w) (n : Nat) (u : Machine β) : Prop :=
  ∃ f, f.contains EFlags.CF = shxdLastOut right dst src n
    ∧ f.contains EFlags.OF = shxdOverflow right dst src n
    ∧ x = (shxdStore op ((shxdWindow right dst src n).setWidth 32)).run
        (u.withHot { u.regs.toHotRegs with eflags := f })

/-- What a SHLD or SHRD does. It fails where an operand cannot be read. Else
it stores the window of its operand size, and fails with that store only;
with a count of zero it is done, and nothing has changed. -/
structure ShxdLaw (opcode : U8) (s : Machine β) : Prop where
  failed : ∀ e u, (shxdOperands opcode).run s = (.error e, u) →
    (shxd opcode).run s = (.error e, u)
  shifts : ∀ op dst src n u,
    (shxdOperands opcode).run s = (.ok (op, dst, src, n), u) →
    Unmoved s u ∧ n < 32
      ∧ if n = 0 then (shxd opcode).run s = (.ok (op.cost 7 3), u)
        else if s.osize32 then
          StoresWindow ((shxd opcode).run s) (opcode &&& 8 != 0) op dst src n u
        else StoresWindow ((shxd opcode).run s) (opcode &&& 8 != 0) op
          (dst.setWidth 16 : U16) (src.setWidth 16) n u

/-- Finding the count and the operands moves no register. -/
theorem onlyReads_shiftCount (count : Option U32) :
    OnlyReads (shiftCount count : Calm β U32) := by
  cases count with
  | none => exact .map _ .fetch8
  | some c => exact .pure c

theorem onlyReads_shxdOperands (opcode : U8) :
    OnlyReads (shxdOperands opcode : Calm β (Operand × U32 × U32 × Nat)) :=
  OnlyReads.self.bind fun _ => OnlyReads.modrm.bind fun _ =>
    (OnlyReads.readOp _).bind fun _ =>
    OnlyReads.self.bind fun _ => (onlyReads_shiftCount _).bind fun _ => .pure _

/-- It is its operands, then the rest. -/
theorem run_shxd (opcode : U8) (s : Machine β) :
    (shxd opcode).run s = (shxdOperands opcode >>= fun (op, dst, src, n) =>
      shxdTail (opcode &&& 8 != 0) s.osize32 op dst src n).run s := by
  unfold shxd shxdOperands
  simp only [bind_assoc, pure_bind]
  refine Bounded.bind_congr_at fun _ _ hself =>
    Bounded.bind_congr_at fun p s₁ hm => ?_
  cases hself
  refine Bounded.bind_congr_at fun dst s₂ hd =>
    Bounded.bind_congr_at fun _ _ hself =>
    Bounded.bind_congr_at fun c u _ => ?_
  cases hself
  rw [← ((OnlyReads.modrm _ _ _ hm).trans (OnlyReads.readOp _ _ _ _ hd)).osize32]
  rfl

/-- The shift of a count that is not zero, at either operand size. -/
theorem storesWindow_shxdTail {right wide : Bool} {op : Operand}
    {dst src : U32} {n : Nat} (h0 : n ≠ 0) (hn : n < 32) (u : Machine β) :
    if wide then
      StoresWindow ((shxdTail right wide op dst src n).run u)
        right op dst src n u
    else StoresWindow ((shxdTail right wide op dst src n).run u) right op
      (dst.setWidth 16 : U16) (src.setWidth 16) n u := by
  rw [shxdTail, if_neg h0]
  cases wide with
  | true =>
    obtain ⟨hcf, hof⟩ := Alu.contains_shxdFlags (shxdLastOut right dst src n)
      (shxdOverflow right dst src n) (shxdWindow right dst src n) u.regs.eflags
    rw [onWidth, if_pos rfl, if_pos rfl, Bounded.run_bind,
      Fallible.bind_of_ok (run_withFlags _ _ u), Alu.shxd32_eq _ _ _ h0 hn]
    exact ⟨_, hcf, hof, rfl⟩
  | false =>
    obtain ⟨hcf, hof⟩ := Alu.contains_shxdFlags
      (shxdLastOut right (dst.setWidth 16 : U16) (src.setWidth 16) n)
      (shxdOverflow right (dst.setWidth 16 : U16) (src.setWidth 16) n)
      (shxdWindow right (dst.setWidth 16 : U16) (src.setWidth 16) n)
        u.regs.eflags
    rw [onWidth, if_neg Bool.false_ne_true, if_neg Bool.false_ne_true,
      map_eq_pure_bind, bind_assoc, Bounded.run_bind,
      Fallible.bind_of_ok (run_withFlags _ _ u), pure_bind,
      Alu.shxd16_eq _ _ _ hn]
    exact ⟨_, hcf, hof, rfl⟩

/-- SHLD and SHRD of the 386 core meet their law. -/
theorem shxd_lawful (opcode : U8) (s : Machine β) : ShxdLaw opcode s where
  failed e u h := by rw [run_shxd, Bounded.run_bind, Fallible.bind_of_error h]
  shifts op dst src n u h := by
    have hkept := onlyReads_shxdOperands opcode _ _ _ h
    have hn : n < 32 := by
      simp only [shxdOperands, Bounded.run_bind, Fallible.bind_eq_ok] at h
      obtain ⟨_, _, -, _, _, -, _, _, -, _, _, -, c, _, -, hret⟩ := h
      cases hret
      exact Nat.lt_of_le_of_lt (BitVec.toNat_and .. ▸ Nat.and_le_right)
        (by decide)
    refine ⟨hkept, hn, ?_⟩
    rw [run_shxd, Bounded.run_bind, Fallible.bind_of_ok h]
    by_cases h0 : n = 0
    · rw [if_pos h0]
      dsimp only
      rw [shxdTail, if_pos h0]
      rfl
    · rw [if_neg h0]
      exact storesWindow_shxdTail h0 hn u

/-- Without a LOCK prefix the two-byte map runs it. -/
theorem run_dispatch0F_shxd {opcode : U8}
    (hop : opcode ∈ ([0xA4, 0xA5, 0xAC, 0xAD] : List U8))
    {s : Machine β} (h : s.lock = false) :
    (dispatch0F opcode).run s = (shxd opcode).run s := by
  have hscreen :
      (raiseIf (s.lock && !s.lockable0F opcode) Exception.ud : Xfer β Unit).run s
      = (.ok (), s) := by
    rw [run_raiseIf, h]
    rfl
  rw [dispatch0F, Bounded.run_bind, Fallible.bind_of_ok (run_self s),
    Bounded.run_bind, Fallible.bind_of_ok hscreen]
  simp only [List.mem_cons, List.not_mem_nil, or_false] at hop
  rcases hop with rfl | rfl | rfl | rfl <;> rfl

end X32

-- ======== the 64-bit core

namespace X64

open RFlags (CF OF)

/-- A size has at least one bit and at most 64. -/
theorem OpSize.bits_range (z : OpSize) : 0 < z.bits ∧ z.bits ≤ 64 := by
  cases z <;> exact ⟨by decide, by decide⟩

/-- The operand mask. -/
def OpSize.mask : OpSize → U64
  | .O16 => 0xFFFF
  | .O32 => 0xFFFFFFFF
  | .O64 => 0xFFFFFFFFFFFFFFFF

/-- The mask of a size. -/
theorem getLsbD_mask (z : OpSize) {i : Nat} (hi : i < 64) :
    z.mask.getLsbD i = decide (i < z.bits) := by
  cases z <;> revert i <;> decide

/-- One word above another, in a wider word. -/
def stacked (hi lo : U64) (z : OpSize) : U128 :=
  (hi.setWidth 128 <<< z.bits) ||| lo.setWidth 128

/-- A bit of the two operands stacked. -/
theorem getLsbD_stacked {z : OpSize} (hi lo : BitVec z.bits) (i : Nat) :
    (stacked (hi.setWidth 64) (lo.setWidth 64) z).getLsbD i
      = if i < z.bits then lo.getLsbD i else hi.getLsbD (i - z.bits) := by
  have hz := z.bits_range
  rw [stacked, BitVec.getLsbD_or, BitVec.getLsbD_shiftLeft,
    BitVec.getLsbD_setWidth, BitVec.getLsbD_setWidth, BitVec.getLsbD_setWidth,
    BitVec.getLsbD_setWidth]
  by_cases h : i < z.bits
  · simp [h, show i < 128 by omega, show i < 64 by omega]
  · by_cases h' : i - z.bits < z.bits
    · simp [h, h', show i < 128 by omega, show i - z.bits < 64 by omega,
        show i - z.bits < 128 by omega, BitVec.getLsbD_of_ge lo i (by omega)]
    · simp [h, BitVec.getLsbD_of_ge lo i (by omega),
        BitVec.getLsbD_of_ge hi (i - z.bits) (by omega)]

/-- The 64-bit core's results, by direction. -/
theorem shxdResult_right (z : OpSize) (dst src : U64) (n : Nat) :
    shxdResult z true dst src n
      = ((stacked src dst z >>> n).setWidth 64 &&& z.mask,
        (stacked src dst z).getLsbD (n - 1),
        (stacked src dst z >>> (n - 1)).setWidth 64 &&& z.mask) := by
  cases z <;> rfl

theorem shxdResult_left (z : OpSize) (dst src : U64) (n : Nat) :
    shxdResult z false dst src n
      = (((stacked dst src z <<< n) >>> z.bits).setWidth 64 &&& z.mask,
        if n ≤ z.bits then dst.getLsbD (z.bits - n)
          else src.getLsbD (2 * z.bits - n), 0) := by
  cases z <;> rfl

/-- The right shift of the double word is the window. -/
theorem stacked_right (z : OpSize) (dst src : BitVec z.bits)
    {n : Nat} (hn : n ≤ z.bits) :
    (stacked (src.setWidth 64) (dst.setWidth 64) z >>> n).setWidth
      64 &&& z.mask
      = (shxdWindow true dst src n).setWidth 64 := by
  apply BitVec.eq_of_getLsbD_eq
  intro i hi
  rw [BitVec.getLsbD_and, getLsbD_mask z hi, BitVec.getLsbD_setWidth,
    BitVec.getLsbD_setWidth, BitVec.getLsbD_ushiftRight, getLsbD_stacked,
    decide_eq_true hi, Bool.true_and, Bool.true_and]
  by_cases hin : i < z.bits
  · rw [getLsbD_window_right _ _ _ hin, decide_eq_true hin, Bool.and_true,
      if_pos (show n + i < z.bits + z.bits by omega)]
  · rw [decide_eq_false hin, Bool.and_false,
      BitVec.getLsbD_of_ge _ i (by omega)]

/-- The stacked word of the 64-bit core holds the window. -/
theorem stacked_left (z : OpSize) (dst src : BitVec z.bits)
    {n : Nat} (hn : n ≤ z.bits) :
    ((stacked (dst.setWidth 64) (src.setWidth 64) z <<< n) >>> z.bits).setWidth
      64 &&& z.mask
      = (shxdWindow false dst src n).setWidth 64 := by
  have hz := z.bits_range
  apply BitVec.eq_of_getLsbD_eq
  intro i hi
  rw [BitVec.getLsbD_and, getLsbD_mask z hi, BitVec.getLsbD_setWidth,
    BitVec.getLsbD_setWidth, BitVec.getLsbD_ushiftRight,
    BitVec.getLsbD_shiftLeft, getLsbD_stacked, decide_eq_true hi,
    Bool.true_and, Bool.true_and]
  by_cases hin : i < z.bits
  · rw [getLsbD_window_left _ _ (by omega) hin, decide_eq_true hin,
      Bool.and_true, decide_eq_true (show z.bits + i < 128 by omega),
      decide_eq_false (show ¬z.bits + i < n by omega), Bool.true_and,
      Bool.not_false, Bool.true_and]
    by_cases h : n ≤ i
    · rw [if_pos h, if_neg (by omega)]
      congr 1
      omega
    · rw [if_neg h, if_pos (by omega), if_pos (by omega)]
  · rw [decide_eq_false hin, Bool.and_false,
      BitVec.getLsbD_of_ge _ i (by omega)]

/-- A double shift by at least one and at most the width. -/
theorem shxdResult_eq (z : OpSize) (right : Bool) (dst src : BitVec z.bits)
    {n : Nat} (h0 : n ≠ 0) (hn : n ≤ z.bits) :
    shxdResult z right (dst.setWidth 64) (src.setWidth 64) n
      = ((shxdWindow right dst src n).setWidth 64, shxdLastOut right dst src n,
        if right then (shxdWindow right dst src (n - 1)).setWidth 64
          else 0) := by
  have hz := z.bits_range
  cases right with
  | true =>
    rw [shxdResult_right, stacked_right z dst src hn,
      stacked_right z dst src (by omega), getLsbD_stacked, shxdLastOut,
      if_pos rfl, if_pos rfl, getLsbD_three,
      if_pos (show n - 1 < z.bits by omega),
      if_pos (show n - 1 < z.bits by omega)]
  | false =>
    rw [shxdResult_left, stacked_left z dst src hn, if_pos hn,
      BitVec.getLsbD_setWidth, decide_eq_true (by omega), Bool.true_and,
      shxdLastOut, if_neg Bool.false_ne_true, if_neg Bool.false_ne_true,
      getLsbD_three, if_neg (by omega), if_neg (by omega),
      show z.bits + z.bits + z.bits - n - z.bits - z.bits = z.bits - n by omega]

/-- The overflow of `shxd`, from the words before and after the last step. -/
theorem shxdOverflow_eq (z : OpSize) (right : Bool)
    (dst src : BitVec z.bits) (n : Nat) :
    (if right then
      ((shxdWindow right dst src n).setWidth 64
        ^^^ (if right then (shxdWindow right dst src (n - 1)).setWidth 64
          else 0) : U64).getLsbD (z.bits - 1)
    else ((shxdWindow right dst src n).setWidth 64 : U64).getLsbD (z.bits - 1)
      != shxdLastOut right dst src n) = shxdOverflow right dst src n := by
  have hz := z.bits_range
  have hsign : ∀ v : BitVec z.bits,
    (v.setWidth 64 : U64).getLsbD (z.bits - 1) = v.msb := by
    intro v
    rw [BitVec.getLsbD_setWidth, decide_eq_true (by omega), Bool.true_and,
      BitVec.msb_eq_getLsbD_last]
  cases right with
  | true =>
    rw [if_pos rfl, if_pos rfl, BitVec.getLsbD_xor, hsign, hsign]
    rfl
  | false =>
    rw [if_neg Bool.false_ne_true, hsign]
    rfl

variable {β : Type} [Bus β]

/-- The operands of SHLD and SHRD. -/
def shxdOperands (opcode : U8) : Calm β (Operand × U64 × U64 × Nat) := do
  let byCl := opcode &&& 1 != 0
  whenever (!byCl) (setImmLen 1)
  let s ← self
  let cl : U32 := (s.regs.reg8 1 false).setWidth 32
  let (m, op) ← modrm
  let dst ← readOp op
  let s ← self
  let c ← shiftCount (if byCl then some cl else none)
  return (op, dst, s.regs.regSized s.osize m.reg,
    (c &&& (if s.osize = .O64 then 63 else 31)).toNat)

/-- A SHLD or SHRD behind its operands. -/
def shxdTail (z : OpSize) (right : Bool) (op : Operand)
    (dst src : U64) (n : Nat) :
    Calm β U32 :=
  if n = 0 then return op.cost 7 3
  else do
    let (r, cf, prev) := shxdResult z right dst src n
    let sign := z.bits - 1
    let ovf := if right then (r ^^^ prev).getLsbD sign
      else r.getLsbD sign != cf
    (match z with
      | .O16 => modifyFlags (·.shxd cf ovf (r.setWidth 16 : U16))
      | .O32 => modifyFlags (·.shxd cf ovf (r.setWidth 32 : U32))
      | .O64 => modifyFlags (·.shxd cf ovf r))
    writeOp op r
    return op.cost 7 3

/-- The word stored, and the cycles. -/
def shxdStore (op : Operand) (r : U64) : Calm β U32 := do
  writeOp op r
  return op.cost 7 3

/-- The outcome `x` is the store of the window from `u`, with the flags of
the shift. -/
def StoresWindow (x : Except Exception U32 × Machine β)
    (z : OpSize) (right : Bool)
    (op : Operand) (dst src : BitVec z.bits) (n : Nat) (u : Machine β) : Prop :=
  ∃ f, f.contains CF = shxdLastOut right dst src n
    ∧ f.contains OF = shxdOverflow right dst src n
    ∧ x = (shxdStore op ((shxdWindow right dst src n).setWidth 64)).run
        (u.withHot { u.regs.toHotRegs with rflags := f })

/-- What a SHLD or SHRD does, for counts up to the width: as on the 32-bit
core it stores the window, and fails with an operand or with the store. -/
structure ShxdLaw (opcode : U8) (s : Machine β) : Prop where
  failed : ∀ e u, (shxdOperands opcode).run s = (.error e, u) →
    (shxd opcode).run s = (.error e, u)
  shifts : ∀ op dst src n u,
    (shxdOperands opcode).run s = (.ok (op, dst, src, n), u) →
    u.regs = { s.regs with rip := u.regs.rip }
      ∧ if n = 0 then (shxd opcode).run s = (.ok (op.cost 7 3), u)
        else n ≤ s.osize.bits →
          StoresWindow ((shxd opcode).run s) s.osize (opcode &&& 8 != 0)
          op (dst.setWidth _) (src.setWidth _) n u

/-- An operand fits its size. -/
theorem fits_regSized (r : HotRegs) (z : OpSize) (i : U8) :
    ((r.regSized z i).setWidth z.bits).setWidth 64 = r.regSized z i := by
  cases z with
  | O16 =>
    exact congrArg (BitVec.setWidth 64)
      (BitVec.setWidth_setWidth_of_le _ (by decide) |>.trans
        (BitVec.setWidth_eq _))
  | O32 =>
    exact congrArg (BitVec.setWidth 64)
      (BitVec.setWidth_setWidth_of_le _ (by decide) |>.trans
        (BitVec.setWidth_eq _))
  | O64 => exact BitVec.setWidth_eq _

/-- An operand read from memory fits its size. -/
theorem fits_readOp {op : Operand} {s s' : Machine β} {v : U64}
    (h : (readOp op).run s = (.ok v, s')) :
    (v.setWidth s.osize.bits).setWidth 64 = v := by
  rw [readOp, Bounded.run_bind, Fallible.bind_of_ok (run_self s)] at h
  have hfit := fits_readSized h
  cases hz : s.osize <;> rw [hz] at hfit <;> exact hfit

/-- Finding the count moves no register. -/
theorem readsOn_shiftCount (count : Option U32) :
    ReadsOn (shiftCount count : Calm β U32) := by
  cases count with
  | none => exact .map _ .fetch8
  | some c => exact .pure c

/-- CF and OF, read back from the flags. -/
theorem contains_shxd {v : Nat} (f : RFlags) (cf ovf : Bool) (r : BitVec v) :
    (f.shxd cf ovf r).contains CF = cf
      ∧ (f.shxd cf ovf r).contains OF = ovf := by
  refine ⟨?_, ?_⟩
  · rw [RFlags.shxd, RFlags.contains_setSzp _ rfl rfl rfl,
      RFlags.contains_remove_other _ rfl, RFlags.contains_set_other _ rfl,
      RFlags.contains_set _ (by decide)]
  · rw [RFlags.shxd, RFlags.contains_setSzp _ rfl rfl rfl,
      RFlags.contains_remove_other _ rfl, RFlags.contains_set _ (by decide)]

/-- The flags are set at the width of the operand. -/
theorem run_shxdFlags (z : OpSize) (cf ovf : Bool) (r : U64) (u : Machine β) :
    ∃ f, f.contains CF = cf ∧ f.contains OF = ovf
      ∧ (match z with
          | .O16 => modifyFlags (·.shxd cf ovf (r.setWidth 16 : U16))
          | .O32 => modifyFlags (·.shxd cf ovf (r.setWidth 32 : U32))
          | .O64 => modifyFlags (·.shxd cf ovf r) : Calm β Unit).run u
        = (.ok (), u.withHot { u.regs.toHotRegs with rflags := f }) := by
  cases z
  all_goals exact ⟨_, (contains_shxd u.regs.rflags cf ovf _).1,
    (contains_shxd u.regs.rflags cf ovf _).2, rfl⟩

/-- The immediate length is noted, and nothing else. -/
theorem sameFile_immLen {byCl : Bool} {s s₀ : Machine β}
    (h : (whenever (!byCl) (setImmLen 1) : Calm β Unit).run s = (.ok (), s₀)) :
    s₀.regs = s.regs ∧ s₀.osize = s.osize := by
  cases byCl <;> cases h <;> exact ⟨rfl, rfl⟩

/-- It is its operands, then the rest. -/
theorem run_shxd (opcode : U8) (s : Machine β) :
    (shxd opcode).run s = (shxdOperands opcode >>= fun (op, dst, src, n) =>
      shxdTail s.osize (opcode &&& 8 != 0) op dst src n).run s := by
  unfold shxd shxdOperands
  rw [bind_assoc]
  refine Bounded.bind_congr_at fun _ s₀ himm => ?_
  rw [bind_assoc]
  refine Bounded.bind_congr_at fun _ _ hself => ?_
  cases hself
  dsimp only
  rw [bind_assoc]
  refine Bounded.bind_congr_at fun p s₁ hm => ?_
  rw [bind_assoc]
  refine Bounded.bind_congr_at fun dst s₂ hd => ?_
  rw [bind_assoc]
  refine Bounded.bind_congr_at fun _ _ hself => ?_
  cases hself
  rw [bind_assoc]
  refine Bounded.bind_congr_at fun c u _ => ?_
  have hsize : s₂.osize = s.osize :=
    ((ReadsOn.modrm _ _ _ hm).trans
      ((MemOnly.readOp _).readsOn _ _ _ hd)).osize.trans
      (sameFile_immLen himm).2
  rw [pure_bind, ← hsize]
  rfl

/-- The operands fit the size, and nothing but RIP has moved. -/
theorem shxdOperands_spec {opcode : U8} {s u : Machine β} {op : Operand}
    {dst src : U64} {n : Nat}
    (h : (shxdOperands opcode).run s = (.ok (op, dst, src, n), u)) :
    u.regs = { s.regs with rip := u.regs.rip }
      ∧ (dst.setWidth s.osize.bits).setWidth 64 = dst
      ∧ (src.setWidth s.osize.bits).setWidth 64 = src := by
  simp only [shxdOperands, Bounded.run_bind, Fallible.bind_eq_ok] at h
  obtain ⟨_, s₀, himm, _, _, hself, ⟨m, op'⟩, s₁, hm, dst', s₂, hd, _, _,
    hself', c, u', hc, hret⟩ := h
  cases hself
  cases hself'
  cases hret
  obtain ⟨hregs₀, hosize₀⟩ := sameFile_immLen himm
  have hread := (MemOnly.readOp _).readsOn _ _ _ hd
  have hsame := (ReadsOn.modrm _ _ _ hm).trans hread
  have hsize : s₂.osize = s.osize := hsame.osize.trans hosize₀
  refine ⟨?_, ?_, ?_⟩
  · rw [(hsame.trans (readsOn_shiftCount _ _ _ _ hc)).regs, hregs₀]
  · have hdst := fits_readOp hd
    rw [← hread.osize, hsize] at hdst
    exact hdst
  · rw [hsize]
    exact fits_regSized _ _ _

/-- With its count not zero the tail sets the flags of the result, and
stores it. -/
theorem run_shxdTail {z : OpSize} {right : Bool} (op : Operand)
    {dst src r prev : U64} {n : Nat}
    {cf : Bool} (h0 : n ≠ 0)
    (hresult : shxdResult z right dst src n = (r, cf, prev)) (u : Machine β) :
    ∃ f, f.contains CF = cf
      ∧ f.contains OF = (if right then (r ^^^ prev).getLsbD (z.bits - 1)
          else r.getLsbD (z.bits - 1) != cf)
      ∧ (shxdTail z right op dst src n).run u
        = (shxdStore op r).run
          (u.withHot { u.regs.toHotRegs with rflags := f }) := by
  obtain ⟨f, hcf, hof, hrun⟩ := run_shxdFlags z cf
    (if right then (r ^^^ prev).getLsbD (z.bits - 1) else r.getLsbD (z.bits - 1) != cf) r u
  refine ⟨f, hcf, hof, ?_⟩
  rw [shxdTail, if_neg h0, hresult]
  dsimp only
  rw [Bounded.run_bind, Fallible.bind_of_ok hrun]
  rfl

/-- The shift of a count that is not zero and at most the width. -/
theorem storesWindow_shxdTail {z : OpSize} {right : Bool}
    {op : Operand} {dst src : U64}
    {n : Nat} (u : Machine β) (hdst : (dst.setWidth z.bits).setWidth 64 = dst)
    (hsrc : (src.setWidth z.bits).setWidth 64 = src) (h0 : n ≠ 0)
    (hn : n ≤ z.bits) :
    StoresWindow ((shxdTail z right op dst src n).run u) z right op
      (dst.setWidth z.bits) (src.setWidth z.bits) n u := by
  have hresult :=
    shxdResult_eq z right (dst.setWidth z.bits) (src.setWidth z.bits) h0 hn
  rw [hdst, hsrc] at hresult
  obtain ⟨f, hcf, hof, hrun⟩ := run_shxdTail op h0 hresult u
  exact ⟨f, hcf, hof.trans (shxdOverflow_eq z right _ _ n), hrun⟩

theorem shxd_lawful (opcode : U8) (s : Machine β) : ShxdLaw opcode s where
  failed e u h := by rw [run_shxd, Bounded.run_bind, Fallible.bind_of_error h]
  shifts op dst src n u h := by
    obtain ⟨hregs, hdst, hsrc⟩ := shxdOperands_spec h
    refine ⟨hregs, ?_⟩
    rw [run_shxd, Bounded.run_bind, Fallible.bind_of_ok h]
    dsimp only
    by_cases h0 : n = 0
    · rw [if_pos h0, shxdTail, if_pos h0]
      rfl
    · rw [if_neg h0]
      exact storesWindow_shxdTail u hdst hsrc h0

/-- Without a LOCK prefix the two-byte map runs it. -/
theorem run_dispatch0F_shxd {opcode : U8}
    (hop : opcode ∈ ([0xA4, 0xA5, 0xAC, 0xAD] : List U8))
    {s : Machine β} (h : s.lock = false) :
    (dispatch0F opcode).run s = (shxd opcode).run s := by
  have hscreen :
      (raiseIf (s.lock ∧ opcode ∉ lockable0F) Exception.ud : Cold β Unit).run s
      = (.ok (), s) := by
    rw [run_raiseIf, h, if_neg fun h => Bool.false_ne_true h.1]
  rw [dispatch0F, Bounded.run_bind, Fallible.bind_of_ok (run_self s),
    Bounded.run_bind, Fallible.bind_of_ok hscreen]
  simp only [List.mem_cons, List.not_mem_nil, or_false] at hop
  rcases hop with rfl | rfl | rfl | rfl <;> rfl

end X64

-- ======== both cores

/-- Where both cores come to the same operands, and the count is no more
than the width, both store the same word with the same carry and overflow,
or neither does anything. -/
def ShxdAgrees {β γ : Type} [X32.Bus β] [X64.Bus γ]
    (opcode : U8) (s : X32.Machine β) (t : X64.Machine γ) : Prop :=
  ∀ op₁ op₂ (dst src : U32) n u v,
    (X32.shxdOperands opcode).run s = (.ok (op₁, dst, src, n), u) →
    (X64.shxdOperands opcode).run t
      = (.ok (op₂, dst.setWidth 64, src.setWidth 64, n), v) →
    n ≤ t.osize.bits →
    if n = 0 then (X32.shxd opcode).run s = (.ok (op₁.cost 7 3), u)
      ∧ (X64.shxd opcode).run t = (.ok (op₂.cost 7 3), v)
    else ∃ (r : U32) (f : X32.EFlags) (g : X64.RFlags),
      f.contains X32.EFlags.CF = g.contains X64.RFlags.CF
        ∧ f.contains X32.EFlags.OF = g.contains X64.RFlags.OF
        ∧ (X32.shxd opcode).run s
          = (X32.shxdStore op₁ r).run
            (u.withHot { u.regs.toHotRegs with eflags := f })
        ∧ (X64.shxd opcode).run t
          = (X64.shxdStore op₂ (r.setWidth 64)).run
              (v.withHot { v.regs.toHotRegs with rflags := g })

/-- The two cores agree wherever both complete. -/
theorem shxdAgrees {β γ : Type} [X32.Bus β] [X64.Bus γ]
    (opcode : U8) {s : X32.Machine β}
    {t : X64.Machine γ} (hsize : t.osize = if s.osize32 then .O32 else .O16) :
    ShxdAgrees opcode s t := by
  intro op₁ op₂ dst src n u v h32 h64 hn
  obtain ⟨-, -, hlaw32⟩ := (X32.shxd_lawful opcode s).shifts _ _ _ _ _ h32
  obtain ⟨-, hlaw64⟩ := (X64.shxd_lawful opcode t).shifts _ _ _ _ _ h64
  by_cases h0 : n = 0
  · rw [if_pos h0] at hlaw32 hlaw64 ⊢
    exact ⟨hlaw32, hlaw64⟩
  rw [if_neg h0] at hlaw32 hlaw64 ⊢
  have hlaw64 := hlaw64 hn
  cases hwide : s.osize32 with
  | true =>
    rw [hwide, if_pos rfl] at hlaw32 hsize
    rw [hsize] at hlaw64
    obtain ⟨f, hcf, hof, hrun⟩ := hlaw32
    obtain ⟨g, hcf', hof', hrun'⟩ := hlaw64
    -- the double words come back from the wider registers
    have hback : ∀ x : U32, (x.setWidth 64 : U64).setWidth 32 = x := fun x =>
      (BitVec.setWidth_setWidth_of_le _ (by decide)).trans
        (BitVec.setWidth_eq _)
    dsimp only [X64.OpSize.bits] at hcf' hof' hrun'
    rw [hback, hback] at hcf' hof' hrun'
    rw [BitVec.setWidth_eq] at hrun
    exact ⟨_, f, g, hcf.trans hcf'.symm, hof.trans hof'.symm, hrun, hrun'⟩
  | false =>
    rw [hwide, if_neg Bool.false_ne_true] at hlaw32 hsize
    rw [hsize] at hlaw64
    obtain ⟨f, hcf, hof, hrun⟩ := hlaw32
    obtain ⟨g, hcf', hof', hrun'⟩ := hlaw64
    have hback : ∀ x : U32,
      (x.setWidth 64 : U64).setWidth 16 = (x.setWidth 16 : U16) := fun x =>
      BitVec.setWidth_setWidth_of_le _ (by decide)
    have hwiden : ∀ x : U16,
      (x.setWidth 32 : U32).setWidth 64 = (x.setWidth 64 : U64) := by
      refine fun x => BitVec.eq_of_toNat_eq ?_
      simp only [BitVec.toNat_setWidth]
      omega
    dsimp only [X64.OpSize.bits] at hcf' hof' hrun'
    rw [hback, hback] at hcf' hof' hrun'
    rw [← hwiden] at hrun'
    exact ⟨_, f, g, hcf.trans hcf'.symm, hof.trans hof'.symm, hrun, hrun'⟩

/-- SHLD and SHRD store the window of the operands side by side, on either
core and at every size, and the cores agree up to the width. The opcodes
come to them where no LOCK precedes. -/
theorem double_shifts {β γ : Type} [X32.Bus β] [X64.Bus γ]
    (opcode : U8) (s : X32.Machine β) (t : X64.Machine γ) :
    (X32.ShxdLaw opcode s ∧ X64.ShxdLaw opcode t
        ∧ (t.osize = (if s.osize32 then .O32 else .O16) →
          ShxdAgrees opcode s t))
      ∧ (opcode ∈ ([0xA4, 0xA5, 0xAC, 0xAD] : List U8) →
        (s.lock = false →
          (X32.dispatch0F opcode).run s = (X32.shxd opcode).run s)
          ∧ (t.lock = false →
            (X64.dispatch0F opcode).run t = (X64.shxd opcode).run t)) :=
  ⟨⟨X32.shxd_lawful opcode s, X64.shxd_lawful opcode t, shxdAgrees opcode⟩,
    fun hop => ⟨X32.run_dispatch0F_shxd hop, X64.run_dispatch0F_shxd hop⟩⟩

/-- A machine that fetches SHRD BX, AX, `imm` over and over. -/
def shrdWord (imm : U8) : X32.Machine (X32.FlatBus Unit) :=
  { X32.Cpu.new with
    regs := { X32.Registers.new with gpr := fun i => if i = 0 then 0xABCD else 0x1234 }
    bus := ⟨fun a => if a &&& 1 = 0 then 0xC3 else imm, ()⟩ }

/-- And one that does so at the operand size `z`. -/
def shrdSized (z : X64.OpSize) (imm : U8) : X64.Machine (X64.FlatBus Unit) :=
  { X64.Cpu.new with
    regs := { X64.Registers.new with gpr := fun i => if i = 0 then 0xABCD else 0x1234 }
    osize := z
    bus := ⟨fun a => if a &&& 1 = 0 then 0xC3 else imm, ()⟩ }

/-- A count past the word, which goes on with the source; a quad word; and
a count of the word on both cores. -/
theorem double_shifts_past_word :
    (X32.StoresWindow ((X32.shxd 0xAC).run (shrdWord 20)) true (.reg 3)
        0x1234#16 0xABCD#16 20
        ((X32.shxdOperands 0xAC).run (shrdWord 20)).2
      ∧ ((X32.shxd 0xAC).run (shrdWord 20)).2.regs.reg16 3 = 0xDABC)
    ∧ (X64.StoresWindow ((X64.shxd 0xAC).run (shrdSized .O64 20)) .O64 true
        (.reg 3) 0x1234#64
        0xABCD#64 20 ((X64.shxdOperands 0xAC).run (shrdSized .O64 20)).2
      ∧ ((X64.shxd 0xAC).run (shrdSized .O64 20)).2.regs.gpr 3
        = 0x0ABCD00000000000)
    ∧ ∃ (r : U32) (u : X32.Machine (X32.FlatBus Unit))
        (v : X64.Machine (X64.FlatBus Unit)) (f : X32.EFlags) (g : X64.RFlags),
      f.contains X32.EFlags.CF = g.contains X64.RFlags.CF
        ∧ (X32.shxd 0xAC).run (shrdWord 16)
          = (X32.shxdStore (.reg 3) r).run
            (u.withHot { u.regs.toHotRegs with eflags := f })
        ∧ (X64.shxd 0xAC).run (shrdSized .O16 16)
          = (X64.shxdStore (.reg 3) (r.setWidth 64)).run
              (v.withHot { v.regs.toHotRegs with rflags := g }) := by
  have hops32 : ∀ imm : U8, imm = 16 ∨ imm = 20 →
      (X32.shxdOperands 0xAC).run (shrdWord imm)
        = (.ok (.reg 3, 0x1234, 0xABCD, imm.toNat),
          ((X32.shxdOperands 0xAC).run (shrdWord imm)).2) := by
    rintro imm (rfl | rfl) <;> exact Prod.ext (by decide) rfl
  have hops64 :
      ∀ z imm, z = X64.OpSize.O16 ∧ imm = 16 ∨ z = X64.OpSize.O64 ∧ imm = 20 →
      (X64.shxdOperands 0xAC).run (shrdSized z imm)
        = (.ok (.reg 3, 0x1234, 0xABCD, imm.toNat),
          ((X64.shxdOperands 0xAC).run (shrdSized z imm)).2) := by
    rintro z imm (⟨rfl, rfl⟩ | ⟨rfl, rfl⟩)
      <;> exact Prod.ext (by decide) rfl
  obtain ⟨⟨hword, hquad, -⟩, -⟩ :=
    double_shifts 0xAC (shrdWord 20) (shrdSized .O64 20)
  obtain ⟨⟨-, -, hagrees⟩, -⟩ :=
    double_shifts 0xAC (shrdWord 16) (shrdSized .O16 16)
  obtain ⟨r, f, g, hcf, -, h32, h64⟩ :=
    hagrees rfl _ _ _ _ _ _ _ (hops32 16 (.inl rfl))
    (hops64 _ 16 (.inl ⟨rfl, rfl⟩)) (by decide)
  exact ⟨⟨(hword.shifts _ _ _ _ _ (hops32 20 (.inr rfl))).2.2, by decide⟩,
    ⟨(hquad.shifts _ _ _ _ _ (hops64 _ 20 (.inr ⟨rfl, rfl⟩))).2
      (by decide), by decide⟩,
    r, _, _, f, g, hcf, h32, h64⟩

end Remu
