/-
The I/O permission check of the 64-bit core and of the 32-bit one.

Without the privilege to use a port outright a task has its TSS consulted.
The word at 0x66 says where the permission bitmap starts, and the check reads
the one or two bytes that cover the access and tests a mask of them. The
bitmap is a string of bits with one for each port, and the mask is the access.
-/
import Remu.Lib.BitString
import Remu.X32.Execute0F
import Remu.X64.Execute0F

namespace Remu

-- ======== the bitmap

/-- What a TSS grants: it is of the format with a bitmap, the bitmap is there
for each port of the access, and clear. -/
structure Granted (attrs : U16) (limit : U32) (iobase : U16) (tss : Nat → U8)
    (port : U16) (size : Nat) :
    Prop where
  wide : attrs &&& 0x08 ≠ 0
  based : 0x67 ≤ limit
  inside : ∀ p, port.toNat ≤ p → p < port.toNat + size →
    iobase.toNat + p / 8 ≤ limit.toNat
  clear : ∀ p, port.toNat ≤ p → p < port.toNat + size →
    bitOf tss (8 * iobase.toNat + p) = false

/-- An available or busy TSS, 16-bit or wider. -/
def IsTss (attrs : U16) : Prop :=
  attrs &&& 0x1F ∈ ([0x1, 0x3, 0x9, 0xB] : List U16)

/-- The wider formats are told apart by one bit of the type. -/
theorem IsTss.wide_iff {attrs : U16} (h : IsTss attrs) :
    attrs &&& 0x08 ≠ 0 ↔ attrs &&& 0x1F = 0x9 ∨ attrs &&& 0x1F = 0xB := by
  have hbit : attrs &&& 0x08 = attrs &&& 0x1F &&& 0x08 := by
    rw [BitVec.and_assoc]; rfl
  rw [hbit]
  simp only [IsTss, List.mem_cons, List.not_mem_nil, or_false] at h
  rcases h with h | h | h | h <;> rw [h] <;> decide

def ioFirst (iobase port : U16) : Nat := iobase.toNat + port.toNat / 8

def ioLast (iobase port : U16) (size : Nat) : Nat :=
  iobase.toNat + (port.toNat + size - 1) / 8

def ioMask (port : U16) (size : Nat) : U32 :=
  ((1 <<< size : U32) - 1) <<< (port.toNat % 8)

/-- The mask is the access, one bit a port. -/
theorem ioMask_eq (port : U16) {size : Nat}
    (hsize : size = 1 ∨ size = 2 ∨ size = 4) :
    ioMask port size = Word.fieldMask 32 (port.toNat % 8) size := by
  have hk : port.toNat % 8 < 8 := Nat.mod_lt _ (by decide)
  have hall : ∀ k < 8,
    ((1 <<< size : U32) - 1) <<< k = Word.fieldMask 32 k size := by
    rcases hsize with rfl | rfl | rfl <;> decide
  exact hall _ hk

theorem inside_iff (limit : Nat) (iobase port : U16) {size : Nat}
    (hsize : 0 < size) :
    (∀ p, port.toNat ≤ p → p < port.toNat + size →
      iobase.toNat + p / 8 ≤ limit)
      ↔ ioLast iobase port size ≤ limit := by
  constructor
  · intro h
    exact h (port.toNat + size - 1) (by omega) (by omega)
  · intro h p _ hp
    have hle : p / 8 ≤ (port.toNat + size - 1) / 8 :=
      Nat.div_le_div_right (by omega)
    rw [ioLast] at h
    omega

theorem clear_iff (tss : Nat → U8) (iobase port : U16) {size : Nat}
    (hsize : size = 1 ∨ size = 2 ∨ size = 4) :
    (∀ p, port.toNat ≤ p → p < port.toNat + size →
      bitOf tss (8 * iobase.toNat + p) = false)
      ↔ bytesWord 32 tss (ioFirst iobase port)
          (ioLast iobase port size + 1 - ioFirst iobase port)
          &&& ioMask port size = 0#32 := by
  have hport := Nat.div_add_mod port.toNat 8
  have hmod : port.toNat % 8 < 8 := Nat.mod_lt _ (by decide)
  rw [ioMask_eq port hsize,
    bytesWord_and_fieldMask tss _ (by unfold ioFirst ioLast; omega) (by omega)]
  constructor
  · intro h i hk hm
    rw [show 8 * ioFirst iobase port + i
      = 8 * iobase.toNat + (8 * (port.toNat / 8) + i) by
      unfold ioFirst; omega]
    exact h _ (by omega) (by omega)
  · intro h p hp hp'
    have hi := h (p - 8 * (port.toNat / 8)) (by omega) (by omega)
    rwa [show 8 * ioFirst iobase port + (p - 8 * (port.toNat / 8))
      = 8 * iobase.toNat + p by
      unfold ioFirst; omega] at hi

-- ======== arithmetic with checks

/-- `a + b` where it fits. -/
def checkedAdd (a b : U32) : Option U32 :=
  if a.toNat + b.toNat < 2 ^ 32 then some (a + b) else none

/-- `a - b` where it is no less than zero. -/
def checkedSub (a b : U32) : Option U32 :=
  if b.toNat ≤ a.toNat then some (a - b) else none

/-- `a << n` where no bit is lost. -/
def checkedShl (a : U32) (n : Nat) : Option U32 :=
  if n < 32 ∧ a.toNat * 2 ^ n < 2 ^ 32 then some (a <<< n) else none

/-- The window and the mask as the source computes them, in `u32`. -/
def ioWindow (iobase port : U16) (size : U8) : Option (U32 × U32 × U32) := do
  let first ← checkedAdd (iobase.setWidth 32) (port.setWidth 32 >>> 3)
  let past ← checkedAdd (port.setWidth 32) (size.setWidth 32)
  let top ← checkedSub past 1
  let last ← checkedAdd (iobase.setWidth 32) (top >>> 3)
  let one ← checkedShl 1 size.toNat
  let ones ← checkedSub one 1
  let mask ← checkedShl ones (port.setWidth 32 &&& (7 : U32)).toNat
  return (first, last, mask)

/-- The bitmap bytes from `a` on joined to the `i` before them, as the source
does it. -/
def ioBits (tss : Nat → U8) (a : Nat) : Nat → Nat → U32 → Option U32
  | 0, _, bits => some bits
  | n + 1, i, bits => do
    let place ← checkedShl ((tss a).setWidth 32) (8 * i)
    ioBits tss (a + 1) n (i + 1) (bits ||| place)

theorem checkedAdd_ofNat {a b : Nat} (h : a + b < 2 ^ 32) :
    checkedAdd (BitVec.ofNat 32 a) (BitVec.ofNat 32 b)
      = some (BitVec.ofNat 32 (a + b)) := by
  rw [checkedAdd, if_pos, BitVec.ofNat_add]
  rwa [BitVec.toNat_ofNat, BitVec.toNat_ofNat, Nat.mod_eq_of_lt (by omega),
    Nat.mod_eq_of_lt (by omega)]

theorem checkedSub_ofNat {a b : Nat} (h : b ≤ a) (ha : a < 2 ^ 32) :
    checkedSub (BitVec.ofNat 32 a) (BitVec.ofNat 32 b)
      = some (BitVec.ofNat 32 (a - b)) := by
  rw [checkedSub, if_pos, BitVec.ofNat_sub_ofNat_of_le _ _ (by omega) h]
  rwa [BitVec.toNat_ofNat, BitVec.toNat_ofNat, Nat.mod_eq_of_lt ha,
    Nat.mod_eq_of_lt (by omega)]

theorem ofNat_shiftRight_three {a : Nat} (ha : a < 2 ^ 32) :
    BitVec.ofNat 32 a >>> 3 = BitVec.ofNat 32 (a / 8) := by
  refine BitVec.eq_of_toNat_eq ?_
  rw [BitVec.toNat_ushiftRight, BitVec.toNat_ofNat, BitVec.toNat_ofNat,
    Nat.mod_eq_of_lt ha, Nat.mod_eq_of_lt (by omega),
    Nat.shiftRight_eq_div_pow]

/-- The mask fits whatever the access. -/
theorem checkedShl_mask (port : U16) {size : Nat}
    (hsize : size = 1 ∨ size = 2 ∨ size = 4) :
    ((checkedShl 1 size >>= fun one => checkedSub one 1) >>= fun ones =>
      checkedShl ones (port.setWidth 32 &&& (7 : U32)).toNat)
        = some (ioMask port size) := by
  have hlow : (port.setWidth 32 &&& (7 : U32)).toNat = port.toNat % 8 := by
    rw [BitVec.toNat_and, BitVec.toNat_setWidth,
      Nat.mod_eq_of_lt (by have := port.isLt; omega)]
    exact Nat.and_two_pow_sub_one_eq_mod _ 3
  have hall : ∀ k < 8,
      ((checkedShl 1 size >>= fun one => checkedSub one 1) >>= fun ones =>
      checkedShl ones k)
      = some (((1 <<< size : U32) - 1) <<< k) := by
    rcases hsize with rfl | rfl | rfl <;> decide
  rw [hlow]
  exact hall _ (Nat.mod_lt _ (by decide))

/-- Every step of the window and the mask fits. -/
theorem ioWindow_eq (iobase port : U16) {size : U8}
    (hsize : size.toNat = 1 ∨ size.toNat = 2 ∨ size.toNat = 4) :
    ioWindow iobase port size = some (BitVec.ofNat 32 (ioFirst iobase port),
      BitVec.ofNat 32 (ioLast iobase port size.toNat),
        ioMask port size.toNat) := by
  have hbase := iobase.isLt
  have hport := port.isLt
  have hword :
    ∀ {w : Nat} (x : BitVec w), x.setWidth 32 = BitVec.ofNat 32 x.toNat :=
    fun x => (BitVec.ofNat_toNat 32 x).symm
  have hfirst : checkedAdd (iobase.setWidth 32) (port.setWidth 32 >>> 3)
      = some (BitVec.ofNat 32 (ioFirst iobase port)) := by
    rw [hword, hword, ofNat_shiftRight_three (by omega),
      checkedAdd_ofNat (by omega), ioFirst]
  have hover : checkedAdd (port.setWidth 32) (size.setWidth 32)
      = some (BitVec.ofNat 32 (port.toNat + size.toNat)) := by
    rw [hword, hword, checkedAdd_ofNat (by omega)]
  have htop : checkedSub (BitVec.ofNat 32 (port.toNat + size.toNat)) 1
      = some (BitVec.ofNat 32 (port.toNat + size.toNat - 1)) :=
    checkedSub_ofNat (b := 1) (by omega) (by omega)
  have hlast :
      checkedAdd (iobase.setWidth 32)
      (BitVec.ofNat 32 (port.toNat + size.toNat - 1) >>> 3)
      = some (BitVec.ofNat 32 (ioLast iobase port size.toNat)) := by
    rw [hword, ofNat_shiftRight_three (by omega), checkedAdd_ofNat (by omega), ioLast]
  have hmask := checkedShl_mask port hsize
  simp only [Option.bind_eq_bind, Option.bind_eq_some_iff] at hmask
  obtain ⟨ones, ⟨one, hone, hones⟩, hmask⟩ := hmask
  simp only [ioWindow, Option.bind_eq_bind, Option.bind_eq_some_iff]
  exact ⟨_, hfirst, _, hover, _, htop, _, hlast, _, hone, _,
    hones, _, hmask, rfl⟩

/-- The bytes joined are the word. -/
theorem ioBits_eq (tss : Nat → U8) (a n i : Nat) (bits : U32) (h : i + n ≤ 4) :
    ioBits tss a n i bits
      = some (bits ||| (bytesWord 32 tss a n <<< (8 * i))) := by
  induction n generalizing a i bits with
  | zero => simp [ioBits, bytesWord]
  | succ n ih =>
    have hfit : ((tss a).setWidth 32 : U32).toNat * 2 ^ (8 * i) < 2 ^ 32 := by
      have hb := (tss a).isLt
      have hpow : 2 ^ (8 * i) ≤ 2 ^ 24 :=
        Nat.pow_le_pow_right (by decide) (by omega)
      rw [BitVec.toNat_setWidth, Nat.mod_eq_of_lt (by omega)]
      calc (tss a).toNat * 2 ^ (8 * i)
          < 2 ^ 8 * 2 ^ (8 * i) :=
            Nat.mul_lt_mul_of_pos_right hb (Nat.two_pow_pos _)
        _ ≤ 2 ^ 8 * 2 ^ 24 := Nat.mul_le_mul_left _ hpow
    rw [ioBits, checkedShl, if_pos ⟨by omega, hfit⟩]
    change ioBits tss (a + 1) n (i + 1)
      (bits ||| ((tss a).setWidth 32 <<< (8 * i))) = _
    rw [ih _ _ _ (by omega), bytesWord, BitVec.shiftLeft_or_distrib,
      ← BitVec.or_assoc, ← BitVec.shiftLeft_add,
      show 8 + 8 * i = 8 * (i + 1) by omega]

/-- An access touches one byte of the bitmap or two. -/
theorem ioLast_le (iobase port : U16) {size : Nat}
    (hsize : size = 1 ∨ size = 2 ∨ size = 4) :
    ioFirst iobase port ≤ ioLast iobase port size
      ∧ ioLast iobase port size ≤ ioFirst iobase port + 1 := by
  unfold ioFirst ioLast
  omega

/-- The check as it is made of the words in hand. -/
theorem granted_iff (attrs : U16) (limit : U32) (iobase port : U16)
    (tss : Nat → U8) {size : Nat} (hsize : size = 1 ∨ size = 2 ∨ size = 4) :
    Granted attrs limit iobase tss port size
      ↔ attrs &&& 0x08 ≠ 0 ∧ 0x67 ≤ limit
        ∧ ioLast iobase port size ≤ limit.toNat
        ∧ bytesWord 32 tss (ioFirst iobase port)
            (ioLast iobase port size + 1 - ioFirst iobase port)
            &&& ioMask port size = 0#32 := by
  rw [← inside_iff limit.toNat iobase port (by omega),
    ← clear_iff tss iobase port hsize]
  exact ⟨fun h => ⟨h.wide, h.based, h.inside, h.clear⟩,
    fun ⟨hw, hb, hi, hc⟩ => ⟨hw, hb, hi, hc⟩⟩

/-- An answer to whether `P`: success, or the refusal. -/
structure Answers {ε : Type} (refusal : ε) (r : Except ε Unit) (P : Prop) :
    Prop where
  ok_iff : r = .ok () ↔ P
  refused : ¬ P → r = .error refusal

theorem Answers.yes {ε : Type} {refusal : ε} {P : Prop} (h : P) :
    Answers refusal (.ok ()) P :=
  ⟨⟨fun _ => h, fun _ => rfl⟩, fun hn => absurd h hn⟩

theorem Answers.no {ε : Type} {refusal : ε} {P : Prop} (h : ¬ P) :
    Answers refusal (.error refusal) P :=
  ⟨⟨nofun, fun hp => absurd hp h⟩, fun _ => rfl⟩

-- ======== the 32-bit core

namespace X32

variable {β : Type} [Bus β]

/-- Not free to use any port: less privileged than the I/O privilege level,
or in virtual-8086 mode. -/
def Machine.Arbitrated (s : Machine β) : Prop :=
  s.regs.cr0 &&& cr0.PE ≠ 0
    ∧ (s.regs.eflags.contains EFlags.VM = true ∨ s.regs.eflags.iopl < s.cpl)

/-- The `n` bytes of the TSS from `a` on are read one after the other. -/
def Machine.ReadsBytes (base : U32) (tss : Nat → U8) :
    Nat → Nat → Machine β → Prop
  | _, 0, _ => True
  | a, n + 1, s =>
    ∃ t, (sysRead8 (base + BitVec.ofNat 32 a)).run s = (.ok (tss a), t)
      ∧ ReadsBytes base tss (a + 1) n t

/-- The base of the bitmap and the bytes of it an access needs are read
without a fault, as far as they are within the limit. -/
def Machine.ReadsTss (s : Machine β) (iobase : U16) (tss : Nat → U8)
    (port : U16) (size : Nat) : Prop :=
  0x67 ≤ s.regs.tr.limit → ∃ t,
    (sysRead16 (s.regs.tr.base + 0x66)).run s = (.ok iobase, t)
    ∧ (ioLast iobase port size ≤ s.regs.tr.limit.toNat →
      t.ReadsBytes s.regs.tr.base tss (ioFirst iobase port)
        (ioLast iobase port size + 1 - ioFirst iobase port))

theorem run_readBitmap {base : U32} {tss : Nat → U8}
    {a n : Nat} {s : Machine β}
    (h : s.ReadsBytes base tss a n) :
    ∃ t, (readBitmap base a n).run s = (.ok (bytesWord 32 tss a n), t) := by
  induction n generalizing a s with
  | zero => exact ⟨s, rfl⟩
  | succ n ih =>
    obtain ⟨t, hrd, hrest⟩ := h
    obtain ⟨u, hu⟩ := ih hrest
    refine ⟨u, ?_⟩
    rw [readBitmap, Bounded.run_bind, Fallible.bind_of_ok hrd,
      Bounded.run_bind, Fallible.bind_of_ok hu]
    rfl

theorem answers_raiseIf {c P : Prop} [Decidable c]
    (h : P ↔ ¬ c) (t : Machine β) :
    Answers (Exception.gp 0)
      ((raiseIf c (Exception.gp 0) : Calm β Unit).run t).1 P := by
  rw [run_raiseIf]
  by_cases hc : c
  · rw [if_pos hc]
    exact .no fun hp => h.mp hp hc
  · rw [if_neg hc]
    exact .yes (h.mpr hc)

/-- The check answers whether the TSS grants the access. -/
theorem ioCheck_granted {s : Machine β} (hs : s.Arbitrated)
    {port : U16} {size : Nat}
    (hsize : size = 1 ∨ size = 2 ∨ size = 4) {iobase : U16} {tss : Nat → U8}
    (hread : s.ReadsTss iobase tss port size) :
    Answers (Exception.gp 0) ((ioCheck port size).run s).1
      (Granted s.regs.tr.attrs s.regs.tr.limit iobase tss port size) := by
  have hfree : (!(s.regs.cr0 &&& cr0.PE == 0
      || (!s.regs.eflags.contains EFlags.VM && decide
        (s.cpl ≤ s.regs.eflags.iopl)))) = true := by
    rw [Bool.not_eq_true', Bool.or_eq_false_iff]
    refine ⟨beq_false_of_ne hs.1, ?_⟩
    rcases hs.2 with hvm | hcpl
    · rw [hvm]
      rfl
    · rw [decide_eq_false (BitVec.not_le.mpr hcpl), Bool.and_false]
  rw [granted_iff _ _ _ _ _ hsize, ioCheck, Bounded.run_bind,
    Fallible.bind_of_ok (run_self s), whenever, if_pos hfree]
  simp only [Bounded.run_bind]
  by_cases hattr : s.regs.tr.attrs &&& 0x08 = 0
  · rw [Fallible.bind_of_error (by rw [run_raiseIf, if_pos hattr])]
    exact .no fun h => h.1 hattr
  rw [Fallible.bind_of_ok (by rw [run_raiseIf, if_neg hattr])]
  by_cases hlim : s.regs.tr.limit < 0x67
  · rw [Fallible.bind_of_error (by rw [run_raiseIf, if_pos hlim])]
    exact .no fun h => BitVec.not_le.mpr hlim h.2.1
  rw [Fallible.bind_of_ok (by rw [run_raiseIf, if_neg hlim])]
  obtain ⟨t, hbase, hbytes⟩ := hread (BitVec.not_lt.mp hlim)
  rw [Fallible.bind_of_ok hbase]
  by_cases hlast : s.regs.tr.limit.toNat < ioLast iobase port size
  · rw [Fallible.bind_of_error (by rw [run_raiseIf]; exact if_pos hlast)]
    exact .no fun h => absurd hlast (Nat.not_lt.mpr h.2.2.1)
  rw [Fallible.bind_of_ok (by rw [run_raiseIf]; exact if_neg hlast)]
  obtain ⟨u, hbits⟩ := run_readBitmap (hbytes (Nat.not_lt.mp hlast))
  simp only [ioFirst, ioLast] at hbits
  rw [Fallible.bind_of_ok hbits]
  exact answers_raiseIf ⟨fun h => not_not.mpr h.2.2.2,
    fun h => ⟨hattr, BitVec.not_lt.mp hlim, Nat.not_lt.mp hlast, not_not.mp h⟩⟩ u

end X32

-- ======== the 64-bit core

namespace X64

variable {β : Type} [Bus β]

/-- Not free to use any port: less privileged than the I/O privilege level,
or in virtual-8086 mode. -/
def Machine.Arbitrated (s : Machine β) : Prop :=
  s.regs.cr0 &&& cr0.PE ≠ 0
    ∧ (s.regs.rflags.contains RFlags.VM = true ∨ s.regs.rflags.iopl < s.cpl)

/-- The `n` bytes of the TSS from `a` on are read one after the other. -/
def Machine.ReadsBytes (base : U64) (tss : Nat → U8) :
    Nat → Nat → Machine β → Prop
  | _, 0, _ => True
  | a, n + 1, s =>
    ∃ t, (sysRead8 (base + BitVec.ofNat 64 a)).run s = (.ok (tss a), t)
      ∧ ReadsBytes base tss (a + 1) n t

/-- The base of the bitmap and the bytes of it an access needs are read
without a fault, as far as they are within the limit. -/
def Machine.ReadsTss (s : Machine β) (iobase : U16) (tss : Nat → U8)
    (port : U16) (size : Nat) : Prop :=
  0x67 ≤ s.regs.tr.limit → ∃ t,
    (sysRead16 (s.regs.tr.base + 0x66)).run s = (.ok iobase, t)
    ∧ (ioLast iobase port size ≤ s.regs.tr.limit.toNat →
      t.ReadsBytes s.regs.tr.base tss (ioFirst iobase port)
        (ioLast iobase port size + 1 - ioFirst iobase port))

theorem run_readBitmap {base : U64} {tss : Nat → U8}
    {a n : Nat} {s : Machine β}
    (h : s.ReadsBytes base tss a n) :
    ∃ t, (readBitmap base a n).run s = (.ok (bytesWord 32 tss a n), t) := by
  induction n generalizing a s with
  | zero => exact ⟨s, rfl⟩
  | succ n ih =>
    obtain ⟨t, hrd, hrest⟩ := h
    obtain ⟨u, hu⟩ := ih hrest
    refine ⟨u, ?_⟩
    rw [readBitmap, Bounded.run_bind, Fallible.bind_of_ok hrd,
      Bounded.run_bind, Fallible.bind_of_ok hu]
    rfl

theorem answers_raiseIf {c P : Prop} [Decidable c]
    (h : P ↔ ¬ c) (t : Machine β) :
    Answers (Exception.gp 0)
      ((raiseIf c (Exception.gp 0) : Calm β Unit).run t).1 P := by
  rw [run_raiseIf]
  by_cases hc : c
  · rw [if_pos hc]
    exact .no fun hp => h.mp hp hc
  · rw [if_neg hc]
    exact .yes (h.mpr hc)

/-- The check answers whether the TSS grants the access. -/
theorem ioCheck_granted {s : Machine β} (hs : s.Arbitrated)
    {port : U16} {size : Nat}
    (hsize : size = 1 ∨ size = 2 ∨ size = 4) {iobase : U16} {tss : Nat → U8}
    (hread : s.ReadsTss iobase tss port size) :
    Answers (Exception.gp 0) ((ioCheck port size).run s).1
      (Granted s.regs.tr.attrs s.regs.tr.limit iobase tss port size) := by
  have hfree : (!(s.regs.cr0 &&& cr0.PE == 0
      || (!s.regs.rflags.contains RFlags.VM && decide
        (s.cpl ≤ s.regs.rflags.iopl)))) = true := by
    rw [Bool.not_eq_true', Bool.or_eq_false_iff]
    refine ⟨beq_false_of_ne hs.1, ?_⟩
    rcases hs.2 with hvm | hcpl
    · rw [hvm]
      rfl
    · rw [decide_eq_false (BitVec.not_le.mpr hcpl), Bool.and_false]
  rw [granted_iff _ _ _ _ _ hsize, ioCheck, Bounded.run_bind,
    Fallible.bind_of_ok (run_self s), whenever, if_pos hfree]
  simp only [Bounded.run_bind]
  by_cases hattr : s.regs.tr.attrs &&& 0x08 = 0
  · rw [Fallible.bind_of_error (by rw [run_raiseIf, if_pos hattr])]
    exact .no fun h => h.1 hattr
  rw [Fallible.bind_of_ok (by rw [run_raiseIf, if_neg hattr])]
  by_cases hlim : s.regs.tr.limit < 0x67
  · rw [Fallible.bind_of_error (by rw [run_raiseIf, if_pos hlim])]
    exact .no fun h => BitVec.not_le.mpr hlim h.2.1
  rw [Fallible.bind_of_ok (by rw [run_raiseIf, if_neg hlim])]
  obtain ⟨t, hbase, hbytes⟩ := hread (BitVec.not_lt.mp hlim)
  rw [Fallible.bind_of_ok hbase]
  by_cases hlast : s.regs.tr.limit.toNat < ioLast iobase port size
  · rw [Fallible.bind_of_error (by rw [run_raiseIf]; exact if_pos hlast)]
    exact .no fun h => absurd hlast (Nat.not_lt.mpr h.2.2.1)
  rw [Fallible.bind_of_ok (by rw [run_raiseIf]; exact if_neg hlast)]
  obtain ⟨u, hbits⟩ := run_readBitmap (hbytes (Nat.not_lt.mp hlast))
  simp only [ioFirst, ioLast] at hbits
  rw [Fallible.bind_of_ok hbits]
  exact answers_raiseIf ⟨fun h => not_not.mpr h.2.2.2,
    fun h => ⟨hattr, BitVec.not_lt.mp hlim, Nat.not_lt.mp hlast, not_not.mp h⟩⟩ u

end X64

-- ======== both cores

/-- The permission check grants an access when the TSS does, on either core,
and no step of its arithmetic leaves `u32`. -/
theorem io_permission {β γ : Type} [X32.Bus β] [X64.Bus γ]
    (port : U16) (size : U8)
    (hsize : size.toNat = 1 ∨ size.toNat = 2 ∨ size.toNat = 4) (iobase : U16)
    (tss : Nat → U8) :
    (∀ s : X32.Machine β,
        s.Arbitrated → s.ReadsTss iobase tss port size.toNat →
        Answers (X32.Exception.gp 0) ((X32.ioCheck port size.toNat).run s).1
          (Granted s.regs.tr.attrs s.regs.tr.limit iobase tss port size.toNat))
      ∧ (∀ s : X64.Machine γ,
        s.Arbitrated → s.ReadsTss iobase tss port size.toNat →
        Answers (X64.Exception.gp 0) ((X64.ioCheck port size.toNat).run s).1
          (Granted s.regs.tr.attrs s.regs.tr.limit iobase tss port size.toNat))
      ∧ (∀ attrs, IsTss attrs →
        (attrs &&& 0x08 ≠ 0 ↔ attrs &&& 0x1F = 0x9 ∨ attrs &&& 0x1F = 0xB))
      ∧ ioWindow iobase port size
          = some (BitVec.ofNat 32 (ioFirst iobase port),
          BitVec.ofNat 32 (ioLast iobase port size.toNat),
            ioMask port size.toNat)
      ∧ ioBits tss (ioFirst iobase port)
        (ioLast iobase port size.toNat + 1 - ioFirst iobase port) 0 0
        = some (bytesWord 32 tss (ioFirst iobase port)
            (ioLast iobase port size.toNat + 1 - ioFirst iobase port)) := by
  refine ⟨fun _ hs hread => X32.ioCheck_granted hs hsize hread,
    fun _ hs hread => X64.ioCheck_granted hs hsize hread,
      fun _ h => h.wide_iff,
    ioWindow_eq iobase port hsize, ?_⟩
  have hlast := ioLast_le iobase port hsize
  rw [ioBits_eq _ _ _ _ _ (by omega)]
  simp

/-- A TSS at 0 with its bitmap at 0x88, where ports 7 and 8 are clear and
every other one is set. -/
def twoPorts (a : Nat) : U8 :=
  if a = 0x66 then 0x88 else if a = 0x67 then 0 else if a = 0x88 then 0x7F
  else if a = 0x89 then 0xFE else 0xFF

/-- A task at privilege level 3 of either core, with that TSS. -/
def userTask32 : X32.Machine (X32.FlatBus Unit) :=
  { X32.Cpu.new with
    regs := { X32.Registers.new with
      cr0 := 1
      seg := fun _ => { sel := 3, base := 0, limit := 0xFFFFFFFF, attrs := 0xCFB }
      tr := { sel := 8, base := 0, limit := 0x89, attrs := 0x8B } }
    bus := ⟨fun a => twoPorts a.toNat, ()⟩ }

def userTask64 : X64.Machine (X64.FlatBus Unit) :=
  { X64.Cpu.new with
    regs := { X64.Registers.new with
      cr0 := 1
      seg := fun _ => { sel := 3, base := 0, limit := 0xFFFFFFFF, attrs := 0xCFB }
      tr := { sel := 8, base := 0, limit := 0x89, attrs := 0x8B } }
    bus := ⟨fun a => twoPorts a.toNat, ()⟩ }

/-- A word access across two bytes of the bitmap up to the limit. -/
theorem io_permission_straddling :
    ((X32.ioCheck 7 2).run userTask32).1 = .ok ()
      ∧ ((X64.ioCheck 7 2).run userTask64).1 = .ok () := by
  obtain ⟨h32, h64, -⟩ :=
    io_permission (β := X32.FlatBus Unit) (γ := X64.FlatBus Unit) 7 2
      (by decide) 0x88 twoPorts
  have hgranted : Granted 0x8B 0x89 0x88 twoPorts 7 2 :=
    ⟨by decide, by decide, by decide, by decide⟩
  refine ⟨(h32 userTask32 ⟨by decide, .inr (by decide)⟩ ?_).ok_iff.mpr hgranted,
    (h64 userTask64 ⟨by decide, .inr (by decide)⟩ ?_).ok_iff.mpr hgranted⟩
  · exact fun _ => ⟨_, Prod.ext (by decide) rfl, fun _ =>
      ⟨_, Prod.ext (by decide) rfl, _,
        Prod.ext (by decide) rfl, trivial⟩⟩
  · exact fun _ => ⟨_, Prod.ext (by decide) rfl, fun _ =>
      ⟨_, Prod.ext (by decide) rfl, _,
        Prod.ext (by decide) rfl, trivial⟩⟩

end Remu
