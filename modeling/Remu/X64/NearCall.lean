/-
Near CALL and near RET in 64-bit mode.

A CALL pushes the address after it and a RET pops one. The width of the
branch is forced to 64 bits (`branchOsize`), but the width of the push and
of the pop comes from `stackOsize`, which an operand-size prefix without
REX.W turns into 16. The pair therefore round-trips exactly when neither
sees such a prefix; a cached record sees the flag of the last instruction
that went through the prefix scan.

The push is followed to memory and back by `stored_linWrite64`.
-/
import Remu.X64.ReadBack
import Remu.X64.Step

namespace Remu.X64

open Word

variable {β : Type} [Bus β]

-- ======== encodings

/-- The stack is addressed in quad words: no operand-size flag, or REX.W
over it. -/
def Cpu.WideStack (c : Cpu) : Prop := ¬ (c.prefix66 = true ∧ c.rexW = false)

/-- A record the decoder makes of an opcode in 64-bit mode. -/
def DecodedFrom (β : Type) [Bus β] (opcode : U8) (d : DecodedInsn) : Prop :=
  ∃ (npfx : U32) (v v' : Machine β), v.m64 = true
    ∧ (tryDecode opcode npfx).run v = (.ok (.hot d), v')

/-- A near CALL in `s`: what it runs, and the address after its last byte.
The fused arms start behind the opcode, the records of the decoder behind
the instruction. -/
inductive NearCall (s : Machine β) : Exec β U32 → U64 → Prop
  | rel : NearCall s (dispatch 0xE8).run (s.regs.rip + 4)
  | rm {m : ModRm} {op : Operand} {s₁ : Machine β}
      (hm : modrm.run s = (.ok (m, op), s₁))
      (hsub : m.sub = 2) : NearCall s (dispatch 0xFF).run s₁.regs.rip
  | relDecoded {d : DecodedInsn} (hdec : DecodedFrom β 0xE8 d) :
      NearCall s (execDecoded d).run s.regs.rip
  | rmDecoded {d : DecodedInsn} (hdec : DecodedFrom β 0xFF d)
      (hop : d.op = .CallRm) :
      NearCall s (execDecoded d).run s.regs.rip

/-- A near RET in `t`: what it runs, the bytes it releases beside the
address, and the state its pop starts in. -/
inductive NearRet (t : Machine β) : Exec β U32 → U64 → Machine β → Prop
  | plain {t₁ : Machine β} (h : useBranchOsize.run t = (.ok (), t₁)) :
      NearRet t (dispatch 0xC3).run 0 t₁
  | imm {n : U16} {t₁ : Machine β}
      (h : (useBranchOsize >>= fun _ => fetch16).run t = (.ok n, t₁)) :
      NearRet t (dispatch 0xC2).run (n.setWidth 64) t₁
  | plainDecoded {d : DecodedInsn} {t₁ : Machine β}
      (hdec : DecodedFrom β 0xC3 d)
      (h : (setOsize d.osize).run t = (.ok (), t₁)) :
      NearRet t (execDecoded d).run 0 t₁
  | immDecoded {d : DecodedInsn} {t₁ : Machine β} (hdec : DecodedFrom β 0xC2 d)
      (h : (setOsize d.osize).run t = (.ok (), t₁)) :
      NearRet t (execDecoded d).run d.imm t₁

-- ======== laws

/-- The quad word at offset `off` of the stack segment reads as `v`. -/
def Machine.Holds (s : Machine β) (off v : U64) : Prop :=
  ∃ s', (read64 reg.SS off).run s = (.ok v, s')

/-- After a CALL that found RSP at `rsp`: eight bytes down, and in them
the address after it. -/
structure CallLaw (s : Machine β) (rsp next : U64) : Prop where
  pointer : s.regs.gpr reg.RSP = rsp - 8
  slot : s.Holds (rsp - 8) next

/-- After a RET to `next` that should leave RSP at `rsp`: it executes if
the address may be executed at all, and where it executes it gets there. -/
structure RetLaw (r : Except Exception U32 × Machine β) (next rsp : U64) :
    Prop where
  done : canonical next = true → ∃ n, r.1 = .ok n
  target : ∀ n, r.1 = .ok n → r.2.regs.rip = next ∧ r.2.regs.gpr reg.RSP = rsp

/-- The RET follows the CALL that left `s`: the same stack pointer, and
the stack slot as it was. -/
structure Follows (s t : Machine β) : Prop where
  m64 : t.m64 = true
  pointer : t.regs.gpr reg.RSP = s.regs.gpr reg.RSP
  slot : ∀ v, s.Holds (s.regs.gpr reg.RSP) v → t.Holds (s.regs.gpr reg.RSP) v

-- ======== widths

/-- Stack operations are 64-bit in 64-bit mode. -/
theorem Cpu.stackOsize_wide {c : Cpu} (hm : c.m64 = true) (h : c.WideStack) :
    c.stackOsize = O64 := by
  rw [stackOsize, if_pos hm]
  cases hp : c.prefix66 with
  | false => rfl
  | true =>
    cases hw : c.rexW with
    | true => rfl
    | false => exact absurd ⟨hp, hw⟩ h

/-- Under a 66 prefix stack operations are 16-bit. -/
theorem Cpu.stackOsize_narrow {c : Cpu} (hm : c.m64 = true)
    (h : ¬ c.WideStack) :
    c.stackOsize = O16 := by
  obtain ⟨hp, hw⟩ := Classical.not_not.1 h
  rw [stackOsize, if_pos hm, hp, hw]
  rfl

/-- A calm run does not leave 64-bit mode. -/
theorem CalmSteps.m64 {s s' : Machine β} (h : CalmSteps s s') :
    s'.m64 = s.m64 := by
  induction h with
  | refl => rfl
  | tail _ hstep ih =>
    rw [← ih]
    cases hstep <;> rfl

/-- Where a computation succeeded it kept the mode. -/
theorem m64_of_run {α : Type} {x : Calm β α} {s s' : Machine β}
    {r : Except Exception α} (h : x.run s = (r, s')) : s'.m64 = s.m64 := by
  have hbound := x.bound s
  rw [h] at hbound
  exact CalmSteps.m64 hbound

-- ======== records

/-- The size of a record can be told from the one it was given. -/
theorem osize_setOsize (d : DecodedInsn) (z : OpSize) :
    (d.setOsize z).osize = z := by
  have hlow : (d.flags &&& ~~~(3 : U8) ||| opsizeBits z) &&& 3
    = opsizeBits z &&& 3 := by
    rw [BitVec.or_comm]
    refine or_and_disjoint _ ?_
    rw [BitVec.and_assoc]
    exact BitVec.and_zero
  show bitsOpsize (d.flags &&& ~~~(3 : U8) ||| opsizeBits z) = z
  rw [bitsOpsize, hlow]
  cases z <;> rfl

/-- The prefix count does not reach the size. -/
theorem osize_setNpfx (d : DecodedInsn) (n : U8) :
    (d.setNpfx n).osize = d.osize := by
  have hcount : ∀ n : U8, n <<< 5 &&& 3 = 0 := by decide
  have hlow : (d.flags ||| n <<< 5) &&& 3 = d.flags &&& 3 :=
    or_and_disjoint _ (hcount n)
  show bitsOpsize (d.flags ||| n <<< 5) = bitsOpsize d.flags
  rw [bitsOpsize, bitsOpsize, hlow]

/-- The decoder gives a near branch the width of branches. -/
theorem decodeBranch_hot {op : Op} {aux : U8}
    {rel : OpSize → Calm β U64} {v v' : Machine β}
    {d : DecodedInsn}
    (h : (decodeBranch op aux rel).run v = (.ok (.hot d), v')) :
    d.op = op ∧ d.osize = v.branchOsize := by
  unfold decodeBranch at h
  rw [Bounded.run_bind, Fallible.bind_of_ok (run_self v), Bounded.run_bind,
    Fallible.bind_eq_ok] at h
  obtain ⟨imm, v₁, -, h⟩ := h
  cases h
  exact ⟨rfl, osize_setOsize _ _⟩

/-- Of the FF group, a record of a CALL is that of sub-opcode 2. -/
theorem decodeGroup5_hot {v v' : Machine β}
    {d : DecodedInsn} (hm : v.m64 = true)
    (h : decodeGroup5.run v = (.ok (.hot d), v')) (hop : d.op = .CallRm) :
    d.osize = O64 := by
  unfold decodeGroup5 at h
  rw [Bounded.run_bind, Fallible.bind_of_ok (run_self v), Bounded.run_bind,
    Fallible.bind_eq_ok] at h
  obtain ⟨⟨sub, d₀⟩, v₁, hmodrm, h⟩ := h
  rw [Bounded.run_bind, Fallible.bind_of_ok (run_self v₁)] at h
  have hm₁ : v₁.m64 = true := (m64_of_run hmodrm).trans hm
  have harm := Except.ok.inj (congrArg Prod.fst h)
  split at harm
  · cases harm
    cases hop
  split at harm
  · cases harm
    exact (osize_setOsize _ _).trans (if_pos hm₁)
  split at harm
  · cases harm
    cases hop
  split at harm
  · cases harm
    cases hop
  · cases harm

/-- The records of near CALLs and RETs have the width of branches. -/
theorem DecodedFrom.near {opcode : U8} {d : DecodedInsn}
    (h : DecodedFrom β opcode d) :
    (opcode = 0xE8 → d.op = .CallRel ∧ d.osize = O64)
      ∧ (opcode = 0xFF → d.op = .CallRm → d.osize = O64)
      ∧ (opcode = 0xC3 → d.op = .RetNear ∧ d.osize = O64)
      ∧ (opcode = 0xC2 → d.op = .RetNearImm ∧ d.osize = O64) := by
  obtain ⟨npfx, v, v', hm, hdec⟩ := h
  obtain ⟨-, d₀, h, rfl⟩ := tryDecode_hot.1 hdec
  have hbranch : v.branchOsize = O64 := if_pos hm
  rw [osize_setNpfx]
  refine ⟨?_, ?_, ?_, ?_⟩ <;> rintro rfl
  · exact hbranch ▸ decodeBranch_hot h
  · exact decodeGroup5_hot hm h
  · have h : (decodeBranch .RetNear 0 fun _ => pure 0).run v
      = (.ok (.hot d₀), v') := h
    exact hbranch ▸ decodeBranch_hot h
  · have h : (decodeBranch .RetNearImm 0 fun _ =>
        (·.setWidth 64) <$> fetch16).run v
        = (.ok (.hot d₀), v') := h
    exact hbranch ▸ decodeBranch_hot h

-- ======== popping

/-- A load works on memory alone. -/
theorem MemOnly.read64 (seg : U8) (off : U64) :
    MemOnly (read64 seg off : Calm β U64) :=
  (MemOnly.linAddr _ _ _ _).bind fun _ => .linRead64 _

theorem MemOnly.read16 (seg : U8) (off : U64) :
    MemOnly (read16 seg off : Calm β U16) :=
  (MemOnly.linAddr _ _ _ _).bind fun _ => .linRead16 _

/-- In 64-bit mode the stack pointer is all of RSP. -/
theorem Cpu.stackPtr_m64 {c : Cpu} (hm : c.m64 = true) :
    c.stackPtr = c.regs.gpr reg.RSP := if_pos hm

/-- In 64-bit mode a push goes right below RSP. -/
theorem Cpu.pushOff_m64 {c : Cpu} (hm : c.m64 = true) (n : U64) :
    c.pushOff n = c.regs.gpr reg.RSP - n := by
  rw [pushOff, stackPtr_m64 hm, stackWrap, if_pos hm]
  exact BitVec.and_allOnes

/-- RSP moves and nothing else. -/
theorem run_adjustSp {t : Machine β} (hm : t.m64 = true) (delta : U64) :
    (adjustSp delta).run t
      = (.ok (), t.withHot
        (t.regs.setReg64 reg.RSP (t.regs.gpr reg.RSP + delta))) := by
  unfold adjustSp
  rw [Bounded.run_bind, Fallible.bind_of_ok (run_self t), run_setReg64,
    Cpu.movedSp, if_pos hm]

theorem HotRegs.rsp_setReg64 (r : HotRegs) (v : U64) :
    (r.setReg64 reg.RSP v).gpr reg.RSP = v :=
  upd_same r.gpr reg.RSP v

/-- A pop of `n` bytes that reads through `rd`. -/
theorem run_popped {α γ : Type} {rd : Calm β α} (hrd : MemOnly rd)
    {t t' : Machine β} {v : α}
    (hm : t.m64 = true) (h : rd.run t = (.ok v, t')) (n : U64)
    (k : α → Calm β γ) :
    (rd >>= fun v => adjustSp n >>= fun _ => k v).run t
      = (k v).run (t'.withHot
        (t'.regs.setReg64 reg.RSP (t.regs.gpr reg.RSP + n))) := by
  have hm' : t'.m64 = true := (m64_of_run h).trans hm
  rw [Bounded.run_bind, Fallible.bind_of_ok h, Bounded.run_bind,
    Fallible.bind_of_ok (run_adjustSp hm' n), (hrd _ _ _ h).1]

/-- A pop of what the stack holds. -/
theorem pop_wide {t : Machine β} {v : U64}
    (hm : t.m64 = true) (hw : t.WideStack)
    (h : t.Holds (t.regs.gpr reg.RSP) v) :
    ∃ t', pop.run t = (.ok v, t') ∧ t'.toDecodeState = t.toDecodeState
      ∧ t'.regs.gpr reg.RSP = t.regs.gpr reg.RSP + 8 := by
  obtain ⟨t₁, hread⟩ := h
  refine ⟨t₁.withHot (t₁.regs.setReg64 reg.RSP (t.regs.gpr reg.RSP + 8)), ?_,
    (MemOnly.read64 _ _ _ _ _ hread).2, HotRegs.rsp_setReg64 _ _⟩
  unfold pop
  rw [Bounded.run_bind, Fallible.bind_of_ok (run_self t),
    Cpu.stackOsize_wide hm hw]
  show pop64.run t = _
  unfold pop64
  rw [Bounded.run_bind, Fallible.bind_of_ok (run_self t), Cpu.stackPtr_m64 hm,
    run_popped (.read64 _ _) hm hread]
  rfl

/-- A quad word can be read only where its first two bytes can. -/
theorem linRead16_of_linRead64 {s s' : Machine β} {lin v : U64}
    (h : (linRead64 lin).run s = (.ok v, s')) :
    ∃ u t, (linRead16 lin).run s = (.ok u, t) := by
  unfold linRead64 at h
  unfold linRead16
  rw [Bounded.run_bind, Fallible.bind_of_ok (run_self s)] at h ⊢
  cases hp : s.paging with
  | false =>
    rw [if_pos (by decide)]
    exact ⟨_, _, rfl⟩
  | true =>
    rw [hp, if_neg (by decide)] at h
    rw [if_neg (by decide)]
    have hone : ∀ {q t}, (translate lin .read).run s = (.ok q, t) →
        ∃ u t', (translate lin .read >>= fun phys => busRead16 phys.val).run s
          = (.ok u, t') := by
      intro q t hq
      rw [Bounded.run_bind, Fallible.bind_of_ok hq]
      exact ⟨_, _, rfl⟩
    by_cases h64 : lin &&& 0xFFF < 0xFF9
    · have h16 : lin &&& 0xFFF < 0xFFF := BitVec.lt_trans h64 (by decide)
      rw [if_pos h64, Bounded.run_bind, Fallible.bind_eq_ok] at h
      obtain ⟨q, t, hq, -⟩ := h
      rw [if_pos h16]
      exact hone hq
    · rw [if_neg h64, readHalves, Bounded.run_bind, Fallible.bind_eq_ok] at h
      obtain ⟨l, t, hl, -⟩ := h
      unfold linRead32 at hl
      rw [Bounded.run_bind, Fallible.bind_of_ok (run_self s), hp,
        if_neg (by decide)] at hl
      by_cases h32 : lin &&& 0xFFF < 0xFFD
      · have h16 : lin &&& 0xFFF < 0xFFF := BitVec.lt_trans h32 (by decide)
        rw [if_pos h32, Bounded.run_bind, Fallible.bind_eq_ok] at hl
        obtain ⟨q, t', hq, -⟩ := hl
        rw [if_pos h16]
        exact hone hq
      · rw [if_neg h32, readHalves, Bounded.run_bind,
          Fallible.bind_eq_ok] at hl
        obtain ⟨u, t', hu, -⟩ := hl
        unfold linRead16 at hu
        rw [Bounded.run_bind, Fallible.bind_of_ok (run_self s), hp,
          if_neg (by decide)] at hu
        exact ⟨u, t', hu⟩

/-- In 64-bit mode the stack segment is flat and an address is checked for
being canonical, first byte and last. -/
theorem Cpu.linAddr_ss {c : Cpu} (hm : c.m64 = true) (off : U64)
    (size : Nat) (write : Bool) :
    c.linAddr reg.SS off size write
      = if canonical off && canonical (off + BitVec.ofNat 64 (size - 1))
        then .ok off
        else .error (segFault reg.SS) := by
  have hss : ¬ (reg.SS = reg.FS ∨ reg.SS = reg.GS) := by decide
  rw [linAddr, if_pos hm]
  dsimp only
  rw [if_neg hss, show (0 : U64) + off = off from BitVec.zero_add off]

/-- Canonical addresses are those with 47 bits of either sign. -/
theorem canonical_iff (a : U64) :
    canonical a = true ↔ a.toNat < 2 ^ 47 ∨ 2 ^ 64 - 2 ^ 47 ≤ a.toNat := by
  have hlt := a.isLt
  rw [canonical, Bool.or_eq_true, beq_iff_eq, beq_iff_eq, ← BitVec.toNat_inj,
    ← BitVec.toNat_inj, BitVec.toNat_ushiftRight, Nat.shiftRight_eq_div_pow]
  show a.toNat / 2 ^ 47 = 0 ∨ a.toNat / 2 ^ 47 = 0x1FFFF ↔ _
  omega

/-- What lies between two canonical addresses this close is canonical. -/
theorem canonical_between {a : U64} {m n : Nat} (hm : m ≤ n) (hn : n < 4096)
    (h : canonical a = true)
    (hlast : canonical (a + BitVec.ofNat 64 n) = true) :
    canonical (a + BitVec.ofNat 64 m) = true := by
  have hlt := a.isLt
  rw [canonical_iff] at h hlast ⊢
  rw [BitVec.toNat_add, BitVec.toNat_ofNat] at hlast ⊢
  omega

/-- An access to the stack segment that succeeds: its offset is its linear
address, canonical from end to end. -/
theorem run_stack {α : Type} {acc : U64 → Calm β α} {s s' : Machine β}
    {off : U64} {size : Nat} {write : Bool} {a : α} (hm : s.m64 = true) :
    (linAddr reg.SS off size write >>= acc).run s = (.ok a, s')
      ↔ (canonical off = true
        ∧ canonical (off + BitVec.ofNat 64 (size - 1)) = true)
        ∧ (acc off).run s = (.ok a, s') := by
  have hlin := run_linAddr reg.SS off size write s
  rw [Cpu.linAddr_ss hm] at hlin
  rw [← Bool.and_eq_true]
  by_cases hcan :
    (canonical off && canonical (off + BitVec.ofNat 64 (size - 1))) = true
  · rw [if_pos hcan] at hlin
    rw [Bounded.run_bind, Fallible.bind_of_ok hlin, and_iff_right hcan]
  · rw [if_neg hcan] at hlin
    rw [Bounded.run_bind, Fallible.bind_of_error hlin]
    refine iff_of_false ?_ fun h => hcan h.1
    intro h
    cases h

/-- So where a quad word of the stack can be read, a word can. -/
theorem Machine.Holds.read16 {s : Machine β} {off v : U64} (hm : s.m64 = true)
    (h : s.Holds off v) :
    ∃ u t, (read16 reg.SS off).run s = (.ok u, t) := by
  obtain ⟨s', hread⟩ := h
  obtain ⟨hcan, hread⟩ := (run_stack hm).1 hread
  obtain ⟨u, t, hword⟩ := linRead16_of_linRead64 hread
  have hone :=
    canonical_between (m := 2 - 1) (n := 8 - 1) (by decide)
      (by decide) hcan.1 hcan.2
  exact ⟨u, t, (run_stack hm).2 ⟨⟨hcan.1, hone⟩, hword⟩⟩

/-- A narrow pop succeeds where a wide one would, on the low half. -/
theorem pop_narrow {t : Machine β} {v : U64} (hm : t.m64 = true)
    (hw : ¬ t.WideStack) (h : t.Holds (t.regs.gpr reg.RSP) v) :
    ∃ (u : U16) (t' : Machine β), pop.run t = (.ok (u.setWidth 64), t')
      ∧ t'.toDecodeState = t.toDecodeState
      ∧ t'.regs.gpr reg.RSP = t.regs.gpr reg.RSP + 2 := by
  obtain ⟨u, t₁, hread⟩ := h.read16 hm
  refine ⟨u, t₁.withHot (t₁.regs.setReg64 reg.RSP (t.regs.gpr reg.RSP + 2)),
    ?_, (MemOnly.read16 _ _ _ _ _ hread).2, HotRegs.rsp_setReg64 _ _⟩
  have hpop : pop16.run t
      = (.ok u, t₁.withHot
        (t₁.regs.setReg64 reg.RSP (t.regs.gpr reg.RSP + 2))) := by
    unfold pop16
    rw [Bounded.run_bind, Fallible.bind_of_ok (run_self t),
      Cpu.stackPtr_m64 hm, run_popped (.read16 _ _) hm hread]
    rfl
  unfold pop
  rw [Bounded.run_bind, Fallible.bind_of_ok (run_self t),
    Cpu.stackOsize_narrow hm hw]
  show ((·.setWidth 64) <$> pop16).run t = _
  rw [map_eq_pure_bind, Bounded.run_bind, Fallible.bind_of_ok hpop]
  rfl

/-- A 16-bit address is canonical. -/
theorem canonical_setWidth (u : U16) : canonical (u.setWidth 64) = true := by
  have hlt := u.isLt
  rw [canonical_iff, BitVec.toNat_setWidth]
  omega

-- ======== returning

/-- A near branch with a 64-bit operand. -/
theorem run_setIp {t : Machine β} (hm : t.m64 = true)
    (hz : t.osize = O64) (ip : U64) :
    (setIp ip).run t
      = if canonical ip = true
        then (.ok (), t.withHot { t.regs.toHotRegs with rip := ip })
        else (.error (Exception.gp 0), t) := by
  unfold setIp
  have htrunc : t.truncIp ip = ip := by rw [Cpu.truncIp, hz]
  rw [Bounded.run_bind, Fallible.bind_of_ok (run_self t), htrunc, hm]
  dsimp only
  rw [if_pos rfl]
  cases canonical ip with
  | true => rfl
  | false => rfl

/-- What a RET does after its branch: release `imm` bytes. -/
def Releases (after : Calm β U32) (imm : U64) : Prop :=
  ∀ t, t.m64 = true → ∃ n t', after.run t = (.ok n, t')
    ∧ t'.regs.rip = t.regs.rip
    ∧ t'.regs.gpr reg.RSP = t.regs.gpr reg.RSP + imm

/-- What RET releases beside the return address. -/
theorem Releases.nothing (n : U32) : Releases (pure n : Calm β U32) 0 :=
  fun t _ => ⟨n, t, rfl, rfl, (BitVec.add_zero _).symm⟩

theorem Releases.bytes (imm : U64) (n : U32) :
    Releases (adjustSp imm >>= fun _ => pure n : Calm β U32) imm := by
  intro t hm
  refine ⟨n, t.withHot (t.regs.setReg64 reg.RSP (t.regs.gpr reg.RSP + imm)),
    ?_, rfl, HotRegs.rsp_setReg64 _ _⟩
  rw [Bounded.run_bind, Fallible.bind_of_ok (run_adjustSp hm imm)]
  rfl

/-- Two pops that leave RSP in the same place have the same width. -/
theorem pop_widths (rsp imm : U64) : rsp + 2 + imm ≠ rsp + 8 + imm := by
  intro h
  rw [BitVec.add_left_inj, BitVec.add_right_inj] at h
  cases h

/-- The tail of a near RET behind its pop. -/
theorem run_returned {t t' : Machine β} {after : Calm β U32}
    {ip imm : U64} (hm : t.m64 = true)
    (hz : t.osize = O64) (hafter : Releases after imm)
    (hpop : pop.run t = (.ok ip, t'))
    (hdec : t'.toDecodeState = t.toDecodeState) :
    if canonical ip = true then
      ∃ n r, (pop >>= fun ip => setIp ip >>= fun _ => after).run t = (.ok n, r)
        ∧ r.regs.rip = ip ∧ r.regs.gpr reg.RSP = t'.regs.gpr reg.RSP + imm
    else ∃ e r, (pop >>= fun ip => setIp ip >>= fun _ => after).run t
      = (.error e, r) := by
  have hm' : t'.m64 = true := (m64_of_run hpop).trans hm
  have hz' : t'.osize = O64 := by
    show t'.toDecodeState.osize = O64
    rw [hdec]
    exact hz
  have hip := run_setIp hm' hz' ip
  rw [Bounded.run_bind, Fallible.bind_of_ok hpop, Bounded.run_bind]
  by_cases hcan : canonical ip = true
  · rw [if_pos hcan] at hip ⊢
    rw [Fallible.bind_of_ok hip]
    exact hafter (t'.withHot { t'.regs.toHotRegs with rip := ip }) hm'
  · rw [if_neg hcan] at hip ⊢
    rw [Fallible.bind_of_error hip]
    exact ⟨_, _, rfl⟩

/-- The body of every near RET: it is lawful exactly when its pop is
wide. -/
theorem retLaw_iff {t : Machine β} {after : Calm β U32}
    {next imm : U64} (hm : t.m64 = true)
    (hz : t.osize = O64) (hafter : Releases after imm)
    (hslot : t.Holds (t.regs.gpr reg.RSP) next) :
    RetLaw ((pop >>= fun ip => setIp ip >>= fun _ => after).run t) next
        (t.regs.gpr reg.RSP + 8 + imm) ↔ t.WideStack := by
  by_cases hw : t.WideStack
  case pos =>
    refine iff_of_true ?_ hw
    obtain ⟨t', hpop, hdec, hrsp⟩ := pop_wide hm hw hslot
    have hrun := run_returned hm hz hafter hpop hdec
    split at hrun
    case isTrue =>
      obtain ⟨n, r, hrun, hrip, hrsp'⟩ := hrun
      rw [hrun]
      exact ⟨fun _ => ⟨n, rfl⟩,
        fun _ _ => ⟨hrip, hrsp'.trans (congrArg (· + imm) hrsp)⟩⟩
    case isFalse hcan =>
      obtain ⟨e, r, hrun⟩ := hrun
      rw [hrun]
      refine ⟨fun h => absurd h hcan, fun n h => ?_⟩
      cases h
  case neg =>
    refine iff_of_false (fun hlaw => ?_) hw
    -- The narrow pop succeeds too, and leaves RSP six bytes short.
    obtain ⟨u, t', hpop, hdec, hrsp⟩ := pop_narrow hm hw hslot
    have hrun := run_returned hm hz hafter hpop hdec
    rw [if_pos (canonical_setWidth u)] at hrun
    obtain ⟨n, r, hrun, -, hrsp'⟩ := hrun
    rw [hrun] at hlaw
    have hlaw' := (hlaw.target n rfl).2
    rw [hrsp', hrsp] at hlaw'
    exact pop_widths _ _ hlaw'

-- ======== arms

/-- The width of the stack is a matter of the prefixes. -/
theorem Cpu.wideStack_congr {c c' : Cpu} (hp : c'.prefix66 = c.prefix66)
    (hr : c'.rex = c.rex) :
    c'.WideStack ↔ c.WideStack := by
  rw [WideStack, WideStack, rexW, rexW, hp, hr]

/-- In 64-bit mode a branch takes the operand size of the prefix. -/
theorem run_useBranchOsize {t : Machine β} (hm : t.m64 = true) :
    useBranchOsize.run t
      = (.ok (), t.withDecode { t.toDecodeState with osize := O64 }) := by
  unfold useBranchOsize
  rw [Bounded.run_bind, Fallible.bind_of_ok (run_self t),
    Cpu.branchOsize, if_pos hm]
  rfl

/-- What `NearRet` says of the state its pop starts in. -/
theorem NearRet.body {t t₁ : Machine β} {ret : Exec β U32} {imm : U64}
    (h : NearRet t ret imm t₁) (hm : t₁.m64 = true) :
    ∃ after, Releases after imm ∧ t₁.osize = O64 ∧ (t₁.WideStack ↔ t.WideStack)
      ∧ ret t = (pop >>= fun ip => setIp ip >>= fun _ => after).run t₁ := by
  cases h with
  | plain h =>
    have hmt : t.m64 = true := (m64_of_run h).symm.trans hm
    have hret : (dispatch 0xC3 : Cold β U32).run t = retNear.run t := by
      rw [dispatch_calm (by decide) (by decide)]
      rfl
    refine ⟨pure 10, .nothing 10, ?_⟩
    rw [hret]
    unfold retNear
    rw [Bounded.run_bind, Fallible.bind_of_ok h]
    rw [run_useBranchOsize hmt] at h
    cases h
    exact ⟨rfl, Cpu.wideStack_congr rfl rfl, rfl⟩
  | @imm n _ h =>
    have hmt : t.m64 = true := (m64_of_run h).symm.trans hm
    have hret : (dispatch 0xC2 : Cold β U32).run t = retNearImm.run t := by
      rw [dispatch_calm (by decide) (by decide)]
      rfl
    rw [Bounded.run_bind, Fallible.bind_of_ok (run_useBranchOsize hmt)] at h
    have hsame := ReadsOn.fetch16 _ _ _ h
    refine ⟨adjustSp (n.setWidth 64) >>= fun _ => pure 10,
      .bytes _ 10, hsame.osize,
      Cpu.wideStack_congr hsame.prefix66 hsame.rex, ?_⟩
    rw [hret]
    unfold retNearImm
    rw [Bounded.run_bind, Fallible.bind_of_ok (run_useBranchOsize hmt),
      Bounded.run_bind, Fallible.bind_of_ok h]
  | @plainDecoded d _ hdec h =>
    obtain ⟨hop, hz⟩ := hdec.near.2.2.1 rfl
    have hret : (execDecoded d : Calm β U32) = Exec.retNear d := by
      rw [execDecoded, hop]
    refine ⟨pure 10, .nothing 10, ?_⟩
    rw [hret]
    unfold Exec.retNear
    rw [Bounded.run_bind, Fallible.bind_of_ok h]
    cases h
    exact ⟨hz, Cpu.wideStack_congr rfl rfl, rfl⟩
  | @immDecoded d _ hdec h =>
    obtain ⟨hop, hz⟩ := hdec.near.2.2.2 rfl
    have hret : (execDecoded d : Calm β U32) = Exec.retNearImm d := by
      rw [execDecoded, hop]
    refine ⟨adjustSp d.imm >>= fun _ => pure 10, .bytes _ 10, ?_⟩
    rw [hret]
    unfold Exec.retNearImm
    rw [Bounded.run_bind, Fallible.bind_of_ok h]
    cases h
    exact ⟨hz, Cpu.wideStack_congr rfl rfl, rfl⟩

-- ======== bytes consumed

/-- A check that passes moves nothing. -/
theorem run_raiseIf_ok {c : Prop} [Decidable c] {e : Exception}
    {s s' : Machine β} {u : Unit}
    (h : (raiseIf c e : Calm β Unit).run s = (.ok u, s')) : ¬ c ∧ s' = s := by
  rw [run_raiseIf] at h
  by_cases hc : c
  · rw [if_pos hc] at h
    cases h
  · rw [if_neg hc] at h
    cases h
    exact ⟨hc, rfl⟩

/-- A successful run moves RIP on by `n`. -/
def Advances {α : Type} (x : Calm β α) (n : U64) : Prop :=
  ∀ t a t', x.run t = (.ok a, t') → t'.regs.rip = t.regs.rip + n

/-- A fetch advances RIP past what it has read. -/
theorem Advances.fetch8 : Advances (fetch8 : Calm β U8) 1 := by
  intro t b t' h
  unfold X64.fetch8 at h
  simp only [Bounded.run_bind, Fallible.bind_eq_ok] at h
  obtain ⟨_, _, hself, _, _, hraise, _, _, hnote, _, _, hself', _, _, hraise',
    _, t₁, hbyte, _, _, hrip, hret⟩ := h
  cases hself
  obtain ⟨-, rfl⟩ := run_raiseIf_ok hraise
  cases hnote
  cases hself'
  obtain ⟨-, rfl⟩ := run_raiseIf_ok hraise'
  have hregs := (MemOnly.fetchByte _ _ _ _ hbyte).1
  cases hrip
  cases hret
  show t₁.regs.rip + 1 = _
  rw [hregs]
  rfl

/-- A wide fetch consumes as much as its two halves. -/
theorem Advances.fetchOr {w : Nat} {n : U8}
    {rd : U64 → Calm β (BitVec (w + w))}
    {half : Calm β (BitVec w)} {m : U64} (hhalf : Advances half m)
    (hn : n.setWidth 64 = m + m) :
    Advances (fetchOr (fetchWide n rd) half) (m + m) := by
  intro t v t' h
  unfold X64.fetchOr at h
  rw [Bounded.run_bind, Fallible.bind_eq_ok] at h
  obtain ⟨o, t₁, hwide, h⟩ := h
  unfold X64.fetchWide at hwide
  rw [Bounded.run_bind, Fallible.bind_of_ok (run_self t)] at hwide
  split at hwide
  case isTrue =>
    cases hwide
    dsimp only at h
    rw [X64.readHalves] at h
    simp only [Bounded.run_bind, Fallible.bind_eq_ok] at h
    obtain ⟨l, t₂, hl, r, t₃, hr, hret⟩ := h
    cases hret
    rw [hhalf _ _ _ hr, hhalf _ _ _ hl, BitVec.add_assoc]
  case isFalse =>
    simp only [Bounded.run_bind, Fallible.bind_eq_ok] at hwide
    obtain ⟨u, t₂, hread, _, _, hnote, _, _, hrip, hret⟩ := hwide
    cases hnote
    cases hrip
    cases hret
    cases h
    exact congrArg (t.regs.rip + ·) hn

theorem Advances.fetch32 : Advances (fetch32 : Calm β U32) 4 :=
  .fetchOr (m := 2) (.fetchOr (m := 1) .fetch8 rfl) rfl

-- ======== calling

/-- A store works on memory alone. -/
theorem MemOnly.linWriteSplit (lin : U64) (n : Nat)
    (hn : n + 1 < 4096) (v : U64) :
    MemOnly (linWriteSplit lin n hn v : Calm β Unit) := by
  intro s a s' h
  unfold X64.linWriteSplit at h
  dsimp only at h
  rw [Fallible.bind_eq_ok] at h
  obtain ⟨ps, s₁, hps, h⟩ := h
  cases h
  obtain ⟨hr, hd⟩ := MemOnly.translateAll _ _ _ _ hps
  exact ⟨hr, hd⟩

theorem MemOnly.linWrite16 (lin : U64) (v : U16) :
    MemOnly (linWrite16 lin v : Calm β Unit) := by
  unfold X64.linWrite16
  refine MemOnly.self.bind fun s => ?_
  split
  · exact .stampedStore _ _ _ _
  split
  · exact (MemOnly.translate _ _).bind fun _ => .pageStore _ _ _ _ _
  · exact .linWriteSplit _ _ _ _

theorem MemOnly.linWrite64 (lin : U64) (v : U64) :
    MemOnly (linWrite64 lin v : Calm β Unit) := by
  unfold X64.linWrite64
  refine MemOnly.self.bind fun s => ?_
  split
  · exact .stampedStore _ _ _ _
  split
  · exact (MemOnly.translate _ _).bind fun _ => .pageStore _ _ _ _ _
  · exact .linWriteSplit _ _ _ _

/-- What a CALL does after its push: branch. -/
def Jumps (k : Calm β U32) : Prop :=
  ∀ t n t', k.run t = (.ok n, t') → ∃ ip,
    t' = t.withHot { t.regs.toHotRegs with rip := ip }

/-- The two ways to a target. -/
theorem Jumps.setIp (ip : U64) (n : U32) :
    Jumps (setIp ip >>= fun _ => pure n : Calm β U32) := by
  intro t n' t' h
  unfold X64.setIp at h
  simp only [Bounded.run_bind, Fallible.bind_eq_ok] at h
  obtain ⟨_, _, ⟨_, _, hself, _, _, hraise, hrip⟩, hret⟩ := h
  cases hself
  obtain ⟨-, rfl⟩ := run_raiseIf_ok hraise
  cases hrip
  cases hret
  exact ⟨_, rfl⟩

theorem Jumps.jumpRel (rel : U64) (n : U32) :
    Jumps (jumpRel rel >>= fun _ => pure n : Calm β U32) := by
  intro t n' t' h
  unfold X64.jumpRel at h
  rw [bind_assoc, Bounded.run_bind, Fallible.bind_of_ok (run_self t)] at h
  exact Jumps.setIp _ n t n' t' h

/-- A push of `n` bytes that writes through `wr`. -/
theorem run_pushed {wr : Calm β Unit} (hwr : MemOnly wr)
    {k : Calm β U32} (hk : Jumps k)
    {t s' : Machine β} {n : U64} {c : U32} (hm : t.m64 = true)
    (hrun : (wr >>= fun _ => adjustSp (-n) >>= fun _ => k).run t
      = (.ok c, s')) :
    s'.regs.gpr reg.RSP = t.regs.gpr reg.RSP - n
      ∧ ∃ t₁ r, wr.run t = (.ok (), t₁) ∧ s' = t₁.withHot r
      ∧ r.rflags = t₁.regs.rflags := by
  rw [Bounded.run_bind, Fallible.bind_eq_ok] at hrun
  obtain ⟨_, t₁, hwr₁, hrun⟩ := hrun
  have hm₁ : t₁.m64 = true := (m64_of_run hwr₁).trans hm
  rw [Bounded.run_bind, Fallible.bind_of_ok (run_adjustSp hm₁ _)] at hrun
  obtain ⟨ip, rfl⟩ := hk _ _ _ hrun
  refine ⟨?_, t₁, _, hwr₁, rfl, rfl⟩
  rw [BitVec.sub_eq_add_neg, ← (hwr _ _ _ hwr₁).1]
  exact HotRegs.rsp_setReg64 t₁.regs.toHotRegs _

/-- On the way to its push a CALL leaves the registers, the prefixes and
the mode alone. -/
structure Ahead (s t : Machine β) : Prop where
  m64 : t.m64 = s.m64
  gpr : t.regs.gpr = s.regs.gpr
  prefix66 : t.prefix66 = s.prefix66
  rex : t.rex = s.rex

namespace Ahead

variable {s t u : Machine β}

omit [Bus β] in
/-- What lies ahead of the instruction, along its parts. -/
theorem trans (h : Ahead s t) (h' : Ahead t u) : Ahead s u :=
  ⟨h'.m64.trans h.m64, h'.gpr.trans h.gpr, h'.prefix66.trans h.prefix66,
    h'.rex.trans h.rex⟩

omit [Bus β] in
theorem osize (s : Machine β) (z : OpSize) :
    Ahead s (s.withDecode { s.toDecodeState with osize := z }) :=
      ⟨rfl, rfl, rfl, rfl⟩

/-- Reading an operand goes ahead. -/
theorem readsOn {α : Type} {x : Calm β α} (hx : ReadsOn x) {a : α}
    (h : x.run s = (.ok a, t)) :
    Ahead s t :=
  have hsame := hx _ _ _ h
  ⟨m64_of_run h, hsame.gpr, hsame.prefix66, hsame.rex⟩

end Ahead

/-- A LOCK prefix that is not allowed was not there. -/
theorem run_lockCheck_false {s t : Machine β}
    (h : (lockCheck false).run s = (.ok (), t)) : t = s := by
  unfold lockCheck at h
  rw [Bounded.run_bind, Fallible.bind_of_ok (run_self s), whenever] at h
  split at h
  · rw [Bounded.run_bind, Fallible.bind_eq_ok] at h
    obtain ⟨_, _, hraise, -⟩ := h
    exact absurd rfl (run_raiseIf_ok hraise).1
  · cases h
    rfl

/-- What a near CALL runs from the push on. -/
theorem NearCall.body {s s' : Machine β} {call : Exec β U32}
    {next : U64} {c : U32}
    (h : NearCall s call next) (hm : s.m64 = true)
    (hok : call s = (.ok c, s')) :
    ∃ t k, Jumps k ∧ Ahead s t ∧ t.regs.rip = next
      ∧ (push t.regs.rip >>= fun _ => k).run t = (.ok c, s') := by
  cases h with
  | rel =>
    have hcall : (dispatch 0xE8 : Cold β U32).run s = callRel.run s := by
      rw [dispatch_calm (by decide) (by decide)]
      rfl
    rw [hcall] at hok
    unfold callRel fetchRel at hok
    rw [Bounded.run_bind, Fallible.bind_of_ok (run_useBranchOsize hm),
      bind_assoc, Bounded.run_bind, Fallible.bind_of_ok (run_self _)] at hok
    dsimp only [Machine.toDecodeState_withDecode, fetchRelAt] at hok
    rw [if_neg (by decide), map_eq_pure_bind, bind_assoc, Bounded.run_bind,
      Fallible.bind_eq_ok] at hok
    obtain ⟨rel, t, hfetch, hok⟩ := hok
    rw [pure_bind, Bounded.run_bind, Fallible.bind_of_ok (run_self t)] at hok
    have hrip : t.regs.rip = s.regs.rip + 4 := 
      Advances.fetch32 (s.withDecode { s.toDecodeState with osize := O64 })
        _ _ hfetch
    exact ⟨t, _, Jumps.jumpRel _ 7,
      (Ahead.osize s O64).trans (.readsOn .fetch32 hfetch), hrip, hok⟩
  | @rm m op s₁ hmodrm hsub =>
    have hcall : (dispatch 0xFF : Cold β U32).run s = group5.run s := rfl
    rw [hcall] at hok
    have h3 : m.sub ≠ 3 := by rw [hsub]; decide
    have h5 : m.sub ≠ 5 := by rw [hsub]; decide
    have hcalm : (group5Calm m op : Calm β U32) = callRm op := by
      rw [group5Calm, hsub]
      rfl
    unfold group5 at hok
    rw [Bounded.run_bind, Bounded.run_lift, Fallible.bind_of_ok hmodrm] at hok
    dsimp only at hok
    rw [if_neg h3, if_neg h5, hcalm, hsub,
      show decide ((2 : U8) < 2) = false from rfl, Bool.and_false,
      Bounded.run_bind, Bounded.run_lift, Fallible.bind_eq_ok] at hok
    obtain ⟨_, t₀, hlock, hok⟩ := hok
    obtain rfl := run_lockCheck_false hlock
    have hm₀ : t₀.m64 = true := (m64_of_run hmodrm).trans hm
    rw [Bounded.run_lift] at hok
    unfold callRm at hok
    rw [Bounded.run_bind, Fallible.bind_of_ok (run_useBranchOsize hm₀),
      Bounded.run_bind, Fallible.bind_eq_ok] at hok
    obtain ⟨v, t, hread, hok⟩ := hok
    rw [Bounded.run_bind, Fallible.bind_of_ok (run_self t)] at hok
    have hahead : Ahead s t :=
      ((Ahead.readsOn .modrm hmodrm).trans (.osize _ O64)).trans
      (.readsOn (MemOnly.readOp op).readsOn hread)
    exact ⟨t, _, Jumps.setIp v _, hahead,
      congrArg (·.rip) (MemOnly.readOp op _ _ _ hread).1, hok⟩
  | @relDecoded d hdec =>
    obtain ⟨hop, hz⟩ := hdec.near.1 rfl
    have hcall :
      (execDecoded d : Calm β U32) = Exec.callRel d := by rw [execDecoded, hop]
    rw [hcall] at hok
    unfold Exec.callRel at hok
    rw [Bounded.run_bind, Fallible.bind_of_ok (run_setOsize _ s),
      Bounded.run_bind, Fallible.bind_of_ok (run_self _)] at hok
    exact ⟨_, _, Jumps.jumpRel _ 7, .osize s d.osize, rfl, hok⟩
  | @rmDecoded d hdec hop =>
    have hcall :
      (execDecoded d : Calm β U32) = Exec.callRm d := by rw [execDecoded, hop]
    rw [hcall] at hok
    unfold Exec.callRm eaOperand at hok
    rw [Bounded.run_bind, Fallible.bind_of_ok (run_setOsize _ s), bind_assoc,
      Bounded.run_bind, Fallible.bind_of_ok (run_self _), pure_bind,
      Bounded.run_bind, Fallible.bind_eq_ok] at hok
    obtain ⟨v, t, hread, hok⟩ := hok
    rw [Bounded.run_bind, Fallible.bind_of_ok (run_self t)] at hok
    exact ⟨t, _, Jumps.setIp v _,
      (Ahead.osize s _).trans (.readsOn (MemOnly.readOp _).readsOn hread),
      congrArg (·.rip) (MemOnly.readOp _ _ _ _ hread).1, hok⟩

section Memory

variable [PlainRam β]

omit [Bus β] [PlainRam β] in
/-- RFLAGS apart, the hot registers have no part in the privilege of an
access. -/
theorem Machine.userAccess_withHot {s : Machine β} {r : HotRegs}
    (h : r.rflags = s.regs.rflags) :
    (s.withHot r).userAccess = s.userAccess := by
  unfold Cpu.userAccess Cpu.cpl Cpu.protectedMode
  rw [show (s.withHot r).regs.rflags = s.regs.rflags from h]
  rfl

/-- A stored word stays while registers move. -/
theorem Machine.Stored.withHot {s : Machine β} {lin v : U64}
    (h : s.Stored lin v) {r : HotRegs}
    (hr : r.rflags = s.regs.rflags) : (s.withHot r).Stored lin v := by
  refine ⟨fun i hi hp => ?_, h.bytes⟩
  have hhit := h.ready i hi hp
  rw [tlbHit] at hhit ⊢
  dsimp only [Cpu.tlbPermits] at hhit ⊢
  rw [userAccess_withHot hr]
  exact hhit

/-- The body of every near CALL: it is lawful exactly when its push is
wide. -/
theorem callLaw_iff {k : Calm β U32} (hk : Jumps k)
    {t s' : Machine β} {c : U32}
    (hm : t.m64 = true)
    (hrun : (push t.regs.rip >>= fun _ => k).run t = (.ok c, s')) :
    CallLaw s' (t.regs.gpr reg.RSP) t.regs.rip ↔ t.WideStack := by
  unfold push at hrun
  rw [bind_assoc, Bounded.run_bind, Fallible.bind_of_ok (run_self t)] at hrun
  by_cases hw : t.WideStack
  case pos =>
    refine iff_of_true ?_ hw
    rw [Cpu.stackOsize_wide hm hw] at hrun
    dsimp only [pushSized, push64] at hrun
    rw [bind_assoc, Bounded.run_bind, Fallible.bind_of_ok (run_self t),
      Cpu.pushOff_m64 hm, bind_assoc] at hrun
    have hwrite :
      MemOnly (write64 reg.SS (t.regs.gpr reg.RSP - 8)
      t.regs.rip : Calm β Unit) :=
      (MemOnly.linAddr _ _ _ _).bind fun _ => .linWrite64 _ _
    obtain ⟨hrsp, t₁, r, hstore, rfl, hflags⟩ := run_pushed hwrite hk hm hrun
    obtain ⟨hcan, hstore⟩ := (run_stack hm).1 hstore
    have hm₁ : (t₁.withHot r).m64 = true := (m64_of_run hstore).trans hm
    have hstored := (stored_linWrite64 hstore).withHot hflags
    exact ⟨hrsp, _, (run_stack hm₁).2 ⟨hcan, hstored.read⟩⟩
  case neg =>
    refine iff_of_false (fun hlaw => ?_) hw
    rw [Cpu.stackOsize_narrow hm hw] at hrun
    dsimp only [pushSized, push16] at hrun
    rw [bind_assoc, Bounded.run_bind, Fallible.bind_of_ok (run_self t),
      Cpu.pushOff_m64 hm, bind_assoc] at hrun
    have hwrite : MemOnly (write16 reg.SS (t.regs.gpr reg.RSP - 2)
        (t.regs.rip.setWidth 16) : Calm β Unit) :=
      (MemOnly.linAddr _ _ _ _).bind fun _ => .linWrite16 _ _
    obtain ⟨hrsp, -⟩ := run_pushed hwrite hk hm hrun
    have hlaw' := hlaw.pointer
    rw [hrsp, BitVec.sub_right_inj] at hlaw'
    cases hlaw'

/-- A near CALL and the near RET after it obey their laws exactly when
neither carries an operand-size prefix without REX.W. -/
theorem call_ret_lawful_iff {s s' t t₁ : Machine β}
    {call ret : Exec β U32} {next imm : U64}
    {c : U32} (hm : s.m64 = true) (hcall : NearCall s call next)
    (hok : call s = (.ok c, s'))
    (hret : NearRet t ret imm t₁) (hfollows : Follows s' t₁) :
    CallLaw s' (s.regs.gpr reg.RSP) next
      ∧ RetLaw (ret t) next (s.regs.gpr reg.RSP + imm)
      ↔ s.WideStack ∧ t.WideStack := by
  obtain ⟨u, k, hk, hahead, hnext, hrun⟩ := hcall.body hm hok
  obtain ⟨after, hafter, hz, hwide, hbody⟩ := hret.body hfollows.m64
  have hcallLaw := callLaw_iff hk (hahead.m64.trans hm) hrun
  rw [hahead.gpr, hnext,
    Cpu.wideStack_congr hahead.prefix66 hahead.rex] at hcallLaw
  rw [← hcallLaw, hbody, ← hwide]
  refine and_congr_right fun hlaw => ?_
  have hsp : t₁.regs.gpr reg.RSP = s.regs.gpr reg.RSP - 8 :=
    hfollows.pointer.trans hlaw.pointer
  have hslot : t₁.Holds (t₁.regs.gpr reg.RSP) next := by
    rw [hfollows.pointer]
    refine hfollows.slot next ?_
    rw [hlaw.pointer]
    exact hlaw.slot
  have hretLaw := retLaw_iff hfollows.m64 hz hafter hslot
  rw [hsp, BitVec.sub_add_cancel] at hretLaw
  exact hretLaw

end Memory

/-- A CALL to the next instruction, its opcode read and its displacement 0
ahead, with the stack's page in the TLB and the code's in the fetch
cache. -/
def callNext (p66 : Bool) : Machine (FlatBus Unit) :=
  { Cpu.new with
    regs := Machine.longFlatRegs Registers.new 0x101 0x2000
    m64 := true
    prefix66 := p66
    osize := O32
    asize := O64
    ilen := 1
    fetchTag := 0
    fetchPage := 0
    tlb := ⟨upd Tlb.new.entries 1
      { tag := 1, phys := 0x1000, user := true, writable := true, nx := false, dirty := true,
        framed := rfl }⟩
    bus := { mem := fun _ => 0, ports := () } }

/-- The machine after that CALL. -/
def calledNext (p66 : Bool) : Machine (FlatBus Unit) :=
  ((dispatch 0xE8).run (callNext p66)).2

/-- The call to the next instruction, run. -/
theorem callNext_runs :
    (dispatch 0xE8).run (callNext false) = (.ok 7, calledNext false) := rfl

/-- What follows it is its return. -/
theorem calledNext_follows :
    Follows (calledNext false)
      ((calledNext false).withDecode { (calledNext false).toDecodeState with osize := O64 }) := by
  have hread :
      (read64 reg.SS ((calledNext false).regs.gpr reg.RSP)).run
      (calledNext false)
      = (.ok 0x105, calledNext false) := rfl
  refine ⟨rfl, rfl, fun v hv => ?_⟩
  obtain ⟨u, hu⟩ := hv
  rw [hread] at hu
  obtain rfl : (0x105 : U64) = v := Except.ok.inj (congrArg Prod.fst hu)
  exact ⟨_, rfl⟩

/-- Without the prefix the pair is lawful. -/
theorem call_ret_lawful_iff_callNext :
    CallLaw (calledNext false) 0x2000 0x105
      ∧ RetLaw ((dispatch 0xC3).run (calledNext false)) 0x105 (0x2000 + 0) :=
  (call_ret_lawful_iff (s := callNext false) rfl .rel
    callNext_runs (.plain rfl)
    calledNext_follows).2 ⟨fun h => Bool.noConfusion h.1,
      fun h => Bool.noConfusion h.1⟩

/-- Under a 66 prefix the CALL pushes two bytes: the law fails. -/
theorem callNext66_unlawful :
    NearCall (callNext true) (dispatch 0xE8).run 0x105
      ∧ (∃ n, (dispatch 0xE8).run (callNext true) = (.ok n, calledNext true))
      ∧ ¬ CallLaw (calledNext true) ((callNext true).regs.gpr reg.RSP)
        0x105 := by
  refine ⟨.rel, ⟨7, rfl⟩, fun h => ?_⟩
  have hne : (calledNext true).regs.gpr reg.RSP
    ≠ (callNext true).regs.gpr reg.RSP - 8 := by decide
  exact hne h.pointer

end Remu.X64
