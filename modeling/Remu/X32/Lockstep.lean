/-
What a decode depends on, in the 32-bit core.

When the physical address of an instruction is known without a walk and its
bytes lie in one page, fetching it is reading consecutive bytes of flat
memory: nothing but EIP and the decode state moves. Two machines are in
`Sync` when their decode states are equal, they agree on the code size and
on the extensions, and stand at the same offset of the same bytes. The
decoder keeps them so (`Abreast`): a success on the first machine within the
`n` bytes is matched on the second, with the same value. So a record depends
on the bytes and those two switches, and on nothing else (`DecodesTo`).
-/
import Remu.X32.JitDecode
import Remu.X32.TlbSound

namespace Remu.X32

open Word

-- ======== the addresses

namespace Cpu

/-- The physical address `eip` names, when it is known without a walk. -/
def fetchPhys (c : Cpu) (eip : U32) : Option U32 :=
  let lin := (c.regs.seg reg.CS).base + eip
  if !c.paging then some lin else c.tlb.peek lin (c.cpl == 3)

/-- The cache is keyed by the physical address of EIP. -/
theorem icachePhys_eq (c : Cpu) : c.icachePhys = c.fetchPhys c.regs.eip := rfl

end Cpu

/-- A TLB entry holds a page, so its offset bits are clear. -/
theorem TlbEntry.aligned (e : TlbEntry) : e.phys &&& 0xFFF = 0 :=
  Frame.aligned ⟨e.phys, e.framed⟩

/-- A peek keeps the offset in the page. -/
theorem Tlb.peek_offset {t : Tlb} {lin phys : U32} {user : Bool}
    (h : t.peek lin user = some phys) :
    phys &&& 0xFFF = lin &&& 0xFFF := by
  unfold Tlb.peek at h
  dsimp only at h
  split at h
  · cases h
    exact offset_or _ _ (TlbEntry.aligned _)
  · cases h

/-- The physical addresses of a page follow each other. -/
theorem Tlb.peek_add {t : Tlb} {lin phys : U32} {user : Bool} {i : Nat}
    (h : t.peek lin user = some phys)
    (hpage : (phys &&& 0xFFF).toNat + i < 0x1000) :
    t.peek (lin + BitVec.ofNat 32 i) user
      = some (phys + BitVec.ofNat 32 i) := by
  rw [peek_offset h, toNat_and_FFF] at hpage
  have hsame := page_add lin i hpage
  unfold Tlb.peek at h ⊢
  dsimp only at h ⊢
  rw [hsame]
  split at h
  case isFalse => cases h
  case isTrue hhit =>
    cases h
    rw [if_pos hhit]
    congr 1
    have hal := (t.entries (slot (lin >>> 12))).aligned
    generalize (t.entries (slot (lin >>> 12))).phys = p at hal ⊢
    have h0 : p.toNat % 4096 = 0 := by
      rw [← toNat_and_FFF, hal]
      rfl
    have hp := p.isLt
    apply BitVec.eq_of_toNat_eq
    rw [toNat_or_offset _ _ hal, BitVec.toNat_add, BitVec.toNat_add,
      toNat_or_offset _ _ hal, BitVec.toNat_ofNat]
    omega

/-- Within a page, physical addresses follow linear ones. -/
theorem Cpu.fetchPhys_add {c : Cpu} {eip phys : U32} {i : Nat}
    (hphys : c.fetchPhys eip = some phys)
    (hpage : (phys &&& 0xFFF).toNat + i < 0x1000) :
    c.fetchPhys (eip + BitVec.ofNat 32 i)
      = some (phys + BitVec.ofNat 32 i) := by
  unfold Cpu.fetchPhys at hphys ⊢
  dsimp only at hphys ⊢
  rw [← BitVec.add_assoc]
  split at hphys
  case isTrue hoff =>
    cases hphys
    rw [if_pos hoff]
  case isFalse hon =>
    rw [if_neg hon]
    exact Tlb.peek_add hphys hpage

-- ======== the stream

variable {π : Type} {α γ : Type}

/-- The instruction at `start` is `code`, `n` bytes of it fetched from
consecutive addresses, and the fetch stands behind the first `ilen` of
them. -/
structure Streams (code : Nat → U8) (start : U32) (n : Nat)
    (s : Machine (FlatBus π)) : Prop where
  eip : s.regs.eip = start + BitVec.ofNat 32 s.ilen.toNat
  user : s.supervisorOverride = false
  bytes : ∃ base, ∀ i < n,
    s.fetchPhys (start + BitVec.ofNat 32 i) = some (base + BitVec.ofNat 32 i)
    ∧ s.bus.mem (base + BitVec.ofNat 32 i) = code i

/-- The first `n` bytes from `start` pass the limit check. -/
def Readable (start : U32) (n : Nat) (s : Machine (FlatBus π)) : Prop :=
  ∀ i < n, s.fetchOk (start + BitVec.ofNat 32 i) = true

/-- Only the decode state and EIP moved. -/
def Quiet (s s' : Machine (FlatBus π)) : Prop :=
  s' = (s.withDecode s'.toDecodeState).withHot { s.regs.toHotRegs with eip := s'.regs.eip }

/-- The state after a byte is consumed. -/
def Machine.advance (s : Machine (FlatBus π)) : Machine (FlatBus π) :=
  (s.withDecode { s.toDecodeState with ilen := s.ilen + 1 }).withHot
    { s.regs.toHotRegs with eip := s.regs.eip + 1 }

/-- The next byte of the stream is the one memory holds at EIP. -/
theorem Streams.next {code : Nat → U8} {start : U32} {n : Nat}
    {s : Machine (FlatBus π)}
    (h : Streams code start n s) (hn : s.ilen.toNat < n) :
    ∃ p, s.icachePhys = some p ∧ s.bus.mem p = code s.ilen.toNat := by
  obtain ⟨base, hbytes⟩ := h.bytes
  refine ⟨_, ?_, (hbytes _ hn).2⟩
  rw [Cpu.icachePhys_eq, h.eip]
  exact (hbytes _ hn).1

/-- After a byte the rest of the stream lies ahead. -/
theorem Streams.advance {code : Nat → U8} {start : U32} {n : Nat}
    {s : Machine (FlatBus π)}
    (h : Streams code start n s) (hlt : s.ilen < 15) :
    Streams code start n s.advance where
  eip := by
    have hlen : (s.ilen + 1).toNat = s.ilen.toNat + 1 := by bv_omega
    show s.regs.eip + 1 = start + BitVec.ofNat 32 (s.ilen + 1).toNat
    rw [h.eip, hlen, BitVec.ofNat_add, BitVec.add_assoc]
    rfl
  user := h.user
  bytes := h.bytes

variable [Ports π]

/-- At a known address a fetched byte is a byte of memory. -/
theorem run_linRead8_known {s : Machine (FlatBus π)} {p : U32}
    (huser : s.supervisorOverride = false)
    (hp : s.icachePhys = some p) :
    (linRead8 s.fetchLin).run s = (.ok (s.bus.mem p), s) := by
  unfold Cpu.icachePhys at hp
  unfold linRead8
  rw [Bounded.run_bind, Fallible.bind_of_ok (run_self s)]
  split at hp
  case isTrue hoff =>
    cases hp
    rw [if_pos hoff]
    rfl
  case isFalse hon =>
    rw [if_neg hon]
    unfold Tlb.peek at hp
    dsimp only at hp
    split at hp
    case isFalse => cases hp
    case isTrue hhit =>
    have hua : s.userAccess = (s.cpl == 3) := by
      rw [Cpu.userAccess, huser]
      exact Bool.and_true _
    have htlb : s.tlbHit s.fetchLin false = true := by
      unfold Machine.tlbHit
      dsimp only
      rw [Cpu.tlbPermits, hua, ← hhit]
      cases (s.cpl == 3) <;> simp
    obtain ⟨q, hq, hval⟩ := run_translate_hit htlb
    rw [Bounded.run_bind, Fallible.bind_of_ok hq]
    have hphys : q.val = p := hval.trans (Option.some.inj hp)
    rw [hphys]
    rfl

/-- A byte fetch at a known address: two checks, then the byte. -/
theorem run_fetch8_known {s : Machine (FlatBus π)} {p : U32}
    (huser : s.supervisorOverride = false) (hp : s.icachePhys = some p) :
    fetch8.run s
      = if 15 ≤ s.ilen then (.error Exception.ud, s)
        else if !s.fetchOk s.regs.eip then
          (.error (Exception.gp 0),
            s.withDecode { s.toDecodeState with ilen := s.ilen + 1 })
        else (.ok (s.bus.mem p), s.advance) := by
  unfold fetch8
  rw [Bounded.run_bind, Fallible.bind_of_ok (run_self s), Bounded.run_bind]
  split
  case isTrue hlong =>
    exact Fallible.bind_of_error (by rw [run_raiseIf, if_pos hlong])
  case isFalse hshort =>
  rw [Fallible.bind_of_ok (by rw [run_raiseIf, if_neg hshort]),
    Bounded.run_bind, Fallible.bind_of_ok (run_modifyDecode _ _),
    Bounded.run_bind, Fallible.bind_of_ok (run_self _), Bounded.run_bind]
  split
  case isTrue hbad =>
    refine Fallible.bind_of_error ?_
    rw [run_raiseIf]
    exact if_pos hbad
  case isFalse hok =>
  have hbyte :=
    run_linRead8_known
      (s := s.withDecode { s.toDecodeState with ilen := s.ilen + 1 }) huser hp
  rw [Fallible.bind_of_ok (by rw [run_raiseIf]; exact if_neg hok),
    Bounded.run_bind, Fallible.bind_of_ok hbyte]
  rfl

-- ======== the relation

/-- What the decoder reads of a state besides instruction bytes. -/
structure SameView (s t : Machine (FlatBus π)) : Prop where
  decode : s.toDecodeState = t.toDecodeState
  ext : s.extensions = t.extensions

namespace SameView

variable {s t : Machine (FlatBus π)} (h : SameView s t)
include h

omit [Ports π]

/-- The decoder reads the same of both machines. -/
theorem segOr (d : U8) : s.segOr d = t.segOr d := by
  simp only [Cpu.segOr, h.decode]

theorem blank : s.blank = t.blank := by
  simp only [Cpu.blank, h.decode]

/-- The decoder starts from the same record on both machines. -/
theorem record (op : Op) (aux : U8) (wb : Bool) :
    s.record op aux wb = t.record op aux wb := by
  rw [Cpu.record, Cpu.record, h.blank]

end SameView

/-- `s`, which started as `o`, and `t` stand at the same place of the same
`n` instruction bytes. -/
structure Sync (o : Machine (FlatBus π)) (code : Nat → U8)
    (start start' : U32) (n : Nat)
    (s t : Machine (FlatBus π)) : Prop extends SameView s t where
  quiet : Quiet o s
  source : Streams code start n s
  target : Streams code start' n t
  /-- A machine is in step with itself. -/
  readable : t = s ∨ Readable start' n t

/-- A computation that keeps machines in step. -/
def Abreast (x : Calm (FlatBus π) α) : Prop :=
  ∀ o code start start' n,
    Fallible.Follows (fun s : Machine (FlatBus π) => s.ilen.toNat ≤ n)
      (Sync o code start start' n) x.run x.run

namespace Abreast

/-- The rules of what two machines do abreast. -/
theorem pure (a : α) : Abreast (pure a : Calm (FlatBus π) α) :=
  fun _ _ _ _ _ => .pure a

theorem throw (e : Exception) : Abreast (throw e : Calm (FlatBus π) α) :=
  fun _ _ _ _ _ => .throw e

/-- A sequence, each part abreast. -/
theorem bind {x : Calm (FlatBus π) α} {f : α → Calm (FlatBus π) γ}
    (hx : Abreast x) (hf : ∀ a, Abreast (f a)) :
    Abreast (x >>= f) :=
  fun o code start start' n => (hx o code start start' n).bind fun a =>
    hf a o code start start' n

theorem map {x : Calm (FlatBus π) α} (f : α → γ) (hx : Abreast x) :
    Abreast (f <$> x) := by
  rw [← bind_pure_comp]
  exact hx.bind fun _ => .pure _

theorem ite (c : Prop) [Decidable c] {x y : Calm (FlatBus π) α}
    (hx : Abreast x) (hy : Abreast y) :
    Abreast (if c then x else y) := by
  split
  · exact hx
  · exact hy

theorem raiseIf (c : Prop) [Decidable c] (e : Exception) :
    Abreast (raiseIf c e : Calm (FlatBus π) Unit) :=
  .ite c (.throw e) (.pure ())

/-- Reading the state is in step when only the view is used of it. -/
theorem self {f : Machine (FlatBus π) → Calm (FlatBus π) α}
    (hview : ∀ s t, SameView s t → f s = f t)
    (hf : ∀ s, Abreast (f s)) : Abreast (self >>= f) := by
  intro o code start start' n
  refine .get (f := fun s => (f s).run) (g := fun s => (f s).run)
    (fun {s a s'} h => ?_) fun {s t} hst => ?_
  · exact (hf s o code start start' n).back h
  · rw [← hview s t hst.toSameView]
    exact hf s o code start start' n

/-- A note that leaves the length counter alone. -/
theorem note {g : DecodeState → DecodeState} (hlen : ∀ d, (g d).ilen = d.ilen)
    (huser : ∀ d, (g d).supervisorOverride = d.supervisorOverride) :
    Abreast (modifyDecode g : Calm (FlatBus π) Unit) := by
  have hstream :
      ∀ {code start n} {s : Machine (FlatBus π)}, Streams code start n s →
      Streams code start n (s.withDecode (g s.toDecodeState)) := by
    intro code start n s hs
    refine ⟨?_, (huser _).trans hs.user, hs.bytes⟩
    have hl : (s.withDecode (g s.toDecodeState)).ilen = s.ilen := hlen _
    rw [hl]
    exact hs.eip
  intro o code start start' n
  refine ⟨fun {s a s'} hrun hle => ?_, fun {s t a s'} hst hrun _ => ?_⟩
  · cases hrun
    exact (congrArg BitVec.toNat (hlen s.toDecodeState)).symm.trans_le hle
  · cases hrun
    refine ⟨t.withDecode (g t.toDecodeState), rfl,
      ⟨congrArg g hst.decode, hst.ext⟩, ?_, hstream hst.source,
      hstream hst.target, hst.readable.imp_left ?_⟩
    · have hq := hst.quiet
      rw [Quiet] at hq ⊢
      rw [hq]
      rfl
    · rintro rfl
      rfl

/-- A byte fetch. -/
theorem fetch8 : Abreast (fetch8 : Calm (FlatBus π) U8) := by
  intro o code start start' n
  refine ⟨fun {s a s'} hrun hle => ?_, fun {s t a s'} hst hrun hle => ?_⟩
  · obtain ⟨-, hlen, hlt⟩ := run_fetch8 hrun
    bv_omega
  obtain ⟨-, hlen, hlt⟩ := run_fetch8 hrun
  have hn : s.ilen.toNat < n := by bv_omega
  have hilen : s.ilen = t.ilen := congrArg DecodeState.ilen hst.decode
  obtain ⟨p, hp, hmem⟩ := hst.source.next hn
  obtain ⟨q, hq, hmem'⟩ := hst.target.next (hilen ▸ hn)
  have hshort : ¬ 15 ≤ s.ilen := BitVec.not_le.2 hlt
  have hsource := run_fetch8_known hst.source.user hp
  rw [hrun, if_neg hshort] at hsource
  have htarget : X32.fetch8.run t = (.ok (s.bus.mem p), t.advance) := by
    rcases hst.readable with rfl | hread
    · split at hsource <;> cases hsource
      exact hrun
    · have hok : t.fetchOk t.regs.eip = true := by
        rw [hst.target.eip, ← hilen]
        exact hread _ hn
      rw [run_fetch8_known hst.target.user hq, if_neg (hilen ▸ hshort), hok,
        Bool.not_true, if_neg Bool.false_ne_true, hmem, hmem', hilen]
  split at hsource <;> cases hsource
  refine ⟨t.advance, htarget, ⟨?_, hst.ext⟩, ?_, hst.source.advance hlt,
    hst.target.advance (hilen ▸ hlt), hst.readable.imp_left ?_⟩
  · have hd := congrArg (fun d : DecodeState => { d with ilen := d.ilen + 1 })
      hst.decode
    exact hd
  · have hquiet := hst.quiet
    rw [Quiet] at hquiet ⊢
    rw [hquiet]
    rfl
  · rintro rfl
    rfl

-- ======== the immediates

/-- A fetch that crosses a page: its halves. -/
theorem readHalves {w : Nat} {lo hi : Calm (FlatBus π) (BitVec w)}
    (hlo : Abreast lo) (hhi : Abreast hi) :
    Abreast (readHalves lo hi) := hlo.bind fun _ => hhi.bind fun _ => .pure _

/-- The immediates. -/
theorem fetch16 : Abreast (fetch16 : Calm (FlatBus π) U16) :=
  .readHalves fetch8 fetch8

theorem fetch32 : Abreast (fetch32 : Calm (FlatBus π) U32) :=
  .readHalves fetch16 fetch16

theorem fetchSimm8 : Abreast (fetchSimm8 : Calm (FlatBus π) U32) :=
  fetch8.map _

theorem fetchByteImm : Abreast (fetchByteImm : Calm (FlatBus π) U32) :=
  fetch8.map _

theorem fetchImm : Abreast (fetchImm : Calm (FlatBus π) U32) :=
  .self (fun s t h => by simp only [h.decode]) fun _ =>
    .ite _ fetch32 (fetch16.map _)

theorem fetchRel : Abreast (fetchRel : Calm (FlatBus π) U32) :=
  .self (fun s t h => by simp only [h.decode]) fun _ =>
    .ite _ fetch32 (fetch16.map _)

theorem fetchDisp16 (md : U8) :
    Abreast (fetchDisp16 md : Calm (FlatBus π) U16) :=
  .ite _ (.pure _) (.ite _ (fetch8.map _) fetch16)

theorem fetchDisp (md : U8) : Abreast (fetchDisp md : Calm (FlatBus π) U32) :=
  .ite _ (.pure _) (.ite _ fetchSimm8 fetch32)

-- ======== the decoder

/-- The decoder, function by function as the source has them. -/
theorem ea16Formula (m : ModRm) (d : DecodedInsn) :
    Abreast (ea16Formula m d : Calm (FlatBus π) DecodedInsn) :=
  .ite _
    (fetch16.bind fun _ => .self (fun s t h => by rw [h.segOr])
      fun _ => .pure _)
    ((fetchDisp16 _).bind fun _ => .self (fun s t h => by rw [h.segOr])
      fun _ => .pure _)

theorem sibFormula (m : ModRm) (d : DecodedInsn) :
    Abreast (sibFormula m d : Calm (FlatBus π) (U8 × DecodedInsn)) := by
  refine fetch8.bind fun _ => bind ?_ fun _ => .pure _
  exact .ite _ (fetch32.bind fun _ => .pure _) (.pure _)

theorem ea32Formula (m : ModRm) (d : DecodedInsn) :
    Abreast (ea32Formula m d : Calm (FlatBus π) DecodedInsn) := by
  refine .ite _ (fetch32.bind fun _ => .self (fun s t h => by rw [h.segOr])
    fun _ => .pure _) ?_
  refine bind (.ite _ (sibFormula m d) (.pure _)) fun _ =>
    (fetchDisp _).bind fun _ => ?_
  exact .self (fun s t h => by rw [h.segOr]) fun _ => .pure _

/-- ModRM, SIB and displacement. -/
theorem decodeModrm (d : DecodedInsn) :
    Abreast (decodeModrm d : Calm (FlatBus π) (U8 × DecodedInsn)) := by
  refine fetch8.bind fun byte =>
    .ite _ (.pure _) (.self (fun s t h => by simp only [h.decode]) fun s => ?_)
  refine bind ?_ fun _ => .pure _
  exact .ite _ (ea32Formula _ _) (ea16Formula _ _)

theorem decodeRm (op : Op) (aux : U8) (wb : Bool) :
    Abreast (decodeRm op aux wb : Calm (FlatBus π) (U8 × DecodedInsn)) :=
  .self (fun s t h => by rw [h.record]) fun _ => decodeModrm _

theorem decodeRmOnly (op : Op) (aux : U8) (wb : Bool) :
    Abreast (decodeRmOnly op aux wb : Calm (FlatBus π) Decoded) :=
  (decodeRm _ _ _).bind fun _ => .pure _

variable {op : Op} {imm : Calm (FlatBus π) U32}

theorem decodeImm (aux : U8) (wb : Bool) (himm : Abreast imm) :
    Abreast (decodeImm op aux wb imm) :=
  .self (fun s t h => by simp only [h.record]) fun _ =>
    himm.bind fun _ => .pure _

theorem decodeRmImm (himm : Abreast imm) : Abreast (decodeRmImm op imm) :=
  (decodeRm _ _ _).bind fun _ => himm.bind fun _ => .pure _

theorem decodeGrpImm (himm : Abreast imm) : Abreast (decodeGrpImm op imm) :=
  (decodeRm _ _ _).bind fun _ => himm.bind fun _ => .pure _

theorem decodeMovImm (himm : Abreast imm) : Abreast (decodeMovImm op imm) :=
  (decodeRm _ _ _).bind fun _ => (raiseIf _ _).bind fun _ =>
    himm.bind fun _ => .pure _

theorem decodeShift (byCl : Bool) (himm : Abreast imm) :
    Abreast (decodeShift op byCl imm) :=
  (decodeRm _ _ _).bind fun _ => himm.bind fun _ => .pure _

theorem decodeOpReg (opcode : U8) (himm : Abreast imm) :
    Abreast (decodeOpReg op opcode imm) :=
  .self (fun s t h => by simp only [h.record]) fun _ =>
    himm.bind fun _ => .pure _

theorem decodeLea : Abreast (decodeLea : Calm (FlatBus π) Decoded) :=
  (decodeRm _ _ _).bind fun _ => (raiseIf _ _).bind fun _ => .pure _

theorem decodeGroup4 : Abreast (decodeGroup4 : Calm (FlatBus π) Decoded) :=
  (decodeRm _ _ _).bind fun _ => (raiseIf _ _).bind fun _ => .pure _

theorem decodeGroup5 : Abreast (decodeGroup5 : Calm (FlatBus π) Decoded) :=
  .self (fun s t h => by simp only [h.blank]) fun _ =>
    (decodeModrm _).bind fun _ => .pure _

theorem decodeAlu (opcode : U8) :
    Abreast (decodeAlu opcode : Calm (FlatBus π) Decoded) :=
  .ite _ (decodeRmOnly _ _ _) <| .ite _ (decodeRmOnly _ _ _) <|
  .ite _ (decodeRmOnly _ _ _) <| .ite _ (decodeRmOnly _ _ _) <|
  .ite _ (decodeImm _ _ fetchByteImm) <|
  .ite _ (decodeImm _ _ fetchImm) (.pure _)

theorem decode40 (opcode : U8) :
    Abreast (decode40 opcode : Calm (FlatBus π) Decoded) :=
  .ite _ (decodeOpReg _ (.pure _)) <| .ite _ (decodeOpReg _ (.pure _)) <|
  .ite _ (decodeOpReg _ (.pure _)) <| .ite _ (decodeOpReg _ (.pure _)) <|
  .ite _ (decodeImm _ _ fetchImm) <| .ite _ (decodeRmImm fetchImm) <|
  .ite _ (decodeImm _ _ fetchSimm8) <| .ite _ (decodeRmImm fetchSimm8) <|
  .ite _ (decodeImm _ _ fetchSimm8) (.pure _)

theorem decode80 (opcode : U8) :
    Abreast (decode80 opcode : Calm (FlatBus π) Decoded) :=
  .ite _ (decodeGrpImm fetchByteImm) <| .ite _ (decodeGrpImm fetchImm) <|
  .ite _ (decodeGrpImm fetchSimm8) <| .ite _ (decodeRmOnly _ _ _) <|
  .ite _ (decodeRmOnly _ _ _) <| .ite _ (decodeRmOnly _ _ _) <|
  .ite _ (decodeRmOnly _ _ _) <| .ite _ (decodeRmOnly _ _ _) <|
  .ite _ (decodeRmOnly _ _ _) <| .ite _ (decodeRmOnly _ _ _) <|
  .ite _ (decodeRmOnly _ _ _) <| .ite _ decodeLea <|
  .ite _ (decodeOpReg _ (.pure _)) <| .ite _ (decodeImm _ _ fetchByteImm) <|
  .ite _ (decodeImm _ _ fetchImm) <| .ite _ (decodeOpReg _ fetchByteImm) <|
  .ite _ (decodeOpReg _ fetchImm) (.pure _)

theorem decodeC0 (opcode : U8) :
    Abreast (decodeC0 opcode : Calm (FlatBus π) Decoded) :=
  .ite _ (decodeShift _ fetchByteImm) <| .ite _ (decodeShift _ fetchByteImm) <|
  .ite _ (decodeShift _ (.pure _)) <| .ite _ (decodeShift _ (.pure _)) <|
  .ite _ (decodeShift _ (.pure _)) <| .ite _ (decodeShift _ (.pure _)) <|
  .ite _ (decodeImm _ _ (fetch16.map _)) <| .ite _ (decodeImm _ _ (.pure _)) <|
  .ite _ (decodeMovImm fetchByteImm) <| .ite _ (decodeMovImm fetchImm) <|
  .ite _ (decodeImm _ _ fetchRel) <| .ite _ (decodeImm _ _ fetchRel) <|
  .ite _ (decodeImm _ _ fetchSimm8) <| .ite _ decodeGroup4 <|
  .ite _ decodeGroup5 (.pure _)

/-- The two-byte opcodes. -/
theorem decode0F (op2 : U8) :
    Abreast (decode0F op2 : Calm (FlatBus π) Decoded) :=
  .self (fun s t h => by simp only [h.ext]) fun _ =>
  .ite _ (decodeImm _ _ fetchRel) <| .ite _ (decodeRmOnly _ _ _) <|
  .ite _ (decodeRmOnly _ _ _) <| .ite _ (decodeRmOnly _ _ _) <|
  .ite _ (decodeRmOnly _ _ _) <| .ite _ (decodeRmOnly _ _ _) <|
  .ite _ (decodeRmOnly _ _ _) <| .ite _ (decodeRmOnly _ _ _) (.pure _)

/-- The whole table. -/
theorem decodeOp (opcode : U8) :
    Abreast (decodeOp opcode : Calm (FlatBus π) Decoded) :=
  .ite _ (fetch8.bind decode0F) <| .ite _ (decodeAlu _) <|
  .ite _ (decode40 _) <| .ite _ (decode80 _) (decodeC0 _)

/-- The prefixes, by induction on how many are left. -/
theorem scanLoop (db : Bool) (fuel : Nat) (npfx : U32) :
    Abreast (scanLoop db fuel npfx : Calm (FlatBus π) (U8 × U32)) := by
  induction fuel generalizing npfx with
  | zero => exact .throw _
  | succ fuel ih =>
    have hnote : ∀ b,
      Abreast (modifyDecode (·.notePrefix db b) : Calm (FlatBus π) Unit) :=
      fun b => note (fun _ => rfl) fun _ => rfl
    exact fetch8.bind fun b => .ite _ ((hnote b).bind fun _ => ih _) (.pure _)

end Abreast

end Remu.X32
