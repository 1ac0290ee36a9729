/-
The instruction cache of the 32-bit core never serves a stale record.

An entry is good while any machine that can fetch the bytes at its address,
in the code size and with the extensions of its key, decodes its record from
them (`Entry.Good`). The stamps keep live entries good: a store stamps the
pages it writes, a fill remembers what decoding has just found, and no other
step touches memory or the cache. There is no fetch cache beside the TLB, so
this is the whole invariant, and no mode change can break it: what a mode
changes about a decode is in the key.
-/
import Remu.X32.Lockstep
import Remu.X32.Stamps

namespace Remu.X32

open Word

variable {π : Type} [Ports π] {α : Type}

-- ======== the records

/-- A hot decode, the other way round. -/
theorem tryDecode_of_hot {opcode : U8} {npfx : U32}
    {s s' : Machine (FlatBus π)} {d : DecodedInsn}
    (hn : ¬ 7 < npfx) (h : (decodeOp opcode).run s = (.ok (.hot d), s')) :
    (tryDecode opcode npfx).run s
      = (.ok (.hot ({ d with len := s'.ilen }.setNpfx (npfx.setWidth 8))), s') := by
  rw [tryDecode, Bounded.run_bind, Fallible.bind_of_ok (run_self s), if_neg hn,
    Bounded.run_bind, Bounded.run_outcome,
    Fallible.bind_of_ok (Fallible.outcome_apply _ _), h]
  rfl

/-- The state the prefix scan starts its loop in. -/
def Machine.scanStart (s : Machine (FlatBus π)) : Machine (FlatBus π) :=
  s.resetDecode.withDecode { s.resetDecode.toDecodeState with
    osize32 := (s.regs.seg reg.CS).db, asize32 := (s.regs.seg reg.CS).db }

/-- A prefix scan, from a clean record. -/
theorem run_scanPrefixes (s : Machine (FlatBus π)) :
    scanPrefixes.run s.resetDecode = (scanLoop (s.regs.seg reg.CS).db 16 0).run
      s.scanStart := by
  rw [scanPrefixes, Bounded.run_bind, Fallible.bind_of_ok (run_self _),
    Bounded.run_bind, Fallible.bind_of_ok (run_modifyDecode _ _)]
  rfl

/-- Decoding ahead finds what the scan and the decoder find. -/
theorem jitDecodeOne_of_hot {s s₁ s₂ : Machine (FlatBus π)}
    {p : U8 × U32} {d : DecodedInsn}
    (hscan : scanPrefixes.run s.resetDecode = (.ok p, s₁))
    (hlock : s₁.lock = false) (hrep : s₁.rep = none)
    (hdec : (tryDecode p.1 p.2).run s₁ = (.ok (.hot d), s₂)) :
    jitDecodeOne s = (.ok (some d), s₂) := by
  rw [jitDecodeOne, Fallible.bind_of_ok (Fallible.modify_apply _ _),
    Fallible.bind_of_ok (Fallible.outcome_apply _ _), hscan]
  dsimp only
  have hc : ¬ (s₁.lock || s₁.rep.isSome) = true := by
    rw [hlock, hrep]
    decide
  rw [Fallible.bind_of_ok (Fallible.get_apply _), if_neg hc,
    Fallible.bind_of_ok (Fallible.outcome_apply _ _), hdec]
  rfl

variable (π) in
/-- The bytes `code` are an instruction with record `d` in code size `db`:
any machine that can fetch them finds it. -/
def DecodesTo (db ext : Bool) (code : Nat → U8) (d : DecodedInsn) : Prop :=
  ∀ t : Machine (FlatBus π), (t.regs.seg reg.CS).db = db → t.extensions = ext →
    Streams code t.regs.eip d.len.toNat t.resetDecode →
    Readable t.regs.eip d.len.toNat t.resetDecode → ∃ t',
      jitDecodeOne t = (.ok (some d), t')

section Missed

variable {code : Nat → U8} {s s₁ s₂ : Machine (FlatBus π)}
  {p : U8 × U32} {d : DecodedInsn}
  (hscan : scanPrefixes.run s.resetDecode = (.ok p, s₁))
  (hdec : (tryDecode p.1 p.2).run s₁ = (.ok (.hot d), s₂))
  (hcode : Streams code s.regs.eip d.len.toNat s.resetDecode)
include hscan hdec

/-- A machine that stands before the same bytes decodes them the same. -/
theorem follow_hot {t : Machine (FlatBus π)}
    (hdb : (t.regs.seg reg.CS).db = (s.regs.seg reg.CS).db)
    (hsync : Sync s.scanStart code s.regs.eip t.regs.eip d.len.toNat
      s.scanStart t.scanStart) :
    ∃ t₁ t₂, scanPrefixes.run t.resetDecode = (.ok p, t₁)
      ∧ (tryDecode p.1 p.2).run t₁ = (.ok (.hot d), t₂)
      ∧ s₁.toDecodeState = t₁.toDecodeState ∧ Quiet s.scanStart s₂ := by
  obtain ⟨hn, d', hop, hd⟩ := tryDecode_hot hdec
  have hlen : s₂.ilen.toNat ≤ d.len.toNat := by
    rw [hd]
    exact Nat.le_refl _
  have hmid :=
    (Abreast.decodeOp p.1 s.scanStart code s.regs.eip t.regs.eip
      d.len.toNat).back hop hlen
  rw [run_scanPrefixes] at hscan
  obtain ⟨t₁, ht₁, hsync₁⟩ :=
    (Abreast.scanLoop _ 16 0 s.scanStart code s.regs.eip t.regs.eip
      d.len.toNat).step hsync hscan hmid
  obtain ⟨t₂, ht₂, hsync₂⟩ :=
    (Abreast.decodeOp p.1 s.scanStart code s.regs.eip t.regs.eip
      d.len.toNat).step hsync₁ hop hlen
  refine ⟨t₁, t₂, ?_, ?_, hsync₁.decode, hsync₂.quiet⟩
  · rw [run_scanPrefixes, hdb]
    exact ht₁
  · rw [hd, tryDecode_of_hot hn ht₂]
    have hilen : s₂.ilen = t₂.ilen := congrArg DecodeState.ilen hsync₂.decode
    rw [hilen]

include hcode

/-- Decoding moves nothing but EIP and the decode state. -/
theorem quiet_of_hot : Quiet s.scanStart s₂ := by
  have hstart : Streams code s.regs.eip d.len.toNat s.scanStart :=
    ⟨hcode.eip, hcode.user, hcode.bytes⟩
  obtain ⟨-, -, -, -, -, hquiet⟩ := follow_hot hscan hdec (t := s) rfl
    { decode := rfl, ext := rfl, quiet := rfl, source := hstart,
      target := hstart, readable := .inl rfl }
  exact hquiet

/-- What a missed probe decodes is the record of the bytes it decoded. -/
theorem decodesTo_of_hot (hlock : s₁.lock = false) (hrep : s₁.rep = none) :
    DecodesTo π (s.regs.seg reg.CS).db s.extensions code d := by
  intro t hdb hext htcode hread
  have hstart : t.scanStart.toDecodeState = s.scanStart.toDecodeState := by
    unfold Machine.scanStart
    rw [hdb]
    rfl
  obtain ⟨t₁, t₂, ht₁, ht₂, hsame, -⟩ := follow_hot hscan hdec hdb
    { decode := hstart.symm, ext := hext.symm, quiet := rfl,
      source := ⟨hcode.eip, hcode.user, hcode.bytes⟩,
      target := ⟨htcode.eip, htcode.user, htcode.bytes⟩,
      readable := .inr hread }
  refine ⟨t₂, jitDecodeOne_of_hot ht₁ ?_ ?_ ht₂⟩
  · exact (congrArg DecodeState.lock hsame).symm.trans hlock
  · exact (congrArg DecodeState.rep hsame).symm.trans hrep

end Missed

-- ======== the entries

/-- The code-size bit of a key. -/
def Entry.db (e : Entry) : Bool := e.key.getLsbD 32

/-- The extensions bit of a key. -/
def Entry.ext (e : Entry) : Bool := e.key.getLsbD 35

/-- The D bit of a segment. -/
theorem SegReg.db_eq_bit (s : SegReg) : s.db = s.attrs.getLsbD 10 := by
  have hmask : (0x0400 : U16) = BitVec.twoPow 16 10 := by decide
  rw [db, hmask, BitVec.and_twoPow]
  cases s.attrs.getLsbD 10 <;> decide

/-- The key of a record says for which size it was decoded. -/
theorem key_db (phys : U32) (c : Cpu) :
    (phys.setWidth 64 ||| c.icacheCtx).getLsbD 32
      = (c.regs.seg reg.CS).db := by
  rw [BitVec.getLsbD_or, SegReg.db_eq_bit]
  unfold Cpu.icacheCtx
  simp only [BitVec.getLsbD_or, BitVec.getLsbD_shiftLeft, BitVec.getLsbD_and]
  cases c.extensions <;> simp

/-- The key of a record says with which extensions it was decoded. -/
theorem key_ext (phys : U32) (c : Cpu) :
    (phys.setWidth 64 ||| c.icacheCtx).getLsbD 35 = c.extensions := by
  rw [BitVec.getLsbD_or]
  unfold Cpu.icacheCtx
  simp only [BitVec.getLsbD_or, BitVec.getLsbD_shiftLeft, BitVec.getLsbD_and]
  cases c.extensions <;> simp

/-- Memory from `a` on. -/
def FlatBus.from (b : FlatBus π) (a : U32) : Nat → U8 :=
  fun i => b.mem (a + BitVec.ofNat 32 i)

/-- An entry holds the record of the bytes at its address, which lie in one
page. -/
structure Entry.Good (b : FlatBus π) (e : Entry) : Prop where
  inPage : e.InPage
  decodes : DecodesTo π e.db e.ext (b.from e.phys) e.insn

/-- The record of bytes that did not change. -/
theorem DecodesTo.congr {db ext : Bool}
    {code code' : Nat → U8} {d : DecodedInsn}
    (h : DecodesTo π db ext code d)
    (heq : ∀ i < d.len.toNat, code i = code' i) :
    DecodesTo π db ext code' d := by
  intro t hdb hext hcode hread
  obtain ⟨base, hbytes⟩ := hcode.bytes
  exact h t hdb hext ⟨hcode.eip, hcode.user, base, fun i hi =>
    ⟨(hbytes i hi).1, (hbytes i hi).2.trans (heq i hi).symm⟩⟩ hread

/-- An entry whose page did not change stays good. -/
theorem Entry.Good.frame {b b' : FlatBus π} {e : Entry} (h : e.Good b)
    (heq : ∀ x : U32, x >>> 12 = e.phys >>> 12 → b'.mem x = b.mem x) :
    e.Good b' where
  inPage := h.inPage
  decodes := h.decodes.congr fun i hi => by
    refine (heq _ (page_add _ i ?_)).symm
    have hin := h.inPage
    rw [Entry.InPage, toNat_and_FFF] at hin
    omega

-- ======== bus accesses

/-- Reads and port accesses leave flat memory alone. -/
theorem BusTouch.mem {b b' : FlatBus π} (h : BusTouch b b') :
    b'.mem = b.mem := by
  cases h with
  | read a => rfl
  | read16 a =>
    exact congrArg FlatBus.mem (congrArg Prod.snd (Ram.read16_eq b a))
  | read32 a =>
    exact congrArg FlatBus.mem (congrArg Prod.snd (Ram.read32_eq b a))
  | ioRead p => rfl
  | ioWrite p v => rfl

/-- Byte stores on two pages change no other page. -/
theorem FlatBus.scatter_other (b : FlatBus π) {x first last : U32}
    (l : List (U32 × U8))
    (hl : ∀ p ∈ l, p.1 >>> 12 = first >>> 12 ∨ p.1 >>> 12 = last >>> 12)
    (hfirst : x >>> 12 ≠ first >>> 12) (hlast : x >>> 12 ≠ last >>> 12) :
    (l.foldl (fun b p => Bus.write b p.1 p.2) b).mem x = b.mem x := by
  induction l generalizing b with
  | nil => rfl
  | cons p l ih =>
    rw [List.foldl_cons, ih _ fun q hq => hl q (List.mem_cons_of_mem _ hq)]
    have hne : x ≠ p.1 := by
      rintro rfl
      rcases hl p List.mem_cons_self with hp | hp
      · exact hfirst hp
      · exact hlast hp
    exact upd_other _ _ hne

/-- The pages between the ends of four bytes are those of its ends. -/
theorem page_between (a : U32) {i : Nat} (hi : i ≤ 3) :
    (a + BitVec.ofNat 32 i) >>> 12 = a >>> 12
      ∨ (a + BitVec.ofNat 32 i) >>> 12 = (a + 3) >>> 12 := by
  rw [page_eq_iff, page_eq_iff]
  bv_omega

/-- A store changes only the pages of its ends. -/
theorem BusStore.other {b b' : FlatBus π} {first last x : U32}
    (h : BusStore b first last b')
    (hfirst : x >>> 12 ≠ first >>> 12) (hlast : x >>> 12 ≠ last >>> 12) :
    b'.mem x = b.mem x := by
  cases h with
  | write v => exact b.scatter_other [(first, v)] (by simp) hfirst hfirst
  | write16 v =>
    refine b.scatter_other [(first, v.setWidth 8),
      (first + 1, (v >>> 8).setWidth 8)] ?_ hfirst hlast
    simp
  | write32 v =>
    have h1 := page_between first (i := 1) (by decide)
    have h2 := page_between first (i := 2) (by decide)
    have h3 : first + 2 + 1 = first + 3 := BitVec.add_assoc ..
    refine b.scatter_other [(first, (v.setWidth 16).setWidth 8),
      (first + 1, (v.setWidth 16 >>> 8).setWidth 8),
      (first + 2, ((v >>> 16).setWidth 16).setWidth 8),
        (first + 2 + 1, ((v >>> 16).setWidth 16 >>> 8).setWidth 8)]
      ?_ hfirst hlast
    rw [h3]
    simpa using ⟨h1, h2⟩
  | scatter _ l hl => exact b.scatter_other l hl hfirst hlast

-- ======== the cache

namespace ICache

/-- While the store clock has not wrapped, live entries are good. -/
def Ok (c : ICache) (b : FlatBus π) : Prop :=
  c.clock < 2 ^ 64 → c.dated.Coherent Entry.line Entry.Good b

/-- Only memory matters. -/
theorem Ok.mem {c : ICache} {b b' : FlatBus π} (h : c.Ok b)
    (hmem : b'.mem = b.mem) : c.Ok b' := by
  intro hclock
  have hnone : (c.dated.touchAll []).Coherent Entry.line Entry.Good b' :=
    (h hclock).store fun _ _ hv => hv.frame fun x _ => congrFun hmem x
  exact hnone

/-- A stamped store keeps the cache. -/
theorem Ok.store {c : ICache} {b b' : FlatBus π}
    {first last : U32} (h : c.Ok b)
    (hb : BusStore b first last b') : (c.stampWriteSpan first last).Ok b' := by
  intro hclock
  rw [dated_stampWriteSpan first last hclock]
  refine (h ((c.clock_stampWriteSpan first last).trans hclock)).store
    fun e he hgood => ?_
  obtain ⟨hfirst, hlast⟩ := mem_spanSlots he
  exact hgood.frame fun x hx => hb.other (hx ▸ hfirst) (hx ▸ hlast)

/-- An invalidation is good for any change of memory. -/
theorem Ok.invalidateAll {c : ICache} {b : FlatBus π} (h : c.Ok b)
    (b' : FlatBus π) : c.invalidateAll.Ok b' := by
  intro hclock
  rw [dated_invalidateAll hclock]
  exact .invalidate (h (Nat.lt_of_succ_lt hclock)).toDated

/-- A fill with the record of the bytes at `phys` keeps the cache. -/
theorem Ok.fill {c : ICache} {b : FlatBus π} (h : c.Ok b) (cpu : Cpu)
    {phys : U32} {d : DecodedInsn}
    (hdec : (phys &&& 0xFFF).toNat + d.len.toNat ≤ 0x1000 →
      DecodesTo π (cpu.regs.seg reg.CS).db cpu.extensions (b.from phys) d) :
    (c.fill phys cpu.icacheCtx d).Ok b := by
  intro hclock
  unfold ICache.fill at *
  split at hclock
  case isTrue hcross =>
    rw [if_pos hcross]
    exact h hclock
  case isFalse hfits =>
  rw [if_neg hfits, dated_fill (c := c) (entrySlot phys) rfl hclock]
  refine (h hclock).fill (entrySlot phys) ⟨?_, ?_⟩
  · rw [Entry.InPage, Entry.phys, key_phys]
    exact Nat.le_of_not_lt hfits
  · rw [Entry.db, Entry.ext, Entry.phys, key_phys, key_db, key_ext]
    exact hdec (Nat.le_of_not_lt hfits)

end ICache

-- ======== one record

omit [Ports π] in
/-- The bytes at a known address within a page are a stream. -/
theorem Machine.streams {s : Machine (FlatBus π)} {phys : U32} {n : Nat}
    (hphys : s.icachePhys = some phys)
    (hfits : (phys &&& 0xFFF).toNat + n ≤ 0x1000) :
    Streams (s.bus.from phys) s.regs.eip n s.resetDecode where
  eip := (BitVec.add_zero _).symm
  user := rfl
  bytes := ⟨phys,
    fun i hi => ⟨Cpu.fetchPhys_add (c := s.resetDecode.toCpu) hphys (by omega), rfl⟩⟩

/-- A machine whose probes are safe. -/
def Machine.Sound (s : Machine (FlatBus π)) : Prop := s.icache.Ok s.bus

/-- Remembering what a missed probe decoded keeps the machine sound. -/
theorem Machine.Sound.icacheFill {s s₁ s₂ : Machine (FlatBus π)}
    {p : U8 × U32} {d : DecodedInsn}
    (hscan : scanPrefixes.run s.resetDecode = (.ok p, s₁))
    (hlock : s₁.lock = false) (hrep : s₁.rep = none)
    (hdec : (tryDecode p.1 p.2).run s₁ = (.ok (.hot d), s₂)) (hs₂ : s₂.Sound) :
    (s₂.icacheFill s.icachePhys d).Sound := by
  cases hphys : s.icachePhys with
  | none => exact hs₂
  | some phys =>
  show (s₂.icache.fill phys s₂.icacheCtx d).Ok s₂.bus
  refine ICache.Ok.fill hs₂ s₂.toCpu fun hfits => ?_
  have hcode := Machine.streams hphys hfits
  have hquiet := quiet_of_hot hscan hdec hcode
  have hbus : s₂.bus = s.bus := by
    rw [hquiet]
    rfl
  have hseg : s₂.regs.seg = s.regs.seg := by
    rw [hquiet]
    rfl
  have hext : s₂.extensions = s.extensions := by
    rw [hquiet]
    rfl
  rw [hbus, hseg, hext]
  exact decodesTo_of_hot hscan hdec hcode hlock hrep

-- ======== one step

section Steps

variable {s s' : Machine (FlatBus π)}

/-- Memory changes by stamped stores only, so the cache goes on being right. -/
theorem CalmPrim.sound (h : CalmPrim s s') (hs : s.Sound) : s'.Sound := by
  cases h with
  | touch b hb => exact ICache.Ok.mem hs hb.mem
  | store first last b hb => exact ICache.Ok.store hs hb
  | _ => exact hs

/-- A transfer of control does not touch memory or cache. -/
theorem XferPrim.sound (h : XferPrim s s') (hs : s.Sound) : s'.Sound := by
  cases h with
  | calm h => exact h.sound hs
  | prepare =>
    unfold Machine.prepared
    split <;> exact hs
  | _ => exact hs

/-- A sequence of transfers leaves a sound cache sound. -/
theorem XferSteps.sound (h : XferSteps s s') (hs : s.Sound) : s'.Sound := by
  induction h with
  | refl => exact hs
  | tail _ hstep ih => exact hstep.sound ih

theorem sound_xfer (x : Xfer (FlatBus π) α) (hs : s.Sound) :
    (x.run s).2.Sound :=
  XferSteps.sound (x.bound s) hs

theorem sound_calm (x : Calm (FlatBus π) α) (hs : s.Sound) :
    (x.run s).2.Sound :=
  XferSteps.sound (CalmSteps.xfer (x.bound s)) hs

/-- A tail that returns a cycle count changes nothing. -/
theorem sound_count {x : Exec (FlatBus π) U32} {f : U32 → U32}
    (h : (x s).2.Sound) :
    ((x >>= fun c => pure (f c)) s).2.Sound := by
  rw [Fallible.bind_apply]
  rcases hrun : x s with ⟨e | a, t⟩ <;> rw [hrun] at h <;> exact h

/-- Decode, remember, execute. -/
theorem sound_runDecoded {s₁ : Machine (FlatBus π)} {p : U8 × U32}
    (hscan : scanPrefixes.run s.resetDecode = (.ok p, s₁)) (hs₁ : s₁.Sound)
    (hlock : s₁.lock = false)
    (hrep : s₁.rep = none) : (runDecoded s.icachePhys p.1 p.2 s₁).2.Sound := by
  unfold runDecoded
  have hdec := sound_calm (tryDecode p.1 p.2) hs₁
  rw [Fallible.bind_apply]
  rcases hr : (tryDecode p.1 p.2).run s₁ with ⟨e | r, s₂⟩ <;> rw [hr] at hdec
  · exact hdec
  cases r with
  | hot d =>
    have hfill := Machine.Sound.icacheFill hscan hlock hrep hr hdec
    exact sound_count (sound_calm (execDecoded d) hfill)
  | cold0F op2 => exact sound_count (sound_xfer (dispatch0F op2) hdec)
  | cold => exact sound_xfer (runFused p.1 p.2) hdec

/-- A miss decodes, executes and fills the slot. -/
theorem sound_runMiss (hs : s.Sound) :
    (runMiss true s.icachePhys s).2.Sound := by
  unfold runMiss
  rw [Fallible.bind_of_ok (Fallible.modify_apply _ _)]
  unfold interpret
  have hscan := sound_calm (s := s.resetDecode) scanPrefixes hs
  rw [Fallible.bind_apply]
  rcases hp : scanPrefixes.run s.resetDecode with ⟨e | p, s₁⟩
    <;> rw [hp] at hscan
  · exact hscan
  have hscreen := sound_calm (lockScreen p.1) hscan
  dsimp only
  rw [Fallible.bind_apply]
  rcases hl : (lockScreen p.1).run s₁ with ⟨e | u, s₂⟩ <;> rw [hl] at hscreen
  · exact hscreen
  have hsame : s₂ = s₁ := by
    rw [lockScreen, Bounded.run_bind, Fallible.bind_of_ok (run_self s₁)] at hl
    exact (run_raiseIf_ok hl).2
  subst hsame
  dsimp only
  rw [Fallible.bind_of_ok (Fallible.get_apply _)]
  split
  case isTrue hhot =>
    simp only [Bool.true_and, Bool.and_eq_true, Bool.not_eq_true',
      Option.isNone_iff_eq_none] at hhot
    exact sound_runDecoded hp hscan hhot.1 hhot.2
  case isFalse => exact sound_xfer (runFused p.1 p.2) hscan

/-- One instruction through the cache. -/
theorem sound_execOne (hs : s.Sound) : (execOne s).2.Sound := by
  unfold execOne
  rw [Fallible.bind_of_ok (Fallible.modify_apply _ _),
    Fallible.bind_of_ok (Fallible.get_apply _)]
  cases s.begin.probe with
  | some d =>
    exact sound_count
      (sound_calm (s := s.begin.beginDecoded d) (execDecoded d) hs)
  | none => exact sound_runMiss (s := s.begin) hs

/-- Delivering an exception keeps the cache. -/
theorem Machine.Sound.deliver (hs : s.Sound) (e : Exception) (cls : Event) :
    (deliver e cls s).Sound := by
  have hchain : ∀ n e cls inDouble (s : Machine (FlatBus π)),
    s.Sound → (deliverChain n e cls inDouble s).Sound := by
    intro n
    induction n with
    | zero => exact fun e cls inDouble s hs => hs
    | succ n ih =>
      intro e cls inDouble s hs
      have hraise := sound_xfer (raise e cls) hs
      unfold deliverChain
      rcases hr : (raise e cls).run s with ⟨nested | ⟨⟩, s₁⟩
        <;> rw [hr] at hraise
      · dsimp only
        split
        · exact hraise
        split
        · exact ih _ _ _ _ hraise
        · exact ih _ _ _ _ hraise
      · exact hraise
  exact hchain 4 e cls false s hs

/-- An instruction with its rewind. -/
theorem sound_execRewound (hs : s.Sound) : (execRewound s).2.Sound := by
  have hone := sound_execOne hs
  unfold execRewound
  rcases hr : execOne s with ⟨e | c, t⟩ <;> rw [hr] at hone
  · have hrewind : (t.rewind s.regs.gpr).Sound := by
      unfold Machine.rewind
      split <;> exact hone
    dsimp only [faultEpilogue]
    split
    · exact hrewind
    · exact hrewind.deliver e .fault
  · exact hone

/-- A fast step leaves the cache sound; likewise each kind of step below. -/
theorem sound_stepFast (hs : s.Sound) : (stepFast s).2.Sound := by
  have h := sound_execRewound hs
  unfold stepFast
  rcases hr : execRewound s with ⟨_ | c, t⟩ <;> rw [hr] at h <;> exact h

theorem sound_stepTraced (hs : s.Sound) : (stepTraced s).2.Sound := by
  have h := sound_execRewound hs
  unfold stepTraced
  dsimp only
  rcases hr : execRewound s with ⟨_ | c, t⟩ <;> rw [hr] at h
  · exact h
  · dsimp only
    split
    · exact h.deliver _ _
    · exact h

theorem sound_stepSlow (hs : s.Sound) : (stepSlow s).2.Sound := by
  unfold stepSlow
  dsimp only
  split
  · exact hs
  split
  · exact Machine.Sound.deliver (s := { s with halted := false, events := _ }) hs _ _
  split
  · exact Machine.Sound.deliver
      (s := { s with halted := false, events := _, intr := none }) hs _ _
  split
  · exact hs
  · exact sound_stepTraced (s := { s with events := _ }) hs

/-- One step. -/
theorem sound_step (hs : s.Sound) : (step s).2.Sound := by
  unfold step
  split
  · exact sound_stepSlow hs
  · exact sound_stepFast hs

end Steps

-- ======== a probe

omit [Ports π] in
/-- The check of a hit covers every byte of the record. -/
theorem readable_of_hit {s : Machine (FlatBus π)} {d : DecodedInsn}
    (hok : s.begin.hitOk d = true) :
    Readable s.regs.eip d.len.toNat s.resetDecode := by
  intro i hi
  rw [Cpu.hitOk, decide_eq_true_eq] at hok
  have hstart : s.begin.startEip = s.regs.eip := rfl
  have hsub : (d.len - 1).toNat = d.len.toNat - 1 := by bv_omega
  have hlimit := (s.regs.seg reg.CS).limit.isLt
  have hcs : (s.begin.regs.seg reg.CS).limit = (s.regs.seg reg.CS).limit := rfl
  rw [hsub, hstart, hcs] at hok
  show decide (s.regs.eip + BitVec.ofNat 32 i ≤ (s.regs.seg reg.CS).limit) = true
  rw [decide_eq_true_eq, BitVec.le_def, BitVec.toNat_add, BitVec.toNat_ofNat]
  omega

/-- The record of the instruction at EIP, decoded afresh from memory. -/
def Machine.freshDecode (s : Machine (FlatBus π)) : Option DecodedInsn :=
  match (jitDecodeOne s).1 with
  | .ok r => r
  | .error _ => none

/-- On a sound machine whose clock has not wrapped, a probe that passes
returns what a fresh decode would. -/
theorem Machine.Sound.probe {s : Machine (FlatBus π)} (hs : s.Sound)
    (hclock : s.icache.clock < 2 ^ 64)
    {d : DecodedInsn} (hprobe : s.begin.probe = some d) :
    s.begin.freshDecode = some d := by
  obtain ⟨phys, hphys, hat⟩ := Option.bind_eq_some_iff.1 hprobe
  rw [Cpu.probeAt] at hat
  split at hat
  case isFalse => cases hat
  case isTrue hlive =>
  let e : Entry := s.icache.entries (ICache.entrySlot phys)
  have hd : e.insn = d := Option.some.inj hat
  simp only [Cpu.entryLive, Bool.and_eq_true, beq_iff_eq,
    decide_eq_true_eq] at hlive
  obtain ⟨⟨⟨hkey, hstamp⟩, hinval⟩, hok⟩ := hlive
  have hk : e.key = phys.setWidth 64 ||| s.begin.icacheCtx := hkey
  have haddr : e.phys = phys := by rw [Entry.phys, hk, key_phys]
  have hdb : e.db = (s.regs.seg reg.CS).db := by
    rw [Entry.db, hk, key_db]
    rfl
  have hext : e.ext = s.extensions := by
    rw [Entry.ext, hk, key_ext]
    rfl
  have hgood : e.Good s.bus := by
    refine (hs hclock).live (ICache.entrySlot phys) ⟨?_, hinval⟩
    have hline : e.line = ICache.stampSlot phys :=
      congrArg ICache.stampSlot haddr
    show (s.icache.stamps e.line).toNat ≤ e.version.toNat
    rw [hline]
    exact hstamp
  obtain ⟨hfits, hdec⟩ := hgood
  rw [Entry.InPage, haddr, hd] at hfits
  rw [haddr, hd] at hdec
  obtain ⟨t, ht⟩ :=
    hdec s.begin hdb.symm hext.symm
      (Machine.streams (s := s.begin) hphys hfits)
    (readable_of_hit (s := s.begin) (hd ▸ hok))
  rw [Machine.freshDecode, ht]

-- ======== runs

/-- A step, or something the host does to the processor between steps. -/
inductive Turn where
  | step
  | reset
  | setCsIp (sel : U16) (eip : U32)
  | triggerNmi
  | assertIntr (vector : U8)
  | clearIntr
  | invalidateIcache
  | invalidateTlb
  /-- The host writes the registers, segment caches and control registers
  included. -/
  | setRegs (r : Registers)
  /-- The host sets the public flags and hooks. -/
  | setHooks (halted shutdown : Bool) (hostTrap : Option HostTrap)
      (syscallInt : Option U8) (trapFaults extensions : Bool)
  /-- The host writes memory and says so. -/
  | load (mem : U32 → U8)

/-- One turn. -/
def Turn.apply (a : Turn) (s : Machine (FlatBus π)) : Machine (FlatBus π) :=
  match a with
  | .step => (X32.step s).2
  | .reset => s.reset
  | .setCsIp sel eip => s.setCsIp sel eip
  | .triggerNmi => s.triggerNmi
  | .assertIntr vector => s.assertIntr vector
  | .clearIntr => s.clearIntr
  | .invalidateIcache => s.invalidateIcache
  | .invalidateTlb => s.invalidateTlb
  | .setRegs r => { s with regs := r }
  | .setHooks halted shutdown hostTrap syscallInt trapFaults extensions =>
    { s with halted, shutdown, hostTrap, syscallInt, trapFaults, extensions }
  | .load mem => { s.invalidateIcache with bus := { s.bus with mem } }

/-- Turns in order. -/
def runTurns (turns : List Turn) (s : Machine (FlatBus π)) :
    Machine (FlatBus π) :=
  turns.foldl (fun s a => a.apply s) s

/-- The machine at power-on. -/
def powerOn (b : FlatBus π) : Machine (FlatBus π) := { Cpu.new with bus := b }

/-- An empty cache is right about any memory. -/
theorem sound_powerOn (b : FlatBus π) : (powerOn b).Sound := by
  intro _
  refine ⟨⟨fun _ => Nat.zero_le _, Nat.le_refl _, fun _ => Nat.zero_le _⟩,
    fun i hl => ?_⟩
  exact absurd hl.2 (Nat.not_succ_le_zero 0)

/-- One action of a run. -/
theorem Turn.sound (a : Turn) {s : Machine (FlatBus π)} (hs : s.Sound) :
    (a.apply s).Sound := by
  cases a with
  | step => exact sound_step hs
  | reset => exact ICache.Ok.invalidateAll hs _
  | invalidateIcache => exact ICache.Ok.invalidateAll hs _
  | load mem => exact ICache.Ok.invalidateAll hs _
  | _ => exact hs

/-- A run from power-on is sound throughout. -/
theorem sound_runTurns (b : FlatBus π) (turns : List Turn) :
    (runTurns turns (powerOn b)).Sound := by
  have hrun : ∀ s : Machine (FlatBus π),
    s.Sound → (runTurns turns s).Sound := by
    induction turns with
    | nil => exact fun s hs => hs
    | cons a turns ih => exact fun s hs => ih _ (a.sound hs)
  exact hrun _ (sound_powerOn b)

/-- Whatever the processor and its host have done since power-on, short of
2^64 clock ticks, a probe that passes returns the record a fresh decode of
memory finds. -/
theorem probe_is_fresh (b : FlatBus π) (turns : List Turn)
    (hclock : (runTurns turns (powerOn b)).icache.clock < 2 ^ 64)
    {d : DecodedInsn}
    (hprobe : (runTurns turns (powerOn b)).begin.probe = some d) :
    (runTurns turns (powerOn b)).begin.freshDecode = some d :=
  (sound_runTurns b turns).probe hclock hprobe

/-- A NOP at the reset vector and a jump back to it. -/
def nopLoop : FlatBus Unit where
  mem a := if a = 0xFFFFFFF0 then 0x90 else if a = 0xFFFFFFF1
    then 0xEB else 0xFD
  ports := ()

/-- Once round the loop the jump is served from the cache, rightly. -/
theorem probe_is_fresh_nopLoop :
    (runTurns [.step, .step] (powerOn nopLoop)).begin.freshDecode.map (·.op)
      = some .XchgAcc := by
  obtain ⟨d, hd⟩ : ∃ d, (runTurns [.step, .step] (powerOn nopLoop)).begin.probe
    = some d := ⟨_, rfl⟩
  have hop : (runTurns [.step, .step] (powerOn nopLoop)).begin.probe.map (·.op)
    = some .XchgAcc := rfl
  rw [probe_is_fresh nopLoop [.step, .step] (by decide) hd, ← hop, hd]

end Remu.X32
