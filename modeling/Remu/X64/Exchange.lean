/-
What the compare-and-exchange of a pair leaves when it faults.

CMPXCHG8B and CMPXCHG16B load the two halves of their destination, compare
them with the accumulators, and store the replacement one half after the
other. What a fault may leave is what the translations leave, accessed and
dirty bits of the entries they go through: memory is compared, byte for byte,
with what the same translations make of it where nothing is stored
(`probePair`). Each half is checked and translated as it is stored, so a
destination whose second half is on a page that cannot be written is left
with the first half replaced (`Torn`).
-/
import Remu.X64.Execute0F
import Remu.X64.Disturbed
import Remu.X64.Reading
import Remu.X64.Stores

namespace Remu.X64

open Word ByteRam

-- ======== marks add up

section Marked

variable {β : Type} [Bus β] [Ram β]

namespace Machine

variable {s s' s'' : Machine β}

/-- Marks do not make new paths. -/
theorem pathBytes_back (h : s.MarksUp s') {lin y : U64}
    (hy : y ∈ s'.pathBytes lin) :
    y ∈ s.pathBytes lin := by
  unfold pathBytes at hy
  split at hy
  case isFalse => cases hy
  case isTrue hp =>
    cases hm : s'.mapping lin with
    | none =>
      rw [hm] at hy
      cases hy
    | some m =>
      rw [hm] at hy
      obtain ⟨a, ha, hin⟩ := List.mem_flatMap.1 hy
      rw [wide_of_tables h.tables] at hin
      exact mem_pathBytes (h.paging.symm.trans hp) (h.mapping_back hm) ha hin

/-- Marks of some walks, then of others. -/
theorem OnlyMarks.trans {lins lins' : List U64} (h : s.OnlyMarks lins s')
    (h' : s'.OnlyMarks lins' s'') : s.OnlyMarks (lins ++ lins') s'' where
  toMarksUp := h.toMarksUp.trans h'.toMarksUp
  outside x hx := by
    refine (h'.outside x fun l hl y hy => ?_).trans
      (h.outside x fun l hl y hy => ?_)
    · exact hx l (List.mem_append_right _ hl) y (pathBytes_back h.toMarksUp hy)
    · exact hx l (List.mem_append_left _ hl) y hy

/-- Memory has changed by the marks of some translations. -/
def Marked (s s' : Machine β) : Prop := ∃ lins, s.OnlyMarks lins s'

theorem Marked.refl (s : Machine β) : s.Marked s :=
  ⟨[], .refl s, fun _ _ => rfl⟩

/-- Marks set, and then more. -/
theorem Marked.trans (h : s.Marked s') (h' : s'.Marked s'') :
    s.Marked s'' := by
  obtain ⟨lins, h⟩ := h
  obtain ⟨lins', h'⟩ := h'
  exact ⟨lins ++ lins', h.trans h'⟩

/-- It is about the control registers and the memory alone. -/
theorem Marked.of_bus (hregs : s'.regs.toColdRegs = s.regs.toColdRegs)
    (hbus : s'.bus = s.bus) :
    s.Marked s' := by
  refine ⟨[], ⟨?_, ?_, fun a _ => ?_⟩, fun x _ => by rw [hbus]⟩
  · rw [Cpu.paging, Cpu.paging, hregs]
  · rw [hregs]
    exact ⟨rfl, rfl, rfl⟩
  · have hwide : s'.wide = s.wide :=
      wide_of_tables (by rw [hregs]; exact ⟨rfl, rfl, rfl⟩)
    have hword : s'.word a = s.word a := by rw [word, word, hwide, hbus]
    rw [hword]
    exact .refl _ _

end Machine

/-- Of the register file RIP and CR2 alone have moved, and what a fault is
rewound to is what it was. -/
structure Rewinds (s s' : Machine β) : Prop where
  regs : s'.regs = { s.regs with rip := s'.regs.rip, cr2 := s'.regs.cr2 }
  startRip : s'.startRip = s.startRip
  faultRegs : s'.faultRegs = s.faultRegs
  commitOnFault : s'.commitOnFault = s.commitOnFault
  coldSaved : s'.coldSaved = s.coldSaved

namespace Rewinds

variable {s s' s'' : Machine β}

omit [Bus β] [Ram β] in
theorem refl (s : Machine β) : Rewinds s s := ⟨rfl, rfl, rfl, rfl, rfl⟩

omit [Bus β] [Ram β] in
/-- What the rewind restores, along a run. -/
theorem trans (h : Rewinds s s') (h' : Rewinds s' s'') : Rewinds s s'' :=
  ⟨by rw [h'.regs, h.regs], h'.startRip.trans h.startRip,
    h'.faultRegs.trans h.faultRegs,
    h'.commitOnFault.trans h.commitOnFault, h'.coldSaved.trans h.coldSaved⟩

omit [Bus β] [Ram β] in
/-- A disturbance moves nothing the rewind restores. -/
theorem of_disturbed (h : Disturbed s s') : Rewinds s s' := by
  obtain ⟨cr2, tlb, icache, bus, rfl⟩ := h
  exact ⟨rfl, rfl, rfl, rfl, rfl⟩

omit [Bus β] [Ram β] in
/-- The rewind undoes it. -/
theorem rewind (h : Rewinds s s') (gpr : U8 → U64) :
    (s'.rewind gpr).regs
      = { (s.rewind gpr).regs with cr2 := s'.regs.cr2 } := by
  unfold Machine.rewind
  rw [h.commitOnFault, h.coldSaved, h.startRip, h.faultRegs, h.regs]
  by_cases hc : s.commitOnFault = true
  · rw [if_pos hc, if_pos hc]
  · rw [if_neg hc, if_neg hc]
    by_cases hs : s.coldSaved = true
    · rw [if_pos hs, if_pos hs]
    · rw [if_neg hs, if_neg hs]

end Rewinds

/-- Nothing stored yet: memory has changed by marks only, and a rewind undoes
the rest. -/
structure Unstored (s s' : Machine β) : Prop extends Rewinds s s' where
  memory : s.Marked s'

instance instIsPreorderUnstored : IsPreorder (Machine β) Unstored where
  refl s := ⟨.refl s, .refl s⟩
  trans _ _ _ h h' :=
    ⟨h.toRewinds.trans h'.toRewinds, h.memory.trans h'.memory⟩

/-- Marks and no stores. -/
theorem Unstored.of_disturbed {s s' : Machine β} (hd : Disturbed s s')
    (hm : s.Marked s') :
    Unstored s s' := ⟨.of_disturbed hd, hm⟩

/-- A RAM read moves nothing. -/
theorem along_touch {α : Type} {f : β → α × β} {hf : ∀ b, BusTouch b (f b).2}
    (hread : ∀ b, (f b).2 = b) :
    Fallible.Along Unstored (touchBus f hf).run := by
  intro s
  show Unstored s { s with bus := (f s.bus).2 }
  rw [hread]
  exact refl_of Unstored s

/-- Until a store lands, reading is all that has been done. -/
theorem reading_unstored : Reading (Unstored (β := β)) where
  translate s hp lin access := by
    have hmarks : s.OnlyMarks [lin] s := ⟨.refl s, fun _ _ => rfl⟩
    exact .of_disturbed (Mild.translate lin access s)
      ⟨[lin], hmarks.translate hp List.mem_cons_self access⟩
  busRead a := along_touch fun b => by rw [Ram.read_eq]
  busRead16 a := along_touch fun b => by rw [Ram.read16_eq]
  busRead32 a := along_touch fun b => by rw [Ram.read32_eq]
  busRead64 a := along_touch fun b => by rw [Ram.read64_eq]
  note s _ _ _ := ⟨⟨rfl, rfl, rfl, rfl, rfl⟩, .of_bus rfl rfl⟩
  rip s _ := ⟨⟨rfl, rfl, rfl, rfl, rfl⟩, .of_bus rfl rfl⟩
  fetchPage s _ _ := ⟨⟨rfl, rfl, rfl, rfl, rfl⟩, .of_bus rfl rfl⟩

end Marked

-- ======== storing halves

section Halves

/-- The width of a store at an operand size. -/
def OpSize.width : OpSize → StoreWidth
  | O16 => .word
  | O32 => .dword
  | O64 => .qword

variable {β : Type} [Bus β]

/-- A store to memory checks its segment first. -/
theorem run_writeSized (z : OpSize) (seg : U8) (off v : U64) (s : Machine β) :
    (writeSized z (.mem seg off) v).run s
      = (X64.linAddr seg off z.width.bytes true >>= fun lin =>
          linStore z.width lin (v.setWidth _) : Calm β Unit).run s := by
  cases z with
  | O16 => rfl
  | O32 => rfl
  | O64 =>
    have hv : (v.setWidth (8 * O64.width.bytes) : U64) = v :=
      BitVec.setWidth_eq v
    rw [hv]
    rfl

/-- Where the bytes of a half go: its segment is checked, and their addresses
are translated one by one. -/
def placesHalf (z : OpSize) (seg : U8) (off : U64) : Exec β (List U64) := do
  let lin ← (X64.linAddr seg off z.width.bytes true).run
  locateAll (bytesFrom lin z.width.bytes)

/-- Finding places moves no register. -/
theorem regs_locateAll {s s' : Machine β} {lins ps : List U64}
    (h : locateAll lins s = (.ok ps, s')) : s'.regs = s.regs := by
  cases hp : s.paging with
  | false =>
    rw [locateAll_flat hp] at h
    cases h
    rfl
  | true =>
    rw [locateAll_paged hp] at h
    exact (MemOnly.translateAll _ _ _ _ h).1

variable [WordRam β] {s s' : Machine β} {z : OpSize} {seg : U8} {off v : U64}

/-- `v` stored at size `z`: the bytes are at the places their addresses
translate to, and nothing else is written. -/
def Machine.HalfStored (z : OpSize) (seg : U8) (off v : U64)
    (s s' : Machine β) : Prop :=
  ∃ lin ps t, s.linAddr seg off z.width.bytes true = .ok lin
    ∧ locateAll (bytesFrom lin z.width.bytes) s = (.ok ps, t) ∧ s.Marked t
    ∧ ∀ x : U64, byte s'.bus x
      = byte (pokeAll t.bus
        (Remu.byteStores ps (v.setWidth (8 * z.width.bytes)))) x

/-- Every store of a half finds its places, and puts its bytes down there. -/
theorem run_writeSized_places (z : OpSize) (seg : U8)
    (off v : U64) (s : Machine β) :
    (writeSized z (.mem seg off) v).run s = (placesHalf z seg off >>= fun ps =>
      Fallible.modify
        (scatter ps ((v.setWidth (8 * z.width.bytes)).setWidth 64))) s := by
  rw [run_writeSized, placesHalf, bind_assoc, Bounded.run_bind]
  rcases hlin : (X64.linAddr seg off z.width.bytes true : Calm β U64).run
    s with ⟨e | lin, t⟩
  · rw [Fallible.bind_of_error hlin, Fallible.bind_of_error hlin]
  · rw [Fallible.bind_of_ok hlin, Fallible.bind_of_ok hlin]
    exact run_linStore z.width lin _ t

omit [WordRam β] in
theorem placesHalf_ok {ps : List U64} {t : Machine β}
    (h : placesHalf z seg off s = (.ok ps, t)) :
    ∃ lin, s.linAddr seg off z.width.bytes true = .ok lin
      ∧ locateAll (bytesFrom lin z.width.bytes) s = (.ok ps, t) := by
  rw [placesHalf, Fallible.bind_eq_ok] at h
  obtain ⟨lin, u, hlin, hps⟩ := h
  rw [run_linAddr, Prod.mk.injEq] at hlin
  obtain ⟨hlin, rfl⟩ := hlin
  exact ⟨lin, hlin, hps⟩

/-- Finding places sets marks, and stores nothing. -/
theorem unstored_placesHalf (z : OpSize) (seg : U8)
    (off : U64) (s : Machine β) :
    Unstored s (placesHalf z seg off s).2 := by
  rw [placesHalf, Fallible.bind_apply, run_linAddr]
  cases s.linAddr seg off z.width.bytes true with
  | error e => exact refl_of Unstored s
  | ok lin =>
    have hd : Disturbed s (locateAll (bytesFrom lin z.width.bytes) s).2 := by
      cases hp : s.paging with
      | false =>
        rw [locateAll_flat hp]
        exact refl_of Disturbed s
      | true =>
        rw [locateAll_paged hp]
        exact Mild.translateAll _ s
    exact .of_disturbed hd
      ⟨_, onlyMarks_locateAll s ⟨.refl s, fun _ _ => rfl⟩ fun _ hl => hl⟩

/-- A store that succeeds has stored all. -/
theorem stored_of_ok
    (h : (writeSized z (.mem seg off) v).run s = (.ok (), s')) :
    s.HalfStored z seg off v s' ∧ s'.regs = s.regs := by
  obtain ⟨k, -, -, hwidth⟩ := z.width.bytes_short
  rw [run_writeSized_places, Fallible.bind_eq_ok] at h
  obtain ⟨ps, t, hps, hput⟩ := h
  cases hput
  have hmarked := (unstored_placesHalf z seg off s).memory
  rw [hps] at hmarked
  obtain ⟨lin, hlin, hlocate⟩ := placesHalf_ok hps
  have hregs : t.regs = s.regs := regs_locateAll hlocate
  refine ⟨⟨lin, ps, t, hlin, hlocate, hmarked, fun x => ?_⟩, hregs⟩
  rw [scatter, byteStores_setWidth hwidth, pokeAll]
  simp only [PlainRam.write_eq]

end Halves

-- ======== the instruction

section Pair

/-- The two halves of a destination. -/
structure Pair where
  z : OpSize
  seg : U8
  off : U64
  off' : U64

variable {β : Type} [Bus β]

/-- The destination an exchange decodes, and the checks before its loads. -/
def pairOperand : Calm β Pair := do
  let (m, op) ← modrm
  raiseIf (m.sub ≠ 1) Exception.ud
  let (seg, off) ← memOperand op
  lockCheck true
  let s ← self
  if s.osize = O64 then do
    raiseIf (off &&& 0xF ≠ 0) (Exception.gp 0)
    return ⟨O64, seg, off, off + 8⟩
  else return ⟨O32, seg, off, (off + 4) &&& s.dataWrap⟩

/-- The instruction as far as its loads: the destination and its halves. -/
def loadPair : Calm β (Pair × U64 × U64) := do
  let x ← pairOperand
  let lo ← readSized x.z (.mem x.seg x.off)
  let hi ← readSized x.z (.mem x.seg x.off')
  return (x, lo, hi)

/-- The halves are those of the accumulators. -/
def Pair.Expected (x : Pair) (lo hi : U64) (r : HotRegs) : Prop :=
  lo = r.regSized x.z reg.RAX ∧ hi = r.regSized x.z reg.RDX

instance Pair.decidableExpected (x : Pair) (lo hi : U64) (r : HotRegs) :
    Decidable (x.Expected lo hi r) := inferInstanceAs (Decidable (_ ∧ _))

/-- The store of each half of the replacement. -/
def Pair.storeLo (x : Pair) (r : HotRegs) : Calm β Unit :=
  writeSized x.z (.mem x.seg x.off) (r.regSized x.z reg.RBX)

/-- The second store. -/
def Pair.storeHi (x : Pair) (r : HotRegs) : Calm β Unit :=
  writeSized x.z (.mem x.seg x.off') (r.regSized x.z reg.RCX)

/-- Where the bytes of each half go. -/
def Pair.placesLo (x : Pair) : Exec β (List U64) := placesHalf x.z x.seg x.off

/-- The places of the second store. -/
def Pair.placesHi (x : Pair) : Exec β (List U64) := placesHalf x.z x.seg x.off'

/-- The low half put down at its places. -/
def Pair.putLo (x : Pair) (r : HotRegs) (ps : List U64) (s : Machine β) :
    Machine β :=
  scatter ps (((r.regSized x.z reg.RBX).setWidth (8 * x.z.width.bytes)).setWidth 64) s

/-- The instruction after its loads. -/
def exchangePair : Pair × U64 × U64 → Calm β U32
  | (x, lo, hi) => do
    let s ← self
    if x.Expected lo hi s.regs.toHotRegs then do
      x.storeLo s.regs.toHotRegs
      x.storeHi s.regs.toHotRegs
      modifyFlags (·.insert RFlags.ZF)
      return 10
    else do
      modifyHot (·.setRegSized x.z reg.RAX lo)
      modifyHot (·.setRegSized x.z reg.RDX hi)
      modifyFlags (·.remove RFlags.ZF)
      return 10

/-- The instruction with its stores left out: the loads and, where they find
what is expected, the places of both halves. -/
def probePair : Exec β Unit := do
  let (x, lo, hi) ← loadPair.run
  let s ← Fallible.get
  if x.Expected lo hi s.regs.toHotRegs then do
    let _ ← x.placesLo
    let _ ← x.placesHi
    return ()
  else return ()

/-- CMPXCHG8B and CMPXCHG16B: two loads, then the exchange. -/
theorem group9_eq : (group9 : Calm β U32) = loadPair >>= exchangePair := by
  unfold group9 loadPair pairOperand
  simp only [bind_assoc]
  refine bind_congr fun a => bind_congr fun _ => bind_congr fun b =>
    bind_congr fun _ =>
    bind_congr fun s => ?_
  split
  · simp only [bind_assoc, pure_bind]
    rfl
  · simp only [pure_bind]
    rfl

variable [WordRam β]

omit [WordRam β] in
/-- The loads move no register. -/
theorem readsOn_loadPair : ReadsOn (loadPair : Calm β _) := by
  unfold loadPair pairOperand
  refine ReadsOn.bind
    (ReadsOn.modrm.bind fun a => (ReadsOn.raiseIf _ _).bind fun _ =>
    ReadsOn.bind ?_ fun _ => (ReadsOn.lockCheck _).bind fun _ =>
      ReadsOn.self.bind fun s => ?_)
    fun x => (MemOnly.readSized _ _).readsOn.bind fun _ =>
      (MemOnly.readSized _ _).readsOn.bind fun _ => .pure _
  · cases a.2 with
    | mem seg off => exact .pure _
    | reg i => exact .throw _
  · split
    · exact (ReadsOn.raiseIf _ _).bind fun _ => .pure _
    · exact .pure _

/-- Whatever becomes of the loads, nothing has been stored. -/
theorem unstored_loadPair :
    Fallible.Along Unstored (loadPair : Calm β _).run := by
  have h : Reading (Unstored (β := β)) := reading_unstored
  unfold loadPair pairOperand
  refine Reading.bind
    (Reading.bind h.modrm fun a => Reading.bind (Reading.raiseIf _ _) fun _ =>
    Reading.bind ?_ fun _ => Reading.bind (h.lockCheck _) fun _ => Reading.bind
      Reading.self fun s => ?_)
    fun x => Reading.bind (h.readSized _ _) fun _ =>
      Reading.bind (h.readSized _ _) fun _ =>
      Reading.pure _
  · cases a.2 with
    | mem seg off => exact Reading.pure _
    | reg i => exact fun s => refl_of Unstored s
  · split
    · exact Reading.bind (Reading.raiseIf _ _) fun _ => Reading.pure _
    · exact Reading.pure _

end Pair

-- ======== the law

section Law

variable {β : Type} [Bus β] [WordRam β]

/-- The destination held what was expected: both halves of the replacement
are stored, ZF is set, and no other register has moved but RIP. -/
structure Pair.Swapped (x : Pair) (lo hi : U64) (s t s' : Machine β) :
    Prop where
  expected : x.Expected lo hi s.regs.toHotRegs
  stored : ∃ t', t.HalfStored x.z x.seg x.off (s.regs.regSized x.z reg.RBX) t'
    ∧ t'.HalfStored x.z x.seg x.off' (s.regs.regSized x.z reg.RCX) s'
  regs : s'.regs = { s.regs with
    rip := s'.regs.rip, rflags := s.regs.rflags.insert RFlags.ZF }

/-- It did not: no byte is written, ZF is clear, and the accumulators hold
what was found. -/
structure Pair.Refused (x : Pair) (lo hi : U64) (s t s' : Machine β) :
    Prop where
  unexpected : ¬ x.Expected lo hi s.regs.toHotRegs
  memory : ∀ a : U64, byte s'.bus a = byte t.bus a
  rax : s'.regs.regSized x.z reg.RAX = lo
  rdx : s'.regs.regSized x.z reg.RDX = hi
  hot : s'.regs.toHotRegs
    = { (s.regs.toHotRegs.setRegSized x.z reg.RAX lo).setRegSized x.z reg.RDX hi with
        rip := s'.regs.rip, rflags := s.regs.rflags.remove RFlags.ZF }
  cold : s'.regs.toColdRegs = s.regs.toColdRegs

/-- An exchange from `s` is all or nothing. One that faults leaves every byte
of memory as its translations alone leave it, which set marks; and its
registers, once RIP is put back, are those of before but for CR2. One that
completes has loaded the halves `lo` and `hi`, up to `t`, and stored both
halves of the replacement or not a byte. -/
structure ExchangeLaw (s : Machine β) : Prop where
  fault : ∀ e s', (group9 : Calm β U32).run s = (.error e, s') →
    (∀ a : U64, byte s'.bus a = byte (probePair s).2.bus a)
      ∧ s.Marked (probePair s).2
      ∧ (s'.rewind s.regs.gpr).regs
        = { (s.rewind s.regs.gpr).regs with cr2 := s'.regs.cr2 }
  success : ∀ n s', (group9 : Calm β U32).run s = (.ok n, s') →
    ∃ x lo hi t, loadPair.run s = (.ok (x, lo, hi), t) ∧ s.Marked t
      ∧ (x.Swapped lo hi s t s' ∨ x.Refused lo hi s t s')

/-- The destination holds what is expected and its low half may be written,
at `ps`. With the low half put down there the high half may not, and memory
is not what the translations alone leave. -/
def Machine.Torn (s : Machine β) : Prop :=
  ∃ x lo hi t ps t₁, loadPair.run s = (.ok (x, lo, hi), t)
    ∧ x.Expected lo hi s.regs.toHotRegs
    ∧ x.placesLo t = (.ok ps, t₁)
    ∧ ∃ e t₂, x.placesHi (x.putLo s.regs.toHotRegs ps t₁) = (.error e, t₂)
      ∧ ∃ a : U64, byte t₂.bus a ≠ byte (x.placesHi t₁).2.bus a

omit [WordRam β] in
/-- A value loaded at a size fits it. -/
theorem fits_readSized {z : OpSize} {op : Operand} {s s' : Machine β} {v : U64}
    (h : (readSized z op).run s = (.ok v, s')) :
    (v.setWidth (8 * z.width.bytes)).setWidth 64 = v := by
  have hwide : ∀ {n : Nat} {x : Calm β (BitVec n)}, n ≤ 64 →
      ((fun y : BitVec n => y.setWidth 64) <$> x : Calm β U64).run s
        = (.ok v, s') →
      (v.setWidth n).setWidth 64 = v := by
    intro n x hn hx
    rw [Bounded.run_map, Fallible.map_apply] at hx
    rcases hrun : x.run s with ⟨e | y, t⟩ <;> rw [hrun] at hx <;> cases hx
    rw [BitVec.setWidth_setWidth_of_le y hn, BitVec.setWidth_eq]
  cases z with
  | O16 => exact hwide (by decide) h
  | O32 => exact hwide (by decide) h
  | O64 =>
    show (v.setWidth 64).setWidth 64 = v
    rw [BitVec.setWidth_eq, BitVec.setWidth_eq]

/-- A register read back at the size it was written. -/
theorem regSized_setRegSized (r : HotRegs) (z : OpSize) (i : U8) (v : U64) :
    (r.setRegSized z i v).regSized z i
      = (v.setWidth (8 * z.width.bytes)).setWidth 64 := by
  cases z with
  | O16 =>
    show ((upd r.gpr (i &&& 15) _ (i &&& 15)).setWidth 16).setWidth 64
      = (v.setWidth 16).setWidth 64
    rw [upd_same]
    refine congrArg (BitVec.setWidth 64)
      (BitVec.eq_of_getLsbD_eq fun k hk => ?_)
    have hmask : (~~~0xFFFF : U64).getLsbD k = false := by
      revert k
      decide
    simp only [BitVec.getLsbD_setWidth, BitVec.getLsbD_or,
      BitVec.getLsbD_and, hmask]
    simp [hk, show k < 64 by omega]
  | O32 =>
    show ((upd r.gpr (i &&& 15) _ (i &&& 15)).setWidth 32).setWidth 64
      = (v.setWidth 32).setWidth 64
    rw [upd_same,
      BitVec.setWidth_setWidth_of_le (v.setWidth 32) (show 32 ≤ 64 by decide),
      BitVec.setWidth_eq]
  | O64 =>
    show upd r.gpr (i &&& 15) _ (i &&& 15) = (v.setWidth 64).setWidth 64
    rw [upd_same, BitVec.setWidth_eq, BitVec.setWidth_eq]

/-- Setting one register leaves another. -/
theorem regSized_setRegSized_other (r : HotRegs) (z : OpSize)
    {i j : U8} (v : U64)
    (hij : i &&& 15 ≠ j &&& 15) :
    (r.setRegSized z j v).regSized z i = r.regSized z i := by
  have hupd : ∀ w : U64,
    upd r.gpr (j &&& 15) w (i &&& 15) = r.gpr (i &&& 15) :=
    fun w => upd_other r.gpr w hij
  cases z with
  | O16 => exact congrArg (fun g : U64 => (g.setWidth 16).setWidth 64) (hupd _)
  | O32 => exact congrArg (fun g : U64 => (g.setWidth 32).setWidth 64) (hupd _)
  | O64 => exact hupd _

omit [Bus β] [WordRam β] in
/-- The registers an exchange reads are read before RIP has moved. -/
theorem Pair.expected_iff {x : Pair} {lo hi : U64} {s t : Machine β}
    (h : SameFile s t) :
    x.Expected lo hi t.regs.toHotRegs ↔ x.Expected lo hi s.regs.toHotRegs := by
  rw [h.regs]
  obtain ⟨z, seg, off, off'⟩ := x
  cases z <;> exact Iff.rfl

omit [WordRam β] in
/-- The halves an exchange has loaded fit its size. -/
theorem fits_loadPair {x : Pair} {lo hi : U64} {s t : Machine β}
    (h : loadPair.run s = (.ok (x, lo, hi), t)) :
    (lo.setWidth (8 * x.z.width.bytes)).setWidth 64 = lo
      ∧ (hi.setWidth (8 * x.z.width.bytes)).setWidth 64 = hi := by
  simp only [loadPair, Bounded.run_bind, Fallible.bind_eq_ok] at h
  obtain ⟨y, s₁, -, a, s₂, ha, b, s₃, hb, hret⟩ := h
  cases hret
  exact ⟨fits_readSized ha, fits_readSized hb⟩

omit [Bus β] [WordRam β] in
/-- Registers that have not moved. -/
theorem regSized_sameFile {s t : Machine β} (h : SameFile s t)
    (z : OpSize) (i : U8) :
    t.regs.regSized z i = s.regs.regSized z i := by
  rw [h.regs]
  cases z <;> rfl

omit [WordRam β] in
/-- What was expected is replaced, half by half. -/
theorem run_exchangePair_expected {x : Pair} {lo hi : U64} {s t : Machine β}
    (hload : loadPair.run s = (.ok (x, lo, hi), t))
    (hexp : x.Expected lo hi s.regs.toHotRegs) :
    (exchangePair (x, lo, hi)).run t
      = (x.storeLo s.regs.toHotRegs >>= fun _ =>
        x.storeHi s.regs.toHotRegs >>= fun _ =>
          modifyFlags (·.insert RFlags.ZF) >>= fun _ => pure 10 : Calm β
            U32).run t := by
  have hfile : SameFile s t := readsOn_loadPair s _ t hload
  have hLo : (x.storeLo t.regs.toHotRegs : Calm β Unit)
    = x.storeLo s.regs.toHotRegs :=
    congrArg (writeSized x.z _) (regSized_sameFile hfile x.z reg.RBX)
  have hHi : (x.storeHi t.regs.toHotRegs : Calm β Unit)
    = x.storeHi s.regs.toHotRegs :=
    congrArg (writeSized x.z _) (regSized_sameFile hfile x.z reg.RCX)
  rw [exchangePair, Bounded.run_bind, Fallible.bind_of_ok (run_self t),
    if_pos ((Pair.expected_iff hfile).2 hexp), hLo, hHi]

/-- What was not expected is reported. -/
theorem run_exchangePair_unexpected {x : Pair} {lo hi : U64} {s t : Machine β}
    (hload : loadPair.run s = (.ok (x, lo, hi), t))
    (hexp : ¬ x.Expected lo hi s.regs.toHotRegs) :
    ∃ s', (exchangePair (x, lo, hi)).run t = (.ok 10, s')
      ∧ x.Refused lo hi s t s' := by
  have hfile : SameFile s t := readsOn_loadPair s _ t hload
  obtain ⟨hlo, hhi⟩ := fits_loadPair hload
  have hflags : ∀ (r : HotRegs) (f : RFlags) (i : U8),
      ({ r with rflags := f } : HotRegs).regSized x.z i
        = r.regSized x.z i := by
    intro r f i
    cases x.z <;> rfl
  rw [exchangePair, Bounded.run_bind, Fallible.bind_of_ok (run_self t),
    if_neg fun h => hexp ((Pair.expected_iff hfile).1 h)]
  refine ⟨_, rfl, hexp, fun _ => rfl, ?_, ?_, ?_, ?_⟩
  · show HotRegs.regSized
      { (t.regs.toHotRegs.setRegSized x.z reg.RAX lo).setRegSized
      x.z reg.RDX hi
      with rflags := _ } x.z reg.RAX = lo
    rw [hflags, regSized_setRegSized_other _ _ _ (by decide),
      regSized_setRegSized, hlo]
  · show HotRegs.regSized
      { (t.regs.toHotRegs.setRegSized x.z reg.RAX lo).setRegSized
      x.z reg.RDX hi
      with rflags := _ } x.z reg.RDX = hi
    rw [hflags, regSized_setRegSized, hhi]
  · show ({ (t.regs.toHotRegs.setRegSized x.z reg.RAX lo).setRegSized x.z reg.RDX hi with
        rflags := ((t.regs.toHotRegs.setRegSized x.z reg.RAX lo).setRegSized
          x.z reg.RDX hi).rflags.remove
          RFlags.ZF } : HotRegs) = _
    rw [hfile.regs]
    cases x.z <;> rfl
  · show t.regs.toColdRegs = s.regs.toColdRegs
    rw [hfile.regs]

/-- The low half is put down where its places are. -/
theorem run_storeLo (x : Pair) (r : HotRegs) (t : Machine β) :
    (x.storeLo r).run t
      = (x.placesLo >>= fun ps => Fallible.modify (x.putLo r ps)) t :=
  run_writeSized_places x.z x.seg x.off _ t

/-- The high half fails to be stored where its places fail to be found. -/
theorem run_storeHi (x : Pair) (r : HotRegs) (t : Machine β) :
    ∃ f : List U64 → Machine β → Machine β,
      (x.storeHi r).run t
        = (x.placesHi >>= fun ps => Fallible.modify (f ps)) t :=
  ⟨_, run_writeSized_places x.z x.seg x.off' _ t⟩

omit [WordRam β] in
/-- The first store is not taken back by the rewind. -/
theorem rewinds_putLo (x : Pair) (r : HotRegs)
    (ps : List U64) (t : Machine β) :
    Rewinds t (x.putLo r ps t) := ⟨rfl, rfl, rfl, rfl, rfl⟩

section Expected

variable {x : Pair} {lo hi : U64} {s t t₁ : Machine β} {ps : List U64}

omit [WordRam β] in
/-- The probe of an expected exchange is the places of its halves. -/
theorem probePair_expected (hload : loadPair.run s = (.ok (x, lo, hi), t))
    (hexp : x.Expected lo hi s.regs.toHotRegs) :
    (probePair s).2 = match x.placesLo t with
      | (.error _, t₁) => t₁
      | (.ok _, t₁) => (x.placesHi t₁).2 := by
  have hfile : SameFile s t := readsOn_loadPair s _ t hload
  rw [probePair, Fallible.bind_of_ok hload]
  dsimp only
  rw [Fallible.bind_of_ok (Fallible.get_apply t),
    if_pos ((Pair.expected_iff hfile).2 hexp), Fallible.bind_apply]
  rcases x.placesLo t with ⟨e | ps, t₁⟩
  · rfl
  · dsimp only
    rw [Fallible.bind_apply]
    rcases x.placesHi t₁ with ⟨e | qs, t₂⟩ <;> rfl

/-- An expected exchange stops at the first half whose places it fails to
find, the second one being looked for behind the first store. -/
theorem run_group9_expected (hload : loadPair.run s = (.ok (x, lo, hi), t))
    (hexp : x.Expected lo hi s.regs.toHotRegs) :
    (∃ e t₁, x.placesLo t = (.error e, t₁)
      ∧ (group9 : Calm β U32).run s = (.error e, t₁))
      ∨ ∃ ps t₁, x.placesLo t = (.ok ps, t₁)
        ∧ ((∃ e t₂, x.placesHi (x.putLo s.regs.toHotRegs ps t₁) = (.error e, t₂)
            ∧ (group9 : Calm β U32).run s = (.error e, t₂))
          ∨ ∃ qs t₂ s',
            x.placesHi (x.putLo s.regs.toHotRegs ps t₁) = (.ok qs, t₂)
            ∧ (group9 : Calm β U32).run s = (.ok 10, s')
            ∧ x.Swapped lo hi s t s') := by
  have hfile : SameFile s t := readsOn_loadPair s _ t hload
  have hlo := run_storeLo x s.regs.toHotRegs t
  rw [group9_eq, Bounded.run_bind, Fallible.bind_of_ok hload,
    run_exchangePair_expected hload hexp, Bounded.run_bind]
  rcases hps : x.placesLo t with ⟨e | ps, t₁⟩
  · rw [Fallible.bind_of_error hps] at hlo
    exact .inl ⟨e, t₁, rfl, Fallible.bind_of_error hlo⟩
  rw [Fallible.bind_of_ok hps] at hlo
  obtain ⟨hstored, hregs⟩ := stored_of_ok hlo
  obtain ⟨f, hhi⟩ :=
    run_storeHi x s.regs.toHotRegs (x.putLo s.regs.toHotRegs ps t₁)
  refine .inr ⟨ps, t₁, rfl, ?_⟩
  rw [Fallible.bind_of_ok hlo, Bounded.run_bind]
  rcases hqs : x.placesHi (x.putLo s.regs.toHotRegs ps t₁) with ⟨e | qs, t₂⟩
  · rw [Fallible.bind_of_error hqs] at hhi
    exact .inl ⟨e, t₂, rfl, Fallible.bind_of_error hhi⟩
  · rw [Fallible.bind_of_ok hqs] at hhi
    obtain ⟨hstored', hregs'⟩ := stored_of_ok hhi
    rw [Fallible.bind_of_ok hhi]
    refine .inr ⟨qs, t₂, _, rfl, rfl, hexp, ⟨_, hstored, hstored'⟩, ?_⟩
    show { (f qs t₂).regs with rflags := (f qs t₂).regs.rflags.insert RFlags.ZF }
      = { s.regs with rip := (f qs t₂).regs.rip, rflags := s.regs.rflags.insert RFlags.ZF }
    rw [hregs', hregs, hfile.regs]

end Expected

/-- What a fault that is not torn leaves. -/
theorem ExchangeLaw.of_error {s s' : Machine β} {e : Exception}
    (hrun : (group9 : Calm β U32).run s = (.error e, s'))
    (hbytes : ∀ a : U64, byte s'.bus a = byte (probePair s).2.bus a)
    (hmarked : s.Marked (probePair s).2) (h : Rewinds s s') :
    ExchangeLaw s where
  fault e' t ht := by
    rw [hrun] at ht
    cases ht
    exact ⟨hbytes, hmarked, h.rewind s.regs.gpr⟩
  success n t ht := by
    rw [hrun] at ht
    cases ht

/-- An exchange that completes meets the law. -/
theorem ExchangeLaw.of_ok {s t s' : Machine β} {n : U32}
    {x : Pair} {lo hi : U64} (hrun : (group9 : Calm β U32).run s = (.ok n, s'))
    (hload : loadPair.run s = (.ok (x, lo, hi), t)) (hst : s.Marked t)
    (h : x.Swapped lo hi s t s' ∨ x.Refused lo hi s t s') : ExchangeLaw s where
  fault e t' ht := by
    rw [hrun] at ht
    cases ht
  success n' t' ht := by
    rw [hrun] at ht
    cases ht
    exact ⟨x, lo, hi, t, hload, hst, h⟩

section Expected

variable {x : Pair} {lo hi : U64} {s t t₁ : Machine β} {ps : List U64}

/-- What the low half's places leave, nothing stored, and the probe besides. -/
theorem unstored_placesLo (hst : Unstored s t) (hlo : (x.placesLo t).2 = t₁) :
    Unstored s t₁ := by
  have hfound := unstored_placesHalf x.z x.seg x.off t
  have hplaces : (placesHalf x.z x.seg x.off t).2 = t₁ := hlo
  rw [hplaces] at hfound
  exact trans_of Unstored hst hfound

/-- An expected exchange that is not torn keeps the law. -/
theorem exchange_lawful_expected
    (hload : loadPair.run s = (.ok (x, lo, hi), t))
    (hst : Unstored s t) (hexp : x.Expected lo hi s.regs.toHotRegs)
    (htorn : ¬ s.Torn) :
    ExchangeLaw s := by
  have hprobe := probePair_expected hload hexp
  rcases run_group9_expected hload hexp with ⟨e, t₁, hlo, hrun⟩ | ⟨ps, t₁, hlo, hrest⟩
  · have hfound : Unstored s t₁ := unstored_placesLo hst (by rw [hlo])
    rw [hlo] at hprobe
    exact .of_error hrun (fun _ => by rw [hprobe]) (hprobe ▸ hfound.memory)
      hfound.toRewinds
  have hfound : Unstored s t₁ := unstored_placesLo hst (by rw [hlo])
  rw [hlo] at hprobe
  rcases hrest with ⟨e, t₂, hhi, hrun⟩ | ⟨qs, t₂, s', -, hrun, hswapped⟩
  case inr => exact .of_ok hrun hload hst.memory (.inl hswapped)
  -- where it is not torn, the store of the low half has left no trace
  have hbytes : ∀ a : U64, byte t₂.bus a = byte (probePair s).2.bus a := by
    intro a
    rw [hprobe]
    by_contra hne
    exact htorn ⟨x, lo, hi, t, ps, t₁, hload, hexp, hlo, e, t₂, hhi, a, hne⟩
  have hplaces :=
    unstored_placesHalf x.z x.seg x.off' (x.putLo s.regs.toHotRegs ps t₁)
  have hlast :
    (placesHalf x.z x.seg x.off' (x.putLo s.regs.toHotRegs ps t₁)).2 = t₂ :=
    congrArg Prod.snd hhi
  rw [hlast] at hplaces
  refine .of_error hrun hbytes ?_
    (hfound.toRewinds.trans
      ((rewinds_putLo x _ ps t₁).trans hplaces.toRewinds))
  rw [hprobe]
  exact hfound.memory.trans (unstored_placesHalf x.z x.seg x.off' t₁).memory

end Expected

/-- **An exchange is all or nothing** exactly when it is not torn. -/
theorem exchange_lawful_iff (s : Machine β) : ExchangeLaw s ↔ ¬ s.Torn := by
  constructor
  · rintro hlaw ⟨x, lo, hi, t, ps, t₁, hload, hexp, hlo, e, t₂, hhi, a, hbyte⟩
    have hprobe := probePair_expected hload hexp
    rw [hlo] at hprobe
    rcases run_group9_expected hload hexp with ⟨e', t', hlo', -⟩ | ⟨ps', t', hlo', hrest⟩
    · cases hlo.symm.trans hlo'
    cases hlo.symm.trans hlo'
    rcases hrest with ⟨e', t', hhi', hrun⟩ | ⟨qs, t', s', hhi', -⟩
    · cases hhi.symm.trans hhi'
      have hsame := (hlaw.fault e t₂ hrun).1 a
      rw [hprobe] at hsame
      exact hbyte hsame
    · cases hhi.symm.trans hhi'
  · intro htorn
    have hst := unstored_loadPair s
    rcases hload :
      loadPair.run s with ⟨e | ⟨x, lo, hi⟩, t⟩ <;> rw [hload] at hst
    · have hrun : (group9 : Calm β U32).run s = (.error e, t) := by
        rw [group9_eq, Bounded.run_bind, Fallible.bind_of_error hload]
      have hprobe :
        (probePair s).2 = t := by rw [probePair, Fallible.bind_of_error hload]
      exact .of_error hrun (fun _ => by rw [hprobe])
        (hprobe ▸ hst.memory) hst.toRewinds
    by_cases hexp : x.Expected lo hi s.regs.toHotRegs
    · exact exchange_lawful_expected hload hst hexp htorn
    · obtain ⟨s', h, hrefused⟩ := run_exchangePair_unexpected hload hexp
      have hrun : (group9 : Calm β U32).run s = (.ok 10, s') := by
        rw [group9_eq, Bounded.run_bind, Fallible.bind_of_ok hload]
        exact h
      exact .of_ok hrun hload hst.memory (.inr hrefused)

end Law

/-- Flat 32-bit protection under two-level paging with WP set. Pages 0 to 3
map to themselves and may be written, page 4 maps to itself and may only be
read. CMPXCHG8B [ESI] with its ModRM byte at 2, ESI 0x3FFC, EDX:EAX zero as
memory is, and ECX:EBX one. -/
def tornBench : Machine (FlatBus Unit) :=
  { Cpu.new with
    osize := O32
    asize := O32
    regs := { Cpu.new.regs with
      cr0 := cr0.PE ||| cr0.PG ||| cr0.WP
      cr3 := 0x1000
      rip := 2
      gpr := fun i => if i = reg.RSI then 0x3FFC
        else if i = reg.RBX then 1 else 0
      seg := fun i =>
        if i = reg.CS
          then { sel := 8, base := 0, limit := 0xFFFFFFFF, attrs := 0xC9B }
        else { sel := 16, base := 0, limit := 0xFFFFFFFF, attrs := 0xC93 } }
    bus := {
      mem := fun a => if a = 2 then 0x0E else if a = 0x1000 then 0x07
        else if a = 0x1001 then 0x20
        else if a = 0x2000 then 0x07 else if a = 0x200C then 0x07
          else if a = 0x200D then 0x30
        else if a = 0x2010 then 0x05 else if a = 0x2011 then 0x40 else 0
      ports := () } }

/-- The first half is one already when the store of the second faults. -/
theorem exchange_not_lawful_torn :
    ((group9 : Calm (FlatBus Unit) U32).run tornBench).1 = .error ⟨14, some 3⟩
      ∧ tornBench.word 0x3FFC = 0
      ∧ ((group9 : Calm (FlatBus Unit) U32).run tornBench).2.word 0x3FFC = 1
      ∧ ¬ ExchangeLaw tornBench := by
  refine ⟨by decide +kernel, by decide +kernel, by decide +kernel, fun h => ?_⟩
  obtain ⟨hkept, -⟩ :=
    h.fault ⟨14, some 3⟩ ((group9 : Calm (FlatBus Unit) U32).run tornBench).2
    (Prod.ext (by decide +kernel) rfl)
  exact absurd (hkept 0x3FFC) (by decide +kernel)

end Remu.X64
