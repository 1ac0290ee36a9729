/-
Stores of several bytes.

A store finds a physical address for each of its bytes (`locate`) before
the first byte lands. A store that faults has therefore done what those
translations do and no more: it has set accessed and dirty bits in the
entries it went through (`OnlyMarks`). A store that succeeds has put its
bytes down in order and stamped the pages of the first and the last, which
are the pages of all.

Storing byte by byte, each byte translated after the one before it has
landed, comes to the same as long as no byte lands in the table entries
that translate another (`Apart`). The run that stores as it goes is then
ahead of the other by the bytes it has stored already, and by nothing else
(`AheadBy`).
-/
import Remu.Lib.Paired
import Remu.X64.ReadBack
import Remu.X64.Stamps
import Remu.X64.WalkEffect

namespace Remu.X64

open Word ByteRam

-- ======== entries as bytes

section Entries

variable {β : Type} [ByteRam 64 β]

/-- An entry is its bytes. -/
theorem tableWord_congr {wide : Bool} {b b' : β} {a : U64}
    (h : ∀ y ∈ entryBytes wide a, byte b' y = byte b y) :
    tableWord wide b' a = tableWord wide b a := by
  have hbyte : ∀ n, n = (if wide then 8 else 4) → ∀ i < n,
      byte b' (a + BitVec.ofNat 64 i) = byte b (a + BitVec.ofNat 64 i) := by
    rintro n rfl i hi
    exact h _ (List.mem_map_of_mem (List.mem_range.2 hi))
  unfold tableWord
  cases wide with
  | true =>
    rw [if_pos rfl, if_pos rfl]
    exact word64At_congr (hbyte 8 rfl)
  | false =>
    rw [if_neg (by decide), if_neg (by decide)]
    exact congrArg (BitVec.setWidth 64) (word32At_congr (hbyte 4 rfl))

/-- Marking a path commutes with stores elsewhere. -/
theorem byte_markPath_pokeAll {wide write : Bool} {rd rd' : U64 → U64}
    {path : List U64} {b b' : β}
    {done : List (U64 × U8)}
    (hb : ∀ x : U64, byte b' x = byte (pokeAll b done) x)
    (hrd : ∀ a ∈ path, rd' a = rd a)
    (hap : ∀ a ∈ path, ∀ y ∈ entryBytes wide a, ∀ q ∈ done,
      cell β q.1 ≠ cell β y) (x : U64) :
    byte (markPath wide write rd' path b') x
      = byte (pokeAll (markPath wide write rd path b) done) x := by
  induction path generalizing b b' with
  | nil => exact hb x
  | cons a rest ih =>
    refine ih (fun y => ?_) (fun z hz => hrd z (List.mem_cons_of_mem _ hz))
      fun z hz => hap z (List.mem_cons_of_mem _ hz)
    rw [hrd a List.mem_cons_self]
    by_cases hmark : pteMarks.mark (rd a) (rest.isEmpty && write) ≠ rd a
    · rw [if_pos hmark, if_pos hmark]
      show byte (putEntry wide b' a _) y
        = byte (pokeAll (putEntry wide b a _) done) y
      rw [putEntry_eq_pokeAll, putEntry_eq_pokeAll,
        byte_pokeAll_congr _ (hb y)]
      exact byte_pokeAll_comm b (fun p hp q hq =>
        hap a List.mem_cons_self _ (mem_entryStores hq) p hp) y
    · rw [if_neg hmark, if_neg hmark]
      exact hb y

end Entries

-- ======== only marks

section Marks

variable {β : Type} [Bus β] [Ram β]

namespace Machine

/-- The tables are where they were, and no memory has changed but for
accessed and dirty bits that are set now. -/
structure MarksUp (s s' : Machine β) : Prop where
  paging : s'.paging = s.paging
  tables : s'.regs.SameTables s.regs.toColdRegs
  grows : ∀ a, EntryAligned s.wide a → Grows pte.MARKS (s.word a) (s'.word a)

variable {s s' s'' : Machine β}

/-- No mark has been set. -/
theorem MarksUp.refl (s : Machine β) : s.MarksUp s :=
  ⟨rfl, ⟨rfl, rfl, rfl⟩, fun _ _ => .refl _ _⟩

omit [Bus β] [Ram β] in
/-- The kind of table goes by the control registers. -/
theorem wide_of_tables (h : s'.regs.SameTables s.regs.toColdRegs) :
    s'.wide = s.wide := by
  rw [Cpu.wide, Cpu.wide, h.cr4]

omit [Bus β] [Ram β] in
theorem longMode_of_tables (h : s'.regs.SameTables s.regs.toColdRegs) :
    s'.longMode = s.longMode := by
  rw [Cpu.longMode, Cpu.longMode, h.efer]

/-- Marks set, and then more. -/
theorem MarksUp.trans (h : s.MarksUp s') (h' : s'.MarksUp s'') :
    s.MarksUp s'' where
  paging := h'.paging.trans h.paging
  tables := ⟨h'.tables.cr3.trans h.tables.cr3,
    h'.tables.cr4.trans h.tables.cr4, h'.tables.efer.trans h.tables.efer⟩
  grows a ha :=
    (h.grows a ha).trans (h'.grows a (by rwa [wide_of_tables h.tables]))

/-- A value that has gained none of the marks is what it was. -/
theorem eq_of_grows {m x y : U64} (h : Grows m x y) (hy : y &&& m = 0) :
    y = x := by
  obtain ⟨k, rfl⟩ := h
  rw [BitVec.and_or_distrib_right, BitVec.and_assoc, BitVec.and_self] at hy
  rw [(BitVec.or_eq_zero_iff.1 hy).2]
  exact BitVec.or_zero

/-- A pointer entry that is in use has neither mark: they are reserved
there. -/
theorem pointer_unmarked {rd : U64 → U64} {cr3 lin : U64}
    {nxe : Bool} {m : Mapping}
    (hm : wideMapping rd cr3 false nxe lin = some m) :
    rd (pdpteAddr cr3 lin) &&& pte.MARKS = 0 := by
  obtain ⟨table, htable, -⟩ := Option.bind_eq_some_iff.1 hm
  simp only [wideTable, Bool.false_eq_true, if_false, pdpteTable] at htable
  split at htable
  · cases htable
  split at htable
  · cases htable
  case isFalse hrsvd =>
    have hzero := not_not.1 hrsvd
    calc rd (pdpteAddr cr3 lin) &&& pte.MARKS
        = rd (pdpteAddr cr3 lin)
            &&& (pte.RW ||| pte.US ||| pte.PS ||| pte.NX ||| 0x1E0)
            &&& pte.MARKS := by
          rw [BitVec.and_assoc]
          congr 1
      _ = 0 := by
          rw [hzero]
          exact BitVec.zero_and

/-- Marks make no mapping. -/
theorem MarksUp.mapping_back (h : s.MarksUp s') {lin : U64} {m : Mapping}
    (hm : s'.mapping lin = some m) : s.mapping lin = some m := by
  have hwide := wide_of_tables h.tables
  have hlong := longMode_of_tables h.tables
  obtain ⟨hcr3, hcr4, hefer⟩ := h.tables
  refine Machine.mapping_congr ⟨hcr3.symm, hcr4.symm, hefer.symm⟩ hm
    (fun a ha => ?_) fun hw hl => ?_
  · have hal := Machine.mapping_aligned hm a ha
    rw [hwide] at hal
    exact (h.grows a hal).outside.symm
  · rw [Machine.mapping_wide hw, hl] at hm
    have hword : get64 s'.bus (pdpteAddr s'.regs.cr3 lin)
      = s'.word (pdpteAddr s'.regs.cr3 lin) := by
      rw [word, tableWord, hw, if_pos rfl]
    have hal : EntryAligned s.wide (pdpteAddr s'.regs.cr3 lin) := by
      rw [EntryAligned, ← hwide, hw, if_pos rfl]
      exact pdpteAddr_aligned _ _
    exact (eq_of_grows (h.grows _ hal) (hword ▸ pointer_unmarked hm)).symm

/-- A walk that succeeds sets marks. -/
theorem MarksUp.of_walked {lin : U64} {write : Bool} {m : Mapping}
    (hm : s.mapping lin = some m)
    (h : s.Walked lin write m s') : s.MarksUp s' := by
  refine ⟨?_, h.sameTables, h.marked hm⟩
  obtain ⟨ic, e, rfl, -⟩ := h.state
  rfl

/-- The bytes of the entries a translation of `lin` marks. -/
def pathBytes (s : Machine β) (lin : U64) : List U64 :=
  if s.paging then (s.mapping lin).elim [] fun m =>
    m.path.flatMap (entryBytes s.wide) else []

/-- The bytes of the entries that translate `lin`: those it marks, and
the pointer entry above them in PAE mode. -/
def tableBytes (s : Machine β) (lin : U64) : List U64 :=
  s.pathBytes lin ++
    if s.paging && s.wide && !s.longMode
      then entryBytes s.wide (pdpteAddr s.regs.cr3 lin) else []

/-- The bytes of an entry on the path. -/
theorem mem_pathBytes (hp : s.paging = true) {lin : U64} {m : Mapping}
    (hm : s.mapping lin = some m)
    {a y : U64} (ha : a ∈ m.path) (hy : y ∈ entryBytes s.wide a) :
    y ∈ s.pathBytes lin := by
  rw [pathBytes, if_pos hp, hm]
  exact List.mem_flatMap.2 ⟨a, ha, hy⟩

/-- What translating the addresses `lins` may do to memory: mark the
entries that translate them. -/
structure OnlyMarks (s : Machine β) (lins : List U64) (s' : Machine β) :
    Prop extends
    s.MarksUp s' where
  outside : ∀ x, (∀ l ∈ lins, ∀ y ∈ s.pathBytes l, cell β x ≠ cell β y) →
    byte s'.bus x = byte s.bus x

/-- A translation marks the entries that translate its address, however it
ends. -/
theorem OnlyMarks.translate {lins : List U64} (h : s.OnlyMarks lins s')
    (hp : s'.paging = true)
    {lin : U64} (hlin : lin ∈ lins) (access : Access) :
    s.OnlyMarks lins ((X64.translate lin access).run s').2 := by
  cases hhit : s'.tlbHit lin access with
  | true =>
    obtain ⟨q, hrun, -⟩ := run_translate_hit hhit
    rw [hrun]
    exact h
  | false =>
    rw [run_translate_miss hhit]
    have hrun := run_walk lin access s'
    rcases hw : (walk lin access).run s' with ⟨e | q, t⟩ <;> rw [hw] at hrun
    · obtain ⟨rfl, -⟩ := hrun
      exact ⟨⟨h.paging, h.tables, h.grows⟩, h.outside⟩
    · obtain ⟨m, hm, -, -, hwalked⟩ := hrun
      have hmarks := MarksUp.of_walked hm hwalked
      refine ⟨h.toMarksUp.trans hmarks, fun x hx => ?_⟩
      obtain ⟨leaf, hleaf, -⟩ := Machine.mapping_leaf hm
      have honly : MarksOnly s'.wide (access == .write) m.path leaf s'.bus _ :=
        marksOnly_markPath s'.bus (Machine.mapping_aligned hm) hleaf
      obtain ⟨ic, e, rfl, -⟩ := hwalked.state
      refine (honly.outside x fun a ha y hy => ?_).trans (h.outside x hx)
      rw [wide_of_tables h.tables] at hy
      exact hx lin hlin y
        (mem_pathBytes (h.paging.symm.trans hp) (h.toMarksUp.mapping_back hm) ha hy)

end Machine

end Marks

-- ======== finding places

section Locate

variable {β : Type} [Bus β]

/-- The physical address a store to `lin` goes to. -/
def locate (lin : U64) : Calm β U64 := do
  let s ← self
  if !s.paging then return lin
  else do
    let phys ← translate lin .write
    return phys.val

/-- The physical addresses of the bytes at `lins`, in order. -/
def locateAll (lins : List U64) : Exec β (List U64) :=
  Staged.findAll (fun lin => (locate lin).run) lins

/-- Stamp the page of `p` and store a byte there. -/
def deposit (p : U64) (v : U8) (s : Machine β) : Machine β :=
  { s with icache := s.icache.stampWrite p, bus := Bus.write s.bus p v }

/-- Store bytes one by one, each with a translation of its own. -/
def storeEach : List (U64 × U8) → Calm β Unit
  | [] => pure ()
  | (lin, v) :: rest => do
    linWrite8 lin v
    storeEach rest

/-- Without paging an address is its own place. -/
theorem run_locate_flat {s : Machine β} (hp : s.paging = false) (lin : U64) :
    (locate lin).run s = (.ok lin, s) := by
  rw [locate, Bounded.run_bind, Fallible.bind_of_ok (run_self s),
    hp, if_pos (by rfl)]
  rfl

/-- With paging the place of an address is its translation for writing. -/
theorem run_locate_paged {s : Machine β} (hp : s.paging = true) (lin : U64) :
    (locate lin).run s = ((·.val) <$> (translate lin .write).run) s := by
  rw [locate, Bounded.run_bind, Fallible.bind_of_ok (run_self s), hp,
    if_neg (by decide)]
  rfl

/-- A byte store finds its place and fills it. -/
theorem run_linWrite8 (lin : U64) (v : U8) :
    (linWrite8 lin v : Calm β Unit).run
      = (locate lin).run >>= fun p => Fallible.modify (deposit p v) := by
  funext s
  rw [Fallible.bind_apply, linWrite8, Bounded.run_bind,
    Fallible.bind_of_ok (run_self s)]
  cases hp : s.paging with
  | false =>
    rw [run_locate_flat hp, if_pos (by rfl)]
    rfl
  | true =>
    rw [run_locate_paged hp, if_neg (by decide), Bounded.run_bind,
      Fallible.bind_apply, Fallible.map_apply]
    rcases (translate lin .write).run s with ⟨e | p, s'⟩ <;> rfl

/-- Storing byte by byte. -/
theorem run_storeEach (l : List (U64 × U8)) :
    (storeEach l : Calm β Unit).run
      = Staged.fillEach (fun lin => (locate lin).run) deposit l := by
  induction l with
  | nil => rfl
  | cons x rest ih =>
    obtain ⟨lin, v⟩ := x
    rw [storeEach, Bounded.run_bind, run_linWrite8, ih, bind_assoc]
    rfl

/-- Finding all the places, without paging. -/
theorem locateAll_flat {s : Machine β}
    (hp : s.paging = false) (lins : List U64) :
    locateAll lins s = (.ok lins, s) := by
  induction lins with
  | nil => rfl
  | cons lin rest ih =>
    rw [locateAll, Staged.findAll,
      Fallible.bind_of_ok (run_locate_flat hp lin)]
    change (locateAll rest >>= _) s = _
    rw [Fallible.bind_of_ok ih]
    rfl

/-- With paging finding all the places is translating them all. -/
theorem locateAll_paged {s : Machine β}
    (hp : s.paging = true) (lins : List U64) :
    locateAll lins s = (translateAll lins).run s := by
  induction lins generalizing s with
  | nil => rfl
  | cons lin rest ih =>
    rw [locateAll, Staged.findAll, translateAll, Bounded.run_bind,
      Fallible.bind_apply, Fallible.bind_apply, run_locate_paged hp,
      Fallible.map_apply]
    rcases hrun : (translate lin .write).run s with ⟨e | p, s'⟩
    · rfl
    · have hp' : s'.paging = true := by
        rw [Cpu.paging, (MemOnly.translate _ _ _ _ _ hrun).1]
        exact hp
      show (locateAll rest >>= fun ps => pure (p.val :: ps)) s'
        = ((translateAll rest).run >>= fun ps => pure (p.val :: ps)) s'
      rw [Fallible.bind_apply, ih hp', Fallible.bind_apply]

/-- Bytes of the page of `lin` that follow it go where it goes. -/
theorem locateAll_page [Ram β] {s : Machine β} (hp : s.paging = true)
    {lin : U64} {k : Nat} (hk : lin.toNat % 4096 + k < 4096) :
    locateAll (bytesFrom lin (k + 1)) s
      = ((translate lin .write).run >>= fun p =>
        pure (bytesFrom p.val (k + 1))) s := by
  rw [locateAll_paged hp, Fallible.bind_apply]
  have hlist : ∀ a : U64, bytesFrom a (k + 1)
      = a :: (List.range k).map fun i => a + BitVec.ofNat 64 (i + 1) := by
    intro a
    rw [bytesFrom, List.range_succ_eq_map, List.map_cons, List.map_map,
      BitVec.add_zero]
    rfl
  rw [hlist, translateAll, Bounded.run_bind, Fallible.bind_apply]
  rcases hrun : (translate lin .write).run s with ⟨e | p, s'⟩
  · rfl
  · have hheld := Machine.Held.of_translate hrun
    -- The page is in the TLB now, so the other bytes are found without a walk.
    have hrest : ∀ is : List Nat, (∀ i ∈ is, i < k) →
        (translateAll (is.map fun i => lin + BitVec.ofNat 64 (i + 1))).run s'
          = (.ok (is.map fun i => p.val + BitVec.ofNat 64 (i + 1)), s') := by
      intro is his
      induction is with
      | nil => rfl
      | cons i is ih =>
        have hi : i < k := his i List.mem_cons_self
        have hoff : lin.toNat % 4096 + (i + 1) < 4096 := by omega
        have hpage : (lin + BitVec.ofNat 64 (i + 1)) >>> 12 = lin >>> 12 :=
          page_add lin (i + 1) hoff
        have hhit : s'.tlbHit (lin + BitVec.ofNat 64 (i + 1)) .write
          = true := by
          have h := hheld.hit
          rw [Machine.tlbHit] at h ⊢
          rw [hpage]
          exact h
        obtain ⟨q, hq, hval⟩ := run_translate_hit hhit
        have hqp : q.val = p.val + BitVec.ofNat 64 (i + 1) := by
          rw [hval, ← hheld.phys, Machine.tlbPhys, Machine.tlbPhys, hpage]
          exact or_offset_add
            (Frame.aligned
            ⟨_, (s'.tlb.entries (Tlb.slot (lin >>> 12))).framed⟩) hoff
        rw [List.map_cons, translateAll, Bounded.run_bind,
          Fallible.bind_of_ok hq, Bounded.run_bind,
          Fallible.bind_of_ok
          (ih fun j hj => his j (List.mem_cons_of_mem _ hj)), hqp]
        rfl
    show ((translateAll _).run >>= fun ps => pure (p.val :: ps)) s'
      = (.ok (bytesFrom p.val (k + 1)), s')
    rw [Fallible.bind_of_ok (hrest _ fun i hi => List.mem_range.1 hi), hlist]
    rfl

end Locate

-- ======== stores

/-- RAM whose wide stores are all composed of the bus's byte stores. -/
class WordRam (β : Type) [Bus β] extends PlainRam β where
  write16_eq : ∀ (b : β) a v, Bus.write16 b a v = put16 b a v

instance instWordRamFlatBus {π : Type} [Ports π] : WordRam (FlatBus π) where
  write16_eq _ _ _ := rfl

instance instWordRamLinearMemory {extra : Nat} :
    WordRam (LinearMemory extra) where
  write16_eq _ _ _ := rfl

/-- The widths of a store. -/
inductive StoreWidth where
  | byte
  | word
  | dword
  | qword
deriving DecidableEq, Repr

/-- The number of bytes of a width. -/
def StoreWidth.bytes : StoreWidth → Nat
  | .byte => 1
  | .word => 2
  | .dword => 4
  | .qword => 8

section Store

variable {β : Type} [Bus β]

/-- The store of each width. -/
def linStore : (z : StoreWidth) → U64 → BitVec (8 * z.bytes) → Calm β Unit
  | .byte => linWrite8
  | .word => linWrite16
  | .dword => linWrite32
  | .qword => linWrite64

omit [Bus β] in
/-- The bytes of a value are those of its zero extension. -/
theorem byteStores_setWidth {k : Nat} (hk : k ≤ 64)
    (as : List U64) (v : BitVec k) :
    byteStores as (v.setWidth 64) = Remu.byteStores as v := by
  induction as generalizing v with
  | nil => rfl
  | cons a rest ih =>
    have hlow : ((v.setWidth 64).setWidth 8 : U8) = v.setWidth 8 := by
      refine BitVec.eq_of_getLsbD_eq fun i hi => ?_
      rw [BitVec.getLsbD_setWidth, BitVec.getLsbD_setWidth,
        BitVec.getLsbD_setWidth, decide_eq_true (show i < 64 by omega),
        Bool.true_and]
    have hshift : v.setWidth 64 >>> 8 = (v >>> 8).setWidth 64 := by
      refine BitVec.eq_of_toNat_eq ?_
      have hv := v.isLt
      have hpow : 2 ^ k ≤ 2 ^ 64 := Nat.pow_le_pow_right (by decide) hk
      have hle : v.toNat / 2 ^ 8 ≤ v.toNat := Nat.div_le_self _ _
      rw [BitVec.toNat_ushiftRight, BitVec.toNat_setWidth,
        BitVec.toNat_setWidth, BitVec.toNat_ushiftRight,
        Nat.shiftRight_eq_div_pow, Nat.shiftRight_eq_div_pow,
        Nat.mod_eq_of_lt (by omega), Nat.mod_eq_of_lt (by omega)]
    rw [byteStores, Remu.byteStores, hlow, hshift, ih]

/-- What the wide stores have in common. -/
theorem run_wideStore [PlainRam β] {k w : Nat} {m : U64} (lin : U64)
    {v : BitVec w} {W : β → U64 → β}
    (hk : k + 1 < 4096) (hm : m.toNat + k = 4096) (hw : w ≤ 64)
    (hW : ∀ b a, W b a = pokeAll b (Remu.byteStores (bytesFrom a (k + 1)) v))
    (hflat : ∀ b a, BusStore b a (a + BitVec.ofNat 64 k) (W b a))
    (s : Machine β) :
    (do
      let s ← self
      if !s.paging
        then stampedStore lin (lin + BitVec.ofNat 64 k) (W · lin) (hflat · lin)
      else if h : lin &&& 0xFFF < m then do
        let phys ← translate lin .write
        pageStore phys.val (phys.val + BitVec.ofNat 64 k) (W · phys.val)
          (translated_page phys k hm.le h) (hflat · phys.val)
      else linWriteSplit lin k hk (v.setWidth 64) : Calm β Unit).run s
      = (locateAll (bytesFrom lin (k + 1)) >>= fun ps =>
          Fallible.modify (scatter ps (v.setWidth 64))) s := by
  have hscatter : ∀ (p : U64) (t : Machine β),
      scatter (bytesFrom p (k + 1)) (v.setWidth 64) t
      = { t with
          icache := t.icache.stampWriteSpan p (p + BitVec.ofNat 64 k),
          bus := W t.bus p } := by
    intro p t
    obtain ⟨hhead, hlast⟩ : (bytesFrom p (k + 1)).headD 0 = p
        ∧ (bytesFrom p (k + 1)).getLastD 0 = p + BitVec.ofNat 64 k :=
          bytesFrom_ends p k
    rw [scatter, hhead, hlast, byteStores_setWidth hw, hW, pokeAll]
    simp only [PlainRam.write_eq]
  rw [Bounded.run_bind, Fallible.bind_of_ok (run_self s), Fallible.bind_apply]
  cases hp : s.paging with
  | false =>
    rw [if_pos (by rfl), locateAll_flat hp]
    exact congrArg (Prod.mk (Except.ok ())) (hscatter lin s).symm
  | true =>
    rw [if_neg (by decide)]
    split
    case isTrue h =>
      have hin : lin.toNat % 4096 + k < 4096 := by
        have hlt := BitVec.lt_def.1 h
        rw [toNat_and_FFF] at hlt
        omega
      rw [locateAll_page hp hin, Bounded.run_bind, Fallible.bind_apply,
        Fallible.bind_apply]
      rcases hrun : (translate lin .write).run s with ⟨e | p, s'⟩
      · rfl
      · have hpage := translated_page p k hm.le h
        have hstamp :
            s'.icache.stampWriteSpan p.val (p.val + BitVec.ofNat 64 k)
            = s'.icache.stampWrite p.val := by
          rw [ICache.stampWriteSpan,
            if_neg (by rw [hpage]; exact not_not.2 rfl)]
        refine (congrArg (Prod.mk (Except.ok ()))
          ((hscatter p.val s').trans ?_)).symm
        rw [hstamp]
    case isFalse => rw [locateAll_paged hp]; rfl

/-- A byte store is the store of one byte. -/
theorem run_byteStore [PlainRam β] (lin : U64) (v : U8) (s : Machine β) :
    (linWrite8 lin v).run s = (locateAll (bytesFrom lin 1) >>= fun ps =>
      Fallible.modify (scatter ps (v.setWidth 64))) s := by
  have hscatter : ∀ (p : U64) (t : Machine β),
    scatter [p] (v.setWidth 64) t = deposit p v t := by
    intro p t
    have hstores : byteStores [p] (v.setWidth 64) = [(p, v)] := by
      rw [byteStores_setWidth (by decide), Remu.byteStores, Remu.byteStores,
        BitVec.setWidth_eq]
    rw [scatter, hstores, List.headD_cons, List.getLastD_cons,
      List.getLastD_nil, ICache.stampWriteSpan, if_neg (not_not.2 rfl)]
    rfl
  have hlocate : locateAll (bytesFrom lin 1)
      = (locate lin : Calm β U64).run >>= fun p => pure [p] := by
    rw [bytesFrom, List.range_one, List.map_singleton, BitVec.add_zero]
    rfl
  rw [run_linWrite8, hlocate, bind_assoc, Fallible.bind_apply,
    Fallible.bind_apply]
  rcases (locate lin : Calm β U64).run s with ⟨e | p, s'⟩
  · rfl
  · exact congrArg (Prod.mk (Except.ok ())) (hscatter p s').symm

/-- Every store finds the places of its bytes and then puts them down. -/
theorem run_linStore [WordRam β] (z : StoreWidth) (lin : U64)
    (v : BitVec (8 * z.bytes)) (s : Machine β) :
    (linStore z lin v).run s = (locateAll (bytesFrom lin z.bytes) >>= fun ps =>
      Fallible.modify (scatter ps (v.setWidth 64))) s := by
  cases z with
  | byte => exact run_byteStore lin v s
  | word =>
    exact run_wideStore lin (W := fun b a => Bus.write16 b a v) (by decide)
      (by decide) (by decide)
      (fun b a => (WordRam.write16_eq b a v).trans (put16_eq_pokeAll b a v))
      (fun b a => .write16 b a v) s
  | dword =>
    exact run_wideStore lin (W := fun b a => Bus.write32 b a v) (by decide)
      (by decide) (by decide)
      (fun b a => (Ram.write32_eq b a v).trans (put32_eq_pokeAll b a v))
      (fun b a => .write32 b a v) s
  | qword =>
    have hv : (v.setWidth 64 : U64) = v := BitVec.setWidth_eq v
    have hrun := run_wideStore lin (v := v) (m := 0xFF9)
      (W := fun b a => Bus.write64 b a v) (k := 7) (by decide)
        (by decide) (by decide)
      (fun b a => (Ram.write64_eq b a v).trans (put64_eq_pokeAll b a v))
      (fun b a => .write64 b a v) s
    rw [hv] at hrun ⊢
    exact hrun

end Store

-- ======== storing as one goes

section Ahead

variable {β : Type} [Bus β] [PlainRam β]

namespace Machine

variable {s s₀ s' t : Machine β} {lins : List U64} {done : List (U64 × U8)}

/-- `p` is in none of the entries that translate one of `lins`. -/
def Clear (s : Machine β) (lins : List U64) (p : U64) : Prop :=
  ∀ l ∈ lins, ∀ y ∈ s.tableBytes l, cell β p ≠ cell β y

/-- None of the places `ps` is in an entry that translates one of `lins`. -/
def Apart (s : Machine β) (lins ps : List U64) : Prop :=
  ∀ p ∈ ps, s.Clear lins p

/-- From `s₀` on only marks have been set on the way to `s`, and `t` is
`s` with the bytes `done` stored, none of them in the tables. -/
structure AheadBy (s₀ : Machine β) (lins : List U64) (done : List (U64 × U8))
    (s t : Machine β) : Prop where
  marks : s₀.MarksUp s
  regs : t.regs = s.regs
  decode : t.toDecodeState = s.toDecodeState
  tlb : t.tlb = s.tlb
  bytes : ∀ x : U64, byte t.bus x = byte (pokeAll s.bus done) x
  clear : ∀ q ∈ done, s₀.Clear lins q.1

/-- Translating ahead does not change what is permitted. -/
theorem AheadBy.permits (h : s₀.AheadBy lins done s t) :
    t.tlbPermits = s.tlbPermits ∧ t.walkPermits = s.walkPermits := by
  have hua : t.userAccess = s.userAccess := by
    rw [Cpu.userAccess, Cpu.userAccess, Cpu.cpl, Cpu.cpl, Cpu.protectedMode,
      Cpu.protectedMode, h.regs, h.decode]
  refine ⟨?_, ?_⟩
  · funext e access
    simp only [Cpu.tlbPermits, hua, h.regs]
  · funext access user writable nx
    simp only [Cpu.walkPermits, hua, h.regs]

/-- The entries that translate `lin` are the same ahead. -/
theorem AheadBy.word (h : s₀.AheadBy lins done s t)
    {lin a : U64} (hlin : lin ∈ lins)
    (ha : ∀ y ∈ entryBytes s.wide a, y ∈ s₀.tableBytes lin) :
    t.word a = s.word a := by
  have hwide : t.wide = s.wide := by rw [Cpu.wide, Cpu.wide, h.regs]
  rw [Machine.word, Machine.word, hwide]
  refine tableWord_congr fun y hy => (h.bytes y).trans ?_
  exact byte_pokeAll_other s.bus done fun q hq heq => h.clear q hq lin hlin y
    (ha y hy) heq.symm

/-- The table bytes of `lin` when only marks have been set since. -/
theorem MarksUp.mem_tableBytes (h : s₀.MarksUp s) (hp : s.paging = true)
    {lin : U64} {m : Mapping} (hm : s.mapping lin = some m) :
    (∀ a ∈ m.path, ∀ y ∈ entryBytes s.wide a, y ∈ s₀.tableBytes lin)
      ∧ (s.wide = true → s.longMode = false →
        ∀ y ∈ entryBytes s.wide (pdpteAddr s.regs.cr3 lin),
          y ∈ s₀.tableBytes lin) := by
  have hwide := wide_of_tables h.tables
  have hlong := longMode_of_tables h.tables
  rw [h.paging] at hp
  refine ⟨fun a ha y hy => ?_, fun hw hl y hy => ?_⟩
  · rw [hwide] at hy
    exact List.mem_append_left _ (mem_pathBytes hp (h.mapping_back hm) ha hy)
  · rw [hwide] at hw hy
    rw [hlong] at hl
    rw [h.tables.cr3] at hy
    refine List.mem_append_right _ ?_
    rw [hp, hw, hl, if_pos (by rfl), ← hw]
    exact hy

omit [Bus β] [PlainRam β] in
/-- The TLB permits a write to dirty pages only. -/
theorem dirty_of_permits {c : Cpu} {e : TlbEntry}
    (h : c.tlbPermits e .write = true) :
    e.dirty = true := by
  dsimp only [Cpu.tlbPermits] at h
  exact (Bool.and_eq_true_iff.1 h).2

omit [Bus β] [PlainRam β] in
/-- Two dirty entries for one page that say the same are the same. -/
theorem entry_eq {e e' : TlbEntry} {m : Mapping}
    (htag : e.tag = e'.tag) (hs : e.Shows m)
    (hs' : e'.Shows m) (hd : e.dirty = e'.dirty) : e = e' := by
  obtain ⟨hp, hu, hw, hn⟩ := hs
  obtain ⟨hp', hu', hw', hn'⟩ := hs'
  cases e
  cases e'
  simp only at htag hp hu hw hn hp' hu' hw' hn' hd
  subst htag hp hu hw hn hd hp' hu' hw' hn'
  rfl

/-- A byte is translated ahead as it is behind. -/
theorem AheadBy.translate (h : s₀.AheadBy lins done s t)
    (hpg : s.paging = true) {lin : U64}
    (hlin : lin ∈ lins) {p : Translated lin}
    (hrun : (X64.translate lin .write).run s = (.ok p, s')) :
    ∃ q t', (X64.translate lin .write).run t = (.ok q, t') ∧ q.val = p.val
      ∧ s₀.AheadBy lins done s' t' := by
  have hhits : t.tlbHit lin .write = s.tlbHit lin .write := by
    rw [tlbHit, tlbHit, h.tlb, h.permits.1]
  cases hhit : s.tlbHit lin .write with
  | true =>
    obtain ⟨p', hp', hval⟩ := run_translate_hit hhit
    rw [hrun] at hp'
    obtain ⟨rfl, rfl⟩ : p = p' ∧ s' = s := by
      cases hp'
      exact ⟨rfl, rfl⟩
    obtain ⟨q, hq, hqval⟩ := run_translate_hit (hhits.trans hhit)
    refine ⟨q, t, hq, ?_, h⟩
    rw [hqval, hval, tlbPhys, tlbPhys, h.tlb]
  | false =>
    rw [run_translate_miss hhit] at hrun
    have hs := run_walk lin .write s
    rw [hrun] at hs
    obtain ⟨m, hm, hperm, hp, hwalked⟩ := hs
    obtain ⟨hpath, hptr⟩ := h.marks.mem_tableBytes hpg hm
    have hword :
      ∀ a ∈ m.path, t.word a = s.word a := fun a ha => h.word hlin (hpath a ha)
    have hmt : t.mapping lin = some m := by
      refine Machine.mapping_congr (by rw [h.regs]; exact ⟨rfl, rfl, rfl⟩) hm
        (fun a ha => by rw [hword a ha]) fun hw hl => ?_
      exact h.word hlin (hptr hw hl)
    have ht := run_walk lin .write t
    rw [run_translate_miss (hhits.trans hhit)]
    rcases hwt : (walk lin .write).run t with ⟨e | q, t'⟩ <;> rw [hwt] at ht
    · -- The same mapping grants the same access.
      have hdenied := ht.2 m hmt
      rw [h.permits.2, hperm] at hdenied
      cases hdenied
    · obtain ⟨m', hm', -, hq, hwalked'⟩ := ht
      obtain rfl : m' = m := Option.some.inj (hm'.symm.trans hmt)
      refine ⟨q, t', rfl, hq.trans hp.symm, ?_⟩
      have hmarks := MarksUp.of_walked hm hwalked
      have hd := dirty_of_permits
        (translate_holds ((run_translate_miss hhit).trans hrun)).2.1
      have hd' := dirty_of_permits
        (translate_holds
          ((run_translate_miss (hhits.trans hhit)).trans hwt)).2.1
      obtain ⟨ic, e, rfl, htag, hshows, -⟩ := hwalked.state
      obtain ⟨ic', e', rfl, htag', hshows', -⟩ := hwalked'.state
      simp only [upd_same] at hd hd'
      have hentry : e' = e :=
        entry_eq (htag'.trans htag.symm) hshows' hshows (hd'.trans hd.symm)
      have hwide : t.wide = s.wide := by rw [Cpu.wide, Cpu.wide, h.regs]
      refine ⟨h.marks.trans hmarks, h.regs, h.decode, ?_, ?_, h.clear⟩
      · show Tlb.mk _ = Tlb.mk _
        rw [hentry, h.tlb]
      · intro x
        show byte (markPath t.wide true t.word m'.path t.bus) x
          = byte (pokeAll (markPath s.wide true s.word m'.path s.bus) done) x
        rw [hwide]
        exact byte_markPath_pokeAll h.bytes hword (fun a ha y hy q hq =>
          h.clear q hq lin hlin y (hpath a ha y hy)) x

end Machine

/-- Storing as one goes stays ahead by what has been stored. -/
theorem keeps_aheadBy (s₀ : Machine β) (lins : List U64) :
    Staged.Keeps (fun lin => (locate lin).run) deposit
      (· ∈ lins) (s₀.Clear lins) (s₀.AheadBy lins) where
  put {done s t p} hfree h v := by
    refine ⟨h.marks, h.regs, h.decode, h.tlb, fun x => ?_, fun q hq => ?_⟩
    · show byte (Bus.write t.bus p v) x = _
      rw [PlainRam.write_eq, pokeAll_append, byte_poke, h.bytes]
      exact (byte_poke (pokeAll s.bus done) p v x).symm
    · rcases List.mem_append.1 hq with hq | hq
      · exact h.clear q hq
      · rw [List.mem_singleton.1 hq]
        exact hfree
  find {done s t lin p s'} hlin h hrun := by
    have hpt : t.paging = s.paging := by rw [Cpu.paging, Cpu.paging, h.regs]
    cases hp : s.paging with
    | false =>
      rw [run_locate_flat hp] at hrun
      cases hrun
      exact ⟨t, run_locate_flat (hpt.trans hp) lin, h⟩
    | true =>
      rw [run_locate_paged hp, Fallible.map_apply] at hrun
      rcases hrun' : (translate lin .write).run s with ⟨e | p', s₁⟩
        <;> rw [hrun'] at hrun <;> cases hrun
      obtain ⟨q, t', hq, hval, h'⟩ := h.translate hp hlin hrun'
      refine ⟨t', ?_, h'⟩
      rw [run_locate_paged (hpt.trans hp), Fallible.map_apply, hq]
      exact congrArg (fun a => (Except.ok a, t')) hval

omit [PlainRam β] in
/-- Finding places sets marks only. -/
theorem onlyMarks_locateAll [Ram β] (s₀ : Machine β)
    {lins rest : List U64} {s : Machine β}
    (h : s₀.OnlyMarks lins s) (hrest : ∀ l ∈ rest, l ∈ lins) :
    s₀.OnlyMarks lins (locateAll rest s).2 := by
  induction rest generalizing s with
  | nil => exact h
  | cons lin rest ih =>
    have hfirst : s₀.OnlyMarks lins ((locate lin).run s).2 := by
      cases hp : s.paging with
      | false =>
        rw [run_locate_flat hp]
        exact h
      | true =>
        have htrans := h.translate hp (hrest lin List.mem_cons_self) .write
        rw [run_locate_paged hp, Fallible.map_apply]
        rcases hrun : (translate lin .write).run s with ⟨e | p, s'⟩
          <;> rw [hrun] at htrans <;>
          exact htrans
    rw [locateAll, Staged.findAll, Fallible.bind_apply]
    rcases hrun : (locate lin).run s with ⟨e | p, s'⟩ <;> rw [hrun] at hfirst
    · exact hfirst
    · have hlater := ih hfirst fun l hl => hrest l (List.mem_cons_of_mem _ hl)
      change s₀.OnlyMarks lins
        ((locateAll rest >>= fun ps => pure (p :: ps)) s').2
      rw [Fallible.bind_apply]
      rcases hlocate : locateAll rest s' with ⟨e | ps, s''⟩
        <;> rw [hlocate] at hlater <;> exact hlater

end Ahead

-- ======== the law

section Law

variable {β : Type} [Bus β] [WordRam β]

/-- What a store of `v` to `lin` does from `s`.

A store that faults has set accessed and dirty bits of the entries that
translate its addresses, and left every other byte alone; what it did not
get to store plays no part. A store that succeeds has put its bytes at the
addresses `ps` they translate to. Where none of these is in an entry that
translates one of its addresses, memory is what storing byte by byte makes
of it. And, while the 64-bit store clock has not wrapped, no record that the
instruction cache still answers has one of the bus addresses `ps` among its
own. On a bus whose addresses do not alias that is: one of the bytes
stored. -/
structure StoreLaw (z : StoreWidth) (lin : U64) (v : BitVec (8 * z.bytes))
    (s : Machine β) : Prop where
  fault : ∀ e s', (linStore z lin v).run s = (.error e, s') →
    s.OnlyMarks (bytesFrom lin z.bytes) s'
      ∧ ∀ v', (linStore z lin v').run s = (.error e, s')
  success : ∀ s', (linStore z lin v).run s = (.ok (), s') →
    ∃ ps s₁, locateAll (bytesFrom lin z.bytes) s = (.ok ps, s₁)
      ∧ (∀ x : U64,
        byte s'.bus x = byte (pokeAll s₁.bus (Remu.byteStores ps v)) x)
      ∧ (s.Apart (bytesFrom lin z.bytes) ps →
        ∃ t, (storeEach (Remu.byteStores (bytesFrom lin z.bytes) v)).run s
          = (.ok (), t)
          ∧ ∀ x : U64, byte s'.bus x = byte t.bus x)
      ∧ (s'.icache.clock < 2 ^ 64 → ∀ cpu : Cpu,
        cpu.icache = s'.icache → ∀ phys d,
        cpu.probeAt phys = some d → ∀ i < d.len.toNat,
          phys + BitVec.ofNat 64 i ∉ ps)

omit [WordRam β] in
/-- The first and the last byte of a store stand for the pages of all. -/
theorem locateAll_pages {lin : U64} {k : Nat} (hk : k + 1 < 4096)
    {s s' : Machine β} {ps : List U64}
    (h : locateAll (bytesFrom lin (k + 1)) s = (.ok ps, s')) :
    ∀ q ∈ ps, q >>> 12 = (ps.headD 0) >>> 12
      ∨ q >>> 12 = (ps.getLastD 0) >>> 12 := by
  obtain ⟨xs, ys, hsplit, hxs, hys⟩ := bytesFrom_pages lin k hk
  cases hp : s.paging with
  | false =>
    rw [locateAll_flat hp, hsplit] at h
    cases h
    exact pages_cover hxs hys
  | true =>
    rw [locateAll_paged hp, hsplit, translateAll_append] at h
    simp only [Bounded.run_bind, Fallible.bind_eq_ok] at h
    obtain ⟨as, s₁, ha, bs, s₂, hb, hret⟩ := h
    cases hret
    obtain ⟨page, hpage⟩ := translateAll_page hxs ha
    obtain ⟨page', hpage'⟩ := translateAll_page hys hb
    exact pages_cover hpage hpage'

omit [WordRam β] in
/-- Finding places leaves the cache one that can be reached. -/
theorem reachable_locateAll {lins ps : List U64} {s s' : Machine β}
    (h : s.icache.Reachable)
    (hrun : locateAll lins s = (.ok ps, s')) : s'.icache.Reachable := by
  cases hp : s.paging with
  | false =>
    rw [locateAll_flat hp] at hrun
    cases hrun
    exact h
  | true =>
    have hcalm := (translateAll lins : Calm β (List U64)).bound s
    rw [← locateAll_paged hp, hrun] at hcalm
    exact h.calm hcalm

/-- A store is shorter than a page. -/
theorem StoreWidth.bytes_short (z : StoreWidth) :
    ∃ k, z.bytes = k + 1 ∧ k + 1 < 4096 ∧ 8 * z.bytes ≤ 64 := by
  cases z
  · exact ⟨0, rfl, by decide, by decide⟩
  · exact ⟨1, rfl, by decide, by decide⟩
  · exact ⟨3, rfl, by decide, by decide⟩
  · exact ⟨7, rfl, by decide, by decide⟩

/-- **Stores are all or nothing, bytewise, and stamped.** -/
theorem linStore_lawful (s : Machine β) (hic : s.icache.Reachable)
    (z : StoreWidth) (lin : U64)
    (v : BitVec (8 * z.bytes)) : StoreLaw z lin v s := by
  obtain ⟨k, hk, hshort, hwidth⟩ := z.bytes_short
  constructor
  · intro e s' h
    have herr : locateAll (bytesFrom lin z.bytes) s = (.error e, s') := by
      rw [run_linStore, Fallible.bind_eq_error] at h
      rcases h with h | ⟨ps, s₁, -, hput⟩
      · exact h
      · cases hput
    refine ⟨?_, fun v' => ?_⟩
    · have honly :
        s.OnlyMarks (bytesFrom lin z.bytes)
        (locateAll (bytesFrom lin z.bytes) s).2 :=
        onlyMarks_locateAll s ⟨.refl s, fun _ _ => rfl⟩ fun _ hl => hl
      rw [herr] at honly
      exact honly
    · rw [run_linStore, Fallible.bind_of_error herr]
  · intro s' h
    rw [run_linStore, Fallible.bind_eq_ok] at h
    obtain ⟨ps, s₁, hps, hput⟩ := h
    cases hput
    have hbytes : (scatter ps (v.setWidth 64) s₁).bus
      = pokeAll s₁.bus (Remu.byteStores ps v) := by
      rw [scatter, byteStores_setWidth hwidth, pokeAll]
      simp only [PlainRam.write_eq]
    refine ⟨ps, s₁, hps, fun x => by rw [hbytes], fun hap => ?_,
      fun hclock cpu hcpu phys d hprobe i hi hmem => ?_⟩
    · have hlen : ps.length = (bytesFrom lin z.bytes).length :=
        Staged.length_findAll hps
      have hstart : s.AheadBy (bytesFrom lin z.bytes) [] s s :=
        ⟨.refl s, rfl, rfl, rfl, fun _ => rfl,
          fun _ hq => absurd hq List.not_mem_nil⟩
      have hnames : ∀ x ∈ Remu.byteStores (bytesFrom lin z.bytes) v,
        x.1 ∈ bytesFrom lin z.bytes :=
        fun _ hx => Remu.mem_byteStores hx
      obtain ⟨t, ht, hahead⟩ :=
        (keeps_aheadBy s (bytesFrom lin z.bytes)).fillEach hnames hap
        (by rw [map_fst_byteStores]; exact hps) hstart
      refine ⟨t, (congrFun (run_storeEach _) s).trans ht, fun x => ?_⟩
      rw [hahead.bytes, List.nil_append, zip_byteStores hlen, hbytes]
    · have hreach := reachable_locateAll hic hps
      have helse := hreach.probe_elsewhere hclock hcpu hprobe hi
      rw [hk] at hps
      rcases locateAll_pages hshort hps _ hmem with hfirst | hlast
      · exact helse.1 hfirst
      · exact helse.2 hlast

end Law

end Remu.X64
