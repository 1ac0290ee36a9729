/-
The tables of the x86-64 layer as its processor walks them.

The host resolves an address by its own loop over memory, the processor by
its page walk; `descend` and `frameAt` are the two. A table entry that the
layer has written has none of the bits that would stop the processor and
not the host (`Plain`), so the two lead to the same frame, and what the
processor allows is what the leaf says (`descend_eq`).

The processor writes to the tables too: accessed and dirty marks. They
move nothing (`Steady`).
-/
import Remu.Os.Ops
import Remu.X64.ReadBack

namespace Remu.Os

open EntryWidth FrameTree Word ByteRam

-- ======== bus

/-- Physical memory on the bus: ports are not connected. -/
instance instBusPhysMem : X64.Bus (PhysMem 64) where
  read m a := (m.load8 a, m)
  write m a v := m.store8 a v
  ioRead m _ := (0xFF, m)
  ioWrite m _ _ := m

instance instRamPhysMem : X64.Ram (PhysMem 64) where
  read_eq _ _ := rfl
  read16_eq _ _ := rfl
  read32_eq _ _ := rfl
  read64_eq _ _ := rfl
  write32_eq _ _ _ := rfl
  write64_eq _ _ _ := rfl

instance instPlainRamPhysMem : X64.PlainRam (PhysMem 64) where
  write_eq _ _ _ := rfl

namespace AddressSpace

variable {a a' : AddressSpace 64}

-- ======== entries

/-- The bits above physical addresses are clear in present entries, and
interior ones are tables open to everything. -/
def Plain (a : AddressSpace 64) : Prop :=
  ∀ p i, p.length < Layout.os64.depth →
    a.entryAt Layout.os64 p i &&& pte.P ≠ 0 →
    a.entryAt Layout.os64 p i &&& X64.HIGH = 0
      ∧ (p.length + 1 < Layout.os64.depth →
        a.entryAt Layout.os64 p i &&& X64.pte.PS = 0
        ∧ a.entryAt Layout.os64 p i &&& pte.US ≠ 0
        ∧ a.entryAt Layout.os64 p i &&& pte.RW ≠ 0)

/-- An address below `2^52` has no high bits. -/
theorem and_high_of_lt {f : U64} (h : f.toNat < 2 ^ 52) :
    f &&& X64.HIGH = 0 := by
  have hlow : f &&& BitVec.ofNat 64 (2 ^ 52 - 1) = f := by
    apply BitVec.eq_of_toNat_eq
    rw [toNat_and_mask f 52 (by omega), Nat.mod_eq_of_lt h]
  rw [← hlow, BitVec.and_assoc,
    show BitVec.ofNat 64 (2 ^ 52 - 1) &&& X64.HIGH = 0 by decide]
  exact BitVec.and_zero

/-- Entries the layer writes are plain. -/
theorem plain_or {f b : U64} (hf : Aligned f) (hlt : f.toNat < 2 ^ 52)
    (hfl : b &&& 0xFFF = b) :
    (f ||| b) &&& X64.HIGH = 0 ∧ ∀ t : U64,
      t &&& 0xFFF = t → (f ||| b) &&& t = b &&& t := by
  refine ⟨?_, fun t ht => Layout.and_low hf ht⟩
  have hz : b &&& X64.HIGH = 0 := by
    rw [← hfl, BitVec.and_assoc, show (0xFFF : U64) &&& X64.HIGH = 0 by decide]
    exact BitVec.and_zero
  rw [BitVec.and_or_distrib_right, and_high_of_lt hlt, hz]
  exact BitVec.or_zero

/-- Stores to mapped bytes leave the entries plain. -/
theorem Plain.written (hp : a.Plain) (hs : a'.Sound Layout.os64)
    (h : Written Layout.os64 a a') :
    a'.Plain := by
  intro p i hlen hP
  rcases h p i hlen with hold | hzero | ⟨f, hf, ⟨hin, htable⟩ | ⟨hleaf, prot, user, hentry⟩⟩
  · rw [hold] at hP ⊢
    exact hp p i hlen hP
  · rw [hzero] at hP
    exact absurd BitVec.zero_and hP
  · obtain ⟨hhigh, hlow⟩ :=
      plain_or (b := pte.P ||| pte.RW ||| pte.US) hf.aligned
      (hs.lt_physBits hf) (by decide)
    rw [htable, tableEntry_eq]
    refine ⟨hhigh, fun _ => ?_⟩
    rw [hlow _ (by decide), hlow _ (by decide), hlow _ (by decide)]
    decide
  · rw [hentry]
    exact ⟨(plain_or hf.aligned (hs.lt_physBits hf) (leafFlags_low prot user)).1, fun h => by omega⟩

theorem plain_new : (new Layout.os64).Plain := by
  intro p i _ hP
  rw [entryAt_new Layout.os64 (by decide)] at hP
  exact absurd BitVec.zero_and hP

-- ======== page walk

/-- Where the processor finds the entry of `lin` in a table. -/
theorem entry_addr {t : U64} (ht : t &&& X64.PHYS_MASK = t)
    (lin : U64) (s : Nat) :
    (t &&& X64.PHYS_MASK) + (((lin >>> s) &&& (0x1FF : U64)) <<< 3)
      = slot t (Layout.index lin s) := by
  have hidx : ((lin >>> s) &&& (0x1FF : U64)).toNat
    = (lin >>> s).toNat % 512 :=
    toNat_and_mask (lin >>> s) 9 (by omega)
  rw [ht, slot]
  congr 1
  apply BitVec.eq_of_toNat_eq
  rw [BitVec.toNat_shiftLeft, Nat.shiftLeft_eq, hidx, BitVec.toNat_ofNat]
  rfl

/-- The addresses on a walk are entries of tables, and what they allow
together is what the leaf allows. -/
structure OnTables (a : AddressSpace 64) (lin : U64) (path : List U64) :
    Prop where
  slots : ∀ x ∈ path, ∃ t i, a.IsTable Layout.os64 t ∧ x = slot t i
  user : (path.all fun x => get64 a.mem x &&& X64.pte.US != 0)
    = (a.pteEntry Layout.os64 lin &&& pte.US != 0)
  writable : (path.all fun x => get64 a.mem x &&& X64.pte.RW != 0)
    = (a.pteEntry Layout.os64 lin &&& pte.RW != 0)

/-- A walk that comes from a table of the space stays within them. -/
theorem OnTables.cons {lin x : U64} {path : List U64} (h : a.OnTables lin path)
    (hx : ∃ t i, a.IsTable Layout.os64 t ∧ x = slot t i)
    (huser : get64 a.mem x &&& X64.pte.US ≠ 0)
    (hwrite : get64 a.mem x &&& X64.pte.RW ≠ 0) :
    a.OnTables lin (x :: path) where
  slots y hy := by
    rcases List.mem_cons.1 hy with rfl | hy
    · exact hx
    · exact h.slots y hy
  user := by
    rw [List.all_cons, h.user, bne_iff_ne.2 huser]
    rfl
  writable := by
    rw [List.all_cons, h.writable, bne_iff_ne.2 hwrite]
    rfl

/-- Nothing about a plain entry stops the processor. -/
theorem not_rsvd {e : U64} (leafLevel : Bool) (s : Fin 40)
    (hhigh : e &&& X64.HIGH = 0)
    (hPS : leafLevel = false → e &&& X64.pte.PS = 0) :
    ¬ X64.wideRsvd true false leafLevel s e = true := by
  have hNX : e &&& X64.pte.NX = 0 := X64.and_eq_zero_of_sub hhigh (by decide)
  have hmid : e &&& 0x7FF0000000000000 = 0 :=
    X64.and_eq_zero_of_sub hhigh (by decide)
  rw [X64.wideRsvd, hNX, hmid]
  cases leafLevel with
  | true => simp
  | false =>
    rw [hPS rfl]
    simp

/-- The processor's descent from a table on the way to `lin`. -/
theorem descend_eq (hs : a.Sound Layout.os64) (hp : a.Plain) {lin t : U64}
    {π : List (Fin (fanout 64))} {shifts : List (Fin 40)} (hne : shifts ≠ [])
    (hπ : π ++ shifts.map (fun s => Layout.index lin s.val)
      = Layout.os64.indices lin)
    (ht : a.frameAt Layout.os64 π = some t) :
    match a.frameOf Layout.os64 lin with
    | none => X64.descend (get64 a.mem) lin true false shifts t = none
    | some f =>
      ∃ path, X64.descend (get64 a.mem) lin true false shifts t
        = some (path, f)
        ∧ a.OnTables lin path := by
  induction shifts generalizing π t with
  | nil => exact absurd rfl hne
  | cons s rest ih =>
    have hlen := congrArg List.length hπ
    rw [Layout.length_indices, List.length_append, List.length_map,
      List.length_cons] at hlen
    have hlt : π.length < Layout.os64.depth := by omega
    have hal := hs.nodes π t (by omega) ht
    have hmask : t &&& X64.PHYS_MASK = t :=
      (Layout.os64.mask_frame t hal.aligned (hs.lt_physBits hal)).1
    have hentry : a.entryAt Layout.os64 π (Layout.index lin s.val)
        = get64 a.mem (slot t (Layout.index lin s.val)) := by
      rw [entryAt, ht]
      rfl
    have hslot : ∃ t' i, a.IsTable Layout.os64 t'
      ∧ slot t (Layout.index lin s.val) = slot t' i :=
      ⟨t, _, ⟨π, hlt, ht⟩, rfl⟩
    have hnext : a.frameAt Layout.os64 (π ++ [Layout.index lin s.val])
        = Layout.os64.follow
          (get64 a.mem (slot t (Layout.index lin s.val))) := by
      rw [frameAt_leaf, hentry]
    have happ : π ++ (s :: rest).map (fun s => Layout.index lin s.val)
        = π ++ [Layout.index lin s.val] ++ rest.map
          (fun s => Layout.index lin s.val) := by
      rw [List.map_cons, List.append_assoc, List.singleton_append]
    have hof : a.frameOf Layout.os64 lin
        = (a.frameAt Layout.os64 (π ++ [Layout.index lin s.val])).bind
          fun t' =>
            node (Layout.os64.child a.mem) t'
              (rest.map fun s => Layout.index lin s.val) := by
      rw [frameOf, ← hπ, happ, frameAt, node_append]
      rfl
    rw [X64.descend, entry_addr hmask]
    dsimp only
    have hplain := hp π (Layout.index lin s.val) hlt
    rw [hentry] at hplain
    generalize he : get64 a.mem (slot t (Layout.index lin s.val)) = e at *
    by_cases hP : e &&& pte.P = 0
    · have hnone : a.frameOf Layout.os64 lin = none := by
        rw [hof, hnext, Layout.follow, if_pos hP]
        rfl
      rw [hnone]
      exact if_pos hP
    obtain ⟨hhigh, hin⟩ := hplain hP
    have hfollow : Layout.os64.follow e = some (e &&& X64.PHYS_MASK) := if_neg hP
    rw [hfollow] at hnext
    rw [hnext, Option.bind_some] at hof
    rw [if_neg (show ¬ e &&& X64.pte.P = 0 from hP)]
    cases rest with
    | nil =>
      have hleaf : a.pteEntry Layout.os64 lin = e := by
        obtain ⟨hint, hidx⟩ := List.append_inj' hπ rfl
        rw [pteEntry_eq, ← hint, ← List.singleton_inj.1 hidx, hentry]
      have hframe :
          e &&& X64.PHYS_MASK &&& ~~~(0xFFF : U64) ||| lin &&& 0xFFF
          &&& ~~~(0xFFF : U64)
          = e &&& X64.PHYS_MASK := by
        rw [BitVec.and_assoc, BitVec.and_assoc, BitVec.and_not_self,
          show X64.PHYS_MASK &&& ~~~(0xFFF : U64) = X64.PHYS_MASK by decide]
        exact (congrArg _ BitVec.and_zero).trans BitVec.or_zero
      have hmask0 : e &&& X64.PHYS_MASK &&& 0xFFF = 0 := by
        rw [BitVec.and_assoc,
          show X64.PHYS_MASK &&& (0xFFF : U64) = 0 by decide]
        exact BitVec.and_zero
      rw [hof]
      refine ⟨[slot t (Layout.index lin s.val)], ?_, ?_, ?_, ?_⟩
      · rw [List.isEmpty_nil, if_neg (not_rsvd true s hhigh Bool.noConfusion),
          Bool.true_or, if_pos rfl, X64.pageMask, if_pos rfl,
          if_neg (not_not.2 hmask0), hframe]
      · intro x hx
        rw [List.mem_singleton.1 hx]
        exact hslot
      · rw [List.all_cons, List.all_nil, Bool.and_true, he, hleaf]
        rfl
      · rw [List.all_cons, List.all_nil, Bool.and_true, he, hleaf]
        rfl
    | cons s' rest =>
      rw [List.length_cons] at hlen
      obtain ⟨hPS, hUS, hRW⟩ := hin (by omega)
      have hnext' :=
        ih (π := π ++ [Layout.index lin s.val]) (t := e &&& X64.PHYS_MASK)
        (List.cons_ne_nil _ _) (happ.symm.trans hπ) hnext
      rw [List.isEmpty_cons, if_neg (not_rsvd false s hhigh fun _ => hPS),
        if_neg (by rw [hPS]; simp)]
      cases hf : a.frameOf Layout.os64 lin with
      | none =>
        rw [hf] at hnext'
        rw [hnext']
        rfl
      | some f =>
        rw [hf] at hnext'
        obtain ⟨path, hdesc, htables⟩ := hnext'
        refine ⟨slot t (Layout.index lin s.val) :: path, ?_,
          htables.cons hslot (he ▸ hUS) (he ▸ hRW)⟩
        rw [hdesc]
        rfl

/-- A processor that runs on the tables and the memory of `a`, as
`enter_user` sets it up. -/
structure Selects (a : AddressSpace 64) (s : X64.Machine (PhysMem 64)) :
    Prop where
  bus : s.bus = a.mem
  cr3 : s.regs.cr3 = a.cr3
  paging : s.paging = true
  wide : s.wide = true
  long : s.longMode = true
  nxe : s.regs.msr.efer &&& X64.efer.NXE = 0

/-- A mapping says what the leaf of its page says. -/
structure Describes (a : AddressSpace 64) (lin : U64) (m : X64.Mapping) :
    Prop where
  frame : a.frameOf Layout.os64 lin = some m.frame
  user : m.user = (a.pteEntry Layout.os64 lin &&& pte.US != 0)
  writable : m.writable = (a.pteEntry Layout.os64 lin &&& pte.RW != 0)
  nx : m.nx = false
  slots : ∀ x ∈ m.path, ∃ t i, a.IsTable Layout.os64 t ∧ x = slot t i

/-- The processor has a mapping where the host has a frame. -/
theorem Selects.mapping {s : X64.Machine (PhysMem 64)} (h : a.Selects s)
    (hs : a.Sound Layout.os64) (hp : a.Plain) (lin : U64) :
    match a.frameOf Layout.os64 lin with
    | none => s.mapping lin = none
    | some _ => ∃ m, s.mapping lin = some m ∧ a.Describes lin m := by
  have hindices :
      [] ++ ([39, 30, 21, 12] : List (Fin 40)).map
      (fun s => Layout.index lin s.val)
      = Layout.os64.indices lin := rfl
  have hdesc := descend_eq hs hp (List.cons_ne_nil _ _) hindices rfl
  have hnxe : (s.regs.msr.efer &&& X64.efer.NXE != 0) = false := by
    rw [h.nxe]; rfl
  rw [X64.Machine.mapping_wide h.wide, h.bus, h.cr3, h.long, hnxe,
    X64.wideMapping, X64.wideTable, if_pos rfl, Option.bind_some, if_pos rfl]
  rw [show a.cr3 &&& X64.PHYS_MASK = a.root Layout.os64 from rfl]
  cases hf : a.frameOf Layout.os64 lin with
  | none =>
    rw [hf] at hdesc
    dsimp only at hdesc ⊢
    rw [hdesc]
    rfl
  | some f =>
    rw [hf] at hdesc
    obtain ⟨path, hdesc, htables⟩ := hdesc
    dsimp only
    rw [hdesc]
    refine ⟨_, rfl, hf, htables.user, htables.writable, ?_, htables.slots⟩
    simp

/-- What the processor's tables map, the address space describes. -/
theorem Selects.mapping_eq_some {s : X64.Machine (PhysMem 64)}
    (h : a.Selects s)
    (hs : a.Sound Layout.os64) (hp : a.Plain) {lin : U64} {m : X64.Mapping}
    (hm : s.mapping lin = some m) : a.Describes lin m := by
  have hmap := h.mapping hs hp lin
  cases hf : a.frameOf Layout.os64 lin with
  | none =>
    rw [hf] at hmap
    rw [show s.mapping lin = none from hmap] at hm
    cases hm
  | some f =>
    rw [hf] at hmap
    obtain ⟨m', hm', hdesc⟩ := hmap
    rw [hm] at hm'
    cases hm'
    exact hdesc

-- ======== marks

/-- A change of memory that leaves the tables as they were but for marks,
and what lies beyond the allocator's mark alone. -/
structure Steady (a a' : AddressSpace 64) : Prop where
  rest : a' = { a with mem := a'.mem }
  entry : ∀ t, a.IsTable Layout.os64 t → ∀ i,
    load a'.mem (slot t i) &&& ~~~X64.pte.MARKS
      = load a.mem (slot t i) &&& ~~~X64.pte.MARKS
  blank : ∀ x : U64, a.nextPhys ≤ x.toNat → a'.mem.load8 x = a.mem.load8 x

namespace Steady

theorem refl (a : AddressSpace 64) : Steady a a :=
  ⟨rfl, fun _ _ _ => rfl, fun _ _ => rfl⟩

theorem root (h : Steady a a') : a'.root Layout.os64 = a.root Layout.os64 := by
  rw [h.rest]
  rfl

theorem next (h : Steady a a') : a'.nextPhys = a.nextPhys := by
  rw [h.rest]

theorem cr3 (h : Steady a a') : a'.cr3 = a.cr3 := by
  rw [h.rest]

theorem child (h : Steady a a') {t : U64} (ht : a.IsTable Layout.os64 t)
    (i : Fin (fanout 64)) :
    Layout.os64.child a'.mem t i = Layout.os64.child a.mem t i := by
  have he := h.entry t ht i
  rw [Layout.child, Layout.child, Layout.follow, Layout.follow,
    and_eq_of_outside he (t := pte.P) (by decide),
    and_eq_of_outside he (t := Layout.os64.physMask) (by decide)]

theorem frameAt (h : Steady a a') {p : List (Fin (fanout 64))}
    (hp : p.length ≤ Layout.os64.depth) :
    a'.frameAt Layout.os64 p = a.frameAt Layout.os64 p := by
  rw [AddressSpace.frameAt, AddressSpace.frameAt, h.root]
  exact node_congr (fun t ht i => h.child ht i) hp

theorem isTable (h : Steady a a') {t : U64} :
    a'.IsTable Layout.os64 t ↔ a.IsTable Layout.os64 t :=
  exists_congr fun _ => and_congr_right fun hp => by
    rw [show node (Layout.os64.child a'.mem) (a'.root Layout.os64) _
      = a'.frameAt Layout.os64 _ from rfl, h.frameAt (Nat.le_of_lt hp)]
    rfl

/-- An entry differs in its marks at most. -/
theorem entryAt (h : Steady a a') {p : List (Fin (fanout 64))}
    (hp : p.length < Layout.os64.depth)
    (i : Fin (fanout 64)) : a'.entryAt Layout.os64 p i &&& ~~~X64.pte.MARKS
      = a.entryAt Layout.os64 p i &&& ~~~X64.pte.MARKS := by
  rw [AddressSpace.entryAt, AddressSpace.entryAt, h.frameAt (Nat.le_of_lt hp)]
  cases ht : a.frameAt Layout.os64 p with
  | none => rfl
  | some t => exact h.entry t ⟨p, hp, ht⟩ i

theorem pteEntry (h : Steady a a') (lin : U64) :
    a'.pteEntry Layout.os64 lin &&& ~~~X64.pte.MARKS
    = a.pteEntry Layout.os64 lin &&& ~~~X64.pte.MARKS :=
  h.entryAt (by have := Layout.os64.length_interior lin; omega) _

/-- No page moves. -/
theorem frameOf (h : Steady a a') :
    a'.frameOf Layout.os64 = a.frameOf Layout.os64 := by
  funext lin
  exact h.frameAt (le_of_eq (Layout.os64.length_indices lin))

theorem resolve (h : Steady a a') :
    a'.resolve Layout.os64 = a.resolve Layout.os64 := by
  funext lin
  rw [resolve_eq, resolve_eq, h.frameOf]

theorem trans {b c : AddressSpace 64} (h : Steady a b) (h' : Steady b c) :
    Steady a c where
  rest := by
    have h1 := h.rest
    have h2 := h'.rest
    rw [h2, h1]
  entry t ht i := (h'.entry t (h.isTable.2 ht) i).trans (h.entry t ht i)
  blank x hx := (h'.blank x (h.next ▸ hx)).trans (h.blank x hx)

theorem symm (h : Steady a a') : Steady a' a where
  rest := by
    have h1 := h.rest
    rw [h1]
  entry t ht i := (h.entry t (h.isTable.1 ht) i).symm
  blank x hx := (h.blank x (h.next ▸ hx)).symm

theorem sound (h : Steady a a') (hs : a.Sound Layout.os64) :
    a'.Sound Layout.os64 := by
  refine ⟨?_, ?_, ?_, fun x hx => ?_, ?_, fun p f hp hf => ?_⟩
  · rw [h.next]
    exact hs.next_aligned
  · rw [h.next]
    exact hs.next_pos
  · rw [h.next]
    exact hs.next_le
  · rw [h.next] at hx
    rw [h.blank x hx]
    exact hs.blank x hx
  · rw [h.root]
    exact hs.tree.congr fun t ht i => h.child ht i
  · rw [h.frameAt hp] at hf
    have hal := hs.nodes p f hp hf
    exact ⟨hal.aligned, hal.pos, h.next ▸ hal.lt⟩

theorem plain (h : Steady a a') (hp : a.Plain) : a'.Plain := by
  intro p i hlen hP
  have he := h.entryAt hlen i
  rw [and_eq_of_outside he (t := pte.P) (by decide)] at hP
  rw [and_eq_of_outside he (t := X64.HIGH) (by decide),
    and_eq_of_outside he (t := X64.pte.PS) (by decide),
    and_eq_of_outside he (t := pte.US) (by decide),
    and_eq_of_outside he (t := pte.RW) (by decide)]
  exact hp p i hlen hP

end Steady

end AddressSpace

end Remu.Os
