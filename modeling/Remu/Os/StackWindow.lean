/-
The mapped stack as a window.

While strings and words stay in the mapped stack, a push is an update of one
window and leaves what was pushed before alone (`Window.pushAll`), words
likewise (`Window.writeWords`, `Window.placeBlock`), and the entry code reads
what was put there (`Window.readEntry`).
-/
import Remu.Os.InitialStack
import Remu.Os.Vmas

namespace Remu.Os

open EntryWidth FrameTree Word

variable {w : Nat} [EntryWidth w]

-- ======== a layout

/-- Where the initial stack starts. -/
def Layout.stackBottom (L : Layout w) : BitVec w :=
  L.stackTop - BitVec.ofNat w INIT_STACK

/-- What the stack's place in the address space gives. -/
structure StackLayout (L : Layout w) : Prop where
  word : 2 ^ w = 256 ^ bytes w
  regular : Aligned L.stackTop
  above : L.stackTop.toNat + 39 < 2 ^ w
  room : INIT_STACK < L.stackTop.toNat
  spread : L.Spread L.stackBottom INIT_STACK

/-- Both layouts leave the stack the room it takes. -/
theorem stackLayout_os : StackLayout Layout.os where
  word := by decide
  regular := (aligned_iff _).2 (by decide)
  above := by decide
  room := by decide
  spread := Layout.spread_os _ (by decide)

theorem stackLayout_os64 : StackLayout Layout.os64 where
  word := by decide
  regular := (aligned_iff _).2 (by decide)
  above := by decide
  room := by decide
  spread := Layout.spread_os64 _ (by decide)

variable {L : Layout w}

namespace StackLayout

theorem toNat_init (h : StackLayout L) :
    (BitVec.ofNat w INIT_STACK).toNat = INIT_STACK := by
  have := h.room
  have := h.above
  rw [BitVec.toNat_ofNat, Nat.mod_eq_of_lt (by omega)]

/-- The stack's lower end, as a number. -/
theorem toNat_bottom (h : StackLayout L) :
    L.stackBottom.toNat = L.stackTop.toNat - INIT_STACK := by
  have hroom := h.room
  have hle : BitVec.ofNat w INIT_STACK ≤ L.stackTop := by
    rw [BitVec.le_def, h.toNat_init]
    omega
  rw [Layout.stackBottom, BitVec.toNat_sub_of_le hle, h.toNat_init]

/-- An address of the stack by its offset. -/
theorem toNat_at (h : StackLayout L) {o : Nat} (ho : o ≤ INIT_STACK) :
    (L.stackBottom + BitVec.ofNat w o).toNat = L.stackBottom.toNat + o := by
  have := h.room
  have := h.above
  have := h.toNat_bottom
  rw [BitVec.toNat_add, BitVec.toNat_ofNat,
    Nat.mod_eq_of_lt (a := o) (by omega), Nat.mod_eq_of_lt (by omega)]

/-- The stack's upper end, from its lower one. -/
theorem top_eq (h : StackLayout L) :
    L.stackTop = L.stackBottom + BitVec.ofNat w INIT_STACK := by
  apply BitVec.eq_of_toNat_eq
  have := h.room
  rw [h.toNat_at (le_refl _), h.toNat_bottom]
  omega

/-- The stack begins at a page. -/
theorem bottom_mod (h : StackLayout L) : L.stackBottom.toNat % 4096 = 0 := by
  have hal := h.regular
  have := h.room
  rw [Aligned] at hal
  rw [h.toNat_bottom, INIT_STACK]
  rw [INIT_STACK] at this
  omega

end StackLayout

namespace AddressSpace

variable {a a' : AddressSpace w}

omit [EntryWidth w] in
/-- How many pages a range has. -/
theorem length_pages (s e : BitVec w) :
    (pages s e).length = (e.toNat - s.toNat) >>> 12 := by
  rw [pages, List.length_map, List.length_range]

/-- The pages of the initial stack. -/
theorem rangePages_stack (h : StackLayout L) :
    rangePages L.stackBottom (BitVec.ofNat w INIT_STACK)
      = pages L.stackBottom L.stackTop := by
  have hlen : BitVec.ofNat w INIT_STACK = L.stackTop - L.stackBottom := by
    rw [h.top_eq, BitVec.add_comm, BitVec.add_sub_cancel]
  have hbottom := h.toNat_bottom
  rw [hlen, rangePages_sub h.bottom_mod h.regular
    (by rw [BitVec.le_def]; omega)]

/-- The mapped stack is a window. -/
theorem window_mapStack (h : StackLayout L) (hs : a.Sound L)
    (hfit : (a.mapStack L).nextPhys ≤ 2 ^ L.physBits) :
    Window L (a.mapStack L) L.stackBottom INIT_STACK := by
  have heff :=
    Effect.apply hs
      (.map L.stackBottom (BitVec.ofNat w INIT_STACK)
      (PROT_READ ||| PROT_WRITE)
    .stack) (fun lin data hop => by cases hop) hfit
  refine ⟨heff.sound, fun i hi hnone => ?_, h.spread⟩
  have hat := h.toNat_at (o := i) (by omega)
  have hbottom := h.toNat_bottom
  have hroom := h.room
  have hal : Aligned L.stackBottom := h.bottom_mod
  have hcov : L.Covers (rangePages L.stackBottom (BitVec.ofNat w INIT_STACK))
      (L.stackBottom + BitVec.ofNat w i) := by
    refine ⟨pageDown (L.stackBottom + BitVec.ofNat w i), ?_,
      (Layout.samePage_of_page (pageDown_page _)).symm⟩
    rw [rangePages_stack h, mem_pages hal h.regular, BitVec.le_def,
      BitVec.lt_def, pageDown, toNat_and_not_FFF, hat]
    rw [Aligned] at hal
    exact ⟨aligned_pageDown _, by omega, by omega⟩
  have hview : (a.mapStack L).view L (L.stackBottom + BitVec.ofNat w i)
      = if L.Covers (rangePages L.stackBottom (BitVec.ofNat w INIT_STACK))
        (L.stackBottom + BitVec.ofNat w i)
        then widen (PROT_READ ||| PROT_WRITE) true
          (a.view L (L.stackBottom + BitVec.ofNat w i))
        else a.view L (L.stackBottom + BitVec.ofNat w i) := heff.view _
  rw [if_pos hcov, view_eq_none.2 (resolve_eq_none.1 hnone)] at hview
  cases hv : a.view L (L.stackBottom + BitVec.ofNat w i) with
  | none =>
    rw [hv] at hview
    cases hview
  | some pg =>
    rw [hv] at hview
    cases hview

-- A page takes a frame and at most a table a level.

/-- A page takes at most one frame for each level. -/
theorem nextPhys_tableFor_le (p : List (Fin (fanout w)))
    (a : AddressSpace w) (t : BitVec w) :
    (a.tableFor L t p).2.nextPhys ≤ a.nextPhys + 4096 * p.length := by
  induction p generalizing a t with
  | nil => exact le_refl _
  | cons i p ih =>
    rw [tableFor, List.length_cons]
    dsimp only
    split
    · refine (ih _ _).trans ?_
      show a.nextPhys + 4096 + 4096 * p.length ≤ _
      omega
    · exact (ih _ _).trans (by omega)

theorem nextPhys_mapPage_le (prot : U32) (user : Bool)
    (a : AddressSpace w) (lin : BitVec w) :
    (a.mapPage L prot user lin).nextPhys ≤ a.nextPhys + 4096 * L.depth := by
  have hlen := L.length_interior lin
  rw [mapPage]
  split
  · refine (nextPhys_tableFor_le (L.interior lin) _ _).trans ?_
    show a.nextPhys + 4096 + _ ≤ _
    omega
  · exact (nextPhys_tableFor_le (L.interior lin) _ _).trans (by omega)

/-- A range takes at most one frame a level for each of its pages. -/
theorem nextPhys_mapRange_le (a : AddressSpace w) (start len : BitVec w)
    (prot : U32) (user : Bool) :
    (a.mapRange L start len prot user).nextPhys
      ≤ a.nextPhys + 4096 * L.depth * (rangePages start len).length := by
  rw [mapRange]
  induction rangePages start len generalizing a with
  | nil => exact le_refl _
  | cons lin lins ih =>
    rw [List.foldl_cons, List.length_cons, Nat.mul_succ]
    exact (ih _).trans
      (by have := nextPhys_mapPage_le (L := L) prot user a lin; omega)

/-- The initial stack is 64 pages. -/
theorem nextPhys_mapStack_le (h : StackLayout L) (a : AddressSpace w) :
    (a.mapStack L).nextPhys ≤ a.nextPhys + 4096 * L.depth * 64 := by
  have hbottom := h.toNat_bottom
  have hroom := h.room
  have hspan : L.stackTop.toNat - L.stackBottom.toNat = INIT_STACK := by omega
  have hpages :
    (rangePages L.stackBottom (BitVec.ofNat w INIT_STACK)).length = 64 := by
    rw [rangePages_stack h, length_pages, hspan]
    rfl
  rw [← hpages]
  exact nextPhys_mapRange_le a _ _ _ true

-- ======== pushes

omit [EntryWidth w] in
/-- A push goes below what is there. -/
theorem at_sub {bottom : BitVec w} {o n : Nat} (h : n ≤ o) :
    bottom + BitVec.ofNat w o - BitVec.ofNat w n
      = bottom + BitVec.ofNat w (o - n) := by
  have hsplit :
    BitVec.ofNat w o = BitVec.ofNat w (o - n) + BitVec.ofNat w n := by
    rw [← BitVec.ofNat_add, Nat.sub_add_cancel h]
  rw [hsplit, ← BitVec.add_assoc, BitVec.add_sub_cancel]

namespace Window

/-- `data` is in the stack at `p`, between two offsets. -/
def Lies (L : Layout w) (a : AddressSpace w) (lo hi : Nat) (p : BitVec w)
    (data : List U8) : Prop :=
  ∃ off, p = L.stackBottom + BitVec.ofNat w off
    ∧ Has L a L.stackBottom off data
    ∧ lo ≤ off ∧ off + data.length ≤ hi

variable (h : StackLayout L)
include h

/-- A push into the stack goes below the pointer and nowhere else. -/
theorem push (hwin : Window L a L.stackBottom INIT_STACK) {o : Nat}
    (ho : o ≤ INIT_STACK) {data : List U8} (hlen : data.length ≤ o) :
    ∃ a', a.push L (L.stackBottom + BitVec.ofNat w o) data
        = some (L.stackBottom + BitVec.ofNat w (o - data.length), a')
      ∧ Window L a' L.stackBottom INIT_STACK
      ∧ Has L a' L.stackBottom (o - data.length) data
      ∧ ∀ k, k < INIT_STACK →
        ¬ (o - data.length ≤ k ∧ k < o - data.length + data.length) →
        a'.guestByte L (L.stackBottom + BitVec.ofNat w k)
          = a.guestByte L (L.stackBottom + BitVec.ofNat w k) := by
  obtain ⟨a', hwrite, hwin', hhas, hkeep⟩ :=
    hwin.write (show o - data.length + data.length ≤ INIT_STACK by omega)
  refine ⟨a', ?_, hwin', hhas, hkeep⟩
  have hroom := h.room
  have habove := h.above
  have hnat : (BitVec.ofNat w data.length).toNat = data.length := by
    rw [BitVec.toNat_ofNat, Nat.mod_eq_of_lt (by omega)]
  have hge : ¬ (L.stackBottom + BitVec.ofNat w o).toNat
    < (BitVec.ofNat w data.length).toNat := by
    rw [hnat, h.toNat_at ho]
    omega
  dsimp only [AddressSpace.push]
  rw [if_neg hge, at_sub hlen, hwrite]

/-- Pushes go below each other. -/
theorem pushAll {datas : List (List U8)}
    (hwin : Window L a L.stackBottom INIT_STACK) {o : Nat}
    (ho : o ≤ INIT_STACK) (hlen : datas.flatten.length ≤ o) :
    ∃ ptrs a', a.pushAll L (L.stackBottom + BitVec.ofNat w o) datas
        = some (ptrs,
          L.stackBottom + BitVec.ofNat w (o - datas.flatten.length), a')
      ∧ Window L a' L.stackBottom INIT_STACK
      ∧ List.Forall₂ (Lies L a' (o - datas.flatten.length) o) ptrs datas
      ∧ ∀ k, k < INIT_STACK → ¬ (o - datas.flatten.length ≤ k ∧ k < o) →
        a'.guestByte L (L.stackBottom + BitVec.ofNat w k)
          = a.guestByte L (L.stackBottom + BitVec.ofNat w k) := by
  induction datas generalizing a o with
  | nil => exact ⟨[], a, rfl, hwin, .nil, fun _ _ _ => rfl⟩
  | cons data rest ih =>
    rw [List.flatten_cons, List.length_append] at hlen
    obtain ⟨a₁, hpush, hwin₁, hhas₁, hkeep₁⟩ :=
      hwin.push h ho (show data.length ≤ o by omega)
    obtain ⟨ptrs, a', hrest, hwin', hall, hkeep⟩ :=
      ih hwin₁ (o := o - data.length) (by omega) (by omega)
    rw [List.flatten_cons, List.length_append, Nat.sub_add_eq]
    refine ⟨(L.stackBottom + BitVec.ofNat w (o - data.length)) :: ptrs, a', ?_, hwin',
      .cons ⟨o - data.length, rfl, ?_, by omega, by omega⟩ ?_,
        fun k hk hout => ?_⟩
    · rw [AddressSpace.pushAll, hpush, Option.bind_some]
      dsimp only
      rw [hrest]
      rfl
    · exact hhas₁.keep (p := o - data.length - rest.flatten.length)
        (m := rest.flatten.length)
        (fun k hk hout => hkeep k hk (by omega)) (by omega) (by omega)
    · refine hall.imp fun p data' hd => ?_
      obtain ⟨off, hp, hhas, hlo, hhi⟩ := hd
      exact ⟨off, hp, hhas, hlo, by omega⟩
    · rw [hkeep k hk (by omega), hkeep₁ k hk (by omega)]

omit h in
/-- Words into a window. -/
theorem writeWords {bottom : BitVec w} {n : Nat}
    (hwin : Window L a bottom n) {o : Nat}
    {vs : List (BitVec w)} (hlen : o + (wordBytes vs).length ≤ n) :
    Window L (a.writeWords L (bottom + BitVec.ofNat w o) vs) bottom n
      ∧ Has L (a.writeWords L (bottom + BitVec.ofNat w o) vs) bottom o
        (wordBytes vs)
      ∧ ∀ k, k < n → ¬ (o ≤ k ∧ k < o + (wordBytes vs).length) →
        (a.writeWords L (bottom + BitVec.ofNat w o) vs).guestByte L
          (bottom + BitVec.ofNat w k)
          = a.guestByte L (bottom + BitVec.ofNat w k) := by
  induction vs generalizing a o with
  | nil =>
    exact ⟨hwin, fun i hi => absurd hi (Nat.not_lt_zero i), fun _ _ _ => rfl⟩
  | cons v vs ih =>
    have hbytes := length_leBytes (bytes w) v.toNat
    rw [wordBytes, List.flatMap_cons, ← wordBytes] at hlen ⊢
    rw [List.length_append] at hlen ⊢
    obtain ⟨a₁, hwrite, hwin₁, hhas₁, hkeep₁⟩ := hwin.write
      (show o + (leBytes (bytes w) v.toNat).length ≤ n by omega)
    obtain ⟨hwin', hhas, hkeep⟩ := ih hwin₁ (o := o + bytes w) (by omega)
    rw [AddressSpace.writeWords, hwrite, add_offset]
    refine ⟨hwin', ?_, fun k hk hout => ?_⟩
    · refine Has.append ?_ (by rw [hbytes]; exact hhas)
      exact hhas₁.keep (n := n) (p := o + bytes w) (m := (wordBytes vs).length)
        hkeep (by omega) (by omega)
    · rw [hkeep k hk (by omega), hkeep₁ k hk (by omega)]

end Window

-- ======== reading

/-- The words of a block, one after another. -/
theorem wordAt_add (bottom : BitVec w) (o n : Nat) :
    wordAt (bottom + BitVec.ofNat w o) n
      = bottom + BitVec.ofNat w (o + bytes w * n) :=
  Window.add_offset bottom o (bytes w * n)

/-- The bytes of words, in order. -/
theorem wordBytes_append (us vs : List (BitVec w)) :
    wordBytes (us ++ vs) = wordBytes us ++ wordBytes vs :=
  List.flatMap_append

theorem wordBytes_cons (v : BitVec w) (vs : List (BitVec w)) :
    wordBytes (v :: vs) = leBytes (bytes w) v.toNat ++ wordBytes vs :=
      List.flatMap_cons

/-- How many bytes words have. -/
theorem length_wordBytes (vs : List (BitVec w)) :
    (wordBytes vs).length = bytes w * vs.length := by
  induction vs with
  | nil => rfl
  | cons v vs ih =>
    rw [wordBytes_cons, List.length_append, length_leBytes, ih,
      List.length_cons, Nat.mul_succ, Nat.add_comm]

omit [EntryWidth w] in
theorem length_pairWords (ps : List (BitVec w × BitVec w)) :
    (pairWords ps).length = 2 * ps.length := by
  induction ps with
  | nil => rfl
  | cons p ps ih =>
    rw [show pairWords (p :: ps) = p.1 :: p.2 :: pairWords ps from rfl,
      List.length_cons, List.length_cons, ih, List.length_cons]
    omega

omit [EntryWidth w] in
/-- The block the entry point sees: argc, argv, envp and the auxiliary vector,
with their ends. -/
theorem length_entryBlock (argvPtrs envpPtrs : List (BitVec w))
    (aux : List (BitVec w × BitVec w)) :
    (entryBlock argvPtrs envpPtrs aux).length
      = 1 + (argvPtrs.length + 1) + (envpPtrs.length + 1)
        + aux.length * 2 := by
  simp only [entryBlock, List.length_append,
    List.length_singleton, length_pairWords]
  omega

/-- A word has a byte. -/
theorem bytes_pos : 0 < bytes w := by
  have hframe := EntryWidth.frame (w := w)
  rcases Nat.eq_zero_or_pos (bytes w) with h0 | hpos
  · rw [h0] at hframe
    omega
  · exact hpos

/-- The block goes to the boundary below what it needs. -/
theorem Window.placeBlock (h : StackLayout L)
    (hwin : Window L a L.stackBottom INIT_STACK) {o : Nat}
    (ho : o ≤ INIT_STACK) {argvPtrs envpPtrs : List (BitVec w)}
    {aux : List (BitVec w × BitVec w)}
    (hlen : bytes w * (entryBlock argvPtrs envpPtrs aux).length ≤ o) :
    ∃ o' a', a.placeBlock L (L.stackBottom + BitVec.ofNat w o)
        argvPtrs envpPtrs aux
        = some (L.stackBottom + BitVec.ofNat w o', a')
      ∧ o' + bytes w * (entryBlock argvPtrs envpPtrs aux).length ≤ o
      ∧ o' % 16 = 0
      ∧ Window L a' L.stackBottom INIT_STACK
      ∧ Has L a' L.stackBottom o'
        (wordBytes (entryBlock argvPtrs envpPtrs aux))
      ∧ ∀ k, k < INIT_STACK → o ≤ k →
        a'.guestByte L (L.stackBottom + BitVec.ofNat w k)
        = a.guestByte L (L.stackBottom + BitVec.ofNat w k) := by
  have hroom := h.room
  have habove := h.above
  have hbottom := h.bottom_mod
  have hat := h.toNat_at ho
  have hbot := h.toNat_bottom
  rw [length_entryBlock] at hlen
  generalize hwords :
    1 + (argvPtrs.length + 1) + (envpPtrs.length + 1) + aux.length * 2
    = words at hlen
  have hle : words ≤ bytes w * words := Nat.le_mul_of_pos_left words bytes_pos
  have hneed : (BitVec.ofNat w words).toNat * bytes w = bytes w * words := by
    rw [BitVec.toNat_ofNat, Nat.mod_eq_of_lt (by omega), Nat.mul_comm]
  generalize hn : bytes w * words = need at hlen hle hneed
  have hbase :
      (L.stackBottom + BitVec.ofNat w o - BitVec.ofNat w need)
      &&& ~~~(0xF : BitVec w)
      = L.stackBottom + BitVec.ofNat w ((o - need) / 16 * 16) := by
    apply BitVec.eq_of_toNat_eq
    rw [at_sub hlen, toNat_and_not_F, h.toNat_at (by omega),
      h.toNat_at (by omega)]
    omega
  have hfit : (wordBytes (entryBlock argvPtrs envpPtrs aux)).length
    = need := by
    rw [length_wordBytes, length_entryBlock, hwords, hn]
  obtain ⟨hwin', hhas, hkeep⟩ := hwin.writeWords
    (show (o - need) / 16 * 16
      + (wordBytes (entryBlock argvPtrs envpPtrs aux)).length ≤ INIT_STACK by omega)
  refine ⟨(o - need) / 16 * 16, _, ?_, ?_, Nat.mul_mod_left _ 16, hwin', hhas,
    fun k hk hok => ?_⟩
  · dsimp only [AddressSpace.placeBlock]
    rw [hwords, hneed, if_neg (by omega), hbase]
  · rw [length_entryBlock, hwords, hn]
    omega
  · exact hkeep k hk (by omega)

namespace Window

variable {bottom : BitVec w} {o : Nat}

/-- What a window holds, byte by byte. -/
theorem Has.head {b : U8} {bs : List U8} (hhas : Has L a bottom o (b :: bs)) :
    a.guestByte L (bottom + BitVec.ofNat w o) = some b :=
      hhas 0 (Nat.zero_lt_succ _)

theorem Has.tail {b : U8} {bs : List U8} (hhas : Has L a bottom o (b :: bs)) :
    Has L a bottom (o + 1) bs := by
  intro i hi
  have hnext := hhas (i + 1) (Nat.succ_lt_succ hi)
  rw [List.getElem?_cons_succ] at hnext
  rw [Nat.add_assoc, Nat.add_comm 1 i]
  exact hnext

/-- A window can be read back. -/
theorem guestBytes {data : List U8} (hhas : Has L a bottom o data) :
    a.guestBytes L (bottom + BitVec.ofNat w o) data.length = some data := by
  induction data generalizing o with
  | nil => rfl
  | cons b bs ih =>
    have hnext : bottom + BitVec.ofNat w o + 1
      = bottom + BitVec.ofNat w (o + 1) := add_offset bottom o 1
    rw [List.length_cons, AddressSpace.guestBytes, hhas.head, Option.bind_some,
      hnext, ih hhas.tail]
    rfl

/-- A string that holds no NUL is read back up to its end. -/
theorem readString {s : List U8} (hnul : 0 ∉ s)
    (hhas : Has L a bottom o (cstring s)) {fuel : Nat}
    (hfuel : s.length < fuel) :
    a.readString L (bottom + BitVec.ofNat w o) fuel = some s := by
  induction s generalizing o fuel with
  | nil =>
    cases fuel with
    | zero => exact absurd hfuel (Nat.not_lt_zero _)
    | succ fuel =>
      rw [AddressSpace.readString,
        Has.head (show Has L a bottom o (0 :: []) from hhas),
        Option.bind_some, if_pos rfl]
  | cons b s ih =>
    cases fuel with
    | zero => exact absurd hfuel (Nat.not_lt_zero _)
    | succ fuel =>
      rw [List.mem_cons, not_or] at hnul
      rw [List.length_cons] at hfuel
      have hnext : bottom + BitVec.ofNat w o + 1
        = bottom + BitVec.ofNat w (o + 1) := add_offset bottom o 1
      rw [AddressSpace.readString,
        Has.head (show Has L a bottom o (b :: cstring s) from hhas),
        Option.bind_some, if_neg (fun h0 => hnul.1 h0.symm), hnext,
        ih hnul.2 (Has.tail (show Has L a bottom o (b :: cstring s) from hhas))
        (Nat.lt_of_succ_lt_succ hfuel)]
      rfl

variable (h : StackLayout L)
include h

/-- A word is read back from its bytes. -/
theorem guestWord {v : BitVec w}
    (hhas : Has L a bottom o (leBytes (bytes w) v.toNat)) :
    a.guestWord L (bottom + BitVec.ofNat w o) = some v := by
  have hread := guestBytes hhas
  rw [length_leBytes] at hread
  rw [AddressSpace.guestWord, hread, Option.map_some, leNat_leBytes, ← h.word,
    Nat.mod_eq_of_lt v.isLt, BitVec.ofNat_toNat, BitVec.setWidth_eq]

/-- Words are read back from their bytes. -/
theorem readWords {vs : List (BitVec w)}
    (hhas : Has L a bottom o (wordBytes vs)) :
    a.readWords L (bottom + BitVec.ofNat w o) vs.length = some vs := by
  induction vs generalizing o with
  | nil => rfl
  | cons v vs ih =>
    rw [wordBytes_cons] at hhas
    have hrest := hhas.right
    rw [length_leBytes] at hrest
    rw [List.length_cons, AddressSpace.readWords, guestWord h hhas.left,
      Option.bind_some, wordAt_add, Nat.mul_one, ih hrest]
    rfl

/-- A list is read back up to its null word. -/
theorem readList {vs : List (BitVec w)} (hne : ∀ v ∈ vs, v ≠ 0)
    (hhas : Has L a bottom o (wordBytes (vs ++ [0])))
    {fuel : Nat} (hfuel : vs.length < fuel) :
    a.readList L (bottom + BitVec.ofNat w o) fuel = some vs := by
  induction vs generalizing o fuel with
  | nil =>
    cases fuel with
    | zero => exact absurd hfuel (Nat.not_lt_zero _)
    | succ fuel =>
      rw [List.nil_append, wordBytes_cons] at hhas
      rw [AddressSpace.readList, guestWord h hhas.left,
        Option.bind_some, if_pos rfl]
  | cons v vs ih =>
    cases fuel with
    | zero => exact absurd hfuel (Nat.not_lt_zero _)
    | succ fuel =>
      rw [List.cons_append, wordBytes_cons] at hhas
      rw [List.length_cons] at hfuel
      have hrest := hhas.right
      rw [length_leBytes] at hrest
      rw [AddressSpace.readList, guestWord h hhas.left, Option.bind_some,
        if_neg (hne v List.mem_cons_self), wordAt_add, Nat.mul_one,
        ih (fun u hu => hne u (List.mem_cons_of_mem v hu)) hrest
        (Nat.lt_of_succ_lt_succ hfuel)]
      rfl

/-- The pairs before the last and the last. -/
theorem readPairs {ps : List (BitVec w × BitVec w)}
    (hne : ∀ p ∈ ps, p.1 ≠ auxv.AT_NULL) {x : BitVec w}
    (hhas : Has L a bottom o
      (wordBytes (pairWords (ps ++ [(auxv.AT_NULL, x)])))) {fuel : Nat}
    (hfuel : ps.length < fuel) :
    a.readPairs L (bottom + BitVec.ofNat w o) fuel
      = some (ps ++ [(auxv.AT_NULL, x)]) := by
  induction ps generalizing o fuel with
  | nil =>
    cases fuel with
    | zero => exact absurd hfuel (Nat.not_lt_zero _)
    | succ fuel =>
      rw [show pairWords ([] ++ [((auxv.AT_NULL : BitVec w), x)])
        = [auxv.AT_NULL, x] from rfl, wordBytes_cons, wordBytes_cons] at hhas
      have hrest := hhas.right
      rw [length_leBytes] at hrest
      rw [AddressSpace.readPairs, guestWord h hhas.left, Option.bind_some,
        wordAt_add, Nat.mul_one, guestWord h hrest.left,
        Option.bind_some, if_pos rfl]
      rfl
  | cons p ps ih =>
    cases fuel with
    | zero => exact absurd hfuel (Nat.not_lt_zero _)
    | succ fuel =>
      rw [show pairWords (p :: ps ++ [(auxv.AT_NULL, x)])
        = p.1 :: p.2 :: pairWords (ps ++ [(auxv.AT_NULL, x)])
        from rfl, wordBytes_cons, wordBytes_cons] at hhas
      rw [List.length_cons] at hfuel
      have hsecond := hhas.right
      rw [length_leBytes] at hsecond
      have hrest := hsecond.right
      rw [length_leBytes, Nat.add_assoc, ← Nat.mul_two] at hrest
      rw [AddressSpace.readPairs, guestWord h hhas.left, Option.bind_some,
        wordAt_add, Nat.mul_one, guestWord h hsecond.left, Option.bind_some,
        if_neg (hne p List.mem_cons_self), wordAt_add,
        ih (fun q hq => hne q (List.mem_cons_of_mem p hq)) hrest
        (Nat.lt_of_succ_lt_succ hfuel)]
      rfl

omit h in
/-- Reading each of many. -/
theorem mapM_of_forall₂ {α β : Type} {f : α → Option β}
    {xs : List α} {ys : List β}
    (hall : List.Forall₂ (fun x y => f x = some y) xs ys) :
    xs.mapM f = some ys := by
  induction hall with
  | nil => rfl
  | cons hx _ ih =>
    rw [List.mapM_cons, hx, ih]
    rfl

/-- The entry code reads the block and the strings it points to. -/
theorem readEntry {argvPtrs envpPtrs : List (BitVec w)}
    {body : List (BitVec w × BitVec w)} {x : BitVec w}
    (hargc : argvPtrs.length < 2 ^ w) (hne : ∀ p ∈ envpPtrs, p ≠ 0)
    (htags : ∀ p ∈ body, p.1 ≠ auxv.AT_NULL)
    (hhas : Has L a bottom o
      (wordBytes (entryBlock argvPtrs envpPtrs (body ++ [(auxv.AT_NULL, x)]))))
    {fuel : Nat} {argv envp : List (List U8)}
    (hargv : List.Forall₂ (fun p s => a.readString L p fuel = some s) argvPtrs argv)
    (henvp : List.Forall₂ (fun p s => a.readString L p fuel = some s) envpPtrs envp)
    (hfuel : envpPtrs.length < fuel) (hfuel' : body.length < fuel) :
    a.readEntry L (bottom + BitVec.ofNat w o) fuel
      = some ⟨BitVec.ofNat w argvPtrs.length, argvPtrs, envpPtrs, argv, envp,
          body ++ [(auxv.AT_NULL, x)]⟩ := by
  have hnat : (BitVec.ofNat w argvPtrs.length).toNat = argvPtrs.length := by
    rw [BitVec.toNat_ofNat, Nat.mod_eq_of_lt hargc]
  rw [entryBlock, wordBytes_append, wordBytes_append, wordBytes_append,
    wordBytes_append] at hhas
  have haux := hhas.right
  have henv := hhas.left.right
  have hnull := hhas.left.left.right
  have hptrs := hhas.left.left.left.right
  have hfirst := hhas.left.left.left.left
  simp only [List.length_append, length_wordBytes, List.length_singleton,
    ← Nat.mul_add] at haux henv hnull hptrs
  rw [← Nat.add_assoc] at haux
  rw [wordBytes_cons] at hfirst hnull
  rw [AddressSpace.readEntry, guestWord h hfirst.left, Option.bind_eq_bind,
    Option.bind_some, hnat]
  rw [wordAt_add, wordAt_add, wordAt_add, readWords h hptrs,
    Option.bind_eq_bind, Option.bind_some, guestWord h hnull.left,
    Option.bind_eq_bind, Option.bind_some, if_neg (not_not_intro rfl),
    readList h hne henv hfuel, Option.bind_eq_bind, Option.bind_some,
    wordAt_add, readPairs h htags haux hfuel', Option.bind_some,
    mapM_of_forall₂ hargv, Option.bind_some, mapM_of_forall₂ henvp,
    Option.bind_some]

end Window

end AddressSpace

end Remu.Os
