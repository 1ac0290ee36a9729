/-
The initial stack, read back.

In the window of the mapped stack the pushes and the block are where the
entry code looks for them (`entry_of_fits`). Beyond it a write goes to pages
that are not there, or to pages of something else; so what a process that
loads finds at its stack pointer is the process-entry layout exactly when
the strings and the block fit (`entry_stack_iff`).
-/
import Remu.Os.StackWindow

namespace Remu.Os

open EntryWidth FrameTree Word

variable {w : Nat} [EntryWidth w]

-- ======== the property

/-- What is pushed, the first uppermost. -/
def entryObjects (platformName : List U8) (argv envp : List (List U8))
    (execPath : List U8) :
    List (List U8) :=
  argv.map cstring ++ envp.map cstring
    ++ [platformName, cstring execPath, RANDOM16]

/-- The bytes of the pointer block. -/
def blockLength (w : Nat) [EntryWidth w] (argv envp : List (List U8)) : Nat :=
  bytes w * (argv.length + envp.length + 39)

/-- The bytes below the stack top that the stack takes, the alignment of the
block excepted. -/
def stackNeed (w : Nat) [EntryWidth w] (platformName : List U8)
    (argv envp : List (List U8)) (execPath : List U8) : Nat :=
  (entryObjects platformName argv envp execPath).flatten.length
    + blockLength w argv envp

/-- `data` is at `p`, between `lo` and the stack top. -/
structure Object (L : Layout w) (a : AddressSpace w) (lo : Nat) (p : BitVec w)
    (data : List U8) : Prop where
  held : a.guestBytes L p data.length = some data
  above : lo ≤ p.toNat
  below : p.toNat + data.length ≤ L.stackTop.toNat

/-- The stack pointer is that of a process entry: what is read from it is the
arguments, the environment and the auxiliary vector; it is aligned; the
objects pointed to are above the block; and all of it is mapped memory of
the stack. -/
structure IsEntry (L : Layout w) (platformName : List U8) (image : ElfImage w)
    (interpBase : Option (BitVec w)) (argv envp : List (List U8))
    (execPath : List U8)
    (a : AddressSpace w) (sp : BitVec w) (e : Entry w)
    (platform execfn random : BitVec w) : Prop where
  reads : ∃ n, ∀ fuel, n ≤ fuel → a.readEntry L sp fuel = some e
  count : e.argc.toNat = argv.length
  arguments : e.argv = argv
  environment : e.envp = envp
  auxiliary : e.aux = auxTable image interpBase random platform execfn
  aligned : sp.toNat % 16 = 0
  inside : L.stackTop.toNat ≤ sp.toNat + INIT_STACK
  mapped : a.Mapped L sp (L.stackTop.toNat - sp.toNat)
  objects : List.Forall₂ (Object L a (sp.toNat + blockLength w argv envp))
    (e.argvPtrs ++ e.envpPtrs ++ [platform, execfn, random])
    (entryObjects platformName argv envp execPath)

/-- The process-entry layout at `sp`. -/
def EntryStack (L : Layout w) (platformName : List U8) (image : ElfImage w)
    (interpBase : Option (BitVec w)) (argv envp : List (List U8))
    (execPath : List U8) (r : BitVec w × AddressSpace w) : Prop :=
  ∃ e platform execfn random,
    IsEntry L platformName image interpBase argv envp execPath r.2 r.1 e
      platform execfn random

theorem length_le_flatten {data : List U8} {datas : List (List U8)}
    (hmem : data ∈ datas) :
    data.length ≤ datas.flatten.length := by
  obtain ⟨xs, ys, rfl⟩ := List.append_of_mem hmem
  rw [List.flatten_append, List.flatten_cons, List.length_append,
    List.length_append]
  omega

/-- Every string takes a byte. -/
theorem count_le (platformName : List U8) (argv envp : List (List U8))
    (execPath : List U8) :
    argv.length + envp.length
      ≤ (entryObjects platformName argv envp execPath).flatten.length := by
  have hcount :
    ∀ ss : List (List U8), ss.length ≤ (ss.map cstring).flatten.length := by
    intro ss
    induction ss with
    | nil => exact le_refl _
    | cons s ss ih =>
      rw [List.map_cons, List.flatten_cons, List.length_append,
        List.length_cons, cstring, List.length_append, List.length_singleton]
      omega
  have h₁ := hcount argv
  have h₂ := hcount envp
  rw [entryObjects, List.flatten_append, List.flatten_append,
    List.length_append, List.length_append]
  omega

theorem auxTable_split (image : ElfImage w) (interpBase : Option (BitVec w))
    (random platform execfn : BitVec w) :
    ∃ body, auxTable image interpBase random platform execfn
      = body ++ [(auxv.AT_NULL, 0)]
      ∧ body.length = 17 ∧ ∀ p ∈ body, p.1 ≠ auxv.AT_NULL := by
  refine ⟨(auxTable image interpBase random platform execfn).dropLast, rfl,
    rfl, fun p hp hnull => ?_⟩
  obtain ⟨q, hq⟩ := PageWidth.exists_pow w
  have hpow := Nat.two_pow_pos w
  have htag : ∀ n,
      n ∈ [3, 4, 5, 6, 7, 8, 9, 11, 12, 13, 14, 23, 17, 16, 25, 15, 31] →
      BitVec.ofNat w n ≠ auxv.AT_NULL := by
    intro n hn heq
    have hle : 0 < n ∧ n ≤ 31 := by
      simp only [List.mem_cons, List.not_mem_nil, or_false] at hn
      omega
    have hnat := congrArg BitVec.toNat heq
    rw [BitVec.toNat_ofNat, BitVec.toNat_ofNat, Nat.mod_eq_of_lt (by omega),
      Nat.zero_mod] at hnat
    omega
  have hmem : p.1 ∈ [3, 4, 5, 6, 7, 8, 9, 11, 12, 13, 14, 23, 17, 16, 25, 15,
    31].map (BitVec.ofNat w) :=
    List.mem_map_of_mem (f := Prod.fst) hp
  obtain ⟨n, hn, heq⟩ := List.mem_map.1 hmem
  exact htag n hn (heq.trans hnull)

namespace AddressSpace

-- ======== the build taken apart

variable {L : Layout w} {a a' : AddressSpace w} {sp : BitVec w}

theorem pushAll_cons_iff {data : List U8} {rest : List (List U8)}
    {ptrs : List (BitVec w)} {sp' : BitVec w} :
    a.pushAll L sp (data :: rest) = some (ptrs, sp', a') ↔ ∃ p a₁ ps,
      a.push L sp data = some (p, a₁)
      ∧ a₁.pushAll L p rest = some (ps, sp', a') ∧ ptrs = p :: ps := by
  rw [AddressSpace.pushAll, Option.bind_eq_some_iff]
  constructor
  · intro h
    obtain ⟨⟨p, a₁⟩, hpush, hrest⟩ := h
    obtain ⟨⟨ps, sp₁, a₂⟩, hps, heq⟩ := Option.map_eq_some_iff.1 hrest
    simp only [Prod.mk.injEq] at heq
    obtain ⟨rfl, rfl, rfl⟩ := heq
    exact ⟨p, a₁, ps, hpush, hps, rfl⟩
  · intro h
    obtain ⟨p, a₁, ps, hpush, hps, rfl⟩ := h
    exact ⟨(p, a₁), hpush, Option.map_eq_some_iff.2 ⟨(ps, sp', a'), hps, rfl⟩⟩

theorem pushAll_append_iff {xs ys : List (List U8)}
    {ptrs : List (BitVec w)} {sp' : BitVec w} :
    a.pushAll L sp (xs ++ ys) = some (ptrs, sp', a')
      ↔ ∃ ps qs sp₁ a₁, ptrs = ps ++ qs
      ∧ a.pushAll L sp xs = some (ps, sp₁, a₁)
      ∧ a₁.pushAll L sp₁ ys = some (qs, sp', a') := by
  induction xs generalizing a sp ptrs with
  | nil =>
    constructor
    · intro h
      exact ⟨[], ptrs, sp, a, rfl, rfl, h⟩
    · intro h
      obtain ⟨ps, qs, sp₁, a₁, rfl, hnil, hys⟩ := h
      cases hnil
      exact hys
  | cons x xs ih =>
    rw [List.cons_append, pushAll_cons_iff]
    constructor
    · intro h
      obtain ⟨p, a₁, ps, hpush, hrest, rfl⟩ := h
      obtain ⟨ps, qs, sp₂, a₂, rfl, hxs, hys⟩ := ih.1 hrest
      exact ⟨p :: ps, qs, sp₂, a₂, rfl,
        pushAll_cons_iff.2 ⟨p, a₁, ps, hpush, hxs, rfl⟩, hys⟩
    · intro h
      obtain ⟨ps, qs, sp₁, a₁, rfl, hxs, hys⟩ := h
      obtain ⟨p, a₂, ps, hpush, hrest, rfl⟩ := pushAll_cons_iff.1 hxs
      exact ⟨p, a₂, ps ++ qs, hpush, ih.2 ⟨ps, qs, sp₁, a₁, rfl, hrest, hys⟩, rfl⟩

/-- Pushes go down by what they push. -/
theorem pushAll_lengths {datas : List (List U8)}
    {ptrs : List (BitVec w)} {sp' : BitVec w}
    (h : a.pushAll L sp datas = some (ptrs, sp', a')) :
    ptrs.length = datas.length
      ∧ ((∀ data ∈ datas, data.length < 2 ^ w) →
        sp'.toNat + datas.flatten.length = sp.toNat) := by
  induction datas generalizing a sp ptrs with
  | nil =>
    cases h
    exact ⟨rfl, fun _ => rfl⟩
  | cons data rest ih =>
    obtain ⟨p, a₁, ps, hpush, hrest, rfl⟩ := pushAll_cons_iff.1 h
    obtain ⟨hlen, hdown⟩ := ih hrest
    refine ⟨by rw [List.length_cons, List.length_cons, hlen], fun hsmall => ?_⟩
    have hdata := hsmall data List.mem_cons_self
    have hrest' := hdown fun d hd => hsmall d (List.mem_cons_of_mem data hd)
    dsimp only [push] at hpush
    split at hpush
    · cases hpush
    · simp only [Option.some.injEq, Prod.mk.injEq] at hpush
      obtain ⟨rfl, -⟩ := hpush
      have hnat : (BitVec.ofNat w data.length).toNat = data.length := by
        rw [BitVec.toNat_ofNat, Nat.mod_eq_of_lt hdata]
      rw [BitVec.toNat_sub_of_le (by rw [BitVec.le_def]; omega),
        hnat] at hrest'
      rw [List.flatten_cons, List.length_append]
      omega

section Build

variable {platformName : List U8} {image : ElfImage w}
  {interpBase : Option (BitVec w)}
  {argv envp : List (List U8)} {execPath : List U8}

theorem pushAll_last_iff {ptrs : List (BitVec w)} {sp' : BitVec w} :
    a.pushAll L sp [platformName, cstring execPath, RANDOM16]
      = some (ptrs, sp', a')
      ↔ ∃ platform execfn a₁ a₂, a.push L sp platformName = some (platform, a₁)
        ∧ a₁.push L platform (cstring execPath) = some (execfn, a₂)
        ∧ a₂.push L execfn RANDOM16 = some (sp', a')
        ∧ ptrs = [platform, execfn, sp'] := by
  constructor
  · intro h
    obtain ⟨platform, a₁, ps₁, h₁, htail₁, hptrs⟩ := pushAll_cons_iff.1 h
    obtain ⟨execfn, a₂, ps₂, h₂, htail₂, hps₁⟩ := pushAll_cons_iff.1 htail₁
    obtain ⟨random, a₃, ps₃, h₃, hnil, hps₂⟩ := pushAll_cons_iff.1 htail₂
    cases hnil
    exact ⟨platform, execfn, a₁, a₂, h₁, h₂, h₃, by rw [hptrs, hps₁, hps₂]⟩
  · intro h
    obtain ⟨platform, execfn, a₁, a₂, h₁, h₂, h₃, rfl⟩ := h
    exact pushAll_cons_iff.2 ⟨platform, a₁, _, h₁,
      pushAll_cons_iff.2 ⟨execfn, a₂, _, h₂,
      pushAll_cons_iff.2 ⟨sp', a', [], h₃, rfl, rfl⟩, rfl⟩, rfl⟩

/-- The pointers of the objects, the last of them the stack pointer. -/
theorem pushAll_objects {ptrs : List (BitVec w)} {sp' : BitVec w}
    (h : a.pushAll L sp (entryObjects platformName argv envp execPath)
      = some (ptrs, sp', a')) :
    ∃ argvPtrs envpPtrs platform execfn, argvPtrs.length = argv.length
      ∧ envpPtrs.length = envp.length
      ∧ ptrs = argvPtrs ++ envpPtrs ++ [platform, execfn, sp'] := by
  obtain ⟨pqs, rs, sp₂, a₂, rfl, hboth, htail⟩ := pushAll_append_iff.1 h
  obtain ⟨ps, qs, sp₁, a₁, rfl, hargv, henvp⟩ := pushAll_append_iff.1 hboth
  obtain ⟨platform, execfn, a₃, a₄, -, -, -, rfl⟩ := pushAll_last_iff.1 htail
  have hps := (pushAll_lengths hargv).1
  have hqs := (pushAll_lengths henvp).1
  rw [List.length_map] at hps hqs
  exact ⟨ps, qs, platform, execfn, hps, hqs, rfl⟩

/-- `build_stack` is the pushes and the block. -/
theorem buildStack_iff {r : BitVec w × AddressSpace w} :
    a.buildStack L platformName image interpBase argv envp execPath = some r
      ↔ ∃ argvPtrs envpPtrs platform execfn random a₁,
        argvPtrs.length = argv.length ∧ envpPtrs.length = envp.length
          ∧ a.pushAll L L.stackTop
            (entryObjects platformName argv envp execPath)
            = some (argvPtrs ++ envpPtrs ++ [platform, execfn, random],
              random, a₁)
          ∧ a₁.placeBlock L random argvPtrs envpPtrs
            (auxTable image interpBase random platform execfn)
            = some r := by
  rw [buildStack, entryObjects]
  simp only [Option.bind_eq_bind, Option.bind_eq_some_iff]
  constructor
  · intro h
    obtain ⟨⟨ps, sp₁, a₁⟩, hargv, ⟨qs, sp₂, a₂⟩, henvp, ⟨platform, a₃⟩, h₁,
      ⟨execfn, a₄⟩, h₂, ⟨random, a₅⟩, h₃, hplace⟩ := h
    have hps := (pushAll_lengths hargv).1
    have hqs := (pushAll_lengths henvp).1
    rw [List.length_map] at hps hqs
    refine ⟨ps, qs, platform, execfn, random, a₅, hps, hqs, ?_, hplace⟩
    exact pushAll_append_iff.2 ⟨ps ++ qs, _, sp₂, a₂, rfl,
      pushAll_append_iff.2 ⟨ps, qs, sp₁, a₁, rfl, hargv, henvp⟩,
      pushAll_last_iff.2 ⟨platform, execfn, a₃, a₄, h₁, h₂, h₃, rfl⟩⟩
  · intro h
    obtain ⟨argvPtrs, envpPtrs, platform, execfn, random, a₅, hps, hqs,
      hall, hplace⟩ := h
    obtain ⟨pqs, rs, sp₂, a₂, heq, hboth, htail⟩ := pushAll_append_iff.1 hall
    obtain ⟨ps, qs, sp₁, a₁, rfl, hargv, henvp⟩ := pushAll_append_iff.1 hboth
    obtain ⟨pl, ex, a₃, a₄, h₁, h₂, h₃, rfl⟩ := pushAll_last_iff.1 htail
    have hlps := (pushAll_lengths hargv).1
    have hlqs := (pushAll_lengths henvp).1
    rw [List.length_map] at hlps hlqs
    obtain ⟨hpq, htl⟩ := List.append_inj' heq rfl
    obtain ⟨rfl, rfl⟩ := List.append_inj hpq (hps.trans hlps.symm)
    simp only [List.cons.injEq, and_true] at htl
    obtain ⟨rfl, rfl⟩ := htl
    exact ⟨_, hargv, _, henvp, _, h₁, _, h₂, _, h₃, hplace⟩

variable (h : StackLayout L) (hargv : ∀ s ∈ argv, 0 ∉ s)
  (henvp : ∀ s ∈ envp, 0 ∉ s)

omit h in
/-- Strings that lie in the stack are read. -/
theorem readStrings {ss : List (List U8)} (hnul : ∀ s ∈ ss, 0 ∉ s)
    {ptrs : List (BitVec w)} {lo : Nat}
    (hall : List.Forall₂ (Window.Lies L a lo INIT_STACK) ptrs (ss.map cstring))
    {fuel : Nat} (hfuel : INIT_STACK ≤ fuel) :
    List.Forall₂ (fun p s => a.readString L p fuel = some s) ptrs ss := by
  induction ss generalizing ptrs with
  | nil =>
    rw [List.map_nil, List.forall₂_nil_right_iff] at hall
    rw [hall]
    exact .nil
  | cons s ss ih =>
    rw [List.map_cons, List.forall₂_cons_right_iff] at hall
    obtain ⟨p, ps, hp, hrest, rfl⟩ := hall
    refine .cons ?_ (ih (fun t ht => hnul t (List.mem_cons_of_mem s ht)) hrest)
    obtain ⟨off, rfl, hhas, -, hhi⟩ := hp
    rw [cstring, List.length_append, List.length_singleton] at hhi
    exact Window.readString (hnul s List.mem_cons_self) hhas (by omega)

include h in
theorem Lies.object {p : BitVec w} {data : List U8} {lo hi : Nat}
    (hi_le : hi ≤ INIT_STACK)
    (hp : Window.Lies L a lo hi p data) :
    Object L a (L.stackBottom.toNat + lo) p data := by
  obtain ⟨off, rfl, hhas, hlo, hhi⟩ := hp
  have hroom := h.room
  have hbot := h.toNat_bottom
  have hat := h.toNat_at (o := off) (by omega)
  exact ⟨Window.guestBytes hhas, by omega, by omega⟩

include h hargv henvp in
/-- A stack that fits is a process entry. -/
theorem entry_of_fits (hwin : Window L a L.stackBottom INIT_STACK)
    (hfits : stackNeed w platformName argv envp execPath ≤ INIT_STACK) :
    ∃ r, a.buildStack L platformName image interpBase argv envp execPath = some r
      ∧ EntryStack L platformName image interpBase argv envp execPath r := by
  have hroom := h.room
  have habove := h.above
  have hbot := h.toNat_bottom
  rw [stackNeed] at hfits
  obtain ⟨ptrs, a₁, hpush, hwin₁, hall, -⟩ :=
    hwin.pushAll h (le_refl INIT_STACK)
    (show (entryObjects platformName argv envp execPath).flatten.length
      ≤ INIT_STACK by omega)
  rw [← h.top_eq] at hpush
  generalize hlow :
    INIT_STACK - (entryObjects platformName argv envp execPath).flatten.length = low
    at hpush hall
  obtain ⟨argvPtrs, envpPtrs, platform, execfn, hlargv, hlenvp, rfl⟩ :=
    pushAll_objects hpush
  obtain ⟨body, haux, hlbody, htags⟩ := auxTable_split image interpBase
    (L.stackBottom + BitVec.ofNat w low) platform execfn
  have hlblock :
      bytes w * (entryBlock argvPtrs envpPtrs
      (body ++ [(auxv.AT_NULL, 0)])).length
      = blockLength w argv envp := by
    rw [length_entryBlock, hlargv, hlenvp, List.length_append, hlbody,
      List.length_singleton, blockLength]
    congr 1
    omega
  obtain ⟨o, a₂, hplace, ho, halign, hwin₂, hhas, hkeep⟩ :=
    hwin₁.placeBlock h (o := low) (by omega)
    (show bytes w
      * (entryBlock argvPtrs envpPtrs (body ++ [(auxv.AT_NULL, 0)])).length
      ≤ low by omega)
  rw [← haux] at hplace
  refine ⟨_,
    buildStack_iff.2 ⟨argvPtrs, envpPtrs, platform, execfn, _, a₁, hlargv,
      hlenvp, hpush, hplace⟩, ?_⟩
  have hat := h.toNat_at (o := o) (by omega)
  have hbottom := h.bottom_mod
  -- What was pushed is above the block.
  have hall₂ : List.Forall₂ (Window.Lies L a₂ low INIT_STACK)
      (argvPtrs ++ envpPtrs ++ [platform, execfn, L.stackBottom + BitVec.ofNat w low])
      (entryObjects platformName argv envp execPath) := by
    refine hall.imp fun p data hp => ?_
    obtain ⟨off, rfl, hd, hlo, hhi⟩ := hp
    refine ⟨off, rfl, fun i hi => ?_, hlo, hhi⟩
    rw [hkeep (off + i) (by omega) (by omega)]
    exact hd i hi
  have hboth := List.forall₂_take_append _ _ _ hall₂
  rw [List.take_left' (by
    rw [List.length_append, List.length_append, List.length_map,
    List.length_map, hlargv, hlenvp])] at hboth
  have hfirst := List.forall₂_take_append _ _ _ hboth
  rw [List.take_left' (by rw [List.length_map, hlargv])] at hfirst
  have hsecond := List.forall₂_drop_append _ _ _ hboth
  rw [List.drop_left' (by rw [List.length_map, hlargv])] at hsecond
  have hne : ∀ p ∈ envpPtrs, p ≠ 0 := by
    refine ((List.forall₂_and_left (R := fun _ _ => True) envpPtrs _).1
      (hsecond.imp fun p data hp => ⟨?_, trivial⟩)).1
    obtain ⟨off, rfl, -, -, hhi⟩ := hp
    intro hzero
    have hnat : (L.stackBottom + BitVec.ofNat w off).toNat = 0 :=
      (congrArg BitVec.toNat hzero).trans BitVec.toNat_zero
    rw [h.toNat_at (by omega)] at hnat
    omega
  have hcount := count_le platformName argv envp execPath
  have hpos : 0 < blockLength w argv envp := Nat.mul_pos bytes_pos (by omega)
  refine ⟨⟨BitVec.ofNat w argvPtrs.length, argvPtrs, envpPtrs, argv, envp,
    body ++ [(auxv.AT_NULL, 0)]⟩,
    platform, execfn, L.stackBottom + BitVec.ofNat w low, ?_⟩
  exact {
    reads := ⟨INIT_STACK,
      fun fuel hfuel => Window.readEntry h (by omega) hne htags hhas
      (readStrings hargv hfirst hfuel) (readStrings henvp hsecond hfuel)
        (by omega)
      (by rw [hlbody]; exact lt_of_lt_of_le (by decide) hfuel)⟩
    count := by rw [BitVec.toNat_ofNat, Nat.mod_eq_of_lt (by omega), hlargv]
    arguments := rfl
    environment := rfl
    auxiliary := haux.symm
    aligned := by rw [hat]; omega
    inside := by rw [hat]; omega
    mapped := fun i hi => by
      rw [Window.add_offset]
      exact hwin₂.mapped (o + i) (by rw [hat] at hi; omega)
    objects := hall₂.imp fun p data hp => by
      have hobj := Lies.object h (le_refl _) hp
      exact ⟨hobj.held, by rw [hat]; have := hobj.above; omega, hobj.below⟩ }

include h in
/-- A process entry fits. -/
theorem fits_of_entry {r : BitVec w × AddressSpace w}
    (hbuild : a.buildStack L platformName image interpBase argv envp execPath = some r)
    (hentry : EntryStack L platformName image interpBase argv
      envp execPath r) :
    stackNeed w platformName argv envp execPath ≤ INIT_STACK := by
  obtain ⟨e, platform', execfn', random', hentry⟩ := hentry
  obtain ⟨argvPtrs, envpPtrs, platform, execfn, random, a₁, hlargv,
    hlenvp, hpush, hplace⟩ :=
    buildStack_iff.1 hbuild
  have habove := h.above
  have hsmall : ∀ data ∈ entryObjects platformName argv envp execPath,
    data.length < 2 ^ w := by
    have hflip := (List.forall₂_and_left (R := fun _ _ => True) _ _).1
      (hentry.objects.flip.imp fun data p hp =>
        ⟨(Nat.le_add_left _ _).trans hp.below, trivial⟩)
    intro data hd
    have := hflip.1 data hd
    omega
  have hdown := (pushAll_lengths hpush).2 hsmall
  have hcount := count_le platformName argv envp execPath
  obtain ⟨body, haux, hlbody, -⟩ :=
    auxTable_split image interpBase random platform execfn
  have hwords : 1 + (argvPtrs.length + 1) + (envpPtrs.length + 1)
      + (auxTable image interpBase random platform execfn).length * 2
        = argv.length + envp.length + 39 := by
    rw [haux, hlargv, hlenvp, List.length_append, hlbody,
      List.length_singleton]
    omega
  have hneed : (BitVec.ofNat w (argv.length + envp.length + 39)).toNat * bytes
    w = blockLength w argv envp := by
    rw [BitVec.toNat_ofNat, Nat.mod_eq_of_lt (by omega),
      blockLength, Nat.mul_comm]
  dsimp only [AddressSpace.placeBlock] at hplace
  rw [hwords, hneed] at hplace
  split at hplace
  · cases hplace
  · have hinside := hentry.inside
    rw [Option.some.injEq] at hplace
    have hbase :=
      congrArg (fun r : BitVec w × AddressSpace w => r.1.toNat) hplace
    dsimp only at hbase
    have hnat : (BitVec.ofNat w (blockLength w argv envp)).toNat
      = blockLength w argv envp := by
      rw [BitVec.toNat_ofNat, Nat.mod_eq_of_lt (by omega)]
    rw [toNat_and_not_F, BitVec.toNat_sub_of_le (by rw [BitVec.le_def]; omega),
      hnat] at hbase
    rw [stackNeed]
    omega

/-- Pushes that stay above zero go through. -/
theorem pushAll_isSome {datas : List (List U8)}
    (hroom : datas.flatten.length ≤ sp.toNat) :
    ∃ ptrs sp' a', a.pushAll L sp datas = some (ptrs, sp', a') := by
  induction datas generalizing a sp with
  | nil => exact ⟨[], sp, a, rfl⟩
  | cons data rest ih =>
    rw [List.flatten_cons, List.length_append] at hroom
    have hlt := sp.isLt
    have hnat : (BitVec.ofNat w data.length).toNat = data.length := by
      rw [BitVec.toNat_ofNat, Nat.mod_eq_of_lt (by omega)]
    have hpush : a.push L sp data = some (sp - BitVec.ofNat w data.length,
        (a.writeBytes L (sp - BitVec.ofNat w data.length) data).2) := by
      dsimp only [push]
      rw [if_neg (by omega)]
    have hsub : (sp - BitVec.ofNat w data.length).toNat
      = sp.toNat - data.length := by
      rw [BitVec.toNat_sub_of_le (by rw [BitVec.le_def]; omega), hnat]
    obtain ⟨ptrs, sp', a', hrest⟩ :=
      ih (a := (a.writeBytes L (sp - BitVec.ofNat w data.length) data).2)
      (show rest.flatten.length
        ≤ (sp - BitVec.ofNat w data.length).toNat by omega)
    exact ⟨_, sp', a', pushAll_cons_iff.2 ⟨_, _, ptrs, hpush, hrest, rfl⟩⟩

include h in
/-- A stack below which there are addresses is built, mapped or not. -/
theorem buildStack_isSome
    (hneed : stackNeed w platformName argv envp execPath ≤ L.stackTop.toNat) :
    ∃ r, a.buildStack L platformName image interpBase argv envp execPath
      = some r := by
  have habove := h.above
  rw [stackNeed] at hneed
  obtain ⟨ptrs, sp', a₁, hpush⟩ := pushAll_isSome (L := L) (a := a)
    (show (entryObjects platformName argv envp execPath).flatten.length
      ≤ L.stackTop.toNat by omega)
  obtain ⟨argvPtrs, envpPtrs, platform, execfn, hlargv, hlenvp, rfl⟩ :=
    pushAll_objects hpush
  have hdown := (pushAll_lengths hpush).2 fun data hd => by
    have := length_le_flatten hd
    omega
  have hcount := count_le platformName argv envp execPath
  have hwords : 1 + (argvPtrs.length + 1) + (envpPtrs.length + 1)
      + (auxTable image interpBase sp' platform execfn).length * 2
        = argv.length + envp.length + 39 := by
    rw [hlargv, hlenvp,
      show (auxTable image interpBase sp' platform execfn).length
      = 18 from rfl]
    omega
  have hbytes : (BitVec.ofNat w (argv.length + envp.length + 39)).toNat * bytes
    w = blockLength w argv envp := by
    rw [BitVec.toNat_ofNat, Nat.mod_eq_of_lt (by omega),
      blockLength, Nat.mul_comm]
  have hplace : ∃ r,
      a₁.placeBlock L sp' argvPtrs envpPtrs
      (auxTable image interpBase sp' platform execfn)
      = some r := by
    dsimp only [AddressSpace.placeBlock]
    rw [hwords, hbytes, if_neg (by omega)]
    exact ⟨_, rfl⟩
  obtain ⟨r, hr⟩ := hplace
  exact ⟨r, buildStack_iff.2 ⟨argvPtrs, envpPtrs, platform, execfn, sp', a₁,
    hlargv, hlenvp, hpush, hr⟩⟩

include h hargv henvp in
/-- On a mapped stack: the build goes through when the stack fits, and
leaves a process entry exactly then. -/
theorem buildStack_law (hs : a.Sound L)
    (hfit : (a.mapStack L).nextPhys ≤ 2 ^ L.physBits) :
    (stackNeed w platformName argv envp execPath ≤ INIT_STACK →
      ((a.mapStack L).buildStack L platformName image interpBase argv envp
        execPath).isSome)
    ∧ ∀ r, (a.mapStack L).buildStack L platformName image interpBase argv envp
      execPath = some r →
      (EntryStack L platformName image interpBase argv envp execPath r
        ↔ stackNeed w platformName argv envp execPath ≤ INIT_STACK) := by
  have hwin := window_mapStack h hs hfit
  have hroom := h.room
  refine ⟨fun hfits => ?_,
    fun r hbuild => ⟨fits_of_entry h hbuild, fun hfits => ?_⟩⟩
  · have hsome : ∃ r,
      (a.mapStack L).buildStack L platformName image interpBase argv envp
      execPath = some r :=
      buildStack_isSome h (hfits.trans hroom.le)
    obtain ⟨r, hbuild⟩ := hsome
    rw [hbuild]
    rfl
  · have hsome : ∃ r,
        (a.mapStack L).buildStack L platformName image interpBase argv envp
        execPath = some r
        ∧ EntryStack L platformName image interpBase argv envp execPath r :=
      entry_of_fits h hargv henvp hwin hfits
    obtain ⟨r', hbuild', hentry⟩ := hsome
    rw [hbuild, Option.some.injEq] at hbuild'
    rw [hbuild']
    exact hentry

end Build

end AddressSpace

-- ======== both layers

/-- In either layer, whatever was mapped and written before the stack, and as
long as the frames handed out end within physical addresses (2^32 in the i386
layer, 2^52 in the x86-64 layer): for NUL-free strings a process whose strings and
block fit into the mapped stack loads, and what a process that loads finds
at its stack pointer is the process-entry layout exactly when they fit. -/
theorem entry_stack_iff (argv envp : List (List U8)) (execPath : List U8)
    (hargv : ∀ s ∈ argv, 0 ∉ s) (henvp : ∀ s ∈ envp, 0 ∉ s) :
    (∀ (ops : List (Op 32)) (image : ElfImage 32) (interpBase : Option U32),
      (((AddressSpace.new Layout.os).run Layout.os ops).mapStack
        Layout.os).nextPhys ≤ 2 ^ 32 →
      (stackNeed 32 i686 argv envp execPath ≤ INIT_STACK →
        (buildStack32
          (((AddressSpace.new Layout.os).run Layout.os ops).mapStack Layout.os)
          image interpBase
          argv envp execPath).isSome)
      ∧ ∀ r, buildStack32
          (((AddressSpace.new Layout.os).run Layout.os ops).mapStack Layout.os) image
          interpBase argv envp execPath = some r →
        (EntryStack Layout.os i686 image interpBase argv envp execPath r
          ↔ stackNeed 32 i686 argv envp execPath ≤ INIT_STACK))
    ∧ ∀ (ops : List (Op 64)) (image : ElfImage 64) (interpBase : Option U64),
      (((AddressSpace.new Layout.os64).run Layout.os64 ops).mapStack
        Layout.os64).nextPhys ≤ 2 ^ 52 →
      (stackNeed 64 x86_64 argv envp execPath ≤ INIT_STACK →
        (buildStack64
          (((AddressSpace.new Layout.os64).run Layout.os64 ops).mapStack
          Layout.os64) image
          interpBase argv envp execPath).isSome)
      ∧ ∀ r, buildStack64
          (((AddressSpace.new Layout.os64).run Layout.os64 ops).mapStack
          Layout.os64) image
          interpBase argv envp execPath = some r →
        (EntryStack Layout.os64 x86_64 image interpBase argv envp execPath r
          ↔ stackNeed 64 x86_64 argv envp execPath ≤ INIT_STACK) := by
  constructor
  · intro ops image interpBase hfit
    have hs := AddressSpace.sound_run Layout.os ops
      ((AddressSpace.nextPhys_apply _ (.map _ _ _ _)).trans hfit)
    exact AddressSpace.buildStack_law stackLayout_os hargv henvp hs hfit
  · intro ops image interpBase hfit
    have hs := AddressSpace.sound_run Layout.os64 ops
      ((AddressSpace.nextPhys_apply _ (.map _ _ _ _)).trans hfit)
    exact AddressSpace.buildStack_law stackLayout_os64 hargv henvp hs hfit

/-- An image with one program header. -/
abbrev smallImage (w : Nat) : ElfImage w := ⟨0x400000, 0x400040, 32, 1⟩

/-- `/a -l` with `A=1`. -/
theorem entry_stack_small :
    (∃ r, buildStack32 ((AddressSpace.new Layout.os).mapStack Layout.os)
        (smallImage 32) none
        [[0x2F, 0x61], [0x2D, 0x6C]] [[0x41, 0x3D, 0x31]] [0x2F, 0x61] = some r
      ∧ EntryStack Layout.os i686 (smallImage 32) none [[0x2F, 0x61],
        [0x2D, 0x6C]] [[0x41, 0x3D, 0x31]] [0x2F, 0x61] r)
    ∧ ∃ r, buildStack64 ((AddressSpace.new Layout.os64).mapStack Layout.os64)
        (smallImage 64) none
        [[0x2F, 0x61], [0x2D, 0x6C]] [[0x41, 0x3D, 0x31]] [0x2F, 0x61] = some r
      ∧ EntryStack Layout.os64 x86_64 (smallImage 64) none [[0x2F, 0x61],
        [0x2D, 0x6C]] [[0x41, 0x3D, 0x31]] [0x2F, 0x61] r := by
  have h := entry_stack_iff [[0x2F, 0x61], [0x2D, 0x6C]] [[0x41, 0x3D, 0x31]]
    [0x2F, 0x61] (by decide) (by decide)
  have h₃₂ := h.1 [] (smallImage 32) none
    ((AddressSpace.nextPhys_mapStack_le stackLayout_os _).trans (by decide))
  have h₆₄ := h.2 [] (smallImage 64) none
    ((AddressSpace.nextPhys_mapStack_le stackLayout_os64 _).trans (by decide))
  rw [show (AddressSpace.new Layout.os).run Layout.os []
    = AddressSpace.new Layout.os from rfl] at h₃₂
  rw [show (AddressSpace.new Layout.os64).run Layout.os64 []
    = AddressSpace.new Layout.os64 from rfl] at h₆₄
  obtain ⟨r, hr⟩ := Option.isSome_iff_exists.1 (h₃₂.1 (by decide))
  obtain ⟨r', hr'⟩ := Option.isSome_iff_exists.1 (h₆₄.1 (by decide))
  exact ⟨⟨r, hr, (h₃₂.2 r hr).2 (by decide)⟩, r', hr',
    (h₆₄.2 r' hr').2 (by decide)⟩

/-- An argument of 256 KiB. -/
def longArgument : List U8 := List.replicate INIT_STACK 0x41

theorem length_longArgument : longArgument.length = INIT_STACK :=
  List.length_replicate

theorem zero_not_mem_longArgument : 0 ∉ longArgument := by
  intro hmem
  exact absurd (List.eq_of_mem_replicate hmem) (by decide)

/-- What the stack of a long argument needs. -/
theorem stackNeed_singleton (w : Nat) [EntryWidth w]
    (platformName s : List U8) :
    stackNeed w platformName [s] []
      [0x2F, 0x61] = s.length + 20 + platformName.length + bytes w * 40 := by
  rw [stackNeed, blockLength]
  simp only [entryObjects, cstring, RANDOM16, List.map_cons, List.map_nil,
    List.append_nil, List.cons_append, List.nil_append, List.flatten_cons,
    List.flatten_nil, List.length_append, List.length_cons, List.length_nil]
  omega

/-- Both processes load, and neither stack is the process-entry layout. -/
theorem not_entryStack_longArgument :
    (∀ s ∈ [longArgument], 0 ∉ s)
    ∧ (∃ r, buildStack32 ((AddressSpace.new Layout.os).mapStack Layout.os)
        (smallImage 32) none
        [longArgument] [] [0x2F, 0x61] = some r
      ∧ ¬ EntryStack Layout.os i686 (smallImage 32) none [longArgument] []
        [0x2F, 0x61] r)
    ∧ ∃ r, buildStack64 ((AddressSpace.new Layout.os64).mapStack Layout.os64)
        (smallImage 64) none
        [longArgument] [] [0x2F, 0x61] = some r
      ∧ ¬ EntryStack Layout.os64 x86_64 (smallImage 64) none [longArgument] []
        [0x2F, 0x61] r := by
  have h₃₂ := stackNeed_singleton 32 i686 longArgument
  have h₆₄ := stackNeed_singleton 64 x86_64 longArgument
  rw [length_longArgument] at h₃₂ h₆₄
  refine ⟨fun s hs => List.mem_singleton.1 hs ▸ zero_not_mem_longArgument, ?_, ?_⟩
  · have hsome : ∃ r,
        buildStack32 ((AddressSpace.new Layout.os).mapStack Layout.os)
        (smallImage 32) none
        [longArgument] [] [0x2F, 0x61] = some r :=
      AddressSpace.buildStack_isSome stackLayout_os (by rw [h₃₂]; decide)
    obtain ⟨r, hr⟩ := hsome
    refine ⟨r, hr, fun hentry => ?_⟩
    have hfits := AddressSpace.fits_of_entry stackLayout_os hr hentry
    omega
  · have hsome : ∃ r,
        buildStack64 ((AddressSpace.new Layout.os64).mapStack Layout.os64)
        (smallImage 64) none
        [longArgument] [] [0x2F, 0x61] = some r :=
      AddressSpace.buildStack_isSome stackLayout_os64 (by rw [h₆₄]; decide)
    obtain ⟨r, hr⟩ := hsome
    refine ⟨r, hr, fun hentry => ?_⟩
    have hfits := AddressSpace.fits_of_entry stackLayout_os64 hr hentry
    omega

end Remu.Os
