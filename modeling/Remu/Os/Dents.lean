/-
`getdents64` over a directory snapshot.

The cursor moves past every entry that fits the buffer while the block is
built, before the block is copied to the guest, and an empty block is
answered with 0 whatever it is empty for. So a call loses entries when its
buffer faults, and ends the listing early when the next entry does not fit.
`getdents_iterates_iff` says that nothing else goes wrong: a run of calls
delivers every entry once and in order exactly when each of its calls
avoids the two (and a block or a name too long for its count).
-/
import Remu.Lib.ByteWords
import Remu.Os.Contents
import Remu.Os.Ops
import Remu.Os.VfsIo

namespace Remu.Os

open AddressSpace

-- ======== records

/-- A name's bytes. -/
def utf8 (s : Str) : List U8 :=
  s.flatMap fun c => (String.utf8EncodeChar c).map UInt8.toBitVec

/-- The length of an entry's record: the header, the name and its NUL, to
a multiple of 8. -/
def reclen (e : DirEnt) : Nat := (19 + (utf8 e.name).length + 1 + 7) / 8 * 8

/-- The `linux_dirent64` of an entry at offset `start` of the block. -/
def record (start : Nat) (e : DirEnt) : List U8 :=
  let name := utf8 e.name
  leBytes 8 1 ++ leBytes 8 (start + reclen e) ++ leBytes 2 (reclen e)
    ++ [if e.isDir then 4 else 8] ++ name ++ List.replicate
      (reclen e - 19 - name.length) 0

/-- Take an entry into the block if it has room under `cap`. -/
def emitDent (cap : Nat) (block : List U8) (e : DirEnt) : Bool × List U8 :=
  if cap < block.length + reclen e then (false, block)
    else (true, block ++ record block.length e)

/-- `getdents64`: the count or error. -/
def sysGetdents64 (v : Vfs) (a : AddressSpace 32) (fd : Int) (buf cap : U32) :
    Int × Vfs × AddressSpace 32 :=
  match v.nextDents fd (emitDent cap.toNat) [] with
  | none => (-ENOTDIR, v, a)
  | some (_, block, v) =>
    if block = [] then (0, v, a)
    else
      match a.writeBytes Layout.os buf block with
      | (false, a) => (-EFAULT, v, a)
      | (true, a) => (asI32 block.length, v, a)

-- ======== well-formed

/-- A record of `e`: its length is a multiple of 8 and stands in it, and
the name ends with a NUL inside it. -/
structure WellFormed (r : List U8) (e : DirEnt) : Prop where
  aligned : r.length % 8 = 0
  reclen : leNat ((r.drop 16).take 2) = r.length
  kind : r[18]? = some (if e.isDir then 4 else 8)
  name : ∃ header pad, header.length = 19
    ∧ r = header ++ utf8 e.name ++ 0 :: pad

/-- The bytes are records of the entries, one after the other. -/
inductive Records : List U8 → List DirEnt → Prop
  | nil : Records [] []
  | cons {r bytes : List U8} {e : DirEnt} {es : List DirEnt}
      (hr : WellFormed r e)
      (h : Records bytes es) : Records (r ++ bytes) (e :: es)

theorem reclen_pos (e : DirEnt) : 24 ≤ reclen e := by
  rw [reclen]
  omega

theorem length_record (start : Nat) (e : DirEnt) :
    (record start e).length = reclen e := by
  have hpos := reclen_pos e
  have hname : 19 + (utf8 e.name).length + 1 ≤ reclen e := by
    rw [reclen]
    omega
  simp only [record, List.length_append, length_leBytes, List.length_singleton,
    List.length_replicate]
  omega

/-- A record whose length fits its field. -/
theorem wellFormed_record {e : DirEnt} (h : reclen e < 2 ^ 16) (start : Nat) :
    WellFormed (record start e) e := by
  have hname : 19 + (utf8 e.name).length + 1 ≤ reclen e := by
    rw [reclen]
    omega
  have hsplit :
      record start e
      = (leBytes 8 1 ++ leBytes 8 (start + reclen e) ++ leBytes 2 (reclen e)
      ++ [if e.isDir then 4 else 8]) ++ utf8 e.name
      ++ 0 :: List.replicate (reclen e - 19 - (utf8 e.name).length - 1) 0 := by
    rw [← List.replicate_succ,
      show reclen e - 19 - (utf8 e.name).length - 1 + 1
      = reclen e - 19 - (utf8 e.name).length by omega]
    rfl
  have hfront : (leBytes 8 1 ++ leBytes 8 (start + reclen e)).length = 16 := by
    rw [List.length_append, length_leBytes, length_leBytes]
  refine ⟨?_, ?_, ?_, ⟨_, _, ?_, hsplit⟩⟩
  · rw [length_record, reclen]
    omega
  · have hfield :
      ((record start e).drop 16).take 2 = leBytes 2 (reclen e) := by
      simp only [record, List.append_assoc]
      rw [← List.append_assoc (leBytes 8 1), ← hfront, List.drop_left]
      exact List.take_left' (length_leBytes 2 _)
    rw [hfield, leNat_leBytes, length_record]
    exact Nat.mod_eq_of_lt h
  · have hhead :
      (leBytes 8 1 ++ leBytes 8 (start + reclen e) ++ leBytes 2
      (reclen e)).length = 18 := by
      rw [List.length_append, hfront, length_leBytes]
    simp only [record, List.append_assoc]
    rw [← List.append_assoc (leBytes 8 (start + reclen e)),
      ← List.append_assoc (leBytes 8 1), ← List.append_assoc (leBytes 8 1),
      List.getElem?_append_right hhead.le, hhead]
    rfl
  · rw [List.length_append, List.length_append, hfront, length_leBytes,
      List.length_singleton]

/-- A record is no shorter than its entry's, and has fewer than 2^16
bytes. -/
theorem WellFormed.reclen_lt {r : List U8} {e : DirEnt} (h : WellFormed r e) :
    Remu.Os.reclen e ≤ r.length ∧ r.length < 2 ^ 16 := by
  have hfield := leNat_lt ((r.drop 16).take 2)
  have hlen : ((r.drop 16).take 2).length ≤ 2 := List.length_take_le ..
  have hpow : 256 ^ ((r.drop 16).take 2).length ≤ 256 ^ 2 :=
    Nat.pow_le_pow_right (by omega) hlen
  obtain ⟨header, pad, hheader, hr⟩ := h.name
  have htotal := congrArg List.length hr
  rw [List.length_append, List.length_append, hheader,
    List.length_cons] at htotal
  have haligned := h.aligned
  rw [h.reclen] at hfield
  rw [Remu.Os.reclen]
  omega

theorem Records.reclen_lt {bytes : List U8} {es : List DirEnt}
    (h : Records bytes es) :
    ∀ e ∈ es, reclen e < 2 ^ 16 := by
  induction h with
  | nil => exact fun e he => absurd he List.not_mem_nil
  | cons hr _ ih =>
    intro e he
    rcases List.mem_cons.1 he with rfl | he
    · obtain ⟨hle, hlt⟩ := hr.reclen_lt
      omega
    · exact ih e he

-- ======== the block

/-- The entries that fit `room` bytes, up to the first that does not. -/
def fitting : Nat → List DirEnt → List DirEnt
  | _, [] => []
  | room, e :: es =>
    if reclen e ≤ room then e :: fitting (room - reclen e) es else []

/-- Their records from offset `start` on. -/
def blockOf : Nat → List DirEnt → List U8
  | _, [] => []
  | start, e :: es => record start e ++ blockOf (start + reclen e) es

theorem fitting_prefix (room : Nat) (es : List DirEnt) :
    fitting room es <+: es := by
  induction es generalizing room with
  | nil => exact List.prefix_rfl
  | cons e es ih =>
    rw [fitting]
    split
    · exact List.prefix_cons_inj e |>.2 (ih _)
    · exact List.nil_prefix

theorem length_blockOf (start : Nat) (es : List DirEnt) :
    (blockOf start es).length = (es.map reclen).sum := by
  induction es generalizing start with
  | nil => rfl
  | cons e es ih =>
    rw [blockOf, List.length_append, length_record, ih,
      List.map_cons, List.sum_cons]

theorem sum_fitting_le (room : Nat) (es : List DirEnt) :
    ((fitting room es).map reclen).sum ≤ room := by
  induction es generalizing room with
  | nil => exact Nat.zero_le _
  | cons e es ih =>
    rw [fitting]
    split
    case isTrue h =>
      have hrest := ih (room - reclen e)
      rw [List.map_cons, List.sum_cons]
      omega
    case isFalse => exact Nat.zero_le _

theorem records_blockOf {es : List DirEnt} (h : ∀ e ∈ es, reclen e < 2 ^ 16)
    (start : Nat) :
    Records (blockOf start es) es := by
  induction es generalizing start with
  | nil => exact .nil
  | cons e es ih =>
    exact .cons (wellFormed_record (h e List.mem_cons_self) start)
      (ih (fun e' he' => h e' (List.mem_cons_of_mem e he')) _)

/-- The block that is built is that of the entries that fit. -/
theorem feed_emitDent (cap : Nat) (es : List DirEnt) (block : List U8) :
    Vfs.nextDents.feed (emitDent cap) es block
      = ((fitting (cap - block.length) es).length,
        block ++ blockOf block.length (fitting (cap - block.length) es)) := by
  induction es generalizing block with
  | nil =>
    rw [Vfs.nextDents.feed, fitting, blockOf, List.append_nil, List.length_nil]
  | cons e es ih =>
    have hpos := reclen_pos e
    rw [Vfs.nextDents.feed, emitDent, fitting]
    by_cases hfit : cap < block.length + reclen e
    · rw [if_pos hfit, if_neg (by omega), blockOf, List.append_nil,
        List.length_nil]
    · have hroom : cap - (block ++ record block.length e).length
        = cap - block.length - reclen e := by
        rw [List.length_append, length_record]
        omega
      rw [if_neg hfit, if_pos (by omega)]
      dsimp only
      rw [ih, hroom, blockOf, List.append_assoc, List.length_cons,
        List.length_append, length_record]

-- ======== the directory

/-- The descriptor is open on a snapshot, its cursor at `pos`. -/
def Vfs.AtDir (v : Vfs) (fd : Int) (entries : List DirEnt) (path : Str)
    (pos : Nat) : Prop :=
  v.slot fd = some (.dir entries pos path)

/-- A call: the guest memory it finds and its buffer. -/
structure DentsCall where
  aspace : AddressSpace 32
  sound : aspace.Sound Layout.os
  buf : U32
  cap : U32

namespace DentsCall

def serve (c : DentsCall) (v : Vfs) (fd : Int) : Int × Vfs × AddressSpace 32 :=
  sysGetdents64 v c.aspace fd c.buf c.cap

/-- The entries the call takes. -/
def takes (c : DentsCall) (entries : List DirEnt) (pos : Nat) : List DirEnt :=
  fitting c.cap.toNat (entries.drop pos)

/-- Some entry is left only if the next one fits the buffer, and the
block's pages are mapped, its size fits a count and each record's size its
field. -/
structure Regular (c : DentsCall) (entries : List DirEnt) (pos : Nat) :
    Prop where
  fits : pos < entries.length → c.takes entries pos ≠ []
  mapped : c.aspace.Mapped Layout.os c.buf
    ((c.takes entries pos).map reclen).sum
  count : ((c.takes entries pos).map reclen).sum < 2 ^ 31
  field : ∀ e ∈ c.takes entries pos, reclen e < 2 ^ 16

variable {c : DentsCall} {v : Vfs} {fd : Int} {entries : List DirEnt}
  {path : Str} {pos : Nat}

theorem serve_eq (h : v.AtDir fd entries path pos) :
    c.serve v fd =
      let v' := v.setSlot fd
        (.dir entries (pos + (c.takes entries pos).length) path)
      if blockOf 0 (c.takes entries pos) = [] then (0, v', c.aspace)
      else match c.aspace.writeBytes Layout.os c.buf
        (blockOf 0 (c.takes entries pos)) with
        | (false, a) => (-EFAULT, v', a)
        | (true, a) =>
          (asI32 (blockOf 0 (c.takes entries pos)).length, v', a) := by
  rw [serve, sysGetdents64, Vfs.nextDents, show v.slot fd = _ from h]
  dsimp only
  rw [feed_emitDent]
  rfl

/-- Every call leaves the cursor past the entries it took. -/
theorem serve_atDir (h : v.AtDir fd entries path pos) :
    (c.serve v fd).2.1.AtDir fd entries path
      (pos + (c.takes entries pos).length) := by
  have hslot :
      (v.setSlot fd
      (.dir entries (pos + (c.takes entries pos).length) path)).AtDir fd entries
      path (pos + (c.takes entries pos).length) := Vfs.slot_setSlot h _
  rw [serve_eq h]
  dsimp only
  split
  · exact hslot
  · split <;> exact hslot

end DentsCall

-- ======== the law

variable {fd : Int} {entries : List DirEnt} {path : Str}

/-- One after the other the calls deliver the entries after `done`, each
once and in order: a call that returns a count has stored that many bytes
of records, of the next entries; one that returns 0 comes after the last;
one that fails takes nothing. -/
inductive Iterates (fd : Int) (entries : List DirEnt) (path : Str) :
    Vfs → List DirEnt → List DentsCall → Prop
  | nil (v : Vfs) (done : List DirEnt) : Iterates fd entries path v done []
  | stored {v : Vfs} {done es : List DirEnt} {bytes : List U8} {c : DentsCall}
      {calls : List DentsCall}
      (hne : es ≠ []) (hnext : done ++ es <+: entries)
      (hrec : Records bytes es) (hret : (c.serve v fd).1 = bytes.length)
      (hholds : (c.serve v fd).2.2.Holds Layout.os c.buf bytes)
      (hat : (c.serve v fd).2.1.AtDir fd entries path (done ++ es).length)
      (h : Iterates fd entries path (c.serve v fd).2.1 (done ++ es) calls) :
      Iterates fd entries path v done (c :: calls)
  | finished {v : Vfs} {c : DentsCall} {calls : List DentsCall}
      (hret : (c.serve v fd).1 = 0)
      (hat : (c.serve v fd).2.1.AtDir fd entries path entries.length)
      (h : Iterates fd entries path (c.serve v fd).2.1 entries calls) :
      Iterates fd entries path v entries (c :: calls)
  | failed {v : Vfs} {done : List DirEnt} {c : DentsCall}
      {calls : List DentsCall}
      (hret : (c.serve v fd).1 < 0)
      (hat : (c.serve v fd).2.1.AtDir fd entries path done.length)
      (h : Iterates fd entries path (c.serve v fd).2.1 done calls) :
      Iterates fd entries path v done (c :: calls)

/-- Every call is regular where it finds the cursor. -/
def AllRegular (entries : List DirEnt) : Nat → List DentsCall → Prop
  | _, [] => True
  | pos, c :: calls =>
    c.Regular entries pos
      ∧ AllRegular entries (pos + (c.takes entries pos).length) calls

theorem Vfs.AtDir.inj {v : Vfs} {pos pos' : Nat}
    (h : v.AtDir fd entries path pos)
    (h' : v.AtDir fd entries path pos') : pos = pos' := by
  rw [Vfs.AtDir, h, Option.some.injEq, Fd.dir.injEq] at h'
  exact h'.2.1

theorem blockOf_eq_nil {start : Nat} {es : List DirEnt} :
    blockOf start es = [] ↔ es = [] := by
  rw [← List.length_eq_zero_iff, length_blockOf]
  cases es with
  | nil => exact iff_of_true rfl rfl
  | cons e es =>
    have hpos := reclen_pos e
    refine iff_of_false ?_ (List.cons_ne_nil e es)
    rw [List.map_cons, List.sum_cons]
    omega

namespace DentsCall

variable {c : DentsCall} {v : Vfs} {pos : Nat}

/-- What a call returns, by what it takes and whether it can store it. -/
theorem ret_serve (h : v.AtDir fd entries path pos) : (c.serve v fd).1 =
    if c.takes entries pos = [] then 0
    else if (c.aspace.writeBytes Layout.os c.buf
      (blockOf 0 (c.takes entries pos))).1 = true then
      asI32 ((c.takes entries pos).map reclen).sum
    else -EFAULT := by
  rw [serve_eq h]
  dsimp only
  simp only [blockOf_eq_nil]
  split
  · rfl
  · rcases c.aspace.writeBytes Layout.os c.buf
      (blockOf 0 (c.takes entries pos)) with ⟨_ | _, a⟩
    · rfl
    · rw [length_blockOf]
      rfl

/-- A call that takes entries and can store them holds their block. -/
theorem holds_serve (h : v.AtDir fd entries path pos)
    (hne : c.takes entries pos ≠ [])
    (hdone : (c.aspace.writeBytes Layout.os c.buf (blockOf 0 (c.takes entries pos))).1 = true) :
    (c.serve v fd).2.2.Holds Layout.os c.buf
      (blockOf 0 (c.takes entries pos)) := by
  have hcap := sum_fitting_le c.cap.toNat (entries.drop pos)
  have hlt := c.cap.isLt
  have hspread :
    Layout.os.Spread c.buf (blockOf 0 (c.takes entries pos)).length :=
    Layout.spread_os c.buf (by rw [length_blockOf]; exact hcap.trans hlt.le)
  have hholds := holds_writeBytes c.sound hspread hdone
  rw [serve_eq h]
  dsimp only
  rw [if_neg (mt blockOf_eq_nil.1 hne)]
  rcases hw : c.aspace.writeBytes Layout.os c.buf
    (blockOf 0 (c.takes entries pos)) with ⟨done, a⟩
  rw [hw] at hdone hholds
  cases hdone
  exact hholds

/-- What a call takes are the next entries. -/
theorem takes_next (c : DentsCall) (entries : List DirEnt) (pos : Nat) :
    entries.take pos ++ c.takes entries pos <+: entries ∧
      entries.take pos ++ c.takes entries pos
        = entries.take (pos + (c.takes entries pos).length) := by
  have hpre : c.takes entries pos <+: entries.drop pos := fitting_prefix _ _
  have htake := List.prefix_iff_eq_take.1 hpre
  have heq : entries.take pos ++ c.takes entries pos
      = entries.take (pos + (c.takes entries pos).length) := by
    rw [List.take_add, ← htake]
  exact ⟨heq ▸ List.take_prefix _ _, heq⟩

end DentsCall

/-- The next entries are what a call that returns a count must have
taken. -/
theorem eq_takes {c : DentsCall} {v : Vfs} {done es : List DirEnt}
    (h : v.AtDir fd entries path done.length) (hdone : done <+: entries)
    (hnext : done ++ es <+: entries)
    (hat : (c.serve v fd).2.1.AtDir fd entries path (done ++ es).length) :
    es = c.takes entries done.length := by
  have hlen := (c.serve_atDir h).inj hat
  rw [List.length_append] at hlen
  have hpre : done ++ c.takes entries done.length <+: entries := by
    have hfirst := (c.takes_next entries done.length).1
    rwa [← List.prefix_iff_eq_take.1 hdone] at hfirst
  have heq := List.prefix_of_prefix_length_le hnext hpre
    (by rw [List.length_append, List.length_append]; omega)
  have hall :=
    heq.eq_of_length (by rw [List.length_append, List.length_append]; omega)
  exact List.append_cancel_left hall

/-- One call more in front of a run. -/
theorem iterates_cons_iff {c : DentsCall} {calls : List DentsCall} {v : Vfs}
    {done : List DirEnt}
    (h : v.AtDir fd entries path done.length) (hdone : done <+: entries) :
    Iterates fd entries path v done (c :: calls)
      ↔ c.Regular entries done.length
      ∧ Iterates fd entries path (c.serve v fd).2.1
        (done ++ c.takes entries done.length) calls := by
  have hat := c.serve_atDir h
  have hret := c.ret_serve h
  have htake : done = entries.take done.length :=
    List.prefix_iff_eq_take.1 hdone
  obtain ⟨hnext, -⟩ := c.takes_next entries done.length
  rw [← htake] at hnext
  have hcap : ((c.takes entries done.length).map reclen).sum < 2 ^ 32 :=
    lt_of_le_of_lt (sum_fitting_le c.cap.toNat (entries.drop done.length))
      c.cap.isLt
  constructor
  · intro hit
    cases hit with
    | @stored _ _ es bytes _ _ hne hpre hrec hcount hholds hat' hrest =>
      have hes := eq_takes h hdone hpre hat'
      subst hes
      rw [if_neg hne] at hret
      split at hret
      case isTrue hstored =>
        have hfew : ((c.takes entries done.length).map reclen).sum
          < 2 ^ 31 := by
          refine asI32_nonneg_iff hcap |>.1 ?_
          have hcount' := hret.symm.trans hcount
          omega
        refine ⟨⟨fun _ => hne, ?_, hfew, hrec.reclen_lt⟩, hrest⟩
        rw [← length_blockOf 0]
        exact (writeBytes_done_iff c.sound).1 hstored
      case isFalse =>
        have hneg : (-14 : Int) = bytes.length := hret.symm.trans hcount
        omega
    | finished hzero hat' hrest =>
      have htakes : c.takes entries entries.length = [] := by
        rw [DentsCall.takes, List.drop_length]
        rfl
      rw [htakes, List.append_nil]
      refine ⟨⟨fun hlt => absurd hlt (lt_irrefl _), ?_, ?_, ?_⟩, hrest⟩
      all_goals rw [htakes]
      · exact fun i hi => absurd hi (Nat.not_lt_zero i)
      · exact Nat.two_pow_pos 31
      · exact fun e he => absurd he List.not_mem_nil
    | failed hneg hat' hrest =>
      have hlen := hat.inj hat'
      have htakes : c.takes entries done.length = [] :=
        List.length_eq_zero_iff.1 (by omega)
      rw [if_pos htakes] at hret
      rw [hret] at hneg
      exact absurd hneg (lt_irrefl _)
  · rintro ⟨⟨hfits, hmapped, hcount, hfield⟩, hrest⟩
    by_cases hnil : c.takes entries done.length = []
    · have hlen : done.length = entries.length := by
        have hle := hdone.length_le
        by_contra hne
        exact hfits (by omega) hnil
      have hall : done = entries := hdone.eq_of_length hlen
      rw [hnil, List.append_nil] at hrest
      rw [hnil, List.length_nil, Nat.add_zero] at hat
      rw [if_pos hnil] at hret
      subst hall
      exact .finished hret hat hrest
    · have hstored :
          (c.aspace.writeBytes Layout.os c.buf
          (blockOf 0 (c.takes entries done.length))).1
          = true := by
        refine (writeBytes_done_iff c.sound).2 ?_
        rw [length_blockOf]
        exact hmapped
      rw [if_neg hnil, if_pos hstored, asI32_eq_iff.2 hcount,
        ← length_blockOf 0] at hret
      refine .stored hnil hnext (records_blockOf hfield 0) hret
        (c.holds_serve h hnil hstored) ?_ hrest
      rw [List.length_append]
      exact hat

/-- On a directory just opened: the calls deliver its entries, each once
and in order, exactly when all of them are regular. -/
theorem getdents_iterates_iff (v : Vfs) (fd : Int)
    (entries : List DirEnt) (path : Str)
    (hopen : v.AtDir fd entries path 0) (calls : List DentsCall) :
    Iterates fd entries path v [] calls ↔ AllRegular entries 0 calls := by
  have hrun : ∀ (calls : List DentsCall) (v : Vfs) (done : List DirEnt),
      done <+: entries →
      v.AtDir fd entries path done.length →
      (Iterates fd entries path v done calls
        ↔ AllRegular entries done.length calls) := by
    intro calls
    induction calls with
    | nil => exact fun v done _ _ => iff_of_true (.nil v done) trivial
    | cons c calls ih =>
      intro v done hdone h
      obtain ⟨hnext, -⟩ := c.takes_next entries done.length
      rw [← List.prefix_iff_eq_take.1 hdone] at hnext
      rw [iterates_cons_iff h hdone, AllRegular,
        ih _ _ hnext (by rw [List.length_append]; exact c.serve_atDir h),
        List.length_append]
  exact hrun calls v [] List.nil_prefix hopen

/-- An empty directory. -/
abbrev bareDir : List DirEnt := [⟨['.'], true⟩, ⟨['.', '.'], true⟩]

/-- It is open as descriptor 0. -/
def bareOpened : Vfs where
  rootfs := none
  canonRoot := none
  cwd := ['/']
  fds := [some (.dir bareDir 0 ['/'])]
  execPath := []
  cmdline := []
  maps := []

/-- A call with its buffer in a process of one page. -/
def onePageCall (buf cap : U32) : DentsCall where
  aspace := (new Layout.os).run Layout.os [.map 0x10000 0x1000 3 .image]
  sound := sound_run Layout.os [.map 0x10000 0x1000 3 .image]
    (by decide)
  buf
  cap

/-- The two entries by one call each, and the end. -/
theorem getdents_iterates_bareDir : Iterates 0 bareDir ['/'] bareOpened []
    [onePageCall 0x10000 24, onePageCall 0x10000 24,
      onePageCall 0x10000 24] := by
  refine (getdents_iterates_iff bareOpened 0 bareDir ['/'] rfl _).2
    ⟨?_, ?_, ?_, trivial⟩
  · exact ⟨by decide, by decide +kernel, by
      decide, by decide +kernel⟩
  · exact ⟨by decide, by decide +kernel, by
      decide, by decide +kernel⟩
  · exact ⟨by decide, by decide +kernel, by
      decide, by decide +kernel⟩

/-- A buffer too small for the next entry is told that there is none, and
a buffer that is not mapped loses the entries it was meant for. -/
theorem getdents_not_iterates :
    ¬ ∀ (v : Vfs) (fd : Int) (entries : List DirEnt) (path : Str),
    v.AtDir fd entries path 0 → ∀ calls,
      Iterates fd entries path v [] calls := by
  intro hall
  have hsmall := hall bareOpened 0 bareDir ['/'] rfl [onePageCall 0x10000 16]
  have hopen : bareOpened.AtDir 0 bareDir ['/'] ([] : List DirEnt).length :=
    rfl
  have hregular := ((iterates_cons_iff hopen List.nil_prefix).1 hsmall).1
  exact hregular.fits (by decide) (by decide)

end Remu.Os
