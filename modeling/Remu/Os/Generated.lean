/-
A generated file as a cursor over its bytes.

`lseek` puts the cursor anywhere, `read` slices from it. A cursor past the
end is in order for the first and not for the second, and what would be a
negative position `lseek` moves to the start. A run of the two keeps the
bytes and the cursor's range (`runCalls_slot`), and the next call does what
a cursor over an immutable string does exactly when it stays clear of those
cases (`generated_cursor_iff`).
-/
import Remu.Os.VfsIo

namespace Remu.Os

-- ======== calls

/-- What a guest does with an open file. -/
inductive FileCall where
  | lseek (off : U64) (whence : U32)
  | read (len : Nat)
deriving DecidableEq, Repr

/-- What a call gives back; `lseek` reads no bytes. -/
structure FileResult where
  ret : Int
  bytes : List U8
deriving DecidableEq, Repr

namespace FileCall

variable {σ : Type} (io : HostIo σ)

/-- The result and what is left behind; `none` is a panic. -/
def perform (fd : Int) (p : Vfs × σ) : FileCall → Option (FileResult × Vfs × σ)
  | lseek off whence =>
    (p.1.lseek io p.2 fd off whence).map fun (ret, v, s) => (⟨ret, []⟩, v, s)
  | read len =>
    (p.1.read io p.2 fd len).map fun ((ret, bytes), v, s) =>
      (⟨ret, bytes⟩, v, s)

/-- Where a run of calls that do not panic leads. -/
def runCalls (fd : Int) (p : Vfs × σ) (calls : List FileCall) :
    Option (Vfs × σ) :=
  calls.foldlM (fun p c => (c.perform io fd p).map (·.2)) p

end FileCall

-- ======== the cursor

/-- The descriptor is open on a generated file, at `pos`. -/
def Vfs.At (v : Vfs) (fd : Int) (data : List U8) (pos : Nat) : Prop :=
  v.slot fd = some (.virtual .generated data pos)

/-- Where an `lseek` means to go; `none` for an unknown `whence`. -/
def seekTarget (data : List U8) (pos : Nat) (off : U64) (whence : U32) :
    Option Int :=
  if whence = 0 then some off.toInt
  else if whence = 1 then some (pos + off.toInt)
  else if whence = 2 then some (data.length + off.toInt)
  else none

namespace FileCall

/-- What a cursor at `pos` over `data` does: it reads the bytes from its
position up to the end and moves past them, seeks to any position that is
not negative, and stays where it is on a seek it refuses. -/
def Lawful {σ : Type} (fd : Int) (data : List U8) (pos : Nat) :
    FileCall → Option (FileResult × Vfs × σ) → Prop
  | _, none => False
  | read len, some (r, p) =>
    r.bytes = (data.take (min (pos + len) data.length)).drop pos
      ∧ r.ret = r.bytes.length
      ∧ p.1.At fd data (pos + r.bytes.length)
  | lseek off whence, some (r, p) =>
    match seekTarget data pos off whence with
    | none => r.ret < 0 ∧ p.1.At fd data pos
    | some t =>
      if t < 0 then r.ret < 0 ∧ p.1.At fd data pos else r.ret = t
        ∧ p.1.At fd data t.toNat

/-- A read from within the file of fewer than 2^31 bytes, a seek to a
position of an `i64`. -/
def Regular (data : List U8) (pos : Nat) : FileCall → Prop
  | read len => pos ≤ data.length ∧ min len (data.length - pos) < 2 ^ 31
  | lseek off whence =>
    ∀ t, seekTarget data pos off whence = some t → 0 ≤ t ∧ t < 2 ^ 63

end FileCall

-- ======== one call

variable {σ : Type} {io : HostIo σ} {v : Vfs} {s : σ} {fd : Int}
  {data : List U8} {pos : Nat}

theorem Vfs.At.move (h : v.At fd data pos) (pos' : Nat) :
    (v.setSlot fd (.virtual .generated data pos')).At fd data pos' :=
      Vfs.slot_setSlot h _

theorem perform_read (h : v.At fd data pos) (len : Nat) :
    (FileCall.read len).perform io fd (v, s) = if data.length < pos then none
      else some (⟨asI32 (min len (data.length - pos)), (data.drop pos).take len⟩,
        v.setSlot fd
          (.virtual .generated data (pos + min len (data.length - pos))), s) := by
  rw [FileCall.perform, Vfs.read, show v.slot fd = _ from h]
  dsimp only [Virt.read]
  by_cases hpast : data.length < pos
  · rw [if_pos hpast, if_pos (by omega)]
    rfl
  · have hk : min (data.length - min pos data.length) len
      = min len (data.length - pos) := by omega
    have htake : (data.drop pos).take (min len (data.length - pos))
      = (data.drop pos).take len := by
      rw [← List.length_drop, ← List.take_eq_take_min]
    rw [if_neg hpast, if_neg (by omega), hk, htake]
    simp only [Option.map_some, List.length_take, List.length_drop]

/-- The sum of a seek, in `i64`. -/
theorem seekVirtual_eq (hlen : data.length < 2 ^ 63) (hpos : pos < 2 ^ 63)
    (off : U64) (whence : U32) :
    seekVirtual data pos off whence = match seekTarget data pos off whence with
      | none => some (-EINVAL, pos)
      | some t =>
        if t < -2 ^ 63 ∨ 2 ^ 63 ≤ t then none
          else some (max t 0, (max t 0).toNat) := by
  unfold seekVirtual seekTarget
  rw [asI64_of_lt hpos, asI64_of_lt hlen]
  by_cases h0 : whence = 0
  · simp only [if_pos h0, Int.zero_add]
  by_cases h1 : whence = 1
  · simp only [if_neg h0, if_pos h1]
  by_cases h2 : whence = 2
  · simp only [if_neg h0, if_neg h1, if_pos h2]
  · simp only [if_neg h0, if_neg h1, if_neg h2]

theorem perform_lseek (h : v.At fd data pos) (off : U64) (whence : U32) :
    (FileCall.lseek off whence).perform io fd (v, s)
      = (seekVirtual data pos off whence).map
      fun (ret, pos) =>
        (⟨ret, []⟩, v.setSlot fd (.virtual .generated data pos), s) := by
  rw [FileCall.perform, Vfs.lseek, show v.slot fd = _ from h]
  show Option.map _ (Option.map _ _) = _
  rw [Option.map_map]
  rfl

/-- A call keeps the bytes, and the position that of an `i64`. -/
theorem perform_slot (hlen : data.length < 2 ^ 63) (hpos : pos < 2 ^ 63)
    (h : v.At fd data pos)
    (c : FileCall) {r : FileResult} {p : Vfs × σ}
    (hrun : c.perform io fd (v, s) = some (r, p)) :
    ∃ pos' < 2 ^ 63, p.1.At fd data pos' := by
  cases c with
  | read len =>
    rw [perform_read h] at hrun
    split at hrun
    · cases hrun
    · cases hrun
      exact ⟨_, by omega, h.move _⟩
  | lseek off whence =>
    rw [perform_lseek h, seekVirtual_eq hlen hpos] at hrun
    cases ht : seekTarget data pos off whence with
    | none =>
      rw [ht] at hrun
      cases hrun
      exact ⟨pos, hpos, h.move _⟩
    | some t =>
      rw [ht] at hrun
      dsimp only at hrun
      split at hrun
      · cases hrun
      · cases hrun
        exact ⟨_, by omega, h.move _⟩

theorem runCalls_slot (hlen : data.length < 2 ^ 63)
    (calls : List FileCall) {p p' : Vfs × σ}
    (hpos : pos < 2 ^ 63) (h : p.1.At fd data pos)
    (hrun : FileCall.runCalls io fd p calls = some p') :
    ∃ pos' < 2 ^ 63, p'.1.At fd data pos' := by
  induction calls generalizing p pos with
  | nil =>
    cases hrun
    exact ⟨pos, hpos, h⟩
  | cons c calls ih =>
    rw [FileCall.runCalls, List.foldlM_cons, Option.bind_eq_bind,
      Option.bind_eq_some_iff] at hrun
    obtain ⟨p₁, hfirst, hrest⟩ := hrun
    obtain ⟨⟨r, p₂⟩, hc, rfl⟩ := Option.map_eq_some_iff.1 hfirst
    obtain ⟨pos₁, hpos₁, h₁⟩ := perform_slot hlen hpos h c hc
    exact ih hpos₁ h₁ hrest

-- ======== the law

theorem lawful_read_iff (h : v.At fd data pos) (len : Nat) :
    (FileCall.read len).Lawful fd data pos
      ((FileCall.read len).perform io fd (v, s))
      ↔ (FileCall.read len).Regular data pos := by
  rw [perform_read h, FileCall.Regular]
  by_cases hpast : data.length < pos
  · rw [if_pos hpast]
    exact iff_of_false id fun hreg => by omega
  · have hbytes : (data.drop pos).take len
      = (data.take (min (pos + len) data.length)).drop pos := by
      rw [← List.take_eq_take_min, List.drop_take, Nat.add_sub_cancel_left]
    have hcount :
      ((data.drop pos).take len).length = min len (data.length - pos) := by
      rw [List.length_take, List.length_drop]
    rw [if_neg hpast]
    constructor
    · rintro ⟨-, hret, -⟩
      refine ⟨by omega, asI32_eq_iff.1 ?_⟩
      rw [← hcount]
      exact (congrArg asI32 hcount).trans hret
    · rintro ⟨-, hfew⟩
      refine ⟨hbytes, ?_, ?_⟩
      · dsimp only
        rw [hcount]
        exact asI32_eq_iff.2 hfew
      · dsimp only
        rw [hcount]
        exact h.move _

theorem lawful_lseek_iff (hlen : data.length < 2 ^ 63) (hpos : pos < 2 ^ 63)
    (h : v.At fd data pos) (off : U64) (whence : U32) :
    (FileCall.lseek off whence).Lawful fd data pos
      ((FileCall.lseek off whence).perform io fd (v, s))
      ↔ (FileCall.lseek off whence).Regular data pos := by
  rw [perform_lseek h, seekVirtual_eq hlen hpos, FileCall.Regular]
  cases ht : seekTarget data pos off whence with
  | none =>
    refine iff_of_true ?_ fun t h => by cases h
    rw [Option.map_some, FileCall.Lawful, ht]
    exact ⟨by decide, h.move pos⟩
  | some t =>
    dsimp only
    simp only [Option.some.injEq, forall_eq']
    by_cases hout : t < -2 ^ 63 ∨ 2 ^ 63 ≤ t
    · rw [if_pos hout]
      exact iff_of_false id fun hreg => by omega
    rw [if_neg hout]
    rw [Option.map_some, FileCall.Lawful, ht]
    dsimp only
    by_cases hneg : t < 0
    · -- The source moves to the start.
      rw [if_pos hneg]
      refine iff_of_false (fun hlaw => ?_) (by omega)
      have hret : max t 0 < 0 := hlaw.1
      omega
    · rw [if_neg hneg, max_eq_left (by omega)]
      exact iff_of_true ⟨rfl, h.move _⟩ ⟨by omega, by omega⟩

/-- After any calls on a generated file just opened, the next call is that
of a cursor exactly when it is regular. A vector is shorter than 2^63
bytes. -/
theorem generated_cursor_iff (io : HostIo σ) (v : Vfs) (s : σ)
    (fd : Int) (data : List U8)
    (hlen : data.length < 2 ^ 63) (hopen : v.At fd data 0)
    (calls : List FileCall) (p : Vfs × σ)
    (hrun : FileCall.runCalls io fd (v, s) calls = some p) (c : FileCall) :
    ∃ pos, p.1.At fd data pos
      ∧ (c.Lawful fd data pos (c.perform io fd p) ↔ c.Regular data pos) := by
  obtain ⟨pos, hpos, h⟩ := runCalls_slot hlen calls (by omega) hopen hrun
  refine ⟨pos, h, ?_⟩
  cases c with
  | read len => exact lawful_read_iff h len
  | lseek off whence => exact lawful_lseek_iff hlen hpos h off whence

/-- A host without input or files. -/
def idleHost : HostIo Unit where
  readStdin _ s := (some [], s)
  writeStd _ _ s := s
  readFile _ _ s := (none, s)
  writeFile _ _ s := (none, s)
  seekFile _ _ s := (none, s)

/-- `/proc/self/exe` opened as descriptor 3. -/
def exeOpened : Vfs where
  rootfs := none
  canonRoot := none
  cwd := ['/']
  fds := [some (.std 0), some (.std 1), some (.std 2),
    some (.virtual .generated (ascii "/a.out") 0)]
  execPath := ascii "/a.out"
  cmdline := []
  maps := []

/-- Two bytes from the middle, then the rest. -/
theorem generated_cursor_exe :
    ∃ pos, (exeOpened.setSlot 3 (.virtual .generated (ascii "/a.out") 3)).At 3
      (ascii "/a.out") pos
    ∧ ((FileCall.read 100).Lawful 3 (ascii "/a.out") pos
      ((FileCall.read 100).perform idleHost 3
        (exeOpened.setSlot 3 (.virtual .generated (ascii "/a.out") 3), ()))
      ↔ (FileCall.read 100).Regular (ascii "/a.out") pos) :=
  generated_cursor_iff idleHost exeOpened () 3 (ascii "/a.out") (by decide) rfl
    [.lseek 1 0, .read 2] _ rfl (.read 100)

/-- A read after a seek past the end panics. -/
theorem read_past_end_panics :
    ¬ ∀ (v : Vfs) (fd : Int) (data : List U8), v.At fd data 0 →
    ∀ (calls : List FileCall) (p : Vfs × Unit),
      FileCall.runCalls idleHost fd (v, ()) calls = some p →
    ∀ (c : FileCall) (pos : Nat), p.1.At fd data pos →
      c.Lawful fd data pos (c.perform idleHost fd p) := by
  intro hall
  exact hall exeOpened 3 (ascii "/a.out") rfl [.lseek 7 0]
    _ rfl (.read 1) 7 rfl

end Remu.Os
