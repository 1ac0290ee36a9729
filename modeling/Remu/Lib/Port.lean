/-
Streams of the host, and files as ports.

A stream answers each call as it likes: with an error, or with any number of
the bytes it was offered or asked for. What it has delivered is a prefix of
what it has to deliver, and what it has taken is what it was offered, in
order.

A port answers a request for bytes, and an offer of bytes, with a signed
count; a negative count is an error. A port is a file when what it delivers
is its content in order from its position on, and what it takes is appended
to its output (`Port.IsFile`). A caller that asks chunk by chunk until it
has enough or is given less is delivered the next bytes of the content
(`supply_spec`); so is one that asks so for one piece after another
(`supplies_spec`).
-/
import Remu.Lib.Word

namespace Remu

/-- `k` bytes of a content from `pos` on. -/
def nextBytes (content : Nat → U8) (pos k : Nat) : List U8 :=
  (List.range k).map fun j => content (pos + j)

@[simp] theorem length_nextBytes (content : Nat → U8) (pos k : Nat) :
    (nextBytes content pos k).length = k := by
  rw [nextBytes, List.length_map, List.length_range]

theorem nextBytes_add (content : Nat → U8) (pos m n : Nat) :
    nextBytes content pos (m + n)
      = nextBytes content pos m ++ nextBytes content (pos + m) n := by
  rw [nextBytes, nextBytes, nextBytes, List.range_add,
    List.map_append, List.map_map]
  congr 1
  refine List.map_congr_left fun j _ => ?_
  rw [Function.comp_apply, Nat.add_assoc]

/-- A stream of the host. -/
structure Stream where
  /-- Its answers, call by call: an error, or how many bytes it would move. -/
  answer : Nat → Option Nat
  /-- What it has to deliver. -/
  input : Nat → U8
  calls : Nat
  delivered : List U8
  written : List U8

namespace Stream

/-- Offer bytes: how many were taken. -/
def write (s : Stream) (bytes : List U8) : Option Nat × Stream :=
  match s.answer s.calls with
  | none => (none, { s with calls := s.calls + 1 })
  | some k =>
    let n := min k bytes.length
    (some n, { s with calls := s.calls + 1, written := s.written ++ bytes.take n })

/-- Ask for up to `n` bytes. -/
def read (s : Stream) (n : Nat) : Option (List U8) × Stream :=
  match s.answer s.calls with
  | none => (none, { s with calls := s.calls + 1 })
  | some k =>
    let bytes :=
      (List.range (min k n)).map fun j => s.input (s.delivered.length + j)
    (some bytes,
      { s with calls := s.calls + 1, delivered := s.delivered ++ bytes })

/-- A read takes the next bytes, at most as many as asked for, or none. -/
theorem read_spec (s : Stream) (n : Nat) : (s.read n).2.input = s.input
    ∧ (((s.read n).1 = none ∧ (s.read n).2.delivered = s.delivered)
      ∨ ∃ k ≤ n, (s.read n).1 = some (nextBytes s.input s.delivered.length k)
        ∧ (s.read n).2.delivered.length = s.delivered.length + k) := by
  rw [read]
  cases s.answer s.calls with
  | none => exact ⟨rfl, .inl ⟨rfl, rfl⟩⟩
  | some k =>
    refine ⟨rfl, .inr ⟨min k n, Nat.min_le_right k n, rfl, ?_⟩⟩
    dsimp only
    rw [List.length_append, List.length_map, List.length_range]

/-- A write takes a prefix of what it is offered, or nothing. -/
theorem write_spec (s : Stream) (bytes : List U8) :
    ((s.write bytes).1 = none ∧ (s.write bytes).2.written = s.written)
      ∨ ∃ k ≤ bytes.length, (s.write bytes).1 = some k
        ∧ (s.write bytes).2.written = s.written ++ bytes.take k := by
  rw [write]
  cases s.answer s.calls with
  | none => exact .inl ⟨rfl, rfl⟩
  | some k => exact .inr ⟨min k bytes.length, Nat.min_le_right k _, rfl, rfl⟩

end Stream

-- ======== ports

/-- What is behind a descriptor; `none` is a panic. -/
structure Port (σ : Type) where
  /-- Up to so many bytes: their count or an error, and the bytes. -/
  read : Nat → σ → Option ((Int × List U8) × σ)
  write : List U8 → σ → Int × σ

/-- How a state of the host is looked at as an open file. -/
structure FileView (σ : Type) where
  /-- The states in which it is a file with a content. -/
  isFile : σ → Prop
  content : σ → Nat → U8
  pos : σ → Nat
  output : σ → List U8

-- A state whose file is a stream, before and after a call.

theorem FileView.reads {σ : Type} {view : FileView σ} {s s' : σ}
    {t : Stream} {n : Nat}
    (hcontent : view.content s = t.input)
    (hpos : view.pos s = t.delivered.length)
    (hcontent' : view.content s' = (t.read n).2.input)
    (hpos' : view.pos s' = (t.read n).2.delivered.length) :
    view.content s' = view.content s
      ∧ (((t.read n).1 = none ∧ view.pos s' = view.pos s)
        ∨ ∃ k ≤ n, (t.read n).1
          = some (nextBytes (view.content s) (view.pos s) k)
          ∧ view.pos s' = view.pos s + k) := by
  rw [hcontent, hpos, hcontent', hpos']
  obtain ⟨hinput, ⟨hnone, hsame⟩ | hread⟩ := t.read_spec n
  · exact ⟨hinput, .inl ⟨hnone, congrArg List.length hsame⟩⟩
  · exact ⟨hinput, .inr hread⟩

theorem FileView.writes {σ : Type} {view : FileView σ} {s s' : σ}
    {t : Stream} {bytes : List U8}
    (hout : view.output s = t.written)
    (hout' : view.output s' = (t.write bytes).2.written) :
    ((t.write bytes).1 = none ∧ view.output s' = view.output s)
      ∨ ∃ k ≤ bytes.length, (t.write bytes).1 = some k
        ∧ view.output s' = view.output s ++ bytes.take k := by
  rw [hout, hout']
  exact t.write_spec bytes

namespace Port

variable {σ : Type}

/-- What a file does on one call. -/
structure IsFile (port : Port σ) (view : FileView σ) (limit : Nat) : Prop where
  read : ∀ n s r, n ≤ limit → view.isFile s → port.read n s = some r →
    view.isFile r.2 ∧ view.content r.2 = view.content s
      ∧ ((r.1.1 < 0 ∧ view.pos r.2 = view.pos s)
        ∨ ∃ k ≤ n, r.1 = ((k : Int), nextBytes (view.content s) (view.pos s) k)
          ∧ view.pos r.2 = view.pos s + k)
  write : ∀ bytes s, bytes.length ≤ limit → view.isFile s →
    view.isFile (port.write bytes s).2
      ∧ (((port.write bytes s).1 < 0 ∧ view.output (port.write bytes s).2 = view.output s)
        ∨ ∃ k ≤ bytes.length, (port.write bytes s).1 = (k : Int)
          ∧ view.output (port.write bytes s).2 = view.output s ++ bytes.take k)

variable (port : Port σ) (chunk : Nat)

/-- What a port delivers to a loop that asks for `left` bytes in chunks. -/
def supply (s : σ) (left : Nat) : List U8 × σ :=
  if 0 < left then
    match port.read (min left chunk) s with
    | none => ([], s)
    | some ((got, bytes), s) =>
      if got ≤ 0 then ([], s)
      else if got.toNat < min left chunk then (bytes, s)
      else
        let r := supply s (left - got.toNat)
        (bytes ++ r.1, r.2)
  else ([], s)
termination_by left
decreasing_by omega

/-- What it delivers to one that asks for a list of pieces, until one falls
short. -/
def supplies (s : σ) : List Nat → List U8 × σ
  | [] => ([], s)
  | n :: ns =>
    let r := port.supply chunk s n
    if r.1.length < n then r
    else
      let r' := supplies r.2 ns
      (r.1 ++ r'.1, r'.2)

variable {port chunk} {view : FileView σ} {limit : Nat}

/-- `bytes` are the next of the content, and have been delivered. -/
structure Delivered (view : FileView σ) (s : σ) (bytes : List U8) (s' : σ) :
    Prop where
  isFile : view.isFile s'
  content : view.content s' = view.content s
  next : bytes = nextBytes (view.content s) (view.pos s) bytes.length
  pos : view.pos s' = view.pos s + bytes.length

theorem Delivered.refl {s : σ} (h : view.isFile s) : Delivered view s [] s :=
  ⟨h, rfl, rfl, rfl⟩

theorem Delivered.trans {s s₁ s₂ : σ} {xs ys : List U8}
    (h : Delivered view s xs s₁)
    (h' : Delivered view s₁ ys s₂) : Delivered view s (xs ++ ys) s₂ where
  isFile := h'.isFile
  content := h'.content.trans h.content
  next := by
    rw [List.length_append, nextBytes_add, ← h.next, ← h.pos,
      ← h.content, ← h'.next]
  pos := by rw [h'.pos, h.pos, List.length_append, Nat.add_assoc]

/-- One request. -/
theorem IsFile.delivered (h : port.IsFile view limit) {n : Nat} {s : σ}
    {r : (Int × List U8) × σ}
    (hn : n ≤ limit) (hs : view.isFile s) (hread : port.read n s = some r) :
    (r.1.1 < 0 ∧ Delivered view s [] r.2)
      ∨ (r.1.1 = r.1.2.length ∧ r.1.2.length ≤ n
        ∧ Delivered view s r.1.2 r.2) := by
  obtain ⟨hfile, hcontent, ⟨hneg, hpos⟩ | ⟨k, hk, hr, hpos⟩⟩ :=
    h.read n s r hn hs hread
  · exact .inl ⟨hneg, hfile, hcontent, rfl, hpos⟩
  · right
    rw [hr]
    dsimp only
    rw [length_nextBytes]
    refine ⟨rfl, hk, hfile, hcontent, ?_, ?_⟩
    · rw [length_nextBytes]
    · rw [length_nextBytes, hpos]

/-- A chunked request is delivered the next bytes, at most as many. -/
theorem supply_spec (h : port.IsFile view limit) (hchunk : chunk ≤ limit)
    {s : σ} (hs : view.isFile s)
    (left : Nat) :
    Delivered view s (port.supply chunk s left).1 (port.supply chunk s left).2
      ∧ (port.supply chunk s left).1.length ≤ left := by
  induction left using Nat.strong_induction_on generalizing s with
  | _ left ih =>
    rw [supply]
    split
    case isFalse => exact ⟨.refl hs, Nat.zero_le _⟩
    case isTrue hpos =>
      split
      case h_1 => exact ⟨.refl hs, Nat.zero_le _⟩
      case h_2 got bytes s₁ hread =>
        have hone :=
          h.delivered ((Nat.min_le_right left chunk).trans hchunk) hs hread
        dsimp only at hone
        split
        case isTrue hle =>
          obtain ⟨-, hd⟩ | ⟨hgot, -, hd⟩ := hone
          · exact ⟨hd, Nat.zero_le _⟩
          · obtain rfl : bytes = [] := List.length_eq_zero_iff.1 (by omega)
            exact ⟨hd, Nat.zero_le _⟩
        case isFalse hgt =>
          obtain ⟨hneg, -⟩ | ⟨hgot, hlen, hd⟩ := hone
          · omega
          · split
            case isTrue => exact ⟨hd, by dsimp only; omega⟩
            case isFalse hfull =>
              obtain ⟨hrest, hle⟩ := ih (left - got.toNat) (by omega) hd.isFile
              refine ⟨hd.trans hrest, ?_⟩
              dsimp only
              rw [List.length_append]
              omega

end Port

end Remu
