/-
What a cached record is a record of.

`decodeFresh` is the decode a missed probe performs, without the execution
behind it. Because the scan and the decoder are in step, the record it
finds is that of the bytes and of two mode bits: any machine that fetches
those bytes in that mode finds the same one. `DecodesTo` says so, and is
what a live cache entry guarantees.
-/
import Remu.X64.Lockstep

namespace Remu.X64

open Word

-- ======== fresh decode

section Fresh

variable {β : Type} [Bus β]

/-- Decode the instruction at RIP; `none` when it is not one the cache
holds. -/
def decodeFresh : Calm β (Option DecodedInsn) := do
  let (opcode, npfx) ← scanPrefixes
  let s ← self
  if s.lock || s.rep.isSome then return none
  else
    let r ← tryDecode opcode npfx
    match r with
    | .hot d => return some d
    | _ => return none

/-- The record of the instruction at RIP, decoded afresh from memory. -/
def Machine.freshDecode (s : Machine β) : Option DecodedInsn :=
  match (decodeFresh.run s.begin.resetDecode).1 with
  | .ok r => r
  | .error _ => none

end Fresh

variable {π : Type} [Ports π]

-- ======== the decoder

theorem len_of_hot {opcode : U8} {npfx : U32}
    {s s' : Machine (FlatBus π)} {d : DecodedInsn}
    (h : (tryDecode opcode npfx).run s = (.ok (.hot d), s')) :
    d.len = s'.ilen := by
  obtain ⟨-, d₀, -, rfl⟩ := tryDecode_hot.1 h
  rfl

/-- A decode that finds a hot record is in step. -/
theorem sync_tryDecode {opcode : U8} {npfx : U32} {code : Nat → U8}
    {start start' : U64} {n : Nat}
    {s t s' : Machine (FlatBus π)} {d : DecodedInsn}
    (hsync : Sync Eq code start start' n s t)
    (h : (tryDecode opcode npfx).run s = (.ok (.hot d), s'))
    (hn : s'.ilen.toNat ≤ n) :
    ∃ t', (tryDecode opcode npfx).run t = (.ok (.hot d), t') := by
  obtain ⟨hc, d₀, hr, rfl⟩ := tryDecode_hot.1 h
  obtain ⟨t', ht, hsync'⟩ := (lock_decodeOp opcode).sync hsync hr hn
  refine ⟨t', tryDecode_hot.2 ⟨?_, d₀, ht, ?_⟩⟩
  · have hasize : s.asize = t.asize := congrArg DecodeState.asize hsync.decode
    rw [← hsync.m64, ← hasize]
    exact hc
  · have hilen : s'.ilen = t'.ilen := congrArg DecodeState.ilen hsync'.decode
    rw [hilen]

-- ======== the records

variable (π) in
/-- The bytes `code` are an instruction with record `d` under the mode
bits: any machine that can fetch them finds it. -/
def DecodesTo (m64 db : Bool) (code : Nat → U8) (d : DecodedInsn) : Prop :=
  ∀ t : Machine (FlatBus π), t.m64 = m64 → (t.regs.seg reg.CS).db = db →
    Streams code t.regs.rip d.len.toNat t.resetDecode →
    Readable t.regs.rip d.len.toNat t.resetDecode →
    ∃ t', decodeFresh.run t.resetDecode = (.ok (some d), t')

/-- The run of `decodeFresh` that finds a record. -/
theorem decodeFresh_of_hot {s s₁ s₂ : Machine (FlatBus π)}
    {p : U8 × U32} {d : DecodedInsn}
    (hscan : scanPrefixes.run s = (.ok p, s₁)) (hlock : s₁.lock = false)
    (hrep : s₁.rep = none)
    (hdec : (tryDecode p.1 p.2).run s₁ = (.ok (.hot d), s₂)) :
    decodeFresh.run s = (.ok (some d), s₂) := by
  unfold decodeFresh
  rw [Bounded.run_bind, Fallible.bind_of_ok hscan, Bounded.run_bind,
    Fallible.bind_of_ok (run_self s₁)]
  have hc : ¬(s₁.lock || s₁.rep.isSome) = true := by
    rw [hlock, hrep]
    decide
  rw [if_neg hc, Bounded.run_bind, Fallible.bind_of_ok hdec]
  rfl

section Missed

variable {code : Nat → U8} {s s₁ s₂ : Machine (FlatBus π)}
  {p : U8 × U32} {d : DecodedInsn}
  (hscan : scanPrefixes.run s.resetDecode = (.ok p, s₁))
  (hdec : (tryDecode p.1 p.2).run s₁ = (.ok (.hot d), s₂))
  (hcode : Streams code s.regs.rip d.len.toNat s.resetDecode)
include hscan hdec hcode

omit hscan hcode in
/-- The prefixes are no longer than the instruction. -/
theorem scan_le_len : s₁.ilen.toNat ≤ d.len.toNat := by
  obtain ⟨-, d₀, hr, -⟩ := tryDecode_hot.1 hdec
  rw [len_of_hot hdec]
  exact (lock_decodeOp p.1).grows hr

/-- Decoding moves nothing but RIP and the decode state. -/
theorem quiet_of_hot : Quiet s.resetDecode s₂ := by
  obtain ⟨hq, hcode₁⟩ := lock_scanPrefixes.quiet hcode hscan (scan_le_len hdec)
  obtain ⟨-, d₀, hr, -⟩ := tryDecode_hot.1 hdec
  have hlen : s₂.ilen.toNat ≤ d.len.toNat :=
    Nat.le_of_eq (congrArg BitVec.toNat (len_of_hot hdec)).symm
  exact hq.trans ((lock_decodeOp p.1).quiet hcode₁ hr hlen).1

/-- What a missed probe decodes is the record of the bytes it decoded. -/
theorem decodesTo_of_hot (hlock : s₁.lock = false) (hrep : s₁.rep = none) :
    DecodesTo π s.m64 (s.regs.seg reg.CS).db code d := by
  intro t hm64 hdb htcode hread
  have hsync : Sync DecodeState.SameScan code s.regs.rip t.regs.rip d.len.toNat
      s.resetDecode t.resetDecode :=
    { decode := rfl, m64 := hm64.symm, db := hdb.symm, source := hcode, target := htcode,
      readable := hread }
  obtain ⟨t₁, ht₁, hsync₁⟩ :=
    lock_scanPrefixes.sync hsync hscan (scan_le_len hdec)
  obtain ⟨t₂, ht₂⟩ := sync_tryDecode hsync₁ hdec
    (Nat.le_of_eq (congrArg BitVec.toNat (len_of_hot hdec)).symm)
  refine ⟨t₂, decodeFresh_of_hot ht₁ ?_ ?_ ht₂⟩
  · rw [← hlock]
    exact (congrArg DecodeState.lock hsync₁.decode).symm
  · rw [← hrep]
    exact (congrArg DecodeState.rep hsync₁.decode).symm

end Missed

end Remu.X64
