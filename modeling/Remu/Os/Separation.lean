/-
Pages of the x86-64 layer share no frames, with each other or with the
tables.

Addresses see one page exactly when they agree on the 36 bits above the
offset (`samePage_iff`), and the tables are a tree, so different pages are
different frames and none of them is a table. As long as the allocator has
frames to give this holds after any operations (`separate_run`). Copies by
the host and stores by the processor then move nothing, and of the bytes
outside the tables they change those they address.
-/
import Remu.Os.Processor

namespace Remu.Os

open EntryWidth FrameTree Word

namespace AddressSpace

variable {a a' : AddressSpace 64}

-- ======== frame count

/-- The number of frames handed out; the first frame is not one. -/
def frames (a : AddressSpace 64) : Nat := a.nextPhys / 4096 - 1

/-- Fewer than 2^40 frames are all below 2^52. -/
theorem next_le_of_frames (h : a.nextPhys % 4096 = 0)
    (hfew : a.frames < 2 ^ 40) :
    a.nextPhys ≤ 2 ^ Layout.os64.physBits := by
  rw [frames] at hfew
  show a.nextPhys ≤ 2 ^ 52
  omega

-- ======== separation

/-- Pages are frames of their own. -/
structure Separate (a : AddressSpace 64) : Prop where
  apart : ∀ x y p q, page48 x ≠ page48 y → a.resolve Layout.os64 x = some p →
    a.resolve Layout.os64 y = some q → p >>> 12 ≠ q >>> 12
  notFirst : ∀ x p, a.resolve Layout.os64 x = some p → p >>> 12 ≠ 0
  notTable : ∀ x p t, a.resolve Layout.os64 x = some p →
    a.IsTable Layout.os64 t → p >>> 12 ≠ t >>> 12

theorem Sound.separate (hs : a.Sound Layout.os64) : a.Separate where
  apart x y p q hne hp hq heq := by
    obtain ⟨⟨f, hf, hpf⟩, -⟩ := hs.resolve_page hp
    obtain ⟨⟨g, hg, hqg⟩, -⟩ := hs.resolve_page hq
    have hfg : f = g :=
      eq_of_inFrame (hs.frame_allocated hf).aligned
        (hs.frame_allocated hg).aligned
      hpf (heq.trans hqg)
    subst hfg
    have hx := Layout.os64.length_indices x
    have hy := Layout.os64.length_indices y
    exact hne (samePage_iff.1
      (hs.tree _ _ f (le_of_eq hx) (le_of_eq hy) hf hg))
  notFirst x p hp heq := by
    obtain ⟨⟨f, hf, hpf⟩, -⟩ := hs.resolve_page hp
    have hpos := (hs.frame_allocated hf).pos
    have hzero : (f >>> 12).toNat = 0 :=
      congrArg BitVec.toNat (hpf.symm.trans heq)
    rw [toNat_page] at hzero
    omega
  notTable x p t hp ht heq := by
    obtain ⟨⟨f, hf, hpf⟩, -⟩ := hs.resolve_page hp
    refine hs.page_not_table (Layout.os64.length_indices x) hf ht ?_
    exact eq_of_inFrame (hs.isTable_allocated ht).aligned
      (hs.frame_allocated hf).aligned heq hpf

/-- A host copy moves no page and changes the bytes it copies to. -/
def CopiesExactly (a : AddressSpace 64) : Prop :=
  ∀ lin data, (a.writeBytes Layout.os64 lin data).2.resolve Layout.os64
    = a.resolve Layout.os64
    ∧ ∃ n, Copied Layout.os64 a lin data n
      (a.writeBytes Layout.os64 lin data).2
      ∧ ((a.writeBytes Layout.os64 lin data).1 = true ↔ n = data.length)

/-- A store of `n` bytes by the processor moves no page; when it succeeds
it changes the bytes it addresses, else none. Outside of these the tables
gain marks. -/
def StoresExactly {k : Nat} (a : AddressSpace 64)
    (s : X64.Machine (PhysMem 64)) (lin : U64) (n : Nat)
    (v : BitVec k) (store : X64.Calm (PhysMem 64) Unit) : Prop :=
  resolve Layout.os64 { a with mem := (store.run s).2.bus }
    = a.resolve Layout.os64
    ∧ Steady a { a with mem := (store.run s).2.bus }
    ∧ match (store.run s).1 with
      | .ok _ => a.Stored lin n v { a with mem := (store.run s).2.bus }
      | .error _ => a.SameBytes { a with mem := (store.run s).2.bus }

theorem storesExactly {k : Nat} {s : X64.Machine (PhysMem 64)} {lin : U64}
    {n : Nat} {v : BitVec k}
    {store : X64.Calm (PhysMem 64) Unit}
    (h : a.StoreOutcome lin n v (store.run s)) :
    a.StoresExactly s lin n v store := by
  rw [StoresExactly]
  rcases hr : store.run s with ⟨e | _, s'⟩ <;> rw [hr] at h
  · exact ⟨h.steady.resolve, h.steady, h.bytes⟩
  · exact ⟨h.stored.steady.resolve, h.stored.steady, h.stored⟩

/-- A host copy is steady. -/
theorem Copied.steady {lin : U64} {data : List U8} {n : Nat}
    (hs : a.Sound Layout.os64)
    (h : Copied Layout.os64 a lin data n a') : Steady a a' := by
  rw [h.same.rest]
  refine Steady.of_data hs _ fun x hx => ?_
  by_contra hno
  refine hx (h.other x fun k _ hk => hno ?_)
  obtain ⟨⟨f, hf, hin⟩, -⟩ := hs.resolve_page hk
  exact ⟨_, f, hf, hin⟩

theorem copiesExactly (hs : a.Sound Layout.os64) : a.CopiesExactly := by
  intro lin data
  obtain ⟨n, hcopied, hdone, -⟩ := copied_writeBytes hs lin data
  exact ⟨(hcopied.steady hs).resolve, n, hcopied, hdone⟩

/-- Operations write plain entries. -/
theorem Plain.apply (hp : a.Plain) (hs : a.Sound Layout.os64) (op : Op 64)
    (hfit : (op.apply Layout.os64 a).nextPhys ≤ 2 ^ Layout.os64.physBits) :
    (op.apply Layout.os64 a).Plain := by
  by_cases hcopy : ∃ lin data, op = .writeBytes lin data
  · obtain ⟨lin, data, rfl⟩ := hcopy
    obtain ⟨n, hcopied, -⟩ := copied_writeBytes hs lin data
    exact (hcopied.steady hs).plain hp
  · have heffect :=
      Effect.apply hs op (fun lin data h => hcopy ⟨lin, data, h⟩) hfit
    exact hp.written heffect.sound heffect.written

theorem Plain.run (hp : a.Plain) (hs : a.Sound Layout.os64)
    (ops : List (Op 64))
    (hfit : (a.run Layout.os64 ops).nextPhys ≤ 2 ^ Layout.os64.physBits) :
    (a.run Layout.os64 ops).Plain := by
  induction ops generalizing a with
  | nil => exact hp
  | cons op ops ih =>
    have hnext := (nextPhys_run (L := Layout.os64) _ ops).trans hfit
    exact ih (hp.apply hs op hnext) (hs.apply op hnext) hfit

/-- Separate pages, and what follows for whoever stores to them: the host,
or a processor that runs on the tables. -/
structure Isolated (a : AddressSpace 64) : Prop extends Separate a where
  copies : a.CopiesExactly
  store8 : ∀ s, a.Selects s → a.TlbAgrees s → ∀ (lin : U64) (v : U8),
    a.StoresExactly s lin 1 v (X64.linWrite8 lin v)
  store16 : ∀ s, a.Selects s → a.TlbAgrees s → ∀ (lin : U64) (v : U16),
    a.StoresExactly s lin 2 v (X64.linWrite16 lin v)
  store32 : ∀ s, a.Selects s → a.TlbAgrees s → ∀ (lin : U64) (v : U32),
    a.StoresExactly s lin 4 v (X64.linWrite32 lin v)
  store64 : ∀ s, a.Selects s → a.TlbAgrees s → ∀ (lin : U64) (v : U64),
    a.StoresExactly s lin 8 v (X64.linWrite64 lin v)

theorem Sound.isolated (hs : a.Sound Layout.os64) (hp : a.Plain) :
    a.Isolated where
  toSeparate := hs.separate
  copies := copiesExactly hs
  store8 _ hsel htlb lin v :=
    storesExactly (Hosts.linWrite8 ⟨hsel, hs, hp, htlb⟩ lin v)
  store16 _ hsel htlb lin v :=
    storesExactly (Hosts.linWrite16 ⟨hsel, hs, hp, htlb⟩ lin v)
  store32 _ hsel htlb lin v :=
    storesExactly (Hosts.linWrite32 ⟨hsel, hs, hp, htlb⟩ lin v)
  store64 _ hsel htlb lin v :=
    storesExactly (Hosts.linWrite64 ⟨hsel, hs, hp, htlb⟩ lin v)

theorem sound_plain_run (ops : List (Op 64))
    (hfew : ((new Layout.os64).run Layout.os64 ops).frames < 2 ^ 40) :
    ((new Layout.os64).run Layout.os64 ops).Sound Layout.os64
      ∧ ((new Layout.os64).run Layout.os64 ops).Plain := by
  have hfit := next_le_of_frames (aligned_run _ ops rfl) hfew
  exact ⟨sound_run Layout.os64 ops hfit,
    plain_new.run (sound_new Layout.os64 (by decide)) ops hfit⟩

/-- After any operations that take fewer than 2^40 frames, pages are frames
of their own; copies and stores move nothing and change the bytes they
address. -/
theorem isolated_run (ops : List (Op 64))
    (hfew : ((new Layout.os64).run Layout.os64 ops).frames < 2 ^ 40) :
    ((new Layout.os64).run Layout.os64 ops).Isolated := by
  obtain ⟨hs, hp⟩ := sound_plain_run ops hfew
  exact hs.isolated hp

/-- Two pages of an image. -/
abbrev twoPages : List (Op 64) := [.map 0x400000 0x2000 3 .image]

/-- A process that runs on them: a store across the two changes eight
bytes. -/
theorem isolated_run_twoPages :
    StoresExactly ((new Layout.os64).run Layout.os64 twoPages)
      (enterUser ((new Layout.os64).run Layout.os64 twoPages)
        X64.Cpu.new 0x400000 0)
      0x400FFC 8 (0x1122334455667788 : U64)
        (X64.linWrite64 0x400FFC 0x1122334455667788) := by
  have hfew : ((new Layout.os64).run Layout.os64 twoPages).frames
    < 2 ^ 40 := by decide
  obtain ⟨hs, hp⟩ := sound_plain_run twoPages hfew
  have hhosts := hosts_enterUser hs hp (c := X64.Cpu.new) rfl 0x400000 0
  exact (isolated_run twoPages hfew).store64 _ hhosts.selects
    hhosts.tlb 0x400FFC _

end AddressSpace

end Remu.Os
