/-
What the range calls of the x86-64 layer do outside their range.

`munmap`, `mprotect` and `MAP_FIXED` run over whole 64-bit addresses, but
the tables tell pages apart by 48 bits only, and nobody checks that an
address is canonical. So a range at or above 2^48 passes pages of the lower
half a second time, under another name. Outside its range a call leaves the
user's pages alone exactly when each page it passes under another name is
already as the call would leave it (`range_confined_iff`).
-/
import Remu.Os.Agreement
import Remu.Os.Vmas

namespace Remu.Os

open EntryWidth Word AddressSpace

-- ======== the calls

/-- The protection bits of a system call's argument. -/
def protBits (p : U64) : U32 :=
  (if p &&& 1 ≠ 0 then PROT_READ else 0)
    ||| (if p &&& 2 ≠ 0 then PROT_WRITE else 0)
    ||| (if p &&& 4 ≠ 0 then PROT_EXEC else 0)

/-- `mmap` maps no page without any access. -/
def mmapProt (p : U64) : U32 :=
  if protBits p = 0 then PROT_READ else protBits p

/-- The calls a guest passes a range to, with their raw arguments. The
file that a mapping may be filled from afterwards is read as by `read`. -/
inductive RangeCall where
  | munmap (addr len : U64)
  | mprotect (addr len prot : U64)
  /-- `mmap` with `MAP_FIXED`. -/
  | mmapFixed (addr len prot : U64)
deriving DecidableEq, Repr

namespace RangeCall

def addr : RangeCall → U64
  | munmap addr _ | mprotect addr _ _ | mmapFixed addr _ _ => addr

def len : RangeCall → U64
  | munmap _ len | mprotect _ len _ | mmapFixed _ len _ => len

/-- What the call asks of the address space. `MAP_FIXED` does not count at
address 0. -/
def op : RangeCall → Op 64
  | munmap addr len => .unmap addr len
  | mprotect addr len prot => .protect addr len (protBits prot)
  | mmapFixed addr len prot =>
    if addr = 0 then .mmap len (mmapProt prot)
      else .mmapFixed addr len (mmapProt prot)

/-- The process after the call, with the flush it makes. -/
def serve (p : Process) (c : RangeCall) : Process :=
  match c with
  | munmap _ _ | mprotect _ _ _ => (p.host c.op).invalidateTlb
  | mmapFixed _ _ _ => p.host c.op

/-- `lin` lies in the pages of the call's range. -/
def Within (c : RangeCall) (lin : U64) : Prop :=
  pageDown c.addr ≤ lin ∧ lin < rangeEnd c.addr c.len

instance instDecidableWithin (c : RangeCall) (lin : U64) :
    Decidable (c.Within lin) :=
  inferInstanceAs (Decidable (_ ∧ _))

/-- Under some address the call passes the page of `lin`. -/
def Passes (c : RangeCall) (a : AddressSpace 64) (lin : U64) : Prop :=
  ∃ x ∈ c.op.range Layout.os64 a, page48 lin = page48 x

/-- A page the call would leave as it is: none for `munmap`, none or one
of the new protection for `mprotect`, one of at least the new protection
for `MAP_FIXED`. -/
def Spares : RangeCall → Option (Page 64) → Prop
  | munmap _ _, o => o = none
  | mprotect _ _ prot, o =>
    ∀ pg, o = some pg → pg.writable = writes (protBits prot) ∧ pg.user = true
  | mmapFixed _ _ prot, o =>
    ∃ pg, o = some pg ∧ (writes (mmapProt prot) = true → pg.writable = true)
      ∧ pg.user = true

theorem op_not_copy (c : RangeCall) :
    ∀ lin data, c.op ≠ .writeBytes lin data := by
  intro lin data h
  cases c with
  | munmap addr len => cases h
  | mprotect addr len prot => cases h
  | mmapFixed addr len prot =>
    rw [op] at h
    split at h <;> cases h

theorem onPage_mmapFixed (addr len prot : U64) :
    (mmapFixed addr len prot).op.onPage = widen (mmapProt prot) true := by
  rw [op]
  split <;> rfl

/-- Spared pages are the fixed points of what the call does to a page. -/
theorem spares_iff (c : RangeCall) (o : Option (Page 64)) :
    c.Spares o ↔ c.op.onPage o = o := by
  cases c with
  | munmap addr len => exact eq_comm
  | mprotect addr len prot =>
    cases o with
    | none => exact iff_of_true (fun pg h => by cases h) rfl
    | some pg =>
      show (∀ pg', some pg = some pg' → _)
        ↔ some (Page.mk _ true pg.bytes) = some pg
      rw [Option.some.injEq, Page.ext_iff]
      constructor
      · intro h
        obtain ⟨hw, hu⟩ := h pg rfl
        exact ⟨hw.symm, hu.symm, rfl⟩
      · rintro ⟨hw, hu, -⟩ pg' heq
        cases heq
        exact ⟨hw.symm, hu.symm⟩
  | mmapFixed addr len prot =>
    rw [onPage_mmapFixed]
    cases o with
    | none =>
      refine iff_of_false ?_ fun h => by cases h
      rintro ⟨pg, h, -⟩
      cases h
    | some pg =>
      rw [widen, Option.some.injEq, Page.ext_iff]
      constructor
      · rintro ⟨pg', heq, hw, hu⟩
        cases heq
        refine ⟨?_, hu.symm, rfl⟩
        show (pg.writable || writes (mmapProt prot)) = pg.writable
        cases hm : writes (mmapProt prot) with
        | false => exact Bool.or_false _
        | true => rw [hw hm, Bool.true_or]
      · rintro ⟨hw, hu, -⟩
        refine ⟨pg, rfl, fun hm => ?_, hu.symm⟩
        rw [← hw, show writes (mmapProt prot) = true from hm]
        exact Bool.or_true _

end RangeCall

-- ======== the law

/-- `lin` is translated as before, its page has the protection and the
bytes it had. -/
structure Unmoved (a a' : AddressSpace 64) (lin : U64) : Prop where
  translation : a'.resolve Layout.os64 lin = a.resolve Layout.os64 lin
  page : a'.view Layout.os64 lin = a.view Layout.os64 lin

/-- Every user page outside the range of the call is as it was. -/
def RangeCall.Confined (c : RangeCall) (a a' : AddressSpace 64) : Prop :=
  ∀ lin : U64, lin.toNat < 2 ^ 47 → ¬ c.Within lin → Unmoved a a' lin

namespace AddressSpace

variable {a a' : AddressSpace 64}

/-- Pages that have not changed have not moved. -/
theorem Effect.unmoved {lins : List U64}
    {g : Option (Page 64) → Option (Page 64)}
    (h : Effect Layout.os64 a a' lins g) {lin : U64}
    (hview : a'.view Layout.os64 lin = a.view Layout.os64 lin) :
    Unmoved a a' lin := by
  refine ⟨?_, hview⟩
  rw [resolve_eq, resolve_eq]
  congr 1
  cases hf : a.frameOf Layout.os64 lin with
  | none => exact view_eq_none.1 (hview.trans (view_eq_none.2 hf))
  | some f =>
    cases hf' : a'.frameOf Layout.os64 lin with
    | none =>
      rw [view_eq_none.2 hf', view_of_frame hf] at hview
      cases hview
    | some f' => rw [h.frame lin f f' hf hf']

/-- Where a call is heard is where it passes. -/
theorem passes_iff {c : RangeCall} {lin : U64} :
    c.Passes a lin ↔ Layout.os64.Covers (c.op.range Layout.os64 a) lin :=
  exists_congr fun _ => and_congr_right fun _ => samePage_iff.symm

/-- A range that ends at or below 2^48 names each of its pages once. -/
theorem within_of_passes {c : RangeCall}
    (hrange : c.op.range Layout.os64 a = rangePages c.addr c.len)
    (hend : (rangeEnd c.addr c.len).toNat ≤ 2 ^ 48) {lin : U64}
    (hlow : lin.toNat < 2 ^ 47) (hpass : c.Passes a lin) : c.Within lin := by
  obtain ⟨x, hx, hpage⟩ := hpass
  rw [hrange] at hx
  have hstart := aligned_pageDown c.addr
  have hstop := aligned_rangeEnd c.addr c.len
  obtain ⟨-, hge, hlt⟩ := (mem_pages hstart hstop).1 hx
  rw [Aligned] at hstart hstop
  rw [page48, page48] at hpage
  rw [RangeCall.Within, BitVec.le_def, BitVec.lt_def]
  rw [BitVec.le_def] at hge
  rw [BitVec.lt_def] at hlt
  omega

/-- What an operation does outside a call's range. -/
theorem confined_iff_of_effect (c : RangeCall)
    (h : Effect Layout.os64 a a' (c.op.range Layout.os64 a) c.op.onPage) :
    c.Confined a a' ↔ ∀ lin : U64, lin.toNat < 2 ^ 47 → ¬ c.Within lin →
      c.Passes a lin →
      c.Spares (a.view Layout.os64 lin) := by
  constructor
  · intro hconf lin hlow hout hpass
    have hview := h.view lin
    rw [if_pos (passes_iff.1 hpass), (hconf lin hlow hout).page] at hview
    exact (c.spares_iff _).2 hview.symm
  · intro hspare lin hlow hout
    refine h.unmoved ?_
    rw [h.view]
    split
    case isTrue hcov =>
      exact (c.spares_iff _).1 (hspare lin hlow hout (passes_iff.2 hcov))
    case isFalse => rfl

end AddressSpace

namespace Process

theorem aspace_serve (p : Process) (c : RangeCall) :
    (c.serve p).aspace = c.op.apply Layout.os64 p.aspace := by
  cases c <;> rfl

/-- In every state reached from a loaded process, while fewer than 2^40
frames have been handed out, a range call leaves every user page outside
its range alone exactly when it passes none of them under another address,
save those that are already as it would leave them. -/
theorem range_confined_iff (ops : List (Op 64)) (entry rsp : U64) (p : Process)
    (h : Relation.ReflTransGen Step (start ops entry rsp) p) (c : RangeCall)
    (hfew : (c.serve p).aspace.frames < 2 ^ 40) :
    c.Confined p.aspace (c.serve p).aspace
      ↔ ∀ lin : U64, lin.toNat < 2 ^ 47 → ¬ c.Within lin →
        c.Passes p.aspace lin →
        c.Spares (p.aspace.view Layout.os64 lin) := by
  rw [aspace_serve] at hfew ⊢
  have haligned := aligned_reached h (aligned_run _ ops rfl)
  have hfit := next_le_of_frames (aligned_apply p.aspace c.op haligned) hfew
  have hs := (hosts_reached h (hosts_start ops entry rsp)
    ((nextPhys_apply p.aspace c.op).trans hfit)).sound
  exact confined_iff_of_effect c (Effect.apply hs c.op c.op_not_copy hfit)

/-- A range in the lower half, over one of the two pages. -/
theorem range_confined_twoPages : (RangeCall.munmap 0x400000 0x1000).Confined
    (start twoPages 0x400000 0).aspace
    ((RangeCall.munmap 0x400000 0x1000).serve
      (start twoPages 0x400000 0)).aspace := by
  refine (range_confined_iff twoPages 0x400000 0 _ .refl
    (.munmap 0x400000 0x1000) (by decide)).2 ?_
  intro lin hlow hout hpass
  exact absurd (within_of_passes rfl (by decide) hlow hpass) hout

/-- `munmap` of a page at 2^48 and up takes the page of the lower half
that has its low 48 bits. -/
theorem munmap_not_confined :
    ¬ ∀ (ops : List (Op 64)) (entry rsp : U64) (p : Process),
    Relation.ReflTransGen Step (start ops entry rsp) p →
    ∀ c : RangeCall, c.Confined p.aspace (c.serve p).aspace := by
  intro hall
  have hconf :=
    hall twoPages 0x400000 0 _ .refl (.munmap 0x1000000400000 0x1000)
  have hmoved := (hconf 0x400000 (by decide) (by decide)).translation
  exact absurd hmoved (by decide)

end Process

end Remu.Os
