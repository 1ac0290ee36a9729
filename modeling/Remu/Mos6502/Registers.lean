/-
The 6502's status register and register file.

The processor has no storage for B and U: they mean something only in the
byte that is pushed. In memory U is kept set and B clear, and `Settled` is
that convention.
-/
import Remu.Lib.Fields
import Remu.Lib.Word

namespace Remu.Mos6502

-- ======== status

/-- The status register P. -/
structure Status where
  bits : U8
deriving DecidableEq, Repr

namespace Status

/-- Carry. -/
abbrev C : U8 := 0x01
/-- Zero. -/
abbrev Z : U8 := 0x02
/-- Interrupt disable. -/
abbrev I : U8 := 0x04
/-- Decimal mode. -/
abbrev D : U8 := 0x08
/-- Break, only in the byte pushed. -/
abbrev B : U8 := 0x10
/-- Unused, always 1 when pushed. -/
abbrev U : U8 := 0x20
/-- Overflow. -/
abbrev V : U8 := 0x40
/-- Negative. -/
abbrev N : U8 := 0x80

def contains (p : Status) (m : U8) : Bool := p.bits &&& m == m

def insert (p : Status) (m : U8) : Status := ⟨p.bits ||| m⟩

def remove (p : Status) (m : U8) : Status := ⟨p.bits &&& ~~~m⟩

def set (p : Status) (m : U8) (v : Bool) : Status :=
  if v then p.insert m else p.remove m

/-- Z and N from a value. -/
def setZn (p : Status) (value : U8) : Status :=
  (p.set Z (value == 0)).set N (value &&& 0x80 != 0)

/-- The byte that is pushed; B tells a BRK or PHP from an interrupt. -/
def pushed (p : Status) (withB : Bool) : U8 :=
  let bits := p.bits ||| U
  if withB then bits ||| B else bits &&& ~~~B

/-- The register after a byte was pulled. -/
def pulled (v : U8) : Status := ⟨(v ||| U) &&& ~~~B⟩

-- ------------------------------------------------------------- reading a flag

variable (p : Status)

/-- Writing a flag is writing one bit of the byte. -/
theorem set_eq_put (m : U8) (v : Bool) :
    p.set m v = ⟨Flag.put p.bits m v⟩ := by
  cases v <;> rfl

/-- A flag written is the flag read back. -/
theorem contains_set {m : U8} (hm : m ≠ 0) (v : Bool) :
    (p.set m v).contains m = v := by
  rw [set_eq_put]
  exact Flag.test_put hm p.bits v

theorem contains_set_other {m m' : U8} (hm : m &&& m' = 0) (v : Bool) :
    (p.set m v).contains m' = p.contains m' := by
  rw [set_eq_put]
  exact Flag.test_put_other hm p.bits v

/-- Z and N are all that `setZn` writes. -/
theorem contains_setZn {m : U8} (hz : Z &&& m = 0)
    (hn : N &&& m = 0) (v : U8) :
    (p.setZn v).contains m = p.contains m := by
  rw [setZn, contains_set_other _ hn, contains_set_other _ hz]

-- ------------------------------------------------------------- the convention

/-- U is set and B is clear. -/
def Settled : Prop := p.contains U = true ∧ p.contains B = false

instance : Decidable p.Settled := inferInstanceAs (Decidable (_ ∧ _))

/-- A flag that is storage. -/
def Stored (m : U8) : Prop := m &&& U = 0 ∧ m &&& B = 0

instance (m : U8) : Decidable (Stored m) := inferInstanceAs (Decidable (_ ∧ _))

variable {p}

theorem Settled.set {m : U8} (hm : Stored m) (h : p.Settled) (v : Bool) :
    (p.set m v).Settled := by
  rw [Settled, contains_set_other _ hm.1, contains_set_other _ hm.2]
  exact h

theorem Settled.setZn (h : p.Settled) (v : U8) : (p.setZn v).Settled :=
  (h.set (by decide) _).set (by decide) _

theorem Settled.insert {m : U8} (hm : Stored m) (h : p.Settled) :
    (p.insert m).Settled :=
  h.set hm true

theorem Settled.remove {m : U8} (hm : Stored m) (h : p.Settled) :
    (p.remove m).Settled :=
  h.set hm false

/-- Setting I and U, as a reset does. -/
theorem Settled.insert_I_U (h : p.Settled) : (p.insert (I ||| U)).Settled := by
  have hboth : p.insert (I ||| U) = (p.insert I).set U true :=
    congrArg Status.mk (BitVec.or_assoc p.bits I U).symm
  rw [hboth]
  exact ⟨contains_set _ (by decide) true,
    (contains_set_other _ (by decide) true).trans (h.insert (by decide)).2⟩

/-- A status pulled from the stack is settled, whatever the byte. -/
theorem settled_pulled (v : U8) : (pulled v).Settled := by
  constructor
  · exact (contains_set_other ⟨v ||| U⟩ (by decide) false).trans
      (contains_set ⟨v⟩ (by decide) true)
  · exact contains_set ⟨v ||| U⟩ (by decide) false

/-- What an interrupt pushes is pulled again. -/
theorem Settled.pulled_pushed (h : p.Settled) :
    pulled (p.pushed false) = p := by
  obtain ⟨bits⟩ := p
  have hset : bits ||| U = bits := Flag.put_of_test h.1
  have hclear : bits &&& ~~~B = bits := Flag.put_of_not_test (i := 4) h.2
  show (⟨((bits ||| U) &&& ~~~B ||| U) &&& ~~~B⟩ : Status) = ⟨bits⟩
  rw [hset, hclear, hset, hclear]

end Status

-- ======== registers

/-- The register file. -/
structure Registers where
  a : U8
  x : U8
  y : U8
  /-- The low byte of the stack pointer; the stack is page one. -/
  sp : U8
  pc : U16
  p : Status
deriving DecidableEq, Repr

/-- Power-on state: I and U set. -/
def Registers.new : Registers :=
  { a := 0, x := 0, y := 0, sp := 0xFD, pc := 0, p := ⟨Status.I ||| Status.U⟩ }

theorem Registers.settled_new : Registers.new.p.Settled := by decide

end Remu.Mos6502
