/-
The 80386 register file: 32-bit general registers, segment registers with
their descriptor caches, EFLAGS, and the system registers.

As on the 64-bit core the file is kept in two halves. `HotRegs` is what a
faulting instruction rewinds from its always-taken snapshot (or
deliberately keeps); `ColdRegs` is everything else, captured on demand
before its first write.
-/
import Remu.Lib.Word

namespace Remu.X32

-- ======== EFLAGS

/-- The 386 EFLAGS register. -/
structure EFlags where
  bits : U32
deriving DecidableEq, Repr

namespace EFlags

/-- Carry. -/
abbrev CF : U32 := 0x1
/-- Parity of the low byte. -/
abbrev PF : U32 := 0x4
/-- Carry out of bit 3. -/
abbrev AF : U32 := 0x10
/-- Zero. -/
abbrev ZF : U32 := 0x40
/-- Sign. -/
abbrev SF : U32 := 0x80
/-- Single-step trap. -/
abbrev TF : U32 := 0x100
/-- Interrupts enabled. -/
abbrev IF : U32 := 0x200
/-- String instructions count down. -/
abbrev DF : U32 := 0x400
/-- Overflow. -/
abbrev OF : U32 := 0x800
/-- I/O privilege level, two bits. -/
abbrev IOPL : U32 := 0x3000
/-- Nested task. -/
abbrev NT : U32 := 0x4000
/-- Resume. -/
abbrev RF : U32 := 0x10000
/-- Virtual-8086 mode. -/
abbrev VM : U32 := 0x20000

/-- All architecturally defined 386 flag bits: what `from_bits_truncate`
keeps. -/
abbrev DEFINED : U32 := 0x37FD5

/-- The arithmetic flags. -/
abbrev STATUS : U32 := 0x8D5

/-- No flag set. -/
def empty : EFlags := ⟨0⟩

/-- The flags of a word, the bits that are not flags dropped. -/
def fromBitsTruncate (v : U32) : EFlags := ⟨v &&& DEFINED⟩

/-- Whether all the flags of `m` are set. -/
def contains (f : EFlags) (m : U32) : Bool := f.bits &&& m == m

/-- Set the flags of `m`. -/
def insert (f : EFlags) (m : U32) : EFlags := ⟨f.bits ||| m⟩

/-- Clear the flags of `m`. -/
def remove (f : EFlags) (m : U32) : EFlags := ⟨f.bits &&& ~~~m⟩

/-- Turn the flags of `m` over. -/
def toggle (f : EFlags) (m : U32) : EFlags := ⟨f.bits ^^^ m⟩

/-- Set or clear the flags of `m`. -/
def set (f : EFlags) (m : U32) (v : Bool) : EFlags :=
  if v then f.insert m else f.remove m

/-- FLAGS as pushed by 16-bit `PUSHF` and real-mode frames. -/
def image16 (f : EFlags) : U16 := f.bits.setWidth 16 ||| 0x0002

/-- EFLAGS as pushed by `PUSHFD`: VM and RF read as zero. -/
def image32 (f : EFlags) : U32 := (f.bits ||| 0x0002) &&& ~~~(VM ||| RF)

/-- Overwrite the bits under `mask` with those of `value`. -/
def load (f : EFlags) (value mask : U32) : EFlags :=
  fromBitsTruncate ((f.bits &&& ~~~mask) ||| (value &&& mask))

/-- The I/O privilege level as a number. -/
def iopl (f : EFlags) : U8 := ((f.bits >>> 12) &&& 3).setWidth 8

/-- Virtual-8086 mode. -/
def vm (f : EFlags) : Bool := f.bits.getLsbD 17

/-- An even number of set bits. -/
def evenParity (v : U8) : Bool :=
  (List.range 8).countP (fun i => v.getLsbD i) % 2 == 0

/-- SF, ZF and PF from a result of any width; PF reflects the low byte. -/
def setSzp {w : Nat} (f : EFlags) (v : BitVec w) : EFlags :=
  ((f.set SF v.msb).set ZF (v == 0)).set PF (evenParity (v.setWidth 8))

/-- A mask without the VM bit. -/
@[simp] abbrev SparesVm (m : U32) : Prop := m.getLsbD 17 = false

@[simp] theorem vm_insert (f : EFlags) (m : U32) (hm : SparesVm m) :
    (f.insert m).vm = f.vm := by simp_all [insert, vm]

@[simp] theorem vm_remove (f : EFlags) (m : U32) (hm : SparesVm m) :
    (f.remove m).vm = f.vm := by simp_all [remove, vm]

/-- The flag updates of the executor leave VM alone. -/
theorem vm_insert_ZF (f : EFlags) : (f.insert ZF).vm = f.vm := by simp

theorem vm_remove_ZF (f : EFlags) : (f.remove ZF).vm = f.vm := by simp

@[simp] theorem vm_toggle (f : EFlags) (m : U32) (hm : SparesVm m) :
    (f.toggle m).vm = f.vm := by simp_all [toggle, vm]

@[simp] theorem vm_set (f : EFlags) (m : U32) (v : Bool)
    (hm : SparesVm m) : (f.set m v).vm = f.vm := by
  cases v <;> simp_all [set]

@[simp] theorem vm_setSzp {w : Nat} (f : EFlags) (v : BitVec w) :
    (f.setSzp v).vm = f.vm := by
  simp [setSzp]

@[simp] theorem vm_load (f : EFlags) (v m : U32) (hm : SparesVm m) :
    (f.load v m).vm = f.vm := by
  simp_all [load, fromBitsTruncate, vm]

end EFlags

-- ======== the register file

-- Register numbers, general and segment.

namespace reg

abbrev EAX : U8 := 0
abbrev ECX : U8 := 1
abbrev EDX : U8 := 2
abbrev EBX : U8 := 3
abbrev ESP : U8 := 4
abbrev EBP : U8 := 5
abbrev ESI : U8 := 6
abbrev EDI : U8 := 7
abbrev ES : U8 := 0
abbrev CS : U8 := 1
abbrev SS : U8 := 2
abbrev DS : U8 := 3
abbrev FS : U8 := 4
abbrev GS : U8 := 5

end reg

/-- A segment register: the visible selector and the descriptor cache the
CPU uses for every access. `attrs` holds the access byte in bits 0–7 and
the flags nibble (G, D/B, AVL) in bits 8–11. -/
structure SegReg where
  sel : U16
  base : U32
  limit : U32
  attrs : U16
deriving DecidableEq, Repr

/-- A real-mode segment: present, writable data, D/B clear. -/
abbrev REAL_MODE_ATTRS : U16 := 0x0093

namespace SegReg

/-- A segment as a real-mode load leaves it: base from the selector, 64 KiB. -/
def real (sel : U16) : SegReg where
  sel := sel
  base := sel.setWidth 32 <<< 4
  limit := 0xFFFF
  attrs := REAL_MODE_ATTRS

/-- The default operand and address size of code, the stack-pointer width
of a stack. -/
def db (s : SegReg) : Bool := s.attrs &&& 0x0400 != 0

/-- Descriptor privilege level. -/
def dpl (s : SegReg) : U8 := ((s.attrs >>> 5) &&& 3).setWidth 8

/-- A data segment whose valid offsets are above the limit. -/
def expandDown (s : SegReg) : Bool :=
  s.attrs &&& 0x0018 == 0x0010 && s.attrs &&& 0x0004 != 0

end SegReg

/-- GDTR or IDTR. -/
structure DescTable where
  base : U32
  limit : U16
deriving DecidableEq, Repr

namespace cr0

/-- Protected mode. -/
abbrev PE : U32 := 0x1
abbrev MP : U32 := 0x2
abbrev EM : U32 := 0x4
/-- Task switched. -/
abbrev TS : U32 := 0x8
abbrev ET : U32 := 0x10
/-- Paging. -/
abbrev PG : U32 := 0x80000000

end cr0

/-- The registers a fault rewinds from the per-instruction snapshot
(`gpr`, `eip`) or leaves as the faulting instruction left them
(`eflags`, `cr2`). -/
structure HotRegs where
  gpr : U8 → U32
  eip : U32
  eflags : EFlags
  cr2 : U32

/-- The registers behind `prepare_cold_write`. -/
structure ColdRegs where
  seg : U8 → SegReg
  cr0 : U32
  cr3 : U32
  dr : U8 → U32
  tr6 : U32
  tr7 : U32
  gdtr : DescTable
  idtr : DescTable
  ldtr : SegReg
  tr : SegReg

structure Registers extends HotRegs, ColdRegs

namespace Registers

/-- The power-on register file: execution starts at F000:FFF0 with the CS
base at FFFF0000. -/
def new : Registers where
  gpr := fun _ => 0
  eip := 0xFFF0
  eflags := EFlags.empty
  cr2 := 0
  seg := upd (fun _ => SegReg.real 0) reg.CS
    { sel := 0xF000, base := 0xFFFF0000, limit := 0xFFFF, attrs := REAL_MODE_ATTRS }
  cr0 := cr0.ET
  cr3 := 0
  dr := fun _ => 0
  tr6 := 0
  tr7 := 0
  gdtr := { base := 0, limit := 0xFFFF }
  idtr := { base := 0, limit := 0x03FF }
  ldtr := { sel := 0, base := 0, limit := 0xFFFF, attrs := 0x0082 }
  tr := { sel := 0, base := 0, limit := 0xFFFF, attrs := 0x0083 }

end Registers

namespace HotRegs

/-- A register by its number. -/
def reg32 (r : HotRegs) (i : U8) : U32 := r.gpr (i &&& 7)

/-- Write all 32 bits. -/
def setReg32 (r : HotRegs) (i : U8) (v : U32) : HotRegs :=
  { r with gpr := upd r.gpr (i &&& 7) v }

/-- The low word. -/
def reg16 (r : HotRegs) (i : U8) : U16 := (r.gpr (i &&& 7)).setWidth 16

/-- Write the low word; the rest stays. -/
def setReg16 (r : HotRegs) (i : U8) (v : U16) : HotRegs :=
  r.setReg32 i ((r.gpr (i &&& 7) &&& 0xFFFF0000) ||| v.setWidth 32)

/-- Numbers 4–7 name the second byte of the first four registers. -/
def reg8 (r : HotRegs) (i : U8) : U8 :=
  let w := r.gpr (i &&& 3)
  if i &&& 4 != 0 then (w >>> 8).setWidth 8 else w.setWidth 8

/-- Write a byte register; numbers 4 to 7 are AH to BH. -/
def setReg8 (r : HotRegs) (i : U8) (v : U8) : HotRegs :=
  let w := r.gpr (i &&& 3)
  let new := if i &&& 4 != 0
    then (w &&& ~~~(0xFF00 : U32)) ||| (v.setWidth 32 <<< 8)
    else (w &&& ~~~(0xFF : U32)) ||| v.setWidth 32
  { r with gpr := upd r.gpr (i &&& 3) new }

@[simp] theorem eflags_setReg32 (r : HotRegs) (i : U8) (v : U32) :
    (r.setReg32 i v).eflags = r.eflags := rfl

@[simp] theorem eflags_setReg16 (r : HotRegs) (i : U8) (v : U16) :
    (r.setReg16 i v).eflags = r.eflags := rfl

@[simp] theorem eflags_setReg8 (r : HotRegs) (i : U8) (v : U8) :
    (r.setReg8 i v).eflags = r.eflags := rfl

end HotRegs

/-- The selector a segment-register number reads (`i % 6`). -/
def ColdRegs.segSel (r : ColdRegs) (i : U8) : U16 := (r.seg (i % 6)).sel

end Remu.X32
