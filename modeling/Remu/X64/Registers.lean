/-
The x86-64 register file: sixteen 64-bit general registers, segment
registers with their descriptor caches, RFLAGS, control registers and the
model-specific registers the core implements.

The file is kept in two halves. `HotRegs` is what a faulting instruction
rewinds from its always-taken snapshot (or deliberately keeps);
`ColdRegs` is everything else, captured on demand before its first write.
-/
import Remu.Lib.Word

namespace Remu.X64

-- ======== RFLAGS

/-- The RFLAGS register (the upper half is architecturally zero). -/
structure RFlags where
  bits : U32
deriving DecidableEq, Repr

namespace RFlags

/-- Carry. -/
abbrev CF : U32 := 0x1
/-- Parity of the low byte. -/
abbrev PF : U32 := 0x4
/-- Carry out of bit 3. -/
abbrev AF : U32 := 0x10
/-- Zero. -/
abbrev ZF : U32 := 0x40
/-- Sign. -/
abbrev SF : U32 := 0x80
/-- Single-step trap. -/
abbrev TF : U32 := 0x100
/-- Interrupts enabled. -/
abbrev IF : U32 := 0x200
/-- String instructions count down. -/
abbrev DF : U32 := 0x400
/-- Overflow. -/
abbrev OF : U32 := 0x800
/-- I/O privilege level, two bits. -/
abbrev IOPL : U32 := 0x3000
/-- Nested task. -/
abbrev NT : U32 := 0x4000
/-- Resume. -/
abbrev RF : U32 := 0x10000
/-- Virtual-8086 mode. -/
abbrev VM : U32 := 0x20000
/-- Alignment check. -/
abbrev AC : U32 := 0x40000
/-- Virtual interrupt flag. -/
abbrev VIF : U32 := 0x80000
/-- Virtual interrupt pending. -/
abbrev VIP : U32 := 0x100000
/-- CPUID may be used. -/
abbrev ID : U32 := 0x200000

/-- Every defined bit: what `from_bits_truncate` keeps. -/
abbrev ALL : U32 := 0x3F7FD5

/-- The six status flags. -/
abbrev STATUS : U32 := 0x8D5

/-- No flag set. -/
def empty : RFlags := ⟨0⟩

/-- The flags of a word, the bits that are not flags dropped. -/
def fromBitsTruncate (v : U32) : RFlags := ⟨v &&& ALL⟩

/-- Whether all the flags of `m` are set. -/
def contains (f : RFlags) (m : U32) : Bool := f.bits &&& m == m

/-- Set the flags of `m`. -/
def insert (f : RFlags) (m : U32) : RFlags := ⟨f.bits ||| m⟩

/-- Clear the flags of `m`. -/
def remove (f : RFlags) (m : U32) : RFlags := ⟨f.bits &&& ~~~m⟩

/-- Turn the flags of `m` over. -/
def toggle (f : RFlags) (m : U32) : RFlags := ⟨f.bits ^^^ m⟩

/-- Set or clear the flags of `m`. -/
def set (f : RFlags) (m : U32) (v : Bool) : RFlags :=
  if v then f.insert m else f.remove m

/-- The 16-bit image pushed by `PUSHF` and interrupt frames. -/
def image16 (f : RFlags) : U16 := f.bits.setWidth 16 ||| 0x0002

/-- The wide image: VM and RF read as zero. -/
def image (f : RFlags) : U64 :=
  ((f.bits ||| 0x0002) &&& ~~~(VM ||| RF)).setWidth 64

/-- Overwrite the bits under `mask` with those of `value`. -/
def load (f : RFlags) (value : U64) (mask : U32) : RFlags :=
  fromBitsTruncate ((f.bits &&& ~~~mask) ||| (value.setWidth 32 &&& mask))

/-- The I/O privilege level as a number. -/
def iopl (f : RFlags) : U8 := ((f.bits >>> 12) &&& 3).setWidth 8

/-- Virtual-8086 mode. -/
def vm (f : RFlags) : Bool := f.bits[17]

/-- An even number of set bits. -/
def evenParity (v : U8) : Bool :=
  (List.range 8).countP (fun i => v.getLsbD i) % 2 == 0

/-- SF, ZF and PF from a result of any width. -/
def setSzp {w : Nat} (f : RFlags) (v : BitVec w) : RFlags :=
  ((f.set SF v.msb).set ZF (v == 0)).set PF (evenParity (v.setWidth 8))

/-- A mask without the VM bit. -/
@[simp] abbrev SparesVm (m : U32) : Prop := m[17] = false

@[simp] theorem vm_insert (f : RFlags) (m : U32) (hm : SparesVm m) :
    (f.insert m).vm = f.vm := by simp_all [insert, vm]

@[simp] theorem vm_remove (f : RFlags) (m : U32) (hm : SparesVm m) :
    (f.remove m).vm = f.vm := by simp_all [remove, vm]

@[simp] theorem vm_toggle (f : RFlags) (m : U32) (hm : SparesVm m) :
    (f.toggle m).vm = f.vm := by simp_all [toggle, vm]

/-- The flag updates of the executor leave VM alone. -/
theorem vm_insertZf (f : RFlags) : (f.insert ZF).vm = f.vm := by simp

theorem vm_removeZf (f : RFlags) : (f.remove ZF).vm = f.vm := by simp

theorem vm_removeIfTf (f : RFlags) :
    (f.remove (IF ||| TF)).vm = f.vm := by simp

@[simp] theorem vm_set (f : RFlags) (m : U32) (v : Bool)
    (hm : SparesVm m) : (f.set m v).vm = f.vm := by
  cases v <;> simp_all [set]

@[simp] theorem vm_setSzp {w : Nat} (f : RFlags) (v : BitVec w) :
    (f.setSzp v).vm = f.vm := by
  simp [setSzp]

@[simp] theorem vm_load (f : RFlags) (v : U64) (m : U32)
    (hm : SparesVm m) : (f.load v m).vm = f.vm := by
  simp_all [load, fromBitsTruncate, vm]

end RFlags

-- ======== the register file

-- Register numbers, general and segment.

namespace reg

abbrev RAX : U8 := 0
abbrev RCX : U8 := 1
abbrev RDX : U8 := 2
abbrev RBX : U8 := 3
abbrev RSP : U8 := 4
abbrev RBP : U8 := 5
abbrev RSI : U8 := 6
abbrev RDI : U8 := 7
abbrev R11 : U8 := 11
abbrev ES : U8 := 0
abbrev CS : U8 := 1
abbrev SS : U8 := 2
abbrev DS : U8 := 3
abbrev FS : U8 := 4
abbrev GS : U8 := 5

end reg

/-- A segment register: the visible selector and the descriptor cache
loaded with it. `attrs` holds the access byte in bits 0–7 and the flags
nibble (G, D/B, L, AVL) in bits 8–11. -/
structure SegReg where
  sel : U16
  base : U64
  limit : U32
  attrs : U16
deriving DecidableEq, Repr

/-- Present, writable data: the attributes a real-mode segment carries. -/
abbrev REAL_MODE_ATTRS : U16 := 0x0093

namespace SegReg

/-- A segment as a real-mode load leaves it: base from the selector, 64 KiB. -/
def real (sel : U16) : SegReg where
  sel := sel
  base := sel.setWidth 64 <<< 4
  limit := 0xFFFF
  attrs := REAL_MODE_ATTRS

/-- A cleared segment: null selector, not present. -/
def null (sel : U16) : SegReg :=
  { sel := sel, base := 0, limit := 0, attrs := 0 }

/-- The segment image virtual-8086 mode uses for every selector. -/
def v86 (sel : U16) : SegReg where
  sel := sel
  base := sel.setWidth 64 <<< 4
  limit := 0xFFFF
  attrs := 0x00F3

/-- The D/B bit: 32-bit operands and addresses. -/
def db (s : SegReg) : Bool := s.attrs &&& 0x0400 != 0

theorem db_eq_bit (s : SegReg) : s.db = s.attrs.getLsbD 10 := by
  have hmask : (0x0400 : U16) = BitVec.twoPow 16 10 := by decide
  rw [db, hmask, BitVec.and_twoPow]
  cases s.attrs.getLsbD 10 <;> decide

/-- The L bit: 64-bit code. -/
def l (s : SegReg) : Bool := s.attrs &&& 0x0200 != 0

/-- Descriptor privilege level. -/
def dpl (s : SegReg) : U8 := ((s.attrs >>> 5) &&& 3).setWidth 8

/-- Data that lies above its limit. -/
def expandDown (s : SegReg) : Bool :=
  s.attrs &&& 0x0018 == 0x0010 && s.attrs &&& 0x0004 != 0

end SegReg

/-- GDTR or IDTR. -/
structure DescTable where
  base : U64
  limit : U16
deriving DecidableEq, Repr

namespace cr0

/-- Protected mode. -/
abbrev PE : U64 := 0x1
abbrev MP : U64 := 0x2
abbrev EM : U64 := 0x4
/-- Task switched. -/
abbrev TS : U64 := 0x8
abbrev ET : U64 := 0x10
/-- Supervisor writes heed read-only pages. -/
abbrev WP : U64 := 0x10000
abbrev NW : U64 := 0x20000000
abbrev CD : U64 := 0x40000000
/-- Paging. -/
abbrev PG : U64 := 0x80000000

end cr0

namespace cr4

abbrev TSD : U64 := 0x4
/-- Pages of 4 MiB. -/
abbrev PSE : U64 := 0x10
/-- Entries of eight bytes. -/
abbrev PAE : U64 := 0x20
abbrev PCE : U64 := 0x100
/-- VME PVI TSD DE PSE PAE MCE PGE PCE OSFXSR OSXMMEXCPT. -/
abbrev SUPPORTED : U64 := 0x7FF

end cr4

namespace efer

/-- SYSCALL and SYSRET. -/
abbrev SCE : U64 := 0x1
/-- Long mode asked for. -/
abbrev LME : U64 := 0x100
/-- Long mode under way. -/
abbrev LMA : U64 := 0x400
/-- The no-execute bit. -/
abbrev NXE : U64 := 0x800
abbrev SUPPORTED : U64 := 0xD01

end efer

/-- The model-specific registers. -/
structure Msrs where
  efer : U64
  star : U64
  lstar : U64
  cstar : U64
  sfmask : U64
  kernelGsBase : U64
  tscAux : U32
  sysenterCs : U64
  sysenterEsp : U64
  sysenterEip : U64
  pat : U64
  apicBase : U64
deriving DecidableEq, Repr

/-- The model-specific registers after a reset. -/
def Msrs.new : Msrs where
  efer := 0
  star := 0
  lstar := 0
  cstar := 0
  sfmask := 0
  kernelGsBase := 0
  tscAux := 0
  sysenterCs := 0
  sysenterEsp := 0
  sysenterEip := 0
  pat := 0x0007040600070406
  apicBase := 0xFEE00900

/-- The registers a fault rewinds from the per-instruction snapshot
(`gpr`, `rip`) or leaves as the faulting instruction left them
(`rflags`, `cr2`). -/
structure HotRegs where
  gpr : U8 → U64
  rip : U64
  rflags : RFlags
  cr2 : U64

/-- The registers behind `prepare_cold_write`. -/
structure ColdRegs where
  seg : U8 → SegReg
  cr0 : U64
  cr3 : U64
  cr4 : U64
  cr8 : U64
  dr : U8 → U64
  msr : Msrs
  gdtr : DescTable
  idtr : DescTable
  ldtr : SegReg
  tr : SegReg

structure Registers extends HotRegs, ColdRegs

namespace Registers

/-- The power-on register file. -/
def new : Registers where
  gpr := fun _ => 0
  rip := 0xFFF0
  rflags := RFlags.empty
  cr2 := 0
  seg := upd (fun _ => SegReg.real 0) reg.CS
    { sel := 0xF000, base := 0xFFFF0000, limit := 0xFFFF, attrs := REAL_MODE_ATTRS }
  cr0 := cr0.CD ||| cr0.NW ||| cr0.ET
  cr3 := 0
  cr4 := 0
  cr8 := 0
  dr := fun _ => 0
  msr := Msrs.new
  gdtr := { base := 0, limit := 0xFFFF }
  idtr := { base := 0, limit := 0x03FF }
  ldtr := { sel := 0, base := 0, limit := 0xFFFF, attrs := 0x0082 }
  tr := { sel := 0, base := 0, limit := 0xFFFF, attrs := 0x008B }

end Registers

namespace HotRegs

/-- A register by its number, REX bit included. -/
def reg64 (r : HotRegs) (i : U8) : U64 := r.gpr (i &&& 15)

/-- Write all 64 bits. -/
def setReg64 (r : HotRegs) (i : U8) (v : U64) : HotRegs :=
  { r with gpr := upd r.gpr (i &&& 15) v }

/-- The low half. -/
def reg32 (r : HotRegs) (i : U8) : U32 := (r.gpr (i &&& 15)).setWidth 32

/-- A 32-bit write zero-extends into the full register. -/
def setReg32 (r : HotRegs) (i : U8) (v : U32) : HotRegs :=
  r.setReg64 i (v.setWidth 64)

/-- The low word. -/
def reg16 (r : HotRegs) (i : U8) : U16 := (r.gpr (i &&& 15)).setWidth 16

/-- Write the low word; the rest stays. -/
def setReg16 (r : HotRegs) (i : U8) (v : U16) : HotRegs :=
  r.setReg64 i ((r.gpr (i &&& 15) &&& ~~~0xFFFF) ||| v.setWidth 64)

/-- Without a REX prefix, numbers 4–7 name the second byte of the first
four registers. -/
def reg8 (r : HotRegs) (i : U8) (rex : Bool) : U8 :=
  if !rex && i &&& 0xC == 4 then (r.gpr (i &&& 3) >>> 8).setWidth 8
  else (r.gpr (i &&& 15)).setWidth 8

/-- Write a byte register: without REX, numbers 4 to 7 are AH to BH. -/
def setReg8 (r : HotRegs) (i : U8) (rex : Bool) (v : U8) : HotRegs :=
  if !rex && i &&& 0xC == 4 then
    let old := r.gpr (i &&& 3)
    let new := (old &&& ~~~(0xFF00 : U64)) ||| (v.setWidth 64 <<< 8)
    { r with gpr := upd r.gpr (i &&& 3) new }
  else r.setReg64 i ((r.gpr (i &&& 15) &&& ~~~0xFF) ||| v.setWidth 64)

@[simp] theorem rflags_setReg64 (r : HotRegs) (i : U8) (v : U64) :
    (r.setReg64 i v).rflags = r.rflags := rfl

@[simp] theorem rflags_setReg32 (r : HotRegs) (i : U8) (v : U32) :
    (r.setReg32 i v).rflags = r.rflags := rfl

@[simp] theorem rflags_setReg16 (r : HotRegs) (i : U8) (v : U16) :
    (r.setReg16 i v).rflags = r.rflags := rfl

@[simp] theorem rflags_setReg8 (r : HotRegs) (i : U8) (rex : Bool) (v : U8) :
    (r.setReg8 i rex v).rflags = r.rflags := by
  unfold setReg8
  split <;> rfl

end HotRegs

/-- The selector a segment-register number reads (`i % 6`). -/
def ColdRegs.segSel (r : ColdRegs) (i : U8) : U16 := (r.seg (i % 6)).sel

end Remu.X64
