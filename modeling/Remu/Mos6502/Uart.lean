/-
Memory-mapped devices, the address decoder in front of them and the 16550
UART.

A device sees offsets from the base of its window. The decoder goes through
the windows in the order they were mapped; an access that no window takes
goes to RAM. A device that takes input from its host has a `feed` beside the
two accesses of the bus.

`Uart16550 ω` sends to a sink ω that it knows nothing about. A run is a list
of what happens to it: accesses by the bus and bytes from the host. What is
pending is the queue's business; what the guest sees of it is `delivered`,
the bytes of the reads that were made while one was ready. One equation
carries the stream: what was pending and what was fed is what was delivered
and what is pending (`run_conserves`).
-/
import Remu.Lib.Lists
import Remu.Mos6502.Cpu

namespace Remu.Mos6502

/-- A memory-mapped peripheral. -/
class Device (δ : Type) where
  read : δ → U16 → U8 × δ
  write : δ → U16 → U8 → δ

/-- A device with a host behind it. -/
class Fed (δ : Type) where
  feed : δ → List U8 → δ

/-- A device of either kind. -/
instance {δ ε : Type} [Device δ] [Device ε] : Device (δ ⊕ ε) where
  read d offset :=
    match d with
    | .inl d => ((Device.read d offset).1, .inl (Device.read d offset).2)
    | .inr d => ((Device.read d offset).1, .inr (Device.read d offset).2)
  write d offset value :=
    match d with
    | .inl d => .inl (Device.write d offset value)
    | .inr d => .inr (Device.write d offset value)

instance {δ ε : Type} [Fed δ] [Fed ε] : Fed (δ ⊕ ε) where
  feed d bytes :=
    match d with
    | .inl d => .inl (Fed.feed d bytes)
    | .inr d => .inr (Fed.feed d bytes)

/-- What happens to a device. -/
inductive DeviceOp where
  | read (offset : U16)
  | write (offset : U16) (value : U8)
  | feed (bytes : List U8)
deriving DecidableEq, Repr

namespace DeviceOp

/-- One operation of the bus on a device. -/
def apply {δ : Type} [Device δ] [Fed δ] (d : δ) : DeviceOp → δ
  | .read offset => (Device.read d offset).2
  | .write offset value => Device.write d offset value
  | .feed bytes => Fed.feed d bytes

/-- A sequence of them. -/
def run {δ : Type} [Device δ] [Fed δ] (ops : List DeviceOp) (d : δ) : δ :=
  ops.foldl apply d

/-- The bytes an operation brings from the host. -/
def fed : DeviceOp → List U8
  | .read _ => []
  | .write _ _ => []
  | .feed bytes => bytes

end DeviceOp

/-- One device mapped at `start`, taking `len` addresses. -/
structure Mapping (δ : Type) where
  start : U16
  len : U16
  device : δ

/-- RAM with devices overlaid on it. -/
structure SystemBus (δ : Type) where
  ram : FlatMemory
  mappings : List (Mapping δ)

variable {δ : Type}

namespace Mapping

/-- The window takes the address; one below it wraps to an offset past its end. -/
def takes (addr : U16) (m : Mapping δ) : Bool :=
  decide (addr - m.start < m.len)

/-- An access to the device behind the window. -/
def access {α : Type} (f : δ → U16 → α × δ) (addr : U16) (m : Mapping δ) :
    α × Mapping δ :=
  ((f m.device (addr - m.start)).1,
    { m with device := (f m.device (addr - m.start)).2 })

end Mapping

namespace SystemBus

/-- A bus without devices. -/
def new : SystemBus δ := ⟨.new, []⟩

/-- Map a device; a window that is empty or ends past the top of the address
space panics. -/
def map (bus : SystemBus δ) (base len : U16) (device : δ) :
    Option (SystemBus δ) :=
  if 0 < len ∧ base.toNat + (len - 1).toNat < 2 ^ 16 then
    some { bus with mappings := bus.mappings ++ [⟨base, len, device⟩] }
  else none

/-- Hand an access to the first window that takes it. -/
def route {α : Type} (bus : SystemBus δ) (f : δ → U16 → α × δ) (addr : U16) :
    Option (α × SystemBus δ) :=
  (firstMatch (Mapping.takes addr) (Mapping.access f addr) bus.mappings).map
    fun p => (p.1, { bus with mappings := p.2 })

variable [Device δ]

/-- A read: the first device that has the address, else RAM. -/
def read (bus : SystemBus δ) (addr : U16) : U8 × SystemBus δ :=
  (bus.route Device.read addr).getD (bus.ram.read addr, bus)

/-- A write goes the same way. -/
def write (bus : SystemBus δ) (addr : U16) (value : U8) : SystemBus δ :=
  ((bus.route (fun d offset => ((), Device.write d offset value)) addr).map
    Prod.snd).getD
    { bus with ram := bus.ram.write addr value }

instance : Bus (SystemBus δ) where
  read := read
  write := write

end SystemBus

-- ======== the UART

/-- Where bytes are sent. Either call may fail, and nobody looks. -/
class Sink (ω : Type) where
  writeAll : ω → U8 → ω
  flush : ω → ω

/-- A sink that keeps what it is sent. -/
instance : Sink (List U8) where
  writeAll sent b := sent ++ [b]
  flush := id

structure Uart16550 (ω : Type) where
  tx : ω
  /-- Bytes from the host, the next one first. -/
  rx : List U8
  ier : U8
  lcr : U8
  mcr : U8
  scratch : U8
  /-- The divisor latch; it has no effect on timing. -/
  divisor : U8 × U8

namespace Uart16550

/-- Receiver buffer (read), transmitter holding register (write); with DLAB
set the low byte of the divisor latch. -/
abbrev RBR_THR : U16 := 0
/-- Interrupt enable; with DLAB set the high byte of the divisor latch. -/
abbrev IER : U16 := 1
/-- Interrupt identification, or FIFO control on a write. -/
abbrev IIR_FCR : U16 := 2
/-- Line control. -/
abbrev LCR : U16 := 3
/-- Modem control. -/
abbrev MCR : U16 := 4
/-- Line status. -/
abbrev LSR : U16 := 5
/-- Modem status. -/
abbrev MSR : U16 := 6
/-- Scratch. -/
abbrev SCR : U16 := 7

/-- A byte is waiting. -/
abbrev LSR_DATA_READY : U8 := 0x01
/-- A byte may be sent, always. -/
abbrev LSR_THR_EMPTY : U8 := 0x20
abbrev LSR_TX_IDLE : U8 := 0x40
/-- The divisor latch is in place of the data register. -/
abbrev LCR_DLAB : U8 := 0x80

variable {ω : Type}

/-- A UART that sends to `tx`. -/
def withOutput (tx : ω) : Uart16550 ω :=
  { tx, rx := [], ier := 0, lcr := 0, mcr := 0, scratch := 0, divisor := (0, 0) }

/-- Bytes from the host, behind those that wait. -/
def feed (u : Uart16550 ω) (bytes : List U8) : Uart16550 ω :=
  { u with rx := u.rx ++ bytes }

/-- Whether the divisor latch is in place. -/
def dlab (u : Uart16550 ω) : Bool := u.lcr &&& LCR_DLAB != 0

def read (u : Uart16550 ω) (offset : U16) : U8 × Uart16550 ω :=
  if offset = RBR_THR then
    if u.dlab then (u.divisor.1, u)
      else (u.rx.headD 0, { u with rx := u.rx.tail })
  else if offset = IER then (if u.dlab then u.divisor.2 else u.ier, u)
  -- No interrupt is ever pending.
  else if offset = IIR_FCR then (0x01, u)
  else if offset = LCR then (u.lcr, u)
  else if offset = MCR then (u.mcr, u)
  else if offset = LSR then
    let rxReady := if u.rx.isEmpty then 0 else LSR_DATA_READY
    (LSR_THR_EMPTY ||| LSR_TX_IDLE ||| rxReady, u)
  else if offset = MSR then (0, u)
  else if offset = SCR then (u.scratch, u)
  else (0, u)

/-- Send one byte. -/
def send [Sink ω] (tx : ω) (b : U8) : ω := Sink.flush (Sink.writeAll tx b)

def write [Sink ω] (u : Uart16550 ω) (offset : U16) (value : U8) :
    Uart16550 ω :=
  if offset = RBR_THR then
    if u.dlab then { u with divisor := (value, u.divisor.2) }
      else { u with tx := send u.tx value }
  else if offset = IER then
    if u.dlab then { u with divisor := (u.divisor.1, value) }
      else { u with ier := value }
  else if offset = LCR then { u with lcr := value }
  else if offset = MCR then { u with mcr := value }
  else if offset = SCR then { u with scratch := value }
  -- There are no FIFOs, and the status registers are read-only.
  else u

instance [Sink ω] : Device (Uart16550 ω) where
  read := read
  write := write

instance : Fed (Uart16550 ω) where
  feed := feed

-- ======== streams

/-- LSR reports a byte. -/
def ready (u : Uart16550 ω) : Bool := (u.read LSR).1 &&& LSR_DATA_READY != 0

/-- Data is ready while a byte waits. -/
theorem ready_eq (u : Uart16550 ω) : u.ready = !u.rx.isEmpty := by
  show ((LSR_THR_EMPTY ||| LSR_TX_IDLE ||| if u.rx.isEmpty then 0
    else LSR_DATA_READY) &&& LSR_DATA_READY != 0) = _
  cases u.rx.isEmpty <;> rfl

/-- The byte an RBR read delivers: DLAB is clear and one is ready. -/
def deliveredBy (u : Uart16550 ω) : DeviceOp → List U8
  | .read offset =>
    if offset = RBR_THR ∧ u.dlab = false
      ∧ u.ready = true then [(u.read offset).1] else []
  | .write _ _ => []
  | .feed _ => []

/-- The byte a THR write hands to the sink: DLAB is clear. -/
def sentBy (u : Uart16550 ω) : DeviceOp → List U8
  | .write offset value =>
    if offset = RBR_THR ∧ u.dlab = false then [value] else []
  | .read _ => []
  | .feed _ => []

variable [Sink ω]

/-- What `f` says of every operation of a run, in the state it met. -/
def along (f : Uart16550 ω → DeviceOp → List U8) (u : Uart16550 ω) :
    List DeviceOp → List U8
  | [] => []
  | op :: ops => f u op ++ along f (DeviceOp.apply u op) ops

/-- The bytes a run delivers. -/
def delivered : Uart16550 ω → List DeviceOp → List U8 := along deliveredBy

/-- The bytes a run hands to the sink. -/
def sent : Uart16550 ω → List DeviceOp → List U8 := along sentBy

omit [Sink ω] in
/-- Reading moves the queue at RBR only. -/
theorem rx_read (u : Uart16550 ω) (offset : U16) :
    (u.read offset).2.rx = if offset = RBR_THR
      ∧ u.dlab = false then u.rx.tail else u.rx := by
  rw [read]
  by_cases hrbr : offset = RBR_THR
  · rw [if_pos hrbr]
    cases hdlab : u.dlab with
    | true => rw [if_pos rfl, if_neg fun h => absurd h.2 (by decide)]
    | false => rw [if_neg Bool.false_ne_true, if_pos ⟨hrbr, rfl⟩]
  · have hother : ¬(offset = RBR_THR ∧ u.dlab = false) := fun h => hrbr h.1
    rw [if_neg hrbr, if_neg hother]
    repeat' split
    all_goals rfl

/-- A write does not touch what waits. -/
theorem rx_write (u : Uart16550 ω) (offset : U16) (value : U8) :
    (u.write offset value).rx = u.rx := by
  rw [write]
  repeat' split
  all_goals rfl

/-- What waited and came in is what was delivered and waits. -/
theorem apply_conserves (u : Uart16550 ω) (op : DeviceOp) :
    u.rx ++ op.fed = u.deliveredBy op ++ (DeviceOp.apply u op).rx := by
  cases op with
  | read offset =>
    have hrx : (DeviceOp.apply u (.read offset)).rx = (u.read offset).2.rx := rfl
    rw [hrx, rx_read, DeviceOp.fed, List.append_nil, deliveredBy, ready_eq]
    by_cases hrbr : offset = RBR_THR ∧ u.dlab = false
    · rw [if_pos hrbr, read, if_pos hrbr.1, hrbr.2, if_neg Bool.false_ne_true]
      cases u.rx with
      | nil => rw [if_neg fun h => absurd h.2.2 (by decide)]; rfl
      | cons b rx => rw [if_pos ⟨hrbr.1, rfl, rfl⟩]; rfl
    · rw [if_neg hrbr, if_neg fun h => hrbr ⟨h.1, h.2.1⟩, List.nil_append]
  | write offset value =>
    have hrx : (DeviceOp.apply u (.write offset value)).rx
      = (u.write offset value).rx := rfl
    rw [hrx, rx_write, DeviceOp.fed, List.append_nil, deliveredBy,
      List.nil_append]
  | feed bytes => rfl

/-- What was pending and fed is what was delivered and is pending. -/
theorem run_conserves (u : Uart16550 ω) (ops : List DeviceOp) :
    u.rx ++ ops.flatMap DeviceOp.fed
      = u.delivered ops ++ (DeviceOp.run ops u).rx := by
  induction ops generalizing u with
  | nil => exact List.append_nil _
  | cons op ops ih =>
    calc u.rx ++ (op :: ops).flatMap DeviceOp.fed
        = u.deliveredBy op
          ++ ((DeviceOp.apply u op).rx ++ ops.flatMap DeviceOp.fed) := by
          rw [List.flatMap_cons, ← List.append_assoc, apply_conserves,
            List.append_assoc]
      _ = u.delivered (op :: ops) ++ (DeviceOp.run (op :: ops) u).rx := by
          rw [ih, ← List.append_assoc]
          rfl

/-- The sink gets what is sent, one byte after another. -/
theorem tx_apply (u : Uart16550 ω) (op : DeviceOp) :
    (DeviceOp.apply u op).tx = (u.sentBy op).foldl send u.tx := by
  cases op with
  | read offset =>
    show (u.read offset).2.tx = _
    rw [read]
    repeat' split
    all_goals rfl
  | write offset value =>
    show (u.write offset value).tx = _
    rw [write, sentBy]
    by_cases hthr : offset = RBR_THR
    · rw [if_pos hthr]
      cases hdlab : u.dlab with
      | true => rw [if_pos rfl, if_neg fun h => absurd h.2 (by decide)]; rfl
      | false => rw [if_neg Bool.false_ne_true, if_pos ⟨hthr, rfl⟩]; rfl
    · have hother : ¬(offset = RBR_THR ∧ u.dlab = false) := fun h => hthr h.1
      rw [if_neg hthr, if_neg hother]
      repeat' split
      all_goals rfl
  | feed bytes => rfl

/-- What was sent, in order. -/
theorem tx_run (u : Uart16550 ω) (ops : List DeviceOp) :
    (DeviceOp.run ops u).tx = (u.sent ops).foldl send u.tx := by
  induction ops generalizing u with
  | nil => rfl
  | cons op ops ih =>
    calc (DeviceOp.run ops (DeviceOp.apply u op)).tx
        = ((DeviceOp.apply u op).sent ops).foldl send
          (DeviceOp.apply u op).tx := ih _
      _ = (u.sent (op :: ops)).foldl send u.tx := by
          rw [tx_apply, ← List.foldl_append]
          rfl

omit [Sink ω] in
/-- A read leaves the line control alone. -/
theorem lcr_read (u : Uart16550 ω) (offset : U16) :
    (u.read offset).2.lcr = u.lcr := by
  rw [read]
  repeat' split
  all_goals rfl

theorem lcr_write (u : Uart16550 ω) (offset : U16) (value : U8) :
    (u.write offset value).lcr = if offset = LCR then value else u.lcr := by
  rw [write]
  by_cases hlcr : offset = LCR
  · rw [hlcr]
    rfl
  · rw [if_neg hlcr, if_neg hlcr]
    repeat' split
    all_goals rfl

/-- A write that puts DLAB to `v`. -/
def PutsDlab (v : Bool) (op : DeviceOp) : Prop :=
  ∃ value, op = .write LCR value ∧ (value &&& LCR_DLAB != 0) = v

/-- Only a write to it changes the latch. -/
theorem dlab_write (u : Uart16550 ω) (value : U8) :
    (DeviceOp.apply u (.write LCR value)).dlab = (value &&& LCR_DLAB != 0) := rfl

/-- Nothing else moves DLAB. -/
theorem dlab_other (u : Uart16550 ω) {op : DeviceOp}
    (h : ∀ value, op ≠ .write LCR value) :
    (DeviceOp.apply u op).dlab = u.dlab := by
  cases op with
  | read offset => exact congrArg (· &&& LCR_DLAB != 0) (lcr_read u offset)
  | write offset value =>
    have hne : offset ≠ LCR := fun hlcr => h value (hlcr ▸ rfl)
    exact congrArg (· &&& LCR_DLAB != 0)
      ((lcr_write u offset value).trans (if_neg hne))
  | feed bytes => rfl

/-- DLAB is what LCR was last written to. -/
theorem dlab_run (tx : ω) (ops : List DeviceOp) :
    (DeviceOp.run ops (withOutput tx)).dlab = true
      ↔ Since (PutsDlab true) (PutsDlab false) ops := by
  induction ops using List.reverseRecOn with
  | nil =>
    have hclear : (withOutput tx).dlab = false :=
      show ((0 : U8) &&& LCR_DLAB != 0) = false by decide
    exact ⟨fun h => absurd (hclear.symm.trans h) Bool.false_ne_true,
      fun h => absurd h not_since_nil⟩
  | append_singleton ops op ih =>
    rw [since_concat, ← ih]
    have hrun : DeviceOp.run (ops ++ [op]) (withOutput tx)
      = DeviceOp.apply (DeviceOp.run ops (withOutput tx)) op :=
      List.foldl_concat ..
    rw [hrun]
    generalize DeviceOp.run ops (withOutput tx) = u
    by_cases hputs : ∃ value, op = .write LCR value
    · obtain ⟨value, rfl⟩ := hputs
      have hputs : ∀ v, PutsDlab v (.write LCR value)
        ↔ (value &&& LCR_DLAB != 0) = v := by
        intro v
        constructor
        · rintro ⟨value', h, hv⟩
          cases h
          exact hv
        · exact fun hv => ⟨value, rfl, hv⟩
      rw [dlab_write, hputs, hputs]
      cases value &&& LCR_DLAB != 0 <;> simp
    · have hnot : ∀ v,
        ¬PutsDlab v op := fun v hv => hputs (hv.imp fun _ h => h.1)
      rw [dlab_other u fun value h => hputs ⟨value, h⟩]
      simp [hnot]

/-- The stream law of a UART that was created with the sink `tx`. -/
structure StreamLaw (tx : ω) (ops : List DeviceOp) : Prop where
  dlab : (DeviceOp.run ops (withOutput tx)).dlab = true
    ↔ Since (PutsDlab true) (PutsDlab false) ops
  /-- Nothing is lost, doubled or out of order. -/
  order : (withOutput tx).delivered ops <+: ops.flatMap DeviceOp.fed
  ready : (DeviceOp.run ops (withOutput tx)).ready = true
    ↔ (withOutput tx).delivered ops ≠ ops.flatMap DeviceOp.fed
  sent : (DeviceOp.run ops (withOutput tx)).tx
    = ((withOutput tx).sent ops).foldl send tx

/-- The stream law of any run. -/
theorem streamLaw (tx : ω) (ops : List DeviceOp) : StreamLaw tx ops := by
  have hstream : ops.flatMap DeviceOp.fed
      = (withOutput tx).delivered ops
        ++ (DeviceOp.run ops (withOutput tx)).rx :=
        run_conserves (withOutput tx) ops
  refine ⟨dlab_run tx ops, ⟨_, hstream.symm⟩, ?_, tx_run _ ops⟩
  rw [ready_eq, hstream]
  cases (DeviceOp.run ops (withOutput tx)).rx <;> simp

end Uart16550

end Remu.Mos6502
