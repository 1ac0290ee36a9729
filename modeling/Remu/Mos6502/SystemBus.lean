/-
The address decoder over any run.

Windows that `map` accepted do not wrap, so an offset below a window's base
is past its end and the window takes exactly the addresses it spans. Where
no two windows overlap the order they were mapped in does not matter, and
the bus is its devices and its RAM side by side: each device goes through
the operations that are its own, at their offsets, and RAM keeps the last
value written to each address that no window spans. The law is about the
state after any operations (`BusLaw`); one operation is `mappings_apply`.
-/
import Remu.Lib.Regions
import Remu.Mos6502.Uart

namespace Remu.Mos6502

open Regions

variable {δ : Type}

-- ======== windows

namespace Mapping

/-- The window spans the address. -/
def Has (m : Mapping δ) (addr : U16) : Prop :=
  m.start.toNat ≤ addr.toNat ∧ addr.toNat < m.start.toNat + m.len.toNat

instance (m : Mapping δ) (addr : U16) : Decidable (m.Has addr) :=
  inferInstanceAs (Decidable (_ ∧ _))

/-- Where the window is. -/
def span (m : Mapping δ) : U16 × U16 := (m.start, m.len)

/-- A window that `map` accepts. -/
def Accepted (m : Mapping δ) : Prop :=
  0 < m.len ∧ m.start.toNat + (m.len - 1).toNat < 2 ^ 16

theorem takes_iff {m : Mapping δ} (h : m.Accepted) (addr : U16) :
    m.takes addr = true ↔ m.Has addr := by
  obtain ⟨hpos, hend⟩ := h
  rw [takes, decide_eq_true_iff, Has]
  bv_omega

end Mapping

-- ======== runs

/-- What happens on a bus: accesses, and input to the device mapped as
number `i`. -/
inductive BusOp where
  | read (addr : U16)
  | write (addr : U16) (value : U8)
  | feed (i : Nat) (bytes : List U8)
deriving DecidableEq, Repr

/-- What an operation is to the device of window `w`, mapped as number `i`. -/
def Mapping.routed (i : Nat) (w : Mapping δ) : BusOp → Option DeviceOp
  | .read addr => if w.Has addr then some (.read (addr - w.start)) else none
  | .write addr value =>
    if w.Has addr then some (.write (addr - w.start) value) else none
  | .feed j bytes => if j = i then some (.feed bytes) else none

/-- The value an operation writes to an address. -/
def BusOp.writes (addr : U16) : BusOp → Option U8
  | .read _ => none
  | .write a value => if a = addr then some value else none
  | .feed _ _ => none

namespace SystemBus

/-- Map devices in order. -/
def mapAll (ram : FlatMemory) (ws : List (Mapping δ)) : Option (SystemBus δ) :=
  ws.foldlM (fun bus w => bus.map w.start w.len w.device) ⟨ram, []⟩

theorem mapAll_from {ws : List (Mapping δ)} {bus bus' : SystemBus δ}
    (h : ws.foldlM (fun bus w => bus.map w.start w.len w.device)
      bus = some bus') :
    bus' = { bus with mappings := bus.mappings ++ ws } ∧ ∀ w ∈ ws,
    w.Accepted := by
  induction ws generalizing bus with
  | nil =>
    cases h
    exact ⟨by rw [List.append_nil], fun w hw => absurd hw List.not_mem_nil⟩
  | cons w ws ih =>
    rw [List.foldlM_cons] at h
    obtain ⟨mid, hmid, hrest⟩ := Option.bind_eq_some_iff.1 h
    rw [map] at hmid
    split at hmid
    · rename_i haccepted
      cases hmid
      obtain ⟨hbus, hall⟩ := ih hrest
      refine ⟨by rw [hbus, List.append_assoc]; rfl, fun v hv => ?_⟩
      rcases List.mem_cons.1 hv with rfl | hv
      · exact haccepted
      · exact hall v hv
    · cases hmid

/-- What `map` made: the windows as they were given, each of them accepted. -/
theorem mapAll_eq {ram : FlatMemory} {ws : List (Mapping δ)}
    {bus : SystemBus δ} (h : mapAll ram ws = some bus) :
    bus = ⟨ram, ws⟩ ∧ ∀ w ∈ ws, w.Accepted := mapAll_from h

variable [Device δ] [Fed δ]

def apply (bus : SystemBus δ) : BusOp → SystemBus δ
  | .read addr => (bus.read addr).2
  | .write addr value => bus.write addr value
  | .feed i bytes =>
    { bus with mappings := bus.mappings.modify i fun m => { m with
      device := Fed.feed m.device bytes } }

def run (bus : SystemBus δ) (ops : List BusOp) : SystemBus δ :=
  ops.foldl apply bus

-- ======== a step

section Route

omit [Device δ] [Fed δ]

/-- The windows are accepted and lie apart. -/
structure Sound (bus : SystemBus δ) : Prop where
  accepted : ∀ m ∈ bus.mappings, m.Accepted
  apart : Apart Mapping.Has bus.mappings

variable {bus : SystemBus δ} {α : Type} (f : δ → U16 → α × δ) {addr : U16}

/-- An access reaches the window that spans the address. -/
theorem Sound.route (h : bus.Sound) {m : Mapping δ} (hm : m ∈ bus.mappings)
    (hhas : m.Has addr) :
    bus.route f addr = some ((f m.device (addr - m.start)).1,
      { bus with
        mappings := bus.mappings.map fun m => if m.Has addr
          then (m.access f addr).2 else m }) := by
  have htakes : ∀ m ∈ bus.mappings, m.takes addr = true ↔ m.Has addr :=
    fun m hm => Mapping.takes_iff (h.accepted m hm) addr
  have hapart : bus.mappings.Pairwise fun m m' => m.takes addr = true →
    ¬m'.takes addr = true := by
    refine List.Pairwise.imp_of_mem ?_ h.apart
    intro m m' hm hm' hne ht ht'
    exact hne addr ((htakes m hm).1 ht) ((htakes m' hm').1 ht')
  have hmap : (bus.mappings.map fun m => if m.takes addr then (m.access f addr).2 else m)
      = bus.mappings.map fun m => if m.Has addr
        then (m.access f addr).2 else m :=
    List.map_congr_left fun m hm => if_congr (htakes m hm) rfl rfl
  rw [SystemBus.route, firstMatch_apart hapart hm ((htakes m hm).2 hhas), hmap]
  rfl

/-- An access that no window spans reaches none. -/
theorem Sound.route_none (h : bus.Sound)
    (hfree : ¬Covered Mapping.Has bus.mappings addr) :
    bus.route f addr = none := by
  have hnone : ∀ m ∈ bus.mappings, m.takes addr = false := by
    intro m hm
    rw [Bool.eq_false_iff, ne_eq, Mapping.takes_iff (h.accepted m hm)]
    exact fun hhas => hfree ⟨m, hm, hhas⟩
  rw [SystemBus.route, firstMatch_none hnone]
  rfl

end Route

variable {bus : SystemBus δ}

/-- The windows after an access that is to each device what `op` is. -/
theorem Sound.mappings_route (h : bus.Sound) {α : Type} {f : δ → U16 → α × δ}
    {addr : U16} {op : BusOp} {i : Nat} (hdone : ∀ w : Mapping δ, w.Has addr →
      (f w.device (addr - w.start)).2
        = DeviceOp.run (w.routed i op).toList w.device)
    (hidle : ∀ w : Mapping δ, ¬w.Has addr → w.routed i op = none) :
    (((bus.route f addr).map fun p => p.2.mappings).getD bus.mappings)[i]?
      = bus.mappings[i]?.map fun m =>
        { m with device := DeviceOp.run (m.routed i op).toList m.device } := by
  have hleft : ∀ w : Mapping δ, ¬w.Has addr →
      { w with device := DeviceOp.run (w.routed i op).toList w.device } = w := by
    intro w hw
    rw [hidle w hw]
    rfl
  by_cases hcov : Covered Mapping.Has bus.mappings addr
  · obtain ⟨m, hm, hhas⟩ := hcov
    rw [h.route f hm hhas, Option.map_some, Option.getD_some,
      List.getElem?_map]
    refine Option.map_congr fun w _ => ?_
    by_cases hw : w.Has addr
    · rw [if_pos hw, ← hdone w hw]
      rfl
    · rw [if_neg hw, hleft w hw]
  · rw [h.route_none f hcov, Option.map_none, Option.getD_none]
    symm
    refine (Option.map_congr fun w hw => ?_).trans (congrFun Option.map_id _)
    exact hleft w fun hhas => hcov ⟨w, List.mem_of_getElem? hw, hhas⟩

/-- The windows after an operation, each device having done its part. -/
theorem Sound.mappings_apply (h : bus.Sound) (op : BusOp) (i : Nat) :
    (bus.apply op).mappings[i]?
    = bus.mappings[i]?.map fun m =>
      { m with device := DeviceOp.run (m.routed i op).toList m.device } := by
  cases op with
  | read addr =>
    have hback : (bus.read addr).2.mappings
        = ((bus.route Device.read addr).map fun p => p.2.mappings).getD
          bus.mappings := by
      rw [read]
      cases bus.route Device.read addr <;> rfl
    rw [apply, hback]
    refine h.mappings_route (fun w hw => ?_) fun w hw => if_neg hw
    rw [Mapping.routed, if_pos hw]
    rfl
  | write addr value =>
    have hback : (bus.write addr value).mappings
        = ((bus.route (fun d offset => ((), Device.write d offset value))
        addr).map fun p => p.2.mappings).getD bus.mappings := by
      rw [write]
      cases bus.route (fun d offset => ((), Device.write d offset value)) addr <;> rfl
    rw [apply, hback]
    refine h.mappings_route (fun w hw => ?_) fun w hw => if_neg hw
    rw [Mapping.routed, if_pos hw]
    rfl
  | feed j bytes =>
    rw [apply, List.getElem?_modify]
    show Option.map _ _ = _
    refine Option.map_congr fun w _ => ?_
    rw [Mapping.routed]
    by_cases hj : j = i
    · rw [if_pos hj, if_pos hj]
      rfl
    · rw [if_neg hj, if_neg hj]
      rfl

/-- Windows stay where they are. -/
theorem Sound.spans_apply (h : bus.Sound) (op : BusOp) :
    (bus.apply op).mappings.map Mapping.span
      = bus.mappings.map Mapping.span := by
  refine List.ext_getElem? fun i => ?_
  rw [List.getElem?_map, List.getElem?_map, h.mappings_apply, Option.map_map]
  rfl

omit [Fed δ] in
/-- Reading leaves RAM alone. -/
theorem ram_read (addr : U16) : (bus.read addr).2.ram = bus.ram := by
  rw [read, route]
  cases firstMatch _ _ bus.mappings <;> rfl

omit [Fed δ] in
/-- A write gets to RAM where no window is. -/
theorem Sound.ram_write (h : bus.Sound) (addr : U16) (value : U8) :
    (Covered Mapping.Has bus.mappings addr →
      (bus.write addr value).ram = bus.ram)
      ∧ (¬Covered Mapping.Has bus.mappings addr →
        (bus.write addr value).ram = bus.ram.write addr value) := by
  constructor
  · rintro ⟨m, hm, hhas⟩
    rw [write, h.route _ hm hhas]
    rfl
  · intro hfree
    rw [write, h.route_none _ hfree]
    rfl

/-- RAM that a window hides is left alone. -/
theorem Sound.ram_covered (h : bus.Sound) (op : BusOp) {addr : U16}
    (hcov : Covered Mapping.Has bus.mappings addr) :
    (bus.apply op).ram.read addr = bus.ram.read addr := by
  cases op with
  | read a => exact congrArg (FlatMemory.read · addr) (ram_read a)
  | write a value =>
    by_cases ha : Covered Mapping.Has bus.mappings a
    · exact congrArg (FlatMemory.read · addr) ((h.ram_write a value).1 ha)
    · have hne : addr ≠ a := fun heq => ha (heq ▸ hcov)
      exact (congrArg (FlatMemory.read · addr)
        ((h.ram_write a value).2 ha)).trans (upd_other _ _ hne)
  | feed i bytes => rfl

/-- RAM elsewhere keeps what is written. -/
theorem Sound.ram_free (h : bus.Sound) (op : BusOp) {addr : U16}
    (hfree : ¬Covered Mapping.Has bus.mappings addr) :
    (bus.apply op).ram.read addr
      = (op.writes addr).getD (bus.ram.read addr) := by
  cases op with
  | read a => exact congrArg (FlatMemory.read · addr) (ram_read a)
  | write a value =>
    rw [BusOp.writes]
    by_cases ha : a = addr
    · rw [if_pos ha, ha]
      exact (congrArg (FlatMemory.read · addr)
        ((h.ram_write addr value).2 hfree)).trans (upd_same ..)
    · rw [if_neg ha]
      by_cases hcov : Covered Mapping.Has bus.mappings a
      · exact congrArg (FlatMemory.read · addr) ((h.ram_write a value).1 hcov)
      · exact (congrArg (FlatMemory.read · addr)
          ((h.ram_write a value).2 hcov)).trans (upd_other _ _ (Ne.symm ha))
  | feed i bytes => rfl

-- ======== a run

omit [Device δ] [Fed δ] in
theorem has_spans {bus' : SystemBus δ}
    (hspans : bus'.mappings.map Mapping.span = bus.mappings.map Mapping.span)
    {m' : Mapping δ} (hm' : m' ∈ bus'.mappings) :
    ∃ m ∈ bus.mappings, m.span = m'.span := by
  have hspan : m'.span ∈ bus'.mappings.map Mapping.span :=
    List.mem_map_of_mem hm'
  rw [hspans] at hspan
  exact List.mem_map.1 hspan

omit [Device δ] [Fed δ] in
/-- Whether windows are sound is about where they are. -/
theorem Sound.of_spans {bus' : SystemBus δ} (h : bus.Sound)
    (hspans : bus'.mappings.map Mapping.span = bus.mappings.map Mapping.span) :
    bus'.Sound := by
  constructor
  · intro m' hm'
    obtain ⟨m, hm, hspan⟩ := has_spans hspans hm'
    have haccepted : 0 < m.span.2
      ∧ m.span.1.toNat + (m.span.2 - 1).toNat < 2 ^ 16 := h.accepted m hm
    rw [hspan] at haccepted
    exact haccepted
  · have hpairs :
        (bus.mappings.map Mapping.span).Pairwise fun p q => ∀ addr : U16,
        (p.1.toNat ≤ addr.toNat ∧ addr.toNat < p.1.toNat + p.2.toNat) →
          ¬(q.1.toNat ≤ addr.toNat ∧ addr.toNat < q.1.toNat + q.2.toNat) :=
            List.pairwise_map.2 h.apart
    rw [← hspans] at hpairs
    exact List.pairwise_map.1 hpairs

omit [Device δ] [Fed δ] in
theorem covered_spans {bus' : SystemBus δ}
    (hspans : bus'.mappings.map Mapping.span = bus.mappings.map Mapping.span)
    {addr : U16}
    (h : Covered Mapping.Has bus'.mappings addr) :
    Covered Mapping.Has bus.mappings addr := by
  obtain ⟨m', hm', hhas⟩ := h
  obtain ⟨m, hm, hspan⟩ := has_spans hspans hm'
  have hhas' : m'.span.1.toNat ≤ addr.toNat
    ∧ addr.toNat < m'.span.1.toNat + m'.span.2.toNat := hhas
  rw [← hspan] at hhas'
  exact ⟨m, hm, hhas'⟩

theorem Sound.apply (h : bus.Sound) (op : BusOp) : (bus.apply op).Sound :=
  h.of_spans (h.spans_apply op)

theorem Sound.spans_run (h : bus.Sound) (ops : List BusOp) :
    (bus.run ops).mappings.map Mapping.span
      = bus.mappings.map Mapping.span := by
  induction ops generalizing bus with
  | nil => rfl
  | cons op ops ih => exact (ih (h.apply op)).trans (h.spans_apply op)

/-- Each device goes through the operations that are its own. -/
theorem Sound.mappings_run (h : bus.Sound) (ops : List BusOp) (i : Nat) :
    (bus.run ops).mappings[i]?
    = bus.mappings[i]?.map fun m => { m with
      device := DeviceOp.run (ops.filterMap (m.routed i)) m.device } := by
  induction ops generalizing bus with
  | nil => exact (congrFun Option.map_id _).symm
  | cons op ops ih =>
    have hrun : bus.run (op :: ops) = (bus.apply op).run ops := rfl
    rw [hrun, ih (h.apply op), h.mappings_apply, Option.map_map]
    refine Option.map_congr fun m _ => ?_
    have hdevice :
        DeviceOp.run (ops.filterMap (m.routed i))
        (DeviceOp.run (m.routed i op).toList m.device)
        = DeviceOp.run ((op :: ops).filterMap (m.routed i)) m.device := by
      rw [List.filterMap_cons]
      cases m.routed i op <;> rfl
    rw [← hdevice]
    rfl

/-- RAM that no window hides holds the last value written to it. -/
theorem Sound.ram_run_free (h : bus.Sound) (ops : List BusOp) {addr : U16}
    (hfree : ¬Covered Mapping.Has bus.mappings addr) :
    (bus.run ops).ram.read addr
      = (ops.filterMap (BusOp.writes addr)).getLast?.getD
        (bus.ram.read addr) := by
  induction ops generalizing bus with
  | nil => rfl
  | cons op ops ih =>
    have hrun : bus.run (op :: ops) = (bus.apply op).run ops := rfl
    have hfree' : ¬Covered Mapping.Has (bus.apply op).mappings addr :=
      fun hcov => hfree (covered_spans (h.spans_apply op) hcov)
    rw [hrun, ih (h.apply op) hfree', h.ram_free op hfree, List.filterMap_cons]
    cases op.writes addr with
    | none => rfl
    | some value => rw [List.getLast?_cons, Option.getD_some, Option.getD_some]

theorem Sound.ram_run_covered (h : bus.Sound) (ops : List BusOp) {addr : U16}
    (hcov : Covered Mapping.Has bus.mappings addr) :
    (bus.run ops).ram.read addr = bus.ram.read addr := by
  induction ops generalizing bus with
  | nil => rfl
  | cons op ops ih =>
    have hcov' : Covered Mapping.Has (bus.apply op).mappings addr :=
      covered_spans (h.spans_apply op).symm hcov
    exact (ih (h.apply op) hcov').trans (h.ram_covered op hcov)

end SystemBus

/-- What a bus with the windows `ws` over `ram` is after the operations
`ops`: its devices and its RAM, side by side. -/
structure BusLaw [Device δ] [Fed δ] (ram : FlatMemory)
    (ws : List (Mapping δ)) (ops : List BusOp) (bus : SystemBus δ) : Prop where
  devices : ∀ i : Nat, bus.mappings[i]?
    = ws[i]?.map fun w =>
      { w with device := DeviceOp.run (ops.filterMap (w.routed i)) w.device }
  /-- A read that a window spans is answered by its device, at the offset. -/
  readDevice : ∀ (i : Nat) (w : Mapping δ) (addr : U16),
    ws[i]? = some w → w.Has addr → (bus.read addr).1
    = (Device.read (DeviceOp.run (ops.filterMap (w.routed i)) w.device)
      (addr - w.start)).1
  /-- Any other is answered by RAM. -/
  readRam : ∀ addr, ¬Covered Mapping.Has ws addr →
    (bus.read addr).1
      = (ops.filterMap (BusOp.writes addr)).getLast?.getD (ram.read addr)
  /-- Nothing gets to RAM that a window hides. -/
  hidden : ∀ addr, Covered Mapping.Has ws addr →
    bus.ram.read addr = ram.read addr

namespace SystemBus

variable [Device δ] [Fed δ]

theorem busLaw {ram : FlatMemory} {ws : List (Mapping δ)}
    (h : (⟨ram, ws⟩ : SystemBus δ).Sound)
    (ops : List BusOp) : BusLaw ram ws ops (run ⟨ram, ws⟩ ops) := by
  have hspans := h.spans_run ops
  have hsound := h.of_spans hspans
  refine ⟨h.mappings_run ops, fun i w addr hw hhas => ?_, fun addr hfree => ?_,
    fun addr => h.ram_run_covered ops⟩
  · have hafter := h.mappings_run ops i
    rw [hw, Option.map_some] at hafter
    rw [read, hsound.route Device.read (List.mem_of_getElem? hafter) hhas]
    rfl
  · have hfree' : ¬Covered Mapping.Has (run ⟨ram, ws⟩ ops).mappings addr :=
      fun hcov => hfree (covered_spans hspans hcov)
    rw [read, hsound.route_none _ hfree']
    exact h.ram_run_free ops hfree

end SystemBus

-- ======== a mapped UART

section Console

variable {ω ε : Type} [Sink ω] [Device ε] [Fed ε]

theorem run_inl (ops : List DeviceOp) (u : Uart16550 ω) :
    DeviceOp.run ops (.inl u : Uart16550 ω ⊕ ε)
      = .inl (DeviceOp.run ops u) := by
  induction ops generalizing u with
  | nil => rfl
  | cons op ops ih =>
    have happly : DeviceOp.apply (.inl u : Uart16550 ω ⊕ ε) op
      = .inl (DeviceOp.apply u op) := by
      cases op <;> rfl
    have hrun : DeviceOp.run (op :: ops) (.inl u : Uart16550 ω ⊕ ε)
        = DeviceOp.run ops (DeviceOp.apply (.inl u : Uart16550 ω ⊕ ε) op) := rfl
    rw [hrun, happly, ih]
    rfl

/-- Whatever windows `map` accepted, apart from each other, and whatever
happens on the bus: the accesses are decoded, and every UART among the
devices, whatever happened to it before it was mapped, keeps its stream. -/
theorem system_bus (ram : FlatMemory) (ws : List (Mapping (Uart16550 ω ⊕ ε)))
    (bus : SystemBus (Uart16550 ω ⊕ ε))
    (hmap : SystemBus.mapAll ram ws = some bus)
    (hapart : Apart Mapping.Has ws) (ops : List BusOp) :
    BusLaw ram ws ops (bus.run ops)
      ∧ ∀ (i : Nat) (w : Mapping (Uart16550 ω ⊕ ε)) (tx : ω)
        (before : List DeviceOp),
        ws[i]? = some w →
          w.device = .inl (DeviceOp.run before (Uart16550.withOutput tx)) →
        (bus.run ops).mappings[i]? = some { w with
            device := .inl
              (DeviceOp.run (before ++ ops.filterMap (w.routed i))
              (Uart16550.withOutput tx)) }
          ∧ Uart16550.StreamLaw tx (before ++ ops.filterMap (w.routed i)) := by
  obtain ⟨hbus, haccepted⟩ := SystemBus.mapAll_eq hmap
  subst hbus
  have hsound : (⟨ram, ws⟩ : SystemBus (Uart16550 ω ⊕ ε)).Sound :=
    ⟨haccepted, hapart⟩
  have hlaw := SystemBus.busLaw hsound ops
  refine ⟨hlaw, fun i w tx before hw huart => ⟨?_, Uart16550.streamLaw tx _⟩⟩
  rw [hlaw.devices i, hw, Option.map_some, huart, run_inl, DeviceOp.run,
    DeviceOp.run, ← List.foldl_append]
  rfl

/-- Two UARTs, one of them at the top of the address space. -/
def consoles : List (Mapping (Uart16550 (List U8) ⊕ Uart16550 (List U8))) :=
  [⟨0x8000, 8, .inl (Uart16550.withOutput [])⟩,
    ⟨0xFFF8, 8, .inl (Uart16550.withOutput [])⟩]

/-- Input for the one on top, a read of it, and a byte sent by the other. -/
def echo : List BusOp :=
  [.feed 1 [0x41, 0x42], .read 0xFFF8, .write 0x8000 0x41]

theorem system_bus_echo :
    SystemBus.mapAll .new consoles = some ⟨.new, consoles⟩
    ∧ BusLaw .new consoles echo ((⟨.new, consoles⟩ : SystemBus _).run echo)
    ∧ Uart16550.StreamLaw ([] : List U8) [.feed [0x41, 0x42], .read 0]
    ∧ Uart16550.StreamLaw ([] : List U8) [.write 0 0x41] := by
  have hmap : SystemBus.mapAll .new consoles = some ⟨.new, consoles⟩ := rfl
  have hapart : Apart Mapping.Has consoles := by
    simp only [consoles, Apart, List.pairwise_cons, List.mem_singleton,
      List.not_mem_nil, forall_eq, Mapping.Has]
    refine ⟨fun addr hlow hhigh => ?_, by simp⟩
    have hbelow : addr.toNat < 0x8008 := hlow.2
    have habove : 0xFFF8 ≤ addr.toNat := hhigh.1
    omega
  have hbus := system_bus .new consoles _ hmap hapart echo
  exact ⟨hmap, hbus.1, (hbus.2 1 _ [] [] rfl rfl).2,
    (hbus.2 0 _ [] [] rfl rfl).2⟩

end Console

end Remu.Mos6502
