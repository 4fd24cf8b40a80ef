/- digest: The address-mapped memory fabric with independent read and write channels. -/

import Mathlib.Logic.Function.Basic
import NpSim.Defines

set_option autoImplicit false
set_option relaxedAutoImplicit false

namespace NpSim.Mem

open NpSim.Lib.Partial

/-- The RAM devices behind the arbiter. `latencyImpl` is the virtual latency function of device
`did`; its state is joint because devices may share a timing model. -/
structure RamDevices where
  State : Type
  count : Nat
  latencyImpl : State → (did : Nat) → MemTrans → (now : Nat) → Nat × State
  resetStats : State → State
  init : State

/-- Counters of one `RamDevice`. -/
structure RamDeviceStats where
  accesses : Nat := 0
  reads : Nat := 0
  writes : Nat := 0
  totalLatCyc : Nat := 0
  deriving DecidableEq, Repr

structure AddrMapEntry where
  lo : Addr
  hi : Addr
  deviceId : Nat
  deriving DecidableEq, Repr

def AddrMapEntry.contains (e : AddrMapEntry) (addr : Addr) : Bool :=
  e.lo ≤ addr && addr ≤ e.hi

/-- The constructor arguments of `RAMArbiter`. -/
structure ArbiterConfig where
  hosts : Nat
  devices : RamDevices
  addrMap : List AddrMapEntry
  defaultDevice : Nat

/-- One memory of latency `lat` behind every address. -/
def ArbiterConfig.flat (hosts lat : Nat) : ArbiterConfig where
  hosts := hosts
  devices :=
    { State := Unit
      count := 1
      latencyImpl := fun _ _ _ _ => (lat, ())
      resetStats := id
      init := () }
  addrMap := []
  defaultDevice := 0

/-- `device_of`: the first map entry containing the address decides. -/
def ArbiterConfig.deviceOf (K : ArbiterConfig) (addr : Addr) : Nat :=
  match K.addrMap.find? (·.contains addr) with
  | some e => e.deviceId
  | none => K.defaultDevice

/-- `(uint16_t)-1`: no host is being served. -/
abbrev noHost : Nat := 0xffff

/-- One channel: `r_busy_until_`, `r_serving_id_` and the first components of `reqs_` for reads,
`w_busy_until_`, `w_serving_id_` and the second components for writes. -/
structure Channel where
  servingId : Nat := noHost
  busyUntil : Tick := infTime
  reqs : Nat → Option MemTrans := fun _ => none

/-- History of the fabric, in order of occurrence: a request is accepted; its latency `lat` is
computed at tick `now`, for a service from tick `begin` on, with the ids pending at that moment;
it is answered; or the counters are reset. -/
inductive Event
  | accept (req : MemTrans) (now : Nat)
  | start (req : MemTrans) (now begin lat : Nat) (pending : List Nat)
  | answer (host : Nat) (req : MemTrans) (now : Nat)
  | reset
  deriving DecidableEq, Repr

structure RAMArbiter (K : ArbiterConfig) where
  chan : MemRWOpt → Channel := fun _ => {}
  hostRd : Nat → Nat := fun _ => 0
  hostWr : Nat → Nat := fun _ => 0
  hostDev : Nat → Nat → Nat := fun _ _ => 0
  devs : K.devices.State := K.devices.init
  devStats : Nat → RamDeviceStats := fun _ => {}
  /-- ghost: everything that happened so far -/
  hist : List Event := []

namespace RAMArbiter

variable {K : ArbiterConfig}

def setChan (m : RAMArbiter K) (op : MemRWOpt) (c : Channel) : RAMArbiter K :=
  { m with chan := Function.update m.chan op c }

/-- The hosts with a request in the slots of channel `op`, in increasing order. -/
def pending (m : RAMArbiter K) (op : MemRWOpt) : List Nat :=
  (List.range K.hosts).filter fun h => ((m.chan op).reqs h).isSome

/-- `RamDevice::access` on device `did`. -/
def deviceAccess (now did : Nat) (req : MemTrans) (m : RAMArbiter K) : Nat × RAMArbiter K :=
  let (lat, devs) := K.devices.latencyImpl m.devs did req now
  let s := m.devStats did
  let s := { s with
    accesses := s.accesses + 1
    reads := if req.mop = .read then s.reads + 1 else s.reads
    writes := if req.mop = .read then s.writes else s.writes + 1
    totalLatCyc := s.totalLatCyc + lat }
  (lat, { m with devs := devs, devStats := Function.update m.devStats did s })

def latOf (now : Nat) (req : MemTrans) (m : RAMArbiter K) :
    Except Fault (Nat × RAMArbiter K) := do
  let h := req.id
  require (h < K.hosts) .hostRange
  let did := K.deviceOf req.addr
  require (did < K.devices.count) .deviceRange
  let m :=
    if req.mop = .read then { m with hostRd := Function.update m.hostRd h (m.hostRd h + 1) }
    else { m with hostWr := Function.update m.hostWr h (m.hostWr h + 1) }
  let m := { m with
    hostDev := Function.update m.hostDev h
      (Function.update (m.hostDev h) did (m.hostDev h did + 1)) }
  .ok (m.deviceAccess now did req)

/-- Give channel `op` to `req`: its latency is computed now and the channel is busy until
`start` plus that latency. -/
def serve (now start : Nat) (op : MemRWOpt) (req : MemTrans) (m : RAMArbiter K) :
    Except Fault (RAMArbiter K) := do
  let pend := m.pending op
  let (lat, m) ← m.latOf now req
  let c := m.chan op
  let m := m.setChan op
    { servingId := req.id
      busyUntil := ((start + lat : Nat) : Tick)
      reqs := Function.update c.reqs req.id (some { req with lat := lat }) }
  .ok { m with hist := m.hist ++ [.start req now start lat pend] }

def recvReq (now : Nat) (req : MemTrans) (m : RAMArbiter K) : Except Fault (RAMArbiter K) := do
  let op := req.mop
  require (req.id < K.hosts) .hostRange
  let c := m.chan op
  require (c.reqs req.id = none) .slotOccupied
  let m := m.setChan op { c with reqs := Function.update c.reqs req.id (some req) }
  let m := { m with hist := m.hist ++ [.accept req now] }
  if c.busyUntil = infTime then m.serve now now op req else .ok m

/-- The host with the highest id among those with a pending request on channel `op`: the
`rbegin`-to-`rend` search of `update_impl`. -/
def pickNext (m : RAMArbiter K) (op : MemRWOpt) : Option Nat :=
  (List.range K.hosts).reverse.find? fun h => ((m.chan op).reqs h).isSome

variable {σ : Type}

/-- The completion half of `update_impl` for channel `op`. `recv` is the host's
`recv_mem_resp`, which may call `recv_req` on this arbiter before the channel is freed. -/
def completeChannel (now : Nat) (op : MemRWOpt)
    (recv : Nat → MemTrans → σ × RAMArbiter K → Except Fault (σ × RAMArbiter K))
    (s : σ × RAMArbiter K) : Except Fault (σ × RAMArbiter K) :=
  let m := s.2
  let c := m.chan op
  if c.busyUntil ≤ now ∧ c.servingId ≠ noHost then do
    let respId := c.servingId
    require (respId < K.hosts) .hostRange
    match c.reqs respId with
    | none => .error .nullSlot
    | some rd => do
      let m := m.setChan op { c with reqs := Function.update c.reqs respId none }
      let m := { m with hist := m.hist ++ [.answer respId rd now] }
      let (e, m) ← recv respId { rd with dir := .resp } (s.1, m)
      let m := m.setChan op { m.chan op with busyUntil := infTime, servingId := noHost }
      match m.pickNext op with
      | none => .ok (e, m)
      | some h =>
        match (m.chan op).reqs h with
        | none => .ok (e, m)
        | some req => do
          let m ← m.serve now (now + 1) op req
          .ok (e, m)
  else .ok s

/-- `update_impl`: read completion, then write completion. -/
def updateImpl (now : Nat)
    (recv : Nat → MemTrans → σ × RAMArbiter K → Except Fault (σ × RAMArbiter K))
    (s : σ × RAMArbiter K) : Except Fault (σ × RAMArbiter K) := do
  let s ← completeChannel now .read recv s
  completeChannel now .write recv s

def nextUpdate (m : RAMArbiter K) : Tick :=
  min (m.chan .read).busyUntil (m.chan .write).busyUntil

def doUpdate (now : Nat)
    (recv : Nat → MemTrans → σ × RAMArbiter K → Except Fault (σ × RAMArbiter K))
    (s : σ × RAMArbiter K) : Except Fault (σ × RAMArbiter K) :=
  if s.2.nextUpdate ≤ now then updateImpl now recv s else .ok s

def resetStats (m : RAMArbiter K) : RAMArbiter K :=
  { m with
    hostRd := fun _ => 0
    hostWr := fun _ => 0
    hostDev := fun _ _ => 0
    devs := K.devices.resetStats m.devs
    devStats := fun _ => {}
    hist := m.hist ++ [.reset] }

/-- What the hosts do during a completion, they do inside their `recv_mem_resp`. -/
theorem completeChannel_host {now : Nat} {op : MemRWOpt}
    {recv : Nat → MemTrans → σ × RAMArbiter K → Except Fault (σ × RAMArbiter K)}
    {R : σ → σ → Prop} (refl : ∀ e, R e e)
    (hrecv : ∀ h m e d r, recv h m (e, d) = .ok r → R e r.1) {s t : σ × RAMArbiter K}
    (h : completeChannel now op recv s = .ok t) : R s.1 t.1 := by
  unfold completeChannel at h
  dsimp only at h
  split at h
  · obtain ⟨_, h⟩ := require_bind_eq_ok.mp h
    split at h
    · cases h
    · obtain ⟨r, hr, h⟩ := bind_eq_ok.mp h
      have hR := hrecv _ _ _ _ _ hr
      split at h
      · cases h
        exact hR
      · split at h
        · cases h
          exact hR
        · obtain ⟨_, _, h⟩ := bind_eq_ok.mp h
          cases h
          exact hR
  · cases h
    exact refl s.1

theorem doUpdate_host {now : Nat}
    {recv : Nat → MemTrans → σ × RAMArbiter K → Except Fault (σ × RAMArbiter K)}
    {R : σ → σ → Prop} (refl : ∀ e, R e e) (trans : ∀ a b d, R a b → R b d → R a d)
    (hrecv : ∀ h m e d r, recv h m (e, d) = .ok r → R e r.1) {s t : σ × RAMArbiter K}
    (h : doUpdate now recv s = .ok t) : R s.1 t.1 := by
  unfold doUpdate at h
  split at h
  · unfold updateImpl at h
    obtain ⟨r, hr, h⟩ := bind_eq_ok.mp h
    exact trans _ _ _ (completeChannel_host refl hrecv hr) (completeChannel_host refl hrecv h)
  · cases h
    exact refl s.1

end RAMArbiter

end NpSim.Mem
