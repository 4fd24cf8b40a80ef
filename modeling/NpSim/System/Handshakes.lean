/- digest: No call of the main loop stops at an assertion of a handshake: what ties the parts of the
   system together lets every action that is due take place. -/

import NpSim.Pipe.Assertions
import NpSim.Pipe.FetchQueue
import NpSim.System.Matching
import NpSim.System.Reads

set_option autoImplicit false
set_option relaxedAutoImplicit false

namespace NpSim.Cache

open NpSim.Lib.Partial NpSim.Lib.Contract

theorem NoCache.request_ok {c : NoCache} {op : MemRWOpt} (addr : Addr) (data : Word)
    (strb : BitVec 8) (h : (if op = .write then c.isReady.2 else c.isReady.1) = true) :
    ∃ x, (match op with
      | .read => c.readReq addr
      | .write => c.writeReq addr data strb) = .ok x := by
  cases op with
  | read =>
    have hr : c.isReady.1 = true := h
    exact ⟨_, (congrArg (· >>= _) (require_of hr)).trans rfl⟩
  | write =>
    have hr : c.isReady.2 = true := h
    exact ⟨_, (congrArg (· >>= _) (require_of hr)).trans rfl⟩

private theorem busy_of_toNat {b : Bool} (h : 0 < b.toNat) : b = true := by
  cases b with
  | true => rfl
  | false => exact absurd h (Nat.lt_irrefl 0)

theorem NoCache.recvMemResp_ok {c : NoCache} {m : MemTrans} (h : 0 < c.awaits m.mop) :
    ∃ x, c.recvMemResp m = .ok x := by
  unfold NoCache.recvMemResp
  dsimp only
  cases hop : m.mop with
  | read =>
    rw [hop] at h
    have hb : c.rBusy = true := busy_of_toNat h
    exact ⟨_, (congrArg (· >>= _) (require_of hb)).trans rfl⟩
  | write =>
    rw [hop] at h
    have hb : c.wBusy = true := busy_of_toNat h
    exact ⟨_, (congrArg (· >>= _) (require_of hb)).trans rfl⟩

theorem PipeCache.WellFormed.answer_ok {P : CacheParams} {c : PipeCache P} (now : Nat)
    (hP : P.policy.Total P.assoc) (h : c.WellFormed) {m : MemTrans} (ha : 0 < c.awaits m.mop)
    (hread : m.mop = .read → m.addr ∈ c.readsOwed) : ∃ d, c.recvMemResp now m = .ok d := by
  refine h.recvMemResp_ok hP (fun hop => c.readsOwed_of_mem (hread hop)) fun hop => ?_
  rw [hop] at ha
  change 0 < c.writesOwed at ha
  unfold PipeCache.writesOwed at ha
  split at ha
  · assumption
  · exact absurd ha (Nat.lt_irrefl 0)

end NpSim.Cache

namespace NpSim.System

open NpSim.Lib.Partial NpSim.Lib.Contract NpSim.Cache NpSim.Mem NpSim.Pipe NpSim.Pipe.Pipeline
  Relation

namespace DataPort

variable {P : CacheParams} {d : DataPort P} (now : Nat)

theorem WellFormed.request_ok (hwb : P.writeBack = true) (h : d.WellFormed) {op : MemRWOpt}
    (addr : Addr) (data : Word) (strb : BitVec 8)
    (hr : (if op = .write then d.isReady.2 else d.isReady.1) = true) :
    ∃ x, d.request now op addr data strb = .ok x := by
  cases d with
  | uncached c =>
    obtain ⟨⟨b, m⟩, hx⟩ := c.request_ok addr data strb hr
    cases op with
    | read => exact ⟨_, bind_eq_ok.mpr ⟨_, hx, rfl⟩⟩
    | write => exact ⟨_, bind_eq_ok.mpr ⟨_, hx, rfl⟩⟩
  | cached c =>
    have hw : c.WellFormed := h
    have hready : c.isReady.1 = true := by
      cases op with
      | read => exact hr
      | write =>
        have hsame : c.isReady.2 = c.isReady.1 := by
          unfold PipeCache.isReady
          dsimp only
          rw [if_pos hwb]
        exact hsame.symm.trans hr
    have henq := hw.enqueue_ok now (Bench.isShifted_of_isReady hready)
    cases op with
    | read =>
      obtain ⟨c', hc⟩ := henq { addr := addr, mop := .read }
      exact ⟨_, bind_eq_ok.mpr ⟨c', hc, rfl⟩⟩
    | write =>
      obtain ⟨c', hc⟩ := henq { addr := addr, mop := .write, wrdata := data, wrstrb := strb }
      refine ⟨_, bind_eq_ok.mpr ⟨(c', []), ?_, rfl⟩⟩
      unfold PipeCache.writeReq
      rw [if_pos hwb, hc]
      rfl

theorem WellFormed.recvMemResp_ok (h : d.WellFormed) (hs : d.Supported) {m : MemTrans}
    (ha : 0 < d.awaits m.mop) (hread : m.mop = .read → d.Owes m.addr) :
    ∃ x, d.recvMemResp now m = .ok x := by
  cases d with
  | uncached c =>
    obtain ⟨x, hx⟩ := NoCache.recvMemResp_ok (c := c) ha
    exact ⟨_, bind_eq_ok.mpr ⟨x, hx, rfl⟩⟩
  | cached c =>
    have hw : c.WellFormed := h
    obtain ⟨x, hx⟩ := hw.answer_ok now hs ha hread
    exact ⟨_, bind_eq_ok.mpr ⟨x, hx, rfl⟩⟩

private theorem subword_other {f : Fault} (h : P.Subword f) : f.Other := by
  obtain ⟨rfl, _⟩ := h
  exact fun hc => hc

theorem WellFormed.doUpdate_meets (hi : PipeCache.Immediate P) (h : d.WellFormed)
    (hs : d.Supported) : Meets Fault.Other (fun _ => True) (d.doUpdate now) := by
  cases d with
  | uncached c => exact trivial
  | cached c =>
    have hw : c.WellFormed := h
    exact ((hw.doUpdate_meets now hs hi).mono fun _ => subword_other).bind fun _ _ _ => trivial

end DataPort

variable {S : Config}

/-- What ties the parts of the system together between two actions, with policies that answer. -/
structure Secure (w : Wire S) : Prop where
  policy : S.icache.policy.Total S.icache.assoc
  linked : Linked w
  matched : Matched w
  addressed : Addressed w

theorem Act.secure {ok : Nat → DataPort S.dcache → Prop} {w w' : Wire S} (ha : Act ok w w')
    (h : Secure w) : Secure w' :=
  ⟨h.policy, ha.linked h.linked, ha.matched h.linked h.matched, ha.addressed h.linked h.addressed⟩

namespace Secure

variable {now : Nat} {s : Hosts S × RAMArbiter S.mem} {rest : List CacheOut}
  {calls : List PortCall} {comp : Option MemRWOpt}

theorem run {w w' : Wire S} (h : Secure w) (hrun : ReflTransGen (Act fun _ _ => True) w w') :
    Secure w' :=
  invariant_of_run (fun _ _ ha => ha.secure) h hrun

private theorem unrouted_other {f : Fault} (h : S.mem.Unrouted f) : f.Other := by
  obtain ⟨rfl, _⟩ := h
  exact id

private theorem waiting {w : Wire S} {t : CpuTrans} (h : Secure w) (ho : .cpuResp t ∈ w.outs)
    (hid : t.id ≠ 0) : ∃ x, w.hosts.core.simPipe .execute = some x ∧ x.waitMem = true ∧
      w.hosts.core.simPipe .memory = none := by
  have hpos : 0 < dataResps w.outs := List.countP_pos_iff.mpr ⟨_, ho, bne_iff_ne.mpr hid⟩
  have hs := h.linked.single
  have hact : 0 < w.hosts.core.lsuActive.toNat := by omega
  unfold lsuActive at hact
  split at hact
  · rename_i x hx
    have hw : x.waitMem = true := by
      cases hb : x.waitMem with
      | true => rfl
      | false =>
        rw [hb] at hact
        exact absurd hact (Nat.lt_irrefl 0)
    exact ⟨x, hx, hw, (h.linked.sane.settled _ x hx hw).2⟩
  · exact absurd hact (Nat.lt_irrefl 0)

theorem recvMemResp_meets {w : Wire S} {t : CpuTrans} (h : Secure w)
    (ho : w.outs = .cpuResp t :: rest) :
    Meets Fault.Other (fun _ => True) (w.hosts.core.recvMemResp w.now t) := by
  have hmem : .cpuResp t ∈ w.outs := ho ▸ List.mem_cons_self
  have hlt : t.id < 3 := h.linked.ids _ hmem
  unfold Pipeline.recvMemResp
  split
  · rename_i hid
    have hcore := h.matched.core
    unfold Wire.inFlight at hcore
    rw [ho, fetchResps_resp, if_pos hid] at hcore
    obtain ⟨c, hc, _⟩ := hcore.respond w.now
    exact Meets.require (h.matched.resps t hmem hid) (.of_ok hc trivial)
  · rename_i hid
    rw [if_pos (by omega)]
    obtain ⟨x, hx, hw, hm⟩ := h.waiting hmem hid
    exact handleLsuResp_meets hx hw hm

theorem recvReq_meets {w : Wire S} {m : MemTrans} (h : Secure w)
    (ho : w.outs = .memReq m :: rest) :
    Meets Fault.Other (fun _ => True) (w.mem.recvReq w.now m) := by
  have hid : m.id < 3 := h.linked.ids (.memReq m) (ho ▸ List.mem_cons_self)
  have hfree := (h.linked.on_its_way ho).2
  have hm : Meets S.mem.Unrouted _ (w.mem.recvReq w.now m) :=
    RAMArbiter.recvReq_meets h.linked.mem (S.mem_hosts ▸ hid) hfree
  exact (hm.mono fun _ => unrouted_other).imp fun _ _ _ => trivial

theorem deliverOne_meets {out : CacheOut}
    (h : Secure ⟨now, s.1, s.2, out :: rest, calls, comp⟩) :
    Meets Fault.Other (fun t => Secure ⟨now, t.1, t.2, rest, calls, comp⟩)
      (Hosts.deliverOne now s out) := by
  refine Meets.imp (Q := fun _ => True) ?_ fun t ht _ =>
    h.run (.single (Act.of_deliverOne rest calls comp ht))
  cases out with
  | cpuResp t => exact (h.recvMemResp_meets rfl).bind fun _ _ _ => trivial
  | cpuAck a => exact (ackMemAvail_meets a).bind fun _ _ _ => trivial
  | memReq m => exact (h.recvReq_meets rfl).bind fun _ _ _ => trivial

theorem deliver_meets {outs : List CacheOut} (h : Secure ⟨now, s.1, s.2, outs, calls, comp⟩) :
    Meets Fault.Other (fun t => Secure ⟨now, t.1, t.2, [], calls, comp⟩)
      (Hosts.deliver now outs s) :=
  Meets.foldlM (I := fun l (t : Hosts S × RAMArbiter S.mem) =>
    Secure ⟨now, t.1, t.2, l, calls, comp⟩)
    (fun _ _ _ ht => deliverOne_meets ht) h

theorem receive_meets {op : MemRWOpt} {k : Nat} {req : MemTrans}
    (h : Secure ⟨now, s.1, s.2, [], [], none⟩)
    (hreq : (s.2.chan op).reqs k = some req) (hmop : req.mop = op) (hk : k < 3) :
    Meets Fault.Other (fun _ => True) (s.1.receive now k { req with dir := .resp }) := by
  have hs : s.2.slots op k = some req.addr := by
    rw [RAMArbiter.slots, hreq]
    rfl
  have ha : 0 < s.1.awaits op k := h.linked.awaits_of_slot (Option.isSome_of_mem hs)
  have howes : op = .read → s.1.Owes req.addr k := fun hop => h.addressed.slot k _ (hop ▸ hs)
  subst hmop
  unfold Hosts.receive
  split
  · rename_i hid
    subst hid
    obtain ⟨x, hx⟩ := h.linked.icache.answer_ok now h.policy
      (m := { req with dir := .resp }) ha howes
    rw [hx]
    exact trivial
  · split
    · rename_i hid
      subst hid
      obtain ⟨x, hx⟩ := h.linked.dcache.recvMemResp_ok now h.addressed.port
        (m := { req with dir := .resp }) ha howes
      rw [hx]
      exact trivial
    · have hid : k = 2 := by omega
      subst hid
      obtain ⟨x, hx⟩ := NoCache.recvMemResp_ok (c := s.1.bypass) (m := { req with dir := .resp }) ha
      rw [hx]
      exact trivial

/-- A completion of the memory. -/
theorem completeChannel_meets {op : MemRWOpt} (h : Secure ⟨now, s.1, s.2, [], [], none⟩) :
    Meets Fault.Other (fun t => Secure ⟨now, t.1, t.2, [], [], none⟩)
      (RAMArbiter.completeChannel now op (Hosts.recvMemResp now) s) := by
  refine Meets.imp (Q := fun _ => True) ?_ fun t ht _ => h.run (Act.of_completeChannel ht)
  have hm : RAMArbiter.Consistent none s.2 := h.linked.mem
  refine RAMArbiter.completeChannel_stops (fun _ => unrouted_other) hm fun req hdue hreq => ?_
  obtain ⟨_, hmop, hlt⟩ := hm.held.slot hreq
  rw [S.mem_hosts] at hlt
  rw [Hosts.recvMemResp_eq]
  refine (h.receive_meets hreq hmop hlt).bind fun r hr _ => ?_
  have hact : Act (fun _ _ => True) ⟨now, s.1, s.2, [], [], none⟩
      ⟨now, r.1, s.2.answered now op (s.2.chan op).servingId req, r.2, [], some op⟩ :=
    .answer ⟨rfl, rfl, rfl⟩ hdue hreq hr
  exact (hact.secure h).deliver_meets.imp fun _ _ ht => ht.linked.mem

theorem updateMemory_meets (h : Secure ⟨now, s.1, s.2, [], [], none⟩) :
    Meets Fault.Other (fun _ => True) (RAMArbiter.doUpdate now (Hosts.recvMemResp now) s) := by
  unfold RAMArbiter.doUpdate
  split
  · unfold RAMArbiter.updateImpl
    refine h.completeChannel_meets.bind fun r _ hr => ?_
    exact hr.completeChannel_meets.imp fun _ _ _ => trivial
  · exact trivial

theorem updateDcache_meets (h : Secure ⟨now, s.1, s.2, [], [], none⟩) :
    Meets Fault.Other (fun _ => True) (Hosts.updateDcache now s) := by
  have hd := h.linked.dcache.doUpdate_meets now S.dcache_immediate h.addressed.port
  refine hd.bind fun r hr _ => ?_
  have hact : Act (fun _ _ => True) ⟨now, s.1, s.2, [], [], none⟩
      ⟨now, { s.1 with dcache := r.1 }, s.2, r.2, [], none⟩ := .dcache ⟨rfl, rfl, rfl⟩ trivial hr
  exact (hact.secure h).deliver_meets.imp fun _ _ _ => trivial

theorem updateIcache_meets (h : Secure ⟨now, s.1, s.2, [], [], none⟩) :
    Meets Fault.Other (fun t => Secure ⟨now, t.1, t.2, [], [], none⟩)
      (Hosts.updateIcache now s) := by
  have hi := (h.linked.icache.doUpdate_meets now h.policy S.icache_immediate).mono
    fun _ => DataPort.subword_other
  refine hi.bind fun r hr _ => ?_
  have hact : Act (fun _ _ => True) ⟨now, s.1, s.2, [], [], none⟩
      ⟨now, { s.1 with icache := r.1 }, s.2, r.2, [], none⟩ := .icache ⟨rfl, rfl, rfl⟩ hr
  exact (hact.secure h).deliver_meets

theorem fenceI_meets (h : Secure ⟨now, s.1, s.2, [], [], none⟩) :
    Meets Fault.Other (fun _ => True) (Hosts.fenceI now s) := by
  have hact : Act (fun _ _ => True) ⟨now, s.1, s.2, [], [], none⟩
      ⟨now, { s.1 with icache := s.1.icache.flushAll, dcache := s.1.dcache.flushAll }, s.2, [], [],
        none⟩ := .flush ⟨rfl, rfl, rfl⟩
  exact (hact.secure h).updateIcache_meets.bind fun _ _ ht => ht.updateDcache_meets

theorem fetch_meets {addr : Addr} {rest : List PortCall}
    (h : Secure ⟨now, s.1, s.2, [], .fetch addr :: rest, none⟩)
    (hr : s.1.icache.isReady.1 = true) :
    Meets Fault.Other (fun _ => True) (Hosts.callOne now s (.fetch addr)) := by
  obtain ⟨c, hc⟩ := h.linked.icache.enqueue_ok now (Bench.isShifted_of_isReady hr)
    { addr := addr, mop := .read }
  exact Meets.of_ok (bind_eq_ok.mpr ⟨c, hc, rfl⟩) trivial

private theorem bypass_meets {op : MemRWOpt} {addr : Addr} {data : Word} {strb : BitVec 8}
    {rest : List PortCall}
    (h : Secure ⟨now, s.1, s.2, [], .lsu true op addr data strb :: rest, none⟩)
    (hr : (if op = .write then s.1.bypass.isReady.2 else s.1.bypass.isReady.1) = true) :
    Meets Fault.Other (fun t => t.1.icache = s.1.icache)
      (Hosts.callOne now s (.lsu true op addr data strb)) := by
  obtain ⟨⟨b, m⟩, hb⟩ := s.1.bypass.request_ok addr data strb hr
  have hact : Act (fun _ _ => True) ⟨now, s.1, s.2, [], .lsu true op addr data strb :: rest, none⟩
      ⟨now, { s.1 with bypass := b }, s.2, [.memReq m], rest, none⟩ := .bypass rfl rfl hb
  have hm := (hact.secure h).recvReq_meets rfl
  cases op <;>
  · unfold Hosts.callOne
    dsimp only at hb ⊢
    rw [hb]
    exact hm.bind fun _ _ _ => rfl

private theorem request_meets {op : MemRWOpt} {addr : Addr} {data : Word} {strb : BitVec 8}
    {rest : List PortCall}
    (h : Secure ⟨now, s.1, s.2, [], .lsu false op addr data strb :: rest, none⟩)
    (hr : (if op = .write then s.1.dcache.isReady.2 else s.1.dcache.isReady.1) = true) :
    Meets Fault.Other (fun t => t.1.icache = s.1.icache)
      (Hosts.callOne now s (.lsu false op addr data strb)) := by
  obtain ⟨⟨d, outs⟩, hd⟩ := h.linked.dcache.request_ok now S.dcache_writeBack addr data
    strb hr
  have hact : Act (fun _ _ => True) ⟨now, s.1, s.2, [], .lsu false op addr data strb :: rest, none⟩
      ⟨now, { s.1 with dcache := d }, s.2, outs, rest, none⟩ := .request rfl rfl hd
  unfold Hosts.callOne
  dsimp only
  rw [hd]
  exact (hact.secure h).deliver_meets.imp fun _ ht _ => (Act.deliver_caches ht).1

theorem access_meets {inst : TraceInst} {op : MemRWOpt} {rest : List PortCall}
    (h : Secure ⟨now, s.1, s.2, [], lsuCall S.core inst op :: rest, none⟩)
    (hr : portReady S.core s.1.ports inst op = true) :
    Meets Fault.Other (fun t => Secure ⟨now, t.1, t.2, [], rest, none⟩ ∧ t.1.icache = s.1.icache)
      (Hosts.callOne now s (lsuCall S.core inst op)) := by
  refine Meets.imp (Q := fun t => t.1.icache = s.1.icache) ?_ fun t ht hi =>
    ⟨h.run (Act.of_callOne rest ht), hi⟩
  unfold portReady at hr
  unfold lsuCall at h ⊢
  dsimp only at hr
  cases hnc : usesNc S.core inst with
  | true =>
    rw [hnc] at h hr
    exact h.bypass_meets hr
  | false =>
    rw [hnc] at h hr
    exact h.request_meets hr

theorem calls_meets {calls : List PortCall} (hc : Asked S.core s.1.ports calls)
    (h : Secure ⟨now, s.1, s.2, [], calls, none⟩) :
    Meets Fault.Other (fun _ => True) (calls.foldlM (Hosts.callOne now) s) := by
  cases hc with
  | data hd =>
    cases hd with
    | none => exact trivial
    | one inst op hr => exact (h.access_meets hr).bind fun _ _ _ => trivial
  | fetch hd addr hr =>
    cases hd with
    | none => exact (h.fetch_meets hr).bind fun _ _ _ => trivial
    | one inst op hr' =>
      refine (h.access_meets hr').bind fun t _ ht => ?_
      have hready : t.1.icache.isReady.1 = true := by
        rw [ht.2]
        exact hr
      exact (ht.1.fetch_meets hready).bind fun _ _ _ => trivial

/-- The core works on, and its requests are carried out. -/
theorem core_meets {c : Pipeline S.core} (h : Secure ⟨now, s.1, s.2, [], [], none⟩)
    (hc : ReflTransGen (CoreWork now s.1.ports) s.1.core c)
    (hasked : Asked S.core s.1.ports c.calls) :
    Meets Fault.Other (fun _ => True) (Hosts.runCalls now ({ s.1 with core := c }, s.2)) := by
  have hwork := h.run (Act.of_work hc)
  have htake : Act (fun _ _ => True) ⟨now, { s.1 with core := c }, s.2, [], [], none⟩
      ⟨now, { s.1 with core := { c with calls := [] } }, s.2, [], c.calls, none⟩ :=
    .take ⟨rfl, rfl, rfl⟩
  exact calls_meets (s := ({ s.1 with core := { c with calls := [] } }, s.2)) hasked
    (htake.secure hwork)

theorem updateCore_meets (h : Secure ⟨now, s.1, s.2, [], [], none⟩)
    (hcalls : s.1.core.calls = []) :
    Meets Fault.Other (fun _ => True) (Hosts.updateCore false now s) :=
  (doUpdate_meets s.1.ports).bind fun _ hc _ =>
    h.core_meets (CoreWork.of_doUpdate hc) (doUpdate_asked hcalls hc)

theorem feedInst_meets {inst : TraceInst} (h : Secure ⟨now, s.1, s.2, [], [], none⟩)
    (hcalls : s.1.core.calls = []) :
    Meets Fault.Other (fun _ => True) (Hosts.feedInst now inst s) :=
  (Pipeline.feedInst_meets s.1.ports.imem inst).bind fun _ hc _ =>
    h.core_meets (CoreWork.of_feedInst hc) (feedInst_asked s.1.ports hcalls hc)

end Secure

/-- A call of the main loop stops at no assertion of a handshake, and whatever the core does in it,
an entry is pushed only into a fetch queue with room. -/
structure HandshakesHold (s : Sys S) : Prop where
  asserts : ∀ f, s.step false = .error f → ¬f.Handshake
  pushes : ∀ c c' x, ReflTransGen (CoreStep s.tick) s.hosts.core c → CoreStep s.tick c c' →
    c'.fetchQueue = c.fetchQueue ++ [x] → c.fetchQueue.length < S.core.ifqSize

namespace Sys

variable {s : Sys S}

theorem Reachable.secure (hi : S.icache.policy.Total S.icache.assoc)
    (hd : S.hasDcache = true → S.dcache.policy.Total S.dcache.assoc) (h : s.Reachable) :
    Secure s.wire :=
  h.reachableBy.invariant
    (fun trace inst nxt =>
      ⟨hi, .init trace inst nxt, .init trace inst nxt, .init hd trace inst nxt⟩)
    fun _ _ ha hw => ha.secure hw

private theorem step_meets (h : Secure s.wire) (hcalls : s.hosts.core.calls = []) :
    Meets Fault.Other (fun _ => True) (s.step false) := by
  have hs : Secure ⟨s.tick, s.hosts, s.mem, [], [], none⟩ := h
  unfold step
  split
  · exact (Secure.updateMemory_meets (s := (s.hosts, s.mem)) hs).bind fun _ _ _ => trivial
  · exact trivial
  · exact (Secure.updateDcache_meets (s := (s.hosts, s.mem)) hs).bind fun _ _ _ => trivial
  · exact (Secure.updateIcache_meets (s := (s.hosts, s.mem)) hs).bind fun _ _ _ => trivial
  · exact (Secure.updateCore_meets (s := (s.hosts, s.mem)) hs hcalls).bind fun _ _ _ => trivial
  · unfold feed
    split
    · split
      · split
        · exact trivial
        · exact (Secure.feedInst_meets (s := (s.hosts, s.mem)) hs hcalls).bind fun _ _ _ => trivial
      · exact trivial
    · exact trivial
  · exact trivial
  · unfold handleSysOp
    split
    · exact trivial
    · split
      · exact (Secure.fenceI_meets (s := (s.hosts, s.mem)) hs).bind fun _ _ _ => trivial
      · split <;> exact trivial
  · exact trivial

/-- In every run of the system, whatever the latencies and wherever the markers of the trace stand,
no handshake fails: of the caches it takes that their policies answer. -/
theorem Reachable.handshakes_hold (hi : S.icache.policy.Total S.icache.assoc)
    (hd : S.hasDcache = true → S.dcache.policy.Total S.dcache.assoc) (h : s.Reachable) :
    HandshakesHold s := by
  refine ⟨fun f hf => (step_meets (h.secure hi hd) h.no_calls).fault hf, ?_⟩
  intro c c' x hc hstep hpush
  have hb := invariant_of_run (I := fun c : Pipeline S.core => c.fetchQueue.length ≤ S.core.ifqSize)
    (fun _ _ hcd hle => coreStep_bounded hcd hle) h.core.queue_bounded (hc.tail hstep)
  rw [hpush, List.length_append] at hb
  exact hb

/-- With a memory of latency 5 the load is answered while the fetch of the next block waits. -/
theorem handshakes_hold_load : ∃ s : Sys (Config.plain 5 true), s.Reachable ∧ s.phase = .memory ∧
    (s.mem.chan .read).servingId = 1 ∧ s.mem.pending .read = [0, 1] ∧ HandshakesHold s := by
  obtain ⟨s, hrun, hobs⟩ := exists_of_observed
    (x := run false 144 (init (Config.plain 5 true) loadAndBlock {} 0))
    (f := fun s => (s.phase, (s.mem.chan .read).servingId, s.mem.pending .read))
    (b := (.memory, 1, [0, 1])) (by decide +kernel)
  have hs : s.Reachable := ⟨_, _, _, _, hrun⟩
  have htotal : (plruReplPolicy 1).Total 1 := plru_total (.inl rfl)
  exact ⟨s, hs, congrArg Prod.fst hobs, congrArg (·.2.1) hobs, congrArg (·.2.2) hobs,
    hs.handshakes_hold htotal fun _ => htotal⟩

end Sys

end NpSim.System
