/- digest: Every read in the memory, or on its way there, is one that its cache awaits at that very
   address. -/

import NpSim.Cache.Total
import NpSim.System.Waiting

set_option autoImplicit false
set_option relaxedAutoImplicit false

namespace NpSim.Cache.PipeCache

variable {P : CacheParams} {c c' : PipeCache P} {outs : List CacheOut}

theorem readsOwed_of_mem {a : Addr} (h : a ∈ c.readsOwed) : c.readsOwed = [a] := by
  have hle := Bench.length_readsOwed c
  obtain ⟨b, hb⟩ := List.length_eq_one_iff.mp (Nat.le_antisymm hle (List.length_pos_of_mem h))
  rw [hb] at h ⊢
  rw [List.mem_singleton.mp h]

theorem Traffic.keep (h : Traffic c outs c') {a : Addr} (ha : a ∈ c.readsOwed) :
    a ∈ c'.readsOwed := by
  rw [h.reads]
  exact List.mem_append_left _ ha

theorem Traffic.sent (h : Traffic c outs c') {m : MemTrans} (hm : .memReq m ∈ outs)
    (hop : m.mop = .read) : m.addr ∈ c'.readsOwed := by
  rw [h.reads]
  refine List.mem_append_right _ (List.mem_map_of_mem (List.mem_filterMap.mpr ⟨_, hm, ?_⟩))
  exact if_pos hop

end NpSim.Cache.PipeCache

namespace NpSim.System

open NpSim.Lib.Partial NpSim.Lib.Contract NpSim.Cache NpSim.Mem NpSim.Pipe NpSim.Pipe.Pipeline

namespace DataPort

variable {P : CacheParams} {d d' : DataPort P} {outs : List CacheOut} {now : Nat}

/-- The cache, if there is one, awaits the read of `a`. -/
def Owes (a : Addr) : DataPort P → Prop
  | .cached c => a ∈ c.readsOwed
  | .uncached _ => True

/-- The cache, if there is one, has a policy that answers. -/
def Supported : DataPort P → Prop
  | .cached _ => P.policy.Total P.assoc
  | .uncached _ => True

/-- A call on a port: it awaits the reads that it has awaited and those that it sends. -/
structure Minds (d : DataPort P) (outs : List CacheOut) (d' : DataPort P) : Prop where
  supported : d.Supported → d'.Supported
  keep : ∀ a, d.Owes a → d'.Owes a
  sent : ∀ m, .memReq m ∈ outs → m.mop = .read → d'.Owes m.addr

theorem WellFormed.doUpdate_minds (h : d.WellFormed) (hx : d.doUpdate now = .ok (d', outs)) :
    Minds d outs d' := by
  cases d with
  | uncached c =>
    cases hx
    exact ⟨fun h => h, fun _ h => h, fun m hm => absurd hm List.not_mem_nil⟩
  | cached c =>
    obtain ⟨⟨c', o⟩, hc, hx⟩ := bind_eq_ok.mp hx
    cases hx
    have hw : c.WellFormed := h
    have ht := hw.doUpdate_traffic hc
    exact ⟨fun h => h, fun _ => ht.keep, fun _ => ht.sent⟩

theorem WellFormed.request_minds (hwb : P.writeBack = true) (h : d.WellFormed) {op : MemRWOpt}
    {addr : Addr} {data : Word} {strb : BitVec 8}
    (hx : d.request now op addr data strb = .ok (d', outs)) : Minds d outs d' := by
  cases d with
  | uncached c =>
    cases op <;>
    · obtain ⟨⟨c', m⟩, _, hx⟩ := bind_eq_ok.mp hx
      cases hx
      exact ⟨fun h => h, fun _ h => h, fun _ _ _ => trivial⟩
  | cached c =>
    have hw : c.WellFormed := h
    have henq : ∀ {e : CachePipeEntry} {c' : PipeCache P}, c.enqueue now e = .ok c' →
        Minds (.cached c) [] (.cached c') := fun {e c'} hc => by
      refine ⟨fun h => h, fun a ha => ?_, fun m hm => absurd hm List.not_mem_nil⟩
      change a ∈ c'.readsOwed
      rw [(hw.enqueue_traffic hc).1]
      exact ha
    cases op with
    | read =>
      obtain ⟨c', hc, hx⟩ := bind_eq_ok.mp hx
      cases hx
      exact henq hc
    | write =>
      obtain ⟨⟨c', o⟩, hc, hx⟩ := bind_eq_ok.mp hx
      cases hx
      unfold PipeCache.writeReq at hc
      rw [if_pos hwb] at hc
      obtain ⟨e, he, hc⟩ := bind_eq_ok.mp hc
      cases hc
      exact henq he

theorem recvMemResp_owes {m : MemTrans} (hx : d.recvMemResp now m = .ok (d', outs)) :
    (d.Supported → d'.Supported) ∧ (m.mop = .write → ∀ a, d.Owes a → d'.Owes a) := by
  cases d with
  | uncached c =>
    obtain ⟨⟨c', o⟩, _, hx⟩ := bind_eq_ok.mp hx
    cases hx
    exact ⟨fun h => h, fun _ _ h => h⟩
  | cached c =>
    obtain ⟨c', hc, hx⟩ := bind_eq_ok.mp hx
    cases hx
    refine ⟨fun h => h, fun hop a ha => ?_⟩
    have ht := PipeCache.recvMemResp_traffic hc
    rw [hop] at ht
    change a ∈ c'.readsOwed
    rw [ht.1]
    exact ha

theorem marked_owes {P : CacheParams} (d : DataPort P) :
    (d.flushAll.Supported ↔ d.Supported) ∧ (d.resetStats.Supported ↔ d.Supported) ∧
      ∀ a, (d.flushAll.Owes a ↔ d.Owes a) ∧ (d.resetStats.Owes a ↔ d.Owes a) := by
  cases d with
  | cached c => exact ⟨Iff.rfl, Iff.rfl, fun a => ⟨Iff.rfl, Iff.rfl⟩⟩
  | uncached c => exact ⟨Iff.rfl, Iff.rfl, fun a => ⟨Iff.rfl, Iff.rfl⟩⟩

end DataPort

variable {S : Config}

/-- The host `id` awaits the read of `a`; the uncached ports keep no address. -/
def Hosts.Owes (h : Hosts S) (a : Addr) : Nat → Prop
  | 0 => a ∈ h.icache.readsOwed
  | 1 => h.dcache.Owes a
  | _ => True

/-- The reads in the memory and on their way there are for the addresses that the hosts await. -/
structure Addressed (w : Wire S) : Prop where
  port : w.hosts.dcache.Supported
  slot : ∀ id a, w.mem.slots .read id = some a → w.hosts.Owes a id
  sent : ∀ m, .memReq m ∈ w.outs → m.mop = .read → w.hosts.Owes m.addr m.id

namespace Addressed

variable {w : Wire S}

theorem init (hd : S.hasDcache = true → S.dcache.policy.Total S.dcache.assoc)
    (trace : List TraceInst) (inst : TraceInst) (nxt : Tick) :
    Addressed (Sys.init S trace inst nxt).wire := by
  refine ⟨?_, fun _ _ ha => (nomatch ha), fun m hm => absurd hm List.not_mem_nil⟩
  change DataPort.Supported (if S.hasDcache then _ else _)
  split
  · exact hd ‹_›
  · exact trivial

private theorem step {hosts : Hosts S} {outs : List CacheOut} {calls : List PortCall}
    (h : Addressed w) (hd : hosts.dcache.Supported)
    (hkeep : ∀ id a, w.hosts.Owes a id → hosts.Owes a id)
    (hsent : ∀ m, .memReq m ∈ outs → m.mop = .read → hosts.Owes m.addr m.id) :
    Addressed { w with hosts := hosts, outs := outs, calls := calls } :=
  ⟨hd, fun id a ha => hkeep id a (h.slot id a ha), hsent⟩

private theorem tail {o : CacheOut} {rest : List CacheOut} {c : Pipeline S.core} (h : Addressed w)
    (ho : w.outs = o :: rest) :
    Addressed { w with hosts := { w.hosts with core := c }, outs := rest } :=
  h.step h.port (fun _ _ => id) fun m hm => h.sent m (ho ▸ List.mem_cons_of_mem o hm)

theorem send {m : MemTrans} {rest : List CacheOut} {mem : RAMArbiter S.mem} (h : Addressed w)
    (hl : Linked w) (ho : w.outs = .memReq m :: rest) (hm : w.mem.recvReq w.now m = .ok mem) :
    Addressed { w with mem := mem, outs := rest } := by
  obtain ⟨_, _, hslots⟩ := RAMArbiter.recvReq_slots hl.mem hm
  refine ⟨h.port, fun id a ha => ?_, fun x hx => h.sent x (ho ▸ List.mem_cons_of_mem _ hx)⟩
  dsimp only at ha
  rw [hslots] at ha
  by_cases hx : MemRWOpt.read = m.mop ∧ id = m.id
  · obtain ⟨hop, rfl⟩ := hx
    rw [← hop, Slots.put_self] at ha
    cases ha
    exact h.sent m (ho ▸ List.mem_cons_self) hop.symm
  · rw [Slots.put_other hx] at ha
    exact h.slot id a ha

theorem fetch {addr : Addr} {rest : List PortCall} {c : PipeCache S.icache} (h : Addressed w)
    (hl : Linked w) (hc : w.hosts.icache.readReq w.now addr = .ok c) :
    Addressed { w with hosts := { w.hosts with icache := c }, calls := rest } := by
  have hkeep : ∀ id a, w.hosts.Owes a id → ({ w.hosts with icache := c } : Hosts S).Owes a id := by
    intro id a ha
    match id with
    | 0 =>
      change a ∈ c.readsOwed
      rw [(hl.icache.enqueue_traffic hc).1]
      exact ha
    | 1 => exact ha
    | _ + 2 => exact trivial
  exact h.step h.port hkeep fun m hm hop => hkeep m.id m.addr (h.sent m hm hop)

private theorem of_dcache {d : DataPort S.dcache} {outs : List CacheOut} {calls : List PortCall}
    (h : Addressed w) (hids : ∀ o ∈ outs, o.id = 1) (hd : DataPort.Minds w.hosts.dcache outs d) :
    Addressed { w with hosts := { w.hosts with dcache := d }, outs := outs, calls := calls } := by
  refine h.step (hd.supported h.port) (fun id a ha => ?_) fun m hm hop => ?_
  · match id with
    | 0 => exact ha
    | 1 => exact hd.keep a ha
    | _ + 2 => exact trivial
  · have hid : m.id = 1 := hids _ hm
    rw [hid]
    exact hd.sent m hm hop

theorem request {op : MemRWOpt} {addr : Addr} {data : Word} {strb : BitVec 8}
    {rest : List PortCall} {d : DataPort S.dcache} {outs : List CacheOut} (h : Addressed w)
    (hl : Linked w) (hd : w.hosts.dcache.request w.now op addr data strb = .ok (d, outs)) :
    Addressed { w with hosts := { w.hosts with dcache := d }, outs := outs, calls := rest } := by
  have hids := (hl.dcache.request_does S.dcache_immediate S.dcache_writeBack hd).ids
  rw [hl.dcacheId] at hids
  exact h.of_dcache hids (hl.dcache.request_minds S.dcache_writeBack hd)

theorem updateDcache {d : DataPort S.dcache} {outs : List CacheOut} (h : Addressed w)
    (hl : Linked w) (hd : w.hosts.dcache.doUpdate w.now = .ok (d, outs)) :
    Addressed { w with hosts := { w.hosts with dcache := d }, outs := outs } := by
  have hids := (hl.dcache.doUpdate_does S.dcache_immediate hd).ids
  rw [hl.dcacheId] at hids
  exact h.of_dcache hids (hl.dcache.doUpdate_minds hd)

theorem updateIcache {c : PipeCache S.icache} {outs : List CacheOut} (h : Addressed w)
    (hl : Linked w) (hc : w.hosts.icache.doUpdate w.now = .ok (c, outs)) :
    Addressed { w with hosts := { w.hosts with icache := c }, outs := outs } := by
  have hids := hl.icache.doUpdate_id S.icache_immediate hc
  have ht := hl.icache.doUpdate_traffic hc
  rw [S.icache_id] at hids
  refine h.step h.port (fun id a ha => ?_) fun m hm hop => ?_
  · match id with
    | 0 => exact ht.keep ha
    | 1 => exact ha
    | _ + 2 => exact trivial
  · have hid : m.id = 0 := hids _ hm
    rw [hid]
    exact ht.sent hm hop

theorem bypass {b : NoCache} {m : MemTrans} {rest : List PortCall} (h : Addressed w)
    (hid : m.id = 2) :
    Addressed { w with
      hosts := { w.hosts with bypass := b }, outs := [.memReq m], calls := rest } := by
  refine h.step h.port (fun _ _ => id) fun x hx _ => ?_
  cases List.mem_singleton.mp hx
  rw [hid]
  exact trivial

theorem receive_owes {now k : Nat} {m : MemTrans} {h h' : Hosts S} {outs : List CacheOut}
    (hr : h.receive now k m = .ok (h', outs)) :
    (h.dcache.Supported → h'.dcache.Supported) ∧
      ∀ id a, (m.mop = .read → id ≠ k) → h.Owes a id → h'.Owes a id := by
  have hwrite : (m.mop = .read → k ≠ k) → m.mop = .write := by
    intro hne
    cases hop : m.mop with
    | read => exact absurd rfl (hne hop)
    | write => rfl
  unfold Hosts.receive at hr
  split at hr
  · rename_i hk
    obtain ⟨c, hc, hr⟩ := bind_eq_ok.mp hr
    cases hr
    refine ⟨id, fun i a hne ha => ?_⟩
    match i with
    | 0 =>
      have ht := PipeCache.recvMemResp_traffic hc
      rw [hwrite (hk ▸ hne)] at ht
      change a ∈ c.readsOwed
      rw [ht.1]
      exact ha
    | 1 => exact ha
    | _ + 2 => exact trivial
  · split at hr
    · rename_i hk
      obtain ⟨⟨d, o⟩, hd, hr⟩ := bind_eq_ok.mp hr
      cases hr
      obtain ⟨hsup, howes⟩ := DataPort.recvMemResp_owes hd
      refine ⟨hsup, fun i a hne ha => ?_⟩
      match i with
      | 0 => exact ha
      | 1 => exact howes (hwrite (hk ▸ hne)) a ha
      | _ + 2 => exact trivial
    · obtain ⟨⟨b, o⟩, _, hr⟩ := bind_eq_ok.mp hr
      cases hr
      exact ⟨id, fun _ _ _ => id⟩

theorem answer {op : MemRWOpt} {req : MemTrans} {hosts : Hosts S} {outs : List CacheOut}
    (h : Addressed w) (hl : Linked w) (hq : w.Rest)
    (hreq : (w.mem.chan op).reqs (w.mem.chan op).servingId = some req)
    (hr : w.hosts.receive w.now (w.mem.chan op).servingId { req with dir := .resp } =
      .ok (hosts, outs)) :
    Addressed { w with
      hosts := hosts, outs := outs, comp := some op
      mem := w.mem.answered w.now op (w.mem.chan op).servingId req } := by
  have hmem := hl.mem
  rw [hq.comp] at hmem
  obtain ⟨_, hmop, hlt⟩ := hmem.held.slot hreq
  rw [S.mem_hosts] at hlt
  obtain ⟨hsup, howes⟩ := receive_owes hr
  refine ⟨hsup h.port, fun id a ha => ?_, fun m hm => ?_⟩
  · dsimp only at ha
    rw [RAMArbiter.slots_answered] at ha
    by_cases hx : MemRWOpt.read = op ∧ id = (w.mem.chan op).servingId
    · obtain ⟨hop, rfl⟩ := hx
      rw [← hop, Slots.put_self] at ha
      cases ha
    · rw [Slots.put_other hx] at ha
      refine howes id a (fun hop hid => hx ⟨?_, hid⟩) (h.slot id a ha)
      exact hop.symm.trans hmop
  · exact absurd hm ((hl.receive_received hlt hr).noReq m)

theorem marked {hosts : Hosts S} {mem : RAMArbiter S.mem} (h : Addressed w) (hq : w.Rest)
    (hd : hosts.dcache.Supported) (hm : mem.slots = w.mem.slots)
    (hi : hosts.icache.readsOwed = w.hosts.icache.readsOwed)
    (howes : ∀ a, hosts.dcache.Owes a ↔ w.hosts.dcache.Owes a) :
    Addressed { w with hosts := hosts, mem := mem } := by
  refine ⟨hd, fun id a ha => ?_, fun m hx => ?_⟩
  · dsimp only at ha
    rw [hm] at ha
    have hslot := h.slot id a ha
    match id with
    | 0 =>
      change a ∈ hosts.icache.readsOwed
      rw [hi]
      exact hslot
    | 1 => exact (howes a).mpr hslot
    | _ + 2 => exact trivial
  · dsimp only at hx
    rw [hq.outs] at hx
    cases hx

end Addressed

/-- Every action keeps the reads addressed. -/
theorem Act.addressed {ok : Nat → DataPort S.dcache → Prop} {w w' : Wire S} (ha : Act ok w w')
    (hl : Linked w) (h : Addressed w) : Addressed w' := by
  cases ha with
  | tick hq => exact ⟨h.port, h.slot, h.sent⟩
  | resp ho hc => exact h.tail ho
  | ack ho hc => exact h.tail ho
  | send ho hm => exact h.send hl ho hm
  | core hq hc => exact ⟨h.port, h.slot, h.sent⟩
  | take hq => exact ⟨h.port, h.slot, h.sent⟩
  | fetch ho hcalls hc => exact h.fetch hl hc
  | request ho hcalls hd => exact h.request hl hd
  | @bypass op _ _ _ _ b m ho hcalls hb =>
    refine h.bypass ?_
    cases op with
    | read =>
      obtain ⟨_, hb⟩ := require_bind_eq_ok.mp hb
      cases hb
      exact hl.bypassId
    | write =>
      obtain ⟨_, hb⟩ := require_bind_eq_ok.mp hb
      cases hb
      exact hl.bypassId
  | dcache hq _ hd => exact h.updateDcache hl hd
  | icache hq hc => exact h.updateIcache hl hc
  | flush hq =>
    obtain ⟨hsup, _, howes⟩ := w.hosts.dcache.marked_owes
    exact h.marked hq (hsup.mpr h.port) rfl rfl fun a => (howes a).1
  | reset hq =>
    obtain ⟨_, hsup, howes⟩ := w.hosts.dcache.marked_owes
    exact h.marked hq (hsup.mpr h.port) rfl rfl fun a => (howes a).2
  | answer hq hdue hreq hr => exact h.answer hl hq hreq hr
  | free ho hcomp hnone =>
    refine ⟨h.port, fun id a ha => h.slot id a ?_, h.sent⟩
    dsimp only at ha
    rwa [RAMArbiter.slots_freed] at ha
  | next ho hcomp hg htop hs =>
    have hmem := hl.mem
    rw [hcomp] at hmem
    refine ⟨h.port, fun id a ha => h.slot id a ?_, h.sent⟩
    dsimp only at ha
    rwa [hmem.held.next_slots hg hs] at ha

end NpSim.System
