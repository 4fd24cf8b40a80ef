/- digest: The counters of the caches against the counters of the memory fabric: every miss that is
   counted at a port is a request that the memory counts, or one that is still on its way. -/

import NpSim.Cache.Counters
import NpSim.Mem.Counts
import NpSim.System.Waiting

set_option autoImplicit false
set_option relaxedAutoImplicit false

namespace NpSim.System

open NpSim.Lib.Partial NpSim.Cache NpSim.Mem NpSim.Pipe Relation

/-- What a port counts: its misses, those whose request is prepared and not yet sent, and the
channels on which the others have been sent. -/
structure Meter where
  misses : Nat := 0
  prepared : Nat := 0
  channels : List MemRWOpt := []

def cacheMeter {P : CacheParams} (c : PipeCache P) : Meter where
  misses := c.stats.misses
  prepared := if c.pendingFillReq then 1 else 0
  channels := [.read]

/-- A `NoCache` counts every access as a miss. -/
def bypassMeter (c : NoCache) : Meter where
  misses := c.stats.misses
  channels := [.read, .write]

def DataPort.meter {P : CacheParams} : DataPort P → Meter
  | .cached c => cacheMeter c
  | .uncached c => bypassMeter c

variable {S : Config}

def Hosts.meter (h : Hosts S) : Nat → Meter
  | 0 => cacheMeter h.icache
  | 1 => h.dcache.meter
  | 2 => bypassMeter h.bypass
  | _ => {}

/-- The requests `new` on each channel account for the misses counted between two states. -/
structure Meter.Moves (new : MemRWOpt → Nat) (m m' : Meter) : Prop where
  channels : m'.channels = m.channels
  misses : m'.misses + m.prepared = m.misses + m'.prepared + (m.channels.map new).sum

namespace Meter.Moves

theorem refl (m : Meter) : Moves (fun _ => 0) m m := by
  refine ⟨rfl, ?_⟩
  simp

theorem congr {new new' : MemRWOpt → Nat} {m m' : Meter} (h : Moves new m m')
    (he : ∀ op, new' op = new op) : Moves new' m m' := by
  rw [funext he]
  exact h

end Meter.Moves

section Ports

variable {P : CacheParams} {c c' : PipeCache P} {d d' : DataPort P} {now : Nat}
  {outs : List CacheOut}

private theorem cache_moves (h : c.WellFormed) (h' : c'.WellFormed) (hc : PipeCache.Counted c c')
    {new : List (Addr × MemRWOpt)} (he : PipeCache.Effect new c outs c') :
    Meter.Moves (fun op => (memReqs op outs).length) (cacheMeter c) (cacheMeter c') := by
  refine ⟨rfl, ?_⟩
  have hreads := congrArg List.length he.reads
  rw [List.length_append, List.length_map] at hreads
  have hmisses := hc.misses
  rw [h.looked_missed, h'.looked_missed, hreads] at hmisses
  change c'.stats.misses + (if c.pendingFillReq then 1 else 0) =
    c.stats.misses + (if c'.pendingFillReq then 1 else 0) + ((memReqs .read outs).length + 0)
  omega

theorem cache_update_moves (h : c.WellFormed) (hx : c.doUpdate now = .ok (c', outs)) :
    Meter.Moves (fun op => (memReqs op outs).length) (cacheMeter c) (cacheMeter c') := by
  obtain ⟨h', he, _⟩ := h.doUpdate hx
  exact cache_moves h h' (h.doUpdate_counted hx) he

private theorem cache_enqueue_moves {e : CachePipeEntry} (h : c.WellFormed) (he : e.Fresh)
    (hx : c.enqueue now e = .ok c') :
    Meter.Moves (fun op => (memReqs op []).length) (cacheMeter c) (cacheMeter c') := by
  obtain ⟨h', heff, _⟩ := h.enqueue he hx
  exact cache_moves h h' (PipeCache.enqueue_counted he hx) heff

private theorem cache_answer_moves {m : MemTrans} (h : c.WellFormed)
    (hx : c.recvMemResp now m = .ok c') :
    Meter.Moves (fun op => (memReqs op []).length) (cacheMeter c) (cacheMeter c') := by
  obtain ⟨h', heff, _⟩ := h.recvMemResp hx
  exact cache_moves h h' (PipeCache.recvMemResp_counted hx) heff

theorem port_update_moves (h : d.WellFormed) (hx : d.doUpdate now = .ok (d', outs)) :
    Meter.Moves (fun op => (memReqs op outs).length) d.meter d'.meter := by
  cases d with
  | uncached c =>
    cases hx
    exact .refl _
  | cached c =>
    obtain ⟨⟨c', o⟩, hc, hx⟩ := bind_eq_ok.mp hx
    cases hx
    exact cache_update_moves h hc

private theorem bypass_read_moves {b b' : NoCache} {addr : Addr} {m : MemTrans}
    (hx : b.readReq addr = .ok (b', m)) :
    Meter.Moves (fun op => (memReqs op [.memReq m]).length) (bypassMeter b) (bypassMeter b') := by
  obtain ⟨_, hx⟩ := require_bind_eq_ok.mp hx
  cases hx
  exact ⟨rfl, rfl⟩

private theorem bypass_write_moves {b b' : NoCache} {addr : Addr} {data : Word} {strb : BitVec 8}
    {m : MemTrans} (hx : b.writeReq addr data strb = .ok (b', m)) :
    Meter.Moves (fun op => (memReqs op [.memReq m]).length) (bypassMeter b) (bypassMeter b') := by
  obtain ⟨_, hx⟩ := require_bind_eq_ok.mp hx
  cases hx
  exact ⟨rfl, rfl⟩

private theorem bypass_answer_moves {b b' : NoCache} {m : MemTrans}
    (hx : b.recvMemResp m = .ok (b', outs)) :
    Meter.Moves (fun op => (memReqs op []).length) (bypassMeter b) (bypassMeter b') := by
  unfold NoCache.recvMemResp at hx
  dsimp only at hx
  split at hx
  · obtain ⟨_, hx⟩ := require_bind_eq_ok.mp hx
    cases hx
    exact .refl _
  · obtain ⟨_, hx⟩ := require_bind_eq_ok.mp hx
    cases hx
    exact .refl _

theorem port_request_moves (hwb : P.writeBack = true) (h : d.WellFormed) {op : MemRWOpt}
    {addr : Addr} {data : Word} {strb : BitVec 8}
    (hx : d.request now op addr data strb = .ok (d', outs)) :
    Meter.Moves (fun op => (memReqs op outs).length) d.meter d'.meter := by
  cases d with
  | uncached c =>
    cases op with
    | read =>
      obtain ⟨⟨c', m⟩, hc, hx⟩ := bind_eq_ok.mp hx
      cases hx
      exact bypass_read_moves hc
    | write =>
      obtain ⟨⟨c', m⟩, hc, hx⟩ := bind_eq_ok.mp hx
      cases hx
      exact bypass_write_moves hc
  | cached c =>
    cases op with
    | read =>
      obtain ⟨c', hc, hx⟩ := bind_eq_ok.mp hx
      cases hx
      exact cache_enqueue_moves h ⟨rfl, rfl, rfl, rfl⟩ hc
    | write =>
      obtain ⟨⟨c', o⟩, hc, hx⟩ := bind_eq_ok.mp hx
      cases hx
      unfold PipeCache.writeReq at hc
      rw [if_pos hwb] at hc
      obtain ⟨e, he, hc⟩ := bind_eq_ok.mp hc
      cases hc
      exact cache_enqueue_moves h ⟨rfl, rfl, rfl, rfl⟩ he

private theorem port_answer_moves {m : MemTrans} (h : d.WellFormed)
    (hx : d.recvMemResp now m = .ok (d', outs)) :
    Meter.Moves (fun op => (memReqs op []).length) d.meter d'.meter := by
  cases d with
  | uncached c =>
    obtain ⟨⟨c', o⟩, hc, hx⟩ := bind_eq_ok.mp hx
    cases hx
    exact bypass_answer_moves hc
  | cached c =>
    obtain ⟨c', hc, hx⟩ := bind_eq_ok.mp hx
    cases hx
    exact cache_answer_moves h hc

end Ports

/-- The requests of port `k` on channel `op` that are in the memory or on their way there. -/
def Wire.traffic (w : Wire S) (op : MemRWOpt) (k : Nat) : Nat :=
  w.mem.taken w.comp op k + (sent op k w.outs).length

/-- An action that sends the requests `new op k`. -/
structure Carries (new : MemRWOpt → Nat → Nat) (w w' : Wire S) : Prop where
  traffic : ∀ op k, w'.traffic op k = w.traffic op k + new op k
  meters : ∀ k, Meter.Moves (fun op => new op k) (w.hosts.meter k) (w'.hosts.meter k)

private theorem carries_nothing {w w' : Wire S} (ht : ∀ op k, w'.traffic op k = w.traffic op k)
    (hm : ∀ k, w'.hosts.meter k = w.hosts.meter k) : Carries (fun _ _ => 0) w w' := by
  refine ⟨ht, fun k => ?_⟩
  rw [hm]
  exact .refl _

private theorem sent_nil (op : MemRWOpt) (k : Nat) : (sent op k []).length = 0 := rfl

private theorem carries_port {w : Wire S} {hosts : Hosts S} {outs : List CacheOut}
    {calls : List PortCall} (ho : w.outs = []) (j : Nat) (hids : ∀ o ∈ outs, o.id = j)
    (hj : Meter.Moves (fun op => (memReqs op outs).length) (w.hosts.meter j) (hosts.meter j))
    (hother : ∀ k, k ≠ j → hosts.meter k = w.hosts.meter k) :
    Carries (fun op k => (sent op k outs).length) w
      { w with hosts := hosts, outs := outs, calls := calls } := by
  refine ⟨fun op k => ?_, fun k => ?_⟩
  · unfold Wire.traffic
    rw [ho, sent_nil, Nat.add_zero]
  · by_cases hk : k = j
    · subst hk
      refine hj.congr fun op => ?_
      rw [sent_of_id hids, if_pos rfl]
    · dsimp only
      rw [hother k hk]
      refine (Meter.Moves.refl _).congr fun op => ?_
      rw [sent_of_id hids, if_neg hk]

private theorem sent_cons (op : MemRWOpt) (k : Nat) (m : MemTrans) (rest : List CacheOut) :
    (sent op k (.memReq m :: rest)).length =
      (if op = m.mop ∧ k = m.id then 1 else 0) + (sent op k rest).length := by
  rw [← List.singleton_append, sent_append, List.length_append]
  congr 1
  unfold sent memReqs
  by_cases hop : m.mop = op
  · by_cases hid : m.id = k
    · simp [hop, hid]
    · simp [hop, hid, Ne.symm hid]
  · simp [hop, Ne.symm hop]

private theorem receive_meters {w : Wire S} (hl : Linked w) {now id : Nat} {m : MemTrans}
    {h : Hosts S} {outs : List CacheOut} (hr : w.hosts.receive now id m = .ok (h, outs)) (k : Nat) :
    Meter.Moves (fun _ => 0) (w.hosts.meter k) (h.meter k) := by
  unfold Hosts.receive at hr
  split at hr
  · obtain ⟨c, hc, hr⟩ := bind_eq_ok.mp hr
    cases hr
    match k with
    | 0 => exact cache_answer_moves hl.icache hc
    | 1 => exact .refl _
    | 2 => exact .refl _
    | _ + 3 => exact .refl _
  · split at hr
    · obtain ⟨⟨d, o⟩, hd, hr⟩ := bind_eq_ok.mp hr
      cases hr
      match k with
      | 0 => exact .refl _
      | 1 => exact port_answer_moves hl.dcache hd
      | 2 => exact .refl _
      | _ + 3 => exact .refl _
    · obtain ⟨⟨b, o⟩, hb, hr⟩ := bind_eq_ok.mp hr
      cases hr
      match k with
      | 0 => exact .refl _
      | 1 => exact .refl _
      | 2 => exact bypass_answer_moves hb
      | _ + 3 => exact .refl _

private theorem flush_meter {P : CacheParams} (d : DataPort P) : d.flushAll.meter = d.meter := by
  cases d <;> rfl

private theorem meter_congr {h h' : Hosts S} {j k : Nat}
    (hi : j ≠ 0 → cacheMeter h'.icache = cacheMeter h.icache)
    (hd : j ≠ 1 → h'.dcache.meter = h.dcache.meter)
    (hb : j ≠ 2 → bypassMeter h'.bypass = bypassMeter h.bypass) (hk : k ≠ j) :
    h'.meter k = h.meter k := by
  match k with
  | 0 => exact hi (Ne.symm hk)
  | 1 => exact hd (Ne.symm hk)
  | 2 => exact hb (Ne.symm hk)
  | _ + 3 => rfl

private theorem carries_core {w : Wire S} {c : Pipeline S.core} {outs : List CacheOut}
    {calls : List PortCall} (ho : ∀ op k, sent op k outs = sent op k w.outs) :
    Carries (fun _ _ => 0) w
      { w with hosts := { w.hosts with core := c }, outs := outs, calls := calls } := by
  refine carries_nothing (fun op k => ?_) fun k => ?_
  · unfold Wire.traffic
    dsimp only
    rw [ho]
  · exact meter_congr (j := k + 1) (fun _ => rfl) (fun _ => rfl) (fun _ => rfl)
      (Nat.ne_of_lt k.lt_succ_self)

/-- Every action but a reset accounts for what it sends. -/
theorem Act.carries {ok : Nat → DataPort S.dcache → Prop} {w w' : Wire S} (ha : Act ok w w')
    (hl : Linked w) :
    (∃ new, Carries new w w') ∨ w.Rest ∧
      w' = { w with hosts := w.hosts.resetStats w.now, mem := w.mem.resetStats } := by
  cases ha with
  | tick hq => exact .inl ⟨_, carries_nothing (fun _ _ => rfl) fun _ => rfl⟩
  | resp ho hc =>
    refine .inl ⟨_, carries_core fun op k => ?_⟩
    rw [ho]
    rfl
  | ack ho hc =>
    refine .inl ⟨_, carries_core fun op k => ?_⟩
    rw [ho]
    rfl
  | send ho hm =>
    refine .inl ⟨_, carries_nothing (fun op k => ?_) fun _ => rfl⟩
    unfold Wire.traffic
    dsimp only
    rw [ho, sent_cons, RAMArbiter.recvReq_taken hl.mem hm]
    omega
  | core hq hc => exact .inl ⟨_, carries_core fun _ _ => rfl⟩
  | take hq => exact .inl ⟨_, carries_core fun _ _ => rfl⟩
  | @fetch addr rest c ho hcalls hc =>
    obtain ⟨now, hosts, mem, outs, calls, comp⟩ := w
    obtain rfl : outs = [] := ho
    refine .inl ⟨_, carries_port rfl 0 (fun o ho => absurd ho List.not_mem_nil) ?_ fun k hk => ?_⟩
    · exact cache_enqueue_moves hl.icache ⟨rfl, rfl, rfl, rfl⟩ hc
    · exact meter_congr (fun h => absurd rfl h) (fun _ => rfl) (fun _ => rfl) hk
  | request ho hcalls hd =>
    have hids := (hl.dcache.request_does S.dcache_immediate S.dcache_writeBack hd).ids
    rw [hl.dcacheId] at hids
    refine .inl ⟨_, carries_port ho 1 hids ?_ fun k hk => ?_⟩
    · exact port_request_moves S.dcache_writeBack hl.dcache hd
    · exact meter_congr (fun _ => rfl) (fun h => absurd rfl h) (fun _ => rfl) hk
  | @bypass op _ _ _ _ b m ho hcalls hb =>
    have hids : ∀ o ∈ [CacheOut.memReq m], o.id = 2 := by
      intro o ho
      rw [List.mem_singleton.mp ho]
      cases op with
      | read =>
        obtain ⟨_, hb⟩ := require_bind_eq_ok.mp hb
        cases hb
        exact hl.bypassId
      | write =>
        obtain ⟨_, hb⟩ := require_bind_eq_ok.mp hb
        cases hb
        exact hl.bypassId
    refine .inl ⟨_, carries_port ho 2 hids ?_ fun k hk => ?_⟩
    · cases op with
      | read => exact bypass_read_moves hb
      | write => exact bypass_write_moves hb
    · exact meter_congr (fun _ => rfl) (fun _ => rfl) (fun h => absurd rfl h) hk
  | dcache hq _ hd =>
    have hids := (hl.dcache.doUpdate_does S.dcache_immediate hd).ids
    rw [hl.dcacheId] at hids
    refine .inl ⟨_, carries_port hq.outs 1 hids (port_update_moves hl.dcache hd) fun k hk => ?_⟩
    exact meter_congr (fun _ => rfl) (fun h => absurd rfl h) (fun _ => rfl) hk
  | icache hq hc =>
    have hids := hl.icache.doUpdate_id S.icache_immediate hc
    rw [S.icache_id] at hids
    refine .inl ⟨_, carries_port hq.outs 0 hids (cache_update_moves hl.icache hc) fun k hk => ?_⟩
    exact meter_congr (fun h => absurd rfl h) (fun _ => rfl) (fun _ => rfl) hk
  | flush hq =>
    refine .inl ⟨_, carries_nothing (fun _ _ => rfl) fun k => ?_⟩
    exact meter_congr (j := k + 1) (fun _ => rfl) (fun _ => flush_meter _) (fun _ => rfl)
      (Nat.ne_of_lt k.lt_succ_self)
  | reset hq => exact .inr ⟨hq, rfl⟩
  | answer hq hdue hreq hr =>
    have hmem := hl.mem
    rw [hq.comp] at hmem
    obtain ⟨_, _, hlt⟩ := hmem.held.slot hreq
    rw [S.mem_hosts] at hlt
    have hno := (hl.receive_received hlt hr).noReq
    refine .inl ⟨fun _ _ => 0, fun op k => ?_, fun k => receive_meters hl hr k⟩
    unfold Wire.traffic
    dsimp only
    rw [hq.comp, hq.outs, RAMArbiter.answered_taken, sent, memReqs_of_noReq hno]
    rfl
  | free ho hcomp hnone =>
    refine .inl ⟨_, carries_nothing (fun op k => ?_) fun _ => rfl⟩
    have hmem := hl.mem
    rw [hcomp] at hmem
    unfold Wire.traffic
    dsimp only
    rw [hcomp, RAMArbiter.freed_taken hmem.held hnone]
  | next ho hcomp hg htop hs =>
    refine .inl ⟨_, carries_nothing (fun op k => ?_) fun _ => rfl⟩
    have hmem := hl.mem
    rw [hcomp] at hmem
    unfold Wire.traffic
    dsimp only
    rw [hcomp, RAMArbiter.next_taken hmem.held hg hs]

/-- The requests for which port `k` has counted misses, or will have once they are sent. -/
def Wire.asked (w : Wire S) (k : Nat) : Nat :=
  (w.hosts.meter k).prepared + ((w.hosts.meter k).channels.map fun op => w.traffic op k).sum

theorem Carries.asked {new : MemRWOpt → Nat → Nat} {w w' : Wire S} (h : Carries new w w')
    (k : Nat) :
    (w'.hosts.meter k).misses + w.asked k = (w.hosts.meter k).misses + w'.asked k := by
  have hm := (h.meters k).misses
  have hsum : ((w'.hosts.meter k).channels.map fun op => w'.traffic op k).sum =
      ((w.hosts.meter k).channels.map fun op => w.traffic op k).sum +
        ((w.hosts.meter k).channels.map fun op => new op k).sum := by
    rw [(h.meters k).channels, ← List.sum_map_add]
    exact congrArg List.sum (List.map_congr_left fun op _ => h.traffic op k)
  unfold Wire.asked
  rw [hsum]
  omega

theorem Act.hist {ok : Nat → DataPort S.dcache → Prop} {w w' : Wire S} (ha : Act ok w w') :
    ∃ l, w'.mem.hist = w.mem.hist ++ l := by
  cases ha with
  | send ho hm => exact (RAMArbiter.recvReq_extends hm).hist
  | reset hq => exact ⟨_, rfl⟩
  | answer hq hdue hreq hr => exact ⟨_, rfl⟩
  | next ho hcomp hg htop hs =>
    obtain ⟨lat, hhist, _⟩ := RAMArbiter.serve_eq_ok hs
    exact ⟨_, hhist⟩
  | tick | resp | ack | core | take | fetch | request | bypass | dcache | icache | flush | free =>
    exact ⟨[], (List.append_nil _).symm⟩

theorem Act.balanced {ok : Nat → DataPort S.dcache → Prop} {w w' : Wire S} (ha : Act ok w w')
    (hb : w.mem.Balanced) : w'.mem.Balanced := by
  cases ha with
  | send ho hm => exact RAMArbiter.recvReq_balanced hm hb
  | reset hq => exact w.mem.resetStats_balanced
  | answer hq hdue hreq hr => exact ⟨hb.device, hb.kinds, hb.reads, hb.writes⟩
  | free ho hcomp hnone => exact ⟨hb.device, hb.kinds, hb.reads, hb.writes⟩
  | next ho hcomp hg htop hs =>
    exact (RAMArbiter.serve_counts hs).2 ⟨hb.device, hb.kinds, hb.reads, hb.writes⟩
  | tick | resp | ack | core | take | fetch | request | bypass | dcache | icache | flush => exact hb

private theorem prepared_le {P : CacheParams} {c : PipeCache P} (h : c.WellFormed) :
    (if c.pendingFillReq then 1 else 0) + c.awaits .read ≤ 1 := by
  cases hp : c.pendingFillReq with
  | false =>
    have hle := c.awaits_le .read
    simpa using hle
  | true =>
    have hwait : c.rWaiting = false := by
      cases h.tail with
      | empty _ hq => exact hq.rWaiting
      | fresh _ _ _ hq => exact hq.rWaiting
      | missed bk r _ _ _ _ _ _ hr => exact hr
      | filling bk r _ _ _ _ _ hfill => cases hp.symm.trans hfill
      | filled bk r _ _ _ _ _ _ hr => exact hr
    have hnone : c.awaits .read = 0 := by
      change c.readsOwed.length = 0
      rw [PipeCache.readsOwed, hwait]
      rfl
    rw [hnone]
    exact Nat.le_refl 1

private theorem queued_le {w : Wire S} (hl : Linked w) (op : MemRWOpt) (k : Nat) :
    w.mem.queued w.comp op k ≤ w.hosts.awaits op k := by
  rw [hl.link]
  unfold RAMArbiter.queued RAMArbiter.slots
  rw [Option.isSome_map]
  split
  · rename_i h
    rw [h.1]
    exact Nat.le_add_right 1 _
  · exact Nat.zero_le _

/-- A port has at most one request that its misses are about and whose service has not begun. -/
theorem Linked.waiting_le {w : Wire S} (hl : Linked w) (k : Nat) :
    (w.hosts.meter k).prepared +
      ((w.hosts.meter k).channels.map fun op => w.mem.queued w.comp op k).sum ≤ 1 := by
  have hread := queued_le hl .read k
  have hwrite := queued_le hl .write k
  have hsingle := hl.single
  have hactive := Bool.toNat_le w.hosts.core.lsuActive
  rcases k with _ | _ | _ | k
  · have hc := prepared_le hl.icache
    have ha : w.hosts.awaits .read 0 = w.hosts.icache.awaits .read := rfl
    change (if w.hosts.icache.pendingFillReq then 1 else 0) + (w.mem.queued w.comp .read 0 + 0) ≤ 1
    omega
  · have hwf := hl.dcache
    have hm : w.hosts.meter (0 + 1) = w.hosts.dcache.meter := rfl
    have ha : ∀ op, w.hosts.awaits op (0 + 1) = w.hosts.dcache.awaits op := fun _ => rfl
    rw [ha] at hread hwrite
    rw [hm]
    generalize w.hosts.dcache = d at hwf hread hwrite hsingle
    cases d with
    | cached c =>
      have hc := prepared_le hwf
      have hx : (DataPort.cached c).awaits .read = c.awaits .read := rfl
      rw [hx] at hread
      change (if c.pendingFillReq then 1 else 0) + (w.mem.queued w.comp .read (0 + 1) + 0) ≤ 1
      omega
    | uncached c =>
      have hload : (DataPort.uncached c : DataPort S.dcache).load =
        (DataPort.uncached c : DataPort S.dcache).awaits .read +
          (DataPort.uncached c : DataPort S.dcache).awaits .write := rfl
      change 0 + (w.mem.queued w.comp .read (0 + 1) +
        (w.mem.queued w.comp .write (0 + 1) + 0)) ≤ 1
      omega
  · have ha : ∀ op, w.hosts.awaits op (0 + 1 + 1) = w.hosts.bypass.awaits op := fun _ => rfl
    have hload : w.hosts.bypass.load =
      w.hosts.bypass.awaits .read + w.hosts.bypass.awaits .write := rfl
    rw [ha] at hread hwrite
    change 0 + (w.mem.queued w.comp .read (0 + 1 + 1) +
      (w.mem.queued w.comp .write (0 + 1 + 1) + 0)) ≤ 1
    omega
  · exact Nat.zero_le 1

/-- The misses counted at the ports are the requests of the ports, but for one that was under way
when the counters were reset. -/
structure Metered (w : Wire S) : Prop where
  counted : ∀ k, ∃ n ≤ 1, (w.hosts.meter k).misses + n = w.asked k ∧
    (Event.reset ∉ w.mem.hist → n = 0)
  balanced : w.mem.Balanced

theorem metered_init (trace : List TraceInst) (inst : TraceInst) (nxt : Tick) :
    Metered (Sys.init S trace inst nxt).wire := by
  refine ⟨fun k => ⟨0, Nat.zero_le 1, ?_, fun _ => rfl⟩, RAMArbiter.balanced_init⟩
  have htraffic : ∀ op, (Sys.init S trace inst nxt).wire.traffic op k = 0 := by
    intro op
    cases op <;> rfl
  have hport : ((Sys.init S trace inst nxt).hosts.dcache.meter.misses,
      (Sys.init S trace inst nxt).hosts.dcache.meter.prepared) = (0, 0) := by
    change ((if S.hasDcache then DataPort.cached {} else _ : DataPort S.dcache).meter.misses,
      (if S.hasDcache then DataPort.cached {} else _ : DataPort S.dcache).meter.prepared) = _
    split <;> rfl
  have hmeter : ((Sys.init S trace inst nxt).wire.hosts.meter k).misses = 0 ∧
      ((Sys.init S trace inst nxt).wire.hosts.meter k).prepared = 0 := by
    match k with
    | 0 => exact ⟨rfl, rfl⟩
    | 1 => exact ⟨congrArg Prod.fst hport, congrArg Prod.snd hport⟩
    | 2 => exact ⟨rfl, rfl⟩
    | _ + 3 => exact ⟨rfl, rfl⟩
  unfold Wire.asked
  rw [hmeter.1, hmeter.2, funext htraffic]
  simp

private theorem reset_metered {w : Wire S} (hq : w.Rest)
    (hl : Linked { w with hosts := w.hosts.resetStats w.now, mem := w.mem.resetStats }) :
    Metered { w with hosts := w.hosts.resetStats w.now, mem := w.mem.resetStats } := by
  refine ⟨fun k => ⟨_, hl.waiting_le k, ?_, fun h => absurd ?_ h⟩, w.mem.resetStats_balanced⟩
  · have hmisses : ((w.hosts.resetStats w.now).meter k).misses = 0 := by
      match k with
      | 0 => rfl
      | 1 =>
        change w.hosts.dcache.resetStats.meter.misses = 0
        cases w.hosts.dcache <;> rfl
      | 2 => rfl
      | _ + 3 => rfl
    unfold Wire.asked
    dsimp only
    rw [hmisses, Nat.zero_add]
    congr 2
    refine List.map_congr_left fun op _ => ?_
    unfold Wire.traffic RAMArbiter.taken
    dsimp only
    rw [hq.outs, sent_nil, Nat.add_zero]
    have hzero : w.mem.resetStats.begun op k = 0 := by
      cases op <;> rfl
    rw [hzero, Nat.zero_add]
  · exact List.mem_append_right _ (List.mem_singleton.mpr rfl)

theorem Act.metered {ok : Nat → DataPort S.dcache → Prop} {w w' : Wire S} (ha : Act ok w w')
    (hl : Linked w) (h : Metered w) : Metered w' := by
  have hl' := ha.linked hl
  rcases ha.carries hl with ⟨new, hc⟩ | ⟨hq, rfl⟩
  · refine ⟨fun k => ?_, ha.balanced h.balanced⟩
    obtain ⟨n, hn, hcount, hzero⟩ := h.counted k
    have hasked := hc.asked k
    obtain ⟨l, hhist⟩ := ha.hist
    refine ⟨n, hn, by omega, fun hr => hzero fun hmem => hr ?_⟩
    rw [hhist]
    exact List.mem_append_left l hmem
  · exact reset_metered hq hl'

namespace Sys

variable {s : Sys S}

/-- The requests counted at the memory for the misses of port `k`. -/
def served (s : Sys S) (k : Nat) : Nat :=
  ((s.hosts.meter k).channels.map fun op => s.mem.begun op k).sum

/-- Those that have not got there. -/
def onTheWay (s : Sys S) (k : Nat) : Nat :=
  (s.hosts.meter k).prepared + ((s.hosts.meter k).channels.map fun op =>
    s.mem.queued none op k).sum

/-- In every reachable state the misses of each port are the requests that the memory counts for it
and those that have not got there, but for one that was under way when the counters were reset; and
the memory counts the same requests at its hosts and at its devices. -/
theorem misses_reach_memory (h : s.Reachable) :
    (∀ k, ∃ n ≤ 1, (s.hosts.meter k).misses + n = s.served k + s.onTheWay k ∧ s.onTheWay k ≤ 1 ∧
      (Event.reset ∉ s.mem.hist → n = 0)) ∧ s.mem.Balanced := by
  have hI : Linked s.wire ∧ Metered s.wire :=
    h.reachableBy.invariant (I := fun w => Linked w ∧ Metered w)
      (fun trace inst nxt => ⟨.init trace inst nxt, metered_init trace inst nxt⟩)
      fun _ _ ha hw => ⟨ha.linked hw.1, ha.metered hw.1 hw.2⟩
  obtain ⟨hl, hm⟩ := hI
  refine ⟨fun k => ?_, hm.balanced⟩
  obtain ⟨n, hn, hcount, hzero⟩ := hm.counted k
  refine ⟨n, hn, ?_, hl.waiting_le k, hzero⟩
  have hasked : s.wire.asked k = s.served k + s.onTheWay k := by
    have htraffic : ∀ op, s.wire.traffic op k = s.mem.begun op k + s.mem.queued none op k :=
      fun op => rfl
    have hhosts : s.wire.hosts = s.hosts := rfl
    unfold Wire.asked served onTheWay
    rw [funext htraffic, hhosts, List.sum_map_add]
    omega
  exact hcount.trans hasked

/-- Two loads of different blocks in three blocks of code; the second record is of kind `op`. -/
private def twoLoads (op : Nat) : List TraceInst :=
  [load 0x80000000 0x80001000 5, { pc := 0x80000004, dstReg := 1, sysOp := op },
    { pc := 0x80000010, dstReg := 1 }, load 0x80000020 0x80002000 6]

/-- While the third block is on its way the memory has counted two fetches. A reset marker comes
when the first block is under way: after it the memory counts two fetches for the one miss that is
not on its way. -/
theorem misses_reach_memory_loads :
    (∃ s : Sys (Config.plain 5 true), s.Reachable ∧ (s.hosts.meter 0).misses = 3 ∧
      s.onTheWay 0 = 1 ∧ s.served 0 = 2 ∧ (s.hosts.meter 1).misses = 1 ∧ s.served 1 = 1 ∧
      (s.mem.devStats 0).reads + (s.mem.devStats 0).writes = 3) ∧
    ∃ s : Sys (Config.plain 5 true), s.Reachable ∧ (s.hosts.meter 0).misses = 2 ∧
      s.onTheWay 0 = 1 ∧ s.served 0 = 2 ∧ Event.reset ∈ s.mem.hist := by
  constructor
  · obtain ⟨s, hrun, hobs⟩ := exists_of_observed
      (x := run false 160 (init (Config.plain 5 true) (twoLoads Trace.SysNone) {} 0))
      (f := fun s => ((List.range 2).map fun k => ((s.hosts.meter k).misses, s.onTheWay k),
        (s.mem.devStats 0).accesses, decide (Event.reset ∈ s.mem.hist)))
      (b := ([(3, 1), (1, 0)], 3, false)) (by decide +kernel)
    simp only [List.range_succ, List.range_zero, List.nil_append, List.cons_append, List.map_cons,
      List.map_nil, Prod.mk.injEq, List.cons.injEq, and_true, decide_eq_false_iff_not] at hobs
    obtain ⟨⟨⟨hmiss0, hway0⟩, hmiss1, hway1⟩, haccesses, hreset⟩ := hobs
    have hs : s.Reachable := ⟨_, _, _, _, hrun⟩
    obtain ⟨hports, hbalanced⟩ := misses_reach_memory hs
    obtain ⟨n, _, hcount0, _, hn⟩ := hports 0
    obtain ⟨n', _, hcount1, _, hn'⟩ := hports 1
    rw [hn hreset, hmiss0, hway0] at hcount0
    rw [hn' hreset, hmiss1, hway1] at hcount1
    exact ⟨s, hs, hmiss0, hway0, (Nat.succ.inj hcount0).symm, hmiss1, hcount1.symm,
      (hbalanced.kinds 0).trans haccesses⟩
  · obtain ⟨s, hrun, hobs⟩ := exists_of_observed
      (x := run false 160 (init (Config.plain 5 true) (twoLoads Trace.SysResetStats) {} 0))
      (f := fun s => ((s.hosts.meter 0).misses, s.onTheWay 0, s.served 0)) (b := (2, 1, 2))
      (by decide +kernel)
    simp only [Prod.mk.injEq] at hobs
    obtain ⟨hmiss, hway, hserved⟩ := hobs
    have hs : s.Reachable := ⟨_, _, _, _, hrun⟩
    obtain ⟨n, _, hcount, _, hn⟩ := (misses_reach_memory hs).1 0
    rw [hmiss, hway, hserved] at hcount
    refine ⟨s, hs, hmiss, hway, hserved, by_contra fun hno => ?_⟩
    rw [hn hno] at hcount
    exact absurd hcount (by decide)

end Sys

end NpSim.System
