/- digest: Every response of the instruction cache is credited to the fetch that caused it: the
   flags of the core against the requests in the cache, over every action of the system. -/

import NpSim.System.Prediction
import NpSim.System.Waiting

set_option autoImplicit false
set_option relaxedAutoImplicit false

namespace NpSim.Cache

def fetchResps (outs : List CacheOut) : List Addr :=
  outs.filterMap fun o => match o with
    | .cpuResp t => if t.id = 0 then some t.addr else none
    | _ => none

theorem fetchResps_resp (t : CpuTrans) (rest : List CacheOut) : fetchResps (.cpuResp t :: rest) =
    if t.id = 0 then t.addr :: fetchResps rest else fetchResps rest := by
  unfold fetchResps
  rw [List.filterMap_cons]
  dsimp only
  split
  · rename_i a h
    split at h
    · cases h
    · exact (if_neg ‹_›).symm
  · rename_i a h
    split at h
    · cases h
      exact (if_pos ‹_›).symm
    · cases h

theorem fetchResps_of_id {outs : List CacheOut} {k : Nat} (h : ∀ o ∈ outs, o.id = k) :
    fetchResps outs = if k = 0 then (cpuResps outs).map Prod.fst else [] := by
  induction outs with
  | nil =>
    split <;> rfl
  | cons o outs ih =>
    have htail := ih fun x hx => h x (List.mem_cons_of_mem o hx)
    have hid := h o List.mem_cons_self
    cases o with
    | cpuResp t =>
      obtain rfl : t.id = k := hid
      rw [fetchResps_resp]
      by_cases hk : t.id = 0
      · rw [if_pos hk] at htail
        rw [if_pos hk, if_pos hk, htail]
        rfl
      · rw [if_neg hk] at htail
        rw [if_neg hk, if_neg hk, htail]
    | cpuAck a => exact htail
    | memReq m => exact htail

theorem mop_of_cpuResps {outs : List CacheOut} {op : MemRWOpt} (h : ∀ r ∈ cpuResps outs, r.2 = op)
    {t : CpuTrans} (ht : .cpuResp t ∈ outs) : t.mop = op :=
  h (t.addr, t.mop) (List.mem_filterMap.mpr ⟨.cpuResp t, ht, rfl⟩)

namespace PipeCache

variable {P : CacheParams} {c c' : PipeCache P}

theorem Effect.in_order {new : List (Addr × MemRWOpt)} {outs : List CacheOut} (hi : Immediate P)
    (h : Effect new c outs c') : c.pending.map CachePipeEntry.req ++ new =
      cpuResps outs ++ c'.pending.map CachePipeEntry.req := by
  obtain ⟨k, hk, hresp⟩ := h.served
  have hlog := h.log
  rw [PipeCache.log, PipeCache.log, hk, List.map_append, List.map_append, List.map_append,
    List.append_assoc, List.append_assoc] at hlog
  rw [hresp hi]
  exact (List.append_cancel_left hlog).symm

end PipeCache

end NpSim.Cache

namespace NpSim.System

open NpSim.Lib.Partial NpSim.Cache NpSim.Mem NpSim.Pipe NpSim.Pipe.Pipeline Relation

section Core

variable {K : PipelineParams} {now : Nat} {ports : Ports} {c c' : Pipeline K} {base : List Addr}

/-- The fetches that the core has asked for and not handed over. -/
def asked (c : Pipeline K) : List Addr := c.calls.filterMap PortCall.fetchAddr

/-- The queue and the flags of the core match the requests `base` in the cache and its own. -/
def Matches (base : List Addr) (c : Pipeline K) : Prop :=
  Paired c.fetchQueue c.fetch.respIsOrphan (base ++ asked c)

theorem Matches.congr (h : Matches base c) (hq : c'.fetchQueue = c.fetchQueue)
    (hf : c'.fetch.respIsOrphan = c.fetch.respIsOrphan) (hc : asked c' = asked c) :
    Matches base c' := by
  unfold Matches
  rw [hq, hf, hc]
  exact h

private theorem asked_fetch {addr : Addr} (h : c'.calls = c.calls ++ [.fetch addr]) :
    base ++ asked c' = base ++ asked c ++ [addr] := by
  unfold asked
  rw [h, List.filterMap_append, List.append_assoc]
  rfl

private theorem Matches.request (h : Matches base c) {y : Transaction} (hy : y.waitMem = true)
    (hq : c'.fetchQueue = c.fetchQueue ++ [y])
    (hf : c'.fetch.respIsOrphan = c.fetch.respIsOrphan ++ [false])
    (hc : c'.calls = c.calls ++ [.fetch y.traceInst.pc]) : Matches base c' := by
  unfold Matches
  rw [hq, hf, asked_fetch hc]
  exact Paired.request h hy

private theorem Matches.orphan (h : Matches base c) {addr : Addr}
    (hq : c'.fetchQueue = c.fetchQueue)
    (hf : c'.fetch.respIsOrphan = c.fetch.respIsOrphan ++ [true])
    (hc : c'.calls = c.calls ++ [.fetch addr]) : Matches base c' := by
  unfold Matches
  rw [hq, hf, asked_fetch hc]
  exact Paired.orphan h addr

private theorem Matches.flushIf (h : Matches base c) (b : Bool) (now : Nat) :
    Matches base (c.flushIf b now) := by
  cases b with
  | false => exact h
  | true => exact Paired.flush h

private theorem doFetch0_matches (ready : Bool) (h : Matches base c) :
    Matches base (c.doFetch0 now ready) := by
  have hend : c.endWrongPath.fetchQueue = c.fetchQueue ∧
      c.endWrongPath.fetch.respIsOrphan = c.fetch.respIsOrphan ∧
      c.endWrongPath.calls = c.calls := by
    unfold endWrongPath
    split <;> exact ⟨rfl, rfl, rfl⟩
  rcases doFetch0_cases now ready c with ⟨_, he⟩ | ⟨_, he, _⟩ | ⟨_, _, _, he⟩ |
    ⟨_, _, _, _, _, _, he⟩ | ⟨_, _, _, _, ⟨_, he⟩ | ⟨x, _, _, he⟩⟩
  · rw [he]
    exact h
  · rw [he]
    exact h
  · rw [he]
    exact h.orphan rfl rfl rfl
  · obtain ⟨b, a, f, heq, _, hf, _⟩ := fetchWrongPath_eq now c
    rw [he, heq]
    exact h.request (y := .wrongPath c.fetch.wrongPathPc) rfl rfl hf rfl
  · rw [he]
    exact h.congr hend.1 hend.2.1 (congrArg (List.filterMap _) hend.2.2)
  · obtain ⟨y, b, a, f, ps, n, heq, hy, _, hf, _⟩ := fetchReal_eq now x c.endWrongPath
    obtain ⟨hold, pred, miss, rfl⟩ := hy.same
    rw [he, heq]
    exact h.request (y := { x with
        waitMem := true, bpMetaHold := hold, brPred := pred, brMispred := miss }) rfl
      (congrArg (· ++ [_]) hend.1) (hf.trans (congrArg (· ++ [false]) hend.2.1))
      (congrArg (· ++ [.fetch x.traceInst.pc]) hend.2.2)

private theorem mext_matches {s : PipeStage} {lat : Nat} (h : Matches base c)
    (hx : MextCases now c c' s lat) : Matches base c' := by
  obtain ⟨x, _, _, ⟨_, rfl⟩ | ⟨b, l, d, _, rfl, rfl⟩⟩ := hx
  · exact h
  · exact Matches.flushIf (c := { c with bpu := b, events := l }) h _ now

theorem CoreWork.matches (hx : CoreWork now ports c c') (h : Matches base c) :
    Matches base c' := by
  cases hx with
  | beginTick => exact h
  | stage i due hx =>
    cases i with
    | fetch =>
      rcases doFetch1_cases hx with ⟨_, rfl⟩ | ⟨p, rest, hq, hp, _, rfl⟩ |
        ⟨p, rest, hq, hp, _, _, rfl⟩
      · exact h
      · unfold Matches at h
        rw [hq] at h
        have hnew : ∀ x ∈ [{ p with bpMetaHold := p.bpMetaHold - 1 }], x.waitMem = false := by
          intro x hx
          rw [List.mem_singleton.mp hx]
          exact hp
        exact Paired.head h hp hnew
      · unfold Matches at h
        rw [hq] at h
        have hnew : ∀ x ∈ ([] : List Transaction), x.waitMem = false := fun x hx =>
          absurd hx List.not_mem_nil
        exact Paired.head h hp hnew
    | decode =>
      obtain ⟨x, a, _, _, ⟨_, rfl⟩ | ⟨w, _, _, _, rfl⟩ | ⟨_, rfl⟩⟩ := doDecode_cases hx <;> exact h
    | execute =>
      obtain ⟨x, _, _, ⟨_, rfl⟩ | ⟨b, l, d, _, rfl, rfl⟩⟩ := doExecute_cases hx
      · exact h
      · exact Matches.flushIf (c := { c with bpu := b, events := l }) h _ now
    | intMulExt => exact mext_matches h (doMulExt_cases hx)
    | intDivExt => exact mext_matches h (doDivExt_cases hx)
    | memory =>
      obtain ⟨x, _, ⟨_, _, rfl⟩ | ⟨_, _, rfl⟩ | ⟨_, _, rfl⟩ | ⟨op, _, _, _, _, rfl⟩ |
        ⟨_, _, _, _, _, rfl⟩ | ⟨_, _, _, rfl⟩⟩ := doMemory_cases hx
      · exact h
      · exact h
      · exact h
      · refine h.congr rfl rfl ?_
        change (c.calls ++ [lsuCall K x.traceInst op]).filterMap PortCall.fetchAddr = _
        rw [List.filterMap_append]
        exact List.append_nil _
      · exact h
      · exact h
    | writeBack =>
      rcases doWriteback_cases hx with ⟨_, rfl⟩ | ⟨_, _, _, _, _, rfl⟩ <;> exact h
  | fetch0 => exact doFetch0_matches ports.imem h
  | sched => exact h
  | buffer inst hin => exact h
  | drain => exact h

theorem handleLsuResp_matches (hx : c.handleLsuResp now = .ok c') (h : Matches base c) :
    Matches base c' := by
  obtain ⟨x, a, _, _, _, _, rfl⟩ := handleLsuResp_cases hx
  exact h

theorem ackMemAvail_matches {a : AckTrans} (hx : c.ackMemAvail now a = .ok c')
    (h : Matches base c) : Matches base c' := by
  rcases ackMemAvail_cases hx with ⟨_, rfl⟩ | ⟨_, ⟨x, _, _, _, rfl⟩ | ⟨_, rfl⟩⟩ <;> exact h

/-- What an instruction response for the address `a` does to the core: an orphan is ignored, any
other response clears `wait_mem` of the oldest entry that waits, and that entry is one for `a`. -/
inductive Credits (now : Nat) (a : Addr) (c : Pipeline K) : Pipeline K → Prop
  | orphan (rest : List Bool) (h : c.fetch.respIsOrphan = true :: rest) :
      Credits now a c { c with fetch := { c.fetch with respIsOrphan := rest } }
  | entry (rest : List Bool) (done : List Transaction) (y : Transaction) (wait : List Transaction)
      (h : c.fetch.respIsOrphan = false :: rest) (hq : c.fetchQueue = done ++ y :: wait)
      (hd : ∀ x ∈ done, x.waitMem = false) (hw : y.waitMem = true) (ha : y.traceInst.pc = a) :
      Credits now a c { c with
        fetch := { c.fetch with respIsOrphan := rest }
        fetchQueue := done ++ { y with waitMem := false } :: wait
        stageUpdate := Function.update c.stageUpdate .fetch ((now + 1 : Nat) : Tick)
        calcNxtupd := min c.calcNxtupd ((now + 1 : Nat) : Tick) }

/-- An instruction response finds its flag, and what it does to the core is to credit it. -/
theorem Matches.respond (now : Nat) {a : Addr} (h : Matches (a :: base) c) :
    ∃ c', c.handleIfuResp now = .ok c' ∧ Credits now a c c' ∧ Matches base c' := by
  have hlen := h.length
  cases hf : c.fetch.respIsOrphan with
  | nil =>
    rw [hf] at hlen
    cases hlen
  | cons b rest =>
    unfold Matches at h
    rw [hf] at h
    unfold handleIfuResp
    rw [hf]
    dsimp only
    cases b with
    | true => exact ⟨_, if_pos rfl, .orphan rest hf, h.ignore⟩
    | false =>
      obtain ⟨done, y, wait, hq, hd, hy, ha, hans, hpair⟩ := h.respond
      rw [if_neg (by decide), hans]
      exact ⟨_, asyncSchedule_eq_ok.mpr ⟨by exact_mod_cast Nat.le_succ now, rfl⟩,
        .entry rest done y wait hf hq hd hy ha, hpair⟩

end Core

variable {S : Config}

/-- The addresses of the fetches in flight: the responses on their way to the core, the requests in
the cache, and those on their way to the cache. -/
def Wire.inFlight (w : Wire S) : List Addr :=
  fetchResps w.outs ++ (w.hosts.icache.pending.map (·.addr) ++
    w.calls.filterMap PortCall.fetchAddr)

/-- What ties the fetches of the core to the instruction cache. -/
structure Matched (w : Wire S) : Prop where
  core : Matches w.inFlight w.hosts.core
  reads : ∀ e ∈ w.hosts.icache.pending, e.mop = .read
  resps : ∀ t, .cpuResp t ∈ w.outs → t.id = 0 → t.mop = .read

namespace Matched

variable {w : Wire S}

theorem init (trace : List TraceInst) (inst : TraceInst) (nxt : Tick) :
    Matched (Sys.init S trace inst nxt).wire := by
  have hpend : ({} : PipeCache S.icache).pending = [] := by
    change (List.replicate S.icache.pipeDepth none).reverse.filterMap id = []
    rw [List.reverse_replicate, List.filterMap_replicate]
    rfl
  refine ⟨?_, fun e he => ?_, fun t ht => absurd ht List.not_mem_nil⟩
  · change Paired [] [] ([] ++ (({} : PipeCache S.icache).pending.map (·.addr) ++ []) ++ [])
    rw [hpend]
    exact .nil
  · change e ∈ ({} : PipeCache S.icache).pending at he
    rw [hpend] at he
    cases he

private theorem congr {w' : Wire S} (h : Matched w) (hi : w'.inFlight = w.inFlight)
    (hc : w'.hosts.core = w.hosts.core)
    (hp : w'.hosts.icache.pending = w.hosts.icache.pending)
    (ho : ∀ t, .cpuResp t ∈ w'.outs → t.id = 0 → t.mop = .read) : Matched w' := by
  refine ⟨?_, ?_, ho⟩
  · rw [hi, hc]
    exact h.core
  · rw [hp]
    exact h.reads

private theorem resps_of_id {outs : List CacheOut} {k : Nat} (hk : k ≠ 0)
    (h : ∀ o ∈ outs, o.id = k) : fetchResps outs = [] ∧
      ∀ t, .cpuResp t ∈ outs → t.id = 0 → t.mop = .read := by
  refine ⟨?_, fun t ht hid => absurd ((h _ ht).symm.trans hid) hk⟩
  rw [fetchResps_of_id h, if_neg hk]

private theorem port {hosts : Hosts S} {mem : RAMArbiter S.mem} {outs : List CacheOut}
    {calls : List PortCall} {comp : Option MemRWOpt} {k : Nat} (h : Matched w) (hk : k ≠ 0)
    (ho : w.outs = []) (hids : ∀ o ∈ outs, o.id = k) (hc : hosts.core = w.hosts.core)
    (hi : hosts.icache = w.hosts.icache)
    (hcalls : calls.filterMap PortCall.fetchAddr = w.calls.filterMap PortCall.fetchAddr) :
    Matched { w with hosts := hosts, mem := mem, outs := outs, calls := calls, comp := comp } := by
  obtain ⟨hresps, hmop⟩ := resps_of_id hk hids
  refine h.congr ?_ hc (congrArg _ hi) hmop
  unfold Wire.inFlight
  dsimp only
  rw [hresps, ho, hi, hcalls]
  rfl

theorem resp {t : CpuTrans} {rest : List CacheOut} {c : Pipeline S.core} (h : Matched w)
    (ho : w.outs = .cpuResp t :: rest) (hc : w.hosts.core.recvMemResp w.now t = .ok c) :
    Matched { w with hosts := { w.hosts with core := c }, outs := rest } := by
  have hcore := h.core
  have hrest : ∀ x, .cpuResp x ∈ rest → x.id = 0 → x.mop = .read := fun x hx =>
    h.resps x (ho ▸ List.mem_cons_of_mem _ hx)
  unfold Wire.inFlight at hcore
  rw [ho, fetchResps_resp] at hcore
  rcases recvMemResp_cases hc with ⟨hid, _, hc⟩ | ⟨hid, hc⟩
  · rw [if_pos hid] at hcore
    obtain ⟨c', hc', _, hm⟩ := hcore.respond w.now
    cases hc.symm.trans hc'
    exact ⟨hm, h.reads, hrest⟩
  · have hne : ¬t.id = 0 := by omega
    rw [if_neg hne] at hcore
    exact ⟨handleLsuResp_matches hc hcore, h.reads, hrest⟩

theorem ack {a : AckTrans} {rest : List CacheOut} {c : Pipeline S.core} (h : Matched w)
    (ho : w.outs = .cpuAck a :: rest) (hc : w.hosts.core.ackMemAvail w.now a = .ok c) :
    Matched { w with hosts := { w.hosts with core := c }, outs := rest } := by
  have hcore := h.core
  unfold Wire.inFlight at hcore
  rw [ho] at hcore
  exact ⟨ackMemAvail_matches hc hcore, h.reads, fun x hx => h.resps x
    (ho ▸ List.mem_cons_of_mem _ hx)⟩

theorem take (h : Matched w) (hq : w.Rest) :
    Matched { w with
      hosts := { w.hosts with core := { w.hosts.core with calls := [] } }
      calls := w.hosts.core.calls } := by
  refine ⟨?_, h.reads, h.resps⟩
  have hcore := h.core
  unfold Matches Wire.inFlight at hcore
  rw [hq.calls, List.filterMap_nil, List.append_nil, List.append_assoc] at hcore
  change Paired w.hosts.core.fetchQueue w.hosts.core.fetch.respIsOrphan
    (fetchResps w.outs ++ (w.hosts.icache.pending.map (·.addr) ++ asked w.hosts.core) ++ [])
  rw [List.append_nil]
  exact hcore

private theorem icache {hosts : Hosts S} {mem : RAMArbiter S.mem} {outs : List CacheOut}
    {calls : List PortCall} {comp : Option MemRWOpt} {new : List (Addr × MemRWOpt)}
    (h : Matched w) (ho : w.outs = []) (hids : ∀ o ∈ outs, o.id = 0)
    (heff : PipeCache.Effect new w.hosts.icache outs hosts.icache)
    (hnew : ∀ r ∈ new, r.2 = .read) (hc : hosts.core = w.hosts.core)
    (hcalls : w.calls.filterMap PortCall.fetchAddr =
      new.map Prod.fst ++ calls.filterMap PortCall.fetchAddr) :
    Matched { w with hosts := hosts, mem := mem, outs := outs, calls := calls, comp := comp } := by
  have horder := heff.in_order S.icache_immediate
  have hreads : ∀ r ∈ cpuResps outs ++ hosts.icache.pending.map CachePipeEntry.req,
      r.2 = .read := by
    intro r hr
    rw [← horder, List.mem_append, List.mem_map] at hr
    rcases hr with ⟨e, he, rfl⟩ | hr
    · exact h.reads e he
    · exact hnew r hr
  have haddrs := congrArg (List.map Prod.fst) horder
  rw [List.map_append, List.map_append, List.map_map, List.map_map] at haddrs
  have hcore := h.core
  refine ⟨?_, fun e he => ?_, fun t ht _ => mop_of_cpuResps (fun r hr => ?_) ht⟩
  · have hflow : w.inFlight = fetchResps outs ++ (hosts.icache.pending.map (·.addr) ++
        calls.filterMap PortCall.fetchAddr) := by
      unfold Wire.inFlight
      rw [ho, hcalls, fetchResps_of_id hids, if_pos rfl, ← List.append_assoc, ← List.append_assoc,
        ← List.append_assoc]
      exact congrArg (· ++ calls.filterMap PortCall.fetchAddr) haddrs
    rw [hflow, ← hc] at hcore
    exact hcore
  · exact hreads e.req (List.mem_append_right _ (List.mem_map_of_mem he))
  · exact hreads r (List.mem_append_left _ hr)

theorem fetch {addr : Addr} {rest : List PortCall} {c : PipeCache S.icache} (h : Matched w)
    (hl : Linked w) (ho : w.outs = []) (hcalls : w.calls = .fetch addr :: rest)
    (hc : w.hosts.icache.readReq w.now addr = .ok c) :
    Matched { w with hosts := { w.hosts with icache := c }, calls := rest } := by
  obtain ⟨_, heff, _⟩ := hl.icache.enqueue ⟨rfl, rfl, rfl, rfl⟩ hc
  have hm : Matched { w with
      hosts := { w.hosts with icache := c }, outs := [], calls := rest } :=
    h.icache ho (fun o hx => absurd hx List.not_mem_nil) heff
      (fun r hr => by rw [List.mem_singleton.mp hr]; rfl) rfl (by rw [hcalls]; rfl)
  rw [← ho] at hm
  exact hm

theorem updateIcache {c : PipeCache S.icache} {outs : List CacheOut} (h : Matched w)
    (hl : Linked w) (hq : w.Rest) (hc : w.hosts.icache.doUpdate w.now = .ok (c, outs)) :
    Matched { w with hosts := { w.hosts with icache := c }, outs := outs } := by
  have hids := hl.icache.doUpdate_id S.icache_immediate hc
  rw [S.icache_id] at hids
  exact h.icache hq.outs hids (hl.icache.doUpdate hc).2.1
    (fun r hr => absurd hr List.not_mem_nil) rfl rfl

theorem answer {op : MemRWOpt} {k : Nat} {m : MemTrans} {mem : RAMArbiter S.mem} {hosts : Hosts S}
    {outs : List CacheOut} (h : Matched w) (hl : Linked w) (hq : w.Rest)
    (hr : w.hosts.receive w.now k m = .ok (hosts, outs)) :
    Matched { w with hosts := hosts, outs := outs, comp := some op, mem := mem } := by
  unfold Hosts.receive at hr
  split at hr
  · obtain ⟨c, hc, hr⟩ := bind_eq_ok.mp hr
    cases hr
    exact h.icache hq.outs (fun o ho => absurd ho List.not_mem_nil) (hl.icache.recvMemResp hc).2.1
      (fun r hr => absurd hr List.not_mem_nil) rfl rfl
  · split at hr
    · obtain ⟨⟨d, o⟩, hd, hr⟩ := bind_eq_ok.mp hr
      cases hr
      have hids := (hl.dcache.recvMemResp_gets S.dcache_immediate hd).ids
      rw [hl.dcacheId] at hids
      exact h.port (k := 1) (by decide) hq.outs hids rfl rfl rfl
    · obtain ⟨⟨b, o⟩, hb, hr⟩ := bind_eq_ok.mp hr
      cases hr
      have hd : (DataPort.uncached w.hosts.bypass : DataPort S.dcache).recvMemResp w.now m =
          .ok (.uncached b, outs) := by
        unfold DataPort.recvMemResp
        dsimp only
        rw [hb]
        rfl
      have hids := (DataPort.WellFormed.recvMemResp_gets S.dcache_immediate
        (d := .uncached w.hosts.bypass) trivial hd).ids
      change ∀ o ∈ outs, o.id = w.hosts.bypass.cacheId at hids
      rw [hl.bypassId] at hids
      exact h.port (k := 2) (by decide) hq.outs hids rfl rfl rfl

theorem request {op : MemRWOpt} {addr : Addr} {data : Word} {strb : BitVec 8}
    {rest : List PortCall} {d : DataPort S.dcache} {outs : List CacheOut} (h : Matched w)
    (hl : Linked w) (ho : w.outs = []) (hcalls : w.calls = .lsu false op addr data strb :: rest)
    (hd : w.hosts.dcache.request w.now op addr data strb = .ok (d, outs)) :
    Matched { w with hosts := { w.hosts with dcache := d }, outs := outs, calls := rest } := by
  have hids := (hl.dcache.request_does S.dcache_immediate S.dcache_writeBack hd).ids
  rw [hl.dcacheId] at hids
  exact h.port (k := 1) (by decide) ho hids rfl rfl (by rw [hcalls]; rfl)

theorem bypass {op : MemRWOpt} {addr : Addr} {data : Word} {strb : BitVec 8}
    {rest : List PortCall} {b : NoCache} {m : MemTrans} (h : Matched w) (ho : w.outs = [])
    (hcalls : w.calls = .lsu true op addr data strb :: rest) :
    Matched { w with
      hosts := { w.hosts with bypass := b }, outs := [.memReq m], calls := rest } := by
  refine h.congr ?_ rfl rfl fun t ht => absurd (List.mem_singleton.mp ht) CacheOut.noConfusion
  unfold Wire.inFlight
  rw [ho, hcalls]
  rfl

theorem updateDcache {d : DataPort S.dcache} {outs : List CacheOut} (h : Matched w)
    (hl : Linked w) (hq : w.Rest) (hd : w.hosts.dcache.doUpdate w.now = .ok (d, outs)) :
    Matched { w with hosts := { w.hosts with dcache := d }, outs := outs } := by
  have hids := (hl.dcache.doUpdate_does S.dcache_immediate hd).ids
  rw [hl.dcacheId] at hids
  exact h.port (k := 1) (by decide) hq.outs hids rfl rfl rfl

end Matched

/-- Every action keeps the fetches matched. -/
theorem Act.matched {ok : Nat → DataPort S.dcache → Prop} {w w' : Wire S} (ha : Act ok w w')
    (hl : Linked w) (h : Matched w) : Matched w' := by
  cases ha with
  | tick hq => exact ⟨h.core, h.reads, h.resps⟩
  | resp ho hc => exact h.resp ho hc
  | ack ho hc => exact h.ack ho hc
  | @send m rest mem ho hm =>
    refine h.congr ?_ rfl rfl fun t ht => h.resps t (ho ▸ List.mem_cons_of_mem _ ht)
    unfold Wire.inFlight
    rw [ho]
    rfl
  | core hq hc => exact ⟨hc.matches h.core, h.reads, h.resps⟩
  | take hq => exact h.take hq
  | fetch ho hcalls hc => exact h.fetch hl ho hcalls hc
  | request ho hcalls hd => exact h.request hl ho hcalls hd
  | bypass ho hcalls hb => exact h.bypass ho hcalls
  | dcache hq _ hd => exact h.updateDcache hl hq hd
  | icache hq hc => exact h.updateIcache hl hq hc
  | flush hq => exact ⟨h.core, h.reads, h.resps⟩
  | reset hq => exact ⟨h.core, h.reads, h.resps⟩
  | answer hq hdue hreq hr => exact h.answer hl hq hr
  | free ho hcomp hnone => exact ⟨h.core, h.reads, h.resps⟩
  | next ho hcomp hg htop hs => exact ⟨h.core, h.reads, h.resps⟩

/-- Between two calls of the main loop the flags and the queue match the requests in the instruction
cache, and every response that an update of this cache gives, also the one after a flush, is
credited to the fetch that caused it. -/
structure FetchesCredited (s : Sys S) : Prop where
  paired : Paired s.hosts.core.fetchQueue s.hosts.core.fetch.respIsOrphan
    (s.hosts.icache.pending.map (·.addr))
  credited : ∀ h : Hosts S, h = s.hosts ∨ h = { s.hosts with
      icache := s.hosts.icache.flushAll, dcache := s.hosts.dcache.flushAll } →
    ∀ c outs, h.icache.doUpdate s.tick = .ok (c, outs) →
    ∀ before t after, outs = before ++ .cpuResp t :: after →
    ∀ r, Hosts.deliver s.tick before ({ h with icache := c }, s.mem) = .ok r →
    ∃ core, r.1.core.recvMemResp s.tick t = .ok core ∧ Credits s.tick t.addr r.1.core core

namespace Sys

variable {s : Sys S}

theorem Reachable.matched (h : s.Reachable) : Linked s.wire ∧ Matched s.wire :=
  h.reachableBy.invariant (I := fun w => Linked w ∧ Matched w)
    (fun trace inst nxt => ⟨.init trace inst nxt, .init trace inst nxt⟩)
    fun _ _ ha hw => ⟨ha.linked hw.1, ha.matched hw.1 hw.2⟩

private theorem credited_update {hosts : Hosts S} {now : Nat} {mem : RAMArbiter S.mem}
    (hl : Linked ⟨now, hosts, mem, [], [], none⟩) (hm : Matched ⟨now, hosts, mem, [], [], none⟩)
    {c : PipeCache S.icache} {outs before after : List CacheOut} {t : CpuTrans}
    (hc : hosts.icache.doUpdate now = .ok (c, outs)) (ho : outs = before ++ .cpuResp t :: after)
    {r : Hosts S × RAMArbiter S.mem}
    (hr : Hosts.deliver now before ({ hosts with icache := c }, mem) = .ok r) :
    ∃ core, r.1.core.recvMemResp now t = .ok core ∧ Credits now t.addr r.1.core core := by
  have hrun : ReflTransGen (Act fun _ _ => True) ⟨now, hosts, mem, [], [], none⟩
      ⟨now, r.1, r.2, .cpuResp t :: after, [], none⟩ := by
    refine .head (.icache ⟨rfl, rfl, rfl⟩ hc) ?_
    rw [ho]
    exact Act.of_deliver_first (.cpuResp t :: after) [] none hr
  have hI := invariant_of_run (I := fun w : Wire S => Linked w ∧ Matched w)
    (fun _ _ ha hw => ⟨ha.linked hw.1, ha.matched hw.1 hw.2⟩) ⟨hl, hm⟩ hrun
  have hid : t.id = 0 := by
    have hids := hl.icache.doUpdate_id S.icache_immediate hc (.cpuResp t)
      (ho ▸ List.mem_append_right _ List.mem_cons_self)
    rwa [S.icache_id] at hids
  have hcore := hI.2.core
  unfold Wire.inFlight at hcore
  rw [fetchResps_resp, if_pos hid] at hcore
  obtain ⟨core, hresp, hcred, _⟩ := hcore.respond now
  refine ⟨core, ?_, hcred⟩
  unfold Pipeline.recvMemResp
  rw [if_pos hid, require_of (hI.2.resps t List.mem_cons_self hid)]
  exact hresp

/-- In every run of the system the fetches are credited. -/
theorem Reachable.fetches_credited (h : s.Reachable) : FetchesCredited s := by
  obtain ⟨hl, hm⟩ := h.matched
  refine ⟨?_, ?_⟩
  · have hp := hm.core
    unfold Matches Wire.inFlight asked at hp
    change Paired s.hosts.core.fetchQueue s.hosts.core.fetch.respIsOrphan
      ([] ++ (s.hosts.icache.pending.map (·.addr) ++ []) ++
        s.hosts.core.calls.filterMap PortCall.fetchAddr) at hp
    rw [h.no_calls, List.nil_append, List.append_nil, List.filterMap_nil, List.append_nil] at hp
    exact hp
  · rintro x (rfl | rfl) c outs hc before t after ho r hr
    · exact credited_update hl hm hc ho hr
    · exact credited_update hl.flush ⟨hm.core, hm.reads, hm.resps⟩ hc ho hr

def branchAndTarget : List TraceInst := [br 0x80000000 0x80000040 true, use 0x80000040 0]

/-- Behind the branch two fetches of the wrong path are in flight. -/
theorem fetches_credited_branch : ∃ s : Sys (Config.plain 0 true), s.Reachable ∧
    s.hosts.core.fetch.respIsOrphan = [false, false] ∧
    s.hosts.icache.pending.map (·.addr) = [0x80000004, 0x80000008] ∧
    s.hosts.core.fetchQueue.map (·.waitMem) = [false, true, true] ∧ FetchesCredited s := by
  obtain ⟨s, hrun, hobs⟩ := exists_of_observed
    (x := run false 51 (init (Config.plain 0 true) branchAndTarget {} 0))
    (f := fun s => (s.hosts.core.fetch.respIsOrphan, s.hosts.icache.pending.map (·.addr),
      s.hosts.core.fetchQueue.map (·.waitMem)))
    (b := ([false, false], [0x80000004, 0x80000008], [false, true, true])) (by decide +kernel)
  have hs : s.Reachable := ⟨_, _, _, _, hrun⟩
  exact ⟨s, hs, congrArg Prod.fst hobs, congrArg (·.2.1) hobs, congrArg (·.2.2) hobs,
    hs.fetches_credited⟩

end Sys

end NpSim.System
