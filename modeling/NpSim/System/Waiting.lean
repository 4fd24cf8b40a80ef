/- digest: The core has one data access under way on its two data ports, and so a read waits for at
   most one other read, and at most one write is pending. -/

import NpSim.Mem.Turns
import NpSim.System.Hazards
import NpSim.System.Links

set_option autoImplicit false
set_option relaxedAutoImplicit false

namespace NpSim.System

open NpSim.Lib.Partial NpSim.Cache NpSim.Mem NpSim.Pipe NpSim.Pipe.Pipeline Relation

def lsuCalls (l : List PortCall) : Nat :=
  l.countP fun call => match call with
    | .fetch _ => false
    | .lsu .. => true

theorem lsuCalls_append (l m : List PortCall) : lsuCalls (l ++ m) = lsuCalls l + lsuCalls m :=
  List.countP_append

theorem lsuCalls_lsu (nc : Bool) (op : MemRWOpt) (addr : Addr) (data : Word) (strb : BitVec 8)
    (rest : List PortCall) : lsuCalls (.lsu nc op addr data strb :: rest) = lsuCalls rest + 1 :=
  List.countP_cons_of_pos rfl

section Core

variable {K : PipelineParams} {now : Nat} {ports : Ports} {c c' : Pipeline K}

/-- What the core asks of its ports in a piece of work: nothing, a fetch, or a data access, which it
then waits for. -/
inductive Asks (c c' : Pipeline K) : Prop
  | nothing (calls : c'.calls = c.calls) (same : c'.lsuActive = c.lsuActive)
  | fetch (addr : Addr) (calls : c'.calls = c.calls ++ [.fetch addr])
      (same : c'.lsuActive = c.lsuActive)
  | access (inst : TraceInst) (op : MemRWOpt) (hop : lsuOp inst = some op)
      (calls : c'.calls = c.calls ++ [lsuCall K inst op]) (idle : c.lsuActive = false)
      (busy : c'.lsuActive = true)

private theorem lsuActive_congr (h : c'.simPipe .execute = c.simPipe .execute) :
    c'.lsuActive = c.lsuActive := by
  unfold lsuActive
  rw [h]

private theorem lsuActive_some {x : Transaction} (h : c.simPipe .execute = some x) :
    c.lsuActive = x.waitMem := by
  unfold lsuActive
  rw [h]

private theorem lsuActive_put {f : PipeStage → Option Transaction} {y : Transaction}
    (h : c.simPipe = Function.update f .execute (some y)) : c.lsuActive = y.waitMem := by
  refine lsuActive_some ?_
  rw [h, Function.update_self]

private theorem lsuActive_other {i : PipeStage} {o : Option Transaction}
    (hi : PipeStage.execute ≠ i) (h : c'.simPipe = Function.update c.simPipe i o) :
    c'.lsuActive = c.lsuActive := by
  refine lsuActive_congr ?_
  rw [h, Function.update_of_ne hi]

private theorem lsuActive_none (h : c.simPipe .execute = none) : c.lsuActive = false := by
  unfold lsuActive
  rw [h]

private theorem flushIf_asks (b : Bool) (now : Nat) (c : Pipeline K) :
    (c.flushIf b now).calls = c.calls ∧
      (c.flushIf b now).simPipe .execute = c.simPipe .execute := by
  cases b with
  | false => exact ⟨rfl, rfl⟩
  | true =>
    refine ⟨rfl, ?_⟩
    change Function.update c.simPipe .fetch none .execute = _
    rw [Function.update_of_ne (by decide)]

private theorem doFetch0_asks (ready : Bool) : Asks c (c.doFetch0 now ready) := by
  have hend : c.endWrongPath.calls = c.calls ∧ c.endWrongPath.lsuActive = c.lsuActive := by
    unfold endWrongPath
    split <;> exact ⟨rfl, rfl⟩
  rcases doFetch0_cases now ready c with ⟨_, he⟩ | ⟨_, he, _⟩ | ⟨_, _, _, he⟩ |
    ⟨_, _, _, _, _, _, he⟩ | ⟨_, _, _, _, ⟨_, he⟩ | ⟨x, _, _, he⟩⟩
  · rw [he]
    exact .nothing rfl rfl
  · rw [he]
    exact .nothing rfl rfl
  · rw [he]
    exact .fetch _ rfl rfl
  · obtain ⟨b, a, f, heq, _⟩ := fetchWrongPath_eq now c
    rw [he, heq]
    exact .fetch _ rfl rfl
  · rw [he]
    exact .nothing hend.1 hend.2
  · obtain ⟨y, b, a, f, ps, n, heq, _⟩ := fetchReal_eq now x c.endWrongPath
    rw [he, heq]
    exact .fetch _ (congrArg (· ++ [.fetch x.traceInst.pc]) hend.1) hend.2

private theorem doExecute_asks (hs : Sane c) (hslot : c.simPipe .execute = none)
    (h : c.doExecute now = .ok c') : Asks c c' := by
  obtain ⟨x, hd, _, ⟨_, rfl⟩ | ⟨b, l, d, _, rfl, rfl⟩⟩ := doExecute_cases h
  · exact .nothing rfl rfl
  · have hw : x.waitMem = false := hs.settled.of_ne (by decide) hd
    refine .nothing (flushIf_asks x.brMispred now { c with bpu := b, events := l }).1 ?_
    rw [lsuActive_none hslot, ← hw]
    exact lsuActive_put (y := { x with execAt := now }) rfl

private theorem mext_asks {s : PipeStage} {lat : Nat} (hs : s ≠ .execute)
    (h : MextCases now c c' s lat) : Asks c c' := by
  obtain ⟨x, hd, _, ⟨_, rfl⟩ | ⟨b, l, d, _, rfl, rfl⟩⟩ := h
  · exact .nothing rfl rfl
  · obtain ⟨hcalls, hslot⟩ := flushIf_asks (!x.traceInst.isBranch && x.brMispred) now
      { c with bpu := b, events := l }
    refine .nothing hcalls (lsuActive_congr ?_)
    unfold mextIssued noteReady
    dsimp only
    rw [Function.update_of_ne hs.symm, Function.update_of_ne (by decide)]
    exact hslot

private theorem doMemory_asks (hnc : K.hasNc = true) (h : c.doMemory now ports = .ok c') :
    Asks c c' := by
  have hleg : ∀ inst, legacyMmio K inst = false := fun inst => by
    unfold legacyMmio
    rw [hnc, Bool.not_true, Bool.and_false]
  obtain ⟨x, he, ⟨_, hl, _⟩ | ⟨_, _, rfl⟩ | ⟨_, hl, _⟩ | ⟨op, hw, _, hop, _, rfl⟩ |
    ⟨_, _, _, _, _, rfl⟩ | ⟨hw, _, _, rfl⟩⟩ := doMemory_cases h
  · cases (hleg x.traceInst).symm.trans hl
  · exact .nothing rfl rfl
  · cases (hleg x.traceInst).symm.trans hl
  · exact .access x.traceInst op hop rfl ((lsuActive_some he).trans hw)
      (lsuActive_put (y := { x with waitMem := true }) rfl)
  · exact .nothing rfl rfl
  · refine .nothing rfl ?_
    rw [lsuActive_some he, hw]
    refine lsuActive_none ?_
    dsimp only
    rw [Function.update_of_ne (by decide), Function.update_self]

/-- A piece of work of a core with a non-cacheable port. -/
theorem CoreWork.asks (hnc : K.hasNc = true) (hs : Sane c) (h : CoreWork now ports c c') :
    Asks c c' := by
  cases h with
  | beginTick => exact .nothing rfl rfl
  | stage i due h =>
    cases i with
    | fetch =>
      rcases doFetch1_cases h with ⟨_, rfl⟩ | ⟨p, rest, _, _, _, rfl⟩ |
        ⟨p, rest, _, _, _, _, rfl⟩
      · exact .nothing rfl rfl
      · exact .nothing rfl rfl
      · exact .nothing rfl (lsuActive_other (by decide) rfl)
    | decode =>
      obtain ⟨x, a, _, _, ⟨_, rfl⟩ | ⟨w, _, _, _, rfl⟩ | ⟨_, rfl⟩⟩ := doDecode_cases h
      · exact .nothing rfl (lsuActive_other (by decide) rfl)
      · exact .nothing rfl rfl
      · refine .nothing rfl (lsuActive_congr ?_)
        dsimp only
        rw [Function.update_of_ne (by decide), Function.update_of_ne (by decide)]
    | execute => exact doExecute_asks hs due.1 h
    | intMulExt => exact mext_asks (by decide) (doMulExt_cases h)
    | intDivExt => exact mext_asks (by decide) (doDivExt_cases h)
    | memory => exact doMemory_asks hnc h
    | writeBack =>
      rcases doWriteback_cases h with ⟨_, rfl⟩ | ⟨s, x, cause, hsrc, _, rfl⟩
      · exact .nothing rfl rfl
      · have hne : PipeStage.execute ≠ s := by
          rcases commitSource_cases now c with ⟨hn, _⟩ | ⟨hm, _⟩ | ⟨s', hs', _, _, _, hor⟩
          · cases hn.symm.trans hsrc
          · cases hm.symm.trans hsrc
            decide
          · cases hs'.symm.trans hsrc
            rcases hor with ⟨rfl, _⟩ | ⟨rfl, _⟩ <;> decide
        exact .nothing rfl (lsuActive_other hne rfl)
  | fetch0 => exact doFetch0_asks ports.imem
  | sched => exact .nothing rfl rfl
  | buffer inst h => exact .nothing rfl rfl
  | drain => exact .nothing rfl rfl

theorem Asks.lsu (h : Asks c c') :
    lsuCalls c'.calls + c.lsuActive.toNat = lsuCalls c.calls + c'.lsuActive.toNat := by
  cases h with
  | nothing calls same => rw [calls, same]
  | fetch addr calls same =>
    rw [calls, same, lsuCalls_append]
    rfl
  | access inst op hop calls idle busy =>
    rw [calls, idle, busy, lsuCalls_append]
    rfl

theorem recvMemResp_lsu {t : CpuTrans} (h : c.recvMemResp now t = .ok c') :
    c'.calls = c.calls ∧
      c.lsuActive.toNat = c'.lsuActive.toNat + if t.id = 0 then 0 else 1 := by
  rcases recvMemResp_cases h with ⟨hid, _, h⟩ | ⟨hid, h⟩
  · rw [if_pos hid]
    obtain ⟨b, rest, _, ⟨_, rfl⟩ | ⟨q, _, _, rfl⟩⟩ := handleIfuResp_cases h
    · exact ⟨rfl, rfl⟩
    · exact ⟨rfl, rfl⟩
  · have hne : t.id ≠ 0 := by omega
    obtain ⟨x, a, he, hw, _, _, rfl⟩ := handleLsuResp_cases h
    refine ⟨rfl, ?_⟩
    rw [if_neg hne, lsuActive_some he, hw, lsuActive_none]
    · rfl
    · dsimp only
      rw [Function.update_of_ne (by decide), Function.update_self]

theorem ackMemAvail_lsu {a : AckTrans} (h : c.ackMemAvail now a = .ok c') :
    c'.calls = c.calls ∧ c'.lsuActive = c.lsuActive := by
  rcases ackMemAvail_cases h with ⟨_, rfl⟩ | ⟨_, ⟨x, _, _, _, rfl⟩ | ⟨_, rfl⟩⟩ <;> exact ⟨rfl, rfl⟩

end Core

variable {S : Config}

/-- The answers of memory that the host `id` awaits. -/
def Hosts.awaits (h : Hosts S) (op : MemRWOpt) : Nat → Nat
  | 0 => h.icache.awaits op
  | 1 => h.dcache.awaits op
  | 2 => h.bypass.awaits op
  | _ => 0

theorem Hosts.awaits_icache (h : Hosts S) (c : PipeCache S.icache) (op : MemRWOpt) :
    ({ h with icache := c } : Hosts S).awaits op =
      Function.update (h.awaits op) 0 (c.awaits op) := by
  funext id
  match id with
  | 0 => rfl
  | 1 => rfl
  | 2 => rfl
  | _ + 3 => rfl

theorem Hosts.awaits_dcache (h : Hosts S) (d : DataPort S.dcache) (op : MemRWOpt) :
    ({ h with dcache := d } : Hosts S).awaits op =
      Function.update (h.awaits op) 1 (d.awaits op) := by
  funext id
  match id with
  | 0 => rfl
  | 1 => rfl
  | 2 => rfl
  | _ + 3 => rfl

theorem Hosts.awaits_bypass (h : Hosts S) (b : NoCache) (op : MemRWOpt) :
    ({ h with bypass := b } : Hosts S).awaits op =
      Function.update (h.awaits op) 2 (b.awaits op) := by
  funext id
  match id with
  | 0 => rfl
  | 1 => rfl
  | 2 => rfl
  | _ + 3 => rfl

/-- What ties the hosts to the memory and to the core: the memory and the messages hold what the
hosts await, and the core has at most one data access under way. -/
structure Linked (w : Wire S) : Prop where
  icache : w.hosts.icache.WellFormed
  reader : w.hosts.icache.Reader
  dcache : w.hosts.dcache.WellFormed
  dcacheId : w.hosts.dcache.id = 1
  bypassId : w.hosts.bypass.cacheId = 2
  ids : ∀ o ∈ w.outs, o.id < 3
  mem : RAMArbiter.Consistent w.comp w.mem
  quiet : w.comp ≠ none → ∀ x, .memReq x ∉ w.outs
  idle : w.comp ≠ none → w.calls = []
  link : ∀ op id, w.hosts.awaits op id =
    (w.mem.slots op id).isSome.toNat + (sent op id w.outs).length
  sane : Sane w.hosts.core
  single : lsuCalls w.calls + lsuCalls w.hosts.core.calls + w.hosts.dcache.load +
    w.hosts.bypass.load + dataResps w.outs = w.hosts.core.lsuActive.toNat

namespace Linked

variable {w : Wire S}

theorem init (trace : List TraceInst) (inst : TraceInst) (nxt : Tick) :
    Linked (Sys.init S trace inst nxt).wire := by
  have hpend : ({} : PipeCache S.dcache).pending.length = 0 := by
    change ((List.replicate S.dcache.pipeDepth none).reverse.filterMap id).length = 0
    rw [List.reverse_replicate, List.filterMap_replicate]
    rfl
  refine ⟨PipeCache.wellFormed_init, ⟨rfl, rfl⟩, ?_, ?_, rfl,
    fun o ho => absurd ho List.not_mem_nil, RAMArbiter.consistent_init,
    fun hc => absurd rfl hc, fun hc => absurd rfl hc, fun op id => ?_, ⟨rfl, .init⟩, ?_⟩
  · change DataPort.WellFormed (if S.hasDcache then _ else _)
    split
    · exact PipeCache.wellFormed_init
    · exact trivial
  · change DataPort.id (if S.hasDcache then _ else _) = 1
    split
    · exact S.dcache_id
    · rfl
  · have hport : (Sys.init S trace inst nxt).hosts.dcache.awaits op = 0 := by
      change DataPort.awaits (if S.hasDcache then _ else _) op = 0
      split <;> cases op <;> rfl
    change Hosts.awaits (Sys.init S trace inst nxt).hosts op id = 0
    match id with
    | 0 => cases op <;> rfl
    | 1 => exact hport
    | 2 => cases op <;> rfl
    | _ + 3 => rfl
  · have hport : (Sys.init S trace inst nxt).hosts.dcache.load = 0 := by
      change DataPort.load (if S.hasDcache then _ else _) = 0
      split
      · exact hpend
      · rfl
    change 0 + 0 + (Sys.init S trace inst nxt).hosts.dcache.load + 0 + 0 = 0
    rw [hport]

private theorem link_sends {f s : Nat → Nat} {op : MemRWOpt} {k a : Nat} {outs : List CacheOut}
    (h : ∀ id, f id = s id + 0) (hids : ∀ o ∈ outs, o.id = k)
    (ha : a = f k + (memReqs op outs).length) (id : Nat) :
    Function.update f k a id = s id + (sent op id outs).length := by
  rw [sent_of_id hids, Function.update_apply]
  have hid := h id
  split
  · rename_i he
    rw [he] at hid ⊢
    omega
  · exact hid

theorem core {c : Pipeline S.core} (h : Linked w)
    (hc : CoreWork w.now w.hosts.ports w.hosts.core c) :
    Linked { w with hosts := { w.hosts with core := c } } := by
  refine { h with sane := coreStep_sane hc.coreStep h.sane, single := ?_ }
  have hs := h.single
  have hl := (hc.asks S.hasNc h.sane).lsu
  dsimp only
  omega

theorem take (h : Linked w) (hq : w.Rest) :
    Linked { w with
      hosts := { w.hosts with core := { w.hosts.core with calls := [] } }
      calls := w.hosts.core.calls } := by
  refine { h with
    idle := fun hc => absurd hq.comp hc, sane := ⟨h.sane.zero, h.sane.settled⟩, single := ?_ }
  have hs := h.single
  rw [hq.calls] at hs
  change 0 + lsuCalls w.hosts.core.calls + w.hosts.dcache.load + w.hosts.bypass.load +
    dataResps w.outs = w.hosts.core.lsuActive.toNat at hs
  rw [Nat.zero_add] at hs
  exact hs

private theorem ids_tail {o : CacheOut} {rest : List CacheOut} (h : Linked w)
    (ho : w.outs = o :: rest) : ∀ x ∈ rest, x.id < 3 := by
  intro x hx
  refine h.ids x ?_
  rw [ho]
  exact List.mem_cons_of_mem o hx

private theorem quiet_tail {o : CacheOut} {rest : List CacheOut} (h : Linked w)
    (ho : w.outs = o :: rest) : w.comp ≠ none → ∀ x, .memReq x ∉ rest := by
  intro hc x hx
  refine h.quiet hc x ?_
  rw [ho]
  exact List.mem_cons_of_mem o hx

theorem resp {t : CpuTrans} {rest : List CacheOut} {c : Pipeline S.core} (h : Linked w)
    (ho : w.outs = .cpuResp t :: rest) (hc : w.hosts.core.recvMemResp w.now t = .ok c) :
    Linked { w with hosts := { w.hosts with core := c }, outs := rest } := by
  have hlink := h.link
  have hs := h.single
  have hquiet := quiet_tail h ho
  obtain ⟨hcalls, hlsu⟩ := recvMemResp_lsu hc
  have hcount : dataResps (.cpuResp t :: rest) = dataResps rest + if t.id = 0 then 0 else 1 := by
    unfold dataResps
    rw [List.countP_cons]
    by_cases hid : t.id = 0
    · rw [if_pos hid, if_neg fun hb => bne_iff_ne.mp hb hid]
    · rw [if_neg hid, if_pos (bne_iff_ne.mpr hid)]
  rw [ho] at hlink hs
  rw [hcount] at hs
  refine { h with
    ids := ids_tail h ho, quiet := hquiet, link := hlink
    sane := recvMemResp_sane h.sane hc, single := ?_ }
  dsimp only
  rw [hcalls]
  omega

theorem ack {a : AckTrans} {rest : List CacheOut} {c : Pipeline S.core} (h : Linked w)
    (ho : w.outs = .cpuAck a :: rest) (hc : w.hosts.core.ackMemAvail w.now a = .ok c) :
    Linked { w with hosts := { w.hosts with core := c }, outs := rest } := by
  have hlink := h.link
  have hs := h.single
  have hquiet := quiet_tail h ho
  obtain ⟨hcalls, hlsu⟩ := ackMemAvail_lsu hc
  rw [ho] at hlink hs
  refine { h with
    ids := ids_tail h ho, quiet := hquiet, link := hlink
    sane := coreStep_sane (.ack a hc) h.sane, single := ?_ }
  dsimp only
  rw [hcalls, hlsu]
  exact hs

theorem comp_none {m : MemTrans} {rest : List CacheOut} (h : Linked w)
    (ho : w.outs = .memReq m :: rest) : w.comp = none := by
  by_contra hc
  refine h.quiet hc m ?_
  rw [ho]
  exact List.mem_cons_self

theorem send {m : MemTrans} {rest : List CacheOut} {mem : RAMArbiter S.mem} (h : Linked w)
    (ho : w.outs = .memReq m :: rest) (hm : w.mem.recvReq w.now m = .ok mem) :
    Linked { w with mem := mem, outs := rest } := by
  have hlink := h.link
  have hs := h.single
  have hquiet := quiet_tail h ho
  obtain ⟨_, hfree, hslots⟩ := RAMArbiter.recvReq_slots h.mem hm
  have hsent : ∀ op id, (sent op id (.memReq m :: rest)).length =
      (if op = m.mop ∧ id = m.id then 1 else 0) + (sent op id rest).length := by
    intro op id
    rw [← List.singleton_append, sent_append, List.length_append]
    refine congrArg (· + _) ?_
    unfold sent memReqs
    by_cases hop : m.mop = op
    · by_cases hid : m.id = id
      · simp [hop, hid]
      · simp [hop, hid, Ne.symm hid]
    · simp [hop, Ne.symm hop]
  rw [ho] at hlink hs
  refine { h with
    ids := ids_tail h ho, quiet := hquiet, mem := RAMArbiter.recvReq_consistent h.mem hm
    link := fun op id => ?_, single := hs }
  have hl := hlink op id
  rw [hsent] at hl
  dsimp only
  rw [hslots]
  by_cases hx : op = m.mop ∧ id = m.id
  · obtain ⟨rfl, rfl⟩ := hx
    rw [if_pos ⟨rfl, rfl⟩, hfree] at hl
    rw [Slots.put_self, hl]
    exact Nat.zero_add _
  · rw [if_neg hx] at hl
    rw [Slots.put_other hx, hl, Nat.zero_add]

private theorem link_rest (h : Linked w) (ho : w.outs = []) (op : MemRWOpt) (id : Nat) :
    w.hosts.awaits op id = (w.mem.slots op id).isSome.toNat + 0 := by
  have hl := h.link op id
  rw [ho] at hl
  exact hl

private theorem comp_of_calls {call : PortCall} {rest : List PortCall} (h : Linked w)
    (hcalls : w.calls = call :: rest) : w.comp = none := by
  by_contra hc
  cases hcalls.symm.trans (h.idle hc)

theorem fetch {addr : Addr} {rest : List PortCall} {c : PipeCache S.icache} (h : Linked w)
    (ho : w.outs = []) (hcalls : w.calls = .fetch addr :: rest)
    (hc : w.hosts.icache.readReq w.now addr = .ok c) :
    Linked { w with hosts := { w.hosts with icache := c }, calls := rest } := by
  obtain ⟨hreads, hwrites⟩ := h.icache.enqueue_traffic hc
  have hs := h.single
  rw [hcalls] at hs
  refine { h with
    icache := (h.icache.enqueue ⟨rfl, rfl, rfl, rfl⟩ hc).1, reader := h.reader.readReq hc
    idle := fun hx => absurd (h.comp_of_calls hcalls) hx
    link := fun op id => ?_, single := hs }
  dsimp only
  rw [Hosts.awaits_icache, ho]
  refine link_sends (h.link_rest ho op) (fun o hx => absurd hx List.not_mem_nil) ?_ id
  cases op with
  | read => exact congrArg List.length hreads
  | write => exact hwrites

private theorem of_dcache {n : Nat} {d : DataPort S.dcache} {outs : List CacheOut}
    {calls : List PortCall} (h : Linked w) (ho : w.outs = []) (hcomp : w.comp = none)
    (hw : d.WellFormed) (hd : w.hosts.dcache.Does n outs d)
    (hcalls : lsuCalls w.calls = lsuCalls calls + n) :
    Linked { w with hosts := { w.hosts with dcache := d }, outs := outs, calls := calls } := by
  have hid : w.hosts.dcache.id = 1 := h.dcacheId
  have hs := h.single
  have hload := hd.load
  have hids := hd.ids
  rw [ho] at hs
  change _ + 0 = _ at hs
  rw [hid] at hids
  refine { h with
    dcache := hw, dcacheId := hd.id.trans hid, quiet := fun hc => absurd hcomp hc
    idle := fun hc => absurd hcomp hc
    ids := fun o hx => (hids o hx).trans_lt (by decide), link := fun op id => ?_, single := ?_ }
  · dsimp only
    rw [Hosts.awaits_dcache]
    exact link_sends (h.link_rest ho op) hids (hd.awaits op) id
  · have hresp := dataResps_of_id hids
    rw [if_neg (by decide)] at hresp
    dsimp only
    omega

theorem request {op : MemRWOpt} {addr : Addr} {data : Word} {strb : BitVec 8}
    {rest : List PortCall} {d : DataPort S.dcache} {outs : List CacheOut} (h : Linked w)
    (ho : w.outs = []) (hcalls : w.calls = .lsu false op addr data strb :: rest)
    (hd : w.hosts.dcache.request w.now op addr data strb = .ok (d, outs)) :
    Linked { w with hosts := { w.hosts with dcache := d }, outs := outs, calls := rest } := by
  refine h.of_dcache ho (h.comp_of_calls hcalls) (h.dcache.request S.dcache_writeBack hd)
    (h.dcache.request_does S.dcache_immediate S.dcache_writeBack hd) ?_
  rw [hcalls]
  exact lsuCalls_lsu ..

theorem updateDcache {d : DataPort S.dcache} {outs : List CacheOut} (h : Linked w) (hq : w.Rest)
    (hd : w.hosts.dcache.doUpdate w.now = .ok (d, outs)) :
    Linked { w with hosts := { w.hosts with dcache := d }, outs := outs } :=
  h.of_dcache hq.outs hq.comp (h.dcache.doUpdate hd)
    (h.dcache.doUpdate_does S.dcache_immediate hd) rfl

theorem bypass {op : MemRWOpt} {addr : Addr} {data : Word} {strb : BitVec 8}
    {rest : List PortCall} {b : NoCache} {m : MemTrans} (h : Linked w) (ho : w.outs = [])
    (hcalls : w.calls = .lsu true op addr data strb :: rest)
    (hb : (match op with
      | .read => w.hosts.bypass.readReq addr
      | .write => w.hosts.bypass.writeReq addr data strb) = .ok (b, m)) :
    Linked { w with
      hosts := { w.hosts with bypass := b }, outs := [.memReq m], calls := rest } := by
  have hd : (DataPort.uncached w.hosts.bypass : DataPort S.dcache).request w.now op addr data strb =
      .ok (.uncached b, [.memReq m]) := by
    cases op <;>
    · dsimp only at hb
      unfold DataPort.request
      dsimp only
      rw [hb]
      rfl
  have hcomp := h.comp_of_calls hcalls
  have hdoes := DataPort.WellFormed.request_does S.dcache_immediate S.dcache_writeBack
    (d := .uncached w.hosts.bypass) trivial hd
  have hload := hdoes.load
  have hids := hdoes.ids
  have hid : w.hosts.bypass.cacheId = 2 := h.bypassId
  have hs := h.single
  rw [ho, hcalls, lsuCalls_lsu] at hs
  change _ + 0 = _ at hs
  change w.hosts.bypass.load + 1 = b.load + 0 at hload
  change ∀ o ∈ [CacheOut.memReq m], o.id = w.hosts.bypass.cacheId at hids
  rw [hid] at hids
  refine { h with
    bypassId := (hdoes.id : b.cacheId = w.hosts.bypass.cacheId).trans hid
    ids := fun o hx => (hids o hx).trans_lt (by decide), quiet := fun hc => absurd hcomp hc
    idle := fun hc => absurd hcomp hc, link := fun op' id => ?_, single := ?_ }
  · dsimp only
    rw [Hosts.awaits_bypass]
    exact link_sends (h.link_rest ho op') hids (hdoes.awaits op') id
  · have hresp : dataResps [.memReq m] = 0 := rfl
    dsimp only
    omega

theorem updateIcache {c : PipeCache S.icache} {outs : List CacheOut} (h : Linked w) (hq : w.Rest)
    (hc : w.hosts.icache.doUpdate w.now = .ok (c, outs)) :
    Linked { w with hosts := { w.hosts with icache := c }, outs := outs } := by
  have hids := h.icache.doUpdate_id S.icache_immediate hc
  have htraffic := h.icache.doUpdate_traffic hc
  have hs := h.single
  rw [S.icache_id] at hids
  rw [hq.outs] at hs
  refine { h with
    icache := (h.icache.doUpdate hc).1
    reader := h.icache.doUpdate_reader S.icache_writeThrough h.reader hc
    ids := fun o hx => (hids o hx).trans_lt (by decide), quiet := fun hx => absurd hq.comp hx
    link := fun op id => ?_, single := ?_ }
  · dsimp only
    rw [Hosts.awaits_icache]
    refine link_sends (h.link_rest hq.outs op) hids ?_ id
    cases op with
    | read =>
      have hr := congrArg List.length htraffic.reads
      rw [List.length_append, List.length_map] at hr
      exact hr
    | write => exact htraffic.writes
  · have hresp := dataResps_of_id hids
    rw [if_pos rfl] at hresp
    dsimp only
    rw [hresp]
    exact hs

private theorem flushAll_port {P : CacheParams} (d : DataPort P) :
    d.flushAll.id = d.id ∧ d.flushAll.load = d.load ∧ ∀ op, d.flushAll.awaits op = d.awaits op := by
  cases d with
  | cached c => exact ⟨rfl, rfl, fun op => by cases op <;> rfl⟩
  | uncached c => exact ⟨rfl, rfl, fun _ => rfl⟩

private theorem resetStats_port {P : CacheParams} (d : DataPort P) :
    d.resetStats.id = d.id ∧ d.resetStats.load = d.load ∧
      ∀ op, d.resetStats.awaits op = d.awaits op := by
  cases d with
  | cached c => exact ⟨rfl, rfl, fun op => by cases op <;> rfl⟩
  | uncached c => exact ⟨rfl, rfl, fun op => by cases op <;> rfl⟩

theorem flush (h : Linked w) :
    Linked { w with hosts := { w.hosts with
      icache := w.hosts.icache.flushAll, dcache := w.hosts.dcache.flushAll } } := by
  obtain ⟨hid, hload, hawaits⟩ := flushAll_port w.hosts.dcache
  have hs := h.single
  refine { h with
    icache := h.icache.flushAll, reader := ⟨h.reader.wWaiting, h.reader.pendingEvict⟩
    dcache := h.dcache.flushAll, dcacheId := hid.trans h.dcacheId
    link := fun op id => ?_, single := ?_ }
  · have hl := h.link op id
    match id with
    | 0 => cases op <;> exact hl
    | 1 => exact (hawaits op).trans hl
    | 2 => exact hl
    | _ + 3 => exact hl
  · dsimp only
    rw [hload]
    exact hs

theorem reset (h : Linked w) (hq : w.Rest) :
    Linked { w with hosts := w.hosts.resetStats w.now, mem := w.mem.resetStats } := by
  obtain ⟨hid, hload, hawaits⟩ := resetStats_port w.hosts.dcache
  have hs := h.single
  have hmem := h.mem
  rw [hq.comp] at hmem
  refine { h with
    icache := h.icache.resetStats.resetPrefetcher
    reader := ⟨h.reader.wWaiting, h.reader.pendingEvict⟩
    dcache := h.dcache.resetStats, dcacheId := hid.trans h.dcacheId
    mem := hq.comp ▸ RAMArbiter.resetStats_consistent hmem
    sane := ⟨h.sane.zero, h.sane.settled⟩, link := fun op id => ?_, single := ?_ }
  · have hl := h.link op id
    match id with
    | 0 => cases op <;> exact hl
    | 1 => exact (hawaits op).trans hl
    | 2 => cases op <;> exact hl
    | _ + 3 => exact hl
  · change lsuCalls w.calls + lsuCalls w.hosts.core.calls + w.hosts.dcache.resetStats.load +
      w.hosts.bypass.load + dataResps w.outs = w.hosts.core.lsuActive.toNat
    rw [hload]
    exact hs

/-- What an answer for the host `k` does to the hosts, and to the messages: the host no longer
awaits it. -/
structure Received (m : MemTrans) (k : Nat) (h : Hosts S) (outs : List CacheOut)
    (h' : Hosts S) : Prop where
  icache : h'.icache.WellFormed
  reader : h'.icache.Reader
  dcache : h'.dcache.WellFormed
  dcacheId : h'.dcache.id = h.dcache.id
  bypassId : h'.bypass.cacheId = h.bypass.cacheId
  ids : ∀ o ∈ outs, o.id < 3
  noReq : ∀ x, .memReq x ∉ outs
  core : h'.core = h.core
  awaits : ∀ op, ∃ a, h'.awaits op = Function.update (h.awaits op) k a ∧
    h.awaits op k = a + if op = m.mop then 1 else 0
  load : h.dcache.load + h.bypass.load = h'.dcache.load + h'.bypass.load + dataResps outs

theorem receive_received {k : Nat} {m : MemTrans} {hosts : Hosts S} {outs : List CacheOut}
    (h : Linked w) (hk : k < 3) (hr : w.hosts.receive w.now k m = .ok (hosts, outs)) :
    Received m k w.hosts outs hosts := by
  unfold Hosts.receive at hr
  split at hr
  · rename_i hid
    obtain ⟨c, hc, hr⟩ := bind_eq_ok.mp hr
    cases hr
    refine ⟨(h.icache.recvMemResp hc).1, h.reader.recvMemResp hc, h.dcache, rfl, rfl,
      fun o ho => absurd ho List.not_mem_nil, fun x hx => absurd hx List.not_mem_nil, rfl,
      fun op => ⟨_, hid ▸ Hosts.awaits_icache .., ?_⟩, rfl⟩
    rw [hid]
    exact PipeCache.recvMemResp_awaits hc op
  · split at hr
    · rename_i hid
      obtain ⟨⟨d, o⟩, hd, hr⟩ := bind_eq_ok.mp hr
      cases hr
      have hg := h.dcache.recvMemResp_gets S.dcache_immediate hd
      have hids := hg.ids
      have hload := hg.load
      rw [h.dcacheId] at hids
      have hresp := dataResps_of_id hids
      rw [if_neg (by decide)] at hresp
      refine ⟨h.icache, h.reader, h.dcache.recvMemResp hd, hg.id, rfl,
        fun o ho => (hids o ho).trans_lt (by decide), hg.noReq, rfl,
        fun op => ⟨_, hid ▸ Hosts.awaits_dcache .., ?_⟩, ?_⟩
      · rw [hid]
        exact hg.awaits op
      · dsimp only
        omega
    · rename_i hne hne'
      have hid : k = 2 := by omega
      obtain ⟨⟨b, o⟩, hb, hr⟩ := bind_eq_ok.mp hr
      cases hr
      have hd : (DataPort.uncached w.hosts.bypass : DataPort S.dcache).recvMemResp w.now m =
          .ok (.uncached b, outs) := by
        unfold DataPort.recvMemResp
        dsimp only
        rw [hb]
        rfl
      have hg := DataPort.WellFormed.recvMemResp_gets S.dcache_immediate
        (d := .uncached w.hosts.bypass) trivial hd
      have hids := hg.ids
      have hload := hg.load
      change ∀ o ∈ outs, o.id = w.hosts.bypass.cacheId at hids
      change w.hosts.bypass.load = b.load + _ at hload
      rw [h.bypassId] at hids
      have hresp := dataResps_of_id hids
      rw [if_neg (by decide)] at hresp
      refine ⟨h.icache, h.reader, h.dcache, rfl, hg.id,
        fun o ho => (hids o ho).trans_lt (by decide), hg.noReq, rfl,
        fun op => ⟨_, hid ▸ Hosts.awaits_bypass .., ?_⟩, ?_⟩
      · rw [hid]
        exact hg.awaits op
      · dsimp only
        omega

theorem answer {op : MemRWOpt} {req : MemTrans} {hosts : Hosts S} {outs : List CacheOut}
    (h : Linked w) (hq : w.Rest) (hdue : (w.mem.chan op).busyUntil ≤ w.now)
    (hreq : (w.mem.chan op).reqs (w.mem.chan op).servingId = some req)
    (hr : w.hosts.receive w.now (w.mem.chan op).servingId { req with dir := .resp } =
      .ok (hosts, outs)) :
    Linked { w with
      hosts := hosts, outs := outs, comp := some op
      mem := w.mem.answered w.now op (w.mem.chan op).servingId req } := by
  have hmem := h.mem
  rw [hq.comp] at hmem
  obtain ⟨hid, hmop, hlt⟩ := hmem.held.slot hreq
  rw [S.mem_hosts] at hlt
  have hg := h.receive_received hlt hr
  have hload := hg.load
  have hs := h.single
  rw [hq.outs] at hs
  change _ + 0 = _ at hs
  refine ⟨hg.icache, hg.reader, hg.dcache, hg.dcacheId.trans h.dcacheId,
    hg.bypassId.trans h.bypassId, hg.ids, hmem.answered hdue hreq, fun _ => hg.noReq,
    fun _ => hq.calls, fun op' id => ?_, hg.core ▸ h.sane, ?_⟩
  · obtain ⟨a, ha, hcount⟩ := hg.awaits op'
    have hno : sent op' id outs = [] := by
      unfold sent
      rw [memReqs_of_noReq hg.noReq]
      rfl
    have hl := h.link_rest hq.outs op'
    dsimp only
    rw [ha, RAMArbiter.slots_answered, hno]
    by_cases hx : id = (w.mem.chan op).servingId
    · rw [hx, Function.update_self]
      have hlk := hl (w.mem.chan op).servingId
      rw [hcount, hmop] at hlk
      by_cases hop : op' = op
      · rw [hop, Slots.put_self]
        have hfull : w.mem.slots op (w.mem.chan op).servingId = some req.addr := by
          rw [RAMArbiter.slots, hreq]
          rfl
        rw [if_pos hop, hop, hfull] at hlk
        exact Nat.succ.inj hlk
      · rw [if_neg hop] at hlk
        rw [Slots.put_other fun hc => hop hc.1]
        exact hlk
    · rw [Function.update_of_ne hx, Slots.put_other fun hc => hx hc.2]
      exact hl id
  · dsimp only
    rw [hg.core]
    omega

theorem free {op : MemRWOpt} (h : Linked w) (hcomp : w.comp = some op)
    (hnone : ∀ g < S.mem.hosts, (w.mem.chan op).reqs g = none) :
    Linked { w with mem := w.mem.freed op, comp := none } := by
  have hmem := h.mem
  rw [hcomp] at hmem
  refine { h with
    mem := hmem.free hnone, quiet := fun hc => absurd rfl hc, idle := fun hc => absurd rfl hc
    link := fun op' id => ?_ }
  have hl := h.link op' id
  dsimp only
  rw [RAMArbiter.slots_freed]
  exact hl

theorem next {op : MemRWOpt} {g : Nat} {req : MemTrans} {mem : RAMArbiter S.mem} (h : Linked w)
    (hcomp : w.comp = some op) (hg : (w.mem.chan op).reqs g = some req)
    (htop : ∀ k < S.mem.hosts, ((w.mem.chan op).reqs k).isSome → k ≤ g)
    (hs : (w.mem.freed op).serve w.now (w.now + 1) op req = .ok mem) :
    Linked { w with mem := mem, comp := none } := by
  have hmem := h.mem
  rw [hcomp] at hmem
  refine { h with
    mem := hmem.next hg htop hs, quiet := fun hc => absurd rfl hc, idle := fun hc => absurd rfl hc
    link := fun op' id => ?_ }
  have hl := h.link op' id
  dsimp only
  rw [hmem.held.next_slots hg hs]
  exact hl

end Linked

theorem Act.linked {ok : Nat → DataPort S.dcache → Prop} {w w' : Wire S} (ha : Act ok w w')
    (h : Linked w) : Linked w' := by
  cases ha with
  | tick hq => exact { h with }
  | resp ho hc => exact h.resp ho hc
  | ack ho hc => exact h.ack ho hc
  | send ho hm => exact h.send ho hm
  | core hq hc => exact h.core hc
  | take hq => exact h.take hq
  | fetch ho hcalls hc => exact h.fetch ho hcalls hc
  | request ho hcalls hd => exact h.request ho hcalls hd
  | bypass ho hcalls hb => exact h.bypass ho hcalls hb
  | dcache hq _ hd => exact h.updateDcache hq hd
  | icache hq hc => exact h.updateIcache hq hc
  | flush hq => exact h.flush
  | reset hq => exact h.reset hq
  | answer hq hdue hreq hr => exact h.answer hq hdue hreq hr
  | free ho hcomp hnone => exact h.free hcomp hnone
  | next ho hcomp hg htop hs => exact h.next hcomp hg htop hs

namespace Linked

variable {w : Wire S}

theorem awaits_of_slot (h : Linked w) {op : MemRWOpt} {id : Nat}
    (hs : (w.mem.slots op id).isSome) : 0 < w.hosts.awaits op id := by
  rw [h.link, hs]
  exact Nat.succ_pos _ |>.trans_le (Nat.add_comm _ _ ▸ Nat.le_add_left ..)

theorem one_port (h : Linked w) {op op' : MemRWOpt} (h₁ : 0 < w.hosts.awaits op 1)
    (h₂ : 0 < w.hosts.awaits op' 2) : False := by
  have hd : 0 < w.hosts.dcache.load := DataPort.load_of_awaits h.dcache h₁
  have hb : 0 < w.hosts.bypass.load := by
    have hx : 0 < w.hosts.bypass.awaits op' := h₂
    unfold NoCache.load
    cases op' <;> omega
  have hs := h.single
  have hle := Bool.toNat_le w.hosts.core.lsuActive
  omega

theorem id_of_slot (h : Linked w) {op : MemRWOpt} {id : Nat}
    (hs : (w.mem.slots op id).isSome) : id < 3 := by
  have ha := h.awaits_of_slot hs
  match id with
  | 0 => decide
  | 1 => decide
  | 2 => decide
  | _ + 3 => exact absurd ha (Nat.lt_irrefl 0)

/-- While a read is answered at most one other read is there. -/
theorem crowd (h : Linked w) {k g g' : Nat} (hk : (w.mem.slots .read k).isSome) (hg : g ≠ k)
    (hg' : g' ≠ k) (hs : (w.mem.slots .read g).isSome) (hs' : (w.mem.slots .read g').isSome) :
    g = g' := by
  by_contra hne
  have hall : ∀ id, id < 3 → (w.mem.slots .read id).isSome := by
    intro id hid
    have h₁ := h.id_of_slot hk
    have h₂ := h.id_of_slot hs
    have h₃ := h.id_of_slot hs'
    rcases (by omega : id = k ∨ id = g ∨ id = g') with rfl | rfl | rfl
    · exact hk
    · exact hs
    · exact hs'
  exact h.one_port (h.awaits_of_slot (hall 1 (by decide))) (h.awaits_of_slot (hall 2 (by decide)))

theorem awaits_le (w : Wire S) (op : MemRWOpt) (id : Nat) : w.hosts.awaits op id ≤ 1 := by
  match id with
  | 0 => exact w.hosts.icache.awaits_le op
  | 1 => exact w.hosts.dcache.awaits_le op
  | 2 => cases op <;> exact Bool.toNat_le _
  | _ + 3 => exact Nat.zero_le 1

theorem on_its_way {m : MemTrans} {rest : List CacheOut} (h : Linked w)
    (ho : w.outs = .memReq m :: rest) :
    0 < w.hosts.awaits m.mop m.id ∧ w.mem.slots m.mop m.id = none := by
  have hsent : 0 < (sent m.mop m.id w.outs).length := by
    refine List.length_pos_of_mem (a := m) (List.mem_filter.mpr ⟨?_, decide_eq_true rfl⟩)
    rw [ho]
    exact List.mem_filterMap.mpr ⟨.memReq m, List.mem_cons_self, if_pos rfl⟩
  have hlink := h.link m.mop m.id
  have hle := awaits_le w m.mop m.id
  refine ⟨by omega, ?_⟩
  cases hs : w.mem.slots m.mop m.id with
  | none => rfl
  | some a =>
    rw [hs] at hlink
    change _ = 1 + _ at hlink
    omega

theorem no_write {m : MemTrans} {rest : List CacheOut} (h : Linked w)
    (ho : w.outs = .memReq m :: rest) (hop : m.mop = .write) (g : Nat) :
    w.mem.slots .write g = none := by
  by_contra hne
  have hs : (w.mem.slots .write g).isSome := Option.isSome_iff_ne_none.mpr hne
  have hid : m.id < 3 := h.ids (.memReq m) (ho ▸ List.mem_cons_self)
  obtain ⟨hm, hnone⟩ := h.on_its_way ho
  rw [hop] at hm hnone
  have hg := h.awaits_of_slot hs
  have hzero : ∀ id, 0 < w.hosts.awaits .write id → id ≠ 0 := by
    rintro id ha rfl
    exact absurd ha (Nat.le_of_eq h.reader.awaits).not_gt
  by_cases he : g = m.id
  · exact hne (he ▸ hnone)
  · have h₁ := hzero g hg
    have h₂ := hzero m.id hm
    have h₃ := h.id_of_slot hs
    rcases (by omega : g = 1 ∧ m.id = 2 ∨ g = 2 ∧ m.id = 1) with ⟨hx, hy⟩ | ⟨hx, hy⟩
    · exact h.one_port (hx ▸ hg) (hy ▸ hm)
    · exact h.one_port (hy ▸ hm) (hx ▸ hg)

end Linked

/-- Every action keeps the waiting bounded. -/
theorem Act.patient {ok : Nat → DataPort S.dcache → Prop} {w w' : Wire S} (ha : Act ok w w')
    (h : Linked w) (hp : RAMArbiter.Patient w.comp w.mem) :
    RAMArbiter.Patient w'.comp w'.mem := by
  have hmem := h.mem
  cases ha with
  | tick hq => exact hp
  | resp ho hc => exact hp
  | ack ho hc => exact hp
  | send ho hm =>
    have hcomp := h.comp_none ho
    rw [hcomp] at hp hmem
    dsimp only
    rw [hcomp]
    exact hp.recvReq hmem (fun hop => h.no_write ho hop) hm
  | core hq hc => exact hp
  | take hq => exact hp
  | fetch ho hcalls hc => exact hp
  | request ho hcalls hd => exact hp
  | bypass ho hcalls hb => exact hp
  | dcache hq _ hd => exact hp
  | icache hq hc => exact hp
  | flush hq => exact hp
  | reset hq =>
    rw [hq.comp] at hp
    dsimp only
    rw [hq.comp]
    exact hp.resetStats
  | @answer op req hosts outs hq hdue hreq hr =>
    rw [hq.comp] at hp hmem
    refine hp.answered hreq (hmem.held.slot hreq).2.1 fun hop g g' hg hg' => ?_
    refine h.crowd ?_ hg hg'
    rw [← hop, RAMArbiter.slots, hreq]
    rfl
  | @free op ho hcomp hnone =>
    rw [hcomp] at hp hmem
    refine hp.free fun g => Option.map_eq_none_iff.mpr ?_
    by_contra hs
    exact hs (hnone g (hmem.held.range op g (Option.isSome_iff_ne_none.mpr hs)))
  | @next op g req mem ho hcomp hg htop hs =>
    rw [hcomp] at hp hmem
    obtain ⟨rfl, hmop, hlt⟩ := hmem.held.slot hg
    refine hp.freed.serve hlt ?_ hmop hs
    unfold RAMArbiter.freed RAMArbiter.setChan
    dsimp only
    rw [Function.update_self]
    exact hg

namespace Sys

variable {s : Sys S}

theorem Reachable.linked (h : s.Reachable) :
    Linked s.wire ∧ RAMArbiter.Patient none s.mem := by
  have hI : Linked s.wire ∧ RAMArbiter.Patient s.wire.comp s.wire.mem :=
    h.reachableBy.invariant (I := fun w => Linked w ∧ RAMArbiter.Patient w.comp w.mem)
      (fun trace inst nxt => ⟨.init trace inst nxt, RAMArbiter.patient_init⟩)
      fun w w' ha hw => ⟨ha.linked hw.1, ha.patient hw.1 hw.2⟩
  exact hI

/-- In every run of the system a read that has been accepted waits for at most one other read, and
at most one write is pending at a time. -/
theorem Reachable.bounded_waiting (h : s.Reachable) :
    BoundedWaiting s.mem.hist ∧ (s.mem.pending .write).length ≤ 1 := by
  obtain ⟨hl, hp⟩ := h.linked
  refine ⟨hp.served_in_turn, ?_⟩
  obtain ⟨hid, _⟩ | ⟨⟨g, _, hg⟩, _⟩ := hp.oneWrite
  · have hnil : s.mem.pending .write = [] := by
      refine List.eq_nil_iff_forall_not_mem.mpr fun k hk => ?_
      have hx := (RAMArbiter.mem_pending.mp hk).2
      rw [Option.map_eq_none_iff.mp (hid k)] at hx
      cases hx
    rw [hnil]
    exact Nat.zero_le 1
  · have hnodup : (s.mem.pending .write).Nodup := List.Nodup.filter _ List.nodup_range
    have hsub : s.mem.pending .write ⊆ [g] := fun k hk => by
      by_contra hne
      have hx := (RAMArbiter.mem_pending.mp hk).2
      rw [Option.map_eq_none_iff.mp (hg k fun he => hne (List.mem_singleton.mpr he))] at hx
      cases hx
    exact (hnodup.subperm hsub).length_le

def loadAndBlock : List TraceInst :=
  load 0x80000000 0x80001000 5 ::
    [use 0x80000004 0, use 0x80000008 0, use 0x8000000c 0, use 0x80000010 0]

/-- With a memory of latency 5 the fetch of the next block waits for the load. -/
theorem bounded_waiting_fetch : ∃ s : Sys (Config.plain 5 true), s.Reachable ∧
    s.mem.pending .read = [0, 1] ∧ (s.mem.chan .read).servingId = 1 ∧
    BoundedWaiting s.mem.hist ∧ (s.mem.pending .write).length ≤ 1 := by
  obtain ⟨s, hrun, hobs⟩ := exists_of_observed
    (x := run false 108 (init (Config.plain 5 true) loadAndBlock {} 0))
    (f := fun s => (s.mem.pending .read, (s.mem.chan .read).servingId)) (b := ([0, 1], 1))
    (by decide +kernel)
  have hs : s.Reachable := ⟨_, _, _, _, hrun⟩
  exact ⟨s, hs, congrArg Prod.fst hobs, congrArg Prod.snd hobs, hs.bounded_waiting⟩

end Sys

end NpSim.System
