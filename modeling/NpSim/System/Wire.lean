/- digest: The system between the single actions of a call of the main loop: the messages not yet
   delivered, the requests not yet carried out, and the channel in the middle of a completion. -/

import NpSim.Mem.Protocol
import NpSim.System.Frames

set_option autoImplicit false
set_option relaxedAutoImplicit false

namespace NpSim.System

open NpSim.Lib.Partial NpSim.Cache NpSim.Mem NpSim.Pipe NpSim.Pipe.Pipeline Relation

variable {S : Config}

/-- What the core does on its own, with the readiness of the ports as `ports`. -/
inductive CoreWork {K : PipelineParams} (now : Nat) (ports : Ports) (c : Pipeline K) :
    Pipeline K → Prop
  | beginTick : CoreWork now ports c { c with bpu := c.bpu.beginTick }
  | stage {c' : Pipeline K} (i : PipeStage) (due : c.stageDue now i)
      (h : stageHandler now ports i c = .ok c') : CoreWork now ports c c'
  | fetch0 : CoreWork now ports c (c.doFetch0 now ports.imem)
  | sched : CoreWork now ports c (c.calcSched now)
  | buffer (inst : TraceInst) (h : c.inputBuffer = none) : CoreWork now ports c { c with
      ongoingInsts := c.ongoingInsts + 1
      inputBuffer := some { traceInst := inst, seq := c.fed.length }
      fed := c.fed ++ [inst] }
  | drain : CoreWork now ports c c.setDraining

namespace CoreWork

variable {K : PipelineParams} {now : Nat} {ports : Ports} {c c' : Pipeline K}

theorem coreStep (h : CoreWork now ports c c') : CoreStep now c c' := by
  cases h with
  | beginTick => exact .beginTick
  | stage i due h => exact .stage i ports due h
  | fetch0 => exact .fetch0 ports.imem
  | sched => exact .sched
  | buffer inst h => exact .buffer inst h
  | drain => exact .drain

private theorem of_stages (l : List PipeStage) (h : l.foldlM (runStage now ports) c = .ok c') :
    ReflTransGen (CoreWork now ports) c c' := by
  induction l generalizing c with
  | nil =>
    cases h
    exact .refl
  | cons i l ih =>
    simp only [List.foldlM_cons] at h
    obtain ⟨d, hd, h⟩ := bind_eq_ok.mp h
    unfold runStage at hd
    split at hd
    · rename_i due
      exact .head (.stage i due hd) (ih h)
    · cases hd
      exact ih h

theorem of_doUpdate (h : c.doUpdate now ports = .ok c') :
    ReflTransGen (CoreWork now ports) c c' := by
  unfold Pipeline.doUpdate at h
  split at h
  · unfold updateImpl at h
    obtain ⟨d, hd, h⟩ := bind_eq_ok.mp h
    cases h
    exact (ReflTransGen.head .beginTick (of_stages _ hd)).tail .fetch0 |>.tail .sched
  · cases h
    exact .refl

theorem of_feedInst {inst : TraceInst} (h : c.feedInst now ports.imem inst = .ok c') :
    ReflTransGen (CoreWork now ports) c c' := by
  unfold feedInst at h
  obtain ⟨hin, h⟩ := require_bind_eq_ok.mp h
  cases h
  exact .tail (.single (.buffer inst hin)) .fetch0

end CoreWork

/-- A host takes the answer of the memory. -/
def Hosts.receive (now : Nat) (id : Nat) (m : MemTrans) (h : Hosts S) :
    Except Fault (Hosts S × List CacheOut) :=
  if id = 0 then do
    let icache ← h.icache.recvMemResp now m
    .ok ({ h with icache := icache }, [])
  else if id = 1 then do
    let (dcache, outs) ← h.dcache.recvMemResp now m
    .ok ({ h with dcache := dcache }, outs)
  else do
    let (bypass, outs) ← h.bypass.recvMemResp m
    .ok ({ h with bypass := bypass }, outs)

/-- The answer reaches the host first, and then what the host sends is delivered. -/
theorem Hosts.recvMemResp_eq (now id : Nat) (m : MemTrans) (s : Hosts S × RAMArbiter S.mem) :
    Hosts.recvMemResp now id m s =
      (s.1.receive now id m >>= fun r => Hosts.deliver now r.2 (r.1, s.2)) := by
  unfold Hosts.recvMemResp Hosts.receive
  split
  · cases s.1.icache.recvMemResp now m <;> rfl
  · split
    · cases s.1.dcache.recvMemResp now m <;> rfl
    · cases s.1.bypass.recvMemResp m <;> rfl

/-- The system between two actions. -/
structure Wire (S : Config) where
  now : Nat
  hosts : Hosts S
  mem : RAMArbiter S.mem
  outs : List CacheOut := []
  calls : List PortCall := []
  comp : Option MemRWOpt := none

/-- Nothing is under way. -/
structure Wire.Rest (w : Wire S) : Prop where
  outs : w.outs = []
  calls : w.calls = []
  comp : w.comp = none

/-- A single action. The data cache is updated only where `ok` allows it. -/
inductive Act (ok : Nat → DataPort S.dcache → Prop) (w : Wire S) : Wire S → Prop
  | tick (hq : w.Rest) : Act ok w { w with now := w.now + 1 }
  | resp {t : CpuTrans} {rest : List CacheOut} {c : Pipeline S.core}
      (ho : w.outs = .cpuResp t :: rest) (h : w.hosts.core.recvMemResp w.now t = .ok c) :
      Act ok w { w with hosts := { w.hosts with core := c }, outs := rest }
  | ack {a : AckTrans} {rest : List CacheOut} {c : Pipeline S.core}
      (ho : w.outs = .cpuAck a :: rest) (h : w.hosts.core.ackMemAvail w.now a = .ok c) :
      Act ok w { w with hosts := { w.hosts with core := c }, outs := rest }
  | send {m : MemTrans} {rest : List CacheOut} {mem : RAMArbiter S.mem}
      (ho : w.outs = .memReq m :: rest) (h : w.mem.recvReq w.now m = .ok mem) :
      Act ok w { w with mem := mem, outs := rest }
  | core {c : Pipeline S.core} (hq : w.Rest)
      (h : CoreWork w.now w.hosts.ports w.hosts.core c) :
      Act ok w { w with hosts := { w.hosts with core := c } }
  | take (hq : w.Rest) :
      Act ok w { w with
        hosts := { w.hosts with core := { w.hosts.core with calls := [] } }
        calls := w.hosts.core.calls }
  | fetch {addr : Addr} {rest : List PortCall} {c : PipeCache S.icache} (ho : w.outs = [])
      (hc : w.calls = .fetch addr :: rest) (h : w.hosts.icache.readReq w.now addr = .ok c) :
      Act ok w { w with hosts := { w.hosts with icache := c }, calls := rest }
  | request {op : MemRWOpt} {addr : Addr} {data : Word} {strb : BitVec 8} {rest : List PortCall}
      {d : DataPort S.dcache} {outs : List CacheOut} (ho : w.outs = [])
      (hc : w.calls = .lsu false op addr data strb :: rest)
      (h : w.hosts.dcache.request w.now op addr data strb = .ok (d, outs)) :
      Act ok w { w with hosts := { w.hosts with dcache := d }, outs := outs, calls := rest }
  | bypass {op : MemRWOpt} {addr : Addr} {data : Word} {strb : BitVec 8} {rest : List PortCall}
      {b : NoCache} {m : MemTrans} (ho : w.outs = [])
      (hc : w.calls = .lsu true op addr data strb :: rest)
      (h : (match op with
        | .read => w.hosts.bypass.readReq addr
        | .write => w.hosts.bypass.writeReq addr data strb) = .ok (b, m)) :
      Act ok w { w with
        hosts := { w.hosts with bypass := b }, outs := [.memReq m], calls := rest }
  | dcache {d : DataPort S.dcache} {outs : List CacheOut} (hq : w.Rest)
      (hok : ok w.now w.hosts.dcache) (h : w.hosts.dcache.doUpdate w.now = .ok (d, outs)) :
      Act ok w { w with hosts := { w.hosts with dcache := d }, outs := outs }
  | icache {c : PipeCache S.icache} {outs : List CacheOut} (hq : w.Rest)
      (h : w.hosts.icache.doUpdate w.now = .ok (c, outs)) :
      Act ok w { w with hosts := { w.hosts with icache := c }, outs := outs }
  | flush (hq : w.Rest) :
      Act ok w { w with hosts := { w.hosts with
        icache := w.hosts.icache.flushAll, dcache := w.hosts.dcache.flushAll } }
  | reset (hq : w.Rest) :
      Act ok w { w with hosts := w.hosts.resetStats w.now, mem := w.mem.resetStats }
  | answer {op : MemRWOpt} {req : MemTrans} {hosts : Hosts S} {outs : List CacheOut}
      (hq : w.Rest) (hdue : (w.mem.chan op).busyUntil ≤ w.now)
      (hreq : (w.mem.chan op).reqs (w.mem.chan op).servingId = some req)
      (h : w.hosts.receive w.now (w.mem.chan op).servingId { req with dir := .resp } =
        .ok (hosts, outs)) :
      Act ok w { w with
        hosts := hosts, outs := outs, comp := some op
        mem := w.mem.answered w.now op (w.mem.chan op).servingId req }
  | free {op : MemRWOpt} (ho : w.outs = []) (hcomp : w.comp = some op)
      (hnone : ∀ h < S.mem.hosts, (w.mem.chan op).reqs h = none) :
      Act ok w { w with mem := w.mem.freed op, comp := none }
  | next {op : MemRWOpt} {g : Nat} {req : MemTrans} {mem : RAMArbiter S.mem} (ho : w.outs = [])
      (hcomp : w.comp = some op) (hg : (w.mem.chan op).reqs g = some req)
      (htop : ∀ h < S.mem.hosts, ((w.mem.chan op).reqs h).isSome → h ≤ g)
      (h : (w.mem.freed op).serve w.now (w.now + 1) op req = .ok mem) :
      Act ok w { w with mem := mem, comp := none }

namespace Act

variable {ok : Nat → DataPort S.dcache → Prop} {now : Nat} {s t : Hosts S × RAMArbiter S.mem}

theorem deliver_caches {outs : List CacheOut} (h : Hosts.deliver now outs s = .ok t) :
    t.1.icache = s.1.icache ∧ t.1.dcache = s.1.dcache := by
  unfold Hosts.deliver at h
  induction outs generalizing s with
  | nil =>
    cases h
    exact ⟨rfl, rfl⟩
  | cons out outs ih =>
    simp only [List.foldlM_cons] at h
    obtain ⟨r, hr, h⟩ := bind_eq_ok.mp h
    obtain ⟨hi, hd⟩ := ih h
    cases out <;>
    · obtain ⟨c, hc, hr⟩ := bind_eq_ok.mp hr
      cases hr
      exact ⟨hi, hd⟩

theorem of_deliverOne {out : CacheOut} (rest : List CacheOut) (calls : List PortCall)
    (comp : Option MemRWOpt) (h : Hosts.deliverOne now s out = .ok t) :
    Act ok ⟨now, s.1, s.2, out :: rest, calls, comp⟩ ⟨now, t.1, t.2, rest, calls, comp⟩ := by
  cases out with
  | cpuResp x =>
    obtain ⟨c, hc, h⟩ := bind_eq_ok.mp h
    cases h
    exact .resp rfl hc
  | cpuAck a =>
    obtain ⟨c, hc, h⟩ := bind_eq_ok.mp h
    cases h
    exact .ack rfl hc
  | memReq m =>
    obtain ⟨c, hc, h⟩ := bind_eq_ok.mp h
    cases h
    exact .send rfl hc

theorem of_deliver_first {outs : List CacheOut} (rest : List CacheOut) (calls : List PortCall)
    (comp : Option MemRWOpt) (h : Hosts.deliver now outs s = .ok t) :
    ReflTransGen (Act ok) ⟨now, s.1, s.2, outs ++ rest, calls, comp⟩
      ⟨now, t.1, t.2, rest, calls, comp⟩ := by
  unfold Hosts.deliver at h
  induction outs generalizing s with
  | nil =>
    cases h
    exact .refl
  | cons out outs ih =>
    simp only [List.foldlM_cons] at h
    obtain ⟨r, hr, h⟩ := bind_eq_ok.mp h
    exact .head (of_deliverOne _ calls comp hr) (ih h)

theorem of_deliver {outs : List CacheOut} (calls : List PortCall) (comp : Option MemRWOpt)
    (h : Hosts.deliver now outs s = .ok t) :
    ReflTransGen (Act ok) ⟨now, s.1, s.2, outs, calls, comp⟩ ⟨now, t.1, t.2, [], calls, comp⟩ := by
  have hrun : ReflTransGen (Act ok) ⟨now, s.1, s.2, outs ++ [], calls, comp⟩
      ⟨now, t.1, t.2, [], calls, comp⟩ := of_deliver_first [] calls comp h
  rwa [List.append_nil] at hrun

theorem of_completeChannel {op : MemRWOpt}
    (h : RAMArbiter.completeChannel now op (Hosts.recvMemResp now) s = .ok t) :
    ReflTransGen (Act ok) ⟨now, s.1, s.2, [], [], none⟩ ⟨now, t.1, t.2, [], [], none⟩ := by
  obtain ⟨_, rfl⟩ | ⟨req, hdue, hreq, r, hr, hhost, hnext⟩ := RAMArbiter.completeChannel_cases h
  · exact .refl
  · rw [Hosts.recvMemResp_eq] at hr
    obtain ⟨⟨hosts, outs⟩, hrec, hdel⟩ := bind_eq_ok.mp hr
    refine .head (.answer ⟨rfl, rfl, rfl⟩ hdue hreq hrec) ?_
    refine (of_deliver [] (some op) hdel).trans ?_
    rcases hnext with ⟨hnone, ht⟩ | ⟨g, next, hg, htop, hserve⟩
    · rw [hhost, ht]
      exact .single (.free rfl rfl hnone)
    · rw [hhost]
      exact .single (.next rfl rfl hg htop hserve)

theorem of_updateMemory (h : RAMArbiter.doUpdate now (Hosts.recvMemResp now) s = .ok t) :
    ReflTransGen (Act ok) ⟨now, s.1, s.2, [], [], none⟩ ⟨now, t.1, t.2, [], [], none⟩ := by
  unfold RAMArbiter.doUpdate at h
  split at h
  · unfold RAMArbiter.updateImpl at h
    obtain ⟨r, hr, h⟩ := bind_eq_ok.mp h
    exact (of_completeChannel hr).trans (of_completeChannel h)
  · cases h
    exact .refl

theorem of_callOne {call : PortCall} (rest : List PortCall)
    (h : Hosts.callOne now s call = .ok t) :
    ReflTransGen (Act ok) ⟨now, s.1, s.2, [], call :: rest, none⟩
      ⟨now, t.1, t.2, [], rest, none⟩ := by
  cases call with
  | fetch addr =>
    obtain ⟨c, hc, h⟩ := bind_eq_ok.mp h
    cases h
    exact .single (.fetch rfl rfl hc)
  | lsu nc op addr data strb =>
    cases nc with
    | false =>
      obtain ⟨⟨d, outs⟩, hd, h⟩ := bind_eq_ok.mp h
      exact .head (.request rfl rfl hd) (of_deliver rest none h)
    | true =>
      cases op <;>
      · obtain ⟨⟨b, m⟩, hb, h⟩ := bind_eq_ok.mp h
        obtain ⟨mem, hm, h⟩ := bind_eq_ok.mp h
        cases h
        exact .head (.bypass rfl rfl hb) (.single (.send rfl hm))

theorem of_runCalls (h : Hosts.runCalls now s = .ok t) :
    ReflTransGen (Act ok) ⟨now, s.1, s.2, [], [], none⟩ ⟨now, t.1, t.2, [], [], none⟩ := by
  unfold Hosts.runCalls at h
  dsimp only at h
  refine .head (.take ⟨rfl, rfl, rfl⟩) ?_
  dsimp only
  generalize s.1.core.calls = calls at h ⊢
  generalize hr : (({ s.1 with core := { s.1.core with calls := [] } }, s.2) :
    Hosts S × RAMArbiter S.mem) = r at h
  have hstart : ∀ (l : List PortCall) (r : Hosts S × RAMArbiter S.mem),
      l.foldlM (Hosts.callOne now) r = .ok t →
      ReflTransGen (Act ok) ⟨now, r.1, r.2, [], l, none⟩ ⟨now, t.1, t.2, [], [], none⟩ := by
    intro l
    induction l with
    | nil =>
      intro r h
      cases h
      exact .refl
    | cons call l ih =>
      intro r h
      simp only [List.foldlM_cons] at h
      obtain ⟨u, hu, h⟩ := bind_eq_ok.mp h
      exact (of_callOne l hu).trans (ih u h)
  have hx := hstart calls r h
  rw [← hr] at hx
  exact hx

theorem of_work {c : Pipeline S.core} (hc : ReflTransGen (CoreWork now s.1.ports) s.1.core c) :
    ReflTransGen (Act ok) ⟨now, s.1, s.2, [], [], none⟩
      ⟨now, { s.1 with core := c }, s.2, [], [], none⟩ := by
  induction hc with
  | refl => exact .refl
  | tail _ hstep ih => exact ih.tail (.core ⟨rfl, rfl, rfl⟩ hstep)

theorem of_core {c : Pipeline S.core}
    (hc : ReflTransGen (CoreWork now s.1.ports) s.1.core c)
    (h : Hosts.runCalls now ({ s.1 with core := c }, s.2) = .ok t) :
    ReflTransGen (Act ok) ⟨now, s.1, s.2, [], [], none⟩ ⟨now, t.1, t.2, [], [], none⟩ :=
  (of_work hc).trans (of_runCalls h)

theorem of_updateDcache (hok : ok now s.1.dcache) (h : Hosts.updateDcache now s = .ok t) :
    ReflTransGen (Act ok) ⟨now, s.1, s.2, [], [], none⟩ ⟨now, t.1, t.2, [], [], none⟩ := by
  obtain ⟨⟨d, outs⟩, hd, h⟩ := bind_eq_ok.mp h
  exact .head (.dcache ⟨rfl, rfl, rfl⟩ hok hd) (of_deliver [] none h)

theorem of_updateIcache (h : Hosts.updateIcache now s = .ok t) :
    ReflTransGen (Act ok) ⟨now, s.1, s.2, [], [], none⟩ ⟨now, t.1, t.2, [], [], none⟩ := by
  obtain ⟨⟨c, outs⟩, hc, h⟩ := bind_eq_ok.mp h
  exact .head (.icache ⟨rfl, rfl, rfl⟩ hc) (of_deliver [] none h)

end Act

namespace Sys

/-- Between two calls of the main loop. -/
def wire (s : Sys S) : Wire S := { now := s.tick, hosts := s.hosts, mem := s.mem }

/-- The update of the data cache that the next call makes is one that `ok` allows. -/
structure Allows (ok : Nat → DataPort S.dcache → Prop) (s : Sys S) : Prop where
  dcache : s.phase = .dcache → ok s.tick s.hosts.dcache
  fence : s.phase = .sysOp → s.inst.sysOp = Trace.SysFenceI → ok s.tick s.hosts.dcache.flushAll

variable {ok : Nat → DataPort S.dcache → Prop} {s t : Sys S}

private theorem fenceI_acts {now : Nat} {s t : Hosts S × RAMArbiter S.mem}
    (hok : ok now s.1.dcache.flushAll) (h : Hosts.fenceI now s = .ok t) :
    ReflTransGen (Act ok) ⟨now, s.1, s.2, [], [], none⟩ ⟨now, t.1, t.2, [], [], none⟩ := by
  obtain ⟨r, hr, h⟩ := bind_eq_ok.mp h
  have hd : r.1.dcache = s.1.dcache.flushAll := by
    obtain ⟨⟨c, outs⟩, _, hr⟩ := bind_eq_ok.mp hr
    exact (Act.deliver_caches hr).2
  refine .head (.flush ⟨rfl, rfl, rfl⟩) ?_
  exact (Act.of_updateIcache hr).trans (Act.of_updateDcache (hd ▸ hok) h)

/-- A call of the main loop is a sequence of actions. -/
theorem step_acts (hok : s.Allows ok) (h : s.step false = .ok t) :
    ReflTransGen (Act ok) s.wire t.wire := by
  unfold step at h
  split at h
  · obtain ⟨r, hr, h⟩ := bind_eq_ok.mp h
    cases h
    exact Act.of_updateMemory hr
  · cases h
    exact .refl
  · rename_i hphase
    obtain ⟨r, hr, h⟩ := bind_eq_ok.mp h
    cases h
    exact Act.of_updateDcache (hok.dcache hphase) hr
  · obtain ⟨r, hr, h⟩ := bind_eq_ok.mp h
    cases h
    exact Act.of_updateIcache hr
  · obtain ⟨r, hr, h⟩ := bind_eq_ok.mp h
    cases h
    obtain ⟨c, hc, hr⟩ := bind_eq_ok.mp hr
    exact Act.of_core (CoreWork.of_doUpdate hc) hr
  · unfold feed at h
    split at h
    · split at h
      · split at h
        · cases h
          exact .single (.core ⟨rfl, rfl, rfl⟩ .drain)
        · obtain ⟨r, hr, h⟩ := bind_eq_ok.mp h
          cases h
          obtain ⟨c, hc, hr⟩ := bind_eq_ok.mp hr
          exact Act.of_core (CoreWork.of_feedInst hc) hr
      · cases h
        exact .single (.core ⟨rfl, rfl, rfl⟩ .drain)
    · cases h
      exact .refl
  · cases h
    exact .single (.tick ⟨rfl, rfl, rfl⟩)
  · rename_i hphase
    unfold handleSysOp at h
    split at h
    · cases h
      exact .single (.reset ⟨rfl, rfl, rfl⟩)
    · split at h
      · rename_i hfence
        obtain ⟨r, hr, h⟩ := bind_eq_ok.mp h
        cases h
        exact fenceI_acts (hok.fence hphase hfence) hr
      · split at h <;>
        · cases h
          exact .refl
  · cases h
    exact .refl

/-- The states that the main loop reaches by calls that `ok` allows. -/
def ReachableBy (ok : Nat → DataPort S.dcache → Prop) (s : Sys S) : Prop :=
  ∃ trace inst nxt, ReflTransGen (fun a b => a.Allows ok ∧ a.step false = .ok b)
    (init S trace inst nxt) s

/-- An invariant of the actions holds between the calls. -/
theorem ReachableBy.invariant {I : Wire S → Prop}
    (start : ∀ trace inst nxt, I (init S trace inst nxt).wire)
    (act : ∀ w w', Act ok w w' → I w → I w') (h : s.ReachableBy ok) : I s.wire := by
  obtain ⟨trace, inst, nxt, hrun⟩ := h
  refine invariant_of_run (I := fun a : Sys S => I a.wire) ?_ (start trace inst nxt) hrun
  intro a b hab ha
  exact invariant_of_run act ha (step_acts hab.1 hab.2)

theorem Reachable.reachableBy (h : s.Reachable) : s.ReachableBy fun _ _ => True := by
  refine h.invariant (fun trace inst nxt => ⟨trace, inst, nxt, .refl⟩) ?_
  rintro a b ⟨trace, inst, nxt, hrun⟩ hab
  exact ⟨trace, inst, nxt, hrun.tail ⟨⟨fun _ => trivial, fun _ _ => trivial⟩, hab⟩⟩

end Sys

end NpSim.System
