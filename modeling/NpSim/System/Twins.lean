/- digest: Two systems that work alike: twins in every component, driven by the same calls. -/

import NpSim.Cache.Tallies
import NpSim.Mem.Twins
import NpSim.Pipe.Twins
import NpSim.System.Main

set_option autoImplicit false
set_option relaxedAutoImplicit false

namespace NpSim.System

open NpSim.Lib.Partial NpSim.Lib.Pairs NpSim.Cache NpSim.Mem NpSim.Pipe

inductive DataPort.Twin {P : CacheParams} : DataPort P → DataPort P → Prop
  | cached {c d : PipeCache P} (h : c.Twin d) : Twin (.cached c) (.cached d)
  | uncached {c d : NoCache} (h : c.Twin d) : Twin (.uncached c) (.uncached d)

variable {S : Config} {p q : Prop} {now : Nat}

/-- Twins in every host. -/
structure Hosts.Twin (p q : Prop) (x y : Hosts S) : Prop where
  icache : x.icache.Twin y.icache
  dcache : x.dcache.Twin y.dcache
  bypass : x.bypass.Twin y.bypass
  core : x.core.Twin p q y.core

namespace DataPort.Twin

variable {P : CacheParams} {x y : DataPort P}

theorem refl (x : DataPort P) : Twin x x := by
  cases x with
  | cached c => exact .cached (.refl c)
  | uncached c => exact .uncached (.refl c)

theorem isReady (h : Twin x y) : y.isReady = x.isReady := by
  cases h with
  | cached h => exact h.isReady
  | uncached h => exact h.isReady

/-- Twins, with the same messages. -/
def With (x y : DataPort P × List CacheOut) : Prop := Twin x.1 y.1 ∧ x.2 = y.2

private theorem lift {u v : Except Fault (PipeCache P × List CacheOut)}
    (h : Both PipeCache.TwinWith u v) :
    Both With (u >>= fun r => .ok (.cached r.1, r.2)) (v >>= fun r => .ok (.cached r.1, r.2)) :=
  h.bind fun _ _ h => ⟨.cached h.1, h.2⟩

theorem doUpdate (h : Twin x y) : Both With (x.doUpdate now) (y.doUpdate now) := by
  cases h with
  | cached h => exact lift h.doUpdate
  | uncached h => exact ⟨.uncached h, rfl⟩

theorem request (h : Twin x y) (op : MemRWOpt) (addr : Addr) (data : Word) (strb : BitVec 8) :
    Both With (x.request now op addr data strb) (y.request now op addr data strb) := by
  cases h with
  | cached h =>
    cases op with
    | read => exact (h.readReq addr).bind fun _ _ h => ⟨.cached h, rfl⟩
    | write => exact lift (h.writeReq addr data strb)
  | uncached h =>
    cases op with
    | read =>
      refine (h.readReq addr).bind ?_
      rintro ⟨_, _⟩ ⟨_, _⟩ ⟨h, hm⟩
      exact ⟨.uncached h, congrArg (fun m => [CacheOut.memReq m]) hm⟩
    | write =>
      refine (h.writeReq addr data strb).bind ?_
      rintro ⟨_, _⟩ ⟨_, _⟩ ⟨h, hm⟩
      exact ⟨.uncached h, congrArg (fun m => [CacheOut.memReq m]) hm⟩

theorem recvMemResp (h : Twin x y) (m : MemTrans) :
    Both With (x.recvMemResp now m) (y.recvMemResp now m) := by
  cases h with
  | cached h => exact (h.recvMemResp m).bind fun _ _ h => ⟨.cached h, rfl⟩
  | uncached h => exact (h.recvMemResp m).bind fun _ _ h => ⟨.uncached h.1, h.2⟩

theorem flushAll (h : Twin x y) : Twin x.flushAll y.flushAll := by
  cases h with
  | cached h => exact .cached h.flushAll
  | uncached h => exact .uncached h

theorem resetStats (h : Twin x y) : Twin x.resetStats y.resetStats := by
  cases h with
  | cached h => exact .cached h.resetStats
  | uncached h => exact .uncached h.resetStats

end DataPort.Twin

namespace Hosts

/-- Twin hosts beside fabrics that work alike. -/
abbrev Alike (p q : Prop) (R : S.mem.devices.State → S.mem.devices.State → Prop)
    (s t : Hosts S × RAMArbiter S.mem) : Prop :=
  RAMArbiter.Beside (Hosts.Twin p q) R s t

variable {R : S.mem.devices.State → S.mem.devices.State → Prop}
  {s t : Hosts S × RAMArbiter S.mem}

theorem Twin.ports {x y : Hosts S} (h : Twin p q x y) : y.ports = x.ports := by
  unfold Hosts.ports
  rw [h.icache.isReady, h.dcache.isReady, h.bypass.isReady]

namespace Alike

theorem icache (h : Alike p q R s t) {x y : PipeCache S.icache} (hx : x.Twin y) :
    Alike p q R ({ s.1 with icache := x }, s.2) ({ t.1 with icache := y }, t.2) :=
  ⟨⟨hx, h.1.dcache, h.1.bypass, h.1.core⟩, h.2⟩

theorem dcache (h : Alike p q R s t) {x y : DataPort S.dcache} (hx : x.Twin y) :
    Alike p q R ({ s.1 with dcache := x }, s.2) ({ t.1 with dcache := y }, t.2) :=
  ⟨⟨h.1.icache, hx, h.1.bypass, h.1.core⟩, h.2⟩

theorem bypass (h : Alike p q R s t) {x y : NoCache} (hx : x.Twin y) :
    Alike p q R ({ s.1 with bypass := x }, s.2) ({ t.1 with bypass := y }, t.2) :=
  ⟨⟨h.1.icache, h.1.dcache, hx, h.1.core⟩, h.2⟩

theorem core (h : Alike p q R s t) {x y : Pipeline S.core} (hx : x.Twin p q y) :
    Alike p q R ({ s.1 with core := x }, s.2) ({ t.1 with core := y }, t.2) :=
  ⟨⟨h.1.icache, h.1.dcache, h.1.bypass, hx⟩, h.2⟩

end Alike

private theorem deliverOne_alike (hR : S.mem.devices.Congruent R) (h : Alike p q R s t)
    (out : CacheOut) : Both (Alike p q R) (deliverOne now s out) (deliverOne now t out) := by
  cases out with
  | cpuResp r => exact (h.1.core.recvMemResp r).bind fun _ _ hc => h.core hc
  | cpuAck a => exact (h.1.core.ackMemAvail a).bind fun _ _ hc => h.core hc
  | memReq m => exact (h.2.recvReq hR m).bind fun _ _ hm => And.intro h.1 hm

private theorem deliver_alike (hR : S.mem.devices.Congruent R) (h : Alike p q R s t)
    (outs : List CacheOut) : Both (Alike p q R) (deliver now outs s) (deliver now outs t) :=
  Both.foldlM (S := Alike p q R) (fun out _ _ h => deliverOne_alike hR h out) outs h

private theorem recvMemResp_alike (hR : S.mem.devices.Congruent R) (id : Nat) (m : MemTrans)
    (h : Alike p q R s t) :
    Both (Alike p q R) (recvMemResp now id m s) (recvMemResp now id m t) := by
  refine Both.ite ?_ (Both.ite ?_ ?_)
  · exact (h.1.icache.recvMemResp m).bind fun _ _ hi => h.icache hi
  · refine (h.1.dcache.recvMemResp m).bind ?_
    rintro ⟨d, outs⟩ ⟨d', outs'⟩ ⟨hd, ho⟩
    cases ho
    exact deliver_alike hR (h.dcache hd) outs
  · refine (h.1.bypass.recvMemResp m).bind ?_
    rintro ⟨b, outs⟩ ⟨b', outs'⟩ ⟨hb, ho⟩
    cases ho
    exact deliver_alike hR (h.bypass hb) outs

private theorem callOne_alike (hR : S.mem.devices.Congruent R) (h : Alike p q R s t)
    (call : PortCall) : Both (Alike p q R) (callOne now s call) (callOne now t call) := by
  cases call with
  | fetch addr => exact (h.1.icache.readReq addr).bind fun _ _ hi => h.icache hi
  | lsu nc op addr data strb =>
    cases nc with
    | false =>
      refine (h.1.dcache.request op addr data strb).bind ?_
      rintro ⟨d, outs⟩ ⟨d', outs'⟩ ⟨hd, ho⟩
      cases ho
      exact deliver_alike hR (h.dcache hd) outs
    | true =>
      cases op with
      | read =>
        refine (h.1.bypass.readReq addr).bind ?_
        rintro ⟨b, m⟩ ⟨b', m'⟩ ⟨hb, hm⟩
        cases hm
        exact (h.2.recvReq hR m).bind fun _ _ hm => And.intro (h.bypass hb).1 hm
      | write =>
        refine (h.1.bypass.writeReq addr data strb).bind ?_
        rintro ⟨b, m⟩ ⟨b', m'⟩ ⟨hb, hm⟩
        cases hm
        exact (h.2.recvReq hR m).bind fun _ _ hm => And.intro (h.bypass hb).1 hm

theorem runCalls_alike (hR : S.mem.devices.Congruent R) (h : Alike p q R s t) :
    Both (Alike p q R) (runCalls now s) (runCalls now t) := by
  obtain ⟨hcalls, hc⟩ := h.1.core.send
  unfold runCalls
  rw [hcalls]
  exact Both.foldlM (S := Alike p q R) (fun call _ _ h => callOne_alike hR h call) _ (h.core hc)

theorem updateDcache_alike (hR : S.mem.devices.Congruent R) (h : Alike p q R s t) :
    Both (Alike p q R) (updateDcache now s) (updateDcache now t) := by
  refine h.1.dcache.doUpdate.bind ?_
  rintro ⟨d, outs⟩ ⟨d', outs'⟩ ⟨hd, ho⟩
  cases ho
  exact deliver_alike hR (h.dcache hd) outs

theorem updateIcache_alike (hR : S.mem.devices.Congruent R) (h : Alike p q R s t) :
    Both (Alike p q R) (updateIcache now s) (updateIcache now t) := by
  refine h.1.icache.doUpdate.bind ?_
  rintro ⟨i, outs⟩ ⟨i', outs'⟩ ⟨hi, ho⟩
  cases ho
  exact deliver_alike hR (h.icache hi) outs

theorem updateMemory_alike (hR : S.mem.devices.Congruent R) (h : Alike p q R s t) :
    Both (Alike p q R) (RAMArbiter.doUpdate now (recvMemResp now) s)
      (RAMArbiter.doUpdate now (recvMemResp now) t) :=
  RAMArbiter.Beside.doUpdate hR (fun id m _ _ h => recvMemResp_alike hR id m h) h

theorem updateCore_alike (hR : S.mem.devices.Congruent R) (eager : Bool)
    (hq : eager = false → q) (h : Alike p q R s t) :
    Both (Alike p q R) (updateCore eager now s) (updateCore eager now t) := by
  unfold updateCore
  dsimp only
  rw [h.1.ports]
  cases eager with
  | true =>
    exact (h.1.core.updateImpl _).bind fun _ _ hc => runCalls_alike hR (h.core hc)
  | false =>
    exact (h.1.core.doUpdate (hq rfl) _).bind fun _ _ hc => runCalls_alike hR (h.core hc)

theorem feedInst_alike (hR : S.mem.devices.Congruent R) (inst : TraceInst)
    (h : Alike p q R s t) : Both (Alike p q R) (feedInst now inst s) (feedInst now inst t) := by
  unfold feedInst
  rw [h.1.ports]
  exact (h.1.core.feedInst _ inst).bind fun _ _ hc => runCalls_alike hR (h.core hc)

theorem fenceI_alike (hR : S.mem.devices.Congruent R) (h : Alike p q R s t) :
    Both (Alike p q R) (fenceI now s) (fenceI now t) := by
  have hf := (h.icache h.1.icache.flushAll).dcache h.1.dcache.flushAll
  exact (updateIcache_alike hR hf).bind fun _ _ h => updateDcache_alike hR h

theorem resetStats_alike (hR : S.mem.devices.Congruent R) (h : Alike p q R s t) :
    Alike p q R (s.1.resetStats now, s.2.resetStats) (t.1.resetStats now, t.2.resetStats) :=
  ⟨⟨h.1.icache.resetStats.resetPrefetcher, h.1.dcache.resetStats, h.1.bypass.resetStats,
    h.1.core.resetStats⟩, h.2.resetStats hR⟩

end Hosts

namespace Sys

inductive Twin (p q : Prop) (R : S.mem.devices.State → S.mem.devices.State → Prop) (s : Sys S) :
    Sys S → Prop
  | mk (r : Hosts S × RAMArbiter S.mem) (h : Hosts.Alike p q R (s.hosts, s.mem) r) :
    Twin p q R s { s with hosts := r.1, mem := r.2 }

variable {R : S.mem.devices.State → S.mem.devices.State → Prop} {s t : Sys S}

theorem Twin.devs (h : Twin p q R s t) : R s.mem.devs t.mem.devs := by
  cases h with
  | mk r h => exact h.2.devs

theorem Twin.phase (h : Twin p q R s t) : t.phase = s.phase := by
  cases h
  rfl

theorem Twin.refl (hR : ∀ d, R d d) (s : Sys S) : Twin p q R s s :=
  .mk (s.hosts, s.mem) ⟨⟨.refl _, .refl _, .refl _, .refl _⟩, .refl hR _⟩

private theorem step_of_halted {e : Bool} (h : s.phase = .halted) : s.step e = .ok s := by
  unfold step
  rw [h]

private theorem loopOrHalt_twin (h : Twin p q R s t) : Twin p q R s.loopOrHalt t.loopOrHalt := by
  cases h with
  | mk r h =>
    have hf : r.1.core.isFinished = s.hosts.core.isFinished := h.1.core.isFinished
    unfold loopOrHalt
    dsimp only
    rw [hf]
    exact .mk r h

private theorem twin_with (s : Sys S) {x y : Hosts S × RAMArbiter S.mem}
    (h : Hosts.Alike p q R x y) :
    Twin p q R { s with hosts := x.1, mem := x.2 } { s with hosts := y.1, mem := y.2 } :=
  .mk y h

private theorem feed_twin (hR : S.mem.devices.Congruent R) (h : Twin p q R s t) :
    Both (Twin p q R) s.feed t.feed := by
  cases h with
  | mk r h =>
    have hi : r.1.core.instAvail = s.hosts.core.instAvail := h.1.core.instAvail
    have hd := h.core h.1.core.setDraining
    unfold feed
    dsimp only
    rw [hi]
    refine Both.ite (Both.ite ?_ (twin_with { s with phase := .clock } hd))
      (twin_with { s with phase := .clock } h)
    cases s.trace with
    | nil => exact twin_with { s with trace := [], hasNext := false, phase := .clock } hd
    | cons inst rest =>
      exact (Hosts.feedInst_alike hR inst h).bind fun _ _ hy => twin_with { s with
        trace := rest, inst := inst, instCnt := s.instCnt + 1, phase := .clock } hy

private theorem handleSysOp_twin (hR : S.mem.devices.Congruent R) (h : Twin p q R s t) :
    Both (Twin p q R) s.handleSysOp t.handleSysOp := by
  cases h with
  | mk r h =>
    refine Both.ite ?_ (Both.ite ?_ (Both.ite ?_ ?_))
    · exact loopOrHalt_twin (twin_with { s with inst := { s.inst with sysOp := Trace.SysNone } }
        (Hosts.resetStats_alike hR h))
    · exact (Hosts.fenceI_alike hR h).bind fun _ _ hy => loopOrHalt_twin (twin_with { s with
        inst := { s.inst with sysOp := Trace.SysNone }, phase := .sysOp } hy)
    · exact loopOrHalt_twin (twin_with { s with
        inst := { s.inst with sysOp := Trace.SysNone }, stopAfterDump := true } h)
    · exact loopOrHalt_twin (.mk r h)

/-- The systems take one call of the main loop alike, if the cores do in an update. -/
theorem step_twin (hR : S.mem.devices.Congruent R) {e e' : Bool} (h : Twin p q R s t)
    (hcore : s.phase = .core → Both (Hosts.Alike p q R)
      (Hosts.updateCore e s.tick (s.hosts, s.mem)) (Hosts.updateCore e' s.tick (t.hosts, t.mem))) :
    Both (Twin p q R) (s.step e) (t.step e') := by
  by_cases hrun : s.phase = .halted
  · rw [step_of_halted hrun, step_of_halted (h.phase.trans hrun)]
    exact h
  have hfeed := feed_twin hR h
  have hsys := handleSysOp_twin hR h
  cases h with
  | mk r h =>
    unfold step
    dsimp only
    cases hph : s.phase with
    | memory =>
      exact (Hosts.updateMemory_alike hR h).bind fun _ _ hy =>
        twin_with { s with phase := .bypass } hy
    | bypass => exact twin_with { s with phase := .dcache } h
    | dcache =>
      exact (Hosts.updateDcache_alike hR h).bind fun _ _ hy =>
        twin_with { s with phase := .icache } hy
    | icache =>
      exact (Hosts.updateIcache_alike hR h).bind fun _ _ hy =>
        twin_with { s with phase := .core } hy
    | core =>
      exact (hcore hph).bind fun _ _ hy =>
        twin_with { s with phase := .feed } hy
    | feed => exact hfeed
    | clock => exact twin_with { s with tick := s.tick + 1, phase := .sysOp } h
    | sysOp => exact hsys
    | halted => exact absurd hph hrun

theorem run_twin (hR : S.mem.devices.Congruent R) (e : Bool) (hq : e = false → q) (n : Nat)
    (h : Twin p q R s t) : Both (Twin p q R) (run e n s) (run e n t) := by
  induction n generalizing s t with
  | zero => exact h
  | succ n ih =>
    refine (step_twin hR h fun _ => ?_).bind fun _ _ h => ih h
    cases h with
    | mk r h => exact Hosts.updateCore_alike hR e hq h

end Sys

end NpSim.System
