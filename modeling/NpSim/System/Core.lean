/- digest: The core inside the main loop: whatever the loop calls, the core only takes steps of the
   open core. -/

import NpSim.Pipe.Steps
import NpSim.System.Main

set_option autoImplicit false
set_option relaxedAutoImplicit false

namespace NpSim.System

open NpSim.Lib.Partial NpSim.Cache NpSim.Mem NpSim.Pipe NpSim.Pipe.Pipeline Relation

variable {S : Config}

/-- The core of `b` is reached from the core of `a` by steps at tick `now`. -/
def CoreSteps (now : Nat) (a b : Hosts S) : Prop :=
  ReflTransGen (CoreStep now) a.core b.core

theorem CoreSteps.of_eq {now : Nat} {a b : Hosts S} (h : b.core = a.core) :
    CoreSteps now a b := by
  unfold CoreSteps
  rw [h]

namespace Hosts

variable {now : Nat} {s t : Hosts S × RAMArbiter S.mem}

theorem deliverOne_core {out : CacheOut} (h : deliverOne now s out = .ok t) :
    CoreSteps now s.1 t.1 := by
  cases out with
  | cpuResp r =>
    obtain ⟨c, hc, h⟩ := bind_eq_ok.mp h
    cases h
    exact .single (.resp r hc)
  | cpuAck a =>
    obtain ⟨c, hc, h⟩ := bind_eq_ok.mp h
    cases h
    exact .single (.ack a hc)
  | memReq m =>
    obtain ⟨c, hc, h⟩ := bind_eq_ok.mp h
    cases h
    exact .refl

theorem deliver_core {outs : List CacheOut} (h : deliver now outs s = .ok t) :
    CoreSteps now s.1 t.1 := by
  unfold deliver at h
  induction outs generalizing s with
  | nil =>
    cases h
    exact .refl
  | cons out outs ih =>
    simp only [List.foldlM_cons] at h
    obtain ⟨r, hr, h⟩ := bind_eq_ok.mp h
    exact (deliverOne_core hr).trans (ih h)

theorem recvMemResp_core {id : Nat} {m : MemTrans} (h : recvMemResp now id m s = .ok t) :
    CoreSteps now s.1 t.1 := by
  unfold recvMemResp at h
  split at h
  · obtain ⟨_, _, h⟩ := bind_eq_ok.mp h
    cases h
    exact .refl
  · split at h
    · obtain ⟨⟨_, outs⟩, _, h⟩ := bind_eq_ok.mp h
      have hs := deliver_core h
      exact hs
    · obtain ⟨⟨_, outs⟩, _, h⟩ := bind_eq_ok.mp h
      have hs := deliver_core h
      exact hs

theorem callOne_core {call : PortCall} (h : callOne now s call = .ok t) :
    CoreSteps now s.1 t.1 := by
  cases call with
  | fetch addr =>
    obtain ⟨_, _, h⟩ := bind_eq_ok.mp h
    cases h
    exact .refl
  | lsu nc op addr data strb =>
    cases nc with
    | false =>
      obtain ⟨⟨_, outs⟩, _, h⟩ := bind_eq_ok.mp h
      have hs := deliver_core h
      exact hs
    | true =>
      cases op <;>
      · obtain ⟨_, _, h⟩ := bind_eq_ok.mp h
        obtain ⟨_, _, h⟩ := bind_eq_ok.mp h
        cases h
        exact .refl

theorem runCalls_core (h : runCalls now s = .ok t) : CoreSteps now s.1 t.1 := by
  unfold runCalls at h
  dsimp only at h
  have hfold : ∀ (l : List PortCall) (r : Hosts S × RAMArbiter S.mem),
      l.foldlM (callOne now) r = .ok t → CoreSteps now r.1 t.1 := by
    intro l
    induction l with
    | nil =>
      intro r hr
      cases hr
      exact .refl
    | cons call l ih =>
      intro r hr
      simp only [List.foldlM_cons] at hr
      obtain ⟨u, hu, hr⟩ := bind_eq_ok.mp hr
      exact (callOne_core hu).trans (ih u hr)
  exact .head .sent (hfold _ _ h)

theorem updateDcache_core (h : updateDcache now s = .ok t) : CoreSteps now s.1 t.1 := by
  obtain ⟨⟨_, outs⟩, _, h⟩ := bind_eq_ok.mp h
  have hs := deliver_core h
  exact hs

theorem updateIcache_core (h : updateIcache now s = .ok t) : CoreSteps now s.1 t.1 := by
  obtain ⟨⟨_, outs⟩, _, h⟩ := bind_eq_ok.mp h
  have hs := deliver_core h
  exact hs

theorem updateCore_core {eager : Bool} (h : updateCore eager now s = .ok t) :
    CoreSteps now s.1 t.1 := by
  unfold updateCore at h
  dsimp only at h
  cases eager with
  | true =>
    obtain ⟨c, hc, h⟩ := bind_eq_ok.mp h
    exact ReflTransGen.trans (updateImpl_steps hc) (runCalls_core h)
  | false =>
    obtain ⟨c, hc, h⟩ := bind_eq_ok.mp h
    exact ReflTransGen.trans (doUpdate_steps hc) (runCalls_core h)

theorem feedInst_core {inst : TraceInst} (h : feedInst now inst s = .ok t) :
    CoreSteps now s.1 t.1 := by
  obtain ⟨c, hc, h⟩ := bind_eq_ok.mp h
  exact ReflTransGen.trans (feedInst_steps hc) (runCalls_core h)

theorem fenceI_core (h : fenceI now s = .ok t) : CoreSteps now s.1 t.1 := by
  obtain ⟨r, hr, h⟩ := bind_eq_ok.mp h
  have hi := updateIcache_core hr
  exact ReflTransGen.trans hi (updateDcache_core h)

end Hosts

namespace Sys

def clocked (s : Sys S) : Clocked S.core := ⟨s.tick, s.hosts.core⟩

private theorem clocked_of {s : Sys S} {r : Hosts S} (h : CoreSteps s.tick s.hosts r) :
    ReflTransGen ClockedStep s.clocked ⟨s.tick, r.core⟩ :=
  clocked_steps h

theorem feed_core {s t : Sys S} (h : s.feed = .ok t) :
    ReflTransGen ClockedStep s.clocked t.clocked := by
  have hdrain : ReflTransGen ClockedStep s.clocked ⟨s.tick, s.hosts.core.setDraining⟩ :=
    clocked_steps (.single .drain)
  unfold feed at h
  split at h
  · split at h
    · split at h
      · cases h
        exact hdrain
      · obtain ⟨r, hr, h⟩ := bind_eq_ok.mp h
        cases h
        exact clocked_of (Hosts.feedInst_core hr)
    · cases h
      exact hdrain
  · cases h
    exact .refl

theorem handleSysOp_core {s t : Sys S} (h : s.handleSysOp = .ok t) :
    ReflTransGen ClockedStep s.clocked t.clocked := by
  unfold handleSysOp at h
  split at h
  · cases h
    exact clocked_steps (.single .reset)
  · split at h
    · obtain ⟨r, hr, h⟩ := bind_eq_ok.mp h
      cases h
      exact clocked_of (Hosts.fenceI_core hr)
    · split at h
      · cases h
        exact .refl
      · cases h
        exact .refl

/-- One call of the main loop, event driven or not, is a sequence of steps of the open core. -/
theorem step_core {eager : Bool} {s t : Sys S} (h : s.step eager = .ok t) :
    ReflTransGen ClockedStep s.clocked t.clocked := by
  unfold step at h
  split at h
  · obtain ⟨r, hr, h⟩ := bind_eq_ok.mp h
    cases h
    refine clocked_of (RAMArbiter.doUpdate_host (R := CoreSteps s.tick) (fun _ => .refl)
      (fun _ _ _ hab hbd => hab.trans hbd) ?_ hr)
    exact fun _ _ _ _ _ hrec => Hosts.recvMemResp_core hrec
  · cases h
    exact .refl
  · obtain ⟨r, hr, h⟩ := bind_eq_ok.mp h
    cases h
    exact clocked_of (Hosts.updateDcache_core hr)
  · obtain ⟨r, hr, h⟩ := bind_eq_ok.mp h
    cases h
    exact clocked_of (Hosts.updateIcache_core hr)
  · obtain ⟨r, hr, h⟩ := bind_eq_ok.mp h
    cases h
    exact clocked_of (Hosts.updateCore_core hr)
  · exact feed_core h
  · cases h
    exact .single .tick
  · exact handleSysOp_core h
  · cases h
    exact .refl

theorem run_core {eager : Bool} {n : Nat} {s t : Sys S} (h : run eager n s = .ok t) :
    ReflTransGen ClockedStep s.clocked t.clocked := by
  induction n generalizing s with
  | zero =>
    cases h
    exact .refl
  | succ n ih =>
    obtain ⟨r, hr, h⟩ := bind_eq_ok.mp h
    exact (step_core hr).trans (ih h)

theorem Reachable.core {s : Sys S} (h : s.Reachable) : CoreReachable s.clocked := by
  obtain ⟨trace, inst, nxt, n, h⟩ := h
  exact ⟨nxt, run_core h⟩

end Sys

end NpSim.System
