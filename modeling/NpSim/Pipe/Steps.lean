/- digest: The open core: every single thing that can happen to it, under any environment. -/

import NpSim.Pipe.Handlers

set_option autoImplicit false
set_option relaxedAutoImplicit false

namespace NpSim.Pipe

open NpSim.Lib.Partial Relation

variable {K : PipelineParams}

namespace Pipeline

/-- One thing that happens to the core at tick `now`. The environment is free: any readiness of
the ports, any response or ack the core does not reject, any record, any reset. -/
inductive CoreStep (now : Nat) (c : Pipeline K) : Pipeline K → Prop
  | beginTick : CoreStep now c { c with bpu := c.bpu.beginTick }
  | stage {c' : Pipeline K} (i : PipeStage) (ports : Ports) (due : c.stageDue now i)
      (h : stageHandler now ports i c = .ok c') : CoreStep now c c'
  | fetch0 (ready : Bool) : CoreStep now c (c.doFetch0 now ready)
  | sched : CoreStep now c (c.calcSched now)
  | resp {c' : Pipeline K} (t : CpuTrans) (h : c.recvMemResp now t = .ok c') : CoreStep now c c'
  | ack {c' : Pipeline K} (a : AckTrans) (h : c.ackMemAvail now a = .ok c') : CoreStep now c c'
  | buffer (inst : TraceInst) (h : c.inputBuffer = none) : CoreStep now c { c with
      ongoingInsts := c.ongoingInsts + 1
      inputBuffer := some { traceInst := inst, seq := c.fed.length }
      fed := c.fed ++ [inst] }
  | drain : CoreStep now c c.setDraining
  | reset : CoreStep now c { c.resetStats now with bpu := c.bpu.resetStats }
  | sent : CoreStep now c { c with calls := [] }

theorem runStage_steps {now : Nat} {ports : Ports} {i : PipeStage} {c c' : Pipeline K}
    (h : runStage now ports c i = .ok c') : ReflTransGen (CoreStep now) c c' := by
  unfold runStage at h
  split at h
  · rename_i due
    exact .single (.stage i ports due h)
  · cases h
    exact .refl

theorem runStages_steps {now : Nat} {ports : Ports} (l : List PipeStage) {c c' : Pipeline K}
    (h : l.foldlM (runStage now ports) c = .ok c') : ReflTransGen (CoreStep now) c c' := by
  induction l generalizing c with
  | nil =>
    cases h
    exact .refl
  | cons i l ih =>
    simp only [List.foldlM_cons] at h
    obtain ⟨d, hd, h⟩ := bind_eq_ok.mp h
    exact (runStage_steps hd).trans (ih h)

theorem updateImpl_steps {now : Nat} {ports : Ports} {c c' : Pipeline K}
    (h : c.updateImpl now ports = .ok c') : ReflTransGen (CoreStep now) c c' := by
  unfold updateImpl at h
  obtain ⟨d, hd, h⟩ := bind_eq_ok.mp h
  cases h
  have hbegin : ReflTransGen (CoreStep now) c d := .head .beginTick (runStages_steps _ hd)
  exact (hbegin.tail (.fetch0 ports.imem)).tail .sched

theorem doUpdate_steps {now : Nat} {ports : Ports} {c c' : Pipeline K}
    (h : c.doUpdate now ports = .ok c') : ReflTransGen (CoreStep now) c c' := by
  unfold doUpdate at h
  split at h
  · exact updateImpl_steps h
  · cases h
    exact .refl

theorem feedInst_steps {now : Nat} {ready : Bool} {inst : TraceInst} {c c' : Pipeline K}
    (h : c.feedInst now ready inst = .ok c') : ReflTransGen (CoreStep now) c c' := by
  unfold feedInst at h
  obtain ⟨hin, h⟩ := require_bind_eq_ok.mp h
  cases h
  exact .tail (.single (.buffer inst hin)) (.fetch0 ready)

structure Clocked (K : PipelineParams) where
  now : Nat
  core : Pipeline K

inductive ClockedStep : Clocked K → Clocked K → Prop
  | core {now : Nat} {c c' : Pipeline K} (h : CoreStep now c c') :
      ClockedStep ⟨now, c⟩ ⟨now, c'⟩
  | tick {now : Nat} {c : Pipeline K} : ClockedStep ⟨now, c⟩ ⟨now + 1, c⟩

theorem clocked_steps {now : Nat} {c c' : Pipeline K} (h : ReflTransGen (CoreStep now) c c') :
    ReflTransGen ClockedStep ⟨now, c⟩ ⟨now, c'⟩ :=
  h.lift (fun d => (⟨now, d⟩ : Clocked K)) fun _ _ hd => .core hd

/-- The states the core can be in, at any tick and under any environment. -/
def CoreReachable (s : Clocked K) : Prop :=
  ∃ nxt, ReflTransGen ClockedStep ⟨0, { calcNxtupd := nxt }⟩ s

/-- An invariant of the initial state and of every step is an invariant of the open core. -/
theorem CoreReachable.invariant {I : Clocked K → Prop}
    (init : ∀ nxt, I ⟨0, { calcNxtupd := nxt }⟩)
    (core : ∀ now c c', CoreStep now c c' → I ⟨now, c⟩ → I ⟨now, c'⟩)
    (tick : ∀ now c, I ⟨now, c⟩ → I ⟨now + 1, c⟩) {s : Clocked K} (h : CoreReachable s) : I s := by
  obtain ⟨nxt, run⟩ := h
  refine invariant_of_run ?_ (init nxt) run
  intro s t hst hs
  cases hst with
  | core hc => exact core _ _ _ hc hs
  | tick => exact tick _ _ hs

end Pipeline

end NpSim.Pipe
