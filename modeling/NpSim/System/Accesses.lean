/- digest: The data requests of a run are the loads and stores of its trace, in program order and
   each of them once, whatever the caches, the memory and the predictor do. -/

import NpSim.Pipe.Accesses
import NpSim.System.Wire
import NpSim.System.Region

set_option autoImplicit false
set_option relaxedAutoImplicit false

namespace NpSim.System

open NpSim.Lib.Partial NpSim.Cache NpSim.Mem NpSim.Pipe NpSim.Pipe.Pipeline Relation

section Core

variable {K : PipelineParams} {now : Nat} {ports : Ports} {c c' : Pipeline K}
  {done : List PortCall}

/-- What the order of the accesses rests on. -/
structure Tied (c : Pipeline K) : Prop where
  conserved : c.flow.Conserved
  inOrder : c.flow.InOrder
  sane : Sane c

theorem Tied.step (h : Tied c) (hx : CoreStep now c c') : Tied c' := by
  have hflow := invariant_of_run (I := fun f : Flow => f.Conserved ∧ f.InOrder)
    (fun _ _ hm hf => ⟨hm.conserved hf.1, hm.inOrder hf.1.disciplined hf.2⟩)
    ⟨h.conserved, h.inOrder⟩ (coreStep_flow hx)
  exact ⟨hflow.1, hflow.2, coreStep_sane hx h.sane⟩

/-- The requests `done`, those made since and those to come are the accesses of the records fed. -/
def InProgramOrder (done : List PortCall) (c : Pipeline K) : Prop :=
  done ++ (dataCalls c.calls ++ c.toCome) = c.fed.filterMap (access K)

theorem InProgramOrder.onward (h : InProgramOrder done c) (hx : Onward c c') :
    InProgramOrder done c' := by
  unfold InProgramOrder
  rw [hx.fed, hx.requests]
  exact h

theorem InProgramOrder.buffer (h : InProgramOrder done c) {inst : TraceInst} {n : Nat}
    (hin : c.inputBuffer = none) : InProgramOrder done { c with
      ongoingInsts := n
      inputBuffer := some { traceInst := inst, seq := c.fed.length }
      fed := c.fed ++ [inst] } := by
  have hnew : accesses K [{ traceInst := inst, seq := c.fed.length }] = (access K inst).toList :=
    accesses_real rfl
  unfold InProgramOrder toCome at h ⊢
  rw [hin] at h
  rw [List.filterMap_append, ← h, filterMap_single]
  simp only [Option.toList_none, Option.toList_some, accesses_nil, hnew, List.append_nil,
    List.append_assoc]

theorem CoreWork.inProgramOrder (hx : CoreWork now ports c c') (ht : Tied c)
    (h : InProgramOrder done c) : InProgramOrder done c' := by
  cases hx with
  | beginTick => exact h
  | stage i due hx =>
    exact h.onward (stageHandler_onward ht.conserved.disciplined ht.inOrder ht.sane due hx)
  | fetch0 =>
    obtain ⟨hcome, hcalls, hfed⟩ := doFetch0_toCome (K := K) ports.imem
    exact h.onward ⟨hfed, by rw [hcome, hcalls]⟩
  | sched => exact h
  | buffer inst hin => exact h.buffer hin
  | drain => exact h

theorem CoreWork.run_inProgramOrder (hx : ReflTransGen (CoreWork now ports) c c') (ht : Tied c)
    (h : InProgramOrder done c) : InProgramOrder done c' := by
  have hrun := invariant_of_run (I := fun c : Pipeline K => Tied c ∧ InProgramOrder done c)
    (fun _ _ hw hc => ⟨hc.1.step hw.coreStep, hw.inProgramOrder hc.1 hc.2⟩) ⟨ht, h⟩ hx
  exact hrun.2

theorem feedInst_dataCalls {ready : Bool} {inst : TraceInst}
    (h : c.feedInst now ready inst = .ok c') : dataCalls c'.calls = dataCalls c.calls := by
  obtain ⟨_, h⟩ := require_bind_eq_ok.mp h
  cases h
  exact (doFetch0_toCome ready).2.1

end Core

variable {S : Config}

/-- The accesses to come and the records fed stay as they are. -/
def Calm (a b : Hosts S) : Prop := b.core.fed = a.core.fed ∧ b.core.toCome = a.core.toCome

theorem calm_frame (now : Nat) : HostFrame (S := S) now Calm where
  refl _ := ⟨rfl, rfl⟩
  trans _ _ _ h h' := ⟨h'.1.trans h.1, h'.2.trans h.2⟩
  resp _ _ _ h := recvMemResp_toCome h
  ack _ _ _ h := ackMemAvail_toCome h
  sent _ := ⟨rfl, rfl⟩
  recv _ _ _ _ := ⟨rfl, rfl⟩
  read _ _ _ _ := ⟨rfl, rfl⟩
  dcache _ _ := ⟨rfl, rfl⟩
  bypass _ _ := ⟨rfl, rfl⟩

namespace Sys

variable {s t : Sys S} {done : List PortCall}

/-- The data requests that the next call of the main loop carries out: those of the core's update. A
feed asks for none (`feedInst_dataCalls`). -/
def asks (s : Sys S) : List PortCall :=
  if s.phase = .core then
    match s.hosts.core.doUpdate s.tick s.hosts.ports with
    | .ok c => dataCalls c.calls
    | .error _ => []
  else []

def requests : Nat → Sys S → List PortCall
  | 0, _ => []
  | n + 1, s =>
    s.asks ++ match s.step false with
      | .ok t => requests n t
      | .error _ => []

/-- With the requests `done` carried out, those to come are the other accesses of the records that
have been fed. -/
def Performs (done : List PortCall) (s : Sys S) : Prop :=
  done ++ s.hosts.core.toCome = s.hosts.core.fed.filterMap (access S.core)

private theorem Reachable.tied (h : s.Reachable) : Tied s.hosts.core :=
  ⟨h.core.conserved.1, h.core.conserved.2, h.core.sane⟩

private theorem Reachable.in_order (h : s.Reachable) (hp : Performs done s) :
    InProgramOrder done s.hosts.core := by
  unfold InProgramOrder
  rw [h.no_calls]
  exact hp

private theorem Performs.calm (h : Performs done s) (hc : Calm s.hosts t.hosts)
    (hphase : s.phase ≠ .core) : Performs (done ++ s.asks) t := by
  have hasks : s.asks = [] := if_neg hphase
  unfold Performs
  rw [hasks, List.append_nil, hc.1, hc.2]
  exact h

private theorem Performs.update (h : Performs done s) (hr : s.Reachable)
    {r : Hosts S × RAMArbiter S.mem} (hphase : s.phase = .core)
    (hx : Hosts.updateCore false s.tick (s.hosts, s.mem) = .ok r) :
    Performs (done ++ s.asks) (s.commitTo .feed r) := by
  obtain ⟨c, hc, hcalls⟩ := bind_eq_ok.mp hx
  have hupd : s.hosts.core.doUpdate s.tick s.hosts.ports = .ok c := hc
  have hasks : s.asks = dataCalls c.calls := by
    unfold asks
    rw [if_pos hphase, hupd]
  have hcalm : Calm { s.hosts with core := c } r.1 := (calm_frame s.tick).runCalls hcalls
  have hdone := CoreWork.run_inProgramOrder (CoreWork.of_doUpdate hupd) hr.tied (hr.in_order h)
  change done ++ s.asks ++ r.1.core.toCome = r.1.core.fed.filterMap (access S.core)
  rw [hcalm.1, hcalm.2, hasks, List.append_assoc]
  exact hdone

private theorem Performs.feed (h : Performs done s) (hr : s.Reachable) (hphase : s.phase = .feed)
    (hx : s.feed = .ok t) : Performs (done ++ s.asks) t := by
  have hcore : s.phase ≠ .core := by
    rw [hphase]
    decide
  rcases feed_cases hx with ⟨_, rfl⟩ | ⟨_, _, b, _, rfl⟩ |
    ⟨inst, rest, r, _, _, _, _, _, hfeed, rfl⟩
  · exact h.calm ⟨rfl, rfl⟩ hcore
  · exact h.calm ⟨rfl, rfl⟩ hcore
  · obtain ⟨c, hc, hcalls⟩ := bind_eq_ok.mp hfeed
    have hcalm : Calm { s.hosts with core := c } r.1 := (calm_frame s.tick).runCalls hcalls
    have hdone := CoreWork.run_inProgramOrder (CoreWork.of_feedInst hc) hr.tied (hr.in_order h)
    have hnone : dataCalls c.calls = [] := by
      rw [feedInst_dataCalls hc, hr.no_calls]
      rfl
    have hasks : s.asks = [] := if_neg hcore
    unfold InProgramOrder at hdone
    rw [hnone, List.nil_append] at hdone
    change done ++ s.asks ++ r.1.core.toCome = r.1.core.fed.filterMap (access S.core)
    rw [hcalm.1, hcalm.2, hasks, List.append_nil]
    exact hdone

private theorem calm_sysOp (hx : s.handleSysOp = .ok t) : Calm s.hosts t.hosts := by
  unfold handleSysOp at hx
  split at hx
  · cases hx
    exact ⟨rfl, rfl⟩
  · split at hx
    · obtain ⟨r, hfence, hx⟩ := bind_eq_ok.mp hx
      cases hx
      obtain ⟨q, hicache, hdcache⟩ := bind_eq_ok.mp hfence
      obtain ⟨c, outs, _, hcalm⟩ := (calm_frame s.tick).updateIcache hicache
      have hlast := (calm_frame s.tick).updateDcache hdcache
      exact ⟨hlast.1.trans hcalm.1, hlast.2.trans hcalm.2⟩
    · split at hx <;>
      · cases hx
        exact ⟨rfl, rfl⟩

theorem Performs.step (h : Performs done s) (hr : s.Reachable) (hx : s.step false = .ok t) :
    Performs (done ++ s.asks) t := by
  unfold Sys.step at hx
  cases hphase : s.phase with
  | memory =>
    rw [hphase] at hx
    obtain ⟨r, hmem, hx⟩ := bind_eq_ok.mp hx
    cases hx
    exact h.calm ((calm_frame s.tick).updateMemory hmem) (by rw [hphase]; decide)
  | dcache =>
    rw [hphase] at hx
    obtain ⟨r, hcache, hx⟩ := bind_eq_ok.mp hx
    cases hx
    exact h.calm ((calm_frame s.tick).updateDcache hcache) (by rw [hphase]; decide)
  | icache =>
    rw [hphase] at hx
    obtain ⟨r, hcache, hx⟩ := bind_eq_ok.mp hx
    cases hx
    obtain ⟨c, outs, _, hcalm⟩ := (calm_frame s.tick).updateIcache hcache
    exact h.calm hcalm (by rw [hphase]; decide)
  | core =>
    rw [hphase] at hx
    obtain ⟨r, hcore, hx⟩ := bind_eq_ok.mp hx
    cases hx
    exact h.update hr hphase hcore
  | feed =>
    rw [hphase] at hx
    exact h.feed hr hphase hx
  | sysOp =>
    rw [hphase] at hx
    exact h.calm (calm_sysOp hx) (by rw [hphase]; decide)
  | bypass | clock | halted =>
    rw [hphase] at hx
    cases hx
    exact h.calm ⟨rfl, rfl⟩ (by rw [hphase]; decide)

theorem Performs.run {n : Nat} (h : Performs done s) (hr : s.Reachable)
    (hx : run false n s = .ok t) : Performs (done ++ requests n s) t := by
  induction n generalizing done s with
  | zero =>
    cases hx
    rw [requests, List.append_nil]
    exact h
  | succ n ih =>
    obtain ⟨u, hstep, hx⟩ := bind_eq_ok.mp hx
    have hrest := ih (h.step hr hstep) (hr.step hstep) hx
    rw [requests, hstep, ← List.append_assoc]
    exact hrest

private theorem Reachable.toCome_nil (h : s.Reachable) (hz : s.hosts.core.ongoingInsts = 0) :
    s.hosts.core.toCome = [] := by
  have hheld := h.ongoing_held
  rw [hz] at hheld
  have hnone := List.countP_eq_zero.mp hheld.symm
  have hslot : ∀ i, ∀ x ∈ (s.hosts.core.simPipe i).toList, ¬x.countedInflight = true := by
    intro i x hx
    have hmem : i ∈ PipeStage.reverseOrder := by cases i <;> decide
    refine hnone x (List.mem_append_right _ (List.mem_filterMap.mpr ⟨i, hmem, ?_⟩))
    exact Option.mem_toList.mp hx
  have hexecute : accesses S.core (unsent (s.hosts.core.simPipe .execute)) = [] :=
    accesses_uncounted fun x hx => hslot .execute x (List.mem_of_mem_filter hx)
  have hfront : accesses S.core ((s.hosts.core.simPipe .fetch).toList ++
      s.hosts.core.fetchQueue) = [] := by
    refine accesses_uncounted fun x hx => ?_
    rcases List.mem_append.mp hx with hx | hx
    · exact hslot .fetch x hx
    · exact hnone x (List.mem_append_left _ (List.mem_append_right _ hx))
  have hinput : accesses S.core s.hosts.core.inputBuffer.toList = [] :=
    accesses_uncounted fun x hx => hnone x (List.mem_append_left _ (List.mem_append_left _ hx))
  unfold toCome
  rw [hexecute, accesses_uncounted (hslot .decode), hfront, hinput]
  rfl

theorem run_performs {trace : List TraceInst} {inst : TraceInst} {nxt : Tick} {n : Nat}
    (h : run false n (init S trace inst nxt) = .ok s) :
    Performs (requests n (init S trace inst nxt)) s := by
  have hstart : Performs [] (init S trace inst nxt) := rfl
  exact hstart.run ⟨trace, inst, nxt, 0, rfl⟩ h

/-- A run that has ended has made the requests of the whole region of interest. -/
theorem finished_requests {trace : List TraceInst} {inst : TraceInst} {nxt : Tick} {n : Nat}
    (h : run false n (init S trace inst nxt) = .ok s) (hhalt : s.phase = .halted)
    (htick : s.tick < S.maxTicks) : requests n (init S trace inst nxt) =
      (region S.maxInsts trace).filterMap (access S.core) := by
  obtain ⟨hreach, hfeed, _⟩ := run_feeding h
  obtain ⟨hz, hfed⟩ := hfeed.finished hhalt htick
  have hdone := run_performs h
  unfold Performs at hdone
  rwa [hreach.toCome_nil hz, List.append_nil, hfed] at hdone

/-- The data requests of a run and the accesses of the instructions that have not made theirs are
those of the records fed, in program order and each once. They are those of a prefix of the region
of interest, and all of it once the run has ended. -/
theorem accesses_in_order {trace : List TraceInst} {inst : TraceInst} {nxt : Tick} {n : Nat}
    (h : run false n (init S trace inst nxt) = .ok s) :
    requests n (init S trace inst nxt) ++ s.hosts.core.toCome =
      s.hosts.core.fed.filterMap (access S.core) ∧
    requests n (init S trace inst nxt) <+:
      (region S.maxInsts trace).filterMap (access S.core) ∧
    (s.phase = .halted → s.tick < S.maxTicks → requests n (init S trace inst nxt) =
      (region S.maxInsts trace).filterMap (access S.core)) := by
  have hdone := run_performs h
  refine ⟨hdone, ?_, finished_requests h⟩
  obtain ⟨_, hfeed, _⟩ := run_feeding h
  rw [← hfeed.split, List.filterMap_append, ← hdone, List.append_assoc]
  exact List.prefix_append ..

def storeThenLoad : List TraceInst :=
  [{ pc := 0x80000000, memOp := Trace.MemStore, memAddr := 0x10000000 }, mul,
    { pc := 0x80000008, memOp := Trace.MemLoad, memAddr := 0x80001006, dstReg := 3 }]

/-- Of these the multiplication asks for nothing. -/
theorem accesses_in_order_storeThenLoad :
    requests 144 (init (Config.plain 0 true) storeThenLoad {} 0) =
      [.lsu true .write 0x10000000 0xbad 0xf, .lsu false .read 0x80001004 0xbad 0xf] := by
  obtain ⟨s, hrun, hobs⟩ := exists_of_observed
    (x := run false 144 (init (Config.plain 0 true) storeThenLoad {} 0))
    (f := fun s => (s.phase, s.tick)) (b := (.halted, 17)) (by decide +kernel)
  simp only [Prod.mk.injEq] at hobs
  obtain ⟨_, _, hall⟩ := accesses_in_order hrun
  rw [hall hobs.1 (by rw [hobs.2]; decide)]
  decide

/-- Two machines ask for the same data in the same order: predictors, caches and memory decide when
a program makes its accesses, never which. -/
theorem requests_agree {T : Config} {t : Sys T} {trace : List TraceInst} {inst inst' : TraceInst}
    {nxt nxt' : Tick} {n m : Nat} (hmax : S.maxInsts = T.maxInsts)
    (hs : run false n (init S trace inst nxt) = .ok s) (hsh : s.phase = .halted)
    (hst : s.tick < S.maxTicks) (ht : run false m (init T trace inst' nxt') = .ok t)
    (hth : t.phase = .halted) (htt : t.tick < T.maxTicks) :
    requests n (init S trace inst nxt) = requests m (init T trace inst' nxt') := by
  have hcore : access S.core = access T.core := access_congr (S.hasNc.trans T.hasNc.symm)
  calc requests n (init S trace inst nxt)
      = (region S.maxInsts trace).filterMap (access S.core) := finished_requests hs hsh hst
    _ = (region T.maxInsts trace).filterMap (access T.core) := by rw [hmax, hcore]
    _ = requests m (init T trace inst' nxt') := (finished_requests ht hth htt).symm

/-- A machine without a data cache, over a memory of latency 5, asks for the same. -/
theorem requests_agree_storeThenLoad :
    requests 144 (init (Config.plain 0 true) storeThenLoad {} 0) =
      requests 200 (init (Config.plain 5 false) storeThenLoad {} 0) := by
  obtain ⟨s, hs, hobs⟩ := exists_of_observed
    (x := run false 144 (init (Config.plain 0 true) storeThenLoad {} 0))
    (f := fun s => (s.phase, s.tick)) (b := (.halted, 17)) (by decide +kernel)
  obtain ⟨t, ht, hobt⟩ := exists_of_observed
    (x := run false 200 (init (Config.plain 5 false) storeThenLoad {} 0))
    (f := fun t => (t.phase, t.tick)) (b := (.halted, 24)) (by decide +kernel)
  simp only [Prod.mk.injEq] at hobs hobt
  exact requests_agree rfl hs hobs.1 (by rw [hobs.2]; decide) ht hobt.1 (by rw [hobt.2]; decide)

end Sys

end NpSim.System
