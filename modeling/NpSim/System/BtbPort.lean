/- digest: The port conflict of the target buffer in the assembled simulator: no tick that the core
   sleeps through makes a prediction with an old bypass register. -/

import NpSim.Cache.Wakes
import NpSim.Pipe.BtbPort
import NpSim.System.Frames
import NpSim.System.Prediction

set_option autoImplicit false
set_option relaxedAutoImplicit false

namespace NpSim.System

open NpSim.Lib.Partial NpSim.Branch NpSim.Cache NpSim.Cache.PipeCache NpSim.Mem NpSim.Pipe
  NpSim.Pipe.Pipeline

variable {S : Config} {n : Nat}

/-- What happens between two updates of the core. -/
structure Between (n : Nat) (h h' : Hosts S) : Prop where
  core : Resting h.core h'.core
  icache : h.icache.WellFormed → h'.icache.WellFormed ∧ (Busy n h.icache → Busy n h'.icache)

theorem between_frame (n : Nat) : HostFrame (S := S) n (Between n) where
  refl h := ⟨.refl _, fun hw => ⟨hw, id⟩⟩
  trans _ _ _ hab hbd := ⟨hab.core.trans hbd.core, fun hw => by
    obtain ⟨hw, hb⟩ := hab.icache hw
    obtain ⟨hw, hb'⟩ := hbd.icache hw
    exact ⟨hw, hb' ∘ hb⟩⟩
  resp _ _ _ h := ⟨recvMemResp_resting h, fun hw => ⟨hw, id⟩⟩
  ack _ _ _ h := ⟨(ackMemAvail_resting h).1, fun hw => ⟨hw, id⟩⟩
  sent _ := ⟨⟨⟨rfl, rfl⟩, id, le_rfl⟩, fun hw => ⟨hw, id⟩⟩
  recv _ _ _ h := ⟨.refl _, fun hw => ⟨(hw.recvMemResp h).1, fun hb =>
    hw.recvMemResp_busy S.icache_immediate hb h⟩⟩
  read _ _ _ h := ⟨.refl _, fun hw => ⟨(hw.enqueue ⟨rfl, rfl, rfl, rfl⟩ h).1, fun _ =>
    enqueue_busy h n⟩⟩
  dcache _ _ := ⟨.refl _, fun hw => ⟨hw, id⟩⟩
  bypass _ _ := ⟨.refl _, fun hw => ⟨hw, id⟩⟩

namespace Hosts

variable {s t : Hosts S × RAMArbiter S.mem}

theorem deliver_ack {outs : List CacheOut} (h : deliver n outs s = .ok t)
    (ha : .cpuAck ⟨0, .read⟩ ∈ outs) : t.1.core.calcNxtupd ≤ (n : Tick) := by
  unfold deliver at h
  induction outs generalizing s with
  | nil => cases ha
  | cons out outs ih =>
    simp only [List.foldlM_cons] at h
    obtain ⟨r, hr, h⟩ := bind_eq_ok.mp h
    rcases List.mem_cons.mp ha with rfl | ha
    · obtain ⟨c, hc, hr⟩ := bind_eq_ok.mp hr
      cases hr
      have hwake := (ackMemAvail_resting hc).2 rfl
      exact ((between_frame n).deliver h).core.wake.trans hwake
    · exact ih h ha

theorem callAll_fetch {calls : List PortCall} {addr : Addr}
    (h : (calls ++ [PortCall.fetch addr]).foldlM (callOne n) s = .ok t) (m : Nat) :
    Busy m t.1.icache := by
  rw [List.foldlM_append] at h
  obtain ⟨r, _, h⟩ := bind_eq_ok.mp h
  simp only [List.foldlM_cons, List.foldlM_nil] at h
  obtain ⟨d, hd, h⟩ := bind_eq_ok.mp h
  cases h
  obtain ⟨c, hc, hd⟩ := bind_eq_ok.mp hd
  cases hd
  exact enqueue_busy hc m

end Hosts

/-- Before the core's turn in tick `n`: if a record can be fed, the core is due, or the instruction
cache is busy, or nothing has happened yet. -/
structure Early (n : Nat) (h : Hosts S) : Prop where
  watched : Watched n h.core
  wf : h.icache.WellFormed
  avail : h.core.instAvail = true → h.core.calcNxtupd ≤ (n : Tick) ∨ Busy n h.icache ∨
    (h.core.events = [] ∧ h.core.bpu.bypassValid = false)

/-- Between the core's turn and the feeding of tick `n`. -/
structure Late (n : Nat) (h : Hosts S) : Prop where
  watched : Watched (n + 1) h.core
  avail : h.core.instAvail = true → h.icache.isReady.1 = true → Bypassed n h.core

/-- After the feeding of a tick whose successor is `n`. -/
structure Fed (n : Nat) (h : Hosts S) : Prop where
  watched : Watched n h.core
  avail : h.core.instAvail = true → Busy n h.icache

theorem Early.between {h h' : Hosts S} (he : Early n h) (hb : Between n h h') : Early n h' := by
  obtain ⟨hw, hbusy⟩ := hb.icache he.wf
  refine ⟨he.watched.resting hb.core, hw, fun ha => ?_⟩
  rcases he.avail (hb.core.avail ha) with hdue | hi | ⟨hev, hv⟩
  · exact .inl (hb.core.wake.trans hdue)
  · exact .inr (.inl (hbusy hi))
  · exact .inr (.inr ⟨hb.core.same.events.trans hev,
      (congrArg (fun p => p.2.1) hb.core.same.port).trans hv⟩)

theorem Early.updateIcache {s t : Hosts S × RAMArbiter S.mem} (he : Early n s.1)
    (h : Hosts.updateIcache n s = .ok t) : Early n t.1 := by
  obtain ⟨⟨c, outs⟩, hc, h⟩ := bind_eq_ok.mp h
  have hbet := (between_frame n).deliver h
  have hw := (he.wf.doUpdate hc).1
  have hdepth : 1 < S.icache.pipeDepth := by
    rw [S.icache_depth]
    decide
  obtain ⟨hwt, hbusy⟩ := hbet.icache hw
  refine ⟨he.watched.resting hbet.core, hwt, fun ha => ?_⟩
  rcases he.avail (hbet.core.avail ha) with hdue | hi | ⟨hev, hv⟩
  · exact .inl (hbet.core.wake.trans hdue)
  · rcases he.wf.doUpdate_busy S.icache_immediate hdepth hi hc with hi' | hack
    · exact .inr (.inl (hbusy hi'))
    · rw [S.icache_id] at hack
      exact .inl (Hosts.deliver_ack h hack)
  · exact .inr (.inr ⟨hbet.core.same.events.trans hev,
      (congrArg (fun p => p.2.1) hbet.core.same.port).trans hv⟩)

/-- The core's turn: it predicts with the write of the tick before, or it sleeps and no record can
be fetched. -/
theorem Early.updateCore {s t : Hosts S × RAMArbiter S.mem} (he : Early n s.1)
    (hc : CoreReachable ⟨n, s.1.core⟩) (hr : S.core.branch.btb.hasRwConflict = true)
    (h : Hosts.updateCore false n s = .ok t) : Late n t.1 := by
  obtain ⟨c, hu, h⟩ := bind_eq_ok.mp h
  have hbet := (between_frame n).runCalls h
  have hu' : s.1.core.doUpdate n s.1.ports = .ok c := hu
  unfold Pipeline.doUpdate at hu'
  split at hu'
  · obtain ⟨hw, hb⟩ := updateImpl_port hc.conserved.1 hc.plain he.watched.sound hr hu'
    exact ⟨hw.resting hbet.core, fun _ _ => hb.congr hbet.core.same⟩
  · rename_i hidle
    cases hu'
    have hflag : s.1.core.bpu.btbWrittenThisTick = false := by
      by_contra hf
      exact hidle (he.watched.wakes (by simpa using hf))
    have hw : Watched (n + 1) s.1.core :=
      ⟨portSound_idle he.watched.sound hflag, fun hf => absurd (hflag.symm.trans hf) (by decide)⟩
    refine ⟨hw.resting hbet.core, fun ha hready => ?_⟩
    rcases he.avail (hbet.core.avail ha) with hdue | hi | ⟨hev, hv⟩
    · exact absurd hdue hidle
    · have := ((hbet.icache he.wf).2 hi).not_ready
      rw [hready] at this
      cases this
    · apply Bypassed.congr _ hbet.core.same
      unfold Bypassed
      rw [show s.1.core.events = [] from hev]
      refine ⟨fun hx => absurd (hv.symm.trans hx) (by decide), ?_⟩
      intro w pc hm
      cases hm

/-- The feeding: a prediction is made with the registers of an update of the same tick. -/
theorem Late.feedInst {s t : Hosts S × RAMArbiter S.mem} {inst : TraceInst} (hl : Late n s.1)
    (ha : s.1.core.instAvail = true) (hr : S.core.branch.btb.hasRwConflict = true)
    (h : Hosts.feedInst n inst s = .ok t) : Fed (n + 1) t.1 := by
  obtain ⟨c, hf, h⟩ := bind_eq_ok.mp h
  have hf' : s.1.core.feedInst n s.1.ports.imem inst = .ok c := hf
  unfold Pipeline.feedInst at hf'
  obtain ⟨_, hf'⟩ := require_bind_eq_ok.mp hf'
  cases hf'
  have hbet := (between_frame n).runCalls h
  refine ⟨?_, fun hav => ?_⟩
  · refine Watched.resting (Watched.doFetch0 ?_ (fun hready => ?_) hr) hbet.core
    · exact hl.watched.resting ⟨⟨rfl, rfl⟩, fun hx => Bool.noConfusion hx, le_rfl⟩
    · exact (hl.avail ha hready).congr ⟨rfl, rfl⟩
  · obtain ⟨addr, hcalls⟩ := doFetch0_taken rfl (hbet.core.avail hav)
    unfold Hosts.runCalls at h
    dsimp only at h
    rw [hcalls] at h
    exact Hosts.callAll_fetch h (n + 1)

namespace Sys

/-- What holds of the target buffer's port in each phase of a tick. -/
def Ported (s : Sys S) : Prop :=
  match s.phase with
  | .memory | .bypass | .dcache | .icache | .core | .sysOp => Early s.tick s.hosts
  | .feed => Late s.tick s.hosts
  | .clock => Fed (s.tick + 1) s.hosts
  | .halted => ∃ n, PortSound n s.hosts.core

theorem Ported.sound {s : Sys S} (h : s.Ported) : ∃ n, PortSound n s.hosts.core := by
  unfold Ported at h
  split at h
  all_goals first
    | exact h
    | exact ⟨_, h.watched.sound⟩

private theorem ported_init (trace : List TraceInst) (inst : TraceInst) (nxt : Tick) :
    (init S trace inst nxt).Ported := by
  have hnil : ∀ e : Event S.core, e ∉ ([] : List (Event S.core)) := fun e he => by cases he
  refine ⟨⟨⟨fun e he => (hnil e he).elim, fun e he => (hnil e he).elim,
    fun t y u he => (hnil _ he).elim, ⟨(fun hx => by cases hx), fun w pc he => (hnil _ he).elim⟩⟩,
    fun hx => by cases hx⟩, PipeCache.wellFormed_init, fun _ => .inr (.inr ⟨rfl, rfl⟩)⟩

private theorem ported_loopOrHalt {s : Sys S} (h : Early s.tick s.hosts) :
    s.loopOrHalt.Ported := by
  unfold loopOrHalt Ported
  dsimp only
  cases !s.hosts.core.isFinished && decide (s.tick < S.maxTicks) with
  | true => exact h
  | false => exact ⟨_, h.watched.sound⟩

private theorem ported_feed {s t : Sys S} (hr : S.core.branch.btb.hasRwConflict = true)
    (hl : Late s.tick s.hosts) (h : s.feed = .ok t) : t.Ported := by
  have hdrain : Fed (s.tick + 1) { s.hosts with core := s.hosts.core.setDraining } := by
    have hno : s.hosts.core.setDraining.instAvail = false := Bool.and_false _
    refine ⟨hl.watched.resting ⟨⟨rfl, rfl⟩, (fun hx => ?_), le_rfl⟩, fun hx => ?_⟩
    · exact absurd (hno.symm.trans hx) (by decide)
    · exact absurd (hno.symm.trans hx) (by decide)
  unfold feed at h
  split at h
  · rename_i ha
    split at h
    · split at h
      · cases h
        exact hdrain
      · obtain ⟨r, hf, h⟩ := bind_eq_ok.mp h
        cases h
        exact hl.feedInst ha hr hf
    · cases h
      exact hdrain
  · rename_i ha
    cases h
    exact ⟨hl.watched, fun hx => absurd hx ha⟩

private theorem ported_sysOp {s t : Sys S} (he : Early s.tick s.hosts)
    (h : s.handleSysOp = .ok t) : t.Ported := by
  unfold handleSysOp at h
  split at h
  · cases h
    apply ported_loopOrHalt
    refine ⟨?_, he.wf.resetStats.resetPrefetcher, he.avail⟩
    exact he.watched.resting ⟨⟨rfl, rfl⟩, id, le_rfl⟩
  · split at h
    · obtain ⟨r, hf, h⟩ := bind_eq_ok.mp h
      cases h
      apply ported_loopOrHalt
      obtain ⟨q, hq, hf⟩ := bind_eq_ok.mp hf
      have hflush : Early s.tick
          { s.hosts with icache := s.hosts.icache.flushAll, dcache := s.hosts.dcache.flushAll } :=
        ⟨he.watched, he.wf.flushAll, he.avail⟩
      exact (hflush.updateIcache hq).between ((between_frame s.tick).updateDcache hf)
    · split at h <;>
      · cases h
        exact ported_loopOrHalt he

private theorem ported_step {s t : Sys S} (hr : S.core.branch.btb.hasRwConflict = true)
    (hs : s.Reachable) (hp : s.Ported) (h : s.step false = .ok t) : t.Ported := by
  unfold step at h
  unfold Ported at hp
  cases hph : s.phase with
  | memory =>
    rw [hph] at h hp
    obtain ⟨r, hx, h⟩ := bind_eq_ok.mp h
    cases h
    exact hp.between ((between_frame s.tick).updateMemory hx)
  | bypass =>
    rw [hph] at h hp
    cases h
    exact hp
  | dcache =>
    rw [hph] at h hp
    obtain ⟨r, hx, h⟩ := bind_eq_ok.mp h
    cases h
    exact hp.between ((between_frame s.tick).updateDcache hx)
  | icache =>
    rw [hph] at h hp
    obtain ⟨r, hx, h⟩ := bind_eq_ok.mp h
    cases h
    exact hp.updateIcache hx
  | core =>
    rw [hph] at h hp
    obtain ⟨r, hx, h⟩ := bind_eq_ok.mp h
    cases h
    exact Early.updateCore (s := (s.hosts, s.mem)) hp hs.core hr hx
  | feed =>
    rw [hph] at h hp
    exact ported_feed hr hp h
  | clock =>
    rw [hph] at h hp
    cases h
    exact ⟨hp.watched, hs.icache_wellFormed, fun ha => .inr (.inl (hp.avail ha))⟩
  | sysOp =>
    rw [hph] at h hp
    exact ported_sysOp hp h
  | halted =>
    rw [hph] at h hp
    cases h
    unfold Ported
    rw [hph]
    exact hp

theorem Reachable.ported {s : Sys S} (hr : S.core.branch.btb.hasRwConflict = true)
    (h : s.Reachable) : s.Ported := by
  have hall : s.Reachable ∧ s.Ported := by
    refine h.invariant (I := fun s => s.Reachable ∧ s.Ported) ?_ ?_
    · exact fun trace inst nxt => ⟨⟨trace, inst, nxt, 0, rfl⟩, ported_init trace inst nxt⟩
    · rintro s t ⟨hs, hp⟩ hst
      exact ⟨hs.step hst, ported_step hr hs hp hst⟩
  exact hall.2

/-- With a single-ported target buffer, a prediction at tick `t` finds no target when the buffer was
written in tick `t - 1` at another index, and otherwise what the buffer holds. A prediction that is
forced to miss does not redirect, and it is the one the branch goes on with. -/
theorem btb_port_conflict {s : Sys S} (hr : S.core.branch.btb.hasRwConflict = true)
    (h : s.Reachable) :
    (∀ e ∈ s.hosts.core.events, ∀ t pc u, e.query = some (t, pc, u) →
      (u.btbTarget pc = 0 ↔ Conflict s.hosts.core.events t pc ∨
        S.core.branch.btb.lookup u.btb pc = 0) ∧
      (¬Conflict s.hosts.core.events t pc →
        u.btbTarget pc = S.core.branch.btb.lookup u.btb pc) ∧
      (Conflict s.hosts.core.events t pc →
        (u.predict pc).1.predTarget = 0 ∧ (u.predict pc).1.willRedirect = false)) ∧
    ∀ t y u, .take t y u ∈ s.hosts.core.events → y.traceInst.isBranch = true →
      y.brPred = (u.predict y.traceInst.pc).1 := by
  obtain ⟨n, hn⟩ := (h.ported hr).sound
  refine ⟨fun e he t pc u hq => ?_, hn.made⟩
  have hforced := hn.sound e he t pc u hq
  by_cases hc : Conflict s.hosts.core.events t pc
  · have hzero : u.btbTarget pc = 0 := by
      rw [BranchUnit.btbTarget_eq, if_pos (hforced.mpr hc)]
    refine ⟨?_, fun hno => absurd hc hno, fun _ => BranchUnit.predict_of_miss hzero⟩
    exact ⟨fun _ => .inl hc, fun _ => hzero⟩
  · have hfree : u.btbTarget pc = S.core.branch.btb.lookup u.btb pc := by
      rw [BranchUnit.btbTarget_eq, if_neg fun hx => hc (hforced.mp hx)]
    refine ⟨?_, fun _ => hfree, fun hx => absurd hx hc⟩
    rw [hfree]
    exact ⟨.inr, fun hx => hx.resolve_left hc⟩

abbrev sramUnit : BranchParams :=
  ⟨gshare.predictor, BTBParams.compressed { entriesPow2 := 4, sramDff := false }, 0⟩

/-- The writes of the target buffer, and the branches predicted with what the buffer holds for
them. -/
def traffic {K : PipelineParams} (c : Pipeline K) :
    List (Nat × Addr) × List (Nat × Addr × Bool × Addr) :=
  (c.events.filterMap fun e =>
    match e with
    | .write t pc => some (t, pc)
    | _ => none,
   c.events.filterMap fun e =>
    match e with
    | .take t y u =>
      some (t, y.traceInst.pc, y.traceInst.isBranch, K.branch.btb.lookup u.btb y.traceInst.pc)
    | _ => none)

theorem mem_of_traffic {K : PipelineParams} {c : Pipeline K} {w : Nat} {pc : Addr}
    (h : (w, pc) ∈ (traffic c).1) : .write w pc ∈ c.events := by
  obtain ⟨e, he, hx⟩ := List.mem_filterMap.mp h
  cases e with
  | write t pc' =>
    cases hx
    exact he
  | take | wrong | flush => cases hx

/-- A branch that the buffer knows is taken behind a mispredicted one, whose entry is written at
tick 11: its prediction of tick 12 has no target. -/
theorem btb_port_conflict_taken : ∃ s : Sys ((Config.plain 0 true).withBranch sramUnit),
    s.Reachable ∧ ∃ y u, .take 12 y u ∈ s.hosts.core.events ∧
      sramUnit.btb.lookup u.btb y.traceInst.pc = 0x80000000 ∧ y.brPred.predTarget = 0 := by
  obtain ⟨s, hrun, hobs⟩ := exists_of_observed
    (x := run false 104 (init ((Config.plain 0 true).withBranch sramUnit)
      [br 0x80000004 0x80000000 true, br 0x80000000 0x80000004 true,
        br 0x80000004 0x80000000 true] {} 0))
    (f := fun s => traffic s.hosts.core)
    (b := ([(6, 0x80000004), (11, 0x80000000)], [(0, 0x80000004, true, 0),
      (7, 0x80000000, true, 0), (12, 0x80000004, true, 0x80000000)]))
    (by decide +kernel)
  have hs : s.Reachable := ⟨_, _, _, _, hrun⟩
  have hwrite : .write 11 0x80000000 ∈ s.hosts.core.events := by
    apply mem_of_traffic
    rw [hobs]
    simp
  have htaken : (12, 0x80000004, true, 0x80000000) ∈ (traffic s.hosts.core).2 := by
    rw [hobs]
    simp
  obtain ⟨e, he, hx⟩ := List.mem_filterMap.mp htaken
  cases e with
  | take t y u =>
    simp only [Option.some.injEq, Prod.mk.injEq] at hx
    obtain ⟨rfl, hpc, hbr, hlookup⟩ := hx
    obtain ⟨hport, hmade⟩ := btb_port_conflict rfl hs
    have hquery : (Event.take 12 y u).query = some (12, y.traceInst.pc, u) := if_pos hbr
    have hconflict : Conflict s.hosts.core.events 12 y.traceInst.pc := by
      refine ⟨11, 0x80000000, hwrite, rfl, ?_⟩
      rw [hpc]
      decide
    have hmiss := (hport _ he _ _ _ hquery).2.2 hconflict
    refine ⟨s, hs, y, u, he, hlookup, ?_⟩
    rw [hmade _ _ _ he hbr]
    exact hmiss.1
  | write | wrong | flush => cases hx

end Sys

end NpSim.System
