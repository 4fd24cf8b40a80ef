/- digest: What the main loop feeds and when it ends: the region of interest of the trace, the end
   of a run, and the number of calls it takes. -/

import NpSim.Lib.Streams
import NpSim.System.Commit
import NpSim.System.Frames

set_option autoImplicit false
set_option relaxedAutoImplicit false

namespace NpSim.Pipe.Pipeline

open NpSim.Lib.Partial

variable {K : PipelineParams} {c c' : Pipeline K} {now : Nat}

/-- What the core has been fed, and whether it is told that nothing more comes. -/
def intake (c : Pipeline K) : List TraceInst × Bool := (c.fed, c.isDraining)

theorem stageHandler_intake {ports : Ports} {i : PipeStage}
    (h : stageHandler now ports i c = .ok c') : c'.intake = c.intake := by
  have hmext : ∀ s lat, MextCases now c c' s lat → c'.intake = c.intake := by
    rintro s lat ⟨x, _, _, ⟨_, rfl⟩ | ⟨b, l, d, _, rfl, rfl⟩⟩
    · rfl
    · cases (!x.traceInst.isBranch && x.brMispred) <;> rfl
  cases i with
  | fetch =>
    rcases doFetch1_cases h with ⟨_, rfl⟩ | ⟨p, rest, _, _, _, rfl⟩ | ⟨p, rest, _, _, _, _, rfl⟩ <;>
      rfl
  | decode =>
    obtain ⟨x, a, _, _, ⟨_, rfl⟩ | ⟨w, _, _, _, rfl⟩ | ⟨_, rfl⟩⟩ := doDecode_cases h <;> rfl
  | execute =>
    obtain ⟨x, _, _, ⟨_, rfl⟩ | ⟨b, l, d, _, rfl, rfl⟩⟩ := doExecute_cases h
    · rfl
    · cases x.brMispred <;> rfl
  | intMulExt => exact hmext _ _ (doMulExt_cases h)
  | intDivExt => exact hmext _ _ (doDivExt_cases h)
  | memory =>
    obtain ⟨x, _, ⟨_, _, rfl⟩ | ⟨_, _, rfl⟩ | ⟨_, _, rfl⟩ | ⟨op, _, _, _, _, rfl⟩ |
      ⟨op, _, _, _, _, rfl⟩ | ⟨_, _, _, rfl⟩⟩ := doMemory_cases h <;> rfl
  | writeBack => rcases doWriteback_cases h with ⟨_, rfl⟩ | ⟨s, x, cause, _, _, rfl⟩ <;> rfl

/-- What the core has been fed, whether it drains, and how many instructions are in flight. -/
def load (c : Pipeline K) : (List TraceInst × Bool) × Nat := (c.intake, c.ongoingInsts)

theorem doFetch0_load (now : Nat) (ready : Bool) (c : Pipeline K) :
    (c.doFetch0 now ready).load = c.load := by
  have hend : c.endWrongPath.load = c.load := by
    unfold endWrongPath
    split <;> rfl
  rcases doFetch0_cases now ready c with ⟨_, he⟩ | ⟨_, he, _⟩ | ⟨_, _, _, he⟩ |
    ⟨_, _, _, _, _, _, he⟩ | ⟨_, _, _, _, ⟨_, he⟩ | ⟨x, _, _, he⟩⟩ <;> rw [he]
  · rfl
  · rfl
  · obtain ⟨b, a, f, hf, _⟩ := fetchWrongPath_eq now c
    rw [hf]
    rfl
  · exact hend
  · exact hend

theorem recvMemResp_load {t : CpuTrans} (h : c.recvMemResp now t = .ok c') : c'.load = c.load := by
  rcases recvMemResp_cases h with ⟨_, _, h⟩ | ⟨_, h⟩
  · obtain ⟨b, rest, _, ⟨_, rfl⟩ | ⟨q, _, _, rfl⟩⟩ := handleIfuResp_cases h <;> rfl
  · obtain ⟨x, a, _, _, _, _, rfl⟩ := handleLsuResp_cases h
    rfl

theorem ackMemAvail_load {a : AckTrans} (h : c.ackMemAvail now a = .ok c') : c'.load = c.load := by
  rcases ackMemAvail_cases h with ⟨_, rfl⟩ | ⟨_, ⟨x, _, _, _, rfl⟩ | ⟨_, rfl⟩⟩ <;> rfl

theorem feedInst_load {ready : Bool} {inst : TraceInst}
    (h : c.feedInst now ready inst = .ok c') :
    c'.load = ((c.fed ++ [inst], c.isDraining), c.ongoingInsts + 1) := by
  obtain ⟨_, h⟩ := require_bind_eq_ok.mp h
  cases h
  exact doFetch0_load now ready _

theorem doUpdate_intake {ports : Ports} (h : c.doUpdate now ports = .ok c') :
    c'.intake = c.intake := by
  have hstages : ∀ (l : List PipeStage) (a b : Pipeline K),
      l.foldlM (runStage now ports) a = .ok b → b.intake = a.intake := by
    intro l
    induction l with
    | nil =>
      intro a b hab
      cases hab
      rfl
    | cons i l ih =>
      intro a b hab
      simp only [List.foldlM_cons] at hab
      obtain ⟨e, he, hab⟩ := bind_eq_ok.mp hab
      refine (ih e b hab).trans ?_
      unfold runStage at he
      split at he
      · exact stageHandler_intake he
      · cases he
        rfl
  unfold doUpdate at h
  split at h
  · unfold updateImpl at h
    obtain ⟨d, hd, h⟩ := bind_eq_ok.mp h
    cases h
    have hb : d.intake = c.intake := hstages _ { c with bpu := c.bpu.beginTick } d hd
    exact (congrArg Prod.fst (doFetch0_load now ports.imem d)).trans hb
  · cases h
    rfl

end NpSim.Pipe.Pipeline

namespace NpSim.System

open NpSim.Lib NpSim.Lib.Partial NpSim.Lib.Bypass NpSim.Cache NpSim.Mem NpSim.Pipe

/-- The region of interest of a trace: `max_insts` records at most, through the first dump
marker. -/
def region (maxInsts : Nat) (trace : List TraceInst) : List TraceInst :=
  takeThrough (fun inst => decide (inst.sysOp = Trace.SysDumpStats)) (trace.take maxInsts)

@[simp] theorem region_nil (n : Nat) : region n [] = [] := by
  rw [region, List.take_nil, takeThrough]

@[simp] theorem region_zero (l : List TraceInst) : region 0 l = [] := by
  rw [region, List.take_zero, takeThrough]

theorem mem_of_region {n : Nat} {l : List TraceInst} {t : TraceInst} (h : t ∈ region n l) :
    t ∈ l :=
  List.mem_of_mem_take ((takeThrough_initial _ _).subset h)

theorem region_cons {n : Nat} (h : 0 < n) (inst : TraceInst) (rest : List TraceInst) :
    region n (inst :: rest) = inst ::
      if inst.sysOp = Trace.SysDumpStats then [] else region (n - 1) rest := by
  obtain ⟨m, rfl⟩ := Nat.exists_eq_succ_of_ne_zero h.ne'
  rw [region, List.take_succ_cons, takeThrough_cons]
  simp only [decide_eq_true_eq, Nat.succ_sub_one, region]

/-- The place of a call in its round. The round begins with the call after the clock's. -/
def Phase.ahead : Phase → Nat
  | .sysOp => 0
  | .memory => 1
  | .bypass => 2
  | .dcache => 3
  | .icache => 4
  | .core => 5
  | .feed => 6
  | .clock => 7
  | .halted => 1

namespace Sys

variable {S : Config}

/-- The loop has stopped feeding, or will once it comes to its `sys_op`. -/
def dumping (s : Sys S) : Bool :=
  s.stopAfterDump ||
    (decide (s.phase = .clock ∨ s.phase = .sysOp) && decide (s.inst.sysOp = Trace.SysDumpStats))

/-- What is left to feed. -/
def left (s : Sys S) : List TraceInst :=
  if s.dumping then [] else region (S.maxInsts - s.instCnt) s.trace

theorem dumping_of_phase {s : Sys S} (h : s.phase ≠ .clock) (h' : s.phase ≠ .sysOp) :
    s.dumping = s.stopAfterDump := by
  simp [dumping, h, h']

/-- What the feeding has come to, on the way through `trace`. -/
structure Feeding (trace : List TraceInst) (s : Sys S) : Prop where
  count : s.instCnt = s.hosts.core.fed.length
  split : s.hosts.core.fed ++ s.left = region S.maxInsts trace
  next : s.hasNext = false → s.trace = []
  drained : s.hosts.core.isDraining = true → s.left = []
  inst : s.phase ≠ .clock → s.phase ≠ .sysOp → s.inst.sysOp = Trace.SysDumpStats →
    s.hosts.core.fed = []
  ended : s.phase = .clock ∨ s.phase = .sysOp ∨ s.phase = .halted →
    s.hosts.core.ongoingInsts = 0 → s.left = []
  halt : s.phase = .halted → s.hosts.core.ongoingInsts = 0 ∨ S.maxTicks ≤ s.tick

theorem feeding_init (trace : List TraceInst) (inst : TraceInst) (nxt : Tick) :
    Feeding trace (init S trace inst nxt) where
  count := rfl
  split := rfl
  next h := by cases h
  drained h := by cases h
  inst _ _ _ := rfl
  ended h := by rcases h with h | h | h <;> cases h
  halt h := by cases h

private theorem Feeding.carry {trace : List TraceInst} {s t : Sys S} (h : Feeding trace s)
    {r : Hosts S × RAMArbiter S.mem} {p : Phase} (hc : r.1.core.intake = s.hosts.core.intake)
    (hs : s.phase ∉ [.clock, .sysOp, .halted]) (hp : p ∉ [Phase.clock, .sysOp, .halted])
    (ht : t = s.commitTo p r) : Feeding trace t := by
  subst ht
  simp only [List.mem_cons, List.not_mem_nil, or_false, not_or] at hs hp
  simp only [Pipeline.intake, Prod.mk.injEq] at hc
  have hl : (s.commitTo p r).left = s.left := by
    unfold left
    rw [dumping_of_phase hp.1 hp.2.1, dumping_of_phase hs.1 hs.2.1]
    rfl
  constructor
  · exact h.count.trans (congrArg List.length hc.1.symm)
  · rw [hl, ← h.split]
    exact congrArg (· ++ s.left) hc.1
  · exact h.next
  · rw [hl]
    exact fun hd => h.drained (hc.2 ▸ hd)
  · exact fun _ _ hi => hc.1.trans (h.inst hs.1 hs.2.1 hi)
  · rintro (he | he | he)
    · exact absurd he hp.1
    · exact absurd he hp.2.1
    · exact absurd he hp.2.2
  · exact fun he => absurd he hp.2.2

private theorem Reachable.input_none {s : Sys S} (h : s.Reachable)
    (hz : s.hosts.core.ongoingInsts = 0) : s.hosts.core.inputBuffer = none := by
  cases hx : s.hosts.core.inputBuffer with
  | none => rfl
  | some x =>
    have hreal := h.core.conserved.1.disciplined.input x hx
    have hcount := h.ongoing_held
    rw [hz] at hcount
    have hmem : x ∈ s.hosts.core.inFlight := by
      simp only [Pipeline.inFlight, hx, Option.toList_some, List.mem_append, List.mem_singleton,
        true_or]
    exact absurd hreal.2 (List.countP_eq_zero.mp hcount.symm x hmem)

private theorem Reachable.unfed_idle {s : Sys S} (h : s.Reachable)
    (hf : s.hosts.core.fed = []) : s.hosts.core.ongoingInsts = 0 := by
  have hlen := h.fed_length
  rw [hf] at hlen
  exact (Nat.add_eq_zero_iff.mp hlen.symm).2

/-- The feeding block leaves the state of the loop as it is, takes the next record, or finds that
there is nothing to take and tells the core so. -/
theorem feed_cases {s t : Sys S} (h : s.feed = .ok t) :
    (s.hosts.core.instAvail = false ∧ t = { s with phase := .clock }) ∨
    (s.hosts.core.instAvail = true ∧
      (s.stopAfterDump = true ∨ s.hasNext = false ∨ S.maxInsts ≤ s.instCnt ∨ s.trace = []) ∧
      ∃ b, (b = false → s.trace = []) ∧ t = { s with
        hasNext := s.hasNext && b
        hosts := { s.hosts with core := s.hosts.core.setDraining }
        phase := .clock }) ∨
    ∃ inst rest r, s.hosts.core.instAvail = true ∧ s.stopAfterDump = false ∧
      s.hasNext = true ∧ s.instCnt < S.maxInsts ∧ s.trace = inst :: rest ∧
      Hosts.feedInst s.tick inst (s.hosts, s.mem) = .ok r ∧
      t = { s.commitTo .clock r with trace := rest, inst := inst, instCnt := s.instCnt + 1 } := by
  unfold feed at h
  split at h
  · rename_i ha
    split at h
    · rename_i hg
      simp only [Bool.and_eq_true, Bool.not_eq_true', decide_eq_true_eq] at hg
      split at h
      · rename_i htr
        cases h
        exact .inr (.inl ⟨ha, .inr (.inr (.inr htr)), false, fun _ => htr, by
          rw [Bool.and_false]⟩)
      · rename_i inst rest htr
        obtain ⟨r, hr, h⟩ := bind_eq_ok.mp h
        cases h
        exact .inr (.inr ⟨inst, rest, r, ha, hg.1.1, hg.1.2, hg.2, htr, hr, rfl⟩)
    · rename_i hg
      cases h
      refine .inr (.inl ⟨ha, ?_, true, (fun hb => by cases hb), by rw [Bool.and_true]⟩)
      by_contra hno
      simp only [not_or, not_le, Bool.not_eq_true, Bool.not_eq_false] at hno
      exact hg (by simp [hno.1, hno.2.1, hno.2.2.1])
  · rename_i ha
    cases h
    exact .inl ⟨by simpa using ha, rfl⟩

theorem left_of_stop {s : Sys S}
    (h : s.stopAfterDump = true ∨ S.maxInsts ≤ s.instCnt ∨ s.trace = []) : s.left = [] := by
  unfold left
  split
  · rfl
  · rename_i hd
    rcases h with h | h | h
    · exact absurd (by simp [dumping, h]) hd
    · rw [Nat.sub_eq_zero_of_le h, region_zero]
    · rw [h, region_nil]

private theorem load_frame (now : Nat) : HostFrame (S := S) now fun h h' =>
    h'.core.load = h.core.load where
  refl _ := rfl
  trans _ _ _ hab hbd := hbd.trans hab
  resp _ _ _ h := Pipeline.recvMemResp_load h
  ack _ _ _ h := Pipeline.ackMemAvail_load h
  sent _ := rfl
  recv _ _ _ _ := rfl
  read _ _ _ _ := rfl
  dcache _ _ := rfl
  bypass _ _ := rfl

theorem feedInst_load {now : Nat} {inst : TraceInst} {a b : Hosts S × RAMArbiter S.mem}
    (h : Hosts.feedInst now inst a = .ok b) : b.1.core.load =
      ((a.1.core.fed ++ [inst], a.1.core.isDraining), a.1.core.ongoingInsts + 1) := by
  obtain ⟨c, hc, h⟩ := bind_eq_ok.mp h
  exact ((load_frame now).runCalls h).trans (Pipeline.feedInst_load hc)

private theorem fenceI_load {now : Nat} {a b : Hosts S × RAMArbiter S.mem}
    (h : Hosts.fenceI now a = .ok b) : b.1.core.load = a.1.core.load := by
  obtain ⟨r, hr, h⟩ := bind_eq_ok.mp h
  obtain ⟨c, outs, _, hi⟩ := (load_frame now).updateIcache hr
  exact ((load_frame now).updateDcache h).trans hi

private theorem left_clock {s t : Sys S} (hs : s.phase = .feed) (hp : t.phase = .clock)
    (hi : t.inst = s.inst) (hst : t.stopAfterDump = s.stopAfterDump) (ht : t.trace = s.trace)
    (hc : t.instCnt = s.instCnt) (hd : s.inst.sysOp = Trace.SysDumpStats → s.left = []) :
    t.left = s.left := by
  have hds : s.dumping = s.stopAfterDump := dumping_of_phase (by simp [hs]) (by simp [hs])
  by_cases hdump : s.inst.sysOp = Trace.SysDumpStats
  · have hdt : t.dumping = true := by simp [dumping, hp, hi, hdump]
    rw [hd hdump, left, if_pos hdt]
  · have hdt : t.dumping = s.dumping := by
      rw [hds]
      simp [dumping, hi, hst, hdump]
    rw [left, left, hdt, ht, hc]

private theorem left_take {s t : Sys S} {inst : TraceInst} {rest : List TraceInst}
    (hs : s.phase = .feed) (hstop : s.stopAfterDump = false) (hcnt : s.instCnt < S.maxInsts)
    (htr : s.trace = inst :: rest) (hp : t.phase = .clock) (hi : t.inst = inst)
    (hst : t.stopAfterDump = s.stopAfterDump) (ht : t.trace = rest)
    (hc : t.instCnt = s.instCnt + 1) : s.left = inst :: t.left := by
  have hds : s.dumping = false := by
    rw [dumping_of_phase (by simp [hs]) (by simp [hs]), hstop]
  have hdt : t.dumping = decide (inst.sysOp = Trace.SysDumpStats) := by
    simp [dumping, hp, hi, hst, hstop]
  rw [left, if_neg (by simp [hds]), htr, region_cons (Nat.sub_pos_of_lt hcnt), left, hdt, ht, hc,
    Nat.sub_sub]
  simp only [decide_eq_true_eq]

private theorem Feeding.feed {trace : List TraceInst} {s t : Sys S} (h : Feeding trace s)
    (hr : s.Reachable) (hs : s.phase = .feed) (hst : s.feed = .ok t) : Feeding trace t := by
  have hunfed : s.inst.sysOp = Trace.SysDumpStats → s.hosts.core.fed = [] :=
    h.inst (by simp [hs]) (by simp [hs])
  have hdrained : s.hosts.core.instAvail = false → s.hosts.core.ongoingInsts = 0 →
      s.left = [] := by
    intro ha hz
    refine h.drained ?_
    simpa [Pipeline.instAvail, hr.input_none hz] using ha
  rcases feed_cases hst with ⟨ha, rfl⟩ | ⟨ha, hstop, b, hb, rfl⟩ |
    ⟨inst, rest, r, ha, hstop, hnext, hcnt, htr, hfeed, rfl⟩
  · have hl := left_clock (t := { s with phase := .clock }) hs rfl rfl rfl rfl rfl
      fun hi => hdrained ha (hr.unfed_idle (hunfed hi))
    exact ⟨h.count, by rw [hl]; exact h.split, h.next, fun hd => hl.trans (h.drained hd),
      fun hp => absurd rfl hp, fun _ hz => hl.trans (hdrained ha hz), fun hp => by cases hp⟩
  · have hl : s.left = [] := by
      refine left_of_stop ?_
      rcases hstop with hx | hx | hx | hx
      · exact .inl hx
      · exact .inr (.inr (h.next hx))
      · exact .inr (.inl hx)
      · exact .inr (.inr hx)
    have hl' := left_clock (t := { s with
      hasNext := s.hasNext && b
      hosts := { s.hosts with core := s.hosts.core.setDraining }
      phase := .clock }) hs rfl rfl rfl rfl rfl fun _ => hl
    rw [hl] at hl'
    refine ⟨h.count, ?_, ?_, fun _ => hl', fun hp => absurd rfl hp, fun _ _ => hl',
      fun hp => by cases hp⟩
    · rw [hl', ← h.split, hl]
      rfl
    · intro hn
      rcases (Bool.and_eq_false_iff).mp hn with hn | hn
      · exact h.next hn
      · exact hb hn
  · have hload := feedInst_load hfeed
    simp only [Pipeline.load, Pipeline.intake, Prod.mk.injEq] at hload
    obtain ⟨⟨hfed, hdr⟩, hon⟩ := hload
    have hleft := left_take (t := { s.commitTo .clock r with
      trace := rest, inst := inst, instCnt := s.instCnt + 1 }) hs hstop hcnt htr rfl rfl rfl rfl rfl
    refine ⟨?_, ?_, fun hn => ?_, fun hd => ?_, fun hp => absurd rfl hp, fun _ hz => ?_,
      fun hp => by cases hp⟩
    · change s.instCnt + 1 = r.1.core.fed.length
      rw [hfed, List.length_append, h.count, List.length_singleton]
    · have hsplit := h.split
      rw [hleft, List.append_cons] at hsplit
      rw [← hsplit]
      exact congrArg (· ++ _) hfed
    · have hnil := h.next hn
      rw [htr] at hnil
      cases hnil
    · have hnil := h.drained (hdr ▸ hd)
      rw [hleft] at hnil
      cases hnil
    · exact absurd (hon.symm.trans hz) (Nat.succ_ne_zero _)

/-- What the end of a round does to the state of the loop: the `sys_op` of `inst` is handled once,
and the loop goes on or ends. -/
structure Handled (s t : Sys S) : Prop where
  load : t.hosts.core.load = s.hosts.core.load
  tick : t.tick = s.tick
  trace : t.trace = s.trace
  instCnt : t.instCnt = s.instCnt
  hasNext : t.hasNext = s.hasNext
  inst : t.inst.sysOp ∉ [Trace.SysResetStats, Trace.SysFenceI, Trace.SysDumpStats]
  stop : t.stopAfterDump =
    (s.stopAfterDump || decide (s.inst.sysOp = Trace.SysDumpStats))
  phase : t.phase = .memory ∧ t.tick < S.maxTicks ∨
    t.phase = .halted ∧ (t.hosts.core.ongoingInsts = 0 ∨ S.maxTicks ≤ t.tick)

theorem loopOrHalt_phase (s : Sys S) :
    s.loopOrHalt.phase = .memory ∧ s.loopOrHalt.tick < S.maxTicks ∨
      s.loopOrHalt.phase = .halted ∧
        (s.loopOrHalt.hosts.core.ongoingInsts = 0 ∨ S.maxTicks ≤ s.loopOrHalt.tick) := by
  unfold loopOrHalt
  simp only [Pipeline.isFinished]
  by_cases hz : s.hosts.core.ongoingInsts = 0
  · exact .inr ⟨by simp [hz], .inl hz⟩
  · by_cases ht : s.tick < S.maxTicks
    · exact .inl ⟨by simp [hz, ht], ht⟩
    · exact .inr ⟨by simp [ht], .inr (not_lt.mp ht)⟩

theorem handleSysOp_handled {s t : Sys S} (h : s.handleSysOp = .ok t) : Handled s t := by
  have hnone : Trace.SysNone ∉ [Trace.SysResetStats, Trace.SysFenceI, Trace.SysDumpStats] := by
    decide
  unfold handleSysOp at h
  split at h
  · rename_i hr
    cases h
    exact ⟨rfl, rfl, rfl, rfl, rfl, hnone, by simp [loopOrHalt, hr], loopOrHalt_phase _⟩
  · rename_i hr
    split at h
    · rename_i hf
      obtain ⟨r, hr, h⟩ := bind_eq_ok.mp h
      cases h
      exact ⟨fenceI_load hr, rfl, rfl, rfl, rfl, hnone, by simp [loopOrHalt, commitTo, hf],
        loopOrHalt_phase _⟩
    · rename_i hf
      split at h
      · rename_i hd
        cases h
        exact ⟨rfl, rfl, rfl, rfl, rfl, hnone, by simp [loopOrHalt, hd], loopOrHalt_phase _⟩
      · rename_i hd
        cases h
        exact ⟨rfl, rfl, rfl, rfl, rfl, by simp [loopOrHalt, hr, hf, hd], by simp [loopOrHalt, hd],
          loopOrHalt_phase _⟩

private theorem Feeding.sysOp {trace : List TraceInst} {s t : Sys S} (h : Feeding trace s)
    (hs : s.phase = .sysOp) (hst : s.handleSysOp = .ok t) : Feeding trace t := by
  have hh := handleSysOp_handled hst
  have hload := hh.load
  simp only [Pipeline.load, Pipeline.intake, Prod.mk.injEq] at hload
  obtain ⟨⟨hfed, hdr⟩, hon⟩ := hload
  have hl : t.left = s.left := by
    have hdt : t.dumping = s.dumping := by
      rw [dumping_of_phase, hh.stop, dumping]
      · simp [hs]
      all_goals rcases hh.phase with hp | hp <;> simp [hp]
    rw [left, left, hdt, hh.instCnt, hh.trace]
  refine ⟨?_, ?_, ?_, ?_, fun _ _ hi => absurd hh.inst (by simp [hi]), ?_, ?_⟩
  · rw [hh.instCnt, hfed, h.count]
  · rw [hfed, hl, h.split]
  · rw [hh.hasNext, hh.trace]
    exact h.next
  · rw [hdr, hl]
    exact h.drained
  · rw [hon, hl]
    exact fun _ => h.ended (.inr (.inl hs))
  · intro hp
    rcases hh.phase with hm | hm
    · rw [hm.1] at hp
      cases hp
    · exact hm.2

private theorem Feeding.clock {trace : List TraceInst} {s : Sys S} (h : Feeding trace s)
    (hs : s.phase = .clock) : Feeding trace { s with tick := s.tick + 1, phase := .sysOp } := by
  have hl : ({ s with tick := s.tick + 1, phase := .sysOp } : Sys S).left = s.left := by
    have hd : ({ s with tick := s.tick + 1, phase := .sysOp } : Sys S).dumping = s.dumping := by
      simp [dumping, hs]
    rw [left, left, hd]
  exact ⟨h.count, by rw [hl]; exact h.split, h.next, fun hd => hl.trans (h.drained hd),
    fun _ hp => absurd rfl hp, fun _ hz => hl.trans (h.ended (.inl hs) hz), fun hp => by cases hp⟩

/-- The calls of the devices and the update of the core feed nothing and leave the state of the loop
alone. -/
theorem step_devices {s t : Sys S} (h : s.step false = .ok t)
    (hp : s.phase ∉ [.feed, .clock, .sysOp, .halted]) :
    ∃ (r : Hosts S × RAMArbiter S.mem) (p : Phase), r.1.core.intake = s.hosts.core.intake ∧
      p ∉ [Phase.clock, .sysOp, .halted] ∧ p.ahead = s.phase.ahead + 1 ∧ t = s.commitTo p r := by
  unfold Sys.step at h
  cases hs : s.phase with
  | memory =>
    rw [hs] at h
    obtain ⟨r, hr, h⟩ := bind_eq_ok.mp h
    exact ⟨r, _, congrArg Prod.fst ((load_frame s.tick).updateMemory hr), by decide, rfl,
      (Except.ok.inj h).symm⟩
  | bypass =>
    rw [hs] at h
    exact ⟨(s.hosts, s.mem), _, rfl, by decide, rfl, (Except.ok.inj h).symm⟩
  | dcache =>
    rw [hs] at h
    obtain ⟨r, hr, h⟩ := bind_eq_ok.mp h
    exact ⟨r, _, congrArg Prod.fst ((load_frame s.tick).updateDcache hr), by decide, rfl,
      (Except.ok.inj h).symm⟩
  | icache =>
    rw [hs] at h
    obtain ⟨r, hr, h⟩ := bind_eq_ok.mp h
    obtain ⟨c, outs, _, hload⟩ := (load_frame s.tick).updateIcache hr
    exact ⟨r, _, congrArg Prod.fst hload, by decide, rfl, (Except.ok.inj h).symm⟩
  | core =>
    rw [hs] at h
    obtain ⟨r, hr, h⟩ := bind_eq_ok.mp h
    obtain ⟨c, hc, hr⟩ := bind_eq_ok.mp hr
    have hload := congrArg Prod.fst ((load_frame s.tick).runCalls hr)
    exact ⟨r, _, hload.trans (Pipeline.doUpdate_intake hc), by decide, rfl,
      (Except.ok.inj h).symm⟩
  | feed | clock | sysOp | halted => simp [hs] at hp

theorem Feeding.step {trace : List TraceInst} {s t : Sys S} (h : Feeding trace s)
    (hr : s.Reachable) (hst : s.step false = .ok t) : Feeding trace t := by
  by_cases hp : s.phase ∈ [Phase.feed, .clock, .sysOp, .halted]
  · simp only [List.mem_cons, List.not_mem_nil, or_false] at hp
    unfold Sys.step at hst
    rcases hp with hs | hs | hs | hs <;> rw [hs] at hst
    · exact h.feed hr hs hst
    · cases hst
      exact h.clock hs
    · exact h.sysOp hs hst
    · cases hst
      exact h
  · obtain ⟨r, p, hload, hnew, _, rfl⟩ := step_devices hst hp
    refine h.carry hload (fun hs => hp ?_) hnew rfl
    exact List.mem_cons_of_mem _ hs

/-- After `n` calls the loop is over, or the clock and the phase tell `n`. -/
structure Paced (n : Nat) (s : Sys S) : Prop where
  calls : s.phase ≠ .halted → n + 1 = 8 * s.tick + s.phase.ahead
  ticks : s.phase ≠ .sysOp → s.phase ≠ .halted → s.tick < max 1 S.maxTicks
  bound : s.tick ≤ max 1 S.maxTicks

theorem paced_init (trace : List TraceInst) (inst : TraceInst) (nxt : Tick) :
    Paced 0 (init S trace inst nxt) :=
  ⟨fun _ => rfl, fun _ _ => lt_of_lt_of_le Nat.one_pos (le_max_left ..), Nat.zero_le _⟩

private theorem Paced.carry {n : Nat} {s t : Sys S} (h : Paced n s) (ht : t.tick = s.tick)
    (hp : t.phase.ahead = s.phase.ahead + 1) (hs : s.phase ≠ .halted) (hs' : s.phase ≠ .sysOp) :
    Paced (n + 1) t := by
  refine ⟨fun _ => ?_, fun _ _ => ht ▸ h.ticks hs' hs, ht ▸ h.bound⟩
  rw [ht, hp, h.calls hs]
  rfl

theorem Paced.step {n : Nat} {s t : Sys S} (h : Paced n s) (hst : s.step false = .ok t) :
    Paced (n + 1) t := by
  by_cases hp : s.phase ∈ [Phase.feed, .clock, .sysOp, .halted]
  · simp only [List.mem_cons, List.not_mem_nil, or_false] at hp
    unfold Sys.step at hst
    rcases hp with hs | hs | hs | hs <;> rw [hs] at hst
    · have hp : t.phase = .clock ∧ t.tick = s.tick := by
        rcases feed_cases hst with
          ⟨_, rfl⟩ | ⟨_, _, _, _, rfl⟩ | ⟨_, _, _, _, _, _, _, _, _, rfl⟩ <;>
          exact ⟨rfl, rfl⟩
      exact h.carry hp.2 (by rw [hs, hp.1]; rfl) (by simp [hs]) (by simp [hs])
    · cases hst
      have hc := h.calls (by simp [hs])
      rw [hs] at hc
      refine ⟨fun _ => ?_, fun hp => absurd rfl hp, h.ticks (by simp [hs]) (by simp [hs])⟩
      simp only [Phase.ahead] at hc ⊢
      omega
    · have hh := handleSysOp_handled hst
      have hc := h.calls (by simp [hs])
      rw [hs] at hc
      rcases hh.phase with ⟨hp, ht⟩ | ⟨hp, _⟩
      · refine ⟨fun _ => ?_, fun _ _ => lt_of_lt_of_le ht (le_max_right ..), hh.tick ▸ h.bound⟩
        rw [hp, hh.tick, hc]
        rfl
      · exact ⟨fun hn => absurd hp hn, fun _ hn => absurd hp hn, hh.tick ▸ h.bound⟩
    · cases hst
      exact ⟨fun hn => absurd hs hn, fun _ hn => absurd hs hn, h.bound⟩
  · obtain ⟨r, p, _, _, hahead, rfl⟩ := step_devices hst hp
    simp only [List.mem_cons, List.not_mem_nil, or_false, not_or] at hp
    exact h.carry rfl hahead hp.2.2.2 hp.2.2.1

/-- What holds initially and is kept by every call holds after `n` calls. -/
theorem run_invariant {I : Nat → Sys S → Prop}
    (next : ∀ k s t, I k s → s.step false = .ok t → I (k + 1) t) {n k : Nat} {s t : Sys S}
    (hs : I k s) (h : run false n s = .ok t) : I (k + n) t := by
  induction n generalizing k s with
  | zero =>
    cases h
    exact hs
  | succ n ih =>
    obtain ⟨u, hu, h⟩ := bind_eq_ok.mp h
    have := ih (next k s u hs hu) h
    rwa [Nat.add_right_comm, Nat.add_assoc] at this

theorem Paced.halted {n : Nat} {s : Sys S} (h : Paced n s) (hn : 8 * max 1 S.maxTicks ≤ n) :
    s.phase = .halted := by
  by_contra hp
  have hc := h.calls hp
  have ha : s.phase.ahead ≤ 7 := by cases s.phase <;> decide
  by_cases hs : s.phase = .sysOp
  · have hb := h.bound
    rw [hs, Phase.ahead] at hc
    omega
  · have ht := h.ticks hs hp
    omega

/-- A run that has ended before its ticks are used up has fed all there is to feed, and nothing is
in flight. -/
theorem Feeding.finished {trace : List TraceInst} {s : Sys S} (h : Feeding trace s)
    (hhalt : s.phase = .halted) (htick : s.tick < S.maxTicks) :
    s.hosts.core.ongoingInsts = 0 ∧ s.hosts.core.fed = region S.maxInsts trace := by
  have hz : s.hosts.core.ongoingInsts = 0 := (h.halt hhalt).resolve_right (not_le.mpr htick)
  have hsplit := h.split
  rw [h.ended (.inr (.inr hhalt)) hz, List.append_nil] at hsplit
  exact ⟨hz, hsplit⟩

theorem run_feeding {trace : List TraceInst} {inst : TraceInst} {nxt : Tick} {n : Nat}
    {s : Sys S} (h : run false n (init S trace inst nxt) = .ok s) :
    s.Reachable ∧ Feeding trace s ∧ Paced n s := by
  have hrun := run_invariant (k := 0)
    (I := fun k u => u.Reachable ∧ Feeding trace u ∧ Paced k u)
    (fun k a b ha hab => ⟨ha.1.step hab, ha.2.1.step ha.1 hab, ha.2.2.step hab⟩)
    ⟨⟨trace, inst, nxt, 0, rfl⟩, feeding_init trace inst nxt, paced_init trace inst nxt⟩ h
  rwa [Nat.zero_add] at hrun

/-- A run feeds a prefix of the region of interest and is over after eight calls a tick. If it does
not use up its ticks, it has fed the whole region and committed each of its instructions once. -/
theorem run_complete {trace : List TraceInst} {inst : TraceInst} {nxt : Tick} {n : Nat}
    {s : Sys S} (h : run false n (init S trace inst nxt) = .ok s) :
    s.hosts.core.fed <+: region S.maxInsts trace ∧
    (8 * max 1 S.maxTicks ≤ n → s.phase = .halted) ∧
    (s.phase = .halted → s.tick < S.maxTicks →
      s.hosts.core.fed = region S.maxInsts trace ∧
      (s.hosts.core.commits.map fun e => (e.trans.traceInst, e.trans.seq)).Perm
        (region S.maxInsts trace).zipIdx) := by
  obtain ⟨hreach, hfeed, hpace⟩ := run_feeding h
  refine ⟨⟨s.left, hfeed.split⟩, hpace.halted, fun hhalt htick => ?_⟩
  obtain ⟨hz, hfed⟩ := hfeed.finished hhalt htick
  refine ⟨hfed, ?_⟩
  rw [← hfed]
  exact hreach.all_committed hz

def dump : TraceInst := { pc := 0x80000008, sysOp := Trace.SysDumpStats }

/-- Of the trace `mul`, `add`, dump marker, `add` the last record is not fed. -/
theorem run_complete_dump : ∃ s : Sys (Config.plain 0 true), s.phase = .halted ∧
    s.hosts.core.fed = [mul, add, dump] ∧
    (s.hosts.core.commits.map fun e => (e.trans.traceInst, e.trans.seq)).Perm
      [(mul, 0), (add, 1), (dump, 2)] := by
  obtain ⟨s, hrun, hobs⟩ := exists_of_observed
    (x := run false 160 (init (Config.plain 0 true) [mul, add, dump, add] {} 0))
    (f := fun s => (s.phase, s.tick)) (b := (.halted, 13)) (by decide +kernel)
  simp only [Prod.mk.injEq] at hobs
  obtain ⟨_, _, hall⟩ := run_complete hrun
  obtain ⟨hfed, hperm⟩ := hall hobs.1 (by rw [hobs.2]; decide)
  exact ⟨s, hobs.1, hfed, hperm⟩

end Sys

end NpSim.System
