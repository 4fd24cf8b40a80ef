/- digest: Instruction conservation, commit order and cycle breakdown of the assembled simulator. -/

import NpSim.Pipe.Breakdown
import NpSim.Pipe.Order
import NpSim.System.Core

set_option autoImplicit false
set_option relaxedAutoImplicit false

namespace NpSim.Pipe.Pipeline

variable {K : PipelineParams}

def inFlight (c : Pipeline K) : List Transaction :=
  c.inputBuffer.toList ++ c.fetchQueue ++ PipeStage.reverseOrder.filterMap c.simPipe

private theorem filterMap_slots (f : PipeStage → Option Transaction) :
    PipeStage.reverseOrder.filterMap f =
      (f .writeBack).toList ++ (f .memory).toList ++ (f .intDivExt).toList ++
        (f .intMulExt).toList ++ (f .execute).toList ++ (f .decode).toList ++
        (f .fetch).toList := by
  have hcons : ∀ (i : PipeStage) (l : List PipeStage),
      (i :: l).filterMap f = (f i).toList ++ l.filterMap f := by
    intro i l
    cases h : f i <;> simp [h]
  simp only [PipeStage.reverseOrder, hcons, List.filterMap_nil, List.append_nil,
    List.append_assoc]

theorem countP_inFlight (c : Pipeline K) (p : Transaction → Bool) :
    c.inFlight.countP p = c.flow.held.countP p := by
  simp only [inFlight, filterMap_slots, Flow.held, Flow.line, Flow.back, Flow.front, flow,
    List.countP_append]
  omega

end NpSim.Pipe.Pipeline

namespace NpSim.System.Sys

open NpSim.Lib.Partial NpSim.Lib.Bypass NpSim.Pipe NpSim.Pipe.Pipeline

variable {S : Config}

theorem Reachable.ongoing_held {s : Sys S} (h : s.Reachable) :
    s.hosts.core.ongoingInsts = s.hosts.core.inFlight.countP (·.countedInflight) := by
  obtain ⟨hc, _⟩ := h.core.conserved
  have hcount := hc.balanced.count hc.disciplined
  have ho := hc.ongoing
  change s.hosts.core.ongoingInsts + s.hosts.core.flow.commits.length =
    s.hosts.core.fed.length at ho
  change s.hosts.core.flow.held.countP _ + s.hosts.core.flow.commits.length =
    s.hosts.core.fed.length at hcount
  rw [countP_inFlight]
  omega

theorem Reachable.fed_length {s : Sys S} (h : s.Reachable) :
    s.hosts.core.fed.length = s.hosts.core.acct.totalInsts + s.hosts.core.ongoingInsts := by
  have ho := h.core.conserved.1.ongoing
  have ha := h.core.accounted.total
  have hlen : s.hosts.core.flow.commits.length = s.hosts.core.commits.length :=
    List.length_map ..
  change s.hosts.core.ongoingInsts + s.hosts.core.flow.commits.length =
    s.hosts.core.fed.length at ho
  change s.hosts.core.acct.totalInsts = s.hosts.core.commits.length at ha
  omega

/-- With nothing in flight every record that has been fed is committed once. -/
theorem Reachable.all_committed {s : Sys S} (h : s.Reachable)
    (hz : s.hosts.core.ongoingInsts = 0) :
    (s.hosts.core.commits.map fun e => (e.trans.traceInst, e.trans.seq)).Perm
      s.hosts.core.fed.zipIdx := by
  have hp := h.core.conserved.1.commits_perm hz
  rwa [show s.clocked.core.flow.commits = s.hosts.core.commits.map Commit.trans from rfl,
    List.map_map] at hp

/-- Instruction conservation. The count of instructions in flight is the count of real
transactions held; fed records are committed or in flight; flushes destroy only wrong-path
placeholders, which never get as far as Decode; and when nothing is in flight every fed record has
been committed once. -/
theorem instructions_conserved {s : Sys S} (h : s.Reachable) :
    s.hosts.core.ongoingInsts = s.hosts.core.inFlight.countP (·.countedInflight) ∧
    s.hosts.core.fed.length = s.hosts.core.acct.totalInsts + s.hosts.core.ongoingInsts ∧
    (∀ x ∈ s.hosts.core.discarded, x.isWrongPath = true ∧ x.countedInflight = false) ∧
    (∀ i x, i ≠ .fetch → s.hosts.core.simPipe i = some x → x.isWrongPath = false) ∧
    (∀ e ∈ s.hosts.core.commits, e.trans.isWrongPath = false) ∧
    (s.hosts.core.isFinished = true →
      (s.hosts.core.commits.map fun e => (e.trans.traceInst, e.trans.seq)).Perm
        s.hosts.core.fed.zipIdx) := by
  obtain ⟨hc, _⟩ := h.core.conserved
  refine ⟨h.ongoing_held, h.fed_length, hc.disciplined.discarded, ?_, ?_, ?_⟩
  · intro i x hi hx
    exact (hc.disciplined.settled i x hi hx).1
  · intro e he
    exact (hc.disciplined.commits e.trans (List.mem_map_of_mem he)).1
  · intro hfin
    exact h.all_committed (of_decide_eq_true hfin)

/-- What a commit shows: which instruction, when, and the breakdown and the cycles after it. -/
structure Shown where
  tag : Tag
  tick : Nat
  breakdown : Nat
  cycles : Nat
  deriving DecidableEq

def shown (e : Commit) : Shown := ⟨e.trans.tag, e.tick, e.stats.breakdown, e.stats.cycles⟩

def mul : TraceInst := { pc := 0x80000000, dstReg := 1, extOp := Trace.IntMulL }

def add : TraceInst := { pc := 0x80000004, dstReg := 2 }

theorem mulAdd_run : ∃ s : Sys (Config.plain 0 true), s.Reachable ∧
    s.hosts.core.isFinished = true ∧ s.hosts.core.fed = [mul, add] ∧
    s.hosts.core.commits.map shown = [⟨⟨1, add⟩, 10, 11, 10⟩, ⟨⟨0, mul⟩, 11, 12, 11⟩] := by
  obtain ⟨s, hrun, hobs⟩ := exists_of_observed
    (x := run false 120 (init (Config.plain 0 true) [mul, add] {} 0))
    (f := fun s => (s.hosts.core.isFinished, s.hosts.core.fed, s.hosts.core.commits.map shown))
    (b := (true, [mul, add], [⟨⟨1, add⟩, 10, 11, 10⟩, ⟨⟨0, mul⟩, 11, 12, 11⟩]))
    (by decide +kernel)
  simp only [Prod.mk.injEq] at hobs
  exact ⟨s, ⟨_, _, _, _, hrun⟩, hobs⟩

theorem instructions_conserved_mulAdd : ∃ s : Sys (Config.plain 0 true),
    s.Reachable ∧ s.hosts.core.isFinished = true ∧ s.hosts.core.fed = [mul, add] ∧
    (s.hosts.core.commits.map fun e => (e.trans.traceInst, e.trans.seq)).Perm
      [(mul, 0), (add, 1)] := by
  obtain ⟨s, hs, hfin, hfed, _⟩ := mulAdd_run
  have hperm := (instructions_conserved hs).2.2.2.2.2 hfin
  rw [hfed] at hperm
  exact ⟨s, hs, hfin, hfed, hperm⟩

/-- Every reachable state commits in order, up to younger plain instructions of another
destination, which may overtake an M-extension instruction. -/
theorem commit_order :
    (∀ (S : Config) (s : Sys S), s.Reachable →
      CommitOrder (s.hosts.core.commits.map Commit.trans) s.hosts.core.fed
        s.hosts.core.simPipe) ∧
    ∃ (S : Config) (s : Sys S), s.Reachable ∧ ∃ x y l,
      s.hosts.core.commits.map (fun e => e.trans.tag) = x :: y :: l ∧ y.seq < x.seq ∧
        ¬x.isMext ∧ y.isMext ∧ x.inst.dstReg ≠ y.inst.dstReg := by
  constructor
  · intro S s h
    obtain ⟨hc, ho⟩ := h.core.conserved
    exact ho.commitOrder hc
  · obtain ⟨s, hs, _, _, hlog⟩ := mulAdd_run
    refine ⟨_, s, hs, ⟨1, add⟩, ⟨0, mul⟩, [], ?_, by decide, ?_⟩
    · have := congrArg (List.map Shown.tag) hlog
      rwa [List.map_map] at this
    · simp [Tag.isMext, add, mul]

theorem commit_order_mulAdd : ∃ s : Sys (Config.plain 0 true), s.Reachable ∧
    s.hosts.core.isFinished = true ∧ CommitOrder (s.hosts.core.commits.map Commit.trans)
      s.hosts.core.fed s.hosts.core.simPipe := by
  obtain ⟨s, hs, hfin, _⟩ := mulAdd_run
  exact ⟨s, hs, hfin, commit_order.1 _ s hs⟩

/-- The counters right after a commit: the breakdown adds up to `cycles`. -/
def exactBreakdown (e : Commit) : Prop := e.stats.breakdown = e.stats.cycles

/-- No commit leaves a breakdown that adds up to `cycles`. It is always one ahead: it counts the
tick of the reset and the tick of the commit, and `cycles` is their difference. -/
theorem breakdown_one_ahead {s : Sys S} (h : s.Reachable) :
    ∀ e ∈ s.hosts.core.commits,
      ¬exactBreakdown e ∧ e.stats.breakdown = e.stats.cycles + 1 := by
  intro e he
  have hb := h.core.accounted.commits e he
  exact ⟨fun hx => Nat.succ_ne_self _ (hb.symm.trans hx), hb⟩

private theorem mulAdd_commits {s : Sys (Config.plain 0 true)}
    (h : s.hosts.core.commits.map shown = [⟨⟨1, add⟩, 10, 11, 10⟩, ⟨⟨0, mul⟩, 11, 12, 11⟩]) :
    ∃ e ∈ s.hosts.core.commits, e.stats.breakdown = 12 ∧ e.stats.cycles = 11 := by
  have hm : ⟨⟨0, mul⟩, 11, 12, 11⟩ ∈ s.hosts.core.commits.map shown := by
    rw [h]
    exact List.mem_cons_of_mem _ List.mem_cons_self
  obtain ⟨e, he, hx⟩ := List.mem_map.mp hm
  exact ⟨e, he, congrArg Shown.breakdown hx, congrArg Shown.cycles hx⟩

theorem breakdown_one_ahead_mulAdd : ∃ s : Sys (Config.plain 0 true), s.Reachable ∧
    ∃ e ∈ s.hosts.core.commits, e.stats.cycles = 11 ∧ ¬exactBreakdown e := by
  obtain ⟨s, hs, _, _, hlog⟩ := mulAdd_run
  obtain ⟨e, he, _, hc⟩ := mulAdd_commits hlog
  exact ⟨s, hs, e, he, hc, (breakdown_one_ahead hs e he).1⟩

/-- After the last of two commits the breakdown adds up to 12 ticks, and `cycles` is 11. -/
theorem breakdown_not_exact : ¬∀ (S : Config) (s : Sys S), s.Reachable →
    ∀ e ∈ s.hosts.core.commits, exactBreakdown e := by
  intro hall
  obtain ⟨s, hs, _, _, hlog⟩ := mulAdd_run
  obtain ⟨e, he, hb, hc⟩ := mulAdd_commits hlog
  have := hall _ s hs e he
  rw [exactBreakdown, hb, hc] at this
  exact absurd this (by decide)

end NpSim.System.Sys
