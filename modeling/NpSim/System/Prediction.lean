/- digest: What the branch predictors of the assembled simulator remember: the snapshots of TAGE,
   and the global histories with the two kinds of branches that spoil them. -/

import NpSim.Pipe.History
import NpSim.Pipe.Misprediction
import NpSim.Pipe.Snapshots
import NpSim.System.Core

set_option autoImplicit false
set_option relaxedAutoImplicit false

namespace NpSim.System

open NpSim.Lib.Partial NpSim.Branch NpSim.Pipe NpSim.Pipe.Pipeline

/-- The core of `S` with the fetch queue that `main` builds. -/
abbrev Config.queued (S : Config) : PipelineParams := { S.core with ifqSize := 8 }

abbrev Config.withBranch (S : Config) (P : BranchParams) : Config :=
  { S with core := { S.queued with branch := P }, hasNc := S.hasNc }

/-- The predictors with a global history. -/
inductive HistoryPredictor
  | gshare (G : HistoryParams)
  | tournament (G : HistoryParams)
  | tage (T : TageParams)

namespace HistoryPredictor

def predictor : HistoryPredictor → BranchPred
  | gshare G => GShare.predictor G
  | tournament G => Tournament.predictor G
  | tage T => Tage.predictor T

def historian : (p : HistoryPredictor) → Historian p.predictor
  | gshare G => GShare.historian G
  | tournament G => Tournament.historian G
  | tage T => Tage.historian T

theorem historian_fits (p : HistoryPredictor) {n : Nat} (h : n < snapRing) :
    p.historian.fits n := by
  cases p with
  | gshare G => trivial
  | tournament G => trivial
  | tage T => exact h

end HistoryPredictor

namespace Sys

/-- No predicted branch waits for its resolution: none is left up to Decode, and no misprediction
holds the fetch unit on a wrong path. -/
def Settled {S : Config} (s : Sys S) : Prop :=
  (∀ x ∈ s.hosts.core.flow.line, x.traceInst.isBranch = false) ∧
    (s.hosts.core.fetch.wrongPath = false ∨ s.hosts.core.fetch.wpFlushed = true)

/-- The history register holds the bits that the predicted branches have left in it, in program
order, and each of them is the direction of its branch. -/
def Faithful {S : Config} (V : Historian S.core.branch.bpu) (s : Sys S) : Prop :=
  V.hist s.hosts.core.bpu.bpu = Prediction.replay V s.hosts.core.predictions ∧
    ∀ e ∈ s.hosts.core.predictions, e.recorded V = true → e.bit = e.trans.traceInst.brTaken

/-- Whenever no predicted branch is unresolved, the history is that of the actual directions
exactly when no prediction so far has been misleading. -/
theorem history_faithful (p : HistoryPredictor) (S : Config) (btb : BTBBase) (rasDepth : Nat)
    {s : Sys (S.withBranch ⟨p.predictor, btb, rasDepth⟩)} (h : s.Reachable) (hs : s.Settled) :
    s.Faithful p.historian ↔ ∀ e ∈ s.hosts.core.predictions, ¬e.Misleading p.historian := by
  have hfit : ∀ n ≤ 8 + 2, p.historian.fits n := by
    intro n hn
    apply p.historian_fits
    unfold snapRing
    omega
  have hrec : s.hosts.core.bets.Recorded p.historian :=
    h.core.bets_invariant (Bets.recorded_init p.historian) fun _ _ hm _ =>
      hm.recorded p.historian hfit
  have hline : ∀ x ∈ s.hosts.core.bets.line, x.traceInst.isBranch = false := by
    intro x hx
    obtain ⟨y, hy, rfl⟩ := List.mem_map.mp hx
    exact hs.1 y hy
  have hhist := hrec.replayed p.historian hline hs.2
  constructor
  · rintro ⟨_, hbits⟩ e he
    exact ((hrec.judged e he).bit_wrong p.historian).mp (hbits e he)
  · intro hgood
    refine ⟨hhist, ?_⟩
    intro e he
    exact ((hrec.judged e he).bit_wrong p.historian).mpr (hgood e he)

def br (pc target : Addr) (taken : Bool) : TraceInst :=
  { pc := pc, memAddr := target, isBranch := true, brTaken := taken }

def gshare : HistoryPredictor := .gshare { tablePow2 := 4, historyLen := 4 }

abbrev gshareUnit : BranchParams :=
  ⟨gshare.predictor, BTBParams.compressed { entriesPow2 := 4 }, 0⟩

/-- The branches up to Decode, whether the fetch unit is on a wrong path, and for every prediction
whether it leaves a bit, which one, the direction of the branch, and whether it is misleading. -/
structure Bits where
  waiting : List Bool
  wrongPath : Bool
  log : List (Bool × Bool × Bool)
  misleading : List Bool
  deriving DecidableEq

def bits (s : Sys ((Config.plain 0 true).withBranch gshareUnit)) : Bits where
  waiting := s.hosts.core.flow.line.map (·.traceInst.isBranch)
  wrongPath := s.hosts.core.fetch.wrongPath && !s.hosts.core.fetch.wpFlushed
  log := s.hosts.core.predictions.map fun e =>
    (e.recorded gshare.historian, e.bit, e.trans.traceInst.brTaken)
  misleading := s.hosts.core.predictions.map fun e => decide (e.Misleading gshare.historian)

private theorem settled_of_bits {s : Sys ((Config.plain 0 true).withBranch gshareUnit)}
    (hl : (bits s).waiting = []) (hw : (bits s).wrongPath = false) : s.Settled := by
  constructor
  · intro x hx
    rw [List.map_eq_nil_iff.mp hl] at hx
    cases hx
  · cases hp : s.hosts.core.fetch.wrongPath with
    | false => exact .inl rfl
    | true =>
      refine .inr ?_
      simpa [bits, hp] using hw

/-- A taken branch that was predicted not taken: its direction is in the history. -/
theorem history_faithful_corrected :
    ∃ s : Sys ((Config.plain 0 true).withBranch gshareUnit), s.Reachable ∧ s.Settled ∧
      s.hosts.core.predictions.length = 1 ∧ s.Faithful gshare.historian := by
  obtain ⟨s, hrun, hobs⟩ := exists_of_observed
    (x := run false 60 (init ((Config.plain 0 true).withBranch gshareUnit)
      [br 0x80000000 0x80000004 true] {} 0))
    (f := bits) (b := ⟨[], false, [(true, true, true)], [false]⟩)
    (by decide +kernel)
  have hr : s.Reachable := ⟨_, _, _, _, hrun⟩
  have hs := settled_of_bits (congrArg Bits.waiting hobs) (congrArg Bits.wrongPath hobs)
  have hgood : s.hosts.core.predictions.map (fun e => decide (e.Misleading gshare.historian)) =
      [false] := congrArg Bits.misleading hobs
  have hlen := congrArg List.length hgood
  rw [List.length_map] at hlen
  refine ⟨s, hr, hs, hlen, (history_faithful gshare _ _ _ hr hs).mpr ?_⟩
  intro e he
  have hmem := List.mem_map_of_mem (f := fun e => decide (e.Misleading gshare.historian)) he
  rw [hgood, List.mem_singleton] at hmem
  exact of_decide_eq_false hmem

/-- A branch that is not taken, predicted taken without a target: nothing is fetched wrong, and
the wrong direction stays in the history. -/
theorem history_unfaithful : ¬∀ (p : HistoryPredictor) (S : Config) (btb : BTBBase)
    (rasDepth : Nat) (s : Sys (S.withBranch ⟨p.predictor, btb, rasDepth⟩)), s.Reachable →
      s.Settled → s.Faithful p.historian := by
  intro hall
  obtain ⟨s, hrun, hobs⟩ := exists_of_observed
    (x := run false 105 (init ((Config.plain 0 true).withBranch gshareUnit)
      [br 0x80000000 0x80000004 true, br 0x80000004 0x80000100 false] {} 0))
    (f := bits)
    (b := ⟨[], false, [(true, true, true), (true, true, false)], [false, true]⟩)
    (by decide +kernel)
  have hs := settled_of_bits (congrArg Bits.waiting hobs) (congrArg Bits.wrongPath hobs)
  obtain ⟨_, hbits⟩ := hall gshare _ _ _ s ⟨_, _, _, _, hrun⟩ hs
  have hmem : (true, true, false) ∈ s.hosts.core.predictions.map (fun e =>
      (e.recorded gshare.historian, e.bit, e.trans.traceInst.brTaken)) := by
    rw [show List.map _ _ = _ from congrArg Bits.log hobs]
    exact List.mem_cons_of_mem _ List.mem_cons_self
  obtain ⟨e, he, heq⟩ := List.mem_map.mp hmem
  simp only [Prod.mk.injEq] at heq
  have hbit := hbits e he heq.1
  rw [heq.2.1, heq.2.2] at hbit
  cases hbit

/-- Every branch on its way to Execute has the snapshot that its own prediction stored, at most ten
predictions ago, and no call has ever missed its snapshot. -/
theorem snapshots_kept (T : TageParams) (S : Config) (btb : BTBBase) (rasDepth : Nat)
    {s : Sys (S.withBranch ⟨Tage.predictor T, btb, rasDepth⟩)} (h : s.Reachable) :
    let tage : Tage := s.hosts.core.bpu.bpu
    (tage.stats.snapRingOverflow = 0 ∧ tage.stats.updateSnapInvalid = 0) ∧
    ∀ x ∈ s.hosts.core.flow.line, x.isWrongPath = false → x.traceInst.isBranch = true →
      tage.Live x.brPred.ghrSnap ∧
      ∃ e ∈ s.hosts.core.predictions, e.trans.strip = x.strip ∧
        x.brPred.ghrSnap = BitVec.ofNat 32 e.index ∧
        s.hosts.core.predicted < e.index + 11 ∧
        tage.snaps (ringSlot x.brPred.ghrSnap) =
          Prediction.stored (K := S.queued) e := by
  have hfit : S.queued.ifqSize + 3 ≤ snapRing := by
    change 8 + 3 ≤ snapRing
    unfold snapRing
    omega
  have hfresh : s.hosts.core.bets.Fresh := CoreReachable.fresh h.core hfit
  have hloss := Prod.mk.inj hfresh.losses
  refine ⟨⟨hloss.1, hloss.2⟩, ?_⟩
  intro x hx hreal hb
  obtain ⟨older, younger, hline⟩ := List.append_of_mem hx
  have hsuf : x.strip :: younger.map Transaction.strip <:+ s.hosts.core.bets.line := by
    change _ <:+ s.hosts.core.flow.line.map Transaction.strip
    rw [hline, List.map_append]
    exact List.suffix_append ..
  obtain ⟨e, he⟩ := hfresh.intact x.strip _ hsuf hreal hb
  have hyoung := he.young hfresh hsuf
  have hlive : Tage.Live s.hosts.core.bpu.bpu x.strip.brPred.ghrSnap := he.live hfresh hfit hsuf
  refine ⟨hlive, e, he.made, he.trans, he.id, ?_, ?_⟩
  · change s.hosts.core.predicted ≤ e.index + 8 + 2 at hyoung
    omega
  · rw [show x.brPred.ghrSnap = BitVec.ofNat 32 e.index from he.id, Tage.ringSlot_ofNat]
    exact he.own

abbrev tageUnit : BranchParams :=
  ⟨Tage.predictor {}, BTBParams.compressed { entriesPow2 := 4 }, 0⟩

/-- Two branches behind each other, the first of them mispredicted: while it waits its snapshot is
live. -/
theorem snapshots_kept_branch : ∃ s : Sys ((Config.plain 0 true).withBranch tageUnit),
    s.Reachable ∧ 1 < s.hosts.core.predicted ∧ ∃ x ∈ s.hosts.core.flow.line,
      x.traceInst.isBranch = true ∧ Tage.Live s.hosts.core.bpu.bpu x.brPred.ghrSnap := by
  obtain ⟨s, hrun, hobs⟩ := exists_of_observed
    (x := run false 50 (init ((Config.plain 0 true).withBranch tageUnit)
      [br 0x80000000 0x80000004 true, br 0x80000004 0x80000100 false] {} 0))
    (f := fun s => (s.hosts.core.predicted, s.hosts.core.flow.line.map fun x =>
      (x.isWrongPath, x.traceInst.isBranch)))
    (b := (3, [(false, true), (true, false), (true, false)]))
    (by decide +kernel)
  have hs : s.Reachable := ⟨_, _, _, _, hrun⟩
  have hmem : (false, true) ∈ s.hosts.core.flow.line.map fun x =>
      (x.isWrongPath, x.traceInst.isBranch) := by
    rw [(Prod.mk.inj hobs).2]
    exact List.mem_cons_self
  obtain ⟨x, hx, heq⟩ := List.mem_map.mp hmem
  obtain ⟨hreal, hb⟩ := Prod.mk.inj heq
  have hlive := ((snapshots_kept {} _ _ _ hs).2 x hx hreal hb).1
  refine ⟨s, hs, ?_, x, hx, hb, hlive⟩
  rw [(Prod.mk.inj hobs).1]
  decide

/-- The front end follows the misprediction protocol: it fetches nothing from the trace while it is
lost behind a misprediction, the youngest record past the input buffer, until that branch flushes
it at Execute, once; it fetches from the trace again after the penalty, and placeholders only
while it is lost. -/
theorem misprediction_protocol {S : Config} {s : Sys S} (h : s.Reachable) :
    ∃ m, s.hosts.core.Obeys m ∧ ∀ x, m = .lost x →
      ∀ z ∈ s.hosts.core.flow.line ++ s.hosts.core.flow.back, z.isWrongPath = false →
        z.seq ≤ x.seq := by
  obtain ⟨m, hm⟩ := h.core.obeys
  refine ⟨m, hm, ?_⟩
  rintro x rfl z hz hreal
  have hcons : s.hosts.core.flow.Conserved :=
    h.core.flow_invariant Flow.conserved_init fun _ _ hmv hf => hmv.conserved hf
  exact Pipeline.Obeys.youngest hm hcons hz hreal

/-- A taken branch that no predictor expects, and the record it leads to. -/
theorem misprediction_protocol_taken : ∃ s : Sys (Config.plain 0 true), s.Reachable ∧
    s.hosts.core.events.map Event.mark =
      [(.take, 0), (.wrong, 4), (.wrong, 5), (.wrong, 6), (.wrong, 7), (.write, 8), (.flush, 8),
        (.take, 11)] ∧
    ∃ m, s.hosts.core.Obeys m ∧ ∀ x, m = .lost x →
      ∀ z ∈ s.hosts.core.flow.line ++ s.hosts.core.flow.back, z.isWrongPath = false →
        z.seq ≤ x.seq := by
  obtain ⟨s, hrun, hobs⟩ := exists_of_observed
    (x := run false 100 (init (Config.plain 0 true)
      [br 0x80000000 0x80000010 true, br 0x80000010 0 false] {} 0))
    (f := fun s => s.hosts.core.events.map Event.mark)
    (b := [(.take, 0), (.wrong, 4), (.wrong, 5), (.wrong, 6), (.wrong, 7), (.write, 8),
      (.flush, 8), (.take, 11)])
    (by decide +kernel)
  have hs : s.Reachable := ⟨_, _, _, _, hrun⟩
  exact ⟨s, hs, hobs, misprediction_protocol hs⟩

end Sys

end NpSim.System
