/- digest: The trace sanitizers of the main loop: what the windowed and the cumulative one count,
   over whole runs. -/

import Mathlib.Data.List.DropRight
import NpSim.System.Region

set_option autoImplicit false
set_option relaxedAutoImplicit false

namespace NpSim.System

open NpSim.Lib NpSim.Lib.Partial NpSim.Cache NpSim.Mem NpSim.Pipe

@[ext] structure TraceSanitizer where
  total : Nat := 0
  loads : Nat := 0
  stores : Nat := 0
  branches : Nat := 0
  brTaken : Nat := 0
  brNotTaken : Nat := 0
  alu : Nat := 0
  hasDst : Nat := 0
  hasSrc1 : Nat := 0
  hasSrc2 : Nat := 0
  sysOps : Nat := 0
  mExtOps : Nat := 0
  brTakenNoTarget : Nat := 0
  deriving DecidableEq, Repr

namespace TraceSanitizer

def record (t : TraceInst) (s : TraceSanitizer) : TraceSanitizer :=
  let s := { s with total := s.total + 1 }
  let s :=
    if t.memOp = Trace.MemLoad then { s with loads := s.loads + 1 }
    else if t.memOp = Trace.MemStore then { s with stores := s.stores + 1 }
    else s
  let s :=
    if t.isBranch then
      let s := { s with branches := s.branches + 1 }
      if t.brTaken then
        let s := { s with brTaken := s.brTaken + 1 }
        if t.memAddr = 0 then { s with brTakenNoTarget := s.brTakenNoTarget + 1 } else s
      else { s with brNotTaken := s.brNotTaken + 1 }
    else s
  let s := if t.memOp = Trace.MemNone ∧ ¬t.isBranch then { s with alu := s.alu + 1 } else s
  let s := if t.dstReg ≠ 0 then { s with hasDst := s.hasDst + 1 } else s
  let s := if t.srcReg0 ≠ 0 then { s with hasSrc1 := s.hasSrc1 + 1 } else s
  let s := if t.srcReg1 ≠ 0 then { s with hasSrc2 := s.hasSrc2 + 1 } else s
  let s := if t.sysOp ≠ Trace.SysNone then { s with sysOps := s.sysOps + 1 } else s
  if t.extOp ≠ Trace.ExtNone then { s with mExtOps := s.mExtOps + 1 } else s

def reset (_ : TraceSanitizer) : TraceSanitizer := {}

/-- What a sanitizer is for: each counter is the number of records of its kind. -/
def counts (l : List TraceInst) : TraceSanitizer where
  total := l.length
  loads := l.countP fun t => t.memOp = Trace.MemLoad
  stores := l.countP fun t => t.memOp = Trace.MemStore
  branches := l.countP fun t => t.isBranch
  brTaken := l.countP fun t => t.isBranch ∧ t.brTaken
  brNotTaken := l.countP fun t => t.isBranch ∧ ¬t.brTaken
  alu := l.countP fun t => t.memOp = Trace.MemNone ∧ ¬t.isBranch
  hasDst := l.countP fun t => t.dstReg ≠ 0
  hasSrc1 := l.countP fun t => t.srcReg0 ≠ 0
  hasSrc2 := l.countP fun t => t.srcReg1 ≠ 0
  sysOps := l.countP fun t => t.sysOp ≠ Trace.SysNone
  mExtOps := l.countP fun t => t.extOp ≠ Trace.ExtNone
  brTakenNoTarget := l.countP fun t => t.isBranch ∧ t.brTaken ∧ t.memAddr = 0

private theorem count_ite (c : Prop) [Decidable c] (n : Nat) :
    (if c then n + 1 else n) = n + if c then 1 else 0 := by
  split <;> rfl

theorem record_eq (t : TraceInst) (s : TraceSanitizer) : s.record t =
    { total := s.total + 1
      loads := s.loads + if t.memOp = Trace.MemLoad then 1 else 0
      stores := s.stores + if t.memOp = Trace.MemStore then 1 else 0
      branches := s.branches + if t.isBranch then 1 else 0
      brTaken := s.brTaken + if t.isBranch ∧ t.brTaken then 1 else 0
      brNotTaken := s.brNotTaken + if t.isBranch ∧ ¬t.brTaken then 1 else 0
      alu := s.alu + if t.memOp = Trace.MemNone ∧ ¬t.isBranch then 1 else 0
      hasDst := s.hasDst + if t.dstReg ≠ 0 then 1 else 0
      hasSrc1 := s.hasSrc1 + if t.srcReg0 ≠ 0 then 1 else 0
      hasSrc2 := s.hasSrc2 + if t.srcReg1 ≠ 0 then 1 else 0
      sysOps := s.sysOps + if t.sysOp ≠ Trace.SysNone then 1 else 0
      mExtOps := s.mExtOps + if t.extOp ≠ Trace.ExtNone then 1 else 0
      brTakenNoTarget := s.brTakenNoTarget +
        if t.isBranch ∧ t.brTaken ∧ t.memAddr = 0 then 1 else 0 } := by
  ext
  · simp only [record, apply_ite TraceSanitizer.total, ite_self]
  · simp only [record, apply_ite TraceSanitizer.loads, ite_self]
    by_cases hl : t.memOp = Trace.MemLoad <;> simp [hl]
  · simp only [record, apply_ite TraceSanitizer.stores, ite_self]
    by_cases hl : t.memOp = Trace.MemLoad <;> by_cases hs : t.memOp = Trace.MemStore <;>
      simp [hl, hs]
  · simp only [record, apply_ite TraceSanitizer.branches, ite_self]
    by_cases hb : t.isBranch <;> simp [hb]
  · simp only [record, apply_ite TraceSanitizer.brTaken, ite_self]
    by_cases hb : t.isBranch <;> by_cases ht : t.brTaken <;> simp [hb, ht]
  · simp only [record, apply_ite TraceSanitizer.brNotTaken, ite_self]
    by_cases hb : t.isBranch <;> by_cases ht : t.brTaken <;> simp [hb, ht]
  · simp only [record, apply_ite TraceSanitizer.alu, ite_self]
    exact count_ite ..
  · simp only [record, apply_ite TraceSanitizer.hasDst, ite_self]
    exact count_ite ..
  · simp only [record, apply_ite TraceSanitizer.hasSrc1, ite_self]
    exact count_ite ..
  · simp only [record, apply_ite TraceSanitizer.hasSrc2, ite_self]
    exact count_ite ..
  · simp only [record, apply_ite TraceSanitizer.sysOps, ite_self]
    exact count_ite ..
  · simp only [record, apply_ite TraceSanitizer.mExtOps, ite_self]
    exact count_ite ..
  · simp only [record, apply_ite TraceSanitizer.brTakenNoTarget, ite_self]
    by_cases hb : t.isBranch
    · by_cases ht : t.brTaken
      · simp only [hb, ht, if_true, true_and]
        exact count_ite ..
      · simp [hb, ht]
    · simp [hb]

theorem counts_append (l : List TraceInst) (t : TraceInst) :
    counts (l ++ [t]) = (counts l).record t := by
  simp [record_eq, counts, List.countP_append, List.countP_singleton]

theorem counts_branches (l : List TraceInst) :
    (counts l).branches = (counts l).brTaken + (counts l).brNotTaken := by
  induction l with
  | nil => rfl
  | cons t l ih =>
    simp only [counts, List.countP_cons] at ih ⊢
    cases t.isBranch <;> cases t.brTaken <;> simp at ih ⊢ <;> omega

theorem counts_total {l : List TraceInst} (h : ∀ t ∈ l, t.RV32IM) :
    (counts l).total =
      (counts l).loads + (counts l).stores + (counts l).branches + (counts l).alu := by
  induction l with
  | nil => rfl
  | cons t l ih =>
    have ht := h t List.mem_cons_self
    have ih := ih fun u hu => h u (List.mem_cons_of_mem t hu)
    simp only [counts, List.countP_cons, List.length_cons] at ih ⊢
    cases hb : t.isBranch with
    | true =>
      have hm := (ht.branch hb).1
      simp [hm] at ih ⊢
      omega
    | false => rcases ht.memOp with hm | hm | hm <;> simp [hm] at ih ⊢ <;> omega

end TraceSanitizer

open TraceSanitizer

/-- The main loop with its two sanitizers, the one that a reset marker clears and the other. -/
structure Monitored (S : Config) where
  sys : Sys S
  sanitizer : TraceSanitizer := {}
  sanitizerAll : TraceSanitizer := {}

namespace Sys

variable {S : Config}

def taken (s : Sys S) : Option TraceInst :=
  if s.phase = .feed ∧ s.hosts.core.instAvail ∧ !s.stopAfterDump && s.hasNext &&
      decide (s.instCnt < S.maxInsts) then s.trace.head?
  else none

end Sys

namespace Monitored

variable {S : Config}

/-- One call of the main loop: a record that is fed is recorded twice, and a reset marker clears the
first sanitizer. -/
def step (m : Monitored S) : Except Fault (Monitored S) := do
  let sys ← m.sys.step false
  match m.sys.taken with
  | some inst =>
    .ok {
      sys := sys
      sanitizer := m.sanitizer.record inst
      sanitizerAll := m.sanitizerAll.record inst }
  | none =>
    if m.sys.phase = .sysOp ∧ m.sys.inst.sysOp = Trace.SysResetStats then
      .ok { m with sys := sys, sanitizer := m.sanitizer.reset }
    else .ok { m with sys := sys }

def run : Nat → Monitored S → Except Fault (Monitored S)
  | 0, m => .ok m
  | n + 1, m => do
    let m ← m.step
    run n m

end Monitored

/-- The records since the last reset marker. -/
def sinceReset (l : List TraceInst) : List TraceInst :=
  l.rtakeWhile fun t => decide (t.sysOp ≠ Trace.SysResetStats)

theorem sinceReset_append (l : List TraceInst) (t : TraceInst) :
    sinceReset (l ++ [t]) =
      if t.sysOp = Trace.SysResetStats then [] else sinceReset l ++ [t] := by
  unfold sinceReset
  by_cases h : t.sysOp = Trace.SysResetStats
  · rw [if_pos h, List.rtakeWhile_concat_neg _ _ _ (by simp [h])]
  · rw [if_neg h, List.rtakeWhile_concat_pos _ _ _ (by simp [h])]

namespace Monitored

variable {S : Config}

/-- What the sanitizers have counted. A reset marker that has just been fed is still to be
handled. -/
structure Tallied (m : Monitored S) : Prop where
  all : m.sanitizerAll = counts m.sys.hosts.core.fed
  window : m.sys.phase ∉ [.clock, .sysOp] → m.sanitizer = counts (sinceReset m.sys.hosts.core.fed)
  pending : m.sys.phase ∈ [.clock, .sysOp] →
    if m.sys.inst.sysOp = Trace.SysResetStats then sinceReset m.sys.hosts.core.fed = []
    else m.sanitizer = counts (sinceReset m.sys.hosts.core.fed)
  stale : m.sys.phase ∉ [.clock, .sysOp] → m.sys.inst.sysOp = Trace.SysResetStats →
    m.sys.hosts.core.fed = []

theorem step_cases {m m' : Monitored S} (h : m.step = .ok m') :
    m.sys.step false = .ok m'.sys ∧
    ((∃ inst, m.sys.taken = some inst ∧ m'.sanitizer = m.sanitizer.record inst ∧
        m'.sanitizerAll = m.sanitizerAll.record inst) ∨
      m.sys.taken = none ∧ m'.sanitizerAll = m.sanitizerAll ∧
        m'.sanitizer = if m.sys.phase = .sysOp ∧ m.sys.inst.sysOp = Trace.SysResetStats then {}
          else m.sanitizer) := by
  obtain ⟨t, ht, h⟩ := bind_eq_ok.mp h
  cases htk : m.sys.taken with
  | some inst =>
    rw [htk] at h
    cases h
    exact ⟨ht, .inl ⟨inst, rfl, rfl, rfl⟩⟩
  | none =>
    rw [htk] at h
    dsimp only at h
    split at h <;> rename_i hc <;> cases h
    · exact ⟨ht, .inr ⟨rfl, rfl, by rw [if_pos hc]; rfl⟩⟩
    · exact ⟨ht, .inr ⟨rfl, rfl, by rw [if_neg hc]⟩⟩

private theorem taken_none {s : Sys S} (h : s.phase ≠ .feed) : s.taken = none := by
  unfold Sys.taken
  exact if_neg fun hc => h hc.1

private theorem Tallied.feed {m m' : Monitored S} (h : Tallied m) (hs : m.sys.phase = .feed)
    (hst : m.step = .ok m') : Tallied m' := by
  obtain ⟨ht, hsan⟩ := step_cases hst
  have hmem : m.sys.phase ∉ [Phase.clock, .sysOp] := by simp [hs]
  have hwin := h.window hmem
  have hnone : m'.sys.hosts.core.fed = m.sys.hosts.core.fed → m'.sys.inst = m.sys.inst →
      m'.sys.phase = .clock → m.sys.taken = none → Tallied m' := by
    intro hfed hinst hp htk
    rcases hsan with ⟨inst, hx, _⟩ | ⟨_, hall, hw⟩
    · rw [htk] at hx
      cases hx
    · rw [if_neg (by simp [hs])] at hw
      refine ⟨by rw [hall, hfed, h.all], fun hx => by simp [hp] at hx, fun _ => ?_,
        fun hx => by simp [hp] at hx⟩
      rw [hfed, hinst]
      split
      · rename_i hr
        rw [h.stale hmem hr]
        rfl
      · rw [hw, hwin]
  unfold Sys.step at ht
  rw [hs] at ht
  rcases Sys.feed_cases ht with ⟨ha, he⟩ | ⟨ha, hstop, b, hb, he⟩ |
    ⟨inst, rest, r, ha, hstop, hnext, hcnt, htr, hfeed, he⟩
  · exact hnone (by rw [he]) (by rw [he]) (by rw [he]) (by simp [Sys.taken, ha])
  · refine hnone (by rw [he]; rfl) (by rw [he]) (by rw [he]) ?_
    unfold Sys.taken
    split
    · rename_i hc
      simp only [Bool.and_eq_true, Bool.not_eq_true', decide_eq_true_eq] at hc
      obtain ⟨_, _, ⟨hns, hnx⟩, hlt⟩ := hc
      rcases hstop with hx | hx | hx | hx
      · rw [hns] at hx
        cases hx
      · rw [hnx] at hx
        cases hx
      · exact absurd hlt (not_lt.mpr hx)
      · rw [hx]
        rfl
    · rfl
  · have hload := Sys.feedInst_load hfeed
    simp only [Pipeline.load, Pipeline.intake, Prod.mk.injEq] at hload
    have hfed : m'.sys.hosts.core.fed = m.sys.hosts.core.fed ++ [inst] := by
      rw [he]
      exact hload.1.1
    have hp : m'.sys.phase = .clock := by
      rw [he]
      rfl
    have htk : m.sys.taken = some inst := by
      unfold Sys.taken
      rw [if_pos (by simp [hs, ha, hstop, hnext, hcnt]), htr]
      rfl
    rcases hsan with ⟨i, hx, hw, hall⟩ | ⟨hx, _⟩
    · cases htk.symm.trans hx
      refine ⟨by rw [hall, hfed, h.all, counts_append], fun hx => by simp [hp] at hx,
        fun _ => ?_, fun hx => by simp [hp] at hx⟩
      rw [hfed, sinceReset_append, show m'.sys.inst = inst by rw [he]]
      split
      · rfl
      · rw [hw, hwin, counts_append]
    · rw [htk] at hx
      cases hx

theorem Tallied.step {m m' : Monitored S} (h : Tallied m) (hst : m.step = .ok m') :
    Tallied m' := by
  by_cases hf : m.sys.phase = .feed
  · exact h.feed hf hst
  obtain ⟨ht, ⟨inst, hx, _⟩ | ⟨_, hall, hw⟩⟩ := step_cases hst
  · rw [taken_none hf] at hx
    cases hx
  by_cases hp : m.sys.phase ∈ [Phase.feed, .clock, .sysOp, .halted]
  · simp only [List.mem_cons, List.not_mem_nil, or_false] at hp
    unfold Sys.step at ht
    rcases hp with hs | hs | hs | hs <;> rw [hs] at ht
    · exact absurd hs hf
    · rw [if_neg (by simp [hs])] at hw
      have he := (Except.ok.inj ht).symm
      have hfed : m'.sys.hosts.core.fed = m.sys.hosts.core.fed := by rw [he]
      have hph : m'.sys.phase = .sysOp := by rw [he]
      refine ⟨by rw [hall, hfed, h.all], fun hx => by simp [hph] at hx, fun _ => ?_,
        fun hx => by simp [hph] at hx⟩
      rw [hfed, hw, show m'.sys.inst = m.sys.inst by rw [he]]
      exact h.pending (by simp [hs])
    · have hh := Sys.handleSysOp_handled ht
      have hfed : m'.sys.hosts.core.fed = m.sys.hosts.core.fed :=
        congrArg (fun x => x.1.1) hh.load
      have hpend := h.pending (by simp [hs])
      have hph : m'.sys.phase ∉ [Phase.clock, .sysOp] := by
        rcases hh.phase with hx | hx <;> simp [hx.1]
      refine ⟨by rw [hall, hfed, h.all], fun _ => ?_, fun hx => absurd hx hph,
        fun _ hx => absurd hh.inst (by simp [hx])⟩
      rw [hfed, hw]
      split
      · rename_i hr
        rw [if_pos hr.2] at hpend
        rw [hpend]
        rfl
      · rename_i hr
        rw [if_neg fun hx => hr ⟨hs, hx⟩] at hpend
        exact hpend
    · rw [if_neg (by simp [hs])] at hw
      have he := (Except.ok.inj ht).symm
      refine ⟨?_, ?_, ?_, ?_⟩ <;> rw [he]
      · rw [hall]
        exact h.all
      · rw [hw]
        exact h.window
      · rw [hw]
        exact h.pending
      · exact h.stale
  · obtain ⟨r, p, hload, hnew, _, he⟩ := Sys.step_devices ht hp
    simp only [List.mem_cons, List.not_mem_nil, or_false, not_or] at hp hnew
    rw [if_neg fun hx => hp.2.2.1 hx.1] at hw
    have hold : m.sys.phase ∉ [Phase.clock, .sysOp] := by simp [hp]
    have hfed : m'.sys.hosts.core.fed = m.sys.hosts.core.fed := by
      rw [he]
      exact congrArg Prod.fst hload
    have hph : m'.sys.phase ∉ [Phase.clock, .sysOp] := by
      rw [he]
      simp [Sys.commitTo, hnew]
    refine ⟨by rw [hall, hfed, h.all], fun _ => by rw [hw, hfed, h.window hold],
      fun hx => absurd hx hph, fun _ hx => hfed.trans (h.stale hold ?_)⟩
    rw [he] at hx
    exact hx

theorem tallied_init (trace : List TraceInst) (inst : TraceInst) (nxt : Tick) :
    Tallied { sys := Sys.init S trace inst nxt } :=
  ⟨rfl, fun _ => rfl, fun h => by simp [Sys.init] at h, fun _ _ => rfl⟩

/-- The sanitizers do not meddle with the loop, and their invariant holds in every state. -/
theorem run_tallied {n : Nat} {m m' : Monitored S} (h : run n m = .ok m') (hm : Tallied m) :
    Sys.run false n m.sys = .ok m'.sys ∧ Tallied m' := by
  induction n generalizing m with
  | zero =>
    cases h
    exact ⟨rfl, hm⟩
  | succ n ih =>
    obtain ⟨u, hu, h⟩ := bind_eq_ok.mp h
    obtain ⟨hrun, ht⟩ := ih h (hm.step hu)
    refine ⟨?_, ht⟩
    unfold Sys.run
    rw [(step_cases hu).1]
    exact hrun

/-- In every state of the loop the cumulative sanitizer counts the fed records by kind, and between
two rounds the windowed one those since the last reset marker. The cumulative counters add up. At
the end of a run that has not used up its ticks they have counted the region of interest, each
record of which has committed. -/
theorem sanitizers_count {trace : List TraceInst} {inst : TraceInst} {nxt : Tick} {n : Nat}
    {m : Monitored S} (h : run n { sys := Sys.init S trace inst nxt } = .ok m) :
    m.sanitizerAll = counts m.sys.hosts.core.fed ∧
    (m.sys.phase ∉ [.clock, .sysOp] → m.sanitizer = counts (sinceReset m.sys.hosts.core.fed)) ∧
    m.sanitizerAll.total = m.sys.hosts.core.acct.totalInsts + m.sys.hosts.core.ongoingInsts ∧
    m.sanitizerAll.branches = m.sanitizerAll.brTaken + m.sanitizerAll.brNotTaken ∧
    ((∀ t ∈ trace, t.RV32IM) → m.sanitizerAll.total = m.sanitizerAll.loads +
      m.sanitizerAll.stores + m.sanitizerAll.branches + m.sanitizerAll.alu) ∧
    (m.sys.phase = .halted → m.sys.tick < S.maxTicks →
      m.sanitizerAll = counts (region S.maxInsts trace) ∧
      m.sys.hosts.core.acct.totalInsts = m.sanitizerAll.total) := by
  obtain ⟨hrun, ht⟩ := run_tallied h (tallied_init trace inst nxt)
  obtain ⟨hreach, hfeed, _⟩ := Sys.run_feeding hrun
  have hcons := hreach.fed_length
  have hcommits := hreach.core.accounted.total
  have hfeeds : m.sys.hosts.core.fed <+: region S.maxInsts trace := ⟨m.sys.left, hfeed.split⟩
  rw [ht.all]
  refine ⟨rfl, ht.window, hcons, counts_branches _, fun hrv => counts_total fun t htr => ?_,
    fun hhalt htick => ?_⟩
  · exact hrv t (mem_of_region (hfeeds.subset htr))
  · obtain ⟨hz, hfed⟩ := hfeed.finished hhalt htick
    have hlen := (hreach.all_committed hz).length_eq
    rw [List.length_map, List.length_zipIdx] at hlen
    exact ⟨by rw [hfed], hcommits.trans hlen⟩

/-- A multiplication and a load, a reset marker, two branches, a store, an addition and a dump
marker; the last record is not fed any more. -/
private def mixed : List TraceInst :=
  [Sys.mul, { pc := 0x80000004, dstReg := 5, memOp := Trace.MemLoad, memAddr := 0x80001000 },
    { pc := 0x80000008, sysOp := Trace.SysResetStats },
    { pc := 0x8000000c, isBranch := true, memAddr := 0x80000020 },
    { pc := 0x80000010, isBranch := true, brTaken := true, memAddr := 0x80000018 },
    { pc := 0x80000018, srcReg0 := 5, memOp := Trace.MemStore, memAddr := 0x80001004 },
    { pc := 0x8000001c, dstReg := 2 }, { pc := 0x80000020, sysOp := Trace.SysDumpStats }, Sys.add]

private theorem mixed_rv32im : ∀ t ∈ mixed, t.RV32IM := by
  intro t ht
  simp only [mixed, List.mem_cons, List.not_mem_nil, or_false] at ht
  rcases ht with rfl | rfl | rfl | rfl | rfl | rfl | rfl | rfl | rfl <;> constructor <;> decide

/-- At the end of a run over them the windowed sanitizer has the five records behind the reset
marker and the cumulative one all eight, and these are one load, one store, two branches and four
plain records. -/
theorem sanitizers_count_mixed : ∃ m : Monitored (Config.plain 0 true), m.sys.phase = .halted ∧
    m.sanitizer = counts ((mixed.take 8).drop 3) ∧ m.sanitizer.hasDst = 1 ∧
    m.sanitizerAll = counts (mixed.take 8) ∧ m.sanitizerAll.hasDst = 3 ∧
    m.sanitizerAll.total = m.sanitizerAll.loads + m.sanitizerAll.stores +
      m.sanitizerAll.branches + m.sanitizerAll.alu ∧
    m.sanitizerAll.branches = m.sanitizerAll.brTaken + m.sanitizerAll.brNotTaken ∧
    m.sys.hosts.core.acct.totalInsts = 8 := by
  obtain ⟨m, hrun, hobs⟩ := exists_of_observed
    (x := run 400 { sys := Sys.init (Config.plain 0 true) mixed {} 0 })
    (f := fun m => (m.sys.phase, m.sys.tick, m.sys.hosts.core.fed))
    (b := (.halted, 30, mixed.take 8)) (by decide +kernel)
  simp only [Prod.mk.injEq] at hobs
  obtain ⟨_, hwin, _, hbranches, hsum, hend⟩ := sanitizers_count hrun
  obtain ⟨hall, htotal⟩ := hend hobs.1 (by rw [hobs.2.1]; decide)
  have hs := hwin (by simp [hobs.1])
  rw [hobs.2.2] at hs
  refine ⟨m, hobs.1, hs, by rw [hs]; rfl, hall, by rw [hall]; rfl, hsum mixed_rv32im, hbranches, ?_⟩
  rw [htotal, hall]
  rfl

end Monitored

end NpSim.System
