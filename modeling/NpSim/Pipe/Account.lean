/- digest: Cycle attribution of the core: the counters and the lazy stall frontier. -/

import NpSim.Defines

set_option autoImplicit false
set_option relaxedAutoImplicit false

namespace NpSim.Pipe

inductive StallCause | noStall | noInst | lsuStall | brMispred | raw
  deriving DecidableEq, Repr

structure PipelineStats where
  insts : Nat := 0
  cycles : Nat := 0
  nostall : Nat := 0
  noinst : Nat := 0
  lsuStall : Nat := 0
  brmissStall : Nat := 0
  rawStall : Nat := 0
  wpBpuQueries : Nat := 0
  wpBtbHits : Nat := 0
  wpRedirects : Nat := 0
  earlyRedirects : Nat := 0
  deriving DecidableEq, Repr

namespace PipelineStats

/-- `reset_stats`: the wrong-path counters keep counting. -/
def reset (s : PipelineStats) : PipelineStats :=
  { s with insts := 0, cycles := 0, nostall := 0, noinst := 0, lsuStall := 0, brmissStall := 0,
           rawStall := 0 }

/-- The cycle breakdown summed over its categories. -/
def breakdown (s : PipelineStats) : Nat :=
  s.nostall + s.noinst + s.lsuStall + s.brmissStall + s.rawStall

/-- Charge `gap` ticks to the category of `cause`. -/
def charge (cause : StallCause) (gap : Nat) (s : PipelineStats) : PipelineStats :=
  match cause with
  | .lsuStall => { s with lsuStall := s.lsuStall + gap }
  | .raw => { s with rawStall := s.rawStall + gap }
  | .brMispred => { s with brmissStall := s.brmissStall + gap }
  | .noStall | .noInst => { s with noinst := s.noinst + gap }

end PipelineStats

structure StallAttr where
  lastTick : Nat := 0
  resetTick : Nat := 0
  cause : StallCause := .noInst
  inBrRecovery : Bool := false
  deriving DecidableEq, Repr

/-- The members `stats` and `stall_` of the core. -/
structure Account where
  stats : PipelineStats := {}
  stall : StallAttr := {}
  /-- ghost: the values of `insts` cleared by resets, summed -/
  instsCleared : Nat := 0
  deriving DecidableEq, Repr

namespace Account

def flushStallCycles (til : Nat) (a : Account) : Account :=
  if til ≤ a.stall.lastTick then a
  else
    let gap := til - a.stall.lastTick
    let cause :=
      if a.stall.inBrRecovery && a.stall.cause != .noStall then .brMispred else a.stall.cause
    { a with stats := a.stats.charge cause gap, stall := { a.stall with lastTick := til } }

def setStall (now : Nat) (newCause : StallCause) (a : Account) : Account :=
  let newCause :=
    if a.stall.inBrRecovery && newCause != .noStall then .brMispred else newCause
  if newCause = a.stall.cause then a
  else
    let a := a.flushStallCycles now
    { a with stall := { a.stall with cause := newCause } }

/-- `set_stall` under a condition. -/
def setStallIf (b : Bool) (now : Nat) (newCause : StallCause) (a : Account) : Account :=
  if b then a.setStall now newCause else a

/-- The branch recovery entered by a flush at Execute. -/
def enterRecovery (now : Nat) (a : Account) : Account :=
  let a := a.flushStallCycles now
  { a with stall := { a.stall with inBrRecovery := true } }

/-- The bookkeeping of a commit in `do_writeback`; `cause` is the attribution that follows. -/
def commit (now : Nat) (cause : StallCause) (a : Account) : Account :=
  let a := a.flushStallCycles now
  let stall := { a.stall with lastTick := now + 1, inBrRecovery := false, cause := cause }
  { a with
    stats := { a.stats with
      nostall := a.stats.nostall + 1
      insts := a.stats.insts + 1
      cycles := now - stall.resetTick }
    stall := stall }

def resetStats (now : Nat) (a : Account) : Account :=
  { stats := a.stats.reset
    stall := { lastTick := now, resetTick := now, cause := .noInst, inBrRecovery := false }
    instsCleared := a.instsCleared + a.stats.insts }

/-- `insts`, counted without the resets. -/
def totalInsts (a : Account) : Nat := a.instsCleared + a.stats.insts

/-- `b` is `a` with the ticks from its frontier to a later one, not past `now`, charged to some
category. -/
structure Charges (now : Nat) (a b : Account) : Prop where
  reset : b.stall.resetTick = a.stall.resetTick
  moved : b.stall.lastTick = a.stall.lastTick ∨
    a.stall.lastTick ≤ b.stall.lastTick ∧ b.stall.lastTick ≤ now
  charged : b.stats.breakdown + a.stall.lastTick = a.stats.breakdown + b.stall.lastTick
  insts : b.stats.insts = a.stats.insts
  cycles : b.stats.cycles = a.stats.cycles
  cleared : b.instsCleared = a.instsCleared

theorem Charges.refl (now : Nat) (a : Account) : a.Charges now a :=
  ⟨rfl, .inl rfl, rfl, rfl, rfl, rfl⟩

theorem Charges.trans {now : Nat} {a b d : Account} (h : a.Charges now b) (h' : b.Charges now d) :
    a.Charges now d := by
  have hm := h.moved
  have hm' := h'.moved
  have hc := h.charged
  have hc' := h'.charged
  exact ⟨h'.reset.trans h.reset, by omega, by omega, h'.insts.trans h.insts,
    h'.cycles.trans h.cycles, h'.cleared.trans h.cleared⟩

private theorem charge_breakdown (cause : StallCause) (gap : Nat) (s : PipelineStats) :
    (s.charge cause gap).breakdown = s.breakdown + gap := by
  cases cause <;> simp only [PipelineStats.charge, PipelineStats.breakdown] <;> omega

private theorem charge_insts (cause : StallCause) (gap : Nat) (s : PipelineStats) :
    (s.charge cause gap).insts = s.insts ∧ (s.charge cause gap).cycles = s.cycles := by
  cases cause <;> exact ⟨rfl, rfl⟩

theorem charges_flush (now : Nat) (a : Account) : a.Charges now (a.flushStallCycles now) := by
  unfold flushStallCycles
  split
  · exact Charges.refl now a
  · rename_i hlt
    refine ⟨rfl, .inr ⟨?_, le_refl now⟩, ?_, (charge_insts ..).1, (charge_insts ..).2, rfl⟩
    · change a.stall.lastTick ≤ now
      omega
    · change (a.stats.charge _ _).breakdown + a.stall.lastTick = a.stats.breakdown + now
      rw [charge_breakdown]
      omega

theorem charges_setStall (now : Nat) (cause : StallCause) (a : Account) :
    a.Charges now (a.setStall now cause) := by
  unfold setStall
  dsimp only
  generalize (if a.stall.inBrRecovery && cause != .noStall then StallCause.brMispred else cause)
    = newCause
  split
  · exact Charges.refl now a
  · exact (charges_flush now a).trans ⟨rfl, .inl rfl, rfl, rfl, rfl, rfl⟩

theorem charges_setStallIf (b : Bool) (now : Nat) (cause : StallCause) (a : Account) :
    a.Charges now (a.setStallIf b now cause) := by
  cases b with
  | false => exact Charges.refl now a
  | true => exact charges_setStall now cause a

theorem charges_enterRecovery (now : Nat) (a : Account) :
    a.Charges now (a.enterRecovery now) :=
  (charges_flush now a).trans ⟨rfl, .inl rfl, rfl, rfl, rfl, rfl⟩

end Account

end NpSim.Pipe
