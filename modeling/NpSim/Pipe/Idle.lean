/- digest: Updates of the core that find no work: they leave everything but the tick of the next
   update as it was. -/

import NpSim.Pipe.Twins

set_option autoImplicit false
set_option relaxedAutoImplicit false

namespace NpSim.Pipe

open NpSim.Lib.Partial NpSim.Lib.Pairs NpSim.Branch

variable {K : PipelineParams} {p q : Prop} {now : Nat}

theorem Ledger.Agree.trans {s t u : Ledger K} (h : s.Agree p q t) (h' : t.Agree p q u) :
    s.Agree p q u where
  bpu := h.bpu.trans h'.bpu
  counted hp := ⟨(h.counted hp).1.trans (h'.counted hp).1, (h.counted hp).2.trans (h'.counted hp).2⟩
  wake hq := (h.wake hq).trans (h'.wake hq)
  commits := h.commits.trans h'.commits

namespace Pipeline

variable {c d e : Pipeline K}

theorem Twin.trans (h : Twin p q c d) (h' : Twin p q d e) : Twin p q c e := by
  cases h with
  | mk t ht =>
    cases h' with
    | mk u hu => exact .mk u (ht.trans hu)

/-- Stage `i` takes its instructions from Decode, and not the one that is there. -/
def passesBy (c : Pipeline K) (i : PipeStage) : Bool :=
  match c.simPipe .decode with
  | none => false
  | some x =>
    let op := x.traceInst.extOp
    match i with
    | .execute => decide (op ≠ Trace.ExtNone)
    | .intMulExt => decide ¬(op = Trace.IntMulH ∨ op = Trace.IntMulL)
    | .intDivExt => decide ¬(op = Trace.IntDiv ∨ op = Trace.IntRem)
    | _ => false

/-- The core has no work at `now`: no stage is due that would take an instruction, no redirect holds
the front end off, it has nothing to fetch or no room for it, and the port of the target buffer is
not marked. -/
structure Idle (now : Nat) (imemReady : Bool) (c : Pipeline K) : Prop where
  stages : ∀ i, c.stageDue now i → c.stageUpdate .decode ≤ now ∧ c.passesBy i = true
  resumed : c.fetch.resumeTick ≤ now
  early : imemReady = true → c.fetch.earlyRedirRemaining = 0
  wrong : imemReady = true → c.fetch.wrongPath = true → c.fetch.wpFlushed = false ∧ c.ifqFull = true
  real : imemReady = true → c.fetch.wrongPath = false → c.ifqFull = true ∨ c.inputBuffer = none
  port : K.branch.btb.hasRwConflict = true → c.bpu.Unmarked

instance (now : Nat) (ready : Bool) (c : Pipeline K) : Decidable (c.Idle now ready) :=
  decidable_of_iff ((∀ i ∈ PipeStage.reverseOrder, c.stageDue now i →
      c.stageUpdate .decode ≤ now ∧ c.passesBy i = true) ∧ c.fetch.resumeTick ≤ now ∧
      (ready = true → c.fetch.earlyRedirRemaining = 0) ∧
      (ready = true → c.fetch.wrongPath = true → c.fetch.wpFlushed = false ∧ c.ifqFull = true) ∧
      (ready = true → c.fetch.wrongPath = false → c.ifqFull = true ∨ c.inputBuffer = none) ∧
      (K.branch.btb.hasRwConflict = true →
        c.bpu.btbWrittenThisTick = false ∧ c.bpu.bypassValid = false)) (by
    constructor
    · rintro ⟨hs, hr, he, hw, hf, hp⟩
      exact ⟨fun i => hs i (by cases i <;> decide), hr, he, hw, hf, hp⟩
    · rintro ⟨hs, hr, he, hw, hf, hp⟩
      exact ⟨fun i _ => hs i, hr, he, hw, hf, hp⟩)

private theorem doFetch0_idle {ready : Bool} (h : c.Idle now ready) : c.doFetch0 now ready = c := by
  unfold doFetch0
  rw [if_neg (Nat.not_lt.mpr h.resumed)]
  cases ready with
  | false => rfl
  | true =>
    rw [if_neg (by decide), if_neg (by rw [h.early rfl]; exact lt_irrefl 0)]
    cases hw : c.fetch.wrongPath with
    | true =>
      obtain ⟨hf, hfull⟩ := h.wrong rfl hw
      rw [hf, if_pos (by decide), if_pos hfull]
    | false =>
      have he : c.endWrongPath = c := if_neg (by rw [hw]; decide)
      rw [Bool.false_and, if_neg Bool.false_ne_true, he]
      rcases h.real rfl hw with hfull | hnone
      · exact if_pos hfull
      · dsimp only
        rw [hnone]
        exact ite_self c

theorem runStage_idle {ports : Ports} {i : PipeStage}
    (h : c.stageDue now i → c.stageUpdate .decode ≤ now ∧ c.passesBy i = true) :
    runStage now ports c i = .ok c := by
  by_cases hdue : c.stageDue now i
  · obtain ⟨hdecode, hi⟩ := h hdue
    unfold passesBy at hi
    unfold runStage
    rw [if_pos hdue]
    cases hx : c.simPipe .decode with
    | none =>
      rw [hx] at hi
      cases hi
    | some x =>
      rw [hx] at hi
      cases i with
      | execute =>
        change doExecute now c = _
        unfold doExecute
        rw [require_of hdecode, hx]
        exact if_pos (of_decide_eq_true hi)
      | intMulExt =>
        change doMulExt now c = _
        unfold doMulExt
        rw [require_of hdecode, hx]
        exact if_pos (of_decide_eq_true hi)
      | intDivExt =>
        change doDivExt now c = _
        unfold doDivExt
        rw [require_of hdecode, hx]
        exact if_pos (of_decide_eq_true hi)
      | fetch => cases hi
      | decode => cases hi
      | memory => cases hi
      | writeBack => cases hi
  · exact if_neg hdue

private theorem runStages_idle (ports : Ports)
    (h : ∀ i, c.stageDue now i → c.stageUpdate .decode ≤ now ∧ c.passesBy i = true)
    (l : List PipeStage) : l.foldlM (runStage now ports) c = .ok c := by
  induction l with
  | nil => rfl
  | cons i l ih =>
    rw [List.foldlM_cons, runStage_idle (h i)]
    exact ih

theorem updateImpl_idle {ports : Ports} (h : c.Idle now ports.imem) :
    Both (Twin p False) (.ok c) (c.updateImpl now ports) := by
  have hstages := runStages_idle (c := { c with bpu := c.bpu.beginTick }) ports h.stages
    PipeStage.reverseOrder
  have hfront := doFetch0_idle (c := { c with bpu := c.bpu.beginTick })
    ⟨h.stages, h.resumed, h.early, h.wrong, h.real, fun hc => ⟨rfl, (h.port hc).1⟩⟩
  have hupdate : c.updateImpl now ports =
      .ok (calcSched now { c with bpu := c.bpu.beginTick }) := by
    unfold updateImpl
    dsimp only
    rw [hstages]
    exact congrArg (fun d => Except.ok (calcSched now d)) hfront
  rw [hupdate]
  exact .mk { c.ledger with bpu := c.bpu.beginTick, calcNxtupd := _ }
    ⟨BranchUnit.beginTick_alike h.port, fun _ => ⟨rfl, rfl⟩, False.elim, rfl⟩

end Pipeline

end NpSim.Pipe
