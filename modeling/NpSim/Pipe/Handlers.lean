/- digest: What each handler of the core does: one inversion theorem per handler. -/

import NpSim.Pipe.Pipeline

set_option autoImplicit false
set_option relaxedAutoImplicit false

namespace NpSim.Pipe.Pipeline

open NpSim.Lib.Partial NpSim.Branch

variable {K : PipelineParams} {now : Nat} {c c' : Pipeline K}

theorem schedule_eq_ok {i : PipeStage} {w : Tick} :
    c.schedule now i w = .ok c' ↔
      (now : Tick) ≤ w ∧ c' = { c with stageUpdate := Function.update c.stageUpdate i w } := by
  unfold schedule
  rw [require_bind_eq_ok]
  simp only [Except.ok.injEq, eq_comm]

theorem asyncSchedule_eq_ok {i : PipeStage} {w : Tick} :
    c.asyncSchedule now i w = .ok c' ↔
      (now : Tick) ≤ w ∧ c' = { c with
        stageUpdate := Function.update c.stageUpdate i w, calcNxtupd := min c.calcNxtupd w } := by
  unfold asyncSchedule
  rw [bind_eq_ok]
  constructor
  · rintro ⟨d, hd, h⟩
    obtain ⟨hw, rfl⟩ := schedule_eq_ok.mp hd
    cases h
    exact ⟨hw, rfl⟩
  · rintro ⟨hw, rfl⟩
    exact ⟨_, schedule_eq_ok.mpr ⟨hw, rfl⟩, rfl⟩

/-- `reg_ready_` after a write for `r`: register zero is never written. -/
def putReg (g : Nat → Tick) (r : Nat) (w : Tick) : Nat → Tick :=
  if r = 0 then g else Function.update g r w

theorem setReg_eq_ok {r : Nat} {w : Tick} :
    c.setReg r w = .ok c' ↔
      (r = 0 ∨ r < 32) ∧ c' = { c with regReady := putReg c.regReady r w } := by
  unfold setReg putReg
  by_cases h : r = 0
  · simp only [h, if_true, true_or, true_and]
    exact ⟨fun e => (Except.ok.inj e).symm, fun e => congrArg Except.ok e.symm⟩
  · simp only [h, if_false, false_or]
    rw [require_bind_eq_ok]
    simp only [Except.ok.injEq, eq_comm]

theorem srcReady_eq_ok {inst : TraceInst} {w : Tick} :
    c.srcReady inst = .ok w ↔ (inst.srcReg0 < 32 ∧ inst.srcReg1 < 32) ∧
      w = max (c.regReady inst.srcReg0) (c.regReady inst.srcReg1) := by
  unfold srcReady regAt
  by_cases h0 : inst.srcReg0 < 32 <;> by_cases h1 : inst.srcReg1 < 32 <;>
    simp [h0, h1, Bind.bind, Except.bind, eq_comm]

/-- `stage_update_` after `update_reg_time` has retried a parked Decode against the register times
`g`. -/
def retried (now : Nat) (c : Pipeline K) (g : Nat → Tick) : PipeStage → Tick :=
  match c.simPipe .fetch with
  | none => c.stageUpdate
  | some ids =>
    if c.stageUpdate .decode = infTime ∧
        (ids.traceInst.srcReg0 ≠ 0 ∨ ids.traceInst.srcReg1 ≠ 0) then
      Function.update c.stageUpdate .decode
        (max (max (g ids.traceInst.srcReg0) (g ids.traceInst.srcReg1)) ((now + 1 : Nat) : Tick))
    else c.stageUpdate

private theorem retryDecode_ok (h : c.retryDecode now = .ok c') :
    c' = { c with stageUpdate := c.retried now c.regReady } := by
  unfold retryDecode at h
  unfold retried
  cases hf : c.simPipe .fetch with
  | none =>
    simp only [hf, Except.ok.injEq] at h
    exact h.symm
  | some ids =>
    simp only [hf] at h ⊢
    split at h
    · rename_i hp
      rw [if_pos hp]
      obtain ⟨w, hw, h⟩ := bind_eq_ok.mp h
      obtain ⟨_, rfl⟩ := srcReady_eq_ok.mp hw
      split at h
      · rename_i hle
        obtain ⟨_, rfl⟩ := schedule_eq_ok.mp h
        rw [max_eq_right (hle.trans (by exact_mod_cast Nat.le_succ now))]
      · rename_i hgt
        obtain ⟨_, rfl⟩ := schedule_eq_ok.mp h
        have hlt := not_le.mp hgt
        have hle : ((now + 1 : Nat) : Tick) ≤
            max (c.regReady ids.traceInst.srcReg0) (c.regReady ids.traceInst.srcReg1) := by
          push_cast
          exact Order.add_one_le_of_lt hlt
        rw [max_eq_left hle]
    · rename_i hp
      cases h
      rw [if_neg hp]

theorem updateRegTime_ok {rd : Nat} {w : Tick} (h : c.updateRegTime now rd w = .ok c') :
    (rd = 0 ∨ rd < 32) ∧ c' = { c with
      regReady := putReg c.regReady rd w
      stageUpdate := c.retried now (putReg c.regReady rd w) } := by
  unfold updateRegTime at h
  obtain ⟨d, hd, h⟩ := bind_eq_ok.mp h
  obtain ⟨hr, rfl⟩ := setReg_eq_ok.mp hd
  obtain ⟨e, he, h⟩ := bind_eq_ok.mp h
  have := retryDecode_ok he
  subst this
  obtain ⟨_, h⟩ := require_bind_eq_ok.mp h
  cases h
  exact ⟨hr, rfl⟩

/-- What a fetch of `x` pushes on the queue: the predictor decides the prediction, and a record
that is no branch is not mispredicted. -/
structure Fetched (x y : Transaction) : Prop where
  same : ∃ hold pred miss, y = { x with
    waitMem := true, bpMetaHold := hold, brPred := pred, brMispred := miss }
  plain : x.traceInst.isBranch = false → y.brMispred = false ∧ y.brPred.predTarget = 0

theorem fetchStateAfter_spec (now : Nat) (inst : TraceInst) (pred : BranchResult) (ok : Bool)
    (f : FetchState) :
    (fetchStateAfter now inst pred ok f).respIsOrphan = f.respIsOrphan ++ [false] ∧
      (fetchStateAfter now inst pred ok f).wrongPath = (f.wrongPath || !ok) ∧
      (fetchStateAfter now inst pred ok f).wpFlushed = f.wpFlushed := by
  unfold fetchStateAfter
  cases ok <;> cases pred.tageOverrodeBimodal <;> cases pred.willRedirect <;> simp

private theorem acctAfterFetch_charges (pred : BranchResult) (ok : Bool) (a : Account) :
    a.Charges now (acctAfterFetch now pred ok a) := by
  unfold acctAfterFetch
  cases ok with
  | false => exact Account.charges_flush now a
  | true =>
    cases pred.willRedirect with
    | false => exact Account.Charges.refl now a
    | true => exact ⟨rfl, .inl rfl, rfl, rfl, rfl, rfl⟩

theorem judgeFetch_plain {inst : TraceInst} (u : BranchUnit K.branch)
    (h : inst.isBranch = false) :
    (judgeFetch inst u).1 = {} ∧ (judgeFetch inst u).2.1 = true := by
  simp [judgeFetch, h, BranchUnit.predictAtFetch, BranchUnit.judge, BranchUnit.accurate]

theorem fetchReal_eq (now : Nat) (x : Transaction) (c : Pipeline K) :
    ∃ y b a f ps n, c.fetchReal now x = { c with
        inputBuffer := none, bpu := b, acct := a, fetch := f, predictions := ps, predicted := n
        events := c.events ++ [.take now y c.bpu]
        calls := c.calls ++ [.fetch x.traceInst.pc], fetchQueue := c.fetchQueue ++ [y] } ∧
      Fetched x y ∧ c.acct.Charges now a ∧
      f.respIsOrphan = c.fetch.respIsOrphan ++ [false] ∧
      f.wrongPath = (c.fetch.wrongPath || y.brMispred) ∧
      f.wpFlushed = c.fetch.wpFlushed := by
  let r := judgeFetch x.traceInst c.bpu
  let y := { x with
    waitMem := true, bpMetaHold := metaHold x c.bpu, brPred := r.1, brMispred := !r.2.1 }
  refine ⟨y, r.2.2, acctAfterFetch now r.1 r.2.1 c.acct,
    fetchStateAfter now x.traceInst r.1 r.2.1 c.fetch, _, _, rfl, ⟨⟨_, _, _, rfl⟩, ?_⟩,
    acctAfterFetch_charges .., fetchStateAfter_spec _ ..⟩
  intro hb
  obtain ⟨hp, hok⟩ := judgeFetch_plain c.bpu hb
  exact ⟨by simp [y, r, hok], by simp [y, r, hp]⟩

private theorem stepRedirect_fetch (pred : BranchResult) (f : FetchState) (s : PipelineStats) :
    (stepRedirect pred f s).1.respIsOrphan = f.respIsOrphan ∧
      (stepRedirect pred f s).1.wrongPath = f.wrongPath ∧
      (stepRedirect pred f s).1.wpFlushed = f.wpFlushed ∧
      (stepRedirect pred f s).1.resumeTick = f.resumeTick ∧
      (stepRedirect pred f s).1.earlyRedirRemaining = f.earlyRedirRemaining := by
  unfold stepRedirect
  cases h2 : f.wpRedirectS2 <;> cases h1 : f.wpRedirectS1 <;> cases pred.willRedirect <;>
    simp

private theorem stepRedirect_stats (pred : BranchResult) (f : FetchState) (s : PipelineStats) :
    (stepRedirect pred f s).2.breakdown = s.breakdown ∧
      (stepRedirect pred f s).2.insts = s.insts ∧
      (stepRedirect pred f s).2.cycles = s.cycles := by
  unfold stepRedirect
  cases h2 : f.wpRedirectS2 <;> cases h1 : f.wpRedirectS1 <;> cases pred.willRedirect <;>
    simp [PipelineStats.breakdown]

theorem fetchWrongPath_eq (now : Nat) (c : Pipeline K) :
    ∃ b a f, c.fetchWrongPath now = { c with
        bpu := b, acct := a, fetch := f, predicted := c.predicted + 1
        events := c.events ++ [.wrong now c.fetch.wrongPathPc c.bpu]
        calls := c.calls ++ [.fetch c.fetch.wrongPathPc]
        fetchQueue := c.fetchQueue ++ [Transaction.wrongPath c.fetch.wrongPathPc] } ∧
      c.acct.Charges now a ∧
      f.respIsOrphan = c.fetch.respIsOrphan ++ [false] ∧
      f.wrongPath = c.fetch.wrongPath ∧ f.wpFlushed = c.fetch.wpFlushed ∧
      f.resumeTick = c.fetch.resumeTick ∧
      f.earlyRedirRemaining = c.fetch.earlyRedirRemaining := by
  let pred := (c.bpu.predict c.fetch.wrongPathPc).1
  let f := { c.fetch with respIsOrphan := c.fetch.respIsOrphan ++ [false] }
  let s := { c.acct.stats with wpBpuQueries := c.acct.stats.wpBpuQueries + 1 }
  obtain ⟨hb, hi, hc⟩ := stepRedirect_stats pred f s
  refine ⟨(c.bpu.predict c.fetch.wrongPathPc).2,
    { c.acct with stats := (stepRedirect pred f s).2 }, (stepRedirect pred f s).1, rfl,
    ⟨rfl, .inl rfl, ?_, hi, hc, rfl⟩, stepRedirect_fetch pred f s⟩
  change (stepRedirect pred f s).2.breakdown + _ = _
  rw [hb]
  rfl

/-- The five things `do_fetch_0` does: hold off, nothing, an early-redirect fetch, a wrong-path
fetch, or the end of a flushed wrong path and the fetch of the buffered instruction. -/
theorem doFetch0_cases (now : Nat) (ready : Bool) (c : Pipeline K) :
    (now < c.fetch.resumeTick ∧
      c.doFetch0 now ready = { c with acct := c.acct.setStall now .brMispred }) ∨
    (c.fetch.resumeTick ≤ now ∧ c.doFetch0 now ready = c ∧
      (ready = false ∨ c.fetch.earlyRedirRemaining = 0 ∧ c.fetch.wrongPath = true ∧
        c.fetch.wpFlushed = false ∧ c.ifqFull = true)) ∨
    (c.fetch.resumeTick ≤ now ∧ ready = true ∧ 0 < c.fetch.earlyRedirRemaining ∧
      c.doFetch0 now ready = c.fetchEarlyRedir) ∨
    (c.fetch.resumeTick ≤ now ∧ ready = true ∧ c.fetch.earlyRedirRemaining = 0 ∧
      c.fetch.wrongPath = true ∧ c.fetch.wpFlushed = false ∧ c.ifqFull = false ∧
      c.doFetch0 now ready = c.fetchWrongPath now) ∨
    (c.fetch.resumeTick ≤ now ∧ ready = true ∧ c.fetch.earlyRedirRemaining = 0 ∧
      (c.fetch.wrongPath = false ∨ c.fetch.wpFlushed = true) ∧
      ((c.ifqFull = true ∨ c.inputBuffer = none) ∧ c.doFetch0 now ready = c.endWrongPath ∨
        ∃ x, c.inputBuffer = some x ∧ c.ifqFull = false ∧
          c.doFetch0 now ready = c.endWrongPath.fetchReal now x)) := by
  unfold doFetch0
  by_cases hr : now < c.fetch.resumeTick
  · exact .inl ⟨hr, if_pos hr⟩
  rw [if_neg hr]
  have hr := not_lt.mp hr
  cases ready with
  | false => exact .inr (.inl ⟨hr, rfl, .inl rfl⟩)
  | true =>
    by_cases he : 0 < c.fetch.earlyRedirRemaining
    · exact .inr (.inr (.inl ⟨hr, rfl, he, by simp [he]⟩))
    have he0 : c.fetch.earlyRedirRemaining = 0 := by omega
    have hfull : c.endWrongPath.ifqFull = c.ifqFull := by
      unfold endWrongPath ifqFull
      split <;> rfl
    have hin : c.endWrongPath.inputBuffer = c.inputBuffer := by
      unfold endWrongPath
      split <;> rfl
    by_cases hw : c.fetch.wrongPath = true ∧ c.fetch.wpFlushed = false
    · cases hq : c.ifqFull with
      | true => exact .inr (.inl ⟨hr, by simp [he, hw.1, hw.2], .inr ⟨he0, hw.1, hw.2, rfl⟩⟩)
      | false =>
        exact .inr (.inr (.inr (.inl ⟨hr, rfl, he0, hw.1, hw.2, rfl, by simp [he, hw.1, hw.2]⟩)))
    · have hw' : c.fetch.wrongPath = false ∨ c.fetch.wpFlushed = true := by
        cases h1 : c.fetch.wrongPath <;> cases h2 : c.fetch.wpFlushed <;> simp_all
      have hwb : (c.fetch.wrongPath && !c.fetch.wpFlushed) = false := by
        rcases hw' with h | h <;> simp [h]
      refine .inr (.inr (.inr (.inr ⟨hr, rfl, he0, hw', ?_⟩)))
      simp only [Bool.not_true, Bool.false_eq_true, if_false, he, hwb, hfull, hin]
      cases hq : c.ifqFull with
      | true => exact .inl ⟨.inl rfl, rfl⟩
      | false =>
        cases hb : c.inputBuffer with
        | none => exact .inl ⟨.inr rfl, rfl⟩
        | some x => exact .inr ⟨x, rfl, rfl, rfl⟩

theorem doFetch1_cases (h : c.doFetch1 now = .ok c') :
    ((c.fetchQueue = [] ∨ ∃ p rest, c.fetchQueue = p :: rest ∧ p.waitMem = true) ∧
      c' = { c with stageUpdate := Function.update c.stageUpdate .fetch infTime }) ∨
    (∃ p rest, c.fetchQueue = p :: rest ∧ p.waitMem = false ∧ 0 < p.bpMetaHold ∧
      c' = { c with
        fetchQueue := { p with bpMetaHold := p.bpMetaHold - 1 } :: rest
        stageUpdate := Function.update c.stageUpdate .fetch ((now + 1 : Nat) : Tick) }) ∨
    (∃ p rest, c.fetchQueue = p :: rest ∧ p.waitMem = false ∧ p.bpMetaHold = 0 ∧
      c.simPipe .fetch = none ∧
      c' = { c with
        fetchQueue := rest, simPipe := Function.update c.simPipe .fetch (some p) }) := by
  unfold doFetch1 at h
  cases hq : c.fetchQueue with
  | nil =>
    simp only [hq] at h
    exact .inl ⟨.inl rfl, by rw [(schedule_eq_ok.mp h).2, hq]⟩
  | cons p rest =>
    simp only [hq] at h
    rcases Bool.eq_false_or_eq_true p.waitMem with hw | hw
    · simp only [hw, if_true] at h
      exact .inl ⟨.inr ⟨p, rest, rfl, hw⟩, by rw [(schedule_eq_ok.mp h).2, hq]⟩
    · simp only [hw, Bool.false_eq_true, if_false] at h
      split at h
      · rename_i hh
        exact .inr (.inl ⟨p, rest, rfl, hw, hh, by rw [(schedule_eq_ok.mp h).2, hw]⟩)
      · rename_i hh
        obtain ⟨hf, h⟩ := require_bind_eq_ok.mp h
        cases h
        exact .inr (.inr ⟨p, rest, rfl, hw, by omega, hf, rfl⟩)

theorem handleIfuResp_cases (h : c.handleIfuResp now = .ok c') :
    ∃ b rest, c.fetch.respIsOrphan = b :: rest ∧
      ((b = true ∧ c' = { c with fetch := { c.fetch with respIsOrphan := rest } }) ∨
        ∃ q, b = false ∧ answerFirst c.fetchQueue = some q ∧
          c' = { c with
            fetch := { c.fetch with respIsOrphan := rest }
            fetchQueue := q
            stageUpdate := Function.update c.stageUpdate .fetch ((now + 1 : Nat) : Tick)
            calcNxtupd := min c.calcNxtupd ((now + 1 : Nat) : Tick) }) := by
  unfold handleIfuResp at h
  cases ho : c.fetch.respIsOrphan with
  | nil =>
    simp only [ho] at h
    cases h
  | cons b rest =>
    simp only [ho] at h
    refine ⟨b, rest, rfl, ?_⟩
    cases b with
    | true =>
      cases h
      exact .inl ⟨rfl, rfl⟩
    | false =>
      simp only [Bool.false_eq_true, if_false] at h
      cases hq : answerFirst c.fetchQueue with
      | none =>
        simp only [hq] at h
        cases h
      | some q =>
        simp only [hq] at h
        exact .inr ⟨q, rfl, rfl, (asyncSchedule_eq_ok.mp h).2⟩

/-- Why `do_decode` keeps the instruction `x` until `w`: the M-extension scoreboard, a source that
is not ready, or a write-after-write hazard with an M-extension unit. -/
inductive DecodeStall (now : Nat) (c : Pipeline K) (x : Transaction) (w : Tick) : Prop
  | scoreboard (ext : x.traceInst.extOp ≠ Trace.ExtNone)
      (busy : (c.simPipe .intMulExt).isSome = true ∨ (c.simPipe .intDivExt).isSome = true)
      (till : w = c.mextReady now)
  | source (till : w = max (c.regReady x.traceInst.srcReg0) (c.regReady x.traceInst.srcReg1))
      (late : (now : Tick) < w)
  | waw (dst : x.traceInst.dstReg ≠ 0)
      (busy : c.hasMextWaw x.traceInst.dstReg .intMulExt = true ∨
        c.hasMextWaw x.traceInst.dstReg .intDivExt = true)
      (ready : max (c.regReady x.traceInst.srcReg0) (c.regReady x.traceInst.srcReg1) ≤ now)
      (till : w = if c.regReady x.traceInst.dstReg ≤ now then ((now + 1 : Nat) : Tick)
        else c.regReady x.traceInst.dstReg)

/-- What lets `x` pass `do_decode`. -/
structure DecodePass (now : Nat) (c : Pipeline K) (x : Transaction) : Prop where
  real : x.isWrongPath = false
  src : x.traceInst.srcReg0 < 32 ∧ x.traceInst.srcReg1 < 32
  dst : x.traceInst.dstReg = 0 ∨ x.traceInst.dstReg < 32
  ready : max (c.regReady x.traceInst.srcReg0) (c.regReady x.traceInst.srcReg1) ≤ now
  scoreboard : x.traceInst.extOp = Trace.ExtNone ∨
    c.simPipe .intMulExt = none ∧ c.simPipe .intDivExt = none
  waw : x.traceInst.dstReg = 0 ∨ c.hasMextWaw x.traceInst.dstReg .intMulExt = false ∧
    c.hasMextWaw x.traceInst.dstReg .intDivExt = false

private theorem stallDecode_ok {w : Tick} (h : c.stallDecode now w = .ok c') :
    ∃ a, c.acct.Charges now a ∧ (now : Tick) ≤ w ∧ c' = { c with
      acct := a, stageUpdate := Function.update c.stageUpdate .decode w } := by
  unfold stallDecode at h
  obtain ⟨hw, rfl⟩ := schedule_eq_ok.mp h
  exact ⟨_, Account.charges_setStallIf .., hw, rfl⟩

private theorem passDecode_ok {x : Transaction} (h : c.passDecode now x = .ok c') :
    (x.traceInst.dstReg = 0 ∨ x.traceInst.dstReg < 32) ∧
    ∃ a, c.acct.Charges now a ∧ c' = { c with
      acct := a
      stageUpdate := Function.update c.stageUpdate .decode ((now + 1 : Nat) : Tick)
      regReady := putReg c.regReady x.traceInst.dstReg infTime
      passes := c.passes ++ [⟨x, now, c.issued⟩]
      simPipe := Function.update (Function.update c.simPipe .fetch none) .decode (some x) } := by
  unfold passDecode at h
  obtain ⟨d, hd, h⟩ := bind_eq_ok.mp h
  obtain ⟨_, rfl⟩ := schedule_eq_ok.mp hd
  obtain ⟨e, he, h⟩ := bind_eq_ok.mp h
  obtain ⟨hr, rfl⟩ := setReg_eq_ok.mp he
  cases h
  exact ⟨hr, _, Account.charges_setStallIf .., rfl⟩

/-- `do_decode` drops a placeholder, keeps the instruction, or passes it on. -/
theorem doDecode_cases (h : c.doDecode now = .ok c') :
    ∃ x a, c.simPipe .fetch = some x ∧ c.acct.Charges now a ∧
      ((x.isWrongPath = true ∧ c' = { c with
          acct := a
          simPipe := Function.update c.simPipe .fetch none
          stageUpdate := Function.update c.stageUpdate .decode ((now + 1 : Nat) : Tick) }) ∨
        (∃ w, x.isWrongPath = false ∧ DecodeStall now c x w ∧ (now : Tick) ≤ w ∧ c' = { c with
          acct := a, stageUpdate := Function.update c.stageUpdate .decode w }) ∨
        (DecodePass now c x ∧ c' = { c with
          acct := a
          stageUpdate := Function.update c.stageUpdate .decode ((now + 1 : Nat) : Tick)
          regReady := putReg c.regReady x.traceInst.dstReg infTime
          passes := c.passes ++ [⟨x, now, c.issued⟩]
          simPipe := Function.update (Function.update c.simPipe .fetch none) .decode
            (some x) })) := by
  unfold doDecode at h
  rcases hf : c.simPipe .fetch with _ | x
  · simp only [hf] at h
    cases h
  simp only [hf] at h
  refine ⟨x, ?_⟩
  rcases Bool.eq_false_or_eq_true x.isWrongPath with hw | hw
  · rw [if_pos hw] at h
    exact ⟨_, rfl, Account.charges_setStallIf .., .inl ⟨hw, (schedule_eq_ok.mp h).2⟩⟩
  rw [if_neg (by simp [hw])] at h
  split at h
  · rename_i hs
    obtain ⟨a, ha, hle, hc⟩ := stallDecode_ok h
    exact ⟨a, rfl, ha, .inr (.inl ⟨_, hw,
      .scoreboard hs.1 (by simpa using hs.2) rfl, hle, hc⟩)⟩
  rename_i hs
  obtain ⟨w, hw', h⟩ := bind_eq_ok.mp h
  obtain ⟨hsrc, rfl⟩ := srcReady_eq_ok.mp hw'
  split at h
  · rename_i hlt
    obtain ⟨a, ha, hle, hc⟩ := stallDecode_ok h
    exact ⟨a, rfl, ha, .inr (.inl ⟨_, hw, .source rfl hlt, hle, hc⟩)⟩
  rename_i hle
  have hle := not_lt.mp hle
  unfold decodeWaw at h
  dsimp only at h
  split at h
  · rename_i hd
    obtain ⟨v, hv, h⟩ := bind_eq_ok.mp h
    have hv : v = c.regReady x.traceInst.dstReg := by
      unfold regAt at hv
      split at hv
      · exact (Except.ok.inj hv).symm
      · cases hv
    subst hv
    obtain ⟨a, ha, hle', hc⟩ := stallDecode_ok h
    exact ⟨a, rfl, ha, .inr (.inl ⟨_, hw, .waw hd.1 (by simpa using hd.2) hle rfl, hle', hc⟩)⟩
  · rename_i hd
    obtain ⟨hdst, a, ha, hc⟩ := passDecode_ok h
    refine ⟨a, rfl, ha, .inr (.inr ⟨⟨hw, hsrc, hdst, hle, ?_, ?_⟩, hc⟩)⟩
    · by_cases he : x.traceInst.extOp = Trace.ExtNone
      · exact .inl he
      · exact .inr (by simpa [he] using hs)
    · by_cases he : x.traceInst.dstReg = 0
      · exact .inl he
      · exact .inr (by simpa [he] using hd)

/-- The front end is flushed when `b` holds. -/
def flushIf (b : Bool) (now : Nat) (c : Pipeline K) : Pipeline K :=
  if b then c.flushFrontEnd now else c

theorem flushIf_slot {s : PipeStage} (b : Bool) (hs : s ≠ .fetch) :
    (c.flushIf b now).simPipe s = c.simPipe s := by
  cases b with
  | false => rfl
  | true => exact Function.update_of_ne hs ..

theorem flushFalseBtbHit_eq (now : Nat) (x : Transaction) (c : Pipeline K) :
    ∃ b l, c.flushFalseBtbHit now x =
      { c with bpu := b, events := l }.flushIf (!x.traceInst.isBranch && x.brMispred) now := by
  unfold flushFalseBtbHit flushIf
  dsimp only
  rcases Bool.eq_false_or_eq_true x.traceInst.isBranch with hb | hb
  · exact ⟨c.bpu, c.events, by
      simp only [hb, if_true, Bool.not_true, Bool.false_and, Bool.false_eq_true, if_false]⟩
  · rcases Bool.eq_false_or_eq_true x.brMispred with hm | hm <;>
      rcases Bool.eq_false_or_eq_true (x.brPred.predTarget != 0) with ht | ht <;>
      simp only [hb, hm, ht, Bool.not_false, Bool.not_true, Bool.and_true, Bool.and_false,
        Bool.false_eq_true, if_true, if_false] <;>
      exact ⟨_, _, rfl⟩

theorem resolveBranch_eq (now : Nat) (x : Transaction) (c : Pipeline K) :
    ∃ b l, (c.resolveBranch now x).flushFalseBtbHit now x =
      { c with bpu := b, events := l }.flushIf x.brMispred now := by
  rcases Bool.eq_false_or_eq_true x.traceInst.isBranch with hb | hb
  · have hf : ∀ d : Pipeline K, d.flushFalseBtbHit now x = d := by
      intro d
      unfold flushFalseBtbHit
      exact if_pos hb
    rw [hf]
    unfold resolveBranch flushIf
    rw [if_pos hb]
    cases x.traceInst.brTaken <;> cases x.brMispred <;> exact ⟨_, _, rfl⟩
  · have hr : c.resolveBranch now x = c := by
      unfold resolveBranch
      exact if_neg (by simp [hb])
    rw [hr]
    obtain ⟨b, l, h⟩ := flushFalseBtbHit_eq now x c
    exact ⟨b, l, by rw [h, hb, Bool.not_false, Bool.true_and]⟩

/-- The tick at which the result of the instruction that executes at `now` is forwarded. -/
def forwardTick (now : Nat) (inst : TraceInst) : Tick :=
  if inst.isBranch ∧ inst.dstReg ≠ 0 then ((now + 2 : Nat) : Tick) else (now : Tick)

/-- `reg_ready_` after the instruction `inst` has executed at `now`. -/
def forwarded (now : Nat) (inst : TraceInst) (g : Nat → Tick) : Nat → Tick :=
  if inst.memOp = Trace.MemNone then putReg g inst.dstReg (forwardTick now inst) else g

theorem forward_ok {inst : TraceInst} (h : c.forward now inst = .ok c') :
    c' = { c with
      regReady := forwarded now inst c.regReady
      stageUpdate := if inst.memOp = Trace.MemNone then
          c.retried now (forwarded now inst c.regReady)
        else c.stageUpdate } := by
  unfold forward at h
  unfold forwarded forwardTick
  split at h
  · rename_i hm
    simp only [hm, if_true]
    split at h <;> rename_i hd
    · rw [if_pos hd]
      exact (updateRegTime_ok h).2
    · rw [if_neg hd]
      exact (updateRegTime_ok h).2
  · rename_i hm
    simp only [hm, if_false]
    cases h
    rfl

/-- `do_execute` leaves M-extension instructions alone and executes every other one, with a flush
when it was mispredicted. -/
theorem doExecute_cases (h : c.doExecute now = .ok c') :
    ∃ x, c.simPipe .decode = some x ∧ c.stageUpdate .decode ≤ now ∧
      ((x.traceInst.extOp ≠ Trace.ExtNone ∧ c' = c) ∨
        ∃ b l d, x.traceInst.extOp = Trace.ExtNone ∧
          d = ({ c with bpu := b, events := l } : Pipeline K).flushIf x.brMispred now ∧
          c' = { d with
            regReady := forwarded now x.traceInst d.regReady
            stageUpdate := Function.update (if x.traceInst.memOp = Trace.MemNone then
                d.retried now (forwarded now x.traceInst d.regReady)
              else d.stageUpdate) .execute ((now + 1 : Nat) : Tick)
            simPipe := Function.update (Function.update d.simPipe .decode none) .execute
              (some { x with execAt := now }) }) := by
  unfold doExecute at h
  obtain ⟨hdue, h⟩ := require_bind_eq_ok.mp h
  rcases hx : c.simPipe .decode with _ | x
  · simp only [hx] at h
    cases h
  simp only [hx] at h
  refine ⟨x, rfl, hdue, ?_⟩
  split at h
  · rename_i he
    cases h
    exact .inl ⟨he, rfl⟩
  · rename_i he
    obtain ⟨b, l, hb⟩ := resolveBranch_eq now x c
    rw [hb] at h
    obtain ⟨d, hd, h⟩ := bind_eq_ok.mp h
    have := forward_ok hd
    subst this
    exact .inr ⟨b, l, _, not_not.mp he, rfl, (schedule_eq_ok.mp h).2⟩

theorem issueMext_ok {s : PipeStage} {lat : Nat} {x : Transaction}
    (h : c.issueMext now s lat x = .ok c') :
    c' = { c with
      regReady := putReg c.regReady x.traceInst.dstReg ((now + lat : Nat) : Tick)
      stageUpdate := Function.update (Function.update
        (c.retried now (putReg c.regReady x.traceInst.dstReg ((now + lat : Nat) : Tick)))
        s ((now + lat : Nat) : Tick)) .writeBack ((now + lat : Nat) : Tick)
      calcNxtupd := min c.calcNxtupd ((now + lat : Nat) : Tick)
      simPipe := Function.update (Function.update c.simPipe .decode none) s
        (some { x with execAt := now }) } := by
  unfold issueMext at h
  dsimp only at h
  obtain ⟨d, hd, h⟩ := bind_eq_ok.mp h
  obtain ⟨_, rfl⟩ := updateRegTime_ok hd
  obtain ⟨e, he, h⟩ := bind_eq_ok.mp h
  obtain ⟨_, rfl⟩ := schedule_eq_ok.mp he
  obtain ⟨f, hf, h⟩ := bind_eq_ok.mp h
  obtain ⟨_, rfl⟩ := asyncSchedule_eq_ok.mp hf
  cases h
  rfl

/-- The unit an M-extension instruction is issued to, with its latency. -/
inductive MextUnit : PipeStage → Nat → Nat → Prop
  | mul {op : Nat} (h : op = Trace.IntMulH ∨ op = Trace.IntMulL) :
      MextUnit .intMulExt mulLat op
  | div {op : Nat} (h : op = Trace.IntDiv ∨ op = Trace.IntRem) :
      MextUnit .intDivExt divLat op

/-- `mul_ready_tick_` or `div_ready_tick_` after an issue to unit `s`. -/
def noteReady (s : PipeStage) (w : Nat) (c : Pipeline K) : Pipeline K :=
  { c with
    mulReadyTick := if s = .intMulExt then w else c.mulReadyTick
    divReadyTick := if s = .intDivExt then w else c.divReadyTick }

/-- The state after the issue of `x` to unit `s` of latency `lat`; the front end is flushed when a
record that is no branch was mispredicted. -/
def mextIssued (now : Nat) (s : PipeStage) (lat : Nat) (x : Transaction) (d : Pipeline K) :
    Pipeline K :=
  { d.noteReady s (now + lat) with
    regReady := putReg d.regReady x.traceInst.dstReg ((now + lat : Nat) : Tick)
    stageUpdate := Function.update (Function.update
      (d.retried now (putReg d.regReady x.traceInst.dstReg ((now + lat : Nat) : Tick)))
      s ((now + lat : Nat) : Tick)) .writeBack ((now + lat : Nat) : Tick)
    calcNxtupd := min d.calcNxtupd ((now + lat : Nat) : Tick)
    simPipe := Function.update (Function.update d.simPipe .decode none) s
      (some { x with execAt := now }) }

/-- What `do_mul_ext` and `do_div_ext` have in common. -/
def MextCases (now : Nat) (c c' : Pipeline K) (s : PipeStage) (lat : Nat) : Prop :=
  ∃ x, c.simPipe .decode = some x ∧ c.stageUpdate .decode ≤ now ∧
    ((¬MextUnit s lat x.traceInst.extOp ∧ c' = c) ∨
      ∃ b l d, MextUnit s lat x.traceInst.extOp ∧
        d = ({ c with bpu := b, events := l } : Pipeline K).flushIf
          (!x.traceInst.isBranch && x.brMispred) now ∧
        c' = mextIssued now s lat x d)

theorem doMulExt_cases (h : c.doMulExt now = .ok c') :
    MextCases now c c' .intMulExt mulLat := by
  unfold doMulExt at h
  obtain ⟨hdue, h⟩ := require_bind_eq_ok.mp h
  rcases hx : c.simPipe .decode with _ | x
  · simp only [hx] at h
    cases h
  simp only [hx] at h
  refine ⟨x, hx, hdue, ?_⟩
  split at h
  · rename_i he
    cases h
    exact .inl ⟨fun hu => by cases hu with | mul hop => exact he hop, rfl⟩
  · rename_i he
    obtain ⟨b, l, hb⟩ := flushFalseBtbHit_eq now x c
    refine .inr ⟨b, l, _, .mul (not_not.mp he), rfl, ?_⟩
    rw [← hb]
    exact issueMext_ok h

theorem doDivExt_cases (h : c.doDivExt now = .ok c') :
    MextCases now c c' .intDivExt divLat := by
  unfold doDivExt at h
  obtain ⟨hdue, h⟩ := require_bind_eq_ok.mp h
  rcases hx : c.simPipe .decode with _ | x
  · simp only [hx] at h
    cases h
  simp only [hx] at h
  refine ⟨x, hx, hdue, ?_⟩
  split at h
  · rename_i he
    cases h
    exact .inl ⟨fun hu => by cases hu with | div hop => exact he hop, rfl⟩
  · rename_i he
    obtain ⟨b, l, hb⟩ := flushFalseBtbHit_eq now x c
    refine .inr ⟨b, l, _, .div (not_not.mp he), rfl, ?_⟩
    rw [← hb]
    exact issueMext_ok h

def lsuOp (inst : TraceInst) : Option MemRWOpt :=
  if inst.memOp = Trace.MemLoad then some .read
  else if inst.memOp = Trace.MemStore then some .write
  else none

/-- The readiness of the port that serves `inst` for `op`. -/
def portReady (K : PipelineParams) (ports : Ports) (inst : TraceInst) (op : MemRWOpt) : Bool :=
  let port := if usesNc K inst then ports.nc else ports.dmem
  if op = .write then port.2 else port.1

/-- The request `send_lsu_req` makes for `inst`. -/
def lsuCall (K : PipelineParams) (inst : TraceInst) (op : MemRWOpt) : PortCall :=
  .lsu (usesNc K inst) op (inst.memAddr &&& ~~~3#32) 0xbad#32 0xf#8

/-- `reg_ready_` after the data response of `inst` at `now`. -/
def responded (now : Nat) (inst : TraceInst) (g : Nat → Tick) : Nat → Tick :=
  if inst.memOp = Trace.MemLoad then putReg g inst.dstReg ((now + 2 : Nat) : Tick) else g

/-- `stage_update_` after the register write of a data response. -/
def respondedStages (now : Nat) (inst : TraceInst) (c : Pipeline K) : PipeStage → Tick :=
  if inst.memOp = Trace.MemLoad then c.retried now (responded now inst c.regReady)
  else c.stageUpdate

private theorem sendLsuReq_ok {ports : Ports} {x : Transaction} {op : MemRWOpt}
    (h : c.sendLsuReq now ports x op = .ok c') :
    (portReady K ports x.traceInst op = true ∧ c' = { c with
        stageUpdate := Function.update c.stageUpdate .memory infTime
        simPipe := Function.update c.simPipe .execute (some { x with waitMem := true })
        calls := c.calls ++ [lsuCall K x.traceInst op] }) ∨
      (portReady K ports x.traceInst op = false ∧ c' = { c with
        stageUpdate := Function.update c.stageUpdate .memory infTime }) := by
  unfold sendLsuReq at h
  obtain ⟨d, hd, h⟩ := bind_eq_ok.mp h
  obtain ⟨_, rfl⟩ := schedule_eq_ok.mp hd
  change (if portReady K ports x.traceInst op = true then _ else _) = _ at h
  rcases Bool.eq_false_or_eq_true (portReady K ports x.traceInst op) with hp | hp
  · rw [if_pos hp] at h
    cases h
    exact .inl ⟨hp, rfl⟩
  · rw [if_neg (by simp [hp])] at h
    cases h
    exact .inr ⟨hp, rfl⟩

private theorem passMemory_ok {x : Transaction} (h : c.passMemory now x = .ok c') :
    c' = { c with
      stageUpdate := Function.update c.stageUpdate .memory ((now + 1 : Nat) : Tick)
      simPipe := Function.update (Function.update c.simPipe .execute none) .memory (some x) } := by
  unfold passMemory at h
  obtain ⟨d, hd, h⟩ := bind_eq_ok.mp h
  obtain ⟨_, rfl⟩ := schedule_eq_ok.mp hd
  cases h
  rfl

def noted (now : Nat) (x : Transaction) (c : Pipeline K) : List Sighting :=
  if x.traceInst.memOp = Trace.MemLoad then c.loads ++ [⟨x, now, c.issued⟩] else c.loads

private theorem noteLoad_ok {x : Transaction} (h : c.noteLoad now x = .ok c') :
    c' = { c with
      regReady := responded now x.traceInst c.regReady
      stageUpdate := respondedStages now x.traceInst c
      loads := c.noted now x } := by
  unfold noteLoad at h
  unfold respondedStages responded noted
  split at h
  · rename_i hm
    simp only [if_pos hm]
    exact (updateRegTime_ok h).2
  · rename_i hm
    simp only [if_neg hm]
    cases h
    rfl

/-- The load or store `x` in Execute: the built-in wait for a non-cacheable address, a request on
its port, or a port that is busy; anything else moves to the Memory slot. -/
theorem doMemory_cases {ports : Ports} (h : c.doMemory now ports = .ok c') :
    ∃ x, c.simPipe .execute = some x ∧
      ((x.waitMem = true ∧ legacyMmio K x.traceInst = true ∧ c' = { c with
          regReady := responded now x.traceInst c.regReady
          loads := (c.setSlot .execute (some { x with waitMem := false, respAt := now })).noted now
            { x with waitMem := false, respAt := now }
          stageUpdate := Function.update (respondedStages now x.traceInst c) .memory
            ((now + 1 : Nat) : Tick)
          simPipe := Function.update (Function.update c.simPipe .execute none) .memory
            (some { x with waitMem := false, respAt := now }) }) ∨
        (x.waitMem = true ∧ legacyMmio K x.traceInst = false ∧ c' = { c with
          stageUpdate := Function.update c.stageUpdate .memory infTime }) ∨
        (x.waitMem = false ∧ legacyMmio K x.traceInst = true ∧ c' = { c with
          acct := c.acct.setStall now .lsuStall
          stageUpdate := Function.update c.stageUpdate .memory ((now + K.mmioLat : Nat) : Tick)
          simPipe := Function.update c.simPipe .execute (some { x with waitMem := true }) }) ∨
        (∃ op, x.waitMem = false ∧ legacyMmio K x.traceInst = false ∧
          lsuOp x.traceInst = some op ∧ portReady K ports x.traceInst op = true ∧ c' = { c with
            acct := c.acct.setStall now .lsuStall
            stageUpdate := Function.update c.stageUpdate .memory infTime
            simPipe := Function.update c.simPipe .execute (some { x with waitMem := true })
            calls := c.calls ++ [lsuCall K x.traceInst op] }) ∨
        (∃ op, x.waitMem = false ∧ legacyMmio K x.traceInst = false ∧
          lsuOp x.traceInst = some op ∧ portReady K ports x.traceInst op = false ∧ c' = { c with
            acct := c.acct.setStall now .lsuStall
            stageUpdate := Function.update c.stageUpdate .memory infTime }) ∨
        (x.waitMem = false ∧ legacyMmio K x.traceInst = false ∧
          lsuOp x.traceInst = none ∧ c' = { c with
            stageUpdate := Function.update c.stageUpdate .memory ((now + 1 : Nat) : Tick)
            simPipe := Function.update (Function.update c.simPipe .execute none) .memory
              (some x) })) := by
  unfold doMemory at h
  rcases hx : c.simPipe .execute with _ | x
  · simp only [hx] at h
    cases h
  simp only [hx] at h
  refine ⟨x, rfl, ?_⟩
  rcases Bool.eq_false_or_eq_true x.waitMem with hw | hw
  · rw [if_pos hw] at h
    rcases Bool.eq_false_or_eq_true (legacyMmio K x.traceInst) with hl | hl
    · rw [if_pos hl] at h
      obtain ⟨d, hd, h⟩ := bind_eq_ok.mp h
      have := noteLoad_ok hd
      subst this
      refine .inl ⟨hw, hl, ?_⟩
      rw [passMemory_ok h]
      simp only [setSlot, Function.update_idem]
      rfl
    · rw [if_neg (by simp [hl])] at h
      exact .inr (.inl ⟨hw, hl, (schedule_eq_ok.mp h).2⟩)
  rw [if_neg (by simp [hw])] at h
  rcases Bool.eq_false_or_eq_true (legacyMmio K x.traceInst) with hl | hl
  · rw [if_pos hl] at h
    exact .inr (.inr (.inl ⟨hw, hl, (schedule_eq_ok.mp h).2⟩))
  rw [if_neg (by simp [hl])] at h
  split at h
  · rename_i hm
    have hop : lsuOp x.traceInst = some .read := if_pos hm
    rcases sendLsuReq_ok h with ⟨hp, rfl⟩ | ⟨hp, rfl⟩
    · exact .inr (.inr (.inr (.inl ⟨_, hw, hl, hop, hp, rfl⟩)))
    · exact .inr (.inr (.inr (.inr (.inl ⟨_, hw, hl, hop, hp, rfl⟩))))
  rename_i hm
  split at h
  · rename_i hm'
    have hop : lsuOp x.traceInst = some .write := by
      unfold lsuOp
      rw [if_neg hm, if_pos hm']
    obtain ⟨d, hd, h⟩ := bind_eq_ok.mp h
    obtain ⟨_, rfl⟩ := schedule_eq_ok.mp h
    rcases sendLsuReq_ok hd with ⟨hp, rfl⟩ | ⟨hp, rfl⟩
    · refine .inr (.inr (.inr (.inl ⟨_, hw, hl, hop, hp, ?_⟩)))
      simp only [Function.update_idem]
    · refine .inr (.inr (.inr (.inr (.inl ⟨_, hw, hl, hop, hp, ?_⟩))))
      simp only [Function.update_idem]
  · rename_i hm'
    have hop : lsuOp x.traceInst = none := by
      unfold lsuOp
      rw [if_neg hm, if_neg hm']
    exact .inr (.inr (.inr (.inr (.inr ⟨hw, hl, hop, passMemory_ok h⟩))))

theorem handleLsuResp_cases (h : c.handleLsuResp now = .ok c') :
    ∃ x a, c.simPipe .execute = some x ∧ x.waitMem = true ∧ c.simPipe .memory = none ∧
      c.acct.Charges now a ∧ c' = { c with
        regReady := responded now x.traceInst c.regReady
        loads := (c.setSlot .execute (some { x with waitMem := false, respAt := now })).noted now
          { x with waitMem := false, respAt := now }
        acct := a
        stageUpdate := Function.update (respondedStages now x.traceInst c) .memory
          ((now + 1 : Nat) : Tick)
        calcNxtupd := min c.calcNxtupd ((now + 1 : Nat) : Tick)
        simPipe := Function.update (Function.update c.simPipe .execute none) .memory
          (some { x with waitMem := false, respAt := now }) } := by
  unfold handleLsuResp at h
  rcases hx : c.simPipe .execute with _ | x
  · simp only [hx] at h
    cases h
  simp only [hx] at h
  obtain ⟨⟨hw, hm⟩, h⟩ := require_bind_eq_ok.mp h
  obtain ⟨d, hd, h⟩ := bind_eq_ok.mp h
  have := noteLoad_ok hd
  subst this
  obtain ⟨e, he, h⟩ := bind_eq_ok.mp h
  have hacct : ∃ a, c.acct.Charges now a ∧ e = { c.setSlot .execute
      (some { x with waitMem := false, respAt := now }) with
        regReady := responded now x.traceInst c.regReady
        stageUpdate := respondedStages now x.traceInst c
        loads := (c.setSlot .execute (some { x with waitMem := false, respAt := now })).noted now
          { x with waitMem := false, respAt := now }
        acct := a } := by
    unfold rawAfterResp at he
    have hs := Account.charges_setStall now .lsuStall c.acct
    split at he
    · cases he
      exact ⟨_, hs, rfl⟩
    · obtain ⟨w, _, he⟩ := bind_eq_ok.mp he
      split at he
      · cases he
        exact ⟨_, hs.trans (Account.charges_setStall now .raw _), rfl⟩
      · cases he
        exact ⟨_, hs, rfl⟩
  obtain ⟨a, ha, rfl⟩ := hacct
  obtain ⟨f, hf, h⟩ := bind_eq_ok.mp h
  obtain ⟨_, rfl⟩ := asyncSchedule_eq_ok.mp hf
  cases h
  refine ⟨x, a, rfl, hw, hm, ha, ?_⟩
  simp only [setSlot, Function.update_idem]

/-- The sources of a commit: the Memory slot first, then a finished unit once the ALU path is
empty. -/
theorem commitSource_cases (now : Nat) (c : Pipeline K) :
    (c.commitSource now = none ∧ c.simPipe .memory = none) ∨
    (c.commitSource now = some .memory ∧ (c.simPipe .memory).isSome = true) ∨
    (∃ s, c.commitSource now = some s ∧ c.simPipe .memory = none ∧
      c.simPipe .execute = none ∧ (c.simPipe s).isSome = true ∧
      (s = .intDivExt ∧ c.divReadyTick ≤ now ∨ s = .intMulExt ∧ c.mulReadyTick ≤ now)) := by
  unfold commitSource
  rcases hm : c.simPipe .memory with _ | x
  · dsimp only
    rw [if_neg (by simp)]
    split
    · rename_i hd
      simp only [Bool.and_eq_true, Bool.not_eq_true', decide_eq_true_eq,
        Option.isSome_eq_false_iff, Option.isNone_iff_eq_none] at hd
      exact .inr (.inr ⟨_, rfl, rfl, hd.1.1, hd.1.2, .inl ⟨rfl, hd.2⟩⟩)
    · split
      · rename_i hd
        simp only [Bool.and_eq_true, Bool.not_eq_true', decide_eq_true_eq,
          Option.isSome_eq_false_iff, Option.isNone_iff_eq_none] at hd
        exact .inr (.inr ⟨_, rfl, rfl, hd.1.1, hd.1.2, .inr ⟨rfl, hd.2⟩⟩)
      · exact .inl ⟨rfl, rfl⟩
  · exact .inr (.inl ⟨rfl, rfl⟩)

theorem doWriteback_cases (h : c.doWriteback now = .ok c') :
    (c.commitSource now = none ∧ c' = { c with
        stageUpdate := Function.update c.stageUpdate .writeBack (c.retryTick now) }) ∨
    (∃ s x cause, c.commitSource now = some s ∧ c.simPipe s = some x ∧ c' = { c with
        simPipe := Function.update c.simPipe s none
        ongoingInsts := c.ongoingInsts - 1
        acct := c.acct.commit now cause
        commits := c.commits ++ [Commit.mk x now (c.acct.commit now cause).stats]
        stageUpdate := Function.update c.stageUpdate .writeBack ((now + 1 : Nat) : Tick) }) := by
  unfold doWriteback at h
  rcases hs : c.commitSource now with _ | s
  · simp only [hs] at h
    exact .inl ⟨rfl, (schedule_eq_ok.mp h).2⟩
  · simp only [hs] at h
    rcases hx : c.simPipe s with _ | x
    · simp only [hx] at h
      cases h
    · simp only [hx] at h
      exact .inr ⟨s, x, _, rfl, hx, (schedule_eq_ok.mp h).2⟩

/-- A response is an instruction response on port 0 and a data response on ports 1 and 2. -/
theorem recvMemResp_cases {t : CpuTrans} (h : c.recvMemResp now t = .ok c') :
    (t.id = 0 ∧ t.mop = .read ∧ c.handleIfuResp now = .ok c') ∨
      ((t.id = 1 ∨ t.id = 2) ∧ c.handleLsuResp now = .ok c') := by
  unfold recvMemResp at h
  split at h
  · rename_i hi
    obtain ⟨hm, h⟩ := require_bind_eq_ok.mp h
    exact .inl ⟨hi, hm, h⟩
  · split at h
    · rename_i hi
      exact .inr ⟨hi, h⟩
    · cases h

/-- An ack moves the update of Fetch, or of Memory while an unsent request waits in Execute, to
this tick. -/
theorem ackMemAvail_cases {a : AckTrans} (h : c.ackMemAvail now a = .ok c') :
    (a.id = 0 ∧ c' = { c with
        stageUpdate := Function.update c.stageUpdate .fetch (now : Tick)
        calcNxtupd := min c.calcNxtupd (now : Tick) }) ∨
    ((a.id = 1 ∨ a.id = 2) ∧
      ((∃ x, c.simPipe .execute = some x ∧ x.waitMem = false ∧
          x.traceInst.memOp ≠ Trace.MemNone ∧ c' = { c with
            stageUpdate := Function.update c.stageUpdate .memory (now : Tick)
            calcNxtupd := min c.calcNxtupd (now : Tick) }) ∨
        ((c.simPipe .execute = none ∨ ∃ x, c.simPipe .execute = some x ∧
          (x.waitMem = true ∨ x.traceInst.memOp = Trace.MemNone)) ∧ c' = c))) := by
  unfold ackMemAvail at h
  split at h
  · rename_i hi
    exact .inl ⟨hi, (asyncSchedule_eq_ok.mp h).2⟩
  · split at h
    · rename_i hi
      refine .inr ⟨hi, ?_⟩
      rcases hx : c.simPipe .execute with _ | x
      · simp only [hx] at h
        cases h
        exact .inr ⟨.inl rfl, rfl⟩
      · simp only [hx] at h
        split at h
        · rename_i hc
          simp only [Bool.and_eq_true, Bool.not_eq_true', bne_iff_ne] at hc
          exact .inl ⟨x, rfl, hc.1, hc.2, (asyncSchedule_eq_ok.mp h).2⟩
        · rename_i hc
          simp only [Bool.and_eq_true, Bool.not_eq_true', bne_iff_ne, not_and,
            not_not] at hc
          cases h
          refine .inr ⟨.inr ⟨x, rfl, ?_⟩, rfl⟩
          by_cases hw : x.waitMem = true
          · exact .inl hw
          · exact .inr (hc (by simpa using hw))
    · cases h

theorem recvMemResp_calls {t : CpuTrans} (h : c.recvMemResp now t = .ok c') :
    c'.calls = c.calls := by
  rcases recvMemResp_cases h with ⟨_, _, h⟩ | ⟨_, h⟩
  · obtain ⟨b, rest, _, ⟨_, rfl⟩ | ⟨q, _, _, rfl⟩⟩ := handleIfuResp_cases h <;> rfl
  · obtain ⟨x, a, _, _, _, _, rfl⟩ := handleLsuResp_cases h
    rfl

theorem ackMemAvail_calls {a : AckTrans} (h : c.ackMemAvail now a = .ok c') :
    c'.calls = c.calls := by
  rcases ackMemAvail_cases h with ⟨_, rfl⟩ | ⟨_, ⟨x, _, _, _, rfl⟩ | ⟨_, rfl⟩⟩ <;> rfl

end NpSim.Pipe.Pipeline
