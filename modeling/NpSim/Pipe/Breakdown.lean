/- digest: The cycle breakdown along runs: the attribution frontier and its gap to `cycles`. -/

import NpSim.Pipe.Steps

set_option autoImplicit false
set_option relaxedAutoImplicit false

namespace NpSim.Pipe.Pipeline

open NpSim.Lib.Partial Relation

variable {K : PipelineParams} {now : Nat} {c c' : Pipeline K}

theorem retried_of_ne {g : Nat → Tick} {i : PipeStage} (h : i ≠ .decode) :
    c.retried now g i = c.stageUpdate i := by
  unfold retried
  rcases c.simPipe .fetch with _ | ids
  · rfl
  · dsimp only
    split_ifs
    · exact Function.update_of_ne h ..
    · rfl

/-- What a step does to the account, the commit log and the next update of WriteBack. -/
inductive AcctStep (now : Nat) (c c' : Pipeline K) : Prop
  | charge (acct : c.acct.Charges now c'.acct) (commits : c'.commits = c.commits)
      (next : c'.stageUpdate .writeBack = c.stageUpdate .writeBack ∨
        ((now + 1 : Nat) : Tick) ≤ c'.stageUpdate .writeBack)
  | commit (x : Transaction) (cause : StallCause) (due : c.stageUpdate .writeBack ≤ now)
      (acct : c'.acct = c.acct.commit now cause)
      (commits : c'.commits = c.commits ++ [⟨x, now, c'.acct.stats⟩])
      (next : c'.stageUpdate .writeBack = ((now + 1 : Nat) : Tick))
  | reset (acct : c'.acct = c.acct.resetStats now) (commits : c'.commits = c.commits)
      (next : c'.stageUpdate = c.stageUpdate)

private theorem acct_same (ha : c'.acct = c.acct) (hc : c'.commits = c.commits)
    (hs : c'.stageUpdate .writeBack = c.stageUpdate .writeBack) : AcctStep now c c' :=
  .charge (ha ▸ .refl now c.acct) hc (.inl hs)

theorem doFetch0_acct (ready : Bool) : AcctStep now c (c.doFetch0 now ready) := by
  have hend : c.endWrongPath.acct = c.acct ∧ c.endWrongPath.commits = c.commits ∧
      c.endWrongPath.stageUpdate = c.stageUpdate := by
    unfold endWrongPath
    split <;> exact ⟨rfl, rfl, rfl⟩
  rcases doFetch0_cases now ready c with ⟨_, h⟩ | ⟨_, h, _⟩ | ⟨_, _, _, h⟩ |
    ⟨_, _, _, _, _, _, h⟩ | ⟨_, _, _, _, ⟨_, h⟩ | ⟨x, _, _, h⟩⟩
  · rw [h]
    exact .charge (Account.charges_setStall ..) rfl (.inl rfl)
  · rw [h]
    exact acct_same rfl rfl rfl
  · rw [h]
    exact acct_same rfl rfl rfl
  · obtain ⟨b, a, f, heq, ha, _⟩ := fetchWrongPath_eq now c
    rw [h, heq]
    exact .charge ha rfl (.inl rfl)
  · rw [h]
    exact acct_same hend.1 hend.2.1 (congrFun hend.2.2 _)
  · obtain ⟨y, b, a, f, ps, n, heq, _, ha, _⟩ := fetchReal_eq now x c.endWrongPath
    rw [h, heq]
    exact .charge (hend.1 ▸ ha) hend.2.1 (.inl (congrFun hend.2.2 _))

theorem flushIf_acct (now : Nat) (b : Bool) (c : Pipeline K) :
    c.acct.Charges now (c.flushIf b now).acct ∧ (c.flushIf b now).commits = c.commits ∧
      (c.flushIf b now).stageUpdate = c.stageUpdate := by
  unfold flushIf
  cases b with
  | false => exact ⟨.refl now c.acct, rfl, rfl⟩
  | true => exact ⟨Account.charges_enterRecovery now c.acct, rfl, rfl⟩

private theorem mext_acct {s : PipeStage} {lat : Nat} (hlat : 0 < lat)
    (h : MextCases now c c' s lat) : AcctStep now c c' := by
  obtain ⟨x, _, _, ⟨_, rfl⟩ | ⟨b, l, d, _, rfl, rfl⟩⟩ := h
  · exact acct_same rfl rfl rfl
  · obtain ⟨ha, hc, _⟩ := flushIf_acct now (!x.traceInst.isBranch && x.brMispred)
      ({ c with bpu := b, events := l } : Pipeline K)
    refine .charge ha hc (.inr ?_)
    dsimp only [mextIssued]
    rw [Function.update_self]
    exact_mod_cast Nat.add_le_add_left hlat now

theorem stageHandler_acct {i : PipeStage} {ports : Ports} (due : c.stageDue now i)
    (h : stageHandler now ports i c = .ok c') : AcctStep now c c' := by
  cases i with
  | fetch =>
    rcases doFetch1_cases h with ⟨_, rfl⟩ | ⟨p, rest, _, _, _, rfl⟩ | ⟨p, rest, _, _, _, _, rfl⟩ <;>
      exact acct_same rfl rfl rfl
  | decode =>
    obtain ⟨x, a, _, ha, ⟨_, rfl⟩ | ⟨w, _, _, _, rfl⟩ | ⟨_, rfl⟩⟩ := doDecode_cases h <;>
      exact .charge ha rfl (.inl rfl)
  | execute =>
    obtain ⟨x, _, _, ⟨_, rfl⟩ | ⟨b, l, d, _, rfl, rfl⟩⟩ := doExecute_cases h
    · exact acct_same rfl rfl rfl
    · obtain ⟨ha, hc, hs⟩ := flushIf_acct now x.brMispred
        ({ c with bpu := b, events := l } : Pipeline K)
      refine .charge ha hc (.inl ?_)
      dsimp only
      rw [Function.update_of_ne (by decide)]
      split
      · rw [retried_of_ne (by decide), hs]
      · rw [hs]
  | intMulExt => exact mext_acct (by decide) (doMulExt_cases h)
  | intDivExt => exact mext_acct (by decide) (doDivExt_cases h)
  | memory =>
    obtain ⟨x, _, ⟨_, _, rfl⟩ | ⟨_, _, rfl⟩ | ⟨_, _, rfl⟩ | ⟨op, _, _, _, _, rfl⟩ |
      ⟨_, _, _, _, _, rfl⟩ | ⟨_, _, _, rfl⟩⟩ := doMemory_cases h
    · refine acct_same rfl rfl ?_
      dsimp only
      rw [Function.update_of_ne (by decide)]
      unfold respondedStages
      split
      · exact retried_of_ne (by decide)
      · rfl
    · exact acct_same rfl rfl rfl
    · exact .charge (Account.charges_setStall ..) rfl (.inl rfl)
    · exact .charge (Account.charges_setStall ..) rfl (.inl rfl)
    · exact .charge (Account.charges_setStall ..) rfl (.inl rfl)
    · exact acct_same rfl rfl rfl
  | writeBack =>
    rcases doWriteback_cases h with ⟨_, rfl⟩ | ⟨s, x, cause, _, _, rfl⟩
    · refine .charge (.refl now c.acct) rfl (.inr ?_)
      dsimp only
      rw [Function.update_self]
      exact le_max_right ..
    · refine .commit x cause due.2.2 rfl rfl ?_
      dsimp only
      exact Function.update_self ..

theorem recvMemResp_acct {t : CpuTrans} (h : c.recvMemResp now t = .ok c') :
    AcctStep now c c' := by
  rcases recvMemResp_cases h with ⟨_, _, h⟩ | ⟨_, h⟩
  · obtain ⟨b, rest, _, ⟨_, rfl⟩ | ⟨q, _, _, rfl⟩⟩ := handleIfuResp_cases h <;>
      exact acct_same rfl rfl rfl
  · obtain ⟨x, a, _, _, _, ha, rfl⟩ := handleLsuResp_cases h
    refine .charge ha rfl (.inl ?_)
    dsimp only
    rw [Function.update_of_ne (by decide)]
    unfold respondedStages
    split
    · exact retried_of_ne (by decide)
    · rfl

theorem coreStep_acct (h : CoreStep now c c') : AcctStep now c c' := by
  cases h with
  | beginTick => exact acct_same rfl rfl rfl
  | stage i ports due h => exact stageHandler_acct due h
  | fetch0 ready => exact doFetch0_acct ready
  | sched => exact acct_same rfl rfl rfl
  | resp t h => exact recvMemResp_acct h
  | ack a h =>
    rcases ackMemAvail_cases h with ⟨_, rfl⟩ | ⟨_, ⟨x, _, _, _, rfl⟩ | ⟨_, rfl⟩⟩ <;>
      exact acct_same rfl rfl rfl
  | buffer inst h => exact acct_same rfl rfl rfl
  | drain => exact acct_same rfl rfl rfl
  | reset => exact .reset rfl rfl rfl
  | sent => exact acct_same rfl rfl rfl

/-- The account at tick `now`: every tick of the window up to the frontier is charged once, the
frontier is at most one past the clock, and only after a commit that has put WriteBack off; at
every commit the breakdown was one ahead of `cycles`. -/
structure Accounted (s : Clocked K) : Prop where
  window : s.core.acct.stall.resetTick ≤ s.core.acct.stall.lastTick
  frontier : s.core.acct.stall.lastTick ≤ s.now ∨
    s.core.acct.stall.lastTick = s.now + 1 ∧
      ((s.now + 1 : Nat) : Tick) ≤ s.core.stageUpdate .writeBack
  charged : s.core.acct.stats.breakdown + s.core.acct.stall.resetTick =
    s.core.acct.stall.lastTick
  total : s.core.acct.totalInsts = s.core.commits.length
  commits : ∀ e ∈ s.core.commits, e.stats.breakdown = e.stats.cycles + 1

theorem accounted_init (nxt : Tick) : Accounted (K := K) ⟨0, { calcNxtupd := nxt }⟩ :=
  ⟨le_refl 0, .inl (le_refl 0), rfl, rfl, fun _ h => by cases h⟩

private theorem commit_breakdown (now : Nat) (cause : StallCause) (a : Account) :
    (a.commit now cause).stats.breakdown = (a.flushStallCycles now).stats.breakdown + 1 := by
  simp only [Account.commit, PipelineStats.breakdown]
  omega

/-- A step of the core keeps the account. -/
theorem coreStep_accounted (hc : CoreStep now c c') (h : Accounted ⟨now, c⟩) :
    Accounted ⟨now, c'⟩ := by
  obtain ⟨hwin, hfront, hchg, htot, hcom⟩ := h
  dsimp only at hwin hfront hchg htot hcom
  rcases coreStep_acct hc with ⟨ha, hl, hn⟩ | ⟨x, cause, hdue, ha, hl, hn⟩ | ⟨ha, hl, hn⟩
  · have hr := ha.reset
    have hm := ha.moved
    have hch := ha.charged
    refine ⟨?_, ?_, ?_, ?_, ?_⟩ <;> dsimp only
    · omega
    · rcases hm with hm | hm
      · rw [hm]
        refine hfront.imp id fun hf => ⟨hf.1, ?_⟩
        rcases hn with hn | hn
        · rw [hn]
          exact hf.2
        · exact hn
      · exact .inl hm.2
    · omega
    · rw [hl, ← htot]
      simp only [Account.totalInsts, ha.insts, ha.cleared]
    · rw [hl]
      exact hcom
  · have hle : c.acct.stall.lastTick ≤ now := by
      rcases hfront with hf | ⟨_, hf⟩
      · exact hf
      · have hlt : ((now + 1 : Nat) : Tick) ≤ (now : Tick) := hf.trans hdue
        have : now + 1 ≤ now := by exact_mod_cast hlt
        omega
    have hf := Account.charges_flush now c.acct
    have hlast : (c.acct.flushStallCycles now).stall.lastTick = now := by
      unfold Account.flushStallCycles
      split
      · omega
      · rfl
    have hch := hf.charged
    have hr := hf.reset
    have hb := commit_breakdown now cause c.acct
    have hcyc : (c.acct.commit now cause).stats.cycles = now - c.acct.stall.resetTick := by
      rw [← hr]
      rfl
    rw [hlast] at hch
    refine ⟨?_, ?_, ?_, ?_, ?_⟩ <;> dsimp only <;> try rw [ha]
    · change (c.acct.flushStallCycles now).stall.resetTick ≤ now + 1
      omega
    · exact .inr ⟨rfl, hn ▸ le_refl _⟩
    · change _ + (c.acct.flushStallCycles now).stall.resetTick = now + 1
      omega
    · rw [hl, List.length_append, List.length_singleton, ← htot]
      change (c.acct.flushStallCycles now).instsCleared +
        ((c.acct.flushStallCycles now).stats.insts + 1) = _
      rw [hf.cleared, hf.insts]
      rfl
    · intro e he
      rw [hl] at he
      rcases List.mem_append.mp he with he | he
      · exact hcom e he
      · cases List.mem_singleton.mp he
        dsimp only
        rw [ha, hb, hcyc]
        omega
  · refine ⟨?_, ?_, ?_, ?_, ?_⟩ <;> dsimp only <;> try rw [ha]
    · exact le_refl now
    · exact .inl (le_refl now)
    · change 0 + 0 + 0 + 0 + 0 + now = now
      omega
    · rw [hl, ← htot]
      rfl
    · rw [hl]
      exact hcom

theorem CoreReachable.accounted {s : Clocked K} (h : CoreReachable s) : Accounted s := by
  refine h.invariant accounted_init (fun _ _ _ hc hI => coreStep_accounted hc hI) ?_
  rintro now c ⟨hwin, hfront, hchg, htot, hcom⟩
  refine ⟨hwin, .inl ?_, hchg, htot, hcom⟩
  dsimp only at hfront ⊢
  omega

end NpSim.Pipe.Pipeline
