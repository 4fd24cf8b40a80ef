/- digest: The abstract machine of predictions: the direction predictor, the transactions up to
   Decode, and the predictions made; every step of the core is a sequence of its moves. -/

import NpSim.Branch.Undo
import NpSim.Pipe.Conservation

set_option autoImplicit false
set_option relaxedAutoImplicit false

namespace NpSim.Pipe

open NpSim.Lib.Partial NpSim.Branch Relation

variable {K : PipelineParams}

/-- A transaction without the flags that the fetch queue changes. -/
def Transaction.strip (x : Transaction) : Transaction :=
  { x with waitMem := false, bpMetaHold := 0 }

def outcome (inst : TraceInst) : Bool × Addr :=
  let realTaken := inst.isBranch && inst.brTaken
  (realTaken, if realTaken then inst.memAddr else 0)

/-- What the core has bet on: `line` holds the transactions up to the Decode slot, oldest first. -/
structure Bets (K : PipelineParams) where
  bpu : K.branch.bpu.State
  line : List Transaction
  wrongPath : Bool
  wpFlushed : Bool
  log : List (Prediction K)
  made : Nat

namespace Bets

def Room (s : Bets K) : Prop := s.line.length < K.ifqSize + 2

inductive Move (s : Bets K) : Bets K → Prop
  | guess (pc target : Addr) (hw : s.wrongPath = true) (hf : s.wpFlushed = false) (room : s.Room) :
      Move s { s with
        bpu := (K.branch.bpu.predict s.bpu pc target).2
        line := s.line ++ [(Transaction.wrongPath pc).strip]
        made := s.made + 1 }
  | plain (y : Transaction) (hb : y.traceInst.isBranch = false) (hp : y.isWrongPath = false)
      (hm : y.brMispred = false) (ht : y.brPred.predTarget = 0) (hw : s.wrongPath = false)
      (room : s.Room) : Move s { s with line := s.line ++ [y.strip] }
  | bet (y : Transaction) (u : BranchUnit K.branch) (hu : u.bpu = s.bpu)
      (hb : y.traceInst.isBranch = true) (hp : y.isWrongPath = false)
      (hy : y.brPred = (u.predict y.traceInst.pc).1)
      (hm : y.brMispred = !BranchUnit.accurate (outcome y.traceInst).1
        (outcome y.traceInst).2 y.brPred)
      (hw : s.wrongPath = false) (room : s.Room) : Move s { s with
        bpu := (u.predict y.traceInst.pc).2.bpu
        line := s.line ++ [y.strip]
        wrongPath := y.brMispred
        log := s.log ++ [⟨y, u, s.made⟩]
        made := s.made + 1 }
  | endWrong (hw : s.wrongPath = true) (hf : s.wpFlushed = true) :
      Move s { s with wrongPath := false, wpFlushed := false }
  | drop (x : Transaction) (rest : List Transaction) (hl : s.line = x :: rest)
      (hx : x.isWrongPath = true) : Move s { s with line := rest }
  | settle (x : Transaction) (rest : List Transaction) (btbHit : Bool) (hl : s.line = x :: rest)
      (hx : x.isWrongPath = false) : Move s { s with
        bpu := if x.traceInst.isBranch then
            K.branch.bpu.resolve s.bpu x.traceInst.pc x.traceInst.brTaken btbHit x.brPred
              x.brMispred
          else s.bpu
        line := if x.brMispred then [] else rest
        wpFlushed := s.wpFlushed || x.brMispred }
  | leave (x : Transaction) (rest : List Transaction) (hl : s.line = x :: rest)
      (hx : x.isWrongPath = false) : Move s { s with line := rest }

theorem room_push {s : Bets K} (hr : s.Room) (y : Transaction) :
    (s.line ++ [y]).length ≤ K.ifqSize + 2 := by
  unfold Room at hr
  rw [List.length_append, List.length_singleton]
  exact hr

theorem room_tail {s : Bets K} (hr : s.line.length ≤ K.ifqSize + 2) {x : Transaction}
    {rest : List Transaction} (hl : s.line = x :: rest) : rest.length ≤ K.ifqSize + 2 := by
  rw [hl, List.length_cons] at hr
  exact Nat.le_of_succ_le hr

/-- Transactions that are no branches carry no prediction. -/
def Plain (s : Bets K) : Prop :=
  ∀ x ∈ s.line, x.traceInst.isBranch = false → x.brMispred = false ∧ x.brPred.predTarget = 0

end Bets

namespace Pipeline

variable {now : Nat} {c c' : Pipeline K}

/-- The bets of a core. -/
def bets (c : Pipeline K) : Bets K where
  bpu := c.bpu.bpu
  line := c.flow.line.map Transaction.strip
  wrongPath := c.fetch.wrongPath
  wpFlushed := c.fetch.wpFlushed
  log := c.predictions
  made := c.predicted

theorem line_eq (c : Pipeline K) :
    c.flow.line = (c.simPipe .decode).toList ++ ((c.simPipe .fetch).toList ++ c.fetchQueue) := rfl

private theorem bets_eq {s : Bets K} (hb : c.bpu.bpu = s.bpu)
    (hl : c.flow.line.map Transaction.strip = s.line) (hw : c.fetch.wrongPath = s.wrongPath)
    (hf : c.fetch.wpFlushed = s.wpFlushed) (hp : c.predictions = s.log)
    (hn : c.predicted = s.made) : c.bets = s := by
  unfold bets
  rw [hb, hl, hw, hf, hp, hn]

private theorem room_of {c : Pipeline K} (h : c.ifqFull = false) : c.bets.Room := by
  have hlt : c.fetchQueue.length < K.ifqSize := by
    simpa [ifqFull] using h
  have htoList : ∀ o : Option Transaction, o.toList.length ≤ 1 := by
    intro o
    cases o <;> simp
  have hd := htoList (c.simPipe .decode)
  have hf := htoList (c.simPipe .fetch)
  unfold Bets.Room
  change (c.flow.line.map Transaction.strip).length < _
  rw [List.length_map, line_eq, List.length_append, List.length_append]
  omega

theorem line_push (y : Transaction) (c : Pipeline K) {q : List Transaction}
    (hq : q = c.fetchQueue ++ [y]) :
    ((c.simPipe .decode).toList ++ ((c.simPipe .fetch).toList ++ q)).map Transaction.strip =
      c.flow.line.map Transaction.strip ++ [y.strip] := by
  subst hq
  rw [line_eq]
  simp only [List.map_append, List.append_assoc, List.map_cons, List.map_nil]

private theorem fetchWrongPath_bets (hw : c.fetch.wrongPath = true)
    (hf : c.fetch.wpFlushed = false) (hq : c.ifqFull = false) :
    Bets.Move c.bets (c.fetchWrongPath now).bets := by
  have hm := Bets.Move.guess (s := c.bets) c.fetch.wrongPathPc
    (c.bpu.btbTarget c.fetch.wrongPathPc) hw hf (room_of hq)
  obtain ⟨b, a, f, heq, _, _, hwp, hwf, _⟩ := fetchWrongPath_eq now c
  have he : (c.fetchWrongPath now).bets = { c.bets with
      bpu := (K.branch.bpu.predict c.bpu.bpu c.fetch.wrongPathPc
        (c.bpu.btbTarget c.fetch.wrongPathPc)).2
      line := c.bets.line ++ [(Transaction.wrongPath c.fetch.wrongPathPc).strip]
      made := c.bets.made + 1 } := by
    refine bets_eq rfl ?_ ?_ ?_ ?_ ?_
    · exact line_push _ c rfl
    · rw [heq]
      exact hwp
    · rw [heq]
      exact hwf
    · rw [heq]
      rfl
    · rw [heq]
      rfl
  rw [he]
  exact hm

private theorem endWrongPath_bets (hw : c.fetch.wrongPath = false ∨ c.fetch.wpFlushed = true) :
    ReflTransGen Bets.Move c.bets c.endWrongPath.bets ∧ c.endWrongPath.fetch.wrongPath = false := by
  unfold endWrongPath
  rcases Bool.eq_false_or_eq_true c.fetch.wrongPath with h | h
  · rw [if_pos h]
    have hf : c.fetch.wpFlushed = true := by
      rcases hw with hw | hw
      · rw [h] at hw
        cases hw
      · exact hw
    exact ⟨.single (Bets.Move.endWrong (s := c.bets) h hf), rfl⟩
  · rw [if_neg (by simp [h])]
    exact ⟨.refl, h⟩

private theorem fetchReal_bets {x : Transaction} (hx : x.isWrongPath = false)
    (hw : c.fetch.wrongPath = false) (hq : c.ifqFull = false) :
    Bets.Move c.bets (c.fetchReal now x).bets := by
  let r := judgeFetch x.traceInst c.bpu
  let y := { x with
    waitMem := true, bpMetaHold := metaHold x c.bpu, brPred := r.1, brMispred := !r.2.1 }
  obtain ⟨_, hwp, hwf⟩ := fetchStateAfter_spec now x.traceInst r.1 r.2.1 c.fetch
  rw [hw, Bool.false_or] at hwp
  have hline : (c.fetchReal now x).flow.line.map Transaction.strip = c.bets.line ++ [y.strip] :=
    line_push y c rfl
  rcases Bool.eq_false_or_eq_true x.traceInst.isBranch with hb | hb
  · have hpred : r.1 = (c.bpu.predict x.traceInst.pc).1 := by
      simp only [r, judgeFetch, BranchUnit.predictAtFetch, hb, if_true]
      rfl
    have hm := Bets.Move.bet (s := c.bets) y c.bpu rfl hb hx hpred rfl hw (room_of hq)
    have he : (c.fetchReal now x).bets = { c.bets with
        bpu := (c.bpu.predict y.traceInst.pc).2.bpu
        line := c.bets.line ++ [y.strip]
        wrongPath := y.brMispred
        log := c.bets.log ++ [⟨y, c.bpu, c.bets.made⟩]
        made := c.bets.made + 1 } := by
      refine bets_eq ?_ hline hwp hwf ?_ ?_
      · change r.2.2.bpu = _
        simp only [r, judgeFetch, BranchUnit.predictAtFetch, hb, if_true]
        rfl
      · exact if_pos hb
      · exact if_pos hb
    rw [he]
    exact hm
  · obtain ⟨hp, hok⟩ := judgeFetch_plain c.bpu hb
    have hmiss : y.brMispred = false := by
      change (!r.2.1) = false
      rw [show r.2.1 = true from hok]
      rfl
    have htgt : y.brPred.predTarget = 0 := by
      change r.1.predTarget = 0
      rw [show r.1 = {} from hp]
    have hm := Bets.Move.plain (s := c.bets) y hb hx hmiss htgt hw (room_of hq)
    have he : (c.fetchReal now x).bets = { c.bets with line := c.bets.line ++ [y.strip] } := by
      refine bets_eq ?_ hline (hwp.trans (hmiss.trans hw.symm)) hwf ?_ ?_
      · change r.2.2.bpu = _
        simp only [r, judgeFetch, BranchUnit.predictAtFetch, hb]
        rfl
      · exact if_neg (by simp [hb])
      · exact if_neg (by simp [hb])
    rw [he]
    exact hm

theorem doFetch0_bets (hd : c.flow.Disciplined) (now : Nat) (ready : Bool) :
    ReflTransGen Bets.Move c.bets (c.doFetch0 now ready).bets := by
  rcases doFetch0_cases now ready c with ⟨_, h⟩ | ⟨_, h, _⟩ | ⟨_, _, _, h⟩ |
    ⟨_, _, _, hw, hf, hq, h⟩ | ⟨_, _, _, hw, hrest⟩
  · rw [h]
    exact .refl
  · rw [h]
  · rw [h]
    exact .refl
  · rw [h]
    exact .single (fetchWrongPath_bets hw hf hq)
  · obtain ⟨hend, hwp⟩ := endWrongPath_bets hw
    rcases hrest with ⟨_, h⟩ | ⟨x, hx, hq, h⟩
    · rw [h]
      exact hend
    · rw [h]
      have hfull : c.endWrongPath.ifqFull = false := by
        unfold endWrongPath
        split <;> exact hq
      exact hend.tail (fetchReal_bets (hd.input x hx).1 hwp hfull)

/-- A transaction that carries no prediction without being a branch. -/
def Unpredicted (x : Transaction) : Prop :=
  x.traceInst.isBranch = false → x.brMispred = false ∧ x.brPred.predTarget = 0

theorem flushFalseBtbHit_same {x : Transaction} (hx : Unpredicted x) (now : Nat)
    (c : Pipeline K) : c.flushFalseBtbHit now x = c := by
  unfold flushFalseBtbHit
  rcases Bool.eq_false_or_eq_true x.traceInst.isBranch with hb | hb
  · exact if_pos hb
  · obtain ⟨hm, ht⟩ := hx hb
    simp [hb, hm, ht]

private theorem update_bpu (u : BranchUnit K.branch) (pc : Addr) (taken : Bool) (target : Addr)
    (isCall isRet btbHit : Bool) (pred : BranchResult) (mispred : Bool) :
    (u.update pc taken target isCall isRet btbHit pred mispred).bpu =
      K.branch.bpu.resolve u.bpu pc taken btbHit pred mispred := by
  unfold BranchUnit.update BranchUnit.updateBtb
  cases taken <;> rfl

private theorem resolveBranch_bpu (x : Transaction) (now : Nat) (c : Pipeline K) :
    (c.resolveBranch now x).bpu.bpu =
      if x.traceInst.isBranch then
        K.branch.bpu.resolve c.bpu.bpu x.traceInst.pc x.traceInst.brTaken
          (x.brPred.predTarget != 0) x.brPred x.brMispred
      else c.bpu.bpu := by
  unfold resolveBranch
  dsimp only
  split
  · cases x.traceInst.brTaken <;> cases x.brMispred <;> exact update_bpu ..
  · rfl

theorem doExecute_bpu {x : Transaction} (h : c.doExecute now = .ok c')
    (hx : c.simPipe .decode = some x) (he : x.traceInst.extOp = Trace.ExtNone)
    (hp : Unpredicted x) : c'.bpu = (c.resolveBranch now x).bpu := by
  unfold doExecute at h
  obtain ⟨_, h⟩ := require_bind_eq_ok.mp h
  simp only [hx, he, ne_eq, not_true_eq_false, if_false, flushFalseBtbHit_same hp] at h
  obtain ⟨d, hd, h⟩ := bind_eq_ok.mp h
  have := forward_ok hd
  subst this
  obtain ⟨_, rfl⟩ := schedule_eq_ok.mp h
  rfl

theorem doMulExt_bpu {x : Transaction} (h : c.doMulExt now = .ok c')
    (hx : c.simPipe .decode = some x) (hp : Unpredicted x) : c'.bpu = c.bpu := by
  unfold doMulExt at h
  obtain ⟨_, h⟩ := require_bind_eq_ok.mp h
  simp only [hx, flushFalseBtbHit_same hp] at h
  split at h
  · cases h
    rfl
  · rw [issueMext_ok h]

theorem doDivExt_bpu {x : Transaction} (h : c.doDivExt now = .ok c')
    (hx : c.simPipe .decode = some x) (hp : Unpredicted x) : c'.bpu = c.bpu := by
  unfold doDivExt at h
  obtain ⟨_, h⟩ := require_bind_eq_ok.mp h
  simp only [hx, flushFalseBtbHit_same hp] at h
  split at h
  · cases h
    rfl
  · rw [issueMext_ok h]

theorem doFetch1_bets (h : c.doFetch1 now = .ok c') : c'.bets = c.bets := by
  rcases doFetch1_cases h with ⟨_, rfl⟩ | ⟨p, rest, hq, _, _, rfl⟩ | ⟨p, rest, hq, _, _, hs, rfl⟩
  · rfl
  · refine bets_eq rfl ?_ rfl rfl rfl rfl
    change _ = c.flow.line.map Transaction.strip
    rw [line_eq, line_eq, hq]
    simp only [List.map_append, List.map_cons]
    rfl
  · refine bets_eq rfl ?_ rfl rfl rfl rfl
    change _ = c.flow.line.map Transaction.strip
    rw [line_eq, line_eq, hq, hs]
    simp

theorem doDecode_bets (h : c.doDecode now = .ok c') (hd : c.simPipe .decode = none) :
    ReflTransGen Bets.Move c.bets c'.bets := by
  obtain ⟨x, a, hx, _, ⟨hw, rfl⟩ | ⟨w, _, _, _, rfl⟩ | ⟨_, rfl⟩⟩ := doDecode_cases h
  · have hl : c.bets.line = x.strip :: c.fetchQueue.map Transaction.strip := by
      change c.flow.line.map Transaction.strip = _
      rw [line_eq, hd, hx]
      simp
    have hm := Bets.Move.drop (s := c.bets) x.strip _ hl hw
    refine .single ?_
    have he : ({ c with
        acct := a
        simPipe := Function.update c.simPipe .fetch none
        stageUpdate := Function.update c.stageUpdate .decode ((now + 1 : Nat) : Tick) } :
        Pipeline K).bets = { c.bets with line := c.fetchQueue.map Transaction.strip } := by
      refine bets_eq rfl ?_ rfl rfl rfl rfl
      rw [line_eq]
      simp [hd]
    rw [he]
    exact hm
  · exact .refl
  · have he : ({ c with
        acct := a
        stageUpdate := Function.update c.stageUpdate .decode ((now + 1 : Nat) : Tick)
        regReady := putReg c.regReady x.traceInst.dstReg infTime
        passes := c.passes ++ [⟨x, now, c.issued⟩]
        simPipe := Function.update (Function.update c.simPipe .fetch none) .decode (some x) } :
        Pipeline K).bets = c.bets := by
      refine bets_eq rfl ?_ rfl rfl rfl rfl
      change _ = c.flow.line.map Transaction.strip
      rw [line_eq, line_eq, hd, hx]
      simp
    rw [he]

theorem head_line {x : Transaction} (hx : c.simPipe .decode = some x) :
    c.bets.line = x.strip :: c.flow.front.map Transaction.strip := by
  change c.flow.line.map Transaction.strip = _
  rw [line_eq, hx]
  rfl

theorem doExecute_bets (hd : c.flow.Disciplined) (hp : c.bets.Plain)
    (h : c.doExecute now = .ok c') : ReflTransGen Bets.Move c.bets c'.bets := by
  obtain ⟨x, hx, _, ⟨_, rfl⟩ | ⟨b, l, d, he, rfl, rfl⟩⟩ := doExecute_cases h
  · exact .refl
  · have hl := head_line hx
    have hun : Unpredicted x := fun hb => hp x.strip (by rw [hl]; exact List.mem_cons_self) hb
    have hreal := (hd.settled .decode x (by decide) hx).1
    have hm := Bets.Move.settle (s := c.bets) x.strip _ (x.brPred.predTarget != 0) hl hreal
    have hbpu := (congrArg BranchUnit.bpu (doExecute_bpu h hx he hun)).trans
      (resolveBranch_bpu x now c)
    refine .single ?_
    generalize hc' : ({ ({ c with bpu := b, events := l } : Pipeline K).flushIf x.brMispred now with
      regReady := _, stageUpdate := _, simPipe := _ } : Pipeline K) = c' at hbpu ⊢
    have heq : c'.bets = { c.bets with
        bpu := if x.traceInst.isBranch then
            K.branch.bpu.resolve c.bpu.bpu x.traceInst.pc x.traceInst.brTaken
              (x.brPred.predTarget != 0) x.brPred x.brMispred
          else c.bpu.bpu
        line := if x.brMispred then [] else c.flow.front.map Transaction.strip
        wpFlushed := c.bets.wpFlushed || x.brMispred } := by
      refine bets_eq hbpu ?_ ?_ ?_ ?_ ?_ <;> subst hc'
      · cases x.brMispred <;> rfl
      · cases x.brMispred <;> rfl
      · cases x.brMispred
        · exact (Bool.or_false _).symm
        · exact (Bool.or_true _).symm
      · cases x.brMispred <;> rfl
      · cases x.brMispred <;> rfl
    rw [heq]
    exact hm

private theorem mext_bets {s : PipeStage} {lat : Nat} (hd : c.flow.Disciplined) (hp : c.bets.Plain)
    (hs : s = .intMulExt ∨ s = .intDivExt) (h : MextCases now c c' s lat)
    (hb : ∀ x, c.simPipe .decode = some x → Unpredicted x → c'.bpu = c.bpu) :
    ReflTransGen Bets.Move c.bets c'.bets := by
  obtain ⟨x, hx, _, ⟨_, rfl⟩ | ⟨b, l, d, _, rfl, rfl⟩⟩ := h
  · exact .refl
  · have hl := head_line hx
    have hun : Unpredicted x := fun hb => hp x.strip (by rw [hl]; exact List.mem_cons_self) hb
    have hreal := (hd.settled .decode x (by decide) hx).1
    have hm := Bets.Move.leave (s := c.bets) x.strip _ hl hreal
    have hflush : (!x.traceInst.isBranch && x.brMispred) = false := by
      cases hbr : x.traceInst.isBranch with
      | true => rfl
      | false => rw [(hun hbr).1, Bool.and_false]
    have hbpu := hb x hx hun
    refine .single ?_
    rw [hflush] at hbpu ⊢
    have heq : (mextIssued now s lat x
        (({ c with bpu := b, events := l } : Pipeline K).flushIf false now)).bets =
        { c.bets with line := c.flow.front.map Transaction.strip } := by
      refine bets_eq (congrArg BranchUnit.bpu hbpu) ?_ rfl rfl rfl rfl
      rcases hs with rfl | rfl <;> rfl
    rw [heq]
    exact hm

theorem answerFirst_strip {l q : List Transaction} (h : answerFirst l = some q) :
    q.map Transaction.strip = l.map Transaction.strip := by
  induction l generalizing q with
  | nil => cases h
  | cons x xs ih =>
    unfold answerFirst at h
    split at h
    · cases h
      rfl
    · obtain ⟨r, hr, rfl⟩ := Option.map_eq_some_iff.mp h
      simp only [List.map_cons, ih hr]

private theorem bets_slots {d : Pipeline K} (hb : d.bpu.bpu = c.bpu.bpu)
    (hdec : d.simPipe .decode = c.simPipe .decode) (hfet : d.simPipe .fetch = c.simPipe .fetch)
    (hq : d.fetchQueue.map Transaction.strip = c.fetchQueue.map Transaction.strip)
    (hw : d.fetch.wrongPath = c.fetch.wrongPath) (hf : d.fetch.wpFlushed = c.fetch.wpFlushed)
    (hp : d.predictions = c.predictions) (hn : d.predicted = c.predicted) : d.bets = c.bets := by
  refine bets_eq hb ?_ hw hf hp hn
  change _ = c.flow.line.map Transaction.strip
  rw [line_eq, line_eq, hdec, hfet]
  simp only [List.map_append, hq]

theorem doMemory_bets {ports : Ports} (h : c.doMemory now ports = .ok c') : c'.bets = c.bets := by
  obtain ⟨x, _, ⟨_, _, rfl⟩ | ⟨_, _, rfl⟩ | ⟨_, _, rfl⟩ | ⟨op, _, _, _, _, rfl⟩ |
    ⟨_, _, _, _, _, rfl⟩ | ⟨_, _, _, rfl⟩⟩ := doMemory_cases h <;>
    exact bets_slots rfl rfl rfl rfl rfl rfl rfl rfl

theorem doWriteback_bets (h : c.doWriteback now = .ok c') : c'.bets = c.bets := by
  rcases doWriteback_cases h with ⟨_, rfl⟩ | ⟨s, x, cause, hs, hx, rfl⟩
  · rfl
  · have hne : s ≠ .decode ∧ s ≠ .fetch := by
      rcases commitSource_cases now c with ⟨hc, _⟩ | ⟨hc, _⟩ | ⟨t, hc, _, _, _, ⟨rfl, _⟩ | ⟨rfl, _⟩⟩
      · rw [hc] at hs
        cases hs
      all_goals
        rw [hc] at hs
        cases hs
        decide
    exact bets_slots rfl (Function.update_of_ne hne.1.symm ..)
      (Function.update_of_ne hne.2.symm ..) rfl rfl rfl rfl rfl

theorem recvMemResp_bets {t : CpuTrans} (h : c.recvMemResp now t = .ok c') :
    c'.bets = c.bets := by
  rcases recvMemResp_cases h with ⟨_, _, h⟩ | ⟨_, h⟩
  · obtain ⟨b, rest, _, ⟨_, rfl⟩ | ⟨q, _, hq, rfl⟩⟩ := handleIfuResp_cases h
    · rfl
    · exact bets_slots rfl rfl rfl (answerFirst_strip hq) rfl rfl rfl rfl
  · obtain ⟨x, a, _, _, _, _, rfl⟩ := handleLsuResp_cases h
    exact bets_slots rfl rfl rfl rfl rfl rfl rfl rfl

/-- The core refines the machine of predictions. -/
theorem coreStep_bets (hd : c.flow.Disciplined) (hp : c.bets.Plain) (h : CoreStep now c c') :
    ReflTransGen Bets.Move c.bets c'.bets := by
  have hsame : ∀ {d : Pipeline K}, d.bets = c.bets → ReflTransGen Bets.Move c.bets d.bets := by
    intro d hd
    rw [hd]
  cases h with
  | beginTick => exact .refl
  | stage i ports due h =>
    cases i with
    | fetch => exact hsame (doFetch1_bets h)
    | decode => exact doDecode_bets h due.1
    | execute => exact doExecute_bets hd hp h
    | intMulExt =>
      exact mext_bets hd hp (.inl rfl) (doMulExt_cases h) fun x hx hun => doMulExt_bpu h hx hun
    | intDivExt =>
      exact mext_bets hd hp (.inr rfl) (doDivExt_cases h) fun x hx hun => doDivExt_bpu h hx hun
    | memory => exact hsame (doMemory_bets h)
    | writeBack => exact hsame (doWriteback_bets h)
  | fetch0 ready => exact doFetch0_bets hd now ready
  | sched => exact .refl
  | resp t h => exact hsame (recvMemResp_bets h)
  | ack a h =>
    rcases ackMemAvail_cases h with ⟨_, rfl⟩ | ⟨_, ⟨x, _, _, _, rfl⟩ | ⟨_, rfl⟩⟩ <;> exact .refl
  | buffer inst h => exact .refl
  | drain => exact .refl
  | reset => exact .refl
  | sent => exact .refl

end Pipeline

namespace Bets

def init (K : PipelineParams) : Bets K where
  bpu := K.branch.bpu.init
  line := []
  wrongPath := false
  wpFlushed := false
  log := []
  made := 0

theorem Move.plain_of {s t : Bets K} (h : Move s t) (hp : s.Plain) : t.Plain := by
  have hpush : ∀ y : Transaction, (y.traceInst.isBranch = false →
      y.brMispred = false ∧ y.brPred.predTarget = 0) → ∀ x ∈ s.line ++ [y],
        x.traceInst.isBranch = false → x.brMispred = false ∧ x.brPred.predTarget = 0 := by
    intro y hy x hx
    rcases List.mem_append.mp hx with hx | hx
    · exact hp x hx
    · cases List.mem_singleton.mp hx
      exact hy
  have htail : ∀ x rest, s.line = x :: rest → ∀ y ∈ rest,
      y.traceInst.isBranch = false → y.brMispred = false ∧ y.brPred.predTarget = 0 := by
    intro x rest hl y hy
    apply hp
    rw [hl]
    exact List.mem_cons_of_mem x hy
  cases h with
  | guess pc target _ _ _ => exact hpush _ fun _ => ⟨rfl, rfl⟩
  | plain y _ _ hm ht _ _ => exact hpush _ fun _ => ⟨hm, ht⟩
  | bet y u _ hb _ _ _ _ _ =>
    refine hpush _ fun hn => ?_
    rw [show y.strip.traceInst.isBranch = true from hb] at hn
    cases hn
  | endWrong _ _ => exact hp
  | drop x rest hl _ => exact htail x rest hl
  | settle x rest btbHit hl _ =>
    intro y hy
    dsimp only at hy
    split at hy
    · cases hy
    · exact htail x rest hl y hy
  | leave x rest hl _ => exact htail x rest hl

end Bets

namespace Pipeline

/-- An invariant of the machine of predictions holds of every core state, at every tick and under
every environment. -/
theorem CoreReachable.bets_invariant {I : Bets K → Prop} (init : I (Bets.init K))
    (move : ∀ s t, Bets.Move s t → s.Plain → I s → I t) {s : Clocked K} (h : CoreReachable s) :
    I s.core.bets := by
  have hall : s.core.flow.Conserved ∧ s.core.bets.Plain ∧ I s.core.bets := by
    refine h.invariant
      (I := fun s => s.core.flow.Conserved ∧ s.core.bets.Plain ∧ I s.core.bets) ?_ ?_ ?_
    · intro nxt
      refine ⟨Flow.conserved_init, ?_, init⟩
      intro x hx
      cases hx
    · rintro now c c' hstep ⟨hc, hp, hI⟩
      refine ⟨invariant_of_run (I := fun f : Flow => f.Conserved)
        (fun f g hm hf => hm.conserved hf) hc (coreStep_flow hstep), ?_⟩
      exact invariant_of_run (I := fun s : Bets K => s.Plain ∧ I s)
        (fun a b hm hab => ⟨hm.plain_of hab.1, move a b hm hab.1 hab.2⟩) ⟨hp, hI⟩
        (coreStep_bets hc.disciplined hp hstep)
    · rintro now c hI
      exact hI
  exact hall.2.2

end Pipeline

end NpSim.Pipe
