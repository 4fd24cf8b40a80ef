/- digest: Two cores that work alike: they agree in all that a stage reads, and may differ in their
   counters, or in the tick of the next update. -/

import NpSim.Branch.Alike
import NpSim.Lib.Pairs
import NpSim.Pipe.Pipeline

set_option autoImplicit false
set_option relaxedAutoImplicit false

namespace NpSim.Pipe

open NpSim.Lib.Partial NpSim.Lib.Pairs NpSim.Branch NpSim.Cache

/-- A commit without the counters. -/
def Commit.when (x : Commit) : Transaction × Nat := (x.trans, x.tick)

/-- The branch unit, the tick of the next update, and what is only counted or recorded. -/
structure Ledger (K : PipelineParams) where
  bpu : BranchUnit K.branch
  acct : Account
  calcNxtupd : Tick
  commits : List Commit
  predictions : List (Prediction K)
  events : List (Event K)

/-- The ledgers of cores that work alike, with the same counters under `p` and the same tick of the
next update under `q`. -/
structure Ledger.Agree {K : PipelineParams} (p q : Prop) (s t : Ledger K) : Prop where
  bpu : s.bpu.Alike t.bpu
  counted : p → s.acct = t.acct ∧ s.bpu.stats = t.bpu.stats
  wake : q → s.calcNxtupd = t.calcNxtupd
  commits : s.commits.map Commit.when = t.commits.map Commit.when

namespace Pipeline

variable {K : PipelineParams} {p q : Prop} {now : Nat} {c : Pipeline K} {s t : Ledger K}

def ledger (c : Pipeline K) : Ledger K :=
  { bpu := c.bpu, acct := c.acct, calcNxtupd := c.calcNxtupd, commits := c.commits
    predictions := c.predictions, events := c.events }

def withLedger (t : Ledger K) (c : Pipeline K) : Pipeline K :=
  { c with
    bpu := t.bpu, acct := t.acct, calcNxtupd := t.calcNxtupd, commits := t.commits
    predictions := t.predictions, events := t.events }

theorem withLedger_simPipe (t : Ledger K) (c : Pipeline K) :
    (c.withLedger t).simPipe = c.simPipe := rfl

theorem withLedger_fetchQueue (t : Ledger K) (c : Pipeline K) :
    (c.withLedger t).fetchQueue = c.fetchQueue := rfl

theorem withLedger_fetch (t : Ledger K) (c : Pipeline K) : (c.withLedger t).fetch = c.fetch := rfl

theorem withLedger_inputBuffer (t : Ledger K) (c : Pipeline K) :
    (c.withLedger t).inputBuffer = c.inputBuffer := rfl

inductive Twin (p q : Prop) (c : Pipeline K) : Pipeline K → Prop
  | mk (t : Ledger K) (h : c.ledger.Agree p q t) : Twin p q c (c.withLedger t)

end Pipeline

namespace Ledger.Agree

variable {K : PipelineParams} {p q : Prop} {s t : Ledger K}

theorem refl (s : Ledger K) : s.Agree p q s :=
  ⟨.refl s.bpu, fun _ => ⟨rfl, rfl⟩, fun _ => rfl, rfl⟩

theorem acct (h : s.Agree p q t) (f : Account → Account) :
    Agree p q { s with acct := f s.acct } { t with acct := f t.acct } :=
  ⟨h.bpu, fun hp => ⟨congrArg f (h.counted hp).1, (h.counted hp).2⟩, h.wake, h.commits⟩

theorem wakeBy (h : s.Agree p q t) (f : Tick → Tick) :
    Agree p q { s with calcNxtupd := f s.calcNxtupd } { t with calcNxtupd := f t.calcNxtupd } :=
  ⟨h.bpu, h.counted, fun hq => congrArg f (h.wake hq), h.commits⟩

theorem unit (h : s.Agree p q t) {u v : BranchUnit K.branch} (hu : u.Alike v)
    (hs : s.bpu.stats = t.bpu.stats → u.stats = v.stats) :
    Agree p q { s with bpu := u } { t with bpu := v } :=
  ⟨hu, fun hp => ⟨(h.counted hp).1, hs (h.counted hp).2⟩, h.wake, h.commits⟩

theorem commit (h : s.Agree p q t) (x : Transaction) (now : Nat) (cause : StallCause) :
    Agree p q
      { s with
        acct := s.acct.commit now cause
        commits := s.commits ++ [⟨x, now, (s.acct.commit now cause).stats⟩] }
      { t with
        acct := t.acct.commit now cause
        commits := t.commits ++ [⟨x, now, (t.acct.commit now cause).stats⟩] } := by
  have ha := h.acct (·.commit now cause)
  refine ⟨ha.bpu, ha.counted, ha.wake, ?_⟩
  rw [List.map_append, List.map_append, h.commits]
  rfl

theorem records (h : s.Agree p q t) (ps ps' : List (Prediction K)) (es es' : List (Event K)) :
    Agree p q { s with predictions := ps, events := es }
      { t with predictions := ps', events := es' } :=
  ⟨h.bpu, h.counted, h.wake, h.commits⟩

end Ledger.Agree

namespace Pipeline

variable {K : PipelineParams} {p q : Prop} {now : Nat} {c : Pipeline K} {t : Ledger K}

private theorem twin_bind {α β : Type} {Q : α → β → Prop} {x y : Except Fault (Pipeline K)}
    {f : Pipeline K → Except Fault α} {g : Pipeline K → Except Fault β}
    (h : Both (Twin p q) x y)
    (hf : ∀ c t, c.ledger.Agree p q t → Both Q (f c) (g (c.withLedger t))) :
    Both Q (x >>= f) (y >>= g) := by
  refine h.bind fun c d hcd => ?_
  cases hcd with
  | mk t ht => exact hf c t ht

theorem schedule_twin (i : PipeStage) (w : Tick) (h : c.ledger.Agree p q t) :
    Both (Twin p q) (c.schedule now i w) ((c.withLedger t).schedule now i w) :=
  Both.require (.mk t h)

theorem asyncSchedule_twin (i : PipeStage) (w : Tick) (h : c.ledger.Agree p q t) :
    Both (Twin p q) (c.asyncSchedule now i w) ((c.withLedger t).asyncSchedule now i w) :=
  twin_bind (schedule_twin i w h) fun _ t ht =>
    .mk { t with calcNxtupd := min t.calcNxtupd w } (ht.wakeBy (min · w))

private theorem setReg_twin (r : Nat) (w : Tick) (h : c.ledger.Agree p q t) :
    Both (Twin p q) (c.setReg r w) ((c.withLedger t).setReg r w) :=
  Both.ite (.mk t h) (Both.require (.mk t h))

private theorem retryDecode_twin (now : Nat) (h : c.ledger.Agree p q t) :
    Both (Twin p q) (c.retryDecode now) ((c.withLedger t).retryDecode now) := by
  unfold retryDecode
  rw [withLedger_simPipe]
  cases c.simPipe .fetch with
  | none => exact .mk t h
  | some x =>
    refine Both.ite (Both.after fun ready => ?_) (.mk t h)
    exact Both.ite (schedule_twin _ _ h) (schedule_twin _ _ h)

private theorem updateRegTime_twin (now rd : Nat) (w : Tick) (h : c.ledger.Agree p q t) :
    Both (Twin p q) (c.updateRegTime now rd w) ((c.withLedger t).updateRegTime now rd w) :=
  twin_bind (setReg_twin rd w h) fun _ _ h => twin_bind (retryDecode_twin now h) fun _ _ h =>
    Both.require (.mk _ h)

private theorem doFetch1_twin (h : c.ledger.Agree p q t) :
    Both (Twin p q) (c.doFetch1 now) ((c.withLedger t).doFetch1 now) := by
  unfold doFetch1
  rw [withLedger_fetchQueue]
  cases c.fetchQueue with
  | nil => exact schedule_twin _ _ h
  | cons x rest =>
    refine Both.ite (schedule_twin _ _ h) (Both.ite ?_ (Both.require (.mk t h)))
    exact schedule_twin (c := { c with fetchQueue := _ }) _ _ h

private theorem handleIfuResp_twin (h : c.ledger.Agree p q t) :
    Both (Twin p q) (c.handleIfuResp now) ((c.withLedger t).handleIfuResp now) := by
  unfold handleIfuResp
  rw [withLedger_fetch]
  cases c.fetch.respIsOrphan with
  | nil => exact rfl
  | cons b rest =>
    refine Both.ite (.mk t h) ?_
    rw [withLedger_fetchQueue]
    dsimp only
    cases answerFirst c.fetchQueue with
    | none => exact rfl
    | some l => exact asyncSchedule_twin (c := { c with fetch := _, fetchQueue := l }) _ _ h

private theorem stallDecode_twin (w : Tick) (h : c.ledger.Agree p q t) :
    Both (Twin p q) (c.stallDecode now w) ((c.withLedger t).stallDecode now w) :=
  schedule_twin (c := { c with acct := _ }) (t := { t with acct := _ }) _ _
    (h.acct (·.setStallIf (!c.lsuActive) now .raw))

private theorem passDecode_twin (x : Transaction) (h : c.ledger.Agree p q t) :
    Both (Twin p q) (c.passDecode now x) ((c.withLedger t).passDecode now x) := by
  have ha := h.acct (·.setStallIf (!c.lsuActive) now .noInst)
  refine twin_bind (schedule_twin (c := { c with acct := _ }) (t := { t with acct := _ }) _ _ ha)
    fun _ _ h => twin_bind (setReg_twin _ _ h) fun _ _ h => ?_
  exact .mk _ h

private theorem decodeWaw_twin (x : Transaction) (h : c.ledger.Agree p q t) :
    Both (Twin p q) (c.decodeWaw now x) ((c.withLedger t).decodeWaw now x) :=
  Both.ite (Both.after fun _ => stallDecode_twin _ h) (passDecode_twin x h)

private theorem doDecode_twin (h : c.ledger.Agree p q t) :
    Both (Twin p q) (c.doDecode now) ((c.withLedger t).doDecode now) := by
  unfold doDecode
  rw [withLedger_simPipe]
  cases c.simPipe .fetch with
  | none => exact rfl
  | some x =>
    refine Both.ite ?_ (Both.ite (stallDecode_twin _ h) (Both.after fun ready => ?_))
    · exact schedule_twin (c := setSlot .fetch none { c with acct := _ })
        (t := { t with acct := _ }) _ _
        (h.acct fun a => a.setStallIf a.stall.inBrRecovery now .brMispred)
    · exact Both.ite (stallDecode_twin _ h) (decodeWaw_twin x h)

namespace Twin

variable {d c' d' : Pipeline K}

private theorem note (h : Twin p q c d) (e e' : Event K) : Twin p q (c.note e) (d.note e') := by
  cases h with
  | mk t ht => exact .mk { t with events := t.events ++ [e'] } (ht.records _ _ _ _)

private theorem flushFrontEnd (h : Twin p q c d) :
    Twin p q (c.flushFrontEnd now) (d.flushFrontEnd now) := by
  cases h with
  | mk t ht => exact .mk { t with acct := t.acct.enterRecovery now } (ht.acct (·.enterRecovery now))

private theorem update (h : Twin p q c d) (pc : Addr) (taken : Bool) (target : Addr)
    (isCall isRet hit : Bool) (pred : BranchResult) (mispred : Bool) :
    Twin p q { c with bpu := c.bpu.update pc taken target isCall isRet hit pred mispred }
      { d with bpu := d.bpu.update pc taken target isCall isRet hit pred mispred } := by
  cases h with
  | mk t ht =>
    refine .mk { t with bpu := t.bpu.update pc taken target isCall isRet hit pred mispred } ?_
    refine ht.unit (ht.bpu.update pc taken target isCall isRet hit pred mispred) fun hs => ?_
    exact (BranchUnit.update_stats ..).trans (hs.trans (BranchUnit.update_stats ..).symm)

private theorem clearBtbEntry (h : Twin p q c d) (pc : Addr) :
    Twin p q { c with bpu := c.bpu.clearBtbEntry pc } { d with bpu := d.bpu.clearBtbEntry pc } := by
  cases h with
  | mk t ht =>
    exact .mk { t with bpu := t.bpu.clearBtbEntry pc }
      (ht.unit (ht.bpu.clearBtbEntry pc) fun hs => hs)

private theorem flushFalseBtbHit (h : Twin p q c d) (x : Transaction) :
    Twin p q (c.flushFalseBtbHit now x) (d.flushFalseBtbHit now x) := by
  unfold Pipeline.flushFalseBtbHit
  dsimp only
  refine rel_ite h ?_
  have hu := rel_ite (p := (x.brPred.predTarget != 0) = true) (h.update x.traceInst.pc false 0
    false false true x.brPred x.brMispred) h
  have hc := (hu.clearBtbEntry x.traceInst.pc).note (.write now x.traceInst.pc)
    (.write now x.traceInst.pc)
  exact rel_ite hc (rel_ite hu (hc.note _ _).flushFrontEnd)

private theorem resolveBranch (h : Twin p q c d) (x : Transaction) :
    Twin p q (c.resolveBranch now x) (d.resolveBranch now x) := by
  unfold Pipeline.resolveBranch
  dsimp only
  refine rel_ite ?_ h
  have hu := h.update x.traceInst.pc x.traceInst.brTaken
    (if x.traceInst.brTaken then x.traceInst.memAddr else 0) (x.traceInst.dstReg == 1)
    (x.traceInst.srcReg0 == 1 && x.traceInst.dstReg == 0) (x.brPred.predTarget != 0) x.brPred
    x.brMispred
  have hn := rel_ite (p := x.traceInst.brTaken = true)
    (hu.note (.write now x.traceInst.pc) (.write now x.traceInst.pc)) hu
  exact rel_ite (hn.note _ _).flushFrontEnd hn

end Twin

private theorem forward_twin (inst : TraceInst) (h : c.ledger.Agree p q t) :
    Both (Twin p q) (c.forward now inst) ((c.withLedger t).forward now inst) :=
  Both.ite (Both.ite (updateRegTime_twin _ _ _ h) (updateRegTime_twin _ _ _ h)) (.mk t h)

private theorem of_twin {α : Type} {Q : α → α → Prop} {f : Pipeline K → Except Fault α}
    {d : Pipeline K} (h : Twin p q c d)
    (hf : ∀ c t, c.ledger.Agree p q t → Both Q (f c) (f (c.withLedger t))) :
    Both Q (f c) (f d) := by
  cases h with
  | mk t ht => exact hf c t ht

private theorem doExecute_twin (h : c.ledger.Agree p q t) :
    Both (Twin p q) (c.doExecute now) ((c.withLedger t).doExecute now) := by
  refine Both.require ?_
  rw [withLedger_simPipe]
  cases c.simPipe .decode with
  | none => exact rfl
  | some x =>
    refine Both.ite (.mk t h) ?_
    have ht : Twin p q c (c.withLedger t) := .mk t h
    refine twin_bind (of_twin ((ht.resolveBranch x).flushFalseBtbHit x)
      fun _ _ h => forward_twin _ h) fun _ t h => ?_
    exact schedule_twin (c := setSlot .execute _ (setSlot .decode none _)) _ _ h

private theorem issueMext_twin (s : PipeStage) (lat : Nat) (x : Transaction)
    (h : c.ledger.Agree p q t) :
    Both (Twin p q) (c.issueMext now s lat x) ((c.withLedger t).issueMext now s lat x) :=
  twin_bind (updateRegTime_twin _ _ _ h) fun _ _ h => twin_bind (schedule_twin _ _ h) fun _ _ h =>
    twin_bind (asyncSchedule_twin _ _ h) fun _ t h => .mk t h

private theorem doMulExt_twin (h : c.ledger.Agree p q t) :
    Both (Twin p q) (c.doMulExt now) ((c.withLedger t).doMulExt now) := by
  refine Both.require ?_
  rw [withLedger_simPipe]
  cases c.simPipe .decode with
  | none => exact rfl
  | some x =>
    refine Both.ite (.mk t h) ?_
    have ht : Twin p q c (c.withLedger t) := .mk t h
    exact of_twin (f := fun c => issueMext now _ _ x { c with mulReadyTick := _ })
      (ht.flushFalseBtbHit x) fun c _ h =>
        issueMext_twin (c := { c with mulReadyTick := _ }) _ _ x h

private theorem doDivExt_twin (h : c.ledger.Agree p q t) :
    Both (Twin p q) (c.doDivExt now) ((c.withLedger t).doDivExt now) := by
  refine Both.require ?_
  rw [withLedger_simPipe]
  cases c.simPipe .decode with
  | none => exact rfl
  | some x =>
    refine Both.ite (.mk t h) ?_
    have ht : Twin p q c (c.withLedger t) := .mk t h
    exact of_twin (f := fun c => issueMext now _ _ x { c with divReadyTick := _ })
      (ht.flushFalseBtbHit x) fun c _ h =>
        issueMext_twin (c := { c with divReadyTick := _ }) _ _ x h

private theorem sendLsuReq_twin (ports : Ports) (x : Transaction) (op : MemRWOpt)
    (h : c.ledger.Agree p q t) :
    Both (Twin p q) (c.sendLsuReq now ports x op) ((c.withLedger t).sendLsuReq now ports x op) :=
  twin_bind (schedule_twin _ _ h) fun _ t h => Both.ite (.mk t h) (.mk t h)

private theorem passMemory_twin (x : Transaction) (h : c.ledger.Agree p q t) :
    Both (Twin p q) (c.passMemory now x) ((c.withLedger t).passMemory now x) :=
  twin_bind (schedule_twin _ _ h) fun _ t h => .mk t h

private theorem noteLoad_twin (x : Transaction) (h : c.ledger.Agree p q t) :
    Both (Twin p q) (c.noteLoad now x) ((c.withLedger t).noteLoad now x) :=
  Both.ite (updateRegTime_twin (c := { c with loads := _ }) _ _ _ h) (.mk t h)

private theorem doMemory_twin (ports : Ports) (h : c.ledger.Agree p q t) :
    Both (Twin p q) (c.doMemory now ports) ((c.withLedger t).doMemory now ports) := by
  unfold doMemory
  rw [withLedger_simPipe]
  cases c.simPipe .execute with
  | none => exact rfl
  | some x =>
    have ha := h.acct (·.setStall now .lsuStall)
    refine Both.ite (Both.ite ?_ (schedule_twin _ _ h)) (Both.ite ?_ (Both.ite ?_ (Both.ite ?_ ?_)))
    · exact twin_bind (noteLoad_twin (c := setSlot .execute _ c) _ h)
        fun _ _ h => passMemory_twin _ h
    · exact schedule_twin (c := setSlot .execute _ { c with acct := _ })
        (t := { t with acct := _ }) _ _ ha
    · exact sendLsuReq_twin (c := { c with acct := _ }) (t := { t with acct := _ }) _ _ _ ha
    · exact twin_bind
        (sendLsuReq_twin (c := { c with acct := _ }) (t := { t with acct := _ }) _ _ _ ha)
        fun _ _ h => schedule_twin _ _ h
    · exact passMemory_twin _ h

private theorem rawAfterResp_twin (h : c.ledger.Agree p q t) :
    Both (Twin p q) (c.rawAfterResp now) ((c.withLedger t).rawAfterResp now) := by
  unfold rawAfterResp
  rw [withLedger_simPipe]
  cases c.simPipe .fetch with
  | none => exact .mk t h
  | some x =>
    refine Both.after fun rdy => ?_
    have ha : Twin p q { c with acct := c.acct.setStall now .raw }
        { c.withLedger t with acct := t.acct.setStall now .raw } :=
      .mk { t with acct := t.acct.setStall now .raw } (h.acct (·.setStall now .raw))
    exact rel_ite ha (.mk t h)

private theorem handleLsuResp_twin (h : c.ledger.Agree p q t) :
    Both (Twin p q) (c.handleLsuResp now) ((c.withLedger t).handleLsuResp now) := by
  unfold handleLsuResp
  rw [withLedger_simPipe]
  cases c.simPipe .execute with
  | none => exact rfl
  | some x =>
    refine Both.require (twin_bind (noteLoad_twin (c := setSlot .execute _ c) _ h) fun c t h => ?_)
    refine twin_bind (rawAfterResp_twin (c := { c with acct := _ }) (t := { t with acct := _ })
      (h.acct (·.setStall now .lsuStall))) fun _ _ h => ?_
    exact twin_bind (asyncSchedule_twin _ _ h) fun _ t h => .mk t h

private theorem doWriteback_twin (h : c.ledger.Agree p q t) :
    Both (Twin p q) (c.doWriteback now) ((c.withLedger t).doWriteback now) := by
  unfold doWriteback
  have hs : (c.withLedger t).commitSource now = c.commitSource now := rfl
  rw [hs]
  cases c.commitSource now with
  | none => exact schedule_twin _ _ h
  | some src =>
    dsimp only
    rw [withLedger_simPipe]
    cases c.simPipe src with
    | none => exact rfl
    | some x =>
      refine schedule_twin
        (c := { setSlot src none c with ongoingInsts := _, acct := _, commits := _ })
        (t := { t with acct := _, commits := _ }) _ _ ?_
      exact h.commit x now _

private theorem stepRedirect_uncounted (pred : BranchResult) (f : FetchState)
    (s s' : PipelineStats) :
    (stepRedirect pred f s).1 = (stepRedirect pred f s').1 := by
  unfold stepRedirect
  dsimp only
  split <;> split <;> rfl

private theorem judgeFetch_alike (inst : TraceInst) {u v : BranchUnit K.branch} (h : u.Alike v) :
    ((judgeFetch inst u).1 = (judgeFetch inst v).1 ∧
      (judgeFetch inst u).2.1 = (judgeFetch inst v).2.1) ∧
      (judgeFetch inst u).2.2.Alike (judgeFetch inst v).2.2 ∧
      (u.stats = v.stats → (judgeFetch inst u).2.2.stats = (judgeFetch inst v).2.2.stats) := by
  obtain ⟨hp, ha⟩ := h.predictAtFetch inst.pc inst.isBranch
  unfold judgeFetch
  dsimp only
  rw [hp]
  exact ⟨⟨rfl, rfl⟩, ha.judge _ _ _, fun hs =>
    BranchUnit.judge_stats (BranchUnit.predictAtFetch_stats hs _ _) _ _ _⟩

private theorem stageHandler_twin (ports : Ports) (i : PipeStage) (h : c.ledger.Agree p q t) :
    Both (Twin p q) (stageHandler now ports i c) (stageHandler now ports i (c.withLedger t)) := by
  cases i with
  | fetch => exact doFetch1_twin h
  | decode => exact doDecode_twin h
  | execute => exact doExecute_twin h
  | intMulExt => exact doMulExt_twin h
  | intDivExt => exact doDivExt_twin h
  | memory => exact doMemory_twin ports h
  | writeBack => exact doWriteback_twin h

private theorem runStage_twin (ports : Ports) (i : PipeStage) (h : c.ledger.Agree p q t) :
    Both (Twin p q) (runStage now ports c i) (runStage now ports (c.withLedger t) i) :=
  Both.ite (stageHandler_twin ports i h) (.mk t h)

namespace Twin

variable {d : Pipeline K}

private theorem of_eq (hd : d = c.withLedger d.ledger) (h : c.ledger.Agree p q d.ledger) :
    Twin p q c d := by
  rw [hd]
  exact .mk d.ledger h

private theorem fetchWrongPath (h : Twin p q c d) (now : Nat) :
    Twin p q (c.fetchWrongPath now) (d.fetchWrongPath now) := by
  cases h with
  | mk t ht =>
    obtain ⟨hp, hu⟩ := ht.bpu.predict c.fetch.wrongPathPc
    have hf : ((c.withLedger t).fetchWrongPath now).fetch = (c.fetchWrongPath now).fetch := by
      change (stepRedirect (t.bpu.predict c.fetch.wrongPathPc).1 _ _).1 =
        (stepRedirect (c.ledger.bpu.predict c.fetch.wrongPathPc).1 _ _).1
      rw [hp]
      exact stepRedirect_uncounted ..
    refine of_eq ?_ ⟨hu, fun hc => ⟨?_, ?_⟩, ht.wake, ht.commits⟩
    · exact congrArg (fun f => { (c.fetchWrongPath now).withLedger
        ((c.withLedger t).fetchWrongPath now).ledger with fetch := f }) hf
    · have ha : c.acct = t.acct := (ht.counted hc).1
      have hp : (c.bpu.predict c.fetch.wrongPathPc).1 = (t.bpu.predict c.fetch.wrongPathPc).1 := hp
      unfold ledger Pipeline.fetchWrongPath
      dsimp only [withLedger]
      rw [hp, ha]
      rfl
    · exact BranchUnit.predict_stats (ht.counted hc).2 c.fetch.wrongPathPc

private theorem fetchReal (h : Twin p q c d) (x : Transaction) :
    Twin p q (c.fetchReal now x) (d.fetchReal now x) := by
  cases h with
  | mk t ht =>
    obtain ⟨⟨hpred, hok⟩, hu, hs⟩ := judgeFetch_alike x.traceInst ht.bpu
    refine of_eq ?_ ⟨hu, fun hc => ⟨?_, hs (ht.counted hc).2⟩, ht.wake, ht.commits⟩
    · have hpred : (judgeFetch x.traceInst c.bpu).1 = (judgeFetch x.traceInst t.bpu).1 := hpred
      have hok : (judgeFetch x.traceInst c.bpu).2.1 = (judgeFetch x.traceInst t.bpu).2.1 := hok
      unfold ledger Pipeline.fetchReal
      dsimp only [withLedger]
      rw [hpred, hok]
      rfl
    · have ha : c.acct = t.acct := (ht.counted hc).1
      have hpred : (judgeFetch x.traceInst c.bpu).1 = (judgeFetch x.traceInst t.bpu).1 := hpred
      have hok : (judgeFetch x.traceInst c.bpu).2.1 = (judgeFetch x.traceInst t.bpu).2.1 := hok
      unfold ledger Pipeline.fetchReal
      dsimp only [withLedger]
      rw [hpred, hok, ha]

private theorem endWrongPath (h : Twin p q c d) : Twin p q c.endWrongPath d.endWrongPath := by
  cases h with
  | mk t ht => exact rel_ite (.mk t ht) (.mk t ht)

private theorem stall (h : Twin p q c d) (now : Nat) (cause : StallCause) :
    Twin p q { c with acct := c.acct.setStall now cause }
      { d with acct := d.acct.setStall now cause } := by
  cases h with
  | mk t ht => exact .mk { t with acct := _ } (ht.acct (·.setStall now cause))

private theorem doFetch0 (ready : Bool) (h : Twin p q c d) :
    Twin p q (c.doFetch0 now ready) (d.doFetch0 now ready) := by
  unfold Pipeline.doFetch0
  have hs := h.stall now .brMispred
  have hw := h.fetchWrongPath now
  have he := h.endWrongPath
  generalize c.endWrongPath = c', d.endWrongPath = d' at he ⊢
  cases h with
  | mk t ht =>
    have hsame : Twin p q c (c.withLedger t) := .mk t ht
    have hearly : Twin p q c.fetchEarlyRedir (c.withLedger t).fetchEarlyRedir := .mk t ht
    refine rel_ite hs (rel_ite hsame (rel_ite hearly (rel_ite (rel_ite hsame hw) ?_)))
    cases he with
    | mk t' ht' =>
      refine rel_ite (.mk t' ht') ?_
      rw [withLedger_inputBuffer]
      cases c'.inputBuffer with
      | none => exact .mk t' ht'
      | some x => exact fetchReal (.mk t' ht') x

private theorem calcSched (h : Twin p q c d) : Twin p q (c.calcSched now) (d.calcSched now) := by
  cases h with
  | mk t ht => exact .mk { t with calcNxtupd := _ } ⟨ht.bpu, ht.counted, fun _ => rfl, ht.commits⟩

end Twin

namespace Twin

variable {d : Pipeline K}

theorem recvMemResp (h : Twin p q c d) (x : CpuTrans) :
    Both (Twin p q) (c.recvMemResp now x) (d.recvMemResp now x) := by
  cases h with
  | mk t ht =>
    exact Both.ite (Both.require (handleIfuResp_twin ht)) (Both.ite (handleLsuResp_twin ht) rfl)

theorem ackMemAvail (h : Twin p q c d) (a : AckTrans) :
    Both (Twin p q) (c.ackMemAvail now a) (d.ackMemAvail now a) := by
  cases h with
  | mk t ht =>
    refine Both.ite (asyncSchedule_twin _ _ ht) (Both.ite ?_ rfl)
    rw [withLedger_simPipe]
    cases c.simPipe .execute with
    | none => exact .mk t ht
    | some x => exact Both.ite (asyncSchedule_twin _ _ ht) (.mk t ht)

theorem updateImpl (h : Twin p q c d) (ports : Ports) :
    Both (Twin p q) (c.updateImpl now ports) (d.updateImpl now ports) := by
  have hb : Twin p q { c with bpu := c.bpu.beginTick } { d with bpu := d.bpu.beginTick } := by
    cases h with
    | mk t ht => exact .mk { t with bpu := t.bpu.beginTick } (ht.unit ht.bpu.beginTick fun hs => hs)
  refine twin_bind (Both.foldlM (S := Twin p q) ?_ PipeStage.reverseOrder hb) fun c t h => ?_
  · intro i c d h
    cases h with
    | mk t ht => exact runStage_twin ports i ht
  · exact (Twin.doFetch0 ports.imem (.mk t h)).calcSched

theorem doUpdate (hq : q) (h : Twin p q c d) (ports : Ports) :
    Both (Twin p q) (c.doUpdate now ports) (d.doUpdate now ports) := by
  unfold Pipeline.doUpdate
  have hn : d.nextUpdate = c.nextUpdate := by
    cases h with
    | mk t ht => exact (ht.wake hq).symm
  rw [hn]
  exact Both.ite (h.updateImpl ports) h

theorem feedInst (h : Twin p q c d) (ready : Bool) (inst : TraceInst) :
    Both (Twin p q) (c.feedInst now ready inst) (d.feedInst now ready inst) := by
  cases h with
  | mk t ht =>
    exact Both.require
      (Twin.doFetch0 (c := { c with ongoingInsts := _, inputBuffer := _, fed := _ }) ready
        (.mk t ht))

theorem setDraining (h : Twin p q c d) : Twin p q c.setDraining d.setDraining := by
  cases h with
  | mk t ht => exact .mk t ht

theorem resetStats (h : Twin p q c d) :
    Twin p q { c.resetStats now with bpu := c.bpu.resetStats }
      { d.resetStats now with bpu := d.bpu.resetStats } := by
  cases h with
  | mk t ht =>
    have ha := (ht.acct (·.resetStats now)).unit (ht.bpu.stats {} {}) fun _ => rfl
    exact .mk { t with acct := t.acct.resetStats now, bpu := t.bpu.resetStats } ha

theorem refl (c : Pipeline K) : Twin p q c c := .mk c.ledger (.refl c.ledger)

theorem instAvail (h : Twin p q c d) : d.instAvail = c.instAvail := by
  cases h
  rfl

theorem isFinished (h : Twin p q c d) : d.isFinished = c.isFinished := by
  cases h
  rfl

theorem counted (hp : p) (h : Twin p q c d) : c.acct = d.acct := by
  cases h with
  | mk t ht => exact (ht.counted hp).1

theorem commits (h : Twin p q c d) : c.commits.map Commit.when = d.commits.map Commit.when := by
  cases h with
  | mk t ht => exact ht.commits

theorem send (h : Twin p q c d) :
    d.calls = c.calls ∧ Twin p q { c with calls := [] } { d with calls := [] } := by
  cases h with
  | mk t ht => exact ⟨rfl, .mk t ht⟩

end Twin

end Pipeline

end NpSim.Pipe
