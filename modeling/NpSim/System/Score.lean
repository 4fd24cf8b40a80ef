/- digest: The statistics of the branch unit and of the core as counts over the history since the
   last reset. -/

import NpSim.Pipe.Breakdown
import NpSim.Pipe.BtbPort
import NpSim.Pipe.Misprediction
import NpSim.System.Frames

set_option autoImplicit false
set_option relaxedAutoImplicit false

namespace NpSim.Pipe

open NpSim.Lib.Partial NpSim.Branch Relation

variable {K : PipelineParams}

namespace Event

def asks : Event K → Bool
  | .take _ y _ => y.traceInst.isBranch
  | .wrong .. => true
  | _ => false

def branch : Event K → Bool
  | .take _ y _ => y.traceInst.isBranch
  | _ => false

/-- The event is the fetch of a mispredicted record whose outcome and prediction satisfy `p`. -/
def missed (p : Bool → BranchResult → Bool) : Event K → Bool
  | .take _ y _ => y.brMispred && p (y.traceInst.isBranch && y.traceInst.brTaken) y.brPred
  | _ => false

end Event

/-- The causes of a miss, by the actual direction and the prediction. -/
def badTarget (taken : Bool) (pred : BranchResult) : Bool := taken && pred.willRedirect

def noTarget (taken : Bool) (pred : BranchResult) : Bool :=
  taken && !pred.willRedirect && pred.predTaken

def badPred (taken : Bool) (pred : BranchResult) : Bool :=
  !badTarget taken pred && !noTarget taken pred

/-- What the branch statistics are for: each counter is the number of events of its kind. -/
def scored (l : List (Event K)) : BPStats where
  accesses := l.countP Event.asks
  misses := l.countP (Event.missed fun _ _ => true)
  noTarget := l.countP (Event.missed noTarget)
  badTarget := l.countP (Event.missed badTarget)
  badPred := l.countP (Event.missed badPred)
  nonbrMispred := 0
  brAccesses := l.countP Event.branch

def see (s : BPStats) (e : Event K) : BPStats where
  accesses := s.accesses + if e.asks then 1 else 0
  misses := s.misses + if e.missed fun _ _ => true then 1 else 0
  noTarget := s.noTarget + if e.missed noTarget then 1 else 0
  badTarget := s.badTarget + if e.missed badTarget then 1 else 0
  badPred := s.badPred + if e.missed badPred then 1 else 0
  nonbrMispred := s.nonbrMispred
  brAccesses := s.brAccesses + if e.branch then 1 else 0

theorem scored_append (l l' : List (Event K)) : scored (l ++ l') = l'.foldl see (scored l) := by
  induction l' generalizing l with
  | nil => rw [List.append_nil, List.foldl_nil]
  | cons e l' ih =>
    have hone : scored (l ++ [e]) = see (scored l) e := by
      simp only [scored, see, List.countP_append, List.countP_singleton]
    rw [List.append_cons, ih, hone, List.foldl_cons]

/-- Each miss has one cause. -/
theorem scored_misses (l : List (Event K)) :
    (scored l).misses = (scored l).noTarget + (scored l).badTarget + (scored l).badPred := by
  induction l with
  | nil => rfl
  | cons e l ih =>
    simp only [scored, List.countP_cons] at ih ⊢
    cases e with
    | take t y u =>
      generalize hb : (y.traceInst.isBranch && y.traceInst.brTaken) = b
      cases hm : y.brMispred with
      | false =>
        simp only [Event.missed, hm, Bool.false_and, Bool.false_eq_true, if_false, add_zero]
        exact ih
      | true =>
        simp only [Event.missed, hm, hb, Bool.true_and, if_true, badPred, noTarget, badTarget]
        cases b <;> cases y.brPred.willRedirect <;> cases y.brPred.predTaken <;>
          simp <;> omega
    | wrong | flush | write => simpa [Event.missed] using ih

namespace Event

def isFlush : Event K → Bool
  | .flush .. => true
  | _ => false

end Event

/-- A misprediction waits for its flush. -/
def Mode.pending : Mode → Nat
  | .lost _ => 1
  | _ => 0

theorem Mode.follow_balanced {l : List (Event K)} {m m' : Mode} (h : l.foldlM next m = some m') :
    l.countP (Event.missed fun _ _ => true) + m.pending = l.countP Event.isFlush + m'.pending := by
  induction l generalizing m with
  | nil =>
    cases h
    rfl
  | cons e l ih =>
    rw [List.foldlM_cons] at h
    obtain ⟨n, hn, h⟩ := Option.bind_eq_some_iff.mp h
    have hrest := ih h
    rw [List.countP_cons, List.countP_cons]
    have hone : (if e.missed fun _ _ => true then 1 else 0) + m.pending =
        (if e.isFlush then 1 else 0) + n.pending := by
      have hafter : ∀ y : Transaction,
          (if (y.brMispred && true) = true then 1 else 0) = (after y).pending := by
        intro y
        unfold after
        cases y.brMispred <;> rfl
      cases e with
      | write =>
        cases Option.some.inj (show some m = some n by cases m <;> exact hn)
        rfl
      | take t y u =>
        cases m with
        | onTrace =>
          cases hn
          simpa [Event.missed, Event.isFlush, pending] using hafter y
        | lost x => cases hn
        | flushed f =>
          simp only [next] at hn
          split at hn
          · cases hn
            simpa [Event.missed, Event.isFlush, pending] using hafter y
          · cases hn
      | wrong =>
        cases m with
        | lost x =>
          cases hn
          rfl
        | onTrace | flushed => cases hn
      | flush t y =>
        cases m with
        | lost x =>
          simp only [next] at hn
          split at hn
          · cases hn
            rfl
          · cases hn
        | onTrace | flushed => cases hn
    omega

namespace Pipeline

variable {c c' d : Pipeline K} {now : Nat}

/-- In tick `now` the histories grow and the counters with them; nothing is reset. -/
structure Grows (now : Nat) (c c' : Pipeline K) : Prop where
  events : ∃ l, c'.events = c.events ++ l ∧ (∀ e ∈ l, e.tick = now) ∧
    c'.bpu.stats = l.foldl see c.bpu.stats
  commits : ∃ l, c'.commits = c.commits ++ l ∧ (∀ e ∈ l, e.tick = now) ∧
    c'.acct.stats.insts = c.acct.stats.insts + l.length
  reset : c'.acct.stall.resetTick = c.acct.stall.resetTick

theorem Grows.trans (h : Grows now c d) (h' : Grows now d c') : Grows now c c' := by
  obtain ⟨l, he, ht, hs⟩ := h.events
  obtain ⟨l', he', ht', hs'⟩ := h'.events
  obtain ⟨m, hc, hm, hi⟩ := h.commits
  obtain ⟨m', hc', hm', hi'⟩ := h'.commits
  refine ⟨⟨l ++ l', ?_, ?_, ?_⟩, ⟨m ++ m', ?_, ?_, ?_⟩, h'.reset.trans h.reset⟩
  · rw [he', he, List.append_assoc]
  · intro e hmem
    exact (List.mem_append.mp hmem).elim (ht e) (ht' e)
  · rw [hs', hs, List.foldl_append]
  · rw [hc', hc, List.append_assoc]
  · intro e hmem
    exact (List.mem_append.mp hmem).elim (hm e) (hm' e)
  · rw [hi', hi, List.length_append, Nat.add_assoc]

theorem Grows.of_same (he : c'.events = c.events) (hs : c'.bpu.stats = c.bpu.stats)
    (hc : c'.commits = c.commits) (ha : c.acct.Charges now c'.acct) : Grows now c c' :=
  ⟨⟨[], by rw [he, List.append_nil], List.forall_mem_nil _, hs⟩,
    ⟨[], by rw [hc, List.append_nil], List.forall_mem_nil _, ha.insts⟩, ha.reset⟩

theorem Grows.refl (now : Nat) (c : Pipeline K) : Grows now c c :=
  .of_same rfl rfl rfl (Account.Charges.refl now _)

private theorem judge_stats (taken : Bool) (target : Addr) (pred : BranchResult)
    (u : BranchUnit K.branch) : (u.judge taken target pred).2.stats =
      let miss := !(u.judge taken target pred).1
      { u.stats with
        misses := u.stats.misses + if miss && true then 1 else 0
        noTarget := u.stats.noTarget + if miss && noTarget taken pred then 1 else 0
        badTarget := u.stats.badTarget + if miss && badTarget taken pred then 1 else 0
        badPred := u.stats.badPred + if miss && badPred taken pred then 1 else 0 } := by
  unfold BranchUnit.judge
  dsimp only
  cases BranchUnit.accurate taken target pred with
  | true => simp
  | false =>
    cases taken <;> cases hw : pred.willRedirect <;> cases hp : pred.predTaken <;>
      simp [noTarget, badTarget, badPred, hw, hp]

private theorem predictAtFetch_stats (pc : Addr) (b : Bool) (u : BranchUnit K.branch) :
    (u.predictAtFetch pc b).2.stats = { u.stats with
      accesses := u.stats.accesses + if b then 1 else 0
      brAccesses := u.stats.brAccesses + if b then 1 else 0 } := by
  cases b <;> rfl

private theorem judgeFetch_stats (u v : BranchUnit K.branch) (now : Nat) {y : Transaction}
    (hp : y.brPred = (judgeFetch y.traceInst u).1)
    (hm : y.brMispred = !(judgeFetch y.traceInst u).2.1) :
    (judgeFetch y.traceInst u).2.2.stats = see u.stats (.take now y v) := by
  unfold judgeFetch at hp hm ⊢
  simp only at hp hm ⊢
  rw [judge_stats, predictAtFetch_stats]
  simp only [see, Event.asks, Event.missed, Event.branch, hm, hp]
  rfl

private theorem Grows.of_event {e : Event K} (he : c'.events = c.events ++ [e]) (ht : e.tick = now)
    (hs : c'.bpu.stats = see c.bpu.stats e) (hc : c'.commits = c.commits)
    (ha : c.acct.Charges now c'.acct) : Grows now c c' := by
  refine ⟨⟨[e], he, ?_, hs⟩, ⟨[], by rw [hc, List.append_nil], List.forall_mem_nil _, ha.insts⟩,
    ha.reset⟩
  intro x hx
  rw [List.mem_singleton.mp hx, ht]

private theorem fetchReal_grows (now : Nat) (x : Transaction) (c : Pipeline K) :
    Grows now c (c.fetchReal now x) := by
  let r := judgeFetch x.traceInst c.bpu
  let y := { x with
    waitMem := true, bpMetaHold := metaHold x c.bpu, brPred := r.1, brMispred := !r.2.1 }
  have hstats : (c.fetchReal now x).bpu.stats = see c.bpu.stats (.take now y c.bpu) :=
    judgeFetch_stats (y := y) c.bpu c.bpu now rfl rfl
  obtain ⟨_, b, a, f, ps, n, heq, _, ha, _⟩ := fetchReal_eq now x c
  have hacct : c.acct.Charges now (c.fetchReal now x).acct := by
    rw [heq]
    exact ha
  exact .of_event (e := .take now y c.bpu) rfl rfl hstats rfl hacct

theorem doFetch0_grows (now : Nat) (ready : Bool) (c : Pipeline K) :
    Grows now c (c.doFetch0 now ready) := by
  have hend : Grows now c c.endWrongPath := by
    unfold endWrongPath
    split
    · exact .of_same rfl rfl rfl (.refl now c.acct)
    · exact .refl now c
  rcases doFetch0_cases now ready c with ⟨_, h⟩ | ⟨_, h, _⟩ | ⟨_, _, _, h⟩ |
    ⟨_, _, _, _, _, _, h⟩ | ⟨_, _, _, _, ⟨_, h⟩ | ⟨x, _, _, h⟩⟩ <;> rw [h]
  · exact .of_same rfl rfl rfl (Account.charges_setStall ..)
  · exact .refl now c
  · exact .of_same rfl rfl rfl (.refl now c.acct)
  · obtain ⟨b, a, f, heq, ha, _⟩ := fetchWrongPath_eq now c
    have hacct : c.acct.Charges now (c.fetchWrongPath now).acct := by
      rw [heq]
      exact ha
    exact .of_event (e := .wrong now c.fetch.wrongPathPc c.bpu) rfl rfl rfl rfl hacct
  · exact hend
  · exact hend.trans (fetchReal_grows now x _)

private theorem update_stats (u : BranchUnit K.branch) (pc : Addr) (taken : Bool) (target : Addr)
    (isCall isRet btbHit : Bool) (pred : BranchResult) (mispred : Bool) :
    (u.update pc taken target isCall isRet btbHit pred mispred).stats = u.stats := by
  unfold BranchUnit.update BranchUnit.updateBtb
  cases taken <;> rfl

private theorem resolveBranch_stats (x : Transaction) (now : Nat) (c : Pipeline K) :
    (c.resolveBranch now x).bpu.stats = c.bpu.stats := by
  unfold resolveBranch
  dsimp only
  split
  · cases x.traceInst.brTaken <;> cases x.brMispred <;> exact update_stats ..
  · rfl

private theorem resolution_see (now : Nat) (x : Transaction) (s : BPStats) :
    (∀ e ∈ resolution (K := K) now x, e.tick = now) ∧
      (resolution (K := K) now x).foldl see s = s := by
  unfold resolution
  split
  · cases x.traceInst.brTaken <;> cases x.brMispred <;> simp [Event.tick] <;> rfl
  · exact ⟨List.forall_mem_nil _, rfl⟩

private theorem unscored_decode (hp : c.bets.Plain) {x : Transaction}
    (hx : c.simPipe .decode = some x) : Unpredicted x := by
  intro hb
  exact hp x.strip (by rw [head_line hx]; exact List.mem_cons_self) hb

private theorem mext_grows {s : PipeStage} {lat : Nat} (h : MextCases now c c' s lat)
    (hsame : ∀ x, c.simPipe .decode = some x → c'.events = c.events ∧ c'.bpu = c.bpu) :
    Grows now c c' := by
  obtain ⟨x, hx, _, ⟨_, rfl⟩ | ⟨b, l, d, _, rfl, heq⟩⟩ := h
  · exact .refl now _
  · obtain ⟨he, hb⟩ := hsame x hx
    obtain ⟨ha, hc, _⟩ := flushIf_acct now (!x.traceInst.isBranch && x.brMispred)
      ({ c with bpu := b, events := l } : Pipeline K)
    refine .of_same he (by rw [hb]) ?_ ?_ <;> rw [heq]
    · exact hc
    · exact ha

theorem stageHandler_grows {i : PipeStage} {ports : Ports} (hp : c.bets.Plain)
    (h : stageHandler now ports i c = .ok c') : Grows now c c' := by
  cases i with
  | fetch =>
    rcases doFetch1_cases h with ⟨_, rfl⟩ | ⟨p, rest, _, _, _, rfl⟩ | ⟨p, rest, _, _, _, _, rfl⟩ <;>
      exact .of_same rfl rfl rfl (.refl now c.acct)
  | decode =>
    obtain ⟨x, a, _, ha, ⟨_, rfl⟩ | ⟨w, _, _, _, rfl⟩ | ⟨_, rfl⟩⟩ := doDecode_cases h <;>
      exact .of_same rfl rfl rfl ha
  | execute =>
    obtain ⟨x, hx, _, ⟨_, rfl⟩ | ⟨b, l, d, he, rfl, heq⟩⟩ := doExecute_cases h
    · exact .refl now _
    · have hun := unscored_decode hp hx
      have hstats := congrArg BranchUnit.stats (doExecute_bpu h hx he hun)
      obtain ⟨htick, hsee⟩ := resolution_see (K := K) now x c.bpu.stats
      obtain ⟨ha, hc, _⟩ := flushIf_acct now x.brMispred
        ({ c with bpu := b, events := l } : Pipeline K)
      refine ⟨⟨_, doExecute_events h hx he hun, htick, ?_⟩, ?_, ?_⟩
      · rw [hstats, resolveBranch_stats, hsee]
      · rw [heq]
        exact ⟨[], by rw [List.append_nil]; exact hc, List.forall_mem_nil _, ha.insts⟩
      · rw [heq]
        exact ha.reset
  | intMulExt =>
    exact mext_grows (doMulExt_cases h) fun x hx =>
      ⟨doMulExt_events h hx (unscored_decode hp hx), doMulExt_bpu h hx (unscored_decode hp hx)⟩
  | intDivExt =>
    exact mext_grows (doDivExt_cases h) fun x hx =>
      ⟨doDivExt_events h hx (unscored_decode hp hx), doDivExt_bpu h hx (unscored_decode hp hx)⟩
  | memory =>
    obtain ⟨x, _, ⟨_, _, rfl⟩ | ⟨_, _, rfl⟩ | ⟨_, _, rfl⟩ | ⟨op, _, _, _, _, rfl⟩ |
      ⟨_, _, _, _, _, rfl⟩ | ⟨_, _, _, rfl⟩⟩ := doMemory_cases h
    · exact .of_same rfl rfl rfl (.refl now c.acct)
    · exact .of_same rfl rfl rfl (.refl now c.acct)
    · exact .of_same rfl rfl rfl (Account.charges_setStall ..)
    · exact .of_same rfl rfl rfl (Account.charges_setStall ..)
    · exact .of_same rfl rfl rfl (Account.charges_setStall ..)
    · exact .of_same rfl rfl rfl (.refl now c.acct)
  | writeBack =>
    rcases doWriteback_cases h with ⟨_, rfl⟩ | ⟨s, x, cause, _, _, rfl⟩
    · exact .of_same rfl rfl rfl (.refl now c.acct)
    · have hf := Account.charges_flush now c.acct
      refine ⟨⟨[], (List.append_nil _).symm, List.forall_mem_nil _, rfl⟩,
        ⟨[_], rfl, ?_, congrArg (· + 1) hf.insts⟩, hf.reset⟩
      intro e he
      rw [List.mem_singleton.mp he]

theorem doUpdate_grows {ports : Ports} (hr : CoreReachable ⟨now, c⟩)
    (h : c.doUpdate now ports = .ok c') : Grows now c c' := by
  have hstages : ∀ (l : List PipeStage) (a b : Pipeline K), CoreReachable ⟨now, a⟩ →
      l.foldlM (runStage now ports) a = .ok b → Grows now a b := by
    intro l
    induction l with
    | nil =>
      intro a b _ hab
      cases hab
      exact .refl now a
    | cons i l ih =>
      intro a b ha hab
      simp only [List.foldlM_cons] at hab
      obtain ⟨e, he, hab⟩ := bind_eq_ok.mp hab
      obtain ⟨nxt, hrun⟩ := ha
      refine Grows.trans ?_ (ih e b ⟨nxt, hrun.trans (clocked_steps (runStage_steps he))⟩ hab)
      unfold runStage at he
      split at he
      · exact stageHandler_grows (CoreReachable.plain ⟨nxt, hrun⟩) he
      · cases he
        exact .refl now _
  unfold doUpdate at h
  split at h
  · unfold updateImpl at h
    obtain ⟨d, hd, h⟩ := bind_eq_ok.mp h
    cases h
    obtain ⟨nxt, hrun⟩ := hr
    have hbegin : Grows now c { c with bpu := c.bpu.beginTick } :=
      .of_same rfl rfl rfl (.refl now c.acct)
    have hfirst := hstages _ { c with bpu := c.bpu.beginTick } d
      ⟨nxt, hrun.trans (clocked_steps (.single .beginTick))⟩ hd
    refine (hbegin.trans hfirst).trans ((doFetch0_grows now ports.imem d).trans ?_)
    exact .of_same rfl rfl rfl (.refl now _)
  · cases h
    exact .refl now _

theorem feedInst_grows {ready : Bool} {inst : TraceInst}
    (h : c.feedInst now ready inst = .ok c') : Grows now c c' := by
  obtain ⟨_, h⟩ := require_bind_eq_ok.mp h
  cases h
  refine Grows.trans ?_ (doFetch0_grows now ready _)
  exact .of_same rfl rfl rfl (.refl now _)

theorem recvMemResp_grows {t : CpuTrans} (h : c.recvMemResp now t = .ok c') : Grows now c c' := by
  rcases recvMemResp_cases h with ⟨_, _, h⟩ | ⟨_, h⟩
  · obtain ⟨b, rest, _, ⟨_, rfl⟩ | ⟨q, _, _, rfl⟩⟩ := handleIfuResp_cases h <;>
      exact .of_same rfl rfl rfl (.refl now _)
  · obtain ⟨x, a, _, _, _, ha, rfl⟩ := handleLsuResp_cases h
    exact .of_same rfl rfl rfl ha

theorem ackMemAvail_grows {a : AckTrans} (h : c.ackMemAvail now a = .ok c') : Grows now c c' := by
  rcases ackMemAvail_cases h with ⟨_, rfl⟩ | ⟨_, ⟨x, _, _, _, rfl⟩ | ⟨_, rfl⟩⟩ <;>
    exact .of_same rfl rfl rfl (.refl now _)

end Pipeline

end NpSim.Pipe

namespace NpSim.System

open NpSim.Lib.Partial NpSim.Cache NpSim.Mem NpSim.Pipe NpSim.Pipe.Pipeline

variable {S : Config}

private theorem grows_frame (now : Nat) : HostFrame (S := S) now fun h h' =>
    Grows now h.core h'.core where
  refl h := .refl now h.core
  trans _ _ _ hab hbd := hab.trans hbd
  resp _ _ _ h := recvMemResp_grows h
  ack _ _ _ h := ackMemAvail_grows h
  sent h := .of_same rfl rfl rfl (.refl now h.core.acct)
  recv h _ _ _ := .refl now h.core
  read h _ _ _ := .refl now h.core
  dcache h _ := .refl now h.core
  bypass h _ := .refl now h.core

namespace Sys

/-- The histories grow within a tick, the clock advances, or the statistics are reset right after
it. -/
private inductive Scores (s t : Sys S) : Prop
  | grows (h : Grows s.tick s.hosts.core t.hosts.core) (ht : t.tick = s.tick)
      (hp : t.phase ≠ .sysOp)
  | clock (h : t.hosts.core = s.hosts.core) (ht : t.tick = s.tick + 1)
  | reset (hs : s.phase = .sysOp) (ht : t.tick = s.tick) (hp : t.phase ≠ .sysOp)
      (h : t.hosts.core = { s.hosts.core.resetStats s.tick with
        bpu := s.hosts.core.bpu.resetStats })

private theorem loopOrHalt_ne (s : Sys S) : s.loopOrHalt.phase ≠ .sysOp := by
  unfold loopOrHalt
  dsimp only
  split <;> simp

private theorem step_scores {s t : Sys S} (hr : s.Reachable) (h : s.step false = .ok t) :
    Scores s t := by
  unfold Sys.step at h
  split at h <;> rename_i hs
  · obtain ⟨r, hr, h⟩ := bind_eq_ok.mp h
    cases h
    exact .grows ((grows_frame s.tick).updateMemory hr) rfl (by simp [commitTo])
  · cases h
    exact .grows (.refl _ _) rfl (by simp)
  · obtain ⟨r, hr, h⟩ := bind_eq_ok.mp h
    cases h
    exact .grows ((grows_frame s.tick).updateDcache hr) rfl (by simp [commitTo])
  · obtain ⟨r, hr, h⟩ := bind_eq_ok.mp h
    cases h
    obtain ⟨c, outs, _, hg⟩ := (grows_frame s.tick).updateIcache hr
    exact .grows hg rfl (by simp [commitTo])
  · obtain ⟨r, hr', h⟩ := bind_eq_ok.mp h
    cases h
    obtain ⟨c, hc, hr'⟩ := bind_eq_ok.mp hr'
    have hg := (grows_frame s.tick).runCalls hr'
    exact .grows ((doUpdate_grows hr.core hc).trans hg) rfl (by simp [commitTo])
  · unfold feed at h
    split at h
    · split at h
      · split at h
        · cases h
          exact .grows (.of_same rfl rfl rfl (.refl _ _)) rfl (by simp)
        · obtain ⟨r, hr', h⟩ := bind_eq_ok.mp h
          cases h
          obtain ⟨c, hc, hr'⟩ := bind_eq_ok.mp hr'
          have hg := (grows_frame s.tick).runCalls hr'
          exact .grows ((feedInst_grows hc).trans hg) rfl (by simp [commitTo])
      · cases h
        exact .grows (.of_same rfl rfl rfl (.refl _ _)) rfl (by simp)
    · cases h
      exact .grows (.refl _ _) rfl (by simp)
  · cases h
    exact .clock rfl rfl
  · unfold handleSysOp at h
    split at h
    · cases h
      exact .reset hs rfl (loopOrHalt_ne _) rfl
    · split at h
      · obtain ⟨r, hr', h⟩ := bind_eq_ok.mp h
        cases h
        obtain ⟨q, hq, hr'⟩ := bind_eq_ok.mp hr'
        obtain ⟨c, outs, _, hg⟩ := (grows_frame s.tick).updateIcache hq
        exact .grows (hg.trans ((grows_frame s.tick).updateDcache hr')) rfl (loopOrHalt_ne _)
      · split at h <;> cases h <;> exact .grows (.refl _ _) rfl (loopOrHalt_ne _)
  · cases h
    exact .grows (.refl _ _) rfl (by simp [hs])

/-- The statistics count what is not older than the last reset, which comes before anything else in
its tick. -/
structure Windowed (s : Sys S) : Prop where
  past : (∀ e ∈ s.hosts.core.events, e.tick ≤ s.tick) ∧ ∀ e ∈ s.hosts.core.commits, e.tick ≤ s.tick
  fresh : s.phase = .sysOp →
    (∀ e ∈ s.hosts.core.events, e.tick < s.tick) ∧ ∀ e ∈ s.hosts.core.commits, e.tick < s.tick
  since : s.hosts.core.acct.stall.resetTick ≤ s.tick
  score : s.hosts.core.bpu.stats = scored (s.hosts.core.events.filter fun e =>
    s.hosts.core.acct.stall.resetTick ≤ e.tick)
  insts : s.hosts.core.acct.stats.insts = s.hosts.core.commits.countP fun e =>
    s.hosts.core.acct.stall.resetTick ≤ e.tick

theorem windowed_init (trace : List TraceInst) (inst : TraceInst) (nxt : Tick) :
    Windowed (init S trace inst nxt) where
  past := ⟨List.forall_mem_nil _, List.forall_mem_nil _⟩
  fresh h := by cases h
  since := Nat.zero_le _
  score := rfl
  insts := rfl

private theorem Windowed.step {s t : Sys S} (h : Windowed s) (hst : Scores s t) : Windowed t := by
  cases hst with
  | grows hg ht hp =>
    obtain ⟨l, he, htick, hstats⟩ := hg.events
    obtain ⟨m, hc, hm, hi⟩ := hg.commits
    refine ⟨⟨?_, ?_⟩, fun hx => absurd hx hp, ?_, ?_, ?_⟩
    · rw [he, ht]
      intro e hmem
      exact (List.mem_append.mp hmem).elim (h.past.1 e) fun hx => (htick e hx).le
    · rw [hc, ht]
      intro e hmem
      exact (List.mem_append.mp hmem).elim (h.past.2 e) fun hx => (hm e hx).le
    · rw [hg.reset, ht]
      exact h.since
    · have hl : l.filter (fun e => decide (s.hosts.core.acct.stall.resetTick ≤ e.tick)) = l := by
        rw [List.filter_eq_self]
        intro e hmem
        rw [htick e hmem]
        exact decide_eq_true h.since
      rw [hstats, hg.reset, he, List.filter_append, hl, scored_append, h.score]
    · have hl : m.countP (fun e => decide (s.hosts.core.acct.stall.resetTick ≤ e.tick)) =
          m.length := by
        rw [List.countP_eq_length]
        intro e hmem
        rw [hm e hmem]
        exact decide_eq_true h.since
      rw [hi, hg.reset, hc, List.countP_append, hl, h.insts]
  | clock hcore ht =>
    refine ⟨⟨?_, ?_⟩, fun _ => ⟨?_, ?_⟩, ?_, ?_, ?_⟩ <;> rw [hcore]
    · exact fun e he => ht ▸ Nat.le_succ_of_le (h.past.1 e he)
    · exact fun e he => ht ▸ Nat.le_succ_of_le (h.past.2 e he)
    · exact fun e he => ht ▸ Nat.lt_succ_of_le (h.past.1 e he)
    · exact fun e he => ht ▸ Nat.lt_succ_of_le (h.past.2 e he)
    · exact ht ▸ Nat.le_succ_of_le h.since
    · exact h.score
    · exact h.insts
  | reset hs ht hp hcore =>
    obtain ⟨hev, hcm⟩ := h.fresh hs
    refine ⟨⟨?_, ?_⟩, fun hx => absurd hx hp, ?_, ?_, ?_⟩ <;> rw [hcore]
    · exact ht ▸ h.past.1
    · exact ht ▸ h.past.2
    · exact ht ▸ le_refl _
    · have hnil : s.hosts.core.events.filter (fun e => decide (s.tick ≤ e.tick)) = [] := by
        rw [List.filter_eq_nil_iff]
        intro e he
        simpa using hev e he
      exact (congrArg scored hnil).symm
    · have hzero : s.hosts.core.commits.countP (fun e => decide (s.tick ≤ e.tick)) = 0 := by
        rw [List.countP_eq_zero]
        intro e he
        simpa using hcm e he
      exact hzero.symm

/-- What the statistics of the branch unit and of the core report, in every reachable state, is what
has happened since the tick of the last reset: accesses, the fetches of branches, the misses by
cause, and the commits. Every miss has one cause; and over the whole run every mispredicted fetch
has been flushed once, but for one the front end is lost behind. -/
theorem stats_windowed {s : Sys S} (h : s.Reachable) :
    s.hosts.core.bpu.stats = scored (s.hosts.core.events.filter fun e =>
      s.hosts.core.acct.stall.resetTick ≤ e.tick) ∧
    (s.hosts.core.acct.stats.insts = s.hosts.core.commits.countP fun e =>
      s.hosts.core.acct.stall.resetTick ≤ e.tick) ∧
    s.hosts.core.bpu.stats.misses = s.hosts.core.bpu.stats.noTarget +
      s.hosts.core.bpu.stats.badTarget + s.hosts.core.bpu.stats.badPred ∧
    s.hosts.core.events.countP (Event.missed fun _ _ => true) =
      s.hosts.core.events.countP Event.isFlush +
        if s.hosts.core.fetch.wrongPath && !s.hosts.core.fetch.wpFlushed then 1 else 0 := by
  have hw : s.Reachable ∧ Windowed s :=
    h.invariant (I := fun s => s.Reachable ∧ Windowed s)
      (fun trace inst nxt => ⟨⟨trace, inst, nxt, 0, rfl⟩, windowed_init trace inst nxt⟩)
      fun a b hab hst => ⟨hab.1.step hst, hab.2.step (step_scores hab.1 hst)⟩
  refine ⟨hw.2.score, hw.2.insts, ?_, ?_⟩
  · rw [hw.2.score]
    exact scored_misses _
  · obtain ⟨m, hm⟩ := h.core.obeys
    have hbal := Mode.follow_balanced (m := .onTrace) hm.follow
    refine hbal.trans (congrArg _ ?_)
    have hagrees := hm.agrees
    cases m with
    | onTrace =>
      have hwp : s.hosts.core.fetch.wrongPath = false := hagrees
      simp [hwp, Mode.pending]
    | lost x =>
      have hwp : s.hosts.core.fetch.wrongPath = true := hagrees.wrongPath
      have hwf : s.hosts.core.fetch.wpFlushed = false := hagrees.notFlushed
      simp [hwp, hwf, Mode.pending]
    | flushed f =>
      have hor : s.hosts.core.fetch.wrongPath = false ∨ s.hosts.core.fetch.wpFlushed = true :=
        hagrees.1
      rcases hor with hx | hx <;> simp [hx, Mode.pending]

/-- The misprediction of the first branch falls before the reset in tick 2, that of the second after
it; both have been flushed. -/
theorem stats_windowed_reset : ∃ s : Sys (Config.plain 0 true), s.Reachable ∧
    s.hosts.core.bpu.stats.misses = 1 ∧
    s.hosts.core.bpu.stats = scored (s.hosts.core.events.filter fun e => 2 ≤ e.tick) ∧
    s.hosts.core.events.countP Event.isFlush = 2 := by
  obtain ⟨s, hrun, hobs⟩ := exists_of_observed
    (x := run false 300 (init (Config.plain 0 true)
      [{ pc := 0x80000000, memAddr := 0x80000010, isBranch := true, brTaken := true },
        { pc := 0x80000010, sysOp := Trace.SysResetStats },
        { pc := 0x80000014, memAddr := 0x80000020, isBranch := true, brTaken := true },
        { pc := 0x80000020 }] {} 0))
    (f := fun s => (s.hosts.core.acct.stall.resetTick, s.hosts.core.bpu.stats.misses,
      s.hosts.core.events.countP (Event.missed fun _ _ => true), s.hosts.core.fetch.wrongPath))
    (b := (2, 1, 2, false)) (by decide +kernel)
  simp only [Prod.mk.injEq] at hobs
  obtain ⟨hreset, hmiss, htotal, hwp⟩ := hobs
  have hs : s.Reachable := ⟨_, _, _, _, hrun⟩
  obtain ⟨hscore, _, _, hbal⟩ := stats_windowed hs
  rw [hreset] at hscore
  refine ⟨s, hs, hmiss, hscore, ?_⟩
  rw [htotal, hwp] at hbal
  exact hbal.symm

end Sys

end NpSim.System
