/- digest: The abstract machine of transactions: where they are and how they move, without times,
   registers or predictors; every step of the core is a sequence of its moves. -/

import NpSim.Pipe.Steps

set_option autoImplicit false
set_option relaxedAutoImplicit false

namespace NpSim.Pipe

open NpSim.Lib.Partial Relation

/-- The transactions of a core and the state that steers them. -/
structure Flow where
  input : Option Transaction
  slot : PipeStage → Option Transaction
  queue : List Transaction
  wrongPath : Bool
  wpFlushed : Bool
  /-- one flag per instruction fetch that has not been answered, oldest first -/
  orphans : List Bool
  /-- instruction fetches not handed to the cache yet -/
  fetches : List Addr
  ongoing : Nat
  fed : List TraceInst
  commits : List Transaction
  discarded : List Transaction

namespace Flow

def request (pc : Addr) (orphan : Bool) (f : Flow) : Flow :=
  { f with orphans := f.orphans ++ [orphan], fetches := f.fetches ++ [pc] }

/-- The transactions between the fetch and the Decode slot, oldest first. -/
def front (f : Flow) : List Transaction := (f.slot .fetch).toList ++ f.queue

def flushed (f : Flow) : Flow :=
  { f with
    slot := Function.update f.slot .fetch none
    queue := []
    wpFlushed := true
    orphans := f.orphans.map fun _ => true
    ongoing := f.ongoing - f.front.countP (·.countedInflight)
    discarded := f.discarded ++ f.front }

def flushedIf (b : Bool) (f : Flow) : Flow := if b then f.flushed else f

theorem flushed_slot (f : Flow) {s : PipeStage} (h : s ≠ .fetch) :
    f.flushed.slot s = f.slot s := by
  unfold flushed
  exact Function.update_of_ne h ..

/-- The unit that executes an instruction. -/
inductive ExecUnit : PipeStage → Nat → Prop
  | alu : ExecUnit .execute Trace.ExtNone
  | mul {op : Nat} (h : op = Trace.IntMulH ∨ op = Trace.IntMulL) : ExecUnit .intMulExt op
  | div {op : Nat} (h : op = Trace.IntDiv ∨ op = Trace.IntRem) : ExecUnit .intDivExt op

theorem ExecUnit.behind_decode {s : PipeStage} {op : Nat} (h : ExecUnit s op) :
    s ≠ .fetch ∧ s ≠ .decode := by
  cases h <;> decide

/-- `x` may commit from slot `s`. -/
inductive Source (f : Flow) : PipeStage → Prop
  | alu : Source f .memory
  | mul (h : f.slot .memory = none) (h' : f.slot .execute = none) : Source f .intMulExt
  | div (h : f.slot .memory = none) (h' : f.slot .execute = none) : Source f .intDivExt

/-- No M-extension unit holds a writer of `dst`. -/
def NoWaw (f : Flow) (dst : Nat) : Prop :=
  ∀ s x, s = .intMulExt ∨ s = .intDivExt → f.slot s = some x → x.traceInst.dstReg ≠ dst

inductive Move (f : Flow) : Flow → Prop
  | buffer (inst : TraceInst) (h : f.input = none) : Move f { f with
      ongoing := f.ongoing + 1
      input := some { traceInst := inst, seq := f.fed.length }
      fed := f.fed ++ [inst] }
  | earlyFetch (pc : Addr) : Move f (f.request pc true)
  | wrongFetch (pc : Addr) (h : f.wrongPath = true) (h' : f.wpFlushed = false) :
      Move f { f.request pc false with queue := f.queue ++ [.wrongPath pc] }
  | endWrong (h : f.wrongPath = true) (h' : f.wpFlushed = true) :
      Move f { f with wrongPath := false, wpFlushed := false }
  | realFetch (x y : Transaction) (h : f.input = some x) (hw : f.wrongPath = false)
      (hy : Pipeline.Fetched x y) : Move f { f.request x.traceInst.pc false with
        input := none, queue := f.queue ++ [y], wrongPath := y.brMispred }
  | hold (p : Transaction) (rest : List Transaction) (n : Nat) (h : f.queue = p :: rest)
      (hp : p.waitMem = false) : Move f { f with queue := { p with bpMetaHold := n } :: rest }
  | enter (p : Transaction) (rest : List Transaction) (h : f.queue = p :: rest)
      (hp : p.waitMem = false) (hs : f.slot .fetch = none) :
      Move f { f with queue := rest, slot := Function.update f.slot .fetch (some p) }
  | orphanResp (rest : List Bool) (h : f.orphans = true :: rest) :
      Move f { f with orphans := rest }
  | resp (rest : List Bool) (q : List Transaction) (h : f.orphans = false :: rest)
      (hq : Pipeline.answerFirst f.queue = some q) :
      Move f { f with orphans := rest, queue := q }
  | drop (x : Transaction) (h : f.slot .fetch = some x) (hx : x.isWrongPath = true) :
      Move f { f with slot := Function.update f.slot .fetch none }
  | pass (x : Transaction) (h : f.slot .fetch = some x) (hx : x.isWrongPath = false)
      (hd : f.slot .decode = none)
      (hm : x.traceInst.extOp = Trace.ExtNone ∨
        f.slot .intMulExt = none ∧ f.slot .intDivExt = none)
      (hw : x.traceInst.dstReg = 0 ∨ f.NoWaw x.traceInst.dstReg) : Move f { f with
        slot := Function.update (Function.update f.slot .fetch none) .decode (some x) }
  | issue (s : PipeStage) (x : Transaction) (now : Nat) (b : Bool)
      (h : f.slot .decode = some x) (hs : f.slot s = none)
      (hu : ExecUnit s x.traceInst.extOp)
      (hb : b = true → x.brMispred = true) (hb' : s = .execute → b = x.brMispred) :
      Move f { f.flushedIf b with
        slot := Function.update (Function.update (f.flushedIf b).slot .decode none) s
          (some { x with execAt := now }) }
  | wait (x : Transaction) (h : f.slot .execute = some x) (hx : x.waitMem = false) : Move f { f with
      slot := Function.update f.slot .execute (some { x with waitMem := true }) }
  | toMemory (x : Transaction) (w : Tick) (h : f.slot .execute = some x)
      (hm : f.slot .memory = none) : Move f { f with
        slot := Function.update (Function.update f.slot .execute none) .memory
          (some { x with waitMem := false, respAt := w }) }
  | commit (s : PipeStage) (x : Transaction) (h : f.slot s = some x) (hs : f.Source s) :
      Move f { f with
        slot := Function.update f.slot s none
        ongoing := f.ongoing - 1
        commits := f.commits ++ [x] }
  | sent : Move f { f with fetches := [] }

def init : Flow where
  input := none
  slot := fun _ => none
  queue := []
  wrongPath := false
  wpFlushed := false
  orphans := []
  fetches := []
  ongoing := 0
  fed := []
  commits := []
  discarded := []

end Flow

def PortCall.fetchAddr : PortCall → Option Addr
  | .fetch addr => some addr
  | .lsu .. => none

namespace Pipeline

variable {K : PipelineParams} {now : Nat} {c c' : Pipeline K}

/-- The abstraction of a core. -/
def flow (c : Pipeline K) : Flow where
  input := c.inputBuffer
  slot := c.simPipe
  queue := c.fetchQueue
  wrongPath := c.fetch.wrongPath
  wpFlushed := c.fetch.wpFlushed
  orphans := c.fetch.respIsOrphan
  fetches := c.calls.filterMap PortCall.fetchAddr
  ongoing := c.ongoingInsts
  fed := c.fed
  commits := c.commits.map Commit.trans
  discarded := c.discarded

theorem flow_flushFrontEnd (now : Nat) (c : Pipeline K) :
    (c.flushFrontEnd now).flow = c.flow.flushed := by
  have hcount : (c.flushFrontEnd now).ongoingInsts =
      c.ongoingInsts - c.flow.front.countP (·.countedInflight) := by
    change _ = c.ongoingInsts - ((c.simPipe .fetch).toList ++ c.fetchQueue).countP _
    unfold flushFrontEnd
    rw [List.countP_append, Nat.sub_add_eq]
    rcases hf : c.simPipe .fetch with _ | x
    · rfl
    · simp only [Option.toList_some, List.countP_singleton]
      exact Nat.sub_right_comm ..
  unfold Flow.flushed
  rw [show c.flow.ongoing = c.ongoingInsts from rfl, ← hcount]
  rfl

theorem flow_flushIf (b : Bool) (now : Nat) (c : Pipeline K) :
    (c.flushIf b now).flow = c.flow.flushedIf b := by
  unfold flushIf Flow.flushedIf
  cases b with
  | true => exact flow_flushFrontEnd now c
  | false => rfl

theorem flow_endWrongPath (hw : c.fetch.wrongPath = false ∨ c.fetch.wpFlushed = true) :
    ReflTransGen Flow.Move c.flow c.endWrongPath.flow ∧ c.endWrongPath.fetch.wrongPath = false := by
  unfold endWrongPath
  rcases Bool.eq_false_or_eq_true c.fetch.wrongPath with h | h
  · rw [if_pos h]
    have hf : c.fetch.wpFlushed = true := by
      rcases hw with hw | hw
      · rw [h] at hw
        cases hw
      · exact hw
    exact ⟨.single (.endWrong h hf), rfl⟩
  · rw [if_neg (by simp [h])]
    exact ⟨.refl, h⟩

private theorem flow_fetchReal {x : Transaction} (h : c.inputBuffer = some x)
    (hw : c.fetch.wrongPath = false) : Flow.Move c.flow (c.fetchReal now x).flow := by
  obtain ⟨y, b, a, f, ps, n, heq, hy, _, ho, hwp, hwf⟩ := fetchReal_eq now x c
  have hm := Flow.Move.realFetch (f := c.flow) x y h hw hy
  rw [heq]
  rw [hw, Bool.false_or] at hwp
  simpa only [flow, Flow.request, ho, hwp, hwf, List.filterMap_append, List.filterMap_cons,
    List.filterMap_nil, PortCall.fetchAddr] using hm

private theorem flow_fetchWrongPath (now : Nat) (hw : c.fetch.wrongPath = true)
    (hf : c.fetch.wpFlushed = false) : Flow.Move c.flow (c.fetchWrongPath now).flow := by
  obtain ⟨b, a, f, heq, _, ho, hwp, hwf, _, _⟩ := fetchWrongPath_eq now c
  have hm := Flow.Move.wrongFetch (f := c.flow) c.fetch.wrongPathPc hw hf
  rw [heq]
  simpa only [flow, Flow.request, ho, hwp, hwf, List.filterMap_append, List.filterMap_cons,
    List.filterMap_nil, PortCall.fetchAddr] using hm

private theorem flow_fetchEarlyRedir (c : Pipeline K) :
    Flow.Move c.flow c.fetchEarlyRedir.flow := by
  have hm := Flow.Move.earlyFetch (f := c.flow) c.fetch.earlyRedirSeqPc
  simpa only [flow, Flow.request, fetchEarlyRedir, issueFetch, List.filterMap_append,
    List.filterMap_cons, List.filterMap_nil, PortCall.fetchAddr] using hm

theorem doFetch0_flow (now : Nat) (ready : Bool) (c : Pipeline K) :
    ReflTransGen Flow.Move c.flow (c.doFetch0 now ready).flow := by
  rcases doFetch0_cases now ready c with ⟨_, h⟩ | ⟨_, h, _⟩ | ⟨_, _, _, h⟩ |
    ⟨_, _, _, hw, hf, _, h⟩ | ⟨_, _, _, hw, hrest⟩
  · rw [h]
    exact .refl
  · rw [h]
  · rw [h]
    exact .single (flow_fetchEarlyRedir c)
  · rw [h]
    exact .single (flow_fetchWrongPath now hw hf)
  · obtain ⟨hend, hwp⟩ := flow_endWrongPath hw
    rcases hrest with ⟨_, h⟩ | ⟨x, hx, _, h⟩
    · rw [h]
      exact hend
    · rw [h]
      have hin : c.endWrongPath.inputBuffer = some x := by
        unfold endWrongPath
        split <;> exact hx
      exact hend.tail (flow_fetchReal hin hwp)

theorem doFetch1_flow (h : c.doFetch1 now = .ok c') : ReflGen Flow.Move c.flow c'.flow := by
  rcases doFetch1_cases h with ⟨_, rfl⟩ | ⟨p, rest, hq, hp, _, rfl⟩ | ⟨p, rest, hq, hp, _, hs, rfl⟩
  · exact .refl
  · exact .single (Flow.Move.hold (f := c.flow) p rest _ hq hp)
  · exact .single (Flow.Move.enter (f := c.flow) p rest hq hp hs)

theorem handleIfuResp_flow (h : c.handleIfuResp now = .ok c') : Flow.Move c.flow c'.flow := by
  obtain ⟨b, rest, ho, ⟨rfl, rfl⟩ | ⟨q, rfl, hq, rfl⟩⟩ := handleIfuResp_cases h
  · exact Flow.Move.orphanResp (f := c.flow) rest ho
  · exact Flow.Move.resp (f := c.flow) rest q ho hq

private theorem noWaw_of {dst : Nat} (h : c.hasMextWaw dst .intMulExt = false ∧
    c.hasMextWaw dst .intDivExt = false) : c.flow.NoWaw dst := by
  rintro s x (rfl | rfl) hx hd
  · have := h.1
    change c.simPipe _ = _ at hx
    simp [hasMextWaw, hx, hd] at this
  · have := h.2
    change c.simPipe _ = _ at hx
    simp [hasMextWaw, hx, hd] at this

theorem doDecode_flow (h : c.doDecode now = .ok c') (hd : c.simPipe .decode = none) :
    ReflGen Flow.Move c.flow c'.flow := by
  obtain ⟨x, a, hx, _, ⟨hw, rfl⟩ | ⟨w, _, _, _, rfl⟩ | ⟨hp, rfl⟩⟩ := doDecode_cases h
  · exact .single (Flow.Move.drop (f := c.flow) x hx hw)
  · exact .refl
  · exact .single (Flow.Move.pass (f := c.flow) x hx hp.real hd hp.scoreboard
      (hp.waw.imp id noWaw_of))

theorem doExecute_flow (h : c.doExecute now = .ok c') (hs : c.simPipe .execute = none) :
    ReflGen Flow.Move c.flow c'.flow := by
  obtain ⟨x, hx, _, ⟨_, rfl⟩ | ⟨b, l, d, he, rfl, rfl⟩⟩ := doExecute_cases h
  · exact .refl
  · have hm := Flow.Move.issue (f := c.flow) .execute x now x.brMispred hx hs (he ▸ .alu) id
      fun _ => rfl
    have hf := flow_flushIf x.brMispred now ({ c with bpu := b, events := l } : Pipeline K)
    refine .single ?_
    rw [show c.flow = ({ c with bpu := b, events := l } : Pipeline K).flow from rfl, ← hf] at hm
    exact hm

private theorem mext_flow {s : PipeStage} {lat : Nat} (h : MextCases now c c' s lat)
    (hs : c.simPipe s = none) : ReflGen Flow.Move c.flow c'.flow := by
  obtain ⟨x, hx, _, ⟨_, rfl⟩ | ⟨b, l, d, he, rfl, rfl⟩⟩ := h
  · exact .refl
  · have hu : Flow.ExecUnit s x.traceInst.extOp ∧ s ≠ .execute := by
      cases he with
      | mul hop => exact ⟨.mul hop, by decide⟩
      | div hop => exact ⟨.div hop, by decide⟩
    have hm := Flow.Move.issue (f := c.flow) s x now (!x.traceInst.isBranch && x.brMispred) hx hs
      hu.1 (fun hb => (Bool.and_eq_true .. ▸ hb).2) fun hse => absurd hse hu.2
    have hf := flow_flushIf (!x.traceInst.isBranch && x.brMispred) now
      ({ c with bpu := b, events := l } : Pipeline K)
    refine .single ?_
    rw [show c.flow = ({ c with bpu := b, events := l } : Pipeline K).flow from rfl, ← hf] at hm
    exact hm

private theorem flow_sendCall (inst : TraceInst) (op : MemRWOpt) (l : List PortCall) :
    (l ++ [lsuCall K inst op]).filterMap PortCall.fetchAddr =
      l.filterMap PortCall.fetchAddr := by
  simp [lsuCall, PortCall.fetchAddr]

theorem doMemory_flow {ports : Ports} (h : c.doMemory now ports = .ok c')
    (hs : c.simPipe .memory = none) : ReflGen Flow.Move c.flow c'.flow := by
  obtain ⟨x, hx, ⟨_, _, rfl⟩ | ⟨_, _, rfl⟩ | ⟨hw, _, rfl⟩ | ⟨op, hw, _, _, _, rfl⟩ |
    ⟨_, _, _, _, _, rfl⟩ | ⟨hw, _, _, rfl⟩⟩ := doMemory_cases h
  · exact .single (Flow.Move.toMemory (f := c.flow) x now hx hs)
  · exact .refl
  · exact .single (Flow.Move.wait (f := c.flow) x hx hw)
  · have hm := Flow.Move.wait (f := c.flow) x hx hw
    refine .single ?_
    simpa only [flow, flow_sendCall] using hm
  · exact .refl
  · have hm := Flow.Move.toMemory (f := c.flow) x x.respAt hx hs
    rw [show ({ x with waitMem := false, respAt := x.respAt } : Transaction) = x by
      rw [← hw]] at hm
    exact .single hm

theorem handleLsuResp_flow (h : c.handleLsuResp now = .ok c') : Flow.Move c.flow c'.flow := by
  obtain ⟨x, a, hx, _, hm, _, rfl⟩ := handleLsuResp_cases h
  exact Flow.Move.toMemory (f := c.flow) x now hx hm

theorem doWriteback_flow (h : c.doWriteback now = .ok c') : ReflGen Flow.Move c.flow c'.flow := by
  rcases doWriteback_cases h with ⟨_, rfl⟩ | ⟨s, x, cause, hs, hx, rfl⟩
  · exact .refl
  · have hsrc : c.flow.Source s := by
      rcases commitSource_cases now c with
        ⟨hc, _⟩ | ⟨hc, _⟩ | ⟨s', hc, hm, he, _, ⟨rfl, _⟩ | ⟨rfl, _⟩⟩
      · rw [hc] at hs
        cases hs
      · rw [hc] at hs
        cases hs
        exact .alu
      · rw [hc] at hs
        cases hs
        exact .div hm he
      · rw [hc] at hs
        cases hs
        exact .mul hm he
    have hm := Flow.Move.commit (f := c.flow) s x hx hsrc
    refine .single ?_
    simpa only [flow, List.map_append, List.map_cons, List.map_nil] using hm

theorem stageHandler_flow {i : PipeStage} {ports : Ports} (due : c.stageDue now i)
    (h : stageHandler now ports i c = .ok c') : ReflGen Flow.Move c.flow c'.flow := by
  cases i with
  | fetch => exact doFetch1_flow h
  | decode => exact doDecode_flow h due.1
  | execute => exact doExecute_flow h due.1
  | intMulExt => exact mext_flow (doMulExt_cases h) due.1
  | intDivExt => exact mext_flow (doDivExt_cases h) due.1
  | memory => exact doMemory_flow h due.1
  | writeBack => exact doWriteback_flow h

theorem recvMemResp_flow {t : CpuTrans} (h : c.recvMemResp now t = .ok c') :
    Flow.Move c.flow c'.flow := by
  rcases recvMemResp_cases h with ⟨_, _, h⟩ | ⟨_, h⟩
  · exact handleIfuResp_flow h
  · exact handleLsuResp_flow h

theorem ackMemAvail_flow {a : AckTrans} (h : c.ackMemAvail now a = .ok c') :
    c'.flow = c.flow := by
  rcases ackMemAvail_cases h with ⟨_, rfl⟩ | ⟨_, ⟨x, _, _, _, rfl⟩ | ⟨_, rfl⟩⟩ <;> rfl

private theorem reflTransGen_of_reflGen {f g : Flow} (h : ReflGen Flow.Move f g) :
    ReflTransGen Flow.Move f g := by
  cases h with
  | refl => exact .refl
  | single h => exact .single h

/-- The core refines the abstract machine: whatever happens to it is a sequence of moves. -/
theorem coreStep_flow (h : CoreStep now c c') : ReflTransGen Flow.Move c.flow c'.flow := by
  cases h with
  | beginTick => exact .refl
  | stage i ports due h => exact reflTransGen_of_reflGen (stageHandler_flow due h)
  | fetch0 ready => exact doFetch0_flow now ready c
  | sched => exact .refl
  | resp t h => exact .single (recvMemResp_flow h)
  | ack a h =>
    rw [ackMemAvail_flow h]
  | buffer inst h => exact .single (Flow.Move.buffer (f := c.flow) inst h)
  | drain => exact .refl
  | reset => exact .refl
  | sent => exact .single Flow.Move.sent

/-- An invariant of the abstract machine holds of every core state, at every tick and under every
environment. -/
theorem CoreReachable.flow_invariant {I : Flow → Prop} (init : I Flow.init)
    (move : ∀ f g, Flow.Move f g → I f → I g) {s : Clocked K} (h : CoreReachable s) :
    I s.core.flow := by
  refine CoreReachable.invariant (I := fun s => I s.core.flow) ?_ ?_ ?_ h
  · intro _
    exact init
  · intro now c c' hc hI
    exact invariant_of_run move hI (coreStep_flow hc)
  · intro _ _ hI
    exact hI

end Pipeline

end NpSim.Pipe
