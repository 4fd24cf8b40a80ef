/- digest: The misprediction protocol: what the front end may do between the fetch of a
   mispredicted branch, its flush, and the next fetch from the trace. -/

import NpSim.Pipe.Speculation

set_option autoImplicit false
set_option relaxedAutoImplicit false

namespace NpSim.Pipe

open NpSim.Lib.Partial NpSim.Branch Relation

variable {K : PipelineParams}

/-- Where the front end stands: it follows the trace, it is lost behind the misprediction of `x`,
or it has been flushed at a tick and has not fetched from the trace since. -/
inductive Mode
  | onTrace
  | lost (x : Transaction)
  | flushed (f : Nat)

namespace Mode

/-- The mode after the fetch of the buffered record as `y`. -/
def after (y : Transaction) : Mode := if y.brMispred then .lost y else .onTrace

/-- The events the protocol admits, and the modes they lead to. -/
def next : Mode → Event K → Option Mode
  | m, .write _ _ => some m
  | .onTrace, .take _ y _ => some (after y)
  | .flushed f, .take t y _ =>
    if f + Pipeline.kBranchMissPenalty ≤ t then some (after y) else none
  | .lost x, .wrong _ _ _ => some (.lost x)
  | .lost x, .flush t y => if y.seq = x.seq then some (.flushed t) else none
  | _, _ => none

/-- How often the misprediction at position `n` has been flushed. -/
def flushesOf (n : Nat) : Mode → Nat
  | .lost x => if n = x.seq then 0 else 1
  | _ => 1

/-- The mode a sequence of events leads to, if the protocol admits it. -/
def follow (l : List (Event K)) : Option Mode := l.foldlM next .onTrace

theorem follow_append {l l' : List (Event K)} {m : Mode} (h : follow l = some m) :
    follow (l ++ l') = l'.foldlM next m := by
  unfold follow at h ⊢
  rw [List.foldlM_append, h]
  rfl

theorem follow_write {l ws : List (Event K)} {m : Mode} (h : follow l = some m)
    (hw : ∀ e ∈ ws, ∃ t pc, e = .write t pc) : follow (l ++ ws) = some m := by
  rw [follow_append h]
  clear h
  induction ws with
  | nil => rfl
  | cons e ws ih =>
    obtain ⟨t, pc, rfl⟩ := hw e List.mem_cons_self
    have hrest : ws.foldlM next m = some m :=
      ih fun e he => hw e (List.mem_cons_of_mem _ he)
    rw [List.foldlM_cons]
    cases m <;> exact hrest

end Mode

inductive EventKind | take | wrong | flush | write
  deriving DecidableEq

namespace Event

def mark : Event K → EventKind × Nat
  | .take t _ _ => (.take, t)
  | .wrong t _ _ => (.wrong, t)
  | .flush t _ => (.flush, t)
  | .write t _ => (.write, t)

def taken : Event K → Option Nat
  | .take _ y _ => some y.seq
  | _ => none

def flushes (n : Nat) : Event K → Bool
  | .flush _ x => x.seq == n
  | _ => false

end Event

namespace Pipeline

variable {now : Nat} {c c' : Pipeline K}

def taken (c : Pipeline K) : Nat := c.fed.length - c.inputBuffer.toList.length

/-- The front end is lost behind the misprediction of `x`: `x` is a branch, the youngest record
past the input buffer, and the only misprediction up to the Decode slot; it is still there unless
it was issued to an M-extension unit. -/
structure Lost (x : Transaction) (c : Pipeline K) : Prop where
  branch : x.traceInst.isBranch = true
  mispred : x.brMispred = true
  wrongPath : c.fetch.wrongPath = true
  notFlushed : c.fetch.wpFlushed = false
  youngest : x.seq + 1 = c.taken
  only : ∀ z ∈ c.bets.line, z.brMispred = true → z.seq = x.seq
  waits : x.traceInst.extOp = Trace.ExtNone → ∃ z ∈ c.bets.line, z.seq = x.seq ∧
    z.brMispred = true ∧ z.traceInst = x.traceInst ∧ z.isWrongPath = false

/-- The state of the front end is the one its mode says. -/
def Agrees (c : Pipeline K) : Mode → Prop
  | .onTrace => c.fetch.wrongPath = false
  | .lost x => Lost x c
  | .flushed f => (c.fetch.wrongPath = false ∨ c.fetch.wpFlushed = true) ∧
      f + kBranchMissPenalty ≤ c.fetch.resumeTick

/-- The events so far follow the protocol, and every misprediction has been flushed once, except
the one the front end is lost behind. -/
structure Obeys (m : Mode) (c : Pipeline K) : Prop where
  follow : Mode.follow c.events = some m
  agrees : c.Agrees m
  input : ∀ x, c.inputBuffer = some x → x.seq + 1 = c.fed.length
  order : c.events.filterMap Event.taken = List.range c.taken
  flushed : ∀ f x, Event.flush f x ∈ c.events → x.traceInst.isBranch = true ∧ x.seq < c.taken
  once : ∀ t y u, Event.take t y u ∈ c.events → y.brMispred = true →
    c.events.countP (Event.flushes y.seq) = m.flushesOf y.seq

/-- What remains of the line when instructions leave it without a flush: only placeholders,
correctly predicted instructions and those of the M-extension leave. -/
def Keeps (l l' : List Transaction) : Prop :=
  (∀ z ∈ l', z ∈ l) ∧
    ∀ z ∈ l, z ∈ l' ∨ z.isWrongPath = true ∨ z.brMispred = false ∨
      z.traceInst.extOp ≠ Trace.ExtNone

/-- The steering state of the front end, without the line. -/
structure SameFront (c c' : Pipeline K) : Prop where
  wrongPath : c'.fetch.wrongPath = c.fetch.wrongPath
  wpFlushed : c'.fetch.wpFlushed = c.fetch.wpFlushed
  resumeTick : c'.fetch.resumeTick = c.fetch.resumeTick
  input : ∀ x, c'.inputBuffer = some x → x.seq + 1 = c'.fed.length ∨
    c.inputBuffer = some x ∧ c'.fed = c.fed
  taken : c'.taken = c.taken

/-- What a step does to the front end. -/
inductive Turn (now : Nat) (c c' : Pipeline K) : Prop
  | stay (ws : List (Event K)) (hw : ∀ e ∈ ws, ∃ t pc, e = .write t pc)
      (events : c'.events = c.events ++ ws) (line : Keeps c.bets.line c'.bets.line)
      (front : SameFront c c')
  | endWrong (hw : c.fetch.wrongPath = false ∨ c.fetch.wpFlushed = true)
      (he : c' = c.endWrongPath)
  | wrong (pc : Addr) (hw : c.fetch.wrongPath = true) (hf : c.fetch.wpFlushed = false)
      (events : c'.events = c.events ++ [.wrong now pc c.bpu])
      (line : c'.bets.line = c.bets.line ++ [(Transaction.wrongPath pc).strip])
      (front : SameFront c c')
  | take (x y : Transaction) (hx : c.inputBuffer = some x) (hy : Fetched x y)
      (hr : c.fetch.resumeTick ≤ now)
      (hw : c.fetch.wrongPath = false ∨ c.fetch.wpFlushed = true)
      (events : c'.events = c.events ++ [.take now y c.bpu])
      (line : c'.bets.line = c.bets.line ++ [y.strip]) (input : c'.inputBuffer = none)
      (fed : c'.fed = c.fed) (wrongPath : c'.fetch.wrongPath = y.brMispred)
      (wpFlushed : c'.fetch.wpFlushed = c.endWrongPath.fetch.wpFlushed)
  | flush (x : Transaction) (ws : List (Event K)) (hw : ∀ e ∈ ws, ∃ t pc, e = .write t pc)
      (hx : x.strip ∈ c.bets.line) (hb : x.traceInst.isBranch = true)
      (hm : x.brMispred = true) (events : c'.events = c.events ++ ws ++ [.flush now x])
      (line : c'.bets.line = []) (wrongPath : c'.fetch.wrongPath = c.fetch.wrongPath)
      (wpFlushed : c'.fetch.wpFlushed = true)
      (resumeTick : c'.fetch.resumeTick = now + kBranchMissPenalty)
      (input : c'.inputBuffer = c.inputBuffer) (fed : c'.fed = c.fed)

theorem Keeps.refl (l : List Transaction) : Keeps l l := ⟨fun _ hz => hz, fun _ hz => .inl hz⟩

theorem Keeps.of_eq {l l' : List Transaction} (h : l' = l) : Keeps l l' := h ▸ Keeps.refl l

theorem Keeps.tail {x : Transaction} {l : List Transaction}
    (hx : x.isWrongPath = true ∨ x.brMispred = false ∨ x.traceInst.extOp ≠ Trace.ExtNone) :
    Keeps (x :: l) l := by
  refine ⟨fun z hz => List.mem_cons_of_mem x hz, fun z hz => ?_⟩
  rcases List.mem_cons.mp hz with rfl | hz
  · exact .inr hx
  · exact .inl hz

private theorem sameFront (hf : c'.fetch.wrongPath = c.fetch.wrongPath)
    (hw : c'.fetch.wpFlushed = c.fetch.wpFlushed)
    (hr : c'.fetch.resumeTick = c.fetch.resumeTick) (hi : c'.inputBuffer = c.inputBuffer)
    (hfed : c'.fed = c.fed) : SameFront c c' where
  wrongPath := hf
  wpFlushed := hw
  resumeTick := hr
  input := by
    intro x hx
    exact .inr ⟨hi ▸ hx, hfed⟩
  taken := by
    unfold taken
    rw [hi, hfed]

private theorem turn_stay (hev : c'.events = c.events) (hl : Keeps c.bets.line c'.bets.line)
    (hf : SameFront c c') : Turn now c c' :=
  .stay [] (fun e he => by cases he) (by rw [hev, List.append_nil]) hl hf

private theorem doFetch1_turn (h : c.doFetch1 now = .ok c') : Turn now c c' := by
  have hl : Keeps c.bets.line c'.bets.line := Keeps.of_eq (by rw [doFetch1_bets h])
  rcases doFetch1_cases h with ⟨_, rfl⟩ | ⟨p, rest, _, _, _, rfl⟩ | ⟨p, rest, _, _, _, _, rfl⟩
  · exact turn_stay rfl hl (sameFront rfl rfl rfl rfl rfl)
  · exact turn_stay rfl hl (sameFront rfl rfl rfl rfl rfl)
  · exact turn_stay rfl hl (sameFront rfl rfl rfl rfl rfl)

private theorem doDecode_turn (h : c.doDecode now = .ok c') (hd : c.simPipe .decode = none) :
    Turn now c c' := by
  obtain ⟨x, a, hx, _, ⟨hw, rfl⟩ | ⟨w, _, _, _, rfl⟩ | ⟨_, rfl⟩⟩ := doDecode_cases h
  · refine turn_stay rfl ?_ (sameFront rfl rfl rfl rfl rfl)
    have hl : c.bets.line = x.strip :: c.fetchQueue.map Transaction.strip := by
      change c.flow.line.map Transaction.strip = _
      rw [line_eq, hd, hx]
      simp
    have hl' : ({ c with
        acct := a
        simPipe := Function.update c.simPipe .fetch none
        stageUpdate := Function.update c.stageUpdate .decode ((now + 1 : Nat) : Tick) } :
        Pipeline K).bets.line = c.fetchQueue.map Transaction.strip := by
      change List.map _ _ = _
      rw [line_eq]
      simp [hd]
    rw [hl, hl']
    exact Keeps.tail (.inl hw)
  · exact turn_stay rfl (Keeps.refl _) (sameFront rfl rfl rfl rfl rfl)
  · refine turn_stay rfl (Keeps.of_eq ?_) (sameFront rfl rfl rfl rfl rfl)
    change List.map _ _ = List.map _ _
    rw [line_eq, line_eq, hd, hx]
    simp

/-- The events of the execution of `x`. -/
def resolution (now : Nat) (x : Transaction) : List (Event K) :=
  if x.traceInst.isBranch then
    (if x.traceInst.brTaken then [.write now x.traceInst.pc] else []) ++
      (if x.brMispred then [.flush now x] else [])
  else []

private theorem resolveBranch_events (x : Transaction) (now : Nat) (c : Pipeline K) :
    (c.resolveBranch now x).events = c.events ++ resolution now x := by
  unfold resolveBranch resolution
  dsimp only
  split
  · cases x.traceInst.brTaken <;> cases x.brMispred
    · exact (List.append_nil _).symm
    · rfl
    · exact congrArg (c.events ++ ·) (List.append_nil _).symm
    · exact List.append_assoc c.events _ _
  · exact (List.append_nil _).symm

theorem doExecute_events {x : Transaction} (h : c.doExecute now = .ok c')
    (hx : c.simPipe .decode = some x) (he : x.traceInst.extOp = Trace.ExtNone)
    (hp : Unpredicted x) : c'.events = c.events ++ resolution now x := by
  rw [← resolveBranch_events]
  unfold doExecute at h
  obtain ⟨_, h⟩ := require_bind_eq_ok.mp h
  simp only [hx, he, ne_eq, not_true_eq_false, if_false, flushFalseBtbHit_same hp] at h
  obtain ⟨d, hd, h⟩ := bind_eq_ok.mp h
  have := forward_ok hd
  subst this
  obtain ⟨_, rfl⟩ := schedule_eq_ok.mp h
  rfl

theorem doMulExt_events {x : Transaction} (h : c.doMulExt now = .ok c')
    (hx : c.simPipe .decode = some x) (hp : Unpredicted x) : c'.events = c.events := by
  unfold doMulExt at h
  obtain ⟨_, h⟩ := require_bind_eq_ok.mp h
  simp only [hx, flushFalseBtbHit_same hp] at h
  split at h
  · cases h
    rfl
  · rw [issueMext_ok h]

theorem doDivExt_events {x : Transaction} (h : c.doDivExt now = .ok c')
    (hx : c.simPipe .decode = some x) (hp : Unpredicted x) : c'.events = c.events := by
  unfold doDivExt at h
  obtain ⟨_, h⟩ := require_bind_eq_ok.mp h
  simp only [hx, flushFalseBtbHit_same hp] at h
  split at h
  · cases h
    rfl
  · rw [issueMext_ok h]

private theorem doExecute_turn (hd : c.flow.Disciplined) (hp : c.bets.Plain)
    (h : c.doExecute now = .ok c') : Turn now c c' := by
  obtain ⟨x, hx, _, ⟨_, rfl⟩ | ⟨b, l, d, he, hflush, hc'⟩⟩ := doExecute_cases h
  · exact turn_stay rfl (Keeps.refl _) (sameFront rfl rfl rfl rfl rfl)
  have hl := head_line hx
  have hun : Unpredicted x := fun hb => hp x.strip (by rw [hl]; exact List.mem_cons_self) hb
  have hev := doExecute_events h hx he hun
  cases hm : x.brMispred with
  | false =>
    have hws : ∀ e ∈ resolution (K := K) now x, ∃ t pc, e = .write t pc := by
      intro e hmem
      unfold resolution at hmem
      rw [hm] at hmem
      simp only [Bool.false_eq_true, if_false, List.append_nil] at hmem
      split at hmem
      · split at hmem
        · exact ⟨_, _, List.mem_singleton.mp hmem⟩
        · cases hmem
      · cases hmem
    rw [hm] at hflush
    refine .stay _ hws hev ?_ ?_
    · have hl' : c'.bets.line = c.flow.front.map Transaction.strip := by
        rw [hc', hflush]
        rfl
      rw [hl, hl']
      exact Keeps.tail (.inr (.inl hm))
    · rw [hc', hflush]
      exact sameFront rfl rfl rfl rfl rfl
  | true =>
    have hb : x.traceInst.isBranch = true := by
      by_contra hb
      have := (hun (by simpa using hb)).1
      rw [hm] at this
      cases this
    rw [hm] at hflush
    have hres : resolution (K := K) now x =
        (if x.traceInst.brTaken then [.write now x.traceInst.pc] else []) ++ [.flush now x] := by
      unfold resolution
      rw [if_pos hb, hm]
      rfl
    rw [hres, ← List.append_assoc] at hev
    refine .flush x (if x.traceInst.brTaken then [.write now x.traceInst.pc] else []) ?_
      (by rw [hl]; exact List.mem_cons_self) hb hm hev ?_ ?_ ?_ ?_ ?_ ?_
    · intro e hmem
      split at hmem
      · exact ⟨_, _, List.mem_singleton.mp hmem⟩
      · cases hmem
    all_goals
      rw [hc', hflush]
      rfl

private theorem mext_turn {s : PipeStage} {lat : Nat} (hp : c.bets.Plain)
    (hs : s = .intMulExt ∨ s = .intDivExt) (h : MextCases now c c' s lat)
    (hev : ∀ x, c.simPipe .decode = some x → Unpredicted x → c'.events = c.events) :
    Turn now c c' := by
  obtain ⟨x, hx, _, ⟨_, rfl⟩ | ⟨b, l, d, hu, rfl, hc'⟩⟩ := h
  · exact turn_stay rfl (Keeps.refl _) (sameFront rfl rfl rfl rfl rfl)
  have hl := head_line hx
  have hun : Unpredicted x := fun hb => hp x.strip (by rw [hl]; exact List.mem_cons_self) hb
  have hflush : (!x.traceInst.isBranch && x.brMispred) = false := by
    cases hbr : x.traceInst.isBranch with
    | true => rfl
    | false => rw [(hun hbr).1, Bool.and_false]
  have hext : x.traceInst.extOp ≠ Trace.ExtNone := by
    cases hu with
    | mul hop => rcases hop with hop | hop <;> rw [hop] <;> decide
    | div hop => rcases hop with hop | hop <;> rw [hop] <;> decide
  rw [hflush] at hc'
  refine turn_stay (hev x hx hun) ?_ ?_
  · have hl' : c'.bets.line = c.flow.front.map Transaction.strip := by
      rw [hc']
      rcases hs with rfl | rfl <;> rfl
    rw [hl, hl']
    exact Keeps.tail (.inr (.inr hext))
  · rw [hc']
    exact sameFront rfl rfl rfl rfl rfl

private theorem doMemory_turn {ports : Ports} (h : c.doMemory now ports = .ok c') :
    Turn now c c' := by
  have hl : Keeps c.bets.line c'.bets.line := Keeps.of_eq (by rw [doMemory_bets h])
  obtain ⟨x, _, ⟨_, _, rfl⟩ | ⟨_, _, rfl⟩ | ⟨_, _, rfl⟩ | ⟨op, _, _, _, _, rfl⟩ |
    ⟨_, _, _, _, _, rfl⟩ | ⟨_, _, _, rfl⟩⟩ := doMemory_cases h <;>
    exact turn_stay rfl hl (sameFront rfl rfl rfl rfl rfl)

private theorem doWriteback_turn (h : c.doWriteback now = .ok c') : Turn now c c' := by
  have hl : Keeps c.bets.line c'.bets.line := Keeps.of_eq (by rw [doWriteback_bets h])
  rcases doWriteback_cases h with ⟨_, rfl⟩ | ⟨s, x, cause, _, _, rfl⟩ <;>
    exact turn_stay rfl hl (sameFront rfl rfl rfl rfl rfl)

private theorem recvMemResp_turn {t : CpuTrans} (h : c.recvMemResp now t = .ok c') :
    Turn now c c' := by
  have hl : Keeps c.bets.line c'.bets.line := Keeps.of_eq (by rw [recvMemResp_bets h])
  rcases recvMemResp_cases h with ⟨_, _, h⟩ | ⟨_, h⟩
  · obtain ⟨b, rest, _, ⟨_, rfl⟩ | ⟨q, _, _, rfl⟩⟩ := handleIfuResp_cases h <;>
      exact turn_stay rfl hl (sameFront rfl rfl rfl rfl rfl)
  · obtain ⟨x, a, _, _, _, _, rfl⟩ := handleLsuResp_cases h
    exact turn_stay rfl hl (sameFront rfl rfl rfl rfl rfl)

private theorem doFetch0_turn (now : Nat) (ready : Bool) (c : Pipeline K) :
    Turn now c (c.doFetch0 now ready) := by
  rcases doFetch0_cases now ready c with ⟨_, h⟩ | ⟨_, h, _⟩ | ⟨_, _, _, h⟩ |
    ⟨_, _, _, hw, hf, _, h⟩ | ⟨hr, _, _, hw, ⟨_, h⟩ | ⟨x, hx, _, h⟩⟩
  · rw [h]
    exact turn_stay rfl (Keeps.refl _) (sameFront rfl rfl rfl rfl rfl)
  · rw [h]
    exact turn_stay rfl (Keeps.refl _) (sameFront rfl rfl rfl rfl rfl)
  · rw [h]
    exact turn_stay rfl (Keeps.refl _) (sameFront rfl rfl rfl rfl rfl)
  · obtain ⟨b, a, f, heq, _, _, hwp, hwf, hres, _⟩ := fetchWrongPath_eq now c
    have hline : (c.fetchWrongPath now).bets.line =
        c.bets.line ++ [(Transaction.wrongPath c.fetch.wrongPathPc).strip] := line_push _ c rfl
    have hfront : SameFront c (c.fetchWrongPath now) := by
      rw [heq]
      exact sameFront hwp hwf hres rfl rfl
    rw [h]
    exact .wrong c.fetch.wrongPathPc hw hf rfl hline hfront
  · rw [h]
    exact .endWrong hw rfl
  · obtain ⟨y, b, a, f, ps, n, heq, hy, _, _, hwp, hwf⟩ := fetchReal_eq now x c.endWrongPath
    have hend : c.endWrongPath.bpu = c.bpu ∧ c.endWrongPath.events = c.events ∧
        c.endWrongPath.fed = c.fed ∧ c.endWrongPath.bets.line = c.bets.line := by
      unfold endWrongPath
      split <;> exact ⟨rfl, rfl, rfl, rfl⟩
    obtain ⟨hbpu, hevents, hfed, hline⟩ := hend
    have hw' := (flow_endWrongPath hw).2
    have hl : (c.endWrongPath.fetchReal now x).bets.line = c.endWrongPath.bets.line ++ [y.strip] :=
      line_push y c.endWrongPath (by rw [heq]; rfl)
    rw [h]
    refine .take x y hx hy hr hw ?_ (hline ▸ hl) ?_ ?_ ?_ ?_ <;> rw [heq]
    · rw [← hbpu, ← hevents]
    · exact hfed
    · rw [hw', Bool.false_or] at hwp
      exact hwp
    · exact hwf

private theorem coreStep_turn (hd : c.flow.Disciplined) (hp : c.bets.Plain)
    (h : CoreStep now c c') : Turn now c c' := by
  have hstay : ∀ {d : Pipeline K}, d.events = c.events → d.bets.line = c.bets.line →
      SameFront c d → Turn now c d := fun hev hl hf => turn_stay hev (Keeps.of_eq hl) hf
  cases h with
  | beginTick => exact hstay rfl rfl (sameFront rfl rfl rfl rfl rfl)
  | stage i ports due h =>
    cases i with
    | fetch => exact doFetch1_turn h
    | decode => exact doDecode_turn h due.1
    | execute => exact doExecute_turn hd hp h
    | intMulExt =>
      exact mext_turn hp (.inl rfl) (doMulExt_cases h) fun x hx hun => doMulExt_events h hx hun
    | intDivExt =>
      exact mext_turn hp (.inr rfl) (doDivExt_cases h) fun x hx hun => doDivExt_events h hx hun
    | memory => exact doMemory_turn h
    | writeBack => exact doWriteback_turn h
  | fetch0 ready => exact doFetch0_turn now ready c
  | sched => exact hstay rfl rfl (sameFront rfl rfl rfl rfl rfl)
  | resp t h => exact recvMemResp_turn h
  | ack a h =>
    rcases ackMemAvail_cases h with ⟨_, rfl⟩ | ⟨_, ⟨x, _, _, _, rfl⟩ | ⟨_, rfl⟩⟩ <;>
      exact hstay rfl rfl (sameFront rfl rfl rfl rfl rfl)
  | buffer inst h =>
    refine hstay rfl rfl ⟨rfl, rfl, rfl, ?_, ?_⟩
    · intro x hx
      cases hx
      exact .inl (by simp)
    · change (c.fed ++ [inst]).length - 1 = c.fed.length - c.inputBuffer.toList.length
      rw [h]
      simp
  | drain => exact hstay rfl rfl (sameFront rfl rfl rfl rfl rfl)
  | reset => exact hstay rfl rfl (sameFront rfl rfl rfl rfl rfl)
  | sent => exact hstay rfl rfl (sameFront rfl rfl rfl rfl rfl)

section

variable {ws : List (Event K)}

private theorem writes_taken (hw : ∀ e ∈ ws, ∃ t pc, e = .write t pc) :
    ws.filterMap Event.taken = [] := by
  rw [List.filterMap_eq_nil_iff]
  intro e he
  obtain ⟨t, pc, rfl⟩ := hw e he
  rfl

private theorem writes_flushes (hw : ∀ e ∈ ws, ∃ t pc, e = .write t pc) (n : Nat) :
    ws.countP (Event.flushes n) = 0 := by
  rw [List.countP_eq_zero]
  intro e he
  obtain ⟨t, pc, rfl⟩ := hw e he
  exact Bool.false_ne_true

private theorem not_take_of_writes (hw : ∀ e ∈ ws, ∃ t pc, e = .write t pc) {t : Nat}
    {y : Transaction} {u : BranchUnit K.branch} : .take t y u ∉ ws := by
  intro h
  obtain ⟨_, _, h⟩ := hw _ h
  cases h

private theorem not_flush_of_writes (hw : ∀ e ∈ ws, ∃ t pc, e = .write t pc) {f : Nat}
    {x : Transaction} : .flush f x ∉ ws := by
  intro h
  obtain ⟨_, _, h⟩ := hw _ h
  cases h

end

variable {m : Mode}

private theorem line_clean (hd : c.flow.Disciplined)
    (hw : c.fetch.wrongPath = false ∨ c.fetch.wpFlushed = true) :
    ∀ z ∈ c.bets.line, z.brMispred = false := by
  intro z hz
  obtain ⟨x, hx, rfl⟩ := List.mem_map.mp hz
  exact (hd.clean hw x hx).1

private theorem not_lost (hw : c.fetch.wrongPath = false ∨ c.fetch.wpFlushed = true)
    {x : Transaction} : ¬Lost x c := by
  intro h
  rcases hw with hw | hw
  · rw [h.wrongPath] at hw
    cases hw
  · rw [h.notFlushed] at hw
    cases hw

theorem Obeys.seq_lt (h : Obeys m c) {t : Nat} {y : Transaction} {u : BranchUnit K.branch}
    (hy : .take t y u ∈ c.events) : y.seq < c.taken := by
  have hmem : y.seq ∈ c.events.filterMap Event.taken :=
    List.mem_filterMap.mpr ⟨_, hy, rfl⟩
  rw [h.order] at hmem
  exact List.mem_range.mp hmem

private theorem Lost.stay {x : Transaction} (h : Lost x c)
    (hl : Keeps c.bets.line c'.bets.line) (hf : SameFront c c') : Lost x c' where
  branch := h.branch
  mispred := h.mispred
  wrongPath := hf.wrongPath.trans h.wrongPath
  notFlushed := hf.wpFlushed.trans h.notFlushed
  youngest := h.youngest.trans hf.taken.symm
  only := fun z hz => h.only z (hl.1 z hz)
  waits := by
    intro he
    obtain ⟨z, hz, hseq, hm, hinst, hw⟩ := h.waits he
    refine ⟨z, ?_, hseq, hm, hinst, hw⟩
    rcases hl.2 z hz with hz' | hz' | hz' | hz'
    · exact hz'
    · rw [hw] at hz'
      cases hz'
    · rw [hm] at hz'
      cases hz'
    · rw [hinst] at hz'
      exact absurd he hz'

private theorem SameFront.input_seq (hf : SameFront c c') (h : Obeys m c) :
    ∀ x, c'.inputBuffer = some x → x.seq + 1 = c'.fed.length := by
  intro x hx
  rcases hf.input x hx with h' | ⟨hx', hfed⟩
  · exact h'
  · rw [hfed]
    exact h.input x hx'

private theorem obeys_stay (h : Obeys m c) {ws : List (Event K)}
    (hw : ∀ e ∈ ws, ∃ t pc, e = .write t pc) (hev : c'.events = c.events ++ ws)
    (hl : Keeps c.bets.line c'.bets.line) (hf : SameFront c c') : Obeys m c' where
  follow := by
    rw [hev]
    exact Mode.follow_write h.follow hw
  agrees := by
    have ha := h.agrees
    cases m with
    | onTrace => exact hf.wrongPath.trans ha
    | lost x => exact Lost.stay ha hl hf
    | flushed f =>
      change (c'.fetch.wrongPath = false ∨ c'.fetch.wpFlushed = true) ∧ _ ≤ c'.fetch.resumeTick
      rw [hf.wrongPath, hf.wpFlushed, hf.resumeTick]
      exact ha
  input := hf.input_seq h
  order := by
    rw [hev, List.filterMap_append, writes_taken hw, List.append_nil, hf.taken]
    exact h.order
  flushed := by
    intro f x hx
    rw [hev] at hx
    rw [hf.taken]
    exact h.flushed f x ((List.mem_append.mp hx).resolve_right (not_flush_of_writes hw))
  once := by
    intro t y u hy hm
    rw [hev] at hy ⊢
    rw [List.countP_append, writes_flushes hw]
    exact h.once t y u ((List.mem_append.mp hy).resolve_right (not_take_of_writes hw)) hm

private theorem obeys_endWrong (h : Obeys m c)
    (hw : c.fetch.wrongPath = false ∨ c.fetch.wpFlushed = true) : Obeys m c.endWrongPath := by
  have hfront : c.endWrongPath.events = c.events ∧ c.endWrongPath.inputBuffer = c.inputBuffer ∧
      c.endWrongPath.fed = c.fed ∧ c.endWrongPath.fetch.resumeTick = c.fetch.resumeTick := by
    unfold endWrongPath
    split <;> exact ⟨rfl, rfl, rfl, rfl⟩
  obtain ⟨hev, hin, hfed, hres⟩ := hfront
  have htaken : c.endWrongPath.taken = c.taken := by
    unfold taken
    rw [hin, hfed]
  have hw' := (flow_endWrongPath hw).2
  refine { follow := hev ▸ h.follow, agrees := ?_, input := ?_, order := ?_, flushed := ?_,
           once := ?_ }
  · have ha := h.agrees
    cases m with
    | onTrace => exact hw'
    | lost x => exact absurd ha (not_lost hw)
    | flushed f => exact ⟨.inl hw', hres ▸ ha.2⟩
  · rw [hin, hfed]
    exact h.input
  · rw [hev, htaken]
    exact h.order
  · rw [hev, htaken]
    exact h.flushed
  · rw [hev]
    exact h.once

private theorem obeys_wrong (h : Obeys m c) (hw : c.fetch.wrongPath = true)
    (hf : c.fetch.wpFlushed = false) {pc : Addr} {u : BranchUnit K.branch}
    (hev : c'.events = c.events ++ [.wrong now pc u])
    (hl : c'.bets.line = c.bets.line ++ [(Transaction.wrongPath pc).strip])
    (hfront : SameFront c c') : Obeys m c' := by
  have ha := h.agrees
  cases m with
  | onTrace =>
    change c.fetch.wrongPath = false at ha
    rw [hw] at ha
    cases ha
  | flushed f =>
    rcases ha.1 with ha | ha
    · rw [hw] at ha
      cases ha
    · rw [hf] at ha
      cases ha
  | lost x =>
    refine { follow := ?_, agrees := ?_, input := hfront.input_seq h, order := ?_,
             flushed := ?_, once := ?_ }
    · rw [hev, Mode.follow_append h.follow]
      rfl
    · have ha : Lost x c := ha
      refine ⟨ha.branch, ha.mispred, hfront.wrongPath.trans hw, hfront.wpFlushed.trans hf,
        ha.youngest.trans hfront.taken.symm, ?_, ?_⟩
      · intro z hz hm
        rw [hl] at hz
        rcases List.mem_append.mp hz with hz | hz
        · exact ha.only z hz hm
        · cases List.mem_singleton.mp hz
          cases hm
      · intro he
        obtain ⟨z, hz, hrest⟩ := ha.waits he
        rw [hl]
        exact ⟨z, List.mem_append_left _ hz, hrest⟩
    · rw [hev, List.filterMap_append, hfront.taken, h.order]
      exact List.append_nil _
    · intro f y hy
      rw [hev] at hy
      rw [hfront.taken]
      rcases List.mem_append.mp hy with hy | hy
      · exact h.flushed f y hy
      · cases List.mem_singleton.mp hy
    · intro t y v hy hm
      rw [hev] at hy ⊢
      rw [List.countP_append]
      rcases List.mem_append.mp hy with hy | hy
      · exact h.once t y v hy hm
      · cases List.mem_singleton.mp hy

private theorem Obeys.no_flush (h : Obeys m c) :
    c.events.countP (Event.flushes c.taken) = 0 := by
  rw [List.countP_eq_zero]
  intro e he hfl
  cases e with
  | flush f z =>
    have hlt := (h.flushed f z he).2
    have heq : z.seq = c.taken := beq_iff_eq.mp hfl
    omega
  | take t z v => cases hfl
  | wrong t pc v => cases hfl
  | write t pc => cases hfl

private theorem Obeys.follow_take (h : Obeys m c) {y : Transaction} {u : BranchUnit K.branch}
    (hr : c.fetch.resumeTick ≤ now)
    (hw : c.fetch.wrongPath = false ∨ c.fetch.wpFlushed = true) :
    Mode.follow (c.events ++ [.take now y u]) = some (Mode.after y) := by
  rw [Mode.follow_append h.follow]
  have ha := h.agrees
  cases m with
  | onTrace => rfl
  | lost z => exact absurd ha (not_lost hw)
  | flushed f =>
    have hle : f + kBranchMissPenalty ≤ now := ha.2.trans hr
    change (if f + kBranchMissPenalty ≤ now then some (Mode.after y) else none) >>= _ = _
    rw [if_pos hle]
    rfl

private theorem Obeys.flushesOf_eq_one (h : Obeys m c)
    (hw : c.fetch.wrongPath = false ∨ c.fetch.wpFlushed = true) (n : Nat) :
    m.flushesOf n = 1 := by
  have ha := h.agrees
  cases m with
  | onTrace => rfl
  | lost z => exact absurd ha (not_lost hw)
  | flushed f => rfl

private theorem endWrongPath_wpFlushed (hd : c.flow.Disciplined) :
    c.endWrongPath.fetch.wpFlushed = false := by
  unfold endWrongPath
  split
  · rfl
  · rename_i hwrong
    cases hf : c.fetch.wpFlushed with
    | false => rfl
    | true => exact absurd (hd.flushed hf) hwrong

/-- A mispredicted branch that has just been fetched is what the front end is lost behind. -/
private theorem lost_of_take (hd : c.flow.Disciplined)
    (hw : c.fetch.wrongPath = false ∨ c.fetch.wpFlushed = true) {y : Transaction}
    (hb : y.traceInst.isBranch = true) (hm : y.brMispred = true) (hreal : y.isWrongPath = false)
    (hl : c'.bets.line = c.bets.line ++ [y.strip]) (hwp : c'.fetch.wrongPath = true)
    (hwf : c'.fetch.wpFlushed = false) (htaken : c'.taken = y.seq + 1) : Lost y c' := by
  refine ⟨hb, hm, hwp, hwf, htaken.symm, fun z hz hzm => ?_, fun _ => ?_⟩
  · rw [hl] at hz
    rcases List.mem_append.mp hz with hz | hz
    · rw [line_clean hd hw z hz] at hzm
      cases hzm
    · cases List.mem_singleton.mp hz
      rfl
  · rw [hl]
    exact ⟨y.strip, List.mem_append_right _ List.mem_cons_self, rfl, hm, rfl, hreal⟩

private theorem obeys_take (hd : c.flow.Disciplined) (h : Obeys m c) {x y : Transaction}
    {u : BranchUnit K.branch} (hx : c.inputBuffer = some x) (hy : Fetched x y)
    (hr : c.fetch.resumeTick ≤ now)
    (hw : c.fetch.wrongPath = false ∨ c.fetch.wpFlushed = true)
    (hev : c'.events = c.events ++ [.take now y u])
    (hl : c'.bets.line = c.bets.line ++ [y.strip]) (hin : c'.inputBuffer = none)
    (hfed : c'.fed = c.fed) (hwp : c'.fetch.wrongPath = y.brMispred)
    (hwf : c'.fetch.wpFlushed = c.endWrongPath.fetch.wpFlushed) :
    Obeys (Mode.after y) c' := by
  obtain ⟨hold, pred, miss, hsame⟩ := hy.same
  have hseq : y.seq + 1 = c.fed.length := by
    rw [hsame]
    exact h.input x hx
  have htaken : c.taken = y.seq := by
    unfold taken
    rw [hx, ← hseq]
    rfl
  have htaken' : c'.taken = y.seq + 1 := by
    unfold taken
    rw [hin, hfed, ← hseq]
    rfl
  have hreal : y.isWrongPath = false := by
    rw [hsame]
    exact (hd.input x hx).1
  have hbranch : y.brMispred = true → y.traceInst.isBranch = true := by
    intro hm
    by_contra hb
    have hb' : x.traceInst.isBranch = false := by
      rw [hsame] at hb
      simpa using hb
    rw [(hy.plain hb').1] at hm
    cases hm
  have hcount : ∀ n, c'.events.countP (Event.flushes n) = c.events.countP (Event.flushes n) := by
    intro n
    rw [hev, List.countP_append]
    rfl
  refine { follow := hev ▸ h.follow_take hr hw, agrees := ?_, input := ?_, order := ?_,
           flushed := ?_, once := ?_ }
  · unfold Mode.after
    cases hm : y.brMispred with
    | false => exact hwp.trans hm
    | true =>
      exact lost_of_take hd hw (hbranch hm) hm hreal hl (hwp.trans hm)
        (hwf.trans (endWrongPath_wpFlushed hd)) htaken'
  · intro z hz
    rw [hin] at hz
    cases hz
  · rw [hev, List.filterMap_append, h.order, htaken, htaken', List.range_succ]
    rfl
  · intro f z hz
    rw [hev] at hz
    rcases List.mem_append.mp hz with hz | hz
    · obtain ⟨hb, hlt⟩ := h.flushed f z hz
      exact ⟨hb, by omega⟩
    · cases List.mem_singleton.mp hz
  · intro t z v hz hm
    rw [hcount]
    rw [hev] at hz
    rcases List.mem_append.mp hz with hz | hz
    · have hlt := h.seq_lt hz
      rw [h.once t z v hz hm, h.flushesOf_eq_one hw]
      unfold Mode.after
      split
      · exact (if_neg (by omega)).symm
      · rfl
    · cases List.mem_singleton.mp hz
      rw [← htaken, h.no_flush, htaken]
      unfold Mode.after
      rw [if_pos hm]
      exact (if_pos rfl).symm

private theorem obeys_flush (hd : c.flow.Disciplined) (h : Obeys m c) {x : Transaction}
    {ws : List (Event K)} (hw : ∀ e ∈ ws, ∃ t pc, e = .write t pc) (hx : x.strip ∈ c.bets.line)
    (hb : x.traceInst.isBranch = true) (hm : x.brMispred = true)
    (hev : c'.events = c.events ++ ws ++ [.flush now x])
    (hwf : c'.fetch.wpFlushed = true)
    (hres : c'.fetch.resumeTick = now + kBranchMissPenalty)
    (hin : c'.inputBuffer = c.inputBuffer) (hfed : c'.fed = c.fed) :
    Obeys (.flushed now) c' := by
  have htaken : c'.taken = c.taken := by
    unfold taken
    rw [hin, hfed]
  have ha := h.agrees
  have hclean : ¬(c.fetch.wrongPath = false ∨ c.fetch.wpFlushed = true) := by
    intro hc
    have := line_clean hd hc _ hx
    rw [show x.strip.brMispred = true from hm] at this
    cases this
  cases m with
  | onTrace => exact absurd (.inl ha) hclean
  | flushed f => exact absurd ha.1 hclean
  | lost z =>
    have ha : Lost z c := ha
    have hseq : x.seq = z.seq := ha.only x.strip hx hm
    have hy := ha.youngest
    refine { follow := ?_, agrees := ⟨.inr hwf, hres.ge⟩, input := ?_, order := ?_,
             flushed := ?_, once := ?_ }
    · rw [hev, Mode.follow_append (Mode.follow_write h.follow hw)]
      change (if x.seq = z.seq then some (Mode.flushed now) else none) >>= _ = _
      rw [if_pos hseq]
      rfl
    · rw [hin, hfed]
      exact h.input
    · rw [hev, List.filterMap_append, List.filterMap_append, writes_taken hw, h.order, htaken,
        List.append_nil]
      exact List.append_nil _
    · intro f w hfl
      rw [hev] at hfl
      rw [htaken]
      rcases List.mem_append.mp hfl with hfl | hfl
      · exact h.flushed f w ((List.mem_append.mp hfl).resolve_right (not_flush_of_writes hw))
      · cases List.mem_singleton.mp hfl
        exact ⟨hb, by omega⟩
    · intro t y u hy hym
      rw [hev] at hy ⊢
      rw [List.countP_append, List.countP_append, writes_flushes hw]
      have hmem : Event.take t y u ∈ c.events := by
        rcases List.mem_append.mp hy with hy | hy
        · exact (List.mem_append.mp hy).resolve_right (not_take_of_writes hw)
        · cases List.mem_singleton.mp hy
      rw [h.once t y u hmem hym, List.countP_singleton]
      change (if y.seq = z.seq then 0 else 1) + 0 +
        (if (x.seq == y.seq) = true then 1 else 0) = 1
      by_cases he : y.seq = z.seq
      · have hbeq : (x.seq == y.seq) = true := beq_iff_eq.mpr (hseq.trans he.symm)
        rw [if_pos he, if_pos hbeq]
      · have hbeq : ¬(x.seq == y.seq) = true := by
          rw [beq_iff_eq, hseq]
          exact fun hc => he hc.symm
        rw [if_neg he, if_neg hbeq]

private theorem obeys_init (nxt : Tick) :
    Obeys .onTrace ({ calcNxtupd := nxt } : Pipeline K) where
  follow := rfl
  agrees := rfl
  input := fun x hx => by cases hx
  order := rfl
  flushed := fun f x hx => by cases hx
  once := fun t y u hy => by cases hy

/-- Past the input buffer no real transaction is younger than the misprediction. -/
theorem Obeys.youngest {x : Transaction} (h : Obeys (.lost x) c) (hc : c.flow.Conserved)
    {z : Transaction} (hz : z ∈ c.flow.line ++ c.flow.back) (hreal : z.isWrongPath = false) :
    z.seq ≤ x.seq := by
  have hd := hc.disciplined
  have hcount : z.countedInflight = true := by
    rcases List.mem_append.mp hz with hl | hb
    · rcases hd.line.sorts z hl with hr | hr
      · exact hr.2
      · rw [hr.1] at hreal
        cases hreal
    · simp only [Flow.back, List.mem_append, Option.mem_toList] at hb
      rcases hb with (((hb | hb) | hb) | hb) | hb
      all_goals exact (hd.settled _ z (by decide) hb).2
  have hheld : z ∈ c.flow.held := by
    unfold Flow.held
    rw [List.append_assoc]
    exact List.mem_append_right _ hz
  have hlt : z.seq < c.fed.length :=
    (List.getElem?_eq_some_iff.mp (hc.fed_of_held hheld hcount)).1
  have hl : Lost x c := h.agrees
  have hy := hl.youngest
  unfold taken at hy
  cases hin : c.inputBuffer with
  | none =>
    rw [hin] at hy
    change x.seq + 1 = c.fed.length - 0 at hy
    omega
  | some w =>
    have hw := h.input w hin
    have hne := hc.seq_ne_input hz hcount hin
    rw [hin] at hy
    change x.seq + 1 = c.fed.length - 1 at hy
    omega

/-- The protocol holds of the open core, at every tick and under every environment. -/
theorem CoreReachable.obeys {s : Clocked K} (h : CoreReachable s) : ∃ m, Obeys m s.core := by
  have hall : s.core.flow.Conserved ∧ s.core.bets.Plain ∧ ∃ m, Obeys m s.core := by
    refine h.invariant
      (I := fun s => s.core.flow.Conserved ∧ s.core.bets.Plain ∧ ∃ m, Obeys m s.core) ?_ ?_ ?_
    · intro nxt
      refine ⟨Flow.conserved_init, ?_, _, obeys_init nxt⟩
      intro x hx
      cases hx
    · rintro now c c' hstep ⟨hc, hp, m, hm⟩
      have hd := hc.disciplined
      refine ⟨invariant_of_run (I := fun f : Flow => f.Conserved)
        (fun f g hmv hf => hmv.conserved hf) hc (coreStep_flow hstep),
        invariant_of_run (I := fun s : Bets K => s.Plain)
          (fun a b hmv hab => hmv.plain_of hab) hp (coreStep_bets hd hp hstep), ?_⟩
      cases coreStep_turn hd hp hstep with
      | stay ws hw hev hl hf => exact ⟨m, obeys_stay hm hw hev hl hf⟩
      | endWrong hw he =>
        rw [he]
        exact ⟨m, obeys_endWrong hm hw⟩
      | wrong pc hw hf hev hl hfront => exact ⟨m, obeys_wrong hm hw hf hev hl hfront⟩
      | take x y hx hy hr hw hev hl hin hfed hwp hwf =>
        exact ⟨_, obeys_take hd hm hx hy hr hw hev hl hin hfed hwp hwf⟩
      | flush x ws hw hx hb hmis hev _ _ hwf hres hin hfed =>
        exact ⟨_, obeys_flush hd hm hw hx hb hmis hev hwf hres hin hfed⟩
    · rintro now c hI
      exact hI
  exact hall.2.2

end Pipeline

end NpSim.Pipe
