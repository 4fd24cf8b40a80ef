/- digest: The data accesses of a program: the request that a record makes of the data ports, and
   the transactions of the core that have not made theirs yet. -/

import NpSim.Pipe.Contracts
import NpSim.Pipe.Scoreboard

set_option autoImplicit false
set_option relaxedAutoImplicit false

namespace NpSim.Pipe

open NpSim.Lib.Partial Pipeline

def PortCall.isData : PortCall → Bool
  | .fetch _ => false
  | .lsu .. => true

/-- The data accesses among the requests of the core. -/
def dataCalls (l : List PortCall) : List PortCall := l.filter PortCall.isData

@[simp] theorem dataCalls_append (l m : List PortCall) :
    dataCalls (l ++ m) = dataCalls l ++ dataCalls m :=
  List.filter_append ..

theorem dataCalls_fetch (l : List PortCall) (addr : Addr) :
    dataCalls (l ++ [.fetch addr]) = dataCalls l :=
  (dataCalls_append ..).trans (List.append_nil _)

variable {K : PipelineParams}

/-- The request that a record makes of the data ports: an M-extension instruction makes none, and
neither does an access that the core answers itself. -/
def access (K : PipelineParams) (inst : TraceInst) : Option PortCall :=
  if inst.extOp = Trace.ExtNone ∧ legacyMmio K inst = false then
    (lsuOp inst).map (lsuCall K inst)
  else none

/-- Of the machine only the presence of the non-cacheable port matters. -/
theorem access_congr {K L : PipelineParams} (h : K.hasNc = L.hasNc) : access K = access L := by
  funext inst
  have hcall : lsuCall K inst = lsuCall L inst := by
    unfold lsuCall usesNc
    rw [h]
  unfold access legacyMmio
  rw [h, hcall]

theorem access_mext {inst : TraceInst} (h : inst.extOp ≠ Trace.ExtNone) : access K inst = none :=
  if_neg fun ha => h ha.1

theorem access_legacy {inst : TraceInst} (h : legacyMmio K inst = true) :
    access K inst = none :=
  if_neg fun ha => Bool.false_ne_true (ha.2.symm.trans h)

theorem access_plain {inst : TraceInst} (he : inst.extOp = Trace.ExtNone)
    (hl : legacyMmio K inst = false) : access K inst = (lsuOp inst).map (lsuCall K inst) :=
  if_pos ⟨he, hl⟩

theorem filterMap_single {α β : Type} (f : α → Option β) (a : α) :
    [a].filterMap f = (f a).toList := by
  cases ha : f a with
  | none => exact List.filterMap_cons_none ha
  | some b => exact List.filterMap_cons_some ha

/-- The requests of the real transactions of a list. -/
def accesses (K : PipelineParams) (l : List Transaction) : List PortCall :=
  (tags l).filterMap fun t => access K t.inst

@[simp] theorem accesses_nil : accesses K [] = [] := rfl

@[simp] theorem accesses_append (l m : List Transaction) :
    accesses K (l ++ m) = accesses K l ++ accesses K m := by
  unfold accesses
  rw [tags_append, List.filterMap_append]

theorem accesses_cons (x : Transaction) (l : List Transaction) :
    accesses K (x :: l) = accesses K [x] ++ accesses K l :=
  accesses_append [x] l

theorem accesses_real {x : Transaction} (h : x.countedInflight = true) :
    accesses K [x] = (access K x.traceInst).toList := by
  unfold accesses
  rw [tags_real h, filterMap_single]
  rfl

theorem accesses_uncounted {l : List Transaction} (h : ∀ x ∈ l, ¬x.countedInflight = true) :
    accesses K l = [] := by
  unfold accesses tags
  rw [List.filter_eq_nil_iff.mpr h]
  rfl

theorem accesses_wrong {l : List Transaction} (h : ∀ x ∈ l, x.Wrong) : accesses K l = [] :=
  accesses_uncounted fun x hx => Bool.not_eq_true _ ▸ (h x hx).2

theorem accesses_congr {x y : Transaction} (hc : x.countedInflight = y.countedInflight)
    (ht : x.tag = y.tag) : accesses K [x] = accesses K [y] := by
  unfold accesses
  rw [tags_congr hc ht]

theorem accesses_answerFirst {l q : List Transaction} (h : answerFirst l = some q) :
    accesses K q = accesses K l := by
  induction l generalizing q with
  | nil => cases h
  | cons x xs ih =>
    unfold answerFirst at h
    split at h
    · cases h
      have hx : accesses K [{ x with waitMem := false }] = accesses K [x] := accesses_congr rfl rfl
      rw [accesses_cons, accesses_cons x xs, hx]
    · obtain ⟨r, hr, rfl⟩ := Option.map_eq_some_iff.mp h
      rw [accesses_cons, accesses_cons x xs, ih hr]

namespace Pipeline

variable {now : Nat} {c c' d : Pipeline K} {x : Transaction}

/-- What the Execute slot holds, as long as it has not asked for its access. -/
def unsent (slot : Option Transaction) : List Transaction := slot.toList.filter (!·.waitMem)

@[simp] theorem unsent_none : unsent none = [] := rfl

theorem unsent_wait (hw : x.waitMem = true) : unsent (some x) = [] :=
  List.filter_cons_of_neg (by simp [hw])

theorem unsent_idle (hw : x.waitMem = false) : unsent (some x) = [x] :=
  List.filter_cons_of_pos (by simp [hw])

/-- The requests still to come: those of the transactions that have not made theirs, oldest first.
-/
def toCome (c : Pipeline K) : List PortCall :=
  accesses K (unsent (c.simPipe .execute)) ++ (accesses K (c.simPipe .decode).toList ++
    (accesses K ((c.simPipe .fetch).toList ++ c.fetchQueue) ++ accesses K c.inputBuffer.toList))

theorem flushIf_toCome {b : Bool} (hd : c.flow.Disciplined) (hx : c.simPipe .decode = some x)
    (hb : b = true → x.brMispred = true) : (c.flushIf b now).toCome = c.toCome := by
  cases b with
  | false => rfl
  | true =>
    have hwrong : accesses K ((c.simPipe .fetch).toList ++ c.fetchQueue) = [] :=
      accesses_wrong (hd.front_wrong hx (hb rfl))
    have hpipe : (c.flushFrontEnd now).simPipe = Function.update c.simPipe .fetch none := rfl
    have hempty : (c.flushFrontEnd now).fetchQueue = [] := rfl
    have hinput : (c.flushFrontEnd now).inputBuffer = c.inputBuffer := rfl
    change (c.flushFrontEnd now).toCome = c.toCome
    unfold toCome
    rw [hpipe, hempty, hinput, hwrong]
    simp only [Function.update_apply, reduceCtorEq, if_true, if_false, Option.toList_none,
      List.append_nil, accesses_nil]

theorem doFetch0_toCome (ready : Bool) : (c.doFetch0 now ready).toCome = c.toCome ∧
    dataCalls (c.doFetch0 now ready).calls = dataCalls c.calls ∧
    (c.doFetch0 now ready).fed = c.fed := by
  have hend : c.endWrongPath.toCome = c.toCome ∧ c.endWrongPath.calls = c.calls ∧
      c.endWrongPath.fed = c.fed ∧ c.endWrongPath.inputBuffer = c.inputBuffer := by
    unfold endWrongPath
    split <;> exact ⟨rfl, rfl, rfl, rfl⟩
  rcases doFetch0_cases now ready c with ⟨_, he⟩ | ⟨_, he, _⟩ | ⟨_, _, _, he⟩ |
    ⟨_, _, _, _, _, _, he⟩ | ⟨_, _, _, _, ⟨_, he⟩ | ⟨x, hx, _, he⟩⟩
  · rw [he]
    exact ⟨rfl, rfl, rfl⟩
  · rw [he]
    exact ⟨rfl, rfl, rfl⟩
  · rw [he]
    exact ⟨rfl, dataCalls_fetch .., rfl⟩
  · obtain ⟨b, a, f, heq, _⟩ := fetchWrongPath_eq now c
    have hwrong : accesses K [Transaction.wrongPath c.fetch.wrongPathPc] = [] :=
      accesses_wrong fun y hy => by
        cases List.mem_singleton.mp hy
        exact ⟨rfl, rfl⟩
    rw [he, heq]
    refine ⟨?_, dataCalls_fetch .., rfl⟩
    unfold toCome
    simp only [accesses_append, hwrong, List.append_nil]
  · rw [he]
    exact ⟨hend.1, congrArg dataCalls hend.2.1, hend.2.2.1⟩
  · obtain ⟨y, b, a, f, ps, n, heq, hy, _⟩ := fetchReal_eq now x c.endWrongPath
    obtain ⟨hold, pred, miss, rfl⟩ := hy.same
    rw [he, heq, ← hend.1, ← hend.2.1, ← hend.2.2.1]
    refine ⟨?_, dataCalls_fetch .., rfl⟩
    have hsame : accesses K [{ x with
        waitMem := true, bpMetaHold := hold, brPred := pred, brMispred := miss }] =
        accesses K [x] :=
      accesses_congr rfl rfl
    have hin : c.endWrongPath.inputBuffer = some x := hend.2.2.2.trans hx
    unfold toCome
    rw [hin]
    simp only [accesses_append, Option.toList_none, Option.toList_some, accesses_nil,
      List.append_nil, List.append_assoc, hsame]

/-- The requests that have been made and those to come are, one after the other, what they were. -/
structure Onward (c c' : Pipeline K) : Prop where
  fed : c'.fed = c.fed
  requests : dataCalls c'.calls ++ c'.toCome = dataCalls c.calls ++ c.toCome

theorem Onward.of_kept (hf : c'.fed = c.fed) (hc : c'.calls = c.calls)
    (ht : c'.toCome = c.toCome) : Onward c c' :=
  ⟨hf, by rw [hc, ht]⟩

theorem Onward.trans (h : Onward c d) (h' : Onward d c') : Onward c c' :=
  ⟨h'.fed.trans h.fed, h'.requests.trans h.requests⟩

private theorem flushIf_onward {b : Bool} {u : Branch.BranchUnit K.branch} {l : List (Event K)}
    (hd : c.flow.Disciplined) (hx : c.simPipe .decode = some x)
    (hb : b = true → x.brMispred = true) :
    Onward c (flushIf b now { c with bpu := u, events := l }) := by
  refine .of_kept ?_ ?_ (flushIf_toCome (c := { c with bpu := u, events := l }) hd hx hb)
  · cases b <;> rfl
  · cases b <;> rfl

private theorem doFetch1_onward (h : c.doFetch1 now = .ok c') : Onward c c' := by
  rcases doFetch1_cases h with ⟨_, rfl⟩ | ⟨p, rest, hq, _, _, rfl⟩ | ⟨p, rest, hq, _, _, hs, rfl⟩
  · exact .of_kept rfl rfl rfl
  · refine .of_kept rfl rfl ?_
    have hp : accesses K [{ p with bpMetaHold := p.bpMetaHold - 1 }] = accesses K [p] :=
      accesses_congr rfl rfl
    unfold toCome
    rw [hq]
    simp only [accesses_append]
    rw [accesses_cons, accesses_cons p, hp]
  · refine .of_kept rfl rfl ?_
    unfold toCome
    simp only [Function.update_apply, reduceCtorEq, if_true, if_false, hs, hq, Option.toList_none,
      Option.toList_some, List.nil_append, List.cons_append]

private theorem doDecode_onward (hd : c.flow.Disciplined) (hnone : c.simPipe .decode = none)
    (h : c.doDecode now = .ok c') : Onward c c' := by
  obtain ⟨x, a, hx, _, ⟨hw, rfl⟩ | ⟨w, _, _, _, rfl⟩ | ⟨_, rfl⟩⟩ := doDecode_cases h
  · have hmem : x ∈ c.flow.line := by
      refine List.mem_append_right _ (List.mem_append_left _ ?_)
      change x ∈ (c.simPipe .fetch).toList
      rw [hx]
      exact List.mem_singleton_self x
    have hwrong : accesses K [x] = [] := by
      refine accesses_wrong fun y hy => ?_
      cases List.mem_singleton.mp hy
      refine (hd.line.sorts x hmem).resolve_left fun hr => ?_
      exact Bool.false_ne_true (hr.1.symm.trans hw)
    refine .of_kept rfl rfl ?_
    unfold toCome
    simp only [Function.update_apply, reduceCtorEq, if_true, if_false, hx, accesses_append,
      Option.toList_none, Option.toList_some, accesses_nil, hwrong]
  · exact .of_kept rfl rfl rfl
  · refine .of_kept rfl rfl ?_
    unfold toCome
    simp only [Function.update_apply, reduceCtorEq, if_true, if_false, hx, hnone, accesses_append,
      Option.toList_none, Option.toList_some, accesses_nil, List.nil_append, List.append_assoc]

private theorem doExecute_onward (hd : c.flow.Disciplined) (hs : Sane c)
    (hnone : c.simPipe .execute = none) (h : c.doExecute now = .ok c') : Onward c c' := by
  obtain ⟨x, hx, _, ⟨_, rfl⟩ | ⟨b, l, d, _, hflush, rfl⟩⟩ := doExecute_cases h
  · exact .of_kept rfl rfl rfl
  · have hw : x.waitMem = false := hs.settled.of_ne (s := .decode) (by decide) hx
    have hfirst : Onward c d := by
      rw [hflush]
      exact flushIf_onward hd hx id
    have hexec : d.simPipe .execute = none := by
      rw [hflush, flushIf_slot _ (by decide)]
      exact hnone
    have hdec : d.simPipe .decode = some x := by
      rw [hflush, flushIf_slot _ (by decide)]
      exact hx
    refine hfirst.trans (.of_kept rfl rfl ?_)
    have hsame : accesses K [{ x with execAt := now }] = accesses K [x] := accesses_congr rfl rfl
    unfold toCome
    simp only [Function.update_apply, reduceCtorEq, if_true, if_false, hexec, hdec, unsent_none,
      unsent_idle (x := { x with execAt := now }) hw, Option.toList_none, Option.toList_some,
      accesses_nil, List.nil_append, hsame]

private theorem mext_onward {s : PipeStage} {lat : Nat} (hd : c.flow.Disciplined)
    (hs : s ≠ .execute ∧ s ≠ .decode ∧ s ≠ .fetch) (h : MextCases now c c' s lat) :
    Onward c c' := by
  obtain ⟨x, hx, _, ⟨_, rfl⟩ | ⟨b, l, d, he, hflush, rfl⟩⟩ := h
  · exact .of_kept rfl rfl rfl
  · have hfirst : Onward c d := by
      rw [hflush]
      exact flushIf_onward hd hx fun hb => (Bool.and_eq_true .. ▸ hb).2
    have hdec : d.simPipe .decode = some x := by
      rw [hflush, flushIf_slot _ (by decide)]
      exact hx
    have hmext : x.traceInst.extOp ≠ Trace.ExtNone := by
      intro hn
      rw [hn] at he
      cases he with
      | mul hop => rcases hop with hop | hop <;> cases hop
      | div hop => rcases hop with hop | hop <;> cases hop
    have hnone : accesses K [x] = [] := by
      rw [accesses_real (hd.settled .decode x (by decide) hx).2, access_mext hmext]
      rfl
    refine hfirst.trans (.of_kept rfl rfl ?_)
    unfold toCome mextIssued noteReady
    simp only [Function.update_apply, hs.1.symm, hs.2.1.symm, hs.2.2.symm, reduceCtorEq, if_true,
      if_false, hdec, Option.toList_none, Option.toList_some, accesses_nil, hnone]

private theorem doMemory_onward {ports : Ports} (hd : c.flow.Disciplined) (ho : c.flow.InOrder)
    (h : c.doMemory now ports = .ok c') : Onward c c' := by
  have hreal : ∀ x, c.simPipe .execute = some x →
      accesses K [x] = (access K x.traceInst).toList ∧ x.traceInst.extOp = Trace.ExtNone :=
    fun x hx => ⟨accesses_real (hd.settled .execute x (by decide) hx).2, ho.execute_plain hd hx⟩
  obtain ⟨x, hx, ⟨hw, _, rfl⟩ | ⟨_, _, rfl⟩ | ⟨hw, hl, rfl⟩ | ⟨op, hw, hl, hop, _, rfl⟩ |
    ⟨_, _, _, _, _, rfl⟩ | ⟨hw, hl, hop, rfl⟩⟩ := doMemory_cases h
  · refine .of_kept rfl rfl ?_
    unfold toCome
    simp only [Function.update_apply, reduceCtorEq, if_true, if_false, hx, unsent_wait hw,
      unsent_none]
  · exact .of_kept rfl rfl rfl
  · refine .of_kept rfl rfl ?_
    have hnone : accesses K [x] = [] := by
      rw [(hreal x hx).1, access_legacy hl]
      rfl
    unfold toCome
    simp only [Function.update_apply, reduceCtorEq, if_true, if_false, hx, unsent_idle hw, hnone,
      unsent_wait (x := { x with waitMem := true }) rfl, accesses_nil]
  · refine ⟨rfl, ?_⟩
    -- the access of `x` was the first one to come, and is now the last one made
    have hask : accesses K [x] = [lsuCall K x.traceInst op] := by
      rw [(hreal x hx).1, access_plain (hreal x hx).2 hl, hop]
      rfl
    have hdata : dataCalls [lsuCall K x.traceInst op] = [lsuCall K x.traceInst op] := rfl
    unfold toCome
    simp only [Function.update_apply, reduceCtorEq, if_true, if_false, hx, unsent_idle hw, hask,
      unsent_wait (x := { x with waitMem := true }) rfl, accesses_nil, dataCalls_append, hdata,
      List.nil_append, List.append_assoc]
  · exact .of_kept rfl rfl rfl
  · refine .of_kept rfl rfl ?_
    have hnone : accesses K [x] = [] := by
      rw [(hreal x hx).1, access_plain (hreal x hx).2 hl, hop]
      rfl
    unfold toCome
    simp only [Function.update_apply, reduceCtorEq, if_true, if_false, hx, unsent_idle hw, hnone,
      unsent_none, accesses_nil]

private theorem doWriteback_onward (h : c.doWriteback now = .ok c') : Onward c c' := by
  rcases doWriteback_cases h with ⟨_, rfl⟩ | ⟨s, x, cause, hsrc, _, rfl⟩
  · exact .of_kept rfl rfl rfl
  · have hs : s ≠ .execute ∧ s ≠ .decode ∧ s ≠ .fetch := by
      rcases commitSource_cases now c with ⟨hn, _⟩ | ⟨hm, _⟩ | ⟨s', hs', _, _, _, hor⟩
      · cases hn.symm.trans hsrc
      · cases hm.symm.trans hsrc
        decide
      · cases hs'.symm.trans hsrc
        rcases hor with ⟨rfl, _⟩ | ⟨rfl, _⟩ <;> decide
    refine .of_kept rfl rfl ?_
    unfold toCome
    simp only [Function.update_apply, hs.1.symm, hs.2.1.symm, hs.2.2.symm, if_false]

/-- Whatever a stage does, the next access that is asked for is the oldest one to come. -/
theorem stageHandler_onward {i : PipeStage} {ports : Ports} (hd : c.flow.Disciplined)
    (ho : c.flow.InOrder) (hs : Sane c) (due : c.stageDue now i)
    (h : stageHandler now ports i c = .ok c') : Onward c c' := by
  cases i with
  | fetch => exact doFetch1_onward h
  | decode => exact doDecode_onward hd due.1 h
  | execute => exact doExecute_onward hd hs due.1 h
  | intMulExt => exact mext_onward hd (by decide) (doMulExt_cases h)
  | intDivExt => exact mext_onward hd (by decide) (doDivExt_cases h)
  | memory => exact doMemory_onward hd ho h
  | writeBack => exact doWriteback_onward h

theorem recvMemResp_toCome {t : CpuTrans} (h : c.recvMemResp now t = .ok c') :
    c'.fed = c.fed ∧ c'.toCome = c.toCome := by
  rcases recvMemResp_cases h with ⟨_, _, h⟩ | ⟨_, h⟩
  · obtain ⟨b, rest, _, ⟨_, rfl⟩ | ⟨q, _, hq, rfl⟩⟩ := handleIfuResp_cases h
    · exact ⟨rfl, rfl⟩
    · refine ⟨rfl, ?_⟩
      unfold toCome
      simp only [accesses_append, accesses_answerFirst hq]
  · obtain ⟨x, a, hx, hw, _, _, rfl⟩ := handleLsuResp_cases h
    refine ⟨rfl, ?_⟩
    unfold toCome
    simp only [Function.update_apply, reduceCtorEq, if_true, if_false, hx, unsent_wait hw,
      unsent_none]

theorem ackMemAvail_toCome {a : AckTrans} (h : c.ackMemAvail now a = .ok c') :
    c'.fed = c.fed ∧ c'.toCome = c.toCome := by
  rcases ackMemAvail_cases h with ⟨_, rfl⟩ | ⟨_, ⟨x, _, _, _, rfl⟩ | ⟨_, rfl⟩⟩ <;> exact ⟨rfl, rfl⟩

end Pipeline

end NpSim.Pipe
