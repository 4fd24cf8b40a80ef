/- digest: Commit order: the transactions of the core in the lanes of an in-order machine with
   bypass units. -/

import NpSim.Lib.Bypass
import NpSim.Pipe.Conservation

set_option autoImplicit false
set_option relaxedAutoImplicit false

namespace NpSim.Pipe

open NpSim.Lib.Partial NpSim.Lib.Bypass Relation

/-- What the commit order depends on. -/
structure Tag where
  seq : Nat
  inst : TraceInst
  deriving DecidableEq

def Transaction.tag (x : Transaction) : Tag := ⟨x.seq, x.traceInst⟩

def tags (l : List Transaction) : List Tag := (l.filter (·.countedInflight)).map Transaction.tag

def Tag.isMext (x : Tag) : Prop := x.inst.extOp ≠ Trace.ExtNone

def Tag.sameDst (x y : Tag) : Prop := x.inst.dstReg ≠ 0 ∧ x.inst.dstReg = y.inst.dstReg

@[simp] theorem tags_nil : tags [] = [] := rfl

@[simp] theorem tags_append (l m : List Transaction) : tags (l ++ m) = tags l ++ tags m := by
  simp [tags]

theorem tags_real {x : Transaction} (h : x.countedInflight = true) : tags [x] = [x.tag] := by
  simp [tags, h]

theorem tags_wrong {x : Transaction} (h : x.countedInflight = false) : tags [x] = [] := by
  simp [tags, h]

theorem tags_all_wrong {l : List Transaction} (h : ∀ x ∈ l, x.Wrong) : tags l = [] := by
  have : l.filter (·.countedInflight) = [] := by
    rw [List.filter_eq_nil_iff]
    intro x hx
    simp [(h x hx).2]
  simp [tags, this]

theorem tags_congr {x y : Transaction} (hc : x.countedInflight = y.countedInflight)
    (ht : x.tag = y.tag) : tags [x] = tags [y] := by
  rcases Bool.eq_false_or_eq_true x.countedInflight with h | h
  · rw [tags_real h, tags_real (hc ▸ h), ht]
  · rw [tags_wrong h, tags_wrong (hc ▸ h)]

theorem tags_cons (x : Transaction) (l : List Transaction) : tags (x :: l) = tags [x] ++ tags l :=
  tags_append [x] l

private theorem tags_answerFirst {l q : List Transaction}
    (h : Pipeline.answerFirst l = some q) : tags q = tags l := by
  induction l generalizing q with
  | nil => cases h
  | cons x xs ih =>
    unfold Pipeline.answerFirst at h
    split at h
    · cases h
      have hc : tags [{ x with waitMem := false }] = tags [x] := tags_congr rfl rfl
      rw [tags_cons, tags_cons x xs, hc]
    · obtain ⟨r, hr, rfl⟩ := Option.map_eq_some_iff.mp h
      rw [tags_cons, tags_cons x xs, ih hr]

namespace Flow

/-- The lanes of the core: behind Execute in order, M-extension units aside. -/
def lanes (f : Flow) : Lanes Tag where
  tail := tags (f.slot .memory).toList ++ tags (f.slot .execute).toList
  front := tags (f.slot .decode).toList ++ tags (f.slot .fetch).toList ++ tags f.queue ++
    tags f.input.toList
  units := tags (f.slot .intMulExt).toList ++ tags (f.slot .intDivExt).toList
  log := tags f.commits
  head := (f.slot .decode).map Transaction.tag
  next := f.fed.length

abbrev LaneStep : Lanes Tag → Lanes Tag → Prop := Step Tag.seq Tag.isMext Tag.sameDst

private theorem lanes_step {f g : Flow} {L : Lanes Tag} (h : LaneStep f.lanes L)
    (he : g.lanes = L) : LaneStep f.lanes g.lanes :=
  he ▸ h

private theorem lanes_stay {f g : Flow} (h : g.lanes = f.lanes) : LaneStep f.lanes g.lanes := by
  rw [h]
  exact .stay

private theorem noWaw_units {f : Flow} {x : Transaction}
    (hw : x.traceInst.dstReg = 0 ∨ f.NoWaw x.traceInst.dstReg) :
    ∀ m ∈ f.lanes.units, ¬m.sameDst x.tag ∧ ¬x.tag.sameDst m := by
  intro m hm
  have hm' : ∃ s y, (s = .intMulExt ∨ s = .intDivExt) ∧ f.slot s = some y ∧ y.tag = m := by
    rcases List.mem_append.mp hm with hm | hm
    · obtain ⟨y, hy, rfl⟩ := List.mem_map.mp hm
      exact ⟨_, y, .inl rfl, by simpa using (List.mem_filter.mp hy).1, rfl⟩
    · obtain ⟨y, hy, rfl⟩ := List.mem_map.mp hm
      exact ⟨_, y, .inr rfl, by simpa using (List.mem_filter.mp hy).1, rfl⟩
  obtain ⟨s, y, hs, hy, rfl⟩ := hm'
  have hne : x.traceInst.dstReg = 0 ∨ y.traceInst.dstReg ≠ x.traceInst.dstReg :=
    hw.imp id fun hw => hw s y hs hy
  constructor
  · rintro ⟨h0, he⟩
    rcases hne with hne | hne
    · exact h0 (he.trans hne)
    · exact hne he
  · rintro ⟨h0, he⟩
    rcases hne with hne | hne
    · exact h0 hne
    · exact hne he.symm

private theorem flushedIf_lanes {f : Flow} {b : Bool} {x : Transaction} (hd : f.Disciplined)
    (hx : f.slot .decode = some x) (hb : b = true → x.brMispred = true) :
    tags ((f.flushedIf b).slot .fetch).toList ++ tags (f.flushedIf b).queue =
      tags (f.slot .fetch).toList ++ tags f.queue := by
  cases b with
  | false => rfl
  | true =>
    have hw := tags_all_wrong (hd.front_wrong hx (hb rfl))
    rw [front, tags_append] at hw
    rw [hw]
    simp [flushedIf, flushed]

private theorem flushedIf_slot {f : Flow} {b : Bool} {s : PipeStage} (h : s ≠ .fetch) :
    (f.flushedIf b).slot s = f.slot s := by
  cases b with
  | false => rfl
  | true => exact f.flushed_slot h

private theorem execUnit_mext {s : PipeStage} {x : Transaction}
    (hu : ExecUnit s x.traceInst.extOp) :
    (s = .execute ∧ ¬x.tag.isMext) ∨ ((s = .intMulExt ∨ s = .intDivExt) ∧ x.tag.isMext) := by
  have hext : ∀ op, op = x.traceInst.extOp → ExecUnit s op →
      (s = .execute ∧ ¬x.tag.isMext) ∨
        ((s = .intMulExt ∨ s = .intDivExt) ∧ x.tag.isMext) := by
    rintro op he (_ | hop | hop)
    · exact .inl ⟨rfl, fun hm => hm he.symm⟩
    · refine .inr ⟨.inl rfl, fun hm => ?_⟩
      rcases hop with rfl | rfl <;> exact absurd (he.trans hm) (by decide)
    · refine .inr ⟨.inr rfl, fun hm => ?_⟩
      rcases hop with rfl | rfl <;> exact absurd (he.trans hm) (by decide)
  exact hext _ rfl hu

/-- What a flush destroys has no lane, so an issue that flushes is one that does not. -/
private theorem lanes_issue {f : Flow} (hd : f.Disciplined) {s : PipeStage} {x : Transaction}
    {now : Nat} {b : Bool} (hx : f.slot .decode = some x) (hs : f.slot s = none)
    (hu : ExecUnit s x.traceInst.extOp) (hb : b = true → x.brMispred = true) :
    LaneStep f.lanes (Flow.lanes { f.flushedIf b with
      slot := Function.update (Function.update (f.flushedIf b).slot .decode none) s
        (some { x with execAt := now }) }) := by
  have hr := hd.settled .decode x (by decide) hx
  have hfl := flushedIf_lanes hd hx hb
  have hfront : f.lanes.front = x.tag :: (tags ((f.flushedIf b).slot .fetch).toList ++
      tags (f.flushedIf b).queue ++ tags f.input.toList) := by
    rw [hfl]
    simp [Flow.lanes, hx, tags_real hr.2]
  have hhead : f.lanes.head = some x.tag := by simp [Flow.lanes, hx]
  have hin : (f.flushedIf b).input = f.input ∧ (f.flushedIf b).commits = f.commits ∧
      (f.flushedIf b).fed = f.fed := by
    cases b <;> exact ⟨rfl, rfl, rfl⟩
  have hslot : ∀ t : PipeStage, t ≠ .fetch → (f.flushedIf b).slot t = f.slot t :=
    fun t ht => flushedIf_slot ht
  have htag : tags [{ x with execAt := now }] = [x.tag] := tags_real hr.2
  rcases execUnit_mext hu with ⟨rfl, hplain⟩ | ⟨hs' | hs', hmext⟩
  · refine lanes_step (.issue x.tag _ hfront hhead hplain) ?_
    simp [Flow.lanes, hslot, hin, hs, htag]
  · subst hs'
    refine lanes_step (.bypass x.tag _ (x.tag :: tags (f.slot .intDivExt).toList) hfront hhead
      hmext ?_) ?_
    · simp [Flow.lanes, hs]
    · simp [Flow.lanes, hslot, hin, htag]
  · subst hs'
    refine lanes_step (.bypass x.tag _ (tags (f.slot .intMulExt).toList ++ [x.tag]) hfront hhead
      hmext ?_) ?_
    · simp [Flow.lanes, hs, List.perm_append_singleton]
    · simp [Flow.lanes, hslot, hin, htag]

private theorem lanes_commit {f : Flow} (hd : f.Disciplined) {s : PipeStage} {x : Transaction}
    (hx : f.slot s = some x) (hs : f.Source s) :
    LaneStep f.lanes (Flow.lanes { f with
      slot := Function.update f.slot s none
      ongoing := f.ongoing - 1
      commits := f.commits ++ [x] }) := by
  have hr := hd.settled s x (by cases hs <;> decide) hx
  have htag := tags_real hr.2
  cases hs with
  | alu =>
    refine lanes_step (.leave x.tag (tags (f.slot .execute).toList) ?_) ?_
    · simp [Flow.lanes, hx, htag]
    · simp [Flow.lanes, htag]
  | mul hm he =>
    refine lanes_step (.leaveUnit x.tag (tags (f.slot .intDivExt).toList) ?_ ?_) ?_
    · simp [Flow.lanes, hm, he]
    · simp [Flow.lanes, hx, htag]
    · simp [Flow.lanes, htag]
  | div hm he =>
    refine lanes_step (.leaveUnit x.tag (tags (f.slot .intMulExt).toList) ?_ ?_) ?_
    · simp [Flow.lanes, hm, he]
    · simp [Flow.lanes, hx, htag, List.perm_append_singleton]
    · simp [Flow.lanes, htag]

/-- A move of the core is a move of its lanes. -/
theorem Move.lanes {f g : Flow} (hm : Move f g) (hd : f.Disciplined) :
    LaneStep f.lanes g.lanes := by
  cases hm with
  | buffer inst hin =>
    refine lanes_step (.enter ⟨f.fed.length, inst⟩ rfl) ?_
    have hc : tags [{ traceInst := inst, seq := f.fed.length }] = [⟨f.fed.length, inst⟩] :=
      tags_real rfl
    simp only [Flow.lanes, hin, Option.toList_none, Option.toList_some, tags_nil,
      List.append_nil, hc, List.length_append, List.length_singleton]
  | earlyFetch pc => exact .stay
  | wrongFetch pc hw hf =>
    refine lanes_stay ?_
    simp [Flow.lanes, request, tags_wrong (x := .wrongPath pc) rfl]
  | endWrong hw hf => exact .stay
  | realFetch x y hin hw hy =>
    obtain ⟨hold, pred, miss, rfl⟩ := hy.same
    refine lanes_stay ?_
    have hc : tags [{ x with
      waitMem := true, bpMetaHold := hold, brPred := pred, brMispred := miss }] = tags [x] :=
      tags_congr rfl rfl
    simp only [Flow.lanes, request, hin, Option.toList_none, Option.toList_some, tags_append,
      tags_nil, List.append_nil, List.append_assoc, hc]
  | hold p rest n hq hp =>
    refine lanes_stay ?_
    have hc : tags [{ p with bpMetaHold := n }] = tags [p] := tags_congr rfl rfl
    simp only [Flow.lanes, hq]
    rw [tags_cons, tags_cons p rest, hc]
  | enter p rest hq hp hs =>
    refine lanes_stay ?_
    simp only [Flow.lanes, Function.update_apply, reduceCtorEq, if_true, if_false, hq, hs,
      Option.toList_none, Option.toList_some, tags_nil, List.append_nil, tags_cons p rest,
      List.append_assoc]
  | orphanResp rest ho => exact .stay
  | resp rest q ho hq =>
    refine lanes_stay ?_
    simp only [Flow.lanes, tags_answerFirst hq]
  | drop x hx hw =>
    refine lanes_stay ?_
    have hc : x.countedInflight = false := by
      rcases hd.line.sorts x (by simp [line, Flow.front, hx]) with hr | hr
      · exact absurd (hr.1.symm.trans hw) (by decide)
      · exact hr.2
    simp [Flow.lanes, hx, tags_wrong hc]
  | pass x hx hw hn hmx hwaw =>
    have hs : x.tag.isMext → f.lanes.units = [] := by
      intro hx
      obtain ⟨h1, h2⟩ := hmx.resolve_left hx
      simp [Flow.lanes, h1, h2]
    refine lanes_step (.check x.tag hs (noWaw_units hwaw)) ?_
    simp only [Flow.lanes, Function.update_apply, reduceCtorEq, if_true, if_false, hx, hn,
      Option.toList_none, Option.toList_some, tags_nil, List.nil_append, List.append_nil,
      Option.map_some]
  | issue s x now b hx hs hu hb _ => exact lanes_issue hd hx hs hu hb
  | wait x hx _ =>
    refine lanes_stay ?_
    have hc : tags [{ x with waitMem := true }] = tags [x] := tags_congr rfl rfl
    simp only [Flow.lanes, Function.update_apply, reduceCtorEq, if_true, if_false, hx,
      Option.toList_some, hc]
  | toMemory x w hx hmem =>
    refine lanes_stay ?_
    have hc : tags [{ x with waitMem := false, respAt := w }] = tags [x] := tags_congr rfl rfl
    simp only [Flow.lanes, Function.update_apply, reduceCtorEq, if_true, if_false, hx, hmem,
      Option.toList_none, Option.toList_some, tags_nil, List.append_nil, List.nil_append, hc]
  | commit s x hx hs => exact lanes_commit hd hx hs
  | sent => exact .stay

/-- The commit order of the abstract machine; nothing ever stays in WriteBack. -/
structure InOrder (f : Flow) : Prop where
  ordered : Ordered Tag.seq Tag.isMext Tag.sameDst f.lanes
  idle : f.slot .writeBack = none

theorem inOrder_init : init.InOrder := ⟨ordered_nil, rfl⟩

theorem Move.idle {f g : Flow} (hm : Move f g) (h : f.slot .writeBack = none) :
    g.slot .writeBack = none := by
  have hfl : ∀ b, (f.flushedIf b).slot .writeBack = none := fun b =>
    (flushedIf_slot (by decide)).trans h
  cases hm with
  | buffer inst _ => exact h
  | earlyFetch pc => exact h
  | wrongFetch pc _ _ => exact h
  | endWrong _ _ => exact h
  | realFetch x y _ _ _ => exact h
  | hold p rest n _ _ => exact h
  | enter p rest _ _ _ => exact h
  | orphanResp rest _ => exact h
  | resp rest q _ _ => exact h
  | drop x _ _ => exact h
  | pass x _ _ _ _ _ => exact h
  | issue s x now b _ _ hu _ _ =>
    have hne : PipeStage.writeBack ≠ s := by
      rintro rfl
      generalize x.traceInst.extOp = op at hu
      cases hu
    dsimp only
    rw [Function.update_of_ne hne, Function.update_of_ne (by decide)]
    exact hfl b
  | wait x _ _ => exact h
  | toMemory x w _ _ => exact h
  | commit s x _ hs => cases hs <;> exact h
  | sent => exact h

theorem Move.inOrder {f g : Flow} (hm : Move f g) (hd : f.Disciplined) (h : f.InOrder) :
    g.InOrder :=
  ⟨(hm.lanes hd).ordered h.ordered, hm.idle h.idle⟩

private theorem tags_all_real {l : List Transaction} (h : ∀ x ∈ l, x.Real) :
    tags l = l.map Transaction.tag := by
  rw [tags, List.filter_eq_self.mpr fun x hx => (h x hx).2]

theorem Conserved.log_eq {f : Flow} (h : f.Conserved) :
    f.lanes.log = f.commits.map Transaction.tag :=
  tags_all_real h.disciplined.commits

theorem Conserved.tag_mem {f : Flow} (h : f.Conserved) (ho : f.InOrder) {n : Nat}
    {inst : TraceInst} (hn : f.fed[n]? = some inst) :
    ⟨n, inst⟩ ∈ f.lanes.tail ++ f.lanes.front ++ f.lanes.units ∨ ⟨n, inst⟩ ∈ f.lanes.log := by
  have hk : (inst, n) ∈ f.fed.zipIdx := List.mk_mem_zipIdx_iff_getElem?.mpr hn
  rcases h.key_mem hk with hk | hk
  · refine .inl ?_
    obtain ⟨x, hx, hc, he⟩ := mem_keys.mp hk
    have hmem : x.tag ∈ tags f.held := List.mem_map_of_mem (List.mem_filter.mpr ⟨hx, hc⟩)
    rw [show x.tag = ⟨n, inst⟩ by cases he; rfl] at hmem
    simp only [held, line, Flow.back, Flow.front, tags_append, List.mem_append, ho.idle,
      Option.toList_none, tags_nil, List.not_mem_nil, or_false] at hmem
    simp only [Flow.lanes, List.mem_append]
    tauto
  · refine .inr ?_
    rw [h.log_eq]
    obtain ⟨x, hx, he⟩ := List.mem_map.mp hk
    cases he
    exact List.mem_map_of_mem hx

end Flow

/-- Commit order, read off a log of commits, the records fed and the slots. -/
structure CommitOrder (commits : List Transaction) (fed : List TraceInst)
    (slot : PipeStage → Option Transaction) : Prop where
  plain : commits.Pairwise fun x y =>
    x.traceInst.extOp = Trace.ExtNone → y.traceInst.extOp = Trace.ExtNone → x.seq < y.seq
  mext_waits : ∀ l₁ x l₂, commits = l₁ ++ x :: l₂ → x.traceInst.extOp ≠ Trace.ExtNone →
    ∀ (n : Nat) (inst : TraceInst), fed[n]? = some inst → inst.extOp = Trace.ExtNone →
      n < x.seq → ∃ y ∈ l₁, y.seq = n ∧ y.traceInst = inst
  one_mext : ([.decode, .intMulExt, .intDivExt].filterMap slot).countP
    (fun x => x.traceInst.extOp != Trace.ExtNone) ≤ 1
  mext : commits.Pairwise fun x y =>
    x.traceInst.extOp ≠ Trace.ExtNone → y.traceInst.extOp ≠ Trace.ExtNone → x.seq < y.seq
  same_dst : commits.Pairwise fun x y =>
    x.traceInst.dstReg ≠ 0 → x.traceInst.dstReg = y.traceInst.dstReg → x.seq < y.seq

namespace Flow

private theorem one_mext {f : Flow} (h : f.Conserved) (ho : f.InOrder) :
    ([.decode, .intMulExt, .intDivExt].filterMap f.slot).countP
      (fun x => x.traceInst.extOp != Trace.ExtNone) ≤ 1 := by
  have htags : ∀ s, s ≠ .fetch → tags (f.slot s).toList = (f.slot s).toList.map Transaction.tag :=
    fun s hs => tags_all_real fun x hx => h.disciplined.settled s x hs (Option.mem_toList.mp hx)
  have hunits : f.lanes.units =
      ((f.slot .intMulExt).toList ++ (f.slot .intDivExt).toList).map Transaction.tag := by
    rw [List.map_append, ← htags _ (by decide), ← htags _ (by decide)]
    rfl
  have hcat : [.decode, .intMulExt, .intDivExt].filterMap f.slot =
      (f.slot .decode).toList ++ ((f.slot .intMulExt).toList ++ (f.slot .intDivExt).toList) := by
    cases hd : f.slot .decode <;> cases hm : f.slot .intMulExt <;>
      cases hv : f.slot .intDivExt <;> simp [hd, hm, hv]
  rw [hcat, List.countP_append]
  have hone := ho.ordered.one
  rw [hunits, List.length_map] at hone
  have hback := (List.countP_le_length
    (p := fun x => x.traceInst.extOp != Trace.ExtNone)).trans hone
  cases hd : f.slot .decode with
  | none => simpa using hback
  | some x =>
    by_cases hx : x.traceInst.extOp = Trace.ExtNone
    · simpa [hx] using hback
    · have hnil := ho.ordered.head_slow x.tag (by simp [Flow.lanes, hd]) hx
      rw [hunits, List.map_eq_nil_iff] at hnil
      rw [hnil]
      exact List.countP_le_length

theorem InOrder.commitOrder {f : Flow} (ho : f.InOrder) (h : f.Conserved) :
    CommitOrder f.commits f.fed f.slot := by
  have hlog : f.commits.Pairwise fun x y =>
      Before Tag.seq Tag.isMext Tag.sameDst x.tag y.tag := by
    have := ho.ordered.log
    rwa [h.log_eq, List.pairwise_map] at this
  refine ⟨?_, ?_, one_mext h ho, ?_, ?_⟩
  · exact hlog.imp fun hb _ hy => hb (.inl fun hm => hm hy)
  · intro l₁ x l₂ hl hx n inst hn hplain hlt
    rcases h.tag_mem ho hn with hm | hm
    · have hb := ho.ordered.log_held x.tag (by simp [h.log_eq, hl]) _ hm
      exact absurd (hb (.inr (.inl hx))) (Nat.not_lt.mpr hlt.le)
    · rw [h.log_eq, hl, List.map_append, List.map_cons, List.mem_append, List.mem_cons] at hm
      rcases hm with hm | hm | hm
      · obtain ⟨y, hy, he⟩ := List.mem_map.mp hm
        cases he
        exact ⟨y, hy, rfl, rfl⟩
      · cases hm
        exact absurd hlt (Nat.lt_irrefl _)
      · obtain ⟨y, hy, he⟩ := List.mem_map.mp hm
        cases he
        rw [hl, List.pairwise_append, List.pairwise_cons] at hlog
        exact absurd (hlog.2.1.1 y hy (.inr (.inl hx))) (Nat.not_lt.mpr hlt.le)
  · exact hlog.imp fun hb hx _ => hb (.inr (.inl hx))
  · exact hlog.imp fun hb hx he => hb (.inr (.inr ⟨hx, he⟩))

end Flow

namespace Pipeline

variable {K : PipelineParams}

/-- Every core state conserves instructions and commits in order, whatever the environment. -/
theorem CoreReachable.conserved {s : Clocked K} (h : CoreReachable s) :
    s.core.flow.Conserved ∧ s.core.flow.InOrder := by
  refine h.flow_invariant (I := fun f => f.Conserved ∧ f.InOrder)
    ⟨Flow.conserved_init, Flow.inOrder_init⟩ ?_
  rintro f g hm ⟨hc, ho⟩
  exact ⟨hm.conserved hc, hm.inOrder hc.disciplined ho⟩

end Pipeline

end NpSim.Pipe
