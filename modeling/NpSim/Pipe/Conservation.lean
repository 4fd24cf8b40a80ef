/- digest: Instruction conservation: wrong-path discipline of the front end and the ledger of fed,
   held, committed and discarded transactions. -/

import Mathlib.Algebra.BigOperators.Group.List.Basic
import Mathlib.Algebra.Order.Group.Multiset
import Mathlib.Tactic.Abel
import NpSim.Pipe.Flow

set_option autoImplicit false
set_option relaxedAutoImplicit false

namespace NpSim.Pipe

open NpSim.Lib.Partial Relation

namespace Transaction

def Real (x : Transaction) : Prop := x.isWrongPath = false ∧ x.countedInflight = true

def Wrong (x : Transaction) : Prop := x.isWrongPath = true ∧ x.countedInflight = false

/-- What the wrong-path discipline reads of a transaction. -/
def mark (x : Transaction) : Bool × Bool × Bool :=
  (x.isWrongPath, x.countedInflight, x.brMispred)

/-- `y` follows a mispredicted or wrong-path `x` only as a placeholder. -/
def Follows (x y : Transaction) : Prop :=
  x.brMispred = true ∨ x.isWrongPath = true → y.isWrongPath = true

end Transaction

open Transaction

/-- A line of transactions, oldest first, in which nothing real is behind a misprediction. -/
structure OrderlyLine (l : List Transaction) : Prop where
  sorts : ∀ x ∈ l, x.Real ∨ x.Wrong
  tail : l.Pairwise Follows

/-- A line without mispredictions and placeholders. -/
def CleanLine (l : List Transaction) : Prop := ∀ x ∈ l, x.brMispred = false ∧ x.Real

namespace OrderlyLine

theorem nil : OrderlyLine [] := ⟨by simp, .nil⟩

theorem sublist {l l' : List Transaction} (hs : l'.Sublist l) (h : OrderlyLine l) :
    OrderlyLine l' :=
  ⟨fun y hy => h.sorts y (hs.subset hy), h.tail.sublist hs⟩

theorem append_wrong {l : List Transaction} {y : Transaction} (h : OrderlyLine l)
    (hy : y.Wrong) : OrderlyLine (l ++ [y]) := by
  refine ⟨?_, ?_⟩
  · intro x hx
    rcases List.mem_append.mp hx with hx | hx
    · exact h.sorts x hx
    · cases List.mem_singleton.mp hx
      exact .inr hy
  · rw [List.pairwise_append]
    refine ⟨h.tail, List.pairwise_singleton .., ?_⟩
    intro x _ z hz _
    cases List.mem_singleton.mp hz
    exact hy.1

theorem append_real {l : List Transaction} {y : Transaction} (h : OrderlyLine l)
    (hl : CleanLine l) (hy : y.Real) : OrderlyLine (l ++ [y]) := by
  refine ⟨?_, ?_⟩
  · intro x hx
    rcases List.mem_append.mp hx with hx | hx
    · exact h.sorts x hx
    · cases List.mem_singleton.mp hx
      exact .inl hy
  · rw [List.pairwise_append]
    refine ⟨h.tail, List.pairwise_singleton .., ?_⟩
    intro x hx z _ hm
    obtain ⟨hb, hr⟩ := hl x hx
    rw [hb, hr.1] at hm
    rcases hm with hm | hm <;> cases hm

/-- Behind a misprediction there are only placeholders. -/
theorem wrong_of_mispred {x : Transaction} {l : List Transaction} (h : OrderlyLine (x :: l))
    (hx : x.brMispred = true) : ∀ y ∈ l, y.Wrong := by
  intro y hy
  have hw := (List.pairwise_cons.mp h.tail).1 y hy (.inl hx)
  rcases h.sorts y (List.mem_cons_of_mem x hy) with hr | hr
  · rw [hr.1] at hw
    cases hw
  · exact hr

theorem mark_real {x y : Transaction} (h : x.mark = y.mark) (hx : x.Real) : y.Real := by
  simp only [mark, Prod.mk.injEq] at h
  exact ⟨h.1 ▸ hx.1, h.2.1 ▸ hx.2⟩

private theorem mark_wrong {x y : Transaction} (h : x.mark = y.mark) (hx : x.Wrong) :
    y.Wrong := by
  simp only [mark, Prod.mk.injEq] at h
  exact ⟨h.1 ▸ hx.1, h.2.1 ▸ hx.2⟩

private theorem mark_follows {x y x' y' : Transaction} (hx : x.mark = x'.mark)
    (hy : y.mark = y'.mark) (h : Follows x y) : Follows x' y' := by
  simp only [mark, Prod.mk.injEq] at hx hy
  intro hm
  rw [← hx.2.2, ← hx.1] at hm
  exact hy.1 ▸ h hm

private theorem exists_marked {l l' : List Transaction} (h : l.map mark = l'.map mark)
    {y : Transaction} (hy : y ∈ l') : ∃ x ∈ l, x.mark = y.mark := by
  have := List.mem_map_of_mem (f := mark) hy
  rw [← h] at this
  exact List.mem_map.mp this

theorem cleanLine_congr {l l' : List Transaction} (h : l.map mark = l'.map mark)
    (hl : CleanLine l) : CleanLine l' := by
  intro y hy
  obtain ⟨x, hx, he⟩ := exists_marked h hy
  obtain ⟨hb, hr⟩ := hl x hx
  refine ⟨?_, mark_real he hr⟩
  simp only [mark, Prod.mk.injEq] at he
  exact he.2.2 ▸ hb

theorem congr {l l' : List Transaction} (h : l.map mark = l'.map mark) (hl : OrderlyLine l) :
    OrderlyLine l' := by
  refine ⟨?_, ?_⟩
  · intro y hy
    obtain ⟨x, hx, he⟩ := exists_marked h hy
    exact (hl.sorts x hx).imp (mark_real he) (mark_wrong he)
  · have ht := hl.tail
    clear hl
    induction l generalizing l' with
    | nil =>
      cases List.map_eq_nil_iff.mp h.symm
      exact .nil
    | cons x l ih =>
      cases l' with
      | nil => cases h
      | cons x' l' =>
        simp only [List.map_cons, List.cons.injEq] at h
        rw [List.pairwise_cons] at ht ⊢
        refine ⟨?_, ih h.2 ht.2⟩
        intro y hy
        obtain ⟨z, hz, he⟩ := exists_marked h.2 hy
        exact mark_follows h.1 he (ht.1 z hz)

end OrderlyLine

theorem answerFirst_mark {l q : List Transaction} (h : Pipeline.answerFirst l = some q) :
    l.map mark = q.map mark := by
  induction l generalizing q with
  | nil => cases h
  | cons x xs ih =>
    unfold Pipeline.answerFirst at h
    split at h
    · cases h
      rfl
    · obtain ⟨r, hr, rfl⟩ := Option.map_eq_some_iff.mp h
      simp only [List.map_cons, ih hr]

namespace Flow

/-- The transactions up to the Decode slot, oldest first. -/
def line (f : Flow) : List Transaction := (f.slot .decode).toList ++ f.front

/-- The transactions behind Decode. -/
def back (f : Flow) : List Transaction :=
  (f.slot .execute).toList ++ (f.slot .intMulExt).toList ++ (f.slot .intDivExt).toList ++
    (f.slot .memory).toList ++ (f.slot .writeBack).toList

/-- Everything the core holds: input buffer, fetch queue and slots. -/
def held (f : Flow) : List Transaction := f.input.toList ++ f.line ++ f.back

structure Disciplined (f : Flow) : Prop where
  flushed : f.wpFlushed = true → f.wrongPath = true
  input : ∀ x, f.input = some x → x.Real
  settled : ∀ s x, s ≠ .fetch → f.slot s = some x → x.Real
  line : OrderlyLine f.line
  clean : f.wrongPath = false ∨ f.wpFlushed = true → CleanLine f.line
  commits : ∀ x ∈ f.commits, x.Real
  discarded : ∀ x ∈ f.discarded, x.Wrong

theorem disciplined_init : init.Disciplined := by
  constructor <;> simp [init, line, front, OrderlyLine.nil, CleanLine]

private theorem settled_update {f : Flow} (h : f.Disciplined) {s : PipeStage}
    {o : Option Transaction} (ho : ∀ x, o = some x → s ≠ .fetch → x.Real) :
    ∀ s' x, s' ≠ .fetch → Function.update f.slot s o s' = some x → x.Real := by
  intro s' x hs hx
  by_cases he : s' = s
  · subst he
    rw [Function.update_self] at hx
    exact ho x hx hs
  · rw [Function.update_of_ne he] at hx
    exact h.settled s' x hs hx

private theorem settled_move {f : Flow} (h : f.Disciplined) {s t : PipeStage} {x y : Transaction}
    (hx : x.Real) (hy : x.mark = y.mark) :
    ∀ s' z, s' ≠ .fetch →
      Function.update (Function.update f.slot t none) s (some y) s' = some z → z.Real := by
  intro s' z hs hz
  by_cases he : s' = s
  · subst he
    rw [Function.update_self] at hz
    cases hz
    exact OrderlyLine.mark_real hy hx
  · rw [Function.update_of_ne he] at hz
    exact settled_update h (fun _ hn => by cases hn) s' z hs hz

/-- What a flush for the mispredicted `x` in Decode destroys is all wrong path. -/
theorem Disciplined.front_wrong {f : Flow} (h : f.Disciplined) {x : Transaction}
    (hx : f.slot .decode = some x) (hm : x.brMispred = true) : ∀ y ∈ f.front, y.Wrong := by
  have hl := h.line
  simp only [Flow.line, hx, Option.toList_some, List.singleton_append] at hl
  exact hl.wrong_of_mispred hm

private theorem wrong_of_mispred_decode {f : Flow} (h : f.Disciplined) {x : Transaction}
    (hx : f.slot .decode = some x) (hm : x.brMispred = true) : f.wrongPath = true := by
  by_contra hw
  have hc := h.clean (.inl (by simpa using hw)) x (by simp [Flow.line, hx])
  rw [hm] at hc
  cases hc.1

private theorem disciplined_queue {f : Flow} (h : f.Disciplined) {q : List Transaction}
    {o : List Bool} (hq : f.queue.map mark = q.map mark) :
    { f with orphans := o, queue := q }.Disciplined := by
  have hl : f.line.map mark = ({ f with orphans := o, queue := q } : Flow).line.map mark := by
    simp only [Flow.line, front, List.map_append, hq]
  exact { h with
    line := h.line.congr hl, clean := fun hw => OrderlyLine.cleanLine_congr hl (h.clean hw) }

private theorem disciplined_append {f : Flow} (h : f.Disciplined) {i : Option Transaction}
    {y : Transaction} {o : List Bool} {l : List Addr} {w : Bool} (hi : i = f.input ∨ i = none)
    (hw : f.wrongPath = true → w = true) (hl : OrderlyLine (f.line ++ [y]))
    (hc : w = false ∨ f.wpFlushed = true → CleanLine (f.line ++ [y])) :
    { f with input := i, queue := f.queue ++ [y], orphans := o, fetches := l,
             wrongPath := w }.Disciplined := by
  have he : f.line ++ [y] = ({ f with
      input := i, queue := f.queue ++ [y], orphans := o, fetches := l, wrongPath := w } :
        Flow).line := by
    simp only [Flow.line, front, List.append_assoc]
  rw [he] at hl hc
  refine { h with flushed := fun hf => hw (h.flushed hf), input := ?_, line := hl, clean := hc }
  rintro x hx
  rcases hi with rfl | rfl
  · exact h.input x hx
  · cases hx

private theorem disciplined_sublist {f g : Flow} (h : f.Disciplined)
    (hs : g.line.Sublist f.line) (hi : g.input = f.input) (hw : g.wrongPath = f.wrongPath)
    (hf : g.wpFlushed = f.wpFlushed) (hset : ∀ s x, s ≠ .fetch → g.slot s = some x → x.Real)
    (hc : ∀ x ∈ g.commits, x.Real) (hd : g.discarded = f.discarded) : g.Disciplined where
  flushed := by
    rw [hw, hf]
    exact h.flushed
  input := by
    rw [hi]
    exact h.input
  settled := hset
  line := h.line.sublist hs
  clean := by
    rw [hw, hf]
    exact fun hcl x hx => h.clean hcl x (hs.subset hx)
  commits := hc
  discarded := by
    rw [hd]
    exact h.discarded

private theorem disciplined_take {f : Flow} (h : f.Disciplined) {x y : Transaction}
    (hin : f.input = some x) (hw : f.wrongPath = false) (hy : Pipeline.Fetched x y)
    {o : List Bool} {l : List Addr} :
    { f with input := none, queue := f.queue ++ [y], orphans := o, fetches := l,
             wrongPath := y.brMispred }.Disciplined := by
  obtain ⟨hold, pred, miss, rfl⟩ := hy.same
  have hx := h.input x hin
  have hc := h.clean (.inl hw)
  refine disciplined_append h (.inr rfl) ?_ (h.line.append_real hc hx) ?_
  · intro hw'
    rw [hw] at hw'
    cases hw'
  · intro hmiss z hz
    rcases List.mem_append.mp hz with hz | hz
    · exact hc z hz
    · cases List.mem_singleton.mp hz
      rcases hmiss with hmiss | hf
      · exact ⟨hmiss, hx⟩
      · have := h.flushed hf
        rw [hw] at this
        cases this

private theorem disciplined_issue {f : Flow} (h : f.Disciplined) {s : PipeStage}
    {x : Transaction} {now : Nat} {b : Bool} (hx : f.slot .decode = some x)
    (hu : ExecUnit s x.traceInst.extOp) (hb : b = true → x.brMispred = true) :
    { f.flushedIf b with
      slot := Function.update (Function.update (f.flushedIf b).slot .decode none) s
        (some { x with execAt := now }) }.Disciplined := by
  have hne := hu.behind_decode
  have hr := h.settled .decode x (by decide) hx
  cases b with
  | false =>
    refine disciplined_sublist h ?_ rfl rfl rfl (settled_move h hr rfl) h.commits rfl
    simp [flushedIf, Flow.line, front, hne.1.symm, hne.2.symm]
  | true =>
    have hm := hb rfl
    have hw := wrong_of_mispred_decode h hx hm
    have hl : ({ f.flushed with
        slot := Function.update (Function.update f.flushed.slot .decode none) s
          (some { x with execAt := now }) } : Flow).line = [] := by
      simp [flushed, Flow.line, front, hne.1.symm, hne.2.symm]
    refine ⟨fun _ => hw, h.input, ?_, ?_, ?_, h.commits, ?_⟩
    · intro s' z hs' hz
      refine settled_move h hr (s := s) (t := .decode) (y := { x with execAt := now }) rfl s' z
        hs' ?_
      rw [← hz]
      simp only [flushedIf, flushed, if_true, Function.update_apply, hs', if_false]
    · exact hl ▸ OrderlyLine.nil
    · intro _
      exact hl ▸ fun y hy => by cases hy
    · intro y hy
      rcases List.mem_append.mp hy with hy | hy
      · exact h.discarded y hy
      · exact h.front_wrong hx hm y hy

theorem Move.disciplined {f g : Flow} (hm : Move f g) (h : f.Disciplined) : g.Disciplined := by
  cases hm with
  | buffer inst hin =>
    refine { h with input := ?_ }
    intro x hx
    cases hx
    exact ⟨rfl, rfl⟩
  | earlyFetch pc => exact { h with }
  | wrongFetch pc hw hf =>
    refine disciplined_append h (.inl rfl) id (h.line.append_wrong ⟨rfl, rfl⟩) ?_
    rintro (hc | hc)
    · exact absurd (hw.symm.trans hc) (by decide)
    · exact absurd (hf.symm.trans hc) (by decide)
  | endWrong hw hf =>
    refine { h with flushed := ?_, clean := fun _ => h.clean (.inr hf) }
    intro hc
    cases hc
  | realFetch x y hin hw hy => exact disciplined_take h hin hw hy
  | hold p rest n hq hp =>
    refine disciplined_queue h ?_
    rw [hq]
    rfl
  | enter p rest hq hp hs =>
    have hl : ({ f with queue := rest, slot := Function.update f.slot .fetch (some p) } :
        Flow).line = f.line := by
      simp [Flow.line, front, hq, hs]
    refine { h with
      settled := settled_update h fun _ _ hne => absurd rfl hne, line := ?_, clean := ?_ }
    · rw [hl]
      exact h.line
    · rw [hl]
      exact h.clean
  | orphanResp rest ho => exact { h with }
  | resp rest q ho hq => exact disciplined_queue h (answerFirst_mark hq)
  | drop x hx hw =>
    refine disciplined_sublist h ?_ rfl rfl rfl
      (settled_update h fun _ hn => by cases hn) h.commits rfl
    simp [Flow.line, front, hx]
  | pass x hx hw hd _ _ =>
    have hr : x.Real := by
      rcases h.line.sorts x (by simp [Flow.line, front, hx]) with hr | hr
      · exact hr
      · rw [hr.1] at hw
        cases hw
    have hl : ({ f with
        slot := Function.update (Function.update f.slot .fetch none) .decode (some x) } :
        Flow).line = f.line := by
      simp [Flow.line, front, hx, hd]
    refine { h with settled := settled_move h hr rfl, line := ?_, clean := ?_ }
    · rw [hl]
      exact h.line
    · rw [hl]
      exact h.clean
  | issue s x now b hx _ hu hb _ => exact disciplined_issue h hx hu hb
  | wait x hx _ =>
    have hr := h.settled .execute x (by decide) hx
    refine { h with settled := settled_update h ?_ }
    rintro y hy _
    cases hy
    exact hr
  | toMemory x w hx _ =>
    exact { h with settled := settled_move h (h.settled .execute x (by decide) hx) rfl }
  | commit s x hx hs =>
    have hne : s ≠ .fetch ∧ s ≠ .decode := by
      cases hs <;> decide
    have hr := h.settled s x hne.1 hx
    refine disciplined_sublist h ?_ rfl rfl rfl (settled_update h fun _ hn => by cases hn) ?_ rfl
    · simp [Flow.line, front, hne.1.symm, hne.2.symm]
    · intro y hy
      rcases List.mem_append.mp hy with hy | hy
      · exact h.commits y hy
      · cases List.mem_singleton.mp hy
        exact hr
  | sent => exact { h with }

/-- The key of a real transaction: its record and the record's position in the trace. -/
def keyOf (x : Transaction) : Multiset (TraceInst × Nat) :=
  if x.countedInflight then {(x.traceInst, x.seq)} else 0

def keys (l : List Transaction) : Multiset (TraceInst × Nat) := (l.map keyOf).sum

@[simp] private theorem keys_nil : keys [] = 0 := rfl

@[simp] private theorem keys_cons (x : Transaction) (l : List Transaction) :
    keys (x :: l) = keyOf x + keys l := by
  simp [keys]

@[simp] private theorem keys_append (l m : List Transaction) : keys (l ++ m) = keys l + keys m := by
  simp [keys]

private theorem keys_answerFirst {l q : List Transaction} (h : Pipeline.answerFirst l = some q) :
    keys q = keys l := by
  induction l generalizing q with
  | nil => cases h
  | cons x xs ih =>
    unfold Pipeline.answerFirst at h
    split at h
    · cases h
      simp [keyOf]
    · obtain ⟨r, hr, rfl⟩ := Option.map_eq_some_iff.mp h
      simp [ih hr]

theorem mem_keys {l : List Transaction} {k : TraceInst × Nat} :
    k ∈ keys l ↔ ∃ x ∈ l, x.countedInflight = true ∧ k = (x.traceInst, x.seq) := by
  induction l with
  | nil => simp
  | cons x l ih =>
    rw [keys_cons, Multiset.mem_add, ih, keyOf]
    by_cases h : x.countedInflight <;> simp [h]

/-- The keys of everything held, committed or discarded, place by place. -/
def ledger (f : Flow) : Multiset (TraceInst × Nat) :=
  keys f.input.toList + keys (f.slot .fetch).toList + keys (f.slot .decode).toList +
    keys (f.slot .execute).toList + keys (f.slot .intMulExt).toList +
    keys (f.slot .intDivExt).toList + keys (f.slot .memory).toList +
    keys (f.slot .writeBack).toList + keys f.queue + keys f.commits + keys f.discarded

theorem ledger_eq (f : Flow) :
    f.ledger = keys f.held + keys f.commits + keys f.discarded := by
  simp only [ledger, held, line, Flow.back, front, keys_append]
  abel

/-- Every fed record is held, committed or discarded, once. -/
def Balanced (f : Flow) : Prop := f.ledger = (f.fed.zipIdx : Multiset (TraceInst × Nat))

private theorem ledger_issue {f : Flow} {s : PipeStage} {x : Transaction} {now : Nat} {op : Nat}
    (hx : f.slot .decode = some x) (hs : f.slot s = none) (hu : ExecUnit s op) :
    { f with
      slot := Function.update (Function.update f.slot .decode none) s
        (some { x with execAt := now }) }.ledger = f.ledger := by
  have hk : keyOf { x with execAt := now } = keyOf x := rfl
  cases hu <;>
    simp only [ledger, Function.update_apply, reduceCtorEq, if_true, if_false, hx, hs,
      Option.toList_none, Option.toList_some, keys_nil, keys_cons, hk] <;>
    abel

private theorem ledger_flushed (f : Flow) : f.flushed.ledger = f.ledger := by
  simp only [ledger, flushed, front, Function.update_apply, reduceCtorEq, if_true, if_false,
    Option.toList_none, keys_nil, keys_append]
  abel

theorem Move.balanced {f g : Flow} (hm : Move f g) (hd : f.Disciplined) (h : f.Balanced) :
    g.Balanced := by
  have hsame : g.ledger = f.ledger → g.fed = f.fed → g.Balanced := fun hl hf =>
    hl.trans (h.trans (by rw [hf]))
  cases hm with
  | buffer inst hin =>
    have hk : keyOf { traceInst := inst, seq := f.fed.length } = {(inst, f.fed.length)} := rfl
    change _ = _
    simp only [ledger, Option.toList_some, keys_cons, keys_nil, hk, List.zipIdx_append,
      List.zipIdx_singleton, ← Multiset.coe_add, Multiset.coe_singleton]
    rw [← h]
    simp only [ledger, hin, Option.toList_none, keys_nil, Nat.zero_add]
    abel
  | earlyFetch pc => exact h
  | wrongFetch pc hw hf =>
    refine hsame ?_ rfl
    have hk : keyOf (Transaction.wrongPath pc) = 0 := rfl
    simp only [ledger, request, keys_append, keys_cons, keys_nil, hk, add_zero]
  | endWrong hw hf => exact h
  | realFetch x y hin hw hy =>
    obtain ⟨hold, pred, miss, rfl⟩ := hy.same
    refine hsame ?_ rfl
    have hk : keyOf { x with
      waitMem := true, bpMetaHold := hold, brPred := pred, brMispred := miss } = keyOf x := rfl
    simp only [ledger, request, hin, Option.toList_none, Option.toList_some, keys_append,
      keys_cons, keys_nil, hk]
    abel
  | hold p rest n hq hp =>
    refine hsame ?_ rfl
    have hk : keyOf { p with bpMetaHold := n } = keyOf p := rfl
    simp only [ledger, hq, keys_cons, hk]
  | enter p rest hq hp hs =>
    refine hsame ?_ rfl
    simp only [ledger, Function.update_apply, reduceCtorEq, if_true, if_false, hq, hs,
      Option.toList_none, Option.toList_some, keys_cons, keys_nil]
    abel
  | orphanResp rest ho => exact h
  | resp rest q ho hq =>
    refine hsame ?_ rfl
    simp only [ledger, keys_answerFirst hq]
  | drop x hx hw =>
    refine hsame ?_ rfl
    have hc : x.countedInflight = false := by
      rcases hd.line.sorts x (by simp [line, front, hx]) with hr | hr
      · exact absurd (hr.1.symm.trans hw) (by decide)
      · exact hr.2
    have hk : keyOf x = 0 := by simp [keyOf, hc]
    simp only [ledger, Function.update_apply, reduceCtorEq, if_true, if_false, hx,
      Option.toList_none, Option.toList_some, keys_cons, keys_nil, hk, add_zero]
  | pass x hx hw hn _ _ =>
    refine hsame ?_ rfl
    simp only [ledger, Function.update_apply, reduceCtorEq, if_true, if_false, hx, hn,
      Option.toList_none, Option.toList_some, keys_cons, keys_nil]
    abel
  | issue s x now b hx hs hu hb hb' =>
    cases b with
    | false => exact hsame (ledger_issue hx hs hu) rfl
    | true =>
      have hne := hu.behind_decode
      have hx' : f.flushed.slot .decode = some x := (f.flushed_slot (by decide)).trans hx
      have hs' : f.flushed.slot s = none := (f.flushed_slot hne.1).trans hs
      exact hsame ((ledger_issue hx' hs' hu).trans (ledger_flushed f)) rfl
  | wait x hx _ =>
    refine hsame ?_ rfl
    have hk : keyOf { x with waitMem := true } = keyOf x := rfl
    simp only [ledger, Function.update_apply, reduceCtorEq, if_true, if_false, hx,
      Option.toList_some, keys_cons, keys_nil, hk]
  | toMemory x w hx hm =>
    refine hsame ?_ rfl
    have hk : keyOf { x with waitMem := false, respAt := w } = keyOf x := rfl
    simp only [ledger, Function.update_apply, reduceCtorEq, if_true, if_false, hx, hm,
      Option.toList_none, Option.toList_some, keys_cons, keys_nil, hk]
    abel
  | commit s x hx hs =>
    refine hsame ?_ rfl
    cases hs <;>
      simp only [ledger, Function.update_apply, reduceCtorEq, if_true, if_false, hx,
        Option.toList_none, Option.toList_some, keys_cons, keys_nil, keys_append] <;>
      abel
  | sent => exact h

private theorem card_keys {l : List Transaction} :
    (keys l).card = l.countP (·.countedInflight) := by
  induction l with
  | nil => rfl
  | cons x l ih =>
    rw [keys_cons, Multiset.card_add, ih, List.countP_cons, Nat.add_comm]
    unfold keyOf
    split <;> rfl

private theorem countP_real {l : List Transaction} (h : ∀ x ∈ l, x.Real) :
    l.countP (·.countedInflight) = l.length :=
  List.countP_eq_length.mpr fun x hx => (h x hx).2

private theorem countP_wrong {l : List Transaction} (h : ∀ x ∈ l, x.Wrong) :
    l.countP (·.countedInflight) = 0 :=
  List.countP_eq_zero.mpr fun x hx => by simp [(h x hx).2]

theorem Balanced.count {f : Flow} (h : f.Balanced) (hd : f.Disciplined) :
    f.held.countP (·.countedInflight) + f.commits.length = f.fed.length := by
  have hc := congrArg Multiset.card (f.ledger_eq.symm.trans h)
  rw [Multiset.card_add, Multiset.card_add, card_keys, card_keys, card_keys,
    countP_real hd.commits, countP_wrong hd.discarded] at hc
  simpa using hc

structure Conserved (f : Flow) : Prop where
  disciplined : f.Disciplined
  balanced : f.Balanced
  ongoing : f.ongoing + f.commits.length = f.fed.length

private theorem keys_real {l : List Transaction} (h : ∀ x ∈ l, x.Real) :
    keys l = (l.map fun x => (x.traceInst, x.seq) : List (TraceInst × Nat)) := by
  induction l with
  | nil => rfl
  | cons x l ih =>
    have hx : keyOf x = {(x.traceInst, x.seq)} := by
      simp [keyOf, (h x List.mem_cons_self).2]
    rw [keys_cons, hx, ih fun y hy => h y (List.mem_cons_of_mem x hy)]
    rfl

theorem Conserved.fed_of_held {f : Flow} (h : f.Conserved) {x : Transaction} (hx : x ∈ f.held)
    (hc : x.countedInflight = true) : f.fed[x.seq]? = some x.traceInst := by
  have hkey : (x.traceInst, x.seq) ∈ f.ledger := by
    rw [ledger_eq, Multiset.mem_add, Multiset.mem_add]
    exact .inl (.inl (mem_keys.mpr ⟨x, hx, hc, rfl⟩))
  rw [h.balanced, Multiset.mem_coe] at hkey
  exact List.mk_mem_zipIdx_iff_getElem?.mp hkey

theorem Conserved.fed_of_slot {f : Flow} (h : f.Conserved) {s : PipeStage} {x : Transaction}
    (hs : s ≠ .fetch) (hx : f.slot s = some x) : f.fed[x.seq]? = some x.traceInst := by
  refine h.fed_of_held ?_ (h.disciplined.settled s x hs hx).2
  simp only [held, line, Flow.back, List.mem_append, Option.mem_toList]
  cases s with
  | fetch => exact absurd rfl hs
  | decode => exact .inl (.inr (.inl hx))
  | execute => simp [hx]
  | intMulExt => simp [hx]
  | intDivExt => simp [hx]
  | memory => simp [hx]
  | writeBack => simp [hx]

theorem Conserved.seq_ne_input {f : Flow} (h : f.Conserved) {x w : Transaction}
    (hx : x ∈ f.line ++ f.back) (hc : x.countedInflight = true) (hw : f.input = some w) :
    x.seq ≠ w.seq := by
  intro heq
  have hwreal := (h.disciplined.input w hw).2
  have hheld : ∀ y, y ∈ f.line ++ f.back → y ∈ f.held := by
    intro y hy
    unfold held
    rw [List.append_assoc]
    exact List.mem_append_right _ hy
  have hwheld : w ∈ f.held := by
    unfold held
    simp [hw]
  have hinst : x.traceInst = w.traceInst := by
    have hfx := h.fed_of_held (hheld x hx) hc
    rw [heq, h.fed_of_held hwheld hwreal] at hfx
    exact (Option.some.inj hfx).symm
  have hledger : f.ledger =
      keyOf w + (keys (f.line ++ f.back) + keys f.commits + keys f.discarded) := by
    rw [ledger_eq, held, hw, List.append_assoc, keys_append]
    simp only [Option.toList_some, keys_cons, keys_nil, add_zero, add_assoc]
  have hnodup : f.ledger.Nodup := by
    rw [h.balanced, Multiset.coe_nodup]
    refine List.Nodup.of_map Prod.snd ?_
    rw [List.zipIdx_map_snd]
    exact List.nodup_range'
  rw [hledger, Multiset.nodup_add] at hnodup
  have hkw : (w.traceInst, w.seq) ∈ keyOf w := by
    simp [keyOf, hwreal]
  refine Multiset.disjoint_left.mp hnodup.2.2 hkw ?_
  rw [Multiset.mem_add, Multiset.mem_add]
  exact .inl (.inl (mem_keys.mpr ⟨x, hx, hc, by rw [hinst, heq]⟩))

theorem Conserved.key_mem {f : Flow} (h : f.Conserved) {k : TraceInst × Nat}
    (hk : k ∈ f.fed.zipIdx) :
    k ∈ keys f.held ∨ k ∈ f.commits.map fun x => (x.traceInst, x.seq) := by
  have hl := f.ledger_eq.symm.trans h.balanced
  rw [← Multiset.mem_coe, ← hl, Multiset.mem_add, Multiset.mem_add] at hk
  rcases hk with (hk | hk) | hk
  · exact .inl hk
  · rw [keys_real h.disciplined.commits, Multiset.mem_coe] at hk
    exact .inr hk
  · have hc := countP_wrong h.disciplined.discarded
    rw [← card_keys, Multiset.card_eq_zero] at hc
    rw [hc] at hk
    exact absurd hk (Multiset.notMem_zero k)

/-- With nothing in flight, every fed record has been committed once. -/
theorem Conserved.commits_perm {f : Flow} (h : f.Conserved) (hz : f.ongoing = 0) :
    (f.commits.map fun x => (x.traceInst, x.seq)).Perm f.fed.zipIdx := by
  have hl := f.ledger_eq.symm.trans h.balanced
  have hcount := h.balanced.count h.disciplined
  have ho := h.ongoing
  have hheld : f.held.countP (·.countedInflight) = 0 := by omega
  have hdisc := countP_wrong h.disciplined.discarded
  rw [← card_keys, Multiset.card_eq_zero] at hheld hdisc
  rw [hheld, hdisc, keys_real h.disciplined.commits, zero_add, add_zero] at hl
  exact Multiset.coe_eq_coe.mp hl

theorem conserved_init : init.Conserved := by
  refine ⟨disciplined_init, ?_, rfl⟩
  simp [Balanced, ledger, init]

theorem Move.conserved {f g : Flow} (hm : Move f g) (h : f.Conserved) : g.Conserved := by
  have hb := hm.balanced h.disciplined h.balanced
  have hd := hm.disciplined h.disciplined
  refine ⟨hd, hb, ?_⟩
  have ho := h.ongoing
  cases hm with
  | buffer inst hin =>
    simp only [List.length_append, List.length_singleton]
    omega
  | earlyFetch pc => exact ho
  | wrongFetch pc hw hf => exact ho
  | endWrong hw hf => exact ho
  | realFetch x y hin hw hy => exact ho
  | hold p rest n hq hp => exact ho
  | enter p rest hq hp hs => exact ho
  | orphanResp rest ho' => exact ho
  | resp rest q ho' hq => exact ho
  | drop x hx hw => exact ho
  | pass x hx hw hn _ _ => exact ho
  | issue s x now b hx hs hu hmis hb' =>
    cases b with
    | false => exact ho
    | true =>
      have hz := countP_wrong (h.disciplined.front_wrong hx (hmis rfl))
      change f.ongoing - _ + _ = _
      rw [hz]
      exact ho
  | wait x hx _ => exact ho
  | toMemory x w hx hm => exact ho
  | commit s x hx hs =>
    have hc := hb.count hd
    simp only [List.length_append, List.length_singleton] at hc ⊢
    omega
  | sent => exact ho

end Flow

end NpSim.Pipe
