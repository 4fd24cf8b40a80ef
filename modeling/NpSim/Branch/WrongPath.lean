/- digest: The branch unit after a misprediction: wrong-path predictions leave no trace. -/

import NpSim.Branch.TageUndo

set_option autoImplicit false
set_option relaxedAutoImplicit false

namespace NpSim.Branch

namespace BranchUnit

variable {P : BranchParams}

/-- What happens on the wrong path: `some pc` is a prediction, `none` a new tick. -/
def wander (u : BranchUnit P) (l : List (Option Addr)) : BranchUnit P :=
  l.foldl (fun u x =>
    match x with
    | none => u.beginTick
    | some pc => (u.predict pc).2) u

def ticksOnly (l : List (Option Addr)) : List (Option Addr) := l.filter (·.isNone)

/-- A call after the misprediction; a resolution names the later prediction it carries. -/
inductive Later
  | predict (pc : Addr)
  | tick
  | clear (pc : Addr)
  | resolve (i : Nat) (pc : Addr) (taken : Bool) (target : Addr)
      (isCall isRet btbHit mispred : Bool)

/-- The unit and the later predictions it has made. -/
def later (s : BranchUnit P × List BranchResult) : Later → BranchUnit P × List BranchResult
  | .predict pc => ((s.1.predict pc).2, s.2 ++ [(s.1.predict pc).1])
  | .tick => (s.1.beginTick, s.2)
  | .clear pc => (s.1.clearBtbEntry pc, s.2)
  | .resolve i pc taken target isCall isRet btbHit mispred =>
    match s.2[i]? with
    | none => s
    | some pred => (s.1.update pc taken target isCall isRet btbHit pred mispred, s.2)

/-- What a prediction shows: everything but the identifier of its snapshot. -/
def visible (r : BranchResult) : BranchResult := { r with ghrSnap := 0 }

/-- Units that agree on everything but the count of accesses; the direction predictors are
`Alike`. -/
structure Agree (Alike : P.bpu.State → P.bpu.State → Prop) (u v : BranchUnit P) : Prop where
  btb : u.btb = v.btb
  ras : u.ras = v.ras
  written : u.btbWrittenThisTick = v.btbWrittenThisTick ∧ u.btbWrittenIdx = v.btbWrittenIdx
  bypass : u.bypassValid = v.bypassValid ∧ u.bypassIdx = v.bypassIdx
  bpu : Alike u.bpu v.bpu

/-- After the resolution of a mispredicted branch the unit agrees with the unit that made no
prediction on the wrong path, and from then on the two answer alike. -/
def Undone (P : BranchParams) (within : Nat → Prop) (Alike : P.bpu.State → P.bpu.State → Prop) :
    Prop :=
  ∀ (u : BranchUnit P) (pc : Addr) (wrong : List (Option Addr)),
    within (wrong.countP (·.isSome)) →
    ∀ (taken : Bool) (target : Addr) (isCall isRet btbHit : Bool) (events : List Later),
      let pred := (u.predict pc).1
      let left := ((u.predict pc).2.wander wrong).update pc taken target isCall isRet btbHit
        pred true
      let right := ((u.predict pc).2.wander (ticksOnly wrong)).update pc taken target isCall isRet
        btbHit pred true
      Agree Alike left right ∧
        Agree Alike (events.foldl later (left, [])).1 (events.foldl later (right, [])).1 ∧
        (events.foldl later (left, [])).2.map visible =
          (events.foldl later (right, [])).2.map visible

def retuned (st : BPStats) (b : P.bpu.State) (u : BranchUnit P) : BranchUnit P :=
  { u with stats := st, bpu := b }

private theorem update_retuned (st : BPStats) (b : P.bpu.State) (u : BranchUnit P) (pc : Addr)
    (taken : Bool) (target : Addr) (isCall isRet btbHit : Bool) (pred other : BranchResult)
    (mispred : Bool) :
    (u.retuned st b).update pc taken target isCall isRet btbHit pred mispred =
      (u.update pc taken target isCall isRet btbHit other mispred).retuned st
        (P.bpu.resolve b pc taken btbHit pred mispred) := by
  unfold update updateBtb
  cases taken <;> rfl

def answer (pc : Addr) (res : BPUPredResult) (u : BranchUnit P) : BranchResult :=
  let (target, taken) := u.rasOverride pc (u.btbTarget pc) res.taken
  { predTaken := taken
    predTarget := target
    willRedirect := taken && target != 0
    bhtCnt := res.bhtCnt
    ghrSnap := res.ghrSnap
    tageOverrodeBimodal := res.tageOverrodeBimodal }

private theorem predict_answer (st : BPStats) (b : P.bpu.State) (u : BranchUnit P) (pc : Addr) :
    ((u.retuned st b).predict pc).1 = u.answer pc (P.bpu.predict b pc (u.btbTarget pc)).1 := rfl

private theorem ticks_keep (u : BranchUnit P) (l : List (Option Addr)) :
    (u.wander (ticksOnly l)).bpu = u.bpu ∧ (u.wander (ticksOnly l)).stats = u.stats := by
  induction l generalizing u with
  | nil => exact ⟨rfl, rfl⟩
  | cons x l ih =>
    cases x with
    | none => exact ih u.beginTick
    | some pc => exact ih u

private theorem wander_retuned (l : List (Option Addr)) (st : BPStats) (b : P.bpu.State)
    (u : BranchUnit P) :
    ∃ st' m, m.length = l.countP (·.isSome) ∧
      (u.retuned st b).wander l = (u.wander (ticksOnly l)).retuned st' (P.bpu.speculate b m) := by
  induction l generalizing u st b with
  | nil => exact ⟨st, [], rfl, rfl⟩
  | cons x l ih =>
    cases x with
    | none =>
      obtain ⟨st', m, hm, h⟩ := ih st b u.beginTick
      refine ⟨st', m, ?_, h⟩
      rw [List.countP_cons_of_neg (by simp)]
      exact hm
    | some pc =>
      obtain ⟨st', m, hm, h⟩ := ih { st with accesses := st.accesses + 1 }
        (P.bpu.predict b pc (u.btbTarget pc)).2 u
      refine ⟨st', (pc, u.btbTarget pc) :: m, ?_, h⟩
      rw [List.countP_cons_of_pos (by simp), List.length_cons, hm]

/-- Two units in step: the direction predictors are twins, and the left one's predictions are the
right one's, raised. -/
private structure InStep (off : BitVec 32)
    (R : List (BitVec 32) → P.bpu.State → P.bpu.State → Prop)
    (s t : BranchUnit P × List BranchResult) : Prop where
  unit : ∃ v st st' a b, s.1 = BranchUnit.retuned st a v ∧ t.1 = BranchUnit.retuned st' b v ∧
    R (t.2.map (·.ghrSnap)) a b
  preds : s.2 = t.2.map (·.raise off)

private theorem inStep_later {off : BitVec 32}
    {R : List (BitVec 32) → P.bpu.State → P.bpu.State → Prop} (hR : P.bpu.Twins off R)
    {s t : BranchUnit P × List BranchResult} (h : InStep off R s t) (e : Later) :
    InStep off R (later s e) (later t e) := by
  obtain ⟨u, ps⟩ := s
  obtain ⟨u', qs⟩ := t
  obtain ⟨⟨v, st, st', a, b, rfl, rfl, hab⟩, rfl⟩ := h
  cases e with
  | predict pc =>
    obtain ⟨hres, hnext⟩ := hR.predict hab pc (v.btbTarget pc)
    refine ⟨⟨v, { st with accesses := st.accesses + 1 }, { st' with accesses := st'.accesses + 1 },
      (P.bpu.predict a pc (v.btbTarget pc)).2, (P.bpu.predict b pc (v.btbTarget pc)).2, rfl, rfl,
      ?_⟩, ?_⟩
    · change R ((qs ++ [_]).map _) _ _
      rw [List.map_append]
      exact hnext
    · change qs.map _ ++ [_] = (qs ++ [_]).map _
      rw [List.map_append]
      have hraise := congrArg (fun res => v.answer pc res) hres
      rw [predict_answer, predict_answer]
      exact congrArg (fun r => qs.map (·.raise off) ++ [r]) hraise
  | tick => exact ⟨⟨v.beginTick, st, st', a, b, rfl, rfl, hab⟩, rfl⟩
  | clear pc => exact ⟨⟨v.clearBtbEntry pc, st, st', a, b, rfl, rfl, hab⟩, rfl⟩
  | resolve i pc taken target isCall isRet btbHit mispred =>
    change InStep off R
      (match (qs.map (·.raise off))[i]? with
        | none => _
        | some pred => _)
      (match qs[i]? with
        | none => _
        | some pred => _)
    rw [List.getElem?_map]
    cases hi : qs[i]? with
    | none => exact ⟨⟨v, st, st', a, b, rfl, rfl, hab⟩, rfl⟩
    | some pred =>
      have hmem : pred.ghrSnap ∈ qs.map (·.ghrSnap) :=
        List.mem_map_of_mem (List.mem_of_getElem? hi)
      refine ⟨⟨v.update pc taken target isCall isRet btbHit pred mispred, st, st', _, _,
        update_retuned .., update_retuned .., hR.resolve hab pc taken btbHit hmem mispred⟩, rfl⟩

private theorem inStep_events {off : BitVec 32}
    {R : List (BitVec 32) → P.bpu.State → P.bpu.State → Prop} (hR : P.bpu.Twins off R)
    (events : List Later) {s t : BranchUnit P × List BranchResult} (h : InStep off R s t) :
    InStep off R (events.foldl later s) (events.foldl later t) := by
  induction events generalizing s t with
  | nil => exact h
  | cons e events ih => exact ih (inStep_later hR h e)

private theorem InStep.agree {off : BitVec 32}
    {R : List (BitVec 32) → P.bpu.State → P.bpu.State → Prop}
    {Alike : P.bpu.State → P.bpu.State → Prop} (hA : ∀ ids a b, R ids a b → Alike a b)
    {s t : BranchUnit P × List BranchResult} (h : InStep off R s t) : Agree Alike s.1 t.1 := by
  obtain ⟨v, st, st', a, b, hs, ht, hab⟩ := h.unit
  rw [hs, ht]
  exact ⟨rfl, rfl, ⟨rfl, rfl⟩, ⟨rfl, rfl⟩, hA _ _ _ hab⟩

/-- A direction predictor that undoes wrong-path predictions does so inside the branch unit. -/
theorem undone_of_undoes {within : Nat → Prop} {Alike : P.bpu.State → P.bpu.State → Prop}
    (h : P.bpu.Undoes within Alike) : Undone P within Alike := by
  intro u pc wrong hw taken target isCall isRet btbHit events
  dsimp only
  let v := (u.predict pc).2
  obtain ⟨st, m, hm, hwander⟩ := wander_retuned wrong v.stats v.bpu v
  obtain ⟨hbpu, _⟩ := ticks_keep v wrong
  obtain ⟨off, R, hR, hA, hres⟩ := h u.bpu pc (u.btbTarget pc) m (hm ▸ hw) taken btbHit
    (u.predict pc).1 rfl
  have hstart : InStep off R
      ((v.wander wrong).update pc taken target isCall isRet btbHit (u.predict pc).1 true, [])
      ((v.wander (ticksOnly wrong)).update pc taken target isCall isRet btbHit (u.predict pc).1
        true, []) := by
    refine ⟨⟨(v.wander (ticksOnly wrong)).update pc taken target isCall isRet btbHit
      (u.predict pc).1 true, st, (v.wander (ticksOnly wrong)).stats, _, _, ?_, ?_, hres⟩, rfl⟩
    · have hleft : v.wander wrong = _ := hwander
      dsimp only
      rw [hleft]
      apply update_retuned
    · have hright : v.wander (ticksOnly wrong) =
          (v.wander (ticksOnly wrong)).retuned (v.wander (ticksOnly wrong)).stats v.bpu := by
        rw [← hbpu]
        rfl
      dsimp only
      conv_lhs => rw [hright]
      apply update_retuned
  have hend := inStep_events hR events hstart
  refine ⟨hstart.agree hA, hend.agree hA, ?_⟩
  rw [hend.preds, List.map_map]
  rfl

/-- The predictions made on the wrong path after a mispredicted branch are undone by its
resolution, whatever the target buffer and the return stack: any number of them for the bimodal,
gshare and tournament predictors, and up to 510 for TAGE. -/
theorem wrongPath_undone (btb : BTBBase) (rasDepth : Nat) :
    (∀ G : BimodalParams, Undone ⟨G.predictor, btb, rasDepth⟩ (fun _ => True) fun a b => a = b) ∧
    (∀ G, Undone ⟨GShare.predictor G, btb, rasDepth⟩ (fun _ => True) fun a b => a = b) ∧
    (∀ G, Undone ⟨Tournament.predictor G, btb, rasDepth⟩ (fun _ => True) fun a b => a = b) ∧
    ∀ T, Undone ⟨Tage.predictor T, btb, rasDepth⟩ (· < snapRing - 1) Tage.Alike := by
  refine ⟨?_, ?_, ?_, ?_⟩
  · intro G
    exact undone_of_undoes G.undoes
  · intro G
    exact undone_of_undoes (GShare.undoes G)
  · intro G
    exact undone_of_undoes (Tournament.undoes G)
  · intro T
    exact undone_of_undoes (Tage.undoes T)

end BranchUnit

end NpSim.Branch
