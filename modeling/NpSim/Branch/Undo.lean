/- digest: Direction predictors that take back the predictions made after a mispredicted branch. -/

import NpSim.Branch.Predictors

set_option autoImplicit false
set_option relaxedAutoImplicit false

namespace NpSim.Branch

/-- The snapshot identifier of `r` raised by `off`. -/
def BranchResult.raise (off : BitVec 32) (r : BranchResult) : BranchResult :=
  { r with ghrSnap := r.ghrSnap + off }

/-- The snapshot identifier of `r` raised by `off`. -/
def BPUPredResult.raise (off : BitVec 32) (r : BPUPredResult) : BPUPredResult :=
  { r with ghrSnap := r.ghrSnap + off }

theorem BranchResult.raise_zero (r : BranchResult) : r.raise 0 = r := by
  cases r
  simp [BranchResult.raise]

theorem BPUPredResult.raise_zero (r : BPUPredResult) : r.raise 0 = r := by
  cases r
  simp [BPUPredResult.raise]

namespace BranchPred

variable (B : BranchPred)

/-- The state after the predictions of `l`, each with its program counter and target. -/
def speculate (s : B.State) (l : List (Addr × Addr)) : B.State :=
  l.foldl (fun s x => (B.predict s x.1 x.2).2) s

/-- The part of `BranchUnit::update` that concerns the direction predictor. -/
def resolve (s : B.State) (pc : Addr) (taken btbHit : Bool) (pred : BranchResult)
    (mispred : Bool) : B.State :=
  let s := B.onResolved s taken pred
  let s := if btbHit || taken then B.update s pc taken btbHit pred.bhtCnt pred.ghrSnap else s
  if mispred then B.onMispred s taken pred.bhtCnt pred.ghrSnap else s

/-- `R ids` relates two states that behave alike from here on. `ids` are the snapshots handed out
since on the right; the left has handed out the same ones raised by `off`. -/
structure Twins (off : BitVec 32) (R : List (BitVec 32) → B.State → B.State → Prop) : Prop where
  predict : ∀ {ids : List (BitVec 32)} {a b : B.State}, R ids a b → ∀ pc target,
    (B.predict a pc target).1 = (B.predict b pc target).1.raise off ∧
      R (ids ++ [(B.predict b pc target).1.ghrSnap]) (B.predict a pc target).2
        (B.predict b pc target).2
  onResolved : ∀ {ids : List (BitVec 32)} {a b : B.State}, R ids a b →
    ∀ taken (pred : BranchResult), pred.ghrSnap ∈ ids →
      R ids (B.onResolved a taken (pred.raise off)) (B.onResolved b taken pred)
  update : ∀ {ids : List (BitVec 32)} {a b : B.State}, R ids a b →
    ∀ pc taken btbHit cnt, ∀ id ∈ ids,
      R ids (B.update a pc taken btbHit cnt (id + off)) (B.update b pc taken btbHit cnt id)
  onMispred : ∀ {ids : List (BitVec 32)} {a b : B.State}, R ids a b →
    ∀ taken cnt, ∀ id ∈ ids,
      R ids (B.onMispred a taken cnt (id + off)) (B.onMispred b taken cnt id)

variable {B}

theorem Twins.resolve {off : BitVec 32} {R : List (BitVec 32) → B.State → B.State → Prop}
    (h : B.Twins off R) {ids : List (BitVec 32)} {a b : B.State} (hab : R ids a b) (pc : Addr)
    (taken btbHit : Bool) {pred : BranchResult} (hid : pred.ghrSnap ∈ ids) (mispred : Bool) :
    R ids (B.resolve a pc taken btbHit (pred.raise off) mispred)
      (B.resolve b pc taken btbHit pred mispred) := by
  have hres := h.onResolved hab taken pred hid
  have hupd : R ids
      (if btbHit || taken then
        B.update (B.onResolved a taken (pred.raise off)) pc taken btbHit pred.bhtCnt
          (pred.ghrSnap + off)
      else B.onResolved a taken (pred.raise off))
      (if btbHit || taken then
        B.update (B.onResolved b taken pred) pc taken btbHit pred.bhtCnt pred.ghrSnap
      else B.onResolved b taken pred) := by
    split
    · exact h.update hres pc taken btbHit _ _ hid
    · exact hres
  cases mispred with
  | false => exact hupd
  | true => exact h.onMispred hupd taken _ _ hid

theorem twins_eq : B.Twins 0 fun _ a b => a = b := by
  constructor
  · intro ids a b hab pc target
    subst hab
    exact ⟨(BPUPredResult.raise_zero _).symm, rfl⟩
  · intro ids a b hab taken pred _
    rw [hab, BranchResult.raise_zero]
  · intro ids a b hab pc taken btbHit cnt id _
    rw [hab, show id + 0 = id from BitVec.add_zero id]
  · intro ids a b hab taken cnt id _
    rw [hab, show id + 0 = id from BitVec.add_zero id]

/-- Fewer than `limit` predictions after a mispredicted branch leave no trace once it is resolved:
the states with and without them are related, and `Alike` is what the relation says about them. -/
def Undoes (B : BranchPred) (within : Nat → Prop) (Alike : B.State → B.State → Prop) : Prop :=
  ∀ (s : B.State) (pc target : Addr) (l : List (Addr × Addr)), within l.length →
    ∀ (taken btbHit : Bool) (pred : BranchResult),
      pred.ghrSnap = (B.predict s pc target).1.ghrSnap →
      ∃ off R, B.Twins off R ∧ (∀ ids a b, R ids a b → Alike a b) ∧
        R [] (B.resolve (B.speculate (B.predict s pc target).2 l) pc taken btbHit pred true)
          (B.resolve (B.predict s pc target).2 pc taken btbHit pred true)

/-- A predictor whose resolution after a misprediction does not see the predictions in between. -/
theorem undoes_of_eq (h : ∀ (s : B.State) (pc target : Addr) (l : List (Addr × Addr))
    (taken btbHit : Bool) (pred : BranchResult),
      pred.ghrSnap = (B.predict s pc target).1.ghrSnap →
      B.resolve (B.speculate (B.predict s pc target).2 l) pc taken btbHit pred true =
        B.resolve (B.predict s pc target).2 pc taken btbHit pred true) :
    B.Undoes (fun _ => True) fun a b => a = b := by
  intro s pc target l _ taken btbHit pred hid
  exact ⟨0, _, twins_eq, fun _ _ _ hab => hab, h s pc target l taken btbHit pred hid⟩

end BranchPred

theorem BimodalParams.speculate_eq (G : BimodalParams) (s : Nat → Nat) (l : List (Addr × Addr)) :
    G.predictor.speculate s l = s := by
  induction l with
  | nil => rfl
  | cons x l ih => exact ih

theorem BimodalParams.undoes (G : BimodalParams) :
    G.predictor.Undoes (fun _ => True) fun a b => a = b := by
  apply BranchPred.undoes_of_eq
  intro s pc target l taken btbHit pred _
  exact congrArg (fun x => G.predictor.resolve x pc taken btbHit pred true)
    (G.speculate_eq (G.predictor.predict s pc target).2 l)

namespace GShare

variable (G : HistoryParams)

theorem speculate_eq (s : GShare) (l : List (Addr × Addr)) :
    ∃ g, (predictor G).speculate s l = { s with globalHistory := g } := by
  induction l generalizing s with
  | nil => exact ⟨s.globalHistory, rfl⟩
  | cons x l ih => exact ih (predict G s x.1 x.2).2

theorem undoes : (predictor G).Undoes (fun _ => True) fun a b => a = b := by
  apply BranchPred.undoes_of_eq
  intro s pc target l taken btbHit pred _
  obtain ⟨g, hg⟩ := speculate_eq G (predict G s pc target).2 l
  change (predictor G).resolve ((predictor G).speculate (predict G s pc target).2 l) pc taken
    btbHit pred true = _
  rw [hg]
  unfold BranchPred.resolve
  cases btbHit || taken <;> rfl

end GShare

namespace Tournament

variable (G : HistoryParams)

theorem speculate_eq (s : Tournament) (l : List (Addr × Addr)) :
    ∃ g, (predictor G).speculate s l = { s with globalHistory := g } := by
  induction l generalizing s with
  | nil => exact ⟨s.globalHistory, rfl⟩
  | cons x l ih => exact ih (predict G s x.1 x.2).2

theorem undoes : (predictor G).Undoes (fun _ => True) fun a b => a = b := by
  apply BranchPred.undoes_of_eq
  intro s pc target l taken btbHit pred _
  obtain ⟨g, hg⟩ := speculate_eq G (predict G s pc target).2 l
  change (predictor G).resolve ((predictor G).speculate (predict G s pc target).2 l) pc taken
    btbHit pred true = _
  rw [hg]
  unfold BranchPred.resolve
  cases btbHit || taken <;> rfl

end Tournament

end NpSim.Branch
