/- digest: Predictors with a global history register: what shifts it, what a snapshot keeps of it,
   and what restores it. -/

import NpSim.Branch.TageUndo

set_option autoImplicit false
set_option relaxedAutoImplicit false

namespace NpSim.Branch

/-- A direction predictor with a global history register. `Kept s id age h` says that the snapshot
`id`, taken `age` predictions ago, still holds the history `h`. -/
structure Historian (B : BranchPred) where
  Hist : Type
  shift : Hist → Bool → Hist
  hist : B.State → Hist
  /-- a prediction that reads this target from the target buffer shifts the register -/
  shifts : Addr → Bool
  Kept : B.State → BitVec 32 → Nat → Hist → Prop
  /-- the ages a snapshot may have when it is used -/
  fits : Nat → Prop
  predict_hist : ∀ s pc target, hist (B.predict s pc target).2 =
    if shifts target then shift (hist s) (B.predict s pc target).1.taken else hist s
  predict_new : ∀ s pc target,
    Kept (B.predict s pc target).2 (B.predict s pc target).1.ghrSnap 1 (hist s)
  predict_old : ∀ {s id age h}, Kept s id age h → fits age → ∀ pc target,
    Kept (B.predict s pc target).2 id (age + 1) h
  onResolved_hist : ∀ s taken pred, hist (B.onResolved s taken pred) = hist s
  onResolved_kept : ∀ {s id age h}, Kept s id age h → ∀ taken pred,
    Kept (B.onResolved s taken pred) id age h
  update_hist : ∀ s pc taken btbHit cnt id, hist (B.update s pc taken btbHit cnt id) = hist s
  update_kept : ∀ {s id age h}, Kept s id age h → ∀ pc taken btbHit cnt id',
    Kept (B.update s pc taken btbHit cnt id') id age h
  onMispred_hist : ∀ {s id age h}, Kept s id age h → fits age → ∀ taken cnt,
    hist (B.onMispred s taken cnt id) = shift h taken

namespace Historian

variable {B : BranchPred} (V : Historian B)

theorem resolve_hist (s : B.State) (pc : Addr) (taken btbHit : Bool) (pred : BranchResult) :
    V.hist (B.resolve s pc taken btbHit pred false) = V.hist s := by
  unfold BranchPred.resolve
  dsimp only
  rw [if_neg Bool.false_ne_true]
  split
  · rw [V.update_hist, V.onResolved_hist]
  · rw [V.onResolved_hist]

theorem resolve_kept {s : B.State} {id : BitVec 32} {age : Nat} {h : V.Hist}
    (hk : V.Kept s id age h) (pc : Addr) (taken btbHit : Bool) (pred : BranchResult) :
    V.Kept (B.resolve s pc taken btbHit pred false) id age h := by
  have hres := V.onResolved_kept hk taken pred
  unfold BranchPred.resolve
  dsimp only
  rw [if_neg Bool.false_ne_true]
  split
  · exact V.update_kept hres pc taken btbHit _ _
  · exact hres

theorem resolve_restored {s : B.State} {age : Nat} {h : V.Hist} {pred : BranchResult}
    (hk : V.Kept s pred.ghrSnap age h) (ha : V.fits age) (pc : Addr) (taken btbHit : Bool) :
    V.hist (B.resolve s pc taken btbHit pred true) = V.shift h taken := by
  have hres := V.onResolved_kept hk taken pred
  unfold BranchPred.resolve
  dsimp only
  rw [if_pos rfl]
  split
  · exact V.onMispred_hist (V.update_kept hres pc taken btbHit _ _) ha taken _
  · exact V.onMispred_hist hres ha taken _

end Historian

/-- The history of gshare: every prediction shifts it, and the branch carries it. -/
def GShare.historian (G : HistoryParams) : Historian (GShare.predictor G) where
  Hist := BitVec 32
  shift := G.shift
  hist := fun s => GShare.globalHistory s
  shifts _ := true
  Kept _ id _ h := id = h
  fits _ := True
  predict_hist _ _ _ := rfl
  predict_new _ _ _ := rfl
  predict_old h _ _ _ := h
  onResolved_hist _ _ _ := rfl
  onResolved_kept h _ _ := h
  update_hist _ _ _ _ _ _ := rfl
  update_kept h _ _ _ _ _ := h
  onMispred_hist h _ taken _ := congrArg (fun g => G.shift g taken) h

/-- The history of the tournament predictor, kept as gshare keeps it. -/
def Tournament.historian (G : HistoryParams) : Historian (Tournament.predictor G) where
  Hist := BitVec 32
  shift := G.shift
  hist := fun s => Tournament.globalHistory s
  shifts _ := true
  Kept _ id _ h := id = h
  fits _ := True
  predict_hist _ _ _ := rfl
  predict_new _ _ _ := rfl
  predict_old h _ _ _ := h
  onResolved_hist _ _ _ := rfl
  onResolved_kept h _ _ := h
  update_hist _ _ _ _ _ _ := rfl
  update_kept h _ _ _ _ _ := h
  onMispred_hist h _ taken _ := congrArg (fun g => G.shift g taken) h

namespace Tage

variable (T : TageParams)

/-- The snapshot `id` is `age` predictions old and holds the history `h`. -/
structure Keeps (s : Tage) (id : BitVec 32) (age : Nat) (h : BitVec 64) : Prop where
  since : (s.snapWrIdx - id).toNat = age
  pos : 0 < age
  ghr : (s.snaps (ringSlot id)).ghrSnap = h

theorem ringSlot_ne {w id : BitVec 32} (h0 : 0 < (w - id).toNat)
    (h : (w - id).toNat < snapRing) : ringSlot id ≠ ringSlot w := by
  unfold snapRing at h
  have hsum : w.toNat = (id.toNat + (w - id).toNat) % 2 ^ 32 := by bv_omega
  unfold ringSlot snapRing
  rw [hsum]
  omega

theorem train_ghr (s : Tage) (snap : TageSnap) (pc : Addr) (taken : Bool) :
    (s.train T snap pc taken).ghr = s.ghr ∧ (s.train T snap pc taken).snaps = s.snaps ∧
      (s.train T snap pc taken).snapWrIdx = s.snapWrIdx := by
  have h := train_withRun T s s.ghr s.snaps s.snapWrIdx snap pc taken
  change s.train T snap pc taken = _ at h
  rw [h]
  exact ⟨rfl, rfl, rfl⟩

private theorem searchStep_ghrSnap (s : Tage) (snap : TageSnap) (i : Nat) :
    (s.searchStep snap i).ghrSnap = snap.ghrSnap := by
  unfold searchStep
  dsimp only
  split
  · rfl
  · split
    · rfl
    · split <;> rfl

theorem takeSnap_ghrSnap (s : Tage) (pc target : Addr) (old : TageSnap) :
    (s.takeSnap T pc target old).ghrSnap = s.ghr := by
  have hfold : ∀ (l : List Nat) (snap : TageSnap),
      (l.foldl s.searchStep snap).ghrSnap = snap.ghrSnap := by
    intro l
    induction l with
    | nil =>
      intro snap
      rfl
    | cons i l ih =>
      intro snap
      exact (ih _).trans (searchStep_ghrSnap s snap i)
  have hfill : ∀ snap : TageSnap, (fillAlt T pc snap).ghrSnap = snap.ghrSnap := by
    intro snap
    unfold fillAlt
    split <;> rfl
  exact (hfill _).trans (hfold _ _)

theorem keeps_predict_new (s : Tage) (pc target : Addr) :
    Keeps (predict T s pc target).2 s.snapWrIdx 1 s.ghr := by
  refine ⟨?_, Nat.one_pos, ?_⟩
  · change (s.snapWrIdx + 1 - s.snapWrIdx).toNat = 1
    bv_omega
  · change (Function.update s.snaps (ringSlot s.snapWrIdx) _ _).ghrSnap = _
    rw [Function.update_self]
    exact takeSnap_ghrSnap T s pc target _

theorem keeps_predict_old {s : Tage} {id : BitVec 32} {age : Nat} {h : BitVec 64}
    (hk : Keeps s id age h) (ha : age < snapRing) (pc target : Addr) :
    Keeps (predict T s pc target).2 id (age + 1) h := by
  obtain ⟨hage, hpos, hghr⟩ := hk
  have hslot : ringSlot id ≠ ringSlot s.snapWrIdx := ringSlot_ne (hage ▸ hpos) (hage ▸ ha)
  refine ⟨?_, Nat.succ_pos age, ?_⟩
  · unfold snapRing at ha
    change (s.snapWrIdx + 1 - id).toNat = age + 1
    bv_omega
  · change (Function.update s.snaps (ringSlot s.snapWrIdx) _ (ringSlot id)).ghrSnap = h
    rw [Function.update_of_ne hslot]
    exact hghr

theorem onResolved_run (s : Tage) (taken : Bool) (pred : BranchResult) :
    ∃ t, s.onResolved taken pred = { s with stats := t } := by
  unfold onResolved
  split
  · exact ⟨s.stats, rfl⟩
  · dsimp only
    split
    · exact ⟨s.stats, rfl⟩
    · exact ⟨_, rfl⟩

private theorem consume_ghrSnap (s : Tage) (id : BitVec 32) (k : Nat) :
    ((s.consume id).snaps k).ghrSnap = (s.snaps k).ghrSnap := by
  unfold consume
  by_cases hk : k = ringSlot id
  · dsimp only
    rw [hk, Function.update_self]
  · dsimp only
    rw [Function.update_of_ne hk]

theorem update_run (s : Tage) (pc : Addr) (taken btbHit : Bool) (cnt : Nat) (id : BitVec 32) :
    (update T s pc taken btbHit cnt id).ghr = s.ghr ∧
      (update T s pc taken btbHit cnt id).snapWrIdx = s.snapWrIdx ∧
      ∀ k, ((update T s pc taken btbHit cnt id).snaps k).ghrSnap = (s.snaps k).ghrSnap := by
  unfold update
  split
  · exact ⟨rfl, rfl, fun _ => rfl⟩
  · dsimp only
    split
    · exact ⟨rfl, rfl, fun _ => rfl⟩
    · obtain ⟨hg, hs, hw⟩ := train_ghr T s (s.snaps (ringSlot id)) pc taken
      refine ⟨hg, hw, ?_⟩
      intro k
      rw [consume_ghrSnap, hs]

theorem onResolved_ghr (s : Tage) (taken : Bool) (pred : BranchResult) :
    (s.onResolved taken pred).ghr = s.ghr := by
  obtain ⟨t, ht⟩ := onResolved_run s taken pred
  rw [ht]

theorem keeps_onResolved {s : Tage} {id : BitVec 32} {age : Nat} {h : BitVec 64}
    (hk : Keeps s id age h) (taken : Bool) (pred : BranchResult) :
    Keeps (s.onResolved taken pred) id age h := by
  obtain ⟨t, ht⟩ := onResolved_run s taken pred
  rw [ht]
  exact ⟨hk.since, hk.pos, hk.ghr⟩

theorem keeps_update {s : Tage} {id : BitVec 32} {age : Nat} {h : BitVec 64}
    (hk : Keeps s id age h) (pc : Addr) (taken btbHit : Bool) (cnt : Nat) (id' : BitVec 32) :
    Keeps (update T s pc taken btbHit cnt id') id age h := by
  obtain ⟨_, hw, hs⟩ := update_run T s pc taken btbHit cnt id'
  refine ⟨?_, hk.pos, (hs _).trans hk.ghr⟩
  rw [hw]
  exact hk.since

theorem Keeps.intact {s : Tage} {id : BitVec 32} {age : Nat} {h : BitVec 64}
    (hk : Keeps s id age h) (ha : age < snapRing) : s.overwritten id = false := by
  unfold overwritten
  rw [hk.since, decide_eq_false_iff_not]
  exact Nat.not_le.mpr ha

theorem onMispred_ghr {s : Tage} {id : BitVec 32} {age : Nat} {h : BitVec 64}
    (hk : Keeps s id age h) (ha : age < snapRing) (taken : Bool) (cnt : Nat) :
    (onMispred T s taken cnt id).ghr = T.shift h taken := by
  unfold onMispred
  rw [hk.intact ha, if_neg Bool.false_ne_true]
  exact congrArg (fun g => T.shift g taken) hk.ghr

/-- The history of TAGE: predictions that miss the target buffer do not shift it, and the branch
carries the identifier of a snapshot that the ring holds for 511 predictions. -/
def historian : Historian (predictor T) where
  Hist := BitVec 64
  shift := T.shift
  hist := fun s => Tage.ghr s
  shifts target := target != 0
  Kept := fun s => Keeps s
  fits := (· < snapRing)
  predict_hist _ _ _ := rfl
  predict_new := keeps_predict_new T
  predict_old h ha pc target := keeps_predict_old T h ha pc target
  onResolved_hist := onResolved_ghr
  onResolved_kept hk taken pred := keeps_onResolved hk taken pred
  update_hist s pc taken btbHit cnt id := (update_run T s pc taken btbHit cnt id).1
  update_kept hk pc taken btbHit cnt id := keeps_update T hk pc taken btbHit cnt id
  onMispred_hist hk ha taken cnt := onMispred_ghr T hk ha taken cnt

end Tage

end NpSim.Branch
