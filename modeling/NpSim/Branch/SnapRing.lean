/- digest: The calls that find their snapshot in the ring: they count no loss and leave the slots of
   the other snapshots alone. -/

import NpSim.Branch.Historian

set_option autoImplicit false
set_option relaxedAutoImplicit false

namespace NpSim.Branch.Tage

variable (T : TageParams)

/-- The slots of the ring are taken in turn, also when the identifiers wrap around. -/
theorem ringSlot_ofNat (n : Nat) : ringSlot (BitVec.ofNat 32 n) = n % snapRing := by
  unfold ringSlot
  rw [BitVec.toNat_ofNat]
  exact Nat.mod_mod_of_dvd n (by decide)

theorem live_of {s : Tage} {m n : Nat} (hs : s.snapWrIdx = BitVec.ofNat 32 m) (hn : n ≤ m)
    (hm : m < n + snapRing) : s.overwritten (BitVec.ofNat 32 n) = false := by
  unfold snapRing at hm
  unfold overwritten snapRing
  rw [hs, decide_eq_false_iff_not, BitVec.toNat_sub, BitVec.toNat_ofNat, BitVec.toNat_ofNat]
  omega

/-- The updates that found their snapshot overwritten, and those that found it consumed. -/
def losses (s : Tage) : Nat × Nat := (s.stats.snapRingOverflow, s.stats.updateSnapInvalid)

theorem score_losses (snap : TageSnap) (taken overrode : Bool) (t : TageStats) :
    (score snap taken overrode t).snapRingOverflow = t.snapRingOverflow ∧
      (score snap taken overrode t).updateSnapInvalid = t.updateSnapInvalid := by
  unfold score
  lift_lets
  intro ok t₁ t₂ t₃
  have h₁ : t₁.snapRingOverflow = t.snapRingOverflow ∧
      t₁.updateSnapInvalid = t.updateSnapInvalid := by
    unfold t₁
    split <;> exact ⟨rfl, rfl⟩
  have h₂ : t₂.snapRingOverflow = t₁.snapRingOverflow ∧
      t₂.updateSnapInvalid = t₁.updateSnapInvalid := by
    unfold t₂
    split <;> exact ⟨rfl, rfl⟩
  have h₃ : t₃.snapRingOverflow = t₂.snapRingOverflow ∧
      t₃.updateSnapInvalid = t₂.updateSnapInvalid := by
    unfold t₃
    split
    · split <;> exact ⟨rfl, rfl⟩
    · exact ⟨rfl, rfl⟩
  rw [← h₁.1, ← h₁.2, ← h₂.1, ← h₂.2, ← h₃.1, ← h₃.2]
  cases snap.provider with
  | none =>
    dsimp only
    split <;> exact ⟨rfl, rfl⟩
  | some p =>
    dsimp only
    split <;> exact ⟨rfl, rfl⟩

theorem train_losses (s : Tage) (snap : TageSnap) (pc : Addr) (taken : Bool) :
    (s.train T snap pc taken).losses = s.losses := by
  have hage : ∀ u : Tage, (u.age T).losses = u.losses := by
    intro u
    unfold age
    split <;> rfl
  have hdecay : ∀ u : Tage, (u.decay T snap).losses = u.losses := by
    intro u
    unfold decay
    generalize above T snap = l
    induction l generalizing u with
    | nil => rfl
    | cons i l ih => exact ih (u.setEntry i (snap.fidx i) _)
  have halloc : ∀ u : Tage, (u.allocate T snap taken).losses = u.losses := by
    intro u
    unfold allocate
    split
    · rfl
    · unfold allocateAbove
      split
      · rfl
      · split
        · exact hdecay { u with stats := { u.stats with allocTried := u.stats.allocTried + 1 } }
        · rfl
  have hprov : ∀ u : Tage, (u.trainProvider snap taken).losses = u.losses := by
    intro u
    unfold trainProvider
    cases snap.provider with
    | none => rfl
    | some p =>
      dsimp only
      split <;> rfl
  unfold train
  rw [hage, halloc, hprov]
  rfl

theorem consume_other (s : Tage) {id : BitVec 32} {k : Nat} (hk : k ≠ ringSlot id) :
    (s.consume id).snaps k = s.snaps k :=
  Function.update_of_ne hk ..

/-- `id` points to a snapshot that is in the ring and has not been used. -/
def Live (s : Tage) (id : BitVec 32) : Prop :=
  s.overwritten id = false ∧ (s.snaps (ringSlot id)).valid = true

/-- What a call for the snapshot `id` may change, besides the tables. -/
structure Frame (id : BitVec 32) (s t : Tage) : Prop where
  index : t.snapWrIdx = s.snapWrIdx
  others : ∀ k, k ≠ ringSlot id → t.snaps k = s.snaps k
  losses : t.losses = s.losses

theorem onResolved_frame {s : Tage} {pred : BranchResult} (h : s.Live pred.ghrSnap)
    (taken : Bool) :
    Frame pred.ghrSnap s (s.onResolved taken pred) ∧
      (s.onResolved taken pred).Live pred.ghrSnap := by
  have hres : s.onResolved taken pred = { s with
      stats :=
        score (s.snaps (ringSlot pred.ghrSnap)) taken pred.tageOverrodeBimodal s.stats } := by
    unfold onResolved
    rw [h.1, if_neg Bool.false_ne_true]
    dsimp only
    rw [h.2]
    rfl
  obtain ⟨hover, hinv⟩ :=
    score_losses (s.snaps (ringSlot pred.ghrSnap)) taken pred.tageOverrodeBimodal s.stats
  rw [hres]
  exact ⟨⟨rfl, fun _ _ => rfl, Prod.ext hover hinv⟩, h⟩

theorem update_frame {s : Tage} {id : BitVec 32} (h : s.Live id) (pc : Addr)
    (taken btbHit : Bool) (cnt : Nat) :
    Frame id s (update T s pc taken btbHit cnt id) := by
  have hupd : update T s pc taken btbHit cnt id =
      (s.train T (s.snaps (ringSlot id)) pc taken).consume id := by
    unfold update
    rw [h.1, if_neg Bool.false_ne_true]
    dsimp only
    rw [h.2]
    rfl
  obtain ⟨_, hs, hw⟩ := train_ghr T s (s.snaps (ringSlot id)) pc taken
  rw [hupd]
  refine ⟨hw, ?_, train_losses T s (s.snaps (ringSlot id)) pc taken⟩
  intro k hk
  rw [consume_other _ hk, hs]

theorem onMispred_frame (s : Tage) (id : BitVec 32) (taken : Bool) (cnt : Nat) :
    Frame id s (onMispred T s taken cnt id) := by
  unfold onMispred
  split
  · exact ⟨rfl, fun _ _ => rfl, rfl⟩
  · exact ⟨rfl, fun _ _ => rfl, rfl⟩

theorem Frame.comp {id : BitVec 32} {s t u : Tage} (h : Frame id s t) (h' : Frame id t u) :
    Frame id s u := by
  refine ⟨h'.index.trans h.index, ?_, h'.losses.trans h.losses⟩
  intro k hk
  exact (h'.others k hk).trans (h.others k hk)

theorem resolve_frame {s : Tage} {pred : BranchResult} (h : s.Live pred.ghrSnap) (pc : Addr)
    (taken btbHit mispred : Bool) :
    Frame pred.ghrSnap s ((predictor T).resolve s pc taken btbHit pred mispred) := by
  obtain ⟨hres, hlive⟩ := onResolved_frame h taken
  have hupd : Frame pred.ghrSnap s
      (if btbHit || taken then
        update T (s.onResolved taken pred) pc taken btbHit pred.bhtCnt pred.ghrSnap
      else s.onResolved taken pred) := by
    split
    · exact hres.comp (update_frame T hlive pc taken btbHit pred.bhtCnt)
    · exact hres
  cases mispred with
  | false => exact hupd
  | true => exact hupd.comp (onMispred_frame T _ pred.ghrSnap taken pred.bhtCnt)

end NpSim.Branch.Tage
