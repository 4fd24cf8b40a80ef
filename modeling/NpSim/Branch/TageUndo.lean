/- digest: TAGE under a renaming of its snapshots, and the undoing of wrong-path predictions. -/

import Mathlib.Data.List.Basic
import Mathlib.Data.List.Find
import Mathlib.Data.Nat.ModEq
import NpSim.Branch.Tage
import NpSim.Branch.Undo

set_option autoImplicit false
set_option relaxedAutoImplicit false

namespace NpSim.Branch

theorem ringSlot_add_inj {a b off : BitVec 32} :
    ringSlot (a + off) = ringSlot (b + off) ↔ ringSlot a = ringSlot b := by
  have hadd : ∀ x : BitVec 32, ringSlot (x + off) = (x.toNat + off.toNat) % snapRing := by
    intro x
    unfold ringSlot
    rw [BitVec.toNat_add]
    exact Nat.mod_mod_of_dvd _ (by decide)
  rw [hadd, hadd]
  constructor
  · intro h
    exact Nat.ModEq.add_right_cancel' _ h
  · intro h
    exact Nat.ModEq.add_right _ h

/-- Two snapshots that the predictor cannot tell apart. The fields of an absent provider are left
over from an older prediction. -/
structure SnapTwin (n : Nat) (x y : TageSnap) : Prop where
  valid : x.valid = y.valid
  bimodalTaken : x.bimodalTaken = y.bimodalTaken
  tageTaken : x.tageTaken = y.tageTaken
  provider : x.provider = y.provider
  providerIdx : y.provider ≠ none → x.providerIdx = y.providerIdx
  providerCtr : y.provider ≠ none → x.providerCtr = y.providerCtr
  altTaken : x.altTaken = y.altTaken
  ghrSnap : x.ghrSnap = y.ghrSnap
  fidx : ∀ i < n, x.fidx i = y.fidx i
  ftag : ∀ i < n, x.ftag i = y.ftag i

namespace Tage

variable (T : TageParams)

def withRun (s : Tage) (g : BitVec 64) (r : Nat → TageSnap) (w : BitVec 32) : Tage :=
  { s with ghr := g, snaps := r, snapWrIdx := w }

/-- Halfway through `predict`: the matches found so far agree. -/
private structure SearchTwin (x y : TageSnap) : Prop where
  bimodalTaken : x.bimodalTaken = y.bimodalTaken
  ghrSnap : x.ghrSnap = y.ghrSnap
  fidx : ∀ i < T.nComp, x.fidx i = y.fidx i
  ftag : ∀ i < T.nComp, x.ftag i = y.ftag i
  compHit : ∀ i < T.nComp, x.compHit i = y.compHit i
  provider : x.provider = y.provider
  providerIdx : y.provider ≠ none → x.providerIdx = y.providerIdx
  providerCtr : y.provider ≠ none → x.providerCtr = y.providerCtr
  altProvider : x.altProvider = y.altProvider
  altTaken : y.altProvider ≠ none → x.altTaken = y.altTaken

private theorem lookup_twin (s : Tage) (pc target : Addr) (x y : TageSnap) :
    SearchTwin T (s.lookup T pc target x) (s.lookup T pc target y) := by
  have hidx : ∀ i < T.nComp, (s.lookup T pc target x).fidx i = (s.lookup T pc target y).fidx i := by
    intro i hi
    simp only [lookup, if_pos hi]
  have htag : ∀ i < T.nComp, (s.lookup T pc target x).ftag i = (s.lookup T pc target y).ftag i := by
    intro i hi
    simp only [lookup, if_pos hi]
  refine ⟨rfl, rfl, hidx, htag, ?_, rfl, fun h => absurd rfl h, fun h => absurd rfl h, rfl,
    fun h => absurd rfl h⟩
  intro i hi
  simp only [lookup, if_pos hi]

private theorem searchStep_twin (s : Tage) {x y : TageSnap} (h : SearchTwin T x y) {i : Nat}
    (hi : i < T.nComp) : SearchTwin T (s.searchStep x i) (s.searchStep y i) := by
  have hentry : s.entry x i = s.entry y i := by
    unfold entry
    rw [h.fidx i hi]
  unfold searchStep
  simp only [hentry, h.compHit i hi, h.provider, h.altProvider]
  split
  · exact h
  · split
    · exact ⟨h.bimodalTaken, h.ghrSnap, h.fidx, h.ftag, h.compHit, rfl, fun _ => h.fidx i hi,
        fun _ => rfl, rfl, h.altTaken⟩
    · split
      · exact ⟨h.bimodalTaken, h.ghrSnap, h.fidx, h.ftag, h.compHit, rfl, h.providerIdx,
          h.providerCtr, rfl, fun _ => rfl⟩
      · exact h

private theorem search_twin (s : Tage) {x y : TageSnap} (h : SearchTwin T x y) :
    SearchTwin T (s.search T x) (s.search T y) := by
  have hfold : ∀ (l : List Nat), (∀ i ∈ l, i < T.nComp) → ∀ x y, SearchTwin T x y →
      SearchTwin T (l.foldl s.searchStep x) (l.foldl s.searchStep y) := by
    intro l
    induction l with
    | nil =>
      intro _ x y h
      exact h
    | cons i l ih =>
      intro hl x y h
      apply ih
      · intro j hj
        exact hl j (List.mem_cons_of_mem i hj)
      · exact searchStep_twin T s h (hl i List.mem_cons_self)
  apply hfold
  · intro i hi
    exact List.mem_range.mp (List.mem_reverse.mp hi)
  · exact h

theorem takeSnap_twin (s : Tage) (pc target : Addr) (x y : TageSnap) :
    SnapTwin T.nComp (s.takeSnap T pc target x) (s.takeSnap T pc target y) := by
  have h := search_twin T s (lookup_twin T s pc target x y)
  generalize hx : s.search T (s.lookup T pc target x) = a at h
  generalize hy : s.search T (s.lookup T pc target y) = b at h
  have hfill : SearchTwin T (fillAlt T pc a) (fillAlt T pc b) ∧
      (fillAlt T pc a).altTaken = (fillAlt T pc b).altTaken := by
    unfold fillAlt
    rw [h.altProvider]
    by_cases hn : b.altProvider = none
    · rw [if_pos hn, if_pos hn]
      exact ⟨⟨h.bimodalTaken, h.ghrSnap, h.fidx, h.ftag, h.compHit, h.provider, h.providerIdx,
        h.providerCtr, rfl, fun _ => h.bimodalTaken⟩, h.bimodalTaken⟩
    · rw [if_neg hn, if_neg hn]
      exact ⟨h, h.altTaken hn⟩
  obtain ⟨hf, halt⟩ := hfill
  have htaken : s.decideTaken (fillAlt T pc a) = s.decideTaken (fillAlt T pc b) := by
    unfold decideTaken
    rw [hf.provider, hf.bimodalTaken, hf.altProvider, halt]
    cases hp : (fillAlt T pc b).provider with
    | none => rfl
    | some p =>
      have hne : (fillAlt T pc b).provider ≠ none := by simp [hp]
      simp only [hf.providerIdx hne, hf.providerCtr hne]
  unfold takeSnap
  rw [hx, hy]
  exact ⟨rfl, hf.bimodalTaken, htaken, hf.provider, hf.providerIdx, hf.providerCtr, halt,
    hf.ghrSnap, hf.fidx, hf.ftag⟩

/-! Training reads the tables and the snapshot, and leaves the history and the ring alone. -/

private theorem decay_withRun (s : Tage) (g : BitVec 64) (r : Nat → TageSnap) (w : BitVec 32)
    (snap : TageSnap) : (s.withRun g r w).decay T snap = (s.decay T snap).withRun g r w := by
  unfold decay
  generalize above T snap = l
  induction l generalizing s with
  | nil => rfl
  | cons i l ih => exact ih (s.setEntry i (snap.fidx i) _)

private theorem trainProvider_withRun (s : Tage) (g : BitVec 64) (r : Nat → TageSnap)
    (w : BitVec 32) (snap : TageSnap) (taken : Bool) :
    (s.withRun g r w).trainProvider snap taken = (s.trainProvider snap taken).withRun g r w := by
  unfold trainProvider
  cases snap.provider with
  | none => rfl
  | some p =>
    dsimp only
    split <;> rfl

private theorem allocateAbove_withRun (s : Tage) (g : BitVec 64) (r : Nat → TageSnap)
    (w : BitVec 32) (snap : TageSnap) (taken : Bool) :
    (s.withRun g r w).allocateAbove T snap taken =
      (s.allocateAbove T snap taken).withRun g r w := by
  have hcand : (s.withRun g r w).candidate T snap = s.candidate T snap := rfl
  unfold allocateAbove
  rw [hcand, decay_withRun]
  split
  · rfl
  · split <;> rfl

private theorem allocate_withRun (s : Tage) (g : BitVec 64) (r : Nat → TageSnap) (w : BitVec 32)
    (snap : TageSnap) (taken : Bool) :
    (s.withRun g r w).allocate T snap taken = (s.allocate T snap taken).withRun g r w := by
  unfold allocate
  split
  · rfl
  · exact allocateAbove_withRun T
      { s with stats := { s.stats with allocTried := s.stats.allocTried + 1 } } g r w snap taken

private theorem age_withRun (s : Tage) (g : BitVec 64) (r : Nat → TageSnap) (w : BitVec 32) :
    (s.withRun g r w).age T = (s.age T).withRun g r w := by
  unfold age
  change (if 1 <<< 18 ≤ s.uResetCtr + 1 then _ else _) = _
  split <;> rfl

theorem train_withRun (s : Tage) (g : BitVec 64) (r : Nat → TageSnap) (w : BitVec 32)
    (snap : TageSnap) (pc : Addr) (taken : Bool) :
    (s.withRun g r w).train T snap pc taken = (s.train T snap pc taken).withRun g r w := by
  unfold train
  rw [← age_withRun, ← allocate_withRun, ← trainProvider_withRun]
  rfl

theorem train_twin (s : Tage) {x y : TageSnap} (h : SnapTwin T.nComp x y) (pc : Addr)
    (taken : Bool) : s.train T x pc taken = s.train T y pc taken := by
  have habove : above T x = above T y := by
    unfold above
    rw [h.provider]
  have hmem : ∀ i ∈ above T y, i < T.nComp := by
    intro i hi
    unfold above at hi
    rw [List.mem_range'_1] at hi
    omega
  have hprov : ∀ u : Tage, u.trainProvider x taken = u.trainProvider y taken := by
    intro u
    unfold trainProvider
    rw [h.provider, h.altTaken]
    cases hp : y.provider with
    | none => rfl
    | some p =>
      have hne : y.provider ≠ none := by simp [hp]
      simp only [h.providerIdx hne, h.providerCtr hne]
  have hdecay : ∀ u : Tage, u.decay T x = u.decay T y := by
    intro u
    unfold decay
    rw [habove]
    apply List.foldl_ext
    intro v i hi
    rw [h.fidx i (hmem i hi)]
  have hcand : ∀ u : Tage, u.candidate T x = u.candidate T y := by
    intro u
    unfold candidate
    rw [habove]
    apply List.find?_congr
    intro i hi
    unfold entry
    rw [h.fidx i (hmem i hi)]
  have halloc : ∀ u : Tage, u.allocate T x taken = u.allocate T y taken := by
    intro u
    unfold allocate
    rw [h.tageTaken]
    split
    · rfl
    · unfold allocateAbove
      rw [habove, hcand, hdecay]
      split
      · rfl
      · split
        · rfl
        · rename_i i hi
          have hlt := hmem i (List.mem_of_find?_eq_some hi)
          rw [h.fidx i hlt, h.ftag i hlt]
  unfold train
  rw [hprov, halloc]

/-- The left state hands out the snapshots of the right one raised by `off`; the snapshots handed
out since are twins, and everything else agrees. -/
def Renamed (off : BitVec 32) (ids : List (BitVec 32)) (a b : Tage) : Prop :=
  ∃ r, a = b.withRun b.ghr r (b.snapWrIdx + off) ∧
    ∀ id ∈ ids, SnapTwin T.nComp (r (ringSlot (id + off))) (b.snaps (ringSlot id))

private theorem overwritten_add (b : Tage) (g : BitVec 64) (r : Nat → TageSnap)
    (off id : BitVec 32) :
    (b.withRun g r (b.snapWrIdx + off)).overwritten (id + off) = b.overwritten id := by
  have hsub : b.snapWrIdx + off - (id + off) = b.snapWrIdx - id := by bv_omega
  unfold overwritten
  change decide (snapRing ≤ (b.snapWrIdx + off - (id + off)).toNat) = _
  rw [hsub]

private theorem renamed_predict {off : BitVec 32} {ids : List (BitVec 32)} {a b : Tage}
    (h : Renamed T off ids a b) (pc target : Addr) :
    (predict T a pc target).1 = (predict T b pc target).1.raise off ∧
      Renamed T off (ids ++ [(predict T b pc target).1.ghrSnap]) (predict T a pc target).2
        (predict T b pc target).2 := by
  obtain ⟨r, rfl, hr⟩ := h
  have htw := takeSnap_twin T b pc target (r (ringSlot (b.snapWrIdx + off)))
    (b.snaps (ringSlot b.snapWrIdx))
  have hw : b.snapWrIdx + off + 1 = b.snapWrIdx + 1 + off := by bv_omega
  constructor
  · change BPUPredResult.mk _ _ _ _ = BPUPredResult.mk _ _ _ _
    congr 1
    · exact htw.tageTaken
    · exact congrArg₂ (fun x y => target != 0 && x != y) htw.tageTaken htw.bimodalTaken
  · refine ⟨Function.update r (ringSlot (b.snapWrIdx + off))
      (b.takeSnap T pc target (r (ringSlot (b.snapWrIdx + off)))), ?_, ?_⟩
    · unfold predict withRun
      simp only [Tage.mk.injEq, true_and, and_true]
      refine ⟨?_, rfl, hw⟩
      split
      · exact congrArg (T.shift b.ghr) htw.tageTaken
      · rfl
    · intro id hid
      change SnapTwin T.nComp (Function.update r (ringSlot (b.snapWrIdx + off)) _ _)
        (Function.update b.snaps (ringSlot b.snapWrIdx) _ _)
      by_cases hslot : ringSlot id = ringSlot b.snapWrIdx
      · rw [ringSlot_add_inj.mpr hslot, hslot, Function.update_self, Function.update_self]
        exact htw
      · have hslot' : ringSlot (id + off) ≠ ringSlot (b.snapWrIdx + off) := by
          intro he
          exact hslot (ringSlot_add_inj.mp he)
        rw [Function.update_of_ne hslot', Function.update_of_ne hslot]
        apply hr
        rcases List.mem_append.mp hid with hid | hid
        · exact hid
        · exact absurd (congrArg ringSlot (List.mem_singleton.mp hid)) hslot

private theorem score_twin {n : Nat} {x y : TageSnap} (h : SnapTwin n x y) (taken overrode : Bool)
    (t : TageStats) : score x taken overrode t = score y taken overrode t := by
  unfold score
  rw [h.tageTaken, h.bimodalTaken, h.provider]

private theorem renamed_onResolved {off : BitVec 32} {ids : List (BitVec 32)} {a b : Tage}
    (h : Renamed T off ids a b) (taken : Bool) {pred : BranchResult} (hid : pred.ghrSnap ∈ ids) :
    Renamed T off ids (a.onResolved taken (pred.raise off)) (b.onResolved taken pred) := by
  obtain ⟨r, rfl, hr⟩ := h
  have htw := hr _ hid
  have hover := overwritten_add b b.ghr r off pred.ghrSnap
  unfold onResolved
  change Renamed T off ids (if (b.withRun b.ghr r (b.snapWrIdx + off)).overwritten
    (pred.ghrSnap + off) then _ else _) _
  rw [hover]
  by_cases ho : b.overwritten pred.ghrSnap = true
  · rw [if_pos ho, if_pos ho]
    exact ⟨r, rfl, hr⟩
  · rw [if_neg ho, if_neg ho]
    dsimp only
    change Renamed T off ids (if !(r (ringSlot (pred.ghrSnap + off))).valid then _ else _) _
    rw [htw.valid]
    split
    · exact ⟨r, rfl, hr⟩
    · have hscore := score_twin htw taken pred.tageOverrodeBimodal b.stats
      exact ⟨r,
        congrArg (fun t => { b.withRun b.ghr r (b.snapWrIdx + off) with stats := t }) hscore, hr⟩

private theorem renamed_train {off : BitVec 32} {ids : List (BitVec 32)} {a b : Tage}
    (h : Renamed T off ids a b) {x y : TageSnap} (htw : SnapTwin T.nComp x y) (pc : Addr)
    (taken : Bool) : Renamed T off ids (a.train T x pc taken) (b.train T y pc taken) := by
  obtain ⟨r, rfl, hr⟩ := h
  have hkeep := train_withRun T b b.ghr b.snaps b.snapWrIdx y pc taken
  change b.train T y pc taken = _ at hkeep
  refine ⟨r, ?_, ?_⟩
  · rw [train_withRun, train_twin T b htw]
    conv_rhs => rw [hkeep]
    rfl
  · rw [hkeep]
    exact hr

private theorem renamed_consume {off : BitVec 32} {ids : List (BitVec 32)} {a b : Tage}
    (h : Renamed T off ids a b) {id : BitVec 32} (hid : id ∈ ids) :
    Renamed T off ids (a.consume (id + off)) (b.consume id) := by
  obtain ⟨r, rfl, hr⟩ := h
  have htw := hr id hid
  refine ⟨_, rfl, ?_⟩
  intro id' hid'
  change SnapTwin T.nComp (Function.update r (ringSlot (id + off)) _ _)
    (Function.update b.snaps (ringSlot id) _ _)
  by_cases hslot : ringSlot id' = ringSlot id
  · rw [ringSlot_add_inj.mpr hslot, hslot, Function.update_self, Function.update_self]
    exact ⟨rfl, htw.bimodalTaken, htw.tageTaken, htw.provider, htw.providerIdx,
      htw.providerCtr, htw.altTaken, htw.ghrSnap, htw.fidx, htw.ftag⟩
  · have hslot' : ringSlot (id' + off) ≠ ringSlot (id + off) := by
      intro he
      exact hslot (ringSlot_add_inj.mp he)
    rw [Function.update_of_ne hslot', Function.update_of_ne hslot]
    exact hr id' hid'

private theorem renamed_update {off : BitVec 32} {ids : List (BitVec 32)} {a b : Tage}
    (h : Renamed T off ids a b) (pc : Addr) (taken btbHit : Bool) (cnt : Nat) {id : BitVec 32}
    (hid : id ∈ ids) :
    Renamed T off ids (update T a pc taken btbHit cnt (id + off))
      (update T b pc taken btbHit cnt id) := by
  have hab := h
  obtain ⟨r, rfl, hr⟩ := h
  have htw := hr _ hid
  have hover := overwritten_add b b.ghr r off id
  unfold update
  rw [hover]
  by_cases ho : b.overwritten id = true
  · rw [if_pos ho, if_pos ho]
    exact ⟨r, rfl, hr⟩
  · rw [if_neg ho, if_neg ho]
    dsimp only
    change Renamed T off ids (if !(r (ringSlot (id + off))).valid then _ else _) _
    rw [htw.valid]
    split
    · exact ⟨r, rfl, hr⟩
    · exact renamed_consume T (renamed_train T hab htw pc taken) hid

private theorem renamed_onMispred {off : BitVec 32} {ids : List (BitVec 32)} {a b : Tage}
    (h : Renamed T off ids a b) (taken : Bool) (cnt : Nat) {id : BitVec 32} (hid : id ∈ ids) :
    Renamed T off ids (onMispred T a taken cnt (id + off)) (onMispred T b taken cnt id) := by
  obtain ⟨r, rfl, hr⟩ := h
  have hover := overwritten_add b b.ghr r off id
  unfold onMispred
  rw [hover]
  by_cases ho : b.overwritten id = true
  · rw [if_pos ho, if_pos ho]
    exact ⟨r, rfl, hr⟩
  · rw [if_neg ho, if_neg ho]
    have hghr := congrArg (fun g => T.shift g taken) (hr id hid).ghrSnap
    exact ⟨r, congrArg (fun g => { b.withRun b.ghr r (b.snapWrIdx + off) with ghr := g }) hghr, hr⟩

theorem twins (off : BitVec 32) : (predictor T).Twins off (Renamed T off) where
  predict h pc target := renamed_predict T h pc target
  onResolved h taken _ hid := renamed_onResolved T h taken hid
  update h pc taken btbHit cnt _ hid := renamed_update T h pc taken btbHit cnt hid
  onMispred h taken cnt _ hid := renamed_onMispred T h taken cnt hid

/-- States that agree but for the history and the ring, both with the slot of `id` intact. -/
private structure Shadow (id : BitVec 32) (a c : Tage) : Prop where
  run : ∃ g r w, a = c.withRun g r w ∧ r (ringSlot id) = c.snaps (ringSlot id)
  left : a.overwritten id = false
  right : c.overwritten id = false

private theorem shadow_onResolved {id : BitVec 32} {a c : Tage} (h : Shadow id a c) (taken : Bool)
    {pred : BranchResult} (hid : pred.ghrSnap = id) :
    Shadow id (a.onResolved taken pred) (c.onResolved taken pred) := by
  subst hid
  obtain ⟨⟨g, r, w, rfl, hr⟩, hl, hrt⟩ := h
  unfold onResolved
  rw [if_neg (Bool.eq_false_iff.mp hl), if_neg (Bool.eq_false_iff.mp hrt)]
  change Shadow _ (if !(r (ringSlot pred.ghrSnap)).valid then _ else _) _
  rw [hr]
  dsimp only
  split
  · exact ⟨⟨g, r, w, rfl, hr⟩, hl, hrt⟩
  · have hscore := congrArg (fun x => score x taken pred.tageOverrodeBimodal c.stats) hr
    exact ⟨⟨g, r, w, congrArg (fun t => { c.withRun g r w with stats := t }) hscore, hr⟩, hl, hrt⟩

private theorem consume_slot (s : Tage) (id : BitVec 32) :
    (s.consume id).snaps (ringSlot id) = { s.snaps (ringSlot id) with valid := false } :=
  Function.update_self ..

private theorem shadow_update {id : BitVec 32} {a c : Tage} (h : Shadow id a c) (pc : Addr)
    (taken btbHit : Bool) (cnt : Nat) :
    Shadow id (update T a pc taken btbHit cnt id) (update T c pc taken btbHit cnt id) := by
  obtain ⟨⟨g, r, w, rfl, hr⟩, hl, hrt⟩ := h
  unfold update
  rw [if_neg (Bool.eq_false_iff.mp hl), if_neg (Bool.eq_false_iff.mp hrt)]
  change Shadow _ (if !(r (ringSlot id)).valid then _ else _) _
  rw [hr]
  dsimp only
  split
  · exact ⟨⟨g, r, w, rfl, hr⟩, hl, hrt⟩
  · change Shadow id ((Tage.train T (c.withRun g r w) (r (ringSlot id)) pc taken).consume id) _
    have hkeep := train_withRun T c c.ghr c.snaps c.snapWrIdx (c.snaps (ringSlot id)) pc taken
    change c.train T _ pc taken = _ at hkeep
    rw [train_withRun, hr]
    refine ⟨⟨g, _, w, rfl, ?_⟩, hl, ?_⟩
    · rw [consume_slot, hkeep]
      change Function.update r _ _ _ = _
      rw [Function.update_self]
      exact congrArg (fun x : TageSnap => { x with valid := false }) hr
    · rw [hkeep]
      exact hrt

private theorem shadow_onMispred {id : BitVec 32} {a c : Tage} (h : Shadow id a c) (taken : Bool)
    (cnt : Nat) :
    Renamed T (a.snapWrIdx - c.snapWrIdx) [] (onMispred T a taken cnt id)
      (onMispred T c taken cnt id) := by
  obtain ⟨⟨g, r, w, rfl, hr⟩, hl, hrt⟩ := h
  unfold onMispred
  rw [if_neg (Bool.eq_false_iff.mp hl), if_neg (Bool.eq_false_iff.mp hrt)]
  refine ⟨r, ?_, by simp⟩
  have hw : w = c.snapWrIdx + (w - c.snapWrIdx) := by bv_omega
  have hghr := congrArg (fun x : TageSnap => T.shift x.ghrSnap taken) hr
  unfold withRun
  simp only [Tage.mk.injEq, true_and, and_true]
  exact ⟨hghr, hw⟩

private theorem speculate_run (s : Tage) (l : List (Addr × Addr)) :
    ∃ g r, (predictor T).speculate s l =
        s.withRun g r (s.snapWrIdx + BitVec.ofNat 32 l.length) ∧
      ∀ k, (∀ j < l.length, ringSlot (s.snapWrIdx + BitVec.ofNat 32 j) ≠ k) → r k = s.snaps k := by
  induction l generalizing s with
  | nil =>
    refine ⟨s.ghr, s.snaps, ?_, fun _ _ => rfl⟩
    change s = s.withRun s.ghr s.snaps (s.snapWrIdx + 0#32)
    rw [BitVec.add_zero]
    rfl
  | cons x l ih =>
    obtain ⟨g, r, hrun, hr⟩ := ih (predict T s x.1 x.2).2
    refine ⟨g, r, ?_, ?_⟩
    · have hw : s.snapWrIdx + 1 + BitVec.ofNat 32 l.length =
          s.snapWrIdx + BitVec.ofNat 32 (l.length + 1) := by bv_omega
      rw [List.length_cons, ← hw]
      exact hrun
    · intro k hk
      have hlast := hr k (by
        intro j hj
        have hj' := hk (j + 1) (by
          rw [List.length_cons]
          omega)
        have hw : s.snapWrIdx + BitVec.ofNat 32 (j + 1) =
            s.snapWrIdx + 1 + BitVec.ofNat 32 j := by bv_omega
        rw [hw] at hj'
        exact hj')
      have hfirst : k ≠ ringSlot s.snapWrIdx := by
        have := hk 0 (by simp)
        rw [BitVec.add_zero] at this
        exact this.symm
      rw [hlast]
      exact Function.update_of_ne hfirst ..

/-- States that agree on every table, on the history and on the statistics. -/
structure Alike (a b : Tage) : Prop where
  baseTable : a.baseTable = b.baseTable
  compTables : a.compTables = b.compTables
  ghr : a.ghr = b.ghr
  uResetCtr : a.uResetCtr = b.uResetCtr
  stats : a.stats = b.stats

/-- Up to 510 predictions after a mispredicted branch are undone by its resolution. -/
theorem undoes : (predictor T).Undoes (· < snapRing - 1) Alike := by
  intro s pc target l hl taken btbHit pred hid
  change pred.ghrSnap = s.snapWrIdx at hid
  obtain ⟨g, r, hrun, hr⟩ := speculate_run T (predict T s pc target).2 l
  have hw : (predict T s pc target).2.snapWrIdx = s.snapWrIdx + 1 := rfl
  unfold snapRing at hl
  have hshadow : Shadow s.snapWrIdx ((predictor T).speculate (predict T s pc target).2 l)
      (predict T s pc target).2 := by
    rw [hrun]
    refine ⟨⟨g, r, _, rfl, ?_⟩, ?_, ?_⟩
    · apply hr
      intro j hj he
      rw [hw] at he
      have hone : s.snapWrIdx + 1 + BitVec.ofNat 32 j =
          BitVec.ofNat 32 (j + 1) + s.snapWrIdx := by bv_omega
      have hzero : s.snapWrIdx = 0 + s.snapWrIdx := by bv_omega
      rw [hone] at he
      conv at he => rhs; rw [hzero]
      have := ringSlot_add_inj.mp he
      unfold ringSlot snapRing at this
      rw [BitVec.toNat_ofNat] at this
      change (j + 1) % 2 ^ 32 % 512 = 0 at this
      omega
    · unfold overwritten snapRing
      change decide (512 ≤ ((s.snapWrIdx + 1) + BitVec.ofNat 32 l.length - s.snapWrIdx).toNat) = _
      rw [decide_eq_false_iff_not]
      bv_omega
    · unfold overwritten snapRing
      change decide (512 ≤ ((s.snapWrIdx + 1) - s.snapWrIdx).toNat) = _
      rw [decide_eq_false_iff_not]
      bv_omega
  have hres := shadow_onResolved hshadow taken hid
  have hupd : Shadow s.snapWrIdx
      (if btbHit || taken then
        update T (onResolved ((predictor T).speculate (predict T s pc target).2 l) taken pred) pc
          taken btbHit pred.bhtCnt pred.ghrSnap
      else onResolved ((predictor T).speculate (predict T s pc target).2 l) taken pred)
      (if btbHit || taken then
        update T (onResolved (predict T s pc target).2 taken pred) pc taken btbHit pred.bhtCnt
          pred.ghrSnap
      else onResolved (predict T s pc target).2 taken pred) := by
    rw [hid]
    split
    · exact shadow_update T hres pc taken btbHit _
    · exact hres
  have hfinal := shadow_onMispred T hupd taken pred.bhtCnt
  rw [← hid] at hfinal
  refine ⟨_, _, twins T _, ?_, hfinal⟩
  rintro ids a b ⟨r, rfl, _⟩
  exact ⟨rfl, rfl, rfl, rfl, rfl⟩

end Tage

end NpSim.Branch
