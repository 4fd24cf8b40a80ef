/- digest: Any sequence of calls on the tagged predictor: the predictions made, the snapshots they
   stored, and the updates that are dropped because their snapshot is taken for gone. -/

import NpSim.Branch.SnapRing

set_option autoImplicit false
set_option relaxedAutoImplicit false

namespace NpSim.Branch.Tage

open Relation

variable (T : TageParams)

/-- A call of `predict`: the state it met, its arguments, and the snapshot it stored. -/
structure Prediction where
  before : Tage
  pc : Addr
  target : Addr
  snap : TageSnap

/-- The predictor and the predictions made so far; the k-th one returned `k` as its `snap_id`. -/
structure Run where
  tage : Tage := {}
  made : List Prediction := []

inductive Run.Step (r : Run) : Run → Prop
  | predict (pc target : Addr) :
      Step r { tage := (predict T r.tage pc target).2
               made := r.made ++ [⟨r.tage, pc, target,
                 r.tage.takeSnap T pc target (r.tage.snaps (ringSlot r.tage.snapWrIdx))⟩] }
  | onResolved (taken : Bool) (pred : BranchResult) :
      Step r { r with tage := r.tage.onResolved taken pred }
  | update (pc : Addr) (taken btbHit : Bool) (cnt : Nat) (id : BitVec 32) :
      Step r { r with tage := update T r.tage pc taken btbHit cnt id }
  | onMispred (taken : Bool) (cnt : Nat) (id : BitVec 32) :
      Step r { r with tage := onMispred T r.tage taken cnt id }

def Run.Reachable (r : Run) : Prop := ReflTransGen (Run.Step T) {} r

/-- `update` counts a lost snapshot and does nothing else, and `on_mispred` does nothing. -/
def Skips (s : Tage) (id : BitVec 32) : Prop :=
  (∀ pc taken btbHit cnt, update T s pc taken btbHit cnt id =
      { s with stats := { s.stats with snapRingOverflow := s.stats.snapRingOverflow + 1 } }) ∧
    ∀ taken cnt, onMispred T s taken cnt id = s

variable {T}

theorem skips_iff (s : Tage) (id : BitVec 32) : Skips T s id ↔ s.overwritten id = true := by
  constructor
  · intro h
    by_contra hno
    have hlost := congrArg losses (h.1 0 true true 0)
    unfold update at hlost
    rw [if_neg hno] at hlost
    dsimp only at hlost
    split at hlost
    · have := congrArg Prod.fst hlost
      exact absurd this (Nat.ne_of_lt (Nat.lt_succ_self _))
    · have hsame : losses ((s.train T (s.snaps (ringSlot id)) 0 true).consume id) = s.losses :=
        train_losses T s (s.snaps (ringSlot id)) 0 true
      rw [hsame] at hlost
      exact absurd (congrArg Prod.fst hlost) (Nat.ne_of_lt (Nat.lt_succ_self _))
  · intro h
    refine ⟨fun pc taken btbHit cnt => ?_, fun taken cnt => ?_⟩
    · unfold update
      rw [if_pos h]
    · unfold onMispred
      rw [if_pos h]

theorem update_snaps (s : Tage) (pc : Addr) (taken btbHit : Bool) (cnt : Nat) (id : BitVec 32)
    (k : Nat) : (update T s pc taken btbHit cnt id).snaps k = s.snaps k ∨
      (update T s pc taken btbHit cnt id).snaps k = { s.snaps k with valid := false } := by
  unfold update
  split
  · exact .inl rfl
  · dsimp only
    split
    · exact .inl rfl
    · obtain ⟨_, hs, _⟩ := train_ghr T s (s.snaps (ringSlot id)) pc taken
      by_cases hk : k = ringSlot id
      · refine .inr ?_
        subst hk
        unfold consume
        dsimp only
        rw [Function.update_self, hs]
      · exact .inl ((consume_other _ hk).trans (congrFun hs k))

theorem onMispred_snaps (s : Tage) (taken : Bool) (cnt : Nat) (id : BitVec 32) :
    (onMispred T s taken cnt id).snaps = s.snaps ∧
      (onMispred T s taken cnt id).snapWrIdx = s.snapWrIdx := by
  unfold onMispred
  split <;> exact ⟨rfl, rfl⟩

/-- A later prediction has taken the slot of the k-th one. -/
def Retaken (r : Run) (k : Nat) : Prop :=
  ∃ j, k < j ∧ j < r.made.length ∧ ringSlot (BitVec.ofNat 32 j) = ringSlot (BitVec.ofNat 32 k)

/-- The next identifier is the number of predictions, and a slot that no later prediction has taken
holds the snapshot of its own. -/
structure Run.Ordered (r : Run) : Prop where
  index : r.tage.snapWrIdx = BitVec.ofNat 32 r.made.length
  held : ∀ k p, r.made[k]? = some p → ¬Retaken r k →
    ∃ v, r.tage.snaps (k % snapRing) = { p.snap with valid := v }

theorem Run.ordered_init : Run.Ordered {} :=
  ⟨rfl, fun k p h => by cases h⟩

private theorem Run.Ordered.keep {r : Run} (h : r.Ordered) {s : Tage}
    (hi : s.snapWrIdx = r.tage.snapWrIdx)
    (hs : ∀ k, s.snaps k = r.tage.snaps k ∨ s.snaps k = { r.tage.snaps k with valid := false }) :
    Run.Ordered { r with tage := s } := by
  refine ⟨hi.trans h.index, fun k p hk hno => ?_⟩
  obtain ⟨v, hv⟩ := h.held k p hk hno
  rcases hs (k % snapRing) with he | he
  · exact ⟨v, he.trans hv⟩
  · refine ⟨false, ?_⟩
    change s.snaps (k % snapRing) = _
    rw [he, hv]

theorem Run.Step.ordered {r r' : Run} (hs : Run.Step T r r') (h : r.Ordered) : r'.Ordered := by
  cases hs with
  | predict pc target =>
    refine ⟨?_, fun k p hk hno => ?_⟩
    · change r.tage.snapWrIdx + 1 = BitVec.ofNat 32 (r.made ++ [_]).length
      rw [h.index, List.length_append, List.length_singleton, BitVec.ofNat_add]
      rfl
    · have hslot : ringSlot r.tage.snapWrIdx = r.made.length % snapRing := by
        rw [h.index, ringSlot_ofNat]
      change ∃ v, Function.update r.tage.snaps (ringSlot r.tage.snapWrIdx) _ (k % snapRing) = _
      rcases Nat.lt_trichotomy k r.made.length with hlt | rfl | hgt
      · rw [List.getElem?_append_left hlt] at hk
        have hne : k % snapRing ≠ ringSlot r.tage.snapWrIdx := by
          intro he
          refine hno ⟨r.made.length, hlt, ?_, ?_⟩
          · change _ < (r.made ++ [_]).length
            rw [List.length_append]
            exact Nat.lt_succ_self _
          · rw [ringSlot_ofNat, ringSlot_ofNat, he, hslot]
        rw [Function.update_of_ne hne]
        refine h.held k p hk fun ⟨j, hj, hlen, he⟩ => hno ⟨j, hj, ?_, he⟩
        change _ < (r.made ++ [_]).length
        rw [List.length_append]
        exact Nat.lt_succ_of_lt hlen
      · rw [List.getElem?_concat_length] at hk
        rw [← hslot, Function.update_self, ← Option.some.inj hk]
        exact ⟨true, rfl⟩
      · rw [List.getElem?_eq_none] at hk
        · cases hk
        · rw [List.length_append]
          exact hgt
  | onResolved taken pred =>
    obtain ⟨t, ht⟩ := onResolved_run r.tage taken pred
    rw [ht]
    exact h.keep rfl fun _ => .inl rfl
  | update pc taken btbHit cnt id =>
    exact h.keep (update_run T r.tage pc taken btbHit cnt id).2.1
      (update_snaps r.tage pc taken btbHit cnt id)
  | onMispred taken cnt id =>
    obtain ⟨hs, hi⟩ := onMispred_snaps (T := T) r.tage taken cnt id
    exact h.keep hi fun k => .inl (congrFun hs k)

theorem Run.Reachable.ordered {r : Run} (h : Run.Reachable T r) : r.Ordered :=
  NpSim.Lib.Partial.invariant_of_run (fun _ _ hs => hs.ordered) Run.ordered_init h

theorem retaken_iff (r : Run) {k : Nat} (hk : k < r.made.length) :
    Retaken r k ↔ 512 ≤ r.made.length - (k + 1) := by
  unfold Retaken
  constructor
  · rintro ⟨j, hkj, hj, he⟩
    rw [ringSlot_ofNat, ringSlot_ofNat] at he
    unfold snapRing at he
    omega
  · intro h
    refine ⟨k + 512, by omega, by omega, ?_⟩
    rw [ringSlot_ofNat, ringSlot_ofNat]
    exact Nat.add_mod_right k 512

/-- With fewer than 2 ^ 32 predictions since, the calls for the k-th prediction are skipped exactly
when a later one has taken its slot, and use its own snapshot otherwise, unless exactly 511 or
2 ^ 32 - 1 predictions have been made since. -/
theorem dropped_iff_retaken (T : TageParams) (r : Run) (h : Run.Reachable T r) (k : Nat)
    (p : Prediction) (hk : r.made[k]? = some p) (hd : r.made.length - (k + 1) < 2 ^ 32) :
    ((Skips T r.tage (BitVec.ofNat 32 k) ↔ Retaken r k) ∧
      (¬Skips T r.tage (BitVec.ofNat 32 k) →
        ∃ v, r.tage.snaps (ringSlot (BitVec.ofNat 32 k)) = { p.snap with valid := v })) ↔
    r.made.length - (k + 1) ≠ 511 ∧ r.made.length - (k + 1) ≠ 2 ^ 32 - 1 := by
  have ho := h.ordered
  have hlt : k < r.made.length := by
    by_contra hge
    rw [List.getElem?_eq_none (Nat.le_of_not_lt hge)] at hk
    cases hk
  have hskip : Skips T r.tage (BitVec.ofNat 32 k) ↔ 512 ≤ (r.made.length - k) % 2 ^ 32 := by
    rw [skips_iff]
    unfold overwritten snapRing
    rw [ho.index, decide_eq_true_iff, BitVec.toNat_sub, BitVec.toNat_ofNat, BitVec.toNat_ofNat]
    omega
  rw [hskip, retaken_iff r hlt]
  constructor
  · rintro ⟨hiff, _⟩
    omega
  · rintro ⟨h511, hwrap⟩
    have hiff : 512 ≤ (r.made.length - k) % 2 ^ 32 ↔ 512 ≤ r.made.length - (k + 1) := by omega
    refine ⟨hiff, fun hno => ?_⟩
    rw [ringSlot_ofNat]
    refine ho.held k p hk fun hre => hno ?_
    rw [hiff, ← retaken_iff r hlt]
    exact hre

theorem exists_made (T : TageParams) (n : Nat) :
    ∃ r, Run.Reachable T r ∧ r.made.length = n := by
  induction n with
  | zero => exact ⟨{}, .refl, rfl⟩
  | succ n ih =>
    obtain ⟨r, hr, hn⟩ := ih
    refine ⟨_, hr.tail (.predict 0 0), ?_⟩
    rw [List.length_append, hn]
    rfl

/-- After 600 predictions the calls for the first one are skipped, for its slot has been taken
again, and those for the last one are not. -/
theorem dropped_iff_retaken_again : ∃ r : Run, Run.Reachable {} r ∧ r.made.length = 600 ∧
    (Skips {} r.tage (BitVec.ofNat 32 0) ∧ Retaken r 0) ∧
    ¬Skips {} r.tage (BitVec.ofNat 32 599) ∧ ¬Retaken r 599 := by
  obtain ⟨r, hr, hn⟩ := exists_made {} 600
  have hiff : ∀ k < 600, k ≠ 88 → (Skips {} r.tage (BitVec.ofNat 32 k) ↔ Retaken r k) := by
    intro k hk hne
    obtain ⟨p, hp⟩ : ∃ p, r.made[k]? = some p :=
      ⟨_, List.getElem?_eq_getElem (by rw [hn]; exact hk)⟩
    exact ((dropped_iff_retaken {} r hr k p hp (by omega)).mpr (by omega)).1
  have hfirst : Retaken r 0 := by
    rw [retaken_iff r (by omega), hn]
    decide
  have hlast : ¬Retaken r 599 := by
    rw [retaken_iff r (by omega), hn]
    decide
  exact ⟨r, hr, hn, ⟨(hiff 0 (by decide) (by decide)).mpr hfirst, hfirst⟩,
    fun hs => hlast ((hiff 599 (by decide) (by decide)).mp hs), hlast⟩

/-- The calls for the first of 512 predictions are skipped, although its slot is its own. -/
theorem dropped_too_early : ∃ r : Run, Run.Reachable {} r ∧ r.made.length = 512 ∧
    Skips {} r.tage (BitVec.ofNat 32 0) ∧ ¬Retaken r 0 := by
  obtain ⟨r, hr, hn⟩ := exists_made {} 512
  refine ⟨r, hr, hn, ?_, ?_⟩
  · rw [skips_iff, overwritten, hr.ordered.index, hn]
    decide
  · rw [retaken_iff r (by rw [hn]; decide), hn]
    decide

end NpSim.Branch.Tage
