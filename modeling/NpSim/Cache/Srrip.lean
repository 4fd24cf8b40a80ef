/- digest: The re-reference policy next to the reference one: the policy never ages a line, so the
   two choose the same way as long as no line has missed an ageing. -/

import NpSim.Cache.Answers
import NpSim.Cache.Ranking

set_option autoImplicit false
set_option relaxedAutoImplicit false

namespace NpSim.Cache.Srrip

open NpSim.Lib.Partial PipeCache Relation

/-- Reference SRRIP: the first way with RRPV 3 is the victim; until there is one all ways age by
one. -/
def reference (assoc : Nat) : Nat → (Nat → Nat) → Option (Nat × (Nat → Nat))
  | 0, _ => none
  | fuel + 1, rrpv =>
    match (List.range assoc).find? fun w => rrpv w = 3 with
    | some w => some (w, rrpv)
    | none => reference assoc fuel fun w => rrpv w + 1

theorem reference_spec {assoc : Nat} {rrpv : Nat → Nat} {fuel w : Nat}
    (hw : w < assoc) (hmax : ∀ j < assoc, rrpv j ≤ rrpv w) (hfirst : ∀ j < w, rrpv j < rrpv w)
    (hle : rrpv w ≤ 3) (hfuel : 4 ≤ rrpv w + fuel) :
    ∃ aged, reference assoc fuel rrpv = some (w, aged) := by
  induction fuel generalizing rrpv with
  | zero => omega
  | succ fuel ih =>
    unfold reference
    by_cases h3 : rrpv w = 3
    · have hfind : (List.range assoc).find? (fun w => rrpv w = 3) = some w := by
        rw [List.find?_range_eq_some]
        refine ⟨decide_eq_true h3, List.mem_range.mpr hw, fun j hj => ?_⟩
        have := hfirst j hj
        rw [Bool.not_eq_true', decide_eq_false_iff_not]
        omega
      rw [hfind]
      exact ⟨rrpv, rfl⟩
    · have hfind : (List.range assoc).find? (fun w => rrpv w = 3) = none := by
        rw [List.find?_eq_none]
        intro j hj
        have := hmax j (List.mem_range.mp hj)
        rw [decide_eq_true_eq]
        omega
      rw [hfind]
      exact ih (fun j hj => Nat.succ_le_succ (hmax j hj))
        (fun j hj => Nat.succ_lt_succ (hfirst j hj)) (by omega) (by omega)

/-- A cache under the policy, and the values of the reference for its lines. -/
structure Run (P : CacheParams) where
  cache : PipeCache (P.withPolicy srripReplPolicy) := {}
  rrpv : Nat → Nat → Nat := fun _ _ => 3
  /-- The line has been neither hit nor filled since the ways of its set were last aged. -/
  stale : Nat → Nat → Bool := fun _ _ => false
  /-- What the policy and the reference have chosen in full sets. -/
  chosen : List (Nat × Option Nat) := []

namespace Run

variable {P : CacheParams}

inductive Event
  | hit
  | free
  | replace (set : Nat)
  | fill

def touch (b : Run P) (c : PipeCache (P.withPolicy srripReplPolicy)) (r : LineRef) (rrpv : Nat) :
    Run P :=
  { b with
    cache := c
    rrpv := mark b.rrpv r rrpv
    stale := mark b.stale r false }

/-- The line `r` of the cache `c` has been emptied in a full set; the reference ages the set. -/
def replace (b : Run P) (c : PipeCache (P.withPolicy srripReplPolicy)) (r : LineRef) : Run P where
  cache := c
  rrpv := fun s =>
    if s = r.set then ((reference P.assoc 4 (b.rrpv s)).map Prod.snd).getD (b.rrpv s)
    else b.rrpv s
  stale := fun s w => if s = r.set then true else b.stale s w
  chosen := b.chosen ++ [(r.way, (reference P.assoc 4 (b.rrpv r.set)).map Prod.fst)]

/-- A lookup that hits, one that finds a free way, one in a full set, and the fill of an emptied
line. -/
inductive Step (b : Run P) : Event → Run P → Prop
  | hit {r : LineRef} {c : PipeCache (P.withPolicy srripReplPolicy)} (now : Nat) (addr : Addr)
      (hp : b.cache.probe addr = true) (h : b.cache.access now addr = .ok (r, c)) :
      Step b .hit (b.touch c r 0)
  | free {r : LineRef} {c : PipeCache (P.withPolicy srripReplPolicy)} (now : Nat) (addr : Addr)
      (hp : b.cache.probe addr = false) (hfree : b.cache.invalidWay r.set ≠ none)
      (h : b.cache.access now addr = .ok (r, c)) :
      Step b .free { b with cache := c }
  | replace {r : LineRef} {c : PipeCache (P.withPolicy srripReplPolicy)} (now : Nat) (addr : Addr)
      (hp : b.cache.probe addr = false) (hfull : b.cache.invalidWay r.set = none)
      (h : b.cache.access now addr = .ok (r, c)) :
      Step b (.replace r.set) (b.replace c r)
  | fill {c : PipeCache (P.withPolicy srripReplPolicy)} (now : Nat) (r : LineRef) (addr : Addr)
      (data : List Word) (hv : (b.cache.line r).valid = false)
      (h : b.cache.handleFill now r addr data = .ok c) :
      Step b .fill (b.touch c r 2)

/-- A set is replaced in only after all its lines have been hit or filled since the last time. -/
def Refreshed (b : Run P) (e : Event) : Prop :=
  ∀ s, e = .replace s → ∀ w < P.assoc, b.stale s w = false

def Reachable (ok : Run P → Event → Prop) (b : Run P) : Prop :=
  ReflTransGen (fun b b' => ∃ e, ok b e ∧ Step b e b') {} b

/-- The stamp of a line that is not stale is its RRPV. -/
private structure Agrees (b : Run P) : Prop where
  small : ∀ s w k, b.cache.rank s w = some k → k = 0 ∨ k = 2
  same : ∀ s w k, b.cache.rank s w = some k → b.stale s w = false → b.rrpv s w = k
  chosen : ∀ x ∈ b.chosen, x.2 = some x.1

private theorem agrees_init : Agrees ({} : Run P) := by
  have hnone : ∀ s w, ({} : Run P).cache.rank s w = none := fun _ _ => rfl
  exact ⟨fun s w k h => absurd h (by rw [hnone]; exact (Option.some_ne_none k).symm),
    fun s w k h => absurd h (by rw [hnone]; exact (Option.some_ne_none k).symm),
    fun x hx => absurd hx List.not_mem_nil⟩

private theorem Agrees.touch {b : Run P} (h : Agrees b)
    {c : PipeCache (P.withPolicy srripReplPolicy)} {r : LineRef} {k : Nat} (hk : k = 0 ∨ k = 2)
    (hr : c.rank = mark b.cache.rank r (some k)) :
    Agrees (b.touch c r k) := by
  refine ⟨fun s w x hx => ?_, fun s w x hx hs => ?_, h.chosen⟩
  · change c.rank s w = some x at hx
    rw [hr] at hx
    by_cases hsw : s = r.set ∧ w = r.way
    · rw [mark, if_pos hsw] at hx
      rw [← Option.some.inj hx]
      exact hk
    · rw [mark_other _ _ hsw] at hx
      exact h.small s w x hx
  · change c.rank s w = some x at hx
    change mark b.stale r false s w = false at hs
    change mark b.rrpv r k s w = x
    rw [hr] at hx
    by_cases hsw : s = r.set ∧ w = r.way
    · rw [mark, if_pos hsw] at hx ⊢
      exact Option.some.inj hx
    · rw [mark_other _ _ hsw] at hx hs ⊢
      exact h.same s w x hx hs

theorem full_ranks {c : PipeCache (P.withPolicy srripReplPolicy)} {s : Nat}
    (hfull : c.invalidWay s = none) {w : Nat} (hw : w < P.assoc) :
    c.rank s w = some (c.lines s w).stamp := by
  refine rank_of_valid ?_
  have hno := List.find?_eq_none.mp hfull w (List.mem_range.mpr hw)
  rw [Bool.not_eq_true, Bool.not_eq_false'] at hno
  exact hno

/-- The reference takes the way of the largest stamp too, for the stamps are the RRPVs. -/
private theorem Agrees.reference_victim {b : Run P} (h : Agrees b) {s w : Nat}
    (hfull : b.cache.invalidWay s = none) (hfresh : ∀ j < P.assoc, b.stale s j = false)
    (hlt : w < P.assoc)
    (hmax : ∀ j < P.assoc, ¬(b.cache.lines s w).stamp < (b.cache.lines s j).stamp)
    (hfirst : ∀ j < w, (b.cache.lines s j).stamp < (b.cache.lines s w).stamp) :
    ∃ aged, reference P.assoc 4 (b.rrpv s) = some (w, aged) := by
  have hsame : ∀ j < P.assoc, b.rrpv s j = (b.cache.lines s j).stamp := fun j hj =>
    h.same s j _ (full_ranks hfull hj) (hfresh j hj)
  have hsmall := h.small s w _ (full_ranks hfull hlt)
  refine reference_spec hlt (fun j hj => ?_) (fun j hj => ?_) ?_ ?_
  · rw [hsame j hj, hsame w hlt]
    exact Nat.not_lt.mp (hmax j hj)
  · rw [hsame j (Nat.lt_trans hj hlt), hsame w hlt]
    exact hfirst j hj
  · rw [hsame w hlt]
    omega
  · rw [hsame w hlt]
    omega

private theorem Agrees.step {b b' : Run P} {e : Event} (hlag : P.victimWayLag = false)
    (hok : b.Refreshed e) (hs : Step b e b') (h : Agrees b) : Agrees b' := by
  cases hs with
  | hit now addr hp hx =>
    obtain ⟨_, _, ⟨_, _, repl, stamp, hhit, hr⟩ | ⟨hno, _⟩⟩ := access_rank hx
    · cases hhit
      exact h.touch (.inl rfl) hr
    · rw [hp] at hno
      cases hno
  | free now addr hp hfree hx =>
    obtain ⟨_, _, ⟨hyes, _⟩ | ⟨_, hr, _⟩⟩ := access_rank hx
    · rw [hp] at hyes
      cases hyes
    · exact ⟨fun s w k hk => h.small s w k (of_mark_none (hr ▸ hk)).1,
        fun s w k hk hst => h.same s w k (of_mark_none (hr ▸ hk)).1 hst, h.chosen⟩
  | @replace r c now addr hp hfull hx =>
    obtain ⟨_, _, ⟨hyes, _⟩ | ⟨_, hr, w, hw, hway⟩⟩ := access_rank hx
    · rw [hp] at hyes
      cases hyes
    · obtain ⟨hlt, hmax, hfirst⟩ := srrip_victim hlag hfull hw
      have hrw : r.way = w := hway.trans (Nat.mod_eq_of_lt hlt)
      obtain ⟨aged, href⟩ := h.reference_victim hfull (hok _ rfl) hlt hmax hfirst
      refine ⟨fun s x k hk => h.small s x k (of_mark_none (hr ▸ hk)).1, fun s x k hk hst => ?_,
        fun x hx => ?_⟩
      · change (if s = r.set then true else b.stale s x) = false at hst
        change (if s = r.set then ((reference P.assoc 4 (b.rrpv s)).map Prod.snd).getD (b.rrpv s)
          else b.rrpv s) x = k
        by_cases hs : s = r.set
        · rw [if_pos hs] at hst
          cases hst
        · rw [if_neg hs] at hst ⊢
          exact h.same s x k (of_mark_none (hr ▸ hk)).1 hst
      · rcases List.mem_append.mp hx with hx | hx
        · exact h.chosen x hx
        · rw [List.mem_singleton.mp hx, href, hrw]
          rfl
  | fill now r addr data hv hx =>
    obtain ⟨repl, stamp, hfill, hr⟩ := handleFill_rank hx
    cases hfill
    exact h.touch (.inr rfl) hr

private theorem Reachable.mono {ok ok' : Run P → Event → Prop}
    (hok : ∀ b e, ok b e → ok' b e) {b : Run P} (h : Reachable ok b) : Reachable ok' b :=
  ReflTransGen.mono (fun x _ ⟨e, hx, hs⟩ => ⟨e, hok x e hx, hs⟩) _ _ h

private theorem agrees {b : Run P} (hlag : P.victimWayLag = false) (h : Reachable Refreshed b) :
    Agrees b := by
  induction h with
  | refl => exact agrees_init
  | tail _ hstep ih =>
    obtain ⟨e, hok, hs⟩ := hstep
    exact ih.step hlag hok hs

/-- The policy chooses the way of the reference in every run in which it replaces in a set only
lines that have been hit or filled since the ways of the set were aged. -/
theorem srrip_agrees (hlag : P.victimWayLag = false) {b : Run P} (h : Reachable Refreshed b) :
    ∀ x ∈ b.chosen, x.2 = some x.1 :=
  (agrees hlag h).chosen

inductive Action
  | look (addr : Addr)
  | fill (r : LineRef) (addr : Addr)

def perform (b : Run P) : Action → Option (Event × Run P)
  | .look addr =>
    match b.cache.access 0 addr with
    | .ok (r, c) =>
      if b.cache.probe addr then some (.hit, b.touch c r 0)
      else if b.cache.invalidWay r.set = none then some (.replace r.set, b.replace c r)
      else some (.free, { b with cache := c })
    | .error _ => none
  | .fill r addr =>
    if (b.cache.line r).valid then none
    else
      match b.cache.handleFill 0 r addr [] with
      | .ok c => some (.fill, b.touch c r 2)
      | .error _ => none

private theorem perform_step {b b' : Run P} {a : Action} {e : Event}
    (h : b.perform a = some (e, b')) : Step b e b' := by
  cases a with
  | look addr =>
    dsimp only [perform] at h
    split at h
    · rename_i r c hx
      split at h
      · rename_i hp
        cases h
        exact .hit 0 addr hp hx
      · rename_i hp
        rw [Bool.not_eq_true] at hp
        split at h
        · rename_i hfull
          cases h
          exact .replace 0 addr hp hfull hx
        · rename_i hfree
          cases h
          exact .free 0 addr hp hfree hx
    · cases h
  | fill r addr =>
    dsimp only [perform] at h
    split at h
    · cases h
    · rename_i hv
      rw [Bool.not_eq_true] at hv
      split at h
      · rename_i c hx
        cases h
        exact .fill 0 r addr [] hv hx
      · cases h

def performAll (ok : Run P → Event → Bool) (b : Run P) : List Action → Option (Run P)
  | [] => some b
  | a :: as => do
    let (e, b') ← b.perform a
    if ok b e then performAll ok b' as else none

private theorem reachable_of_performAll {ok : Run P → Event → Bool} {as : List Action}
    {b b' : Run P} (hb : Reachable (fun b e => ok b e = true) b)
    (h : b.performAll ok as = some b') : Reachable (fun b e => ok b e = true) b' := by
  induction as generalizing b with
  | nil =>
    cases h
    exact hb
  | cons a as ih =>
    obtain ⟨⟨e, b₁⟩, ha, h⟩ := Option.bind_eq_some_iff.mp h
    dsimp only at h
    split at h
    · rename_i hok
      exact ih (hb.tail ⟨e, hok, perform_step ha⟩) h
    · cases h

def refreshed (b : Run P) : Event → Bool
  | .replace s => (List.range P.assoc).all fun w => !b.stale s w
  | _ => true

private theorem refreshed_of {b : Run P} {e : Event} (h : b.refreshed e = true) :
    b.Refreshed e := by
  intro s he w hw
  subst he
  have hall := List.all_eq_true.mp h w (List.mem_range.mpr hw)
  rwa [Bool.not_eq_true'] at hall

/-- Two ways are filled, and three more blocks come: the first way is hit before each of them, the
second one before the last only. -/
private def threeMore : List Action :=
  [.look 0, .fill ⟨0, 0⟩ 0, .look 8, .fill ⟨0, 1⟩ 8, .look 0, .look 16, .fill ⟨0, 1⟩ 16, .look 0,
    .look 24, .fill ⟨0, 1⟩ 24, .look 0, .look 24, .look 32]

/-- The first two of them take the second way and the last one the first, as in the reference. -/
theorem srrip_agrees_replaces : ∃ b : Run (Bench.instCache 2 2 Nat.two_pos srripReplPolicy),
    b.chosen.map Prod.fst = [1, 1, 0] ∧ ∀ x ∈ b.chosen, x.2 = some x.1 := by
  obtain ⟨b, hb, hc⟩ := Option.map_eq_some_iff.mp (show (performAll refreshed
      ({} : Run (Bench.instCache 2 2 Nat.two_pos srripReplPolicy)) threeMore).map
        (·.chosen.map Prod.fst) = some [1, 1, 0] by decide +kernel)
  have hr := (reachable_of_performAll .refl hb).mono fun _ _ => refreshed_of
  exact ⟨b, hc, srrip_agrees rfl hr⟩

/-- After the third block has taken the first way, the fourth takes it again, and the reference,
which has aged the second way, takes that one. -/
theorem srrip_differs : ∃ b : Run (Bench.instCache 2 2 Nat.two_pos srripReplPolicy),
    Reachable (fun _ _ => True) b ∧ (0, some 1) ∈ b.chosen := by
  obtain ⟨b, hb, hc⟩ := Option.map_eq_some_iff.mp (show (performAll (fun _ _ => true)
      ({} : Run (Bench.instCache 2 2 Nat.two_pos srripReplPolicy))
      [.look 0, .fill ⟨0, 0⟩ 0, .look 8, .fill ⟨0, 1⟩ 8, .look 16, .fill ⟨0, 0⟩ 16,
        .look 24]).map (·.chosen) = some [(0, some 0), (0, some 1)] by decide +kernel)
  have hr := (reachable_of_performAll .refl hb).mono fun _ _ _ => trivial
  exact ⟨b, hr,
    hc ▸ List.mem_cons_of_mem _ (List.mem_singleton_self _)⟩

end Run

end NpSim.Cache.Srrip
