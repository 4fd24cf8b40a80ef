/- digest: The tree policy never takes a line among the most recently used: a victim is older than
   as many lines of its set as the tree has levels. -/

import NpSim.Cache.Touches
import NpSim.Lib.PointerTree
import Mathlib.Tactic.IntervalCases

set_option autoImplicit false
set_option relaxedAutoImplicit false

namespace NpSim.Cache.TreeLru

open NpSim.Lib NpSim.Lib.Partial

/-- The tree held by the bits of a set: `b0` at the root, `b1` over ways 0 and 1, `b2` over ways 2
and 3. -/
def tree (assoc bits : Nat) : PointerTree :=
  if assoc = 2 then .node (bits.testBit 0) fun _ => .leaf
  else if assoc = 4 then
    .node (bits.testBit 0) fun c =>
      .node (if c then bits.testBit 2 else bits.testBit 1) fun _ => .leaf
  else .leaf

def path (assoc way : Nat) : List Bool :=
  if assoc = 2 then [way.testBit 0]
  else if assoc = 4 then [way.testBit 1, way.testBit 0]
  else []

def wayAt (p : List Bool) : Nat := p.foldl (fun n b => 2 * n + b.toNat) 0

def Supported (assoc : Nat) : Prop := assoc = 1 ∨ assoc = 2 ∨ assoc = 4

variable {assoc bits bits' way : Nat}

theorem wayAt_path (ha : Supported assoc) (hw : way < assoc) : wayAt (path assoc way) = way := by
  rcases ha with rfl | rfl | rfl
  · obtain rfl : way = 0 := by omega
    rfl
  · interval_cases way <;> rfl
  · interval_cases way <;> rfl

theorem path_tree (assoc bits way : Nat) : (tree assoc bits).Path (path assoc way) := by
  unfold tree path
  split
  · rfl
  · split
    · rfl
    · rfl

theorem path_of_tree (ha : Supported assoc) {p : List Bool} (hp : (tree assoc bits).Path p) :
    ∃ w < assoc, path assoc w = p := by
  rcases ha with rfl | rfl | rfl
  · exact ⟨0, Nat.one_pos, hp.symm⟩
  · cases p with
    | nil => exact hp.elim
    | cons a p =>
      obtain rfl : p = [] := hp
      cases a
      · exact ⟨0, by omega, rfl⟩
      · exact ⟨1, by omega, rfl⟩
  · cases p with
    | nil => exact hp.elim
    | cons a p =>
      cases p with
      | nil => exact hp.elim
      | cons b p =>
        obtain rfl : p = [] := hp
        cases a <;> cases b
        · exact ⟨0, by omega, rfl⟩
        · exact ⟨1, by omega, rfl⟩
        · exact ⟨2, by omega, rfl⟩
        · exact ⟨3, by omega, rfl⟩

theorem victimWay_away {w : Nat} (h : plruVictimWay assoc bits = .ok w) :
    Supported assoc ∧ w < assoc ∧ path assoc w = (tree assoc bits).away := by
  unfold plruVictimWay at h
  dsimp only at h
  split at h
  · rename_i ha
    subst ha
    cases h
    exact ⟨.inl rfl, Nat.one_pos, rfl⟩
  · split at h
    · rename_i ha
      subst ha
      cases h
      change _ ∧ _ ∧ _ = [!bits.testBit 0]
      cases bits.testBit 0 <;> exact ⟨.inr (.inl rfl), by decide, rfl⟩
    · split at h
      · rename_i ha
        subst ha
        cases h
        change _ ∧ _ ∧ _ =
          [!bits.testBit 0, !(if !bits.testBit 0 then bits.testBit 2 else bits.testBit 1)]
        cases bits.testBit 0 <;> cases bits.testBit 1 <;> cases bits.testBit 2 <;>
          exact ⟨.inr (.inr rfl), by decide, rfl⟩
      · cases h

private theorem testBit_eq (n i : Nat) : n.testBit i = decide (n / 2 ^ i % 2 = 1) :=
  Nat.testBit_eq_decide_div_mod_eq

private theorem touch_bud (side c : Bool) :
    (PointerTree.node side fun _ => .leaf).touch [c] = .node c fun _ => .leaf := by
  change PointerTree.node c _ = _
  congr 1
  funext b
  exact ite_self _

private theorem touch_two (side c d : Bool) (kept : Bool → Bool) :
    (PointerTree.node side fun b => .node (kept b) fun _ => .leaf).touch [c, d] =
      .node c fun b => .node (if b = c then d else kept b) fun _ => .leaf := by
  change PointerTree.node c _ = _
  congr 1
  funext b
  by_cases hb : b = c
  · rw [if_pos hb, if_pos hb]
    exact touch_bud (kept b) d
  · rw [if_neg hb, if_neg hb]

theorem updateBits_touch (hw : way < assoc) (h : plruUpdateBits assoc bits way = .ok bits') :
    tree assoc bits' = (tree assoc bits).touch (path assoc way) := by
  unfold plruUpdateBits at h
  split at h
  · rename_i ha
    subst ha
    rfl
  · split at h
    · rename_i ha
      subst ha
      cases h
      refine Eq.trans ?_ (touch_bud (bits.testBit 0) (way.testBit 0)).symm
      interval_cases way <;> rfl
    · split at h
      · rename_i ha
        subst ha
        dsimp only at h
        have hb₁ : bits / 2 % 2 < 2 := Nat.mod_lt _ Nat.two_pos
        have hb₂ : bits / 4 % 2 < 2 := Nat.mod_lt _ Nat.two_pos
        have ht₁ : bits.testBit 1 = decide (bits / 2 % 2 = 1) := testBit_eq bits 1
        have ht₂ : bits.testBit 2 = decide (bits / 4 % 2 = 1) := testBit_eq bits 2
        refine Eq.trans ?_ (touch_two (bits.testBit 0) (way.testBit 1) (way.testBit 0) fun b =>
          if b then bits.testBit 2 else bits.testBit 1).symm
        rw [ht₁, ht₂]
        generalize bits / 2 % 2 = x at h hb₁
        generalize bits / 4 % 2 = y at h hb₂
        cases h
        change PointerTree.node _ _ = _
        interval_cases way <;> interval_cases x <;> interval_cases y <;>
          refine congrArg₂ PointerTree.node rfl (funext fun b => ?_) <;> cases b <;> rfl
      · cases h

/-- The path to a line of set `s`. -/
def pathIn (assoc s : Nat) (r : LineRef) : Option (List Bool) :=
  if r.set = s then some (path assoc r.way) else none

private theorem pathIn_self (assoc s w : Nat) : pathIn assoc s ⟨s, w⟩ = some (path assoc w) :=
  if_pos rfl

private theorem plruTouch_eq_ok {bits bits' : Nat → Nat} {r : LineRef} {stamp x : Nat}
    (h : (do
      let b ← plruUpdateBits assoc (bits r.set) r.way
      .ok (Function.update bits r.set b, stamp) : Except Fault _) = .ok (bits', x)) :
    ∃ b, plruUpdateBits assoc (bits r.set) r.way = .ok b ∧
      bits' = Function.update bits r.set b := by
  obtain ⟨b, hb, h⟩ := bind_eq_ok.mp h
  exact ⟨b, hb, (Prod.mk.inj (Except.ok.inj h)).1.symm⟩

private theorem follows_touch {l : List LineRef} {bits bits' : Nat → Nat} {r : LineRef} {b s : Nat}
    (ih : (tree assoc (bits s)).Follows (l.filterMap (pathIn assoc s))) (hw : r.way < assoc)
    (hb : plruUpdateBits assoc (bits r.set) r.way = .ok b)
    (he : bits' = Function.update bits r.set b) :
    (tree assoc (bits' s)).Follows ((r :: l).filterMap (pathIn assoc s)) := by
  rw [he]
  by_cases hs : r.set = s
  · subst hs
    rw [List.filterMap_cons_some (pathIn_self assoc r.set r.way), Function.update_self,
      updateBits_touch hw hb]
    exact ih.touch (path_tree assoc (bits r.set) r.way)
  · have hnone : pathIn assoc s r = none := if_neg hs
    rw [List.filterMap_cons_none hnone, Function.update_of_ne (Ne.symm hs)]
    exact ih

/-- The bits of a set are the tree of the touches of its lines. -/
theorem follows_of_replays {l : List Touch} {bits : (plruReplPolicy assoc).State}
    (h : Replays (plruReplPolicy assoc) l bits) (hw : ∀ t ∈ l, t.line.way < assoc) (s : Nat) :
    (tree assoc (bits s)).Follows ((l.map Touch.line).filterMap (pathIn assoc s)) := by
  induction h with
  | nil => exact PointerTree.follows_nil _
  | hit r now stamp x _ hs ih =>
    obtain ⟨b, hb, he⟩ := plruTouch_eq_ok hs
    exact follows_touch (ih fun t ht => hw t (List.mem_cons_of_mem _ ht))
      (hw (.hit r) List.mem_cons_self) hb he
  | fill r now stamp x _ hs ih =>
    obtain ⟨b, hb, he⟩ := plruTouch_eq_ok hs
    exact follows_touch (ih fun t ht => hw t (List.mem_cons_of_mem _ ht))
      (hw (.fill r) List.mem_cons_self) hb he

theorem length_path (ha : Supported assoc) (w : Nat) : (path assoc w).length = assoc.log2 := by
  rcases ha with rfl | rfl | rfl <;> rfl

/-- When all lines of a set have been touched, the victim is older than as many of them as the tree
has levels. -/
theorem victim_old {l : List Touch} {bits : (plruReplPolicy assoc).State}
    (h : Replays (plruReplPolicy assoc) l bits)
    (hway : ∀ t ∈ l, t.line.way < assoc) {s w : Nat}
    (hall : ∀ v < assoc, ⟨s, v⟩ ∈ l.map Touch.line) (hw : plruVictimWay assoc (bits s) = .ok w) :
    ∃ ws : List Nat, ws.length = assoc.log2 ∧ ws.Nodup ∧
      ∀ v ∈ ws, v < assoc ∧ Newer (l.map Touch.line) ⟨s, v⟩ ⟨s, w⟩ := by
  obtain ⟨ha, hlt, haway⟩ := victimWay_away hw
  obtain ⟨ps, hlen, hnodup, hnewer⟩ := (follows_of_replays h hway s).away_old fun p hp => by
    obtain ⟨v, hv, rfl⟩ := path_of_tree ha hp
    exact List.mem_filterMap.mpr ⟨⟨s, v⟩, hall v hv, pathIn_self assoc s v⟩
  have hps : ∀ p ∈ ps, wayAt p < assoc ∧ path assoc (wayAt p) = p ∧
      Newer (l.map Touch.line) ⟨s, wayAt p⟩ ⟨s, w⟩ := by
    intro p hp
    obtain ⟨x, hx, hlast⟩ := (hnewer p hp).of_filterMap
    unfold pathIn at hx
    split at hx
    · rename_i hset
      have hmem := (hlast ⟨s, w⟩ ((pathIn_self assoc s w).trans (congrArg some haway))).mem
      obtain ⟨t, ht, rfl⟩ := List.mem_map.mp hmem
      have hpath : path assoc t.line.way = p := Option.some.inj hx
      have hat : wayAt p = t.line.way := by
        rw [← hpath]
        exact wayAt_path ha (hway t ht)
      have hline : (⟨s, t.line.way⟩ : LineRef) = t.line := by
        rw [← hset]
      rw [hat, hline]
      exact ⟨hway t ht, hpath, hlast _ ((pathIn_self assoc s w).trans (congrArg some haway))⟩
    · cases hx
  refine ⟨ps.map wayAt, ?_, ?_, fun v hv => ?_⟩
  · rw [List.length_map, hlen, ← haway, length_path ha]
  · refine hnodup.map_on fun p hp q hq heq => ?_
    rw [← (hps p hp).2.1, ← (hps q hq).2.1, heq]
  · obtain ⟨p, hp, rfl⟩ := List.mem_map.mp hv
    exact ⟨(hps p hp).1, (hps p hp).2.2⟩

variable {P : CacheParams}

/-- A miss in a cache under the tree policy takes a way for which the deciding set, if it is full,
has touched as many other lines since as the tree has levels: the other one of two ways, and two
of the other three of four. Without the victim lag the deciding set is the set of the miss. -/
theorem tree_lru_spares_recent (hp : P.prefetcher.present = false)
    {b b' : Watched (P.withPolicy (plruReplPolicy P.assoc))} (h : Watched.Reachable b)
    (hs : Watched.Step b b') {r : LineRef}
    (ht : PipeCache.Takes b.bench.cache b'.bench.cache r) {s : Nat}
    (hdecides : s =
      Watched.decider b.bench.cache r.set (b.bench.cache.hitLines b'.bench.cache))
    (hfull : b.bench.cache.invalidWay s = none) :
    r.way < P.assoc ∧ ∃ ws : List Nat, ws.length = P.assoc.log2 ∧ ws.Nodup ∧
      ∀ v ∈ ws, v < P.assoc ∧ Newer (b'.touched.map Touch.line) ⟨s, v⟩ ⟨s, r.way⟩ := by
  have hp' : (P.withPolicy (plruReplPolicy P.assoc)).prefetcher.present = false := hp
  have hk := h.known hp'
  have hk' := hk.step hp' hs
  obtain ⟨_, htouched, d, w, hreplays, hvalid, hdeciding, hw, hway⟩ := hk.takes hp' hs ht
  have hinvalid : d.invalidWay s = none := by
    rw [← hfull]
    unfold PipeCache.invalidWay
    congr 1
    funext v
    rw [hvalid]
  have hmiss : d.missVictimWay r.set =
      (plruReplPolicy P.assoc).getVictim d.repl s (d.setOf s) := by
    have hset : d.deciding r.set = s := hdeciding.trans hdecides.symm
    unfold PipeCache.deciding at hset
    unfold PipeCache.missVictimWay
    dsimp only
    rw [hset, hinvalid]
    rfl
  rw [hw] at hmiss
  obtain ⟨v, hv, hvw⟩ := bind_eq_ok.mp (hmiss.symm : (do
    let idx ← plruVictimWay P.assoc _
    if idx < (d.setOf s).length then .ok idx else .error .victimRange : Except Fault Nat) = .ok w)
  have hvw' : v = w := by
    split at hvw
    · exact Except.ok.inj hvw
    · cases hvw
  subst hvw'
  obtain ⟨_, hlt, _⟩ := victimWay_away hv
  have hrw : r.way = v := hway.trans (Nat.mod_eq_of_lt hlt)
  have hall : ∀ u < P.assoc, ⟨s, u⟩ ∈ b'.touched.map Touch.line := by
    intro u hu
    have hno := List.find?_eq_none.mp hfull u (List.mem_range.mpr hu)
    rw [Bool.not_eq_true, Bool.not_eq_false'] at hno
    rw [htouched, List.map_append]
    exact List.mem_append_right _ (List.mem_map.mpr ⟨_, hk.held s u hno, rfl⟩)
  rw [hrw]
  exact ⟨hlt, victim_old hreplays hk'.way hall hv⟩

/-- Four blocks of one set are read, the first of them once more, and then a fifth. -/
private def fiveBlocks : List Bench.Call :=
  Watched.fetch 0 ++ (Watched.fetch 8 ++ (Watched.fetch 16 ++ (Watched.fetch 24 ++
    [.read 0, .tick, .update, .tick, .update, .read 32, .tick])))

/-- The fifth block takes the line of the third: those of the first and of the fourth are newer. -/
theorem tree_lru_spares_recent_fifth :
    let P := Bench.instCache 2 4 (by decide) lruReplPolicy
    ∃ b b' : Watched (P.withPolicy (plruReplPolicy P.assoc)),
      PipeCache.Takes b.bench.cache b'.bench.cache ⟨0, 2⟩ ∧
        ∃ ws : List Nat, ws.length = 2 ∧ ws.Nodup ∧
          ∀ v ∈ ws, v < 4 ∧ Newer (b'.touched.map Touch.line) ⟨0, v⟩ ⟨0, 2⟩ := by
  intro P
  obtain ⟨b, hb, hx⟩ := Option.bind_eq_some_iff.mp (show
    (fiveBlocks.foldlM Watched.perform
        ({} : Watched (P.withPolicy (plruReplPolicy P.assoc)))).bind (fun b =>
      (b.perform .update).map fun b' => (b.bench.cache.pendingFillReq,
        b'.bench.cache.pendingFillReq, b'.bench.cache.back.bind (·.line),
        b.bench.cache.hitLines b'.bench.cache, b.bench.cache.invalidWay 0)) =
      some (false, true, some ⟨0, 2⟩, [], none) by decide +kernel)
  obtain ⟨b', hb', hx⟩ := Option.map_eq_some_iff.mp hx
  simp only [Prod.mk.injEq] at hx
  obtain ⟨hbefore, hafter, hline, hhits, hfull⟩ := hx
  have ht : PipeCache.Takes b.bench.cache b'.bench.cache ⟨0, 2⟩ :=
    ⟨hbefore, hafter, Option.bind_eq_some_iff.mp hline⟩
  obtain ⟨_, ws, hlen, hnodup, hnewer⟩ := tree_lru_spares_recent (P := P) rfl
    (run_of_foldlM (fun _ _ _ => Watched.perform_step) hb) (Watched.perform_step hb') ht (s := 0)
    (by rw [hhits]; rfl) hfull
  have hlevels : P.assoc.log2 = 2 := (rfl : Nat.log2 4 = 2)
  exact ⟨b, b', ht, ws, hlen.trans hlevels, hnodup, hnewer⟩

end NpSim.Cache.TreeLru
