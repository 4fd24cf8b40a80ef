/- digest: The lines that the stamp policies pick: the first of the smallest stamp, or of the
   largest. -/

import NpSim.Cache.Handlers
import NpSim.Lib.FirstBest

set_option autoImplicit false
set_option relaxedAutoImplicit false

namespace NpSim.Cache

open NpSim.Lib.Partial NpSim.Lib.FirstBest

def CacheParams.withPolicy (P : CacheParams) (π : ReplPolicy) : CacheParams :=
  { P with policy := π }

/-- `std::min_element` returns the first line with the smallest stamp. -/
private theorem minStamp_best (l : CacheLine) (ls : List CacheLine) :
    ∃ k, Best CacheLine.stamp (· < ·) (l :: ls) (minStamp (l :: ls)) k :=
  ⟨_, best_foldl (fun _ => Nat.lt_irrefl _) Nat.lt_trans
    (fun h h' => lt_of_lt_of_le h (Nat.not_lt.mp h')) l ls⟩

/-- `std::max_element` returns the first line with the largest stamp. -/
private theorem maxStamp_best (l : CacheLine) (ls : List CacheLine) :
    ∃ k, Best CacheLine.stamp (fun a b : Nat => b < a) (l :: ls) (maxStamp (l :: ls)) k :=
  ⟨_, @best_foldl CacheLine Nat CacheLine.stamp (fun a b => b < a) (fun a b => Nat.decLt b a)
    (fun _ => Nat.lt_irrefl _) (fun h h' => Nat.lt_trans h' h)
    (fun h h' => lt_of_le_of_lt (Nat.not_lt.mp h') h) l ls⟩

theorem Best.of_ways {better : Nat → Nat → Prop} {lines : Nat → CacheLine} {assoc i k : Nat}
    (h : Best CacheLine.stamp better ((List.range assoc).map lines) i k) :
    i < assoc ∧ (∀ j < assoc, ¬better (lines j).stamp (lines i).stamp) ∧
      ∀ j < i, better (lines i).stamp (lines j).stamp := by
  obtain ⟨hlt, hkey⟩ := h.found
  have hassoc : i < assoc := by
    rwa [List.length_map, List.length_range] at hlt
  have hget : ∀ j (hj : j < ((List.range assoc).map lines).length),
      ((List.range assoc).map lines).get ⟨j, hj⟩ = lines j := fun j hj => by
    rw [List.get_eq_getElem, List.getElem_map, List.getElem_range]
  rw [hget] at hkey
  refine ⟨hassoc, fun j hj => ?_, fun j hj => ?_⟩
  · rw [hkey]
    exact h.unbeaten _ (List.mem_map_of_mem (List.mem_range.mpr hj))
  · have hjlt : j < ((List.range assoc).map lines).length := Nat.lt_trans hj hlt
    rw [hkey, ← hget j hjlt]
    exact h.first j hjlt hj

namespace PipeCache

variable {P : CacheParams} {now : Nat}

/-- Without the lag the set of the missing block decides. -/
theorem missVictimWay_of_full {π : ReplPolicy} (hlag : P.victimWayLag = false)
    {c : PipeCache (P.withPolicy π)} {si : Nat} (hfull : c.invalidWay si = none) :
    c.missVictimWay si = π.getVictim c.repl si (c.setOf si) := by
  have hlag' : (P.withPolicy π).victimWayLag = false := hlag
  unfold missVictimWay
  rw [hlag', Bool.false_and, if_neg Bool.false_ne_true]
  dsimp only
  rw [hfull]
  rfl

private theorem setOf_cons {Q : CacheParams} (c : PipeCache Q) (si : Nat) :
    ∃ l ls, c.setOf si = l :: ls := by
  have hlen : (c.setOf si).length = Q.assoc := by
    unfold setOf
    rw [List.length_map, List.length_range]
  cases hs : c.setOf si with
  | nil =>
    rw [hs] at hlen
    exact absurd hlen.symm (Nat.ne_of_gt Q.assoc_pos)
  | cons l ls => exact ⟨l, ls, rfl⟩

theorem lru_victim (hlag : P.victimWayLag = false) {c : PipeCache (P.withPolicy lruReplPolicy)}
    {si w : Nat} (hfull : c.invalidWay si = none) (hx : c.missVictimWay si = .ok w) :
    w < P.assoc ∧ (∀ j < P.assoc, ¬(c.lines si j).stamp < (c.lines si w).stamp) ∧
      ∀ j < w, (c.lines si w).stamp < (c.lines si j).stamp := by
  obtain ⟨l, ls, hs⟩ := setOf_cons c si
  obtain ⟨k, hbest⟩ := minStamp_best l ls
  rw [missVictimWay_of_full hlag hfull] at hx
  have hw : minStamp (c.setOf si) = w := by
    have hx' : (if c.setOf si = [] then (.error .victimRange : Except Fault Nat)
      else .ok (minStamp (c.setOf si))) = .ok w := hx
    rw [if_neg (by rw [hs]; exact List.cons_ne_nil l ls)] at hx'
    exact Except.ok.inj hx'
  rw [← hs, hw] at hbest
  exact Best.of_ways hbest

theorem srrip_victim (hlag : P.victimWayLag = false)
    {c : PipeCache (P.withPolicy srripReplPolicy)} {si w : Nat} (hfull : c.invalidWay si = none)
    (hx : c.missVictimWay si = .ok w) :
    w < P.assoc ∧ (∀ j < P.assoc, ¬(c.lines si w).stamp < (c.lines si j).stamp) ∧
      ∀ j < w, (c.lines si j).stamp < (c.lines si w).stamp := by
  obtain ⟨l, ls, hs⟩ := setOf_cons c si
  obtain ⟨k, hbest⟩ := maxStamp_best l ls
  rw [missVictimWay_of_full hlag hfull] at hx
  have hw : maxStamp (c.setOf si) = w := by
    have hx' : (if maxStamp (c.setOf si) < (c.setOf si).length then
      (.ok (maxStamp (c.setOf si)) : Except Fault Nat) else .error .victimRange) = .ok w := hx
    split at hx'
    · exact Except.ok.inj hx'
    · cases hx'
  rw [← hs, hw] at hbest
  exact Best.of_ways hbest

/-- The stamp of a line that holds a block. -/
def rank (c : PipeCache P) (s w : Nat) : Option Nat :=
  if (c.lines s w).valid then some (c.lines s w).stamp else none

theorem rank_of_valid {c : PipeCache P} {s w : Nat} (h : (c.lines s w).valid = true) :
    c.rank s w = some (c.lines s w).stamp := if_pos h

theorem valid_of_rank {c : PipeCache P} {s w k : Nat} (h : c.rank s w = some k) :
    (c.lines s w).valid = true ∧ (c.lines s w).stamp = k := by
  unfold rank at h
  split at h
  · rename_i hv
    exact ⟨hv, Option.some.inj h⟩
  · cases h

theorem rank_eq_none {c : PipeCache P} {s w : Nat} :
    c.rank s w = none ↔ (c.lines s w).valid = false := by
  unfold rank
  split
  · rename_i hv
    exact ⟨fun h => absurd h (Option.some_ne_none _), fun h => absurd (hv.symm.trans h) (by decide)⟩
  · rename_i hv
    exact ⟨fun _ => Bool.eq_false_of_not_eq_true hv, fun _ => rfl⟩

def mark {α : Type} (f : Nat → Nat → α) (r : LineRef) (x : α) : Nat → Nat → α :=
  fun s w => if s = r.set ∧ w = r.way then x else f s w

theorem mark_self {α : Type} (f : Nat → Nat → α) (r : LineRef) (x : α) :
    mark f r x r.set r.way = x := if_pos ⟨rfl, rfl⟩

theorem mark_other {α : Type} (f : Nat → Nat → α) {r : LineRef} (x : α) {s w : Nat}
    (h : ¬(s = r.set ∧ w = r.way)) : mark f r x s w = f s w := if_neg h

theorem of_mark_none {α : Type} {f : Nat → Nat → Option α} {r : LineRef} {s w : Nat} {x : α}
    (h : mark f r none s w = some x) : f s w = some x ∧ ¬(s = r.set ∧ w = r.way) := by
  by_cases hsw : s = r.set ∧ w = r.way
  · rw [mark, if_pos hsw] at h
    cases h
  · rw [mark_other _ _ hsw] at h
    exact ⟨h, hsw⟩

private theorem rank_setLine {c d : PipeCache P} (hd : d.lines = c.lines) (r : LineRef)
    (l : CacheLine) :
    (d.setLine r l).rank = mark c.rank r (if l.valid then some l.stamp else none) := by
  funext s w
  have hl : (d.setLine r l).lines s w = if s = r.set ∧ w = r.way then l else c.lines s w := by
    rw [lines_setLine, hd]
  unfold rank mark
  rw [hl]
  split <;> rfl

private theorem accessHit_rank {c c' : PipeCache P} {r : LineRef} (hv : (c.line r).valid = true)
    (h : c.accessHit now r = .ok c') : ∃ repl stamp,
      P.policy.onHit c.repl now r.set r.way (c.line r).stamp = .ok (repl, stamp) ∧
        c'.rank = mark c.rank r (some stamp) := by
  unfold accessHit at h
  have hlines := lines_noteLag r.set c
  have hrepl : (c.noteLag r.set).repl = c.repl := by
    unfold noteLag
    split <;> rfl
  generalize c.noteLag r.set = d at h hlines hrepl
  dsimp only at h
  have hline : d.line r = c.line r := by
    rw [line, line, hlines]
  rw [hline, hrepl] at h
  obtain ⟨⟨repl, stamp⟩, hhit, h⟩ := bind_eq_ok.mp h
  cases h
  refine ⟨repl, stamp, hhit, (rank_setLine (c := c) ?_ r _).trans ?_⟩
  · exact hlines
  · generalize ((c.line r).isPrefetched && P.prefetcher.present) = b
    cases b <;> exact congrArg (mark c.rank r) (if_pos hv)

theorem access_rank {c c' : PipeCache P} {addr : Addr} {r : LineRef}
    (h : c.access now addr = .ok (r, c')) : r.set = P.setIndexOf addr ∧ r.way < P.assoc ∧
      (c.probe addr = true ∧ (c.line r).valid = true ∧ (∃ repl stamp,
          P.policy.onHit c.repl now r.set r.way (c.line r).stamp = .ok (repl, stamp) ∧
            c'.rank = mark c.rank r (some stamp)) ∨
        c.probe addr = false ∧ c'.rank = mark c.rank r none ∧
          ∃ w, c.missVictimWay r.set = .ok w ∧ r.way = w % P.assoc) := by
  have hl := access_looked h
  refine ⟨hl.set, hl.way, ?_⟩
  unfold access at h
  dsimp only at h
  split at h
  · rename_i w hw
    obtain ⟨_, hv, _⟩ := findWay_some hw
    obtain ⟨d, hd, h⟩ := bind_eq_ok.mp h
    cases h
    have hv' : (({ c with stats := { c.stats with accesses := c.stats.accesses + 1 } } :
      PipeCache P).line ⟨P.setIndexOf addr, w⟩).valid = true := hv
    have hrank := accessHit_rank hv' hd
    exact .inl ⟨Option.isSome_iff_exists.mpr ⟨w, hw⟩, hv, hrank⟩
  · rename_i hw
    refine .inr ⟨Option.isSome_eq_false_iff.mpr (Option.isNone_iff_eq_none.mpr hw), ?_⟩
    unfold accessMiss at h
    dsimp only at h
    obtain ⟨w, hvic, h⟩ := bind_eq_ok.mp h
    cases h
    exact ⟨rank_setLine (lines_noteLag (P.setIndexOf addr) _) _ _, w, hvic, rfl⟩

theorem handleFill_rank {c c' : PipeCache P} {blk : LineRef} {addr : Addr} {ret : List Word}
    (h : c.handleFill now blk addr ret = .ok c') : ∃ repl stamp,
      P.policy.onFill c.repl now blk.set blk.way now = .ok (repl, stamp) ∧
        c'.rank = mark c.rank blk (some stamp) := by
  unfold handleFill at h
  dsimp only at h
  obtain ⟨⟨hset, _⟩, h⟩ := require_bind_eq_ok.mp h
  obtain ⟨⟨repl, stamp⟩, hfill, h⟩ := bind_eq_ok.mp h
  cases h
  refine ⟨repl, stamp, hset ▸ hfill, (rank_setLine (c := c) ?_ blk _).trans ?_⟩
  · exact rfl
  · exact congrArg (mark c.rank blk) (if_pos rfl)

end PipeCache

end NpSim.Cache
