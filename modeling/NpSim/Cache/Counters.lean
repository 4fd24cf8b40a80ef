/- digest: The counters of the cache: hits are the requests answered by their lookup, misses the
   refills asked of memory, and each request is counted once. -/

import NpSim.Cache.Answers

set_option autoImplicit false
set_option relaxedAutoImplicit false

namespace NpSim.Cache

open NpSim.Lib.Partial Relation

def CacheStats.count (s : CacheStats) (missed : Bool) : CacheStats where
  accesses := s.accesses + 1
  hits := s.hits + if missed then 0 else 1
  misses := s.misses + if missed then 1 else 0

namespace PipeCache

variable {P : CacheParams} {c c' : PipeCache P} {now : Nat}

/-- The requests that have been looked up, oldest first. -/
def looked (c : PipeCache P) : List CachePipeEntry :=
  c.served ++ c.back.toList.filter (·.line.isSome)

/-- The counters have moved with the lookups. -/
structure Counted (c c' : PipeCache P) : Prop where
  hits : c'.stats.hits + c.looked.countP (!·.missed) =
    c.stats.hits + c'.looked.countP (!·.missed)
  misses : c'.stats.misses + c.looked.countP (·.missed) =
    c.stats.misses + c'.looked.countP (·.missed)
  accesses : c'.stats.accesses + c.looked.length = c.stats.accesses + c'.looked.length

theorem Counted.refl (c : PipeCache P) : Counted c c := ⟨rfl, rfl, rfl⟩

theorem Counted.trans {d : PipeCache P} (h : Counted c c') (h' : Counted c' d) : Counted c d := by
  have h₁ := h.hits
  have h₂ := h.misses
  have h₃ := h.accesses
  have h₁' := h'.hits
  have h₂' := h'.misses
  have h₃' := h'.accesses
  constructor <;> omega

theorem counted_of_same (hs : c'.stats = c.stats)
    (hl : c'.looked.map CachePipeEntry.missed = c.looked.map CachePipeEntry.missed) :
    Counted c c' := by
  have hcount : ∀ p : Bool → Bool, c'.looked.countP (fun e => p e.missed) =
      c.looked.countP (fun e => p e.missed) := by
    intro p
    have h := congrArg (List.countP p) hl
    rw [List.countP_map, List.countP_map] at h
    exact h
  have hlen := congrArg List.length hl
  rw [List.length_map, List.length_map] at hlen
  constructor
  · rw [hs, hcount (!·)]
  · rw [hs]
    exact congrArg _ (hcount id).symm
  · rw [hs, hlen]

private theorem counted_of_lookup {e : CachePipeEntry} (hs : c'.stats = c.stats.count e.missed)
    (hl : c'.looked = c.looked ++ [e]) : Counted c c' := by
  constructor
  · rw [hs, hl, List.countP_append, List.countP_singleton]
    cases hm : e.missed
    · simp [CacheStats.count]
      omega
    · simp [CacheStats.count]
  · rw [hs, hl, List.countP_append, List.countP_singleton]
    cases hm : e.missed
    · simp [CacheStats.count]
    · simp [CacheStats.count]
      omega
  · rw [hs, hl, List.length_append]
    simp [CacheStats.count]
    omega

private theorem stats_noteLag (si : Nat) (c : PipeCache P) : (c.noteLag si).stats = c.stats := by
  unfold noteLag
  split <;> rfl

private theorem accessHit_stats {r : LineRef} (hv : (c.line r).valid = true)
    (h : c.accessHit now r = .ok c') :
    c'.stats = { c.stats with hits := c.stats.hits + 1 } ∧ (c'.line r).valid = true := by
  unfold accessHit at h
  have hstats := stats_noteLag r.set c
  have hlines := lines_noteLag r.set c
  generalize c.noteLag r.set = d at h hstats hlines
  have hline : d.line r = c.line r := by
    rw [line, line, hlines]
  dsimp only at h
  obtain ⟨⟨repl, x⟩, _, h⟩ := bind_eq_ok.mp h
  cases h
  constructor
  · change { d.stats with hits := d.stats.hits + 1 } = _
    rw [hstats]
  · rw [line_setLine_self, hline]
    split <;> exact hv

private theorem accessMiss_stats {si : Nat} {r : LineRef} (h : c.accessMiss si = .ok (r, c')) :
    c'.stats = { c.stats with misses := c.stats.misses + 1 } ∧ (c'.line r).valid = false := by
  unfold accessMiss at h
  dsimp only at h
  obtain ⟨w, _, h⟩ := bind_eq_ok.mp h
  cases h
  constructor
  · exact stats_noteLag si _
  · rw [line_setLine_self]
    rfl

theorem access_stats {addr : Addr} {r : LineRef} (h : c.access now addr = .ok (r, c')) :
    c'.stats = c.stats.count (!(c'.line r).valid) := by
  unfold access at h
  dsimp only at h
  split at h
  · rename_i w hw
    obtain ⟨_, hv, _⟩ := findWay_some hw
    obtain ⟨d, hd, h⟩ := bind_eq_ok.mp h
    cases h
    have hv' : (({ c with stats := { c.stats with accesses := c.stats.accesses + 1 } } :
      PipeCache P).line ⟨P.setIndexOf addr, w⟩).valid = true := hv
    obtain ⟨hstats, hvalid⟩ := accessHit_stats hv' hd
    rw [hstats, hvalid]
    rfl
  · obtain ⟨hstats, hvalid⟩ := accessMiss_stats h
    rw [hstats, hvalid]
    rfl

theorem accessTail_stats {bk bk' : CachePipeEntry} (h : c.accessTail now bk = .ok (bk', c')) :
    c'.stats = c.stats.count bk'.missed := by
  unfold accessTail at h
  obtain ⟨d, hd, h⟩ := bind_eq_ok.mp h
  obtain ⟨p, a, w, x, rfl, _, _⟩ := saveEvictInfo_cases hd
  obtain ⟨⟨r, e⟩, he, h⟩ := bind_eq_ok.mp h
  have hstats := access_stats he
  cases h
  exact hstats

theorem handleHit_stats {bk : CachePipeEntry} {r : LineRef} {outs : List CacheOut}
    (h : c.handleHit now bk r = .ok (c', outs)) : c'.stats = c.stats := by
  have hrespond : ∀ (d : PipeCache P) (t : CpuTrans), (d.respond now t).1.stats = d.stats := by
    intro d t
    unfold respond
    split <;> rfl
  unfold handleHit at h
  dsimp only at h
  split at h
  · obtain ⟨dt, _, h⟩ := bind_eq_ok.mp h
    exact (congrArg stats (congrArg Prod.fst (Except.ok.inj h))).symm.trans (hrespond _ _)
  · exact (congrArg stats (congrArg Prod.fst (Except.ok.inj h))).symm.trans (hrespond _ _)

theorem prefetchAfter_stats {bk : CachePipeEntry} {b : Bool}
    (h : c.prefetchAfter now bk b = .ok c') : c'.stats = c.stats := by
  unfold prefetchAfter handlePrefetch at h
  split at h
  · split at h
    · cases h
      rfl
    · dsimp only at h
      split at h
      · cases h
        rfl
      · split at h
        · cases h
          rfl
        · obtain ⟨way, _, h⟩ := bind_eq_ok.mp h
          obtain ⟨⟨repl, x⟩, _, h⟩ := bind_eq_ok.mp h
          cases h
          rfl
  · cases h
    rfl

theorem looked_of_quiet (h : WellFormed c) (hq : c.Quiet) : c.looked = c.served := by
  unfold looked
  cases h.tail with
  | empty hb =>
    rw [hb]
    exact List.append_nil _
  | fresh bk hb hf =>
    have hnone : [bk].filter (·.line.isSome) = [] := by
      rw [List.filter_singleton, hf.1]
      rfl
    rw [hb]
    exact (congrArg _ hnone).trans (List.append_nil _)
  | missed _ _ _ _ _ _ _ hfill => exact absurd (hq.pendingFillReq.symm.trans hfill) (by decide)
  | filling _ _ _ _ _ _ _ _ _ hrep => exact absurd (hq.isReplay.symm.trans hrep) (by decide)
  | filled _ _ _ _ _ _ _ _ _ hrep => exact absurd (hq.isReplay.symm.trans hrep) (by decide)

theorem looked_of_back {bk : CachePipeEntry} {r : LineRef} (hb : c.back = some bk)
    (hl : bk.line = some r) : c.looked = c.served ++ [bk] := by
  unfold looked
  rw [hb]
  change c.served ++ [bk].filter _ = _
  rw [List.filter_singleton, hl]
  rfl

private theorem accessTail_counted {bk bk' : CachePipeEntry} (hl : c.looked = c.served)
    (h : c.accessTail now bk = .ok (bk', c')) : Counted c c' ∧ c'.looked = c'.served ++ [bk'] := by
  obtain ⟨r, ht⟩ := accessTail_looked h
  have hback : c'.back = some bk' := back_of_pipe ht.pipe
  have hline : bk'.line = some r := by
    rw [ht.entry]
  have hlooked := looked_of_back hback hline
  refine ⟨counted_of_lookup (accessTail_stats h) ?_, hlooked⟩
  rw [hlooked, hl, ht.served]

private theorem finishUpdate_counted {outs : List CacheOut} (h : WellFormed c)
    (hb : c.back = none) (hx : c.finishUpdate now = .ok (c', outs)) : Counted c c' := by
  obtain ⟨hw, _, _, hq⟩ := h.shift hb true
  have hlooked := looked_of_quiet h hq
  have hwf := (h.finishUpdate hb hx).1
  have hshift : ∀ b, ({ c.shifted with isShifted := b } : PipeCache P).looked = c.served :=
    fun b => looked_of_quiet (h.shift hb b).1 ⟨hq.rWaiting, hq.wWaiting, hq.pendingFillReq,
      hq.isReplay⟩
  unfold PipeCache.finishUpdate at hx
  split at hx
  · cases hx
    refine counted_of_same rfl (congrArg _ ?_)
    rw [hlooked]
    exact looked_of_quiet hwf ⟨rfl, rfl, rfl, rfl⟩
  · dsimp only at hx
    have hkeep : Counted c ({ c.shifted with isShifted := true } : PipeCache P) := by
      refine counted_of_same rfl (congrArg _ ?_)
      rw [hlooked]
      exact hshift true
    split at hx
    · split at hx
      · obtain ⟨⟨bk', d⟩, hd, hx⟩ := bind_eq_ok.mp hx
        cases hx
        have hstart : Counted c c.shifted :=
          counted_of_same rfl (congrArg _ ((hshift c.isShifted).trans hlooked.symm))
        obtain ⟨hcounted, _⟩ := accessTail_counted (c := c.shifted) (hshift c.isShifted) hd
        exact hstart.trans ⟨hcounted.hits, hcounted.misses, hcounted.accesses⟩
      · cases hx
        exact hkeep
    · cases hx
      exact hkeep

private theorem missUpdate_counted {bk : CachePipeEntry} {r : LineRef} {outs : List CacheOut}
    (hb : c.back = some bk) (hl : bk.line = some r) (h : (c', outs) = c.missUpdate now bk) :
    Counted c c' := by
  have hlooked := looked_of_back hb hl
  have hkeep : ∀ {d : PipeCache P}, d.stats = c.stats → d.back = c.back → d.served = c.served →
      Counted c d := by
    intro d hs hback hserved
    refine counted_of_same hs (congrArg _ ?_)
    rw [looked_of_back (hback.trans hb) hl, hlooked, hserved]
  unfold missUpdate at h
  split at h
  · cases h
    exact hkeep rfl rfl rfl
  · split at h
    · split at h
      · cases h
        exact hkeep rfl rfl rfl
      · cases h
        exact hkeep rfl rfl rfl
    · split at h
      · cases h
        exact hkeep rfl rfl rfl
      · cases h
        refine counted_of_same rfl ?_
        have hback : ({ c with
            pendingFillReq := false, rWaiting := true, isReplay := true, blockedUntil :=
              c.blockedUntil }.setBack (some { bk with refills := bk.refills + 1 }) :
                PipeCache P).back = some { bk with refills := bk.refills + 1 } :=
          back_of_pipe (l := c.pipe.dropLast) rfl
        rw [hlooked, looked_of_back hback hl, List.map_append, List.map_append]
        rfl

private theorem hitUpdate_counted {bk : CachePipeEntry} {r : LineRef} {b : Bool}
    {outs : List CacheOut} (hr : Ready bk r c)
    (hx : c.hitUpdate now bk r b = .ok (c', outs)) : Counted c c' := by
  obtain ⟨d, resp, f, o, hd, hf, hk, rfl, hw, hnone, _⟩ := hr.hitUpdate hx
  have hh := handleHit_cases hr.hv hd
  obtain ⟨hs, _⟩ := prefetchAfter_cases hf
  have hlooked := looked_of_back hr.hb hr.hh.line
  have hserved : (f.retire bk).served = c.served ++ [bk] := by
    change f.served ++ [bk] = _
    rw [hs.served, hh.served]
  have hretire : (f.retire bk).looked = c.served ++ [bk] := by
    unfold looked
    rw [hnone, hserved]
    exact List.append_nil _
  have hstats : (f.retire bk).stats = c.stats :=
    (prefetchAfter_stats hf).trans (handleHit_stats hd)
  have hstep : Counted c (f.retire bk) :=
    counted_of_same hstats (congrArg _ (hretire.trans hlooked.symm))
  exact hstep.trans (finishUpdate_counted hw hnone hk)

private theorem WellFormed.serve_counted {outs : List CacheOut} (h : WellFormed c)
    (hx : c.serve now = .ok (c', outs)) : Counted c c' := by
  cases h.tail with
  | empty hb =>
    unfold PipeCache.serve at hx
    rw [hb] at hx
    exact finishUpdate_counted h hb hx
  | fresh bk hb hf hq =>
    have hlook : c.lookTail now bk = c.accessTail now bk := if_pos hf.1
    have hacc : ∃ p, c.accessTail now bk = .ok p := by
      unfold PipeCache.serve serveTail at hx
      rw [hb] at hx
      dsimp only at hx
      rw [hlook] at hx
      obtain ⟨p, hp, _⟩ := bind_eq_ok.mp hx
      exact ⟨p, hp⟩
    obtain ⟨⟨bk', e⟩, hacc⟩ := hacc
    obtain ⟨r, ht⟩ := accessTail_looked hacc
    obtain ⟨hcounted, _⟩ := accessTail_counted (looked_of_quiet h hq) hacc
    obtain ⟨_, hline, hcase⟩ := ht.outcome h.toFramed hb hf hq
    have hrep : e.isReplay = false := ht.isReplay.trans hq.isReplay
    have hfill : e.pendingFillReq = false := ht.pendingFillReq.trans hq.pendingFillReq
    obtain ⟨_, hx⟩ := serve_some hb (hlook.trans hacc) hline hx
    rw [isReplay_eta hrep] at hx
    rcases hcase with ⟨hv, hr, _⟩ | ⟨hv, _⟩
    · rw [if_pos hv] at hx
      exact hcounted.trans (hitUpdate_counted hr hx)
    · rw [if_neg (by simp [hv]), missUpdate, if_pos (by simp [hfill])] at hx
      cases hx
      exact ⟨hcounted.hits, hcounted.misses, hcounted.accesses⟩
  | missed bk r hb hh hv _ _ _ _ hp =>
    have hlook : c.lookTail now bk = .ok (bk, c) := if_neg (by simp [hh.line])
    obtain ⟨_, hx⟩ := serve_some hb hlook hh.line hx
    rw [if_neg (by simp [hv]), isReplay_eta hp] at hx
    exact missUpdate_counted hb hh.line (Except.ok.inj hx).symm
  | filling bk r hb hh hv _ _ _ _ hp =>
    have hlook : c.lookTail now bk = .ok (bk, c) := if_neg (by simp [hh.line])
    rcases (serve_some hb hlook hh.line hx).1 with hreq | hreq
    · exact absurd (hp.symm.trans hreq) (by decide)
    · exact absurd (hreq.symm.trans hv) (by decide)
  | filled bk r hb hh hv hm h1 hfill hr hp hw =>
    have hlook : c.lookTail now bk = .ok (bk, c) := if_neg (by simp [hh.line])
    obtain ⟨_, hx⟩ := serve_some hb hlook hh.line hx
    rw [if_pos hv] at hx
    have hready : Ready bk r ({ c with isReplay := false } : PipeCache P) :=
      ⟨⟨h.len, h.front, h.rest, h.sized, h.served, h.sched⟩, hb, hh, hv,
        ⟨hh.once, by rw [h1, hm]; rfl⟩, hr, hw, hfill, rfl⟩
    have hkeep : Counted c ({ c with isReplay := false } : PipeCache P) := ⟨rfl, rfl, rfl⟩
    exact hkeep.trans (hitUpdate_counted hready hx)

theorem WellFormed.doUpdate_counted {outs : List CacheOut} (h : WellFormed c)
    (hx : c.doUpdate now = .ok (c', outs)) : Counted c c' := by
  rcases doUpdate_cases hx with ⟨_, rfl, _⟩ | ⟨_, o, hd, _⟩
  · exact .refl c'
  · obtain ⟨hw, _⟩ := h.deliverDeferred now
    have hdeliver : Counted c (c.deliverDeferred now).1 := by
      unfold PipeCache.deliverDeferred
      split <;> exact ⟨rfl, rfl, rfl⟩
    exact hdeliver.trans (hw.serve_counted hd)

theorem enqueue_counted {e : CachePipeEntry} (he : e.Fresh)
    (hx : c.enqueue now e = .ok c') : Counted c c' := by
  obtain ⟨_, rest, hpipe, rfl⟩ := enqueue_eq_ok.mp hx
  refine counted_of_same rfl (congrArg _ ?_)
  cases hr : rest with
  | nil =>
    have hb : c.back = none := back_of_pipe (l := []) (by rw [hpipe, hr]; rfl)
    have hnone : [e].filter (·.line.isSome) = [] := by
      rw [List.filter_singleton, he.1]
      rfl
    unfold looked
    rw [hb]
    exact congrArg (c.served ++ ·) hnone
  | cons y l =>
    have hb : ({ c with
        pipe := some e :: y :: l, blockedUntil := now + 1, isShifted := false } :
          PipeCache P).back = c.back := by
      rw [back, back, hpipe, hr]
      rfl
    unfold looked
    rw [hb]

theorem recvMemResp_counted {m : MemTrans} (hx : c.recvMemResp now m = .ok c') :
    Counted c c' := by
  rcases recvMemResp_cases hx with ⟨_, _, bk, r, repl, x, _, _, _, rfl⟩ | ⟨_, _, rfl⟩
  · exact ⟨rfl, rfl, rfl⟩
  · exact ⟨rfl, rfl, rfl⟩

/-- Of the requests looked up, each that missed has been refilled, or its refill is prepared. -/
theorem WellFormed.looked_missed (h : WellFormed c) :
    c.looked.countP (·.missed) =
      (c.log.flatMap CachePipeEntry.reads).length + if c.pendingFillReq then 1 else 0 := by
  have hserved : ∀ l : List CachePipeEntry, (∀ e ∈ l, e.Done) →
      l.countP (·.missed) = (l.flatMap CachePipeEntry.reads).length := by
    intro l hl
    induction l with
    | nil => rfl
    | cons e l ih =>
      have he := (hl e List.mem_cons_self).2
      rw [List.countP_cons, List.flatMap_cons, List.length_append,
        ih fun e' h' => hl e' (List.mem_cons_of_mem e h'), CachePipeEntry.reads,
        List.length_replicate, he]
      omega
  have hrest : (c.pipe.dropLast.reverse.filterMap id).flatMap CachePipeEntry.reads = [] := by
    rw [List.flatMap_eq_nil_iff]
    intro e he
    obtain ⟨o, ho, rfl⟩ := List.mem_filterMap.mp he
    exact (h.rest e (List.mem_reverse.mp ho)).reads_eq
  have hlog : (c.log.flatMap CachePipeEntry.reads).length =
      (c.served.flatMap CachePipeEntry.reads).length +
        (c.back.toList.flatMap CachePipeEntry.reads).length := by
    rw [log, pending_of_pipe (pipe_eq h.len), List.flatMap_append, List.flatMap_append, hrest,
      List.append_nil, List.length_append]
  have htail : (c.back.toList.filter (·.line.isSome)).countP (·.missed) =
      (c.back.toList.flatMap CachePipeEntry.reads).length +
        if c.pendingFillReq then 1 else 0 := by
    cases h.tail with
    | empty hb hq => simp [hb, hq.pendingFillReq]
    | fresh bk hb hf hq => simp [hb, hq.pendingFillReq, hf.1, hf.reads_eq]
    | missed bk r hb hh _ hm h0 hfill =>
      simp [hb, hh.line, hm, hfill, CachePipeEntry.reads, h0]
    | filling bk r hb hh _ hm h1 hfill =>
      simp [hb, hh.line, hm, hfill, CachePipeEntry.reads, h1]
    | filled bk r hb hh _ hm h1 hfill =>
      simp [hb, hh.line, hm, hfill, CachePipeEntry.reads, h1]
  rw [looked, List.countP_append, hserved _ h.served, htail, hlog]
  omega

end PipeCache

namespace Bench

variable {P : CacheParams}

def Plain (b b' : Bench P) : Prop :=
  (∃ l, Step b l b') ∧
    (b' = { b with cache := b.cache.resetStats } → b'.cache.stats = b.cache.stats)

/-- The refills asked of memory, and the one that is prepared. -/
def refills (b : Bench P) : Nat :=
  (memReqs .read b.sent).length + if b.cache.pendingFillReq then 1 else 0

theorem Sound.looked_missed {b : Bench P} (h : Sound b) :
    b.cache.looked.countP (·.missed) = b.refills := by
  rw [h.wf.looked_missed, h.reads, List.length_map]
  rfl

theorem Plain.counted {b b' : Bench P} (h : Sound b) (hs : Plain b b') :
    PipeCache.Counted b.cache b'.cache := by
  obtain ⟨⟨l, hs⟩, hclear⟩ := hs
  cases hs with
  | read addr hx => exact PipeCache.enqueue_counted ⟨rfl, rfl, rfl, rfl⟩ hx
  | write addr data mask hwb hx =>
    unfold PipeCache.writeReq at hx
    rw [if_pos hwb] at hx
    obtain ⟨d, hd, hx⟩ := bind_eq_ok.mp hx
    cases hx
    exact PipeCache.enqueue_counted ⟨rfl, rfl, rfl, rfl⟩ hd
  | update hx => exact h.wf.doUpdate_counted hx
  | answer m data hm hx => exact PipeCache.recvMemResp_counted hx
  | flushAll => exact ⟨rfl, rfl, rfl⟩
  | resetStats => exact PipeCache.counted_of_same (hclear rfl) rfl
  | tick => exact .refl _

theorem run_counted {b b' : Bench P} (h : Sound b) (hr : ReflTransGen Plain b b') :
    PipeCache.Counted b.cache b'.cache ∧ Sound b' := by
  induction hr with
  | refl => exact ⟨.refl _, h⟩
  | tail _ hs ih =>
    obtain ⟨hcounted, hsound⟩ := ih
    have hsound' := hs.1.choose_spec.sound hsound
    exact ⟨hcounted.trans (hs.counted hsound), hsound'⟩

/-- Over calls that do not clear the counters: accesses move with the lookups, misses with the
refills, and hits with the rest of the lookups. -/
theorem counters_agree {b b' : Bench P} (h : Reachable b) (hr : ReflTransGen Plain b b') :
    b'.cache.stats.accesses + b.cache.looked.length =
        b.cache.stats.accesses + b'.cache.looked.length ∧
      b'.cache.stats.misses + b.refills = b.cache.stats.misses + b'.refills ∧
      b'.cache.stats.hits + b'.cache.stats.misses + b.cache.stats.accesses =
        b.cache.stats.hits + b.cache.stats.misses + b'.cache.stats.accesses := by
  obtain ⟨hcounted, hsound⟩ := run_counted h.sound hr
  have hmisses := hcounted.misses
  rw [h.sound.looked_missed, hsound.looked_missed] at hmisses
  have hsplit : ∀ l : List CachePipeEntry,
      l.length = l.countP (!·.missed) + l.countP (·.missed) := by
    intro l
    rw [List.length_eq_countP_add_countP (·.missed) (l := l), Nat.add_comm]
    simp
  have hl := hsplit b.cache.looked
  have hl' := hsplit b'.cache.looked
  rw [h.sound.looked_missed] at hl
  rw [hsound.looked_missed] at hl'
  have hhits := hcounted.hits
  have hacc := hcounted.accesses
  refine ⟨hacc, hmisses, ?_⟩
  omega

private def performCounted (b : Bench P) (k : Call) : Option (Bench P) :=
  (b.perform k).filter fun b' => b.cache.stats.accesses ≤ b'.cache.stats.accesses &&
    b.cache.stats.hits ≤ b'.cache.stats.hits && b.cache.stats.misses ≤ b'.cache.stats.misses

private theorem performCounted_plain (b : Bench P) (k : Call) (b' : Bench P)
    (h : performCounted b k = some b') : Plain b b' := by
  obtain ⟨hb, hle⟩ := Option.filter_eq_some_iff.mp h
  simp only [Bool.and_eq_true, decide_eq_true_eq] at hle
  obtain ⟨⟨hacc, hhits⟩, hmisses⟩ := hle
  refine ⟨⟨b.label k, perform_step hb⟩, fun hreset => ?_⟩
  rw [hreset] at hacc hhits hmisses ⊢
  have hacc' : b.cache.stats.accesses = 0 := Nat.le_zero.mp hacc
  have hhits' : b.cache.stats.hits = 0 := Nat.le_zero.mp hhits
  have hmisses' : b.cache.stats.misses = 0 := Nat.le_zero.mp hmisses
  change ({} : CacheStats) = b.cache.stats
  generalize b.cache.stats = s at hacc' hhits' hmisses'
  cases s
  simp only at hacc' hhits' hmisses'
  rw [hacc', hhits', hmisses']

private def firstBlock : List Call := [.read 0, .tick, .update, .tick, .update, .tick, .update]

/-- The counters are cleared while a block is on its way: it is answered, the same block is read
again, and a second block is looked up. -/
private def afterReset : List Call :=
  [.answer, .tick, .update, .read 0, .tick, .update, .tick, .update, .read 8, .tick, .update, .tick,
    .update]

theorem counters_agree_reset :
    let P := instCache 2 2 (by decide) lruReplPolicy
    ∃ b b' : Bench P, Reachable b ∧ ReflTransGen Plain b b' ∧
      b.cache.looked.length = 1 ∧ b'.cache.looked.length = 3 ∧
      b'.cache.stats.accesses = 2 ∧ b'.cache.stats.hits = 1 ∧ b'.cache.stats.misses = 1 := by
  intro P
  obtain ⟨b₀, hb₀, hx⟩ := Option.bind_eq_some_iff.mp (show
    (performAll (fun _ => true) ({} : Bench P) firstBlock).bind (fun b₀ =>
      let b := { b₀ with cache := b₀.cache.resetStats }
      (afterReset.foldlM performCounted b).map fun b' =>
        ((b.cache.looked.length, b.refills), b'.cache.looked.length, b'.refills)) =
      some ((1, 1), 3, 2) by decide +kernel)
  obtain ⟨b', hb', hx⟩ := Option.map_eq_some_iff.mp hx
  simp only [Prod.mk.injEq] at hx
  obtain ⟨⟨hlooked, hrefills⟩, hlooked', hrefills'⟩ := hx
  have hreach : Reachable { b₀ with cache := b₀.cache.resetStats } :=
    (reachable_of_performAll hb₀).tail ⟨_, .resetStats⟩
  have hrun := run_of_foldlM performCounted_plain hb'
  have hzero : b₀.cache.resetStats.stats = {} := rfl
  obtain ⟨hacc, hmisses, hhits⟩ := counters_agree hreach hrun
  rw [hlooked, hlooked', hzero] at hacc
  rw [hrefills, hrefills', hzero] at hmisses
  rw [hzero] at hhits
  refine ⟨_, b', hreach, hrun, hlooked, hlooked', ?_, ?_, ?_⟩ <;> dsimp only at * <;> omega

end Bench

end NpSim.Cache
