/- digest: Useful prefetches: the flag of a line against the history of the block that it holds. -/

import NpSim.Cache.Copies

set_option autoImplicit false
set_option relaxedAutoImplicit false

namespace NpSim.Cache

open NpSim.Lib.Partial Relation

namespace PipeCache

variable {P : CacheParams} {c c' : PipeCache P} {now : Nat}

/-- The flag of the line at a set and a way, as `access` reads it. -/
def marked (c : PipeCache P) (s w : Nat) : Bool :=
  (c.lines s w).isPrefetched && P.prefetcher.present

/-- The line that a lookup of `addr` hits. -/
def hitLine (addr : Addr) (c : PipeCache P) : Option LineRef :=
  (c.findWay (P.setIndexOf addr) (P.tagOf addr)).map fun w => ⟨P.setIndexOf addr, w⟩

/-- The line that the lookup of the tail entry hits, if it is looked up. -/
def tailHit (c : PipeCache P) : Option LineRef :=
  c.back.bind fun bk => if bk.line = none then c.hitLine bk.addr else none

/-- The line that the lookup of an update hits, if it makes one. -/
def updateHit (now : Nat) (c : PipeCache P) : Option LineRef :=
  if c.nextUpdate ≤ now then c.tailHit else none

/-- What a lookup adds to the counter. -/
def gain (hit : Option LineRef) (c : PipeCache P) : Nat :=
  match hit with
  | none => 0
  | some r => if c.marked r.set r.way then 1 else 0

/-- Between `c` and `c'` the line `hit` has been hit, and the block `new` of a line was brought in
by a prefetch. -/
structure Marking (hit new : Option LineRef) (c c' : PipeCache P) : Prop where
  useful : c'.prefetchUseful = c.prefetchUseful + gain hit c
  issued : c'.prefetchIssued = c.prefetchIssued + new.toList.length
  blocks : ∀ s w b, c'.held s w = some b →
    if new = some ⟨s, w⟩ then c.held s w ≠ some b ∧ c'.marked s w = true
    else c.held s w = some b ∧ c'.marked s w = (c.marked s w && decide (hit ≠ some ⟨s, w⟩))

theorem Marking.idle (hl : c'.lines = c.lines) (hu : c'.prefetchUseful = c.prefetchUseful)
    (hi : c'.prefetchIssued = c.prefetchIssued) : Marking none none c c' := by
  refine ⟨hu, hi, fun s w b hb => ?_⟩
  rw [if_neg (by simp)]
  unfold held marked at *
  rw [hl] at *
  exact ⟨hb, by simp⟩

theorem Marking.setLine {r : LineRef} {l : CacheLine}
    (hflag : l.isPrefetched = (c.line r).isPrefetched)
    (hheld : ∀ b, l.held = some b → (c.line r).held = some b) :
    Marking none none c (c.setLine r l) := by
  refine ⟨rfl, rfl, fun s w b hb => ?_⟩
  rw [if_neg (by simp)]
  unfold held marked at *
  rw [lines_setLine] at *
  split at hb
  · rename_i hslot
    rw [hslot.1, hslot.2, if_pos ⟨rfl, rfl⟩, hflag]
    exact ⟨hheld b hb, by simp [line]⟩
  · rename_i hslot
    rw [if_neg hslot]
    exact ⟨hb, by simp⟩

theorem Marking.trans_idle {d : PipeCache P} {hit new : Option LineRef} (h : Marking hit new c d)
    (h' : Marking none none d c') : Marking hit new c c' := by
  refine ⟨h'.useful.trans h.useful, h'.issued.trans h.issued, fun s w b hb => ?_⟩
  have hlast := h'.blocks s w b hb
  rw [if_neg (by simp)] at hlast
  have hfirst := h.blocks s w b hlast.1
  have hmark : c'.marked s w = d.marked s w := by
    rw [hlast.2]
    simp
  rw [hmark]
  exact hfirst

theorem Marking.after_idle {d : PipeCache P} {hit new : Option LineRef} (h : Marking hit new d c')
    (hl : d.lines = c.lines) (hu : d.prefetchUseful = c.prefetchUseful)
    (hi : d.prefetchIssued = c.prefetchIssued) : Marking hit new c c' := by
  refine ⟨?_, ?_, ?_⟩
  · have hg : gain hit d = gain hit c := by
      unfold gain marked
      rw [hl]
    rw [h.useful, hu, hg]
  · rw [h.issued, hi]
  · have hb := h.blocks
    unfold held marked at *
    rw [hl] at hb
    exact hb

theorem Marking.before_idle {d : PipeCache P} {hit new : Option LineRef}
    (h : Marking hit new c d) (hl : c'.lines = d.lines)
    (hu : c'.prefetchUseful = d.prefetchUseful) (hi : c'.prefetchIssued = d.prefetchIssued) :
    Marking hit new c c' :=
  h.trans_idle (.idle hl hu hi)

theorem Marking.bring {d : PipeCache P} {hit new : Option LineRef} (h : Marking hit none c d)
    (h' : Marking none new d c') (hkeep : ∀ s w, d.held s w = c.held s w) :
    Marking hit new c c' := by
  refine ⟨h'.useful.trans h.useful, ?_, fun s w b hb => ?_⟩
  · rw [h'.issued, h.issued]
    rfl
  · have hlast := h'.blocks s w b hb
    by_cases hn : new = some ⟨s, w⟩
    · rw [if_pos hn] at hlast ⊢
      rwa [hkeep] at hlast
    · rw [if_neg hn] at hlast ⊢
      have hfirst := h.blocks s w b hlast.1
      rw [if_neg (by simp)] at hfirst
      refine ⟨hfirst.1, ?_⟩
      rw [hlast.2, hfirst.2]
      simp

theorem noteLag_lines (si : Nat) (c : PipeCache P) : (c.noteLag si).lines = c.lines ∧
    (c.noteLag si).prefetchUseful = c.prefetchUseful ∧
    (c.noteLag si).prefetchIssued = c.prefetchIssued := by
  unfold noteLag
  split <;> exact ⟨rfl, rfl, rfl⟩

theorem Marking.hit {d : PipeCache P} {r : LineRef} {l : CacheLine} (hl : d.lines = c.lines)
    (hu : d.prefetchUseful = c.prefetchUseful + gain (some r) c)
    (hi : d.prefetchIssued = c.prefetchIssued)
    (hflag : (l.isPrefetched && P.prefetcher.present) = false)
    (hheld : l.held = (c.line r).held) : Marking (some r) none c (d.setLine r l) := by
  refine ⟨hu, hi, fun s w b hb => ?_⟩
  rw [if_neg (by simp)]
  unfold held marked at *
  rw [lines_setLine] at *
  split at hb
  · rename_i hslot
    rw [if_pos hslot, hflag, hslot.1, hslot.2]
    exact ⟨hheld.symm.trans hb, by simp⟩
  · rename_i hslot
    have hne : (some r : Option LineRef) ≠ some ⟨s, w⟩ := by
      rintro ⟨⟩
      exact hslot ⟨rfl, rfl⟩
    rw [if_neg hslot, hl, decide_eq_true hne, Bool.and_true]
    exact ⟨hl ▸ hb, rfl⟩

theorem accessHit_marking {r : LineRef} (h : c.accessHit now r = .ok c') :
    Marking (some r) none c c' := by
  obtain ⟨hl, hu, hi⟩ := noteLag_lines r.set c
  unfold accessHit at h
  dsimp only at h
  obtain ⟨⟨repl, stamp⟩, _, h⟩ := bind_eq_ok.mp h
  have hline : (c.noteLag r.set).line r = c.line r := by
    rw [line, line, hl]
  rw [hline, hu] at h
  have hgain : gain (some r) c =
      if ((c.line r).isPrefetched && P.prefetcher.present) = true then 1 else 0 := rfl
  cases hm : ((c.line r).isPrefetched && P.prefetcher.present) with
  | true =>
    rw [hm, if_pos rfl] at hgain
    rw [hm] at h
    cases h
    exact .hit hl (by rw [hgain]; rfl) hi rfl rfl
  | false =>
    rw [hm, if_neg Bool.false_ne_true] at hgain
    rw [hm] at h
    cases h
    exact .hit hl (by rw [hgain]; rfl) hi hm rfl

theorem accessMiss_marking {si : Nat} {r : LineRef} (h : c.accessMiss si = .ok (r, c')) :
    Marking none none c c' := by
  unfold accessMiss at h
  dsimp only at h
  obtain ⟨w, _, h⟩ := bind_eq_ok.mp h
  cases h
  obtain ⟨hl, hu, hi⟩ := noteLag_lines si
    ({ c with stats := { c.stats with misses := c.stats.misses + 1 } } : PipeCache P)
  refine Marking.after_idle (d := PipeCache.noteLag si _) (.setLine rfl fun b hb => ?_) hl hu hi
  cases hb

theorem access_marking {addr : Addr} {r : LineRef} (h : c.access now addr = .ok (r, c')) :
    Marking (c.hitLine addr) none c c' := by
  unfold access at h
  dsimp only at h
  unfold hitLine
  cases hw : c.findWay (P.setIndexOf addr) (P.tagOf addr) with
  | some w =>
    rw [show PipeCache.findWay { c with stats := { c.stats with accesses := c.stats.accesses + 1 } }
      (P.setIndexOf addr) (P.tagOf addr) = some w from hw] at h
    obtain ⟨d, hd, h⟩ := bind_eq_ok.mp h
    cases h
    exact (accessHit_marking hd).after_idle rfl rfl rfl
  | none =>
    rw [show PipeCache.findWay { c with stats := { c.stats with accesses := c.stats.accesses + 1 } }
      (P.setIndexOf addr) (P.tagOf addr) = none from hw] at h
    have hmiss : PipeCache.accessMiss _ _ = _ := h
    exact (accessMiss_marking hmiss).after_idle rfl rfl rfl

theorem accessTail_marking {bk bk' : CachePipeEntry} (h : c.accessTail now bk = .ok (bk', c')) :
    Marking (c.hitLine bk.addr) none c c' := by
  unfold accessTail at h
  obtain ⟨d, hd, h⟩ := bind_eq_ok.mp h
  obtain ⟨_, _, _, _, rfl, _⟩ := saveEvictInfo_cases hd
  obtain ⟨⟨r, e⟩, he, h⟩ := bind_eq_ok.mp h
  cases h
  exact .after_idle ((access_marking he).before_idle rfl rfl rfl) rfl rfl rfl

theorem handleHit_marking {bk : CachePipeEntry} {r : LineRef} {outs : List CacheOut}
    (h : c.handleHit now bk r = .ok (c', outs)) : Marking none none c c' := by
  have hrespond : ∀ (t : CpuTrans) (d : PipeCache P), Marking none none d (d.respond now t).1 := by
    intro t d
    unfold respond
    split <;> exact .idle rfl rfl rfl
  unfold handleHit at h
  dsimp only at h
  split at h
  · obtain ⟨dt, _, h⟩ := bind_eq_ok.mp h
    have := hrespond ⟨bk.addr, dt, P.cacheId, .read⟩ { c with blockedUntil := now + 1 }
    rw [Except.ok.inj h] at this
    exact this.after_idle rfl rfl rfl
  · rw [show c' = _ from (congrArg Prod.fst (Except.ok.inj h)).symm]
    have hset : Marking none none { c with blockedUntil := now + 1 }
        (({ c with blockedUntil := now + 1 } : PipeCache P).setLine r (c.line r).setDirty) :=
      .setLine rfl fun b hb => hb
    exact (hset.trans_idle (hrespond _ _)).after_idle rfl rfl rfl

theorem findWay_isSome {si w : Nat} {tag : Addr} (hw : w < P.assoc)
    (hheld : (c.lines si w).held = some tag) : (c.findWay si tag).isSome = true := by
  unfold CacheLine.held at hheld
  split at hheld
  · rename_i hv
    unfold findWay
    rw [List.find?_isSome]
    refine ⟨w, List.mem_range.mpr hw, ?_⟩
    rw [hv, Option.some.inj hheld]
    simp
  · cases hheld

theorem handlePrefetch_marking {addr : Addr} {isHit : Bool}
    (h : c.handlePrefetch now addr isHit = .ok c') : ∃ new, Marking none new c c' := by
  unfold handlePrefetch at h
  split at h
  · cases h
    exact ⟨none, .idle rfl rfl rfl⟩
  · rename_i hp
    dsimp only at h
    split at h
    · cases h
      exact ⟨none, .idle rfl rfl rfl⟩
    · rename_i paddr hprobe
      split at h
      · cases h
        exact ⟨none, .idle rfl rfl rfl⟩
      · rename_i hfind
        obtain ⟨way, hway, h⟩ := bind_eq_ok.mp h
        obtain ⟨⟨repl, stamp⟩, _, h⟩ := bind_eq_ok.mp h
        cases h
        have hlt : way < P.assoc := selectVictim_lt hway
        refine ⟨some ⟨P.setIndexOf paddr, way⟩, rfl, rfl, fun s w b hb => ?_⟩
        unfold held marked at *
        rw [lines_setLine] at *
        by_cases hslot : s = P.setIndexOf paddr ∧ w = way
        · rw [hslot.1, hslot.2, if_pos rfl, if_pos ⟨rfl, rfl⟩]
          rw [if_pos hslot] at hb
          have hb' : some (P.tagOf paddr) = some b := hb
          refine ⟨fun hold => hfind ?_, by simpa using hp⟩
          rw [← hb'] at hold
          exact findWay_isSome hlt hold
        · have hne : (some ⟨P.setIndexOf paddr, way⟩ : Option LineRef) ≠ some ⟨s, w⟩ := by
            rintro ⟨⟩
            exact hslot ⟨rfl, rfl⟩
          rw [if_neg hne, if_neg hslot]
          rw [if_neg hslot] at hb
          exact ⟨hb, by simp⟩

theorem prefetchAfter_marking {bk : CachePipeEntry} {wasMiss : Bool}
    (h : c.prefetchAfter now bk wasMiss = .ok c') : ∃ new, Marking none new c c' := by
  unfold prefetchAfter at h
  split at h
  · exact handlePrefetch_marking h
  · cases h
    exact ⟨none, .idle rfl rfl rfl⟩

theorem finishUpdate_marking {outs : List CacheOut} (h : c.finishUpdate now = .ok (c', outs)) :
    Marking none none c c' := by
  unfold finishUpdate at h
  split at h
  · cases h
    refine ⟨rfl, rfl, fun s w b hb => ?_⟩
    have hnone : (c.handleFlush now).held s w = none := CacheLine.held_of_invalid rfl
    rw [hnone] at hb
    cases hb
  · dsimp only at h
    split at h
    · split at h
      · rename_i bk _ hlook
        obtain ⟨⟨bk', d⟩, hd, h⟩ := bind_eq_ok.mp h
        cases h
        have hm := accessTail_marking hd
        have hhit : PipeCache.hitLine bk.addr
            ({ c with pipe := none :: c.pipe.dropLast } : PipeCache P) = none := by
          unfold hitLine
          have hp := hlook.2
          unfold probe at hp
          rw [Option.isNone_iff_eq_none.mp (Option.isSome_eq_false_iff.mp hp)]
          rfl
        rw [hhit] at hm
        exact .after_idle (hm.before_idle rfl rfl rfl) rfl rfl rfl
      · cases h
        exact .idle rfl rfl rfl
    · cases h
      exact .idle rfl rfl rfl

theorem missUpdate_marking (now : Nat) (bk : CachePipeEntry) (c : PipeCache P) :
    Marking none none c (c.missUpdate now bk).1 := by
  unfold missUpdate
  split
  · exact .idle rfl rfl rfl
  · split
    · split <;> exact .idle rfl rfl rfl
    · split <;> exact .idle rfl rfl rfl

theorem serve_marking {outs : List CacheOut} (h : c.serve now = .ok (c', outs)) :
    ∃ new, Marking c.tailHit new c c' := by
  unfold PipeCache.serve at h
  unfold tailHit
  cases hb : c.back with
  | none =>
    rw [hb] at h
    exact ⟨none, finishUpdate_marking h⟩
  | some bk₀ =>
    rw [hb] at h
    dsimp only at h
    unfold serveTail at h
    obtain ⟨⟨bk, e⟩, hlook, h⟩ := bind_eq_ok.mp h
    dsimp only at h
    rw [Option.bind_some]
    have hlooked : Marking (if bk₀.line = none then c.hitLine bk₀.addr else none) none c e ∧
        ∀ r, bk.line = some r → (e.line r).valid = true → ∀ s w, e.held s w = c.held s w := by
      unfold lookTail at hlook
      split at hlook
      · rename_i hn
        rw [if_pos hn]
        refine ⟨accessTail_marking hlook, fun r hline hv => ?_⟩
        unfold PipeCache.accessTail at hlook
        obtain ⟨d, hd, hlook⟩ := bind_eq_ok.mp hlook
        obtain ⟨_, _, _, _, rfl, _⟩ := saveEvictInfo_cases hd
        obtain ⟨⟨r', e'⟩, he, hlook⟩ := bind_eq_ok.mp hlook
        cases hlook
        cases Option.some.inj hline
        rcases (access_looked he).held with ⟨_, hsame⟩ | ⟨hv', _⟩
        · exact hsame
        · exact absurd (hv.symm.trans hv') (by decide)
      · rename_i hn
        rw [if_neg hn]
        cases hlook
        exact ⟨.idle rfl rfl rfl, fun _ _ _ _ _ => rfl⟩
    obtain ⟨hm, hkeep⟩ := hlooked
    cases hline : bk.line with
    | none =>
      rw [hline] at h
      cases h
    | some r =>
      rw [hline] at h
      dsimp only at h
      obtain ⟨_, h⟩ := require_bind_eq_ok.mp h
      split at h
      · rename_i hv
        unfold hitUpdate at h
        obtain ⟨⟨d, resp⟩, hd, h⟩ := bind_eq_ok.mp h
        obtain ⟨f, hf, h⟩ := bind_eq_ok.mp h
        obtain ⟨⟨k, o⟩, hk, h⟩ := bind_eq_ok.mp h
        cases h
        obtain ⟨new, hpre⟩ := prefetchAfter_marking hf
        refine ⟨new, ?_⟩
        have hlast : Marking none none f c' :=
          (finishUpdate_marking hk).after_idle rfl rfl rfl
        have hhit := (handleHit_marking hd).after_idle (c := e) rfl rfl rfl
        refine ((hm.trans_idle hhit).bring hpre fun s w => ?_).trans_idle hlast
        rw [handleHit_held hd]
        exact hkeep r hline hv s w
      · have hmiss := missUpdate_marking now bk { e with isReplay := false }
        rw [Except.ok.inj h] at hmiss
        exact ⟨none, hm.trans_idle (hmiss.after_idle rfl rfl rfl)⟩

theorem doUpdate_marking {outs : List CacheOut} (h : c.doUpdate now = .ok (c', outs)) :
    ∃ new, Marking (c.updateHit now) new c c' := by
  unfold updateHit
  rcases doUpdate_cases h with ⟨hnot, rfl, rfl⟩ | ⟨hdue, o, hd, rfl⟩
  · rw [if_neg hnot]
    exact ⟨none, .idle rfl rfl rfl⟩
  · rw [if_pos hdue]
    obtain ⟨new, hm⟩ := serve_marking hd
    refine ⟨new, ?_⟩
    have hsame : (c.deliverDeferred now).1.tailHit = c.tailHit ∧
        (c.deliverDeferred now).1.lines = c.lines ∧
        (c.deliverDeferred now).1.prefetchUseful = c.prefetchUseful ∧
        (c.deliverDeferred now).1.prefetchIssued = c.prefetchIssued := by
      unfold PipeCache.deliverDeferred
      split <;> exact ⟨rfl, rfl, rfl, rfl⟩
    have := hm.after_idle hsame.2.1 hsame.2.2.1 hsame.2.2.2
    rwa [hsame.1] at this

theorem writeThrough_marking {addr : Addr} {data : Word} {mask : BitVec 8} {outs : List CacheOut}
    (h : c.writeThrough now addr data mask = .ok (c', outs)) :
    Marking (c.hitLine addr) none c c' := by
  unfold PipeCache.writeThrough at h
  dsimp only at h
  split at h
  · obtain ⟨⟨r, e⟩, he, h⟩ := bind_eq_ok.mp h
    have hm := access_marking he
    dsimp only at h
    split at h
    · obtain ⟨x, _, h⟩ := bind_eq_ok.mp h
      obtain ⟨d, hd, h⟩ := bind_eq_ok.mp h
      cases hd
      cases h
      have hset : ∀ ws, Marking none none e (e.setLine r { e.line r with data := ws }) :=
        fun ws => .setLine rfl fun b hb => hb
      exact (hm.trans_idle (hset _)).before_idle rfl rfl rfl
    · obtain ⟨d, hd, h⟩ := bind_eq_ok.mp h
      cases hd
      cases h
      exact hm.before_idle rfl rfl rfl
  · rename_i hp
    obtain ⟨d, hd, h⟩ := bind_eq_ok.mp h
    cases hd
    cases h
    have hnone : c.hitLine addr = none := by
      unfold probe at hp
      unfold hitLine
      rw [Option.not_isSome_iff_eq_none.mp hp]
      rfl
    rw [hnone]
    exact .idle rfl rfl rfl

/-- An answer of memory touches no flag and no counter, and brings a block into the line of the tail
entry only. -/
theorem recvMemResp_marks {m : MemTrans} (h : c.recvMemResp now m = .ok c') :
    c'.prefetchUseful = c.prefetchUseful ∧ c'.prefetchIssued = c.prefetchIssued ∧
      (∀ s w, c'.marked s w = c.marked s w) ∧
      ∀ s w, c'.held s w ≠ c.held s w → c.rWaiting = true ∧ c'.rWaiting = false ∧
        ∃ bk, c.back = some bk ∧ bk.line = some ⟨s, w⟩ := by
  rcases recvMemResp_cases h with ⟨_, hr, bk, r, _, _, hbk, hline, _, rfl⟩ | ⟨_, _, rfl⟩
  · refine ⟨rfl, rfl, fun s w => ?_, fun s w hne => ⟨hr, rfl, bk, hbk, ?_⟩⟩
    · unfold marked
      dsimp only
      rw [lines_setLine]
      split
      · rename_i hslot
        rw [hslot.1, hslot.2]
        rfl
      · rfl
    · unfold held at hne
      dsimp only at hne
      rw [lines_setLine] at hne
      split at hne
      · rename_i hslot
        rw [hline, hslot.1, hslot.2]
      · exact absurd rfl hne
  · exact ⟨rfl, rfl, fun _ _ => rfl, fun _ _ hne => absurd rfl hne⟩

end PipeCache

/-- A cache with the history of its prefetches. The prefetch with number `i` is the one that made
`prefetch_issued` go from `i` to `i + 1`. -/
structure Credited (P : CacheParams) where
  bench : Bench P := {}
  /-- the prefetch that brought in the block of a line, as long as the block has not been hit -/
  credit : Nat → Nat → Option Nat := fun _ _ => none
  /-- the prefetches whose blocks have been hit -/
  useful : List Nat := []

namespace Credited

variable {P : CacheParams}

/-- After a call that hits the line `hit`: a block that has been brought in belongs to the prefetch
`brought`, or to none; a block that has been hit has no credit any more. -/
def next (s : Credited P) (b : Bench P) (hit : Option LineRef) (brought : Option Nat) :
    Credited P where
  bench := b
  credit := fun i w =>
    if b.cache.held i w = s.bench.cache.held i w then
      if hit = some ⟨i, w⟩ then none else s.credit i w
    else if b.cache.held i w = none then none else brought
  useful := s.useful ++ (hit.bind fun r => s.credit r.set r.way).toList

inductive Step (s : Credited P) : Credited P → Prop
  | update {b : Bench P} (h : Bench.Step s.bench .update b) :
      Step s (s.next b (s.bench.cache.updateHit s.bench.now) (some s.bench.cache.prefetchIssued))
  | write {c' : PipeCache P} {outs : List CacheOut} (addr : Addr) (data : Word) (mask : BitVec 8)
      (hwt : P.writeBack = false)
      (h : s.bench.cache.writeReq s.bench.now addr data mask = .ok (c', outs)) :
      Step s (s.next { s.bench with
        cache := c'
        accepted := s.bench.accepted ++ [(addr, .write)]
        sent := s.bench.sent ++ outs
        outstanding := s.bench.outstanding ++ requests outs } (s.bench.cache.hitLine addr) none)
  | call {b : Bench P} {l : Bench.Label} (hl : l ≠ .update) (h : Bench.Step s.bench l b) :
      Step s (s.next b none none)

/-- If the refill of a demand miss arrives, its line has no flag set. -/
def Clean (s s' : Credited P) : Prop :=
  s.bench.cache.rWaiting = true → s'.bench.cache.rWaiting = false →
    ∀ bk r, s.bench.cache.back = some bk → bk.line = some r →
      s.bench.cache.marked r.set r.way = false

def Reachable (s : Credited P) : Prop := ReflTransGen Step {} s

def CleanReachable (s : Credited P) : Prop :=
  ReflTransGen (fun s s' => Step s s' ∧ Clean s s') {} s

/-- The numbers: each prefetch has credit with one line at most, and not after it was useful. -/
structure Numbered (s : Credited P) : Prop where
  credit : ∀ i w n, s.credit i w = some n → n < s.bench.cache.prefetchIssued ∧ n ∉ s.useful
  single : ∀ i w i' w' n, s.credit i w = some n → s.credit i' w' = some n → i = i' ∧ w = w'
  useful : s.useful.Nodup
  issued : ∀ n ∈ s.useful, n < s.bench.cache.prefetchIssued

theorem numbered_init : Numbered ({} : Credited P) :=
  ⟨nofun, nofun, List.nodup_nil, nofun⟩

/-- The line whose block has come in, and to whom it belongs. -/
theorem next_credit {s : Credited P} {b : Bench P} {hit : Option LineRef} {brought : Option Nat}
    {i w n : Nat} (h : (s.next b hit brought).credit i w = some n) :
    (b.cache.held i w = s.bench.cache.held i w ∧ hit ≠ some ⟨i, w⟩ ∧ s.credit i w = some n) ∨
      (b.cache.held i w ≠ s.bench.cache.held i w ∧ b.cache.held i w ≠ none ∧ brought = some n) := by
  change (if b.cache.held i w = s.bench.cache.held i w then
      if hit = some ⟨i, w⟩ then none else s.credit i w
    else if b.cache.held i w = none then none else brought) = some n at h
  split at h
  · rename_i hsame
    split at h
    · cases h
    · rename_i hne
      exact .inl ⟨hsame, hne, h⟩
  · rename_i hchange
    split at h
    · cases h
    · rename_i hsome
      exact .inr ⟨hchange, hsome, h⟩

/-- A call keeps the numbers if it brings in one block at most, under the next number. -/
theorem Numbered.next {s : Credited P} {b : Bench P} {hit : Option LineRef} {brought : Option Nat}
    (h : Numbered s) (hissued : s.bench.cache.prefetchIssued ≤ b.cache.prefetchIssued)
    (hbrought : ∀ n i w, brought = some n → b.cache.held i w ≠ s.bench.cache.held i w →
      b.cache.held i w ≠ none →
        n = s.bench.cache.prefetchIssued ∧ n < b.cache.prefetchIssued ∧
        ∀ i' w', b.cache.held i' w' ≠ s.bench.cache.held i' w' → b.cache.held i' w' ≠ none →
          i' = i ∧ w' = w) : Numbered (s.next b hit brought) := by
  have hhit : ∀ n ∈ (hit.bind fun r => s.credit r.set r.way).toList,
      ∃ r, hit = some r ∧ s.credit r.set r.way = some n := by
    intro n hn
    exact Option.bind_eq_some_iff.mp (Option.mem_toList.mp hn)
  refine ⟨fun i w n hn => ?_, fun i w i' w' n hn hn' => ?_, ?_, fun n hn => ?_⟩
  · rcases next_credit hn with ⟨_, hne, hold⟩ | ⟨hchange, hsome, hnew⟩
    · obtain ⟨hlt, hfresh⟩ := h.credit i w n hold
      refine ⟨hlt.trans_le hissued, fun hmem => ?_⟩
      rcases List.mem_append.mp hmem with hmem | hmem
      · exact hfresh hmem
      · obtain ⟨r, hr, hcred⟩ := hhit n hmem
        obtain ⟨hset, hway⟩ := h.single _ _ _ _ _ hold hcred
        rw [hset, hway] at hne
        exact hne hr
    · obtain ⟨heq, hlt, _⟩ := hbrought n i w hnew hchange hsome
      refine ⟨hlt, fun hmem => ?_⟩
      rcases List.mem_append.mp hmem with hmem | hmem
      · exact absurd (h.issued n hmem) (heq ▸ lt_irrefl _)
      · obtain ⟨r, _, hcred⟩ := hhit n hmem
        exact absurd (h.credit _ _ _ hcred).1 (heq ▸ lt_irrefl _)
  · rcases next_credit hn with ⟨_, _, hold⟩ | ⟨hchange, hsome, hnew⟩
    · rcases next_credit hn' with ⟨_, _, hold'⟩ | ⟨hchange', hsome', hnew'⟩
      · exact h.single _ _ _ _ _ hold hold'
      · have heq := (hbrought n i' w' hnew' hchange' hsome').1
        exact absurd (h.credit _ _ _ hold).1 (heq ▸ lt_irrefl _)
    · rcases next_credit hn' with ⟨_, _, hold'⟩ | ⟨hchange', hsome', _⟩
      · have heq := (hbrought n i w hnew hchange hsome).1
        exact absurd (h.credit _ _ _ hold').1 (heq ▸ lt_irrefl _)
      · obtain ⟨_, _, hone⟩ := hbrought n i w hnew hchange hsome
        obtain ⟨hi, hw⟩ := hone i' w' hchange' hsome'
        exact ⟨hi.symm, hw.symm⟩
  · refine List.nodup_append.mpr ⟨h.useful, ?_, fun n hn m hm heq => ?_⟩
    · cases hit.bind fun r => s.credit r.set r.way with
      | none => exact List.nodup_nil
      | some m => exact List.nodup_cons.mpr ⟨List.not_mem_nil, List.nodup_nil⟩
    · obtain ⟨r, _, hcred⟩ := hhit m hm
      exact (h.credit _ _ _ hcred).2 (heq ▸ hn)
  · rcases List.mem_append.mp hn with hn | hn
    · exact (h.issued n hn).trans_le hissued
    · obtain ⟨r, _, hcred⟩ := hhit n hn
      exact (h.credit _ _ _ hcred).1.trans_le hissued

/-- The counter and the flags are those of the history. -/
structure Faithful (s : Credited P) : Prop where
  count : s.bench.cache.prefetchUseful = s.useful.length
  flags : ∀ i w, s.bench.cache.held i w ≠ none →
    s.bench.cache.marked i w = (s.credit i w).isSome

theorem faithful_init : Faithful ({} : Credited P) :=
  ⟨rfl, fun _ _ h => absurd rfl h⟩

theorem held_of_hitLine {c : PipeCache P} {addr : Addr} {r : LineRef}
    (h : c.hitLine addr = some r) : c.held r.set r.way ≠ none := by
  unfold PipeCache.hitLine at h
  obtain ⟨w, hw, rfl⟩ := Option.map_eq_some_iff.mp h
  obtain ⟨_, hv, _⟩ := PipeCache.findWay_some hw
  change (c.lines _ w).held ≠ none
  rw [CacheLine.held_of_valid hv]
  exact Option.some_ne_none _

theorem held_of_updateHit {c : PipeCache P} {now : Nat} {r : LineRef}
    (h : c.updateHit now = some r) : c.held r.set r.way ≠ none := by
  unfold PipeCache.updateHit at h
  split at h
  · unfold PipeCache.tailHit at h
    obtain ⟨bk, _, h⟩ := Option.bind_eq_some_iff.mp h
    split at h
    · exact held_of_hitLine h
    · cases h
  · cases h

/-- A call that hits a line, and brings in a block by a prefetch only. -/
theorem Faithful.next {s : Credited P} {b : Bench P} {hit new : Option LineRef}
    {brought : Option Nat} (h : Faithful s)
    (hm : PipeCache.Marking hit new s.bench.cache b.cache)
    (hhit : ∀ r, hit = some r → s.bench.cache.held r.set r.way ≠ none)
    (hnew : new ≠ none → brought.isSome) : Faithful (s.next b hit brought) := by
  refine ⟨?_, fun i w hsome => ?_⟩
  · change b.cache.prefetchUseful = (s.useful ++ _).length
    rw [hm.useful, List.length_append, h.count]
    congr 1
    cases hr : hit with
    | none => rfl
    | some r =>
      have hflag := h.flags r.set r.way (hhit r hr)
      change (if s.bench.cache.marked r.set r.way then 1 else 0) = (s.credit _ _).toList.length
      rw [hflag]
      cases s.credit r.set r.way <;> rfl
  · change b.cache.held i w ≠ none at hsome
    obtain ⟨blk, hblk⟩ := Option.ne_none_iff_exists'.mp hsome
    have hb := hm.blocks i w blk hblk
    change b.cache.marked i w = (if b.cache.held i w = s.bench.cache.held i w then
        if hit = some ⟨i, w⟩ then none else s.credit i w
      else if b.cache.held i w = none then none else brought).isSome
    by_cases hn : new = some ⟨i, w⟩
    · rw [if_pos hn] at hb
      have hchange : b.cache.held i w ≠ s.bench.cache.held i w := by
        intro heq
        exact hb.1 (heq.symm.trans hblk)
      rw [if_neg hchange, if_neg hsome, hb.2, hnew (by rw [hn]; exact Option.some_ne_none _)]
    · rw [if_neg hn] at hb
      rw [if_pos (hblk.trans hb.1.symm), hb.2]
      by_cases hi : hit = some ⟨i, w⟩
      · rw [if_pos hi, hi]
        simp
      · rw [if_neg hi, h.flags i w (by rw [hb.1]; exact Option.some_ne_none _)]
        simp [hi]

theorem Faithful.fill {s : Credited P} {b : Bench P} (h : Faithful s)
    (huseful : b.cache.prefetchUseful = s.bench.cache.prefetchUseful)
    (hmark : ∀ i w, b.cache.marked i w = s.bench.cache.marked i w)
    (hclean : ∀ i w, b.cache.held i w ≠ s.bench.cache.held i w →
      s.bench.cache.marked i w = false) : Faithful (s.next b none none) := by
  refine ⟨?_, fun i w hsome => ?_⟩
  · change _ = (s.useful ++ []).length
    rw [List.append_nil]
    exact huseful.trans h.count
  · change b.cache.held i w ≠ none at hsome
    change b.cache.marked i w = (if b.cache.held i w = s.bench.cache.held i w then
        if (none : Option LineRef) = some ⟨i, w⟩ then none else s.credit i w
      else if b.cache.held i w = none then none else none).isSome
    rw [hmark]
    by_cases hsame : b.cache.held i w = s.bench.cache.held i w
    · rw [if_pos hsame, if_neg (by simp)]
      exact h.flags i w (hsame ▸ hsome)
    · rw [if_neg hsame, if_neg hsome]
      exact hclean i w hsame

theorem issued_of_marking {s : Credited P} {b : Bench P} {hit new : Option LineRef}
    (hm : PipeCache.Marking hit new s.bench.cache b.cache) :
    s.bench.cache.prefetchIssued ≤ b.cache.prefetchIssued := by
  rw [hm.issued]
  exact Nat.le_add_right _ _

theorem Numbered.next_none {s : Credited P} {b : Bench P} {hit : Option LineRef}
    (h : Numbered s) (hissued : s.bench.cache.prefetchIssued ≤ b.cache.prefetchIssued) :
    Numbered (s.next b hit none) :=
  h.next hissued nofun

theorem Numbered.update {s : Credited P} {b : Bench P} {hit new : Option LineRef}
    (h : Numbered s) (hm : PipeCache.Marking hit new s.bench.cache b.cache) :
    Numbered (s.next b hit (some s.bench.cache.prefetchIssued)) := by
  -- a line that gets a block gets the prefetched one
  have hnew : ∀ i w, b.cache.held i w ≠ s.bench.cache.held i w → b.cache.held i w ≠ none →
      new = some ⟨i, w⟩ := by
    intro i w hchange hsome
    obtain ⟨blk, hblk⟩ := Option.ne_none_iff_exists'.mp hsome
    have hb := hm.blocks i w blk hblk
    by_contra hn
    rw [if_neg hn] at hb
    exact hchange (hblk.trans hb.1.symm)
  refine h.next (issued_of_marking hm) fun n i w hn hchange hsome => ?_
  have hi := hnew i w hchange hsome
  refine ⟨(Option.some.inj hn).symm, ?_, fun i' w' hchange' hsome' => ?_⟩
  · rw [hm.issued, hi, ← Option.some.inj hn]
    exact Nat.lt_succ_self _
  · have hi' := hnew i' w' hchange' hsome'
    rw [hi] at hi'
    cases hi'
    exact ⟨rfl, rfl⟩

theorem call_lines {b b' : Bench P} {l : Bench.Label} (hl : l ≠ .update)
    (h : Bench.Step b l b') (hm : ∀ m, l ≠ .answer m) :
    PipeCache.Marking none none b.cache b'.cache := by
  have henq : ∀ {e : CachePipeEntry} {c' : PipeCache P}, b.cache.enqueue b.now e = .ok c' →
      PipeCache.Marking none none b.cache c' := by
    intro e c' hx
    obtain ⟨_, _, _, rfl⟩ := PipeCache.enqueue_eq_ok.mp hx
    exact .idle rfl rfl rfl
  cases h with
  | read addr hx => exact henq hx
  | write addr data mask hwb hx =>
    unfold PipeCache.writeReq at hx
    rw [if_pos hwb] at hx
    obtain ⟨d, hd, hx⟩ := bind_eq_ok.mp hx
    cases hx
    exact henq hd
  | update hx => exact absurd rfl hl
  | answer m data _ hx => exact absurd rfl (hm m)
  | flushAll => exact .idle rfl rfl rfl
  | resetStats => exact .idle rfl rfl rfl
  | tick => exact .idle rfl rfl rfl

theorem writeReq_marking {c c' : PipeCache P} {now : Nat} {addr : Addr} {data : Word}
    {mask : BitVec 8} {outs : List CacheOut} (hwt : P.writeBack = false)
    (h : c.writeReq now addr data mask = .ok (c', outs)) :
    PipeCache.Marking (c.hitLine addr) none c c' := by
  unfold PipeCache.writeReq at h
  rw [if_neg (by simp [hwt])] at h
  exact PipeCache.writeThrough_marking h

theorem Step.numbered {s s' : Credited P} (hs : Step s s') (h : Numbered s) : Numbered s' := by
  cases hs with
  | update hu =>
    cases hu with
    | update hx =>
      obtain ⟨new, hm⟩ := PipeCache.doUpdate_marking hx
      exact h.update hm
  | write addr data mask hwt hx => exact h.next_none (writeReq_marking hwt hx).issued.ge
  | @call b l hl hc =>
    refine h.next_none ?_
    by_cases hm : ∃ m, l = .answer m
    · obtain ⟨m, rfl⟩ := hm
      cases hc with
      | answer _ data _ hx => exact (PipeCache.recvMemResp_marks hx).2.1.ge
    · exact (call_lines hl hc fun m hlm => hm ⟨m, hlm⟩).issued.ge

theorem Step.faithful {s s' : Credited P} (hs : Step s s') (hc : Clean s s') (h : Faithful s) :
    Faithful s' := by
  cases hs with
  | update hu =>
    cases hu with
    | update hx =>
      obtain ⟨new, hm⟩ := PipeCache.doUpdate_marking hx
      exact h.next hm (fun r hr => held_of_updateHit hr) fun _ => rfl
  | write addr data mask hwt hx =>
    exact h.next (writeReq_marking hwt hx) (fun r hr => held_of_hitLine hr) fun hn => absurd rfl hn
  | @call b l hl hcall =>
    by_cases hm : ∃ m, l = .answer m
    · obtain ⟨m, rfl⟩ := hm
      cases hcall with
      | answer _ data _ hx =>
        obtain ⟨huseful, _, hmark, hfill⟩ := PipeCache.recvMemResp_marks hx
        refine h.fill huseful hmark fun i w hchange => ?_
        obtain ⟨hr, hr', bk, hbk, hline⟩ := hfill i w hchange
        exact hc hr hr' bk ⟨i, w⟩ hbk hline
    · exact h.next (call_lines hl hcall fun m hlm => hm ⟨m, hlm⟩) nofun fun hn => absurd rfl hn

/-- While no refill arrives for a line with its flag set, the counter counts the hits of blocks that
a prefetch has brought in and that have not been hit since, and each prefetch once. -/
theorem useful_counts {s : Credited P} (h : CleanReachable s) :
    s.bench.cache.prefetchUseful = s.useful.length ∧ s.useful.Nodup ∧
      (∀ n ∈ s.useful, n < s.bench.cache.prefetchIssued) ∧
      ∀ i w, s.bench.cache.held i w ≠ none →
        s.bench.cache.marked i w = (s.credit i w).isSome := by
  obtain ⟨hn, hf⟩ : Numbered s ∧ Faithful s :=
    invariant_of_run (I := fun s => Numbered s ∧ Faithful s)
      (fun _ _ hs h => ⟨hs.1.numbered h.1, hs.1.faithful hs.2 h.2⟩)
      ⟨numbered_init, faithful_init⟩ h
  exact ⟨hf.count, hn.useful, hn.issued, hf.flags⟩

def perform (s : Credited P) (k : Bench.Call) : Option (Credited P) :=
  (s.bench.perform k).map fun b =>
    if k = .update then
      s.next b (s.bench.cache.updateHit s.bench.now) (some s.bench.cache.prefetchIssued)
    else s.next b none none

theorem perform_step {s s' : Credited P} {k : Bench.Call} (h : s.perform k = some s') :
    Step s s' := by
  obtain ⟨b, hb, rfl⟩ := Option.map_eq_some_iff.mp h
  have hs := Bench.perform_step hb
  split
  · rename_i hk
    subst hk
    exact .update hs
  · rename_i hk
    refine .call (fun hl => ?_) hs
    cases k with
    | update => exact hk rfl
    | answer =>
      unfold Bench.label at hl
      dsimp only at hl
      cases hm : s.bench.outstanding.head? with
      | none =>
        rw [hm] at hl
        cases hl
      | some m =>
        rw [hm] at hl
        cases hl
    | read addr => cases hl
    | write addr => cases hl
    | flushAll => cases hl
    | tick => cases hl

def performAll (ok : Credited P → Bool) (s : Credited P) : List Bench.Call → Option (Credited P)
  | [] => some s
  | k :: ks => if ok s then (s.perform k).bind fun s' => performAll ok s' ks else none

theorem run_of_performAll {ok : Credited P → Bool} {s s' : Credited P} {ks : List Bench.Call}
    (h : performAll ok s ks = some s') :
    ReflTransGen (fun s s' => ok s = true ∧ Step s s') s s' := by
  induction ks generalizing s with
  | nil =>
    cases h
    exact .refl
  | cons k ks ih =>
    rw [performAll] at h
    split at h
    · rename_i hok
      obtain ⟨t, ht, h⟩ := Option.bind_eq_some_iff.mp h
      exact .head ⟨hok, perform_step ht⟩ (ih h)
    · cases h

def clean (s : Credited P) : Bool :=
  !s.bench.cache.rWaiting || !((s.bench.cache.back.bind (·.line)).elim false fun r =>
    s.bench.cache.marked r.set r.way)

theorem clean_of_check {s s' : Credited P} (h : clean s = true) : Clean s s' := by
  intro hr _ bk r hbk hline
  unfold clean at h
  rw [hr, hbk, Option.bind_some, hline] at h
  simpa using h

/-- A block is prefetched and read: its prefetch is counted. -/
theorem useful_counts_one : ∃ s : Credited (Bench.twoLines (taggedPrefetcher 4)),
    CleanReachable s ∧ s.useful = [0] ∧ s.bench.cache.prefetchUseful = 1 := by
  have hrun : (performAll clean ({} : Credited (Bench.twoLines (taggedPrefetcher 4)))
      [.read 0, .tick, .update, .tick, .update, .answer, .tick, .tick, .update, .read 4, .tick,
        .update]).map (·.useful) = some [0] := by
    decide +kernel
  obtain ⟨s, hs, huseful⟩ := Option.map_eq_some_iff.mp hrun
  have hclean : CleanReachable s := ReflTransGen.mono (fun _ _ h => ⟨h.2, clean_of_check h.1⟩) _ _
    (run_of_performAll hs)
  have hcount := (useful_counts hclean).1
  rw [huseful] at hcount
  exact ⟨s, hclean, huseful, hcount⟩

/-- A block is prefetched and driven out by a read that misses; a second read of the same word is
counted though no prefetched block has ever been hit. -/
theorem useful_counts_demand : ∃ s : Credited (Bench.twoLines (taggedPrefetcher 4)),
    Reachable s ∧ s.useful = [] ∧ s.bench.cache.prefetchUseful = 1 := by
  have hrun : (performAll (fun _ => true)
      ({} : Credited (Bench.twoLines (taggedPrefetcher 4)))
      [.read 0, .tick, .update, .tick, .update, .answer, .tick, .tick, .update, .read 12, .tick,
        .update, .tick, .update, .answer, .tick, .tick, .update, .read 12, .tick, .update]).map
        (fun s => (s.useful, s.bench.cache.prefetchUseful)) = some ([], 1) := by
    decide +kernel
  obtain ⟨s, hs, hx⟩ := Option.map_eq_some_iff.mp hrun
  obtain ⟨huseful, hcount⟩ := Prod.mk.inj hx
  exact ⟨s, ReflTransGen.mono (fun _ _ h => h.2) _ _ (run_of_performAll hs), huseful, hcount⟩

end Credited

end NpSim.Cache
