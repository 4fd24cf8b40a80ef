/- digest: The least recently used line: in a write-through cache that is updated once per tick the
   victim of a miss in a full set has been touched before every other line of the set. -/

import NpSim.Cache.Answers
import NpSim.Cache.Ranking
import NpSim.Cache.Steady

set_option autoImplicit false
set_option relaxedAutoImplicit false

namespace NpSim.Cache

open NpSim.Lib.Partial Relation

/-- The write-through cache without a prefetcher, under LRU. -/
def CacheParams.lru (P : CacheParams) : CacheParams :=
  CacheParams.withPolicy { P with writeBack := false, prefetcher := nullPrefetcher } lruReplPolicy

namespace PipeCache

variable {P : CacheParams} {now : Nat}

theorem accessTail_rank (hwb : P.writeBack = false) {c c' : PipeCache P}
    {bk bk' : CachePipeEntry} (h : c.accessTail now bk = .ok (bk', c')) :
    ∃ r, c'.back = some bk' ∧ bk'.line = some r ∧ r.way < P.assoc ∧
      ((c.line r).valid = true ∧ bk'.missed = false ∧ (∃ repl stamp,
          P.policy.onHit c.repl now r.set r.way (c.line r).stamp = .ok (repl, stamp) ∧
            c'.rank = mark c.rank r (some stamp)) ∨
        bk'.missed = true ∧ c'.rank = mark c.rank r none ∧
          ∃ w, c.missVictimWay r.set = .ok w ∧ r.way = w % P.assoc) := by
  unfold accessTail saveEvictInfo at h
  dsimp only at h
  rw [hwb, Bool.not_false, if_pos rfl, ok_bind] at h
  obtain ⟨⟨r, e⟩, he, h⟩ := bind_eq_ok.mp h
  cases h
  obtain ⟨_, hway, hcase⟩ := access_rank he
  have hback : (e.setBack (some { bk with
      line := some r, accesses := bk.accesses + 1, missed := !(e.line r).valid, examined := none
      found := some (c.line r) })).back = some { bk with
      line := some r, accesses := bk.accesses + 1, missed := !(e.line r).valid, examined := none
      found := some (c.line r) } := back_of_pipe rfl
  refine ⟨r, hback, rfl, hway, ?_⟩
  rcases hcase with ⟨_, hv, repl, stamp, hhit, hr⟩ | ⟨_, hr, hvic⟩
  · have hvalid : (e.line r).valid = true :=
      (valid_of_rank (congrFun₂ hr r.set r.way |>.trans (mark_self _ r _))).1
    refine .inl ⟨hv, ?_, repl, stamp, hhit, hr⟩
    dsimp only
    rw [hvalid]
    rfl
  · have hinvalid : (e.line r).valid = false :=
      rank_eq_none.mp (congrFun₂ hr r.set r.way |>.trans (mark_self _ r _))
    refine .inr ⟨?_, hr, hvic⟩
    dsimp only
    rw [hinvalid]
    rfl

theorem recvMemResp_rank {c c' : PipeCache P} {m : MemTrans} (hm : m.mop = .read)
    (h : c.recvMemResp now m = .ok c') : ∃ r repl stamp, c.back.bind (·.line) = some r ∧
      P.policy.onFill c.repl now r.set r.way now = .ok (repl, stamp) ∧
      c'.rank = mark c.rank r (some stamp) ∧
      (c'.rWaiting = false ∧ c'.pendingFillReq = c.pendingFillReq) ∧ now < c'.blockedUntil := by
  obtain ⟨_, bk, r, d, hb, hl, hd, rfl⟩ := (recvRead_eq_ok hm).mp h
  obtain ⟨repl, stamp, hfill, hr⟩ := handleFill_rank hd
  refine ⟨r, repl, stamp, ?_, hfill, hr, ?_, ?_⟩
  · rw [hb]
    exact hl
  · obtain ⟨_, _, _, _, rfl⟩ := handleFill_eq_ok.mp hd
    exact ⟨rfl, rfl⟩
  · dsimp only
    split
    · omega
    · split <;> omega

/-- What the end of an update leaves: all stamps, none, or those without the victim of a miss. -/
inductive Ends (c c' : PipeCache P) : Prop
  | keep (hfill : c'.pendingFillReq = true → c.pendingFillReq = true) (hr : c'.rank = c.rank)
  | clear (hfill : c'.pendingFillReq = false) (hr : ∀ s w, c'.rank s w = none)
  | take (e : CachePipeEntry) (r : LineRef) (w : Nat) (hb : c'.back = some e)
      (hl : e.line = some r) (hw : c.missVictimWay r.set = .ok w) (hway : r.way = w % P.assoc)
      (hr : c'.rank = mark c.rank r none)

theorem finishUpdate_ends (hwb : P.writeBack = false) {c c' : PipeCache P}
    {outs : List CacheOut} (hx : c.finishUpdate now = .ok (c', outs)) :
    Ends c c' ∧ c'.served = c.served ∧ (c'.rWaiting = true → c.rWaiting = true) := by
  unfold PipeCache.finishUpdate at hx
  split at hx
  · cases hx
    exact ⟨.clear rfl fun _ _ => rfl, rfl, fun h => by cases h⟩
  · dsimp only at hx
    split at hx
    · rename_i bk hbk
      split at hx
      · rename_i hlook
        obtain ⟨⟨bk', d⟩, hd, hx⟩ := bind_eq_ok.mp hx
        cases hx
        obtain ⟨r, hb, hl, _, hcase⟩ := accessTail_rank hwb hd
        obtain ⟨r', ht⟩ := accessTail_looked hd
        have hrr : r' = r := by
          have hl' := hl
          rw [ht.entry] at hl'
          exact Option.some.inj hl'
        subst hrr
        rcases hcase with ⟨_, hm, _⟩ | ⟨_, hr, w, hw, hway⟩
        · have hinv : (d.line r').valid = false := ht.probed hlook.2
          rw [ht.entry] at hm
          dsimp only at hm
          rw [hinv] at hm
          cases hm
        · exact ⟨.take bk' r' w hb hl hw hway hr, ht.served,
            fun h => ht.rWaiting.symm.trans h⟩
      · cases hx
        exact ⟨.keep id rfl, rfl, id⟩
    · cases hx
      exact ⟨.keep id rfl, rfl, id⟩

theorem handleHit_rank {c c' : PipeCache P} {bk : CachePipeEntry} {r : LineRef}
    {outs : List CacheOut} (h : c.handleHit now bk r = .ok (c', outs)) : c'.rank = c.rank := by
  have hrespond : ∀ (d : PipeCache P) (t : CpuTrans), (d.respond now t).1.rank = d.rank := by
    intro d t
    unfold respond
    split <;> rfl
  unfold handleHit at h
  dsimp only at h
  split at h
  · obtain ⟨dt, _, h⟩ := bind_eq_ok.mp h
    exact (congrArg rank (congrArg Prod.fst (Except.ok.inj h))).symm.trans (hrespond _ _)
  · refine (congrArg rank (congrArg Prod.fst (Except.ok.inj h))).symm.trans
      ((hrespond _ _).trans ?_)
    funext s w
    unfold rank
    rw [lines_setLine]
    split
    · rename_i hx
      rw [hx.1, hx.2]
      rfl
    · rfl

/-- The lines that the entries answered between `c` and `c'` have hit. -/
def hitLines (c c' : PipeCache P) : List LineRef :=
  (c'.served.drop c.served.length).filterMap fun e => if e.missed then none else e.line

theorem hitLines_of_served {c c' : PipeCache P} {l : List CachePipeEntry}
    (h : c'.served = c.served ++ l) :
    c.hitLines c' = l.filterMap fun e => if e.missed then none else e.line := by
  rw [hitLines, h, List.drop_left]

/-- An update: it stamps the line that it hits, and then comes to its end. -/
structure Renews (now : Nat) (c c' : PipeCache P) : Prop where
  ends : ∃ d, Ends d c' ∧ d.pendingFillReq = c.pendingFillReq ∧
    (c.hitLines c' = [] ∧ d.rank = c.rank ∨ ∃ r, c.hitLines c' = [r] ∧ (c.line r).valid = true ∧
      ∃ repl stamp, P.policy.onHit c.repl now r.set r.way (c.line r).stamp = .ok (repl, stamp) ∧
        d.rank = mark c.rank r (some stamp))
  waits : c'.rWaiting = true → c.hitLines c' = []

private theorem missUpdate_renews {c c' : PipeCache P} {bk : CachePipeEntry} {outs : List CacheOut}
    (hfill : c.pendingFillReq = true) (h : (c', outs) = c.missUpdate now bk) :
    c'.served = c.served ∧ c'.rank = c.rank ∧
      (c'.pendingFillReq = true → c.pendingFillReq = true) := by
  refine and_assoc.mp ⟨?_, fun _ => hfill⟩
  unfold missUpdate at h
  rw [hfill, Bool.not_true, if_neg Bool.false_ne_true] at h
  split at h
  · split at h
    · cases h
      exact ⟨rfl, rfl⟩
    · cases h
      exact ⟨rfl, rfl⟩
  · split at h
    · cases h
      exact ⟨rfl, rfl⟩
    · cases h
      exact ⟨rfl, rfl⟩

/-- What a lookup has done to the stamps when its entry is about to be answered. -/
def Stamped (now : Nat) (c : PipeCache P) (bk : CachePipeEntry) (e : PipeCache P) : Prop :=
  bk.missed = true ∧ e.rank = c.rank ∨
    bk.missed = false ∧ ∃ r, bk.line = some r ∧ (c.line r).valid = true ∧
      ∃ repl stamp, P.policy.onHit c.repl now r.set r.way (c.line r).stamp = .ok (repl, stamp) ∧
        e.rank = mark c.rank r (some stamp)

private theorem hitUpdate_renews (hwb : P.writeBack = false) (hp : P.prefetcher.present = false)
    {c c' e : PipeCache P} {bk : CachePipeEntry} {r : LineRef} {b : Bool} {outs : List CacheOut}
    (hs : e.served = c.served) (hfill : e.pendingFillReq = c.pendingFillReq)
    (hwait : e.rWaiting = false) (hv : (e.line r).valid = true) (hst : Stamped now c bk e)
    (hx : e.hitUpdate now bk r b = .ok (c', outs)) : Renews now c c' := by
  unfold PipeCache.hitUpdate at hx
  obtain ⟨⟨d, resp⟩, hd, hx⟩ := bind_eq_ok.mp hx
  obtain ⟨f, hf, hx⟩ := bind_eq_ok.mp hx
  obtain ⟨⟨k, o⟩, hk, hx⟩ := bind_eq_ok.mp hx
  cases hx
  obtain rfl := prefetchAfter_none hp hf
  have hhit := handleHit_cases hv hd
  obtain ⟨hends, hserved, hwaits⟩ := finishUpdate_ends hwb hk
  have hs' : c'.served = c.served ++ [bk] := by
    refine hserved.trans ?_
    change f.served ++ [bk] = _
    rw [hhit.served, hs]
  have hrank : (f.retire bk).rank = e.rank := (handleHit_rank hd : f.rank = e.rank)
  refine ⟨⟨f.retire bk, hends, hhit.pendingFillReq.trans hfill, ?_⟩, fun ht => ?_⟩
  · rw [hrank, hitLines_of_served hs', List.filterMap_cons, List.filterMap_nil]
    rcases hst with ⟨hm, hsame⟩ | ⟨hm, r', hl, hcv, hmark⟩
    · rw [hm, if_pos rfl]
      exact .inl ⟨rfl, hsame⟩
    · rw [hm, if_neg Bool.false_ne_true, hl]
      exact .inr ⟨r', rfl, hcv, hmark⟩
  · have hrw : f.rWaiting = true := hwaits ht
    rw [hhit.rWaiting, hwait] at hrw
    cases hrw

theorem WellFormed.serve_renews (hwb : P.writeBack = false)
    (hp : P.prefetcher.present = false) {c c' : PipeCache P} {outs : List CacheOut}
    (h : WellFormed c) (hx : c.serve now = .ok (c', outs)) :
    c.rWaiting = false ∧ Renews now c c' := by
  have hsame : ∀ {d : PipeCache P}, d.served = c.served → c.hitLines d = [] := fun hs =>
    hitLines_of_served (l := []) (hs.trans (List.append_nil _).symm)
  cases h.tail with
  | empty hb hq =>
    unfold PipeCache.serve at hx
    rw [hb] at hx
    obtain ⟨hends, hserved, _⟩ := finishUpdate_ends hwb hx
    exact ⟨hq.rWaiting, ⟨c, hends, rfl, .inl ⟨hsame hserved, rfl⟩⟩, fun _ => hsame hserved⟩
  | fresh bk hb hf hq =>
    have hlook : c.lookTail now bk = c.accessTail now bk := if_pos hf.1
    have hacc : ∃ p, c.accessTail now bk = .ok p := by
      unfold PipeCache.serve serveTail at hx
      rw [hb] at hx
      dsimp only at hx
      rw [hlook] at hx
      obtain ⟨p, hp, _⟩ := bind_eq_ok.mp hx
      exact ⟨p, hp⟩
    obtain ⟨⟨bk', e⟩, hacc⟩ := hacc
    obtain ⟨r', ht⟩ := accessTail_looked hacc
    obtain ⟨r, hback, hline, _, hcase⟩ := accessTail_rank hwb hacc
    obtain ⟨_, hx⟩ := serve_some hb (hlook.trans hacc) hline hx
    refine ⟨hq.rWaiting, ?_⟩
    rcases hcase with ⟨hcv, hm, repl, stamp, hhit, hrank⟩ | ⟨hm, hrank, w, hw, hway⟩
    · have hv := (valid_of_rank (congrFun₂ hrank r.set r.way |>.trans (mark_self _ r _))).1
      rw [if_pos (show (e.line r).valid = true from hv)] at hx
      exact hitUpdate_renews (e := { e with isReplay := false }) hwb hp ht.served
        ht.pendingFillReq (ht.rWaiting.trans hq.rWaiting) hv
        (.inr ⟨hm, r, hline, hcv, repl, stamp, hhit, hrank⟩) hx
    · have hv : (e.line r).valid = false :=
        rank_eq_none.mp (congrFun₂ hrank r.set r.way |>.trans (mark_self _ r _))
      have hfill : e.pendingFillReq = false := ht.pendingFillReq.trans hq.pendingFillReq
      rw [if_neg (by rw [hv]; exact Bool.false_ne_true), missUpdate, if_pos (by rw [hfill]; rfl)]
        at hx
      cases hx
      exact ⟨⟨c, .take bk' r w hback hline hw hway hrank, rfl, .inl ⟨hsame ht.served, rfl⟩⟩,
        fun _ => hsame ht.served⟩
  | missed bk r hb hh hv hm h0 hfill hr hrep =>
    have hlook : c.lookTail now bk = .ok (bk, c) :=
      if_neg (by rw [hh.line]; exact Option.some_ne_none r)
    obtain ⟨_, hx⟩ := serve_some hb hlook hh.line hx
    rw [if_neg (by rw [hv]; exact Bool.false_ne_true), isReplay_eta hrep] at hx
    obtain ⟨hserved, hrank, hfalls⟩ := missUpdate_renews hfill (Except.ok.inj hx).symm
    refine ⟨hr, ⟨c, ?_, rfl, .inl ⟨hsame hserved, rfl⟩⟩, fun _ => hsame hserved⟩
    exact .keep hfalls hrank
  | filling bk r hb hh hv _ _ _ _ hrep =>
    have hlook : c.lookTail now bk = .ok (bk, c) :=
      if_neg (by rw [hh.line]; exact Option.some_ne_none r)
    rcases (serve_some hb hlook hh.line hx).1 with hreq | hreq
    · exact absurd (hrep.symm.trans hreq) (by decide)
    · exact absurd (hreq.symm.trans hv) (by decide)
  | filled bk r hb hh hv hm _ _ hr =>
    have hlook : c.lookTail now bk = .ok (bk, c) :=
      if_neg (by rw [hh.line]; exact Option.some_ne_none r)
    obtain ⟨_, hx⟩ := serve_some hb hlook hh.line hx
    rw [if_pos hv] at hx
    exact ⟨hr, hitUpdate_renews (e := { c with isReplay := false }) hwb hp rfl rfl hr hv
      (.inl ⟨hm, rfl⟩) hx⟩

theorem WellFormed.doUpdate_renews (hwb : P.writeBack = false)
    (hp : P.prefetcher.present = false) {c c' : PipeCache P} {outs : List CacheOut}
    (h : WellFormed c) (hx : c.doUpdate now = .ok (c', outs)) :
    c' = c ∨ c.blockedUntil ≤ now ∧ Renews now c c' := by
  have hsched := h.sched (.of_through hwb)
  rcases doUpdate_cases hx with ⟨_, rfl, _⟩ | ⟨hdue, o, hd, _⟩
  · exact .inl rfl
  have hdefer : (c.deliverDeferred now).1 = c := by
    unfold PipeCache.deliverDeferred
    rw [hsched, if_neg fun hle => ENat.natCast_ne_top now (top_le_iff.mp hle)]
  rw [hdefer] at hd
  obtain ⟨hr, hrenews⟩ := h.serve_renews hwb hp hd
  refine .inr ⟨?_, hrenews⟩
  unfold nextUpdate at hdue
  rw [hr, Bool.false_and, if_neg Bool.false_ne_true, hsched, min_eq_left le_top] at hdue
  exact_mod_cast hdue

end PipeCache

namespace Recency

open PipeCache

/-- A cache under LRU, with the ticks at which its lines were touched. -/
structure Run (P : CacheParams) where
  now : Nat := 0
  /-- The cache has been updated in this tick. -/
  updated : Bool := false
  cache : PipeCache P.lru := {}
  /-- When the line was last hit by a lookup or refilled. -/
  touched : Nat → Nat → Option Nat := fun _ _ => none

namespace Run

variable {P : CacheParams}

def touch (b : Run P) (rs : List LineRef) : Nat → Nat → Option Nat :=
  rs.foldl (fun f r => mark f r (some b.now)) b.touched

/-- The next tick, a read request, a refill, a flush, and the update of the tick. -/
inductive Step (b : Run P) : Run P → Prop
  | tick : Step b { b with now := b.now + 1, updated := false }
  | read {c : PipeCache P.lru} (addr : Addr) (h : b.cache.readReq b.now addr = .ok c) :
      Step b { b with cache := c }
  | refill {c : PipeCache P.lru} (m : MemTrans) (hm : m.mop = .read)
      (h : b.cache.recvMemResp b.now m = .ok c) :
      Step b { b with cache := c, touched := b.touch (b.cache.back.bind (·.line)).toList }
  | flush : Step b { b with cache := b.cache.flushAll }
  | update {c : PipeCache P.lru} {outs : List CacheOut} (hu : b.updated = false)
      (h : b.cache.doUpdate b.now = .ok (c, outs)) :
      Step b { b with cache := c, updated := true, touched := b.touch (b.cache.hitLines c) }

def Reachable (b : Run P) : Prop := ReflTransGen Step {} b

/-- Between `b` and `b'` a lookup has missed and has taken the line `r`. -/
def Takes (b b' : Run P) (r : LineRef) : Prop :=
  b.cache.pendingFillReq = false ∧ b'.cache.pendingFillReq = true ∧
    ∃ e, b'.cache.back = some e ∧ e.line = some r

/-- A valid line has the tick of its last touch as its stamp, no two lines were touched in one tick,
and the cache that touches a line touches no other in that tick. -/
private structure Recent (b : Run P) : Prop where
  wf : WellFormed b.cache
  stamps : ∀ s w k, b.cache.rank s w = some k → b.touched s w = some k
  past : ∀ s w k, b.touched s w = some k → k ≤ b.now
  apart : ∀ s w s' w' k, b.touched s w = some k → b.touched s' w' = some k → s = s' ∧ w = w'
  waits : b.cache.rWaiting = true → ∀ s w, b.touched s w ≠ some b.now
  once : b.updated = false → b.cache.blockedUntil ≤ b.now → ∀ s w, b.touched s w ≠ some b.now

private theorem recent_init : Recent ({} : Run P) := by
  have hnone : ∀ s w k, ({} : Run P).cache.rank s w ≠ some k := by
    intro s w k hk
    have hv := (valid_of_rank hk).1
    cases hv
  refine ⟨wellFormed_init, fun s w k hk => absurd hk (hnone s w k), fun s w k hk => ?_,
    fun s w _ _ k hk => ?_, fun _ s w hk => ?_, fun _ _ s w hk => ?_⟩
  all_goals cases hk

private theorem mark_now {f : Nat → Nat → Option Nat} {r : LineRef} {now : Nat}
    (hpast : ∀ s w k, f s w = some k → k ≤ now)
    (hapart : ∀ s w s' w' k, f s w = some k → f s' w' = some k → s = s' ∧ w = w')
    (hnone : ∀ s w, f s w ≠ some now) :
    (∀ s w k, mark f r (some now) s w = some k → k ≤ now) ∧
      ∀ s w s' w' k, mark f r (some now) s w = some k → mark f r (some now) s' w' = some k →
        s = s' ∧ w = w' := by
  have hcases : ∀ s w k, mark f r (some now) s w = some k →
      (s = r.set ∧ w = r.way) ∧ k = now ∨ f s w = some k := by
    intro s w k hk
    by_cases hsw : s = r.set ∧ w = r.way
    · rw [mark, if_pos hsw] at hk
      exact .inl ⟨hsw, (Option.some.inj hk).symm⟩
    · rw [mark_other _ _ hsw] at hk
      exact .inr hk
  refine ⟨fun s w k hk => ?_, fun s w s' w' k hk hk' => ?_⟩
  · rcases hcases s w k hk with ⟨_, rfl⟩ | hk
    · exact Nat.le_refl k
    · exact hpast s w k hk
  · rcases hcases s w k hk with ⟨⟨hs, hw⟩, rfl⟩ | hf
    · rcases hcases s' w' k hk' with ⟨⟨hs', hw'⟩, _⟩ | hf'
      · exact ⟨hs.trans hs'.symm, hw.trans hw'.symm⟩
      · exact absurd hf' (hnone s' w')
    · rcases hcases s' w' k hk' with ⟨_, rfl⟩ | hf'
      · exact absurd hf (hnone s w)
      · exact hapart s w s' w' k hf hf'

private theorem stamps_mark {f g g' : Nat → Nat → Option Nat} {r : LineRef} {now : Nat}
    (h : ∀ s w k, g s w = some k → f s w = some k) (hg : g' = mark g r (some now)) :
    ∀ s w k, g' s w = some k → mark f r (some now) s w = some k := by
  intro s w k hk
  rw [hg] at hk
  by_cases hsw : s = r.set ∧ w = r.way
  · rw [mark, if_pos hsw] at hk ⊢
    exact hk
  · rw [mark_other _ _ hsw] at hk ⊢
    exact h s w k hk

/-- The state in which an update comes to its end. -/
private structure Middle (b : Run P) (c : PipeCache P.lru) (d : PipeCache P.lru) : Prop where
  ends : Ends d c
  fill : d.pendingFillReq = b.cache.pendingFillReq
  stamps : ∀ s w k, d.rank s w = some k → b.touch (b.cache.hitLines c) s w = some k
  valid : ∀ s w, (d.lines s w).valid = (b.cache.lines s w).valid
  past : ∀ s w k, b.touch (b.cache.hitLines c) s w = some k → k ≤ b.now
  apart : ∀ s w s' w' k, b.touch (b.cache.hitLines c) s w = some k →
    b.touch (b.cache.hitLines c) s' w' = some k → s = s' ∧ w = w'

private theorem valid_eq {c d : PipeCache P.lru} {s w : Nat}
    (h : (d.rank s w).isSome = (c.rank s w).isSome) :
    (d.lines s w).valid = (c.lines s w).valid := by
  unfold rank at h
  rw [apply_ite Option.isSome, apply_ite Option.isSome] at h
  cases hd : (d.lines s w).valid with
  | true =>
    rw [hd, if_pos rfl] at h
    cases hc : (c.lines s w).valid with
    | true => rfl
    | false =>
      rw [hc] at h
      cases h
  | false =>
    rw [hd] at h
    cases hc : (c.lines s w).valid with
    | true =>
      rw [hc] at h
      cases h
    | false => rfl

private theorem Recent.middle {b : Run P} (h : Recent b) {c : PipeCache P.lru}
    (hu : b.updated = false) (hdue : b.cache.blockedUntil ≤ b.now)
    (hr : Renews b.now b.cache c) : ∃ d, Middle b c d := by
  obtain ⟨d, hends, hfill, hcase⟩ := hr.ends
  refine ⟨d, ?_⟩
  rcases hcase with ⟨hl, hrank⟩ | ⟨r, hl, hv, repl, stamp, hhit, hrank⟩
  · have htouch : b.touch (b.cache.hitLines c) = b.touched := by
      rw [hl]
      rfl
    refine ⟨hends, hfill, ?_, fun s w => valid_eq (by rw [hrank]), ?_, ?_⟩
    · rw [htouch, hrank]
      exact h.stamps
    · rw [htouch]
      exact h.past
    · rw [htouch]
      exact h.apart
  · cases hhit
    have htouch : b.touch (b.cache.hitLines c) = mark b.touched r (some b.now) := by
      rw [hl]
      rfl
    obtain ⟨hpast, hapart⟩ := mark_now (r := r) h.past h.apart (h.once hu hdue)
    refine ⟨hends, hfill, ?_, fun s w => valid_eq ?_, ?_, ?_⟩
    · rw [htouch]
      exact stamps_mark h.stamps hrank
    · rw [hrank]
      by_cases hsw : s = r.set ∧ w = r.way
      · rw [mark, if_pos hsw, hsw.1, hsw.2, rank_of_valid hv]
        rfl
      · rw [mark_other _ _ hsw]
    · rw [htouch]
      exact hpast
    · rw [htouch]
      exact hapart

private theorem Middle.stamps_end {b : Run P} {c d : PipeCache P.lru} (h : Middle b c d) :
    ∀ s w k, c.rank s w = some k → b.touch (b.cache.hitLines c) s w = some k := by
  intro s w k hk
  cases h.ends with
  | keep _ hr => exact h.stamps s w k (hr ▸ hk)
  | clear _ hr => exact absurd ((hr s w).symm.trans hk) (Option.some_ne_none k).symm
  | take _ _ _ _ _ _ _ hr => exact h.stamps s w k (of_mark_none (hr ▸ hk)).1

private theorem touch_self (b : Run P) : b.touch (b.cache.hitLines b.cache) = b.touched := by
  rw [hitLines_of_served (l := []) (List.append_nil _).symm]
  rfl

private theorem Recent.update {b : Run P} (h : Recent b) {c : PipeCache P.lru}
    {outs : List CacheOut} (hu : b.updated = false) (hx : b.cache.doUpdate b.now = .ok (c, outs)) :
    Recent { b with cache := c, updated := true, touched := b.touch (b.cache.hitLines c) } := by
  have hwf := (h.wf.doUpdate hx).1
  rcases h.wf.doUpdate_renews rfl rfl hx with rfl | ⟨hdue, hr⟩
  · refine ⟨hwf, ?_, ?_, ?_, ?_, fun hf => by cases hf⟩
    · dsimp only
      rw [touch_self]
      exact h.stamps
    · dsimp only
      rw [touch_self]
      exact h.past
    · dsimp only
      rw [touch_self]
      exact h.apart
    · dsimp only
      rw [touch_self]
      exact h.waits
  · obtain ⟨d, hd⟩ := h.middle hu hdue hr
    refine ⟨hwf, hd.stamps_end, hd.past, hd.apart, fun hw => ?_, fun hf => by cases hf⟩
    have htouch : b.touch (b.cache.hitLines c) = b.touched := by
      rw [hr.waits hw]
      rfl
    dsimp only
    rw [htouch]
    exact h.once hu hdue

private theorem Recent.refill {b : Run P} (h : Recent b) {c : PipeCache P.lru} {m : MemTrans}
    (hm : m.mop = .read) (hx : b.cache.recvMemResp b.now m = .ok c) :
    Recent { b with cache := c, touched := b.touch (b.cache.back.bind (·.line)).toList } := by
  obtain ⟨r, repl, stamp, hl, hfill, hrank, ⟨hwait, _⟩, hblocked⟩ := recvMemResp_rank hm hx
  cases hfill
  have hold : b.cache.rWaiting = true := ((recvRead_eq_ok hm).mp hx).1
  have htouch : b.touch (b.cache.back.bind (·.line)).toList = mark b.touched r (some b.now) := by
    rw [hl]
    rfl
  obtain ⟨hpast, hapart⟩ := mark_now (r := r) h.past h.apart (h.waits hold)
  refine ⟨(h.wf.recvMemResp hx).1, ?_, ?_, ?_, fun hw => ?_, fun _ hb => ?_⟩
  · dsimp only
    rw [htouch]
    exact stamps_mark h.stamps hrank
  · dsimp only
    rw [htouch]
    exact hpast
  · dsimp only
    rw [htouch]
    exact hapart
  · exact absurd (hwait.symm.trans hw) (by decide)
  · exact absurd hblocked (Nat.not_lt.mpr hb)

private theorem Recent.read {b : Run P} (h : Recent b) {c : PipeCache P.lru} {addr : Addr}
    (hx : b.cache.readReq b.now addr = .ok c) : Recent { b with cache := c } := by
  have hwf := (h.wf.enqueue ⟨rfl, rfl, rfl, rfl⟩ hx).1
  unfold readReq enqueue at hx
  obtain ⟨_, hx⟩ := require_bind_eq_ok.mp hx
  split at hx
  · cases hx
    exact ⟨hwf, h.stamps, h.past, h.apart, h.waits,
      fun _ hb => absurd hb (Nat.not_succ_le_self b.now)⟩
  · cases hx

private theorem Recent.step {b b' : Run P} (h : Recent b) (hs : Step b b') : Recent b' := by
  cases hs with
  | tick =>
    have hlate : ∀ s w, b.touched s w ≠ some (b.now + 1) := fun s w hk =>
      absurd (h.past s w _ hk) (Nat.not_succ_le_self b.now)
    exact ⟨h.wf, h.stamps, fun s w k hk => Nat.le_succ_of_le (h.past s w k hk), h.apart,
      fun _ => hlate, fun _ _ => hlate⟩
  | read addr hx => exact h.read hx
  | refill m hm hx => exact h.refill hm hx
  | flush => exact ⟨h.wf.flushAll, h.stamps, h.past, h.apart, h.waits, h.once⟩
  | update hu hx => exact h.update hu hx

private theorem recent {b : Run P} (h : Reachable b) : Recent b := by
  induction h with
  | refl => exact recent_init
  | tail _ hs ih => exact ih.step hs

private theorem full_of_victim {c : PipeCache P.lru} {r : LineRef} {w : Nat}
    (hw : c.missVictimWay r.set = .ok w) (hway : r.way = w % P.assoc)
    (hv : (c.line r).valid = true) : c.invalidWay r.set = none := by
  unfold missVictimWay at hw
  rw [show P.lru.victimWayLag = false from rfl, Bool.false_and, if_neg Bool.false_ne_true] at hw
  dsimp only at hw
  split at hw
  · rename_i v hfree
    cases hw
    have hlt : w < P.assoc := List.mem_range.mp (List.mem_of_find?_eq_some hfree)
    have hinv := List.find?_some hfree
    rw [hway.trans (Nat.mod_eq_of_lt hlt) |>.symm] at hinv
    rw [Bool.not_eq_true'] at hinv
    exact absurd (hv.symm.trans hinv) (by decide)
  · assumption

private theorem Middle.oldest {b : Run P} {c d : PipeCache P.lru} (h : Middle b c d)
    {r : LineRef} {w : Nat} (hw : d.missVictimWay r.set = .ok w) (hway : r.way = w % P.assoc)
    (hv : (b.cache.line r).valid = true) {j : Nat} (hj : j < P.assoc) (hjr : j ≠ r.way) :
    (b.cache.lines r.set j).valid = true ∧
      ∃ x y, b.touch (b.cache.hitLines c) r.set r.way = some x ∧
        b.touch (b.cache.hitLines c) r.set j = some y ∧ x < y := by
  have hvd : (d.line r).valid = true := (h.valid r.set r.way).trans hv
  have hfull := full_of_victim hw hway hvd
  obtain ⟨hlt, hmin, _⟩ :=
    @lru_victim { P with writeBack := false, prefetcher := nullPrefetcher } rfl d _ _ hfull hw
  have hrw : r.way = w := hway.trans (Nat.mod_eq_of_lt hlt)
  have hno := List.find?_eq_none.mp hfull j (List.mem_range.mpr hj)
  rw [Bool.not_eq_true, Bool.not_eq_false'] at hno
  have hx := h.stamps r.set r.way _ (rank_of_valid hvd)
  have hy := h.stamps r.set j _ (rank_of_valid hno)
  have hle : ¬(d.lines r.set j).stamp < (d.lines r.set r.way).stamp := hrw ▸ hmin j hj
  have hne : (d.lines r.set j).stamp ≠ (d.lines r.set r.way).stamp := fun heq =>
    hjr (h.apart r.set j r.set r.way _ hy (heq ▸ hx)).2
  exact ⟨(h.valid r.set j).symm.trans hno, _, _, hx, hy, by omega⟩

/-- A miss that takes a line which holds a block finds the set full, and the line has been touched
before every other line of the set. -/
theorem lru_takes_oldest {b b' : Run P} (h : Reachable b) (hs : Step b b') {r : LineRef}
    (ht : Takes b b' r) (hv : (b.cache.line r).valid = true) :
    ∀ j < P.assoc, j ≠ r.way → (b.cache.lines r.set j).valid = true ∧
      ∃ x y, b'.touched r.set r.way = some x ∧ b'.touched r.set j = some y ∧ x < y := by
  have hr := recent h
  obtain ⟨hbefore, hafter, e, hb, hl⟩ := ht
  have hsame : b'.cache.pendingFillReq ≠ b.cache.pendingFillReq := by
    rw [hbefore, hafter]
    decide
  intro j hj hjr
  cases hs with
  | tick => exact absurd rfl hsame
  | read addr hx =>
    unfold readReq enqueue at hx
    obtain ⟨_, hx⟩ := require_bind_eq_ok.mp hx
    split at hx
    · cases hx
      exact absurd rfl hsame
    · cases hx
  | refill m hm hx =>
    obtain ⟨_, _, _, _, _, _, ⟨_, hfill⟩, _⟩ := recvMemResp_rank hm hx
    exact absurd hfill hsame
  | flush => exact absurd rfl hsame
  | @update c outs hu hx =>
    rcases hr.wf.doUpdate_renews rfl rfl hx with rfl | ⟨hdue, hren⟩
    · exact absurd rfl hsame
    · obtain ⟨d, hd⟩ := hr.middle hu hdue hren
      cases hd.ends with
      | keep hfill _ => exact absurd (hfill hafter) (by rw [hd.fill, hbefore]; decide)
      | clear hfill _ => exact absurd (hafter.symm.trans hfill) (by decide)
      | take e' r' w hb' hl' hw hway _ =>
        obtain rfl : e = e' := Option.some.inj (hb.symm.trans hb')
        obtain rfl : r = r' := Option.some.inj (hl.symm.trans hl')
        exact hd.oldest hw hway hv hj hjr

inductive Action
  | tick
  | read (addr : Addr)
  | refill (addr : Addr)
  | update

def perform (b : Run P) : Action → Option (Run P)
  | .tick => some { b with now := b.now + 1, updated := false }
  | .read addr =>
    match b.cache.readReq b.now addr with
    | .ok c => some { b with cache := c }
    | .error _ => none
  | .refill addr =>
    match b.cache.recvMemResp b.now { mop := .read, addr := addr, id := 0, bstLen := 1 } with
    | .ok c =>
      some { b with cache := c, touched := b.touch (b.cache.back.bind (·.line)).toList }
    | .error _ => none
  | .update =>
    if b.updated then none
    else
      match b.cache.doUpdate b.now with
      | .ok (c, _) =>
        some { b with cache := c, updated := true, touched := b.touch (b.cache.hitLines c) }
      | .error _ => none

private theorem perform_step {b b' : Run P} {a : Action} (h : b.perform a = some b') :
    Step b b' := by
  cases a with
  | tick =>
    cases h
    exact .tick
  | read addr =>
    dsimp only [perform] at h
    split at h
    · rename_i c hx
      cases h
      exact .read addr hx
    · cases h
  | refill addr =>
    dsimp only [perform] at h
    split at h
    · rename_i c hx
      cases h
      exact .refill _ rfl hx
    · cases h
  | update =>
    dsimp only [perform] at h
    split at h
    · cases h
    · rename_i hu
      rw [Bool.not_eq_true] at hu
      split at h
      · rename_i c outs hx
        cases h
        exact .update hu hx
      · cases h

private theorem reachable_of_foldlM {as : List Action} {b b' : Run P} (hb : Reachable b)
    (h : as.foldlM perform b = some b') : Reachable b' := by
  induction as generalizing b with
  | nil =>
    cases h
    exact hb
  | cons a as ih =>
    obtain ⟨b₁, ha, h⟩ := Option.bind_eq_some_iff.mp h
    exact ih (hb.tail (perform_step ha)) h

def fetch (addr : Addr) : List Action :=
  [.read addr, .tick, .update, .tick, .update, .refill addr, .tick, .update]

/-- The third block of a set of two ways takes the line of the first. -/
theorem lru_takes_oldest_third :
    ∃ b b' : Run (Bench.instCache 2 2 Nat.two_pos lruReplPolicy), Takes b b' ⟨0, 0⟩ ∧
      ∃ x y, b'.touched 0 0 = some x ∧ b'.touched 0 1 = some y ∧ x < y := by
  let P := Bench.instCache 2 2 Nat.two_pos lruReplPolicy
  obtain ⟨b, hb, hx⟩ := Option.bind_eq_some_iff.mp (show
    ((fetch 0 ++ (fetch 8 ++ [Action.read 16, .tick])).foldlM perform ({} : Run P)).bind (fun b =>
      (b.perform .update).map fun b' => ((b.cache.line ⟨0, 0⟩).valid, b.cache.pendingFillReq,
        b'.cache.pendingFillReq, b'.cache.back.bind (·.line))) =
      some (true, false, true, some ⟨0, 0⟩) by decide +kernel)
  obtain ⟨b', hb', hx⟩ := Option.map_eq_some_iff.mp hx
  obtain ⟨hv, hx⟩ := Prod.mk.inj hx
  obtain ⟨h₀, hx⟩ := Prod.mk.inj hx
  obtain ⟨h₁, hx⟩ := Prod.mk.inj hx
  have ht : Takes b b' ⟨0, 0⟩ := ⟨h₀, h₁, Option.bind_eq_some_iff.mp hx⟩
  exact ⟨b, b', ht, (lru_takes_oldest (reachable_of_foldlM .refl hb) (perform_step hb') ht hv 1
    Nat.one_lt_two Nat.one_ne_zero).2⟩

end Run

end Recency

end NpSim.Cache
