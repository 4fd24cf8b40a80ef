/- digest: The lines that a cache without a prefetcher hits and fills, in order, and what its
   replacement policy has been told of them. -/

import NpSim.Cache.Recency

set_option autoImplicit false
set_option relaxedAutoImplicit false

namespace NpSim.Cache

open NpSim.Lib.Partial Relation

namespace PipeCache

variable {P : CacheParams} {c c' : PipeCache P} {now : Nat}

/-- The set that decides the way of a miss in set `s`: `vsi` in `miss_victim_way`. -/
def deciding (c : PipeCache P) (s : Nat) : Nat :=
  if P.victimWayLag && c.lagSetValid then c.lagSetIdx else s

/-- What a replacement reads, but for the stamps. -/
structure SameView (c c' : PipeCache P) : Prop where
  repl : c'.repl = c.repl
  valid : ∀ s w, (c'.lines s w).valid = (c.lines s w).valid
  deciding : ∀ s, c'.deciding s = c.deciding s

theorem SameView.refl (c : PipeCache P) : SameView c c := ⟨rfl, fun _ _ => rfl, fun _ => rfl⟩

theorem SameView.trans {d : PipeCache P} (h : SameView c c') (h' : SameView c' d) :
    SameView c d := by
  refine ⟨h'.repl.trans h.repl, fun s w => ?_, fun s => ?_⟩
  · exact (h'.valid s w).trans (h.valid s w)
  · exact (h'.deciding s).trans (h.deciding s)

theorem valid_eq_rank (c : PipeCache P) (s w : Nat) :
    (c.lines s w).valid = (c.rank s w).isSome := by
  unfold rank
  cases (c.lines s w).valid <;> rfl

theorem SameView.invalidWay (h : SameView c c') (s : Nat) : c'.invalidWay s = c.invalidWay s := by
  unfold PipeCache.invalidWay
  congr 1
  funext w
  rw [h.valid]

private theorem deciding_noteLag (si : Nat) (c : PipeCache P) (s : Nat) :
    (c.noteLag si).deciding s = if P.victimWayLag then si else s := by
  unfold PipeCache.deciding noteLag
  cases hlag : P.victimWayLag <;> rfl

private theorem accessHit_policy {r : LineRef} (h : c.accessHit now r = .ok c') :
    (∀ s, c'.deciding s = if P.victimWayLag then r.set else s) ∧
      ∃ stamp x, P.policy.onHit c.repl now r.set r.way stamp = .ok (c'.repl, x) := by
  unfold accessHit at h
  have hdeciding := deciding_noteLag r.set c
  have hrepl : (c.noteLag r.set).repl = c.repl := by
    unfold noteLag
    split <;> rfl
  generalize c.noteLag r.set = d at h hdeciding hrepl
  dsimp only at h
  obtain ⟨⟨repl, x⟩, hhit, h⟩ := bind_eq_ok.mp h
  cases h
  rw [hrepl] at hhit
  exact ⟨hdeciding, _, x, hhit⟩

private theorem accessMiss_policy {si : Nat} {r : LineRef}
    (h : c.accessMiss si = .ok (r, c')) :
    (∀ s, c'.deciding s = if P.victimWayLag then r.set else s) ∧ c'.repl = c.repl := by
  unfold accessMiss at h
  dsimp only at h
  obtain ⟨w, _, h⟩ := bind_eq_ok.mp h
  have hdeciding := deciding_noteLag si
    ({ c with stats := { c.stats with misses := c.stats.misses + 1 } } : PipeCache P)
  have hrepl : (noteLag si
      ({ c with stats := { c.stats with misses := c.stats.misses + 1 } } : PipeCache P)).repl =
        c.repl := by
    unfold noteLag
    split <;> rfl
  generalize noteLag si
    ({ c with stats := { c.stats with misses := c.stats.misses + 1 } } : PipeCache P) = d
    at h hdeciding hrepl
  cases h
  exact ⟨hdeciding, hrepl⟩

theorem access_policy {addr : Addr} {r : LineRef} (h : c.access now addr = .ok (r, c')) :
    r.way < P.assoc ∧ (∀ s, c'.deciding s = if P.victimWayLag then r.set else s) ∧
      ((c.line r).valid = true ∧ (∀ s w, (c'.lines s w).valid = (c.lines s w).valid) ∧
          (∃ stamp x, P.policy.onHit c.repl now r.set r.way stamp = .ok (c'.repl, x)) ∨
        (c'.line r).valid = false ∧ c'.repl = c.repl ∧
          (∀ s w, (⟨s, w⟩ : LineRef) ≠ r → (c'.lines s w).valid = (c.lines s w).valid) ∧
          ∃ w, c.missVictimWay r.set = .ok w ∧ r.way = w % P.assoc) := by
  obtain ⟨_, hway, hrank⟩ := access_rank h
  refine ⟨hway, ?_⟩
  unfold access at h
  dsimp only at h
  split at h
  · rename_i w hw
    obtain ⟨d, hd, h⟩ := bind_eq_ok.mp h
    cases h
    obtain ⟨hdeciding, hhit⟩ := accessHit_policy hd
    have hprobe : c.probe addr = true := Option.isSome_iff_exists.mpr ⟨w, hw⟩
    rcases hrank with ⟨_, hv, _, _, _, hr⟩ | ⟨hno, _⟩
    · refine ⟨hdeciding, .inl ⟨hv, fun s w' => ?_, hhit⟩⟩
      rw [valid_eq_rank, valid_eq_rank, hr]
      by_cases hsw : s = P.setIndexOf addr ∧ w' = w
      · rw [mark, if_pos hsw, hsw.1, hsw.2, rank_of_valid hv]
        rfl
      · rw [mark_other _ _ hsw]
    · rw [hprobe] at hno
      cases hno
  · rename_i hw
    obtain ⟨hdeciding, hrepl⟩ := accessMiss_policy h
    have hprobe : c.probe addr = false :=
      Option.isSome_eq_false_iff.mpr (Option.isNone_iff_eq_none.mpr hw)
    rcases hrank with ⟨hyes, _⟩ | ⟨_, hr, hvictim⟩
    · rw [hprobe] at hyes
      cases hyes
    · refine ⟨hdeciding, .inr ⟨?_, hrepl, fun s w hsw => ?_, hvictim⟩⟩
      · exact rank_eq_none.mp (congrFun₂ hr r.set r.way |>.trans (mark_self _ r _))
      · rw [valid_eq_rank, valid_eq_rank, hr, mark_other _ _ fun h => hsw ?_]
        rw [h.1, h.2]

theorem accessTail_policy {bk bk' : CachePipeEntry} (h : c.accessTail now bk = .ok (bk', c')) :
    ∃ r, c'.back = some bk' ∧ bk'.line = some r ∧ r.way < P.assoc ∧
      (∀ s, c'.deciding s = if P.victimWayLag then r.set else s) ∧
      ((c'.line r).valid = true ∧ bk'.missed = false ∧
          (∀ s w, (c'.lines s w).valid = (c.lines s w).valid) ∧
          (∃ stamp x, P.policy.onHit c.repl now r.set r.way stamp = .ok (c'.repl, x)) ∨
        (c'.line r).valid = false ∧ bk'.missed = true ∧ c'.repl = c.repl ∧
          (∀ s w, (⟨s, w⟩ : LineRef) ≠ r → (c'.lines s w).valid = (c.lines s w).valid) ∧
          ∃ w, c.missVictimWay r.set = .ok w ∧ r.way = w % P.assoc) := by
  unfold accessTail at h
  obtain ⟨d, hd, h⟩ := bind_eq_ok.mp h
  obtain ⟨p, a, w, x, rfl, _, _⟩ := saveEvictInfo_cases hd
  obtain ⟨⟨r, e⟩, he, h⟩ := bind_eq_ok.mp h
  cases h
  obtain ⟨hway, hdeciding, hcase⟩ := access_policy he
  refine ⟨r, back_of_pipe rfl, rfl, hway, hdeciding, ?_⟩
  rcases hcase with ⟨hv, hvalid, hhit⟩ | ⟨hv, hrepl, hvalid, hvictim⟩
  · have hv' : (e.line r).valid = true := (hvalid r.set r.way).trans hv
    refine .inl ⟨hv', ?_, hvalid, hhit⟩
    dsimp only
    rw [hv']
    rfl
  · refine .inr ⟨hv, ?_, hrepl, hvalid, hvictim⟩
    dsimp only
    rw [hv]
    rfl

/-- What the lookups of an update have told the policy when the update comes to its end. -/
inductive Tells (now : Nat) (c : PipeCache P) : List LineRef → PipeCache P → Prop
  | nothing {d : PipeCache P} (h : SameView c d) : Tells now c [] d
  | hit {d : PipeCache P} (r : LineRef) (stamp x : Nat) (hway : r.way < P.assoc)
      (h : P.policy.onHit c.repl now r.set r.way stamp = .ok (d.repl, x))
      (hvalid : ∀ s w, (d.lines s w).valid = (c.lines s w).valid)
      (hdeciding : ∀ s, d.deciding s = if P.victimWayLag then r.set else s) : Tells now c [r] d

/-- A block is on its way into the line of the tail entry. -/
def fetching (c : PipeCache P) : Bool := c.pendingFillReq || c.rWaiting

def tailLine (c : PipeCache P) : Option LineRef := c.back.bind (·.line)

/-- The end of an update: nothing, a flush, or a miss that takes a way. -/
inductive Closes (c c' : PipeCache P) : Prop
  | keep (hfill : c'.pendingFillReq = true → c.pendingFillReq = true) (h : SameView c c')
      (hfetch : c'.fetching = c.fetching) (hline : c.fetching = true → c'.tailLine = c.tailLine)
  | clear (hflush : c.pendingFlush = true) (hfill : c'.pendingFillReq = false)
      (hrepl : c'.repl = c.repl) (hvalid : ∀ s w, (c'.lines s w).valid = false)
  | take (r : LineRef) (w : Nat) (hl : c'.tailLine = some r) (hidle : c.fetching = false)
      (hfetch : c'.fetching = true) (hw : c.missVictimWay r.set = .ok w)
      (hway : r.way = w % P.assoc) (hrepl : c'.repl = c.repl) (hempty : (c'.line r).valid = false)
      (hvalid : ∀ s w, (⟨s, w⟩ : LineRef) ≠ r → (c'.lines s w).valid = (c.lines s w).valid)

theorem finishUpdate_closes {outs : List CacheOut} (hidle : c.fetching = false)
    (hx : c.finishUpdate now = .ok (c', outs)) : Closes c c' ∧ c'.served = c.served := by
  have hkeep : ∀ {d : PipeCache P}, SameView c d → d.pendingFillReq = c.pendingFillReq →
      d.rWaiting = c.rWaiting → Closes c d := by
    intro d hv hfill hwait
    have hfetch : d.fetching = c.fetching := by
      unfold fetching
      rw [hfill, hwait]
    refine .keep (fun h => hfill.symm.trans h) hv hfetch fun h => ?_
    exact absurd (hidle.symm.trans h) (by decide)
  unfold PipeCache.finishUpdate at hx
  split at hx
  · rename_i hflush
    cases hx
    exact ⟨.clear (Bool.and_eq_true_iff.mp hflush).1 rfl rfl fun _ _ => rfl, rfl⟩
  · dsimp only at hx
    split at hx
    · rename_i bk hbk
      split at hx
      · rename_i hlook
        obtain ⟨⟨bk', d⟩, hd, hx⟩ := bind_eq_ok.mp hx
        cases hx
        obtain ⟨r, hb, hl, _, _, hcase⟩ := accessTail_policy hd
        obtain ⟨r', ht⟩ := accessTail_looked hd
        rcases hcase with ⟨hv, hm, _⟩ | ⟨hempty, _, hrepl, hvalid, w, hw, hway⟩
        · have hinv : (d.line r').valid = false := ht.probed hlook.2
          rw [ht.entry] at hm
          dsimp only at hm
          rw [hinv] at hm
          cases hm
        · have hline : d.tailLine = some r := by
            unfold tailLine
            rw [hb]
            exact hl
          exact ⟨.take r w hline hidle (Bool.true_or _) hw hway hrepl hempty hvalid, ht.served⟩
      · cases hx
        exact ⟨hkeep ⟨rfl, fun _ _ => rfl, fun _ => rfl⟩ rfl rfl, rfl⟩
    · cases hx
      exact ⟨hkeep ⟨rfl, fun _ _ => rfl, fun _ => rfl⟩ rfl rfl, rfl⟩

theorem handleHit_view {bk : CachePipeEntry} {r : LineRef} {outs : List CacheOut}
    (h : c.handleHit now bk r = .ok (c', outs)) : SameView c c' := by
  have hrespond : ∀ (d : PipeCache P) (t : CpuTrans), SameView d (d.respond now t).1 := by
    intro d t
    unfold respond
    split
    · exact ⟨rfl, fun _ _ => rfl, fun _ => rfl⟩
    · exact .refl d
  unfold handleHit at h
  dsimp only at h
  split at h
  · obtain ⟨dt, _, h⟩ := bind_eq_ok.mp h
    have hc := congrArg Prod.fst (Except.ok.inj h)
    have hv := hrespond ({ c with blockedUntil := now + 1 } : PipeCache P)
      ⟨bk.addr, dt, P.cacheId, .read⟩
    rw [hc] at hv
    have hblock : SameView c ({ c with blockedUntil := now + 1 } : PipeCache P) :=
      ⟨rfl, fun _ _ => rfl, fun _ => rfl⟩
    exact hblock.trans hv
  · have hc := congrArg Prod.fst (Except.ok.inj h)
    refine SameView.trans ?_ (hc ▸ hrespond _ _)
    refine ⟨rfl, fun s w => ?_, fun _ => rfl⟩
    rw [lines_setLine]
    split
    · rename_i hsw
      rw [hsw.1, hsw.2]
      rfl
    · rfl

private theorem missUpdate_closes {bk : CachePipeEntry} {outs : List CacheOut}
    (hb : c.back = some bk) (hfill : c.pendingFillReq = true)
    (h : (c', outs) = c.missUpdate now bk) : Closes c c' ∧ c'.served = c.served := by
  have hfetch : c.fetching = true := by
    unfold fetching
    rw [hfill, Bool.true_or]
  unfold missUpdate at h
  rw [if_neg (by rw [hfill]; exact Bool.false_ne_true)] at h
  have hview : ∀ {d : PipeCache P}, d.repl = c.repl → d.lines = c.lines →
      d.lagSetIdx = c.lagSetIdx → d.lagSetValid = c.lagSetValid → SameView c d := by
    intro d hr hl hi hv
    refine ⟨hr, fun s w => by rw [hl], fun s => ?_⟩
    unfold PipeCache.deciding
    rw [hi, hv]
  split at h
  · split at h
    · cases h
      exact ⟨.keep id (hview rfl rfl rfl rfl) rfl fun _ => rfl, rfl⟩
    · cases h
      exact ⟨.keep id (hview rfl rfl rfl rfl) rfl fun _ => rfl, rfl⟩
  · split at h
    · cases h
      exact ⟨.keep id (hview rfl rfl rfl rfl) rfl fun _ => rfl, rfl⟩
    · cases h
      refine ⟨.keep (fun _ => hfill) (hview rfl rfl rfl rfl) ?_ fun _ => ?_, rfl⟩
      · rw [hfetch]
        exact Bool.or_true _
      · unfold tailLine
        rw [hb, back_of_pipe (l := c.pipe.dropLast) rfl]
        rfl

/-- An update: what it tells the policy, the state `d` in which it comes to its end, and the end. -/
structure Serves (now : Nat) (c : PipeCache P) (l : List LineRef) (d c' : PipeCache P) : Prop where
  tells : Tells now c l d
  closes : Closes d c'
  fill : d.pendingFillReq = c.pendingFillReq
  flush : d.pendingFlush = c.pendingFlush
  fetch : d.fetching = c.fetching
  line : c.fetching = true → d.tailLine = c.tailLine

/-- What a lookup has told the policy when its entry is about to be answered. -/
private def Told (now : Nat) (c : PipeCache P) (bk : CachePipeEntry) (e : PipeCache P) : Prop :=
  Tells now c (if bk.missed then none else bk.line).toList e

private theorem hitUpdate_serves (hp : P.prefetcher.present = false) {e : PipeCache P}
    {bk : CachePipeEntry} {r : LineRef} {b : Bool} {outs : List CacheOut}
    (hs : e.served = c.served) (hfill : e.pendingFillReq = c.pendingFillReq)
    (hflush : e.pendingFlush = c.pendingFlush) (hwait : e.rWaiting = c.rWaiting)
    (hidle : c.fetching = false) (hv : (e.line r).valid = true) (htold : Told now c bk e)
    (hx : e.hitUpdate now bk r b = .ok (c', outs)) :
    ∃ d, Serves now c (c.hitLines c') d c' := by
  unfold PipeCache.hitUpdate at hx
  obtain ⟨⟨d, resp⟩, hd, hx⟩ := bind_eq_ok.mp hx
  obtain ⟨f, hf, hx⟩ := bind_eq_ok.mp hx
  obtain ⟨⟨k, o⟩, hk, hx⟩ := bind_eq_ok.mp hx
  cases hx
  obtain rfl := prefetchAfter_none hp hf
  have hhit := handleHit_cases hv hd
  have hview := handleHit_view hd
  have hfetch : (f.retire bk).fetching = c.fetching := by
    change (f.pendingFillReq || f.rWaiting) = (c.pendingFillReq || c.rWaiting)
    rw [hhit.pendingFillReq, hhit.rWaiting, hfill, hwait]
  obtain ⟨hcloses, hserved⟩ := finishUpdate_closes (hfetch.trans hidle) hk
  have hs' : c'.served = c.served ++ [bk] := by
    refine hserved.trans ?_
    change f.served ++ [bk] = _
    rw [hhit.served, hs]
  have hlines : c.hitLines c' = (if bk.missed then none else bk.line).toList := by
    rw [hitLines_of_served hs', List.filterMap_cons, List.filterMap_nil]
    cases (if bk.missed then none else bk.line) <;> rfl
  refine ⟨f.retire bk, ?_, hcloses, hhit.pendingFillReq.trans hfill,
    hhit.pendingFlush.trans hflush, hfetch, fun h => ?_⟩
  · rw [hlines]
    unfold Told at htold
    generalize (if bk.missed then none else bk.line).toList = l at htold
    cases htold with
    | nothing h => exact .nothing ⟨(h.trans hview).repl, (h.trans hview).valid,
        (h.trans hview).deciding⟩
    | hit r' stamp x hway h hvalid hdeciding =>
      refine .hit r' stamp x hway ?_ (fun s w => ?_) fun s => ?_
      · have hrepl : (f.retire bk).repl = e.repl := hview.repl
        rw [hrepl]
        exact h
      · exact (hview.valid s w).trans (hvalid s w)
      · exact (hview.deciding s).trans (hdeciding s)
  · exact absurd (hidle.symm.trans h) (by decide)

private theorem fetching_of_quiet (h : c.Quiet) : c.fetching = false := by
  unfold fetching
  rw [h.pendingFillReq, h.rWaiting]
  rfl

private theorem WellFormed.serve_serves (hp : P.prefetcher.present = false)
    {outs : List CacheOut} (h : WellFormed c) (hx : c.serve now = .ok (c', outs)) :
    ∃ d, Serves now c (c.hitLines c') d c' := by
  have hquiet : ∀ {d : PipeCache P}, d.served = c.served → Closes c d →
      ∃ e, Serves now c (c.hitLines d) e d := by
    intro d hs hcloses
    refine ⟨c, ?_, hcloses, rfl, rfl, rfl, fun _ => rfl⟩
    rw [hitLines_of_served (l := []) (hs.trans (List.append_nil _).symm)]
    exact .nothing (.refl c)
  cases h.tail with
  | empty hb hq =>
    unfold PipeCache.serve at hx
    rw [hb] at hx
    obtain ⟨hcloses, hserved⟩ := finishUpdate_closes (fetching_of_quiet hq) hx
    exact hquiet hserved hcloses
  | fresh bk hb hf hq =>
    have hlook : c.lookTail now bk = c.accessTail now bk := if_pos hf.1
    have hacc : ∃ p, c.accessTail now bk = .ok p := by
      unfold PipeCache.serve serveTail at hx
      rw [hb] at hx
      dsimp only at hx
      rw [hlook] at hx
      obtain ⟨p, hp, _⟩ := bind_eq_ok.mp hx
      exact ⟨p, hp⟩
    obtain ⟨⟨bk', e⟩, hacc⟩ := hacc
    obtain ⟨_, ht⟩ := accessTail_looked hacc
    obtain ⟨r, hback, hline, hway, hdeciding, hcase⟩ := accessTail_policy hacc
    obtain ⟨_, hx⟩ := serve_some hb (hlook.trans hacc) hline hx
    rcases hcase with ⟨hv, hm, hvalid, stamp, x, hhit⟩ | ⟨hv, hm, hrepl, hvalid, w, hw, hrw⟩
    · rw [if_pos hv] at hx
      refine hitUpdate_serves (e := { e with isReplay := false }) hp ht.served ht.pendingFillReq
        ht.pendingFlush ht.rWaiting (fetching_of_quiet hq) hv ?_ hx
      unfold Told
      rw [hm, if_neg Bool.false_ne_true, hline]
      exact .hit r stamp x hway hhit hvalid hdeciding
    · have hfill : e.pendingFillReq = false := ht.pendingFillReq.trans hq.pendingFillReq
      rw [if_neg (by rw [hv]; exact Bool.false_ne_true), missUpdate, if_pos (by rw [hfill]; rfl)]
        at hx
      cases hx
      refine hquiet ht.served (.take r w ?_ (fetching_of_quiet hq) (Bool.true_or _) hw hrw hrepl
        hv hvalid)
      change e.back.bind _ = _
      rw [hback]
      exact hline
  | missed bk r hb hh hv hm h0 hfill hr hrep =>
    have hlook : c.lookTail now bk = .ok (bk, c) :=
      if_neg (by rw [hh.line]; exact Option.some_ne_none r)
    obtain ⟨_, hx⟩ := serve_some hb hlook hh.line hx
    rw [if_neg (by rw [hv]; exact Bool.false_ne_true), isReplay_eta hrep] at hx
    obtain ⟨hcloses, hserved⟩ := missUpdate_closes hb hfill (Except.ok.inj hx).symm
    exact hquiet hserved hcloses
  | filling bk r hb hh hv _ _ _ _ hrep =>
    have hlook : c.lookTail now bk = .ok (bk, c) :=
      if_neg (by rw [hh.line]; exact Option.some_ne_none r)
    rcases (serve_some hb hlook hh.line hx).1 with hreq | hreq
    · exact absurd (hrep.symm.trans hreq) (by decide)
    · exact absurd (hreq.symm.trans hv) (by decide)
  | filled bk r hb hh hv hm _ hfill hr =>
    have hlook : c.lookTail now bk = .ok (bk, c) :=
      if_neg (by rw [hh.line]; exact Option.some_ne_none r)
    obtain ⟨_, hx⟩ := serve_some hb hlook hh.line hx
    rw [if_pos hv] at hx
    have hidle : c.fetching = false := by
      unfold fetching
      rw [hfill, hr]
      rfl
    refine hitUpdate_serves (e := { c with isReplay := false }) hp rfl rfl rfl rfl hidle hv ?_ hx
    unfold Told
    rw [hm, if_pos rfl]
    exact .nothing ⟨rfl, fun _ _ => rfl, fun _ => rfl⟩

theorem WellFormed.doUpdate_serves (hp : P.prefetcher.present = false) {outs : List CacheOut}
    (h : WellFormed c) (hx : c.doUpdate now = .ok (c', outs)) :
    ∃ d, Serves now c (c.hitLines c') d c' := by
  rcases doUpdate_cases hx with ⟨_, rfl, _⟩ | ⟨_, o, hd, _⟩
  · refine ⟨c', ?_, .keep id (.refl c') rfl fun _ => rfl, rfl, rfl, rfl, fun _ => rfl⟩
    rw [hitLines_of_served (l := []) (List.append_nil _).symm]
    exact .nothing (.refl c')
  · obtain ⟨hwf, _⟩ := h.deliverDeferred now
    obtain ⟨d, hs⟩ := hwf.serve_serves hp hd
    have hsame : SameView c (c.deliverDeferred now).1 ∧
        (c.deliverDeferred now).1.served = c.served ∧
        (c.deliverDeferred now).1.pendingFillReq = c.pendingFillReq ∧
        (c.deliverDeferred now).1.pendingFlush = c.pendingFlush ∧
        (c.deliverDeferred now).1.fetching = c.fetching ∧
        (c.deliverDeferred now).1.tailLine = c.tailLine := by
      unfold PipeCache.deliverDeferred
      split <;> exact ⟨⟨rfl, fun _ _ => rfl, fun _ => rfl⟩, rfl, rfl, rfl, rfl, rfl⟩
    obtain ⟨hview, hserved, hfill, hflush, hfetch, hline⟩ := hsame
    have hlines : c.hitLines c' = (c.deliverDeferred now).1.hitLines c' := by
      unfold hitLines
      rw [hserved]
    refine ⟨d, ?_, hs.closes, hs.fill.trans hfill, hs.flush.trans hflush, hs.fetch.trans hfetch,
      fun h => (hs.line (hfetch.trans h)).trans hline⟩
    have htells := hs.tells
    rw [hlines]
    generalize (c.deliverDeferred now).1.hitLines c' = l at htells
    cases htells with
    | nothing h => exact .nothing (hview.trans h)
    | hit r stamp x hway h hvalid hdeciding =>
      rw [hview.repl] at h
      exact .hit r stamp x hway h (fun s w => (hvalid s w).trans (hview.valid s w)) hdeciding

/-- A refill of the line of the tail entry. -/
structure Refills (now : Nat) (c c' : PipeCache P) (r : LineRef) : Prop where
  waits : c.rWaiting = true
  line : c.tailLine = some r
  way : r.way < P.assoc
  told : ∃ x, P.policy.onFill c.repl now r.set r.way now = .ok (c'.repl, x)
  filled : (c'.line r).valid = true
  valid : ∀ s w, (⟨s, w⟩ : LineRef) ≠ r → (c'.lines s w).valid = (c.lines s w).valid
  fetch : c'.fetching = c.pendingFillReq
  flush : c'.pendingFlush = c.pendingFlush

theorem recvMemResp_refills {m : MemTrans} (hm : m.mop = .read)
    (h : c.recvMemResp now m = .ok c') : ∃ r, Refills now c c' r := by
  obtain ⟨hwait, bk, r, d, hb, hl, hd, rfl⟩ := (recvRead_eq_ok hm).mp h
  obtain ⟨⟨hset, hway⟩, repl, x, hfill, rfl⟩ := handleFill_eq_ok.mp hd
  refine ⟨r, hwait, ?_, hway, ⟨x, ?_⟩, ?_, fun s w hsw => ?_, Bool.or_false _, rfl⟩
  · unfold tailLine
    rw [hb]
    exact hl
  · rw [hset]
    exact hfill
  · change ((setLine _ r _).lines r.set r.way).valid = true
    rw [lines_setLine, if_pos ⟨rfl, rfl⟩]
    rfl
  · change ((setLine _ r _).lines s w).valid = _
    rw [lines_setLine, if_neg fun h => hsw (by rw [h.1, h.2])]

/-- Between `c` and `c'` a lookup has missed and has taken the line `r`. -/
def Takes (c c' : PipeCache P) (r : LineRef) : Prop :=
  c.pendingFillReq = false ∧ c'.pendingFillReq = true ∧
    ∃ e, c'.back = some e ∧ e.line = some r

end PipeCache

/-- A line has been hit by a lookup, or filled. -/
inductive Touch
  | hit (r : LineRef)
  | fill (r : LineRef)
  deriving DecidableEq

def Touch.line : Touch → LineRef
  | hit r => r
  | fill r => r

/-- The policy has been told of the touches `l`, newest first. -/
inductive Replays (π : ReplPolicy) : List Touch → π.State → Prop
  | nil : Replays π [] π.init
  | hit {l : List Touch} {s s' : π.State} (r : LineRef) (now stamp x : Nat) (h : Replays π l s)
      (hs : π.onHit s now r.set r.way stamp = .ok (s', x)) : Replays π (.hit r :: l) s'
  | fill {l : List Touch} {s s' : π.State} (r : LineRef) (now stamp x : Nat) (h : Replays π l s)
      (hs : π.onFill s now r.set r.way stamp = .ok (s', x)) : Replays π (.fill r :: l) s'

/-- A cache under test with the lines it has hit and filled, the newest first. -/
structure Watched (P : CacheParams) where
  bench : Bench P := {}
  touched : List Touch := []

namespace Watched

variable {P : CacheParams}

/-- What a call touches: an update the line it hits, a refill the line of the tail entry. -/
def touches (b b' : Bench P) : Bench.Label → List Touch
  | .update => (b.cache.hitLines b'.cache).map .hit
  | .answer m => if m.mop = .read then (b.cache.back.bind (·.line)).toList.map .fill else []
  | _ => []

inductive Step (b b' : Watched P) : Prop
  | call (l : Bench.Label) (h : Bench.Step b.bench l b'.bench)
      (ht : b'.touched = touches b.bench b'.bench l ++ b.touched)

def Reachable (b : Watched P) : Prop := ReflTransGen Step {} b

/-- The policy knows the touches, and every block was filled into its line. -/
structure Known (b : Watched P) : Prop where
  sound : Bench.Sound b.bench
  replays : Replays P.policy b.touched b.bench.cache.repl
  held : ∀ s w, (b.bench.cache.lines s w).valid = true → .fill ⟨s, w⟩ ∈ b.touched
  way : ∀ t ∈ b.touched, t.line.way < P.assoc

/-- The set that decides the way of a miss in set `s` once the lines `hits` have been looked up:
with the lag the one of the lookup before. -/
def decider (c : PipeCache P) (s : Nat) : List LineRef → Nat
  | [] => c.deciding s
  | r :: _ => if P.victimWayLag then r.set else s

theorem known_init : Known ({} : Watched P) := by
  refine ⟨Bench.sound_init, .nil, fun s w hv => ?_, fun t ht => ?_⟩
  · cases hv
  · cases ht

structure Middle (b : Watched P) (l : List LineRef) (d : PipeCache P) : Prop where
  replays : Replays P.policy (l.map .hit ++ b.touched) d.repl
  valid : ∀ s w, (d.lines s w).valid = (b.bench.cache.lines s w).valid
  way : ∀ r ∈ l, r.way < P.assoc
  deciding : ∀ s, d.deciding s = decider b.bench.cache s l

theorem Known.middle {b : Watched P} (h : Known b) {l : List LineRef} {d : PipeCache P} {now : Nat}
    (ht : PipeCache.Tells now b.bench.cache l d) : Middle b l d := by
  cases ht with
  | nothing hv =>
    refine ⟨?_, hv.valid, fun r hr => absurd hr List.not_mem_nil, hv.deciding⟩
    rw [hv.repl]
    exact h.replays
  | hit r stamp x hway hhit hvalid hdeciding =>
    refine ⟨.hit r now stamp x h.replays hhit, hvalid, fun r' hr => ?_, hdeciding⟩
    rw [List.mem_singleton.mp hr]
    exact hway

private theorem Known.update (hp : P.prefetcher.present = false) {b b' : Watched P} (h : Known b)
    {outs : List CacheOut} (hsound : Bench.Sound b'.bench)
    (hx : b.bench.cache.doUpdate b.bench.now = .ok (b'.bench.cache, outs))
    (ht : b'.touched = touches b.bench b'.bench .update ++ b.touched) : Known b' := by
  obtain ⟨d, hserves⟩ := h.sound.wf.doUpdate_serves hp hx
  have hm := h.middle hserves.tells
  have hrepl : b'.bench.cache.repl = d.repl := by
    cases hserves.closes with
    | keep _ hv => exact hv.repl
    | clear _ _ hr => exact hr
    | take _ _ _ _ _ _ _ hr => exact hr
  have hvalid : ∀ s w, (b'.bench.cache.lines s w).valid = true →
      (b.bench.cache.lines s w).valid = true := by
    intro s w hv
    rw [← hm.valid]
    cases hserves.closes with
    | keep _ hview => exact (hview.valid s w).symm.trans hv
    | clear _ _ _ hnone => exact absurd ((hnone s w).symm.trans hv) (by decide)
    | take r _ _ _ _ _ _ _ hempty hsub =>
      by_cases hr : (⟨s, w⟩ : LineRef) = r
      · subst hr
        exact absurd (hempty.symm.trans hv) (by decide)
      · exact (hsub s w hr).symm.trans hv
  refine ⟨hsound, ?_, fun s w hv => ?_, fun t hmem => ?_⟩
  · rw [ht, hrepl]
    exact hm.replays
  · rw [ht]
    exact List.mem_append_right _ (h.held s w (hvalid s w hv))
  · rw [ht] at hmem
    rcases List.mem_append.mp hmem with hmem | hmem
    · obtain ⟨r, hr, rfl⟩ := List.mem_map.mp hmem
      exact hm.way r hr
    · exact h.way t hmem

theorem touches_refill {b b' : Watched P} {m : MemTrans} {r : LineRef} (hm : m.mop = .read)
    (hr : PipeCache.Refills b.bench.now b.bench.cache b'.bench.cache r)
    (ht : b'.touched = touches b.bench b'.bench (.answer m) ++ b.touched) :
    b'.touched = .fill r :: b.touched := by
  have hl : b.bench.cache.back.bind (·.line) = some r := hr.line
  rw [ht, touches, if_pos hm, hl]
  rfl

private theorem Known.refill {b b' : Watched P} (h : Known b) {m m' : MemTrans}
    (hsound : Bench.Sound b'.bench)
    (hx : b.bench.cache.recvMemResp b.bench.now m' = .ok b'.bench.cache)
    (hm : m.mop = .read) (hm' : m'.mop = .read)
    (ht : b'.touched = touches b.bench b'.bench (.answer m) ++ b.touched) : Known b' := by
  obtain ⟨r, hr⟩ := PipeCache.recvMemResp_refills hm' hx
  have htouch := touches_refill hm hr ht
  obtain ⟨x, htold⟩ := hr.told
  refine ⟨hsound, ?_, fun s w hv => ?_, fun t hmem => ?_⟩
  · rw [htouch]
    exact .fill r _ _ x h.replays htold
  · rw [htouch]
    by_cases hsw : (⟨s, w⟩ : LineRef) = r
    · rw [hsw]
      exact List.mem_cons_self
    · exact List.mem_cons_of_mem _ (h.held s w ((hr.valid s w hsw).symm.trans hv))
  · rw [htouch] at hmem
    rcases List.mem_cons.mp hmem with rfl | hmem
    · exact hr.way
    · exact h.way t hmem

private theorem Known.idle {b b' : Watched P} (h : Known b) (hsound : Bench.Sound b'.bench)
    (hv : PipeCache.SameView b.bench.cache b'.bench.cache) (ht : b'.touched = b.touched) :
    Known b' := by
  refine ⟨hsound, ?_, fun s w hw => ?_, ?_⟩
  · rw [ht, hv.repl]
    exact h.replays
  · rw [ht]
    exact h.held s w ((hv.valid s w).symm.trans hw)
  · rw [ht]
    exact h.way

private theorem enqueue_view {c c' : PipeCache P} {now : Nat} {e : CachePipeEntry}
    (h : c.enqueue now e = .ok c') : PipeCache.SameView c c' := by
  obtain ⟨_, rest, _, rfl⟩ := PipeCache.enqueue_eq_ok.mp h
  exact ⟨rfl, fun _ _ => rfl, fun _ => rfl⟩

theorem Known.step (hp : P.prefetcher.present = false) {b b' : Watched P} (h : Known b)
    (hs : Step b b') : Known b' := by
  obtain ⟨l, hcall, ht⟩ := hs
  have hsound := hcall.sound h.sound
  obtain ⟨bench', touched'⟩ := b'
  cases hcall with
  | read addr hx => exact h.idle hsound (enqueue_view hx) ht
  | write addr data mask hwb hx =>
    unfold PipeCache.writeReq at hx
    rw [if_pos hwb] at hx
    obtain ⟨d, hd, hx⟩ := bind_eq_ok.mp hx
    cases hx
    exact h.idle hsound (enqueue_view hd) ht
  | update hx => exact h.update hp hsound hx ht
  | @answer c m data hm hx =>
    cases hop : m.mop with
    | read => exact h.refill hsound hx hop hop ht
    | write =>
      have hview : PipeCache.SameView b.bench.cache c := by
        rcases PipeCache.recvMemResp_cases hx with ⟨hr, _⟩ | ⟨_, _, rfl⟩
        · exact absurd (hop.symm.trans hr) (by decide)
        · exact ⟨rfl, fun _ _ => rfl, fun _ => rfl⟩
      refine h.idle hsound hview (ht.trans ?_)
      rw [touches, if_neg (by rw [hop]; decide)]
      rfl
  | flushAll => exact h.idle hsound ⟨rfl, fun _ _ => rfl, fun _ => rfl⟩ ht
  | resetStats => exact h.idle hsound ⟨rfl, fun _ _ => rfl, fun _ => rfl⟩ ht
  | tick => exact h.idle hsound (.refl _) ht

theorem Reachable.known (hp : P.prefetcher.present = false) {b : Watched P} (h : Reachable b) :
    Known b :=
  invariant_of_run (fun _ _ hs hk => hk.step hp hs) known_init h

/-- The way of a miss is chosen when the policy knows all that has been touched. -/
theorem Known.takes (hp : P.prefetcher.present = false) {b b' : Watched P} (h : Known b)
    (hs : Step b b') {r : LineRef} (ht : PipeCache.Takes b.bench.cache b'.bench.cache r) :
    b.bench.cache.fetching = false ∧
      b'.touched = (b.bench.cache.hitLines b'.bench.cache).map .hit ++ b.touched ∧
      ∃ (d : PipeCache P) (w : Nat), Replays P.policy b'.touched d.repl ∧
        (∀ s w, (d.lines s w).valid = (b.bench.cache.lines s w).valid) ∧
        d.deciding r.set =
          decider b.bench.cache r.set (b.bench.cache.hitLines b'.bench.cache) ∧
        d.missVictimWay r.set = .ok w ∧ r.way = w % P.assoc := by
  obtain ⟨hbefore, hafter, e, hb, hl⟩ := ht
  have hchange : b'.bench.cache.pendingFillReq ≠ b.bench.cache.pendingFillReq := by
    rw [hbefore, hafter]
    decide
  obtain ⟨l, hcall, htouched⟩ := hs
  obtain ⟨bench', touched'⟩ := b'
  have henqueue : ∀ {c c' : PipeCache P} {e : CachePipeEntry}, c.enqueue b.bench.now e = .ok c' →
      c'.pendingFillReq = c.pendingFillReq := by
    intro c c' e hx
    obtain ⟨_, rest, _, rfl⟩ := PipeCache.enqueue_eq_ok.mp hx
    rfl
  cases hcall with
  | read addr hx => exact absurd (henqueue hx) hchange
  | write addr data mask hwb hx =>
    unfold PipeCache.writeReq at hx
    rw [if_pos hwb] at hx
    obtain ⟨d, hd, hx⟩ := bind_eq_ok.mp hx
    cases hx
    exact absurd (henqueue hd) hchange
  | @update c outs hx =>
    obtain ⟨d, hserves⟩ := h.sound.wf.doUpdate_serves hp hx
    have hm := h.middle hserves.tells
    cases hserves.closes with
    | keep hk => exact absurd (hk hafter) (by rw [hserves.fill, hbefore]; decide)
    | clear _ hk => exact absurd (hafter.symm.trans hk) (by decide)
    | take r' w hl' hidle _ hw hway =>
      have hline : c.tailLine = some r := by
        unfold PipeCache.tailLine
        rw [hb]
        exact hl
      obtain rfl : r = r' := Option.some.inj (hline.symm.trans hl')
      refine ⟨hserves.fetch.symm.trans hidle, htouched, d, w, ?_, hm.valid, hm.deciding r.set, hw,
        hway⟩
      rw [htouched]
      exact hm.replays
  | answer m data hm hx =>
    rcases PipeCache.recvMemResp_cases hx with ⟨_, _, bk, r, repl, x, _, _, _, rfl⟩ | ⟨_, _, rfl⟩
    · exact absurd rfl hchange
    · exact absurd rfl hchange
  | flushAll => exact absurd rfl hchange
  | resetStats => exact absurd rfl hchange
  | tick => exact absurd rfl hchange

def perform (b : Watched P) (k : Bench.Call) : Option (Watched P) :=
  (b.bench.perform k).map fun bench =>
    { bench := bench, touched := touches b.bench bench (b.bench.label k) ++ b.touched }

theorem perform_step {b b' : Watched P} {k : Bench.Call} (h : b.perform k = some b') :
    Step b b' := by
  obtain ⟨bench, hb, rfl⟩ := Option.map_eq_some_iff.mp h
  exact .call (b.bench.label k) (Bench.perform_step hb) rfl

def fetch (addr : Addr) : List Bench.Call :=
  [.read addr, .tick, .update, .tick, .update, .answer, .tick, .update]

end Watched

end NpSim.Cache
