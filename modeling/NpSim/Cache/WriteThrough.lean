/- digest: The write in flight of a write-through cache: the calls on the cache do not look at it,
   but for a refill, which waits for it, and a flush, which forgets it. -/

import NpSim.Cache.Repeats

set_option autoImplicit false
set_option relaxedAutoImplicit false

namespace NpSim.Cache.PipeCache

open NpSim.Lib.Partial

variable {P : CacheParams} {c c' : PipeCache P} {now : Nat} {b : Bool}

/-- The cache with `w_waiting_` set to `b`. -/
def withWrite (b : Bool) (c : PipeCache P) : PipeCache P := { c with wWaiting := b }

def withWrite₂ {α : Type} (b : Bool) (x : α × PipeCache P) : α × PipeCache P :=
  (x.1, x.2.withWrite b)

theorem noteLag_withWrite (si : Nat) :
    (c.withWrite b).noteLag si = (c.noteLag si).withWrite b := by
  unfold noteLag
  split <;> rfl

theorem accessHit_withWrite (now : Nat) (r : LineRef) :
    (c.withWrite b).accessHit now r = (c.accessHit now r).map (withWrite b) := by
  unfold accessHit
  rw [noteLag_withWrite]
  exact bind_eq_map_bind fun x _ => rfl

theorem accessMiss_withWrite (si : Nat) :
    (c.withWrite b).accessMiss si = (c.accessMiss si).map (withWrite₂ b) := by
  unfold accessMiss
  refine bind_eq_map_bind fun w _ => ?_
  dsimp only
  have hlag := noteLag_withWrite (b := b) si
    (c := { c with stats := { c.stats with misses := c.stats.misses + 1 } })
  exact congrArg (fun d : PipeCache P =>
    Except.ok ((⟨si, w % P.assoc⟩ : LineRef), d.setLine ⟨si, w % P.assoc⟩
      (d.line ⟨si, w % P.assoc⟩).invalidate)) hlag

theorem access_withWrite (now : Nat) (addr : Addr) :
    (c.withWrite b).access now addr = (c.access now addr).map (withWrite₂ b) := by
  cases hw : c.findWay (P.setIndexOf addr) (P.tagOf addr) with
  | none =>
    rw [access_of_miss hw, access_of_miss (show (c.withWrite b).findWay _ _ = none from hw)]
    exact accessMiss_withWrite (b := b) (P.setIndexOf addr)
      (c := { c with stats := { c.stats with accesses := c.stats.accesses + 1 } })
  | some w =>
    rw [access_of_hit hw, access_of_hit (show (c.withWrite b).findWay _ _ = some w from hw)]
    have hhit := accessHit_withWrite now (b := b) ⟨P.setIndexOf addr, w⟩
      (c := { c with stats := { c.stats with accesses := c.stats.accesses + 1 } })
    refine (congrArg (· >>= _) hhit).trans ?_
    exact map_bind_eq_map_bind fun x _ => rfl

theorem saveEvictInfo_through (hwt : P.writeBack = false) (addr : Addr) :
    c.saveEvictInfo addr = .ok { c with pendingEvict := false, examined := none } := by
  unfold saveEvictInfo
  dsimp only
  rw [hwt]
  rfl

theorem accessTail_withWrite (now : Nat) (hwt : P.writeBack = false) (bk : CachePipeEntry) :
    (c.withWrite b).accessTail now bk = (c.accessTail now bk).map (withWrite₂ b) := by
  unfold accessTail
  rw [saveEvictInfo_through hwt, saveEvictInfo_through hwt]
  simp only [ok_bind]
  have hacc := access_withWrite now (b := b) bk.addr
    (c := { c with pendingEvict := false, examined := none })
  refine (congrArg (· >>= _) hacc).trans ?_
  exact map_bind_eq_map_bind fun x _ => rfl

theorem lookTail_rest {bk bk' : CachePipeEntry} (h : c.lookTail now bk = .ok (bk', c')) :
    c'.pendingFlush = c.pendingFlush ∧ c'.pipe.dropLast = c.pipe.dropLast ∧
      c'.pendingFillReq = c.pendingFillReq ∧ c'.wWaiting = c.wWaiting := by
  unfold lookTail at h
  split at h
  · obtain ⟨_, ht⟩ := accessTail_looked h
    refine ⟨ht.pendingFlush, ?_, ht.pendingFillReq, ht.wWaiting⟩
    rw [ht.pipe, List.dropLast_concat]
  · cases h
    exact ⟨rfl, rfl, rfl, rfl⟩

theorem accessTail_evict (hwt : P.writeBack = false) {bk bk' : CachePipeEntry}
    (h : c.accessTail now bk = .ok (bk', c')) : c'.pendingEvict = false := by
  unfold accessTail at h
  rw [saveEvictInfo_through hwt, ok_bind] at h
  obtain ⟨⟨r, d⟩, hd, h⟩ := bind_eq_ok.mp h
  rw [show c' = _ from (congrArg Prod.snd (Except.ok.inj h)).symm]
  exact (access_looked hd).evict.1

theorem lookTail_evict (hwt : P.writeBack = false) (hev : c.pendingEvict = false)
    {bk bk' : CachePipeEntry} (h : c.lookTail now bk = .ok (bk', c')) :
    c'.pendingEvict = false := by
  unfold lookTail at h
  split at h
  · exact accessTail_evict hwt h
  · cases h
    exact hev

theorem lookTail_withWrite (hwt : P.writeBack = false) (bk : CachePipeEntry) :
    (c.withWrite b).lookTail now bk = (c.lookTail now bk).map (withWrite₂ b) := by
  unfold lookTail
  split
  · exact accessTail_withWrite _ hwt bk
  · rfl

def withWriteSent (b : Bool) (x : PipeCache P × List CacheOut) : PipeCache P × List CacheOut :=
  (x.1.withWrite b, x.2)

theorem handleHit_withWrite (bk : CachePipeEntry) (r : LineRef) :
    (c.withWrite b).handleHit now bk r = (c.handleHit now bk r).map (withWriteSent b) := by
  have hresp : ∀ (t : CpuTrans) (d : PipeCache P),
      (d.withWrite b).respond now t = withWriteSent b (d.respond now t) := by
    intro t d
    unfold respond
    split <;> rfl
  unfold handleHit
  dsimp only
  split
  · exact bind_eq_map_bind fun dt _ =>
      congrArg Except.ok (hresp ⟨bk.addr, dt, P.cacheId, .read⟩ { c with blockedUntil := now + 1 })
  · exact congrArg Except.ok (hresp ⟨bk.addr, _, P.cacheId, .write⟩
      (({ c with blockedUntil := now + 1 } : PipeCache P).setLine r (c.line r).setDirty))

theorem handlePrefetch_withWrite (addr : Addr) (isHit : Bool) :
    (c.withWrite b).handlePrefetch now addr isHit =
      (c.handlePrefetch now addr isHit).map (withWrite b) := by
  unfold handlePrefetch
  split
  · rfl
  · rw [show (c.withWrite b).pf = c.pf from rfl]
    rcases P.prefetcher.probe c.pf addr isHit with ⟨maybe, pf⟩
    cases maybe with
    | none => rfl
    | some paddr =>
      dsimp only
      change (if (c.findWay (P.setIndexOf paddr) (P.tagOf paddr)).isSome then _ else _) =
        Except.map _ (if (c.findWay (P.setIndexOf paddr) (P.tagOf paddr)).isSome then _ else _)
      split
      · rfl
      · exact bind_eq_map_bind fun way _ => bind_eq_map_bind fun x _ => rfl

theorem prefetchAfter_withWrite (bk : CachePipeEntry) (wasMiss : Bool) :
    (c.withWrite b).prefetchAfter now bk wasMiss =
      (c.prefetchAfter now bk wasMiss).map (withWrite b) := by
  unfold prefetchAfter
  change (if bk.mop = .read ∧ c.rWaiting = false then _ else _) = _
  split
  · exact handlePrefetch_withWrite bk.addr _
  · rfl

theorem finishUpdate_withWrite (now : Nat) (hwt : P.writeBack = false)
    (hno : b = true → (c.pendingFlush && c.pipe.all (·.isNone)) = false) :
    (c.withWrite b).finishUpdate now = (c.finishUpdate now).map (withWriteSent b) := by
  unfold finishUpdate
  change (if (c.pendingFlush && c.pipe.all (·.isNone)) = true then _ else _) = _
  split
  · rename_i hflush
    have hb : b = false := Bool.eq_false_iff.mpr fun hb => by
      cases hflush.symm.trans (hno hb)
    rw [hb]
    rfl
  · dsimp only
    rw [back_shifted, back_shifted, show (c.withWrite b).nextTail = c.nextTail from rfl]
    cases c.nextTail with
    | none => rfl
    | some bk =>
      dsimp only
      change (if bk.line = none ∧ ({ c with pipe := none :: c.pipe.dropLast } : PipeCache P).probe
        bk.addr = false then _ else _) = _
      split
      · have hacc := accessTail_withWrite now (b := b) hwt bk
          (c := { c with pipe := none :: c.pipe.dropLast })
        refine (congrArg (· >>= _) hacc).trans ?_
        exact map_bind_eq_map_bind fun x _ => rfl
      · rfl

def drained (c : PipeCache P) : Bool := c.pendingFlush && c.pipe.dropLast.all (·.isNone)

theorem all_isNone_concat (l : List (Option CachePipeEntry)) :
    (l ++ [none]).all (·.isNone) = l.all (·.isNone) := by
  rw [List.all_append]
  exact Bool.and_true _

theorem hitUpdate_withWrite (hwt : P.writeBack = false) {bk : CachePipeEntry} {r : LineRef}
    (hv : (c.line r).valid = true) (hno : b = true → c.drained = false) (wasMiss : Bool) :
    (c.withWrite b).hitUpdate now bk r wasMiss =
      (c.hitUpdate now bk r wasMiss).map (withWriteSent b) := by
  unfold hitUpdate
  rw [handleHit_withWrite]
  refine map_bind_eq_map_bind fun x hx => ?_
  have hh := handleHit_cases hv hx
  dsimp only [withWriteSent]
  rw [prefetchAfter_withWrite]
  refine map_bind_eq_map_bind fun f hf => ?_
  have hs := (prefetchAfter_cases hf).1
  have hfin := finishUpdate_withWrite now (b := b) hwt (c := f.retire bk) fun hb => by
    change (f.pendingFlush && (f.pipe.dropLast ++ [none]).all (·.isNone)) = false
    rw [all_isNone_concat, hs.pendingFlush, hs.pipe, hh.pendingFlush, hh.pipe]
    exact hno hb
  refine (congrArg (· >>= _) hfin).trans ?_
  exact map_bind_eq_map_bind fun y _ => rfl

def flushes (c : PipeCache P) : Bool := c.drained && (c.back.isNone || c.tailHits)

theorem serveTail_withWrite (hwt : P.writeBack = false) {bk : CachePipeEntry}
    (hb : c.back = some bk) (hev : c.pendingEvict = false) (hw : c.wWaiting = false)
    (hfill : b = true → c.pendingFillReq = false) (hno : b = true → c.flushes = false) :
    (c.withWrite b).serveTail now bk = (c.serveTail now bk).map (withWriteSent b) := by
  unfold serveTail
  rw [lookTail_withWrite hwt]
  refine map_bind_eq_map_bind fun x hx => ?_
  obtain ⟨bk', e⟩ := x
  obtain ⟨hflush, hpipe, hpend, hwait⟩ := lookTail_rest hx
  have hevict := lookTail_evict hwt hev hx
  dsimp only [withWrite₂]
  cases hline : bk'.line with
  | none => rfl
  | some r =>
    dsimp only
    change (require (e.isReplay = false ∨ (e.line r).valid = true) _ >>= _) = _
    refine bind_eq_map_bind fun _ _ => ?_
    change (if (e.line r).valid = true then _ else _) =
      Except.map _ (if (e.line r).valid = true then _ else _)
    split
    · rename_i hv
      refine hitUpdate_withWrite hwt (c := { e with isReplay := false }) hv (fun hb' => ?_) _
      have hhits := (tailHits_of_lookTail hb hx hline hv).1
      have hnone := hno hb'
      unfold flushes at hnone
      rw [hhits, Bool.or_true, Bool.and_true] at hnone
      unfold drained at hnone ⊢
      dsimp only
      rw [hflush, hpipe]
      exact hnone
    · refine congrArg Except.ok ?_
      unfold missUpdate
      dsimp only
      have hno : ¬e.pendingEvict = true := Bool.eq_false_iff.mp hevict
      have hfree : ¬e.wWaiting = true := Bool.eq_false_iff.mp (hwait.trans hw)
      change (if (!e.pendingFillReq) = true then _ else if e.pendingEvict = true then _ else
        if b = true then _ else _) = withWriteSent b (if (!e.pendingFillReq) = true then _ else
          if e.pendingEvict = true then _ else if e.wWaiting = true then _ else _)
      by_cases hf : e.pendingFillReq = true
      · have hb' : ¬b = true := fun hb' => by
          cases (hfill hb').symm.trans (hpend.symm.trans hf)
        have hne : ¬(!e.pendingFillReq) = true := by
          rw [hf]
          decide
        rw [if_neg hne, if_neg hno, if_neg hb', if_neg hne, if_neg hno, if_neg hfree]
        rfl
      · have hf' : (!e.pendingFillReq) = true := by
          rw [Bool.not_eq_true] at hf
          rw [hf]
          rfl
        rw [if_pos hf', if_pos hf']
        rfl

/-- The part of an update after the deferred response: it does not look at the write in flight,
unless the refill of the tail entry waits for it. -/
theorem WellFormed.serve_withWrite (hwt : P.writeBack = false) (h : WellFormed c)
    (hev : c.pendingEvict = false) (hw : c.wWaiting = false)
    (hno : b = true → c.flushes = false) :
    (c.withWrite b).serve now =
      if b && c.pendingFillReq then .ok ({ c.withWrite b with blockedUntil := now + 1 }, [])
      else (c.serve now).map (withWriteSent b) := by
  unfold PipeCache.serve
  rw [show (c.withWrite b).back = c.back from rfl]
  cases hback : c.back with
  | none =>
    have hfill : c.pendingFillReq = false := by
      cases h.tail with
      | empty _ hq => exact hq.pendingFillReq
      | fresh _ hb => cases hb.symm.trans hback
      | missed _ _ hb => cases hb.symm.trans hback
      | filling _ _ hb => cases hb.symm.trans hback
      | filled _ _ hb => cases hb.symm.trans hback
    rw [hfill, Bool.and_false]
    refine finishUpdate_withWrite _ hwt fun hb => ?_
    have hnone := hno hb
    unfold flushes drained at hnone
    rw [hback] at hnone
    have hpipe := pipe_eq h.len
    rw [hback] at hpipe
    rw [hpipe, all_isNone_concat]
    simpa using hnone
  | some bk =>
    dsimp only
    split
    · rename_i hst
      rw [Bool.and_eq_true] at hst
      obtain ⟨rfl, hfill⟩ := hst
      cases h.tail with
      | empty _ hq => cases hq.pendingFillReq.symm.trans hfill
      | fresh _ _ _ hq => cases hq.pendingFillReq.symm.trans hfill
      | filling _ _ _ _ _ _ _ hf => cases hf.symm.trans hfill
      | filled _ _ _ _ _ _ _ hf => cases hf.symm.trans hfill
      | missed bk₂ r hb hh hv _ _ _ _ hp =>
        cases Option.some.inj (hb.symm.trans hback)
        unfold serveTail lookTail
        rw [if_neg (by rw [hh.line]; exact Option.some_ne_none r), ok_bind]
        dsimp only
        rw [hh.line]
        dsimp only
        change (require (c.isReplay = false ∨ (c.line r).valid = true) _ >>= _) = _
        rw [require_of (.inl hp), ok_bind]
        change (if (c.line r).valid = true then _ else _) = _
        rw [if_neg (by rw [hv]; decide)]
        unfold missUpdate
        dsimp only
        change Except.ok (if (!c.pendingFillReq) = true then _ else
          if c.pendingEvict = true then _ else if true = true then _ else _) = _
        rw [hfill, hev, if_neg (by decide), if_neg (by decide), if_pos rfl]
        exact congrArg (fun x => Except.ok
          (({ c.withWrite true with isReplay := x, blockedUntil := now + 1 } : PipeCache P), []))
          hp.symm
    · rename_i hst
      refine serveTail_withWrite hwt hback hev hw (fun hb => ?_) hno
      rw [hb, Bool.true_and, Bool.not_eq_true] at hst
      exact hst

theorem finishUpdate_evict (hwt : P.writeBack = false) (hev : c.pendingEvict = false)
    {outs : List CacheOut} (h : c.finishUpdate now = .ok (c', outs)) : c'.pendingEvict = false := by
  unfold finishUpdate at h
  split at h
  · cases h
    rfl
  · dsimp only at h
    split at h
    · split at h
      · obtain ⟨⟨bk', d⟩, hd, h⟩ := bind_eq_ok.mp h
        cases h
        change d.pendingEvict = false
        exact accessTail_evict hwt hd
      · cases h
        exact hev
    · cases h
      exact hev

theorem hitUpdate_evict (hwt : P.writeBack = false) (hev : c.pendingEvict = false)
    {bk : CachePipeEntry} {r : LineRef} {wasMiss : Bool} {outs : List CacheOut}
    (h : c.hitUpdate now bk r wasMiss = .ok (c', outs)) : c'.pendingEvict = false := by
  have hresp : ∀ (t : CpuTrans) (d : PipeCache P),
      (d.respond now t).1.pendingEvict = d.pendingEvict := by
    intro t d
    unfold respond
    split <;> rfl
  unfold hitUpdate at h
  obtain ⟨⟨d, resp⟩, hd, h⟩ := bind_eq_ok.mp h
  obtain ⟨f, hf, h⟩ := bind_eq_ok.mp h
  obtain ⟨⟨k, o⟩, hk, h⟩ := bind_eq_ok.mp h
  cases h
  have hhit : d.pendingEvict = false := by
    unfold handleHit at hd
    dsimp only at hd
    split at hd
    · obtain ⟨dt, _, hd⟩ := bind_eq_ok.mp hd
      rw [show d = _ from (congrArg Prod.fst (Except.ok.inj hd)).symm]
      exact (hresp _ _).trans hev
    · rw [show d = _ from (congrArg Prod.fst (Except.ok.inj hd)).symm]
      exact (hresp _ _).trans hev
  refine finishUpdate_evict (c := f.retire bk) hwt ?_ hk
  change f.pendingEvict = false
  unfold prefetchAfter at hf
  split at hf
  · exact (handlePrefetch_cases hf).2.1.trans hhit
  · cases hf
    exact hhit

theorem serve_evict (hwt : P.writeBack = false) (hev : c.pendingEvict = false)
    {outs : List CacheOut} (h : c.serve now = .ok (c', outs)) : c'.pendingEvict = false := by
  unfold PipeCache.serve at h
  split at h
  · unfold serveTail at h
    obtain ⟨⟨bk', e⟩, he, h⟩ := bind_eq_ok.mp h
    have hev' := lookTail_evict hwt hev he
    dsimp only at h
    split at h
    · cases h
    · obtain ⟨_, h⟩ := require_bind_eq_ok.mp h
      split at h
      · exact hitUpdate_evict (c := { e with isReplay := false }) hwt hev' h
      · rw [show c' = _ from (congrArg Prod.fst (Except.ok.inj h)).symm]
        unfold missUpdate
        split
        · exact hev'
        · split
          · split
            · exact hev'
            · rfl
          · split <;> exact hev'
  · exact finishUpdate_evict hwt hev h

/-- The cache without the write in flight that a write-through cache does not look at. -/
def side (c : PipeCache P) : PipeCache P := if P.writeBack then c else c.withWrite false

theorem side_back_eq (hwb : P.writeBack = true) (c : PipeCache P) : c.side = c := if_pos hwb

theorem side_through (hwt : P.writeBack = false) (c : PipeCache P) :
    c.side = c.withWrite false := if_neg (by rw [hwt]; decide)

/-- A due update of a write-through cache: the refill of the tail entry waits for the write in
flight, or the update is one of the cache without that write. -/
theorem doUpdate_through (hwt : P.writeBack = false) (h : WellFormed c.side)
    (hev : c.pendingEvict = false) (hno : c.wWaiting = true → c.flushes = false)
    {outs : List CacheOut} (hdue : c.nextUpdate ≤ now) (hx : c.doUpdate now = .ok (c', outs)) :
    c.wWaiting = true ∧ c.pendingFillReq = true ∧ c' = { c with blockedUntil := now + 1 } ∧
        outs = [] ∨
      ∃ d, c.side.serve now = .ok (d, outs) ∧ c.side.doUpdate now = .ok (d, outs) ∧
        c' = d.withWrite c.wWaiting ∧ c'.side = d := by
  have himm : Immediate P := by
    unfold Immediate
    rw [hwt]
    rfl
  rw [side_through hwt] at h ⊢
  have hserve : ∀ b, c.wWaiting = b → c.serve now =
      if b && c.pendingFillReq then .ok ({ c with blockedUntil := now + 1 }, [])
      else ((c.withWrite false).serve now).map (withWriteSent b) := by
    rintro b rfl
    exact h.serve_withWrite (b := c.wWaiting) hwt hev rfl hno
  have hself : (c.withWrite false).serve now =
      ((c.withWrite false).serve now).map (withWriteSent false) :=
    h.serve_withWrite (b := false) hwt hev rfl (fun hb => by cases hb)
  obtain ⟨_, o, hs, rfl⟩ := (doUpdate_cases hx).resolve_left fun hn => hn.1 hdue
  rw [deliverDeferred_never now (c := c) (h.sched himm)] at hs ⊢
  rw [hserve _ rfl] at hs
  split at hs
  · rename_i hstall
    rw [Bool.and_eq_true] at hstall
    cases hs
    exact .inl ⟨hstall.1, hstall.2, rfl, rfl⟩
  · right
    cases hside : (c.withWrite false).serve now with
    | error e =>
      rw [hside] at hs
      cases hs
    | ok x =>
      rw [hside] at hs hself
      cases hs
      have hx : x.1 = x.1.withWrite false := congrArg Prod.fst (Except.ok.inj hself)
      refine ⟨x.1, rfl, ?_, rfl, (side_through hwt _).trans hx.symm⟩
      unfold PipeCache.doUpdate PipeCache.updateImpl
      rw [if_pos (show (c.withWrite false).nextUpdate ≤ now from hdue),
        deliverDeferred_never now (c := c.withWrite false) (h.sched himm)]
      dsimp only
      rw [hside]
      rfl

/-- A call that changes no flag, no entry and the validity of no line. -/
structure Touched (c d : PipeCache P) : Prop where
  same : SameControl c d
  evict : d.pendingEvict = c.pendingEvict ∧ d.evictData = c.evictData
  valid : ∀ r, (d.line r).valid = (c.line r).valid

theorem WellFormed.touched {d : PipeCache P} (h : WellFormed c) (ht : Touched c d) :
    WellFormed d := by
  obtain ⟨hs, he, hv⟩ := ht
  refine ⟨⟨?_, fun hsh => ?_, ?_, hs.sized h.sized, ?_, fun hi => ?_⟩, ?_⟩
  · rw [hs.pipe]
    exact h.len
  · rw [hs.pipe]
    exact h.front (hs.isShifted ▸ hsh)
  · rw [hs.pipe]
    exact h.rest
  · rw [hs.served]
    exact h.served
  · rw [hs.schedHitTime]
    exact h.sched hi
  · refine h.tail.congr_valid ?_ hv hs.rWaiting hs.wWaiting hs.pendingFillReq hs.isReplay he.1 he.2
    rw [back, back, hs.pipe]

theorem writeThrough_cases {addr : Addr} {data : Word} {mask : BitVec 8} {outs : List CacheOut}
    (h : c.writeThrough now addr data mask = .ok (c', outs)) :
    (∃ d, Touched c d ∧ c' = { d with wWaiting := true }) ∧
      outs = [
        .memReq { mop := .write, addr := addr, id := P.cacheId, bstLen := 1, data := [data],
                  strb := [mask] },
        .cpuResp ⟨addr, 0, P.cacheId, .write⟩] := by
  unfold PipeCache.writeThrough at h
  dsimp only at h
  split at h
  · rename_i hp
    obtain ⟨⟨r, e⟩, he, h⟩ := bind_eq_ok.mp h
    have hl := access_looked he
    obtain ⟨l, hlines, _, hcase⟩ := hl.lines
    have hvalid : ∀ q, (e.line q).valid = (c.line q).valid := by
      rcases hcase with ⟨hv, hlv, _⟩ | ⟨_, hno, _⟩
      · intro q
        rw [line, hlines]
        split
        · rename_i hq
          rw [hlv, line, hq.1, hq.2]
          exact hv.symm
        · rfl
      · cases hp.symm.trans hno
    dsimp only at h
    split at h
    · obtain ⟨w, _, h⟩ := bind_eq_ok.mp h
      cases h
      refine ⟨⟨e.setLine r { e.line r with
        data := (e.line r).data.set (P.offsetOf addr / 4)
          ((~~~strbExtend mask &&& w) ||| (strbExtend mask &&& data)) }, ?_, rfl⟩, rfl⟩
      refine ⟨⟨hl.same.pipe, hl.same.rWaiting, hl.same.wWaiting, hl.same.isShifted,
        hl.same.isReplay, hl.same.pendingFlush, hl.same.pendingFillReq, hl.same.blockedUntil,
        hl.same.schedHitTime, hl.same.schedHitResp, hl.same.served, fun hs s w' => ?_⟩,
        ⟨hl.evict.1, hl.evict.2.2⟩, fun q => ?_⟩
      · rw [lines_setLine]
        split
        · change (List.set _ _ _).length = _
          rw [List.length_set]
          exact hl.same.sized hs r.set r.way
        · exact hl.same.sized hs s w'
      · rw [line, lines_setLine]
        split
        · rename_i hq
          change (e.lines r.set r.way).valid = _
          rw [← hvalid q, line, hq.1, hq.2]
        · exact hvalid q
    · cases h
      exact ⟨⟨e, ⟨hl.same, ⟨hl.evict.1, hl.evict.2.2⟩, hvalid⟩, rfl⟩, rfl⟩
  · cases h
    exact ⟨⟨c, ⟨.refl c, ⟨rfl, rfl⟩, fun _ => rfl⟩, rfl⟩, rfl⟩

theorem enqueue_side {e : CachePipeEntry} (h : c.enqueue now e = .ok c') :
    c.side.enqueue now e = .ok c'.side := by
  unfold side
  split
  · exact h
  · obtain ⟨hs, rest, hp, rfl⟩ := enqueue_eq_ok.mp h
    exact enqueue_eq_ok.mpr ⟨hs, rest, hp, rfl⟩

theorem recvMemResp_side (hwt : P.writeBack = false) {m : MemTrans}
    (h : c.recvMemResp now m = .ok c') :
    (m.mop = .read ∧ c.side.recvMemResp now m = .ok c'.side ∧ c'.wWaiting = c.wWaiting) ∨
      m.mop = .write ∧ c.wWaiting = true ∧
        c' = { c with wWaiting := false, blockedUntil := now + 2 } := by
  rw [side_through hwt, side_through hwt]
  cases hop : m.mop with
  | read =>
    obtain ⟨hr, bk, r, d, hb, hl, hd, rfl⟩ := (recvRead_eq_ok hop).mp h
    obtain ⟨hfound, repl, stamp, hfill, rfl⟩ := handleFill_eq_ok.mp hd
    exact .inl ⟨rfl, (recvRead_eq_ok hop).mpr ⟨hr, bk, r, _, hb, hl,
      handleFill_eq_ok.mpr ⟨hfound, repl, stamp, hfill, rfl⟩, rfl⟩, rfl⟩
  | write =>
    obtain ⟨hw, rfl⟩ := (recvWrite_eq_ok hop).mp h
    rw [if_neg (by rw [hwt]; decide)]
    exact .inr ⟨rfl, hw, rfl⟩

end NpSim.Cache.PipeCache
