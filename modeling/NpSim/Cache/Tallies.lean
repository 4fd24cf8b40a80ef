/- digest: Two caches that work alike: they differ in their counters only. -/

import NpSim.Cache.NoCache
import NpSim.Lib.Pairs

set_option autoImplicit false
set_option relaxedAutoImplicit false

namespace NpSim.Cache

open NpSim.Lib.Partial NpSim.Lib.Pairs

/-- The counters of a cache and of its prefetcher. -/
structure Tally where
  stats : CacheStats
  prefetchIssued : Nat
  prefetchUseful : Nat

namespace PipeCache

variable {P : CacheParams} {now : Nat} {c d : PipeCache P} {t : Tally}

def withTally (t : Tally) (c : PipeCache P) : PipeCache P :=
  { c with
    stats := t.stats, prefetchIssued := t.prefetchIssued, prefetchUseful := t.prefetchUseful }

inductive Twin (c : PipeCache P) : PipeCache P → Prop
  | mk (t : Tally) : Twin c (c.withTally t)

/-- Twins, with the same message or answer. -/
def TwinWith {α : Type} (x y : PipeCache P × α) : Prop := Twin x.1 y.1 ∧ x.2 = y.2

theorem Twin.refl (c : PipeCache P) : Twin c c := .mk ⟨c.stats, c.prefetchIssued, c.prefetchUseful⟩

theorem Twin.isReady (h : Twin c d) : d.isReady = c.isReady := by
  cases h
  rfl

theorem Twin.nextUpdate (h : Twin c d) : d.nextUpdate = c.nextUpdate := by
  cases h
  rfl

/-- Twins, with the same entry or line. -/
def TwinOf {α : Type} (x y : α × PipeCache P) : Prop := x.1 = y.1 ∧ Twin x.2 y.2

private theorem alike_bind {α β : Type} {Q : α → β → Prop} {x y : Except Fault (PipeCache P)}
    {f : PipeCache P → Except Fault α} {g : PipeCache P → Except Fault β} (h : Both Twin x y)
    (hf : ∀ c t, Both Q (f c) (g (c.withTally t))) : Both Q (x >>= f) (y >>= g) := by
  refine h.bind fun c d hcd => ?_
  cases hcd with
  | mk t => exact hf c t

private theorem Twin.noteLag (h : Twin c d) (si : Nat) : Twin (c.noteLag si) (d.noteLag si) := by
  cases h with
  | mk t => exact rel_ite (.mk t) (.mk t)

private theorem Twin.invalidate (h : Twin c d) (r : LineRef) :
    Twin (c.setLine r (c.line r).invalidate) (d.setLine r (d.line r).invalidate) := by
  cases h with
  | mk t => exact .mk t

private theorem accessHit_twin (r : LineRef) :
    Both Twin (c.accessHit now r) ((c.withTally t).accessHit now r) := by
  unfold accessHit
  dsimp only
  have h := (Twin.mk (c := c) t).noteLag r.set
  generalize c.noteLag r.set = c', (c.withTally t).noteLag r.set = d' at h ⊢
  cases h with
  | mk t' => exact Both.after fun ⟨_, _⟩ => .mk ⟨_, _, _⟩

private theorem accessMiss_twin (si : Nat) :
    Both TwinOf (c.accessMiss si) ((c.withTally t).accessMiss si) :=
  Both.after fun _ =>
    ⟨rfl, (Twin.mk (c := { c with stats := _ }) ⟨_, _, _⟩).noteLag si |>.invalidate _⟩

private theorem access_twin (addr : Addr) :
    Both TwinOf (c.access now addr) ((c.withTally t).access now addr) := by
  unfold access
  dsimp only
  have hf : (c.withTally t).findWay (P.setIndexOf addr) (P.tagOf addr) =
    c.findWay (P.setIndexOf addr) (P.tagOf addr) := rfl
  have hd : ∀ s, findWay { c.withTally t with stats := s } (P.setIndexOf addr) (P.tagOf addr) =
    c.findWay (P.setIndexOf addr) (P.tagOf addr) := fun _ => rfl
  have hc : ∀ s, findWay { c with stats := s } (P.setIndexOf addr) (P.tagOf addr) =
    c.findWay (P.setIndexOf addr) (P.tagOf addr) := fun _ => rfl
  rw [hc, hd]
  cases c.findWay (P.setIndexOf addr) (P.tagOf addr) with
  | none => exact accessMiss_twin (c := { c with stats := _ }) (t := { t with stats := _ }) _
  | some w =>
    refine alike_bind (accessHit_twin (c := { c with stats := _ }) (t := { t with stats := _ }) _)
      fun c t => ⟨rfl, .mk t⟩

private theorem handleFill_twin (blk : LineRef) (addr : Addr) (ret : List Word) :
    Both Twin (c.handleFill now blk addr ret) ((c.withTally t).handleFill now blk addr ret) :=
  Both.require (Both.after fun _ => .mk t)

private theorem saveEvictInfo_twin (addr : Addr) :
    Both Twin (c.saveEvictInfo addr) ((c.withTally t).saveEvictInfo addr) :=
  Both.ite (.mk t) (Both.after fun _ => Both.ite (Both.after fun _ => .mk t) (.mk t))

private theorem respond_twin (x : CpuTrans) :
    TwinWith (c.respond now x) ((c.withTally t).respond now x) :=
  rel_ite ⟨.mk t, rfl⟩ ⟨.mk t, rfl⟩

private theorem handleHit_twin (bk : CachePipeEntry) (r : LineRef) :
    Both TwinWith (c.handleHit now bk r) ((c.withTally t).handleHit now bk r) := by
  unfold handleHit
  cases bk.mop with
  | read => exact Both.after fun _ => respond_twin (c := { c with blockedUntil := _ }) _
  | write => exact respond_twin (c := setLine { c with blockedUntil := _ } _ _) _

private theorem handlePrefetch_twin (addr : Addr) (isHit : Bool) :
    Both Twin (c.handlePrefetch now addr isHit)
      ((c.withTally t).handlePrefetch now addr isHit) := by
  refine Both.ite (.mk t) ?_
  have hp : (c.withTally t).pf = c.pf := rfl
  rw [hp]
  rcases P.prefetcher.probe c.pf addr isHit with ⟨maybe, pf⟩
  cases maybe with
  | none => exact .mk t
  | some paddr =>
    exact Both.ite (.mk t) (Both.after fun _ => Both.after fun ⟨_, _⟩ => .mk ⟨_, _, _⟩)

private theorem accessTail_twin (bk : CachePipeEntry) :
    Both TwinOf (c.accessTail now bk)
      ((c.withTally t).accessTail now bk) := by
  refine alike_bind (saveEvictInfo_twin bk.addr) fun c t => (access_twin bk.addr).bind ?_
  rintro ⟨r, c'⟩ ⟨r', d'⟩ ⟨hr, hcd⟩
  cases hr
  cases hcd with
  | mk t' => exact ⟨rfl, .mk t'⟩

private theorem finishUpdate_twin :
    Both TwinWith (c.finishUpdate now) ((c.withTally t).finishUpdate now) := by
  refine Both.ite ⟨.mk t, rfl⟩ ?_
  have hb : back { c.withTally t with pipe := none :: (c.withTally t).pipe.dropLast } =
      back { c with pipe := none :: c.pipe.dropLast } := rfl
  dsimp only
  rw [hb]
  cases back { c with pipe := none :: c.pipe.dropLast } with
  | none => exact ⟨.mk t, rfl⟩
  | some bk =>
    refine Both.ite ((accessTail_twin (c := { c with pipe := _ }) bk).bind ?_) ⟨.mk t, rfl⟩
    rintro ⟨_, c⟩ ⟨_, d⟩ ⟨_, hcd⟩
    cases hcd with
    | mk t' => exact ⟨.mk t', rfl⟩

private theorem missUpdate_twin (bk : CachePipeEntry) :
    TwinWith (c.missUpdate now bk) ((c.withTally t).missUpdate now bk) :=
  rel_ite ⟨.mk t, rfl⟩ (rel_ite (rel_ite ⟨.mk t, rfl⟩ ⟨.mk t, rfl⟩)
    (rel_ite ⟨.mk t, rfl⟩ ⟨.mk t, rfl⟩))

private theorem lookTail_twin (bk : CachePipeEntry) :
    Both TwinOf (c.lookTail now bk) ((c.withTally t).lookTail now bk) :=
  Both.ite (accessTail_twin bk) ⟨rfl, .mk t⟩

private theorem prefetchAfter_twin (bk : CachePipeEntry) (wasMiss : Bool) :
    Both Twin (c.prefetchAfter now bk wasMiss) ((c.withTally t).prefetchAfter now bk wasMiss) :=
  Both.ite (handlePrefetch_twin _ _) (.mk t)

private theorem hitUpdate_twin (bk : CachePipeEntry) (r : LineRef) (wasMiss : Bool) :
    Both TwinWith (c.hitUpdate now bk r wasMiss) ((c.withTally t).hitUpdate now bk r wasMiss) := by
  refine (handleHit_twin bk r).bind ?_
  rintro ⟨c', resp⟩ ⟨d', resp'⟩ ⟨hcd, hr⟩
  cases hr
  cases hcd with
  | mk t' =>
    refine alike_bind (prefetchAfter_twin bk wasMiss) fun c t => ?_
    refine Both.bind (finishUpdate_twin (c := c.retire bk) (t := t)) ?_
    rintro ⟨c', outs⟩ ⟨d', outs'⟩ ⟨hcd, ho⟩
    cases ho
    exact ⟨hcd, rfl⟩

private theorem serveTail_twin (bk : CachePipeEntry) :
    Both TwinWith (c.serveTail now bk) ((c.withTally t).serveTail now bk) := by
  refine (lookTail_twin bk).bind ?_
  rintro ⟨bk, c'⟩ ⟨bk', d'⟩ ⟨hb, hcd⟩
  cases hb
  cases hcd with
  | mk t' =>
    dsimp only
    cases bk.line with
    | none => exact rfl
    | some r =>
      refine Both.require (Both.ite ?_ ?_)
      · exact hitUpdate_twin (c := { c' with isReplay := _ }) bk r _
      · exact missUpdate_twin (c := { c' with isReplay := _ }) bk

private theorem serve_twin : Both TwinWith (c.serve now) ((c.withTally t).serve now) := by
  unfold serve
  have hb : (c.withTally t).back = c.back := rfl
  rw [hb]
  cases c.back with
  | none => exact finishUpdate_twin
  | some bk => exact serveTail_twin bk

private theorem updateImpl_twin :
    Both TwinWith (c.updateImpl now) ((c.withTally t).updateImpl now) := by
  have hd : TwinWith (c.deliverDeferred now) ((c.withTally t).deliverDeferred now) :=
    rel_ite ⟨.mk t, rfl⟩ ⟨.mk t, rfl⟩
  unfold updateImpl
  revert hd
  rcases c.deliverDeferred now with ⟨c', deferred⟩
  rcases (c.withTally t).deliverDeferred now with ⟨d', deferred'⟩
  rintro ⟨hcd, ho⟩
  cases ho
  cases hcd with
  | mk t' =>
    refine serve_twin.bind ?_
    rintro ⟨c, outs⟩ ⟨d, outs'⟩ ⟨hcd, ho⟩
    cases ho
    exact ⟨hcd, rfl⟩

private theorem enqueue_twin (e : CachePipeEntry) :
    Both Twin (c.enqueue now e) ((c.withTally t).enqueue now e) := by
  refine Both.require ?_
  have hp : (c.withTally t).pipe = c.pipe := rfl
  rw [hp]
  split
  · exact .mk t
  · exact rfl

private theorem writeThrough_twin (addr : Addr) (data : Word) (mask : BitVec 8) :
    Both TwinWith (c.writeThrough now addr data mask)
      ((c.withTally t).writeThrough now addr data mask) := by
  refine Both.ite ((access_twin addr).bind ?_) ⟨.mk t, rfl⟩
  rintro ⟨r, c'⟩ ⟨r', d'⟩ ⟨hr, hcd⟩
  cases hr
  cases hcd with
  | mk t' => exact Both.ite (Both.after fun _ => ⟨.mk t', rfl⟩) ⟨.mk t', rfl⟩

namespace Twin

theorem doUpdate (h : Twin c d) : Both TwinWith (c.doUpdate now) (d.doUpdate now) := by
  cases h with
  | mk t => exact Both.ite updateImpl_twin ⟨.mk t, rfl⟩

theorem readReq (h : Twin c d) (addr : Addr) :
    Both Twin (c.readReq now addr) (d.readReq now addr) := by
  cases h with
  | mk t => exact enqueue_twin _

theorem writeReq (h : Twin c d) (addr : Addr) (data : Word) (mask : BitVec 8) :
    Both TwinWith (c.writeReq now addr data mask) (d.writeReq now addr data mask) := by
  cases h with
  | mk t =>
    exact Both.ite (alike_bind (enqueue_twin _) fun c t => ⟨.mk t, rfl⟩) (writeThrough_twin ..)

theorem recvMemResp (h : Twin c d) (m : MemTrans) :
    Both Twin (c.recvMemResp now m) (d.recvMemResp now m) := by
  cases h with
  | mk t =>
    unfold PipeCache.recvMemResp
    cases m.mop with
    | write => exact Both.require (Both.ite (.mk t) (.mk t))
    | read =>
      refine Both.require ?_
      have hb : (c.withTally t).back = c.back := rfl
      rw [hb]
      cases c.back with
      | none => exact rfl
      | some bk =>
        dsimp only
        cases bk.line with
        | none => exact rfl
        | some r =>
          exact alike_bind (handleFill_twin (c := { c with rWaiting := _ }) r _ _) fun c t => .mk t

theorem flushAll (h : Twin c d) : Twin c.flushAll d.flushAll := by
  cases h with
  | mk t => exact .mk t

theorem resetStats (h : Twin c d) : Twin c.resetStats d.resetStats := by
  cases h with
  | mk t => exact .mk { t with stats := {} }

theorem resetPrefetcher (h : Twin c d) : Twin c.resetPrefetcher d.resetPrefetcher := by
  cases h with
  | mk t => exact .mk { t with prefetchIssued := 0, prefetchUseful := 0 }

end Twin

end PipeCache

namespace NoCache

variable {c d : NoCache}

inductive Twin (c : NoCache) : NoCache → Prop
  | mk (s : CacheStats) : Twin c { c with stats := s }

namespace Twin

theorem refl (c : NoCache) : Twin c c := .mk c.stats

theorem isReady (h : Twin c d) : d.isReady = c.isReady := by
  cases h
  rfl

theorem readReq (h : Twin c d) (addr : Addr) :
    Both (fun x y => Twin x.1 y.1 ∧ x.2 = y.2) (c.readReq addr) (d.readReq addr) := by
  cases h with
  | mk s => exact Both.require ⟨.mk _, rfl⟩

theorem writeReq (h : Twin c d) (addr : Addr) (data : Word) (mask : BitVec 8) :
    Both (fun x y => Twin x.1 y.1 ∧ x.2 = y.2) (c.writeReq addr data mask)
      (d.writeReq addr data mask) := by
  cases h with
  | mk s => exact Both.require ⟨.mk _, rfl⟩

theorem recvMemResp (h : Twin c d) (m : MemTrans) :
    Both (fun x y => Twin x.1 y.1 ∧ x.2 = y.2) (c.recvMemResp m) (d.recvMemResp m) := by
  cases h with
  | mk s =>
    unfold NoCache.recvMemResp
    cases m.mop with
    | read => exact Both.require ⟨.mk s, rfl⟩
    | write => exact Both.require ⟨.mk s, rfl⟩

theorem resetStats (h : Twin c d) : Twin c.resetStats d.resetStats := by
  cases h with
  | mk s => exact .mk {}

end Twin

end NoCache

end NpSim.Cache
