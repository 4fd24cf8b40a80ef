/- digest: What a second update in the same tick would find: when an update leaves the cache due,
   and what an update sends to memory. -/

import NpSim.Cache.Fence

set_option autoImplicit false
set_option relaxedAutoImplicit false

namespace NpSim.Cache.PipeCache

open NpSim.Lib.Partial

variable {P : CacheParams} {c c' : PipeCache P} {now : Nat}

/-- The entry that the next shift brings to the tail. -/
def nextTail (c : PipeCache P) : Option CachePipeEntry := c.pipe.dropLast.getLast?.join

/-- An update finds the tail empty and brings an entry closer to it, and the entry it brings to the
tail, if any, hits. -/
def dueAgain (c : PipeCache P) : Bool :=
  c.back.isNone && !c.pipe.all (·.isNone) && c.nextTail.all fun e => c.probe e.addr

/-- The request that an update sends to memory, if it sends one. -/
def toSend (c : PipeCache P) : Option MemTrans :=
  c.back.bind fun bk => bk.line.bind fun r =>
    if (c.line r).valid || !c.pendingFillReq || c.wWaiting then none
    else if c.pendingEvict then
      some { mop := .write, addr := c.evictAddr, id := P.cacheId,
             bstLen := c.evictData.length % 2 ^ 16, data := c.evictData }
    else some { mop := .read, addr := bk.addr, id := P.cacheId, bstLen := P.lineWords % 2 ^ 16 }

theorem late_of_blocked (hs : c.schedHitTime = infTime) (hb : c.blockedUntil = now + 1) :
    (now : Tick) < c.nextUpdate := by
  unfold nextUpdate
  rw [hs, hb]
  split
  · exact ENat.natCast_lt_top now
  · exact lt_min (by exact_mod_cast Nat.lt_succ_self now) (ENat.natCast_lt_top now)

theorem back_shifted (c : PipeCache P) :
    ({ c with pipe := none :: c.pipe.dropLast } : PipeCache P).back = c.nextTail := by
  unfold back nextTail
  dsimp only
  cases c.pipe.dropLast with
  | nil => rfl
  | cons x l => rw [List.getLast?_cons_cons]

private theorem finishUpdate_requests {outs : List CacheOut}
    (hx : c.finishUpdate now = .ok (c', outs)) : requests outs = [] := by
  unfold finishUpdate at hx
  split at hx
  · cases hx
    rfl
  · dsimp only at hx
    split at hx
    · split at hx
      · obtain ⟨⟨_, d⟩, _, hx⟩ := bind_eq_ok.mp hx
        cases hx
        rfl
      · cases hx
        rfl
    · cases hx
      rfl

theorem finishUpdate_again {outs : List CacheOut} (hfr : ∀ e, some e ∈ c.pipe.dropLast → e.Fresh)
    (hs : c.schedHitTime = infTime) (hx : c.finishUpdate now = .ok (c', outs)) :
    (now : Tick) < c'.nextUpdate ∨
      c'.schedHitTime = infTime ∧ c'.blockedUntil = c.blockedUntil ∧
        (c.pendingFlush = true → c.pipe.all (·.isNone) = false) ∧
        c.nextTail.all fun e => c.probe e.addr := by
  unfold finishUpdate at hx
  split at hx
  · cases hx
    exact .inl (late_of_blocked rfl rfl)
  · rename_i hno
    have hfull : c.pendingFlush = true → c.pipe.all (·.isNone) = false := by
      intro hf
      rw [hf, Bool.true_and, Bool.not_eq_true] at hno
      exact hno
    dsimp only at hx
    rw [back_shifted] at hx
    split at hx
    · rename_i bk hbk
      split at hx
      · obtain ⟨⟨bk', d⟩, hd, hx⟩ := bind_eq_ok.mp hx
        cases hx
        obtain ⟨r, ht⟩ := accessTail_looked hd
        exact .inl (late_of_blocked (ht.schedHitTime.trans hs) rfl)
      · rename_i hlook
        cases hx
        refine .inr ⟨hs, rfl, hfull, ?_⟩
        have hmem : some bk ∈ c.pipe.dropLast := by
          unfold nextTail at hbk
          exact List.mem_of_getLast? (Option.join_eq_some_iff.mp hbk)
        rw [hbk, Option.all_some]
        have hline := (hfr bk hmem).1
        by_contra hp
        exact hlook ⟨hline, Bool.eq_false_iff.mpr hp⟩
    · rename_i hbk
      cases hx
      refine .inr ⟨hs, rfl, hfull, ?_⟩
      rw [hbk]
      rfl

theorem requests_append (l l' : List CacheOut) :
    requests (l ++ l') = requests l ++ requests l' :=
  List.filterMap_append

theorem requests_of_noReq {l : List CacheOut} (h : ∀ op, memReqs op l = []) : requests l = [] := by
  refine List.eq_nil_iff_forall_not_mem.mpr fun m hm => ?_
  have hmem : m ∈ (requests l).filter (·.mop = m.mop) :=
    List.mem_filter.mpr ⟨hm, decide_eq_true rfl⟩
  rw [filter_requests, h] at hmem
  cases hmem

theorem WellFormed.serve_sends {outs : List CacheOut} (h : WellFormed c)
    (hx : c.serve now = .ok (c', outs)) : requests outs = c.toSend.toList := by
  unfold toSend
  cases h.serve_cases hx with
  | finish hb hx =>
    rw [hb]
    exact finishUpdate_requests hx
  | hit bk₀ bk r e hb hlook hline _ hr _ _ _ _ hx =>
    obtain ⟨d, resp, f, o, hd, hf, hk, rfl, _⟩ := hr.hitUpdate hx
    have hresp : requests resp = [] :=
      requests_of_noReq fun op => memReqs_of_noReq (handleHit_cases hr.hv hd).noReq
    rw [requests_append, hresp, finishUpdate_requests hk, hb, Option.bind_some]
    unfold lookTail at hlook
    split at hlook
    · rename_i hn
      rw [hn]
      rfl
    · cases hlook
      rw [hline, Option.bind_some, show (c.line r).valid = true from hr.hv, Bool.true_or,
        Bool.true_or, if_pos rfl]
      rfl
  | start bk bk' r e hb hfr _ ht _ heq ho =>
    rw [hb, ho, Option.bind_some, hfr.1]
    rfl
  | miss bk r hb hh hv _ _ hfill hr hp _ _ heq =>
    rw [hb, Option.bind_some, hh.line, Option.bind_some, hv, hfill]
    unfold missUpdate at heq
    rw [hfill] at heq
    cases hwait : c.wWaiting <;> cases hev : c.pendingEvict <;> rw [hwait, hev] at heq <;>
    · cases heq
      rfl

/-- After an update the cache is not due any more in this tick, unless all it did was to move the
pipe on. -/
private theorem WellFormed.serve_again {outs : List CacheOut} (hi : Immediate P)
    (h : WellFormed c) (hx : c.serve now = .ok (c', outs)) :
    (now : Tick) < c'.nextUpdate ∨ (c.pendingFlush = true → c.dueAgain = true) := by
  have hsched := h.sched hi
  cases h.serve_cases hx with
  | finish hb hx =>
    refine (finishUpdate_again h.rest hsched hx).imp_right fun ⟨_, _, hfull, hnext⟩ hf => ?_
    unfold dueAgain
    rw [hb, hfull hf, hnext]
    rfl
  | hit bk₀ bk r e hb hlook hline _ hr _ _ _ _ hx =>
    obtain ⟨d, resp, f, o, hd, hf, hk, rfl, hw, _⟩ := hr.hitUpdate hx
    have hpre := (prefetchAfter_cases hf).1
    refine .inl ?_
    rcases finishUpdate_again hw.rest (hw.sched hi) hk with hlate | ⟨hs, hblk, _⟩
    · exact hlate
    · exact late_of_blocked hs (hblk.trans (hpre.blockedUntil.trans (handleHit_blockedUntil hd)))
  | start bk bk' r e hb hfr _ ht _ heq ho =>
    rw [heq]
    exact .inl (late_of_blocked (ht.schedHitTime.trans hsched) rfl)
  | miss bk r hb hh hv _ _ hfill hr hp _ _ heq =>
    unfold missUpdate at heq
    rw [hfill] at heq
    have hlate : ∀ d : PipeCache P, d.schedHitTime = infTime →
        d.blockedUntil = now + 1 ∨ d.rWaiting = true ∧ d.pendingFillReq = false →
          (now : Tick) < d.nextUpdate := by
      rintro d hs (hb | ⟨hr, hf⟩)
      · exact late_of_blocked hs hb
      · unfold nextUpdate
        rw [hr, hf, hs, if_pos (by decide)]
        exact ENat.natCast_lt_top now
    cases hwait : c.wWaiting <;> cases hev : c.pendingEvict <;> rw [hwait, hev] at heq <;> cases heq
    · exact .inl (hlate _ hsched (.inr ⟨rfl, rfl⟩))
    · exact .inl (hlate _ hsched (.inl rfl))
    · exact .inl (hlate _ hsched (.inl rfl))
    · exact .inl (hlate _ hsched (.inl rfl))

theorem WellFormed.doUpdate_sends {outs : List CacheOut} (h : WellFormed c)
    (hx : c.doUpdate now = .ok (c', outs)) :
    requests outs = [] ∨ requests outs = c.toSend.toList := by
  rcases doUpdate_cases hx with ⟨_, _, rfl⟩ | ⟨_, o, hs, rfl⟩
  · exact .inl rfl
  · have hsame : (c.deliverDeferred now).1.toSend = c.toSend ∧
        requests (c.deliverDeferred now).2 = [] := by
      unfold PipeCache.deliverDeferred
      split <;> exact ⟨rfl, rfl⟩
    refine .inr ?_
    rw [requests_append, hsame.2, (h.deliverDeferred now).1.serve_sends hs, hsame.1]
    rfl

theorem WellFormed.doUpdate_again {outs : List CacheOut} (hi : Immediate P) (h : WellFormed c)
    (hdue : c.nextUpdate ≤ now) (hx : c.doUpdate now = .ok (c', outs)) :
    requests outs = c.toSend.toList ∧
      ((now : Tick) < c'.nextUpdate ∨ (c.pendingFlush = true → c.dueAgain = true)) := by
  obtain ⟨_, o, hs, rfl⟩ := (doUpdate_cases hx).resolve_left fun hn => hn.1 hdue
  rw [deliverDeferred_never now (h.sched hi)] at hs ⊢
  exact ⟨h.serve_sends hs, h.serve_again hi hs⟩

/-- A pipe of a single cell is never due again. -/
theorem dueAgain_of_single (hlen : c.pipe.length = 1) : c.dueAgain = false := by
  obtain ⟨x, hx⟩ := List.length_eq_one_iff.mp hlen
  unfold dueAgain back
  rw [hx]
  cases x <;> rfl

theorem WellFormed.doUpdate_served {outs : List CacheOut} (h : WellFormed c)
    (hx : c.doUpdate now = .ok (c', outs)) :
    c'.served = c.served ∨ c.back.isSome = true ∧ ∃ e, c'.served = c.served ++ [e] := by
  rcases doUpdate_cases hx with ⟨_, rfl, rfl⟩ | ⟨_, o, hs, rfl⟩
  · exact .inl rfl
  have hw := (h.deliverDeferred now).1
  have hsame : (c.deliverDeferred now).1.served = c.served ∧
      (c.deliverDeferred now).1.back = c.back := by
    unfold PipeCache.deliverDeferred
    split <;> exact ⟨rfl, rfl⟩
  rw [← hsame.1, ← hsame.2]
  cases hw.serve_cases hs with
  | finish hb hx => exact .inl (finishUpdate_fence hx).1
  | hit bk₀ bk r e hb hlook hline _ hr _ _ _ _ hx =>
    obtain ⟨d, resp, f, o', hd, hf, hk, rfl, _⟩ := hr.hitUpdate hx
    have hserved : e.served = (c.deliverDeferred now).1.served := by
      unfold lookTail at hlook
      split at hlook
      · exact (accessTail_looked hlook).choose_spec.served
      · cases hlook
        rfl
    refine .inr ⟨by rw [hb]; rfl, bk, ?_⟩
    rw [(finishUpdate_fence hk).1]
    change f.served ++ [bk] = _
    rw [(prefetchAfter_cases hf).1.served, (handleHit_cases hr.hv hd).served]
    exact congrArg (· ++ [bk]) hserved
  | start bk bk' r e hb _ _ ht _ heq _ =>
    rw [heq]
    exact .inl ht.served
  | miss bk r _ _ _ _ _ _ _ _ _ _ heq =>
    have ha := (missUpdate_answers now bk (c.deliverDeferred now).1).1
    rw [← heq] at ha
    exact .inl ha.served

theorem served_lt_log (hb : c.back.isSome = true) : c.served.length < c.log.length := by
  obtain ⟨bk, hbk⟩ := Option.isSome_iff_exists.mp hb
  have hmem : bk ∈ c.pending := by
    unfold pending
    refine List.mem_filterMap.mpr ⟨some bk, List.mem_reverse.mpr ?_, rfl⟩
    exact List.mem_of_getLast? (Option.join_eq_some_iff.mp hbk)
  rw [log, List.length_append]
  exact Nat.lt_add_of_pos_right (List.length_pos_of_mem hmem)

theorem enqueue_back {e : CachePipeEntry} (hlen : 1 < c.pipe.length)
    (hx : c.enqueue now e = .ok c') : c'.back = c.back := by
  obtain ⟨_, rest, hpipe, rfl⟩ := enqueue_eq_ok.mp hx
  cases rest with
  | nil =>
    rw [hpipe] at hlen
    exact absurd hlen (by simp)
  | cons x l =>
    unfold back
    rw [hpipe]
    rfl

end NpSim.Cache.PipeCache
