/- digest: A flush of all lines: nothing is accepted before it is carried out, and what is accepted
   later is served from lines filled after it. -/

import NpSim.Cache.Copies
import NpSim.Cache.Deferred

set_option autoImplicit false
set_option relaxedAutoImplicit false

namespace NpSim.Cache

open NpSim.Lib.Partial Relation

namespace PipeCache

variable {P : CacheParams} {c c' : PipeCache P} {now : Nat}

/-- A pending flush is carried out by the end of an update that finds the pipe empty. -/
def CarriesOut (c c' : PipeCache P) : Prop :=
  c.pendingFlush = true ∧ c'.pendingFlush = false ∧ (∀ s w, c'.held s w = none) ∧ c'.pending = []

theorem handleFlush_carriesOut (hf : c.pendingFlush = true) :
    CarriesOut c (c.handleFlush now) := by
  refine ⟨hf, rfl, fun s w => CacheLine.held_of_invalid rfl, ?_⟩
  change (List.replicate P.pipeDepth none).reverse.filterMap id = []
  rw [List.reverse_replicate, List.filterMap_replicate]
  rfl

theorem finishUpdate_fence {outs : List CacheOut} (hx : c.finishUpdate now = .ok (c', outs)) :
    c'.served = c.served ∧ (c'.pendingFlush = c.pendingFlush ∨ CarriesOut c c') := by
  unfold finishUpdate at hx
  split at hx
  · rename_i hf
    cases hx
    rw [Bool.and_eq_true] at hf
    exact ⟨rfl, .inr (handleFlush_carriesOut hf.1)⟩
  · dsimp only at hx
    split at hx
    · split at hx
      · obtain ⟨⟨bk', d⟩, hd, hx⟩ := bind_eq_ok.mp hx
        cases hx
        obtain ⟨r, ht⟩ := accessTail_looked hd
        exact ⟨ht.served, .inl ht.pendingFlush⟩
      · cases hx
        exact ⟨rfl, .inl rfl⟩
    · cases hx
      exact ⟨rfl, .inl rfl⟩

theorem access_held {addr : Addr} {r : LineRef} (hx : c.access now addr = .ok (r, c'))
    (hv : (c'.line r).valid = true) : c.held r.set r.way = some (P.tagOf addr) := by
  have hl := access_looked hx
  unfold access at hx
  dsimp only at hx
  cases hw : c.findWay (P.setIndexOf addr) (P.tagOf addr) with
  | some w =>
    rw [show PipeCache.findWay { c with stats := { c.stats with accesses := c.stats.accesses + 1 } }
      (P.setIndexOf addr) (P.tagOf addr) = some w from hw] at hx
    obtain ⟨d, _, hx⟩ := bind_eq_ok.mp hx
    cases hx
    have hfound := List.find?_some hw
    rw [Bool.and_eq_true, beq_iff_eq] at hfound
    exact (CacheLine.held_of_valid hfound.1).trans (congrArg some hfound.2)
  | none =>
    have hp : c.probe addr = false := by
      unfold probe
      rw [hw]
      rfl
    obtain ⟨l, hlines, _, ⟨_, _, _, _, hp'⟩ | ⟨hlv, _⟩⟩ := hl.lines
    · exact absurd (hp'.symm.trans hp) (by decide)
    · rw [line, hlines, if_pos ⟨rfl, rfl⟩] at hv
      exact absurd (hv.symm.trans hlv) (by decide)

theorem Single.lookTail_held {bk₀ bk : CachePipeEntry} {r : LineRef} (h : c.Single)
    (hb : c.back = some bk₀) (hlook : c.lookTail now bk₀ = .ok (bk, c'))
    (hline : bk.line = some r) (hv : (c'.line r).valid = true) :
    c.held r.set r.way = some (P.tagOf bk.addr) := by
  unfold lookTail at hlook
  split at hlook
  · unfold accessTail at hlook
    obtain ⟨d, hd, hlook⟩ := bind_eq_ok.mp hlook
    obtain ⟨_, _, _, _, rfl, _⟩ := saveEvictInfo_cases hd
    obtain ⟨⟨r', e⟩, he, hlook⟩ := bind_eq_ok.mp hlook
    cases hlook
    cases Option.some.inj hline
    have hheld := access_held he hv
    exact hheld
  · cases hlook
    obtain ⟨_, _, hown | ⟨hnone, _⟩⟩ := h.tail _ r hb hline
    · exact hown
    · exact absurd ((CacheLine.held_of_valid hv).symm.trans hnone) (by simp)

theorem WellFormed.serve_fence {outs : List CacheOut} (h : WellFormed c) (hs : c.Single)
    (hx : c.serve now = .ok (c', outs)) :
    (c'.pendingFlush = c.pendingFlush ∨ CarriesOut c c') ∧
      (c'.served = c.served ∨ ∃ e r, c'.served = c.served ++ [e] ∧ e.line = some r ∧
        c.held r.set r.way = some (P.tagOf e.addr)) := by
  cases h.serve_cases hx with
  | finish hb hx =>
    obtain ⟨hserved, hf⟩ := finishUpdate_fence hx
    exact ⟨hf, .inl hserved⟩
  | hit bk₀ bk r e hb hlook hline _ hr _ _ _ _ hx =>
    obtain ⟨d, resp, f, o, hd, hf, hk, rfl, _⟩ := hr.hitUpdate hx
    have hhit := handleHit_cases hr.hv hd
    have hpre := (prefetchAfter_cases hf).1
    have hlooked : e.served = c.served ∧ e.pendingFlush = c.pendingFlush := by
      unfold lookTail at hlook
      split at hlook
      · obtain ⟨_, ht⟩ := accessTail_looked hlook
        exact ⟨ht.served, ht.pendingFlush⟩
      · cases hlook
        exact ⟨rfl, rfl⟩
    have hsame : (f.retire bk).pendingFlush = c.pendingFlush :=
      hpre.pendingFlush.trans (hhit.pendingFlush.trans hlooked.2)
    have hserved : (f.retire bk).served = c.served ++ [bk] := by
      change f.served ++ [bk] = _
      rw [hpre.served, hhit.served]
      exact congrArg (· ++ [bk]) hlooked.1
    obtain ⟨hend, hflush⟩ := finishUpdate_fence hk
    refine ⟨?_, .inr ⟨bk, r, hend.trans hserved, hline, hs.lookTail_held hb hlook hline hr.hv⟩⟩
    unfold CarriesOut at hflush ⊢
    rwa [hsame] at hflush
  | start bk bk' r e hb _ _ ht _ heq _ =>
    rw [heq]
    exact ⟨.inl ht.pendingFlush, .inl ht.served⟩
  | miss bk r _ _ _ _ _ _ _ _ _ _ heq =>
    obtain ⟨ha, _⟩ := missUpdate_answers now bk c
    rw [← heq] at ha
    exact ⟨.inl ha.flush, .inl ha.served⟩

theorem WellFormed.doUpdate_fence {outs : List CacheOut} (h : WellFormed c) (hs : c.Single)
    (hx : c.doUpdate now = .ok (c', outs)) :
    (c'.pendingFlush = c.pendingFlush ∨ CarriesOut c c') ∧
      (c'.served = c.served ∨ ∃ e r, c'.served = c.served ++ [e] ∧ e.line = some r ∧
        c.held r.set r.way = some (P.tagOf e.addr)) := by
  rcases doUpdate_cases hx with ⟨_, rfl, rfl⟩ | ⟨_, o, hd, rfl⟩
  · exact ⟨.inl rfl, .inl rfl⟩
  · have hw := (h.deliverDeferred now).1
    have hsame : (c.deliverDeferred now).1.pendingFlush = c.pendingFlush ∧
        (c.deliverDeferred now).1.served = c.served ∧
        (c.deliverDeferred now).1.held = c.held ∧ (c.deliverDeferred now).1.Single := by
      unfold PipeCache.deliverDeferred
      split
      · exact ⟨rfl, rfl, rfl, hs.same (fun _ _ => rfl) rfl rfl rfl⟩
      · exact ⟨rfl, rfl, rfl, hs⟩
    have := hw.serve_fence hsame.2.2.2 hd
    unfold CarriesOut at this ⊢
    rwa [hsame.1, hsame.2.1, hsame.2.2.1] at this

end PipeCache

namespace Bench

variable {P : CacheParams} {b b' : Bench P} {l : Label}

/-- The step carries out a pending flush: no line holds a block any more, and every request accepted
so far has been served. -/
structure Flushed (b b' : Bench P) : Prop where
  pending : b.cache.pendingFlush = true
  done : b'.cache.pendingFlush = false
  empty : ∀ s w, b'.cache.held s w = none
  accepted : b'.accepted = b.accepted
  served : b'.cache.served.map CachePipeEntry.req = b'.accepted

theorem Step.served_from (hs : Step b l b') (hb : Reachable b) :
    b'.cache.served = b.cache.served ∨ ∃ e r, b'.cache.served = b.cache.served ++ [e] ∧
      e.line = some r ∧ b.cache.held r.set r.way = some (P.tagOf e.addr) := by
  cases hs with
  | read addr hx => exact .inl (PipeCache.enqueue_answers hx).served
  | write addr data mask hwb hx =>
    unfold PipeCache.writeReq at hx
    rw [if_pos hwb] at hx
    obtain ⟨d, hd, hx⟩ := bind_eq_ok.mp hx
    cases hx
    exact .inl (PipeCache.enqueue_answers hd).served
  | update hx => exact (hb.sound.wf.doUpdate_fence hb.single hx).2
  | answer m data hm hx => exact .inl (PipeCache.recvMemResp_answers hx).1.served
  | flushAll => exact .inl rfl
  | resetStats => exact .inl rfl
  | tick => exact .inl rfl

/-- A step from a state with a pending flush keeps it pending and accepts nothing, or carries it
out. -/
theorem Step.fence (hs : Step b l b') (hb : Reachable b)
    (hask : l = .request → b.cache.isReady.1 = true) (hf : b.cache.pendingFlush = true) :
    b'.cache.pendingFlush = true ∧ b'.accepted = b.accepted ∨ Flushed b b' := by
  have hbusy : l ≠ .request := by
    intro hl
    have := hask hl
    rw [PipeCache.isReady_of_pending hf] at this
    cases this
  have hsound := hs.sound hb.sound
  cases hs with
  | read addr hx => exact absurd rfl hbusy
  | write addr data mask hwb hx => exact absurd rfl hbusy
  | update hx =>
    obtain ⟨hkeep | ⟨_, hdone, hempty, hnone⟩, _⟩ := hb.sound.wf.doUpdate_fence hb.single hx
    · exact .inl ⟨hkeep.trans hf, rfl⟩
    · refine .inr ⟨hf, hdone, hempty, rfl, ?_⟩
      have hlog := hsound.log
      rw [PipeCache.log] at hlog
      dsimp only at hlog
      rw [hnone, List.append_nil] at hlog
      exact hlog
  | answer m data hm hx => exact .inl ⟨(PipeCache.recvMemResp_answers hx).1.flush.trans hf, rfl⟩
  | flushAll => exact .inl ⟨rfl, rfl⟩
  | resetStats => exact .inl ⟨hf, rfl⟩
  | tick => exact .inl ⟨hf, rfl⟩

/-- The first `N` calls of a run in which requests come when the cache is ready, and in which every
line is to be flushed from step `s` on. -/
structure Fenced (run : ℕ → Bench P) (label : ℕ → Label) (s N : ℕ) : Prop where
  init : Reachable (run 0)
  step : ∀ n < N, Step (run n) (label n) (run (n + 1))
  asks : ∀ n < N, label n = .request → (run n).cache.isReady.1 = true
  called : s < N
  call : run (s + 1) = { run s with cache := (run s).cache.flushAll }

variable {run : ℕ → Bench P} {label : ℕ → Label} {s N : ℕ}

theorem Fenced.reachable (h : Fenced run label s N) {n : ℕ} (hn : n ≤ N) : Reachable (run n) := by
  induction n with
  | zero => exact h.init
  | succ n ih => exact .tail (ih (Nat.le_of_succ_le hn)) ⟨_, h.step n hn⟩

theorem Fenced.fence (h : Fenced run label s N) {n : ℕ} (hs : s < n) (hn : n ≤ N) :
    ((run n).cache.pendingFlush = true ∧ (run n).accepted = (run s).accepted) ∨
      ∃ f, s < f ∧ f < n ∧ Flushed (run f) (run (f + 1)) ∧
        (run f).accepted = (run s).accepted := by
  induction n, hs using Nat.le_induction with
  | base =>
    rw [Nat.succ_eq_add_one, h.call]
    exact .inl ⟨rfl, rfl⟩
  | succ n hsn ih =>
    rcases ih (Nat.le_of_succ_le hn) with ⟨hf, hacc⟩ | ⟨f, hsf, hfn, hflush, hacc⟩
    · rcases (h.step n hn).fence (h.reachable (Nat.le_of_succ_le hn)) (h.asks n hn) hf with
        ⟨hf', hacc'⟩ | hflush
      · exact .inl ⟨hf', hacc'.trans hacc⟩
      · exact .inr ⟨n, hsn, Nat.lt_succ_self n, hflush, hacc⟩
    · exact .inr ⟨f, hsf, Nat.lt_succ_of_lt hfn, hflush, hacc⟩

/-- What becomes true after `f` and is true at `n` became true by a last step between them. -/
theorem exists_last_change {p : ℕ → Prop} {f n : ℕ} (hfn : f ≤ n) (hf : ¬p f) (hn : p n) :
    ∃ j, f ≤ j ∧ j < n ∧ ¬p j ∧ ∀ i, j < i → i ≤ n → p i := by
  induction n, hfn using Nat.le_induction with
  | base => exact absurd hn hf
  | succ n hfn ih =>
    by_cases hp : p n
    · obtain ⟨j, hfj, hjn, hj, hall⟩ := ih hp
      refine ⟨j, hfj, Nat.lt_succ_of_lt hjn, hj, fun i hji hin => ?_⟩
      rcases Nat.lt_or_eq_of_le hin with hlt | heq
      · exact hall i hji (Nat.le_of_lt_succ hlt)
      · exact heq ▸ hn
    · refine ⟨n, hfn, Nat.lt_succ_self n, hp, fun i hni hin => ?_⟩
      cases Nat.le_antisymm hin hni
      exact hn

/-- From the call of `flush_all` until the flush is carried out the cache is not ready and accepts
nothing, and by then everything accepted before is served. Each request accepted after the call is
served from a line that got its block after the flush was carried out. Nothing accepted stays
without its answer in a fair run. -/
theorem fence_order (hi : PipeCache.Immediate P) :
    (∀ (run : ℕ → Bench P) (label : ℕ → Label) (s N : ℕ), Fenced run label s N →
      (∀ n, s < n → n ≤ N →
        ((run n).cache.pendingFlush = true ∧ (run n).cache.isReady = (false, false) ∧
            (run n).accepted = (run s).accepted) ∨
          ∃ f, s < f ∧ f < n ∧ Flushed (run f) (run (f + 1)) ∧
            (run f).accepted = (run s).accepted) ∧
      ∀ n e, s < n → n < N → (run (n + 1)).cache.served = (run n).cache.served ++ [e] →
        (run s).accepted.length ≤ (run n).cache.served.length →
          ∃ r f j, e.line = some r ∧ s < f ∧ Flushed (run f) (run (f + 1)) ∧ f < j ∧ j < n ∧
            (run j).cache.held r.set r.way ≠ some (P.tagOf e.addr) ∧
            ∀ i, j < i → i ≤ n → (run i).cache.held r.set r.way = some (P.tagOf e.addr)) ∧
    ∀ (run : ℕ → Bench P) (label : ℕ → Label), FairRun run label →
      ∀ n, ∃ k ≥ n, (run n).accepted <+: cpuResps (run k).sent := by
  refine ⟨fun run label s N h => ⟨fun n hsn hn => ?_, fun n e hsn hn hserved hlen => ?_⟩,
    fun run label h n => ?_⟩
  · rcases h.fence hsn hn with ⟨hf, hacc⟩ | hflush
    · exact .inl ⟨hf, PipeCache.isReady_of_pending hf, hacc⟩
    · exact .inr hflush
  · have hreach := h.reachable (Nat.le_of_lt hn)
    -- an entry served before the flush is carried out was accepted before the call
    have hflush : ∃ f, s < f ∧ f < n ∧ Flushed (run f) (run (f + 1)) := by
      have hgrow : (run n).cache.served.length < (run (n + 1)).cache.served.length := by
        rw [hserved, List.length_append]
        exact Nat.lt_succ_self _
      have hlog := congrArg List.length (h.reachable (n := n + 1) hn).sound.log
      rw [List.length_map, PipeCache.log, List.length_append] at hlog
      rcases h.fence hsn (Nat.le_of_lt hn) with hpend | ⟨f, hsf, hfn, hfl, _⟩
      · rcases h.fence (Nat.lt_succ_of_lt hsn) hn with hpend' | ⟨f, hsf, hfn, hfl, hacc⟩
        · rw [hpend'.2] at hlog
          omega
        · rcases Nat.lt_or_eq_of_le (Nat.le_of_lt_succ hfn) with hlt | rfl
          · exact ⟨f, hsf, hlt, hfl⟩
          · rw [hfl.accepted, hacc] at hlog
            omega
      · exact ⟨f, hsf, hfn, hfl⟩
    obtain ⟨f, hsf, hfn, hfl⟩ := hflush
    rcases (h.step n hn).served_from hreach with hsame | ⟨e', r, happ, hline, hheld⟩
    · rw [hsame] at hserved
      have := congrArg List.length hserved
      rw [List.length_append, List.length_singleton] at this
      omega
    · have he : e' = e := (List.cons.inj (List.append_cancel_left (happ.symm.trans hserved))).1
      rw [he] at hline hheld
      obtain ⟨j, hfj, hjn, hj, hall⟩ := exists_last_change
        (p := fun i => (run i).cache.held r.set r.way = some (P.tagOf e.addr)) hfn
        (by
          rw [hfl.empty]
          exact Option.some_ne_none _ |>.symm) hheld
      exact ⟨r, f, j, hline, hsf, hfl, hfj, hjn, hj, hall⟩
  · exact h.all_answered hi n

def Call.asks : Call → Bool
  | .read _ => true
  | .write _ => true
  | _ => false

theorem asks_of_label {k : Call} (h : b.label k = .request) : k.asks = true := by
  cases k with
  | read addr => rfl
  | write addr => rfl
  | answer =>
    rw [label] at h
    cases hm : b.outstanding.head? with
    | none =>
      rw [hm] at h
      cases h
    | some m =>
      rw [hm] at h
      cases h
  | update => cases h
  | flushAll => cases h
  | tick => cases h

theorem performAll_append {ok : Bench P → Bool} {ks ks' : List Call} :
    performAll ok b (ks ++ ks') = (performAll ok b ks).bind fun b' => performAll ok b' ks' := by
  induction ks generalizing b with
  | nil => rfl
  | cons k ks ih =>
    rw [List.cons_append, performAll, performAll]
    split
    · cases hk : b.perform k with
      | none => rfl
      | some d => exact ih
    · rfl

def played (P : CacheParams) (ks : List Call) (n : ℕ) : Bench P :=
  (performAll (fun _ => true) {} (ks.take n)).getD {}

theorem played_perform {ks : List Call} (h : (performAll (fun _ => true) ({} : Bench P) ks).isSome)
    {n : ℕ} (hn : n < ks.length) : (played P ks n).perform ks[n] = some (played P ks (n + 1)) := by
  have hsome : ∀ m, (performAll (fun _ => true) ({} : Bench P) (ks.take m)).isSome := by
    intro m
    rw [← List.take_append_drop m ks, performAll_append] at h
    exact Option.isSome_of_isSome_bind h
  obtain ⟨b, hb⟩ := Option.isSome_iff_exists.mp (hsome n)
  obtain ⟨b', hb'⟩ := Option.isSome_iff_exists.mp (hsome (n + 1))
  rw [played, played, hb, hb', Option.getD_some, Option.getD_some]
  rw [List.take_succ_eq_append_getElem hn, performAll_append, hb] at hb'
  rw [Option.bind_some, performAll, if_pos rfl] at hb'
  obtain ⟨d, hd, hlast⟩ := Option.bind_eq_some_iff.mp hb'
  cases hlast
  exact hd

theorem fenced_of_played (ks : List Call) {s : ℕ}
    (h : (performAll (fun _ => true) ({} : Bench P) ks).isSome)
    (hasks : ∀ n < ks.length, (ks.getD n .tick).asks = true →
      (played P ks n).cache.isReady.1 = true) (hs : ks[s]? = some .flushAll) :
    Fenced (played P ks) (fun n => (played P ks n).label (ks.getD n .tick)) s ks.length := by
  have hget : ∀ n (hn : n < ks.length), ks.getD n .tick = ks[n] := by
    intro n hn
    rw [List.getD_eq_getElem?_getD, List.getElem?_eq_getElem hn]
    rfl
  obtain ⟨hlt, hflush⟩ := List.getElem?_eq_some_iff.mp hs
  refine ⟨.refl, fun n hn => ?_, fun n hn hl => hasks n hn (asks_of_label hl), hlt, ?_⟩
  · rw [hget n hn]
    exact perform_step (played_perform h hn)
  · have hp := played_perform h hlt
    rw [hflush] at hp
    exact (Option.some.inj hp).symm

private def fencedCalls : List Call :=
  [.read 0, .tick, .update, .tick, .update, .flushAll, .answer, .tick, .update, .tick, .update,
    .read 0, .tick, .update, .tick, .update, .answer, .tick, .update]

/-- The second read is served from a line that was filled after the flush was carried out. -/
theorem fence_order_read : ∃ (run : ℕ → Bench (instCache 2 1 Nat.one_pos lruReplPolicy))
    (label : ℕ → Label) (e : CachePipeEntry) (r : LineRef) (f j : ℕ), Fenced run label 5 19 ∧
      e.line = some r ∧ 5 < f ∧ Flushed (run f) (run (f + 1)) ∧ f < j ∧ j < 18 ∧
      (run j).cache.held r.set r.way ≠ some 0 ∧ (run (j + 1)).cache.held r.set r.way = some 0 := by
  have hrun : Fenced (P := instCache 2 1 Nat.one_pos lruReplPolicy) _ _ 5 19 :=
    fenced_of_played fencedCalls (by decide +kernel) (by decide +kernel) rfl
  let last : CachePipeEntry := ((played (instCache 2 1 Nat.one_pos lruReplPolicy) fencedCalls
    19).cache.served.getLast?).getD { addr := 1, mop := .read }
  have hserved : (played (instCache 2 1 Nat.one_pos lruReplPolicy) fencedCalls 19).cache.served =
      (played (instCache 2 1 Nat.one_pos lruReplPolicy) fencedCalls 18).cache.served ++ [last] := by
    decide +kernel
  have htag : (instCache 2 1 Nat.one_pos lruReplPolicy).tagOf last.addr = 0 := by
    decide +kernel
  obtain ⟨r, f, j, hline, hsf, hfl, hfj, hjn, hj, hall⟩ :=
    ((fence_order (P := instCache 2 1 Nat.one_pos lruReplPolicy) rfl).1 _ _ _ _ hrun).2 18 last
      (by decide) (by decide) hserved (by decide +kernel)
  rw [htag] at hj hall
  exact ⟨_, _, last, r, f, j, hrun, hline, hsf, hfl, hfj, hjn, hj,
    hall (j + 1) (Nat.lt_succ_self j) hjn⟩

end Bench

end NpSim.Cache
