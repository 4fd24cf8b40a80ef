/- digest: Deferred hit responses: while no hit is served and no refill is awaited behind a waiting
   response, every request is answered once, the delay after it was served. -/

import NpSim.Cache.Pace

set_option autoImplicit false
set_option relaxedAutoImplicit false

namespace NpSim.Cache

open NpSim.Lib.Partial Relation

namespace PipeCache

variable {P : CacheParams} {c c' : PipeCache P} {now : Nat}

def waiting (c : PipeCache P) : List (Nat × Addr × MemRWOpt) :=
  if c.schedHitTime = infTime then []
  else [(c.schedHitTime.toNat, c.schedHitResp.addr, c.schedHitResp.mop)]

/-- The tail entry is answered by the next update that comes to it. -/
def tailHits (c : PipeCache P) : Bool :=
  match c.back with
  | none => false
  | some bk =>
    match bk.line with
    | none => c.probe bk.addr
    | some r => (c.line r).valid

/-- The update of tick `n` serves no hit while an earlier response goes on waiting, and delivers no
response while a refill is outstanding. -/
def unhurried (n : Nat) (c : PipeCache P) : Bool :=
  !(decide (c.nextUpdate ≤ n) && decide ((n : Tick) < c.schedHitTime)
      && decide (c.schedHitTime ≠ infTime) && c.tailHits)
    && !(decide (c.schedHitTime ≤ n) && c.rWaiting)

/-- The deferred response, the answered entries and the pending flush are those of `c`. -/
structure SameAnswers (c c' : PipeCache P) : Prop where
  time : c'.schedHitTime = c.schedHitTime
  resp : c'.schedHitResp = c.schedHitResp
  served : c'.served = c.served
  flush : c'.pendingFlush = c.pendingFlush

theorem SameAnswers.trans {d : PipeCache P} (h : SameAnswers c c') (h' : SameAnswers c' d) :
    SameAnswers c d :=
  ⟨h'.time.trans h.time, h'.resp.trans h.resp, h'.served.trans h.served, h'.flush.trans h.flush⟩

theorem SameAnswers.waiting (h : SameAnswers c c') : c'.waiting = c.waiting := by
  unfold PipeCache.waiting
  rw [h.time, h.resp]

theorem SameControl.answers (h : SameControl c c') : SameAnswers c c' :=
  ⟨h.schedHitTime, h.schedHitResp, h.served, h.pendingFlush⟩

theorem TailLooked.answers {bk bk' : CachePipeEntry} {r : LineRef}
    (h : TailLooked bk c bk' r c') : SameAnswers c c' :=
  ⟨h.schedHitTime, h.schedHitResp, h.served, h.pendingFlush⟩

theorem finishUpdate_answers {outs : List CacheOut} (hf : c.pendingFlush = false)
    (hx : c.finishUpdate now = .ok (c', outs)) : SameAnswers c c' ∧ cpuResps outs = [] := by
  unfold finishUpdate at hx
  rw [if_neg (by simp [hf])] at hx
  dsimp only at hx
  split at hx
  · split at hx
    · obtain ⟨⟨bk', d⟩, hd, hx⟩ := bind_eq_ok.mp hx
      cases hx
      obtain ⟨r, ht⟩ := accessTail_looked hd
      exact ⟨⟨ht.schedHitTime, ht.schedHitResp, ht.served, ht.pendingFlush⟩, rfl⟩
    · cases hx
      exact ⟨⟨rfl, rfl, rfl, rfl⟩, rfl⟩
  · cases hx
    exact ⟨⟨rfl, rfl, rfl, rfl⟩, rfl⟩

theorem missUpdate_answers (now : Nat) (bk : CachePipeEntry) (c : PipeCache P) :
    SameAnswers c (c.missUpdate now bk).1 ∧ cpuResps (c.missUpdate now bk).2 = [] := by
  unfold missUpdate
  split
  · exact ⟨⟨rfl, rfl, rfl, rfl⟩, rfl⟩
  · split
    · split <;> exact ⟨⟨rfl, rfl, rfl, rfl⟩, rfl⟩
    · split <;> exact ⟨⟨rfl, rfl, rfl, rfl⟩, rfl⟩

theorem handleHit_answers {bk : CachePipeEntry} {r : LineRef} {outs : List CacheOut}
    (hwb : P.writeBack = true) (hs : c.schedHitTime = infTime)
    (h : c.handleHit now bk r = .ok (c', outs)) :
    c'.served = c.served ∧ c'.pendingFlush = c.pendingFlush ∧
      [(now + P.wbHitRespDelay, bk.req)] =
        (cpuResps outs).map (fun x => (now, x)) ++ c'.waiting ∧
      (now : Tick) < c'.schedHitTime ∧
      (c'.schedHitTime ≠ infTime → c'.schedHitTime = ((now + P.wbHitRespDelay : Nat) : Tick)) := by
  have hresp : ∀ (t : CpuTrans) (d : PipeCache P), d.schedHitTime = infTime →
      (t.addr, t.mop) = bk.req →
      (d.respond now t).1.served = d.served ∧ (d.respond now t).1.pendingFlush = d.pendingFlush ∧
      [(now + P.wbHitRespDelay, bk.req)] =
        (cpuResps (d.respond now t).2).map (fun x => (now, x)) ++ (d.respond now t).1.waiting ∧
      (now : Tick) < (d.respond now t).1.schedHitTime ∧
      ((d.respond now t).1.schedHitTime ≠ infTime →
        (d.respond now t).1.schedHitTime = ((now + P.wbHitRespDelay : Nat) : Tick)) := by
    intro t d hd hreq
    unfold respond
    rw [hwb, Bool.true_and]
    by_cases hz : P.wbHitRespDelay = 0
    · rw [if_neg (by simp [hz]), hz, ← hreq]
      refine ⟨rfl, rfl, ?_, ?_, fun hne => absurd hd hne⟩
      · unfold PipeCache.waiting
        rw [if_pos hd]
        rfl
      · rw [hd]
        exact ENat.natCast_lt_top now
    · rw [if_pos (by simp [hz]), ← hreq]
      have hne : ((now + P.wbHitRespDelay : Nat) : Tick) ≠ infTime := ENat.natCast_ne_top _
      refine ⟨rfl, rfl, ?_, ?_, fun _ => rfl⟩
      · unfold PipeCache.waiting
        rw [if_neg hne]
        rfl
      · dsimp only
        exact_mod_cast Nat.lt_add_of_pos_right (Nat.pos_of_ne_zero hz)
  unfold handleHit at h
  dsimp only at h
  split at h
  · rename_i hop
    obtain ⟨dt, _, h⟩ := bind_eq_ok.mp h
    have := hresp ⟨bk.addr, dt, P.cacheId, .read⟩ { c with blockedUntil := now + 1 } hs
      (by rw [CachePipeEntry.req, hop])
    rw [Except.ok.inj h] at this
    exact this
  · rename_i hop
    generalize ((~~~strbExtend bk.wrstrb &&& bk.wrdata) ||| (strbExtend bk.wrstrb &&& bk.wrdata))
      = dt at h
    have h' : PipeCache.respond now ⟨bk.addr, dt, P.cacheId, .write⟩
        (({ c with blockedUntil := now + 1 } : PipeCache P).setLine r (c.line r).setDirty) =
          (c', outs) := Except.ok.inj h
    have := hresp ⟨bk.addr, dt, P.cacheId, .write⟩
      (({ c with blockedUntil := now + 1 } : PipeCache P).setLine r (c.line r).setDirty) hs
      (by rw [CachePipeEntry.req, hop])
    rw [h'] at this
    exact this

theorem unhurried_single {n : Nat} (h : c.unhurried n = true) (hdue : c.nextUpdate ≤ n)
    (hhit : c.tailHits = true) (hlt : (n : Tick) < c.schedHitTime) : c.schedHitTime = infTime := by
  by_contra hne
  unfold unhurried at h
  simp [hdue, hhit, hlt, hne] at h

theorem unhurried_apart {n : Nat} (h : c.unhurried n = true) (hs : c.schedHitTime ≤ n) :
    c.rWaiting = false := by
  unfold unhurried at h
  simp only [Bool.and_eq_true, Bool.not_eq_true', Bool.and_eq_false_iff, decide_eq_false_iff_not]
    at h
  exact h.2.resolve_left (not_not.mpr hs)

theorem deliverDeferred_answers {n : Nat} (hl : (n : Tick) ≤ c.schedHitTime) :
    c.waiting = (cpuResps (c.deliverDeferred n).2).map (fun x => (n, x)) ++
        (c.deliverDeferred n).1.waiting ∧ (n : Tick) < (c.deliverDeferred n).1.schedHitTime ∧
      ((c.deliverDeferred n).1.schedHitTime = infTime ∨ (c.deliverDeferred n).1 = c) := by
  unfold PipeCache.deliverDeferred
  split
  · rename_i hdue
    have heq : c.schedHitTime = (n : Tick) := le_antisymm hdue hl
    refine ⟨?_, ENat.natCast_lt_top n, .inl rfl⟩
    unfold PipeCache.waiting
    rw [heq, if_neg (ENat.natCast_ne_top n), if_pos rfl, ENat.toNat_natCast]
    rfl
  · rename_i hdue
    exact ⟨rfl, not_le.mp hdue, .inr rfl⟩

theorem tailHits_of_lookTail {bk₀ bk : CachePipeEntry} {r : LineRef} (hb : c.back = some bk₀)
    (hlook : c.lookTail now bk₀ = .ok (bk, c')) (hline : bk.line = some r)
    (hv : (c'.line r).valid = true) :
    c.tailHits = true ∧ bk.req = bk₀.req ∧ SameAnswers c c' := by
  unfold lookTail at hlook
  unfold tailHits
  rw [hb]
  dsimp only
  split at hlook
  · rename_i hn
    obtain ⟨hreq, _, r', hline', hvalid, _⟩ := accessTail_probe hlook
    obtain ⟨r₂, ht⟩ := accessTail_looked hlook
    cases Option.some.inj (hline'.symm.trans hline)
    rw [hn]
    exact ⟨hvalid.symm.trans hv, hreq, ht.answers⟩
  · cases hlook
    rw [hline]
    exact ⟨hv, rfl, ⟨rfl, rfl, rfl, rfl⟩⟩

/-- What an update answers: what was due, and what it serves and does not set to wait. -/
theorem WellFormed.doUpdate_answers {n : Nat} {outs : List CacheOut} (hwb : P.writeBack = true)
    (h : WellFormed c) (hf : c.pendingFlush = false) (hl : (n : Tick) ≤ c.schedHitTime)
    (hu : c.unhurried n = true) (hx : c.doUpdate n = .ok (c', outs)) :
    ∃ k, c'.served = c.served ++ k ∧ c'.pendingFlush = false ∧
      c.waiting ++ k.map (fun e => (n + P.wbHitRespDelay, e.req)) =
        (cpuResps outs).map (fun x => (n, x)) ++ c'.waiting ∧ (n : Tick) < c'.schedHitTime := by
  rcases doUpdate_cases hx with ⟨hnot, rfl, rfl⟩ | ⟨hdue, o, hs, rfl⟩
  · have hle : c'.nextUpdate ≤ c'.schedHitTime := by
      unfold nextUpdate
      split
      · exact le_rfl
      · exact min_le_right _ _
    exact ⟨[], (List.append_nil _).symm, hf, List.append_nil _, (not_le.mp hnot).trans_le hle⟩
  obtain ⟨hwait, hlt, hcase⟩ := deliverDeferred_answers hl
  have hw := (h.deliverDeferred n).1
  have hsame : (c.deliverDeferred n).1.served = c.served ∧
      (c.deliverDeferred n).1.pendingFlush = c.pendingFlush ∧
      (c.deliverDeferred n).1.tailHits = c.tailHits := by
    unfold PipeCache.deliverDeferred
    split <;> exact ⟨rfl, rfl, rfl⟩
  -- what is left once the due response has been delivered
  suffices hserve : ∃ k, c'.served = (c.deliverDeferred n).1.served ++ k ∧
      c'.pendingFlush = false ∧
      (c.deliverDeferred n).1.waiting ++ k.map (fun e => (n + P.wbHitRespDelay, e.req)) =
        (cpuResps o).map (fun x => (n, x)) ++ c'.waiting ∧ (n : Tick) < c'.schedHitTime by
    obtain ⟨k, hk, hfl, hlog, hlate⟩ := hserve
    refine ⟨k, hsame.1 ▸ hk, hfl, ?_, hlate⟩
    rw [hwait, List.append_assoc, hlog, cpuResps_append, List.map_append, List.append_assoc]
  have hsched : (c.deliverDeferred n).1.tailHits = true →
      (c.deliverDeferred n).1.schedHitTime = infTime := by
    intro hhit
    rcases hcase with hinf | heq
    · exact hinf
    · rw [heq]
      rw [heq] at hhit hlt
      exact unhurried_single hu hdue hhit hlt
  have hf' : (c.deliverDeferred n).1.pendingFlush = false := hsame.2.1.trans hf
  generalize (c.deliverDeferred n).1 = d at hs hw hlt hf' hsched
  -- an update that answers nothing leaves the waiting response alone
  have hstill : SameAnswers d c' → cpuResps o = [] → ∃ k, c'.served = d.served ++ k ∧
      c'.pendingFlush = false ∧
      d.waiting ++ k.map (fun e => (n + P.wbHitRespDelay, e.req)) =
        (cpuResps o).map (fun x => (n, x)) ++ c'.waiting ∧ (n : Tick) < c'.schedHitTime := by
    intro ha ho
    refine ⟨[], by rw [ha.served, List.append_nil], ha.flush.trans hf', ?_, ?_⟩
    · rw [ho, ha.waiting]
      exact List.append_nil _
    · rw [ha.time]
      exact hlt
  cases hw.serve_cases hs with
  | finish hb hx =>
    obtain ⟨ha, ho⟩ := finishUpdate_answers hf' hx
    exact hstill ha ho
  | hit bk₀ bk r e hb hlook hline _ hr _ _ _ _ hx =>
    obtain ⟨g, resp, f, o', hg, hfp, hk, rfl, _⟩ := hr.hitUpdate hx
    obtain ⟨hhits, hreq, ha⟩ := tailHits_of_lookTail hb hlook hline hr.hv
    have hinf := hsched hhits
    obtain ⟨hserved, hfl, hlog, hlate, _⟩ :=
      handleHit_answers (c := { e with isReplay := false }) hwb (ha.time.trans hinf) hg
    have hpre := (prefetchAfter_cases hfp).1.answers
    have hfl' : (f.retire bk).pendingFlush = false :=
      hpre.flush.trans (hfl.trans (ha.flush.trans hf'))
    obtain ⟨hend, ho⟩ := finishUpdate_answers hfl' hk
    have hwait' : d.waiting = [] := by
      unfold PipeCache.waiting
      rw [if_pos hinf]
    refine ⟨[bk], ?_, hend.flush.trans hfl', ?_, ?_⟩
    · rw [hend.served]
      change f.served ++ [bk] = _
      rw [hpre.served, hserved]
      exact congrArg (· ++ [bk]) ha.served
    · have hret : c'.waiting = g.waiting := by
        rw [hend.waiting]
        exact hpre.waiting
      rw [hwait', cpuResps_append, ho, List.append_nil, hret, ← hlog]
      rfl
    · rw [hend.time]
      change (n : Tick) < f.schedHitTime
      rw [hpre.time]
      exact hlate
  | start bk bk' r e hb hfr hq ht hv heq ho =>
    rw [heq] at hstill ⊢
    rw [ho] at hstill ⊢
    exact hstill ⟨ht.schedHitTime, ht.schedHitResp, ht.served, ht.pendingFlush⟩ rfl
  | miss bk r hb hh hv hm h0 hfill hr hp he hlen heq =>
    obtain ⟨ha, ho⟩ := missUpdate_answers n bk d
    rw [← heq] at ha ho
    exact hstill ha ho

theorem enqueue_answers {e : CachePipeEntry} (hx : c.enqueue now e = .ok c') :
    SameAnswers c c' := by
  obtain ⟨_, _, _, rfl⟩ := enqueue_eq_ok.mp hx
  exact ⟨rfl, rfl, rfl, rfl⟩

theorem recvMemResp_answers {m : MemTrans} (hx : c.recvMemResp now m = .ok c') :
    SameAnswers c c' ∧ c'.back = c.back ∧ (c'.rWaiting = true → c.rWaiting = true) := by
  rcases recvMemResp_cases hx with ⟨_, _, _, _, _, _, _, _, _, rfl⟩ | ⟨_, _, rfl⟩
  · exact ⟨⟨rfl, rfl, rfl, rfl⟩, rfl, fun h => by cases h⟩
  · exact ⟨⟨rfl, rfl, rfl, rfl⟩, rfl, id⟩

theorem finishUpdate_wait {outs : List CacheOut} (hf : c.pendingFlush = false)
    (hx : c.finishUpdate now = .ok (c', outs)) :
    c'.rWaiting = c.rWaiting ∧ (c.pipe.length = 1 → c'.back = none) := by
  have hone : ∀ b, c.pipe.length = 1 → ({ c.shifted with isShifted := b } : PipeCache P).back =
      none := by
    intro b hlen
    obtain ⟨x, hp⟩ := List.length_eq_one_iff.mp hlen
    refine back_of_pipe (l := []) ?_
    change none :: c.pipe.dropLast = _
    rw [hp]
    rfl
  unfold finishUpdate at hx
  rw [if_neg (by simp [hf])] at hx
  dsimp only at hx
  split at hx
  · rename_i bk hbk
    have hno : c.pipe.length ≠ 1 := by
      intro hlen
      have := hone c.isShifted hlen
      rw [show ({ c.shifted with isShifted := c.isShifted } : PipeCache P).back = some bk from hbk]
        at this
      cases this
    split at hx
    · obtain ⟨⟨bk', d⟩, hd, hx⟩ := bind_eq_ok.mp hx
      cases hx
      obtain ⟨r, ht⟩ := accessTail_looked hd
      exact ⟨ht.rWaiting, fun hlen => absurd hlen hno⟩
    · cases hx
      exact ⟨rfl, fun hlen => absurd hlen hno⟩
  · cases hx
    exact ⟨rfl, hone true⟩

/-- While a response waits no refill is outstanding, and it is due in tick `n` or there is nothing
in the single cell of the pipe. -/
def Prompt (n : Nat) (c : PipeCache P) : Prop :=
  c.schedHitTime ≠ infTime → c.rWaiting = false ∧
    (P.wbHitRespDelay ≤ 1 ∧ c.schedHitTime ≤ (n : Tick) ∨ P.pipeDepth = 1 ∧ c.back = none)

theorem Prompt.unhurried {n : Nat} (h : Prompt n c) : c.unhurried n = true := by
  unfold PipeCache.unhurried
  rw [Bool.and_eq_true, Bool.not_eq_true', Bool.not_eq_true']
  by_cases hs : c.schedHitTime = infTime
  · refine ⟨by simp [hs], ?_⟩
    have : ¬infTime ≤ (n : Tick) := not_le.mpr (ENat.natCast_lt_top n)
    simp [hs]
  · obtain ⟨hr, ⟨_, hle⟩ | ⟨_, hb⟩⟩ := h hs
    · exact ⟨by simp [not_lt.mpr hle], by simp [hr]⟩
    · exact ⟨by simp [tailHits, hb], by simp [hr]⟩

theorem WellFormed.doUpdate_prompt {n : Nat} {outs : List CacheOut}
    (hcfg : P.pipeDepth = 1 ∨ P.wbHitRespDelay ≤ 1) (hwb : P.writeBack = true)
    (h : WellFormed c) (hf : c.pendingFlush = false) (hl : (n : Tick) ≤ c.schedHitTime)
    (hp : Prompt n c) (hx : c.doUpdate n = .ok (c', outs)) : Prompt (n + 1) c' := by
  -- a response that goes on waiting belongs to an empty pipe of a single cell
  have hgo : (n : Tick) < c.schedHitTime → c.schedHitTime ≠ infTime →
      c.rWaiting = false ∧ P.pipeDepth = 1 ∧ c.back = none := by
    intro hlt hne
    obtain ⟨hr, ⟨_, hle⟩ | hb⟩ := hp hne
    · exact absurd hle (not_le.mpr hlt)
    · exact ⟨hr, hb⟩
  rcases doUpdate_cases hx with ⟨hnot, rfl, rfl⟩ | ⟨hdue, o, hs, rfl⟩
  · intro hne
    have hle : c'.nextUpdate ≤ c'.schedHitTime := by
      unfold nextUpdate
      split
      · exact le_rfl
      · exact min_le_right _ _
    obtain ⟨hr, hb⟩ := hgo ((not_le.mp hnot).trans_le hle) hne
    exact ⟨hr, .inr hb⟩
  obtain ⟨_, hlt, hcase⟩ := deliverDeferred_answers hl
  have hw := (h.deliverDeferred n).1
  have hf' : (c.deliverDeferred n).1.pendingFlush = false := by
    refine Eq.trans ?_ hf
    unfold PipeCache.deliverDeferred
    split <;> rfl
  have hsched : (c.deliverDeferred n).1.tailHits = true →
      (c.deliverDeferred n).1.schedHitTime = infTime := by
    intro hhit
    rcases hcase with hinf | heq
    · exact hinf
    · rw [heq] at hhit hlt ⊢
      exact unhurried_single hp.unhurried hdue hhit hlt
  have hgo' : (c.deliverDeferred n).1.schedHitTime ≠ infTime →
      (c.deliverDeferred n).1.rWaiting = false ∧ P.pipeDepth = 1 ∧
        (c.deliverDeferred n).1.back = none := by
    intro hne
    rcases hcase with hinf | heq
    · exact absurd hinf hne
    · rw [heq] at hlt hne ⊢
      exact hgo hlt hne
  generalize (c.deliverDeferred n).1 = d at hs hw hf' hsched hgo'
  intro hne
  cases hw.serve_cases hs with
  | finish hb hx =>
    obtain ⟨ha, _⟩ := finishUpdate_answers hf' hx
    obtain ⟨hr, hone⟩ := finishUpdate_wait hf' hx
    obtain ⟨hrd, hd, _⟩ := hgo' (ha.time ▸ hne)
    exact ⟨hr.trans hrd, .inr ⟨hd, hone (hw.len.trans hd)⟩⟩
  | hit bk₀ bk r e hb hlook hline _ hr _ _ _ _ hx =>
    obtain ⟨g, resp, f, o', hg, hfp, hk, rfl, hwk, _⟩ := hr.hitUpdate hx
    obtain ⟨hhits, _, ha⟩ := tailHits_of_lookTail hb hlook hline hr.hv
    obtain ⟨_, hfl, _, _, htime⟩ :=
      handleHit_answers (c := { e with isReplay := false }) hwb (ha.time.trans (hsched hhits)) hg
    have hhit := handleHit_cases hr.hv hg
    have hpre := (prefetchAfter_cases hfp).1
    have hfl' : (f.retire bk).pendingFlush = false :=
      hpre.pendingFlush.trans (hfl.trans (ha.flush.trans hf'))
    obtain ⟨hend, _⟩ := finishUpdate_answers hfl' hk
    obtain ⟨hrw, hone⟩ := finishUpdate_wait hfl' hk
    have hsame : c'.schedHitTime = g.schedHitTime := hend.time.trans hpre.schedHitTime
    have hrw' : (f.retire bk).rWaiting = false :=
      (hpre.rWaiting.trans hhit.rWaiting).trans hr.hq.rWaiting
    refine ⟨hrw.trans hrw', ?_⟩
    rcases hcfg with hd | hd
    · exact .inr ⟨hd, hone (hwk.len.trans hd)⟩
    · refine .inl ⟨hd, ?_⟩
      rw [hsame, htime (hsame ▸ hne)]
      exact_mod_cast Nat.add_le_add_left hd n
  | start bk bk' r e hb hfr hq ht hv heq ho =>
    rw [heq] at hne
    obtain ⟨_, _, hnone⟩ := hgo' (ht.schedHitTime ▸ hne)
    cases hb.symm.trans hnone
  | miss bk r hb hh hv hm h0 hfill hr hp' he hlen heq =>
    obtain ⟨ha, _⟩ := missUpdate_answers n bk d
    rw [← heq] at ha
    obtain ⟨_, _, hnone⟩ := hgo' (ha.time ▸ hne)
    cases hb.symm.trans hnone

theorem Prompt.of_idle {n : Nat} (h : c.schedHitTime = infTime) : Prompt n c :=
  fun hne => absurd h hne

private theorem fill_requested (h : WellFormed c) (hr : c.rWaiting = true) :
    c.pendingFillReq = false := by
  cases h.tail with
  | empty _ hq => exact absurd (hr.symm.trans hq.rWaiting) (by decide)
  | fresh _ _ _ hq => exact absurd (hr.symm.trans hq.rWaiting) (by decide)
  | missed _ _ _ _ _ _ _ _ hr' => exact absurd (hr.symm.trans hr') (by decide)
  | filling _ _ _ _ _ _ _ hfill => exact hfill
  | filled _ _ _ _ _ _ _ hfill => exact hfill

theorem doUpdate_of_waiting {n : Nat} (h : WellFormed c) (hr : c.rWaiting = true)
    (hu : c.unhurried n = true) : c.doUpdate n = .ok (c, []) := by
  have hlate : ¬c.schedHitTime ≤ (n : Tick) := by
    intro hs
    cases hr.symm.trans (unhurried_apart hu hs)
  have hnext : c.nextUpdate = c.schedHitTime := by
    unfold nextUpdate
    rw [if_pos]
    rw [hr, fill_requested h hr]
    rfl
  unfold PipeCache.doUpdate
  rw [hnext, if_neg hlate]

theorem WellFormed.doUpdate_unhurried {n : Nat} (hP : P.Total) (h : WellFormed c)
    (hu : c.unhurried n = true) : ∃ x, c.doUpdate n = .ok x := by
  by_cases hr : c.rWaiting = true
  · exact ⟨_, doUpdate_of_waiting h hr hu⟩
  · have hwait : c.nextUpdate ≤ n → c.rWaiting = false ∨ c.pendingFillReq = true :=
      fun _ => .inl (Bool.eq_false_iff.mpr hr)
    obtain ⟨x, hx, _⟩ := (h.doUpdate_meets_of hP.policy hwait).exists_ok hP.not_subword
    exact ⟨x, hx⟩

end PipeCache

/-- A cache updated once in every tick, with its hits and its answers and their ticks. -/
structure Delayed (P : CacheParams) where
  bench : Bench P := {}
  updated : Bool := false
  hits : List (Nat × Addr × MemRWOpt) := []
  answers : List (Nat × Addr × MemRWOpt) := []

namespace Delayed

variable {P : CacheParams}

def next (s : Delayed P) : Nat := if s.updated then s.bench.now + 1 else s.bench.now

def update (s : Delayed P) (x : PipeCache P × List CacheOut) : Delayed P where
  bench := { s.bench with
    cache := x.1
    sent := s.bench.sent ++ x.2
    outstanding := s.bench.outstanding ++ requests x.2 }
  updated := true
  hits := s.hits ++
    (x.1.served.drop s.bench.cache.served.length).map fun e => (s.bench.now, e.req)
  answers := s.answers ++ (cpuResps x.2).map fun q => (s.bench.now, q)

/-- A request of a requester that looks at `is_ready`, an answer of memory, the update of the tick
or the next tick. -/
inductive Step (s : Delayed P) : Delayed P → Prop
  | request {b : Bench P} (hr : s.bench.cache.isReady.1 = true)
      (h : Bench.Step s.bench .request b) : Step s { s with bench := b }
  | answer {m : MemTrans} {b : Bench P} (h : Bench.Step s.bench (.answer m) b) :
      Step s { s with bench := b }
  | update {x : PipeCache P × List CacheOut} (hu : s.updated = false)
      (h : s.bench.cache.doUpdate s.bench.now = .ok x) : Step s (s.update x)
  | tick (hu : s.updated = true) :
      Step s { s with bench := { s.bench with now := s.bench.now + 1 }, updated := false }

def Calm (s s' : Delayed P) : Prop :=
  s.updated = false → s'.updated = true → s.bench.cache.unhurried s.bench.now = true

def Reachable (s : Delayed P) : Prop := ReflTransGen Step {} s

def CalmReachable (s : Delayed P) : Prop := ReflTransGen (fun s s' => Step s s' ∧ Calm s s') {} s

structure Punctual (s : Delayed P) : Prop where
  sound : s.bench.Sound
  flush : s.bench.cache.pendingFlush = false
  served : s.hits.map (·.2) = s.bench.cache.served.map CachePipeEntry.req
  log : s.hits.map (fun x => (x.1 + P.wbHitRespDelay, x.2)) =
    s.answers ++ s.bench.cache.waiting
  due : (s.next : Tick) ≤ s.bench.cache.schedHitTime

theorem punctual_init : Punctual ({} : Delayed P) :=
  ⟨Bench.sound_init, rfl, rfl, by
    unfold PipeCache.waiting
    rw [if_pos rfl]
    rfl, le_top⟩

private theorem Punctual.call {s : Delayed P} {b : Bench P} {l : Bench.Label} (h : Punctual s)
    (hs : Bench.Step s.bench l b) (hn : b.now = s.bench.now)
    (ha : PipeCache.SameAnswers s.bench.cache b.cache) :
    Punctual { s with bench := b } := by
  refine ⟨hs.sound h.sound, ha.flush.trans h.flush, ?_, ?_, ?_⟩
  · exact h.served.trans (congrArg _ ha.served.symm)
  · exact h.log.trans (congrArg _ ha.waiting.symm)
  · change ((if s.updated then b.now + 1 else b.now : Nat) : Tick) ≤ b.cache.schedHitTime
    rw [hn, ha.time]
    exact h.due

private theorem request_answers {b b' : Bench P} (hs : Bench.Step b .request b') :
    b'.now = b.now ∧ PipeCache.SameAnswers b.cache b'.cache := by
  cases hs with
  | read addr hx => exact ⟨rfl, PipeCache.enqueue_answers hx⟩
  | write addr data mask hwb hx =>
    unfold PipeCache.writeReq at hx
    rw [if_pos hwb] at hx
    obtain ⟨d, hd, hx⟩ := bind_eq_ok.mp hx
    cases hx
    exact ⟨rfl, PipeCache.enqueue_answers hd⟩

theorem Punctual.update {s : Delayed P} {x : PipeCache P × List CacheOut}
    (hwb : P.writeBack = true) (h : Punctual s) (hu : s.updated = false)
    (hc : s.bench.cache.unhurried s.bench.now = true)
    (hx : s.bench.cache.doUpdate s.bench.now = .ok x) : Punctual (s.update x) := by
  obtain ⟨c, outs⟩ := x
  have hdue : (s.bench.now : Tick) ≤ s.bench.cache.schedHitTime := by
    have := h.due
    rwa [next, hu, if_neg Bool.false_ne_true] at this
  obtain ⟨k, hk, hf, hlog, hlate⟩ := h.sound.wf.doUpdate_answers hwb h.flush hdue hc hx
  have hdrop : c.served.drop s.bench.cache.served.length = k := by
    rw [hk, List.drop_left]
  refine ⟨(Bench.Step.update hx).sound h.sound, hf, ?_, ?_, ?_⟩
  · change (s.hits ++ (c.served.drop s.bench.cache.served.length).map _).map _ = c.served.map _
    rw [List.map_append, h.served, hdrop, hk, List.map_append, List.map_map]
    rfl
  · change (s.hits ++ (c.served.drop s.bench.cache.served.length).map _).map _ =
      (s.answers ++ (cpuResps outs).map _) ++ c.waiting
    rw [List.map_append, h.log, hdrop, List.map_map, List.append_assoc, List.append_assoc, ← hlog]
    rfl
  · change ((s.bench.now + 1 : Nat) : Tick) ≤ c.schedHitTime
    rw [Nat.cast_add, Nat.cast_one]
    exact Order.add_one_le_of_lt hlate

theorem Step.punctual {s s' : Delayed P} (hwb : P.writeBack = true) (hs : Step s s')
    (hc : Calm s s') (h : Punctual s) : Punctual s' := by
  cases hs with
  | request _ hs =>
    obtain ⟨hn, ha⟩ := request_answers hs
    exact h.call hs hn ha
  | answer hs =>
    cases hs with
    | answer _ data hm hx =>
      exact h.call (.answer _ data hm hx) rfl (PipeCache.recvMemResp_answers hx).1
  | update hu hx => exact h.update hwb hu (hc hu rfl) hx
  | tick hu =>
    have hdue := h.due
    rw [next, if_pos hu] at hdue
    exact ⟨Bench.Step.tick.sound h.sound, h.flush, h.served, h.log, hdue⟩

theorem CalmReachable.punctual {s : Delayed P} (hwb : P.writeBack = true) (h : CalmReachable s) :
    Punctual s :=
  invariant_of_run (fun _ _ hs => hs.1.punctual hwb hs.2) punctual_init h

/-- With a single cell, or a delay of at most one tick, no update is ever hurried. -/
theorem Reachable.calm {s : Delayed P} (hwb : P.writeBack = true)
    (hcfg : P.pipeDepth = 1 ∨ P.wbHitRespDelay ≤ 1) (h : Reachable s) :
    CalmReachable s ∧ s.bench.cache.Prompt s.next := by
  induction h with
  | refl => exact ⟨.refl, .of_idle rfl⟩
  | tail _ hs ih =>
    obtain ⟨hrun, hp⟩ := ih
    have hq := hrun.punctual hwb
    cases hs with
    | request hr hs =>
      refine ⟨hrun.tail ⟨.request hr hs, fun hu hu' => ?_⟩, .of_idle ?_⟩
      · cases hu.symm.trans hu'
      · obtain ⟨_, ha⟩ := request_answers hs
        refine ha.time.trans ?_
        unfold PipeCache.isReady at hr
        dsimp only at hr
        rw [hwb, if_pos rfl] at hr
        simp only [Bool.and_eq_true, decide_eq_true_eq] at hr
        exact hr.2
    | answer hs =>
      cases hs with
      | answer _ data hm hx =>
        refine ⟨hrun.tail ⟨.answer (.answer _ data hm hx), fun hu hu' => ?_⟩, fun hne => ?_⟩
        · cases hu.symm.trans hu'
        · obtain ⟨ha, hb, hr⟩ := PipeCache.recvMemResp_answers hx
          obtain ⟨hr₀, hcase⟩ := hp (ha.time ▸ hne)
          refine ⟨?_, ?_⟩
          · by_contra hr'
            cases hr₀.symm.trans (hr (Bool.not_eq_false _ ▸ hr'))
          · rcases hcase with ⟨hd, hle⟩ | ⟨hd, hnone⟩
            · exact .inl ⟨hd, ha.time.symm ▸ hle⟩
            · exact .inr ⟨hd, hb.trans hnone⟩
    | update hu hx =>
      have hnext : Delayed.next _ = _ := if_neg (by rw [hu]; decide)
      rw [hnext] at hp
      have hdue := hq.due
      rw [hnext] at hdue
      exact ⟨hrun.tail ⟨.update hu hx, fun _ _ => hp.unhurried⟩,
        hq.sound.wf.doUpdate_prompt hcfg hwb hq.flush hdue hp hx⟩
    | tick hu =>
      refine ⟨hrun.tail ⟨.tick hu, fun hu' => ?_⟩, ?_⟩
      · cases hu.symm.trans hu'
      · rw [next, if_pos hu] at hp
        exact hp

/-- While no update is hurried every hit is answered once, in order, the delay after it was served,
and a refill wait is never disturbed. With a single cell, or a delay of at most one tick, that is so
in every run. -/
theorem deferred_hits (hwb : P.writeBack = true) :
    (∀ s : Delayed P, CalmReachable s →
      s.hits.map (fun x => (x.1 + P.wbHitRespDelay, x.2)) =
          s.answers ++ s.bench.cache.waiting ∧
        (∀ x ∈ s.bench.cache.waiting, s.next ≤ x.1) ∧
        s.bench.accepted = s.hits.map (·.2) ++ s.bench.cache.pending.map CachePipeEntry.req ∧
        (∀ e ∈ s.bench.cache.served, e.Done) ∧
        (s.bench.cache.unhurried s.bench.now = true →
          (P.Total → ∃ x, s.bench.cache.doUpdate s.bench.now = .ok x) ∧
          (s.bench.cache.rWaiting = true →
            s.bench.cache.doUpdate s.bench.now = .ok (s.bench.cache, [])))) ∧
      (P.pipeDepth = 1 ∨ P.wbHitRespDelay ≤ 1 →
        ∀ s : Delayed P, Reachable s → CalmReachable s) := by
  refine ⟨fun s hs => ?_, fun hcfg s hs => (hs.calm hwb hcfg).1⟩
  have h := hs.punctual hwb
  refine ⟨h.log, fun x hx => ?_, ?_, h.sound.wf.served, fun hu => ⟨fun hP => ?_, fun hr => ?_⟩⟩
  · unfold PipeCache.waiting at hx
    split at hx
    · cases hx
    · rename_i hne
      rw [List.mem_singleton.mp hx]
      have hdue := h.due
      rw [← ENat.natCast_toNat hne] at hdue
      exact_mod_cast hdue
  · rw [h.served, ← List.map_append]
    exact h.sound.log.symm
  · exact h.sound.wf.doUpdate_unhurried hP hu
  · exact PipeCache.doUpdate_of_waiting h.sound.wf hr hu

def perform (s : Delayed P) : Bench.Call → Option (Delayed P)
  | .read addr =>
    if s.bench.cache.isReady.1 then (s.bench.perform (.read addr)).map fun b =>
      { s with bench := b }
    else none
  | .write addr =>
    if s.bench.cache.isReady.1 then (s.bench.perform (.write addr)).map fun b =>
      { s with bench := b }
    else none
  | .answer =>
    if s.bench.outstanding = [] then none
    else (s.bench.perform .answer).map fun b => { s with bench := b }
  | .update =>
    if s.updated then none else (s.bench.cache.doUpdate s.bench.now).toOption.map s.update
  | .tick =>
    if s.updated then
      some { s with bench := { s.bench with now := s.bench.now + 1 }, updated := false }
    else none
  | .flushAll => none

theorem perform_step {s s' : Delayed P} {k : Bench.Call} (h : s.perform k = some s') :
    Step s s' := by
  cases k with
  | read addr =>
    rw [perform] at h
    split at h
    · rename_i hr
      obtain ⟨b, hb, rfl⟩ := Option.map_eq_some_iff.mp h
      exact .request hr (Bench.perform_step hb)
    · cases h
  | write addr =>
    rw [perform] at h
    split at h
    · rename_i hr
      obtain ⟨b, hb, rfl⟩ := Option.map_eq_some_iff.mp h
      exact .request hr (Bench.perform_step hb)
    · cases h
  | answer =>
    rw [perform] at h
    split at h
    · cases h
    · rename_i hne
      obtain ⟨b, hb, rfl⟩ := Option.map_eq_some_iff.mp h
      obtain ⟨m, hm⟩ := List.exists_mem_of_ne_nil _ hne
      have hs := Bench.perform_step hb
      rw [Bench.label] at hs
      cases hl : s.bench.outstanding with
      | nil => exact absurd hl hne
      | cons m l =>
        rw [hl] at hs
        exact .answer hs
  | update =>
    rw [perform] at h
    split at h
    · cases h
    · rename_i hu
      obtain ⟨x, hx, rfl⟩ := Bench.toOption_map_eq_some h
      exact .update (Bool.eq_false_iff.mpr hu) hx
  | tick =>
    rw [perform] at h
    split at h
    · rename_i hu
      cases h
      exact .tick hu
    · cases h
  | flushAll => cases h

def performAll (ok : Delayed P → Bool) (s : Delayed P) : List Bench.Call → Option (Delayed P)
  | [] => some s
  | k :: ks => if ok s then (s.perform k).bind fun s' => performAll ok s' ks else none

theorem run_of_performAll {ok : Delayed P → Bool} {s s' : Delayed P} {ks : List Bench.Call}
    (h : performAll ok s ks = some s') :
    ReflTransGen (fun s s' => ok s = true ∧ Step s s') s s' := by
  induction ks generalizing s with
  | nil =>
    cases h
    exact .refl
  | cons k ks ih =>
    rw [performAll] at h
    split at h
    · rename_i hok
      obtain ⟨t, ht, h⟩ := Option.bind_eq_some_iff.mp h
      exact .head ⟨hok, perform_step ht⟩ (ih h)
    · cases h

def calm (s : Delayed P) : Bool := s.updated || s.bench.cache.unhurried s.bench.now

theorem calmReachable_of_performAll {s : Delayed P} {ks : List Bench.Call}
    (h : performAll calm {} ks = some s) : CalmReachable s := by
  refine ReflTransGen.mono (fun s s' hs => ⟨hs.2, fun hu _ => ?_⟩) _ _ (run_of_performAll h)
  have := hs.1
  rwa [calm, hu, Bool.false_or] at this

theorem reachable_of_performAll {ok : Delayed P → Bool} {s : Delayed P} {ks : List Bench.Call}
    (h : performAll ok {} ks = some s) : Reachable s :=
  ReflTransGen.mono (fun _ _ hs => hs.2) _ _ (run_of_performAll h)

/-- A write-back cache of two sets with a response delay of two ticks. -/
abbrev slowCache : CacheParams :=
  { Bench.instCache 2 1 Nat.one_pos lruReplPolicy with writeBack := true, wbHitRespDelay := 2 }

private def loaded : List Bench.Call :=
  [.update, .read 0, .tick, .update, .tick, .update, .answer, .tick, .update, .tick, .update,
    .tick, .update, .tick, .update]

/-- A read and a write of the block, as far apart as the delay asks. -/
private def spaced : List Bench.Call :=
  loaded ++ [.tick, .update, .read 0, .tick, .update, .tick, .update, .tick, .update, .tick,
    .update, .write 0, .tick, .update, .tick, .update]

/-- A miss and two hits, each answered two ticks after it was served; the last one waits. -/
theorem deferred_hits_spaced : ∃ s : Delayed slowCache, CalmReachable s ∧
    s.hits = [(4, 0, .read), (9, 0, .read), (13, 0, .write)] ∧
    s.bench.cache.waiting = [(15, 0, .write)] ∧ s.answers = [(6, 0, .read), (11, 0, .read)] := by
  have hrun : (performAll calm ({} : Delayed slowCache) spaced).map (fun s =>
      (s.hits, s.bench.cache.waiting)) =
      some ([(4, 0, .read), (9, 0, .read), (13, 0, .write)], [(15, 0, .write)]) := by
    decide +kernel
  obtain ⟨s, hs, hv⟩ := Option.map_eq_some_iff.mp hrun
  have hcalm := calmReachable_of_performAll hs
  obtain ⟨hh, hw⟩ := Prod.mk.inj hv
  have hlog := ((deferred_hits (P := slowCache) rfl).1 s hcalm).1
  have hanswers : [(6, 0, .read), (11, 0, .read)] = s.answers := by
    rw [hh, hw] at hlog
    exact List.append_cancel_right hlog
  exact ⟨s, hcalm, hh, hw, hanswers.symm⟩

/-- With two cells and a delay of two ticks, two hits in consecutive ticks leave the first without
an answer, and a miss behind a hit has its replay run before its refill. -/
theorem deferred_hits_lost :
    (∃ s : Delayed slowCache, Reachable s ∧
      s.hits = [(4, 0, .read), (9, 0, .read), (10, 0, .read)] ∧
      s.answers = [(6, 0, .read), (12, 0, .read)] ∧ s.bench.cache.waiting = []) ∧
    ∃ s : Delayed slowCache, Reachable s ∧ s.updated = false ∧ s.bench.cache.rWaiting = true ∧
      s.bench.cache.doUpdate s.bench.now = .error .replayInvalid := by
  constructor
  · have hrun : (performAll (fun _ => true) ({} : Delayed slowCache) (loaded ++
        [.tick, .update, .read 0, .tick, .update, .read 0, .tick, .update, .tick, .update, .tick,
          .update, .tick, .update])).map (fun s =>
            (s.hits, s.answers, decide (s.bench.cache.schedHitTime = infTime))) =
        some ([(4, 0, .read), (9, 0, .read), (10, 0, .read)],
          [(6, 0, .read), (12, 0, .read)], true) := by
      decide +kernel
    obtain ⟨s, hs, hv⟩ := Option.map_eq_some_iff.mp hrun
    obtain ⟨hh, hv⟩ := Prod.mk.inj hv
    obtain ⟨ha, ht⟩ := Prod.mk.inj hv
    refine ⟨s, reachable_of_performAll hs, hh, ha, ?_⟩
    rw [PipeCache.waiting, if_pos (of_decide_eq_true ht)]
  · have hrun : (performAll (fun _ => true) ({} : Delayed slowCache) (loaded ++
        [.tick, .update, .read 0, .tick, .update, .read 64, .tick, .update, .tick, .update,
          .tick])).map (fun s => (s.updated, s.bench.cache.rWaiting,
            Bench.faultOf (s.bench.cache.doUpdate s.bench.now))) =
        some (false, true, some .replayInvalid) := by
      decide +kernel
    obtain ⟨s, hs, hv⟩ := Option.map_eq_some_iff.mp hrun
    obtain ⟨hu, hv⟩ := Prod.mk.inj hv
    obtain ⟨hr, hf⟩ := Prod.mk.inj hv
    exact ⟨s, reachable_of_performAll hs, hu, hr, Bench.error_of_faultOf hf⟩

end Delayed

end NpSim.Cache
