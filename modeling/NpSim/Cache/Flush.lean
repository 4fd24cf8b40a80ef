/- digest: `flush_all` and what is under way when it is carried out: responses that wait, writes in
   flight, and the readiness of the port afterwards. -/

import NpSim.Cache.Answers
import NpSim.Cache.WriteThrough

set_option autoImplicit false
set_option relaxedAutoImplicit false

namespace NpSim.Cache

open NpSim.Lib.Partial NpSim.Lib.Fair Relation

namespace PipeCache

variable {P : CacheParams} {c c' : PipeCache P} {now : Nat}

/-- The update of tick `n` carries out no flush, or one that forgets neither a response nor a write
in flight. -/
def mindful (n : Nat) (c : PipeCache P) : Bool :=
  !(decide (c.nextUpdate ≤ n) && c.flushes) ||
    (!c.wWaiting && !(decide ((n : Tick) < c.schedHitTime) && decide (c.schedHitTime ≠ infTime))
      && (c.back.isNone || !(P.writeBack && P.wbHitRespDelay != 0)))

/-- The responses that wait, without their ticks. -/
def deferral (c : PipeCache P) : List (Addr × MemRWOpt) := c.waiting.map (·.2)

theorem SameAnswers.deferral (h : SameAnswers c c') : c'.deferral = c.deferral := by
  unfold PipeCache.deferral
  rw [h.waiting]

theorem deferral_of_none (h : c.schedHitTime = infTime) : c.deferral = [] := by
  unfold deferral waiting
  rw [if_pos h]
  rfl

theorem finishUpdate_deferral {outs : List CacheOut}
    (hw : (c.pendingFlush && c.pipe.all (·.isNone)) = true → c.deferral = [])
    (hx : c.finishUpdate now = .ok (c', outs)) :
    c'.served = c.served ∧ cpuResps outs = [] ∧ c'.deferral = c.deferral := by
  have hfin := hx
  unfold finishUpdate at hfin
  split at hfin
  · rename_i hflush
    cases hfin
    exact ⟨rfl, rfl, (deferral_of_none rfl).trans (hw hflush).symm⟩
  · dsimp only at hfin
    split at hfin
    · split at hfin
      · obtain ⟨⟨bk', d⟩, hd, hfin⟩ := bind_eq_ok.mp hfin
        cases hfin
        obtain ⟨r, ht⟩ := accessTail_looked hd
        have hs : SameAnswers c { d with pendingFillReq := true, blockedUntil := now + 1 } :=
          ⟨ht.schedHitTime, ht.schedHitResp, ht.served, ht.pendingFlush⟩
        exact ⟨ht.served, rfl, hs.deferral⟩
      · cases hfin
        exact ⟨rfl, rfl, rfl⟩
    · cases hfin
      exact ⟨rfl, rfl, rfl⟩

theorem deliverDeferred_deferral (n : Nat) (c : PipeCache P) :
    c.deferral = cpuResps (c.deliverDeferred n).2 ++ (c.deliverDeferred n).1.deferral ∧
      ((c.deliverDeferred n).1.schedHitTime = infTime ∨
        (n : Tick) < c.schedHitTime ∧ (c.deliverDeferred n).1 = c) := by
  unfold PipeCache.deliverDeferred
  split
  · rename_i hdue
    have hne : c.schedHitTime ≠ infTime := fun h =>
      absurd (top_le_iff.mp (h.symm.trans_le hdue)) (ENat.natCast_ne_top n)
    refine ⟨?_, .inl rfl⟩
    rw [deferral_of_none (c := { c with schedHitTime := infTime }) rfl]
    unfold deferral waiting
    rw [if_neg hne]
    rfl
  · rename_i hdue
    exact ⟨rfl, .inr ⟨not_le.mp hdue, rfl⟩⟩

/-- What a mindful update finds when it carries out a flush. -/
private theorem mindful_flush {n : Nat} (hwb : P.writeBack = true)
    (hdue : c.nextUpdate ≤ (n : Tick)) (hm : c.mindful n = true) (hf : c.flushes = true) :
    (c.deliverDeferred n).1.deferral = [] ∧ (c.back.isSome = true → P.wbHitRespDelay = 0) := by
  unfold mindful at hm
  simp only [hdue, decide_true, hf, Bool.and_self, Bool.not_true, Bool.false_or,
    Bool.and_eq_true, Bool.not_eq_true', Bool.or_eq_true, Bool.and_eq_false_iff,
    decide_eq_false_iff_not, not_not, hwb, Bool.true_and, bne_eq_false_iff_eq] at hm
  refine ⟨?_, fun hb => ?_⟩
  · rcases (deliverDeferred_deferral n c).2 with hinf | ⟨hlt, heq⟩
    · exact deferral_of_none hinf
    · rw [heq]
      exact deferral_of_none (hm.1.2.resolve_left fun hx => hx hlt)
  · refine hm.2.resolve_left fun hn => ?_
    rw [Option.isNone_iff_eq_none.mp hn] at hb
    cases hb

private theorem Ready.hitUpdate_deferral {d e : PipeCache P} {bk₀ bk : CachePipeEntry}
    {r : LineRef} {o : List CacheOut} (hwb : P.writeBack = true) (hb : d.back = some bk₀)
    (hlook : d.lookTail now bk₀ = .ok (bk, e)) (hline : bk.line = some r)
    (hr : Ready bk r { e with isReplay := false })
    (hsched : d.tailHits = true → d.schedHitTime = infTime)
    (hflush : (d.pendingFlush && d.pipe.dropLast.all (·.isNone)) = true → d.tailHits = true →
      P.wbHitRespDelay = 0)
    (hx : ({ e with isReplay := false } : PipeCache P).hitUpdate now bk r e.isReplay =
      .ok (c', o)) :
    ∃ k, c'.served = d.served ++ k ∧
      d.deferral ++ k.map CachePipeEntry.req = cpuResps o ++ c'.deferral := by
  obtain ⟨g, resp, f, o', hg, hfp, hk, rfl, _⟩ := hr.hitUpdate hx
  obtain ⟨hhits, hreq, ha⟩ := tailHits_of_lookTail hb hlook hline hr.hv
  have hinf := hsched hhits
  obtain ⟨hsv, hfl, hlog, _, _⟩ :=
    handleHit_answers (c := { e with isReplay := false }) hwb (ha.time.trans hinf) hg
  have hh := handleHit_cases hr.hv hg
  have hpre := (prefetchAfter_cases hfp).1
  have hheld : (f.retire bk).deferral = g.deferral := hpre.answers.deferral
  have hnow : [bk.req] = cpuResps resp ++ g.deferral := by
    have := congrArg (List.map Prod.snd) hlog
    simpa [deferral, Function.comp_def] using this
  have hfin := finishUpdate_deferral (fun hf => ?_) hk
  · obtain ⟨hend, ho, hlast⟩ := hfin
    refine ⟨[bk], ?_, ?_⟩
    · rw [hend]
      change f.served ++ [bk] = _
      rw [hpre.served, hsv]
      exact congrArg (· ++ [bk]) ha.served
    · rw [deferral_of_none hinf, cpuResps_append, ho, List.append_nil, hlast, hheld, ← hnow]
      rfl
  · have hret : (d.pendingFlush && d.pipe.dropLast.all (·.isNone)) = true := by
      have hf' : (f.pendingFlush && (f.pipe.dropLast ++ [none]).all (·.isNone)) = true := hf
      rw [all_isNone_concat, hpre.pendingFlush, hpre.pipe, hh.pendingFlush, hh.pipe] at hf'
      obtain ⟨hpf, hpipe', _⟩ := lookTail_rest hlook
      rwa [← hpf, ← hpipe']
    have himm : (P.writeBack && P.wbHitRespDelay != 0) = false := by
      rw [hflush hret hhits, hwb]
      rfl
    rw [hheld]
    exact deferral_of_none ((hh.resp himm).1.trans (ha.time.trans hinf))

private theorem WellFormed.serve_deferral {d : PipeCache P} {n : Nat} {o : List CacheOut}
    (hwb : P.writeBack = true) (hw : WellFormed d)
    (hsched : d.tailHits = true → d.schedHitTime = infTime)
    (hflush : (d.pendingFlush && d.pipe.dropLast.all (·.isNone)) = true →
      d.back.isNone = true ∨ d.tailHits = true →
      d.deferral = [] ∧ (d.back.isSome = true → P.wbHitRespDelay = 0))
    (hs : d.serve n = .ok (c', o)) :
    ∃ k, c'.served = d.served ++ k ∧
      d.deferral ++ k.map CachePipeEntry.req = cpuResps o ++ c'.deferral := by
  have hstill : SameAnswers d c' → cpuResps o = [] → ∃ k, c'.served = d.served ++ k ∧
      d.deferral ++ k.map CachePipeEntry.req = cpuResps o ++ c'.deferral := by
    intro ha ho
    refine ⟨[], by rw [ha.served, List.append_nil], ?_⟩
    rw [ho, ha.deferral]
    exact List.append_nil _
  cases hw.serve_cases hs with
  | finish hb hx =>
    have hfin := finishUpdate_deferral (fun hf => ?_) hx
    · obtain ⟨hsv, ho, hh⟩ := hfin
      exact ⟨[], by rw [hsv, List.append_nil], by rw [ho, hh]; exact List.append_nil _⟩
    · refine (hflush ?_ (.inl ?_)).1
      · rw [Bool.and_eq_true] at hf ⊢
        refine ⟨hf.1, ?_⟩
        have hp := pipe_eq hw.len
        rw [hb] at hp
        rw [hp, all_isNone_concat] at hf
        exact hf.2
      · rw [hb]
        rfl
  | hit bk₀ bk r e hb hlook hline _ hr _ _ _ _ hx =>
    exact hr.hitUpdate_deferral hwb hb hlook hline hsched
      (fun hret hhits => (hflush hret (.inr hhits)).2 (by rw [hb]; rfl)) hx
  | start bk bk' r e hb hfr hq ht hv heq ho =>
    rw [heq] at hstill ⊢
    rw [ho] at hstill ⊢
    exact hstill ⟨ht.schedHitTime, ht.schedHitResp, ht.served, ht.pendingFlush⟩ rfl
  | miss bk r hb hh hv hm h0 hfill hr hp he hlen heq =>
    obtain ⟨ha, ho⟩ := missUpdate_answers n bk d
    rw [← heq] at ha ho
    exact hstill ha ho

theorem WellFormed.doUpdate_deferral {n : Nat} {outs : List CacheOut} (hwb : P.writeBack = true)
    (h : WellFormed c) (hu : c.unhurried n = true) (hm : c.mindful n = true)
    (hx : c.doUpdate n = .ok (c', outs)) :
    ∃ k, c'.served = c.served ++ k ∧
      c.deferral ++ k.map CachePipeEntry.req = cpuResps outs ++ c'.deferral := by
  rcases doUpdate_cases hx with ⟨_, rfl, rfl⟩ | ⟨hdue, o, hs, rfl⟩
  · exact ⟨[], (List.append_nil _).symm, List.append_nil _⟩
  obtain ⟨hwait, hcase⟩ := deliverDeferred_deferral n c
  have hw := (h.deliverDeferred n).1
  have hsame : (c.deliverDeferred n).1.served = c.served ∧
      (c.deliverDeferred n).1.back = c.back ∧
      (c.deliverDeferred n).1.pipe = c.pipe ∧
      (c.deliverDeferred n).1.pendingFlush = c.pendingFlush ∧
      (c.deliverDeferred n).1.tailHits = c.tailHits := by
    unfold PipeCache.deliverDeferred
    split <;> exact ⟨rfl, rfl, rfl, rfl, rfl⟩
  obtain ⟨hserved, hback, hpipe, hflush, htail⟩ := hsame
  have hsched : (c.deliverDeferred n).1.tailHits = true →
      (c.deliverDeferred n).1.schedHitTime = infTime := by
    intro hhit
    rcases hcase with hinf | ⟨hlt, heq⟩
    · exact hinf
    · rw [heq]
      exact unhurried_single hu hdue (htail ▸ hhit) hlt
  have hserve := hw.serve_deferral hwb hsched (fun hp ht => ?_) hs
  · obtain ⟨k, hk, hlog⟩ := hserve
    refine ⟨k, hserved ▸ hk, ?_⟩
    rw [hwait, List.append_assoc, hlog, cpuResps_append, List.append_assoc]
  · -- a flush that is carried out is a mindful one
    rw [hback]
    refine mindful_flush hwb hdue hm ?_
    unfold flushes drained
    rw [← hflush, ← hpipe, hp, Bool.true_and, Bool.or_eq_true, ← hback, ← htail]
    exact ht

theorem all_of_back {bk : CachePipeEntry} (h : c.back = some bk) :
    c.pipe.all (·.isNone) = false := by
  refine Bool.eq_false_iff.mpr fun hall => ?_
  have hmem := List.mem_of_getLast? (Option.join_eq_some_iff.mp h)
  cases List.all_eq_true.mp hall _ hmem

def Open (c : PipeCache P) : Prop := c.isShifted = true ∨ c.pipe.all (·.isNone) = false

/-- The end of an update leaves the front free or a miss at the tail; a flush is carried out when
the pipe is empty. -/
theorem finishUpdate_flush {outs : List CacheOut} (hx : c.finishUpdate now = .ok (c', outs)) :
    Open c' ∧ (c.pendingFlush = true → c'.pendingFlush = true ∨
      c'.pending = [] ∧ c'.deferral = []) := by
  unfold finishUpdate at hx
  split at hx
  · cases hx
    refine ⟨.inl rfl, fun _ => .inr ⟨?_, deferral_of_none rfl⟩⟩
    change (List.replicate P.pipeDepth none).reverse.filterMap id = []
    rw [List.reverse_replicate, List.filterMap_replicate]
    rfl
  · dsimp only at hx
    split at hx
    · split at hx
      · obtain ⟨⟨bk', d⟩, hd, hx⟩ := bind_eq_ok.mp hx
        cases hx
        obtain ⟨r, ht⟩ := accessTail_looked hd
        exact ⟨.inr (all_of_back (show _ = some bk' from back_of_pipe ht.pipe)),
          fun hf => .inl (ht.pendingFlush.trans hf)⟩
      · cases hx
        exact ⟨.inl rfl, fun hf => .inl hf⟩
    · cases hx
      exact ⟨.inl rfl, fun hf => .inl hf⟩

theorem WellFormed.serve_flush {outs : List CacheOut} (h : WellFormed c)
    (hx : c.serve now = .ok (c', outs)) :
    Open c' ∧ (c.pendingFlush = true → c'.pendingFlush = true ∨
      c'.pending = [] ∧ c'.deferral = []) := by
  cases h.serve_cases hx with
  | finish hb hx => exact finishUpdate_flush hx
  | hit bk₀ bk r e hb hlook hline _ hr _ _ _ _ hx =>
    obtain ⟨d, resp, f, o, hd, hf, hk, _⟩ := hr.hitUpdate hx
    obtain ⟨hopen, hflush⟩ := finishUpdate_flush hk
    refine ⟨hopen, fun hp => hflush ?_⟩
    change f.pendingFlush = true
    rw [(prefetchAfter_cases hf).1.pendingFlush, (handleHit_cases hr.hv hd).pendingFlush]
    exact (lookTail_rest hlook).1.trans hp
  | start bk bk' r e hb hfr hq ht hv heq ho =>
    rw [heq]
    exact ⟨.inr (all_of_back (show _ = some bk' from back_of_pipe ht.pipe)),
      fun hp => .inl (ht.pendingFlush.trans hp)⟩
  | miss bk r hb hh hv hm h0 hfill hr hp he hlen heq =>
    rw [show c' = _ from congrArg Prod.fst heq]
    have hall := all_of_back hb
    unfold missUpdate
    split
    · exact ⟨.inr hall, .inl⟩
    · split
      · split <;> exact ⟨.inr hall, .inl⟩
      · split
        · exact ⟨.inr hall, .inl⟩
        · exact ⟨.inr (all_of_back
            (show _ = some { bk with refills := bk.refills + 1 } from back_of_pipe rfl)), .inl⟩

/-- The invariant of a cache that may have a write in flight which it does not look at. -/
structure Healthy (c : PipeCache P) : Prop where
  wf : WellFormed c.side
  evict : P.writeBack = false → c.pendingEvict = false
  opened : Open c

theorem side_pipe (c : PipeCache P) : c.side.pipe = c.pipe := by
  unfold side
  split <;> rfl

theorem side_served (c : PipeCache P) : c.side.served = c.served := by
  unfold side
  split <;> rfl

theorem side_log (c : PipeCache P) : c.side.log = c.log := by
  unfold side
  split <;> rfl

theorem side_readsOwed (c : PipeCache P) : c.side.readsOwed = c.readsOwed := by
  unfold side
  split <;> rfl

theorem WellFormed.blocked (h : WellFormed c) (t : Nat) :
    WellFormed { c with blockedUntil := t } :=
  ⟨⟨h.len, h.front, h.rest, h.sized, h.served, h.sched⟩,
    h.tail.congr rfl rfl rfl rfl rfl rfl rfl rfl⟩

theorem Immediate.of_through (hwt : P.writeBack = false) : Immediate P := by
  unfold Immediate
  rw [hwt]
  rfl

theorem Healthy.deferral (h : Healthy c) (hwt : P.writeBack = false) : c.deferral = [] := by
  have hs := h.wf.sched (.of_through hwt)
  rw [side_through hwt] at hs
  exact deferral_of_none hs

/-- A call that leaves the first entry where it is. Unless the cache waits for memory, the time of
its next update stays. -/
structure Idle (c c' : PipeCache P) : Prop where
  served : c'.served = c.served
  rank : c'.side.tailRank = c.side.tailRank
  shifted : c'.isShifted = c.isShifted
  write : P.writeBack = false → c'.wWaiting = c.wWaiting
  wait : Waiting c' → Waiting c
  blocked : Waiting c ∨ c'.blockedUntil = c.blockedUntil

theorem Idle.refl (c : PipeCache P) : Idle c c := ⟨rfl, rfl, rfl, fun _ => rfl, id, .inr rfl⟩

/-- What a mindful and unhurried update does. -/
structure Updated (now : Nat) (c : PipeCache P) (outs : List CacheOut) (c' : PipeCache P) :
    Prop where
  healthy : Healthy c'
  log : c'.log.map CachePipeEntry.req = c.log.map CachePipeEntry.req
  served : ∃ k, c'.served = c.served ++ k ∧
    c.deferral ++ k.map CachePipeEntry.req = cpuResps outs ++ c'.deferral
  traffic : Traffic c outs c'
  flush : c.pendingFlush = true → c'.pendingFlush = true ∨ c'.pending = [] ∧ c'.deferral = []
  advance : c.pending ≠ [] → Advance c.side c'.side ∨
    Idle c c' ∧ (Waiting c ∨ now < c.blockedUntil)

theorem Healthy.updated_idle (h : Healthy c) (hidle : ¬c.nextUpdate ≤ now) :
    Updated now c [] c := by
  refine ⟨h, rfl, ⟨[], (List.append_nil _).symm, List.append_nil _⟩,
    ⟨(List.append_nil _).symm, rfl⟩, .inl, fun _ => .inr ⟨.refl c, ?_⟩⟩
  by_contra hc
  simp only [Waiting, not_or, Bool.not_eq_true, not_lt] at hc
  rw [nextUpdate, hc.1.1] at hidle
  exact hidle (min_le_of_left_le (by exact_mod_cast hc.2))

theorem Healthy.doUpdate_back {outs : List CacheOut} (hwb : P.writeBack = true) (h : Healthy c)
    (hu : c.unhurried now = true) (hm : c.mindful now = true)
    (hx : c.doUpdate now = .ok (c', outs)) : Updated now c outs c' := by
  have hw := h.wf
  rw [side_back_eq hwb] at hw
  obtain ⟨hw', heff, _⟩ := hw.doUpdate hx
  have hflush : Open c' ∧ (c.pendingFlush = true → c'.pendingFlush = true ∨
      c'.pending = [] ∧ c'.deferral = []) := by
    rcases doUpdate_cases hx with ⟨_, rfl, _⟩ | ⟨_, o, hs, _⟩
    · exact ⟨h.opened, .inl⟩
    · have hsame : (c.deliverDeferred now).1.pendingFlush = c.pendingFlush := by
        unfold PipeCache.deliverDeferred
        split <;> rfl
      rw [← hsame]
      exact (hw.deliverDeferred now).1.serve_flush hs
  refine ⟨⟨(side_back_eq hwb c').symm ▸ hw', fun hwt => ?_, hflush.1⟩, ?_,
    hw.doUpdate_deferral hwb hu hm hx, hw.doUpdate_traffic hx, hflush.2, fun hp => ?_⟩
  · cases hwb.symm.trans hwt
  · exact heff.log.trans (List.append_nil _)
  · refine (hw.doUpdate_advance hp hx).imp (fun ha => ?_) fun hs => ⟨?_, hs.2⟩
    · rw [side_back_eq hwb, side_back_eq hwb]
      exact ha
    · refine ⟨hs.1.served, ?_, hs.1.shifted, fun hwt => ?_, fun hwait => ?_, hs.1.blocked⟩
      · rw [side_back_eq hwb, side_back_eq hwb]
        exact hs.1.tail
      · cases hwb.symm.trans hwt
      · rw [hw.waiting_iff, ← hs.1.tail]
        exact hw'.waiting_iff.mp hwait

private theorem Healthy.waiting_of_side (hwt : P.writeBack = false) (h : Healthy c)
    (hdue : c.nextUpdate ≤ now) (hblock : Waiting c.side ∨ now < c.side.blockedUntil) :
    Waiting c := by
  have hread : c.side.rWaiting = c.rWaiting ∧ c.side.wWaiting = false ∧
      c.side.blockedUntil = c.blockedUntil := by
    rw [side_through hwt]
    exact ⟨rfl, rfl, rfl⟩
  rcases hblock with hx | hlt
  · rcases hx with hr | hx
    · exact .inl (hread.1.symm.trans hr)
    · cases hread.2.1.symm.trans hx
  · by_contra hno
    have hr : c.rWaiting = false := Bool.eq_false_iff.mpr fun hr => hno (.inl hr)
    have hsched := h.wf.sched (.of_through hwt)
    rw [side_through hwt] at hsched
    have hs' : c.schedHitTime = infTime := hsched
    rw [nextUpdate, hr, Bool.false_and, if_neg (by decide), hs', min_eq_left le_top] at hdue
    rw [hread.2.2] at hlt
    exact absurd (by exact_mod_cast hdue) (Nat.not_le.mpr hlt)

theorem Healthy.doUpdate_side {outs : List CacheOut} (hwt : P.writeBack = false) (h : Healthy c)
    (hm : c.mindful now = true) (hx : c.doUpdate now = .ok (c', outs)) :
    Updated now c outs c' := by
  by_cases hdue : c.nextUpdate ≤ now
  · have hno : c.wWaiting = true → c.flushes = false := by
      intro hw
      unfold mindful at hm
      rw [hw] at hm
      simpa [hdue] using hm
    rcases doUpdate_through hwt h.wf (h.evict hwt) hno hdue hx with
      ⟨hw, _, rfl, rfl⟩ | ⟨d, hs, hd, heq, hside⟩
    · have hwait : Waiting c := .inr hw
      have hblocked : ({ c with blockedUntil := now + 1 } : PipeCache P).side =
          { c.side with blockedUntil := now + 1 } := by
        rw [side_through hwt, side_through hwt]
        rfl
      refine ⟨⟨?_, h.evict, h.opened⟩, rfl, ⟨[], (List.append_nil _).symm, List.append_nil _⟩,
        ⟨(List.append_nil _).symm, rfl⟩, .inl, fun _ => .inr ⟨⟨rfl, ?_, rfl, fun _ => rfl,
          fun _ => hwait, .inl hwait⟩, .inl hwait⟩⟩
      · rw [hblocked]
        exact h.wf.blocked (now + 1)
      · rw [hblocked]
        exact tailRank_congr rfl rfl rfl rfl rfl
    · obtain ⟨hw', heff, _⟩ := h.wf.doUpdate hd
      have htraffic := h.wf.doUpdate_traffic hd
      have hserved : c'.served = d.served := by
        rw [heq]
        rfl
      have hlogd : c'.log = d.log := by
        rw [heq]
        rfl
      have hfree : d.writesOwed = 0 := by
        rw [← hside, side_through hwt]
        rfl
      have hnone : (memReqs .write outs).length = 0 := by
        have := htraffic.writes
        omega
      obtain ⟨k, hk, hresp⟩ := heff.served
      obtain ⟨hopen, hflush⟩ := h.wf.serve_flush hs
      have hhealthy : Healthy c' := by
        refine ⟨hside.symm ▸ hw', fun _ => ?_, ?_⟩
        · have hev : c.side.pendingEvict = false := by
            rw [side_through hwt]
            exact h.evict hwt
          rw [heq]
          change d.pendingEvict = false
          exact serve_evict hwt hev hs
        · rw [heq]
          exact hopen
      refine ⟨hhealthy, ?_, ⟨k, ?_, ?_⟩, ⟨?_, ?_⟩, fun hf => ?_, fun hp => ?_⟩
      · rw [hlogd, heff.log, side_log]
        exact List.append_nil _
      · rw [hserved, hk, side_served]
      · rw [h.deferral hwt, hhealthy.deferral hwt, hresp (.of_through hwt)]
        exact (List.append_nil _).symm
      · rw [← side_readsOwed c', hside, htraffic.reads, side_readsOwed]
      · rw [hnone, heq]
        rfl
      · rw [heq]
        exact hflush (by rw [side_through hwt]; exact hf)
      · have hadv := h.wf.doUpdate_advance (c := c.side) (by
          unfold pending
          rw [side_pipe]
          exact hp) hd
        rw [hside]
        refine hadv.imp_right fun ⟨hst, hblock⟩ => ?_
        have hwait := h.waiting_of_side hwt hdue hblock
        refine ⟨⟨?_, ?_, ?_, fun _ => ?_, fun _ => hwait, .inl hwait⟩, .inl hwait⟩
        · rw [hserved, hst.served, side_served]
        · rw [hside, hst.tail]
        · have hsh := hst.shifted
          rw [side_through hwt] at hsh
          rw [heq]
          exact hsh
        · rw [heq]
          rfl
  · have hsame : c' = c ∧ outs = [] := by
      unfold PipeCache.doUpdate at hx
      rw [if_neg hdue] at hx
      exact Prod.mk.inj (Except.ok.inj hx).symm
    rw [hsame.1, hsame.2]
    exact h.updated_idle hdue

theorem Healthy.doUpdate {outs : List CacheOut} (h : Healthy c) (hu : c.unhurried now = true)
    (hm : c.mindful now = true) (hx : c.doUpdate now = .ok (c', outs)) :
    Updated now c outs c' := by
  cases hwb : P.writeBack with
  | true => exact h.doUpdate_back hwb hu hm hx
  | false => exact h.doUpdate_side hwb hm hx

theorem Healthy.enqueue {r : CachePipeEntry} (h : Healthy c) (hr : r.Fresh)
    (hx : c.enqueue now r = .ok c') :
    Healthy c' ∧ c'.log.map CachePipeEntry.req = c.log.map CachePipeEntry.req ++ [r.req] ∧
      SameAnswers c c' ∧ Traffic c [] c' := by
  obtain ⟨hw, heff, _⟩ := h.wf.enqueue hr (enqueue_side hx)
  have hreads := (h.wf.enqueue_traffic (enqueue_side hx)).1
  have hans := enqueue_answers hx
  have hlog := heff.log
  rw [side_log, side_log] at hlog
  rw [side_readsOwed, side_readsOwed] at hreads
  have hrest : Open c' ∧ c'.pendingEvict = c.pendingEvict ∧ c'.writesOwed = c.writesOwed := by
    obtain ⟨_, _, _, rfl⟩ := enqueue_eq_ok.mp hx
    exact ⟨.inr rfl, rfl, rfl⟩
  exact ⟨⟨hw, fun hwt => hrest.2.1.trans (h.evict hwt), hrest.1⟩, hlog, hans,
    ⟨hreads.trans (List.append_nil _).symm, hrest.2.2⟩⟩

theorem Healthy.writeThrough {addr : Addr} {data : Word} {mask : BitVec 8} {outs : List CacheOut}
    (hwt : P.writeBack = false) (h : Healthy c) (hfree : c.wWaiting = false)
    (hx : c.writeThrough now addr data mask = .ok (c', outs)) :
    Healthy c' ∧ c'.log = c.log ∧ SameAnswers c c' ∧ Traffic c outs c' ∧
      cpuResps outs = [(addr, .write)] := by
  obtain ⟨⟨d, ht, rfl⟩, rfl⟩ := writeThrough_cases hx
  have hpipe := ht.same.pipe
  have hserved := ht.same.served
  refine ⟨⟨?_, fun _ => ht.evict.1.trans (h.evict hwt), ?_⟩, ?_,
    ⟨ht.same.schedHitTime, ht.same.schedHitResp, hserved, ht.same.pendingFlush⟩, ⟨?_, ?_⟩, rfl⟩
  · have hw := h.wf
    rw [side_through hwt] at hw ⊢
    have hside : Touched (c.withWrite false) (d.withWrite false) :=
      ⟨⟨hpipe, ht.same.rWaiting, rfl, ht.same.isShifted, ht.same.isReplay, ht.same.pendingFlush,
        ht.same.pendingFillReq, ht.same.blockedUntil, ht.same.schedHitTime, ht.same.schedHitResp,
        hserved, ht.same.sized⟩, ht.evict, ht.valid⟩
    exact hw.touched hside
  · have hopen := h.opened
    unfold Open at hopen ⊢
    dsimp only
    rw [ht.same.isShifted, hpipe]
    exact hopen
  · unfold log pending
    dsimp only
    rw [hpipe, hserved]
  · unfold readsOwed back
    dsimp only
    rw [ht.same.rWaiting, hpipe]
    exact (List.append_nil _).symm
  · unfold writesOwed
    rw [hfree]
    rfl

theorem recvMemResp_frame {m : MemTrans} (hx : c.recvMemResp now m = .ok c') :
    c'.pipe = c.pipe ∧ c'.isShifted = c.isShifted ∧ c'.pendingEvict = c.pendingEvict ∧
      c'.pendingFlush = c.pendingFlush := by
  rcases recvMemResp_cases hx with ⟨_, _, _, _, _, _, _, _, _, rfl⟩ | ⟨_, _, rfl⟩
  · exact ⟨rfl, rfl, rfl, rfl⟩
  · exact ⟨rfl, rfl, rfl, rfl⟩

theorem Healthy.flushAll (h : Healthy c) : Healthy c.flushAll := by
  refine ⟨?_, h.evict, h.opened⟩
  have hside : c.flushAll.side = c.side.flushAll := by
    unfold side
    split <;> rfl
  rw [hside]
  exact h.wf.flushAll

theorem Healthy.recvMemResp {m : MemTrans} (h : Healthy c) (hx : c.recvMemResp now m = .ok c') :
    Healthy c' ∧ SameAnswers c c' ∧ (Advance c.side c'.side ∧
        (P.writeBack = false → c'.wWaiting = c.wWaiting) ∨
      P.writeBack = false ∧ c.wWaiting = true ∧ c'.wWaiting = false ∧
        c'.side.tailRank = c.side.tailRank) := by
  obtain ⟨hpipe, hshift, hevict, _⟩ := recvMemResp_frame hx
  have hopen : Open c' := by
    have ho := h.opened
    unfold Open at ho ⊢
    rw [hpipe, hshift]
    exact ho
  have hhealthy : WellFormed c'.side → Healthy c' := fun hw =>
    ⟨hw, fun hwt => hevict.trans (h.evict hwt), hopen⟩
  cases hwb : P.writeBack with
  | true =>
    have hw := h.wf
    rw [side_back_eq hwb] at hw
    refine ⟨hhealthy ?_, (recvMemResp_answers hx).1, .inl ⟨?_, fun hc => by cases hc⟩⟩
    · rw [side_back_eq hwb]
      exact (hw.recvMemResp hx).1
    · rw [side_back_eq hwb, side_back_eq hwb]
      exact hw.recvMemResp_advance hx
  | false =>
    rcases recvMemResp_side hwb hx with ⟨_, hs, hw⟩ | ⟨_, hw, heq⟩
    · exact ⟨hhealthy (h.wf.recvMemResp hs).1, (recvMemResp_answers hx).1,
        .inl ⟨h.wf.recvMemResp_advance hs, fun _ => hw⟩⟩
    · have hside : c'.side = { c.side with blockedUntil := now + 2 } := by
        rw [side_through hwb, side_through hwb, heq]
        rfl
      refine ⟨hhealthy ?_, (recvMemResp_answers hx).1, .inr ⟨rfl, hw, ?_, ?_⟩⟩
      · rw [hside]
        exact h.wf.blocked (now + 2)
      · rw [heq]
      · rw [hside]
        exact tailRank_congr rfl rfl rfl rfl rfl

end PipeCache

end NpSim.Cache
