/- digest: Every request is answered: how far the tail entry is from its answer, and the runs in
   which updates and memory answers keep coming. -/

import Mathlib.Data.List.Basic
import NpSim.Cache.Total
import NpSim.Lib.Fair

set_option autoImplicit false
set_option relaxedAutoImplicit false

namespace NpSim.Cache

open NpSim.Lib.Partial NpSim.Lib.Fair Relation

namespace PipeCache

variable {P : CacheParams} {c c' : PipeCache P} {now : Nat}

/-- The empty places behind the first entry to come. -/
def trailing (c : PipeCache P) : Nat := (c.pipe.reverse.takeWhile (·.isNone)).length

/-- How far the first entry is from its answer: the shifts to the tail, then its phases. -/
def tailRank (c : PipeCache P) : Nat :=
  match c.back with
  | none => 6 + c.trailing
  | some bk =>
    if bk.line = none then 6
    else if c.pendingFillReq then (if c.pendingEvict then 5 else if c.wWaiting then 4 else 3)
    else if c.rWaiting then 2 else 1

def Waiting (c : PipeCache P) : Prop := c.rWaiting = true ∨ c.wWaiting = true

theorem tailRank_held {bk : CachePipeEntry} {r : LineRef} (hb : c.back = some bk)
    (hl : bk.line = some r) : c.tailRank =
      if c.pendingFillReq then (if c.pendingEvict then 5 else if c.wWaiting then 4 else 3)
      else if c.rWaiting then 2 else 1 := by
  rw [tailRank, hb]
  exact if_neg (by simp [hl])

theorem tailRank_le (h : c.pipe.length = P.pipeDepth) : c.tailRank ≤ 6 + P.pipeDepth := by
  have ht : c.trailing ≤ P.pipeDepth := by
    rw [← h, ← List.length_reverse]
    exact (List.takeWhile_prefix _).length_le
  unfold tailRank
  split
  · omega
  · split
    · omega
    · split <;> split <;> (try split) <;> omega

theorem tailRank_le_six {bk : CachePipeEntry} (hb : c.back = some bk) : c.tailRank ≤ 6 := by
  rw [tailRank, hb]
  dsimp only
  split
  · omega
  · split <;> split <;> (try split) <;> omega

theorem tailRank_le_five {bk : CachePipeEntry} {r : LineRef} (hb : c.back = some bk)
    (hl : bk.line = some r) : c.tailRank ≤ 5 := by
  rw [tailRank_held hb hl]
  split <;> split <;> (try split) <;> omega

theorem tailRank_congr (hp : c'.pipe = c.pipe) (hf : c'.pendingFillReq = c.pendingFillReq)
    (he : c'.pendingEvict = c.pendingEvict) (hw : c'.wWaiting = c.wWaiting)
    (hr : c'.rWaiting = c.rWaiting) : c'.tailRank = c.tailRank := by
  rw [tailRank, tailRank, back, back, trailing, trailing, hp, hf, he, hw, hr]

theorem WellFormed.waiting_iff (h : WellFormed c) :
    Waiting c ↔ c.tailRank = 2 ∨ c.tailRank = 4 := by
  cases h.tail with
  | empty hb hq =>
    rw [tailRank, hb, Waiting, hq.rWaiting, hq.wWaiting]
    constructor
    · rintro (h | h) <;> cases h
    · dsimp only
      omega
  | fresh bk hb hf hq =>
    rw [tailRank, hb, Waiting, hq.rWaiting, hq.wWaiting]
    dsimp only
    rw [if_pos hf.1]
    simp
  | missed bk r hb hh _ _ _ hfill hr _ he =>
    rw [tailRank_held hb hh.line, Waiting, hr, hfill, if_pos rfl]
    cases hw : c.wWaiting with
    | true => simp [he hw]
    | false => cases c.pendingEvict <;> simp
  | filling bk r hb hh _ _ _ hfill hr _ hw =>
    rw [tailRank_held hb hh.line, Waiting, hr, hfill, hw]
    simp
  | filled bk r hb hh _ _ _ hfill hr _ hw =>
    rw [tailRank_held hb hh.line, Waiting, hr, hfill, hw]
    simp

private theorem back_cases (h : c.pipe.length = P.pipeDepth) (hb : c.back = none) :
    c.pipe.reverse = none :: c.pipe.dropLast.reverse := by
  have hp := pipe_eq h
  rw [hb] at hp
  nth_rewrite 1 [hp]
  rw [List.reverse_append]
  rfl

theorem finishUpdate_rank {outs : List CacheOut} (h : WellFormed c) (hb : c.back = none)
    (hp : c.pending ≠ []) (hx : c.finishUpdate now = .ok (c', outs)) :
    c'.served = c.served ∧ c'.tailRank < c.tailRank := by
  have hrev := back_cases h.len hb
  have hrank : c.tailRank = 7 + (c.pipe.dropLast.reverse.takeWhile (·.isNone)).length := by
    rw [tailRank, hb]
    dsimp only
    rw [trailing, hrev, List.takeWhile_cons_of_pos rfl, List.length_cons]
    omega
  unfold finishUpdate at hx
  split at hx
  · rename_i hf
    simp only [Bool.and_eq_true] at hf
    exact absurd (filterMap_id_nil (by simpa using hf.2)) hp
  · dsimp only at hx
    split at hx
    · rename_i bk hbk
      split at hx
      · obtain ⟨⟨bk', d⟩, hd, hx⟩ := bind_eq_ok.mp hx
        cases hx
        obtain ⟨r, ht⟩ := accessTail_looked hd
        have hback : d.back = some bk' := back_of_pipe ht.pipe
        refine ⟨ht.served, ?_⟩
        have hfive := tailRank_le_five
          (c := { d with pendingFillReq := true, blockedUntil := now + 1 }) (r := r) hback
          (by rw [ht.entry])
        dsimp only
        omega
      · cases hx
        refine ⟨rfl, ?_⟩
        have := tailRank_le_six
          (c := { c with pipe := none :: c.pipe.dropLast, isShifted := true }) hbk
        omega
    · rename_i hbk
      cases hx
      refine ⟨rfl, ?_⟩
      have hne : (c.pipe.dropLast.reverse.takeWhile (·.isNone)).length ≠
          c.pipe.dropLast.reverse.length := by
        intro hl
        have hall : c.pipe.dropLast.reverse.all (·.isNone) = true := by
          rw [← (List.takeWhile_prefix _).eq_of_length hl]
          exact List.all_takeWhile
        refine hp ?_
        rw [pending, hrev]
        exact filterMap_id_nil hall
      have hback : ({ c with pipe := none :: c.pipe.dropLast, isShifted := true } :
          PipeCache P).back = none := hbk
      rw [tailRank, hback, hrank]
      dsimp only
      rw [trailing, List.reverse_cons, List.takeWhile_append, if_neg hne]
      omega

private theorem Ready.served_lt {outs : List CacheOut} {bk : CachePipeEntry} {r : LineRef}
    {b : Bool} (hr : Ready bk r c) (hx : c.hitUpdate now bk r b = .ok (c', outs)) :
    c.served.length < c'.served.length := by
  obtain ⟨d, resp, f, o, hd, hf, hk, _, hwf, hnone, _⟩ := hr.hitUpdate hx
  have hh := handleHit_cases hr.hv hd
  obtain ⟨hs, _⟩ := prefetchAfter_cases hf
  obtain ⟨k, hserved, _⟩ := (hwf.finishUpdate hnone hk).2.1.served
  have hret : (f.retire bk).served = c.served ++ [bk] := by
    change f.served ++ [bk] = _
    rw [hs.served, hh.served]
  rw [hserved, hret]
  simp only [List.length_append, List.length_singleton]
  omega

/-- What a call does to the distance of the first entry from its answer. -/
inductive Advance (c c' : PipeCache P) : Prop
  | served (h : c.served.length < c'.served.length)
  | tail (hs : c'.served = c.served) (h : c'.tailRank < c.tailRank)
  | shifted (hs : c'.served = c.served) (ht : c'.tailRank = c.tailRank)
      (h : c.isShifted = true) (h' : c'.isShifted = false)

/-- The distance stays, and so does the time of the next update unless the cache waits. -/
structure Stays (c c' : PipeCache P) : Prop where
  served : c'.served = c.served
  tail : c'.tailRank = c.tailRank
  shifted : c'.isShifted = c.isShifted
  blocked : Waiting c ∨ c'.blockedUntil = c.blockedUntil

/-- An update that is due advances the first entry unless the cache waits for memory. -/
theorem WellFormed.serve_advance {outs : List CacheOut} (h : WellFormed c) (hp : c.pending ≠ [])
    (hx : c.serve now = .ok (c', outs)) : Advance c c' ∨ Stays c c' ∧ Waiting c := by
  cases h.serve_cases hx with
  | finish hb hx =>
    obtain ⟨hs, ht⟩ := finishUpdate_rank h hb hp hx
    exact .inl (.tail hs ht)
  | hit bk₀ bk r e hb hlook hline heff hr hg hfill hwait hw hx =>
    obtain ⟨k, hk, _⟩ := heff.served
    have hlt : e.served.length < c'.served.length := hr.served_lt hx
    refine .inl (.served ?_)
    rw [hk, List.length_append] at hlt
    omega
  | start bk bk' r e hb hf hq ht hv heq ho =>
    have hback : e.back = some bk' := back_of_pipe ht.pipe
    have hfive := tailRank_le_five
      (c := { e with pendingFillReq := true, blockedUntil := now + 1 }) (r := r) hback
      (by rw [ht.entry])
    have hsix : c.tailRank = 6 := by
      rw [tailRank, hb]
      exact if_pos hf.1
    refine .inl (.tail ?_ ?_)
    · rw [heq]
      exact ht.served
    · rw [heq]
      omega
  | miss bk r hb hh hv hm h0 hfill hr hpl he hlen heq =>
    have hc : c.tailRank = if c.pendingEvict then 5 else if c.wWaiting then 4 else 3 := by
      rw [tailRank_held hb hh.line, if_pos hfill]
    have hback : ∀ d : PipeCache P, d.pipe = c.pipe → d.back = some bk := fun d hd => by
      rw [back, hd]
      exact hb
    suffices ht : Advance c (c.missUpdate now bk).1 ∨ Stays c (c.missUpdate now bk).1 ∧ Waiting c by
      rwa [← heq] at ht
    have hstay : c.wWaiting = true →
        Stays c { c with blockedUntil := now + 1 } ∧ Waiting c := fun hw =>
      ⟨⟨rfl, tailRank_congr rfl rfl rfl rfl rfl, rfl, .inl (.inr hw)⟩, .inr hw⟩
    unfold missUpdate
    rw [if_neg (by simp [hfill])]
    split
    · rename_i hev
      split
      · rename_i hw
        exact .inr (hstay hw)
      · refine .inl (.tail rfl ?_)
        rw [hc, if_pos hev]
        refine lt_of_eq_of_lt (tailRank_held (hback _ rfl) hh.line) ?_
        simp [hfill]
    · rename_i hev
      split
      · rename_i hw
        exact .inr (hstay hw)
      · rename_i hw
        refine .inl (.tail rfl ?_)
        rw [hc, if_neg hev, if_neg hw]
        refine lt_of_eq_of_lt (tailRank_held (back_of_pipe rfl) hh.line) ?_
        simp [setBack]

private theorem advance_of_deferred {d : PipeCache P}
    (hserved : d.served = c.served) (hshift : d.isShifted = c.isShifted)
    (hblocked : d.blockedUntil = c.blockedUntil) (hrank : d.tailRank = c.tailRank)
    (hr : d.rWaiting = c.rWaiting) (hw : d.wWaiting = c.wWaiting)
    (h : Advance d c' ∨ Stays d c' ∧ Waiting d) : Advance c c' ∨ Stays c c' ∧ Waiting c := by
  have hwait : Waiting d → Waiting c := fun hx => hx.imp (fun h => hr ▸ h) fun h => hw ▸ h
  rcases h with ha | ⟨hs, hx⟩
  · refine .inl ?_
    cases ha with
    | served h => exact .served (hserved ▸ h)
    | tail h1 h2 => exact .tail (hserved ▸ h1) (hrank ▸ h2)
    | shifted h1 h2 h3 h4 => exact .shifted (hserved ▸ h1) (hrank ▸ h2) (hshift ▸ h3) h4
  · exact .inr ⟨⟨hserved ▸ hs.served, hrank ▸ hs.tail, hshift ▸ hs.shifted,
      hs.blocked.imp hwait fun h => h.trans hblocked⟩, hwait hx⟩

theorem WellFormed.doUpdate_advance {outs : List CacheOut} (h : WellFormed c)
    (hp : c.pending ≠ []) (hx : c.doUpdate now = .ok (c', outs)) :
    Advance c c' ∨ Stays c c' ∧ (Waiting c ∨ now < c.blockedUntil) := by
  rcases doUpdate_cases hx with ⟨hdue, rfl, rfl⟩ | ⟨hdue, o, hd, rfl⟩
  · refine .inr ⟨⟨rfl, rfl, rfl, .inr rfl⟩, ?_⟩
    by_contra hc
    simp only [Waiting, not_or, Bool.not_eq_true, not_lt] at hc
    rw [nextUpdate, hc.1.1] at hdue
    exact hdue (min_le_of_left_le (by exact_mod_cast hc.2))
  · have hw := (h.deliverDeferred now).1
    have hsame : (c.deliverDeferred now).1.served = c.served ∧
        (c.deliverDeferred now).1.pending = c.pending ∧
        (c.deliverDeferred now).1.isShifted = c.isShifted ∧
        (c.deliverDeferred now).1.blockedUntil = c.blockedUntil ∧
        (c.deliverDeferred now).1.tailRank = c.tailRank ∧
        (c.deliverDeferred now).1.rWaiting = c.rWaiting ∧
        (c.deliverDeferred now).1.wWaiting = c.wWaiting := by
      unfold PipeCache.deliverDeferred
      split <;> exact ⟨rfl, rfl, rfl, rfl, tailRank_congr rfl rfl rfl rfl rfl, rfl, rfl⟩
    obtain ⟨hserved, hpend, hshift, hblocked, hrank, hr, hwr⟩ := hsame
    have hadv := hw.serve_advance (hpend ▸ hp) hd
    exact (advance_of_deferred hserved hshift hblocked hrank hr hwr hadv).imp_right
      fun hs => ⟨hs.1, .inl hs.2⟩

theorem WellFormed.recvMemResp_advance {m : MemTrans} (h : WellFormed c)
    (hx : c.recvMemResp now m = .ok c') : Advance c c' := by
  rcases recvMemResp_cases hx with
    ⟨_, hr, bk, r, repl, stamp, hb, hl, _, rfl⟩ | ⟨_, hw, rfl⟩
  · cases h.tail with
    | empty _ hq => exact absurd (hr.symm.trans hq.rWaiting) (by decide)
    | fresh _ _ _ hq => exact absurd (hr.symm.trans hq.rWaiting) (by decide)
    | missed _ _ _ _ _ _ _ _ hr' => exact absurd (hr.symm.trans hr') (by decide)
    | filled _ _ _ _ _ _ _ _ hr' => exact absurd (hr.symm.trans hr') (by decide)
    | filling _ _ _ _ _ _ h1 hfill _ hp hw =>
      have hwait := h.waiting_iff.mp (.inl hr)
      refine .tail rfl ?_
      have hone : ∀ d : PipeCache P, d.pipe = c.pipe → d.pendingFillReq = false →
          d.rWaiting = false → d.tailRank = 1 := fun d h1 h2 h3 => by
        have hback : d.back = some bk := by
          rw [back, h1]
          exact hb
        rw [tailRank_held hback hl, h2, h3]
        rfl
      refine lt_of_eq_of_lt (hone _ rfl hfill rfl) ?_
      omega
  · cases h.tail with
    | empty _ hq => exact absurd (hw.symm.trans hq.wWaiting) (by decide)
    | fresh _ _ _ hq => exact absurd (hw.symm.trans hq.wWaiting) (by decide)
    | filling _ _ _ _ _ _ _ _ _ _ hw' => exact absurd (hw.symm.trans hw') (by decide)
    | filled _ _ _ _ _ _ _ _ _ _ hw' => exact absurd (hw.symm.trans hw') (by decide)
    | missed bk r hb hh _ _ _ hfill _ _ he =>
      refine .tail rfl ?_
      rw [tailRank_held (by exact hb) hh.line, tailRank_held hb hh.line]
      simp [hfill, he hw, hw]

theorem enqueue_advance {e : CachePipeEntry} (hp : c.pending ≠ [])
    (hx : c.enqueue now e = .ok c') : Advance c c' := by
  obtain ⟨hsh, rest, hpipe, rfl⟩ := enqueue_eq_ok.mp hx
  refine .shifted rfl ?_ hsh rfl
  have hrest : rest.reverse.filterMap id ≠ [] := by
    rw [pending, hpipe, List.reverse_cons, List.filterMap_append] at hp
    simpa using hp
  have hne : (rest.reverse.takeWhile (·.isNone)).length ≠ rest.reverse.length := by
    intro hl
    have hall : rest.reverse.all (·.isNone) = true := by
      rw [← (List.takeWhile_prefix _).eq_of_length hl]
      exact List.all_takeWhile
    exact hrest (filterMap_id_nil hall)
  have htrail : ∀ x : Option CachePipeEntry, ∀ d : PipeCache P, d.pipe = x :: rest →
      d.trailing = (rest.reverse.takeWhile (·.isNone)).length := fun x d hd => by
    rw [trailing, hd, List.reverse_cons, List.takeWhile_append, if_neg hne]
  have hback : ∀ x : Option CachePipeEntry, ∀ d : PipeCache P, d.pipe = x :: rest →
      d.back = rest.getLast?.join := fun x d hd => by
    rw [back, hd]
    cases hr : rest with
    | nil =>
      rw [hr] at hrest
      exact absurd rfl hrest
    | cons y l => rfl
  rw [tailRank, tailRank, hback _ _ rfl, hback _ c hpipe, htrail _ _ rfl, htrail _ c hpipe]

end PipeCache

namespace Bench

variable {P : CacheParams} {b b' : Bench P} {l : Label} {i : Nat}

def AnsweredAt (i : Nat) (b : Bench P) : Prop := i < b.cache.served.length

/-- How far request `i` is from its answer. -/
def rank (i : Nat) (b : Bench P) : Nat :=
  2 * ((i + 1 - b.cache.served.length) * (P.pipeDepth + 7) + b.cache.tailRank) +
    if b.cache.isShifted then 1 else 0

private theorem advance_rank (h' : Sound b') (ha : PipeCache.Advance b.cache b'.cache) :
    AnsweredAt i b' ∨ rank i b' < rank i b := by
  by_cases hi : AnsweredAt i b'
  · exact .inl hi
  · refine .inr ?_
    have hle := PipeCache.tailRank_le h'.wf.len
    have hbit : ∀ x : Bool, (if x then 1 else 0) ≤ 1 := fun x => by cases x <;> decide
    have hb' := hbit b'.cache.isShifted
    simp only [AnsweredAt, not_lt] at hi
    unfold rank
    cases ha with
    | served hs =>
      obtain ⟨n, hn⟩ : ∃ n, i + 1 - b.cache.served.length =
          n + 1 + (i + 1 - b'.cache.served.length) :=
        ⟨b'.cache.served.length - b.cache.served.length - 1, by omega⟩
      rw [hn, Nat.add_mul, Nat.add_mul]
      have : 0 ≤ n * (P.pipeDepth + 7) := Nat.zero_le _
      omega
    | tail hs ht =>
      rw [hs]
      omega
    | shifted hs ht hx hx' =>
      rw [hs, ht, hx, hx']
      simp

private theorem stays_rank (hs : PipeCache.Stays b.cache b'.cache) : rank i b' = rank i b := by
  rw [rank, rank, hs.served, hs.tail, hs.shifted]

def Keeps (b b' : Bench P) : Prop :=
  (PipeCache.Waiting b'.cache → PipeCache.Waiting b.cache) ∧
    (PipeCache.Waiting b.cache ∨ b'.cache.blockedUntil = b.cache.blockedUntil)

theorem Keeps.refl (b : Bench P) : Keeps b b := ⟨id, .inr rfl⟩

theorem Keeps.trans {d : Bench P} (h : Keeps b b') (h' : Keeps b' d) : Keeps b d := by
  refine ⟨h.1 ∘ h'.1, ?_⟩
  rcases h.2 with hw | he
  · exact .inl hw
  · exact h'.2.imp h.1 fun he' => he'.trans he

/-- A step makes progress with the first request, or leaves its distance alone; an answer always
makes progress, and an update that is due does unless the cache waits. -/
private theorem Step.advance (hs : Step b l b') (h : Sound b)
    (hp : b.cache.pending ≠ []) :
    PipeCache.Advance b.cache b'.cache ∨ PipeCache.Stays b.cache b'.cache ∧
      (l = .update → PipeCache.Waiting b.cache ∨ b.now < b.cache.blockedUntil) ∧
      ∀ m, l ≠ .answer m := by
  cases hs with
  | read addr hx => exact .inl (PipeCache.enqueue_advance hp hx)
  | write addr data mask hwb hx =>
    unfold PipeCache.writeReq at hx
    rw [if_pos hwb] at hx
    obtain ⟨d, hd, hx⟩ := bind_eq_ok.mp hx
    cases hx
    exact .inl (PipeCache.enqueue_advance hp hd)
  | update hx =>
    exact (h.wf.doUpdate_advance hp hx).imp_right fun hs =>
      ⟨hs.1, fun _ => hs.2, fun m hm => by cases hm⟩
  | answer m data hm hx => exact .inl (h.wf.recvMemResp_advance hx)
  | flushAll =>
    exact .inr ⟨⟨rfl, PipeCache.tailRank_congr rfl rfl rfl rfl rfl, rfl, .inr rfl⟩,
      (fun hc => by cases hc), fun m hm => by cases hm⟩
  | resetStats =>
    exact .inr ⟨⟨rfl, PipeCache.tailRank_congr rfl rfl rfl rfl rfl, rfl, .inr rfl⟩,
      (fun hc => by cases hc), fun m hm => by cases hm⟩
  | tick =>
    exact .inr ⟨⟨rfl, rfl, rfl, .inr rfl⟩, (fun hc => by cases hc), fun m hm => by cases hm⟩

private theorem Step.grows (hs : Step b l b') (h : Sound b) :
    b.accepted <+: b'.accepted ∧ b.cache.served.length ≤ b'.cache.served.length := by
  have hlen : ∀ {new outs}, PipeCache.Effect new b.cache outs b'.cache →
      b.cache.served.length ≤ b'.cache.served.length := fun he => by
    obtain ⟨k, hk, _⟩ := he.served
    rw [hk, List.length_append]
    exact Nat.le_add_right _ _
  cases hs with
  | read addr hx =>
    exact ⟨List.prefix_append _ _, hlen (h.wf.enqueue ⟨rfl, rfl, rfl, rfl⟩ hx).2.1⟩
  | write addr data mask hwb hx =>
    unfold PipeCache.writeReq at hx
    rw [if_pos hwb] at hx
    obtain ⟨d, hd, hx⟩ := bind_eq_ok.mp hx
    cases hx
    exact ⟨List.prefix_append _ _, hlen (h.wf.enqueue ⟨rfl, rfl, rfl, rfl⟩ hd).2.1⟩
  | update hx => exact ⟨List.prefix_rfl, hlen (h.wf.doUpdate hx).2.1⟩
  | answer m data hm hx => exact ⟨List.prefix_rfl, hlen (h.wf.recvMemResp hx).2.1⟩
  | flushAll => exact ⟨List.prefix_rfl, Nat.le_refl _⟩
  | resetStats => exact ⟨List.prefix_rfl, Nat.le_refl _⟩
  | tick => exact ⟨List.prefix_rfl, Nat.le_refl _⟩

private theorem length_accepted (h : Sound b) :
    b.accepted.length = b.cache.served.length + b.cache.pending.length := by
  rw [← h.log, List.length_map, PipeCache.log, List.length_append]

private theorem Step.descent (hs : Step b l b') (h : Sound b)
    (ha : i < b.accepted.length) :
    AnsweredAt i b' ∨ rank i b' < rank i b ∨ (rank i b' = rank i b ∧ Keeps b b') ∧
      (l = .update → PipeCache.Waiting b.cache ∨ b.now < b.cache.blockedUntil) ∧
      ∀ m, l ≠ .answer m := by
  by_cases hg : AnsweredAt i b
  · exact .inl (Nat.lt_of_lt_of_le hg (hs.grows h).2)
  · have hp : b.cache.pending ≠ [] := by
      intro hn
      have hlen := length_accepted h
      rw [hn, List.length_nil] at hlen
      exact hg (by rw [AnsweredAt]; omega)
    rcases hs.advance h hp with hadv | ⟨hst, hrest⟩
    · exact (advance_rank (hs.sound h) hadv).imp_right .inl
    · refine .inr (.inr ⟨⟨stays_rank hst, fun hw => ?_, hst.blocked⟩, hrest⟩)
      rw [h.wf.waiting_iff, ← hst.tail]
      exact (hs.sound h).wf.waiting_iff.mp hw

/-- An infinite run from a reachable state in which updates keep coming at later and later ticks
and memory answers every request. -/
structure FairRun (run : ℕ → Bench P) (label : ℕ → Label) : Prop where
  init : Reachable (run 0)
  step : ∀ n, Step (run n) (label n) (run (n + 1))
  updates : ∀ n t, ∃ k ≥ n, label k = .update ∧ t ≤ (run k).now
  answers : ∀ n, ∀ m ∈ (run n).outstanding, ∃ k ≥ n, label k = .answer m

variable {run : ℕ → Bench P} {label : ℕ → Label}

theorem FairRun.reachable (h : FairRun run label) (n : ℕ) : Reachable (run n) := by
  induction n with
  | zero => exact h.init
  | succ n ih => exact .tail ih ⟨_, h.step n⟩

theorem FairRun.sound (h : FairRun run label) (n : ℕ) : Sound (run n) := (h.reachable n).sound

private theorem FairRun.accepted_prefix (h : FairRun run label) {n k : ℕ} (hk : n ≤ k) :
    (run n).accepted <+: (run k).accepted := by
  induction k, hk using Nat.le_induction with
  | base => exact List.prefix_rfl
  | succ k _ ih => exact ih.trans ((h.step k).grows (h.sound k)).1

private theorem Sound.outstanding_of_waiting (h : Sound b) (hw : PipeCache.Waiting b.cache) :
    ∃ m, m ∈ b.outstanding := by
  rcases hw with hr | hw
  · have hback : b.cache.readsOwed ≠ [] := by
      rw [PipeCache.readsOwed, if_pos hr]
      cases h.wf.tail with
      | empty _ hq => exact absurd (hr.symm.trans hq.rWaiting) (by decide)
      | fresh bk hb => simp [hb]
      | missed bk r hb => simp [hb]
      | filling bk r hb => simp [hb]
      | filled bk r hb => simp [hb]
    rw [← h.waitsRead] at hback
    have hne : b.outstanding.filter (·.mop = .read) ≠ [] := fun hn => hback (congrArg _ hn)
    obtain ⟨m, hm⟩ := List.exists_mem_of_ne_nil _ hne
    exact ⟨m, (List.mem_filter.mp hm).1⟩
  · have hlen : 0 < (b.outstanding.filter (·.mop = .write)).length := by
      rw [h.waitsWrite, PipeCache.writesOwed, if_pos hw]
      exact Nat.one_pos
    obtain ⟨m, hm⟩ := List.exists_mem_of_length_pos hlen
    exact ⟨m, (List.mem_filter.mp hm).1⟩

theorem FairRun.eventually_answered (h : FairRun run label) {n : ℕ}
    (hn : i < (run n).accepted.length) : ∃ k ≥ n, AnsweredAt i (run k) := by
  have hacc : ∀ k, i < (run (n + k)).accepted.length := fun k =>
    Nat.lt_of_lt_of_le hn (h.accepted_prefix (Nat.le_add_right n k)).length_le
  have hdesc := fun k => (h.step (n + k)).descent (h.sound (n + k)) (hacc k)
  -- an answer, or an update that is due while the cache does not wait
  let effective : ℕ → Prop := fun k => (∃ m, label (n + k) = .answer m) ∨
    label (n + k) = .update ∧ ¬PipeCache.Waiting (run (n + k)).cache ∧
      (run (n + k)).cache.blockedUntil ≤ (run (n + k)).now
  have hstep : ∀ k, AnsweredAt i (run (n + (k + 1))) ∨
      rank i (run (n + (k + 1))) < rank i (run (n + k)) ∨
      (rank i (run (n + (k + 1))) = rank i (run (n + k)) ∧
        Keeps (run (n + k)) (run (n + (k + 1)))) ∧ ¬effective k := by
    intro k
    refine (hdesc k).imp_right fun hx => hx.imp_right fun ⟨hkeep, hup, hno⟩ => ⟨hkeep, ?_⟩
    rintro (⟨m, hm⟩ | ⟨hl, hw, hdue⟩)
    · exact hno m hm
    · rcases hup hl with hwait | hearly
      · exact hw hwait
      · omega
  have hcomes : ∀ k, ¬AnsweredAt i (run (n + k)) →
      ∃ j ≥ k, Keeps (run (n + k)) (run (n + j)) → effective j := by
    intro k _
    by_cases hw : PipeCache.Waiting (run (n + k)).cache
    · obtain ⟨m, hm⟩ := (h.sound (n + k)).outstanding_of_waiting hw
      obtain ⟨j, hj, hl⟩ := h.answers (n + k) m hm
      obtain ⟨j, rfl⟩ : ∃ x, j = n + x := ⟨j - n, by omega⟩
      exact ⟨j, by omega, fun _ => .inl ⟨m, hl⟩⟩
    · obtain ⟨j, hj, hl, hnow⟩ := h.updates (n + k) (run (n + k)).cache.blockedUntil
      obtain ⟨j, rfl⟩ : ∃ x, j = n + x := ⟨j - n, by omega⟩
      refine ⟨j, by omega, fun hkeep => .inr ⟨hl, fun hwait => hw (hkeep.1 hwait), ?_⟩⟩
      rw [hkeep.2.resolve_left hw]
      exact hnow
  obtain ⟨k, _, hk⟩ := eventually_of_effective (fun k => run (n + k)) Keeps.refl
    Keeps.trans hstep hcomes 0
  exact ⟨n + k, Nat.le_add_right n k, hk⟩

/-- The requests, the lookups and the refills are in order. -/
structure Orderly (b : Bench P) : Prop where
  answered : cpuResps b.sent = b.cache.served.map CachePipeEntry.req
  inOrder : cpuResps b.sent <+: b.accepted
  log : b.cache.log.map CachePipeEntry.req = b.accepted
  done : ∀ e ∈ b.cache.served, e.accesses = 1 ∧ e.refills = if e.missed then 1 else 0
  pending : ∀ e ∈ b.cache.pending, e.accesses ≤ 1 ∧ e.refills ≤ if e.missed then 1 else 0
  refills : (memReqs .read b.sent).map (·.addr) = b.cache.log.flatMap CachePipeEntry.reads

theorem Sound.orderly (h : Sound b) (hi : PipeCache.Immediate P) : Orderly b := by
  refine ⟨h.answered hi, ?_, h.log, h.wf.served, fun e he => ?_, h.reads.symm⟩
  · rw [h.answered hi, ← h.log, PipeCache.log, List.map_append]
    exact List.prefix_append _ _
  · rw [PipeCache.pending_of_pipe (PipeCache.pipe_eq h.wf.len)] at he
    rcases List.mem_append.mp he with he | he
    · have hb : b.cache.back = some e := by simpa using he
      cases h.wf.tail with
      | empty hb' => exact absurd (hb'.symm.trans hb) (by simp)
      | fresh bk hb' hf =>
        cases Option.some.inj (hb'.symm.trans hb)
        rw [hf.2.1, hf.2.2.2]
        exact ⟨Nat.zero_le 1, Nat.zero_le _⟩
      | missed bk r hb' hh _ hm h0 =>
        cases Option.some.inj (hb'.symm.trans hb)
        rw [hh.once, h0]
        exact ⟨Nat.le_refl 1, Nat.zero_le _⟩
      | filling bk r hb' hh _ hm h1 =>
        cases Option.some.inj (hb'.symm.trans hb)
        rw [hh.once, h1, hm]
        exact ⟨Nat.le_refl 1, Nat.le_refl 1⟩
      | filled bk r hb' hh _ hm h1 =>
        cases Option.some.inj (hb'.symm.trans hb)
        rw [hh.once, h1, hm]
        exact ⟨Nat.le_refl 1, Nat.le_refl 1⟩
    · obtain ⟨o, ho, rfl⟩ := List.mem_filterMap.mp he
      have hf := h.wf.rest e (List.mem_reverse.mp ho)
      rw [hf.2.1, hf.2.2.2]
      exact ⟨Nat.zero_le 1, Nat.zero_le _⟩

/-- In a fair run what is accepted is answered. -/
theorem FairRun.all_answered (hi : PipeCache.Immediate P) (h : FairRun run label) (n : ℕ) :
    ∃ k ≥ n, (run n).accepted <+: cpuResps (run k).sent := by
  cases hacc : (run n).accepted with
  | nil => exact ⟨n, Nat.le_refl n, List.nil_prefix⟩
  | cons x l =>
    obtain ⟨k, hk, hans⟩ := h.eventually_answered (i := l.length) (n := n)
      (by rw [hacc]; exact Nat.lt_succ_self _)
    refine ⟨k, hk, ?_⟩
    have hord := (h.sound k).orderly hi
    refine List.prefix_of_prefix_length_le (hacc ▸ h.accepted_prefix hk) hord.inOrder ?_
    rw [hord.answered, List.length_map]
    exact hans

/-- Every accepted request is answered once, in order and after one lookup; a refill is read once
for a miss and not for a hit; nothing stops, and in a fair run every request gets its answer. -/
theorem answers_each_once (hP : P.Total) (hi : PipeCache.Immediate P) :
    (∀ b : Bench P, Reachable b → Orderly b ∧ Unfailing b) ∧
      ∀ run label, FairRun (P := P) run label →
        ∀ n, ∃ k ≥ n, (run n).accepted <+: cpuResps (run k).sent :=
  ⟨fun _ hb => ⟨hb.sound.orderly hi, hb.sound.unfailing hP hi⟩,
    fun _ _ h => h.all_answered hi⟩

/-- The calls of a clocked system, in turn: an answer if one is due, an update, the next tick. -/
def turn (n : ℕ) (b : Bench P) : Call :=
  if n % 3 = 0 then (if b.outstanding = [] then .tick else .answer)
  else if n % 3 = 1 then .update
  else .tick

def clocked (b : Bench P) : ℕ → Bench P
  | 0 => b
  | n + 1 => ((clocked b n).perform (turn n (clocked b n))).getD (clocked b n)

private theorem perform_turn (hP : P.Total) (hi : PipeCache.Immediate P) (h : Sound b) (n : ℕ) :
    ∃ d, b.perform (turn n b) = some d := by
  have hu := h.unfailing hP hi
  unfold turn
  split
  · split
    · exact ⟨_, rfl⟩
    · rename_i hne
      obtain ⟨m, l, hl⟩ := List.exists_cons_of_ne_nil hne
      obtain ⟨c, hc⟩ := hu.answer m (hl ▸ List.mem_cons_self) []
      rw [perform, hl, List.head?_cons, Option.bind_some, hc]
      exact ⟨_, rfl⟩
  · split
    · obtain ⟨x, hx⟩ := hu.update
      rw [perform, hx]
      exact ⟨_, rfl⟩
    · exact ⟨_, rfl⟩

private theorem clocked_sound (hP : P.Total) (hi : PipeCache.Immediate P) (h : Sound b) (n : ℕ) :
    Sound (clocked b n) ∧ (clocked b n).perform (turn n (clocked b n)) =
      some (clocked b (n + 1)) := by
  have hnext : ∀ k, Sound (clocked b k) →
      (clocked b k).perform (turn k (clocked b k)) = some (clocked b (k + 1)) := by
    intro k hk
    obtain ⟨d, hd⟩ := perform_turn hP hi hk k
    rw [clocked, hd]
    rfl
  have hsound : ∀ k, Sound (clocked b k) := by
    intro k
    induction k with
    | zero => exact h
    | succ k ih => exact (perform_step (hnext k ih)).sound ih
  exact ⟨hsound n, hnext n (hsound n)⟩

private theorem length_outstanding_le (h : Sound b) : b.outstanding.length ≤ 1 := by
  have hsplit := List.length_eq_length_filter_add (l := b.outstanding) (·.mop = .read)
  have hwrite : b.outstanding.filter (fun m => !decide (m.mop = .read)) =
      b.outstanding.filter (·.mop = .write) := by
    congr 1
    funext m
    cases m.mop <;> rfl
  have hread := congrArg List.length h.waitsRead
  have hw := h.waitsWrite
  have hle := length_readsOwed b.cache
  rw [List.length_map] at hread
  rw [hwrite] at hsplit
  by_cases hr : b.cache.rWaiting = true
  · have hno : b.cache.writesOwed = 0 := by
      rw [PipeCache.writesOwed]
      cases h.wf.tail with
      | empty _ hq => exact absurd (hr.symm.trans hq.rWaiting) (by decide)
      | fresh _ _ _ hq => exact absurd (hr.symm.trans hq.rWaiting) (by decide)
      | missed _ _ _ _ _ _ _ _ hr' => exact absurd (hr.symm.trans hr') (by decide)
      | filled _ _ _ _ _ _ _ _ hr' => exact absurd (hr.symm.trans hr') (by decide)
      | filling _ _ _ _ _ _ _ _ _ _ hww => rw [hww]; rfl
    omega
  · have hno : b.cache.readsOwed.length = 0 := by
      rw [PipeCache.readsOwed, if_neg hr]
      rfl
    have hone : b.cache.writesOwed ≤ 1 := by
      rw [PipeCache.writesOwed]
      split <;> omega
    omega

private theorem Step.now_le (hs : Step b l b') : b.now ≤ b'.now := by
  cases hs with
  | tick => exact Nat.le_succ _
  | _ => exact Nat.le_refl _

theorem clocked_fair (hP : P.Total) (hi : PipeCache.Immediate P) (h : Reachable b) :
    FairRun (clocked b) (fun n => (clocked b n).label (turn n (clocked b n))) := by
  have hs := clocked_sound hP hi h.sound
  have hmono : ∀ n, (clocked b n).now ≤ (clocked b (n + 1)).now := fun n =>
    (perform_step (hs n).2).now_le
  have hnow : ∀ n, n ≤ (clocked b (3 * n)).now := by
    intro n
    induction n with
    | zero => exact Nat.zero_le _
    | succ n ih =>
      have htick : (clocked b (3 * n + 3)).now = (clocked b (3 * n + 2)).now + 1 := by
        have hp := (hs (3 * n + 2)).2
        have ht : turn (3 * n + 2) (clocked b (3 * n + 2)) = .tick := by
          rw [turn, if_neg (by omega), if_neg (by omega)]
        rw [ht] at hp
        exact congrArg Bench.now (Option.some.inj hp).symm
      have h1 : (clocked b (3 * n)).now ≤ (clocked b (3 * n + 1)).now := hmono (3 * n)
      have h2 : (clocked b (3 * n + 1)).now ≤ (clocked b (3 * n + 2)).now := hmono (3 * n + 1)
      rw [show 3 * (n + 1) = 3 * n + 3 from rfl]
      omega
  have hkeep : ∀ n, n % 3 ≠ 0 → ∀ m ∈ (clocked b n).outstanding,
      m ∈ (clocked b (n + 1)).outstanding := by
    intro n hn m hm
    have hp := (hs n).2
    unfold turn at hp
    rw [if_neg hn] at hp
    split at hp
    · obtain ⟨x, _, hx⟩ := toOption_map_eq_some hp
      rw [← hx]
      exact List.mem_append_left _ hm
    · rw [← Option.some.inj hp]
      exact hm
  have hans : ∀ n, n % 3 = 0 → ∀ m ∈ (clocked b n).outstanding,
      (clocked b n).label (turn n (clocked b n)) = .answer m := by
    intro n hn m hm
    have hlen := length_outstanding_le (hs n).1
    rw [turn, if_pos hn]
    match hl : (clocked b n).outstanding with
    | [] =>
      rw [hl] at hm
      cases hm
    | [x] =>
      rw [hl] at hm
      rw [if_neg (by simp), label, hl, List.mem_singleton.mp hm]
      rfl
    | _ :: _ :: _ =>
      rw [hl] at hlen
      simp at hlen
  refine ⟨h, fun n => perform_step (hs n).2, fun n t => ?_, fun n m hm => ?_⟩
  · refine ⟨3 * max n t + 1, by omega, ?_, ?_⟩
    · rw [turn, if_neg (by omega), if_pos (by omega)]
      rfl
    · have h1 := hnow (max n t)
      have h2 : (clocked b (3 * max n t)).now ≤ (clocked b (3 * max n t + 1)).now :=
        hmono (3 * max n t)
      omega
  · rcases (by omega : n % 3 = 0 ∨ n % 3 = 1 ∨ n % 3 = 2) with h0 | h1 | h2
    · exact ⟨n, Nat.le_refl n, hans n h0 m hm⟩
    · exact ⟨n + 2, by omega, hans (n + 2) (by omega) m
        (hkeep (n + 1) (by omega) m (hkeep n (by omega) m hm))⟩
    · exact ⟨n + 1, by omega, hans (n + 1) (by omega) m (hkeep n (by omega) m hm)⟩

private theorem pow_two (k : Nat) : ∃ j, 2 ^ k = 2 ^ j := ⟨k, rfl⟩

private theorem two_pow : ∃ j, 2 = 2 ^ j := ⟨1, rfl⟩

def instCache (logLine assoc : Nat) (ha : 0 < assoc) (policy : ReplPolicy) : CacheParams where
  pipeDepth := 2
  lineBytes := 2 ^ logLine
  sets := 2
  assoc := assoc
  cacheId := 0
  writeBack := false
  cwf := false
  wbHitRespDelay := 0
  policy := policy
  prefetcher := nullPrefetcher
  pipeDepth_pos := Nat.two_pos
  assoc_pos := ha
  lineBytes_pow2 := pow_two logLine
  sets_pow2 := two_pow
  sets_gt_one := Nat.one_lt_two

/-- A read that misses and is answered, then one of the same block and one of another in its set. -/
private def threeReads : List Call :=
  [.read 0, .tick, .update, .tick, .update, .answer, .tick, .tick, .update,
    .read 0, .tick, .update, .read 8]

/-- With the first read answered and a hit and a miss in the pipe, all three have their answers in
the run of a clocked system. -/
theorem answers_each_once_reads :
    ∃ run label, FairRun (P := instCache 2 1 Nat.one_pos lruReplPolicy) run label ∧
      (run 0).accepted = [(0, .read), (0, .read), (8, .read)] ∧
      cpuResps (run 0).sent = [(0, .read)] ∧
      ∃ k, Orderly (run k) ∧ [(0, .read), (0, .read), (8, .read)] <+: cpuResps (run k).sent := by
  have hP : (instCache 2 1 Nat.one_pos lruReplPolicy).Total :=
    ⟨by decide, lru_total Nat.one_pos⟩
  obtain ⟨b, hb, hobs⟩ := Option.map_eq_some_iff.mp (show (performAll (fun _ => true)
      ({} : Bench (instCache 2 1 Nat.one_pos lruReplPolicy)) threeReads).map (fun b =>
        (b.accepted, cpuResps b.sent)) =
        some ([(0, .read), (0, .read), (8, .read)], [(0, .read)]) by decide +kernel)
  obtain ⟨hacc, hresp⟩ := Prod.mk.inj hobs
  have hfair := clocked_fair hP rfl (reachable_of_performAll hb)
  obtain ⟨hsafe, hlive⟩ := answers_each_once hP rfl
  obtain ⟨k, _, hk⟩ := hlive _ _ hfair 0
  exact ⟨_, _, hfair, hacc, hresp, k, (hsafe _ (hfair.reachable k)).1, hacc ▸ hk⟩

def faultOf {α : Type} : Except Fault α → Option Fault
  | .error f => some f
  | .ok _ => none

theorem error_of_faultOf {α : Type} {x : Except Fault α} {f : Fault} (h : faultOf x = some f) :
    x = .error f := by
  cases x with
  | error e => rw [Option.some.inj h]
  | ok a => cases h

/-- A request that is accepted and not answered, as far as an observer sees. -/
def Unanswered (b : Bench P) : Bool := b.accepted == [(0, .read)] && cpuResps b.sent == []

/-- With lines of one byte the lookup of a read stops when it takes the word; with a tree policy of
three ways the fill stops. The accepted request is not answered. -/
theorem answers_each_once_fails :
    (∃ b : Bench (instCache 0 1 Nat.one_pos lruReplPolicy), Reachable b ∧ Unanswered b = true ∧
        b.cache.doUpdate b.now = .error .dataRange) ∧
      ∃ b : Bench (instCache 2 3 (by decide) (plruReplPolicy 3)), Reachable b ∧
        Unanswered b = true ∧ ∃ m, b.outstanding = [m] ∧
          b.cache.recvMemResp b.now { m with dir := .resp } = .error .policyAssoc := by
  constructor
  · have hrun : (performAll (fun _ => true)
        ({} : Bench (instCache 0 1 Nat.one_pos lruReplPolicy))
        [.read 0, .tick, .update, .tick, .update, .answer, .tick]).map (fun b =>
          (Unanswered b, faultOf (b.cache.doUpdate b.now))) = some (true, some .dataRange) := by
      decide +kernel
    obtain ⟨b, hb, hx⟩ := Option.map_eq_some_iff.mp hrun
    obtain ⟨h1, h2⟩ := Prod.mk.inj hx
    exact ⟨b, reachable_of_performAll hb, h1, error_of_faultOf h2⟩
  · have hrun : (performAll (fun _ => true)
        ({} : Bench (instCache 2 3 (by decide) (plruReplPolicy 3)))
        [.read 0, .tick, .update, .tick, .update]).map (fun b =>
          (Unanswered b, b.outstanding.map fun m =>
            faultOf (b.cache.recvMemResp b.now { m with dir := .resp }))) =
          some (true, [some .policyAssoc]) := by
      decide +kernel
    obtain ⟨b, hb, hx⟩ := Option.map_eq_some_iff.mp hrun
    obtain ⟨h1, h2⟩ := Prod.mk.inj hx
    match hl : b.outstanding with
    | [] =>
      rw [hl] at h2
      cases h2
    | [m] =>
      rw [hl] at h2
      exact ⟨b, reachable_of_performAll hb, h1, m, hl, error_of_faultOf (List.cons.inj h2).1⟩
    | _ :: _ :: _ =>
      rw [hl] at h2
      cases (List.cons.inj h2).2

end Bench

end NpSim.Cache
