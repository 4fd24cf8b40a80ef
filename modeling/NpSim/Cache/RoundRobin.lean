/- digest: The round-robin policy takes the lines of a set in turn: until a flush its victim is the
   line that was filled first. -/

import NpSim.Cache.Touches
import NpSim.Lib.PointerTree
import Mathlib.Data.Nat.ModEq

set_option autoImplicit false
set_option relaxedAutoImplicit false

namespace NpSim.Cache.RoundRobin

open NpSim.Lib NpSim.Lib.Partial Relation

def fillIn (s : Nat) : Touch → Option Nat
  | .fill r => if r.set = s then some r.way else none
  | .hit _ => none

def fills (s : Nat) (l : List Touch) : List Nat := l.filterMap (fillIn s)

/-- The ways from 0 on and round again, the newest first. -/
def turns (assoc n : Nat) : List Nat := ((List.range n).map (· % assoc)).reverse

theorem turns_succ (assoc n : Nat) : turns assoc (n + 1) = n % assoc :: turns assoc n := by
  unfold turns
  rw [List.range_succ, List.map_append, List.reverse_append]
  rfl

theorem lt_of_mem_turns {assoc n w : Nat} (h : w ∈ turns assoc n) : w < n := by
  obtain ⟨i, hi, rfl⟩ := List.mem_map.mp (List.mem_reverse.mp h)
  exact Nat.lt_of_le_of_lt (Nat.mod_le i assoc) (List.mem_range.mp hi)

theorem turns_add (assoc a b : Nat) :
    turns assoc (a + b) =
      ((List.range b).map fun i => (a + i) % assoc).reverse ++ turns assoc a := by
  unfold turns
  rw [List.range_add, List.map_append, List.reverse_append, List.map_map]
  rfl

theorem mod_ne_of_near {assoc i n : Nat} (hi : i < n) (hn : n < i + assoc) :
    i % assoc ≠ n % assoc := by
  intro h
  have hdvd := (Nat.modEq_iff_dvd' (Nat.le_of_lt hi)).mp h
  have hle := Nat.le_of_dvd (Nat.sub_pos_of_lt hi) hdvd
  omega

theorem exists_turn {assoc n v : Nat} (hn : assoc ≤ n) (hv : v < assoc) (hne : v ≠ n % assoc) :
    ∃ j, j < n ∧ n < j + assoc ∧ j % assoc = v := by
  have hx : n % assoc < assoc := Nat.mod_lt n (by omega)
  have hdiv := Nat.div_add_mod n assoc
  generalize n % assoc = x at hx hne hdiv
  obtain ⟨q, hq⟩ : ∃ q, n / assoc = q + 1 :=
    Nat.exists_eq_succ_of_ne_zero (Nat.div_pos hn (by omega)).ne'
  rw [hq, Nat.mul_succ] at hdiv
  rcases Nat.lt_or_ge x v with hlt | hge
  · refine ⟨assoc * q + v, by omega, by omega, ?_⟩
    rw [Nat.mul_add_mod, Nat.mod_eq_of_lt hv]
  · refine ⟨assoc * (q + 1) + v, ?_, ?_, ?_⟩
    · rw [Nat.mul_succ]
      omega
    · rw [Nat.mul_succ]
      omega
    · rw [Nat.mul_add_mod, Nat.mod_eq_of_lt hv]

/-- Of the last `assoc` turns the next way has had the oldest. -/
theorem newer_turns {assoc n v : Nat} (hn : assoc ≤ n) (hv : v < assoc) (hne : v ≠ n % assoc) :
    Newer (turns assoc n) v (n % assoc) := by
  obtain ⟨j, hj, hnear, hjv⟩ := exists_turn hn hv hne
  obtain ⟨k, rfl⟩ := Nat.exists_eq_add_of_lt hj
  have hsplit : j + k + 1 = (j + 1) + k := by omega
  refine ⟨((List.range k).map fun i => (j + 1 + i) % assoc).reverse, turns assoc j, ?_, ?_, ?_⟩
  · rw [hsplit, turns_add, turns_succ, hjv]
  · intro hmem
    obtain ⟨i, hi, heq⟩ := List.mem_map.mp (List.mem_reverse.mp hmem)
    have hik := List.mem_range.mp hi
    exact mod_ne_of_near (by omega) (by omega) heq
  · exact Ne.symm hne

theorem fills_hits (s : Nat) (rs : List LineRef) (l : List Touch) :
    fills s (rs.map .hit ++ l) = fills s l := by
  induction rs with
  | nil => rfl
  | cons r rs ih => exact ih

theorem fills_fill_self (r : LineRef) (l : List Touch) :
    fills r.set (.fill r :: l) = r.way :: fills r.set l :=
  List.filterMap_cons_some (if_pos rfl)

theorem fills_fill_other {s : Nat} {r : LineRef} (h : r.set ≠ s) (l : List Touch) :
    fills s (.fill r :: l) = fills s l :=
  List.filterMap_cons_none (if_neg h)

theorem mem_fills {s w : Nat} {l : List Touch} (h : .fill ⟨s, w⟩ ∈ l) : w ∈ fills s l :=
  List.mem_filterMap.mpr ⟨_, h, if_pos rfl⟩

variable {assoc : Nat}

private theorem ptr_fill {ptr : Nat → Nat} {l : List Touch} {s : Nat} (r : LineRef)
    (h : ∀ i, ptr i = (fills i l).length % assoc) :
    Function.update ptr r.set ((ptr r.set + 1) % assoc) s =
      (fills s (.fill r :: l)).length % assoc := by
  by_cases hr : r.set = s
  · subst hr
    rw [fills_fill_self, List.length_cons, Function.update_self, h, Nat.mod_add_mod]
  · rw [fills_fill_other hr, Function.update_of_ne (Ne.symm hr)]
    exact h s

/-- The pointer of a set counts its fills. -/
theorem ptr_of_replays {l : List Touch} {ptr : (roundRobinReplPolicy assoc).State}
    (h : Replays (roundRobinReplPolicy assoc) l ptr) (s : Nat) :
    (ptr : Nat → Nat) s = (fills s l).length % assoc := by
  induction h generalizing s with
  | nil => exact (Nat.zero_mod assoc).symm
  | hit r now stamp x _ hs ih =>
    cases hs
    exact ih s
  | fill r now stamp x _ hs ih =>
    cases hs
    exact ptr_fill r ih

variable {P : CacheParams}

def Step (b b' : Watched P) : Prop :=
  Watched.Step b b' ∧ b'.bench.cache.pendingFlush = false

def Reachable (b : Watched P) : Prop := ReflTransGen Step {} b

/-- The fills of each set have gone to its ways in turn, and a way that has had its turn holds a
block, but for the line of a block on its way. -/
structure InTurn (b : Watched P) : Prop where
  known : Watched.Known b
  unflushed : b.bench.cache.pendingFlush = false
  turns : ∀ s, fills s b.touched = turns P.assoc (fills s b.touched).length
  full : ∀ s w, w < P.assoc → w < (fills s b.touched).length →
    (b.bench.cache.lines s w).valid = true ∨
      b.bench.cache.fetching = true ∧ b.bench.cache.tailLine = some ⟨s, w⟩
  next : b.bench.cache.fetching = true → ∀ r, b.bench.cache.tailLine = some r →
    r.way = (fills r.set b.touched).length % P.assoc

theorem inTurn_init : InTurn ({} : Watched P) := by
  refine ⟨Watched.known_init, rfl, fun s => rfl, fun s w _ hw => ?_, fun h => ?_⟩
  · exact absurd hw (Nat.not_lt_zero w)
  · cases h

theorem InTurn.lt_of_valid {b : Watched P} (h : InTurn b) {s w : Nat}
    (hv : (b.bench.cache.lines s w).valid = true) : w < (fills s b.touched).length := by
  have hmem := mem_fills (h.known.held s w hv)
  rw [h.turns s] at hmem
  exact lt_of_mem_turns hmem

private theorem InTurn.idle {b b' : Watched P} (h : InTurn b) (hknown : Watched.Known b')
    (hflush : b'.bench.cache.pendingFlush = false)
    (hfills : ∀ s, fills s b'.touched = fills s b.touched)
    (hvalid : ∀ s w, (b'.bench.cache.lines s w).valid = (b.bench.cache.lines s w).valid)
    (hfetch : b'.bench.cache.fetching = b.bench.cache.fetching)
    (hline : b.bench.cache.fetching = true →
      b'.bench.cache.tailLine = b.bench.cache.tailLine) : InTurn b' := by
  refine ⟨hknown, hflush, fun s => ?_, fun s w hw hlt => ?_, fun hf r hr => ?_⟩
  · rw [hfills]
    exact h.turns s
  · rw [hfills] at hlt
    rw [hvalid, hfetch]
    rcases h.full s w hw hlt with hv | ⟨hf, hl⟩
    · exact .inl hv
    · exact .inr ⟨hf, (hline hf).trans hl⟩
  · rw [hfills]
    rw [hfetch] at hf
    exact h.next hf r ((hline hf).symm.trans hr)

theorem InTurn.chosen {b : Watched (P.withPolicy (roundRobinReplPolicy P.assoc))} (h : InTurn b)
    (hlag : P.victimWayLag = false) {l : List Touch}
    {d : PipeCache (P.withPolicy (roundRobinReplPolicy P.assoc))} {s w : Nat}
    (hreplays : Replays (roundRobinReplPolicy P.assoc) l d.repl)
    (hfills : fills s l = fills s b.touched) (hidle : b.bench.cache.fetching = false)
    (hvalid : ∀ v, (d.lines s v).valid = (b.bench.cache.lines s v).valid)
    (hw : d.missVictimWay s = .ok w) :
    w % P.assoc = (fills s b.touched).length % P.assoc := by
  have hfull : ∀ v < P.assoc, v < (fills s b.touched).length → (d.lines s v).valid = true := by
    intro v hv hlt
    rw [hvalid]
    rcases h.full s v hv hlt with hv | ⟨hf, _⟩
    · exact hv
    · exact absurd (hidle.symm.trans hf) (by decide)
  cases hinv : d.invalidWay s with
  | none =>
    rw [PipeCache.missVictimWay_of_full hlag hinv] at hw
    have hptr := ptr_of_replays hreplays s
    rw [hfills] at hptr
    change (if (d.repl : Nat → Nat) s % P.assoc < (d.setOf s).length then
      .ok ((d.repl : Nat → Nat) s % P.assoc) else .error .victimRange : Except Fault Nat) = _ at hw
    split at hw
    · rw [← Except.ok.inj hw, hptr, Nat.mod_mod, Nat.mod_mod]
    · cases hw
  | some v =>
    have hmiss : d.missVictimWay s = .ok v := by
      have hlag' : (P.withPolicy (roundRobinReplPolicy P.assoc)).victimWayLag = false := hlag
      unfold PipeCache.missVictimWay
      rw [hlag', Bool.false_and, if_neg Bool.false_ne_true]
      dsimp only
      rw [hinv]
    obtain rfl : v = w := Except.ok.inj (hmiss.symm.trans hw)
    -- the first empty way is the one that follows the ways that have had a turn
    obtain ⟨hempty, hmem, hfirst⟩ := List.find?_range_eq_some.mp hinv
    have hv : v < P.assoc := List.mem_range.mp hmem
    rw [Bool.not_eq_true'] at hempty
    have hge : (fills s b.touched).length ≤ v := by
      refine Nat.not_lt.mp fun hlt => ?_
      exact absurd ((hfull v hv hlt).symm.trans hempty) (by decide)
    have hle : v ≤ (fills s b.touched).length := by
      refine Nat.not_lt.mp fun hlt => ?_
      have hheld := hfirst _ hlt
      rw [Bool.not_not, hvalid] at hheld
      exact absurd (h.lt_of_valid hheld) (Nat.lt_irrefl _)
    rw [Nat.le_antisymm hle hge]

private theorem enqueue_tail {c c' : PipeCache P} {now : Nat} {e : CachePipeEntry}
    (hwf : PipeCache.WellFormed c) (hx : c.enqueue now e = .ok c') :
    c'.fetching = c.fetching ∧ (c.fetching = true → c'.tailLine = c.tailLine) ∧
      c'.pendingFlush = c.pendingFlush := by
  obtain ⟨_, rest, hpipe, rfl⟩ := PipeCache.enqueue_eq_ok.mp hx
  refine ⟨rfl, fun hf => ?_, rfl⟩
  unfold PipeCache.tailLine
  cases hr : rest with
  | nil =>
    -- a pipe of one stage has taken the request into its empty tail
    have hb : c.back = none := PipeCache.back_of_pipe (l := []) (by rw [hpipe, hr]; rfl)
    have hidle : c.fetching = false := by
      unfold PipeCache.fetching
      cases hwf.tail with
      | empty _ hq =>
        rw [hq.pendingFillReq, hq.rWaiting]
        rfl
      | fresh bk hb' => exact absurd (hb'.symm.trans hb) (Option.some_ne_none bk)
      | missed bk _ hb' => exact absurd (hb'.symm.trans hb) (Option.some_ne_none bk)
      | filling bk _ hb' => exact absurd (hb'.symm.trans hb) (Option.some_ne_none bk)
      | filled bk _ hb' => exact absurd (hb'.symm.trans hb) (Option.some_ne_none bk)
    exact absurd (hidle.symm.trans hf) (by decide)
  | cons y l =>
    have hb : ({ c with
        pipe := some e :: y :: l, blockedUntil := now + 1, isShifted := false } :
          PipeCache P).back = c.back := by
      rw [PipeCache.back, PipeCache.back, hpipe, hr]
      rfl
    rw [hb]

private theorem InTurn.update {b b' : Watched (P.withPolicy (roundRobinReplPolicy P.assoc))}
    (h : InTurn b) (hlag : P.victimWayLag = false) (hknown : Watched.Known b')
    (hflush : b'.bench.cache.pendingFlush = false) {now : Nat} {rs : List LineRef}
    {d : PipeCache (P.withPolicy (roundRobinReplPolicy P.assoc))}
    (hs : PipeCache.Serves now b.bench.cache rs d b'.bench.cache)
    (ht : b'.touched = rs.map .hit ++ b.touched) : InTurn b' := by
  have hm := h.known.middle hs.tells
  have hfills : ∀ s, fills s b'.touched = fills s b.touched := by
    intro s
    rw [ht]
    exact fills_hits s rs b.touched
  cases hs.closes with
  | keep _ hv hfetch hline =>
    refine h.idle hknown hflush hfills (fun s w => (hv.valid s w).trans (hm.valid s w))
      (hfetch.trans hs.fetch) fun hf => ?_
    exact (hline (hs.fetch.trans hf)).trans (hs.line hf)
  | clear hpending =>
    exact absurd ((hs.flush.trans h.unflushed).symm.trans hpending) (by decide)
  | take r w hl hidle hfetch hw hway _ _ hvalid =>
    have hidle' : b.bench.cache.fetching = false := hs.fetch.symm.trans hidle
    refine ⟨hknown, hflush, fun s => ?_, fun s v hv hlt => ?_, fun _ r' hr' => ?_⟩
    · rw [hfills]
      exact h.turns s
    · rw [hfills] at hlt
      by_cases hsv : (⟨s, v⟩ : LineRef) = r
      · rw [hsv]
        exact .inr ⟨hfetch, hl⟩
      · rw [hvalid s v hsv, hm.valid]
        rcases h.full s v hv hlt with hfull | ⟨hf, _⟩
        · exact .inl hfull
        · exact absurd (hidle'.symm.trans hf) (by decide)
    · obtain rfl : r = r' := Option.some.inj (hl.symm.trans hr')
      have hreplays := hm.replays
      rw [← ht] at hreplays
      rw [hway, hfills]
      exact h.chosen hlag hreplays (hfills r.set) hidle' (hm.valid r.set) hw

private theorem InTurn.refill {b b' : Watched P} (h : InTurn b) (hknown : Watched.Known b')
    {now : Nat} {r : LineRef} (hr : PipeCache.Refills now b.bench.cache b'.bench.cache r)
    (ht : b'.touched = .fill r :: b.touched) : InTurn b' := by
  have hfetching : b.bench.cache.fetching = true := by
    unfold PipeCache.fetching
    rw [hr.waits, Bool.or_true]
  have hnext := h.next hfetching r hr.line
  have hidle : b'.bench.cache.fetching = false := by
    rw [hr.fetch]
    cases h.known.sound.wf.tail with
    | empty _ hq => exact hq.pendingFillReq
    | fresh _ _ _ hq => exact hq.pendingFillReq
    | missed _ _ _ _ _ _ _ _ hwait => exact absurd (hr.waits.symm.trans hwait) (by decide)
    | filling _ _ _ _ _ _ _ hfill => exact hfill
    | filled _ _ _ _ _ _ _ hfill => exact hfill
  refine ⟨hknown, hr.flush.trans h.unflushed, fun s => ?_, fun s w hw hlt => .inl ?_, fun hf => ?_⟩
  · rw [ht]
    by_cases hs : r.set = s
    · subst hs
      rw [fills_fill_self, List.length_cons, turns_succ, ← hnext, ← h.turns r.set]
    · rw [fills_fill_other hs]
      exact h.turns s
  · rw [ht] at hlt
    by_cases hsw : (⟨s, w⟩ : LineRef) = r
    · subst hsw
      exact hr.filled
    · rw [hr.valid s w hsw]
      have hlt' : w < (fills s b.touched).length := by
        by_cases hs : r.set = s
        · subst hs
          rw [fills_fill_self, List.length_cons] at hlt
          refine Nat.lt_of_le_of_ne (Nat.le_of_lt_succ hlt) fun heq => hsw ?_
          have hmod : (fills r.set b.touched).length % P.assoc = w := by
            rw [← heq]
            exact Nat.mod_eq_of_lt hw
          rw [← hmod, ← hnext]
        · rw [fills_fill_other hs] at hlt
          exact hlt
      rcases h.full s w hw hlt' with hfull | ⟨_, hl⟩
      · exact hfull
      · exact absurd (Option.some.inj (hl.symm.trans hr.line)) hsw
  · exact absurd (hidle.symm.trans hf) (by decide)

theorem InTurn.step {b b' : Watched (P.withPolicy (roundRobinReplPolicy P.assoc))}
    (hp : P.prefetcher.present = false) (hlag : P.victimWayLag = false) (h : InTurn b)
    (hs : Step b b') : InTurn b' := by
  obtain ⟨hs, hflush⟩ := hs
  have hp' : (P.withPolicy (roundRobinReplPolicy P.assoc)).prefetcher.present = false := hp
  have hknown := h.known.step hp' hs
  obtain ⟨l, hcall, htouched⟩ := hs
  obtain ⟨bench', touched'⟩ := b'
  have henqueue : ∀ {c : PipeCache (P.withPolicy (roundRobinReplPolicy P.assoc))}
      {e : CachePipeEntry} {acc : List (Addr × MemRWOpt)},
      b.bench.cache.enqueue b.bench.now e = .ok c →
      bench' = { b.bench with cache := c, accepted := acc } → touched' = b.touched →
      InTurn ⟨bench', touched'⟩ := by
    intro c e acc hx hb ht
    subst hb ht
    obtain ⟨hfetch, hline, _⟩ := enqueue_tail h.known.sound.wf hx
    obtain ⟨_, rest, _, hc⟩ := PipeCache.enqueue_eq_ok.mp hx
    exact h.idle hknown hflush (fun _ => rfl) (fun s w => by rw [hc]) hfetch hline
  cases hcall with
  | read addr hx => exact henqueue hx rfl htouched
  | write addr data mask hwb hx =>
    unfold PipeCache.writeReq at hx
    rw [if_pos hwb] at hx
    obtain ⟨d, hd, hx⟩ := bind_eq_ok.mp hx
    cases hx
    exact henqueue hd rfl htouched
  | @update c outs hx =>
    obtain ⟨d, hserves⟩ := h.known.sound.wf.doUpdate_serves hp' hx
    exact h.update hlag hknown hflush hserves htouched
  | @answer c m data hm hx =>
    cases hop : m.mop with
    | read =>
      obtain ⟨r, hr⟩ := PipeCache.recvMemResp_refills (m := { m with dir := .resp, data := data })
        hop hx
      exact h.refill hknown hr (Watched.touches_refill hop hr htouched)
    | write =>
      rcases PipeCache.recvMemResp_cases hx with ⟨hr, _⟩ | ⟨_, _, rfl⟩
      · exact absurd (hop.symm.trans hr) (by decide)
      · refine h.idle hknown hflush (fun s => ?_) (fun _ _ => rfl) rfl fun _ => rfl
        have ht : touched' = b.touched := by
          refine htouched.trans ?_
          rw [Watched.touches, if_neg (by rw [hop]; decide)]
          rfl
        exact congrArg _ ht
  | flushAll => cases hflush
  | resetStats =>
    exact h.idle hknown hflush (fun _ => congrArg _ htouched) (fun _ _ => rfl) rfl fun _ => rfl
  | tick =>
    exact h.idle hknown hflush (fun _ => congrArg _ htouched) (fun _ _ => rfl) rfl fun _ => rfl

theorem Reachable.inTurn {b : Watched (P.withPolicy (roundRobinReplPolicy P.assoc))}
    (hp : P.prefetcher.present = false) (hlag : P.victimWayLag = false) (h : Reachable b) :
    InTurn b :=
  invariant_of_run (fun _ _ hs hi => hi.step hp hlag hs) inTurn_init h

/-- In a cache without the victim lag that is not flushed, the fills of each set go to its ways in
turn, and a miss takes the way whose turn it is: in a full set the line that was filled first. -/
theorem round_robin_is_fifo (hp : P.prefetcher.present = false) (hlag : P.victimWayLag = false)
    {b : Watched (P.withPolicy (roundRobinReplPolicy P.assoc))} (h : Reachable b) :
    (∀ s, fills s b.touched = turns P.assoc (fills s b.touched).length) ∧
      ∀ b', Step b b' → ∀ r, PipeCache.Takes b.bench.cache b'.bench.cache r →
        r.way = (fills r.set b.touched).length % P.assoc ∧
        ((b.bench.cache.line r).valid = true → ∀ v < P.assoc, v ≠ r.way →
          (b.bench.cache.lines r.set v).valid = true ∧
            Newer (fills r.set b.touched) v r.way) := by
  have hi := h.inTurn hp hlag
  refine ⟨hi.turns, fun b' hs r ht => ?_⟩
  have hp' : (P.withPolicy (roundRobinReplPolicy P.assoc)).prefetcher.present = false := hp
  obtain ⟨hidle, htouched, d, w, hreplays, hvalid, _, hw, hway⟩ := hi.known.takes hp' hs.1 ht
  have hfills : fills r.set b'.touched = fills r.set b.touched := by
    rw [htouched]
    exact fills_hits r.set _ b.touched
  have hturn : r.way = (fills r.set b.touched).length % P.assoc :=
    hway.trans (hi.chosen hlag hreplays hfills hidle (hvalid r.set) hw)
  refine ⟨hturn, fun hv v hlt hne => ?_⟩
  -- a way that holds a block has had its turn, so all ways have
  have hround : P.assoc ≤ (fills r.set b.touched).length := by
    refine Nat.not_lt.mp fun hshort => ?_
    rw [Nat.mod_eq_of_lt hshort] at hturn
    exact absurd (hi.lt_of_valid hv) (by rw [← hturn]; exact Nat.lt_irrefl _)
  constructor
  · rcases hi.full r.set v hlt (Nat.lt_of_lt_of_le hlt hround) with hheld | ⟨hf, _⟩
    · exact hheld
    · exact absurd (hidle.symm.trans hf) (by decide)
  · rw [hi.turns r.set, hturn]
    exact newer_turns hround hlt (hturn ▸ hne)

private def performQuiet (b : Watched P) (k : Bench.Call) : Option (Watched P) :=
  (b.perform k).filter fun b' => !b'.bench.cache.pendingFlush

private theorem performQuiet_step (b : Watched P) (k : Bench.Call) (b' : Watched P)
    (h : performQuiet b k = some b') : Step b b' := by
  obtain ⟨hb, hflush⟩ := Option.filter_eq_some_iff.mp h
  rw [Bool.not_eq_true'] at hflush
  exact ⟨Watched.perform_step hb, hflush⟩

/-- Three blocks of a set of two ways are read, the second one once more, and then a fourth. -/
private def fourBlocks : List Bench.Call :=
  Watched.fetch 0 ++ (Watched.fetch 8 ++ (Watched.fetch 16 ++
    [.read 8, .tick, .update, .tick, .update, .read 24, .tick]))

/-- The fourth block takes the line of the second, though it has just been hit. -/
theorem round_robin_is_fifo_fourth :
    let P := Bench.instCache 2 2 (by decide) lruReplPolicy
    ∃ b b' : Watched (P.withPolicy (roundRobinReplPolicy P.assoc)),
      PipeCache.Takes b.bench.cache b'.bench.cache ⟨0, 1⟩ ∧
        Touch.hit ⟨0, 1⟩ ∈ b.touched ∧ (fills 0 b.touched).length = 3 ∧
        fills 0 b.touched = turns P.assoc 3 ∧ Newer (fills 0 b.touched) 0 1 := by
  intro P
  obtain ⟨b, hb, hx⟩ := Option.bind_eq_some_iff.mp (show
    (fourBlocks.foldlM performQuiet
        ({} : Watched (P.withPolicy (roundRobinReplPolicy P.assoc)))).bind (fun b =>
      (performQuiet b .update).map fun b' => ((b.bench.cache.pendingFillReq,
        b'.bench.cache.pendingFillReq, b'.bench.cache.tailLine),
        (b.bench.cache.line ⟨0, 1⟩).valid, (fills 0 b.touched).length, b.touched.head?)) =
      some ((false, true, some ⟨0, 1⟩), true, 3, some (.hit ⟨0, 1⟩)) by decide +kernel)
  obtain ⟨b', hb', hx⟩ := Option.map_eq_some_iff.mp hx
  simp only [Prod.mk.injEq] at hx
  obtain ⟨⟨hbefore, hafter, hline⟩, hvalid, hfills, hhit⟩ := hx
  have ht : PipeCache.Takes b.bench.cache b'.bench.cache ⟨0, 1⟩ :=
    ⟨hbefore, hafter, Option.bind_eq_some_iff.mp hline⟩
  obtain ⟨hturns, htakes⟩ := round_robin_is_fifo (P := P) rfl rfl
    (run_of_foldlM performQuiet_step hb)
  obtain ⟨_, holdest⟩ := htakes b' (performQuiet_step b .update b' hb') ⟨0, 1⟩ ht
  exact ⟨b, b', ht, List.mem_of_mem_head? hhit, hfills, (hturns 0).trans (by rw [hfills]),
    (holdest hvalid 0 Nat.two_pos Nat.zero_ne_one).2⟩

end NpSim.Cache.RoundRobin
