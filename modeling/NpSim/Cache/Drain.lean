/- digest: A flush that forgets nothing is carried out, and by then everything accepted before it
   is answered. -/

import NpSim.Cache.Steady

set_option autoImplicit false
set_option relaxedAutoImplicit false

namespace NpSim.Cache

open NpSim.Lib.Partial NpSim.Lib.Fair

namespace PipeCache

variable {P : CacheParams} {c c' : PipeCache P} {now : Nat}

/-- How far the cache is from carrying out its flush: the requests, the phases of the first one, and
the write in flight. -/
def flushRank (c : PipeCache P) : Nat :=
  4 * (c.pending.length * (P.pipeDepth + 7) + c.side.tailRank) +
    2 * (if c.isShifted then 1 else 0) + if c.wWaiting && !P.writeBack then 1 else 0

theorem side_isShifted (c : PipeCache P) : c.side.isShifted = c.isShifted := by
  unfold side
  split <;> rfl

theorem side_rWaiting (c : PipeCache P) : c.side.rWaiting = c.rWaiting := by
  unfold side
  split <;> rfl

theorem length_log (c : PipeCache P) : c.log.length = c.served.length + c.pending.length := by
  rw [log, List.length_append]

theorem Healthy.flushRank_lt (h : Healthy c') (hlog : c'.log.length = c.log.length)
    (ha : Advance c.side c'.side) : c'.flushRank < c.flushRank := by
  have hle := tailRank_le h.wf.len
  have hbit : ∀ x : Bool, (if x then 1 else 0) ≤ 1 := fun x => by cases x <;> decide
  have hs' := hbit c'.isShifted
  have hw' := hbit (c'.wWaiting && !P.writeBack)
  rw [length_log, length_log] at hlog
  unfold flushRank
  cases ha with
  | served hs =>
    rw [side_served, side_served] at hs
    obtain ⟨n, hn⟩ : ∃ n, c.pending.length = n + 1 + c'.pending.length :=
      ⟨c.pending.length - c'.pending.length - 1, by omega⟩
    rw [hn, Nat.add_mul, Nat.add_mul]
    have : 0 ≤ n * (P.pipeDepth + 7) := Nat.zero_le _
    omega
  | tail hs ht =>
    rw [side_served, side_served] at hs
    rw [show c'.pending.length = c.pending.length by rw [hs] at hlog; omega]
    omega
  | shifted hs ht hx hx' =>
    rw [side_served, side_served] at hs
    rw [side_isShifted] at hx hx'
    rw [show c'.pending.length = c.pending.length by rw [hs] at hlog; omega, ht, hx, hx']
    simp only [if_true, Bool.false_eq_true, if_false]
    omega

theorem Idle.flushRank_eq (h : Idle c c') (hlog : c'.log.length = c.log.length) :
    c'.flushRank = c.flushRank := by
  have hbit : (c'.wWaiting && !P.writeBack) = (c.wWaiting && !P.writeBack) := by
    cases hwb : P.writeBack with
    | true => rw [Bool.not_true, Bool.and_false, Bool.and_false]
    | false => rw [h.write hwb]
  rw [length_log, length_log, h.served] at hlog
  rw [flushRank, flushRank, h.rank, h.shifted, hbit, Nat.add_left_cancel hlog]

theorem back_of_pending (h : c.pending = []) : c.back = none := by
  cases hb : c.back with
  | none => rfl
  | some bk => exact absurd h (pending_of_back hb)

theorem doUpdate_drained {outs : List CacheOut} (hp : c.pending = []) (hr : c.rWaiting = false)
    (hf : c.pendingFlush = true) (hx : c.doUpdate now = .ok (c', outs)) :
    c'.pendingFlush = false ∨ c' = c ∧ now < c.blockedUntil := by
  by_cases hdue : c.nextUpdate ≤ now
  · refine .inl ?_
    have hsame : (c.deliverDeferred now).1.pipe = c.pipe ∧
        (c.deliverDeferred now).1.pendingFlush = c.pendingFlush := by
      unfold PipeCache.deliverDeferred
      split <;> exact ⟨rfl, rfl⟩
    obtain ⟨_, o, hs, _⟩ := (doUpdate_cases hx).resolve_left fun h => h.1 hdue
    generalize (c.deliverDeferred now).1 = d at hs hsame
    have hb : d.back = none := by
      rw [back, hsame.1]
      exact back_of_pending hp
    rw [serve, hb] at hs
    dsimp only at hs
    rw [finishUpdate, hsame.1, hsame.2, hf, all_of_pending hp, if_pos (by decide)] at hs
    cases hs
    rfl
  · have hsame : c' = c := by
      unfold PipeCache.doUpdate at hx
      rw [if_neg hdue] at hx
      exact (congrArg Prod.fst (Except.ok.inj hx)).symm
    refine .inr ⟨hsame, ?_⟩
    by_contra hle
    rw [nextUpdate, hr, Bool.false_and, if_neg (by decide)] at hdue
    exact hdue (min_le_of_left_le (by exact_mod_cast Nat.not_lt.mp hle))

end PipeCache

namespace Client

variable {P : CacheParams} {b b' : Client (PipeCache.base P)} {e : Event}

/-- While nothing is done the cache keeps its state of waiting and its next update. -/
def Keeps (b b' : Client (PipeCache.base P)) : Prop :=
  (PipeCache.Waiting (P := P) b'.cache → PipeCache.Waiting (P := P) b.cache) ∧
    (PipeCache.Waiting (P := P) b.cache ∨
      PipeCache.blockedUntil (P := P) b'.cache = PipeCache.blockedUntil (P := P) b.cache)

theorem Keeps.refl (b : Client (PipeCache.base P)) : Keeps b b := ⟨id, .inr rfl⟩

theorem Keeps.trans {d : Client (PipeCache.base P)} (h : Keeps b b') (h' : Keeps b' d) :
    Keeps b d := by
  refine ⟨h.1 ∘ h'.1, ?_⟩
  rcases h.2 with hw | he
  · exact .inl hw
  · exact h'.2.imp h.1 fun he' => he'.trans he

/-- While a flush is pending nothing is accepted, and once it is carried out everything accepted is
answered. -/
theorem Steady.flushing (h : Steady b) (hok : Gentle b e) (hs : Step b e b')
    (hf : PipeCache.pendingFlush (P := P) b.cache = true) :
    b'.accepted = b.accepted ∧ (PipeCache.pendingFlush (P := P) b'.cache = true ∨
      ∀ op, b'.responses op = b'.asked op) := by
  have hsteady := h.step hok hs
  have hready := PipeCache.isReady_of_pending hf
  cases hs with
  | read addr hr hx =>
    have hr' : (PipeCache.isReady (P := P) b.cache).1 = true := hr
    rw [hready] at hr'
    cases hr'
  | write addr data mask hr hx =>
    have hr' : (PipeCache.isReady (P := P) b.cache).2 = true := hr
    rw [hready] at hr'
    cases hr'
  | @update x hx =>
    obtain ⟨hu, hm⟩ := hok rfl
    refine ⟨rfl, ((h.healthy.doUpdate hu hm hx).flush hf).imp_right fun ⟨hp, hd⟩ op => ?_⟩
    by_cases hop : P.writeBack = true ∨ op = .read
    · have hsplit := hsteady.split hop
      have hp' : PipeCache.pending (P := P) (b.sending x).cache = [] := hp
      have hd' : PipeCache.deferral (P := P) (b.sending x).cache = [] := hd
      rw [hp', hd'] at hsplit
      rw [hsplit]
      exact (List.append_nil _).symm
    · rw [not_or, Bool.not_eq_true] at hop
      cases op with
      | read => exact absurd rfl hop.2
      | write => exact hsteady.through hop.1
  | answer m data hm hx =>
    obtain ⟨c, hc, rfl⟩ := map_eq_ok.mp hx
    exact ⟨rfl, .inl ((PipeCache.recvMemResp_frame hc).2.2.2.trans hf)⟩
  | flushAll => exact ⟨rfl, .inl rfl⟩
  | tick => exact ⟨rfl, .inl hf⟩

theorem Steady.length_log (h : Steady b) :
    (PipeCache.log (P := P) b.cache).length = (b.accepted.filter (piped P)).length := by
  rw [← h.log, List.length_map]

theorem Steady.descent (h : Steady b) (hok : Gentle b e) (hs : Step b e b')
    (hf : PipeCache.pendingFlush (P := P) b.cache = true) :
    PipeCache.pendingFlush (P := P) b'.cache = false ∨
      PipeCache.flushRank (P := P) b'.cache < PipeCache.flushRank (P := P) b.cache ∨
      (PipeCache.flushRank (P := P) b'.cache = PipeCache.flushRank (P := P) b.cache ∧
          Keeps b b') ∧
        (e = .update → PipeCache.Waiting (P := P) b.cache ∨
          b.now < PipeCache.blockedUntil (P := P) b.cache) ∧
        ∀ m, e ≠ .answer m := by
  have hsteady := h.step hok hs
  have hlog : (PipeCache.log (P := P) b'.cache).length =
      (PipeCache.log (P := P) b.cache).length := by
    rw [hsteady.length_log, h.length_log, (h.flushing hok hs hf).1]
  have hready := PipeCache.isReady_of_pending hf
  cases hs with
  | read addr hr hx =>
    have hr' : (PipeCache.isReady (P := P) b.cache).1 = true := hr
    rw [hready] at hr'
    cases hr'
  | write addr data mask hr hx =>
    have hr' : (PipeCache.isReady (P := P) b.cache).2 = true := hr
    rw [hready] at hr'
    cases hr'
  | @update x hx =>
    obtain ⟨hu, hm⟩ := hok rfl
    have hd := h.healthy.doUpdate hu hm hx
    by_cases hp : PipeCache.pending (P := P) b.cache = []
    · have hr : PipeCache.rWaiting (P := P) b.cache = false := by
        rw [← PipeCache.side_rWaiting]
        refine (h.healthy.wf.quiet ?_).2.rWaiting
        unfold PipeCache.pending
        rw [PipeCache.side_pipe]
        exact hp
      refine (PipeCache.doUpdate_drained hp hr hf hx).imp_right fun ⟨hsame, hnow⟩ => .inr ?_
      have hsame' : (b.sending x).cache = b.cache := hsame
      refine ⟨⟨by rw [hsame'], ?_⟩, fun _ => .inr hnow, fun m hm => by cases hm⟩
      unfold Keeps
      rw [hsame']
      exact ⟨id, .inr rfl⟩
    · refine .inr ((hd.advance hp).imp (hd.healthy.flushRank_lt hlog) fun ⟨hidle, hwait⟩ => ?_)
      exact ⟨⟨hidle.flushRank_eq hlog, hidle.wait, hidle.blocked⟩, fun _ => hwait,
        fun m hm => by cases hm⟩
  | answer m data hm hx =>
    obtain ⟨c, hc, rfl⟩ := map_eq_ok.mp hx
    obtain ⟨hh, hans, hcase⟩ := h.healthy.recvMemResp hc
    refine .inr (.inl ?_)
    rcases hcase with ⟨ha, _⟩ | ⟨hwt, hw, hw', hrank⟩
    · exact hh.flushRank_lt hlog ha
    · have hpipe := PipeCache.recvMemResp_frame hc
      change PipeCache.flushRank c < PipeCache.flushRank (P := P) b.cache
      unfold PipeCache.flushRank PipeCache.pending
      rw [hpipe.1, hpipe.2.1, hrank, hw, hw', hwt]
      exact Nat.lt_succ_self _
  | flushAll =>
    refine .inr (.inr ⟨⟨?_, id, .inr rfl⟩, (fun hc => by cases hc), fun m hm => by cases hm⟩)
    have hside : PipeCache.tailRank (PipeCache.flushAll (P := P) b.cache).side =
        PipeCache.tailRank (PipeCache.side (P := P) b.cache) := by
      unfold PipeCache.side
      split <;> exact PipeCache.tailRank_congr rfl rfl rfl rfl rfl
    change PipeCache.flushRank (PipeCache.flushAll (P := P) b.cache) = _
    unfold PipeCache.flushRank
    rw [hside]
    rfl
  | tick =>
    exact .inr (.inr ⟨⟨rfl, id, .inr rfl⟩, (fun hc => by cases hc), fun m hm => by cases hm⟩)

theorem Steady.outstanding_of_waiting (h : Steady b)
    (hw : PipeCache.Waiting (P := P) b.cache) : ∃ m, m ∈ b.outstanding := by
  rcases hw with hr | hw
  · have hback : PipeCache.readsOwed (P := P) b.cache ≠ [] := by
      intro hn
      unfold PipeCache.readsOwed at hn
      rw [hr, if_pos rfl, List.map_eq_nil_iff, Option.toList_eq_nil_iff] at hn
      have hq := h.healthy.wf.tail
      have hside : PipeCache.back (PipeCache.side (P := P) b.cache) = none := by
        unfold PipeCache.back
        rw [PipeCache.side_pipe]
        exact hn
      have hrw := (PipeCache.side_rWaiting (P := P) b.cache).trans hr
      cases hq with
      | empty _ hq => exact absurd (hq.rWaiting.symm.trans hrw) (by decide)
      | fresh bk hb => exact absurd (hside.symm.trans hb) (by simp)
      | missed bk r hb => exact absurd (hside.symm.trans hb) (by simp)
      | filling bk r hb => exact absurd (hside.symm.trans hb) (by simp)
      | filled bk r hb => exact absurd (hside.symm.trans hb) (by simp)
    rw [← h.waits.reads] at hback
    have hne : b.outstanding.filter (·.mop = .read) ≠ [] := fun hn => hback (congrArg _ hn)
    obtain ⟨m, hm⟩ := List.exists_mem_of_ne_nil _ hne
    exact ⟨m, (List.mem_filter.mp hm).1⟩
  · have hlen : 0 < (b.outstanding.filter (·.mop = .write)).length := by
      rw [h.waits.writes, PipeCache.writesOwed, if_pos hw]
      exact Nat.one_pos
    obtain ⟨m, hm⟩ := List.exists_mem_of_length_pos hlen
    exact ⟨m, (List.mem_filter.mp hm).1⟩

variable {run : ℕ → Client (PipeCache.base P)} {event : ℕ → Event}

theorem FairRun.steady (h : FairRun Gentle ({} : PipeCache P) run event) (n : ℕ) :
    Steady (run n) := steady_of_reachable (h.reachable n)

/-- From the call of `flush_all` on the flush is pending and nothing is accepted, until all that was
accepted before is answered. -/
private theorem FairRun.phase (h : FairRun Gentle ({} : PipeCache P) run event) {n : ℕ}
    (hn : event n = .flushAll) (k : ℕ) :
    (∀ op, (run n).asked op <+: (run (n + 1 + k)).responses op) ∨
      PipeCache.pendingFlush (P := P) (run (n + 1 + k)).cache = true ∧
        (run (n + 1 + k)).accepted = (run n).accepted := by
  induction k with
  | zero =>
    have hs := h.step n
    rw [hn] at hs
    cases hs' : run (n + 1)
    rw [hs'] at hs
    cases hs
    exact .inr ⟨rfl, rfl⟩
  | succ k ih =>
    have hs := h.step (n + 1 + k)
    rcases ih with hdone | ⟨hf, hacc⟩
    · exact .inl fun op => (hdone op).trans (hs.responses_grow op)
    · obtain ⟨hacc', hcase⟩ := (h.steady _).flushing (h.passes _) hs hf
      rcases hcase with hf' | hall
      · exact .inr ⟨hf', hacc'.trans hacc⟩
      · refine .inl fun op => ?_
        have hasked : (run (n + 1 + k + 1)).asked op = (run n).asked op := by
          unfold asked
          rw [hacc', hacc]
        exact (hasked ▸ (hall op).symm ▸ List.prefix_rfl)

/-- In a fair and gentle run a flush is carried out, and what was accepted before is answered. -/
theorem FairRun.answeredAfterFlush (h : FairRun Gentle ({} : PipeCache P) run event) :
    AnsweredAfterFlush run event := by
  intro n hn
  let goal : Client (PipeCache.base P) → Prop := fun b => ∀ op, (run n).asked op <+: b.responses op
  -- an answer, or an update that is due while the cache does not wait
  let effective : ℕ → Prop := fun k => (∃ m, event (n + 1 + k) = .answer m) ∨
    event (n + 1 + k) = .update ∧ ¬PipeCache.Waiting (P := P) (run (n + 1 + k)).cache ∧
      PipeCache.blockedUntil (P := P) (run (n + 1 + k)).cache ≤ (run (n + 1 + k)).now
  let rank : Client (PipeCache.base P) → ℕ := fun b => PipeCache.flushRank (P := P) b.cache
  have hstep : ∀ k, goal (run (n + 1 + (k + 1))) ∨
      rank (run (n + 1 + (k + 1))) < rank (run (n + 1 + k)) ∨
      (rank (run (n + 1 + (k + 1))) = rank (run (n + 1 + k)) ∧
        Keeps (run (n + 1 + k)) (run (n + 1 + (k + 1)))) ∧ ¬effective k := by
    intro k
    rcases h.phase hn k with hdone | ⟨hf, _⟩
    · exact .inl fun op => (hdone op).trans ((h.step (n + 1 + k)).responses_grow op)
    · rcases (h.steady _).descent (h.passes _) (h.step (n + 1 + k)) hf with hno | hx
      · refine .inl ((h.phase hn (k + 1)).resolve_right fun hf' => ?_)
        exact absurd (hno.symm.trans hf'.1) (by decide)
      · refine .inr (hx.imp_right fun ⟨hkeep, hup, hno⟩ => ⟨hkeep, ?_⟩)
        rintro (⟨m, hm⟩ | ⟨hl, hw, hdue⟩)
        · exact hno m hm
        · rcases hup hl with hwait | hearly
          · exact hw hwait
          · omega
  have hcomes : ∀ k, ¬goal (run (n + 1 + k)) →
      ∃ j ≥ k, Keeps (run (n + 1 + k)) (run (n + 1 + j)) → effective j := by
    intro k _
    by_cases hw : PipeCache.Waiting (P := P) (run (n + 1 + k)).cache
    · obtain ⟨m, hm⟩ := (h.steady (n + 1 + k)).outstanding_of_waiting hw
      obtain ⟨j, hj, hl⟩ := h.answers (n + 1 + k) m hm
      obtain ⟨j, rfl⟩ : ∃ x, j = n + 1 + x := ⟨j - (n + 1), by omega⟩
      exact ⟨j, by omega, fun _ => .inl ⟨m, hl⟩⟩
    · obtain ⟨j, hj, hl, hnow⟩ := h.updates (n + 1 + k)
        (PipeCache.blockedUntil (P := P) (run (n + 1 + k)).cache)
      obtain ⟨j, rfl⟩ : ∃ x, j = n + 1 + x := ⟨j - (n + 1), by omega⟩
      refine ⟨j, by omega, fun hkeep => .inr ⟨hl, fun hwait => hw (hkeep.1 hwait), ?_⟩⟩
      rw [hkeep.2.resolve_left hw]
      exact hnow
  obtain ⟨k, _, hk⟩ := eventually_of_effective (fun k => run (n + 1 + k)) Keeps.refl
    Keeps.trans hstep hcomes 0
  exact ⟨n + 1 + k, by omega, hk⟩

end Client

end NpSim.Cache
