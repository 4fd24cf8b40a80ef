/- digest: The ticks of the instruction cache: over a run whose `fence.i`s are settled, no request
   is served before the cache has been updated in two later ticks. -/

import NpSim.System.Updates

set_option autoImplicit false
set_option relaxedAutoImplicit false

namespace NpSim.Cache.PipeCache

open NpSim.Lib.Partial

variable {P : CacheParams} {c c' : PipeCache P} {now k : Nat}

/-- A call that serves nothing: `k` more requests may have come. -/
structure Accepts (k : Nat) (c c' : PipeCache P) : Prop where
  served : c'.served = c.served
  tail : c'.back.isSome = c.back.isSome
  log : c'.log.length = c.log.length + k

theorem Accepts.refl (c : PipeCache P) : Accepts 0 c c := ⟨rfl, rfl, rfl⟩

theorem Accepts.trans {l : Nat} {d : PipeCache P} (h : Accepts k c d) (h' : Accepts l d c') :
    Accepts (k + l) c c' :=
  ⟨h'.served.trans h.served, h'.tail.trans h.tail, by rw [h'.log, h.log, Nat.add_assoc]⟩

theorem recvMemResp_accepts {m : MemTrans} (hx : c.recvMemResp now m = .ok c') :
    Accepts 0 c c' := by
  rcases recvMemResp_cases hx with ⟨_, _, _, _, _, _, _, _, _, rfl⟩ | ⟨_, _, rfl⟩
  · exact ⟨rfl, rfl, rfl⟩
  · exact ⟨rfl, rfl, rfl⟩

theorem WellFormed.readReq_accepts {addr : Addr} (h : WellFormed c) (hlen : 1 < P.pipeDepth)
    (hx : c.readReq now addr = .ok c') : WellFormed c' ∧ Accepts 1 c c' := by
  obtain ⟨hw, heff, _⟩ := h.enqueue ⟨rfl, rfl, rfl, rfl⟩ hx
  refine ⟨hw, ?_, ?_, ?_⟩
  · unfold PipeCache.readReq PipeCache.enqueue at hx
    obtain ⟨_, hx⟩ := require_bind_eq_ok.mp hx
    split at hx
    · cases hx
      rfl
    · cases hx
  · rw [enqueue_back (h.len.symm ▸ hlen) hx]
  · have hl := congrArg List.length heff.log
    rwa [List.length_append, List.length_map, List.length_map] at hl

theorem WellFormed.doUpdate_log {outs : List CacheOut} (h : WellFormed c)
    (hx : c.doUpdate now = .ok (c', outs)) : c'.log.length = c.log.length := by
  have hl := congrArg List.length (h.doUpdate hx).2.1.log
  rwa [List.length_append, List.length_map, List.length_map] at hl

end NpSim.Cache.PipeCache

namespace NpSim.System

open NpSim.Lib.Partial NpSim.Cache NpSim.Cache.PipeCache NpSim.Mem NpSim.Pipe Relation

variable {S : Config} {now : Nat}

namespace Watch

variable {w : Watch S} {t : Sys S}

/-- The phases of a tick up to the update of the core. -/
def early (s : Sys S) : Bool :=
  match s.phase with
  | .core | .feed | .clock => false
  | _ => true

/-- The invariant of the ticks of the instruction cache. What is at its tail has been moved there by
an update of a later tick than that of its acceptance. -/
structure Paced (w : Watch S) : Prop where
  accepted : w.accepted.length = w.sys.hosts.icache.log.length
  answered : w.answered.length = w.sys.hosts.icache.served.length
  past : ∀ a ∈ w.accepted, a ≤ w.sys.tick ∧ (early w.sys = true → a < w.sys.tick)
  tail : w.sys.hosts.icache.back.isSome = true → ∀ a : Nat,
    w.accepted[w.sys.hosts.icache.served.length]? = some a →
      ∃ u, (u, Device.icache) ∈ w.log ∧ a + 1 ≤ u
  late : ∀ i a b : Nat, w.accepted[i]? = some a → w.answered[i]? = some b → a + 2 ≤ b

private theorem Paced.keep (h : Paced w) {k : Nat}
    (hk : Accepts k w.sys.hosts.icache t.hosts.icache)
    (hpast : ∀ a ∈ w.accepted, a ≤ t.tick ∧ (early t = true → a < t.tick))
    (hnew : 0 < k → w.sys.tick ≤ t.tick ∧ early t = false) : Paced (w.next t) := by
  have hacc : (w.next t).accepted = w.accepted ++ List.replicate k w.sys.tick := by
    change w.accepted ++ List.replicate (t.hosts.icache.log.length -
      w.sys.hosts.icache.log.length) _ = _
    rw [hk.log, Nat.add_sub_cancel_left]
  have hans : (w.next t).answered = w.answered := by
    change w.answered ++ List.replicate (t.hosts.icache.served.length -
      w.sys.hosts.icache.served.length) _ = _
    rw [hk.served, Nat.sub_self]
    exact List.append_nil _
  have hlog : ∀ e ∈ w.log, e ∈ (w.next t).log := fun e he => List.mem_append_left _ he
  refine ⟨?_, ?_, fun a ha => ?_, fun hb a ha => ?_, fun i a b ha hb => ?_⟩
  · rw [hacc, List.length_append, List.length_replicate, h.accepted]
    exact hk.log.symm
  · rw [hans, h.answered]
    exact congrArg List.length hk.served.symm
  · rw [hacc] at ha
    rcases List.mem_append.mp ha with ha | ha
    · exact hpast a ha
    · obtain ⟨hpos, rfl⟩ := List.mem_replicate.mp ha
      obtain ⟨hle, he⟩ := hnew (Nat.pos_of_ne_zero hpos)
      exact ⟨hle, fun hx => absurd (he.symm.trans hx) (by decide)⟩
  · have hb' : w.sys.hosts.icache.back.isSome = true := hk.tail.symm.trans hb
    rw [hacc, show (w.next t).sys.hosts.icache.served = w.sys.hosts.icache.served from hk.served,
      List.getElem?_append_left] at ha
    · obtain ⟨u, hu, hle⟩ := h.tail hb' a ha
      exact ⟨u, hlog _ hu, hle⟩
    · rw [h.accepted]
      exact served_lt_log hb'
  · rw [hans] at hb
    have hi : i < w.accepted.length := by
      have hlt := (List.getElem?_eq_some_iff.mp hb).1
      rw [h.answered] at hlt
      rw [h.accepted]
      refine hlt.trans_le ?_
      rw [PipeCache.log, List.length_append]
      exact Nat.le_add_right _ _
    rw [hacc, List.getElem?_append_left hi] at ha
    exact h.late i a b ha hb

private theorem Paced.update (h : Paced w) {c : PipeCache S.icache} {outs : List CacheOut}
    (he : early w.sys = true)
    (hc : Accepts 0 w.sys.hosts.icache c) (hwc : c.WellFormed)
    (hx : c.doUpdate w.sys.tick = .ok (t.hosts.icache, outs)) (ht : t.tick = w.sys.tick)
    (hup : (w.sys.tick, Device.icache) ∈ w.sys.updates.map fun d => (w.sys.tick, d))
    (hs : (w.next t).log.Pairwise Before) : Paced (w.next t) := by
  have hlen : t.hosts.icache.log.length = w.sys.hosts.icache.log.length :=
    (hwc.doUpdate_log hx).trans hc.log
  have hacc : (w.next t).accepted = w.accepted := by
    change w.accepted ++ List.replicate (t.hosts.icache.log.length -
      w.sys.hosts.icache.log.length) _ = _
    rw [hlen, Nat.sub_self]
    exact List.append_nil _
  have hpast : ∀ a ∈ w.accepted, a < w.sys.tick := fun a ha => (h.past a ha).2 he
  have hnow : (w.sys.tick, Device.icache) ∈ (w.next t).log := List.mem_append_right _ hup
  have hgap : ∀ u, (u, Device.icache) ∈ w.log → u < w.sys.tick := by
    intro u hu
    rcases (List.pairwise_append.mp hs).2.2 _ hu _ hup with hlt | ⟨_, hlt⟩
    · exact hlt
    · exact absurd hlt (Nat.lt_irrefl _)
  have htail : t.hosts.icache.back.isSome = true → ∀ a : Nat,
      (w.next t).accepted[t.hosts.icache.served.length]? = some a →
        ∃ u, (u, Device.icache) ∈ (w.next t).log ∧ a + 1 ≤ u := by
    intro _ a ha
    rw [hacc] at ha
    exact ⟨_, hnow, hpast a (List.mem_of_getElem? ha)⟩
  have hserved := hwc.doUpdate_served hx
  rw [hc.served, hc.tail] at hserved
  rcases hserved with hsame | ⟨hback, e, hone⟩
  · have hans : (w.next t).answered = w.answered := by
      change w.answered ++ List.replicate (t.hosts.icache.served.length -
        w.sys.hosts.icache.served.length) _ = _
      rw [hsame, Nat.sub_self]
      exact List.append_nil _
    refine ⟨?_, ?_, ?_, htail, ?_⟩
    · rw [hacc, h.accepted]
      exact hlen.symm
    · rw [hans, h.answered]
      exact congrArg List.length hsame.symm
    · rw [hacc, show (w.next t).sys.tick = w.sys.tick from ht]
      exact fun a ha => ⟨(hpast a ha).le, fun _ => hpast a ha⟩
    · rw [hacc, hans]
      exact h.late
  · have hans : (w.next t).answered = w.answered ++ [w.sys.tick] := by
      change w.answered ++ List.replicate (t.hosts.icache.served.length -
        w.sys.hosts.icache.served.length) _ = _
      rw [hone, List.length_append, Nat.add_sub_cancel_left]
      rfl
    refine ⟨?_, ?_, ?_, htail, fun i a b ha hb => ?_⟩
    · rw [hacc, h.accepted]
      exact hlen.symm
    · rw [hans, List.length_append, h.answered]
      have hl := congrArg List.length hone
      rw [List.length_append] at hl
      exact hl.symm
    · rw [hacc, show (w.next t).sys.tick = w.sys.tick from ht]
      exact fun a ha => ⟨(hpast a ha).le, fun _ => hpast a ha⟩
    · rw [hacc] at ha
      rw [hans] at hb
      rcases Nat.lt_or_ge i w.answered.length with hi | hi
      · rw [List.getElem?_append_left hi] at hb
        exact h.late i a b ha hb
      · rw [List.getElem?_append_right hi] at hb
        obtain ⟨hzero, hval⟩ := List.getElem?_eq_some_iff.mp hb
        have hi' : i = w.sys.hosts.icache.served.length := by
          rw [← h.answered]
          simp only [List.length_singleton] at hzero
          omega
        rw [hi'] at ha
        obtain ⟨u, hu, hle⟩ := h.tail hback a ha
        have hlt := hgap u hu
        have hb' : b = w.sys.tick := by
          rw [← hval]
          exact List.getElem_singleton _
        omega

private theorem accepts_frame (now : Nat) : HostFrame (S := S) now fun h h' =>
    h.icache.WellFormed → h'.icache.WellFormed ∧ ∃ k, Accepts k h.icache h'.icache where
  refl _ hw := ⟨hw, 0, .refl _⟩
  trans _ _ _ hab hbd hw := by
    obtain ⟨hwb, k, hk⟩ := hab hw
    obtain ⟨hwd, l, hl⟩ := hbd hwb
    exact ⟨hwd, k + l, hk.trans hl⟩
  resp _ _ _ _ hw := ⟨hw, 0, .refl _⟩
  ack _ _ _ _ hw := ⟨hw, 0, .refl _⟩
  sent _ hw := ⟨hw, 0, .refl _⟩
  recv _ _ _ hr hw := ⟨(hw.recvMemResp hr).1, 0, recvMemResp_accepts hr⟩
  read _ _ _ hr hw := by
    have hlen : 1 < S.icache.pipeDepth := by
      rw [S.icache_depth]
      exact Nat.lt_succ_self 1
    obtain ⟨hw', hk⟩ := hw.readReq_accepts hlen hr
    exact ⟨hw', 1, hk⟩
  dcache _ _ hw := ⟨hw, 0, .refl _⟩
  bypass _ _ hw := ⟨hw, 0, .refl _⟩

private theorem updateMemory_accepts {r r' : Hosts S × RAMArbiter S.mem}
    (h : RAMArbiter.doUpdate now (Hosts.recvMemResp now) r = .ok r') :
    Accepts 0 r.1.icache r'.1.icache := by
  refine RAMArbiter.doUpdate_host (R := fun a b => Accepts 0 a.icache b.icache)
    (fun _ => .refl _) (fun _ _ _ hab hbd => hab.trans hbd) (fun id m e d r hr => ?_) h
  unfold Hosts.recvMemResp at hr
  split at hr
  · obtain ⟨c, hc, hr⟩ := bind_eq_ok.mp hr
    cases hr
    exact recvMemResp_accepts hc
  · split at hr
    · obtain ⟨⟨d', outs⟩, _, hr⟩ := bind_eq_ok.mp hr
      rw [(Hosts.deliver_ports hr).1]
      exact .refl _
    · obtain ⟨⟨d', outs⟩, _, hr⟩ := bind_eq_ok.mp hr
      rw [(Hosts.deliver_ports hr).1]
      exact .refl _

private theorem Paced.accept (h : Paced w) (ht : t.tick = w.sys.tick) (he : early t = false)
    (hk : ∃ k, Accepts k w.sys.hosts.icache t.hosts.icache) : Paced (w.next t) := by
  obtain ⟨k, hk⟩ := hk
  refine h.keep hk (fun a ha => ⟨ht.symm ▸ (h.past a ha).1, fun hx => ?_⟩) fun _ => ⟨ht.ge, he⟩
  rw [he] at hx
  cases hx

private theorem Paced.hold (h : Paced w) (ht : t.tick = w.sys.tick) (he : early w.sys = true)
    (hk : Accepts 0 w.sys.hosts.icache t.hosts.icache) : Paced (w.next t) := by
  refine h.keep hk (fun a ha => ?_) fun hpos => absurd hpos (Nat.lt_irrefl 0)
  rw [ht]
  exact ⟨(h.past a ha).1, fun _ => (h.past a ha).2 he⟩

private theorem Paced.updated (h : Paced w) {c c' : PipeCache S.icache} {outs : List CacheOut}
    (ht : t.tick = w.sys.tick) (he : early w.sys = true)
    (hc : Accepts 0 w.sys.hosts.icache c) (hwc : c.WellFormed)
    (hx : c.doUpdate w.sys.tick = .ok (c', outs)) (hsame : t.hosts.icache = c')
    (hup : c.nextUpdate ≤ w.sys.tick → Device.icache ∈ w.sys.updates)
    (hs : (w.next t).log.Pairwise Before) : Paced (w.next t) := by
  subst hsame
  by_cases hdue : c.nextUpdate ≤ w.sys.tick
  · exact h.update he hc hwc hx ht (List.mem_map_of_mem (hup hdue)) hs
  · unfold PipeCache.doUpdate at hx
    rw [if_neg hdue] at hx
    have hfst : c = t.hosts.icache := congrArg Prod.fst (Except.ok.inj hx)
    exact h.hold ht he (hfst ▸ hc)

private theorem paced_sysOp (h : Paced w) (hph : w.sys.phase = .sysOp)
    (hr : w.sys.Reachable) (hs : (w.next t).log.Pairwise Before)
    (hst : w.sys.step false = .ok t) : Paced (w.next t) := by
  have he : early w.sys = true := by
    unfold early
    rw [hph]
  unfold Sys.step at hst
  rw [hph] at hst
  dsimp only at hst
  unfold Sys.handleSysOp at hst
  split at hst
  · cases hst
    exact h.hold rfl he ⟨rfl, rfl, rfl⟩
  · split at hst
    · rename_i hop
      obtain ⟨r, hr', hst⟩ := bind_eq_ok.mp hst
      cases hst
      obtain ⟨q, hq, hr'⟩ := bind_eq_ok.mp hr'
      obtain ⟨⟨c, outs⟩, hc, hq⟩ := bind_eq_ok.mp hq
      obtain ⟨⟨d, outs'⟩, _, hr'⟩ := bind_eq_ok.mp hr'
      have hsame : r.1.icache = c :=
        (Hosts.deliver_ports hr').1.trans (Hosts.deliver_ports hq).1
      refine h.updated rfl he (c := w.sys.hosts.icache.flushAll) ⟨rfl, rfl, rfl⟩
        hr.icache_wellFormed.flushAll hc hsame (fun hdue => ?_) hs
      unfold Sys.updates
      rw [hph]
      dsimp only
      rw [if_pos hop, if_pos (show w.sys.hosts.icache.nextUpdate ≤ _ from hdue)]
      exact List.mem_append_left _ (List.mem_singleton_self _)
    · split at hst <;>
      · cases hst
        exact h.hold rfl he (.refl _)

/-- A call of the main loop keeps the ticks of the instruction cache. -/
theorem Paced.step (h : Paced w) (hr : w.sys.Reachable) (hs : (w.next t).log.Pairwise Before)
    (hst : w.sys.step false = .ok t) : Paced (w.next t) := by
  have hnow : ∀ p, w.sys.phase = p → early w.sys = match p with
      | .core | .feed | .clock => false
      | _ => true := by
    intro p hp
    unfold early
    rw [hp]
  cases hph : w.sys.phase with
  | sysOp => exact paced_sysOp h hph hr hs hst
  | memory =>
    have he := hnow _ hph
    unfold Sys.step at hst
    rw [hph] at hst
    obtain ⟨r, hr', hst⟩ := bind_eq_ok.mp hst
    cases hst
    exact h.hold rfl he (updateMemory_accepts hr')
  | bypass =>
    have he := hnow _ hph
    unfold Sys.step at hst
    rw [hph] at hst
    cases hst
    exact h.hold rfl he (.refl _)
  | dcache =>
    have he := hnow _ hph
    unfold Sys.step at hst
    rw [hph] at hst
    obtain ⟨r, hr', hst⟩ := bind_eq_ok.mp hst
    cases hst
    obtain ⟨⟨d, outs⟩, _, hr'⟩ := bind_eq_ok.mp hr'
    refine h.hold rfl he ?_
    change Accepts 0 _ r.1.icache
    rw [(Hosts.deliver_ports hr').1]
    exact .refl _
  | icache =>
    have he := hnow _ hph
    unfold Sys.step at hst
    rw [hph] at hst
    obtain ⟨r, hr', hst⟩ := bind_eq_ok.mp hst
    cases hst
    obtain ⟨⟨c, outs⟩, hc, hr'⟩ := bind_eq_ok.mp hr'
    refine h.updated rfl he (.refl _) hr.icache_wellFormed hc (Hosts.deliver_ports hr').1
      (fun hdue => ?_) hs
    unfold Sys.updates
    rw [hph]
    dsimp only
    rw [if_pos hdue]
    exact List.mem_singleton_self _
  | core =>
    unfold Sys.step at hst
    rw [hph] at hst
    obtain ⟨r, hr', hst⟩ := bind_eq_ok.mp hst
    cases hst
    obtain ⟨c, _, hr'⟩ := bind_eq_ok.mp hr'
    exact h.accept rfl rfl ((accepts_frame w.sys.tick).runCalls hr' hr.icache_wellFormed).2
  | feed =>
    unfold Sys.step at hst
    rw [hph] at hst
    dsimp only at hst
    unfold Sys.feed at hst
    split at hst
    · split at hst
      · split at hst
        · cases hst
          exact h.accept rfl rfl ⟨0, .refl _⟩
        · obtain ⟨r, hr', hst⟩ := bind_eq_ok.mp hst
          cases hst
          obtain ⟨c, _, hr'⟩ := bind_eq_ok.mp hr'
          exact h.accept rfl rfl ((accepts_frame w.sys.tick).runCalls hr' hr.icache_wellFormed).2
      · cases hst
        exact h.accept rfl rfl ⟨0, .refl _⟩
    · cases hst
      exact h.accept rfl rfl ⟨0, .refl _⟩
  | clock =>
    unfold Sys.step at hst
    rw [hph] at hst
    cases hst
    refine h.keep (.refl _) (fun a ha => ?_) fun hpos => absurd hpos (Nat.lt_irrefl 0)
    have hle := (h.past a ha).1
    exact ⟨Nat.le_succ_of_le hle, fun _ => Nat.lt_succ_of_le hle⟩
  | halted =>
    have he := hnow _ hph
    unfold Sys.step at hst
    rw [hph] at hst
    cases hst
    exact h.hold rfl he (.refl _)

theorem paced_init (trace : List TraceInst) (inst : TraceInst) (nxt : Tick) :
    Paced ({ sys := Sys.init S trace inst nxt } : Watch S) := by
  have hlog : (Sys.init S trace inst nxt).hosts.icache.log.length = 0 := by
    unfold PipeCache.log PipeCache.pending
    change ([] ++ (List.replicate _ none).reverse.filterMap id).length = 0
    rw [List.reverse_replicate, List.nil_append, List.filterMap_replicate_of_none rfl]
    rfl
  refine ⟨hlog.symm, rfl, nofun, fun hb => ?_, nofun⟩
  have hlt := served_lt_log hb
  rw [show (({ sys := Sys.init S trace inst nxt } : Watch S).sys.hosts.icache.log.length) = 0
    from hlog] at hlt
  exact absurd hlt (Nat.not_lt_zero _)

private theorem settledRun_invariant (h : SettledRun w) :
    w.sys.Reachable ∧ Ordered w ∧ Paced w := by
  obtain ⟨trace, inst, nxt, hrun⟩ := h
  induction hrun with
  | refl =>
    exact ⟨⟨trace, inst, nxt, 0, rfl⟩, ordered_init trace inst nxt, paced_init trace inst nxt⟩
  | tail _ hst ih =>
    obtain ⟨hr, ho, hp⟩ := ih
    obtain ⟨hset, t, hst, rfl⟩ := hst
    have ho' := ho.step hset hr hst
    exact ⟨hr.step hst, ho', hp.step hr ho'.sorted hst⟩

/-- In a run whose `fence.i`s are settled, no object is updated twice in a tick, the updates of a
tick are in the order of `devlist`, and the instruction cache serves no request before the ticks of
its pipe are over. -/
theorem updates_in_order (h : SettledRun w) :
    w.log.Pairwise Before ∧ w.log.Nodup ∧
      ∀ i a b : Nat, w.accepted[i]? = some a → w.answered[i]? = some b →
        a + S.icache.pipeDepth ≤ b := by
  obtain ⟨_, ho, hp⟩ := settledRun_invariant h
  refine ⟨ho.sorted, ho.sorted.imp fun {a b} hab heq => ?_, ?_⟩
  · subst heq
    rcases hab with hlt | ⟨_, hlt⟩ <;> exact absurd hlt (Nat.lt_irrefl _)
  · rw [S.icache_depth]
    exact hp.late

def play (ok : Sys S → Bool) : Nat → Watch S → Option (Watch S)
  | 0, w => some w
  | n + 1, w =>
    if ok w.sys then (w.sys.step false).toOption.bind fun t => play ok n (w.next t) else none

theorem run_of_play {ok : Sys S → Bool} {w' : Watch S} {n : Nat} (h : play ok n w = some w') :
    ReflTransGen (fun w w' => ok w.sys = true ∧ Step w w') w w' := by
  induction n generalizing w with
  | zero =>
    cases h
    exact .refl
  | succ n ih =>
    rw [play] at h
    split at h
    · rename_i hok
      obtain ⟨t, ht, h⟩ := Option.bind_eq_some_iff.mp h
      refine .head ⟨hok, t, ?_, rfl⟩ (ih h)
      cases hx : w.sys.step false with
      | error e =>
        rw [hx] at ht
        cases ht
      | ok t' =>
        rw [hx] at ht
        exact congrArg Except.ok (Option.some.inj ht)
    · cases h

private def plainInst (k : Nat) : TraceInst := { pc := BitVec.ofNat 32 (0x80000000 + 4 * k) }

private def fenceInst (k : Nat) : TraceInst :=
  { plainInst k with sysOp := Trace.SysFenceI }

/-- A `fence.i` whose fetch misses, on a machine without a data cache. -/
theorem updates_in_order_fence : ∃ w : Watch (Config.plain 3 false), SettledRun w ∧
    w.sys.hosts.core.fed = [fenceInst 0, plainInst 1] ∧ w.accepted = [0, 7] ∧
    w.answered = [6, 13] ∧ w.log.Nodup := by
  obtain ⟨w, hw, hv⟩ := Option.map_eq_some_iff.mp (show ((play Sys.settled 200
      ({ sys := Sys.init _ [fenceInst 0, plainInst 1] {} 0 } : Watch (Config.plain 3 false))).map
        fun w => (w.sys.hosts.core.fed, w.accepted, w.answered)) =
      some ([fenceInst 0, plainInst 1], [0, 7], [6, 13]) by decide +kernel)
  simp only [Prod.mk.injEq] at hv
  have hs : SettledRun w := ⟨_, _, _, run_of_play hw⟩
  exact ⟨w, hs, hv.1, hv.2.1, hv.2.2, (updates_in_order hs).2.1⟩

/-- The fetch of a `fence.i` is accepted in tick 6 and hits. In tick 7 the handling of the `fence.i`
moves it to the tail, the data cache is updated after the instruction cache, and the second update
of the instruction cache answers the fetch. -/
theorem updates_twice : ∃ w : Watch (Config.plain 3 true), Run w ∧
    w.log.filter (·.1 = 7) = [(7, .icache), (7, .dcache), (7, .icache)] ∧
    w.accepted = [0, 6] ∧ w.answered = [6, 7] ∧ w.sys.hosts.icache.stats.hits = 1 ∧
    ¬w.log.Nodup ∧ ¬w.log.Pairwise Before := by
  obtain ⟨w, hw, hv⟩ := Option.map_eq_some_iff.mp (show ((play (fun _ => true) 60
      ({ sys := Sys.init _ [plainInst 0, plainInst 1, fenceInst 2] {} 0 } :
        Watch (Config.plain 3 true))).map fun w => (w.log.filter (·.1 = 7), w.accepted,
          w.answered, w.sys.hosts.icache.stats.hits)) =
      some ([(7, .icache), (7, .dcache), (7, .icache)], [0, 6], [6, 7], 1) by decide +kernel)
  simp only [Prod.mk.injEq] at hv
  obtain ⟨hlog, hacc, hans, hhits⟩ := hv
  refine ⟨w, ⟨_, _, _, ReflTransGen.mono (fun _ _ hs => hs.2) _ _ (run_of_play hw)⟩, hlog, hacc,
    hans, hhits, fun hn => ?_, fun hp => ?_⟩
  · have hsub := hn.sublist (List.filter_sublist (p := fun e => decide (e.1 = 7)))
    rw [hlog] at hsub
    exact absurd hsub (by decide)
  · have hsub := hp.sublist (List.filter_sublist (p := fun e => decide (e.1 = 7)))
    rw [hlog] at hsub
    have hbad := List.rel_of_pairwise_cons hsub (List.mem_cons_self ..)
    rcases hbad with hlt | ⟨_, hlt⟩ <;> exact absurd hlt (by decide)

end Watch

end NpSim.System
