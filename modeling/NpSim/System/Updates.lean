/- digest: The order of updates: which objects the main loop updates in a tick, and what an update
   at a `fence.i` changes about it. -/

import NpSim.Cache.Repeats
import NpSim.Mem.Protocol
import NpSim.System.BtbPort

set_option autoImplicit false
set_option relaxedAutoImplicit false

namespace NpSim.Mem.RAMArbiter

open NpSim.Lib.Partial

variable {K : ArbiterConfig} {m m' : RAMArbiter K}

/-- The request is served at once and in no time: its channel is idle and its device answers in the
same tick. -/
def instant (now : Nat) (req : MemTrans) (m : RAMArbiter K) : Bool :=
  decide ((m.chan req.mop).busyUntil = infTime) &&
    (K.devices.latencyImpl m.devs (K.deviceOf req.addr) req now).1 == 0

private theorem latOf_lat {now lat : Nat} {req : MemTrans} (h : m.latOf now req = .ok (lat, m')) :
    lat = (K.devices.latencyImpl m.devs (K.deviceOf req.addr) req now).1 ∧ m'.chan = m.chan := by
  refine ⟨?_, (latOf_eq_ok h).2.1⟩
  unfold latOf at h
  obtain ⟨_, h⟩ := require_bind_eq_ok.mp h
  obtain ⟨_, h⟩ := require_bind_eq_ok.mp h
  rw [show lat = _ from (congrArg Prod.fst (Except.ok.inj h)).symm]
  unfold deviceAccess
  dsimp only
  split <;> rfl

theorem recvReq_late {now : Nat} {req : MemTrans} (h : m.recvReq now req = .ok m')
    (hlate : (now : Tick) < m.nextUpdate) (hno : m.instant now req = false) :
    (now : Tick) < m'.nextUpdate := by
  have hchan : ∀ op, (now : Tick) < (m.chan op).busyUntil := by
    intro op
    cases op with
    | read => exact hlate.trans_le (min_le_left _ _)
    | write => exact hlate.trans_le (min_le_right _ _)
  suffices hall : ∀ op, (now : Tick) < (m'.chan op).busyUntil from lt_min (hall .read) (hall .write)
  intro op
  unfold recvReq at h
  obtain ⟨_, h⟩ := require_bind_eq_ok.mp h
  obtain ⟨_, h⟩ := require_bind_eq_ok.mp h
  have hset : ∀ op, ((m.insert now req).chan op).busyUntil = (m.chan op).busyUntil := by
    intro op
    unfold RAMArbiter.insert setChan
    dsimp only
    rw [Function.update_apply]
    split
    · rename_i ho
      rw [ho]
    · rfl
  change (if (m.chan req.mop).busyUntil = infTime then
    (m.insert now req).serve now now req.mop req else .ok (m.insert now req)) = .ok m' at h
  split at h
  · rename_i hidle
    unfold serve at h
    obtain ⟨⟨lat, n⟩, hlat, h⟩ := bind_eq_ok.mp h
    obtain ⟨hval, hsame⟩ := latOf_lat hlat
    have hpos : 0 < lat := by
      unfold instant at hno
      rw [decide_eq_true hidle, Bool.true_and, beq_eq_false_iff_ne] at hno
      rw [hval]
      exact Nat.pos_of_ne_zero hno
    cases h
    unfold setChan
    dsimp only
    rw [Function.update_apply]
    split
    · change (now : Tick) < ((now + lat : Nat) : Tick)
      exact_mod_cast Nat.lt_add_of_pos_right hpos
    · rw [hsame, hset]
      exact hchan op
  · cases h
    rw [hset]
    exact hchan op

end NpSim.Mem.RAMArbiter

namespace NpSim.System

open NpSim.Lib.Partial NpSim.Cache NpSim.Cache.PipeCache NpSim.Mem NpSim.Pipe Relation

variable {S : Config} {now : Nat}

/-- The clocked objects, in the order of `devlist`. -/
inductive Device
  | memory
  | bypass
  | dcache
  | icache
  | core
  deriving DecidableEq, Repr

def Device.rank : Device → Nat
  | .memory => 0
  | .bypass => 1
  | .dcache => 2
  | .icache => 3
  | .core => 4

namespace DataPort

variable {P : CacheParams}

/-- `next_update`; that of a `NoCache` is `InfTime`. -/
def nextUpdate : DataPort P → Tick
  | .cached c => c.nextUpdate
  | .uncached _ => infTime

def toSend : DataPort P → Option MemTrans
  | .cached c => c.toSend
  | .uncached _ => none

end DataPort

namespace Sys

/-- The objects whose `update_impl` runs in the next call of the main loop, in order. -/
def updates (s : Sys S) : List Device :=
  match s.phase with
  | .memory => if s.mem.nextUpdate ≤ s.tick then [.memory] else []
  | .dcache => if s.hosts.dcache.nextUpdate ≤ s.tick then [.dcache] else []
  | .icache => if s.hosts.icache.nextUpdate ≤ s.tick then [.icache] else []
  | .core => if s.hosts.core.nextUpdate ≤ s.tick then [.core] else []
  | .sysOp =>
    if s.inst.sysOp = Trace.SysFenceI then
      (if s.hosts.icache.nextUpdate ≤ s.tick then [.icache] else []) ++
        if s.hosts.dcache.nextUpdate ≤ s.tick then [.dcache] else []
    else []
  | _ => []

/-- If a `fence.i` is handled now, one cache at most is due, and if one is, neither it nor the
memory is due again in this tick. -/
def settled (s : Sys S) : Bool :=
  let i := decide (s.hosts.icache.nextUpdate ≤ s.tick)
  let d := decide (s.hosts.dcache.nextUpdate ≤ s.tick)
  s.phase != .sysOp || s.inst.sysOp != Trace.SysFenceI ||
    (!(i && d) && !((i || d) && decide (s.mem.nextUpdate ≤ s.tick))
      && !(i && (s.hosts.icache.dueAgain || s.hosts.icache.toSend.any (s.mem.instant s.tick ·)))
      && !(d && s.hosts.dcache.toSend.any (s.mem.instant s.tick ·)))

end Sys

/-- A run of the main loop with the updates it has made, and with the ticks at which the instruction
cache has accepted and has served its requests. -/
structure Watch (S : Config) where
  sys : Sys S
  log : List (Nat × Device) := []
  accepted : List Nat := []
  answered : List Nat := []

namespace Watch

def next (w : Watch S) (t : Sys S) : Watch S where
  sys := t
  log := w.log ++ w.sys.updates.map fun d => (w.sys.tick, d)
  accepted := w.accepted ++ List.replicate
    (t.hosts.icache.log.length - w.sys.hosts.icache.log.length) w.sys.tick
  answered := w.answered ++ List.replicate
    (t.hosts.icache.served.length - w.sys.hosts.icache.served.length) w.sys.tick

def Step (w w' : Watch S) : Prop := ∃ t, w.sys.step false = .ok t ∧ w' = w.next t

def Run (w : Watch S) : Prop :=
  ∃ trace inst nxt, ReflTransGen Step { sys := Sys.init S trace inst nxt } w

def SettledRun (w : Watch S) : Prop :=
  ∃ trace inst nxt, ReflTransGen (fun w w' => w.sys.settled = true ∧ Step w w')
    { sys := Sys.init S trace inst nxt } w

end Watch

/-- The update `a` comes before `b`: in an earlier tick, or in the same tick from an object further
down. -/
def Before (a b : Nat × Device) : Prop := a.1 < b.1 ∨ a.1 = b.1 ∧ a.2.rank < b.2.rank

namespace Hosts

variable {s t : Hosts S × RAMArbiter S.mem}

theorem deliver_ports {outs : List CacheOut} (h : deliver now outs s = .ok t) :
    t.1.icache = s.1.icache ∧ t.1.dcache = s.1.dcache ∧
      (requests outs).foldlM (fun m q => RAMArbiter.recvReq now q m) s.2 = .ok t.2 := by
  unfold deliver at h
  induction outs generalizing s with
  | nil =>
    cases h
    exact ⟨rfl, rfl, rfl⟩
  | cons out outs ih =>
    simp only [List.foldlM_cons] at h
    obtain ⟨r, hr, h⟩ := bind_eq_ok.mp h
    obtain ⟨hi, hd, hm⟩ := ih h
    cases out with
    | cpuResp q =>
      obtain ⟨c, _, hr⟩ := bind_eq_ok.mp hr
      cases hr
      exact ⟨hi, hd, hm⟩
    | cpuAck a =>
      obtain ⟨c, _, hr⟩ := bind_eq_ok.mp hr
      cases hr
      exact ⟨hi, hd, hm⟩
    | memReq q =>
      obtain ⟨m, hq, hr⟩ := bind_eq_ok.mp hr
      cases hr
      refine ⟨hi, hd, ?_⟩
      change (q :: requests outs).foldlM _ s.2 = _
      rw [List.foldlM_cons, hq]
      exact hm

/-- One request that is not served in no time leaves the memory as it was for this tick. -/
theorem deliver_late {outs : List CacheOut} {q : Option MemTrans}
    (h : deliver now outs s = .ok t) (hq : requests outs = q.toList)
    (hlate : (now : Tick) < s.2.nextUpdate) (hno : q.any (s.2.instant now ·) = false) :
    (now : Tick) < t.2.nextUpdate := by
  obtain ⟨_, _, hm⟩ := deliver_ports h
  rw [hq] at hm
  cases q with
  | none =>
    rw [← Except.ok.inj hm]
    exact hlate
  | some req =>
    obtain ⟨m, hreq, hm⟩ := bind_eq_ok.mp hm
    rw [← Except.ok.inj hm]
    exact RAMArbiter.recvReq_late hreq hlate hno

theorem updateIcache_idle (hlate : (now : Tick) < s.1.icache.nextUpdate)
    (h : updateIcache now s = .ok t) : t = s := by
  unfold updateIcache PipeCache.doUpdate at h
  rw [if_neg (not_le.mpr hlate)] at h
  cases h
  rfl

theorem updateDcache_idle (hlate : (now : Tick) < s.1.dcache.nextUpdate)
    (h : updateDcache now s = .ok t) : t = s := by
  unfold updateDcache at h
  obtain ⟨⟨d, outs⟩, hd, h⟩ := bind_eq_ok.mp h
  have hsame : d = s.1.dcache ∧ outs = [] := by
    cases hdc : s.1.dcache with
    | uncached c =>
      rw [hdc] at hd
      cases hd
      exact ⟨rfl, rfl⟩
    | cached c =>
      rw [hdc] at hd hlate
      obtain ⟨⟨c', o⟩, hc, hd⟩ := bind_eq_ok.mp hd
      have hlate' : (now : Tick) < c.nextUpdate := hlate
      unfold PipeCache.doUpdate at hc
      rw [if_neg (not_le.mpr hlate')] at hc
      cases hc
      cases hd
      exact ⟨rfl, rfl⟩
  rw [hsame.1, hsame.2] at h
  cases h
  rfl

theorem updateMemory_idle (hlate : (now : Tick) < s.2.nextUpdate)
    (h : RAMArbiter.doUpdate now (recvMemResp now) s = .ok t) : t = s := by
  unfold RAMArbiter.doUpdate at h
  rw [if_neg (not_le.mpr hlate)] at h
  cases h
  rfl

theorem updateIcache_settled (hw : s.1.icache.WellFormed)
    (hdue : s.1.icache.nextUpdate ≤ now) (hflush : s.1.icache.pendingFlush = true)
    (hagain : s.1.icache.dueAgain = false)
    (hno : s.1.icache.toSend.any (s.2.instant now ·) = false)
    (hmem : (now : Tick) < s.2.nextUpdate) (h : updateIcache now s = .ok t) :
    (now : Tick) < t.2.nextUpdate ∧ t.1.dcache = s.1.dcache ∧
      (now : Tick) < t.1.icache.nextUpdate := by
  obtain ⟨⟨c, outs⟩, hc, h⟩ := bind_eq_ok.mp h
  obtain ⟨hq, hlate⟩ := hw.doUpdate_again S.icache_immediate hdue hc
  obtain ⟨hi, hd, _⟩ := deliver_ports h
  refine ⟨deliver_late h hq hmem hno, hd, ?_⟩
  rw [hi]
  refine hlate.resolve_right fun hx => ?_
  cases hagain.symm.trans (hx hflush)

theorem updateDcache_settled (hw : s.1.dcache.WellFormed)
    (hdue : s.1.dcache.nextUpdate ≤ now) (hflush : s.1.dcache = s.1.dcache.flushAll)
    (hno : s.1.dcache.toSend.any (s.2.instant now ·) = false)
    (hmem : (now : Tick) < s.2.nextUpdate) (h : updateDcache now s = .ok t) :
    (now : Tick) < t.2.nextUpdate ∧ t.1.icache = s.1.icache ∧
      (now : Tick) < t.1.dcache.nextUpdate := by
  obtain ⟨⟨d, outs⟩, hd, h⟩ := bind_eq_ok.mp h
  dsimp only at h
  obtain ⟨hi, hdc, _⟩ := deliver_ports h
  cases hc : s.1.dcache with
  | uncached c =>
    rw [hc] at hdue
    exact absurd (top_le_iff.mp hdue) (ENat.natCast_ne_top now)
  | cached c =>
    rw [hc] at hd hw hdue hno hflush
    have hwc : c.WellFormed := hw
    have hduec : c.nextUpdate ≤ now := hdue
    obtain ⟨⟨c', o⟩, hx, hd⟩ := bind_eq_ok.mp hd
    cases hd
    obtain ⟨hq, hlate⟩ := hwc.doUpdate_again (Config.dcache_immediate S) hduec hx
    have hpend : c.pendingFlush = true := by
      rw [DataPort.cached.inj hflush]
      rfl
    refine ⟨deliver_late h hq hmem hno, hi, ?_⟩
    rw [hdc]
    refine hlate.resolve_right fun hx => ?_
    have hlen : c.pipe.length = 1 := hwc.len.trans S.dcache_depth
    cases (dueAgain_of_single hlen).symm.trans (hx hpend)

/-- After a settled `fence.i` with an update, neither a cache nor the memory is due in this tick. -/
theorem fenceI_settled (hw : s.1.icache.WellFormed) (hwd : s.1.dcache.WellFormed)
    (hone : ¬(s.1.icache.nextUpdate ≤ now ∧ s.1.dcache.nextUpdate ≤ now))
    (hsome : s.1.icache.nextUpdate ≤ now ∨ s.1.dcache.nextUpdate ≤ now)
    (hmem : (now : Tick) < s.2.nextUpdate)
    (hicache : s.1.icache.nextUpdate ≤ now →
      s.1.icache.dueAgain = false ∧ s.1.icache.toSend.any (s.2.instant now ·) = false)
    (hdcache : s.1.dcache.nextUpdate ≤ now →
      s.1.dcache.toSend.any (s.2.instant now ·) = false) (h : fenceI now s = .ok t) :
    (now : Tick) < t.2.nextUpdate ∧ (now : Tick) < t.1.dcache.nextUpdate ∧
      (now : Tick) < t.1.icache.nextUpdate := by
  obtain ⟨r, hr, h⟩ := bind_eq_ok.mp h
  have hflushed : s.1.dcache.flushAll = s.1.dcache.flushAll.flushAll ∧
      s.1.dcache.flushAll.nextUpdate = s.1.dcache.nextUpdate ∧
      s.1.dcache.flushAll.toSend = s.1.dcache.toSend := by
    cases s.1.dcache <;> exact ⟨rfl, rfl, rfl⟩
  rcases hsome with hi | hd
  · have hnd : (now : Tick) < s.1.dcache.nextUpdate := not_le.mp fun hd => hone ⟨hi, hd⟩
    obtain ⟨hagain, hno⟩ := hicache hi
    obtain ⟨hm, hdc, hic⟩ := updateIcache_settled
      (s := ({ s.1 with icache := s.1.icache.flushAll, dcache := s.1.dcache.flushAll }, s.2))
      hw.flushAll hi rfl hagain hno hmem hr
    have hlate : (now : Tick) < r.1.dcache.nextUpdate := by
      rw [hdc]
      exact hflushed.2.1 ▸ hnd
    rw [updateDcache_idle hlate h]
    exact ⟨hm, hlate, hic⟩
  · have hni : (now : Tick) < s.1.icache.nextUpdate := not_le.mp fun hi => hone ⟨hi, hd⟩
    have hsame := updateIcache_idle
      (s := ({ s.1 with icache := s.1.icache.flushAll, dcache := s.1.dcache.flushAll }, s.2))
      hni hr
    have hno := hdcache hd
    rw [← hflushed.2.2] at hno
    rw [← hflushed.2.1] at hd
    rw [hsame] at h
    obtain ⟨hm, hic, hdc⟩ := updateDcache_settled
      (s := ({ s.1 with icache := s.1.icache.flushAll, dcache := s.1.dcache.flushAll }, s.2))
      hwd.flushAll hd hflushed.1 hno hmem h
    refine ⟨hm, hdc, ?_⟩
    rw [hic]
    exact hni

end Hosts

namespace Watch

variable {w : Watch S} {t : Sys S}

/-- The updates of this tick come from objects of rank `n` at most. -/
def Low (w : Watch S) (n : Nat) : Prop := ∀ e ∈ w.log, e.1 = w.sys.tick → e.2.rank ≤ n

/-- What the updates made so far leave to the rest of the tick: either they come from further down,
or what is still to come is not due. -/
def Clear (w : Watch S) : Prop :=
  match w.sys.phase with
  | .memory => (∀ e ∈ w.log, e.1 < w.sys.tick) ∨
      (w.sys.tick : Tick) < w.sys.mem.nextUpdate ∧
      (w.sys.tick : Tick) < w.sys.hosts.dcache.nextUpdate ∧
      (w.sys.tick : Tick) < w.sys.hosts.icache.nextUpdate ∧ w.Low 3
  | .bypass | .dcache => w.Low 0 ∨ (w.sys.tick : Tick) < w.sys.hosts.dcache.nextUpdate ∧
      (w.sys.tick : Tick) < w.sys.hosts.icache.nextUpdate ∧ w.Low 3
  | .icache => w.Low 2 ∨ (w.sys.tick : Tick) < w.sys.hosts.icache.nextUpdate ∧ w.Low 3
  | .core => w.Low 3
  | .sysOp => ∀ e ∈ w.log, e.1 < w.sys.tick
  | .feed | .clock | .halted => True

structure Ordered (w : Watch S) : Prop where
  sorted : w.log.Pairwise Before
  bound : ∀ e ∈ w.log, e.1 ≤ w.sys.tick
  clear : w.Clear

private theorem log_append {log : List (Nat × Device)} {n : Nat} {d : Device}
    (hs : log.Pairwise Before) (hb : ∀ e ∈ log, e.1 ≤ n)
    (hlow : ∀ e ∈ log, e.1 = n → e.2.rank < d.rank) :
    (log ++ [(n, d)]).Pairwise Before ∧ (∀ e ∈ log ++ [(n, d)], e.1 ≤ n) ∧
      ∀ e ∈ log ++ [(n, d)], e.1 = n → e.2.rank ≤ d.rank := by
  have hlast : ∀ e ∈ log ++ [(n, d)], e ∈ log ∨ e = (n, d) := by
    intro e he
    rcases List.mem_append.mp he with he | he
    · exact .inl he
    · exact .inr (List.mem_singleton.mp he)
  refine ⟨List.pairwise_append.mpr ⟨hs, List.pairwise_singleton _ _, fun a ha b hb' => ?_⟩, ?_, ?_⟩
  · rw [List.mem_singleton.mp hb']
    rcases Nat.lt_or_eq_of_le (hb a ha) with hlt | heq
    · exact .inl hlt
    · exact .inr ⟨heq, hlow a ha heq⟩
  · intro e he
    rcases hlast e he with he | rfl
    · exact hb e he
    · exact Nat.le_refl n
  · intro e he hn
    rcases hlast e he with he | rfl
    · exact Nat.le_of_lt (hlow e he hn)
    · exact Nat.le_refl _

private theorem Ordered.quiet (h : Ordered w) (hup : w.sys.updates = [])
    (ht : w.sys.tick ≤ t.tick) (hc : w.log = (w.next t).log → Clear (w.next t)) :
    Ordered (w.next t) := by
  have hlog : w.log = (w.next t).log := by
    change w.log = w.log ++ w.sys.updates.map _
    rw [hup]
    exact (List.append_nil _).symm
  exact ⟨hlog ▸ h.sorted, hlog ▸ fun e he => (h.bound e he).trans ht, hc hlog⟩

private theorem Ordered.single (h : Ordered w) {d : Device} (hup : w.sys.updates = [d])
    (ht : t.tick = w.sys.tick) (hlow : ∀ e ∈ w.log, e.1 = w.sys.tick → e.2.rank < d.rank)
    (hc : (w.next t).Low d.rank → Clear (w.next t)) : Ordered (w.next t) := by
  obtain ⟨h1, h2, h3⟩ := log_append h.sorted h.bound hlow
  have hlog : (w.next t).log = w.log ++ [(w.sys.tick, d)] := by
    change w.log ++ w.sys.updates.map _ = _
    rw [hup]
    rfl
  refine ⟨hlog ▸ h1, ?_, hc ?_⟩
  · rw [hlog]
    exact fun e he => (h2 e he).trans ht.ge
  · unfold Low
    rw [hlog]
    exact fun e he hn => h3 e he (hn.trans ht)

theorem ordered_init (trace : List TraceInst) (inst : TraceInst) (nxt : Tick) :
    Ordered ({ sys := Sys.init S trace inst nxt } : Watch S) :=
  ⟨List.Pairwise.nil, nofun, .inl nofun⟩

private theorem clear_loopOrHalt {w : Watch S} {s : Sys S} (hsys : w.sys = s.loopOrHalt)
    (hc : (∀ e ∈ w.log, e.1 < s.tick) ∨ (s.tick : Tick) < s.mem.nextUpdate ∧
      (s.tick : Tick) < s.hosts.dcache.nextUpdate ∧ (s.tick : Tick) < s.hosts.icache.nextUpdate ∧
      ∀ e ∈ w.log, e.1 = s.tick → e.2.rank ≤ 3) : Clear w := by
  unfold Clear Low
  rw [hsys]
  unfold Sys.loopOrHalt
  dsimp only
  cases !s.hosts.core.isFinished && decide (s.tick < S.maxTicks) with
  | true => exact hc
  | false => exact trivial

private theorem ordered_memory (h : Ordered w) (hph : w.sys.phase = .memory)
    (hst : w.sys.step false = .ok t) : Ordered (w.next t) := by
  have hc := h.clear
  unfold Clear at hc
  unfold Sys.step at hst
  rw [hph] at hc hst
  obtain ⟨r, hr, hst⟩ := bind_eq_ok.mp hst
  cases hst
  by_cases hdue : w.sys.mem.nextUpdate ≤ w.sys.tick
  · have hup : w.sys.updates = [.memory] := by
      unfold Sys.updates
      rw [hph]
      exact if_pos hdue
    have hbefore := hc.resolve_right fun hx => not_le.mpr hx.1 hdue
    refine h.single hup rfl (fun e he hn => ?_) fun hlow => .inl hlow
    exact absurd hn (hbefore e he).ne
  · have hup : w.sys.updates = [] := by
      unfold Sys.updates
      rw [hph]
      exact if_neg hdue
    have hsame := Hosts.updateMemory_idle (not_le.mp hdue) hr
    refine h.quiet hup le_rfl fun hlog => ?_
    change (w.next _).Low 0 ∨ _
    unfold Low
    rw [← hlog, hsame]
    rcases hc with hc | ⟨_, hd, hi, hlow⟩
    · exact .inl fun e he hn => absurd hn (hc e he).ne
    · exact .inr ⟨hd, hi, hlow⟩

private theorem ordered_dcache (h : Ordered w) (hph : w.sys.phase = .dcache)
    (hst : w.sys.step false = .ok t) : Ordered (w.next t) := by
  have hc := h.clear
  unfold Clear at hc
  unfold Sys.step at hst
  rw [hph] at hc hst
  obtain ⟨r, hr, hst⟩ := bind_eq_ok.mp hst
  cases hst
  by_cases hdue : w.sys.hosts.dcache.nextUpdate ≤ w.sys.tick
  · have hup : w.sys.updates = [.dcache] := by
      unfold Sys.updates
      rw [hph]
      exact if_pos hdue
    have hlow := hc.resolve_right fun hx => not_le.mpr hx.1 hdue
    refine h.single hup rfl (fun e he hn => ?_) fun hlow => .inl hlow
    exact (hlow e he hn).trans_lt (by decide)
  · have hup : w.sys.updates = [] := by
      unfold Sys.updates
      rw [hph]
      exact if_neg hdue
    have hsame := Hosts.updateDcache_idle (not_le.mp hdue) hr
    refine h.quiet hup le_rfl fun hlog => ?_
    change (w.next _).Low 2 ∨ _
    unfold Low
    rw [← hlog, hsame]
    rcases hc with hlow | ⟨_, hi, hlow⟩
    · exact .inl fun e he hn => (hlow e he hn).trans (by decide)
    · exact .inr ⟨hi, hlow⟩

private theorem ordered_icache (h : Ordered w) (hph : w.sys.phase = .icache)
    (hst : w.sys.step false = .ok t) : Ordered (w.next t) := by
  have hc := h.clear
  unfold Clear at hc
  unfold Sys.step at hst
  rw [hph] at hc hst
  obtain ⟨r, hr, hst⟩ := bind_eq_ok.mp hst
  cases hst
  by_cases hdue : w.sys.hosts.icache.nextUpdate ≤ w.sys.tick
  · have hup : w.sys.updates = [.icache] := by
      unfold Sys.updates
      rw [hph]
      exact if_pos hdue
    have hlow := hc.resolve_right fun hx => not_le.mpr hx.1 hdue
    refine h.single hup rfl (fun e he hn => ?_) id
    exact (hlow e he hn).trans_lt (by decide)
  · have hup : w.sys.updates = [] := by
      unfold Sys.updates
      rw [hph]
      exact if_neg hdue
    refine h.quiet hup le_rfl fun hlog => ?_
    change (w.next _).Low 3
    unfold Low
    rw [← hlog]
    rcases hc with hlow | ⟨_, hlow⟩
    · exact fun e he hn => (hlow e he hn).trans (by decide)
    · exact hlow

private theorem ordered_core (h : Ordered w) (hph : w.sys.phase = .core)
    (hst : w.sys.step false = .ok t) : Ordered (w.next t) := by
  have hc := h.clear
  unfold Clear at hc
  unfold Sys.step at hst
  rw [hph] at hc hst
  obtain ⟨r, hr, hst⟩ := bind_eq_ok.mp hst
  cases hst
  by_cases hdue : w.sys.hosts.core.nextUpdate ≤ w.sys.tick
  · have hup : w.sys.updates = [.core] := by
      unfold Sys.updates
      rw [hph]
      exact if_pos hdue
    exact h.single hup rfl (fun e he hn => (hc e he hn).trans_lt (by decide)) fun _ => trivial
  · have hup : w.sys.updates = [] := by
      unfold Sys.updates
      rw [hph]
      exact if_neg hdue
    exact h.quiet hup le_rfl fun _ => trivial

private theorem settled_fence (hph : w.sys.phase = .sysOp)
    (hop : w.sys.inst.sysOp = Trace.SysFenceI) (hset : w.sys.settled = true) :
    ¬(w.sys.hosts.icache.nextUpdate ≤ w.sys.tick ∧ w.sys.hosts.dcache.nextUpdate ≤ w.sys.tick) ∧
      (w.sys.hosts.icache.nextUpdate ≤ w.sys.tick ∨ w.sys.hosts.dcache.nextUpdate ≤ w.sys.tick →
        (w.sys.tick : Tick) < w.sys.mem.nextUpdate) ∧
      (w.sys.hosts.icache.nextUpdate ≤ w.sys.tick → w.sys.hosts.icache.dueAgain = false ∧
        w.sys.hosts.icache.toSend.any (w.sys.mem.instant w.sys.tick ·) = false) ∧
      (w.sys.hosts.dcache.nextUpdate ≤ w.sys.tick →
        w.sys.hosts.dcache.toSend.any (w.sys.mem.instant w.sys.tick ·) = false) := by
  unfold Sys.settled at hset
  rw [hph, hop] at hset
  simp only [bne_self_eq_false, Bool.false_or, Bool.and_eq_true, Bool.not_eq_true',
    Bool.and_eq_false_iff, Bool.or_eq_false_iff, decide_eq_false_iff_not] at hset
  obtain ⟨⟨⟨hone, hmem⟩, hi⟩, hd⟩ := hset
  refine ⟨fun hx => hone.elim (fun h => h hx.1) fun h => h hx.2, fun hx => ?_, fun hx => ?_,
    fun hx => ?_⟩
  · exact not_le.mp (hmem.resolve_left fun h => hx.elim h.1 h.2)
  · exact hi.resolve_left fun h => h hx
  · exact hd.resolve_left fun h => h hx

/-- A settled `fence.i` keeps the order of its tick. -/
private theorem ordered_fenceI (h : Ordered w) (hph : w.sys.phase = .sysOp)
    (hset : w.sys.settled = true) (hwi : w.sys.hosts.icache.WellFormed)
    (hwd : w.sys.hosts.dcache.WellFormed) (hop : w.sys.inst.sysOp = Trace.SysFenceI)
    {r : Hosts S × RAMArbiter S.mem}
    (hr : Hosts.fenceI w.sys.tick (w.sys.hosts, w.sys.mem) = .ok r) :
    Ordered (w.next ({ w.sys with
      inst := { w.sys.inst with sysOp := Trace.SysNone } }.commitTo .sysOp r).loopOrHalt) := by
  have hbefore := h.clear
  unfold Clear at hbefore
  rw [hph] at hbefore
  dsimp only at hbefore
  obtain ⟨hone, hmem, hicache, hdcache⟩ := settled_fence hph hop hset
  have hup : w.sys.updates =
      (if w.sys.hosts.icache.nextUpdate ≤ w.sys.tick then [.icache] else []) ++
        if w.sys.hosts.dcache.nextUpdate ≤ w.sys.tick then [.dcache] else [] := by
    unfold Sys.updates
    rw [hph]
    exact if_pos hop
  have hlate : w.sys.hosts.icache.nextUpdate ≤ w.sys.tick ∨
      w.sys.hosts.dcache.nextUpdate ≤ w.sys.tick →
        (w.sys.tick : Tick) < r.2.nextUpdate ∧ (w.sys.tick : Tick) < r.1.dcache.nextUpdate ∧
          (w.sys.tick : Tick) < r.1.icache.nextUpdate := fun hsome =>
    Hosts.fenceI_settled hwi hwd hone hsome (hmem hsome) hicache hdcache hr
  have hone' : ∀ d : Device, w.sys.updates = [d] → d.rank ≤ 3 →
      (w.sys.hosts.icache.nextUpdate ≤ w.sys.tick ∨
        w.sys.hosts.dcache.nextUpdate ≤ w.sys.tick) → Ordered (w.next ({ w.sys with
          inst := { w.sys.inst with sysOp := Trace.SysNone } }.commitTo .sysOp r).loopOrHalt) := by
    intro d hd hrank hsome
    obtain ⟨hm, hdc, hic⟩ := hlate hsome
    refine h.single hd rfl (fun e he hn => absurd hn (hbefore e he).ne) fun hlow => ?_
    exact clear_loopOrHalt rfl (.inr ⟨hm, hdc, hic, fun e he hn => (hlow e he hn).trans hrank⟩)
  by_cases hi : w.sys.hosts.icache.nextUpdate ≤ w.sys.tick
  · have hd : ¬w.sys.hosts.dcache.nextUpdate ≤ w.sys.tick := fun hd => hone ⟨hi, hd⟩
    rw [if_pos hi, if_neg hd] at hup
    exact hone' .icache hup (by decide) (.inl hi)
  · by_cases hd : w.sys.hosts.dcache.nextUpdate ≤ w.sys.tick
    · rw [if_neg hi, if_pos hd] at hup
      exact hone' .dcache hup (by decide) (.inr hd)
    · rw [if_neg hi, if_neg hd] at hup
      exact h.quiet hup le_rfl fun hlog => clear_loopOrHalt rfl (.inl (hlog ▸ hbefore))

private theorem ordered_feed (h : Ordered w) (hph : w.sys.phase = .feed)
    (hst : w.sys.step false = .ok t) : Ordered (w.next t) := by
  have hup : w.sys.updates = [] := by
    unfold Sys.updates
    rw [hph]
  unfold Sys.step at hst
  rw [hph] at hst
  dsimp only at hst
  unfold Sys.feed at hst
  split at hst
  · split at hst
    · split at hst
      · cases hst
        exact h.quiet hup le_rfl fun _ => trivial
      · obtain ⟨r, _, hst⟩ := bind_eq_ok.mp hst
        cases hst
        exact h.quiet hup le_rfl fun _ => trivial
    · cases hst
      exact h.quiet hup le_rfl fun _ => trivial
  · cases hst
    exact h.quiet hup le_rfl fun _ => trivial

private theorem ordered_sysOp (h : Ordered w) (hph : w.sys.phase = .sysOp)
    (hset : w.sys.settled = true) (hwi : w.sys.hosts.icache.WellFormed)
    (hwd : w.sys.hosts.dcache.WellFormed) (hst : w.sys.step false = .ok t) :
    Ordered (w.next t) := by
  have hbefore := h.clear
  unfold Clear at hbefore
  rw [hph] at hbefore
  dsimp only at hbefore
  have hup : w.sys.inst.sysOp ≠ Trace.SysFenceI → w.sys.updates = [] := by
    intro hop
    unfold Sys.updates
    rw [hph]
    exact if_neg hop
  unfold Sys.step at hst
  rw [hph] at hst
  dsimp only at hst
  unfold Sys.handleSysOp at hst
  split at hst
  · rename_i hop
    cases hst
    exact h.quiet (hup (by rw [hop]; decide)) le_rfl fun hlog =>
      clear_loopOrHalt rfl (.inl (hlog ▸ hbefore))
  · split at hst
    · rename_i hop
      obtain ⟨r, hr, hst⟩ := bind_eq_ok.mp hst
      cases hst
      exact ordered_fenceI h hph hset hwi hwd hop hr
    · rename_i hop
      split at hst <;>
      · cases hst
        exact h.quiet (hup hop) le_rfl fun hlog => clear_loopOrHalt rfl (.inl (hlog ▸ hbefore))

/-- A call of the main loop keeps the order. -/
theorem Ordered.step (h : Ordered w) (hset : w.sys.settled = true)
    (hr : w.sys.Reachable) (hst : w.sys.step false = .ok t) : Ordered (w.next t) := by
  have hnone : ∀ p, w.sys.phase = p → p = .bypass ∨ p = .clock ∨ p = .halted →
      w.sys.updates = [] := by
    rintro p hp (rfl | rfl | rfl) <;>
    · unfold Sys.updates
      rw [hp]
  cases hph : w.sys.phase with
  | memory => exact ordered_memory h hph hst
  | bypass =>
    have hc := h.clear
    unfold Clear at hc
    have hup := hnone _ hph (.inl rfl)
    unfold Sys.step at hst
    rw [hph] at hst hc
    cases hst
    refine h.quiet hup le_rfl fun hlog => ?_
    change (w.next _).Low 0 ∨ _
    unfold Low
    rw [← hlog]
    exact hc
  | dcache => exact ordered_dcache h hph hst
  | icache => exact ordered_icache h hph hst
  | core => exact ordered_core h hph hst
  | feed => exact ordered_feed h hph hst
  | clock =>
    have hup := hnone _ hph (.inr (.inl rfl))
    unfold Sys.step at hst
    rw [hph] at hst
    cases hst
    refine h.quiet hup (Nat.le_succ _) fun hlog => ?_
    change ∀ e ∈ (w.next _).log, e.1 < w.sys.tick + 1
    rw [← hlog]
    exact fun e he => Nat.lt_succ_of_le (h.bound e he)
  | sysOp => exact ordered_sysOp h hph hset hr.icache_wellFormed hr.dcache_wellFormed hst
  | halted =>
    have hup := hnone _ hph (.inr (.inr rfl))
    unfold Sys.step at hst
    rw [hph] at hst
    cases hst
    refine h.quiet hup le_rfl fun _ => ?_
    unfold Clear
    rw [show (w.next w.sys).sys.phase = .halted from hph]
    exact trivial

end Watch

end NpSim.System
