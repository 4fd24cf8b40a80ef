/- digest: What a call of the main loop can change: relations between hosts that every elementary
   action respects, invariants of the reachable states, and the
   instruction cache of a reachable state. -/

import NpSim.Cache.Tail
import NpSim.System.Core

set_option autoImplicit false
set_option relaxedAutoImplicit false

namespace NpSim.System

open NpSim.Lib.Partial NpSim.Cache NpSim.Mem NpSim.Pipe

variable {S : Config} {now : Nat}

/-- A relation between hosts that holds across each elementary action of tick `now`, the updates of
the core and of the caches apart. -/
structure ActionFrame (now : Nat) (R : Hosts S → Hosts S → Prop) : Prop where
  refl : ∀ h, R h h
  trans : ∀ a b d, R a b → R b d → R a d
  resp : ∀ h c t, h.core.recvMemResp now t = .ok c → R h { h with core := c }
  ack : ∀ h c a, h.core.ackMemAvail now a = .ok c → R h { h with core := c }
  sent : ∀ h, R h { h with core := { h.core with calls := [] } }
  recv : ∀ h c m, h.icache.recvMemResp now m = .ok c → R h { h with icache := c }
  read : ∀ h c addr, h.icache.readReq now addr = .ok c → R h { h with icache := c }
  answer : ∀ h d m outs, h.dcache.recvMemResp now m = .ok (d, outs) → R h { h with dcache := d }
  request : ∀ h d op addr data strb outs,
    h.dcache.request now op addr data strb = .ok (d, outs) → R h { h with dcache := d }
  bypass : ∀ h d, R h { h with bypass := d }

namespace ActionFrame

variable {R : Hosts S → Hosts S → Prop} {s t : Hosts S × RAMArbiter S.mem}

theorem deliverOne (hR : ActionFrame now R) {out : CacheOut}
    (h : Hosts.deliverOne now s out = .ok t) : R s.1 t.1 := by
  cases out with
  | cpuResp r =>
    obtain ⟨c, hc, h⟩ := bind_eq_ok.mp h
    cases h
    exact hR.resp _ _ _ hc
  | cpuAck a =>
    obtain ⟨c, hc, h⟩ := bind_eq_ok.mp h
    cases h
    exact hR.ack _ _ _ hc
  | memReq m =>
    obtain ⟨c, hc, h⟩ := bind_eq_ok.mp h
    cases h
    exact hR.refl _

theorem deliver (hR : ActionFrame now R) {outs : List CacheOut}
    (h : Hosts.deliver now outs s = .ok t) : R s.1 t.1 := by
  unfold Hosts.deliver at h
  induction outs generalizing s with
  | nil =>
    cases h
    exact hR.refl _
  | cons out outs ih =>
    simp only [List.foldlM_cons] at h
    obtain ⟨r, hr, h⟩ := bind_eq_ok.mp h
    exact hR.trans _ _ _ (hR.deliverOne hr) (ih h)

theorem recvMemResp (hR : ActionFrame now R) {id : Nat} {m : MemTrans}
    (h : Hosts.recvMemResp now id m s = .ok t) : R s.1 t.1 := by
  unfold Hosts.recvMemResp at h
  split at h
  · obtain ⟨c, hc, h⟩ := bind_eq_ok.mp h
    cases h
    exact hR.recv _ _ _ hc
  · split at h
    · obtain ⟨⟨d, outs⟩, hd, h⟩ := bind_eq_ok.mp h
      exact hR.trans _ _ _ (hR.answer s.1 d m outs hd) (hR.deliver h)
    · obtain ⟨⟨d, outs⟩, _, h⟩ := bind_eq_ok.mp h
      exact hR.trans _ _ _ (hR.bypass s.1 d) (hR.deliver h)

theorem callOne (hR : ActionFrame now R) {call : PortCall}
    (h : Hosts.callOne now s call = .ok t) : R s.1 t.1 := by
  cases call with
  | fetch addr =>
    obtain ⟨c, hc, h⟩ := bind_eq_ok.mp h
    cases h
    exact hR.read _ _ _ hc
  | lsu nc op addr data strb =>
    cases nc with
    | false =>
      obtain ⟨⟨d, outs⟩, hd, h⟩ := bind_eq_ok.mp h
      exact hR.trans _ _ _ (hR.request s.1 d _ _ _ _ outs hd) (hR.deliver h)
    | true =>
      cases op <;>
      · obtain ⟨⟨d, m⟩, _, h⟩ := bind_eq_ok.mp h
        obtain ⟨_, _, h⟩ := bind_eq_ok.mp h
        cases h
        exact hR.bypass s.1 d

theorem callAll (hR : ActionFrame now R) {calls : List PortCall}
    (h : calls.foldlM (Hosts.callOne now) s = .ok t) : R s.1 t.1 := by
  induction calls generalizing s with
  | nil =>
    cases h
    exact hR.refl _
  | cons call calls ih =>
    simp only [List.foldlM_cons] at h
    obtain ⟨r, hr, h⟩ := bind_eq_ok.mp h
    exact hR.trans _ _ _ (hR.callOne hr) (ih h)

theorem runCalls (hR : ActionFrame now R) (h : Hosts.runCalls now s = .ok t) : R s.1 t.1 := by
  unfold Hosts.runCalls at h
  exact hR.trans _ _ _ (hR.sent s.1) (hR.callAll h)

theorem updateIcache (hR : ActionFrame now R) (h : Hosts.updateIcache now s = .ok t) :
    ∃ c outs, s.1.icache.doUpdate now = .ok (c, outs) ∧ R { s.1 with icache := c } t.1 := by
  obtain ⟨⟨c, outs⟩, hc, h⟩ := bind_eq_ok.mp h
  exact ⟨c, outs, hc, hR.deliver h⟩

theorem updateDcache (hR : ActionFrame now R) (h : Hosts.updateDcache now s = .ok t) :
    ∃ d outs, s.1.dcache.doUpdate now = .ok (d, outs) ∧ R { s.1 with dcache := d } t.1 := by
  obtain ⟨⟨d, outs⟩, hd, h⟩ := bind_eq_ok.mp h
  exact ⟨d, outs, hd, hR.deliver h⟩

theorem updateMemory (hR : ActionFrame now R)
    (h : RAMArbiter.doUpdate now (Hosts.recvMemResp now) s = .ok t) : R s.1 t.1 :=
  RAMArbiter.doUpdate_host hR.refl hR.trans (fun _ _ _ _ _ hr => hR.recvMemResp hr) h

end ActionFrame

/-- A relation between hosts that holds across each elementary action of tick `now`, updates of the
core and of the instruction cache apart. -/
structure HostFrame (now : Nat) (R : Hosts S → Hosts S → Prop) : Prop where
  refl : ∀ h, R h h
  trans : ∀ a b d, R a b → R b d → R a d
  resp : ∀ h c t, h.core.recvMemResp now t = .ok c → R h { h with core := c }
  ack : ∀ h c a, h.core.ackMemAvail now a = .ok c → R h { h with core := c }
  sent : ∀ h, R h { h with core := { h.core with calls := [] } }
  recv : ∀ h c m, h.icache.recvMemResp now m = .ok c → R h { h with icache := c }
  read : ∀ h c addr, h.icache.readReq now addr = .ok c → R h { h with icache := c }
  dcache : ∀ h d, R h { h with dcache := d }
  bypass : ∀ h d, R h { h with bypass := d }

namespace HostFrame

variable {R : Hosts S → Hosts S → Prop} {s t : Hosts S × RAMArbiter S.mem}

theorem action (hR : HostFrame now R) : ActionFrame now R :=
  ⟨hR.refl, hR.trans, hR.resp, hR.ack, hR.sent, hR.recv, hR.read, fun h d _ _ _ => hR.dcache h d,
    fun h d _ _ _ _ _ _ => hR.dcache h d, hR.bypass⟩

theorem deliver (hR : HostFrame now R) {outs : List CacheOut}
    (h : Hosts.deliver now outs s = .ok t) : R s.1 t.1 :=
  hR.action.deliver h

theorem runCalls (hR : HostFrame now R) (h : Hosts.runCalls now s = .ok t) : R s.1 t.1 :=
  hR.action.runCalls h

theorem updateDcache (hR : HostFrame now R) (h : Hosts.updateDcache now s = .ok t) :
    R s.1 t.1 := by
  obtain ⟨d, _, _, hlast⟩ := hR.action.updateDcache h
  exact hR.trans _ _ _ (hR.dcache s.1 d) hlast

theorem updateIcache (hR : HostFrame now R) (h : Hosts.updateIcache now s = .ok t) :
    ∃ c outs, s.1.icache.doUpdate now = .ok (c, outs) ∧ R { s.1 with icache := c } t.1 :=
  hR.action.updateIcache h

theorem updateMemory (hR : HostFrame now R)
    (h : RAMArbiter.doUpdate now (Hosts.recvMemResp now) s = .ok t) : R s.1 t.1 :=
  hR.action.updateMemory h

end HostFrame

/-- A property of the hosts that every call of the main loop keeps. -/
structure Kept (I : Hosts S → Prop) : Prop where
  frame : ∀ now, ActionFrame now fun h h' => I h → I h'
  core : ∀ now h c, h.core.doUpdate now h.ports = .ok c → I h →
    I { h with core := { c with calls := [] } }
  feed : ∀ now h c inst, h.core.feedInst now h.ports.imem inst = .ok c → I h →
    I { h with core := { c with calls := [] } }
  drain : ∀ h, I h → I { h with core := h.core.setDraining }
  icache : ∀ now h c outs, h.icache.doUpdate now = .ok (c, outs) → I h → I { h with icache := c }
  dcache : ∀ now h d outs, h.dcache.doUpdate now = .ok (d, outs) → I h → I { h with dcache := d }
  flush : ∀ h, I h → I { h with icache := h.icache.flushAll, dcache := h.dcache.flushAll }
  reset : ∀ now h, I h → I (h.resetStats now)

namespace Kept

variable {I : Hosts S → Prop} {s t : Hosts S × RAMArbiter S.mem}

private theorem updateIcache (hI : Kept I) (h : Hosts.updateIcache now s = .ok t) (hs : I s.1) :
    I t.1 := by
  obtain ⟨c, outs, hc, hR⟩ := (hI.frame now).updateIcache h
  exact hR (hI.icache now _ _ _ hc hs)

private theorem updateDcache (hI : Kept I) (h : Hosts.updateDcache now s = .ok t) (hs : I s.1) :
    I t.1 := by
  obtain ⟨d, outs, hd, hR⟩ := (hI.frame now).updateDcache h
  exact hR (hI.dcache now _ _ _ hd hs)

private theorem feedBlock {s t : Sys S} (hI : Kept I) (h : s.feed = .ok t) (hs : I s.hosts) :
    I t.hosts := by
  unfold Sys.feed at h
  split at h
  · split at h
    · split at h
      · cases h
        exact hI.drain _ hs
      · obtain ⟨r, hr, h⟩ := bind_eq_ok.mp h
        cases h
        obtain ⟨c, hc, hr⟩ := bind_eq_ok.mp hr
        exact (hI.frame s.tick).callAll hr (hI.feed s.tick s.hosts c _ hc hs)
    · cases h
      exact hI.drain _ hs
  · cases h
    exact hs

private theorem sysOp {s t : Sys S} (hI : Kept I) (h : s.handleSysOp = .ok t) (hs : I s.hosts) :
    I t.hosts := by
  unfold Sys.handleSysOp at h
  split at h
  · cases h
    exact hI.reset s.tick _ hs
  · split at h
    · obtain ⟨r, hr, h⟩ := bind_eq_ok.mp h
      cases h
      obtain ⟨q, hq, hr⟩ := bind_eq_ok.mp hr
      exact hI.updateDcache hr (hI.updateIcache hq (hI.flush _ hs))
    · split at h <;>
      · cases h
        exact hs

theorem step {s t : Sys S} (hI : Kept I) (hs : I s.hosts) (h : s.step false = .ok t) :
    I t.hosts := by
  unfold Sys.step at h
  split at h
  · obtain ⟨r, hr, h⟩ := bind_eq_ok.mp h
    cases h
    exact (hI.frame s.tick).updateMemory hr hs
  · cases h
    exact hs
  · obtain ⟨r, hr, h⟩ := bind_eq_ok.mp h
    cases h
    exact hI.updateDcache hr hs
  · obtain ⟨r, hr, h⟩ := bind_eq_ok.mp h
    cases h
    exact hI.updateIcache hr hs
  · obtain ⟨r, hr, h⟩ := bind_eq_ok.mp h
    cases h
    obtain ⟨c, hc, hr⟩ := bind_eq_ok.mp hr
    exact (hI.frame s.tick).callAll hr (hI.core s.tick s.hosts c hc hs)
  · exact hI.feedBlock h hs
  · cases h
    exact hs
  · exact hI.sysOp h hs
  · cases h
    exact hs

end Kept

namespace Sys

/-- An invariant of the initial states and of every call of the main loop. -/
theorem Reachable.invariant {I : Sys S → Prop}
    (start : ∀ trace inst nxt, I (init S trace inst nxt))
    (next : ∀ s t, I s → s.step false = .ok t → I t) {s : Sys S} (h : s.Reachable) : I s := by
  obtain ⟨trace, inst, nxt, n, hrun⟩ := h
  have hall : ∀ (n : Nat) (a b : Sys S), I a → run false n a = .ok b → I b := by
    intro n
    induction n with
    | zero =>
      intro a b ha hab
      cases hab
      exact ha
    | succ n ih =>
      intro a b ha hab
      obtain ⟨d, hd, hab⟩ := bind_eq_ok.mp hab
      exact ih d b (next a d ha hd) hab
  exact hall n _ s (start trace inst nxt) hrun

theorem Reachable.step {s t : Sys S} (h : s.Reachable) (hst : s.step false = .ok t) :
    t.Reachable := by
  obtain ⟨trace, inst, nxt, n, hrun⟩ := h
  refine ⟨trace, inst, nxt, n + 1, ?_⟩
  have hall : ∀ (n : Nat) (a : Sys S), run false n a = .ok s → run false (n + 1) a = .ok t := by
    intro n
    induction n with
    | zero =>
      intro a ha
      cases ha
      unfold run
      rw [hst]
      rfl
    | succ n ih =>
      intro a ha
      obtain ⟨d, hd, ha⟩ := bind_eq_ok.mp ha
      have := ih d ha
      unfold run
      rw [hd]
      exact this
  exact hall n _ hrun

/-- A property of the initial hosts that every call keeps. -/
theorem Reachable.kept {I : Hosts S → Prop} (hI : Kept I)
    (start : ∀ trace inst nxt, I (init S trace inst nxt).hosts) {s : Sys S} (h : s.Reachable) :
    I s.hosts :=
  h.invariant start fun _ _ hs hst => hI.step hs hst

private theorem icache_kept : Kept (S := S) fun h => h.icache.WellFormed where
  frame _ :=
    { refl := fun _ hw => hw
      trans := fun _ _ _ hab hbd hw => hbd (hab hw)
      resp := fun _ _ _ _ hw => hw
      ack := fun _ _ _ _ hw => hw
      sent := fun _ hw => hw
      recv := fun _ _ _ hr hw => (hw.recvMemResp hr).1
      read := fun _ _ _ hr hw => (hw.enqueue ⟨rfl, rfl, rfl, rfl⟩ hr).1
      answer := fun _ _ _ _ _ hw => hw
      request := fun _ _ _ _ _ _ _ _ hw => hw
      bypass := fun _ _ hw => hw }
  core _ _ _ _ hw := hw
  feed _ _ _ _ _ hw := hw
  drain _ hw := hw
  icache _ _ _ _ hc hw := (hw.doUpdate hc).1
  dcache _ _ _ _ _ hw := hw
  flush _ hw := hw.flushAll
  reset _ _ hw := hw.resetStats.resetPrefetcher

theorem Reachable.icache_wellFormed {s : Sys S} (h : s.Reachable) : s.hosts.icache.WellFormed :=
  h.kept icache_kept fun _ _ _ => PipeCache.wellFormed_init

private theorem calls_kept : Kept (S := S) fun h => h.core.calls = [] where
  frame _ :=
    { refl := fun _ hc => hc
      trans := fun _ _ _ hab hbd hc => hbd (hab hc)
      resp := fun _ _ _ hr hc => (Pipeline.recvMemResp_calls hr).trans hc
      ack := fun _ _ _ ha hc => (Pipeline.ackMemAvail_calls ha).trans hc
      sent := fun _ _ => rfl
      recv := fun _ _ _ _ hc => hc
      read := fun _ _ _ _ hc => hc
      answer := fun _ _ _ _ _ hc => hc
      request := fun _ _ _ _ _ _ _ _ hc => hc
      bypass := fun _ _ hc => hc }
  core _ _ _ _ _ := rfl
  feed _ _ _ _ _ _ := rfl
  drain _ hc := hc
  icache _ _ _ _ _ hc := hc
  dcache _ _ _ _ _ hc := hc
  flush _ hc := hc
  reset _ _ hc := hc

theorem Reachable.no_calls {s : Sys S} (h : s.Reachable) : s.hosts.core.calls = [] :=
  h.kept calls_kept fun _ _ _ => rfl

end Sys

theorem Config.icache_immediate (S : Config) : PipeCache.Immediate S.icache := by
  unfold PipeCache.Immediate
  rw [S.icache_writeThrough]
  rfl

theorem Config.dcache_immediate (S : Config) : PipeCache.Immediate S.dcache := by
  unfold PipeCache.Immediate
  rw [S.dcache_writeBack, S.dcache_delay]
  rfl

def DataPort.WellFormed {P : CacheParams} : DataPort P → Prop
  | .cached c => c.WellFormed
  | .uncached _ => True

namespace DataPort

variable {P : CacheParams} {d d' : DataPort P} {outs : List CacheOut}

theorem WellFormed.doUpdate (h : d.WellFormed) (hx : d.doUpdate now = .ok (d', outs)) :
    d'.WellFormed := by
  cases d with
  | uncached c =>
    cases hx
    exact trivial
  | cached c =>
    obtain ⟨⟨c', o⟩, hc, hx⟩ := bind_eq_ok.mp hx
    cases hx
    have hw : c.WellFormed := h
    exact (hw.doUpdate hc).1

theorem WellFormed.recvMemResp {m : MemTrans} (h : d.WellFormed)
    (hx : d.recvMemResp now m = .ok (d', outs)) : d'.WellFormed := by
  cases d with
  | uncached c =>
    obtain ⟨⟨c', o⟩, _, hx⟩ := bind_eq_ok.mp hx
    cases hx
    exact trivial
  | cached c =>
    obtain ⟨c', hc, hx⟩ := bind_eq_ok.mp hx
    cases hx
    have hw : c.WellFormed := h
    exact (hw.recvMemResp hc).1

theorem WellFormed.request {op : MemRWOpt} {addr : Addr} {data : Word} {strb : BitVec 8}
    (hwb : P.writeBack = true) (h : d.WellFormed)
    (hx : d.request now op addr data strb = .ok (d', outs)) : d'.WellFormed := by
  cases d with
  | uncached c =>
    cases op <;>
    · obtain ⟨⟨c', m⟩, _, hx⟩ := bind_eq_ok.mp hx
      cases hx
      exact trivial
  | cached c =>
    have hw : c.WellFormed := h
    cases op with
    | read =>
      obtain ⟨c', hc, hx⟩ := bind_eq_ok.mp hx
      cases hx
      exact (hw.enqueue ⟨rfl, rfl, rfl, rfl⟩ hc).1
    | write =>
      obtain ⟨⟨c', o⟩, hc, hx⟩ := bind_eq_ok.mp hx
      cases hx
      unfold PipeCache.writeReq at hc
      rw [if_pos hwb] at hc
      obtain ⟨e, he, hc⟩ := bind_eq_ok.mp hc
      cases hc
      exact (hw.enqueue ⟨rfl, rfl, rfl, rfl⟩ he).1

theorem WellFormed.flushAll (h : d.WellFormed) : d.flushAll.WellFormed := by
  cases d with
  | uncached c => exact trivial
  | cached c => exact PipeCache.WellFormed.flushAll h

theorem WellFormed.resetStats (h : d.WellFormed) : d.resetStats.WellFormed := by
  cases d with
  | uncached c => exact trivial
  | cached c => exact PipeCache.WellFormed.resetStats h

end DataPort

namespace Sys

private theorem dcache_kept : Kept (S := S) fun h => h.dcache.WellFormed where
  frame _ :=
    { refl := fun _ hw => hw
      trans := fun _ _ _ hab hbd hw => hbd (hab hw)
      resp := fun _ _ _ _ hw => hw
      ack := fun _ _ _ _ hw => hw
      sent := fun _ hw => hw
      recv := fun _ _ _ _ hw => hw
      read := fun _ _ _ _ hw => hw
      answer := fun _ _ _ _ hx hw => hw.recvMemResp hx
      request := fun _ _ _ _ _ _ _ hx hw => hw.request S.dcache_writeBack hx
      bypass := fun _ _ hw => hw }
  core _ _ _ _ hw := hw
  feed _ _ _ _ _ hw := hw
  drain _ hw := hw
  icache _ _ _ _ _ hw := hw
  dcache _ _ _ _ hd hw := hw.doUpdate hd
  flush _ hw := hw.flushAll
  reset _ _ hw := hw.resetStats

theorem Reachable.dcache_wellFormed {s : Sys S} (h : s.Reachable) : s.hosts.dcache.WellFormed := by
  refine h.kept dcache_kept fun _ _ _ => ?_
  unfold init
  dsimp only
  split
  · exact PipeCache.wellFormed_init
  · exact trivial

end Sys

end NpSim.System
