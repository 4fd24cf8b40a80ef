/- digest: The caches of the assembled simulator are caches under test: every call of the main loop
   is followed by runs of the benches of its two caches. -/

import NpSim.Cache.Tallies
import NpSim.System.Handshakes

set_option autoImplicit false
set_option relaxedAutoImplicit false

namespace NpSim.Cache

open NpSim.Lib.Partial NpSim.Lib.Pairs Relation

variable {P : CacheParams}

/-- A call on the cache under test, or a tick. -/
def Bench.Next (b b' : Bench P) : Prop := ∃ l, Bench.Step b l b'

/-- The memory of the bench has a request of kind `op` to answer, a read one for `addr`. -/
def Bench.Awaits (b : Bench P) (op : MemRWOpt) (addr : Addr) : Prop :=
  ∃ m ∈ b.outstanding, m.mop = op ∧ (op = .read → m.addr = addr)

/-- At tick `now` the cache `c` is the one under test, but for its counters. -/
structure Bench.Shows (b : Bench P) (now : Nat) (c : PipeCache P) : Prop where
  reachable : b.Reachable
  now : b.now = now
  twin : PipeCache.Twin b.cache c

namespace Bench.Shows

variable {b : Bench P} {c c' : PipeCache P} {now : Nat} {outs : List CacheOut}

theorem init : Shows ({} : Bench P) 0 {} := ⟨.refl, rfl, .refl _⟩

private theorem step {l : Label} {b' : Bench P} (h : Shows b now c) (hs : Step b l b')
    (hnow : b'.now = b.now) (ht : PipeCache.Twin b'.cache c') :
    ∃ b', ReflTransGen Next b b' ∧ Shows b' now c' :=
  ⟨b', .single ⟨l, hs⟩, h.reachable.tail ⟨l, hs⟩, hnow.trans h.now, ht⟩

theorem tick (h : Shows b now c) : ∃ b', ReflTransGen Next b b' ∧ Shows b' (now + 1) c := by
  refine ⟨_, .single ⟨_, .tick⟩, h.reachable.tail ⟨_, .tick⟩, ?_, h.twin⟩
  exact congrArg (· + 1) h.now

theorem read {addr : Addr} (h : Shows b now c) (hx : c.readReq now addr = .ok c') :
    ∃ b', ReflTransGen Next b b' ∧ Shows b' now c' := by
  obtain ⟨d, hd, ht⟩ := (h.twin.readReq addr).of_right hx
  rw [← h.now] at hd
  exact h.step (.read addr hd) rfl ht

theorem write {addr : Addr} {data : Word} {mask : BitVec 8} (hwb : P.writeBack = true)
    (h : Shows b now c) (hx : c.writeReq now addr data mask = .ok (c', outs)) :
    ∃ b', ReflTransGen Next b b' ∧ Shows b' now c' := by
  obtain ⟨⟨d, o⟩, hd, ht, _⟩ := (h.twin.writeReq addr data mask).of_right hx
  rw [← h.now] at hd
  exact h.step (.write addr data mask hwb hd) rfl ht

theorem update (h : Shows b now c) (hx : c.doUpdate now = .ok (c', outs)) :
    ∃ b', ReflTransGen Next b b' ∧ Shows b' now c' := by
  obtain ⟨⟨d, o⟩, hd, ht, _⟩ := h.twin.doUpdate.of_right hx
  rw [← h.now] at hd
  exact h.step (.update hd) rfl ht

theorem flushAll (h : Shows b now c) : ∃ b', ReflTransGen Next b b' ∧ Shows b' now c.flushAll :=
  h.step .flushAll rfl h.twin.flushAll

theorem resetStats (h : Shows b now c) :
    ∃ b', ReflTransGen Next b b' ∧ Shows b' now c.resetStats :=
  h.step .resetStats rfl h.twin.resetStats

/-- The prefetcher's counters are not the cache's: the bench need not reset them. -/
theorem resetPrefetcher (h : Shows b now c) : Shows b now c.resetPrefetcher :=
  ⟨h.reachable, h.now, by
    obtain ⟨_, _, ht⟩ := h
    cases ht with
    | mk t => exact .mk { t with prefetchIssued := 0, prefetchUseful := 0 }⟩

private theorem answer_congr {m m' : MemTrans} (hop : m'.mop = m.mop)
    (haddr : m.mop = .read → m'.addr = m.addr) (hdata : m'.data = m.data)
    (hx : c.recvMemResp now m = .ok c') : c.recvMemResp now m' = .ok c' := by
  cases hm : m.mop with
  | read =>
    rw [PipeCache.recvRead_eq_ok hm] at hx
    rw [PipeCache.recvRead_eq_ok (hop.trans hm), haddr hm, hdata]
    exact hx
  | write =>
    rw [PipeCache.recvWrite_eq_ok hm] at hx
    rw [PipeCache.recvWrite_eq_ok (hop.trans hm)]
    exact hx

theorem awaits {op : MemRWOpt} {addr : Addr} (h : Shows b now c) (ha : 0 < c.awaits op)
    (hr : op = .read → addr ∈ c.readsOwed) : b.Awaits op addr := by
  have hsound := h.reachable.sound
  have howed : b.cache.readsOwed = c.readsOwed ∧ b.cache.writesOwed = c.writesOwed := by
    obtain ⟨_, _, htwin⟩ := h
    cases htwin
    exact ⟨rfl, rfl⟩
  cases op with
  | read =>
    have hmem : addr ∈ (b.outstanding.filter (·.mop = .read)).map (·.addr) := by
      rw [hsound.waitsRead, howed.1]
      exact hr rfl
    obtain ⟨m, hm, haddr⟩ := List.mem_map.mp hmem
    obtain ⟨hin, hread⟩ := List.mem_filter.mp hm
    exact ⟨m, hin, of_decide_eq_true hread, fun _ => haddr⟩
  | write =>
    have hlen : 0 < (b.outstanding.filter (·.mop = .write)).length := by
      rw [hsound.waitsWrite, howed.2]
      exact ha
    obtain ⟨m, hm⟩ := List.exists_mem_of_length_pos hlen
    obtain ⟨hin, hwrite⟩ := List.mem_filter.mp hm
    exact ⟨m, hin, of_decide_eq_true hwrite, fun hread => nomatch hread⟩

theorem answer {m : MemTrans} (h : Shows b now c) (ho : m.mop = .read → m.addr ∈ c.readsOwed)
    (hx : c.recvMemResp now m = .ok c') : ∃ b', ReflTransGen Next b b' ∧ Shows b' now c' := by
  obtain ⟨d, hd, ht⟩ := (h.twin.recvMemResp m).of_right hx
  have hpos : 0 < c.awaits m.mop := by
    cases hop : m.mop with
    | read => exact List.length_pos_of_mem (ho hop)
    | write =>
      have htraffic := PipeCache.recvMemResp_traffic hx
      rw [hop] at htraffic
      change 0 < c.writesOwed
      rw [htraffic.2.1]
      exact Nat.one_pos
  obtain ⟨m₀, hin, hmop, haddr⟩ := h.awaits hpos ho
  have hd' : b.cache.recvMemResp b.now { m₀ with dir := .resp, data := m.data } = .ok d := by
    rw [h.now]
    exact answer_congr hmop haddr rfl hd
  exact h.step (.answer m₀ m.data hin hd') rfl ht

end Bench.Shows

end NpSim.Cache

namespace NpSim.System

open NpSim.Lib.Partial NpSim.Cache NpSim.Cache.Bench NpSim.Mem NpSim.Pipe NpSim.Pipe.Pipeline
  Relation

variable {S : Config}

/-- The port is the cache under test; without a cache there is nothing to test. -/
def DataPort.On (d : Bench S.dcache) (now : Nat) : DataPort S.dcache → Prop
  | .cached c => Shows d now c
  | .uncached _ => True

namespace DataPort.On

variable {d : Bench S.dcache} {p q : DataPort S.dcache} {now : Nat} {outs : List CacheOut}

theorem tick (h : p.On d now) : ∃ d', ReflTransGen Next d d' ∧ p.On d' (now + 1) := by
  cases p with
  | cached c => exact Shows.tick h
  | uncached c => exact ⟨d, .refl, trivial⟩

theorem request {op : MemRWOpt} {addr : Addr} {data : Word} {strb : BitVec 8} (h : p.On d now)
    (hx : p.request now op addr data strb = .ok (q, outs)) :
    ∃ d', ReflTransGen Next d d' ∧ q.On d' now := by
  cases p with
  | uncached c =>
    cases op <;>
    · obtain ⟨_, _, hx⟩ := bind_eq_ok.mp hx
      cases hx
      exact ⟨d, .refl, trivial⟩
  | cached c =>
    have hs : Shows d now c := h
    cases op with
    | read =>
      obtain ⟨c', hc, hx⟩ := bind_eq_ok.mp hx
      cases hx
      exact hs.read hc
    | write =>
      obtain ⟨⟨c', o⟩, hc, hx⟩ := bind_eq_ok.mp hx
      cases hx
      exact hs.write S.dcache_writeBack hc

theorem doUpdate (h : p.On d now) (hx : p.doUpdate now = .ok (q, outs)) :
    ∃ d', ReflTransGen Next d d' ∧ q.On d' now := by
  cases p with
  | uncached c =>
    cases hx
    exact ⟨d, .refl, trivial⟩
  | cached c =>
    have hs : Shows d now c := h
    obtain ⟨⟨c', o⟩, hc, hx⟩ := bind_eq_ok.mp hx
    cases hx
    exact hs.update hc

theorem recvMemResp {m : MemTrans} (h : p.On d now) (ho : m.mop = .read → p.Owes m.addr)
    (hx : p.recvMemResp now m = .ok (q, outs)) : ∃ d', ReflTransGen Next d d' ∧ q.On d' now := by
  cases p with
  | uncached c =>
    obtain ⟨_, _, hx⟩ := bind_eq_ok.mp hx
    cases hx
    exact ⟨d, .refl, trivial⟩
  | cached c =>
    have hs : Shows d now c := h
    obtain ⟨c', hc, hx⟩ := bind_eq_ok.mp hx
    cases hx
    exact hs.answer ho hc

theorem flushAll (h : p.On d now) : ∃ d', ReflTransGen Next d d' ∧ p.flushAll.On d' now := by
  cases p with
  | uncached c => exact ⟨d, .refl, trivial⟩
  | cached c => exact Shows.flushAll h

theorem resetStats (h : p.On d now) : ∃ d', ReflTransGen Next d d' ∧ p.resetStats.On d' now := by
  cases p with
  | uncached c => exact ⟨d, .refl, trivial⟩
  | cached c => exact Shows.resetStats h

end DataPort.On

/-- The benches of the two caches. -/
abbrev Benches (S : Config) := Bench S.icache × Bench S.dcache

/-- A step of one of the benches. -/
inductive Benches.Next (p : Benches S) : Benches S → Prop
  | icache {b : Bench S.icache} (h : Bench.Next p.1 b) : Next p (b, p.2)
  | dcache {d : Bench S.dcache} (h : Bench.Next p.2 d) : Next p (p.1, d)

/-- The caches of the system are those on the benches. -/
structure OnBench (w : Wire S) (p : Benches S) : Prop where
  icache : Shows p.1 w.now w.hosts.icache
  dcache : w.hosts.dcache.On p.2 w.now

namespace OnBench

variable {w w' : Wire S} {p : Benches S}

private theorem runs {b : Bench S.icache} {d : Bench S.dcache}
    (hb : ReflTransGen Bench.Next p.1 b) (hd : ReflTransGen Bench.Next p.2 d) :
    ReflTransGen Benches.Next p (b, d) := by
  have hi : ReflTransGen Benches.Next p (b, p.2) :=
    hb.lift' (fun x => (x, p.2)) fun _ _ h => .single (.icache h)
  exact hi.trans (hd.lift' (fun x => (b, x)) fun _ _ h => .single (.dcache h))

private theorem kept (h : OnBench w p) (hn : w'.now = w.now)
    (hi : w'.hosts.icache = w.hosts.icache) (hd : w'.hosts.dcache = w.hosts.dcache) :
    ∃ q, ReflTransGen Benches.Next p q ∧ OnBench w' q := by
  refine ⟨p, .refl, ?_, ?_⟩
  · rw [hn, hi]
    exact h.icache
  · rw [hn, hd]
    exact h.dcache

private theorem both (hi : ∃ b, ReflTransGen Bench.Next p.1 b ∧ Shows b w'.now w'.hosts.icache)
    (hd : ∃ d, ReflTransGen Bench.Next p.2 d ∧ w'.hosts.dcache.On d w'.now) :
    ∃ q, ReflTransGen Benches.Next p q ∧ OnBench w' q := by
  obtain ⟨b, hb, hi⟩ := hi
  obtain ⟨d, hd, hon⟩ := hd
  exact ⟨(b, d), runs hb hd, hi, hon⟩

private theorem receive {k : Nat} {m : MemTrans} {hosts : Hosts S} {outs : List CacheOut}
    {mem : RAMArbiter S.mem} {comp : Option MemRWOpt} (h : OnBench w p)
    (ho : m.mop = .read → w.hosts.Owes m.addr k)
    (hr : w.hosts.receive w.now k m = .ok (hosts, outs)) :
    ∃ q, ReflTransGen Benches.Next p q ∧
      OnBench { w with hosts := hosts, outs := outs, comp := comp, mem := mem } q := by
  unfold Hosts.receive at hr
  split at hr
  · rename_i hk
    obtain ⟨c, hc, hr⟩ := bind_eq_ok.mp hr
    cases hr
    subst hk
    exact both (h.icache.answer ho hc) ⟨_, .refl, h.dcache⟩
  · split at hr
    · rename_i hk
      obtain ⟨⟨d, o⟩, hd, hr⟩ := bind_eq_ok.mp hr
      cases hr
      subst hk
      exact both ⟨_, .refl, h.icache⟩ (h.dcache.recvMemResp ho hd)
    · obtain ⟨⟨b, o⟩, _, hr⟩ := bind_eq_ok.mp hr
      cases hr
      exact h.kept rfl rfl rfl

/-- The benches follow every action of the system. -/
theorem act {ok : Nat → DataPort S.dcache → Prop} (ha : Act ok w w') (hs : Secure w)
    (h : OnBench w p) : ∃ q, ReflTransGen Benches.Next p q ∧ OnBench w' q := by
  cases ha with
  | tick hq => exact both h.icache.tick h.dcache.tick
  | resp ho hc => exact h.kept rfl rfl rfl
  | ack ho hc => exact h.kept rfl rfl rfl
  | send ho hm => exact h.kept rfl rfl rfl
  | core hq hc => exact h.kept rfl rfl rfl
  | take hq => exact h.kept rfl rfl rfl
  | fetch ho hc hx => exact both (h.icache.read hx) ⟨_, .refl, h.dcache⟩
  | request ho hc hx => exact both ⟨_, .refl, h.icache⟩ (h.dcache.request hx)
  | bypass ho hc hx => exact h.kept rfl rfl rfl
  | dcache hq hok hx => exact both ⟨_, .refl, h.icache⟩ (h.dcache.doUpdate hx)
  | icache hq hx => exact both (h.icache.update hx) ⟨_, .refl, h.dcache⟩
  | flush hq => exact both h.icache.flushAll h.dcache.flushAll
  | reset hq =>
    obtain ⟨b, hb, hi⟩ := h.icache.resetStats
    exact both ⟨b, hb, hi.resetPrefetcher⟩ h.dcache.resetStats
  | @answer op req hosts outs hq hdue hreq hr =>
    refine h.receive (fun hop => ?_) hr
    have hmem := hs.linked.mem
    rw [hq.comp] at hmem
    obtain ⟨_, hmop, _⟩ := hmem.held.slot hreq
    have hslot : w.mem.slots op (w.mem.chan op).servingId = some req.addr := by
      rw [RAMArbiter.slots, hreq]
      rfl
    exact hs.addressed.slot _ _ ((hmop.symm.trans hop) ▸ hslot)
  | free ho hcomp hnone => exact h.kept rfl rfl rfl
  | next ho hcomp hg htop hx => exact h.kept rfl rfl rfl

theorem run (hrun : ReflTransGen (Act fun _ _ => True) w w') (hs : Secure w) (h : OnBench w p) :
    ∃ q, ReflTransGen Benches.Next p q ∧ OnBench w' q := by
  obtain ⟨q, hq, _, hon⟩ := run_of_simulation
    (I := fun (w : Wire S) (p : Benches S) => Secure w ∧ OnBench w p) (fun a b t hab hat => by
      obtain ⟨q, hq, hon⟩ := hat.2.act hab hat.1
      exact ⟨q, hq, hab.secure hat.1, hon⟩) hrun ⟨hs, h⟩
  exact ⟨q, hq, hon⟩

end OnBench

namespace Sys

variable {s : Sys S}

/-- The caches are on benches that fresh caches have come to. Whatever benches show them, these can
follow the next call of the main loop, and what the memory has to answer is outstanding there. -/
structure Tested (s : Sys S) : Prop where
  shown : ∃ p, OnBench s.wire p
  awaited : ∀ p, OnBench s.wire p → ∀ op addr,
    (s.mem.slots op 0 = some addr → p.1.Awaits op addr) ∧
      ∀ c, s.hosts.dcache = .cached c → s.mem.slots op 1 = some addr → p.2.Awaits op addr
  follows : ∀ t p, s.step false = .ok t → OnBench s.wire p →
    ∃ q, ReflTransGen Benches.Next p q ∧ OnBench t.wire q

private theorem init_onBench (trace : List TraceInst) (inst : TraceInst) (nxt : Tick) :
    OnBench (init S trace inst nxt).wire ({}, {}) := by
  refine ⟨.init, ?_⟩
  change DataPort.On _ _ (if S.hasDcache then _ else _)
  split
  · exact Shows.init
  · exact trivial

/-- The assembled simulator refines its caches under test: whatever holds of a cache on the bench,
with any requester and any memory, and does not depend on its counters holds of both caches in
every run of the main loop. -/
theorem Reachable.caches_tested (hi : S.icache.policy.Total S.icache.assoc)
    (hd : S.hasDcache = true → S.dcache.policy.Total S.dcache.assoc) (h : s.Reachable) :
    s.Tested := by
  have hs := h.secure hi hd
  refine ⟨?_, fun p hp op addr => ⟨fun ha => ?_, fun c hc ha => ?_⟩, fun t p ht hp => ?_⟩
  · have hinv := h.reachableBy.invariant (I := fun w : Wire S => Secure w ∧ ∃ p, OnBench w p)
      (fun trace inst nxt => ⟨⟨hi, .init trace inst nxt, .init trace inst nxt,
        .init hd trace inst nxt⟩, _, init_onBench trace inst nxt⟩)
      (fun w w' ha hw => by
        obtain ⟨hs, p, hp⟩ := hw
        obtain ⟨q, _, hq⟩ := hp.act ha hs
        exact ⟨ha.secure hs, q, hq⟩)
    exact hinv.2
  · refine hp.icache.awaits (hs.linked.awaits_of_slot (Option.isSome_of_mem ha)) fun hop => ?_
    subst hop
    exact hs.addressed.slot 0 addr ha
  · have hon := hp.dcache
    have hpos := hs.linked.awaits_of_slot (Option.isSome_of_mem ha)
    have howes := fun hop : op = .read => hs.addressed.slot 1 addr (hop ▸ ha)
    change s.hosts.dcache.On p.2 s.tick at hon
    change 0 < s.hosts.dcache.awaits op at hpos
    change op = .read → s.hosts.dcache.Owes addr at howes
    rw [hc] at hon hpos howes
    exact Shows.awaits hon hpos howes
  · exact hp.run (step_acts ⟨fun _ => trivial, fun _ _ => trivial⟩ ht) hs

/-- With a memory of latency 5, while the memory answers the load and the fetch of the next block
waits for it. -/
theorem caches_tested_load : ∃ s : Sys (Config.plain 5 true), s.Reachable ∧
    (s.mem.chan .read).servingId = 1 ∧ s.mem.pending .read = [0, 1] ∧ s.Tested := by
  obtain ⟨s, hrun, hobs⟩ := exists_of_observed
    (x := run false 144 (init (Config.plain 5 true) loadAndBlock {} 0))
    (f := fun s => ((s.mem.chan .read).servingId, s.mem.pending .read))
    (b := (1, [0, 1])) (by decide +kernel)
  have hs : s.Reachable := ⟨_, _, _, _, hrun⟩
  have htotal : (plruReplPolicy 1).Total 1 := plru_total (.inl rfl)
  exact ⟨s, hs, congrArg Prod.fst hobs, congrArg Prod.snd hobs,
    hs.caches_tested htotal fun _ => htotal⟩

end Sys

end NpSim.System
