/- digest: The virtual methods of a cache, and a cache between a requester that heeds `is_ready` and
   a memory: what `flush_all` must not disturb. -/

import NpSim.Cache.Bench
import NpSim.Cache.NoCache
import NpSim.Cache.StoreBuffer

set_option autoImplicit false
set_option relaxedAutoImplicit false

namespace NpSim.Cache

open NpSim.Lib.Partial Relation

/-- The virtual methods of `CacheBase`, and the flag that `recv_mem_resp` relies on. -/
structure CacheBase where
  State : Type
  isReady : State → Bool × Bool
  readReq : Nat → Addr → State → Except Fault (State × List CacheOut)
  writeReq : Nat → Addr → Word → BitVec 8 → State → Except Fault (State × List CacheOut)
  recvMemResp : Nat → MemTrans → State → Except Fault (State × List CacheOut)
  flushAll : State → State
  nextUpdate : State → Tick
  updateImpl : Nat → State → Except Fault (State × List CacheOut)
  /-- `r_waiting_` and `w_waiting_`, or `r_busy_` and `w_busy_` -/
  awaits : MemRWOpt → State → Bool

namespace CacheBase

def doUpdate (B : CacheBase) (now : Nat) (c : B.State) : Except Fault (B.State × List CacheOut) :=
  if B.nextUpdate c ≤ now then B.updateImpl now c else .ok (c, [])

/-- The port is ready again after `n` further updates at most, and these will come. -/
def ReadyWithin (B : CacheBase) : Nat → B.State → Prop
  | 0, c => B.isReady c = (true, true)
  | n + 1, c => B.isReady c = (true, true) ∨ B.nextUpdate c ≠ infTime ∧
      ∀ now : Nat, B.nextUpdate c ≤ now → ∃ x, B.updateImpl now c = .ok x ∧ ReadyWithin B n x.1

end CacheBase

abbrev PipeCache.base (P : CacheParams) : CacheBase where
  State := PipeCache P
  isReady := PipeCache.isReady
  readReq now addr c := (c.readReq now addr).map fun d => (d, [])
  writeReq := PipeCache.writeReq
  recvMemResp now m c := (c.recvMemResp now m).map fun d => (d, [])
  flushAll := PipeCache.flushAll
  nextUpdate := PipeCache.nextUpdate
  updateImpl := PipeCache.updateImpl
  awaits op c := match op with
    | .read => c.rWaiting
    | .write => c.wWaiting

abbrev NoCache.base : CacheBase where
  State := NoCache
  isReady := NoCache.isReady
  readReq _ addr c := (c.readReq addr).map fun x => (x.1, [.memReq x.2])
  writeReq _ addr data mask c := (c.writeReq addr data mask).map fun x => (x.1, [.memReq x.2])
  recvMemResp _ := NoCache.recvMemResp
  flushAll := id
  nextUpdate _ := infTime
  updateImpl _ c := .ok (c, [])
  awaits op c := match op with
    | .read => c.rBusy
    | .write => c.wBusy

abbrev StoreBuffer.base (entries : Nat) : CacheBase where
  State := StoreBuffer entries
  isReady := StoreBuffer.isReady
  readReq now addr c := .ok (c.readReq now addr, [])
  writeReq := StoreBuffer.writeReq
  recvMemResp := StoreBuffer.recvMemResp
  flushAll := StoreBuffer.flushAll
  nextUpdate := StoreBuffer.nextUpdate
  updateImpl now c := .ok (c.updateImpl now)
  awaits op c := match op with
    | .read => c.rBusy
    | .write => c.wBusy

/-- A cache between a requester and a memory. -/
structure Client (B : CacheBase) where
  now : Nat := 0
  cache : B.State
  accepted : List (Addr × MemRWOpt) := []
  sent : List CacheOut := []
  outstanding : List MemTrans := []

namespace Client

variable {B : CacheBase}

inductive Event
  | request
  | update
  | answer (m : MemTrans)
  | flushAll
  | tick
  deriving DecidableEq

def sending (b : Client B) (x : B.State × List CacheOut) : Client B :=
  { b with
    cache := x.1
    sent := b.sent ++ x.2
    outstanding := b.outstanding ++ requests x.2 }

def accepting (b : Client B) (a : Addr × MemRWOpt) : Client B :=
  { b with accepted := b.accepted ++ [a] }

def settling (b : Client B) (m : MemTrans) : Client B :=
  { b with outstanding := b.outstanding.erase m }

/-- A call on the cache, or a tick of the clock. A request comes when the port is ready for it. -/
inductive Step (b : Client B) : Event → Client B → Prop
  | read {x : B.State × List CacheOut} (addr : Addr) (hr : (B.isReady b.cache).1 = true)
      (h : B.readReq b.now addr b.cache = .ok x) :
      Step b .request ((b.accepting (addr, .read)).sending x)
  | write {x : B.State × List CacheOut} (addr : Addr) (data : Word) (mask : BitVec 8)
      (hr : (B.isReady b.cache).2 = true) (h : B.writeReq b.now addr data mask b.cache = .ok x) :
      Step b .request ((b.accepting (addr, .write)).sending x)
  | update {x : B.State × List CacheOut} (h : B.doUpdate b.now b.cache = .ok x) :
      Step b .update (b.sending x)
  | answer {x : B.State × List CacheOut} (m : MemTrans) (data : List Word)
      (hm : m ∈ b.outstanding)
      (h : B.recvMemResp b.now { m with dir := .resp, data := data } b.cache = .ok x) :
      Step b (.answer m) ((b.settling m).sending x)
  | flushAll : Step b .flushAll { b with cache := B.flushAll b.cache }
  | tick : Step b .tick { b with now := b.now + 1 }

/-- The states of the runs from `c` whose steps all pass `ok`. -/
def Reachable (ok : Client B → Event → Prop) (c : B.State) (b : Client B) : Prop :=
  ReflTransGen (fun b b' => ∃ e, ok b e ∧ Step b e b') { cache := c } b

def asked (op : MemRWOpt) (b : Client B) : List (Addr × MemRWOpt) := b.accepted.filter (·.2 = op)

def responses (op : MemRWOpt) (b : Client B) : List (Addr × MemRWOpt) :=
  (cpuResps b.sent).filter (·.2 = op)

/-- All accepted requests and all memory transactions have completed. -/
def Completed (b : Client B) : Prop := (∀ op, b.responses op = b.asked op) ∧ b.outstanding = []

/-- No request is answered twice or out of order, no response of memory meets a cleared flag, and
the port comes back when everything has completed. -/
structure Kept (b : Client B) : Prop where
  answered : ∀ op, b.responses op <+: b.asked op
  awaited : ∀ m ∈ b.outstanding, B.awaits m.mop b.cache = true
  ready : b.Completed → B.ReadyWithin 2 b.cache

/-- A run whose steps all pass `ok`, in which updates and answers keep coming. -/
structure FairRun (ok : Client B → Event → Prop) (c : B.State) (run : ℕ → Client B)
    (event : ℕ → Event) : Prop where
  init : Reachable ok c (run 0)
  step : ∀ n, Step (run n) (event n) (run (n + 1))
  passes : ∀ n, ok (run n) (event n)
  updates : ∀ n t, ∃ k ≥ n, event k = .update ∧ t ≤ (run k).now
  answers : ∀ n, ∀ m ∈ (run n).outstanding, ∃ k ≥ n, event k = .answer m

/-- What has been accepted when `flush_all` is called is answered later on. -/
def AnsweredAfterFlush (run : ℕ → Client B) (event : ℕ → Event) : Prop :=
  ∀ n, event n = .flushAll → ∃ k ≥ n, ∀ op, (run n).asked op <+: (run k).responses op

theorem FairRun.reachable {ok : Client B → Event → Prop} {c : B.State} {run : ℕ → Client B}
    {event : ℕ → Event} (h : FairRun ok c run event) (n : ℕ) : Reachable ok c (run n) := by
  induction n with
  | zero => exact h.init
  | succ n ih => exact .tail ih ⟨_, h.passes n, h.step n⟩

theorem responses_sending (op : MemRWOpt) (b : Client B) (x : B.State × List CacheOut) :
    (b.sending x).responses op = b.responses op ++ (cpuResps x.2).filter (·.2 = op) := by
  unfold responses sending
  rw [cpuResps_append, List.filter_append]

theorem asked_accepting (op : MemRWOpt) (b : Client B) (a : Addr × MemRWOpt) :
    (b.accepting a).asked op = b.asked op ++ [a].filter (·.2 = op) := by
  unfold asked accepting
  rw [List.filter_append]

theorem Step.responses_grow {b b' : Client B} {e : Event} (hs : Step b e b') (op : MemRWOpt) :
    b.responses op <+: b'.responses op := by
  cases hs with
  | read addr hr h =>
    rw [responses_sending]
    exact List.prefix_append _ _
  | write addr data mask hr h =>
    rw [responses_sending]
    exact List.prefix_append _ _
  | update h =>
    rw [responses_sending]
    exact List.prefix_append _ _
  | answer m data hm h =>
    rw [responses_sending]
    exact List.prefix_append _ _
  | flushAll => exact List.prefix_rfl
  | tick => exact List.prefix_rfl

def perform (b : Client B) : Bench.Call → Option (Client B)
  | .read addr =>
    if (B.isReady b.cache).1 then
      (B.readReq b.now addr b.cache).toOption.map (b.accepting (addr, .read)).sending
    else none
  | .write addr =>
    if (B.isReady b.cache).2 then
      (B.writeReq b.now addr 0 15 b.cache).toOption.map (b.accepting (addr, .write)).sending
    else none
  | .update => (B.doUpdate b.now b.cache).toOption.map b.sending
  | .answer => b.outstanding.head?.bind fun m =>
      (B.recvMemResp b.now { m with dir := .resp, data := [] } b.cache).toOption.map
        (b.settling m).sending
  | .flushAll => some { b with cache := B.flushAll b.cache }
  | .tick => some { b with now := b.now + 1 }

def event (b : Client B) : Bench.Call → Event
  | .read _ => .request
  | .write _ => .request
  | .update => .update
  | .answer => b.outstanding.head?.elim .tick .answer
  | .flushAll => .flushAll
  | .tick => .tick

theorem perform_step {b b' : Client B} {k : Bench.Call} (h : b.perform k = some b') :
    Step b (b.event k) b' := by
  cases k with
  | read addr =>
    rw [perform] at h
    split at h
    · rename_i hr
      obtain ⟨x, hx, rfl⟩ := Bench.toOption_map_eq_some h
      exact .read addr hr hx
    · cases h
  | write addr =>
    rw [perform] at h
    split at h
    · rename_i hr
      obtain ⟨x, hx, rfl⟩ := Bench.toOption_map_eq_some h
      exact .write addr 0 15 hr hx
    · cases h
  | update =>
    obtain ⟨x, hx, rfl⟩ := Bench.toOption_map_eq_some h
    exact .update hx
  | answer =>
    obtain ⟨m, hm, h⟩ := Option.bind_eq_some_iff.mp h
    obtain ⟨x, hx, rfl⟩ := Bench.toOption_map_eq_some h
    rw [event, hm]
    exact .answer m [] (List.mem_of_mem_head? hm) hx
  | flushAll =>
    cases h
    exact .flushAll
  | tick =>
    cases h
    exact .tick

def performAll (ok : Client B → Bool) (b : Client B) : List Bench.Call → Option (Client B)
  | [] => some b
  | k :: ks => if ok b then (b.perform k).bind fun b' => performAll ok b' ks else none

theorem run_of_performAll {ok : Client B → Bool} {pass : Client B → Event → Prop}
    (hok : ∀ b e, ok b = true → pass b e) {b b' : Client B} {ks : List Bench.Call}
    (h : performAll ok b ks = some b') :
    ReflTransGen (fun b b' => ∃ e, pass b e ∧ Step b e b') b b' := by
  induction ks generalizing b with
  | nil =>
    cases h
    exact .refl
  | cons k ks ih =>
    rw [performAll] at h
    split at h
    · rename_i hb
      obtain ⟨m, hm, h⟩ := Option.bind_eq_some_iff.mp h
      exact .head ⟨_, hok b _ hb, perform_step hm⟩ (ih h)
    · cases h

end Client

end NpSim.Cache
