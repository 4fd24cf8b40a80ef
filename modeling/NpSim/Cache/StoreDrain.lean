/- digest: A store buffer between a requester and a memory: every store is sent to memory once and
   in order, and answered one tick after it was accepted. -/

import NpSim.Cache.Ports
import NpSim.Lib.Fair

set_option autoImplicit false
set_option relaxedAutoImplicit false

namespace NpSim.Cache.StoreBuffer

open NpSim.Lib.Partial Relation

variable {entries : Nat}

def storeResps (outs : List CacheOut) : List CpuTrans :=
  outs.filterMap fun o => match o with
    | .cpuResp t => if t.mop = .write then some t else none
    | _ => none

theorem storeResps_append (l m : List CacheOut) :
    storeResps (l ++ m) = storeResps l ++ storeResps m := List.filterMap_append

/-- The response to a store accepted at tick `a.1`. -/
def reply (id : Nat) (a : Nat × StBufEnt) : Nat × CpuTrans :=
  (a.1 + 1, ⟨a.2.addr, 0xbadc0de, id, .write⟩)

def underWay (c : StoreBuffer entries) : List MemTrans :=
  if c.wBusy then c.fifo.head?.toList.map c.drainReq else []

theorem drainReq_congr {c d : StoreBuffer entries} (h : d.cacheId = c.cacheId) :
    d.drainReq = c.drainReq := by
  funext e
  unfold drainReq
  rw [h]

/-- A call that concerns loads only. -/
structure ReadSide (c d : StoreBuffer entries) (outs : List CacheOut) : Prop where
  fifo : d.fifo = c.fifo
  wBusy : d.wBusy = c.wBusy
  schedWTime : d.schedWTime = c.schedWTime
  schedWResp : d.schedWResp = c.schedWResp
  cacheId : d.cacheId = c.cacheId
  readResp : c.schedRResp.mop = .read → d.schedRResp.mop = .read
  noWrite : memReqs .write outs = []
  noResp : c.schedRResp.mop = .read → storeResps outs = []

theorem ReadSide.refl (c : StoreBuffer entries) : ReadSide c c [] :=
  ⟨rfl, rfl, rfl, rfl, rfl, id, rfl, fun _ => rfl⟩

theorem ReadSide.then {c d e : StoreBuffer entries} {l m : List CacheOut} (h : ReadSide c d l)
    (h' : ReadSide d e m) : ReadSide c e (l ++ m) := by
  refine ⟨h'.fifo.trans h.fifo, h'.wBusy.trans h.wBusy, h'.schedWTime.trans h.schedWTime,
    h'.schedWResp.trans h.schedWResp, h'.cacheId.trans h.cacheId,
    fun hc => h'.readResp (h.readResp hc), ?_, fun hc => ?_⟩
  · rw [memReqs_append, h.noWrite, h'.noWrite, List.append_nil]
  · rw [storeResps_append, h.noResp hc, h'.noResp (h.readResp hc), List.append_nil]

theorem readReq_readSide (now : Nat) (addr : Addr) (c : StoreBuffer entries) :
    ReadSide c (c.readReq now addr) [] := by
  unfold readReq
  dsimp only
  cases c.forward addr with
  | none => exact ⟨rfl, rfl, rfl, rfl, rfl, id, rfl, fun _ => rfl⟩
  | some e => exact ⟨rfl, rfl, rfl, rfl, rfl, fun _ => rfl, rfl, fun _ => rfl⟩

theorem recvMemResp_readSide {now : Nat} {m : MemTrans} (hm : m.mop = .read)
    {c : StoreBuffer entries} {x : StoreBuffer entries × List CacheOut}
    (h : c.recvMemResp now m = .ok x) : ReadSide c x.1 x.2 := by
  unfold recvMemResp at h
  rw [hm] at h
  cases h
  exact ⟨rfl, rfl, rfl, rfl, rfl, fun _ => rfl, rfl, fun _ => rfl⟩

private theorem issueMiss_readSide (now : Nat) (c : StoreBuffer entries) :
    ReadSide c (c.issueMiss now).1 (c.issueMiss now).2 := by
  unfold issueMiss
  split
  · exact ⟨rfl, rfl, rfl, rfl, rfl, id, rfl, fun _ => rfl⟩
  · exact ReadSide.refl c

private theorem respondRead_readSide (now : Nat) (c : StoreBuffer entries) :
    ReadSide c (c.respondRead now).1 (c.respondRead now).2 := by
  unfold respondRead
  split
  · refine ⟨rfl, rfl, rfl, rfl, rfl, id, rfl, fun hc => ?_⟩
    have hread : (if c.schedRResp.mop = .write then some c.schedRResp else none) = none :=
      if_neg (by rw [hc]; decide)
    exact List.filterMap_cons_none hread
  · exact ReadSide.refl c

theorem updateImpl_readSide {now : Nat} {c : StoreBuffer entries} (h : ¬c.schedWTime ≤ now) :
    ReadSide c (c.updateImpl now).1 (c.updateImpl now).2 := by
  have hboth := (issueMiss_readSide now c).then (respondRead_readSide now (c.issueMiss now).1)
  have hidle : ((c.issueMiss now).1.respondRead now).1.respondWrite now =
      (((c.issueMiss now).1.respondRead now).1, []) := by
    unfold respondWrite
    rw [if_neg (by rwa [hboth.schedWTime])]
  unfold updateImpl
  dsimp only
  rw [hidle, List.append_nil]
  exact hboth

/-- The store at the front goes out when no write is under way. -/
structure Drained (c d : StoreBuffer entries) (outs : List CacheOut) : Prop where
  fifo : d.fifo = c.fifo
  cacheId : d.cacheId = c.cacheId
  schedWTime : d.schedWTime = c.schedWTime
  schedWResp : d.schedWResp = c.schedWResp
  schedRResp : d.schedRResp = c.schedRResp
  busy : d.wBusy = true ↔ d.fifo ≠ []
  noResp : storeResps outs = []
  underWay : d.underWay = c.underWay ++ memReqs .write outs

theorem drain_drained {c : StoreBuffer entries} (hbusy : c.wBusy = true → c.fifo ≠ []) :
    Drained c c.drain.1 c.drain.2 := by
  unfold drain
  cases hf : c.fifo with
  | nil =>
    have hidle : ¬c.wBusy = true := fun h => hbusy h hf
    exact ⟨rfl, rfl, rfl, rfl, rfl, ⟨fun h => absurd h hidle, fun h => absurd hf h⟩, rfl,
      (List.append_nil _).symm⟩
  | cons e l =>
    dsimp only
    split
    · rename_i hb
      exact ⟨rfl, rfl, rfl, rfl, rfl, ⟨hbusy, fun _ => hb⟩, rfl, (List.append_nil _).symm⟩
    · rename_i hb
      refine ⟨hf.symm, rfl, rfl, rfl, rfl, ⟨fun _ => List.cons_ne_nil e l, fun _ => rfl⟩, rfl, ?_⟩
      unfold underWay
      rw [if_neg hb]
      rfl

/-- A store buffer between a requester and a memory: what was accepted, what was sent to memory and
what was answered, and when. -/
structure Run (entries : Nat) where
  now : Nat := 0
  cache : StoreBuffer entries
  /-- The update of this tick has been made. -/
  updated : Bool := false
  /-- A store has been accepted in this tick. -/
  wrote : Bool := false
  stores : List (Nat × StBufEnt) := []
  sent : List MemTrans := []
  outstanding : List MemTrans := []
  answered : List (Nat × CpuTrans) := []

namespace Run

def sending (b : Run entries) (x : StoreBuffer entries × List CacheOut) : Run entries :=
  { b with
    cache := x.1
    sent := b.sent ++ memReqs .write x.2
    outstanding := b.outstanding ++ memReqs .write x.2
    answered := b.answered ++ (storeResps x.2).map (b.now, ·) }

inductive Event
  | update
  | write
  | read
  | answer (m : MemTrans)
  | load
  | tick

/-- Every tick is updated once, before its requests; a store comes when the port is ready for it,
one in a tick at most; memory answers a write whenever it likes. -/
inductive Step (b : Run entries) : Event → Run entries → Prop
  | update {x : StoreBuffer entries × List CacheOut} (hu : b.updated = false)
      (h : (StoreBuffer.base entries).doUpdate b.now b.cache = .ok x) :
      Step b .update { b.sending x with updated := true }
  | write {x : StoreBuffer entries × List CacheOut} (addr : Addr) (data : Word) (mask : BitVec 8)
      (hu : b.updated = true) (hw : b.wrote = false) (hr : b.cache.isReady.2 = true)
      (h : b.cache.writeReq b.now addr data mask = .ok x) :
      Step b .write { b.sending x with
        wrote := true
        stores := b.stores ++ [(b.now, ⟨addr, data, mask⟩)] }
  | read (addr : Addr) (hr : b.cache.isReady.1 = true) :
      Step b .read (b.sending (b.cache.readReq b.now addr, []))
  | answer {x : StoreBuffer entries × List CacheOut} (m : MemTrans) (data : List Word)
      (hm : m ∈ b.outstanding)
      (h : b.cache.recvMemResp b.now { m with dir := .resp, data := data } = .ok x) :
      Step b (.answer m) ({ b with outstanding := b.outstanding.erase m }.sending x)
  | load {x : StoreBuffer entries × List CacheOut} (m : MemTrans) (hm : m.mop = .read)
      (h : b.cache.recvMemResp b.now m = .ok x) : Step b .load (b.sending x)
  | tick (hu : b.updated = true) :
      Step b .tick { b with now := b.now + 1, updated := false, wrote := false }

/-- The states that a run of an empty store buffer comes to. -/
def Reachable (b : Run entries) : Prop :=
  ∃ t id, ReflTransGen (fun b b' => ∃ e, Step b e b') { now := t, cache := { cacheId := id } } b

def due (b : Run entries) : Nat := if b.updated then b.now + 1 else b.now

/-- Each store is in the buffer until memory has answered its write, and waits for its response for
one tick. -/
structure Tidy (b : Run entries) : Prop where
  room : b.cache.fifo.length ≤ entries
  busy : b.cache.wBusy = true → b.cache.fifo ≠ []
  readResp : b.cache.schedRResp.mop = .read
  wrote : b.wrote = true → b.updated = true
  outstanding : b.outstanding = b.cache.underWay
  flow : ∃ done, b.stores.map Prod.snd = done ++ b.cache.fifo ∧
    b.sent = done.map b.cache.drainReq ++ b.outstanding
  acks : ∃ old, b.answered = old.map (reply b.cache.cacheId) ∧ (∀ a ∈ old, a.1 + 1 < b.due) ∧
    (b.stores = old ∧ b.cache.schedWTime = infTime ∧
        (b.cache.fifo ≠ [] → b.cache.wBusy = true) ∨
      ∃ a, b.stores = old ++ [a] ∧ b.cache.schedWTime = ((a.1 + 1 : Nat) : Tick) ∧
        b.cache.schedWResp = (reply b.cache.cacheId a).2 ∧ b.due = a.1 + 1 ∧
        b.wrote = b.updated)

theorem tidy_init (t id : Nat) :
    Tidy ({ now := t, cache := { cacheId := id } } : Run entries) :=
  ⟨Nat.zero_le _, fun h => absurd h Bool.false_ne_true, rfl, fun h => absurd h Bool.false_ne_true,
    rfl, ⟨[], rfl, rfl⟩, [], rfl, fun _ ha => absurd ha List.not_mem_nil,
    .inl ⟨rfl, rfl, fun h => absurd rfl h⟩⟩

theorem Tidy.readSide {b : Run entries} (h : b.Tidy)
    {x : StoreBuffer entries × List CacheOut} (hx : ReadSide b.cache x.1 x.2) :
    (b.sending x).Tidy := by
  have hsent : (b.sending x).sent = b.sent := by
    change b.sent ++ memReqs .write x.2 = b.sent
    rw [hx.noWrite, List.append_nil]
  have hout : (b.sending x).outstanding = b.outstanding := by
    change b.outstanding ++ memReqs .write x.2 = b.outstanding
    rw [hx.noWrite, List.append_nil]
  have hans : (b.sending x).answered = b.answered := by
    change b.answered ++ (storeResps x.2).map (b.now, ·) = b.answered
    rw [hx.noResp h.readResp, List.map_nil, List.append_nil]
  have hreq : x.1.drainReq = b.cache.drainReq := drainReq_congr hx.cacheId
  have hunder : x.1.underWay = b.cache.underWay := by
    unfold underWay
    rw [hx.wBusy, hx.fifo, hreq]
  obtain ⟨done, hstores, hflow⟩ := h.flow
  obtain ⟨old, hold, hpast, hacks⟩ := h.acks
  refine ⟨?_, ?_, hx.readResp h.readResp, h.wrote, ?_, ⟨done, ?_, ?_⟩, old, ?_, hpast, ?_⟩
  · change x.1.fifo.length ≤ entries
    rw [hx.fifo]
    exact h.room
  · change x.1.wBusy = true → x.1.fifo ≠ []
    rw [hx.fifo, hx.wBusy]
    exact h.busy
  · rw [hout, h.outstanding]
    exact hunder.symm
  · change b.stores.map Prod.snd = done ++ x.1.fifo
    rw [hx.fifo]
    exact hstores
  · rw [hsent, hout]
    change b.sent = done.map x.1.drainReq ++ b.outstanding
    rw [hreq]
    exact hflow
  · rw [hans]
    change b.answered = old.map (reply x.1.cacheId)
    rw [hx.cacheId]
    exact hold
  · change b.stores = old ∧ x.1.schedWTime = infTime ∧ (x.1.fifo ≠ [] → x.1.wBusy = true) ∨
      ∃ a, b.stores = old ++ [a] ∧ x.1.schedWTime = ((a.1 + 1 : Nat) : Tick) ∧
        x.1.schedWResp = (reply x.1.cacheId a).2 ∧ b.due = a.1 + 1 ∧ b.wrote = b.updated
    rw [hx.schedWTime, hx.schedWResp, hx.fifo, hx.wBusy, hx.cacheId]
    exact hacks

end Run

theorem doUpdate_base (now : Nat) (c : StoreBuffer entries) :
    (StoreBuffer.base entries).doUpdate now c = .ok (c.updateImpl now) := by
  unfold CacheBase.doUpdate
  by_cases h : (StoreBuffer.base entries).nextUpdate c ≤ now
  · rw [if_pos h]
  · rw [if_neg h]
    have hlt : ((now : Nat) : Tick) < min (min c.schedRTime c.schedWTime) c.pendingRmissTime :=
      not_le.mp h
    have hmiss : c.issueMiss now = (c, []) := if_neg (not_le.mpr (lt_of_lt_of_le hlt
      (min_le_right _ _)))
    have hread : c.respondRead now = (c, []) := if_neg (not_le.mpr (lt_of_lt_of_le hlt
      ((min_le_left _ _).trans (min_le_left _ _))))
    have hwrite : c.respondWrite now = (c, []) := if_neg (not_le.mpr (lt_of_lt_of_le hlt
      ((min_le_left _ _).trans (min_le_right _ _))))
    unfold updateImpl
    rw [hmiss]
    dsimp only
    rw [hread]
    dsimp only
    rw [hwrite]
    rfl

theorem updateImpl_respond {now : Nat} {c : StoreBuffer entries} (h : c.schedWTime ≤ now) :
    ∃ (d : StoreBuffer entries) (l : List CacheOut), ReadSide c d l ∧
      (c.updateImpl now).1 = ({ d with schedWTime := infTime } : StoreBuffer entries).drain.1 ∧
      (c.updateImpl now).2 = l ++ (.cpuResp c.schedWResp ::
        ({ d with schedWTime := infTime } : StoreBuffer entries).drain.2) := by
  have hboth := (issueMiss_readSide now c).then (respondRead_readSide now (c.issueMiss now).1)
  refine ⟨_, _, hboth, ?_⟩
  have htime : ((c.issueMiss now).1.respondRead now).1.schedWTime ≤ now := by
    rwa [hboth.schedWTime]
  rw [← hboth.schedWResp]
  unfold updateImpl
  dsimp only
  unfold respondWrite
  rw [if_pos htime]
  exact ⟨rfl, rfl⟩

theorem recvMemResp_write (now : Nat) {m : MemTrans} (hm : m.mop = .write) (he : 0 < entries)
    {c : StoreBuffer entries} {e : StBufEnt} {l : List StBufEnt} (hf : c.fifo = e :: l)
    (ha : m.addr = e.addr) :
    ∃ ack, storeResps ack = [] ∧ memReqs .write ack = [] ∧ c.recvMemResp now m =
      .ok (({ c with fifo := l, wBusy := false } : StoreBuffer entries).drain.1,
        ack ++ ({ c with fifo := l, wBusy := false } : StoreBuffer entries).drain.2) := by
  refine ⟨if c.fifo.length = entries then [.cpuAck ⟨c.cacheId, .write⟩] else [], ?_, ?_, ?_⟩
  · split <;> rfl
  · split <;> rfl
  · unfold recvMemResp
    rw [hm]
    dsimp only
    rw [if_neg (Nat.ne_of_gt he), hf]
    dsimp only
    rw [ha, require_of rfl]
    rfl

namespace Run

theorem Tidy.update {b : Run entries} (h : b.Tidy) (hu : b.updated = false) :
    Tidy { b.sending (b.cache.updateImpl b.now) with updated := true } := by
  have hdue : b.due = b.now := if_neg (by rw [hu]; exact Bool.false_ne_true)
  have hwrote : b.wrote = false := by
    cases hw : b.wrote with
    | false => rfl
    | true => exact (h.wrote hw).symm.trans hu
  obtain ⟨old, hold, hpast, hacks⟩ := h.acks
  have hpast' : ∀ a ∈ old, a.1 + 1 < b.now + 1 := by
    intro a ha
    have := hpast a ha
    omega
  rcases hacks with ⟨hstores, hinf, hgo⟩ | ⟨a, hstores, htime, hresp, hdue', -⟩
  · have hlate : ¬b.cache.schedWTime ≤ b.now := by
      rw [hinf]
      exact not_le.mpr (ENat.natCast_lt_top _)
    have hx := updateImpl_readSide hlate
    have hs := h.readSide hx
    obtain ⟨old', hold', _, _⟩ := hs.acks
    refine ⟨hs.room, hs.busy, hs.readResp, fun _ => rfl, hs.outstanding, hs.flow, old, ?_, hpast',
      .inl ⟨hstores, hx.schedWTime.trans hinf, ?_⟩⟩
    · change b.answered ++ (storeResps _).map (b.now, ·) =
        old.map (reply (b.cache.updateImpl b.now).1.cacheId)
      rw [hx.noResp h.readResp, List.map_nil, List.append_nil, hx.cacheId]
      exact hold
    · change (b.cache.updateImpl b.now).1.fifo ≠ [] → (b.cache.updateImpl b.now).1.wBusy = true
      rw [hx.fifo, hx.wBusy]
      exact hgo
  · have hnow : b.cache.schedWTime ≤ b.now := by
      rw [htime, ← hdue', hdue]
    obtain ⟨d, l, hx, hcache, houts⟩ := updateImpl_respond hnow
    generalize b.cache.updateImpl b.now = x at hcache houts
    obtain ⟨x, outs⟩ := x
    dsimp only at hcache houts
    have hd : Drained ({ d with schedWTime := infTime } : StoreBuffer entries) x
        ({ d with schedWTime := infTime } : StoreBuffer entries).drain.2 := by
      rw [hcache]
      refine drain_drained fun hbusy => ?_
      rw [show ({ d with schedWTime := infTime } : StoreBuffer entries).fifo = _ from hx.fifo]
      exact h.busy (hx.wBusy.symm.trans hbusy)
    have hfifo : x.fifo = b.cache.fifo := hd.fifo.trans hx.fifo
    have hid : x.cacheId = b.cache.cacheId := hd.cacheId.trans hx.cacheId
    have hreq : x.drainReq = b.cache.drainReq := drainReq_congr hid
    have hwrites : memReqs .write outs =
        memReqs .write ({ d with schedWTime := infTime } : StoreBuffer entries).drain.2 := by
      rw [houts, memReqs_append, hx.noWrite]
      rfl
    have hresps : storeResps outs = [b.cache.schedWResp] := by
      rw [houts, storeResps_append, hx.noResp h.readResp, hresp]
      exact congrArg (_ :: ·) hd.noResp
    have hunder : ({ d with schedWTime := infTime } : StoreBuffer entries).underWay =
        b.outstanding := by
      rw [h.outstanding]
      unfold underWay
      dsimp only
      rw [hx.wBusy, hx.fifo, drainReq_congr (c := b.cache) (by exact hx.cacheId)]
    obtain ⟨done, hflow, hsent⟩ := h.flow
    refine ⟨?_, fun hbusy => hd.busy.mp hbusy, ?_, fun _ => rfl, ?_, ⟨done, ?_, ?_⟩, old ++ [a], ?_,
      fun a' ha => ?_, .inl ⟨hstores, hd.schedWTime, hd.busy.mpr⟩⟩
    · change x.fifo.length ≤ entries
      rw [hfifo]
      exact h.room
    · exact (congrArg CpuTrans.mop hd.schedRResp).trans (hx.readResp h.readResp)
    · change b.outstanding ++ memReqs .write outs = x.underWay
      rw [hd.underWay, hunder, hwrites]
    · change b.stores.map Prod.snd = done ++ x.fifo
      rw [hfifo]
      exact hflow
    · change b.sent ++ memReqs .write outs =
        done.map x.drainReq ++ (b.outstanding ++ memReqs .write outs)
      rw [hreq, ← List.append_assoc, ← hsent]
    · change b.answered ++ (storeResps outs).map (b.now, ·) = (old ++ [a]).map (reply x.cacheId)
      rw [hold, hresps, hid, List.map_append, hresp, ← hdue, hdue']
      rfl
    · change a'.1 + 1 < b.now + 1
      rcases List.mem_append.mp ha with ha | ha
      · exact hpast' a' ha
      · rw [List.mem_singleton.mp ha]
        omega

end Run

theorem writeReq_buffered (now : Nat) (addr : Addr) (data : Word) (mask : BitVec 8)
    (he : 0 < entries) {c : StoreBuffer entries} (hr : c.isReady.2 = true) :
    c.fifo.length < entries ∧ c.writeReq now addr data mask = .ok ({ c with
      stats := { c.stats with accesses := c.stats.accesses + 1 }
      fifo := c.fifo ++ [⟨addr, data, mask⟩]
      schedWTime := ((now + 1 : Nat) : Tick)
      schedWResp := ⟨addr, 0xbadc0de, c.cacheId, .write⟩ }, []) := by
  have hroom : c.fifo.length < entries := by
    unfold isReady at hr
    split at hr
    · cases hr
    · dsimp only at hr
      rw [if_neg (Nat.ne_of_gt he)] at hr
      exact of_decide_eq_true hr
  refine ⟨hroom, ?_⟩
  unfold writeReq
  dsimp only
  rw [if_neg (Nat.ne_of_gt he), require_of hroom]
  rfl

namespace Run

theorem Tidy.write {b : Run entries} (h : b.Tidy) (hu : b.updated = true) (hw : b.wrote = false)
    (e : StBufEnt) (hroom : b.cache.fifo.length < entries) (stats : CacheStats) :
    Tidy { b.sending ({ b.cache with
        stats := stats
        fifo := b.cache.fifo ++ [e]
        schedWTime := ((b.now + 1 : Nat) : Tick)
        schedWResp := ⟨e.addr, 0xbadc0de, b.cache.cacheId, .write⟩ }, []) with
      wrote := true
      stores := b.stores ++ [(b.now, e)] } := by
  have hdue : b.due = b.now + 1 := if_pos hu
  obtain ⟨old, hold, hpast, hacks⟩ := h.acks
  have hnone : b.stores = old := by
    rcases hacks with ⟨hstores, _⟩ | ⟨a, _, _, _, _, hsame⟩
    · exact hstores
    · rw [hw, hu] at hsame
      cases hsame
  obtain ⟨done, hflow, hsent⟩ := h.flow
  refine ⟨?_, fun _ => List.append_ne_nil_of_right_ne_nil _ (List.cons_ne_nil _ _), h.readResp,
    fun _ => hu, ?_, ⟨done, ?_, ?_⟩, old, ?_, hpast, .inr ⟨(b.now, e), ?_, rfl, rfl, hdue, hu.symm⟩⟩
  · change (b.cache.fifo ++ [e]).length ≤ entries
    rw [List.length_append]
    exact hroom
  · change b.outstanding ++ [] = _
    rw [List.append_nil, h.outstanding]
    unfold underWay sending
    dsimp only
    by_cases hb : b.cache.wBusy = true
    · rw [if_pos hb, if_pos hb]
      cases hf : b.cache.fifo with
      | nil => exact absurd hf (h.busy hb)
      | cons f l => rfl
    · rw [if_neg hb, if_neg hb]
  · change (b.stores ++ [(b.now, e)]).map Prod.snd = done ++ (b.cache.fifo ++ [e])
    rw [List.map_append, hflow, List.append_assoc]
    rfl
  · change b.sent ++ [] = done.map b.cache.drainReq ++ (b.outstanding ++ [])
    rw [List.append_nil, List.append_nil]
    exact hsent
  · change b.answered ++ [] = _
    rw [List.append_nil]
    exact hold
  · change b.stores ++ [(b.now, e)] = _
    rw [hnone]

theorem Tidy.front {b : Run entries} (h : b.Tidy) {m : MemTrans} (hm : m ∈ b.outstanding) :
    ∃ e l, b.cache.fifo = e :: l ∧ b.cache.wBusy = true ∧ b.outstanding = [m] ∧
      m = b.cache.drainReq e := by
  have hout := h.outstanding
  rw [hout] at hm
  unfold underWay at hm hout
  by_cases hb : b.cache.wBusy = true
  · rw [if_pos hb] at hm hout
    cases hf : b.cache.fifo with
    | nil => exact absurd hf (h.busy hb)
    | cons e l =>
      rw [hf] at hm hout
      have he : m = b.cache.drainReq e := List.mem_singleton.mp hm
      exact ⟨e, l, rfl, hb, hout.trans (by rw [he]; rfl), he⟩
  · rw [if_neg hb] at hm
    cases hm

theorem Tidy.answer {b : Run entries} (h : b.Tidy) {e : StBufEnt} {l : List StBufEnt}
    (hf : b.cache.fifo = e :: l) (hout : b.outstanding = [b.cache.drainReq e])
    {ack : List CacheOut} (hresps : storeResps ack = []) (hreqs : memReqs .write ack = []) :
    Tidy ({ b with outstanding := [] }.sending
      (({ b.cache with fifo := l, wBusy := false } : StoreBuffer entries).drain.1,
        ack ++ ({ b.cache with fifo := l, wBusy := false } : StoreBuffer entries).drain.2)) := by
  have hd := drain_drained (c := ({ b.cache with fifo := l, wBusy := false } : StoreBuffer entries))
    fun hb => absurd hb Bool.false_ne_true
  generalize ({ b.cache with fifo := l, wBusy := false } : StoreBuffer entries).drain = x at hd ⊢
  have hfifo : x.1.fifo = l := hd.fifo
  have hid : x.1.cacheId = b.cache.cacheId := hd.cacheId
  have hreq : x.1.drainReq = b.cache.drainReq := drainReq_congr hid
  have hunder : x.1.underWay = memReqs .write (ack ++ x.2) := by
    rw [memReqs_append, hreqs]
    exact hd.underWay
  have hnone : storeResps (ack ++ x.2) = [] := by
    rw [storeResps_append, hresps, hd.noResp]
    rfl
  obtain ⟨done, hflow, hsent⟩ := h.flow
  obtain ⟨old, hold, hpast, hacks⟩ := h.acks
  refine ⟨?_, hd.busy.mp, (congrArg CpuTrans.mop hd.schedRResp).trans h.readResp, h.wrote, ?_,
    ⟨done ++ [e], ?_, ?_⟩, old, ?_, hpast, ?_⟩
  · change x.1.fifo.length ≤ entries
    have hroom := h.room
    rw [hf] at hroom
    rw [hfifo]
    exact (Nat.le_succ _).trans hroom
  · exact hunder.symm
  · change b.stores.map Prod.snd = (done ++ [e]) ++ x.1.fifo
    rw [hflow, hf, hfifo, List.append_assoc]
    rfl
  · change b.sent ++ memReqs .write (ack ++ x.2) =
      (done ++ [e]).map x.1.drainReq ++ ([] ++ memReqs .write (ack ++ x.2))
    rw [hsent, hout, hreq, List.map_append, List.nil_append]
    rfl
  · change b.answered ++ (storeResps (ack ++ x.2)).map (b.now, ·) = old.map (reply x.1.cacheId)
    rw [hnone, List.map_nil, List.append_nil, hid]
    exact hold
  · rcases hacks with ⟨hstores, hinf, _⟩ | ⟨a, hstores, htime, hresp, hrest⟩
    · exact .inl ⟨hstores, hd.schedWTime.trans hinf, hd.busy.mpr⟩
    · refine .inr ⟨a, hstores, hd.schedWTime.trans htime, ?_, hrest⟩
      change x.1.schedWResp = (reply x.1.cacheId a).2
      rw [hid]
      exact hd.schedWResp.trans hresp

theorem Tidy.tick {b : Run entries} (h : b.Tidy) (hu : b.updated = true) :
    Tidy { b with now := b.now + 1, updated := false, wrote := false } := by
  have hdue : b.due = b.now + 1 := if_pos hu
  obtain ⟨old, hold, hpast, hacks⟩ := h.acks
  refine ⟨h.room, h.busy, h.readResp, fun hw => absurd hw Bool.false_ne_true, h.outstanding, h.flow,
    old, hold, fun a ha => hdue ▸ hpast a ha, ?_⟩
  rcases hacks with hnone | ⟨a, hstores, htime, hresp, hdue', -⟩
  · exact .inl hnone
  · exact .inr ⟨a, hstores, htime, hresp, hdue.symm.trans hdue', rfl⟩

theorem Step.tidy {b b' : Run entries} {e : Event} (he : 0 < entries) (hs : Step b e b')
    (h : b.Tidy) : b'.Tidy := by
  cases hs with
  | update hu hx =>
    rw [doUpdate_base] at hx
    cases hx
    exact h.update hu
  | write addr data mask hu hw hr hx =>
    obtain ⟨hroom, hok⟩ := writeReq_buffered b.now addr data mask he hr
    rw [hok] at hx
    cases hx
    exact h.write hu hw ⟨addr, data, mask⟩ hroom _
  | read addr hr => exact h.readSide (readReq_readSide b.now addr b.cache)
  | answer m data hm hx =>
    obtain ⟨e, l, hf, _, hout, rfl⟩ := h.front hm
    obtain ⟨ack, hresps, hreqs, hok⟩ := recvMemResp_write b.now
      (m := { b.cache.drainReq e with dir := .resp, data := data }) rfl he hf rfl
    rw [hok] at hx
    cases hx
    have hnil : b.outstanding.erase (b.cache.drainReq e) = [] := by
      rw [hout, List.erase_cons_head]
    rw [hnil]
    exact h.answer hf hout hresps hreqs
  | load m hm hx => exact h.readSide (recvMemResp_readSide hm hx)
  | tick hu => exact h.tick hu

theorem Reachable.tidy {b : Run entries} (he : 0 < entries) (h : b.Reachable) : b.Tidy := by
  obtain ⟨t, id, h⟩ := h
  induction h with
  | refl => exact tidy_init t id
  | tail _ hstep ih =>
    obtain ⟨e, hs⟩ := hstep
    exact hs.tidy he ih

/-- What a requester and a memory may rely on. -/
structure Drains (b : Run entries) : Prop where
  room : b.cache.fifo.length ≤ entries
  kept : b.cache.fifo <:+ b.stores.map Prod.snd
  inOrder : b.sent <+: b.stores.map fun a => b.cache.drainReq a.2
  one : b.outstanding.length ≤ 1
  busy : b.cache.fifo ≠ [] → b.outstanding ≠ [] ∨ b.cache.schedWTime = ((b.due : Nat) : Tick)
  answered : b.answered =
    (b.stores.filter fun a => a.1 + 1 < b.due).map (reply b.cache.cacheId)
  accepts : b.cache.isReady.2 = true →
    ∀ addr data mask, ∃ x, b.cache.writeReq b.now addr data mask = .ok x
  settles : ∀ m ∈ b.outstanding, ∀ data,
    ∃ x, b.cache.recvMemResp b.now { m with dir := .resp, data := data } = .ok x

theorem Tidy.drains {b : Run entries} (h : b.Tidy) (he : 0 < entries) : b.Drains := by
  obtain ⟨done, hflow, hsent⟩ := h.flow
  obtain ⟨old, hold, hpast, hacks⟩ := h.acks
  have hall : b.stores.map (fun a => b.cache.drainReq a.2) =
      (done ++ b.cache.fifo).map b.cache.drainReq := by
    rw [← hflow, List.map_map]
    rfl
  have hone : b.outstanding = [] ∨ ∃ e l, b.cache.fifo = e :: l ∧ b.cache.wBusy = true ∧
      b.outstanding = [b.cache.drainReq e] := by
    cases hout : b.outstanding with
    | nil => exact .inl rfl
    | cons m l =>
      obtain ⟨e, l', hf, hb, hm, rfl⟩ := h.front (m := m) (hout ▸ List.mem_cons_self)
      exact .inr ⟨e, l', hf, hb, hout.symm.trans hm⟩
  refine ⟨h.room, ⟨done, hflow.symm⟩, ?_, ?_, fun hne => ?_, ?_, fun hr addr data mask => ?_,
    fun m hm data => ?_⟩
  · rw [hall, hsent, List.map_append]
    refine (List.prefix_append_right_inj _).mpr ?_
    rcases hone with hnil | ⟨e, l, hf, _, hout⟩
    · rw [hnil]
      exact List.nil_prefix
    · rw [hout, hf]
      exact ⟨l.map b.cache.drainReq, rfl⟩
  · rcases hone with hnil | ⟨e, l, _, _, hout⟩
    · rw [hnil]
      exact Nat.zero_le 1
    · rw [hout]
      exact le_rfl
  · rcases hacks with ⟨_, _, hgo⟩ | ⟨a, _, htime, _, hdue, _⟩
    · refine .inl ?_
      rw [h.outstanding]
      unfold underWay
      rw [if_pos (hgo hne)]
      cases hf : b.cache.fifo with
      | nil => exact absurd hf hne
      | cons e l => exact List.cons_ne_nil _ _
    · exact .inr (by rw [htime, hdue])
  · have hpart : old.filter (fun a => decide (a.1 + 1 < b.due)) = old :=
      List.filter_eq_self.mpr fun a ha => decide_eq_true (hpast a ha)
    rw [hold]
    rcases hacks with ⟨hstores, _⟩ | ⟨a, hstores, _, _, hdue, _⟩
    · rw [hstores, hpart]
    · have hlast : [a].filter (fun a => decide (a.1 + 1 < b.due)) = [] := by
        refine List.filter_eq_nil_iff.mpr fun a' ha => ?_
        rw [List.mem_singleton.mp ha, hdue, decide_eq_true_eq]
        exact Nat.lt_irrefl _
      rw [hstores, List.filter_append, hpart, hlast, List.append_nil]
  · exact ⟨_, (writeReq_buffered b.now addr data mask he hr).2⟩
  · obtain ⟨e, l, hf, _, _, rfl⟩ := h.front hm
    obtain ⟨ack, _, _, hok⟩ := recvMemResp_write b.now
      (m := { b.cache.drainReq e with dir := .resp, data := data }) rfl he hf rfl
    exact ⟨_, hok⟩

/-- A run in which the updates and the answers of memory keep coming. -/
structure FairRun (run : ℕ → Run entries) (event : ℕ → Event) : Prop where
  init : (run 0).Reachable
  step : ∀ n, Step (run n) (event n) (run (n + 1))
  updates : ∀ n, ∃ k ≥ n, event k = .update
  answers : ∀ n, ∀ m ∈ (run n).outstanding, ∃ k ≥ n, event k = .answer m

theorem Step.grows {b b' : Run entries} {e : Event} (he : 0 < entries) (hs : Step b e b')
    (h : b.Tidy) : b.sent <+: b'.sent ∧ b.stores <+: b'.stores ∧
      b'.cache.cacheId = b.cache.cacheId := by
  cases hs with
  | @update x hu hx =>
    refine ⟨List.prefix_append _ _, List.prefix_rfl, ?_⟩
    rw [doUpdate_base] at hx
    cases hx
    by_cases ht : b.cache.schedWTime ≤ b.now
    · obtain ⟨d, l, hd, hcache, _⟩ := updateImpl_respond ht
      change (b.cache.updateImpl b.now).1.cacheId = _
      rw [hcache, (drain_drained fun hb => ?_).cacheId]
      · exact hd.cacheId
      · change d.fifo ≠ []
        rw [hd.fifo]
        exact h.busy (hd.wBusy.symm.trans hb)
    · exact (updateImpl_readSide ht).cacheId
  | write addr data mask hu hw hr hx =>
    obtain ⟨_, hok⟩ := writeReq_buffered b.now addr data mask he hr
    rw [hok] at hx
    cases hx
    exact ⟨List.prefix_append _ _, List.prefix_append _ _, rfl⟩
  | read addr hr =>
    exact ⟨List.prefix_append _ _, List.prefix_rfl, (readReq_readSide b.now addr b.cache).cacheId⟩
  | answer m data hm hx =>
    refine ⟨List.prefix_append _ _, List.prefix_rfl, ?_⟩
    obtain ⟨e, l, hf, _, hout, rfl⟩ := h.front hm
    obtain ⟨ack, _, _, hok⟩ := recvMemResp_write b.now
      (m := { b.cache.drainReq e with dir := .resp, data := data }) rfl he hf rfl
    rw [hok] at hx
    cases hx
    exact (drain_drained fun hb => absurd hb Bool.false_ne_true).cacheId
  | load m hm hx =>
    exact ⟨List.prefix_append _ _, List.prefix_rfl, (recvMemResp_readSide hm hx).cacheId⟩
  | tick hu => exact ⟨List.prefix_rfl, List.prefix_rfl, rfl⟩

theorem Tidy.behind {b : Run entries} (h : b.Tidy)
    (hgo : b.cache.fifo ≠ [] → b.cache.wBusy = true) (hlt : b.sent.length < b.stores.length) :
    b.outstanding ≠ [] := by
  intro hnil
  obtain ⟨done, hflow, hsent⟩ := h.flow
  have hlen := congrArg List.length hflow
  rw [List.length_map, List.length_append] at hlen
  rw [hsent, hnil, List.append_nil, List.length_map] at hlt
  have hne : b.cache.fifo ≠ [] := by
    intro hf
    rw [hf, List.length_nil] at hlen
    omega
  have hout := h.outstanding
  unfold underWay at hout
  rw [hnil, if_pos (hgo hne)] at hout
  cases hf : b.cache.fifo with
  | nil => exact hne hf
  | cons e l =>
    rw [hf] at hout
    cases hout

theorem Step.update_busy {b b' : Run entries} (he : 0 < entries) (hs : Step b .update b')
    (h : b.Tidy) : b'.cache.fifo ≠ [] → b'.cache.wBusy = true := by
  obtain ⟨old, _, _, hacks⟩ := (hs.tidy he h).acks
  rcases hacks with ⟨_, _, hgo⟩ | ⟨a, _, _, _, _, hsame⟩
  · exact hgo
  · cases hs with
    | update hu hx =>
      have hwrote : b.wrote = true := hsame
      rw [h.wrote hwrote] at hu
      cases hu

theorem Step.answer_sends {b b' : Run entries} {m : MemTrans} (he : 0 < entries)
    (hs : Step b (.answer m) b') (h : b.Tidy) :
    (b'.cache.fifo ≠ [] → b'.cache.wBusy = true) ∧
      b'.sent.length = b.sent.length + b'.outstanding.length := by
  cases hs with
  | @answer x _ data hm hx =>
    obtain ⟨e, l, hf, _, hout, rfl⟩ := h.front hm
    obtain ⟨ack, _, _, hok⟩ := recvMemResp_write b.now
      (m := { b.cache.drainReq e with dir := .resp, data := data }) rfl he hf rfl
    rw [hok] at hx
    cases hx
    refine ⟨(drain_drained fun hb => absurd hb Bool.false_ne_true).busy.mpr, ?_⟩
    change (b.sent ++ memReqs .write _).length =
      b.sent.length + (b.outstanding.erase _ ++ memReqs .write _).length
    rw [hout, List.erase_cons_head, List.length_append, List.nil_append]

variable {run : ℕ → Run entries} {event : ℕ → Event}

theorem FairRun.tidy (h : FairRun run event) (he : 0 < entries) (n : ℕ) : (run n).Tidy := by
  induction n with
  | zero => exact h.init.tidy he
  | succ n ih => exact (h.step n).tidy he ih

theorem FairRun.grows (h : FairRun run event) (he : 0 < entries) {n k : ℕ} (hk : n ≤ k) :
    (run n).sent <+: (run k).sent ∧ (run n).stores <+: (run k).stores ∧
      (run k).cache.cacheId = (run n).cache.cacheId := by
  induction k, hk using Nat.le_induction with
  | base => exact ⟨List.prefix_rfl, List.prefix_rfl, rfl⟩
  | succ k _ ih =>
    obtain ⟨hsent, hstores, hid⟩ := (h.step k).grows he (h.tidy he k)
    exact ⟨ih.1.trans hsent, ih.2.1.trans hstores, hid.trans ih.2.2⟩

private theorem FairRun.next_sent (h : FairRun run event) (he : 0 < entries) {n K : ℕ}
    (hK : K ≤ (run n).stores.length) (hout : (run n).outstanding ≠ []) :
    ∃ k ≥ n, K ≤ (run k).sent.length ∨ (run n).sent.length < (run k).sent.length := by
  obtain ⟨m, hm⟩ := List.exists_mem_of_ne_nil _ hout
  obtain ⟨k, hk, hans⟩ := h.answers n m hm
  have hs := h.step k
  rw [hans] at hs
  obtain ⟨hgo, hlen⟩ := hs.answer_sends he (h.tidy he k)
  have hnext : n ≤ k + 1 := Nat.le_succ_of_le hk
  have hle := (h.grows he hk).1.length_le
  have hstores := (h.grows he hnext).2.1.length_le
  refine ⟨k + 1, hnext, ?_⟩
  by_cases hlt : (run (k + 1)).sent.length < (run (k + 1)).stores.length
  · have hpos := List.length_pos_iff.mpr ((h.tidy he (k + 1)).behind hgo hlt)
    right
    omega
  · left
    omega

/-- Every store that has been accepted is sent. -/
theorem FairRun.all_sent (h : FairRun run event) (he : 0 < entries) (n : ℕ) :
    ∃ k ≥ n, (run n).stores.map (fun a => (run n).cache.drainReq a.2) <+: (run k).sent := by
  have hmore : ∀ j ≥ n, ¬(run n).stores.length ≤ (run j).sent.length → ∃ k ≥ j,
      (run n).stores.length ≤ (run k).sent.length ∨
        (run j).sent.length < (run k).sent.length := by
    intro j hj hno
    have hstores : ∀ i ≥ j, (run n).stores.length ≤ (run i).stores.length := fun i hi =>
      (h.grows he (hj.trans hi)).2.1.length_le
    obtain ⟨k, hk, hup⟩ := h.updates j
    have hs := h.step k
    rw [hup] at hs
    have hnext : j ≤ k + 1 := Nat.le_succ_of_le hk
    have hle := (h.grows he hnext).1.length_le
    by_cases hdone : (run n).stores.length ≤ (run (k + 1)).sent.length
    · exact ⟨k + 1, hnext, .inl hdone⟩
    · have hlt := lt_of_lt_of_le (not_le.mp hdone) (hstores (k + 1) hnext)
      have hout := (h.tidy he (k + 1)).behind (hs.update_busy he (h.tidy he k)) hlt
      obtain ⟨i, hi, hx⟩ := h.next_sent he (hstores (k + 1) hnext) hout
      exact ⟨i, by omega, hx.imp_right fun hx => by omega⟩
  have hall : ∃ k ≥ n, (run n).stores.length ≤ (run k).sent.length := by
    have hfall : ∀ i, ¬(run n).stores.length ≤ (run (n + i)).sent.length → ∃ k ≥ i,
        (run n).stores.length ≤ (run (n + k)).sent.length ∨
          (run n).stores.length - (run (n + k)).sent.length <
            (run n).stores.length - (run (n + i)).sent.length := by
      intro i hno
      obtain ⟨k, hk, hx⟩ := hmore (n + i) (Nat.le_add_right n i) hno
      refine ⟨k - n, by omega, ?_⟩
      rw [show n + (k - n) = k by omega]
      exact hx.imp_right fun hx => by omega
    obtain ⟨k, _, hk⟩ := @NpSim.Lib.Fair.eventually_of_descent _ (fun i => run (n + i))
      (fun b => (run n).stores.length ≤ b.sent.length)
      (fun b => (run n).stores.length - b.sent.length) hfall 0
    exact ⟨n + k, Nat.le_add_right n k, hk⟩
  obtain ⟨k, hk, hlen⟩ := hall
  refine ⟨k, hk, ?_⟩
  obtain ⟨_, hstores, hid⟩ := h.grows he hk
  have hreq : (run n).cache.drainReq = (run k).cache.drainReq := drainReq_congr hid.symm
  rw [hreq]
  have hsent := ((h.tidy he k).drains he).inOrder
  refine List.prefix_of_prefix_length_le (hstores.map _) hsent ?_
  rw [List.length_map]
  exact hlen

end Run

/-- Every accepted store is sent to memory once, in the order of acceptance and with one write
under way at most, and it is answered one tick after its acceptance. -/
theorem stores_drain (he : 0 < entries) :
    (∀ b : Run entries, b.Reachable → b.Drains) ∧
      ∀ (run : ℕ → Run entries) (event : ℕ → Run.Event), Run.FairRun run event → ∀ n,
        ∃ k ≥ n, (run n).stores.map (fun a => (run n).cache.drainReq a.2) <+: (run k).sent :=
  ⟨fun _ hb => (hb.tidy he).drains he, fun _ _ h n => h.all_sent he n⟩

namespace Run

def writeOf (e : StBufEnt) : MemTrans := ⟨.req, .write, e.addr, 1, 1, [e.data], [e.mask], 0⟩

/-- A buffer of two that holds `fifo`, its latest response being the one for `last`. -/
def holding (accesses : Nat) (fifo : List StBufEnt) (last : Nat × StBufEnt) (resp : Tick)
    (busy : Bool) : StoreBuffer 2 :=
  { cacheId := 1, stats := { accesses := accesses }, fifo := fifo, wBusy := busy
    schedWTime := resp, schedWResp := (reply 1 last).2 }

def storeA : StBufEnt := ⟨8, 5, 15⟩

def storeB : StBufEnt := ⟨12, 6, 15⟩

def oneStore : Run 2 :=
  { updated := true, wrote := true, stores := [(0, storeA)]
    cache := holding 1 [storeA] (0, storeA) ((0 + 1 : Nat) : Tick) false }

def oneSent : Run 2 :=
  { oneStore with
    now := 1, wrote := false, cache := holding 1 [storeA] (0, storeA) infTime true
    sent := [writeOf storeA], outstanding := [writeOf storeA], answered := [reply 1 (0, storeA)] }

def twoStores : Run 2 :=
  { oneSent with
    wrote := true, stores := [(0, storeA), (1, storeB)]
    cache := holding 2 [storeA, storeB] (1, storeB) ((1 + 1 : Nat) : Tick) true }

def twoAnswered : Run 2 :=
  { twoStores with
    now := 2, wrote := false, cache := holding 2 [storeA, storeB] (1, storeB) infTime true
    answered := [reply 1 (0, storeA), reply 1 (1, storeB)] }

def twoSent : Run 2 :=
  { twoAnswered with
    cache := holding 2 [storeB] (1, storeB) infTime true
    sent := [writeOf storeA, writeOf storeB], outstanding := [writeOf storeB] }

def bothDone (t : Nat) (updated : Bool) : Run 2 :=
  { twoSent with
    now := t, updated := updated, cache := holding 2 [] (1, storeB) infTime false
    outstanding := [] }

/-- Two stores in two ticks: the second finds the first in the buffer, and follows it when memory
answers. -/
def doubleRun : ℕ → Run 2
  | 0 => { cache := { cacheId := 1 } }
  | 1 => { cache := { cacheId := 1 }, updated := true }
  | 2 => oneStore
  | 3 => { oneStore with now := 1, updated := false, wrote := false }
  | 4 => oneSent
  | 5 => twoStores
  | 6 => { twoStores with now := 2, updated := false, wrote := false }
  | 7 => twoAnswered
  | 8 => twoSent
  | n + 9 => bothDone (2 + (n + 1) / 2) (n % 2 = 0)

def doubleEvent : ℕ → Event
  | 0 => .update
  | 1 => .write
  | 2 => .tick
  | 3 => .update
  | 4 => .write
  | 5 => .tick
  | 6 => .update
  | 7 => .answer (writeOf storeA)
  | 8 => .answer (writeOf storeB)
  | n + 9 => if n % 2 = 0 then .tick else .update

private theorem bothDone_update (t : Nat) :
    Step (bothDone t false) .update (bothDone t true) :=
  Step.update (x := ((bothDone t false).cache, [])) rfl
    (if_neg (not_le.mpr (ENat.natCast_lt_top t)))

theorem doubleRun_step (n : ℕ) :
    Step (doubleRun n) (doubleEvent n) (doubleRun (n + 1)) := by
  match n with
  | 0 => exact Step.update (x := ({ cacheId := 1 }, [])) rfl rfl
  | 1 => exact Step.write (x := (oneStore.cache, [])) 8 5 15 rfl rfl rfl rfl
  | 2 => exact Step.tick rfl
  | 3 =>
    refine Step.update (x := (oneSent.cache, [.cpuResp (reply 1 (0, storeA)).2,
      .memReq (writeOf storeA)])) rfl ?_
    rw [doUpdate_base]
    exact congrArg Except.ok (by decide +kernel)
  | 4 => exact Step.write (x := (twoStores.cache, [])) 12 6 15 rfl rfl rfl rfl
  | 5 => exact Step.tick rfl
  | 6 =>
    refine Step.update (x := (twoAnswered.cache, [.cpuResp (reply 1 (1, storeB)).2])) rfl ?_
    rw [doUpdate_base]
    exact congrArg Except.ok (by decide +kernel)
  | 7 =>
    exact Step.answer (x := (twoSent.cache, [.cpuAck ⟨1, .write⟩, .memReq (writeOf storeB)])) _ []
      List.mem_cons_self rfl
  | 8 => exact Step.answer (x := ((bothDone 2 true).cache, [])) _ [] List.mem_cons_self rfl
  | n + 9 =>
    change Step (bothDone (2 + (n + 1) / 2) (n % 2 = 0)) (if n % 2 = 0 then .tick else .update)
      (bothDone (2 + (n + 1 + 1) / 2) ((n + 1) % 2 = 0))
    rcases Nat.mod_two_eq_zero_or_one n with he | ho
    · have hnow : 2 + (n + 1 + 1) / 2 = 2 + (n + 1) / 2 + 1 := by omega
      rw [if_pos he, hnow, decide_eq_true he, decide_eq_false (by omega)]
      exact .tick rfl
    · have hnow : 2 + (n + 1 + 1) / 2 = 2 + (n + 1) / 2 := by omega
      have hne : ¬n % 2 = 0 := by omega
      rw [if_neg hne, hnow, decide_eq_false hne, decide_eq_true (by omega)]
      exact bothDone_update _

private theorem doubleRun_fair : FairRun doubleRun doubleEvent := by
  refine ⟨⟨0, 1, .refl⟩, doubleRun_step, fun n => ?_, fun n m hm => ?_⟩
  · exact ⟨2 * n + 10, by omega, if_neg (by omega)⟩
  · match n with
    | 0 | 1 | 2 | 3 => cases hm
    | 4 | 5 | 6 | 7 =>
      obtain rfl := List.mem_singleton.mp hm
      exact ⟨7, by decide, rfl⟩
    | 8 => exact ⟨8, le_rfl, by rw [List.mem_singleton.mp hm]; rfl⟩
    | n + 9 => cases hm

end Run

/-- A buffer of two holds two stores; they go to memory in order, the second one when memory has
answered the first. -/
theorem stores_drain_two : (∀ b : Run 2, b.Reachable → b.Drains) ∧
    ∃ (run : ℕ → Run 2) (event : ℕ → Run.Event), Run.FairRun run event ∧
      (run 5).stores = [(0, Run.storeA), (1, Run.storeB)] ∧
      (run 5).cache.fifo = [Run.storeA, Run.storeB] ∧
      event 7 = .answer ((run 5).cache.drainReq Run.storeA) ∧
      (run 8).outstanding = [(run 5).cache.drainReq Run.storeB] ∧
      ∃ k ≥ 5, [(run 5).cache.drainReq Run.storeA, (run 5).cache.drainReq Run.storeB] <+:
        (run k).sent := by
  obtain ⟨hsafe, hlive⟩ := @stores_drain 2 (by decide)
  obtain ⟨k, hk, hsent⟩ := hlive Run.doubleRun Run.doubleEvent Run.doubleRun_fair 5
  exact ⟨hsafe, Run.doubleRun, Run.doubleEvent, Run.doubleRun_fair, rfl, rfl, rfl, rfl, k, hk,
    hsent⟩

end NpSim.Cache.StoreBuffer
