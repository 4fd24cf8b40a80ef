/- digest: Who waits for whom: every answer that a port awaits is a request in its slot of the
   memory or on its way there, and the core has at most one data access on its two ports. -/

import NpSim.Cache.Bench
import NpSim.Cache.Flush
import NpSim.Mem.Slots
import NpSim.Pipe.Contracts
import NpSim.System.Wire

set_option autoImplicit false
set_option relaxedAutoImplicit false

namespace NpSim.Cache

open NpSim.Lib.Partial

/-- The port that a message belongs to. -/
def CacheOut.id : CacheOut → Nat
  | .cpuResp t => t.id
  | .cpuAck a => a.id
  | .memReq m => m.id

namespace PipeCache

variable {P : CacheParams} {c c' : PipeCache P} {now : Nat}

private theorem finishUpdate_id {outs : List CacheOut} (hx : c.finishUpdate now = .ok (c', outs)) :
    ∀ o ∈ outs, o.id = P.cacheId := by
  have hacks : ∀ o ∈ [CacheOut.cpuAck ⟨P.cacheId, .read⟩, .cpuAck ⟨P.cacheId, .write⟩],
      o.id = P.cacheId := by
    intro o ho
    rcases List.mem_cons.mp ho with rfl | ho
    · rfl
    · rw [List.mem_singleton.mp ho]
      rfl
  unfold finishUpdate at hx
  split at hx
  · cases hx
    exact fun o ho => absurd ho List.not_mem_nil
  · dsimp only at hx
    split at hx
    · split at hx
      · obtain ⟨_, _, hx⟩ := bind_eq_ok.mp hx
        cases hx
        exact fun o ho => absurd ho List.not_mem_nil
      · cases hx
        exact hacks
    · cases hx
      exact hacks

private theorem handleHit_id {bk : CachePipeEntry} {r : LineRef} {outs : List CacheOut}
    (hx : c.handleHit now bk r = .ok (c', outs)) : ∀ o ∈ outs, o.id = P.cacheId := by
  have hrespond : ∀ (d : PipeCache P) (t : CpuTrans), t.id = P.cacheId →
      ∀ o ∈ (d.respond now t).2, o.id = P.cacheId := by
    intro d t ht o ho
    unfold respond at ho
    split at ho
    · cases ho
    · rw [List.mem_singleton.mp ho]
      exact ht
  unfold handleHit at hx
  dsimp only at hx
  split at hx
  · obtain ⟨dt, _, hx⟩ := bind_eq_ok.mp hx
    have ho := congrArg Prod.snd (Except.ok.inj hx)
    rw [← show _ = outs from ho]
    exact hrespond _ _ rfl
  · have ho := congrArg Prod.snd (Except.ok.inj hx)
    rw [← show _ = outs from ho]
    exact hrespond _ _ rfl

private theorem missUpdate_id (now : Nat) (bk : CachePipeEntry) (c : PipeCache P) :
    ∀ o ∈ (c.missUpdate now bk).2, o.id = P.cacheId := by
  unfold missUpdate
  split
  · exact fun o ho => absurd ho List.not_mem_nil
  · split
    · split
      · exact fun o ho => absurd ho List.not_mem_nil
      · intro o ho
        rw [List.mem_singleton.mp ho]
        rfl
    · split
      · exact fun o ho => absurd ho List.not_mem_nil
      · intro o ho
        rw [List.mem_singleton.mp ho]
        rfl

private theorem serve_id {outs : List CacheOut} (hx : c.serve now = .ok (c', outs)) :
    ∀ o ∈ outs, o.id = P.cacheId := by
  unfold PipeCache.serve at hx
  split at hx
  · unfold serveTail at hx
    obtain ⟨⟨bk, e⟩, _, hx⟩ := bind_eq_ok.mp hx
    dsimp only at hx
    split at hx
    · cases hx
    · rename_i r _
      obtain ⟨_, hx⟩ := require_bind_eq_ok.mp hx
      split at hx
      · unfold hitUpdate at hx
        obtain ⟨⟨d, resp⟩, hd, hx⟩ := bind_eq_ok.mp hx
        obtain ⟨f, _, hx⟩ := bind_eq_ok.mp hx
        obtain ⟨⟨k, o⟩, hk, hx⟩ := bind_eq_ok.mp hx
        cases hx
        intro x hx
        rcases List.mem_append.mp hx with hx | hx
        · exact handleHit_id hd x hx
        · exact finishUpdate_id hk x hx
      · have ho := congrArg Prod.snd (Except.ok.inj hx)
        rw [← show _ = outs from ho]
        exact missUpdate_id now bk _
  · exact finishUpdate_id hx

theorem WellFormed.doUpdate_id {outs : List CacheOut} (h : WellFormed c) (hi : Immediate P)
    (hx : c.doUpdate now = .ok (c', outs)) : ∀ o ∈ outs, o.id = P.cacheId := by
  rcases doUpdate_cases hx with ⟨_, _, rfl⟩ | ⟨_, o, ho, rfl⟩
  · exact fun o ho => absurd ho List.not_mem_nil
  · rw [deliverDeferred_never now (h.sched hi)] at ho ⊢
    exact serve_id ho

/-- The answers of memory that the cache awaits. -/
def awaits (c : PipeCache P) : MemRWOpt → Nat
  | .read => c.readsOwed.length
  | .write => c.writesOwed

theorem WellFormed.pending_of_awaits (h : WellFormed c) {op : MemRWOpt} (ha : 0 < c.awaits op) :
    0 < c.pending.length := by
  have hback : ∀ bk, c.back = some bk → 0 < c.pending.length := fun bk hb => by
    rw [pending_of_pipe (pipe_eq h.len), hb, Option.toList_some, List.singleton_append,
      List.length_cons]
    exact Nat.succ_pos _
  have hquiet : ∀ _ : c.Quiet, c.awaits op = 0 := fun hq => by
    cases op with
    | read =>
      change c.readsOwed.length = 0
      rw [readsOwed, hq.rWaiting]
      rfl
    | write =>
      change c.writesOwed = 0
      rw [writesOwed, hq.wWaiting]
      rfl
  cases h.tail with
  | empty _ hq => exact absurd (hquiet hq) (Nat.ne_of_gt ha)
  | fresh bk hb _ hq => exact absurd (hquiet hq) (Nat.ne_of_gt ha)
  | missed bk _ hb => exact hback bk hb
  | filling bk _ hb => exact hback bk hb
  | filled bk _ hb => exact hback bk hb

theorem awaits_le (c : PipeCache P) (op : MemRWOpt) : c.awaits op ≤ 1 := by
  cases op with
  | read =>
    change c.readsOwed.length ≤ 1
    unfold readsOwed
    split
    · cases c.back with
      | none => exact Nat.zero_le 1
      | some e => exact Nat.le_refl 1
    · exact Nat.zero_le 1
  | write =>
    change c.writesOwed ≤ 1
    unfold writesOwed
    split
    · exact Nat.le_refl 1
    · exact Nat.zero_le 1

/-- A cache takes only an answer that it awaits. -/
theorem recvMemResp_awaits {m : MemTrans}
    (hx : c.recvMemResp now m = .ok c') (op : MemRWOpt) :
    c.awaits op = c'.awaits op + if op = m.mop then 1 else 0 := by
  have ht := recvMemResp_traffic hx
  have hread : m.mop = .read → c.readsOwed.length = 1 := by
    intro hop
    obtain ⟨hr, bk, _, _, hb, _⟩ := (recvRead_eq_ok hop).mp hx
    rw [readsOwed, hr, if_pos rfl, hb]
    rfl
  cases hm : m.mop with
  | read =>
    rw [hm] at ht
    cases op with
    | read =>
      change c.readsOwed.length = c'.readsOwed.length + 1
      rw [ht.1, hread hm]
      rfl
    | write => exact ht.2.symm
  | write =>
    rw [hm] at ht
    cases op with
    | read =>
      change c.readsOwed.length = c'.readsOwed.length
      rw [ht.1]
    | write =>
      change c.writesOwed = c'.writesOwed + 1
      rw [ht.2.1, ht.2.2]

/-- A cache that never writes to memory. -/
structure Reader (c : PipeCache P) : Prop where
  wWaiting : c.wWaiting = false
  pendingEvict : c.pendingEvict = false

theorem WellFormed.doUpdate_reader {outs : List CacheOut} (hwt : P.writeBack = false)
    (h : WellFormed c) (hr : c.Reader) (hx : c.doUpdate now = .ok (c', outs)) : c'.Reader := by
  rcases doUpdate_cases hx with ⟨_, rfl, _⟩ | ⟨_, o, ho, _⟩
  · exact hr
  · rw [deliverDeferred_never now (h.sched (Immediate.of_through hwt))] at ho
    refine ⟨?_, serve_evict hwt hr.pendingEvict ho⟩
    cases h.serve_cases ho with
    | finish hb hx =>
      have hrw : c.rWaiting = false := by
        cases h.tail with
        | empty _ hq => exact hq.rWaiting
        | fresh bk hb' => cases hb'.symm.trans hb
        | missed bk _ hb' => cases hb'.symm.trans hb
        | filling bk _ hb' => cases hb'.symm.trans hb
        | filled bk _ hb' => cases hb'.symm.trans hb
      exact (finishUpdate_quiet hrw hr.wWaiting hx).2.1
    | hit bk₀ bk r e hb hlook hline heff hready hg hfill hwait hw hx =>
      obtain ⟨d, resp, f, o, hd, hf, hk, rfl, _⟩ := hready.hitUpdate hx
      have hh := handleHit_cases hready.hv hd
      obtain ⟨hs, _⟩ := prefetchAfter_cases hf
      exact (finishUpdate_quiet (c := f.retire bk)
        (hs.rWaiting.trans (hh.rWaiting.trans hready.hq.rWaiting))
        (hs.wWaiting.trans (hh.wWaiting.trans hready.hq.wWaiting)) hk).2.1
    | start bk bk' r e hb hf hq ht hv heq =>
      rw [heq]
      exact ht.wWaiting.trans hr.wWaiting
    | miss bk r hb hh hv hm h0 hfill hrw hp he hlen heq =>
      have hc : c' = (c.missUpdate now bk).1 := congrArg Prod.fst heq
      have hfill' : ¬(!c.pendingFillReq) = true := by
        rw [hfill]
        decide
      have hevict : ¬c.pendingEvict = true := Bool.eq_false_iff.mp hr.pendingEvict
      have hwait : ¬c.wWaiting = true := Bool.eq_false_iff.mp hr.wWaiting
      rw [hc]
      unfold missUpdate
      rw [if_neg hfill', if_neg hevict, if_neg hwait]
      exact hr.wWaiting

theorem Reader.readReq (hr : c.Reader) {addr : Addr} (hx : c.readReq now addr = .ok c') :
    c'.Reader := by
  unfold PipeCache.readReq PipeCache.enqueue at hx
  obtain ⟨_, hx⟩ := require_bind_eq_ok.mp hx
  split at hx
  · cases hx
    exact ⟨hr.wWaiting, hr.pendingEvict⟩
  · cases hx

theorem Reader.awaits (hr : c.Reader) : c.awaits .write = 0 := by
  change c.writesOwed = 0
  rw [writesOwed, hr.wWaiting]
  rfl

theorem Reader.recvMemResp (hr : c.Reader) {m : MemTrans}
    (hx : c.recvMemResp now m = .ok c') : c'.Reader := by
  refine ⟨?_, (recvMemResp_frame hx).2.2.1.trans hr.pendingEvict⟩
  have haw := recvMemResp_awaits hx .write
  rw [hr.awaits] at haw
  have hzero : c'.writesOwed = 0 := (Nat.add_eq_zero_iff.mp haw.symm).1
  unfold writesOwed at hzero
  split at hzero
  · cases hzero
  · rename_i hw
    exact Bool.eq_false_iff.mpr hw

end PipeCache

namespace NoCache

def awaits (c : NoCache) : MemRWOpt → Nat
  | .read => c.rBusy.toNat
  | .write => c.wBusy.toNat

def load (c : NoCache) : Nat := c.awaits .read + c.awaits .write

end NoCache

end NpSim.Cache

namespace NpSim.System

open NpSim.Lib.Partial NpSim.Cache NpSim.Mem NpSim.Pipe NpSim.Pipe.Pipeline Relation

def sent (op : MemRWOpt) (id : Nat) (outs : List CacheOut) : List MemTrans :=
  (memReqs op outs).filter fun m => m.id = id

theorem sent_append (op : MemRWOpt) (id : Nat) (l m : List CacheOut) :
    sent op id (l ++ m) = sent op id l ++ sent op id m := by
  unfold sent
  rw [memReqs_append, List.filter_append]

theorem sent_of_id {outs : List CacheOut} {k : Nat} (h : ∀ o ∈ outs, o.id = k) (op : MemRWOpt)
    (id : Nat) : (sent op id outs).length = if id = k then (memReqs op outs).length else 0 := by
  have hmem : ∀ m ∈ memReqs op outs, m.id = k := by
    intro m hm
    obtain ⟨o, ho, hx⟩ := List.mem_filterMap.mp hm
    cases o with
    | cpuResp t => cases hx
    | cpuAck a => cases hx
    | memReq x =>
      dsimp only at hx
      split at hx
      · cases hx
        exact h _ ho
      · cases hx
  unfold sent
  split
  · rename_i hid
    rw [List.filter_eq_self.mpr fun m hm => decide_eq_true ((hmem m hm).trans hid.symm)]
  · rename_i hid
    rw [List.filter_eq_nil_iff.mpr fun m hm hc =>
      hid ((of_decide_eq_true hc).symm.trans (hmem m hm))]
    rfl

def dataResps (outs : List CacheOut) : Nat :=
  outs.countP fun o => match o with
    | .cpuResp t => t.id != 0
    | _ => false

theorem dataResps_of_id {outs : List CacheOut} {k : Nat} (h : ∀ o ∈ outs, o.id = k) :
    dataResps outs = if k = 0 then 0 else (cpuResps outs).length := by
  induction outs with
  | nil =>
    split <;> rfl
  | cons o outs ih =>
    have htail := ih fun x hx => h x (List.mem_cons_of_mem o hx)
    have hid := h o List.mem_cons_self
    unfold dataResps at htail ⊢
    rw [List.countP_cons, htail]
    cases o with
    | cpuResp t =>
      obtain rfl : t.id = k := hid
      dsimp only
      by_cases hk : t.id = 0
      · rw [if_pos hk, if_pos hk, if_neg fun hc => bne_iff_ne.mp hc hk]
      · rw [if_neg hk, if_neg hk, if_pos (bne_iff_ne.mpr hk)]
        rfl
    | cpuAck a => rfl
    | memReq m => rfl

namespace DataPort

variable {P : CacheParams} {d d' : DataPort P} {outs : List CacheOut} {now : Nat}

def id : DataPort P → Nat
  | .cached _ => P.cacheId
  | .uncached c => c.cacheId

def awaits : DataPort P → MemRWOpt → Nat
  | .cached c => c.awaits
  | .uncached c => c.awaits

def load : DataPort P → Nat
  | .cached c => c.pending.length
  | .uncached c => c.load

/-- What a call on a port does: it takes `new` accesses and answers some, it awaits what it sends to
memory, and all it sends carries its number. -/
structure Does (new : Nat) (d : DataPort P) (outs : List CacheOut) (d' : DataPort P) : Prop where
  id : d'.id = d.id
  ids : ∀ o ∈ outs, o.id = d.id
  load : d.load + new = d'.load + (cpuResps outs).length
  awaits : ∀ op, d'.awaits op = d.awaits op + (memReqs op outs).length

theorem load_of_awaits (h : d.WellFormed) {op : MemRWOpt} (ha : 0 < d.awaits op) : 0 < d.load := by
  cases d with
  | cached c => exact PipeCache.WellFormed.pending_of_awaits h ha
  | uncached c =>
    have hx : 0 < c.awaits op := ha
    change 0 < c.awaits .read + c.awaits .write
    cases op <;> omega

theorem awaits_le (d : DataPort P) (op : MemRWOpt) : d.awaits op ≤ 1 := by
  cases d with
  | cached c => exact c.awaits_le op
  | uncached c => cases op <;> exact Bool.toNat_le _

private theorem pending_of_effect {c c' : PipeCache P} {new : List (Addr × MemRWOpt)}
    (hi : PipeCache.Immediate P) (he : PipeCache.Effect new c outs c') :
    c.pending.length + new.length = c'.pending.length + (cpuResps outs).length := by
  obtain ⟨k, hk, hresp⟩ := he.served
  have hlog := congrArg List.length he.log
  rw [hresp hi, List.length_map]
  simp only [List.length_map, List.length_append, PipeCache.log, hk] at hlog
  omega

private theorem does_of_effect {c c' : PipeCache P} {new : List (Addr × MemRWOpt)}
    (hi : PipeCache.Immediate P) (he : PipeCache.Effect new c outs c')
    (hids : ∀ o ∈ outs, o.id = P.cacheId) (ht : PipeCache.Traffic c outs c') :
    Does new.length (.cached c) outs (.cached c' : DataPort P) := by
  refine ⟨rfl, hids, pending_of_effect hi he, fun op => ?_⟩
  cases op with
  | read =>
    have hr := congrArg List.length ht.reads
    rw [List.length_append, List.length_map] at hr
    exact hr
  | write => exact ht.writes

theorem WellFormed.doUpdate_does (hi : PipeCache.Immediate P) (h : d.WellFormed)
    (hx : d.doUpdate now = .ok (d', outs)) : Does 0 d outs d' := by
  cases d with
  | uncached c =>
    cases hx
    exact ⟨rfl, fun o ho => absurd ho List.not_mem_nil, rfl, fun _ => rfl⟩
  | cached c =>
    obtain ⟨⟨c', o⟩, hc, hx⟩ := bind_eq_ok.mp hx
    cases hx
    have hw : c.WellFormed := h
    exact does_of_effect hi (hw.doUpdate hc).2.1 (hw.doUpdate_id hi hc) (hw.doUpdate_traffic hc)

theorem WellFormed.request_does (hi : PipeCache.Immediate P) (hwb : P.writeBack = true)
    (h : d.WellFormed) {op : MemRWOpt} {addr : Addr} {data : Word} {strb : BitVec 8}
    (hx : d.request now op addr data strb = .ok (d', outs)) : Does 1 d outs d' := by
  cases d with
  | uncached c =>
    cases op with
    | read =>
      obtain ⟨⟨c', m⟩, hc, hx⟩ := bind_eq_ok.mp hx
      cases hx
      obtain ⟨hready, hc⟩ := require_bind_eq_ok.mp hc
      cases hc
      have hfree : c.rBusy = false := by
        rwa [NoCache.isReady, Bool.not_eq_true'] at hready
      refine ⟨rfl, fun o ho => ?_, ?_, fun op => ?_⟩
      · rw [List.mem_singleton.mp ho]
        rfl
      · change c.rBusy.toNat + c.wBusy.toNat + 1 = true.toNat + c.wBusy.toNat + 0
        rw [hfree, Bool.toNat_false, Bool.toNat_true]
        omega
      · cases op with
        | read =>
          change true.toNat = c.rBusy.toNat + 1
          rw [hfree]
          rfl
        | write => rfl
    | write =>
      obtain ⟨⟨c', m⟩, hc, hx⟩ := bind_eq_ok.mp hx
      cases hx
      obtain ⟨hready, hc⟩ := require_bind_eq_ok.mp hc
      cases hc
      have hfree : c.wBusy = false := by
        rwa [NoCache.isReady, Bool.not_eq_true'] at hready
      refine ⟨rfl, fun o ho => ?_, ?_, fun op => ?_⟩
      · rw [List.mem_singleton.mp ho]
        rfl
      · change c.rBusy.toNat + c.wBusy.toNat + 1 = c.rBusy.toNat + true.toNat + 0
        rw [hfree]
        rfl
      · cases op with
        | read => rfl
        | write =>
          change true.toNat = c.wBusy.toNat + 1
          rw [hfree]
          rfl
  | cached c =>
    have hw : c.WellFormed := h
    have henq : ∀ {e : CachePipeEntry} {c' : PipeCache P}, e.Fresh → c.enqueue now e = .ok c' →
        Does 1 (.cached c) [] (.cached c') := fun {e c'} he hc => by
      obtain ⟨hr, hwr⟩ := hw.enqueue_traffic hc
      exact does_of_effect hi (hw.enqueue he hc).2.1 (fun o ho => absurd ho List.not_mem_nil)
        ⟨hr.trans (List.append_nil _).symm, hwr⟩
    cases op with
    | read =>
      obtain ⟨c', hc, hx⟩ := bind_eq_ok.mp hx
      cases hx
      exact henq ⟨rfl, rfl, rfl, rfl⟩ hc
    | write =>
      obtain ⟨⟨c', o⟩, hc, hx⟩ := bind_eq_ok.mp hx
      cases hx
      unfold PipeCache.writeReq at hc
      rw [if_pos hwb] at hc
      obtain ⟨e, he, hc⟩ := bind_eq_ok.mp hc
      cases hc
      exact henq ⟨rfl, rfl, rfl, rfl⟩ he

/-- What an answer `m` of memory does to a port: it is no longer awaited, and nothing is sent to
memory. -/
structure Gets (m : MemTrans) (d : DataPort P) (outs : List CacheOut) (d' : DataPort P) : Prop where
  id : d'.id = d.id
  ids : ∀ o ∈ outs, o.id = d.id
  load : d.load = d'.load + (cpuResps outs).length
  awaits : ∀ op, d.awaits op = d'.awaits op + if op = m.mop then 1 else 0
  noReq : ∀ x, .memReq x ∉ outs

private theorem uncached_gets {c c' : NoCache} {m : MemTrans}
    (hx : c.recvMemResp m = .ok (c', outs)) :
    Gets m (.uncached c : DataPort P) outs (.uncached c') := by
  have hids : ∀ {t : CpuTrans} {a : AckTrans}, t.id = c.cacheId → a.id = c.cacheId →
      ∀ o ∈ [CacheOut.cpuResp t, .cpuAck a], o.id = c.cacheId := by
    intro t a ht ha o ho
    rcases List.mem_cons.mp ho with rfl | ho
    · exact ht
    · rw [List.mem_singleton.mp ho]
      exact ha
  have hno : ∀ (t : CpuTrans) (a : AckTrans) (x : MemTrans),
      CacheOut.memReq x ∉ [CacheOut.cpuResp t, .cpuAck a] := by
    intro t a x hmem
    rcases List.mem_cons.mp hmem with hx | hx
    · cases hx
    · cases List.mem_singleton.mp hx
  unfold NoCache.recvMemResp at hx
  dsimp only at hx
  split at hx
  · rename_i hop
    obtain ⟨hbusy, hx⟩ := require_bind_eq_ok.mp hx
    cases hx
    refine ⟨rfl, hids rfl rfl, ?_, fun op => ?_, hno _ _⟩
    · change c.rBusy.toNat + c.wBusy.toNat = false.toNat + c.wBusy.toNat + 1
      rw [hbusy, Bool.toNat_false, Bool.toNat_true]
      omega
    · rw [hop]
      cases op with
      | read =>
        change c.rBusy.toNat = 0 + 1
        rw [hbusy]
        rfl
      | write => rfl
  · rename_i hop
    obtain ⟨hbusy, hx⟩ := require_bind_eq_ok.mp hx
    cases hx
    refine ⟨rfl, hids rfl rfl, ?_, fun op => ?_, hno _ _⟩
    · change c.rBusy.toNat + c.wBusy.toNat = c.rBusy.toNat + false.toNat + 1
      rw [hbusy, Bool.toNat_false, Bool.toNat_true]
    · rw [hop]
      cases op with
      | read => rfl
      | write =>
        change c.wBusy.toNat = 0 + 1
        rw [hbusy]
        rfl

theorem WellFormed.recvMemResp_gets (hi : PipeCache.Immediate P) (h : d.WellFormed) {m : MemTrans}
    (hx : d.recvMemResp now m = .ok (d', outs)) : Gets m d outs d' := by
  cases d with
  | uncached c =>
    obtain ⟨⟨c', o⟩, hc, hx⟩ := bind_eq_ok.mp hx
    cases hx
    exact uncached_gets hc
  | cached c =>
    obtain ⟨c', hc, hx⟩ := bind_eq_ok.mp hx
    cases hx
    have hw : c.WellFormed := h
    have heff := pending_of_effect hi (hw.recvMemResp hc).2.1
    exact ⟨rfl, fun o ho => absurd ho List.not_mem_nil, heff, PipeCache.recvMemResp_awaits hc,
      fun x hx => absurd hx List.not_mem_nil⟩

end DataPort

end NpSim.System
