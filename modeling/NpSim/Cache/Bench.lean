/- digest: A cache under test: any requester, any memory, any order of calls; the invariant of its
   runs. -/

import NpSim.Cache.Tail

set_option autoImplicit false
set_option relaxedAutoImplicit false

namespace NpSim.Cache

open NpSim.Lib.Partial Relation

namespace PipeCache

variable {P : CacheParams} {c c' : PipeCache P} {now : Nat}

/-- The addresses of the refills the cache waits for. -/
def readsOwed (c : PipeCache P) : List Addr :=
  if c.rWaiting then c.back.toList.map CachePipeEntry.addr else []

/-- The number of evictions the cache waits for. -/
def writesOwed (c : PipeCache P) : Nat := if c.wWaiting then 1 else 0

/-- What the cache waits for after a call: what it waited for before, and what it has sent. -/
structure Traffic (c : PipeCache P) (outs : List CacheOut) (c' : PipeCache P) : Prop where
  reads : c'.readsOwed = c.readsOwed ++ (memReqs .read outs).map (·.addr)
  writes : c'.writesOwed = c.writesOwed + (memReqs .write outs).length

private theorem traffic_quiet {outs : List CacheOut} (hr : c.rWaiting = false)
    (hw : c.wWaiting = false) (hr' : c'.rWaiting = false) (hw' : c'.wWaiting = false)
    (ho : ∀ op, memReqs op outs = []) : Traffic c outs c' := by
  refine ⟨?_, ?_⟩
  · rw [readsOwed, readsOwed, hr, hr', ho]
    rfl
  · rw [writesOwed, writesOwed, hw, hw', ho]
    rfl

theorem finishUpdate_quiet {outs : List CacheOut} (hr : c.rWaiting = false)
    (hw : c.wWaiting = false) (hx : c.finishUpdate now = .ok (c', outs)) :
    c'.rWaiting = false ∧ c'.wWaiting = false ∧ ∀ op, memReqs op outs = [] := by
  unfold finishUpdate at hx
  split at hx
  · cases hx
    exact ⟨rfl, rfl, fun _ => rfl⟩
  · dsimp only at hx
    split at hx
    · rename_i bk hbk
      split at hx
      · obtain ⟨⟨bk', d⟩, hd, hx⟩ := bind_eq_ok.mp hx
        cases hx
        obtain ⟨r, ht⟩ := accessTail_looked hd
        exact ⟨ht.rWaiting.trans hr, ht.wWaiting.trans hw, fun _ => rfl⟩
      · cases hx
        exact ⟨hr, hw, fun _ => rfl⟩
    · cases hx
      exact ⟨hr, hw, fun _ => rfl⟩

theorem WellFormed.serve_traffic {outs : List CacheOut} (h : WellFormed c)
    (hx : c.serve now = .ok (c', outs)) : Traffic c outs c' := by
  cases h.serve_cases hx with
  | finish hb hx =>
    have hq : c.Quiet := by
      cases h.tail with
      | empty _ hq => exact hq
      | fresh bk hb' => exact absurd (hb'.symm.trans hb) (by simp)
      | missed bk _ hb' => exact absurd (hb'.symm.trans hb) (by simp)
      | filling bk _ hb' => exact absurd (hb'.symm.trans hb) (by simp)
      | filled bk _ hb' => exact absurd (hb'.symm.trans hb) (by simp)
    obtain ⟨h1, h2, h3⟩ := finishUpdate_quiet hq.rWaiting hq.wWaiting hx
    exact traffic_quiet hq.rWaiting hq.wWaiting h1 h2 h3
  | hit bk₀ bk r e hb hlook hline heff hr hg hfill hwait hw hx =>
    obtain ⟨d, resp, f, o, hd, hf, hk, rfl, hwf, hnone, _⟩ := hr.hitUpdate hx
    have hh := handleHit_cases hr.hv hd
    obtain ⟨hs, _⟩ := prefetchAfter_cases hf
    obtain ⟨h1, h2, h3⟩ := finishUpdate_quiet (c := f.retire bk)
      (hs.rWaiting.trans (hh.rWaiting.trans hr.hq.rWaiting))
      (hs.wWaiting.trans (hh.wWaiting.trans hr.hq.wWaiting)) hk
    refine traffic_quiet hwait hw h1 h2 fun op => ?_
    rw [memReqs_append, memReqs_of_noReq hh.noReq, h3]
    rfl
  | start bk bk' r e hb hf hq ht hv heq ho =>
    rw [heq, ho]
    exact traffic_quiet hq.rWaiting hq.wWaiting (ht.rWaiting.trans hq.rWaiting)
      (ht.wWaiting.trans hq.wWaiting) fun _ => rfl
  | miss bk r hb hh hv hm h0 hfill hr hp he hlen heq =>
    suffices ht : Traffic c (c.missUpdate now bk).2 (c.missUpdate now bk).1 by
      rwa [← heq] at ht
    unfold missUpdate
    rw [if_neg (by simp [hfill])]
    split
    · split
      · exact ⟨(List.append_nil _).symm, rfl⟩
      · rename_i hw
        refine ⟨?_, ?_⟩
        · rw [readsOwed, readsOwed, hr]
          rfl
        · simp [writesOwed, hw, memReqs]
    · split
      · exact ⟨(List.append_nil _).symm, rfl⟩
      · rename_i hw
        refine ⟨?_, ?_⟩
        · have hback : ({ c with
              pendingFillReq := false, rWaiting := true, isReplay := true }.setBack
                (some { bk with refills := bk.refills + 1 })).back =
              some { bk with refills := bk.refills + 1 } := back_of_pipe rfl
          rw [readsOwed, readsOwed, hr, hback]
          rfl
        · simp [writesOwed, setBack, hw, memReqs]

theorem WellFormed.doUpdate_traffic {outs : List CacheOut} (h : WellFormed c)
    (hx : c.doUpdate now = .ok (c', outs)) : Traffic c outs c' := by
  rcases doUpdate_cases hx with ⟨_, rfl, rfl⟩ | ⟨_, o, hd, rfl⟩
  · exact ⟨(List.append_nil _).symm, rfl⟩
  · obtain ⟨hw, _⟩ := h.deliverDeferred now
    have ht := hw.serve_traffic hd
    have hsame : (c.deliverDeferred now).1.readsOwed = c.readsOwed ∧
        (c.deliverDeferred now).1.writesOwed = c.writesOwed ∧
        ∀ op, memReqs op (c.deliverDeferred now).2 = [] := by
      unfold PipeCache.deliverDeferred
      split <;> exact ⟨rfl, rfl, fun _ => rfl⟩
    refine ⟨?_, ?_⟩
    · rw [ht.reads, hsame.1, memReqs_append, hsame.2.2]
      rfl
    · rw [ht.writes, hsame.2.1, memReqs_append, hsame.2.2]
      rfl

theorem WellFormed.enqueue_traffic {e : CachePipeEntry} (h : WellFormed c)
    (hx : c.enqueue now e = .ok c') :
    c'.readsOwed = c.readsOwed ∧ c'.writesOwed = c.writesOwed := by
  obtain ⟨_, rest, hpipe, rfl⟩ := enqueue_eq_ok.mp hx
  refine ⟨?_, rfl⟩
  cases hr : rest with
  | nil =>
    have hb : c.back = none := back_of_pipe (l := []) (by rw [hpipe, hr]; rfl)
    have hw : c.rWaiting = false := by
      cases h.tail with
      | empty _ hq => exact hq.rWaiting
      | fresh bk hb' => exact absurd (hb'.symm.trans hb) (by simp)
      | missed bk _ hb' => exact absurd (hb'.symm.trans hb) (by simp)
      | filling bk _ hb' => exact absurd (hb'.symm.trans hb) (by simp)
      | filled bk _ hb' => exact absurd (hb'.symm.trans hb) (by simp)
    rw [readsOwed, readsOwed, hw]
    rfl
  | cons y l =>
    have hb : ({ c with
        pipe := some e :: y :: l, blockedUntil := now + 1, isShifted := false } :
          PipeCache P).back = c.back := by
      rw [back, back, hpipe, hr]
      rfl
    rw [readsOwed, readsOwed, hb]

theorem recvMemResp_traffic {m : MemTrans}
    (hx : c.recvMemResp now m = .ok c') :
    match m.mop with
    | .read => c'.readsOwed = [] ∧ c'.writesOwed = c.writesOwed
    | .write => c'.readsOwed = c.readsOwed ∧ c.writesOwed = 1 ∧ c'.writesOwed = 0 := by
  rcases recvMemResp_cases hx with ⟨hop, _, _, _, _, _, _, _, _, rfl⟩ | ⟨hop, hw, rfl⟩
  · rw [hop]
    exact ⟨rfl, rfl⟩
  · have hc : c.writesOwed = 1 := by
      rw [writesOwed, hw]
      rfl
    rw [hop]
    exact ⟨rfl, hc, rfl⟩

theorem isReady_of_pending (hf : c.pendingFlush = true) :
    c.isReady = (false, false) := by
  unfold PipeCache.isReady
  rw [hf, Bool.not_true, Bool.and_false]
  cases P.writeBack <;> rfl

end PipeCache

def requests (outs : List CacheOut) : List MemTrans :=
  outs.filterMap fun o => match o with
    | .memReq m => some m
    | _ => none

theorem filter_requests (op : MemRWOpt) (outs : List CacheOut) :
    (requests outs).filter (·.mop = op) = memReqs op outs := by
  induction outs with
  | nil => rfl
  | cons o outs ih =>
    cases o with
    | cpuResp t => exact ih
    | cpuAck a => exact ih
    | memReq m =>
      change (m :: requests outs).filter _ = _
      rw [List.filter_cons, ih]
      by_cases h : m.mop = op
      · simp [memReqs, h]
      · simp [memReqs, h]

/-- A cache between a requester and a memory: what was asked, what was sent, and the requests that
the memory has not answered. -/
structure Bench (P : CacheParams) where
  now : Nat := 0
  cache : PipeCache P := {}
  accepted : List (Addr × MemRWOpt) := []
  sent : List CacheOut := []
  outstanding : List MemTrans := []

namespace Bench

variable {P : CacheParams}

inductive Label
  | request
  | update
  | answer (m : MemTrans)
  | other

/-- One call on the cache, or a tick of the clock. Writes come to write-back caches only. -/
inductive Step (b : Bench P) : Label → Bench P → Prop
  | read {c' : PipeCache P} (addr : Addr) (h : b.cache.readReq b.now addr = .ok c') :
      Step b .request { b with cache := c', accepted := b.accepted ++ [(addr, .read)] }
  | write {c' : PipeCache P} {outs : List CacheOut} (addr : Addr) (data : Word) (mask : BitVec 8)
      (hwb : P.writeBack = true) (h : b.cache.writeReq b.now addr data mask = .ok (c', outs)) :
      Step b .request { b with cache := c', accepted := b.accepted ++ [(addr, .write)] }
  | update {c' : PipeCache P} {outs : List CacheOut}
      (h : b.cache.doUpdate b.now = .ok (c', outs)) :
      Step b .update { b with
        cache := c'
        sent := b.sent ++ outs
        outstanding := b.outstanding ++ requests outs }
  | answer {c' : PipeCache P} (m : MemTrans) (data : List Word) (hm : m ∈ b.outstanding)
      (h : b.cache.recvMemResp b.now { m with dir := .resp, data := data } = .ok c') :
      Step b (.answer m) { b with cache := c', outstanding := b.outstanding.erase m }
  | flushAll : Step b .other { b with cache := b.cache.flushAll }
  | resetStats : Step b .other { b with cache := b.cache.resetStats }
  | tick : Step b .other { b with now := b.now + 1 }

def Reachable (b : Bench P) : Prop := ReflTransGen (fun b b' => ∃ l, Step b l b') {} b

structure Sound (b : Bench P) : Prop where
  wf : PipeCache.WellFormed b.cache
  log : b.cache.log.map CachePipeEntry.req = b.accepted
  answered : PipeCache.Immediate P → cpuResps b.sent = b.cache.served.map CachePipeEntry.req
  reads : b.cache.log.flatMap CachePipeEntry.reads = (memReqs .read b.sent).map (·.addr)
  waitsRead : (b.outstanding.filter (·.mop = .read)).map (·.addr) = b.cache.readsOwed
  waitsWrite : (b.outstanding.filter (·.mop = .write)).length = b.cache.writesOwed

theorem sound_init : Sound ({} : Bench P) :=
  ⟨PipeCache.wellFormed_init, congrArg (List.map _) PipeCache.log_init, fun _ => rfl,
    congrArg (List.flatMap _) PipeCache.log_init, rfl, rfl⟩

theorem filter_erase_other {l : List MemTrans} {m : MemTrans} {op : MemRWOpt}
    (h : m.mop ≠ op) : (l.erase m).filter (·.mop = op) = l.filter (·.mop = op) := by
  induction l with
  | nil => rfl
  | cons x l ih =>
    rw [List.erase_cons]
    split
    · rename_i hx
      have he : x = m := by simpa using hx
      rw [List.filter_cons, he]
      simp [h]
    · rw [List.filter_cons, List.filter_cons, ih]

theorem length_filter_erase {l : List MemTrans} {m : MemTrans} (h : m ∈ l) :
    ((l.erase m).filter (·.mop = m.mop)).length + 1 = (l.filter (·.mop = m.mop)).length := by
  induction l with
  | nil => cases h
  | cons x l ih =>
    rw [List.erase_cons]
    split
    · rename_i hx
      have he : x = m := by simpa using hx
      rw [List.filter_cons, he]
      simp
    · rename_i hx
      have hne : m ≠ x := by
        rintro rfl
        simp at hx
      have hm : m ∈ l := (List.mem_cons.mp h).resolve_left hne
      have hih := ih hm
      rw [List.filter_cons, List.filter_cons]
      split
      · simp only [List.length_cons]
        omega
      · exact hih

theorem filter_nil_of_erase {l : List MemTrans} {m : MemTrans} (h : m ∈ l)
    (h1 : (l.filter (·.mop = m.mop)).length ≤ 1) : (l.erase m).filter (·.mop = m.mop) = [] := by
  have := length_filter_erase h
  exact List.eq_nil_of_length_eq_zero (by omega)

theorem length_readsOwed (c : PipeCache P) : c.readsOwed.length ≤ 1 := by
  rw [PipeCache.readsOwed]
  split
  · cases c.back <;> simp
  · exact Nat.zero_le 1

/-- The requests that memory has not answered are those that the cache waits for. -/
structure Waits (out : List MemTrans) (c : PipeCache P) : Prop where
  reads : (out.filter (·.mop = .read)).map (·.addr) = c.readsOwed
  writes : (out.filter (·.mop = .write)).length = c.writesOwed

theorem Waits.send {out : List MemTrans} {c c' : PipeCache P} {outs : List CacheOut}
    (h : Waits out c) (ht : PipeCache.Traffic c outs c') : Waits (out ++ requests outs) c' := by
  refine ⟨?_, ?_⟩
  · rw [List.filter_append, List.map_append, h.reads, filter_requests, ht.reads]
  · rw [List.filter_append, List.length_append, h.writes, filter_requests, ht.writes]

theorem Waits.answer {out : List MemTrans} {c c' : PipeCache P} {now : Nat} {m : MemTrans}
    {data : List Word} (h : Waits out c) (hm : m ∈ out)
    (hx : c.recvMemResp now { m with dir := .resp, data := data } = .ok c') :
    Waits (out.erase m) c' := by
  have ht := PipeCache.recvMemResp_traffic hx
  dsimp only at ht
  refine ⟨?_, ?_⟩
  · cases hop : m.mop with
    | read =>
      rw [hop] at ht
      have hlen : (out.filter (·.mop = m.mop)).length ≤ 1 := by
        rw [hop, ← List.length_map (f := MemTrans.addr), h.reads]
        exact length_readsOwed c
      have hnil := filter_nil_of_erase hm hlen
      rw [hop] at hnil
      rw [hnil, ht.1]
      rfl
    | write =>
      rw [hop] at ht
      rw [filter_erase_other (by rw [hop]; decide), ht.1]
      exact h.reads
  · cases hop : m.mop with
    | read =>
      rw [hop] at ht
      rw [filter_erase_other (by rw [hop]; decide), ht.2]
      exact h.writes
    | write =>
      rw [hop] at ht
      have hlen := length_filter_erase hm
      rw [hop] at hlen
      have hone := h.writes
      rw [ht.2.1] at hone
      rw [ht.2.2]
      omega

private theorem Sound.call {b : Bench P} {c' : PipeCache P} {outs : List CacheOut}
    {new : List (Addr × MemRWOpt)} (h : Sound b) (hw : PipeCache.WellFormed c')
    (he : PipeCache.Effect new b.cache outs c') (ht : PipeCache.Traffic b.cache outs c') :
    Sound { b with
      cache := c'
      accepted := b.accepted ++ new
      sent := b.sent ++ outs
      outstanding := b.outstanding ++ requests outs } := by
  have hwaits := (Waits.mk h.waitsRead h.waitsWrite).send ht
  refine ⟨hw, he.log.trans (by rw [h.log]), fun hi => ?_, ?_, hwaits.reads, hwaits.writes⟩
  · obtain ⟨k, hk, hr⟩ := he.served
    dsimp only
    rw [cpuResps_append, h.answered hi, hr hi, hk, List.map_append]
  · dsimp only
    rw [he.reads, h.reads, memReqs_append, List.map_append]

private theorem Sound.request {b : Bench P} {c' : PipeCache P} {e : CachePipeEntry} (h : Sound b)
    (he : e.Fresh) (hx : b.cache.enqueue b.now e = .ok c') :
    Sound { b with cache := c', accepted := b.accepted ++ [e.req] } := by
  obtain ⟨hw, heff, _⟩ := h.wf.enqueue he hx
  obtain ⟨hr, hv⟩ := h.wf.enqueue_traffic hx
  have := h.call hw heff ⟨hr.trans (List.append_nil _).symm, hv⟩
  exact ⟨this.wf, this.log, fun hi => (List.append_nil b.sent) ▸ this.answered hi,
    (List.append_nil b.sent) ▸ this.reads, (List.append_nil b.outstanding) ▸ this.waitsRead,
    (List.append_nil b.outstanding) ▸ this.waitsWrite⟩

private theorem Sound.idle {b : Bench P} {c' : PipeCache P} (h : Sound b)
    (hw : PipeCache.WellFormed c') (hl : c'.log = b.cache.log) (hs : c'.served = b.cache.served)
    (hr : c'.readsOwed = b.cache.readsOwed) (hv : c'.writesOwed = b.cache.writesOwed) :
    Sound { b with cache := c' } := by
  refine ⟨hw, ?_, fun hi => ?_, ?_, ?_, ?_⟩
  · exact (congrArg _ hl).trans h.log
  · exact (h.answered hi).trans (congrArg _ hs.symm)
  · exact (congrArg _ hl).trans h.reads
  · exact h.waitsRead.trans hr.symm
  · exact h.waitsWrite.trans hv.symm

private theorem Sound.answer {b : Bench P} {c' : PipeCache P} {m : MemTrans} {data : List Word}
    (h : Sound b) (hm : m ∈ b.outstanding)
    (hx : b.cache.recvMemResp b.now { m with dir := .resp, data := data } = .ok c') :
    Sound { b with cache := c', outstanding := b.outstanding.erase m } := by
  obtain ⟨hw, he, _⟩ := h.wf.recvMemResp hx
  have hwaits := (Waits.mk h.waitsRead h.waitsWrite).answer hm hx
  obtain ⟨k, hk, hresp⟩ := he.served
  refine ⟨hw, ?_, fun hi => ?_, ?_, hwaits.reads, hwaits.writes⟩
  · exact (he.log.trans (List.append_nil _)).trans h.log
  · have hnil : k.map CachePipeEntry.req = [] := (hresp hi).symm
    dsimp only
    rw [h.answered hi, hk, List.map_append, hnil, List.append_nil]
  · exact (he.reads.trans (List.append_nil _)).trans h.reads

/-- Every step keeps the invariant. -/
theorem Step.sound {b b' : Bench P} {l : Label} (hs : Step b l b') (h : Sound b) : Sound b' := by
  cases hs with
  | read addr hx => exact h.request ⟨rfl, rfl, rfl, rfl⟩ hx
  | write addr data mask hwb hx =>
    unfold PipeCache.writeReq at hx
    rw [if_pos hwb] at hx
    obtain ⟨d, hd, hx⟩ := bind_eq_ok.mp hx
    cases hx
    exact h.request ⟨rfl, rfl, rfl, rfl⟩ hd
  | update hx =>
    obtain ⟨hw, he, _⟩ := h.wf.doUpdate hx
    have := h.call hw he (h.wf.doUpdate_traffic hx)
    exact ⟨this.wf, (List.append_nil b.accepted) ▸ this.log, this.answered, this.reads,
      this.waitsRead, this.waitsWrite⟩
  | answer m data hm hx => exact h.answer hm hx
  | flushAll => exact h.idle h.wf.flushAll rfl rfl rfl rfl
  | resetStats => exact h.idle h.wf.resetStats rfl rfl rfl rfl
  | tick => exact ⟨h.wf, h.log, h.answered, h.reads, h.waitsRead, h.waitsWrite⟩

theorem Reachable.sound {b : Bench P} (h : Reachable b) : Sound b :=
  invariant_of_run (fun _ _ hs => hs.choose_spec.sound) sound_init h

/-- A call to make; memory answers its oldest request. -/
inductive Call
  | read (addr : Addr)
  | write (addr : Addr)
  | update
  | answer
  | flushAll
  | tick
  deriving DecidableEq, Repr

def perform (b : Bench P) : Call → Option (Bench P)
  | .read addr => (b.cache.readReq b.now addr).toOption.map fun c =>
      { b with cache := c, accepted := b.accepted ++ [(addr, .read)] }
  | .write addr =>
    if P.writeBack then (b.cache.writeReq b.now addr 0 15).toOption.map fun x =>
      { b with cache := x.1, accepted := b.accepted ++ [(addr, .write)] }
    else none
  | .update => (b.cache.doUpdate b.now).toOption.map fun x =>
      { b with
        cache := x.1
        sent := b.sent ++ x.2
        outstanding := b.outstanding ++ requests x.2 }
  | .answer => b.outstanding.head?.bind fun m =>
      (b.cache.recvMemResp b.now { m with dir := .resp, data := [] }).toOption.map fun c =>
        { b with cache := c, outstanding := b.outstanding.erase m }
  | .flushAll => some { b with cache := b.cache.flushAll }
  | .tick => some { b with now := b.now + 1 }

theorem toOption_map_eq_some {α β : Type} {x : Except Fault α} {f : α → β} {y : β}
    (h : x.toOption.map f = some y) : ∃ a, x = .ok a ∧ f a = y :=
  exists_of_observed h

def label (b : Bench P) : Call → Label
  | .read _ => .request
  | .write _ => .request
  | .update => .update
  | .answer => b.outstanding.head?.elim .other .answer
  | .flushAll => .other
  | .tick => .other

theorem perform_step {b b' : Bench P} {k : Call} (h : b.perform k = some b') :
    Step b (b.label k) b' := by
  cases k with
  | read addr =>
    obtain ⟨c, hc, rfl⟩ := toOption_map_eq_some h
    exact .read addr hc
  | write addr =>
    rw [perform] at h
    split at h
    · rename_i hwb
      obtain ⟨⟨c, outs⟩, hc, rfl⟩ := toOption_map_eq_some h
      exact .write addr 0 15 hwb hc
    · cases h
  | update =>
    obtain ⟨⟨c, outs⟩, hc, rfl⟩ := toOption_map_eq_some h
    exact .update hc
  | answer =>
    obtain ⟨m, hm, h⟩ := Option.bind_eq_some_iff.mp h
    obtain ⟨c, hc, rfl⟩ := toOption_map_eq_some h
    rw [label, hm]
    exact .answer m [] (List.mem_of_mem_head? hm) hc
  | flushAll =>
    cases h
    exact .flushAll
  | tick =>
    cases h
    exact .tick

def performAll (ok : Bench P → Bool) (b : Bench P) : List Call → Option (Bench P)
  | [] => some b
  | k :: ks => if ok b then (b.perform k).bind fun b' => performAll ok b' ks else none

theorem run_of_performAll {ok : Bench P → Bool} {b b' : Bench P} {ks : List Call}
    (h : performAll ok b ks = some b') :
    ReflTransGen (fun b b' => ok b = true ∧ ∃ l, Step b l b') b b' := by
  induction ks generalizing b with
  | nil =>
    cases h
    exact .refl
  | cons k ks ih =>
    rw [performAll] at h
    split at h
    · rename_i hok
      obtain ⟨m, hm, h⟩ := Option.bind_eq_some_iff.mp h
      exact .head ⟨hok, _, perform_step hm⟩ (ih h)
    · cases h

theorem reachable_of_performAll {ok : Bench P → Bool} {b : Bench P} {ks : List Call}
    (h : performAll ok {} ks = some b) : Reachable b :=
  ReflTransGen.mono (fun _ _ hs => hs.2) _ _ (run_of_performAll h)

end Bench

end NpSim.Cache
