/- digest: The invariant of the cache: the phases of its tail entry, and what one call does to the
   requests, the refills and the evictions. -/

import NpSim.Cache.Handlers

set_option autoImplicit false
set_option relaxedAutoImplicit false

namespace NpSim.Cache

open NpSim.Lib.Partial

namespace CachePipeEntry

def Fresh (e : CachePipeEntry) : Prop :=
  e.line = none ∧ e.accesses = 0 ∧ e.missed = false ∧ e.refills = 0

/-- The entry was looked up once, and refilled once if that missed. -/
def Done (e : CachePipeEntry) : Prop :=
  e.accesses = 1 ∧ e.refills = if e.missed then 1 else 0

def req (e : CachePipeEntry) : Addr × MemRWOpt := (e.addr, e.mop)

def reads (e : CachePipeEntry) : List Addr := List.replicate e.refills e.addr

theorem Fresh.reads_eq {e : CachePipeEntry} (h : e.Fresh) : e.reads = [] := by
  rw [reads, h.2.2.2]
  rfl

end CachePipeEntry

def cpuResps (outs : List CacheOut) : List (Addr × MemRWOpt) :=
  outs.filterMap fun o => match o with
    | .cpuResp t => some (t.addr, t.mop)
    | _ => none

def memReqs (op : MemRWOpt) (outs : List CacheOut) : List MemTrans :=
  outs.filterMap fun o => match o with
    | .memReq m => if m.mop = op then some m else none
    | _ => none

@[simp] theorem cpuResps_append (l m : List CacheOut) :
    cpuResps (l ++ m) = cpuResps l ++ cpuResps m := List.filterMap_append

@[simp] theorem memReqs_append (op : MemRWOpt) (l m : List CacheOut) :
    memReqs op (l ++ m) = memReqs op l ++ memReqs op m := List.filterMap_append

theorem memReqs_of_noReq {op : MemRWOpt} {outs : List CacheOut} (h : ∀ m, .memReq m ∉ outs) :
    memReqs op outs = [] := by
  rw [memReqs, List.filterMap_eq_nil_iff]
  intro o ho
  cases o with
  | cpuResp t => rfl
  | cpuAck a => rfl
  | memReq m => exact absurd ho (h m)

namespace PipeCache

variable {P : CacheParams} {c c' : PipeCache P} {now : Nat}

/-- The entries in the pipe, tail first. -/
def pending (c : PipeCache P) : List CachePipeEntry := c.pipe.reverse.filterMap id

/-- The block of an eviction that has been prepared and not been sent. -/
def owed (c : PipeCache P) : List Addr :=
  if c.pendingFillReq && c.pendingEvict then [c.evictAddr] else []

/-- No response is delayed. -/
def Immediate (P : CacheParams) : Prop := (P.writeBack && P.wbHitRespDelay != 0) = false

structure Quiet (c : PipeCache P) : Prop where
  rWaiting : c.rWaiting = false
  wWaiting : c.wWaiting = false
  pendingFillReq : c.pendingFillReq = false
  isReplay : c.isReplay = false

/-- The entry holds line `r`, in the set of its address. -/
structure HoldsLine (P : CacheParams) (bk : CachePipeEntry) (r : LineRef) : Prop where
  line : bk.line = some r
  set : r.set = P.setIndexOf bk.addr
  way : r.way < P.assoc
  once : bk.accesses = 1

/-- The phases of the tail entry. -/
inductive Tail (c : PipeCache P) : Prop
  | empty (hb : c.back = none) (hq : c.Quiet)
  | fresh (bk : CachePipeEntry) (hb : c.back = some bk) (hf : bk.Fresh) (hq : c.Quiet)
  | missed (bk : CachePipeEntry) (r : LineRef) (hb : c.back = some bk) (hh : HoldsLine P bk r)
      (hv : (c.line r).valid = false) (hm : bk.missed = true) (h0 : bk.refills = 0)
      (hfill : c.pendingFillReq = true) (hr : c.rWaiting = false) (hp : c.isReplay = false)
      (he : c.wWaiting = true → c.pendingEvict = false)
      (hlen : P.writeBack = true → c.pendingEvict = true → c.evictData.length = P.lineWords)
  | filling (bk : CachePipeEntry) (r : LineRef) (hb : c.back = some bk) (hh : HoldsLine P bk r)
      (hv : (c.line r).valid = false) (hm : bk.missed = true) (h1 : bk.refills = 1)
      (hfill : c.pendingFillReq = false) (hr : c.rWaiting = true) (hp : c.isReplay = true)
      (hw : c.wWaiting = false)
  | filled (bk : CachePipeEntry) (r : LineRef) (hb : c.back = some bk) (hh : HoldsLine P bk r)
      (hv : (c.line r).valid = true) (hm : bk.missed = true) (h1 : bk.refills = 1)
      (hfill : c.pendingFillReq = false) (hr : c.rWaiting = false) (hp : c.isReplay = true)
      (hw : c.wWaiting = false)

/-- The phase depends on the pipe, the flags, and which lines are valid. -/
theorem Tail.congr_valid (h : c.Tail) (hb : c'.back = c.back)
    (hl : ∀ r, (c'.line r).valid = (c.line r).valid)
    (hr : c'.rWaiting = c.rWaiting) (hw : c'.wWaiting = c.wWaiting)
    (hf : c'.pendingFillReq = c.pendingFillReq) (hp : c'.isReplay = c.isReplay)
    (he : c'.pendingEvict = c.pendingEvict) (hd : c'.evictData = c.evictData) : c'.Tail := by
  cases h with
  | empty hb' hq =>
    exact .empty (hb.trans hb') ⟨hr.trans hq.rWaiting, hw.trans hq.wWaiting,
      hf.trans hq.pendingFillReq, hp.trans hq.isReplay⟩
  | fresh bk hb' hx hq =>
    exact .fresh bk (hb.trans hb') hx ⟨hr.trans hq.rWaiting, hw.trans hq.wWaiting,
      hf.trans hq.pendingFillReq, hp.trans hq.isReplay⟩
  | missed bk r hb' hh hv hm h0 hfill hr' hp' he' hlen =>
    exact .missed bk r (hb.trans hb') hh ((hl r).trans hv) hm h0 (hf.trans hfill)
      (hr.trans hr') (hp.trans hp') (fun hc => he.trans (he' (hw.symm.trans hc)))
      fun hwb hc => (congrArg _ hd).trans (hlen hwb (he.symm.trans hc))
  | filling bk r hb' hh hv hm h1 hfill hr' hp' hw' =>
    exact .filling bk r (hb.trans hb') hh ((hl r).trans hv) hm h1
      (hf.trans hfill) (hr.trans hr') (hp.trans hp') (hw.trans hw')
  | filled bk r hb' hh hv hm h1 hfill hr' hp' hw' =>
    exact .filled bk r (hb.trans hb') hh ((hl r).trans hv) hm h1
      (hf.trans hfill) (hr.trans hr') (hp.trans hp') (hw.trans hw')

theorem Tail.congr (h : c.Tail) (hb : c'.back = c.back) (hl : c'.lines = c.lines)
    (hr : c'.rWaiting = c.rWaiting) (hw : c'.wWaiting = c.wWaiting)
    (hf : c'.pendingFillReq = c.pendingFillReq) (hp : c'.isReplay = c.isReplay)
    (he : c'.pendingEvict = c.pendingEvict) (hd : c'.evictData = c.evictData) : c'.Tail :=
  h.congr_valid hb (fun r => by rw [line, line, hl]) hr hw hf hp he hd

/-- What holds of the cache around its tail entry. -/
structure Framed (c : PipeCache P) : Prop where
  len : c.pipe.length = P.pipeDepth
  front : c.isShifted = true → c.pipe.head? = some none
  rest : ∀ e, some e ∈ c.pipe.dropLast → e.Fresh
  sized : c.Sized
  served : ∀ e ∈ c.served, e.Done
  sched : Immediate P → c.schedHitTime = infTime

/-- The invariant of the cache between two calls. -/
structure WellFormed (c : PipeCache P) : Prop extends Framed c where
  tail : c.Tail

theorem WellFormed.fresh_of_line (h : WellFormed c) {bk : CachePipeEntry} (hb : c.back = some bk)
    (hn : bk.line = none) : bk.Fresh ∧ c.Quiet := by
  cases h.tail with
  | empty hb' => exact absurd (hb.symm.trans hb') (by simp)
  | fresh bk₂ hb' hf hq => exact ⟨Option.some.inj (hb.symm.trans hb') ▸ hf, hq⟩
  | missed bk₂ _ hb' hh =>
    cases Option.some.inj (hb.symm.trans hb')
    exact absurd (hn.symm.trans hh.line) (by simp)
  | filling bk₂ _ hb' hh =>
    cases Option.some.inj (hb.symm.trans hb')
    exact absurd (hn.symm.trans hh.line) (by simp)
  | filled bk₂ _ hb' hh =>
    cases Option.some.inj (hb.symm.trans hb')
    exact absurd (hn.symm.trans hh.line) (by simp)

theorem back_init : ({} : PipeCache P).back = none := by
  change (List.replicate P.pipeDepth none).getLast?.join = none
  rw [List.getLast?_replicate]
  split <;> rfl

theorem wellFormed_init : WellFormed ({} : PipeCache P) := by
  refine ⟨⟨List.length_replicate, fun _ => ?_, ?_, ?_, by simp, fun _ => rfl⟩,
    .empty back_init ⟨rfl, rfl, rfl, rfl⟩⟩
  · change (List.replicate P.pipeDepth none).head? = some none
    rw [List.head?_replicate, if_neg P.pipeDepth_pos.ne']
  · intro e he
    have := List.eq_of_mem_replicate (List.dropLast_subset _ he)
    cases this
  · intro s w
    exact List.length_replicate

theorem pipe_eq (h : c.pipe.length = P.pipeDepth) : c.pipe = c.pipe.dropLast ++ [c.back] := by
  have hne : c.pipe ≠ [] := by
    intro hn
    rw [hn] at h
    exact P.pipeDepth_pos.ne h
  have hlast : c.back = c.pipe.getLast hne := by
    rw [back, List.getLast?_eq_some_getLast hne]
    rfl
  rw [hlast]
  exact (List.dropLast_concat_getLast hne).symm

theorem back_of_pipe {l : List (Option CachePipeEntry)} {o : Option CachePipeEntry}
    (h : c.pipe = l ++ [o]) : c.back = o := by
  rw [back, h, List.getLast?_concat]
  rfl

theorem pending_of_pipe {l : List (Option CachePipeEntry)} {o : Option CachePipeEntry}
    (h : c.pipe = l ++ [o]) : c.pending = o.toList ++ l.reverse.filterMap id := by
  rw [pending, h, List.reverse_append, List.reverse_singleton, List.singleton_append]
  cases o <;> rfl

/-- Every request the cache has taken, oldest first. -/
def log (c : PipeCache P) : List CachePipeEntry := c.served ++ c.pending

theorem log_init : ({} : PipeCache P).log = [] := by
  change [] ++ (List.replicate P.pipeDepth none).reverse.filterMap id = []
  rw [List.reverse_replicate, List.filterMap_replicate]
  rfl

/-- What a call does to the requests: `new` ones are taken, the ones answered are the oldest and
get their own responses, and refill reads go out for the entries they are counted at. -/
structure Effect (new : List (Addr × MemRWOpt)) (c : PipeCache P) (outs : List CacheOut)
    (c' : PipeCache P) : Prop where
  log : c'.log.map CachePipeEntry.req = c.log.map CachePipeEntry.req ++ new
  served : ∃ k, c'.served = c.served ++ k ∧
    (Immediate P → cpuResps outs = k.map CachePipeEntry.req)
  reads : c'.log.flatMap CachePipeEntry.reads = c.log.flatMap CachePipeEntry.reads ++
    (memReqs .read outs).map (·.addr)

/-- A call adds blocks to the account `acc`, and each of them, and no other, is written to memory,
a full line long. -/
structure Books (acc : PipeCache P → List Addr) (c : PipeCache P) (outs : List CacheOut)
    (c' : PipeCache P) : Prop where
  blocks : ∃ d, acc c' = acc c ++ d ∧
    c.owed ++ d = (memReqs .write outs).map (·.addr) ++ c'.owed
  full : ∀ m ∈ memReqs .write outs,
    m.data.length = P.lineWords ∧ m.bstLen = P.lineWords % 2 ^ 16

/-- What a call does to dirty blocks: each one that leaves its line is written back. -/
abbrev Ledger (c : PipeCache P) (outs : List CacheOut) (c' : PipeCache P) : Prop :=
  Books PipeCache.gone c outs c'

theorem Effect.trans {new new' : List (Addr × MemRWOpt)} {d : PipeCache P}
    {outs outs' : List CacheOut} (h : Effect new c outs c') (h' : Effect new' c' outs' d) :
    Effect (new ++ new') c (outs ++ outs') d := by
  obtain ⟨k, hk, hr⟩ := h.served
  obtain ⟨k', hk', hr'⟩ := h'.served
  refine ⟨?_, ⟨k ++ k', ?_, fun hi => ?_⟩, ?_⟩
  · rw [h'.log, h.log, List.append_assoc]
  · rw [hk', hk, List.append_assoc]
  · rw [cpuResps_append, hr hi, hr' hi, List.map_append]
  · rw [h'.reads, h.reads, memReqs_append, List.map_append, List.append_assoc]

theorem Books.trans {acc : PipeCache P → List Addr} {d : PipeCache P} {outs outs' : List CacheOut}
    (h : Books acc c outs c') (h' : Books acc c' outs' d) : Books acc c (outs ++ outs') d := by
  obtain ⟨x, hx, ho⟩ := h.blocks
  obtain ⟨y, hy, ho'⟩ := h'.blocks
  refine ⟨⟨x ++ y, by rw [hy, hx, List.append_assoc], ?_⟩, ?_⟩
  · rw [← List.append_assoc, ho, List.append_assoc, ho', memReqs_append, List.map_append,
      List.append_assoc]
  · intro m hm
    rw [memReqs_append, List.mem_append] at hm
    exact hm.elim (h.full m) (h'.full m)

private theorem effect_of_log {outs : List CacheOut} (hs : c'.served = c.served)
    (hp : c'.pending.map CachePipeEntry.req = c.pending.map CachePipeEntry.req)
    (hr : c'.pending.flatMap CachePipeEntry.reads = c.pending.flatMap CachePipeEntry.reads)
    (hc : cpuResps outs = []) (hm : memReqs .read outs = []) : Effect [] c outs c' := by
  refine ⟨?_, ⟨[], by rw [hs, List.append_nil], fun _ => hc⟩, ?_⟩
  · rw [log, log, List.map_append, List.map_append, hs, hp, List.append_nil]
  · rw [log, log, List.flatMap_append, List.flatMap_append, hs, hr, hm]
    exact (List.append_nil _).symm

theorem isReplay_eta (h : c.isReplay = false) : { c with isReplay := false } = c := by
  cases c
  simp_all

theorem Framed.setTail {bk : CachePipeEntry} {o : Option CachePipeEntry} (hf : Framed c)
    (hb : c.back = some bk) (hp : c'.pipe = c.pipe.dropLast ++ [o])
    (hi : c'.isShifted = c.isShifted) (hz : c'.Sized) (hs : ∀ e ∈ c'.served, e.Done)
    (ht : Immediate P → c'.schedHitTime = infTime) : Framed c' := by
  have hpipe := pipe_eq hf.len
  rw [hb] at hpipe
  refine ⟨?_, ?_, ?_, hz, hs, ht⟩
  · rw [hp, ← hf.len]
    nth_rewrite 2 [hpipe]
    simp only [List.length_append, List.length_singleton]
  · intro hsh
    have hh := hf.front (hi ▸ hsh)
    rw [hpipe] at hh
    rw [hp]
    cases hl : c.pipe.dropLast with
    | nil =>
      rw [hl] at hh
      cases hh
    | cons x l =>
      rw [hl] at hh
      exact hh
  · rw [hp, List.dropLast_concat]
    exact hf.rest

theorem log_setTail {β : Type} {f : CachePipeEntry → List β} (hfresh : ∀ e, e.Fresh → f e = [])
    {bk : CachePipeEntry} {o : Option CachePipeEntry} {k : List CachePipeEntry} {d : List β}
    (hf : Framed c) (hb : c.back = some bk) (hp : c'.pipe = c.pipe.dropLast ++ [o])
    (hs : c'.served = c.served ++ k) (hd : (k ++ o.toList).flatMap f = f bk ++ d) :
    c'.log.flatMap f = c.log.flatMap f ++ d := by
  have hpend := pending_of_pipe (pipe_eq hf.len)
  have hpend' := pending_of_pipe hp
  rw [hb] at hpend
  have hnil : (c.pipe.dropLast.reverse.filterMap id).flatMap f = [] := by
    rw [List.flatMap_eq_nil_iff]
    intro e he
    obtain ⟨o, ho, rfl⟩ := List.mem_filterMap.mp he
    exact hfresh e (hf.rest e (List.mem_reverse.mp ho))
  rw [log, log, hs, hpend, hpend', List.append_assoc, ← List.append_assoc k,
    List.flatMap_append, List.flatMap_append, hd, List.flatMap_append, List.flatMap_append,
    hnil, List.append_nil, List.append_nil, Option.toList_some, List.flatMap_singleton,
    List.append_assoc]

theorem effect_setTail {bk : CachePipeEntry} {o : Option CachePipeEntry} {outs : List CacheOut}
    {k : List CachePipeEntry} (hf : Framed c) (hb : c.back = some bk)
    (hp : c'.pipe = c.pipe.dropLast ++ [o]) (hs : c'.served = c.served ++ k)
    (hreq : (k ++ o.toList).map CachePipeEntry.req = [bk.req])
    (hresp : Immediate P → cpuResps outs = k.map CachePipeEntry.req)
    (hreads : (k ++ o.toList).flatMap CachePipeEntry.reads =
      bk.reads ++ (memReqs .read outs).map (·.addr)) : Effect [] c outs c' := by
  have hpend := pending_of_pipe (pipe_eq hf.len)
  have hpend' := pending_of_pipe hp
  rw [hb] at hpend
  refine ⟨?_, ⟨k, hs, hresp⟩, log_setTail (fun _ hx => hx.reads_eq) hf hb hp hs hreads⟩
  rw [log, log, hs, hpend, hpend', List.append_assoc, ← List.append_assoc k, List.map_append,
    List.map_append, hreq, List.append_nil, List.map_append, List.map_append]
  rfl

/-- A tail entry that has been looked up and hit, about to be answered. -/
structure Ready (bk : CachePipeEntry) (r : LineRef) (c : PipeCache P) : Prop extends Framed c where
  hb : c.back = some bk
  hh : HoldsLine P bk r
  hv : (c.line r).valid = true
  hd : bk.Done
  hq : c.Quiet

theorem TailLooked.outcome {bk bk' : CachePipeEntry} {r : LineRef} (h : TailLooked bk c bk' r c')
    (hf : Framed c) (hb : c.back = some bk) (hx : bk.Fresh) (hq : c.Quiet) :
    Effect [] c [] c' ∧ bk'.line = some r ∧
      ((c'.line r).valid = true ∧ Ready bk' r c' ∧ c'.gone = c.gone ∨
        (c'.line r).valid = false ∧ ∀ b, WellFormed { c' with
            pendingFillReq := true, blockedUntil := b } ∧
          (P.writeBack = true → Ledger c [] { c' with
            pendingFillReq := true, blockedUntil := b })) := by
  obtain ⟨_, ha, _, hr⟩ := hx
  have hreads : bk'.reads = bk.reads := by
    rw [h.entry]
    rfl
  have heff : Effect [] c [] c' := by
    refine effect_setTail (k := []) hf hb h.pipe (by rw [h.served, List.append_nil]) ?_
      (fun _ => rfl) ?_
    · rw [h.entry]
      rfl
    · simp [hreads, memReqs]
  have hframed : Framed c' := hf.setTail hb h.pipe h.isShifted (h.sized hf.sized)
    (fun e he => hf.served e (h.served ▸ he)) (fun hi => h.schedHitTime.trans (hf.sched hi))
  have hback : c'.back = some bk' := back_of_pipe h.pipe
  have hholds : HoldsLine P bk' r := by
    rw [h.entry]
    exact ⟨rfl, h.set, h.way, by dsimp only; omega⟩
  refine ⟨heff, hholds.line, ?_⟩
  rcases Bool.eq_false_or_eq_true (c'.line r).valid with hv | hv
  · refine .inl ⟨hv, ⟨hframed, hback, hholds, hv, ⟨hholds.once, ?_⟩,
      h.rWaiting.trans hq.rWaiting, h.wWaiting.trans hq.wWaiting,
      h.pendingFillReq.trans hq.pendingFillReq, h.isReplay.trans hq.isReplay⟩, h.hit hv⟩
    rw [h.entry]
    simp [hv, hr]
  · refine .inr ⟨hv, fun b => ⟨⟨⟨hframed.len, hframed.front, hframed.rest, hframed.sized,
      hframed.served, hframed.sched⟩, .missed bk' r hback hholds hv ?_ ?_ rfl
        (h.rWaiting.trans hq.rWaiting) (h.isReplay.trans hq.isReplay) (fun hw => ?_) fun hwb hp =>
          (h.miss hv hwb).2.1 hp⟩, fun hwb => ⟨⟨_, (h.miss hv hwb).1, ?_⟩, ?_⟩⟩⟩
    · rw [h.entry]
      simp [hv]
    · rw [h.entry]
      exact hr
    · exact absurd (hw.symm.trans (h.wWaiting.trans hq.wWaiting)) (by decide)
    · simp [owed, hq.pendingFillReq, memReqs]
    · simp [memReqs]

theorem Ready.retire {bk : CachePipeEntry} {r : LineRef} {d e : PipeCache P}
    {outs : List CacheOut} (h : Ready bk r c) (hh : Hit now bk c d outs) (hs : SameControl d e) :
    WellFormed (e.retire bk) ∧ (e.retire bk).back = none ∧ Effect [] c outs (e.retire bk) ∧
      (e.gone = d.gone → Ledger c outs (e.retire bk)) := by
  let f := e.retire bk
  change WellFormed f ∧ f.back = none ∧ Effect [] c outs f ∧ (e.gone = d.gone → Ledger c outs f)
  have hpipe : f.pipe = c.pipe.dropLast ++ [none] := by
    change e.pipe.dropLast ++ [none] = _
    rw [hs.pipe, hh.pipe]
  have hserved : f.served = c.served ++ [bk] := by
    change e.served ++ [bk] = _
    rw [hs.served, hh.served]
  have hq : f.Quiet :=
    ⟨hs.rWaiting.trans (hh.rWaiting.trans h.hq.rWaiting),
      hs.wWaiting.trans (hh.wWaiting.trans h.hq.wWaiting),
      hs.pendingFillReq.trans (hh.pendingFillReq.trans h.hq.pendingFillReq),
      hs.isReplay.trans (hh.isReplay.trans h.hq.isReplay)⟩
  have hback : f.back = none := back_of_pipe hpipe
  have hdone : ∀ x ∈ f.served, x.Done := by
    intro x hx
    rw [hserved] at hx
    rcases List.mem_append.mp hx with hx | hx
    · exact h.served x hx
    · cases List.mem_singleton.mp hx
      exact h.hd
  have hframed : Framed f := h.toFramed.setTail h.hb hpipe (hs.isShifted.trans hh.isShifted)
    (hs.sized (hh.sized h.sized)) hdone
    (fun hi => hs.schedHitTime.trans ((hh.resp hi).1.trans (h.sched hi)))
  refine ⟨⟨hframed, .empty hback hq⟩, hback, ?_, fun hg => ⟨⟨[], ?_, ?_⟩, ?_⟩⟩
  · refine effect_setTail (k := [bk]) h.toFramed h.hb hpipe hserved rfl (fun hi => ?_) ?_
    · obtain ⟨w, hw⟩ := (hh.resp hi).2
      rw [hw]
      rfl
    · rw [memReqs_of_noReq hh.noReq]
      simp
  · change e.gone = _
    rw [hg, hh.gone, List.append_nil]
  · rw [memReqs_of_noReq hh.noReq, owed, owed, h.hq.pendingFillReq, hq.pendingFillReq]
    rfl
  · rw [memReqs_of_noReq hh.noReq]
    simp

theorem filterMap_id_nil {l : List (Option CachePipeEntry)}
    (h : l.all (·.isNone) = true) : l.filterMap id = [] := by
  rw [List.filterMap_eq_nil_iff]
  intro o ho
  simpa using List.all_eq_true.mp h o ho

theorem WellFormed.flush (now : Nat) (h : WellFormed c) (hall : c.pipe.all (·.isNone) = true) :
    WellFormed (c.handleFlush now) ∧ Effect [] c [] (c.handleFlush now) ∧
      (c.dirtyBlocks = [] → Ledger c [] (c.handleFlush now)) := by
  have hpend : c.pending = [] := filterMap_id_nil (by simpa using hall)
  have hpend' : (c.handleFlush now).pending = [] :=
    filterMap_id_nil (by
      rw [List.all_reverse, List.all_eq_true]
      intro o ho
      rw [List.eq_of_mem_replicate ho]
      rfl)
  have hback : ∀ d : PipeCache P, d.pending = [] → d.pipe.length = P.pipeDepth → d.back = none := by
    intro d hd hl
    rw [pending_of_pipe (pipe_eq hl)] at hd
    cases hb : d.back with
    | none => rfl
    | some bk =>
      rw [hb] at hd
      cases hd
  have howed : c.owed = [] := by
    cases h.tail with
    | empty _ hq => rw [owed, hq.pendingFillReq]; rfl
    | fresh _ _ _ hq => rw [owed, hq.pendingFillReq]; rfl
    | missed bk _ hb => exact absurd (hb.symm.trans (hback c hpend h.len)) (by simp)
    | filling _ _ _ _ _ _ _ hfill => rw [owed, hfill]; rfl
    | filled _ _ _ _ _ _ _ hfill => rw [owed, hfill]; rfl
  have hlen : (c.handleFlush now).pipe.length = P.pipeDepth := List.length_replicate
  refine ⟨⟨⟨hlen, fun _ => ?_, ?_, ?_, h.served, fun _ => rfl⟩,
    .empty (hback _ hpend' hlen) ⟨rfl, rfl, rfl, rfl⟩⟩, ?_, fun hd => ⟨⟨[], ?_, ?_⟩, ?_⟩⟩
  · change (List.replicate P.pipeDepth none).head? = some none
    rw [List.head?_replicate, if_neg P.pipeDepth_pos.ne']
  · intro e he
    have := List.eq_of_mem_replicate (List.dropLast_subset _ he)
    cases this
  · exact fun s w => h.sized s w
  · exact effect_of_log rfl (by rw [hpend, hpend']) (by rw [hpend, hpend']) rfl rfl
  · change c.gone ++ c.dirtyBlocks = _
    rw [hd]
  · rw [howed]
    rfl
  · simp [memReqs]

def shifted (c : PipeCache P) : PipeCache P := { c with pipe := none :: c.pipe.dropLast }

theorem WellFormed.shift (h : WellFormed c) (hb : c.back = none) (b : Bool) :
    WellFormed { c.shifted with isShifted := b } ∧
      Effect [] c [] { c.shifted with isShifted := b } ∧
      Ledger c [] { c.shifted with isShifted := b } ∧ c.Quiet := by
  have hpipe := pipe_eq h.len
  rw [hb] at hpipe
  have hq : c.Quiet := by
    cases h.tail with
    | empty _ hq => exact hq
    | fresh bk hb' => exact absurd (hb'.symm.trans hb) (by simp)
    | missed bk _ hb' => exact absurd (hb'.symm.trans hb) (by simp)
    | filling bk _ hb' => exact absurd (hb'.symm.trans hb) (by simp)
    | filled bk _ hb' => exact absurd (hb'.symm.trans hb) (by simp)
  have hlen : c.shifted.pipe.length = P.pipeDepth := by
    rw [← h.len, hpipe]
    simp [shifted]
  have hpend : c.shifted.pending = c.pending := by
    rw [pending_of_pipe hpipe, pending, shifted, List.reverse_cons, List.filterMap_append]
    simp
  have hrest : ∀ e, some e ∈ c.shifted.pipe → e.Fresh := by
    intro e he
    rcases List.mem_cons.mp he with he | he
    · cases he
    · exact h.rest e he
  have hframed : Framed { c.shifted with isShifted := b } :=
    ⟨hlen, fun _ => rfl, fun e he => hrest e (List.dropLast_subset _ he), h.sized, h.served,
      h.sched⟩
  have hq' : ({ c.shifted with isShifted := b } : PipeCache P).Quiet :=
    ⟨hq.rWaiting, hq.wWaiting, hq.pendingFillReq, hq.isReplay⟩
  refine ⟨⟨hframed, ?_⟩, ?_, ⟨⟨[], (List.append_nil _).symm, ?_⟩, by simp [memReqs]⟩, hq⟩
  · cases hback : c.shifted.back with
    | none => exact .empty hback hq'
    | some bk =>
      refine .fresh bk hback (hrest bk ?_) hq'
      rw [pipe_eq hlen, hback]
      exact List.mem_append_right _ List.mem_cons_self
  · exact effect_of_log rfl (congrArg _ hpend) (congrArg _ hpend) rfl rfl
  · rw [List.append_nil]
    rfl

theorem WellFormed.finishUpdate {outs : List CacheOut} (h : WellFormed c) (hb : c.back = none)
    (hx : c.finishUpdate now = .ok (c', outs)) :
    WellFormed c' ∧ Effect [] c outs c' ∧
      (P.writeBack = true → (c.pendingFlush = true → c.pipe.all (·.isNone) = true →
        c.dirtyBlocks = []) → Ledger c outs c') := by
  unfold PipeCache.finishUpdate at hx
  split at hx
  · rename_i hf
    cases hx
    simp only [Bool.and_eq_true] at hf
    obtain ⟨hw, he, hl⟩ := h.flush now hf.2
    exact ⟨hw, he, fun _ hd => hl (hd hf.1 hf.2)⟩
  · obtain ⟨hw, he, hl, hq⟩ := h.shift hb c.isShifted
    have hacks : ∀ d : PipeCache P, Effect [] c [] d → Effect [] c
        [.cpuAck ⟨P.cacheId, .read⟩, .cpuAck ⟨P.cacheId, .write⟩] d := fun d hd =>
      ⟨hd.log, hd.served, hd.reads⟩
    have hacksl : ∀ d : PipeCache P, Ledger c [] d → Ledger c
        [.cpuAck ⟨P.cacheId, .read⟩, .cpuAck ⟨P.cacheId, .write⟩] d := fun d hd =>
      ⟨hd.blocks, hd.full⟩
    obtain ⟨hw', he', hl', _⟩ := h.shift hb true
    dsimp only at hx
    split at hx
    · rename_i bk hbk
      split at hx
      · rename_i hlook
        obtain ⟨⟨bk', d⟩, hd, hx⟩ := bind_eq_ok.mp hx
        cases hx
        obtain ⟨r, ht⟩ := accessTail_looked hd
        have hfresh := (hw.fresh_of_line hbk hlook.1).1
        have hq₁ : c.shifted.Quiet :=
          ⟨hq.rWaiting, hq.wWaiting, hq.pendingFillReq, hq.isReplay⟩
        obtain ⟨heff, _, hcase⟩ := ht.outcome (c := c.shifted) hw.toFramed hbk hfresh hq₁
        have hinv := ht.probed hlook.2
        rcases hcase with ⟨hv, _⟩ | ⟨_, hmiss⟩
        · exact absurd (hv.symm.trans hinv) (by decide)
        · obtain ⟨hwf, hled⟩ := hmiss (now + 1)
          have heff' := he.trans heff
          exact ⟨hwf, ⟨heff'.log, heff'.served, heff'.reads⟩, fun hwb _ => hl.trans (hled hwb)⟩
      · cases hx
        exact ⟨hw', hacks _ he', fun _ _ => hacksl _ hl'⟩
    · cases hx
      exact ⟨hw', hacks _ he', fun _ _ => hacksl _ hl'⟩

theorem missUpdate_spec (now : Nat) {bk : CachePipeEntry} {r : LineRef} (hf : Framed c)
    (hb : c.back = some bk) (hh : HoldsLine P bk r) (hv : (c.line r).valid = false)
    (hm : bk.missed = true) (h0 : bk.refills = 0) (hfill : c.pendingFillReq = true)
    (hr : c.rWaiting = false) (hp : c.isReplay = false)
    (he : c.wWaiting = true → c.pendingEvict = false)
    (hlen : P.writeBack = true → c.pendingEvict = true → c.evictData.length = P.lineWords) :
    WellFormed (c.missUpdate now bk).1 ∧
      Effect [] c (c.missUpdate now bk).2 (c.missUpdate now bk).1 ∧
      (P.writeBack = true → Ledger c (c.missUpdate now bk).2 (c.missUpdate now bk).1) := by
  have hstay : ∀ b, WellFormed { c with blockedUntil := b } ∧
      Effect [] c [] { c with blockedUntil := b } ∧
      (P.writeBack = true → Ledger c [] { c with blockedUntil := b }) := fun b =>
    ⟨⟨⟨hf.len, hf.front, hf.rest, hf.sized, hf.served, hf.sched⟩,
        .missed bk r hb hh hv hm h0 hfill hr hp he hlen⟩,
      effect_of_log rfl rfl rfl rfl rfl,
      fun _ => ⟨⟨[], (List.append_nil _).symm, by rw [List.append_nil]; rfl⟩, by simp [memReqs]⟩⟩
  unfold missUpdate
  rw [if_neg (by simp [hfill])]
  split
  · rename_i hev
    split
    · exact hstay _
    · rename_i hw
      refine ⟨⟨⟨hf.len, hf.front, hf.rest, hf.sized, hf.served, hf.sched⟩,
          .missed bk r hb hh hv hm h0 hfill hr hp (fun _ => rfl) (fun _ hc => by cases hc)⟩,
        effect_of_log rfl rfl rfl rfl rfl, fun hwb => ⟨⟨[], (List.append_nil _).symm, ?_⟩, ?_⟩⟩
      · simp [owed, hfill, hev, memReqs]
      · intro m hm'
        simp only [memReqs, List.filterMap_cons, List.filterMap_nil, if_true,
          List.mem_singleton] at hm'
        rw [hm']
        exact ⟨hlen hwb hev, by rw [hlen hwb hev]⟩
  · rename_i hev
    split
    · exact hstay _
    · rename_i hw
      have hpipe : ({ c with pendingFillReq := false, rWaiting := true, isReplay := true }.setBack
          (some { bk with refills := bk.refills + 1 })).pipe =
            c.pipe.dropLast ++ [some { bk with refills := bk.refills + 1 }] := rfl
      have hev' : c.pendingEvict = false := Bool.eq_false_of_not_eq_true hev
      refine ⟨⟨hf.setTail hb hpipe rfl hf.sized hf.served hf.sched,
          .filling _ r (back_of_pipe hpipe) ⟨hh.line, hh.set, hh.way, hh.once⟩ hv hm
            (by dsimp only; omega) rfl rfl rfl (Bool.eq_false_of_not_eq_true hw)⟩, ?_,
        fun _ => ⟨⟨[], (List.append_nil _).symm, ?_⟩, ?_⟩⟩
      · refine effect_setTail (k := []) hf hb hpipe (List.append_nil _).symm rfl (fun _ => rfl) ?_
        simp [CachePipeEntry.reads, h0, memReqs]
      · simp [owed, hev', setBack, memReqs]
      · simp [memReqs]

/-- The update has answered `bk` in state `d`; `wasMiss` says that it had missed. -/
def Answered (now : Nat) (c d : PipeCache P) (bk : CachePipeEntry) (wasMiss : Bool) : Prop :=
  ∃ bk₀ e r outs, c.back = some bk₀ ∧ c.lookTail now bk₀ = .ok (bk, e) ∧ bk.line = some r ∧
    (e.line r).valid = true ∧ wasMiss = e.isReplay ∧
    ({ e with isReplay := false } : PipeCache P).handleHit now bk r = .ok (d, outs)

/-- The update comes to its end in state `d`. -/
def AtEnd (now : Nat) (c d : PipeCache P) : Prop :=
  c.back = none ∧ d = c ∨
    ∃ e bk wasMiss f, Answered now c e bk wasMiss ∧ e.prefetchAfter now bk wasMiss = .ok f ∧
      d = f.retire bk

/-- No valid dirty line is overwritten by a prefetch of the update or dropped by its flush. -/
structure CleanUpdate (now : Nat) (c : PipeCache P) : Prop where
  prefetch : ∀ d bk wasMiss, Answered now c d bk wasMiss → bk.mop = .read → d.rWaiting = false →
    ∀ r, d.prefetchVictim bk.addr (!wasMiss) = some r →
      ¬((d.line r).valid = true ∧ (d.line r).dirty = true)
  flush : ∀ d, AtEnd now c d → d.pendingFlush = true → d.pipe.all (·.isNone) = true →
    d.dirtyBlocks = []

theorem prefetchAfter_cases {bk : CachePipeEntry} {wasMiss : Bool}
    (h : c.prefetchAfter now bk wasMiss = .ok c') :
    SameControl c c' ∧ ((bk.mop = .read → c.rWaiting = false →
      ∀ r, c.prefetchVictim bk.addr (!wasMiss) = some r →
        ¬((c.line r).valid = true ∧ (c.line r).dirty = true)) → c'.gone = c.gone) := by
  unfold prefetchAfter at h
  split at h
  · rename_i hr
    obtain ⟨hs, _, ⟨_, hg⟩ | ⟨r, l, hvic, hg⟩⟩ := handlePrefetch_cases h
    · exact ⟨hs, fun _ => hg⟩
    · refine ⟨hs, fun hclean => ?_⟩
      have hn := hclean hr.1 hr.2 r hvic
      rw [hg, CacheLine.lost, if_neg, List.append_nil]
      simp only [Bool.and_eq_true, not_and]
      exact fun hvd => absurd hvd hn
  · cases h
    exact ⟨.refl c, fun _ => rfl⟩

/-- The cases of an update after its deferred response. -/
inductive ServeCase (now : Nat) (c : PipeCache P) (outs : List CacheOut) (c' : PipeCache P) : Prop
  | finish (hb : c.back = none) (hx : c.finishUpdate now = .ok (c', outs))
  | hit (bk₀ bk : CachePipeEntry) (r : LineRef) (e : PipeCache P) (hb : c.back = some bk₀)
      (hlook : c.lookTail now bk₀ = .ok (bk, e)) (hline : bk.line = some r)
      (heff : Effect [] c [] e) (hr : Ready bk r { e with isReplay := false })
      (hg : e.gone = c.gone) (hfill : c.pendingFillReq = false) (hwait : c.rWaiting = false)
      (hw : c.wWaiting = false)
      (hx : ({ e with isReplay := false } : PipeCache P).hitUpdate now bk r e.isReplay =
        .ok (c', outs))
  | start (bk bk' : CachePipeEntry) (r : LineRef) (e : PipeCache P) (hb : c.back = some bk)
      (hf : bk.Fresh) (hq : c.Quiet) (ht : TailLooked bk c bk' r e)
      (hv : (e.line r).valid = false)
      (heq : c' = { e with pendingFillReq := true, blockedUntil := now + 1 }) (ho : outs = [])
  | miss (bk : CachePipeEntry) (r : LineRef) (hb : c.back = some bk) (hh : HoldsLine P bk r)
      (hv : (c.line r).valid = false) (hm : bk.missed = true) (h0 : bk.refills = 0)
      (hfill : c.pendingFillReq = true) (hr : c.rWaiting = false) (hp : c.isReplay = false)
      (he : c.wWaiting = true → c.pendingEvict = false)
      (hlen : P.writeBack = true → c.pendingEvict = true → c.evictData.length = P.lineWords)
      (heq : (c', outs) = c.missUpdate now bk)

/-- The tail entry `bk₀` is served: what the lookup leaves, and which branch is taken. -/
theorem serve_some {outs : List CacheOut} {bk₀ bk : CachePipeEntry} {r : LineRef}
    {e : PipeCache P} (hb : c.back = some bk₀) (hlook : c.lookTail now bk₀ = .ok (bk, e))
    (hline : bk.line = some r) (hx : c.serve now = .ok (c', outs)) :
    (e.isReplay = false ∨ (e.line r).valid = true) ∧
      (if (e.line r).valid then
          ({ e with isReplay := false } : PipeCache P).hitUpdate now bk r e.isReplay
        else .ok (({ e with isReplay := false } : PipeCache P).missUpdate now bk)) =
        .ok (c', outs) := by
  unfold PipeCache.serve at hx
  rw [hb] at hx
  dsimp only at hx
  unfold serveTail at hx
  rw [hlook, ok_bind] at hx
  dsimp only at hx
  rw [hline] at hx
  dsimp only at hx
  exact require_bind_eq_ok.mp hx

theorem WellFormed.serve_cases {outs : List CacheOut} (h : WellFormed c)
    (hx : c.serve now = .ok (c', outs)) : ServeCase now c outs c' := by
  cases h.tail with
  | empty hb =>
    unfold PipeCache.serve at hx
    rw [hb] at hx
    exact .finish hb hx
  | fresh bk hb hf hq =>
    have hlook : c.lookTail now bk = c.accessTail now bk := if_pos hf.1
    have hacc : ∃ p, c.accessTail now bk = .ok p := by
      unfold PipeCache.serve at hx
      rw [hb] at hx
      dsimp only at hx
      unfold serveTail at hx
      rw [hlook] at hx
      obtain ⟨p, hp, _⟩ := bind_eq_ok.mp hx
      exact ⟨p, hp⟩
    obtain ⟨⟨bk', e⟩, hacc⟩ := hacc
    obtain ⟨r, ht⟩ := accessTail_looked hacc
    obtain ⟨heff, hline, hcase⟩ := ht.outcome h.toFramed hb hf hq
    have hrep : e.isReplay = false := ht.isReplay.trans hq.isReplay
    have hfill : e.pendingFillReq = false := ht.pendingFillReq.trans hq.pendingFillReq
    obtain ⟨_, hx⟩ := serve_some hb (hlook.trans hacc) hline hx
    rcases hcase with ⟨hv, hr, hg⟩ | ⟨hv, _⟩
    · rw [if_pos hv] at hx
      exact .hit bk bk' r e hb (hlook.trans hacc) hline heff ((isReplay_eta hrep).symm ▸ hr) hg
        hq.pendingFillReq hq.rWaiting hq.wWaiting hx
    · rw [if_neg (by simp [hv]), isReplay_eta hrep, missUpdate, if_pos (by simp [hfill])] at hx
      cases hx
      exact .start bk bk' r e hb hf hq ht hv rfl rfl
  | missed bk r hb hh hv hm h0 hfill hr hp he hlen =>
    have hlook : c.lookTail now bk = .ok (bk, c) := if_neg (by simp [hh.line])
    obtain ⟨_, hx⟩ := serve_some hb hlook hh.line hx
    rw [if_neg (by simp [hv]), isReplay_eta hp] at hx
    exact .miss bk r hb hh hv hm h0 hfill hr hp he hlen (Except.ok.inj hx).symm
  | filling bk r hb hh hv hm h1 hfill hr hp hw =>
    have hlook : c.lookTail now bk = .ok (bk, c) := if_neg (by simp [hh.line])
    rcases (serve_some hb hlook hh.line hx).1 with hreq | hreq
    · exact absurd (hp.symm.trans hreq) (by decide)
    · exact absurd (hreq.symm.trans hv) (by decide)
  | filled bk r hb hh hv hm h1 hfill hr hp hw =>
    have hlook : c.lookTail now bk = .ok (bk, c) := if_neg (by simp [hh.line])
    obtain ⟨_, hx⟩ := serve_some hb hlook hh.line hx
    rw [if_pos hv] at hx
    exact .hit bk bk r c hb hlook hh.line (effect_of_log rfl rfl rfl rfl rfl)
      ⟨⟨h.len, h.front, h.rest, h.sized, h.served, h.sched⟩, hb, hh, hv,
        ⟨hh.once, by rw [h1, hm]; rfl⟩, hr, hw, hfill, rfl⟩ rfl hfill hr hw hx

theorem Ready.hitUpdate {outs : List CacheOut} {bk : CachePipeEntry} {r : LineRef} {b : Bool}
    (hr : Ready bk r c) (hx : c.hitUpdate now bk r b = .ok (c', outs)) :
    ∃ d resp f o, c.handleHit now bk r = .ok (d, resp) ∧ d.prefetchAfter now bk b = .ok f ∧
      (f.retire bk).finishUpdate now = .ok (c', o) ∧ outs = resp ++ o ∧
      WellFormed (f.retire bk) ∧ (f.retire bk).back = none ∧ Effect [] c resp (f.retire bk) ∧
      (f.gone = d.gone → Ledger c resp (f.retire bk)) := by
  unfold PipeCache.hitUpdate at hx
  obtain ⟨⟨d, resp⟩, hd, hx⟩ := bind_eq_ok.mp hx
  obtain ⟨f, hf, hx⟩ := bind_eq_ok.mp hx
  obtain ⟨⟨k, o⟩, hk, hx⟩ := bind_eq_ok.mp hx
  cases hx
  exact ⟨d, resp, f, o, hd, hf, hk, rfl,
    hr.retire (handleHit_cases hr.hv hd) (prefetchAfter_cases hf).1⟩

theorem WellFormed.serve {outs : List CacheOut} (h : WellFormed c)
    (hx : c.serve now = .ok (c', outs)) :
    WellFormed c' ∧ Effect [] c outs c' ∧
      (P.writeBack = true → CleanUpdate now c → Ledger c outs c') := by
  cases h.serve_cases hx with
  | finish hb hx =>
    obtain ⟨hw, he, hl⟩ := h.finishUpdate hb hx
    exact ⟨hw, he, fun hwb hc => hl hwb fun hp ha => hc.flush c (.inl ⟨hb, rfl⟩) hp ha⟩
  | hit bk₀ bk r e hb hlook hline heff hr hg hfill _ _ hx =>
    obtain ⟨d, resp, f, o, hd, hf, hk, rfl, hw, hnone, heff', hled⟩ := hr.hitUpdate hx
    have hans : Answered now c d bk e.isReplay :=
      ⟨bk₀, e, r, resp, hb, hlook, hline, hr.hv, rfl, hd⟩
    obtain ⟨hw', heff'', hled'⟩ := hw.finishUpdate hnone hk
    have heff₁ : Effect [] c resp (f.retire bk) :=
      heff.trans ⟨heff'.log, heff'.served, heff'.reads⟩
    refine ⟨hw', heff₁.trans heff'', fun hwb hc => ?_⟩
    have hl := hled ((prefetchAfter_cases hf).2 (hc.prefetch d bk e.isReplay hans))
    have hco : c.owed = [] := by
      rw [owed, hfill]
      rfl
    have heo : ({ e with isReplay := false } : PipeCache P).owed = [] := by
      rw [owed, hr.hq.pendingFillReq]
      rfl
    have hl₁ : Ledger c resp (f.retire bk) := by
      obtain ⟨x, hx, ho⟩ := hl.blocks
      refine ⟨⟨x, ?_, ?_⟩, hl.full⟩
      · rw [hx]
        change e.gone ++ x = _
        rw [hg]
      · rw [hco, ← heo]
        exact ho
    exact hl₁.trans (hled' hwb fun hp ha =>
      hc.flush _ (.inr ⟨d, bk, e.isReplay, f, hans, hf, rfl⟩) hp ha)
  | start bk bk' r e hb hf hq ht hv heq ho =>
    obtain ⟨heff, _, ⟨hv', _⟩ | ⟨_, hmiss⟩⟩ := ht.outcome h.toFramed hb hf hq
    · exact absurd (hv'.symm.trans hv) (by decide)
    · obtain ⟨hw, hl⟩ := hmiss (now + 1)
      rw [heq, ho]
      exact ⟨hw, ⟨heff.log, heff.served, heff.reads⟩, fun hwb _ => hl hwb⟩
  | miss bk r hb hh hv hm h0 hfill hr hp he hlen heq =>
    obtain ⟨hw, heff, hl⟩ :=
      missUpdate_spec now h.toFramed hb hh hv hm h0 hfill hr hp he hlen
    rw [← heq] at hw heff hl
    exact ⟨hw, heff, fun hwb _ => hl hwb⟩

theorem Effect.refl (c : PipeCache P) : Effect [] c [] c := effect_of_log rfl rfl rfl rfl rfl

theorem Books.refl (acc : PipeCache P → List Addr) (c : PipeCache P) : Books acc c [] c :=
  ⟨⟨[], (List.append_nil _).symm, by rw [List.append_nil]; rfl⟩, by simp [memReqs]⟩

theorem deliverDeferred_never (now : Nat) (h : c.schedHitTime = infTime) :
    c.deliverDeferred now = (c, []) := by
  unfold PipeCache.deliverDeferred
  rw [if_neg]
  rw [h]
  exact not_le.mpr (ENat.natCast_lt_top now)

theorem WellFormed.deliverDeferred (now : Nat) (h : WellFormed c) :
    WellFormed (c.deliverDeferred now).1 ∧
      Effect [] c (c.deliverDeferred now).2 (c.deliverDeferred now).1 ∧
      Ledger c (c.deliverDeferred now).2 (c.deliverDeferred now).1 := by
  unfold PipeCache.deliverDeferred
  split
  · rename_i hdue
    have htail : ({ c with schedHitTime := infTime } : PipeCache P).Tail :=
      h.tail.congr rfl rfl rfl rfl rfl rfl rfl rfl
    refine ⟨⟨⟨h.len, h.front, h.rest, h.sized, h.served, fun _ => rfl⟩, htail⟩,
      ⟨(List.append_nil _).symm, ⟨[], (List.append_nil _).symm, fun hi => ?_⟩,
        (List.append_nil _).symm⟩, ⟨⟨[], (List.append_nil _).symm, List.append_nil _⟩, ?_⟩⟩
    · rw [h.sched hi] at hdue
      exact absurd (top_le_iff.mp hdue) (ENat.natCast_ne_top now)
    · simp [memReqs]
  · exact ⟨h, .refl c, .refl _ c⟩

theorem doUpdate_cases {outs : List CacheOut} (hx : c.doUpdate now = .ok (c', outs)) :
    ¬c.nextUpdate ≤ now ∧ c' = c ∧ outs = [] ∨
      c.nextUpdate ≤ now ∧ ∃ o, (c.deliverDeferred now).1.serve now = .ok (c', o) ∧
        outs = (c.deliverDeferred now).2 ++ o := by
  unfold PipeCache.doUpdate at hx
  split at hx
  · rename_i hdue
    unfold updateImpl at hx
    obtain ⟨⟨d, o⟩, hd, hx⟩ := bind_eq_ok.mp hx
    obtain ⟨hc, ho⟩ := Prod.mk.inj (Except.ok.inj hx)
    exact .inr ⟨hdue, o, hc ▸ hd, ho.symm⟩
  · rename_i hdue
    cases hx
    exact .inl ⟨hdue, rfl, rfl⟩

theorem WellFormed.doUpdate {outs : List CacheOut} (h : WellFormed c)
    (hx : c.doUpdate now = .ok (c', outs)) :
    WellFormed c' ∧ Effect [] c outs c' ∧ (P.writeBack = true →
      (c.nextUpdate ≤ now → CleanUpdate now (c.deliverDeferred now).1) → Ledger c outs c') := by
  rcases doUpdate_cases hx with ⟨_, rfl, rfl⟩ | ⟨hdue, o, hd, rfl⟩
  · exact ⟨h, .refl c', fun _ _ => .refl _ c'⟩
  · obtain ⟨hw, he, hl⟩ := h.deliverDeferred now
    obtain ⟨hw', he', hl'⟩ := hw.serve hd
    exact ⟨hw', he.trans he', fun hwb hc => hl.trans (hl' hwb (hc hdue))⟩

theorem WellFormed.recvMemResp {m : MemTrans} (h : WellFormed c)
    (hx : c.recvMemResp now m = .ok c') :
    WellFormed c' ∧ Effect [] c [] c' ∧ Ledger c [] c' := by
  rcases recvMemResp_cases hx with
    ⟨_, hr, bk, r, repl, _, hb, hl, _, rfl⟩ | ⟨_, hw, rfl⟩
  · cases h.tail with
    | empty _ hq => exact absurd (hr.symm.trans hq.rWaiting) (by decide)
    | fresh _ _ _ hq => exact absurd (hr.symm.trans hq.rWaiting) (by decide)
    | missed _ _ _ _ _ _ _ _ hr' => exact absurd (hr.symm.trans hr') (by decide)
    | filled _ _ _ _ _ _ _ _ hr' => exact absurd (hr.symm.trans hr') (by decide)
    | filling _ _ hb' hh hv hm h1 hfill _ hp hw =>
      cases Option.some.inj (hb'.symm.trans hb)
      cases Option.some.inj (hh.line.symm.trans hl)
      have howed : c.owed = [] := by
        rw [owed, hfill]
        rfl
      refine ⟨⟨⟨h.len, h.front, h.rest, ?_, h.served, h.sched⟩,
        .filled bk r hb hh ?_ hm h1 hfill rfl hp hw⟩, effect_of_log rfl rfl rfl rfl rfl,
        ⟨⟨[], ?_, ?_⟩, by simp [memReqs]⟩⟩
      · exact Sized.setLine (c := { c with rWaiting := false, repl := repl }) h.sized rfl
      · exact congrArg CacheLine.valid
          (line_setLine_self { c with rWaiting := false, repl := repl } r _)
      · change c.gone ++ (c.line r).lost _ = c.gone ++ []
        rw [CacheLine.lost, hv]
        rfl
      · rw [howed]
        change [] = [] ++ c.owed
        rw [howed]
        rfl
  · cases h.tail with
    | empty _ hq => exact absurd (hw.symm.trans hq.wWaiting) (by decide)
    | fresh _ _ _ hq => exact absurd (hw.symm.trans hq.wWaiting) (by decide)
    | filling _ _ _ _ _ _ _ _ _ _ hw' => exact absurd (hw.symm.trans hw') (by decide)
    | filled _ _ _ _ _ _ _ _ _ _ hw' => exact absurd (hw.symm.trans hw') (by decide)
    | missed bk r hb hh hv hm h0 hfill hr hp he hlen =>
      refine ⟨⟨⟨h.len, h.front, h.rest, h.sized, h.served, h.sched⟩,
        .missed bk r hb hh hv hm h0 hfill hr hp (fun hc => by cases hc) hlen⟩,
        effect_of_log rfl rfl rfl rfl rfl,
        ⟨⟨[], (List.append_nil _).symm, List.append_nil _⟩, by simp [memReqs]⟩⟩

theorem WellFormed.enqueue {e : CachePipeEntry} (h : WellFormed c) (he : e.Fresh)
    (hx : c.enqueue now e = .ok c') :
    WellFormed c' ∧ Effect [e.req] c [] c' ∧ Ledger c [] c' := by
  obtain ⟨hsh, rest, hpipe, rfl⟩ := enqueue_eq_ok.mp hx
  have hpend : c.pending = rest.reverse.filterMap id := by
    rw [pending, hpipe, List.reverse_cons, List.filterMap_append]
    exact List.append_nil _
  have hpend' : ∀ d : PipeCache P, d.pipe = some e :: rest → d.pending = c.pending ++ [e] := by
    intro d hd
    rw [hpend, pending, hd, List.reverse_cons, List.filterMap_append]
    rfl
  refine ⟨⟨⟨?_, (fun hc => by cases hc), ?_, h.sized, h.served, h.sched⟩, ?_⟩,
    ⟨?_, ⟨[], (List.append_nil _).symm, fun _ => rfl⟩, ?_⟩,
    ⟨⟨[], (List.append_nil _).symm, List.append_nil _⟩, by simp [memReqs]⟩⟩
  · rw [← h.len, hpipe]
    rfl
  · intro x hx
    have hrest := h.rest
    rw [hpipe] at hrest
    cases hr : rest with
    | nil =>
      rw [hr] at hx
      cases hx
    | cons y l =>
      rw [hr] at hx hrest
      rw [List.dropLast_cons_cons] at hx hrest
      rcases List.mem_cons.mp hx with hx | hx
      · cases hx
        exact he
      · exact hrest x (List.mem_cons_of_mem _ hx)
  · cases hr : rest with
    | nil =>
      have hb : c.back = none := back_of_pipe (l := []) (by rw [hpipe, hr]; rfl)
      have hq : c.Quiet := by
        cases h.tail with
        | empty _ hq => exact hq
        | fresh bk hb' => exact absurd (hb'.symm.trans hb) (by simp)
        | missed bk _ hb' => exact absurd (hb'.symm.trans hb) (by simp)
        | filling bk _ hb' => exact absurd (hb'.symm.trans hb) (by simp)
        | filled bk _ hb' => exact absurd (hb'.symm.trans hb) (by simp)
      exact .fresh e rfl he ⟨hq.rWaiting, hq.wWaiting, hq.pendingFillReq, hq.isReplay⟩
    | cons y l =>
      refine h.tail.congr ?_ rfl rfl rfl rfl rfl rfl rfl
      rw [back, back, hpipe, hr]
      rfl
  · rw [log, log, hpend' _ rfl, ← List.append_assoc, List.map_append]
    rfl
  · rw [log, log, hpend' _ rfl, ← List.append_assoc, List.flatMap_append, List.flatMap_singleton,
      he.reads_eq]
    rfl

theorem WellFormed.flushAll (h : WellFormed c) : WellFormed c.flushAll :=
  ⟨⟨h.len, h.front, h.rest, h.sized, h.served, h.sched⟩,
    h.tail.congr rfl rfl rfl rfl rfl rfl rfl rfl⟩

theorem WellFormed.resetStats (h : WellFormed c) : WellFormed c.resetStats :=
  ⟨⟨h.len, h.front, h.rest, h.sized, h.served, h.sched⟩,
    h.tail.congr rfl rfl rfl rfl rfl rfl rfl rfl⟩

theorem WellFormed.resetPrefetcher (h : WellFormed c) : WellFormed c.resetPrefetcher :=
  ⟨⟨h.len, h.front, h.rest, h.sized, h.served, h.sched⟩,
    h.tail.congr rfl rfl rfl rfl rfl rfl rfl rfl⟩

end PipeCache

end NpSim.Cache
