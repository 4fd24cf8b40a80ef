/- digest: The data-carrying build: a write-back cache in front of a byte-addressed memory, and when
   its reads return what was written. -/

import NpSim.Cache.Words
import NpSim.Mem.Slots
import NpSim.System.Main

set_option autoImplicit false
set_option relaxedAutoImplicit false

namespace NpSim.Mem

open NpSim.Lib.Partial

/-- `memory` of `pmem.cc`: a byte at every address. -/
abbrev Pmem := Addr → BitVec 8

def pmemRead (mem : Pmem) (addr : Addr) : Word :=
  mem (addr + 3) ++ mem (addr + 2) ++ mem (addr + 1) ++ mem addr

def pmemWrite (mem : Pmem) (addr : Addr) (data : Word) (mask : BitVec 8) : Pmem := fun a =>
  let i := (a - addr).toNat
  if i < 4 ∧ mask.getLsbD i = true then data.extractLsb' (8 * i) 8 else mem a

/-- The words with which `update_impl` answers the read `rd`. -/
def readBurst (mem : Pmem) (rd : MemTrans) : List Word :=
  (List.range rd.bstLen).map fun i => pmemRead mem (rd.addr + BitVec.ofNat 32 (4 * i))

/-- The loop in which `update_impl` carries out the write `wr`: word for word, with the strobe of
each. -/
def writeBurst (mem : Pmem) (wr : MemTrans) : Except Fault Pmem :=
  (List.range wr.bstLen).foldlM (fun mem i =>
    match wr.data[i]?, wr.strb[i]? with
    | some data, some strb => .ok (pmemWrite mem (wr.addr + BitVec.ofNat 32 (4 * i)) data strb)
    | _, _ => .error .dataRange) mem

end NpSim.Mem

namespace NpSim.System

open NpSim.Lib.Partial NpSim.Lib.Contract NpSim.Cache NpSim.Mem Relation

structure Access where
  op : MemRWOpt
  addr : Addr
  data : Word := 0
  strb : BitVec 8 := 0
  deriving DecidableEq, Repr

def applied (mem : Pmem) (l : List Access) : Pmem :=
  l.foldl (fun mem a => match a.op with
    | .read => mem
    | .write => pmemWrite mem a.addr a.data a.strb) mem

/-- What the reads of a sequence of accesses return, with the writes before each of them. -/
def outcomes (mem : Pmem) : List Access → List (Addr × Word)
  | [] => []
  | a :: l =>
    match a.op with
    | .read => (a.addr, pmemRead mem a.addr) :: outcomes mem l
    | .write => outcomes (pmemWrite mem a.addr a.data a.strb) l

/-- A cache with its memory. `start` is the memory at the beginning. -/
structure Carried (P : CacheParams) (K : ArbiterConfig) (start : Pmem) where
  now : Nat := 0
  cache : PipeCache P := {}
  fabric : RAMArbiter K := {}
  pmem : Pmem := start
  accepted : List Access := []
  sent : List CacheOut := []

namespace Carried

variable {P : CacheParams} {K : ArbiterConfig} {start : Pmem}

/-- The answer of the fabric: the data are read or written, and the cache is told. -/
def receive (now id : Nat) (m : MemTrans) (s : (PipeCache P × Pmem) × RAMArbiter K) :
    Except Fault ((PipeCache P × Pmem) × RAMArbiter K) :=
  if id = P.cacheId then
    match m.mop with
    | .read => do
      let c ← Carrying.recvMemResp now { m with data := readBurst s.1.2 m } s.1.1
      .ok ((c, s.1.2), s.2)
    | .write => do
      let mem ← writeBurst s.1.2 m
      let c ← Carrying.recvMemResp now m s.1.1
      .ok ((c, mem), s.2)
  else .error .badId

def request (now : Nat) (a : Access) (c : PipeCache P) :
    Except Fault (PipeCache P × List CacheOut) :=
  match a.op with
  | .read => do
    let c ← c.readReq now a.addr
    .ok (c, [])
  | .write => c.writeReq now a.addr a.data a.strb

def ready (a : Access) (c : PipeCache P) : Bool :=
  match a.op with
  | .read => c.isReady.1
  | .write => c.isReady.2

inductive Action
  | memory
  | update
  | request (a : Access)
  | tick

/-- A step: an update of the memory or of the cache, a request when the cache is ready, or the next
tick. -/
def act (b : Carried P K start) : Action → Except Fault (Carried P K start)
  | .memory => do
    let ((cache, pmem), fabric) ← RAMArbiter.doUpdate b.now (receive b.now)
      ((b.cache, b.pmem), b.fabric)
    .ok { b with cache := cache, pmem := pmem, fabric := fabric }
  | .update => do
    let (cache, outs) ← b.cache.doUpdate b.now
    let fabric ← (requests outs).foldlM (fun m r => m.recvReq b.now r) b.fabric
    .ok { b with cache := cache, fabric := fabric, sent := b.sent ++ outs }
  | .request a => do
    require (a.addr.toNat % 4 = 0 ∧ ready a b.cache = true) .portBusy
    let (cache, outs) ← request b.now a b.cache
    let fabric ← (requests outs).foldlM (fun m r => m.recvReq b.now r) b.fabric
    .ok { b with
      cache := cache, fabric := fabric, accepted := b.accepted ++ [a], sent := b.sent ++ outs }
  | .tick => .ok { b with now := b.now + 1 }

def ReachableBy (ok : Carried P K start → Action → Prop) (b : Carried P K start) : Prop :=
  ReflTransGen (fun b b' => ∃ e, ok b e ∧ b.act e = .ok b') {} b

def results (b : Carried P K start) : List (Addr × Word) :=
  ((PipeCache.responses b.sent).filter (·.mop = .read)).map fun t => (t.addr, t.data)

/-- The reads return what they should, in order and, unless the cache defers its responses, without
a gap; and the writes that wait at the fabric can be carried out. -/
structure Right (b : Carried P K start) : Prop where
  results : b.results.Sublist (outcomes start b.accepted)
  inOrder : PipeCache.Immediate P → b.results <+: outcomes start b.accepted
  writes : ∀ h wr, (b.fabric.chan .write).reqs h = some wr → ∃ mem, writeBurst b.pmem wr = .ok mem

/-- The words that a refill of `addr` reads are those of its block. -/
def Refills (P : CacheParams) (start : Pmem) (addr : Addr) : Prop :=
  ∀ i < P.lineWords, pmemRead start (addr + BitVec.ofNat 32 (4 * i)) =
    pmemRead start (P.tagOf addr + BitVec.ofNat 32 (4 * i))

/-- A read asks for a word that the writes so far have not changed; an update that finds its tail
entry missed has nothing to evict, and the words from the missed address on are those of its
block. -/
def Harmless (b : Carried P K start) : Action → Prop
  | .request a => a.op = .read → pmemRead (applied start b.accepted) a.addr = pmemRead start a.addr
  | .update => ∀ bk ∈ b.cache.back, ∀ r ∈ bk.line, (b.cache.line r).valid = false →
      b.cache.pendingEvict = false ∧ Refills P start bk.addr
  | _ => True

instance (b : Carried P K start) : (x : Action) → Decidable (Harmless b x)
  | .memory => inferInstanceAs (Decidable True)
  | .update => inferInstanceAs (Decidable (∀ bk ∈ b.cache.back, ∀ r ∈ bk.line,
      (b.cache.line r).valid = false → b.cache.pendingEvict = false ∧
        ∀ i < P.lineWords, pmemRead start (bk.addr + BitVec.ofNat 32 (4 * i)) =
          pmemRead start (P.tagOf bk.addr + BitVec.ofNat 32 (4 * i))))
  | .request a => inferInstanceAs (Decidable (a.op = .read →
      pmemRead (applied start b.accepted) a.addr = pmemRead start a.addr))
  | .tick => inferInstanceAs (Decidable True)

def readAnswers (start : Pmem) (l : List (Addr × MemRWOpt)) : List (Addr × Word) :=
  (l.filter (·.2 = .read)).map fun x => (x.1, pmemRead start x.1)

private theorem readAnswers_append (l l' : List (Addr × MemRWOpt)) :
    readAnswers start (l ++ l') = readAnswers start l ++ readAnswers start l' := by
  unfold readAnswers
  rw [List.filter_append, List.map_append]

private theorem outcomes_concat (mem : Pmem) (l : List Access) (a : Access) :
    outcomes mem (l ++ [a]) = outcomes mem l ++
      if a.op = .read then [(a.addr, pmemRead (applied mem l) a.addr)] else [] := by
  induction l generalizing mem with
  | nil =>
    cases hop : a.op <;> simp [outcomes, applied, hop]
  | cons x l ih =>
    cases hop : x.op with
    | read =>
      rw [List.cons_append, outcomes, outcomes, hop]
      dsimp only
      rw [ih, List.cons_append]
      simp [applied, hop]
    | write =>
      rw [List.cons_append, outcomes, outcomes, hop]
      dsimp only
      rw [ih]
      simp [applied, hop]

/-- The cache holds words of the memory only, and waits for at most one refill. -/
structure Faithful (start : Pmem) (c : PipeCache P) (mem : Pmem) (s : Slots) : Prop where
  wf : c.WellFormed
  single : c.Single
  words : ∀ r w b ws, c.cells r w = some (b, ws) → ws = P.blockWords (pmemRead start) b
  same : mem = start
  writes : ∀ h, s .write h = none
  refill : ∀ h a, s .read h = some a → h = P.cacheId ∧ c.readsOwed = [a] ∧ Refills P start a

/-- The invariant of the runs whose steps are harmless. -/
structure Intact (b : Carried P K start) : Prop where
  faithful : Faithful start b.cache b.pmem b.fabric.slots
  fabric : RAMArbiter.Consistent none b.fabric
  log : b.cache.log.map CachePipeEntry.req = b.accepted.map fun a => (a.addr, a.op)
  aligned : ∀ a ∈ b.accepted, a.addr.toNat % 4 = 0
  unchanged : outcomes start b.accepted =
    readAnswers start (b.accepted.map fun a => (a.addr, a.op))
  answers : ∃ ts, ts.map (fun t : CpuTrans => (t.addr, t.mop)) =
      b.cache.served.map CachePipeEntry.req ∧
    (∀ t ∈ ts, t.mop = .read → t.data = pmemRead start t.addr) ∧
    (PipeCache.responses b.sent ++ b.cache.deferred).Sublist ts
  immediate : PipeCache.Immediate P → cpuResps b.sent = b.cache.served.map CachePipeEntry.req

theorem Intact.init : Intact ({} : Carried P K start) where
  faithful :=
    { wf := PipeCache.wellFormed_init
      single := PipeCache.single_init
      words := fun r w b ws h => by cases h
      same := rfl
      writes := fun _ => rfl
      refill := fun h a hs => by cases hs }
  fabric := RAMArbiter.consistent_init
  log := congrArg (List.map _) PipeCache.log_init
  aligned a ha := by cases ha
  unchanged := rfl
  answers := ⟨[], rfl, fun t ht => absurd ht List.not_mem_nil, List.Sublist.refl _⟩
  immediate _ := rfl

/-- Under the invariant the reads have been answered right. -/
theorem Intact.answers_right {b : Carried P K start} (h : Intact b) : Right b := by
  obtain ⟨ts, hts, hdata, hsub⟩ := h.answers
  have hread : ∀ us : List CpuTrans, (∀ t ∈ us, t.mop = .read → t.data = pmemRead start t.addr) →
      (us.filter (·.mop = .read)).map (fun t => (t.addr, t.data)) =
        readAnswers start (us.map fun t => (t.addr, t.mop)) := by
    intro us hus
    unfold readAnswers
    rw [List.filter_map, List.map_map]
    refine List.map_congr_left fun t ht => ?_
    obtain ⟨hmem, hop⟩ := List.mem_filter.mp ht
    rw [hus t hmem (of_decide_eq_true hop)]
    rfl
  have hsub' : (PipeCache.responses b.sent).Sublist ts :=
    (List.sublist_append_left _ _).trans hsub
  have hresults : b.results =
      readAnswers start ((PipeCache.responses b.sent).map fun t => (t.addr, t.mop)) :=
    hread _ fun t ht => hdata t (hsub'.subset ht)
  have hlog : b.cache.served.map CachePipeEntry.req <+: b.accepted.map fun a => (a.addr, a.op) := by
    rw [← h.log, PipeCache.log, List.map_append]
    exact List.prefix_append _ _
  refine ⟨?_, fun hi => ?_, fun k wr hwr => ?_⟩
  · rw [hresults, h.unchanged]
    refine List.Sublist.map _ (List.Sublist.filter _ ?_)
    exact ((hsub'.map _).trans (hts ▸ List.Sublist.refl _)).trans hlog.sublist
  · rw [hresults, h.unchanged, ← PipeCache.cpuResps_eq, h.immediate hi]
    exact (hlog.filter _).map _
  · have hnone := h.faithful.writes k
    rw [RAMArbiter.slots, hwr] at hnone
    cases hnone

private theorem Faithful.received {c c' : PipeCache P} {mem : Pmem} {s : Slots} {k : Nat}
    {rd m : MemTrans} (h : Faithful start c mem s) (hs : s .read k = some rd.addr)
    (hr : Carrying.Received m c c') (hop : m.mop = .read) (haddr : m.addr = rd.addr)
    (hdata : m.data = readBurst mem rd) : Faithful start c' mem (s.put .read k none) := by
  obtain ⟨hid, _, hrefill⟩ := h.refill k rd.addr hs
  refine ⟨hr.wf, hr.single, fun r w b ws hc => ?_, h.same, fun g => ?_, fun g a hg => ?_⟩
  · rcases hr.cells r w (b, ws) hc with hold | ⟨_, hnew⟩
    · exact h.words r w b ws hold
    · obtain ⟨rfl, rfl⟩ := Prod.mk.inj hnew
      have hlen := hr.full hop
      rw [hdata] at hlen ⊢
      unfold readBurst at hlen ⊢
      rw [List.length_map, List.length_range] at hlen
      rw [hlen, h.same, haddr]
      unfold CacheParams.blockWords
      exact List.map_congr_left fun i hi => hrefill i (List.mem_range.mp hi)
  · rw [Slots.put_other fun hx => by cases hx.1]
    exact h.writes g
  · by_cases hx : g = k
    · rw [hx, Slots.put_self] at hg
      cases hg
    · rw [Slots.put_other fun hy => hx hy.2] at hg
      exact absurd ((h.refill g a hg).1.trans hid.symm) hx

theorem Intact.memory {b b' : Carried P K start} (h : Intact b) (hx : b.act .memory = .ok b') :
    Intact b' := by
  obtain ⟨⟨⟨c, mem⟩, m⟩, hu, hx⟩ := bind_eq_ok.mp hx
  cases hx
  -- what an answer of the memory leaves alone
  let I : PipeCache P × Pmem → Slots → Prop := fun e s =>
    Faithful start e.1 e.2 s ∧ e.1.log.map CachePipeEntry.req =
      b.cache.log.map CachePipeEntry.req ∧ e.1.served = b.cache.served ∧
        e.1.deferred = b.cache.deferred
  have hrecv : RAMArbiter.Receptive (fun _ => True) I (receive (K := K) b.now) := by
    rintro ⟨e, pmem⟩ s op k req n ⟨hf, hlog, hserved, hdef⟩ hslot hid hop hlt
    cases hres : receive b.now k { req with dir := .resp } ((e, pmem), n) with
    | error f => exact trivial
    | ok r =>
      cases op with
      | write =>
        rw [hf.writes k] at hslot
        cases hslot
      | read =>
        obtain ⟨hk, howed, _⟩ := hf.refill k req.addr hslot
        unfold receive at hres
        rw [if_pos hk] at hres
        dsimp only at hres
        rw [hop] at hres
        obtain ⟨e', he, hres⟩ := bind_eq_ok.mp hres
        cases hres
        have hrec := Carrying.recvMemResp_received hf.wf hf.single (fun _ hw bk hbk => ?_) he
        · exact ⟨rfl, hf.received hslot hrec rfl rfl rfl, hrec.log.trans hlog,
            hrec.served.trans hserved, hrec.deferred.trans hdef⟩
        · unfold PipeCache.readsOwed at howed
          rw [hw, if_pos rfl, hbk] at howed
          exact (List.cons.inj howed).1.symm
  have hobl : RAMArbiter.Obliging b.now (receive (P := P) (K := K) b.now) := by
    intro k x s t ht
    unfold receive at ht
    split at ht
    · split at ht
      · obtain ⟨e', _, ht⟩ := bind_eq_ok.mp ht
        cases ht
        exact .refl
      · obtain ⟨mem', _, ht⟩ := bind_eq_ok.mp ht
        obtain ⟨e', _, ht⟩ := bind_eq_ok.mp ht
        cases ht
        exact .refl
    · cases ht
  obtain ⟨hcons, hf, hlog, hserved, hdef⟩ := (RAMArbiter.doUpdate_meets (I := I)
    (fun _ _ => trivial) hobl hrecv h.fabric ⟨h.faithful, rfl, rfl, rfl⟩).result hu
  refine ⟨hf, hcons, hlog.trans h.log, h.aligned, h.unchanged, ?_, fun hi => ?_⟩
  · obtain ⟨ts, hts, hdata, hsub⟩ := h.answers
    refine ⟨ts, ?_, hdata, ?_⟩
    · rw [hts]
      exact congrArg (List.map _) hserved.symm
    · exact hdef.symm ▸ hsub
  · rw [h.immediate hi]
    exact congrArg (List.map _) hserved.symm

private theorem request_enqueue (hwb : P.writeBack = true) {now : Nat} {a : Access}
    {c c' : PipeCache P} {outs : List CacheOut} (hx : request now a c = .ok (c', outs)) :
    outs = [] ∧ ∃ e : CachePipeEntry, e.Fresh ∧ e.req = (a.addr, a.op) ∧
      c.enqueue now e = .ok c' := by
  unfold request at hx
  cases hop : a.op with
  | read =>
    rw [hop] at hx
    obtain ⟨d, hd, hx⟩ := bind_eq_ok.mp hx
    cases hx
    exact ⟨rfl, _, ⟨rfl, rfl, rfl, rfl⟩, rfl, hd⟩
  | write =>
    rw [hop] at hx
    dsimp only at hx
    unfold PipeCache.writeReq at hx
    rw [if_pos hwb] at hx
    obtain ⟨d, hd, hx⟩ := bind_eq_ok.mp hx
    cases hx
    exact ⟨rfl, _, ⟨rfl, rfl, rfl, rfl⟩, rfl, hd⟩

theorem Intact.request {b b' : Carried P K start} {a : Access} (hwb : P.writeBack = true)
    (h : Intact b) (hok : Harmless b (.request a)) (hx : b.act (.request a) = .ok b') :
    Intact b' := by
  obtain ⟨⟨halign, _⟩, hx⟩ := require_bind_eq_ok.mp hx
  obtain ⟨⟨c, outs⟩, hc, hx⟩ := bind_eq_ok.mp hx
  obtain ⟨rfl, e, hfresh, hreq, he⟩ := request_enqueue hwb hc
  obtain ⟨m, hm, hx⟩ := bind_eq_ok.mp hx
  cases hm
  cases hx
  obtain ⟨hwf, heff, _⟩ := h.faithful.wf.enqueue hfresh he
  obtain ⟨hsingle, howed⟩ := h.faithful.single.enqueue hfresh.1 he
  have hans := PipeCache.enqueue_answers he
  refine ⟨⟨hwf, hsingle, fun r w x ws hcell => ?_, h.faithful.same, h.faithful.writes,
    fun k x hk => ?_⟩, h.fabric, ?_, fun x hmem => ?_, ?_, ?_, fun hi => ?_⟩
  · exact h.faithful.words r w x ws (PipeCache.enqueue_cells he ▸ hcell)
  · obtain ⟨hid, hold, hrefill⟩ := h.faithful.refill k x hk
    exact ⟨hid, howed.trans hold, hrefill⟩
  · rw [heff.log, h.log, hreq, List.map_append, List.map_singleton]
  · rcases List.mem_append.mp hmem with hold | hnew
    · exact h.aligned x hold
    · rw [List.mem_singleton.mp hnew]
      exact halign
  · rw [outcomes_concat, h.unchanged, List.map_append, readAnswers_append]
    refine congrArg (_ ++ ·) ?_
    cases hop : a.op with
    | read =>
      rw [if_pos rfl, hok hop]
      unfold readAnswers
      simp [hop]
    | write =>
      rw [if_neg (by decide)]
      unfold readAnswers
      simp [hop]
  · obtain ⟨ts, hts, hdata, hsub⟩ := h.answers
    refine ⟨ts, hts.trans (congrArg (List.map _) hans.served.symm), hdata, ?_⟩
    rw [List.append_nil]
    exact hans.deferred.symm ▸ hsub
  · rw [List.append_nil, h.immediate hi]
    exact congrArg (List.map _) hans.served.symm

private theorem Harmless.sends {b : Carried P K start} {m : MemTrans} (hok : Harmless b .update)
    (hm : b.cache.toSend = some m) :
    m.mop = .read ∧ m.id = P.cacheId ∧ Refills P start m.addr := by
  unfold PipeCache.toSend at hm
  obtain ⟨bk, hbk, hm⟩ := Option.bind_eq_some_iff.mp hm
  obtain ⟨r, hline, hm⟩ := Option.bind_eq_some_iff.mp hm
  split at hm
  · cases hm
  · rename_i hmiss
    simp only [Bool.or_eq_true, Bool.not_eq_true', not_or, Bool.not_eq_true] at hmiss
    obtain ⟨hev, hrefill⟩ := hok bk hbk r hline hmiss.1.1
    rw [hev, if_neg (by decide)] at hm
    cases hm
    exact ⟨rfl, rfl, hrefill⟩

private theorem Faithful.sent {b : Carried P K start} {c : PipeCache P} {m : RAMArbiter K}
    {outs : List CacheOut} (h : Intact b) (hok : Harmless b .update)
    (hc : b.cache.doUpdate b.now = .ok (c, outs))
    (hm : (requests outs).foldlM (fun m r => m.recvReq b.now r) b.fabric = .ok m) :
    RAMArbiter.Consistent none m ∧ (∀ k, m.slots .write k = none) ∧
      ∀ k a, m.slots .read k = some a → k = P.cacheId ∧ c.readsOwed = [a] ∧ Refills P start a := by
  have hreads := (h.faithful.single.doUpdate hc).2
  unfold PipeCache.Reads at hreads
  rw [← filter_requests] at hreads
  rcases h.faithful.wf.doUpdate_sends hc with hnone | hsome
  · rw [hnone] at hreads hm
    cases hm
    refine ⟨h.fabric, h.faithful.writes, fun k a hk => ?_⟩
    obtain ⟨hid, howed, hrefill⟩ := h.faithful.refill k a hk
    exact ⟨hid, (hreads.trans (List.append_nil _)).trans howed, hrefill⟩
  · cases hsend : b.cache.toSend with
    | none =>
      rw [hsome, hsend] at hreads hm
      cases hm
      refine ⟨h.fabric, h.faithful.writes, fun k a hk => ?_⟩
      obtain ⟨hid, howed, hrefill⟩ := h.faithful.refill k a hk
      exact ⟨hid, (hreads.trans (List.append_nil _)).trans howed, hrefill⟩
    | some req =>
      obtain ⟨hop, hid, hrefill⟩ := hok.sends hsend
      rw [hsome, hsend, Option.toList_some, List.filter_cons, if_pos (decide_eq_true hop)] at hreads
      rw [hsome, hsend, Option.toList_some] at hm
      simp only [List.foldlM_cons, List.foldlM_nil] at hm
      obtain ⟨n, hn, hm⟩ := bind_eq_ok.mp hm
      cases hm
      obtain ⟨_, _, hslots⟩ := RAMArbiter.recvReq_slots h.fabric hn
      have hone : b.cache.readsOwed = [] := by
        have hle : c.readsOwed.length ≤ 1 := by
          unfold PipeCache.readsOwed
          split
          · cases c.back <;> simp
          · exact Nat.zero_le 1
        rw [hreads, List.length_append] at hle
        exact List.length_eq_zero_iff.mp (Nat.le_zero.mp (Nat.le_of_add_le_add_right hle))
      refine ⟨RAMArbiter.recvReq_consistent h.fabric hn, fun k => ?_, fun k a hk => ?_⟩
      · rw [hslots, Slots.put_other fun hx => by cases hx.1.trans hop]
        exact h.faithful.writes k
      · rw [hslots] at hk
        by_cases hx : MemRWOpt.read = req.mop ∧ k = req.id
        · rw [hx.1, hx.2, Slots.put_self] at hk
          rw [← Option.some.inj hk, hx.2, hreads, hone]
          exact ⟨hid, rfl, hrefill⟩
        · rw [Slots.put_other hx] at hk
          cases hone.symm.trans (h.faithful.refill k a hk).2.1

theorem Intact.update {b b' : Carried P K start} (hp : P.prefetcher.present = false)
    (h : Intact b) (hok : Harmless b .update) (hx : b.act .update = .ok b') : Intact b' := by
  obtain ⟨⟨c, outs⟩, hc, hx⟩ := bind_eq_ok.mp hx
  obtain ⟨m, hm, hx⟩ := bind_eq_ok.mp hx
  cases hx
  obtain ⟨hwf, heff, _⟩ := h.faithful.wf.doUpdate hc
  have hsingle := (h.faithful.single.doUpdate hc).1
  obtain ⟨hkeep, k, us, hk, hus, hans, hsub⟩ := h.faithful.wf.doUpdate_words hp h.faithful.single hc
  obtain ⟨hcons, hwrites, hrefill⟩ := Faithful.sent h hok hc hm
  have hlog : c.log.map CachePipeEntry.req = b.accepted.map fun a => (a.addr, a.op) :=
    (heff.log.trans (List.append_nil _)).trans h.log
  refine ⟨⟨hwf, hsingle, fun r w x ws hcell => ?_, h.faithful.same, hwrites, hrefill⟩, hcons, hlog,
    h.aligned, h.unchanged, ?_, fun hi => ?_⟩
  · exact h.faithful.words r w x ws (hkeep r w (x, ws) hcell)
  · obtain ⟨ts, hts, hdata, hsub'⟩ := h.answers
    refine ⟨ts ++ us, ?_, fun t ht hop => ?_, ?_⟩
    · rw [List.map_append, hts, hus, hk, List.map_append]
    · rcases List.mem_append.mp ht with hold | hnew
      · exact hdata t hold hop
      · obtain ⟨r, w, ws, hcell, hword⟩ := hans t hnew hop
        rw [h.faithful.words r w _ ws hcell] at hword
        refine P.blockWords_offset ?_ hword
        have hmem : (t.addr, t.mop) ∈ c.log.map CachePipeEntry.req := by
          rw [PipeCache.log, List.map_append, hk, List.map_append, ← hus]
          exact List.mem_append_left _ (List.mem_append_right _ (List.mem_map_of_mem hnew))
        rw [hlog] at hmem
        obtain ⟨a, ha, heq⟩ := List.mem_map.mp hmem
        have haddr : a.addr = t.addr := congrArg Prod.fst heq
        rw [← haddr]
        exact h.aligned a ha
    · rw [PipeCache.responses_append, List.append_assoc]
      have hlast : (PipeCache.responses b.sent ++ (b.cache.deferred ++ us)).Sublist (ts ++ us) := by
        rw [← List.append_assoc]
        exact hsub'.append_right us
      exact (hsub.append_left (PipeCache.responses b.sent)).trans hlast
  · obtain ⟨l, hl, hresp⟩ := heff.served
    rw [cpuResps_append, h.immediate hi, hresp hi, hl, List.map_append]

/-- In a run of harmless steps every read returns what was written, and nothing is aborted. -/
theorem ReachableBy.right {b : Carried P K start} (hwb : P.writeBack = true)
    (hp : P.prefetcher.present = false) (h : b.ReachableBy Harmless) : Right b := by
  refine Intact.answers_right (invariant_of_run ?_ .init h)
  rintro a a' ⟨e, hok, hx⟩ ha
  cases e with
  | memory => exact ha.memory hx
  | update => exact ha.update hp hok hx
  | request x => exact ha.request hwb hok hx
  | tick =>
    cases hx
    exact ⟨ha.faithful, ha.fabric, ha.log, ha.aligned, ha.unchanged, ha.answers, ha.immediate⟩

def perform (ok : Carried P K start → Action → Prop) [∀ b x, Decidable (ok b x)]
    (b : Carried P K start) : List Action → Option (Carried P K start)
  | [] => some b
  | x :: l => if ok b x then (b.act x).toOption.bind fun b' => perform ok b' l else none

private theorem run_of_perform {ok : Carried P K start → Action → Prop}
    [∀ b x, Decidable (ok b x)] {b b' : Carried P K start} {l : List Action}
    (h : perform ok b l = some b') :
    ReflTransGen (fun b b' => ∃ x, ok b x ∧ b.act x = .ok b') b b' := by
  induction l generalizing b with
  | nil =>
    cases h
    exact .refl
  | cons x l ih =>
    rw [perform] at h
    split at h
    · rename_i hok
      obtain ⟨d, hd, h⟩ := Option.bind_eq_some_iff.mp h
      cases hx : b.act x with
      | error f =>
        rw [hx] at hd
        cases hd
      | ok e =>
        rw [hx] at hd
        cases hd
        exact .head ⟨x, hok, hx⟩ (ih h)
    · cases h

def askAndWait (a : Access) (n : Nat) : List Action :=
  [.memory, .update, .request a, .tick] ++ (List.replicate n [.memory, .update, .tick]).flatten

def ramp : Pmem := fun a => BitVec.ofNat 8 a.toNat

/-- A block is refilled for its first word, another word is read and written as it is, and read. -/
theorem right_refill : ∃ b : Carried (directCache 1 0 true 0) (.flat 3 2) ramp,
    b.ReachableBy Harmless ∧
    b.results = [(0x10, 0x13121110), (0x14, 0x17161514), (0x14, 0x17161514)] ∧ Right b := by
  have hrun : (perform Harmless ({} : Carried (directCache 1 0 true 0) (.flat 3 2) ramp)
      (askAndWait ⟨.read, 0x10, 0, 0⟩ 8 ++ askAndWait ⟨.read, 0x14, 0, 0⟩ 2 ++
        askAndWait ⟨.write, 0x14, 0x0016ff14, 5⟩ 2 ++ askAndWait ⟨.read, 0x14, 0, 0⟩ 2)).map
        results = some [(0x10, 0x13121110), (0x14, 0x17161514), (0x14, 0x17161514)] := by
    decide +kernel
  obtain ⟨b, hb, hx⟩ := Option.map_eq_some_iff.mp hrun
  have hreach : b.ReachableBy Harmless := run_of_perform hb
  exact ⟨b, hreach, hx, hreach.right rfl rfl⟩

/-- A word that has been written is read as it was. -/
theorem right_broken : ¬∀ (P : CacheParams) (K : ArbiterConfig) (start : Pmem)
    (b : Carried P K start), P.writeBack = true → P.prefetcher.present = false →
      b.ReachableBy (fun _ _ => True) → Right b := by
  intro hall
  have hrun : (perform (fun _ _ => True)
      ({} : Carried (directCache 1 0 true 0) (.flat 3 2) ramp)
      (askAndWait ⟨.read, 0x10, 0, 0⟩ 8 ++ askAndWait ⟨.write, 0x10, 0xdeadbeef, 15⟩ 2 ++
        askAndWait ⟨.read, 0x10, 0, 0⟩ 2)).map (fun b => (b.results, outcomes ramp b.accepted)) =
      some ([(0x10, 0x13121110), (0x10, 0x13121110)],
        [(0x10, 0x13121110), (0x10, 0xdeadbeef)]) := by
    decide +kernel
  obtain ⟨b, hb, hx⟩ := Option.map_eq_some_iff.mp hrun
  have hright := (hall _ _ _ b rfl rfl (run_of_perform hb)).results
  obtain ⟨hresults, hexpected⟩ := Prod.mk.inj hx
  rw [hresults, hexpected] at hright
  exact absurd hright (by decide)

/-- A refill for a word in the middle of a line brings in the words from there on. -/
example : (perform (fun _ _ => True) ({} : Carried (directCache 1 0 true 0) (.flat 3 2) ramp)
    (askAndWait ⟨.read, 0x14, 0, 0⟩ 8)).map results = some [(0x14, 0x1b1a1918)] := by
  decide +kernel

/-- A write that comes without strobes cannot be carried out. -/
example : (writeBurst ramp ⟨.req, .write, 0x10, 1, 4, [0, 0, 0, 0], [], 0⟩).toOption = none := by
  rfl

end Carried

end NpSim.System
