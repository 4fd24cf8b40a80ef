/- digest: `flush_all` in every cache: what it leaves alone, and when the port stays shut. -/

import NpSim.Cache.Drain

set_option autoImplicit false
set_option relaxedAutoImplicit false

namespace NpSim.Cache

open NpSim.Lib.Partial Relation

namespace StoreBuffer

variable {entries : Nat}

private theorem drain_pendingFlush (c : StoreBuffer entries) :
    c.drain.1.pendingFlush = c.pendingFlush := by
  unfold drain
  split
  · rfl
  · split <;> rfl

theorem updateImpl_pendingFlush (now : Nat) (c : StoreBuffer entries) :
    (c.updateImpl now).1.pendingFlush = c.pendingFlush := by
  have hmiss : (c.issueMiss now).1.pendingFlush = c.pendingFlush := by
    unfold issueMiss
    split <;> rfl
  have hread : ∀ d : StoreBuffer entries,
      (d.respondRead now).1.pendingFlush = d.pendingFlush := by
    intro d
    unfold respondRead
    split <;> rfl
  have hwrite : ∀ d : StoreBuffer entries,
      (d.respondWrite now).1.pendingFlush = d.pendingFlush := by
    intro d
    unfold respondWrite
    split
    · exact drain_pendingFlush _
    · rfl
  exact (hwrite _).trans ((hread _).trans hmiss)

theorem recvMemResp_pendingFlush {now : Nat} {m : MemTrans} {c : StoreBuffer entries}
    {x : StoreBuffer entries × List CacheOut} (hx : c.recvMemResp now m = .ok x) :
    x.1.pendingFlush = c.pendingFlush := by
  unfold recvMemResp at hx
  split at hx
  · cases hx
    rfl
  · split at hx
    · cases hx
      rfl
    · split at hx
      · cases hx
      · obtain ⟨_, hx⟩ := require_bind_eq_ok.mp hx
        cases hx
        exact drain_pendingFlush _

theorem not_readyWithin {c : StoreBuffer entries} (hf : c.pendingFlush = true) (n : Nat) :
    ¬(base entries).ReadyWithin n c := by
  have hno : ∀ c : StoreBuffer entries, c.pendingFlush = true →
      (base entries).isReady c ≠ (true, true) := by
    intro c hf hr
    change c.isReady = (true, true) at hr
    unfold isReady at hr
    rw [if_pos hf] at hr
    cases hr
  induction n generalizing c with
  | zero => exact hno c hf
  | succ n ih =>
    rintro (hr | ⟨hne, hall⟩)
    · exact hno c hf hr
    · obtain ⟨t, ht⟩ := ENat.ne_top_iff_exists.mp hne
      obtain ⟨x, hx, hready⟩ := hall t ht.ge
      have hx' : x = c.updateImpl t := (Except.ok.inj hx).symm
      refine ih ?_ hready
      rw [hx', updateImpl_pendingFlush]
      exact hf

end StoreBuffer

namespace Client

variable {B : CacheBase} {b b' : Client B} {e : Event}

theorem Step.asked_grow (hs : Step b e b') (op : MemRWOpt) : b.asked op <+: b'.asked op := by
  cases hs with
  | @read x addr hr h =>
    change b.asked op <+: (b.accepting (addr, .read)).asked op
    rw [asked_accepting]
    exact List.prefix_append _ _
  | @write x addr data mask hr h =>
    change b.asked op <+: (b.accepting (addr, .write)).asked op
    rw [asked_accepting]
    exact List.prefix_append _ _
  | update h => exact List.prefix_rfl
  | answer m data hm h => exact List.prefix_rfl
  | flushAll => exact List.prefix_rfl
  | tick => exact List.prefix_rfl

section Uncached

variable {b b' : Client NoCache.base} {e : Event}

/-- A `NoCache` has sent what it has not answered, one request of each kind at most. -/
structure Direct (b : Client NoCache.base) : Prop where
  owed : ∀ op, b.asked op =
    b.responses op ++ (b.outstanding.filter (·.mop = op)).map fun m => (m.addr, op)
  busy : ∀ op, (b.outstanding.filter (·.mop = op)).length =
    if NoCache.base.awaits op b.cache then 1 else 0

theorem direct_init (id : Nat) :
    Direct ({ cache := ({ cacheId := id } : NoCache) } : Client NoCache.base) :=
  ⟨fun _ => rfl, fun op => by cases op <;> rfl⟩

private theorem Direct.request (h : Direct b) {c : NoCache} {m : MemTrans}
    (hfree : NoCache.base.awaits m.mop b.cache = false)
    (hc : ∀ op, NoCache.base.awaits op c =
      if op = m.mop then true else NoCache.base.awaits op b.cache) :
    Direct ((b.accepting (m.addr, m.mop)).sending (c, [.memReq m])) := by
  have hout : ∀ op, ((b.accepting (m.addr, m.mop)).sending (c, [.memReq m])).outstanding.filter
      (·.mop = op) = b.outstanding.filter (·.mop = op) ++ [m].filter (·.mop = op) := fun op =>
    List.filter_append _ _
  have hone : ∀ op, op ≠ m.mop → [m].filter (·.mop = op) = [] := by
    intro op hop
    refine List.filter_eq_nil_iff.mpr fun a ha => ?_
    rw [List.mem_singleton.mp ha, decide_eq_true_eq]
    exact Ne.symm hop
  have hsame : [m].filter (·.mop = m.mop) = [m] := by
    rw [List.filter_cons, if_pos (decide_eq_true rfl)]
    rfl
  refine ⟨fun op => ?_, fun op => ?_⟩
  · rw [responses_sending, hout]
    change (b.accepting (m.addr, m.mop)).asked op = b.responses op ++ [] ++ _
    rw [asked_accepting, h.owed op, List.append_nil, List.append_assoc, List.map_append]
    congr 2
    by_cases hop : op = m.mop
    · subst hop
      rw [hsame, List.filter_cons, if_pos (decide_eq_true rfl)]
      rfl
    · rw [hone op hop]
      refine List.filter_eq_nil_iff.mpr fun a ha => ?_
      rw [List.mem_singleton.mp ha, decide_eq_true_eq]
      exact Ne.symm hop
  · rw [hout, List.length_append, h.busy op]
    change _ = if NoCache.base.awaits op c = true then 1 else 0
    rw [hc op]
    by_cases hop : op = m.mop
    · subst hop
      rw [hfree, hsame, if_pos rfl]
      rfl
    · rw [hone op hop, if_neg hop]
      rfl

private theorem Direct.answer (h : Direct b) {c : NoCache} {m : MemTrans} {outs : List CacheOut}
    (hm : m ∈ b.outstanding) (hresp : cpuResps outs = [(m.addr, m.mop)])
    (hreq : requests outs = [])
    (hc : ∀ op, NoCache.base.awaits op c =
      if op = m.mop then false else NoCache.base.awaits op b.cache) :
    Direct ((b.settling m).sending (c, outs)) := by
  have hle : ∀ x : Bool, (if x = true then 1 else 0) ≤ 1 := fun x => by cases x <;> decide
  have hnil := Bench.filter_nil_of_erase hm ((h.busy m.mop).trans_le (hle _))
  have hlen := Bench.length_filter_erase hm
  have hold : b.outstanding.filter (·.mop = m.mop) = [m] := by
    rw [hnil] at hlen
    obtain ⟨x, hx⟩ := List.length_eq_one_iff.mp hlen.symm
    have hmem : m ∈ b.outstanding.filter (·.mop = m.mop) :=
      List.mem_filter.mpr ⟨hm, decide_eq_true rfl⟩
    rw [hx] at hmem
    rw [hx, List.mem_singleton.mp hmem]
  have hout : ∀ op, ((b.settling m).sending (c, outs)).outstanding.filter (·.mop = op) =
      (b.outstanding.erase m).filter (·.mop = op) := by
    intro op
    change (b.outstanding.erase m ++ requests outs).filter _ = _
    rw [hreq, List.append_nil]
  refine ⟨fun op => ?_, fun op => ?_⟩
  · rw [responses_sending, hresp, hout]
    change b.asked op = b.responses op ++ _ ++ _
    rw [h.owed op]
    by_cases hop : op = m.mop
    · subst hop
      rw [hnil, hold, List.filter_cons, if_pos (decide_eq_true rfl)]
      exact (List.append_nil _).symm
    · have hnone : [(m.addr, m.mop)].filter (·.2 = op) = [] := by
        refine List.filter_eq_nil_iff.mpr fun a ha => ?_
        rw [List.mem_singleton.mp ha, decide_eq_true_eq]
        exact Ne.symm hop
      rw [hnone, List.append_nil, Bench.filter_erase_other (Ne.symm hop)]
  · rw [hout]
    change _ = if NoCache.base.awaits op c = true then 1 else 0
    rw [hc op]
    by_cases hop : op = m.mop
    · subst hop
      rw [hnil, if_pos rfl]
      rfl
    · rw [Bench.filter_erase_other (Ne.symm hop), h.busy op, if_neg hop]

private theorem recvMemResp_uncached {c : NoCache} {x : NoCache × List CacheOut} {m : MemTrans}
    {data : List Word} (hx : c.recvMemResp { m with dir := .resp, data := data } = .ok x) :
    cpuResps x.2 = [(m.addr, m.mop)] ∧ requests x.2 = [] ∧
      ∀ op, NoCache.base.awaits op x.1 =
        if op = m.mop then false else NoCache.base.awaits op c := by
  unfold NoCache.recvMemResp at hx
  dsimp only at hx
  cases hop : m.mop with
  | read =>
    rw [hop] at hx
    obtain ⟨_, hx⟩ := require_bind_eq_ok.mp hx
    cases hx
    exact ⟨rfl, rfl, fun op => by cases op <;> rfl⟩
  | write =>
    rw [hop] at hx
    obtain ⟨_, hx⟩ := require_bind_eq_ok.mp hx
    cases hx
    exact ⟨rfl, rfl, fun op => by cases op <;> rfl⟩

theorem Direct.step (h : Direct b) (hs : Step b e b') : Direct b' := by
  cases hs with
  | @read x addr hr hx =>
    obtain ⟨y, hy, rfl⟩ := map_eq_ok.mp hx
    obtain ⟨hready, hy⟩ := require_bind_eq_ok.mp hy
    cases hy
    refine h.request (m := { mop := .read, addr := addr, id := b.cache.cacheId,
                             bstLen := 1 }) ?_ fun op => ?_
    · exact Bool.not_eq_true' _ |>.mp hready
    · cases op <;> rfl
  | @write x addr data mask hr hx =>
    obtain ⟨y, hy, rfl⟩ := map_eq_ok.mp hx
    obtain ⟨hready, hy⟩ := require_bind_eq_ok.mp hy
    cases hy
    refine h.request (m := { mop := .write, addr := addr, id := b.cache.cacheId, bstLen := 1,
                             data := [data], strb := [mask] }) ?_ fun op => ?_
    · exact Bool.not_eq_true' _ |>.mp hready
    · cases op <;> rfl
  | update hx =>
    cases hx
    have hsame : b.sending (b.cache, []) = b := by
      unfold sending
      dsimp only
      rw [List.append_nil, show requests [] = [] from rfl, List.append_nil]
    rw [hsame]
    exact h
  | @answer x m data hm hx =>
    obtain ⟨hresp, hreq, hc⟩ := recvMemResp_uncached hx
    exact h.answer hm hresp hreq hc
  | flushAll => exact ⟨h.owed, h.busy⟩
  | tick => exact ⟨h.owed, h.busy⟩

theorem direct_of_reachable {id : Nat} {ok : Client NoCache.base → Event → Prop}
    (h : Reachable ok ({ cacheId := id } : NoCache) b) : Direct b :=
  invariant_of_run (fun _ _ ⟨_, _, hs⟩ hI => hI.step hs) (direct_init id) h

theorem Direct.kept (h : Direct b) : Kept b := by
  refine ⟨fun op => ⟨_, (h.owed op).symm⟩, fun m hm => ?_, fun ⟨_, hout⟩ => .inl ?_⟩
  · by_contra hno
    have hlen := h.busy m.mop
    rw [if_neg hno, List.length_eq_zero_iff] at hlen
    exact List.filter_eq_nil_iff.mp hlen m hm (decide_eq_true rfl)
  · have hidle : ∀ op, NoCache.base.awaits op b.cache = false := by
      intro op
      have hlen := h.busy op
      rw [hout] at hlen
      rw [Bool.eq_false_iff]
      intro hb
      rw [if_pos hb] at hlen
      cases hlen
    exact Prod.ext (congrArg (!·) (hidle .read)) (congrArg (!·) (hidle .write))

theorem Direct.completes (h : Direct b) {m : MemTrans} (hs : Step b (.answer m) b') :
    b'.responses m.mop = b.asked m.mop := by
  have hd := h.step hs
  have hasked : b'.asked m.mop = b.asked m.mop := by
    cases hs with
    | answer _ data hm hx => rfl
  have hnil : b'.outstanding.filter (·.mop = m.mop) = [] := by
    cases hs with
    | @answer x _ data hm hx =>
      have hle : (b.outstanding.filter (·.mop = m.mop)).length ≤ 1 := by
        rw [h.busy m.mop]
        split <;> omega
      change (b.outstanding.erase m ++ requests x.2).filter _ = []
      rw [(recvMemResp_uncached hx).2.1, List.append_nil]
      exact Bench.filter_nil_of_erase hm hle
  rw [← hasked, hd.owed, hnil]
  exact (List.append_nil _).symm

variable {run : ℕ → Client NoCache.base} {event : ℕ → Event}

theorem FairRun.all_answered {id : Nat} {ok : Client NoCache.base → Event → Prop}
    (h : FairRun ok ({ cacheId := id } : NoCache) run event) (n : ℕ) :
    ∃ k ≥ n, ∀ op, (run n).asked op <+: (run k).responses op := by
  have hdirect : ∀ k, Direct (run k) := fun k => direct_of_reachable (h.reachable k)
  have hone : ∀ op, ∃ k ≥ n, (run n).asked op <+: (run k).responses op := by
    intro op
    cases hout : (run n).outstanding.filter (·.mop = op) with
    | nil =>
      refine ⟨n, le_rfl, ?_⟩
      rw [(hdirect n).owed op, hout]
      exact (List.append_nil _) ▸ List.prefix_rfl
    | cons m l =>
      have hmem : m ∈ (run n).outstanding.filter (·.mop = op) := hout ▸ List.mem_cons_self
      obtain ⟨hm, hop⟩ := List.mem_filter.mp hmem
      obtain ⟨k, hk, hans⟩ := h.answers n m hm
      have hs := h.step k
      rw [hans] at hs
      refine ⟨k + 1, by omega, ?_⟩
      rw [← of_decide_eq_true hop, (hdirect k).completes hs]
      clear hs hans
      induction k, hk using Nat.le_induction with
      | base => exact List.prefix_rfl
      | succ k _ ih => exact ih.trans ((h.step k).asked_grow _)
  have hgrow : ∀ op {i j : ℕ}, i ≤ j → (run i).responses op <+: (run j).responses op := by
    intro op i j hij
    induction j, hij using Nat.le_induction with
    | base => exact List.prefix_rfl
    | succ j _ ih => exact ih.trans ((h.step j).responses_grow op)
  obtain ⟨i, hi, hread⟩ := hone .read
  obtain ⟨j, hj, hwrite⟩ := hone .write
  refine ⟨max i j, by omega, fun op => ?_⟩
  cases op with
  | read => exact hread.trans (hgrow _ (le_max_left i j))
  | write => exact hwrite.trans (hgrow _ (le_max_right i j))

end Uncached

section Buffered

variable {entries : Nat} {b b' : Client (StoreBuffer.base entries)} {e : Event}

theorem Step.stillFlushing (hs : Step b e b')
    (hf : @StoreBuffer.pendingFlush entries b.cache = true) :
    @StoreBuffer.pendingFlush entries b'.cache = true := by
  cases hs with
  | read addr hr hx =>
    have hr' : (@StoreBuffer.isReady entries b.cache).1 = true := hr
    unfold StoreBuffer.isReady at hr'
    rw [if_pos hf] at hr'
    cases hr'
  | write addr data mask hr hx =>
    have hr' : (@StoreBuffer.isReady entries b.cache).2 = true := hr
    unfold StoreBuffer.isReady at hr'
    rw [if_pos hf] at hr'
    cases hr'
  | @update x hx =>
    unfold CacheBase.doUpdate at hx
    split at hx
    · cases hx
      exact (StoreBuffer.updateImpl_pendingFlush _ _).trans hf
    · cases hx
      exact hf
  | answer m data hm hx => exact (StoreBuffer.recvMemResp_pendingFlush hx).trans hf
  | flushAll => rfl
  | tick => exact hf

end Buffered

section Settled

/-- An update leaves the cache as it is, whenever it comes, and asks for nothing. -/
def Settled (c : B.State) : Prop :=
  ∀ now, ∃ outs, B.doUpdate now c = .ok (c, outs) ∧ requests outs = []

def idling (b : Client B) : ℕ → Client B
  | 0 => b
  | n + 1 =>
    let d := idling b n
    if n % 2 = 0 then { d with now := d.now + 1 }
    else d.sending ((B.doUpdate d.now d.cache).toOption.getD (d.cache, []))

def idleEvent (n : ℕ) : Event := if n % 2 = 0 then .tick else .update

private theorem idling_step {b : Client B} (hset : Settled b.cache) (n : ℕ) :
    (idling b n).cache = b.cache ∧ (idling b n).outstanding = b.outstanding ∧
      (idling b n).now = b.now + (n + 1) / 2 ∧
      Step (idling b n) (idleEvent n) (idling b (n + 1)) := by
  have hnext : ∀ n, (idling b n).cache = b.cache →
      Step (idling b n) (idleEvent n) (idling b (n + 1)) ∧
        (idling b (n + 1)).cache = b.cache ∧
        (idling b (n + 1)).outstanding = (idling b n).outstanding ∧
        (idling b (n + 1)).now = (idling b n).now + (if n % 2 = 0 then 1 else 0) := by
    intro n hc
    rw [idling, idleEvent]
    split
    · exact ⟨.tick, hc, rfl, rfl⟩
    · obtain ⟨outs, hx, hq⟩ := hset (idling b n).now
      rw [← hc] at hx
      rw [hx]
      refine ⟨.update hx, hc, ?_, rfl⟩
      change (idling b n).outstanding ++ requests outs = _
      rw [hq, List.append_nil]
  have hall : (idling b n).cache = b.cache ∧ (idling b n).outstanding = b.outstanding ∧
      (idling b n).now = b.now + (n + 1) / 2 := by
    induction n with
    | zero => exact ⟨rfl, rfl, rfl⟩
    | succ n ih =>
      obtain ⟨_, hc, ho, ht⟩ := hnext n ih.1
      refine ⟨hc, ho.trans ih.2.1, ?_⟩
      rw [ht, ih.2.2]
      split <;> omega
  exact ⟨hall.1, hall.2.1, hall.2.2, (hnext n hall.1).1⟩

private theorem Step.still_outstanding {b b' : Client B} {e : Event} (hs : Step b e b')
    {m : MemTrans} (hm : m ∈ b.outstanding) : e = .answer m ∨ m ∈ b'.outstanding := by
  cases hs with
  | read addr hr h => exact .inr (List.mem_append_left _ hm)
  | write addr data mask hr h => exact .inr (List.mem_append_left _ hm)
  | update h => exact .inr (List.mem_append_left _ hm)
  | answer m' data hm' h =>
    by_cases heq : m = m'
    · exact .inl (heq ▸ rfl)
    · exact .inr (List.mem_append_left _ ((List.mem_erase_of_ne heq).mpr hm))
  | flushAll => exact .inr hm
  | tick => exact .inr hm

variable {ok : Client B → Event → Prop} {c : B.State}

private theorem FairRun.cons {run : ℕ → Client B} {event : ℕ → Event} {b : Client B} {e : Event}
    (h : FairRun ok c run event) (hb : Reachable ok c b) (hok : ok b e) (hs : Step b e (run 0)) :
    FairRun ok c (Nat.casesOn · b run) (Nat.casesOn · e event) := by
  refine ⟨hb, fun n => ?_, fun n => ?_, fun n t => ?_, fun n m hm => ?_⟩
  · cases n with
    | zero => exact hs
    | succ n => exact h.step n
  · cases n with
    | zero => exact hok
    | succ n => exact h.passes n
  · obtain ⟨k, hk, hup, ht⟩ := h.updates n t
    exact ⟨k + 1, Nat.le_succ_of_le hk, hup, ht⟩
  · cases n with
    | zero =>
      rcases hs.still_outstanding hm with he | hm
      · exact ⟨0, le_rfl, he⟩
      · obtain ⟨k, _, hans⟩ := h.answers 0 m hm
        exact ⟨k + 1, Nat.zero_le _, hans⟩
    | succ n =>
      obtain ⟨k, hk, hans⟩ := h.answers n m hm
      exact ⟨k + 1, Nat.succ_le_succ hk, hans⟩

private theorem idling_fair {b : Client B} (hb : Reachable ok c b) (hset : Settled b.cache)
    (hout : b.outstanding = []) (hidle : ∀ (x : Client B) (e : Event), x.cache = b.cache → ok x e) :
    FairRun ok c (idling b) idleEvent := by
  refine ⟨hb, fun n => (idling_step hset n).2.2.2, fun n => hidle _ _ (idling_step hset n).1,
    fun n t => ?_, fun n m hm => ?_⟩
  · refine ⟨2 * (n + t) + 1, by omega, if_neg (by omega), ?_⟩
    rw [(idling_step hset _).2.2.1]
    omega
  · rw [(idling_step hset n).2.1, hout] at hm
    cases hm

/-- A run that makes finitely many calls, after which it idles, is fair. -/
private theorem fair_of_performAll {check : Client B → Bool} (hok : ∀ b e, check b = true → ok b e)
    {b d : Client B} {ks : List Bench.Call} (hb : Reachable ok c b)
    (h : performAll check b ks = some d) (hset : Settled d.cache) (hout : d.outstanding = [])
    (hidle : ∀ (x : Client B) (e : Event), x.cache = d.cache → ok x e) :
    ∃ run event, FairRun ok c run event ∧ run 0 = b ∧
      ∀ k ∈ ks.head?, event 0 = b.event k := by
  induction ks generalizing b with
  | nil =>
    cases h
    exact ⟨_, _, idling_fair hb hset hout hidle, rfl, fun k hk => by cases hk⟩
  | cons k ks ih =>
    rw [performAll] at h
    split at h
    · rename_i hcheck
      obtain ⟨b', hx, h⟩ := Option.bind_eq_some_iff.mp h
      have hs := perform_step hx
      have hpass := hok b (b.event k) hcheck
      obtain ⟨run, event, hfair, hrun, _⟩ := ih (hb.tail ⟨_, hpass, hs⟩) h
      refine ⟨_, _, hfair.cons hb hpass (hrun ▸ hs), rfl, fun k' hk => ?_⟩
      cases Option.some.inj hk
      rfl
    · cases h

private theorem settled_of_empty {P : CacheParams} {c : PipeCache P}
    (hp : c.pipe = List.replicate P.pipeDepth none) (hs : c.isShifted = true)
    (hf : c.pendingFlush = false) (ht : c.schedHitTime = infTime) :
    Settled (B := PipeCache.base P) c := by
  intro now
  have hb : c.back = none := by
    rw [PipeCache.back, hp, List.getLast?_replicate]
    split <;> rfl
  have hpipe : none :: c.pipe.dropLast = c.pipe := by
    rw [hp, List.dropLast_replicate, ← List.replicate_succ, Nat.sub_add_cancel P.pipeDepth_pos]
  have hb' : ({ c with pipe := none :: c.pipe.dropLast } : PipeCache P).back = none := by
    rw [hpipe]
    exact hb
  have hopen : ({ c with isShifted := true } : PipeCache P) = c := by rw [← hs]
  by_cases hdue : c.nextUpdate ≤ now
  · refine ⟨[.cpuAck ⟨P.cacheId, .read⟩, .cpuAck ⟨P.cacheId, .write⟩],
      (if_pos hdue).trans ?_, rfl⟩
    change c.updateImpl now = _
    have hno : ¬(c.pendingFlush && c.pipe.all (·.isNone)) = true := by
      rw [hf, Bool.false_and]
      decide
    have hfin : c.finishUpdate now =
        .ok (c, [.cpuAck ⟨P.cacheId, .read⟩, .cpuAck ⟨P.cacheId, .write⟩]) := by
      unfold PipeCache.finishUpdate
      rw [if_neg hno]
      dsimp only
      rw [hb']
      dsimp only
      rw [hpipe, hopen]
    unfold PipeCache.updateImpl PipeCache.deliverDeferred
    rw [ht, if_neg (not_le.mpr (ENat.natCast_lt_top now))]
    dsimp only
    unfold PipeCache.serve
    rw [hb]
    dsimp only
    rw [hfin]
    rfl
  · exact ⟨[], if_neg hdue, rfl⟩

end Settled

/-- `flush_all` disturbs nothing in a run of a `PipeCache` whose updates are gentle, and nothing at
all in a `NoCache`: no request is answered twice or out of order, no response of memory meets a
cleared flag, the port comes back, and in a fair run everything accepted before is answered. A
`StoreBuffer` is never ready again. -/
theorem flush_keeps_port (P : CacheParams) (id entries : Nat) :
    (∀ b : Client (PipeCache.base P), Reachable Gentle ({} : PipeCache P) b → Kept b) ∧
      (∀ (run : ℕ → Client (PipeCache.base P)) (event : ℕ → Event),
        FairRun Gentle ({} : PipeCache P) run event → AnsweredAfterFlush run event) ∧
      (∀ b : Client NoCache.base,
        Reachable (fun _ _ => True) ({ cacheId := id } : NoCache) b → Kept b) ∧
      (∀ (run : ℕ → Client NoCache.base) (event : ℕ → Event),
        FairRun (fun _ _ => True) ({ cacheId := id } : NoCache) run event →
          AnsweredAfterFlush run event) ∧
      ∀ b b' : Client (StoreBuffer.base entries),
        ReflTransGen (fun b b' => ∃ e, Step b e b')
            { b with cache := (StoreBuffer.base entries).flushAll b.cache } b' →
          ∀ n, ¬(StoreBuffer.base entries).ReadyWithin n b'.cache := by
  refine ⟨fun b h => (steady_of_reachable h).kept, fun run event h => h.answeredAfterFlush,
    fun b h => (direct_of_reachable h).kept, fun run event h n _ => h.all_answered n,
    fun b b' h => ?_⟩
  exact StoreBuffer.not_readyWithin (invariant_of_run
    (I := fun b => @StoreBuffer.pendingFlush entries b.cache = true)
    (fun _ _ ⟨_, hs⟩ hf => hs.stillFlushing hf) rfl h)

open Bench (instCache)

private def gentle {P : CacheParams} (b : Client (PipeCache.base P)) : Bool :=
  PipeCache.unhurried (P := P) b.now b.cache && PipeCache.mindful (P := P) b.now b.cache

private theorem gentle_of_check {P : CacheParams} (b : Client (PipeCache.base P)) (e : Event)
    (h : gentle b = true) : Gentle b e := fun _ => by
  rwa [gentle, Bool.and_eq_true] at h

private theorem gentle_of_idle {P : CacheParams} {c : PipeCache P}
    (hf : c.pendingFlush = false) (ht : c.schedHitTime = infTime)
    (b : Client (PipeCache.base P)) (e : Event) (hc : b.cache = c) : Gentle b e := by
  intro _
  rw [hc]
  constructor
  · unfold PipeCache.unhurried
    rw [ht, decide_eq_false (not_not.mpr rfl), Bool.and_false, Bool.false_and,
      decide_eq_false (not_le.mpr (ENat.natCast_lt_top b.now))]
    rfl
  · unfold PipeCache.mindful PipeCache.flushes PipeCache.drained
    rw [hf, Bool.false_and, Bool.false_and, Bool.and_false]
    rfl

private def hitAndMiss : List Bench.Call :=
  [.read 0, .tick, .update, .tick, .update, .answer, .tick, .update, .tick, .update, .tick,
    .read 0, .tick, .update, .read 8]

/-- The flush comes, and waits for the hit, the miss and its refill. -/
private def busyFlush : List Bench.Call :=
  [.flushAll, .tick, .update, .tick, .update, .answer, .tick, .update]

private def emptied {P : CacheParams} (b : Client (PipeCache.base P)) : Bool :=
  let c : PipeCache P := b.cache
  decide (c.pipe = List.replicate P.pipeDepth none) && c.isShifted && !c.pendingFlush &&
    decide (c.schedHitTime = infTime) && b.outstanding.isEmpty

private theorem settled_of_emptied {P : CacheParams} {b : Client (PipeCache.base P)}
    (h : emptied b = true) : Settled b.cache ∧ b.outstanding = [] ∧
      ∀ (x : Client (PipeCache.base P)) (e : Event), x.cache = b.cache → Gentle x e := by
  unfold emptied at h
  simp only [Bool.and_eq_true, List.isEmpty_iff, decide_eq_true_eq, Bool.not_eq_true'] at h
  obtain ⟨⟨⟨⟨hp, hs⟩, hf⟩, ht⟩, hout⟩ := h
  exact ⟨settled_of_empty hp hs hf ht, hout, gentle_of_idle hf ht⟩

/-- A hit and a miss are in the pipe when the flush comes, a read and a write of a `NoCache` are at
the memory, and a buffered store goes to memory behind the flush of a store buffer. -/
theorem flush_keeps_port_busy :
    (∃ (run : ℕ → Client (PipeCache.base (instCache 2 1 Nat.one_pos lruReplPolicy)))
        (event : ℕ → Event), FairRun Gentle ({} : PipeCache _) run event ∧ event 0 = .flushAll ∧
      (run 0).accepted = [(0, .read), (0, .read), (8, .read)] ∧
      cpuResps (run 0).sent = [(0, .read)] ∧ (∀ n, Kept (run n)) ∧
      AnsweredAfterFlush run event) ∧
    (∃ (run : ℕ → Client NoCache.base) (event : ℕ → Event),
      FairRun (fun _ _ => True) ({ cacheId := 1 } : NoCache) run event ∧ event 0 = .flushAll ∧
      (run 0).accepted = [(0, .read), (4, .write)] ∧ cpuResps (run 0).sent = [] ∧
      (∀ n, Kept (run n)) ∧ AnsweredAfterFlush run event) ∧
    ∃ b b' : Client (StoreBuffer.base 1), b.accepted = [(0, .write)] ∧ cpuResps b.sent = [] ∧
      ReflTransGen (fun b b' => ∃ e, Step b e b')
        { b with cache := (StoreBuffer.base 1).flushAll b.cache } b' ∧
      cpuResps b'.sent = [(0, .write)] ∧ b'.outstanding = [] ∧
      ¬(StoreBuffer.base 1).ReadyWithin 2 b'.cache := by
  obtain ⟨hpipe, hpipefair, hno, hnofair, hbuf⟩ :=
    flush_keeps_port (instCache 2 1 Nat.one_pos lruReplPolicy) 1 1
  refine ⟨?_, ?_, ?_⟩
  · obtain ⟨b, hb, hx⟩ := Option.bind_eq_some_iff.mp (show (performAll gentle
        ({ cache := {} } : Client (PipeCache.base (instCache 2 1 Nat.one_pos lruReplPolicy)))
        hitAndMiss).bind (fun b => (performAll gentle b busyFlush).map fun d =>
          (b.accepted, cpuResps b.sent, emptied d)) =
        some ([(0, .read), (0, .read), (8, .read)], [(0, .read)], true) by decide +kernel)
    obtain ⟨d, hd, hx⟩ := Option.map_eq_some_iff.mp hx
    simp only [Prod.mk.injEq] at hx
    obtain ⟨hset, hout, hidle⟩ := settled_of_emptied hx.2.2
    obtain ⟨run, event, hfair, h0, he⟩ := fair_of_performAll gentle_of_check
      (run_of_performAll gentle_of_check hb) hd hset hout hidle
    exact ⟨run, event, hfair, he _ rfl, h0 ▸ hx.1, h0 ▸ hx.2.1,
      fun n => hpipe _ (hfair.reachable n), hpipefair run event hfair⟩
  · obtain ⟨b, hb, hx⟩ := Option.bind_eq_some_iff.mp (show (performAll (fun _ => true)
        ({ cache := { cacheId := 1 } } : Client NoCache.base) [.read 0, .write 4, .tick]).bind
          (fun b => (performAll (fun _ => true) b [.flushAll, .answer, .tick, .answer]).map
            fun d => (b.accepted, cpuResps b.sent, d.outstanding.isEmpty)) =
        some ([(0, .read), (4, .write)], [], true) by decide +kernel)
    obtain ⟨d, hd, hx⟩ := Option.map_eq_some_iff.mp hx
    simp only [Prod.mk.injEq, List.isEmpty_iff] at hx
    obtain ⟨run, event, hfair, h0, he⟩ := fair_of_performAll (fun _ _ _ => trivial)
      (run_of_performAll (fun _ _ _ => trivial) hb) hd
      (fun now => ⟨[], if_neg (by simp), rfl⟩) hx.2.2 fun _ _ _ => trivial
    exact ⟨run, event, hfair, he _ rfl, h0 ▸ hx.1, h0 ▸ hx.2.1, fun n => hno _ (hfair.reachable n),
      hnofair run event hfair⟩
  · obtain ⟨b, _, hx⟩ := Option.bind_eq_some_iff.mp (show (performAll (fun _ => true)
        ({ cache := { cacheId := 1 } } : Client (StoreBuffer.base 1)) [.write 0]).bind (fun b =>
          (performAll (fun _ => true) { b with cache := (StoreBuffer.base 1).flushAll b.cache }
            [.tick, .update, .answer]).map fun b' => ((b.accepted, cpuResps b.sent),
              cpuResps b'.sent, b'.outstanding.isEmpty)) =
        some (([(0, .write)], []), [(0, .write)], true) by decide +kernel)
    obtain ⟨b', hb', hx⟩ := Option.map_eq_some_iff.mp hx
    simp only [Prod.mk.injEq, List.isEmpty_iff] at hx
    have hrun : ReflTransGen (fun b b' => ∃ e, Step b e b')
        { b with cache := (StoreBuffer.base 1).flushAll b.cache } b' :=
      ReflTransGen.mono (fun _ _ hs => hs.imp fun _ hs => hs.2) _ _
        (@run_of_performAll _ _ (fun _ _ => True) (fun _ _ _ => trivial) _ _ _ hb')
    exact ⟨b, b', hx.1.1, hx.1.2, hrun, hx.2.1, hx.2.2, hbuf b b' hrun 2⟩

/-- A hit whose response waits when the flush comes, and a read after the flush. -/
private def flushedHit : List Bench.Call :=
  [.read 0, .tick, .update, .tick, .update, .answer, .tick, .update, .tick, .update, .tick, .update,
    .tick, .update, .read 0, .flushAll, .tick, .update, .tick, .update, .tick, .update, .read 8,
    .tick, .update, .tick, .update, .answer, .tick, .update, .tick, .update, .tick, .update, .tick,
    .update, .tick, .update]

/-- A write-through cache forgets its write in flight, a write-back cache with a response delay the
response that waits, and a store buffer does not open its port again. -/
theorem flush_breaks_port :
    (∃ b : Client (PipeCache.base (instCache 2 1 Nat.one_pos lruReplPolicy)),
        Reachable (fun _ _ => True) ({} : PipeCache _) b ∧ ∃ m, b.outstanding = [m] ∧
          (PipeCache.base _).recvMemResp b.now { m with dir := .resp } b.cache =
            .error .notWaiting) ∧
      (∃ b : Client (PipeCache.base Delayed.slowCache),
        Reachable (fun _ _ => True) ({} : PipeCache _) b ∧
          b.accepted = [(0, .read), (0, .read), (8, .read)] ∧
          cpuResps b.sent = [(0, .read), (8, .read)] ∧ (PipeCache.base _).isReady b.cache =
            (true, true)) ∧
      ∃ b : Client (StoreBuffer.base 1), Reachable (fun _ _ => True)
          ({ cacheId := 1 } : StoreBuffer 1) b ∧ b.Completed ∧
        ¬(StoreBuffer.base 1).ReadyWithin 2 b.cache := by
  refine ⟨?_, ?_, ?_⟩
  · obtain ⟨b, hb, hx⟩ := Option.map_eq_some_iff.mp (show (performAll (fun _ => true)
        ({ cache := {} } : Client (PipeCache.base (instCache 2 1 Nat.one_pos lruReplPolicy)))
        [.write 0, .flushAll, .update]).map (fun b => b.outstanding.map fun m => Bench.faultOf
          ((PipeCache.base _).recvMemResp b.now { m with dir := .resp } b.cache)) =
        some [some .notWaiting] by decide +kernel)
    refine ⟨b, run_of_performAll (fun _ _ _ => trivial) hb, ?_⟩
    match hl : b.outstanding with
    | [] =>
      rw [hl] at hx
      cases hx
    | [m] =>
      rw [hl] at hx
      exact ⟨m, rfl, Bench.error_of_faultOf (List.cons.inj hx).1⟩
    | _ :: _ :: _ =>
      rw [hl] at hx
      cases (List.cons.inj hx).2
  · obtain ⟨b, hb, hx⟩ := Option.map_eq_some_iff.mp (show (performAll (fun _ => true)
        ({ cache := {} } : Client (PipeCache.base Delayed.slowCache)) flushedHit).map (fun b =>
          ((b.accepted, cpuResps b.sent), (PipeCache.base _).isReady b.cache)) =
        some (([(0, .read), (0, .read), (8, .read)], [(0, .read), (8, .read)]), true, true) by
      decide +kernel)
    obtain ⟨hx, hr⟩ := Prod.mk.inj hx
    obtain ⟨hacc, hsent⟩ := Prod.mk.inj hx
    exact ⟨b, run_of_performAll (fun _ _ _ => trivial) hb, hacc, hsent, hr⟩
  · refine ⟨{ cache := { cacheId := 1, pendingFlush := true } }, ?_, ⟨fun _ => rfl, rfl⟩,
      StoreBuffer.not_readyWithin rfl 2⟩
    exact .tail .refl ⟨.flushAll, trivial, .flushAll⟩

end Client

end NpSim.Cache
