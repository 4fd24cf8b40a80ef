/- digest: Dirty blocks of the write-back cache: where they are written back and the two places
   that lose them. -/

import NpSim.Cache.Bench

set_option autoImplicit false
set_option relaxedAutoImplicit false

namespace NpSim.Cache

open NpSim.Lib.Partial Relation

namespace PipeCache

variable {P : CacheParams} {c c' : PipeCache P} {now : Nat}

theorem WellFormed.owed_of_rWaiting (h : WellFormed c) (hr : c.rWaiting = true) : c.owed = [] := by
  cases h.tail with
  | empty _ hq => exact absurd (hr.symm.trans hq.rWaiting) (by decide)
  | fresh _ _ _ hq => exact absurd (hr.symm.trans hq.rWaiting) (by decide)
  | missed _ _ _ _ _ _ _ _ hr' => exact absurd (hr.symm.trans hr') (by decide)
  | filled _ _ _ _ _ _ _ _ hr' => exact absurd (hr.symm.trans hr') (by decide)
  | filling _ _ _ _ _ _ _ hfill =>
    rw [owed, hfill]
    rfl

private theorem Answered.pendingFlush {d : PipeCache P} {bk : CachePipeEntry} {wasMiss : Bool}
    (h : Answered now c d bk wasMiss) : d.pendingFlush = c.pendingFlush := by
  obtain ⟨bk₀, e, r, outs, _, hlook, _, hv, _, hd⟩ := h
  have hh := handleHit_cases (c := { e with isReplay := false }) hv hd
  refine hh.pendingFlush.trans ?_
  change e.pendingFlush = _
  unfold lookTail at hlook
  split at hlook
  · obtain ⟨_, ht⟩ := accessTail_looked hlook
    exact ht.pendingFlush
  · cases hlook
    rfl

/-- Without a prefetcher and without a flush to come, an update loses no dirty line. -/
theorem cleanUpdate_of_calm (hp : P.prefetcher.present = false) (hf : c.pendingFlush = false) :
    CleanUpdate now c := by
  refine ⟨fun d bk wasMiss _ _ _ r hr => ?_, fun d hd hflush _ => ?_⟩
  · rw [prefetchVictim, if_neg (by simp [hp])] at hr
    cases hr
  · have hd' : d.pendingFlush = c.pendingFlush := by
      rcases hd with ⟨_, rfl⟩ | ⟨e, bk, wasMiss, f, ha, hpf, rfl⟩
      · rfl
      · exact (prefetchAfter_cases hpf).1.pendingFlush.trans ha.pendingFlush
    exact absurd ((hflush.symm.trans hd').trans hf) (by decide)

end PipeCache

namespace Bench

variable {P : CacheParams}

/-- Every block that a valid dirty line has stopped holding was written to memory once, in full,
or is prepared to be; it is written before the refill of its line is requested. -/
structure WrittenBack (b : Bench P) : Prop where
  blocks : b.cache.gone = (memReqs .write b.sent).map (·.addr) ++ b.cache.owed
  full : ∀ m ∈ memReqs .write b.sent, 4 * m.bstLen = P.lineBytes ∧ m.data.length = m.bstLen
  refill : b.cache.rWaiting = true → b.cache.owed = []

/-- If the step is an update that is due, it drops no valid dirty line on the way. -/
def Clean (b : Bench P) : Label → Prop
  | .update => b.cache.nextUpdate ≤ b.now →
      PipeCache.CleanUpdate b.now (b.cache.deliverDeferred b.now).1
  | _ => True

/-- A run in which no prefetch overwrites and no flush drops a valid dirty line. -/
def CleanReachable (b : Bench P) : Prop :=
  ReflTransGen (fun b b' => ∃ l, Step b l b' ∧ b.Clean l) {} b

/-- The lines are of at least one word, and their length fits `bst_len`. -/
def FullLines (P : CacheParams) : Prop := 4 ≤ P.lineBytes ∧ P.lineBytes < 4 * 2 ^ 16

private theorem bstLen_eq (hP : FullLines P) : 4 * (P.lineWords % 2 ^ 16) = P.lineBytes := by
  obtain ⟨k, hk⟩ := P.lineBytes_pow2
  obtain ⟨h4, hlt⟩ := hP
  have hk2 : 2 ≤ k := by
    by_contra hc
    have : k = 0 ∨ k = 1 := by omega
    rcases this with rfl | rfl <;> omega
  have hdvd : 4 ∣ P.lineBytes := hk ▸ pow_dvd_pow 2 hk2
  unfold CacheParams.lineWords
  omega

private theorem writtenBack_init : WrittenBack ({} : Bench P) :=
  ⟨rfl, fun _ hm => (List.not_mem_nil hm).elim, fun _ => rfl⟩

private theorem WrittenBack.call {b b' : Bench P} {outs : List CacheOut} (hP : FullLines P)
    (h : WrittenBack b) (hl : PipeCache.Ledger b.cache outs b'.cache)
    (hs : b'.sent = b.sent ++ outs) (hw : PipeCache.WellFormed b'.cache) : WrittenBack b' := by
  obtain ⟨d, hd, ho⟩ := hl.blocks
  refine ⟨?_, fun m hm => ?_, hw.owed_of_rWaiting⟩
  · rw [hd, h.blocks, List.append_assoc, ho, hs, memReqs_append, List.map_append,
      List.append_assoc]
  · rw [hs, memReqs_append, List.mem_append] at hm
    rcases hm with hm | hm
    · exact h.full m hm
    · obtain ⟨hlen, hbst⟩ := hl.full m hm
      have hfull := bstLen_eq hP
      refine ⟨hbst ▸ hfull, ?_⟩
      have hwords : P.lineWords = P.lineBytes / 4 := rfl
      omega

private theorem Step.ledger {b b' : Bench P} {l : Label} (hwb : P.writeBack = true)
    (hP : FullLines P) (hs : Step b l b') (hc : b.Clean l) (hb : Sound b) (h : WrittenBack b) :
    WrittenBack b' := by
  have hb' := (hs.sound hb).wf
  cases hs with
  | read addr hx =>
    obtain ⟨_, _, hl⟩ := hb.wf.enqueue ⟨rfl, rfl, rfl, rfl⟩ hx
    exact h.call hP hl (List.append_nil _).symm hb'
  | write addr data mask _ hx =>
    unfold PipeCache.writeReq at hx
    rw [if_pos hwb] at hx
    obtain ⟨d, hd, hx⟩ := bind_eq_ok.mp hx
    cases hx
    obtain ⟨_, _, hl⟩ := hb.wf.enqueue ⟨rfl, rfl, rfl, rfl⟩ hd
    exact h.call hP hl (List.append_nil _).symm hb'
  | update hx =>
    obtain ⟨_, _, hl⟩ := hb.wf.doUpdate hx
    exact h.call hP (hl hwb hc) rfl hb'
  | answer m data hm hx =>
    obtain ⟨_, _, hl⟩ := hb.wf.recvMemResp hx
    exact h.call hP hl (List.append_nil _).symm hb'
  | flushAll => exact ⟨h.blocks, h.full, h.refill⟩
  | resetStats => exact ⟨h.blocks, h.full, h.refill⟩
  | tick => exact ⟨h.blocks, h.full, h.refill⟩

/-- In a write-back cache whose prefetches and flushes find no dirty line to drop, every dirty
block that leaves its line is written back, once and in full. -/
theorem CleanReachable.writtenBack {b : Bench P} (hwb : P.writeBack = true) (hP : FullLines P)
    (h : CleanReachable b) : WrittenBack b :=
  (invariant_of_run (I := fun b => Sound b ∧ WrittenBack b)
    (fun _ _ ⟨_, hs, hc⟩ ⟨hb, hw⟩ => ⟨hs.sound hb, hs.ledger hwb hP hc hb hw⟩)
    ⟨sound_init, writtenBack_init⟩ h).2

def twoLines (prefetcher : Prefetcher) : CacheParams where
  pipeDepth := 1
  lineBytes := 4
  sets := 2
  assoc := 1
  cacheId := 0
  writeBack := true
  cwf := false
  wbHitRespDelay := 0
  policy := lruReplPolicy
  prefetcher := prefetcher
  pipeDepth_pos := by decide
  assoc_pos := by decide
  lineBytes_pow2 := ⟨2, rfl⟩
  sets_pow2 := ⟨1, rfl⟩
  sets_gt_one := by decide

def store : List Call :=
  [.write 0, .tick, .update, .tick, .update, .answer, .tick, .tick, .update]

def blocks (b : Bench P) : List Addr × List Addr × List Addr :=
  (b.cache.gone, (memReqs .write b.sent).map (·.addr), b.cache.owed)

private theorem not_writtenBack {b : Bench P} {a : Addr} (h : b.blocks = ([a], [], [])) :
    ¬WrittenBack b := by
  intro hw
  have hb := hw.blocks
  simp only [blocks, Prod.mk.injEq] at h
  rw [h.1, h.2.1, h.2.2] at hb
  cases hb

private theorem observe {ok : Bench P → Bool} {ks : List Call}
    {x : List Addr × List Addr × List Addr} (h : (performAll ok {} ks).map blocks = some x) :
    ∃ b, performAll ok {} ks = some b ∧ b.blocks = x :=
  Option.map_eq_some_iff.mp h

/-- A dirty block is lost to the prefetch of a later load, and to a flush. -/
theorem writtenBack_fails :
    (∃ b : Bench (twoLines (nextLinePrefetcher 4)), Reachable b ∧ ¬WrittenBack b) ∧
      ∃ b : Bench (twoLines nullPrefetcher), Reachable b ∧ ¬WrittenBack b := by
  constructor
  · have hrun : (performAll (fun _ => true) ({} : Bench (twoLines (nextLinePrefetcher 4)))
        (store ++ [.read 4, .tick, .update, .tick, .update, .answer, .tick, .tick,
          .update])).map blocks = some ([0], [], []) := by
      decide +kernel
    obtain ⟨b, hb, hx⟩ := observe hrun
    exact ⟨b, reachable_of_performAll hb, not_writtenBack hx⟩
  · have hrun : (performAll (fun _ => true) ({} : Bench (twoLines nullPrefetcher))
        (store ++ [.flushAll, .tick, .update])).map blocks = some ([0], [], []) := by
      decide +kernel
    obtain ⟨b, hb, hx⟩ := observe hrun
    exact ⟨b, reachable_of_performAll hb, not_writtenBack hx⟩

private theorem cleanReachable_of_performAll (hp : P.prefetcher.present = false) {b : Bench P}
    {ks : List Call}
    (h : performAll (fun b => !b.cache.pendingFlush) {} ks = some b) : CleanReachable b := by
  refine ReflTransGen.mono (fun b b' => ?_) _ _ (run_of_performAll h)
  rintro ⟨hok, l, hs⟩
  refine ⟨l, hs, ?_⟩
  cases l with
  | update =>
    intro _
    refine PipeCache.cleanUpdate_of_calm hp ?_
    have hf : b.cache.pendingFlush = false := by simpa using hok
    unfold PipeCache.deliverDeferred
    split <;> exact hf
  | request => trivial
  | answer m => trivial
  | other => trivial

/-- A second store to the same line writes block 0 back. -/
theorem writtenBack_conflict :
    ∃ b : Bench (twoLines nullPrefetcher), WrittenBack b ∧ b.blocks = ([0], [0], []) := by
  have hrun : (performAll (fun b => !b.cache.pendingFlush)
      ({} : Bench (twoLines nullPrefetcher))
      (store ++ [.write 8, .tick, .update, .tick, .update])).map blocks =
        some ([0], [0], []) := by
    decide +kernel
  obtain ⟨b, hb, hx⟩ := observe hrun
  exact ⟨b, (cleanReachable_of_performAll rfl hb).writtenBack rfl ⟨by decide, by decide⟩, hx⟩

end Bench

end NpSim.Cache
