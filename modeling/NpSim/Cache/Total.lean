/- digest: When no call on the cache stops at an assertion: total policies, a due update, an answer
   that is waited for; lines shorter than a word are all that is left. -/

import NpSim.Cache.Bench
import NpSim.Lib.Contract

set_option autoImplicit false
set_option relaxedAutoImplicit false

namespace NpSim.Cache

open NpSim.Lib.Partial NpSim.Lib.Contract

namespace ReplPolicy

/-- The policy answers for sets of `assoc` lines, whatever its state. -/
structure Total (policy : ReplPolicy) (assoc : Nat) : Prop where
  getVictim : ∀ st i set, set.length = assoc → ∃ w, policy.getVictim st i set = .ok w
  onHit : ∀ st now i w stamp, ∃ x, policy.onHit st now i w stamp = .ok x
  onFill : ∀ st now i w stamp, ∃ x, policy.onFill st now i w stamp = .ok x

end ReplPolicy

private theorem ne_nil_of_length {set : List CacheLine} {n : Nat} (hn : 0 < n)
    (h : set.length = n) : set ≠ [] := by
  rintro rfl
  exact hn.ne h

theorem lru_total {assoc : Nat} (ha : 0 < assoc) : lruReplPolicy.Total assoc := by
  refine ⟨fun _ _ set hs => ⟨minStamp set, ?_⟩, fun _ _ _ _ _ => ⟨_, rfl⟩,
    fun _ _ _ _ _ => ⟨_, rfl⟩⟩
  exact if_neg (ne_nil_of_length ha hs)

theorem roundRobin_total {assoc : Nat} (ha : 0 < assoc) :
    (roundRobinReplPolicy assoc).Total assoc := by
  refine ⟨fun ptr i set hs => ⟨ptr i % assoc, ?_⟩, fun _ _ _ _ _ => ⟨_, rfl⟩,
    fun _ _ _ _ _ => ⟨_, rfl⟩⟩
  exact if_pos (hs.symm ▸ Nat.mod_lt _ ha)

private theorem maxStamp_fold_lt (ls : List CacheLine) (best stamp next : Nat)
    (h : best < next) :
    (ls.foldl (fun (acc : Nat × Nat × Nat) x =>
      if acc.2.1 < x.stamp then (acc.2.2, x.stamp, acc.2.2 + 1)
      else (acc.1, acc.2.1, acc.2.2 + 1)) (best, stamp, next)).1 < next + ls.length := by
  induction ls generalizing best stamp next with
  | nil => simpa using h
  | cons x ls ih =>
    simp only [List.foldl_cons, List.length_cons]
    split
    · have := ih next x.stamp (next + 1) (by omega)
      omega
    · have := ih best stamp (next + 1) (by omega)
      omega

theorem maxStamp_lt {set : List CacheLine} (h : set ≠ []) : maxStamp set < set.length := by
  cases set with
  | nil => exact absurd rfl h
  | cons l ls =>
    have := maxStamp_fold_lt ls 0 l.stamp 1 (by omega)
    simp only [maxStamp, List.length_cons]
    omega

theorem srrip_total {assoc : Nat} (ha : 0 < assoc) : srripReplPolicy.Total assoc := by
  refine ⟨fun _ _ set hs => ⟨maxStamp set, ?_⟩, fun _ _ _ _ _ => ⟨_, rfl⟩,
    fun _ _ _ _ _ => ⟨_, rfl⟩⟩
  exact if_pos (maxStamp_lt (ne_nil_of_length ha hs))

theorem plru_total {assoc : Nat} (ha : assoc = 1 ∨ assoc = 2 ∨ assoc = 4) :
    (plruReplPolicy assoc).Total assoc := by
  have hvictim : ∀ bits, ∃ w, plruVictimWay assoc bits = .ok w ∧ w < assoc := by
    intro bits
    rcases ha with rfl | rfl | rfl
    · exact ⟨0, rfl, by omega⟩
    · refine ⟨_, rfl, ?_⟩
      split <;> omega
    · refine ⟨_, rfl, ?_⟩
      split <;> split <;> omega
  have hupdate : ∀ bits way, ∃ b, plruUpdateBits assoc bits way = .ok b := by
    intro bits way
    rcases ha with rfl | rfl | rfl <;> exact ⟨_, rfl⟩
  refine ⟨fun bits i set hs => ?_, fun bits _ i way stamp => ?_,
    fun bits _ i way stamp => ?_⟩
  · obtain ⟨w, hw, hlt⟩ := hvictim (bits i)
    refine ⟨w, ?_⟩
    change (plruVictimWay assoc (bits i) >>= _) = _
    rw [hw, ok_bind, if_pos (hs.symm ▸ hlt)]
  · obtain ⟨b, hb⟩ := hupdate (bits i) way
    refine ⟨(Function.update bits i b, stamp), ?_⟩
    change (plruUpdateBits assoc (bits i) way >>= _) = _
    rw [hb]
    rfl
  · obtain ⟨b, hb⟩ := hupdate (bits i) way
    refine ⟨(Function.update bits i b, stamp), ?_⟩
    change (plruUpdateBits assoc (bits i) way >>= _) = _
    rw [hb]
    rfl

/-- Lines of at least a word and a policy that answers. -/
structure CacheParams.Total (P : CacheParams) : Prop where
  word : 4 ≤ P.lineBytes
  policy : P.policy.Total P.assoc

/-- The fault left to a cache whose policy answers: a read outside a line shorter than a word. -/
def CacheParams.Subword (P : CacheParams) (f : Fault) : Prop :=
  f = .dataRange ∧ P.lineBytes < 4

theorem CacheParams.Total.not_subword {P : CacheParams} (hP : P.Total) (f : Fault) :
    ¬P.Subword f := fun h => absurd hP.word (Nat.not_le.mpr h.2)

namespace PipeCache

variable {P : CacheParams} {c : PipeCache P} {now : Nat}

private theorem length_setOf (c : PipeCache P) (si : Nat) : (c.setOf si).length = P.assoc := by
  rw [setOf, List.length_map, List.length_range]

private theorem selectVictim_ok (hP : P.policy.Total P.assoc) (si : Nat) :
    ∃ w, c.selectVictim si = .ok w := by
  unfold selectVictim
  split
  · exact ⟨_, rfl⟩
  · exact hP.getVictim _ _ _ (length_setOf c si)

private theorem missVictimWay_ok (hP : P.policy.Total P.assoc) (si : Nat) :
    ∃ w, c.missVictimWay si = .ok w := by
  unfold missVictimWay
  dsimp only
  split
  · exact ⟨_, rfl⟩
  · exact hP.getVictim _ _ _ (length_setOf c _)

private theorem access_ok (now : Nat) (hP : P.policy.Total P.assoc) (addr : Addr) :
    ∃ x, c.access now addr = .ok x := by
  unfold access
  dsimp only
  split
  · rename_i w _
    unfold accessHit
    dsimp only
    obtain ⟨x, hx⟩ := hP.onHit _ now (P.setIndexOf addr) w _
    rw [hx]
    exact ⟨_, rfl⟩
  · unfold accessMiss
    dsimp only
    obtain ⟨w, hw⟩ := missVictimWay_ok hP (P.setIndexOf addr)
    rw [hw]
    exact ⟨_, rfl⟩

private theorem atAligned_ok {l : CacheLine} (off : Nat) (h : off / 4 < l.data.length) :
    ∃ w, l.atAligned off = .ok w := by
  rw [CacheLine.atAligned, List.getElem?_eq_getElem h]
  exact ⟨_, rfl⟩

private theorem saveEvictInfo_ok (hP : P.policy.Total P.assoc) (hs : c.Sized) (addr : Addr) :
    ∃ d, c.saveEvictInfo addr = .ok d := by
  unfold saveEvictInfo
  dsimp only
  split
  · exact ⟨_, rfl⟩
  · obtain ⟨w, hw⟩ :=
      missVictimWay_ok (c := { c with pendingEvict := false, examined := none }) hP
        (P.setIndexOf addr)
    rw [hw, ok_bind]
    split
    · have hdata : ∃ r, (List.range P.lineWords).mapM (fun i =>
          (c.lines (P.setIndexOf addr) (w % P.assoc)).atAligned (i * 4)) = .ok r := by
        refine mapM_ok fun i hi => atAligned_ok _ ?_
        rw [hs, Nat.mul_div_cancel _ (by decide)]
        exact List.mem_range.mp hi
      obtain ⟨r, hr⟩ := hdata
      rw [hr]
      exact ⟨_, rfl⟩
    · exact ⟨_, rfl⟩

private theorem accessTail_ok (now : Nat) (hP : P.policy.Total P.assoc) (hs : c.Sized)
    (bk : CachePipeEntry) : ∃ x, c.accessTail now bk = .ok x := by
  unfold accessTail
  obtain ⟨d, hd⟩ := saveEvictInfo_ok hP hs bk.addr
  obtain ⟨⟨r, e⟩, he⟩ := access_ok now (c := d) hP bk.addr
  rw [hd, ok_bind, he]
  exact ⟨_, rfl⟩

private theorem handleHit_meets (now : Nat) (hs : c.Sized) (bk : CachePipeEntry) (r : LineRef) :
    Meets P.Subword (fun _ => True) (c.handleHit now bk r) := by
  unfold handleHit
  dsimp only
  split
  · by_cases h4 : 4 ≤ P.lineBytes
    · obtain ⟨w, hw⟩ := atAligned_ok (l := c.line r) (P.offsetOf bk.addr)
        (by rw [line, hs]; exact P.offset_word_lt h4 bk.addr)
      have hw' : (({ c with blockedUntil := now + 1 } : PipeCache P).line r).atAligned
          (P.offsetOf bk.addr) = .ok w := hw
      rw [hw']
      exact trivial
    · refine Meets.bind (Q := fun _ => True) ?_ fun _ _ _ => trivial
      unfold CacheLine.atAligned
      split
      · exact trivial
      · exact ⟨rfl, Nat.not_le.mp h4⟩
  · exact trivial

private theorem handlePrefetch_ok (hP : P.policy.Total P.assoc) (addr : Addr) (isHit : Bool) :
    ∃ d, c.handlePrefetch now addr isHit = .ok d := by
  unfold handlePrefetch
  split
  · exact ⟨_, rfl⟩
  · dsimp only
    split
    · exact ⟨_, rfl⟩
    · rename_i paddr _
      split
      · exact ⟨_, rfl⟩
      · obtain ⟨w, hw⟩ := selectVictim_ok (c := { c with
            pf := _, prefetchIssued := c.prefetchIssued + 1 }) hP (P.setIndexOf paddr)
        rw [hw, ok_bind]
        obtain ⟨x, hx⟩ := hP.onFill c.repl now (P.setIndexOf paddr) w _
        rw [hx]
        exact ⟨_, rfl⟩

private theorem prefetchAfter_ok (now : Nat) (hP : P.policy.Total P.assoc) (bk : CachePipeEntry)
    (wasMiss : Bool) : ∃ d, c.prefetchAfter now bk wasMiss = .ok d := by
  unfold prefetchAfter
  split
  · exact handlePrefetch_ok hP bk.addr _
  · exact ⟨_, rfl⟩

private theorem finishUpdate_ok (now : Nat) (hP : P.policy.Total P.assoc) (hs : c.Sized) :
    ∃ x, c.finishUpdate now = .ok x := by
  unfold finishUpdate
  split
  · exact ⟨_, rfl⟩
  · dsimp only
    split
    · rename_i bk _
      split
      · obtain ⟨x, hx⟩ :=
          accessTail_ok now (c := { c with pipe := none :: c.pipe.dropLast }) hP hs bk
        rw [hx]
        exact ⟨_, rfl⟩
      · exact ⟨_, rfl⟩
    · exact ⟨_, rfl⟩

private theorem hitUpdate_meets (hP : P.policy.Total P.assoc) (hs : c.Sized)
    (bk : CachePipeEntry) (r : LineRef) (hv : (c.line r).valid = true) (wasMiss : Bool) :
    Meets P.Subword (fun _ => True) (c.hitUpdate now bk r wasMiss) := by
  unfold hitUpdate
  refine (handleHit_meets now hs bk r).bind fun d hd _ => ?_
  obtain ⟨f, hf⟩ := prefetchAfter_ok now (c := d.1) hP bk wasMiss
  have hsize : (f.retire bk).Sized :=
    (prefetchAfter_cases hf).1.sized ((handleHit_cases hv hd).sized hs)
  obtain ⟨x, hx⟩ := finishUpdate_ok now hP hsize
  dsimp only
  rw [hf, ok_bind, hx]
  exact trivial

private theorem WellFormed.serve_meets (now : Nat) (hP : P.policy.Total P.assoc) (h : WellFormed c)
    (hw : c.rWaiting = false ∨ c.pendingFillReq = true) :
    Meets P.Subword (fun _ => True) (c.serve now) := by
  unfold PipeCache.serve
  split
  · rename_i bk hb
    unfold serveTail
    have hlook : ∃ bk' e r, c.lookTail now bk = .ok (bk', e) ∧ bk'.line = some r ∧ e.Sized ∧
        (e.isReplay = false ∨ (e.line r).valid = true) := by
      cases h.tail with
      | empty hb' => exact absurd (hb'.symm.trans hb) (by simp)
      | fresh bk₂ hb' hf hq =>
        cases Option.some.inj (hb'.symm.trans hb)
        obtain ⟨⟨bk', e⟩, he⟩ := accessTail_ok now hP h.sized bk
        obtain ⟨r, ht⟩ := accessTail_looked he
        refine ⟨bk', e, r, ?_, by rw [ht.entry], ht.sized h.sized,
          .inl (ht.isReplay.trans hq.isReplay)⟩
        rw [lookTail, if_pos hf.1, he]
      | missed bk₂ r hb' hh _ _ _ _ _ hp =>
        cases Option.some.inj (hb'.symm.trans hb)
        exact ⟨bk, c, r, if_neg (by simp [hh.line]), hh.line, h.sized, .inl hp⟩
      | filling bk₂ r hb' hh _ _ _ hfill hr =>
        rcases hw with hw | hw
        · exact absurd (hr.symm.trans hw) (by decide)
        · exact absurd (hw.symm.trans hfill) (by decide)
      | filled bk₂ r hb' hh hv =>
        cases Option.some.inj (hb'.symm.trans hb)
        exact ⟨bk, c, r, if_neg (by simp [hh.line]), hh.line, h.sized, .inr hv⟩
    obtain ⟨bk', e, r, hl, hline, hs, hreq⟩ := hlook
    rw [hl, ok_bind]
    dsimp only
    rw [hline]
    dsimp only
    rw [require_of hreq, ok_bind]
    split
    · rename_i hv
      exact hitUpdate_meets (c := { e with isReplay := false }) hP hs bk' r hv _
    · exact trivial
  · obtain ⟨x, hx⟩ := finishUpdate_ok now hP h.sized
    exact .of_ok hx trivial

theorem WellFormed.doUpdate_meets_of (hP : P.policy.Total P.assoc) (h : WellFormed c)
    (hwait : c.nextUpdate ≤ now → c.rWaiting = false ∨ c.pendingFillReq = true) :
    Meets P.Subword (fun _ => True) (c.doUpdate now) := by
  unfold PipeCache.doUpdate
  split
  · rename_i hdue
    unfold updateImpl
    obtain ⟨hw, _⟩ := h.deliverDeferred now
    have hsame : (c.deliverDeferred now).1.rWaiting = c.rWaiting ∧
        (c.deliverDeferred now).1.pendingFillReq = c.pendingFillReq := by
      unfold PipeCache.deliverDeferred
      split <;> exact ⟨rfl, rfl⟩
    exact (hw.serve_meets now hP (by rw [hsame.1, hsame.2]; exact hwait hdue)).bind
      fun _ _ _ => trivial
  · exact trivial

/-- An update stops at most at a line shorter than a word. -/
theorem WellFormed.doUpdate_meets (now : Nat) (hP : P.policy.Total P.assoc) (hi : Immediate P)
    (h : WellFormed c) : Meets P.Subword (fun _ => True) (c.doUpdate now) := by
  refine h.doUpdate_meets_of hP fun hdue => ?_
  by_contra hc
  simp only [not_or, Bool.not_eq_false, Bool.not_eq_true] at hc
  rw [nextUpdate, hc.1, hc.2, h.sched hi] at hdue
  exact absurd (top_le_iff.mp hdue) (ENat.natCast_ne_top now)

theorem WellFormed.doUpdate_ok (hP : P.Total) (hi : Immediate P) (h : WellFormed c) :
    ∃ x, c.doUpdate now = .ok x := by
  obtain ⟨x, hx, _⟩ := (h.doUpdate_meets now hP.policy hi).exists_ok hP.not_subword
  exact ⟨x, hx⟩

theorem WellFormed.enqueue_ok (now : Nat) (h : WellFormed c) (hr : c.isShifted = true)
    (e : CachePipeEntry) : ∃ d, c.enqueue now e = .ok d := by
  have hfront := h.front hr
  cases hp : c.pipe with
  | nil =>
    rw [hp] at hfront
    cases hfront
  | cons x rest =>
    rw [hp] at hfront
    cases hfront
    exact ⟨_, enqueue_eq_ok.mpr ⟨hr, rest, hp, rfl⟩⟩

theorem WellFormed.recvMemResp_ok (hP : P.policy.Total P.assoc) (h : WellFormed c) {m : MemTrans}
    (hread : m.mop = .read → c.readsOwed = [m.addr]) (hwrite : m.mop = .write → c.wWaiting = true) :
    ∃ d, c.recvMemResp now m = .ok d := by
  cases hop : m.mop with
  | read =>
    have howed := hread hop
    have hr : c.rWaiting = true := by
      by_contra hc
      rw [readsOwed, if_neg hc] at howed
      cases howed
    rw [readsOwed, if_pos hr] at howed
    cases h.tail with
    | empty _ hq => exact absurd (hr.symm.trans hq.rWaiting) (by decide)
    | fresh _ _ _ hq => exact absurd (hr.symm.trans hq.rWaiting) (by decide)
    | missed _ _ _ _ _ _ _ _ hr' => exact absurd (hr.symm.trans hr') (by decide)
    | filled _ _ _ _ _ _ _ _ hr' => exact absurd (hr.symm.trans hr') (by decide)
    | filling bk r hb hh =>
      rw [hb] at howed
      have haddr : bk.addr = m.addr := by simpa using howed
      obtain ⟨⟨repl, stamp⟩, hfill⟩ := hP.onFill c.repl now (P.setIndexOf m.addr) r.way
        (((c.line r).activate now).setTag (P.tagOf m.addr)).stamp
      exact ⟨_, (recvRead_eq_ok hop).mpr ⟨hr, bk, r, _, hb, hh.line,
        handleFill_eq_ok.mpr ⟨⟨haddr ▸ hh.set, hh.way⟩, repl, stamp, hfill, rfl⟩, rfl⟩⟩
  | write => exact ⟨_, (recvWrite_eq_ok hop).mpr ⟨hwrite hop, rfl⟩⟩

end PipeCache

namespace Bench

variable {P : CacheParams}

/-- No call stops at an assertion: a request when the cache is ready, an update, an answer. -/
structure Unfailing (b : Bench P) : Prop where
  read : b.cache.isReady.1 = true → ∀ addr, ∃ c, b.cache.readReq b.now addr = .ok c
  write : P.writeBack = true → b.cache.isReady.2 = true →
    ∀ addr data mask, ∃ x, b.cache.writeReq b.now addr data mask = .ok x
  update : ∃ x, b.cache.doUpdate b.now = .ok x
  answer : ∀ m ∈ b.outstanding, ∀ data,
    ∃ c, b.cache.recvMemResp b.now { m with dir := .resp, data := data } = .ok c

theorem isShifted_of_isReady {c : PipeCache P} (h : c.isReady.1 = true) :
    c.isShifted = true := by
  simp only [PipeCache.isReady] at h
  split at h <;> simp_all

theorem Sound.unfailing {b : Bench P} (hP : P.Total) (hi : PipeCache.Immediate P)
    (h : Sound b) : Unfailing b := by
  refine ⟨fun hr addr => h.wf.enqueue_ok _ (isShifted_of_isReady hr) _,
    fun hwb hr addr data mask => ?_, h.wf.doUpdate_ok hP hi, fun m hm data => ?_⟩
  · have hr' : b.cache.isReady.1 = true := by
      simpa [PipeCache.isReady, hwb] using hr
    obtain ⟨d, hd⟩ := h.wf.enqueue_ok b.now (isShifted_of_isReady hr')
      { addr := addr, mop := .write, wrdata := data, wrstrb := mask }
    rw [PipeCache.writeReq, if_pos hwb, hd]
    exact ⟨_, rfl⟩
  · refine h.wf.recvMemResp_ok hP.policy (fun hop => ?_) fun hop => ?_
    · have hmem : m.addr ∈ b.cache.readsOwed := by
        rw [← h.waitsRead]
        exact List.mem_map_of_mem (List.mem_filter.mpr ⟨hm, by simpa using hop⟩)
      have hlen := length_readsOwed b.cache
      match hl : b.cache.readsOwed with
      | [] =>
        rw [hl] at hmem
        cases hmem
      | [a] =>
        rw [hl] at hmem
        rw [List.mem_singleton.mp hmem]
      | _ :: _ :: _ =>
        rw [hl] at hlen
        simp at hlen
    · have hpos : 0 < b.cache.writesOwed := by
        rw [← h.waitsWrite]
        exact List.length_pos_of_mem (List.mem_filter.mpr ⟨hm, by simpa using hop⟩)
      by_contra hc
      rw [PipeCache.writesOwed, if_neg hc] at hpos
      exact absurd hpos (Nat.lt_irrefl 0)

end Bench

end NpSim.Cache
