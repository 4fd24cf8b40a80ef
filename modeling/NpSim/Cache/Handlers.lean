/- digest: What each part of the cache can do: inversion of the lookup, the fill, the prefetch and
   the update. -/

import NpSim.Cache.PipeCache

set_option autoImplicit false
set_option relaxedAutoImplicit false

namespace NpSim.Cache

open NpSim.Lib.Partial

namespace CacheParams

variable (P : CacheParams)

theorem lineBytes_pos : 0 < P.lineBytes := by
  obtain ⟨k, hk⟩ := P.lineBytes_pow2
  exact hk ▸ Nat.two_pow_pos k

theorem offsetOf_lt (addr : Addr) : P.offsetOf addr < P.lineBytes := by
  have hp := P.lineBytes_pos
  have hle : P.offsetOf addr ≤ P.lineBytes - 1 := Nat.and_le_right
  omega

theorem offset_word_lt (h4 : 4 ≤ P.lineBytes) (addr : Addr) :
    P.offsetOf addr / 4 < P.lineWords := by
  obtain ⟨k, hk⟩ := P.lineBytes_pow2
  have hlt := P.offsetOf_lt addr
  have hk2 : 2 ≤ k := by
    by_contra hc
    have : k = 0 ∨ k = 1 := by omega
    rcases this with rfl | rfl <;> simp only [hk] at h4 <;> omega
  have hdvd : 4 ∣ P.lineBytes := hk ▸ pow_dvd_pow 2 hk2
  unfold lineWords
  omega

end CacheParams

/-- The block that a missed request has driven out: that of a line found valid and dirty. -/
def CachePipeEntry.evicts (e : CachePipeEntry) : List Addr :=
  match e.found with
  | none => []
  | some l => if e.missed && (l.valid && l.dirty) then [l.tag] else []

namespace PipeCache

variable {P : CacheParams} {c c' : PipeCache P} {now : Nat}

@[simp] theorem line_setLine_self (c : PipeCache P) (r : LineRef) (l : CacheLine) :
    (c.setLine r l).line r = l := by
  simp [line, setLine]

theorem lines_setLine (c : PipeCache P) (r : LineRef) (l : CacheLine) (s w : Nat) :
    (c.setLine r l).lines s w = if s = r.set ∧ w = r.way then l else c.lines s w := by
  by_cases hs : s = r.set
  · subst hs
    by_cases hw : w = r.way <;> simp [setLine, hw]
  · simp [setLine, hs]

/-- Every line has room for its words. -/
def Sized (c : PipeCache P) : Prop := ∀ s w, (c.lines s w).data.length = P.lineWords

theorem Sized.setLine (h : c.Sized) {r : LineRef} {l : CacheLine}
    (hl : l.data = (c.line r).data) : (c.setLine r l).Sized := by
  intro s w
  rw [lines_setLine]
  split
  · rename_i hx
    rw [hl]
    exact h r.set r.way
  · exact h s w

theorem findWay_some {si w : Nat} {tag : Addr} (h : c.findWay si tag = some w) :
    w < P.assoc ∧ (c.lines si w).valid = true ∧ (c.lines si w).tag = tag := by
  have hm := List.mem_of_find?_eq_some h
  have hp := List.find?_some h
  simp only [Bool.and_eq_true, beq_iff_eq] at hp
  exact ⟨List.mem_range.mp hm, hp⟩

/-- `c'` has the pipe and the flags of `c`; lines, policy, prefetcher and counters may differ. -/
structure SameControl (c c' : PipeCache P) : Prop where
  pipe : c'.pipe = c.pipe
  rWaiting : c'.rWaiting = c.rWaiting
  wWaiting : c'.wWaiting = c.wWaiting
  isShifted : c'.isShifted = c.isShifted
  isReplay : c'.isReplay = c.isReplay
  pendingFlush : c'.pendingFlush = c.pendingFlush
  pendingFillReq : c'.pendingFillReq = c.pendingFillReq
  blockedUntil : c'.blockedUntil = c.blockedUntil
  schedHitTime : c'.schedHitTime = c.schedHitTime
  schedHitResp : c'.schedHitResp = c.schedHitResp
  served : c'.served = c.served
  sized : c.Sized → c'.Sized

theorem SameControl.refl (c : PipeCache P) : SameControl c c :=
  ⟨rfl, rfl, rfl, rfl, rfl, rfl, rfl, rfl, rfl, rfl, rfl, id⟩

theorem SameControl.trans {d : PipeCache P} (h : SameControl c c') (h' : SameControl c' d) :
    SameControl c d :=
  ⟨h'.pipe.trans h.pipe, h'.rWaiting.trans h.rWaiting, h'.wWaiting.trans h.wWaiting,
    h'.isShifted.trans h.isShifted, h'.isReplay.trans h.isReplay,
    h'.pendingFlush.trans h.pendingFlush, h'.pendingFillReq.trans h.pendingFillReq,
    h'.blockedUntil.trans h.blockedUntil, h'.schedHitTime.trans h.schedHitTime,
    h'.schedHitResp.trans h.schedHitResp, h'.served.trans h.served, h'.sized ∘ h.sized⟩

/-- A lookup: the line it returns, and whether it hits. A hit keeps the block, the dirty bit and
the words of its line; a miss empties the victim. -/
structure Looked (addr : Addr) (c : PipeCache P) (r : LineRef) (c' : PipeCache P) : Prop where
  same : SameControl c c'
  set : r.set = P.setIndexOf addr
  way : r.way < P.assoc
  evict : c'.pendingEvict = c.pendingEvict ∧ c'.evictAddr = c.evictAddr ∧
    c'.evictData = c.evictData
  lines : ∃ l, (∀ s w, c'.lines s w = if s = r.set ∧ w = r.way then l else c.lines s w) ∧
    c'.gone = c.gone ++ (c.line r).lost l ∧
    ((c.line r).valid = true ∧ l.valid = true ∧ l.tag = (c.line r).tag ∧
        l.dirty = (c.line r).dirty ∧ c.probe addr = true ∨
      l.valid = false ∧ c.probe addr = false ∧
        ∃ w, c.missVictimWay r.set = .ok w ∧ r.way = w % P.assoc)

/-- `d` is `c` with other counters, lag state or policy state. -/
structure SameArrays (c d : PipeCache P) : Prop where
  control : SameControl c d
  evict : d.pendingEvict = c.pendingEvict ∧ d.evictAddr = c.evictAddr ∧
    d.evictData = c.evictData
  lines : d.lines = c.lines
  gone : d.gone = c.gone

theorem enqueue_eq_ok {e : CachePipeEntry} :
    c.enqueue now e = .ok c' ↔ c.isShifted = true ∧ ∃ rest, c.pipe = none :: rest ∧
      c' = { c with pipe := some e :: rest, blockedUntil := now + 1, isShifted := false } := by
  constructor
  · intro h
    unfold enqueue at h
    obtain ⟨hs, h⟩ := require_bind_eq_ok.mp h
    split at h
    · rename_i rest hpipe
      exact ⟨hs, rest, hpipe, (Except.ok.inj h).symm⟩
    · cases h
  · rintro ⟨hs, rest, hpipe, rfl⟩
    unfold enqueue
    rw [require_of hs, ok_bind, hpipe]

theorem access_of_miss {addr : Addr}
    (h : c.findWay (P.setIndexOf addr) (P.tagOf addr) = none) : c.access now addr =
      ({ c with stats := { c.stats with accesses := c.stats.accesses + 1 } } :
        PipeCache P).accessMiss (P.setIndexOf addr) := by
  have h' : ({ c with stats := { c.stats with accesses := c.stats.accesses + 1 } } :
      PipeCache P).findWay (P.setIndexOf addr) (P.tagOf addr) = none := h
  unfold access
  simp only [h']

theorem access_of_hit {addr : Addr} {w : Nat}
    (h : c.findWay (P.setIndexOf addr) (P.tagOf addr) = some w) : c.access now addr =
      (({ c with stats := { c.stats with accesses := c.stats.accesses + 1 } } :
        PipeCache P).accessHit now ⟨P.setIndexOf addr, w⟩ >>= fun d =>
          .ok (⟨P.setIndexOf addr, w⟩, d)) := by
  have h' : ({ c with stats := { c.stats with accesses := c.stats.accesses + 1 } } :
      PipeCache P).findWay (P.setIndexOf addr) (P.tagOf addr) = some w := h
  unfold access
  simp only [h']

theorem handleFill_eq_ok {blk : LineRef} {addr : Addr} {ret : List Word} :
    c.handleFill now blk addr ret = .ok c' ↔
      (blk.set = P.setIndexOf addr ∧ blk.way < P.assoc) ∧ ∃ repl stamp,
        P.policy.onFill c.repl now (P.setIndexOf addr) blk.way
          (((c.line blk).activate now).setTag (P.tagOf addr)).stamp = .ok (repl, stamp) ∧
        c' = { c with repl := repl }.setLine blk
          ({ ((c.line blk).activate now).setTag (P.tagOf addr) with stamp := stamp }.setVecData
            ret) := by
  unfold handleFill
  constructor
  · intro h
    obtain ⟨hf, h⟩ := require_bind_eq_ok.mp h
    obtain ⟨⟨repl, stamp⟩, hfill, h⟩ := bind_eq_ok.mp h
    exact ⟨hf, repl, stamp, hfill, (Except.ok.inj h).symm⟩
  · rintro ⟨hf, repl, stamp, hfill, rfl⟩
    exact require_bind_eq_ok.mpr ⟨hf, bind_eq_ok.mpr ⟨(repl, stamp), hfill, rfl⟩⟩

theorem recvRead_eq_ok {m : MemTrans} (hop : m.mop = .read) : c.recvMemResp now m = .ok c' ↔
    c.rWaiting = true ∧ ∃ bk r d, c.back = some bk ∧ bk.line = some r ∧
      { c with rWaiting := false }.handleFill now r m.addr m.data = .ok d ∧
      c' = { d with
        blockedUntil := now + (if P.cwf then 1 else if P.writeBack then 2 else 1) } := by
  unfold recvMemResp
  rw [hop]
  dsimp only
  constructor
  · intro h
    obtain ⟨hr, h⟩ := require_bind_eq_ok.mp h
    cases hb : c.back with
    | none =>
      rw [hb] at h
      cases h
    | some bk =>
      cases hl : bk.line with
      | none =>
        simp only [hb, hl] at h
        cases h
      | some r =>
        simp only [hb, hl] at h
        obtain ⟨d, hd, h⟩ := bind_eq_ok.mp h
        exact ⟨hr, bk, r, d, rfl, hl, hd, (Except.ok.inj h).symm⟩
  · rintro ⟨hr, bk, r, d, hb, hl, hd, rfl⟩
    refine require_bind_eq_ok.mpr ⟨hr, ?_⟩
    simp only [hb, hl]
    exact bind_eq_ok.mpr ⟨d, hd, rfl⟩

theorem recvWrite_eq_ok {m : MemTrans} (hop : m.mop = .write) : c.recvMemResp now m = .ok c' ↔
    c.wWaiting = true ∧ c' = { c with
      wWaiting := false, blockedUntil := if P.writeBack then c.blockedUntil else now + 2 } := by
  unfold recvMemResp
  rw [hop]
  dsimp only
  rw [require_bind_eq_ok]
  refine and_congr_right fun _ => ?_
  split
  · exact ⟨fun h => (Except.ok.inj h).symm, fun h => congrArg _ h.symm⟩
  · exact ⟨fun h => (Except.ok.inj h).symm, fun h => congrArg _ h.symm⟩

/-- What a response of memory does: it fills the line of the tail entry, or ends the wait for a
write. -/
theorem recvMemResp_cases {m : MemTrans} (hx : c.recvMemResp now m = .ok c') :
    (m.mop = .read ∧ c.rWaiting = true ∧ ∃ bk r repl stamp, c.back = some bk ∧
      bk.line = some r ∧ (r.set = P.setIndexOf m.addr ∧ r.way < P.assoc) ∧
      c' = { ({ c with rWaiting := false, repl := repl } : PipeCache P).setLine r
          ({ ((c.line r).activate now).setTag (P.tagOf m.addr) with stamp := stamp }.setVecData
            m.data) with
        blockedUntil := now + (if P.cwf then 1 else if P.writeBack then 2 else 1) }) ∨
    m.mop = .write ∧ c.wWaiting = true ∧ c' = { c with
      wWaiting := false, blockedUntil := if P.writeBack then c.blockedUntil else now + 2 } := by
  cases hop : m.mop with
  | read =>
    obtain ⟨hr, bk, r, d, hb, hl, hd, rfl⟩ := (recvRead_eq_ok hop).mp hx
    obtain ⟨hfound, repl, stamp, _, rfl⟩ := handleFill_eq_ok.mp hd
    exact .inl ⟨rfl, hr, bk, r, repl, stamp, hb, hl, hfound, rfl⟩
  | write => exact .inr ⟨rfl, (recvWrite_eq_ok hop).mp hx⟩

theorem lines_noteLag (si : Nat) (c : PipeCache P) : (c.noteLag si).lines = c.lines := by
  unfold noteLag
  split <;> rfl

theorem prefetchAfter_none (hp : P.prefetcher.present = false) {bk : CachePipeEntry}
    {b : Bool} (h : c.prefetchAfter now bk b = .ok c') : c' = c := by
  unfold prefetchAfter handlePrefetch at h
  rw [hp, Bool.not_false, if_pos rfl, ite_self] at h
  exact (Except.ok.inj h).symm

private theorem sameArrays_noteLag (si : Nat) (c : PipeCache P) : SameArrays c (c.noteLag si) := by
  unfold noteLag
  split
  · exact ⟨⟨rfl, rfl, rfl, rfl, rfl, rfl, rfl, rfl, rfl, rfl, rfl, id⟩, ⟨rfl, rfl, rfl⟩, rfl, rfl⟩
  · exact ⟨.refl c, ⟨rfl, rfl, rfl⟩, rfl, rfl⟩

private theorem SameArrays.control_setLine {d : PipeCache P} (h : SameArrays c d) {r : LineRef}
    {l : CacheLine} (hl : l.data = (c.line r).data) : SameControl c (d.setLine r l) := by
  refine ⟨h.control.pipe, h.control.rWaiting, h.control.wWaiting, h.control.isShifted,
    h.control.isReplay, h.control.pendingFlush, h.control.pendingFillReq, h.control.blockedUntil,
    h.control.schedHitTime, h.control.schedHitResp, h.control.served, fun hs => ?_⟩
  refine (h.control.sized hs).setLine ?_
  rw [hl, line, line, h.lines]

private theorem SameArrays.gone_setLine {d : PipeCache P} (h : SameArrays c d) {r : LineRef}
    {l : CacheLine} : (d.setLine r l).gone = c.gone ++ (c.line r).lost l := by
  change d.gone ++ (d.line r).lost l = _
  rw [h.gone, line, line, h.lines]

private theorem SameArrays.lines_setLine {d : PipeCache P} (h : SameArrays c d) {r : LineRef}
    {l : CacheLine} (s w : Nat) :
    (d.setLine r l).lines s w = if s = r.set ∧ w = r.way then l else c.lines s w := by
  rw [PipeCache.lines_setLine, h.lines]

private theorem accessHit_looked {addr : Addr} {w : Nat} (hw : w < P.assoc)
    (hp : c.probe addr = true) (hv : (c.lines (P.setIndexOf addr) w).valid = true)
    (h : c.accessHit now ⟨P.setIndexOf addr, w⟩ = .ok c') :
    Looked addr c ⟨P.setIndexOf addr, w⟩ c' := by
  unfold accessHit at h
  dsimp only at h
  obtain ⟨⟨repl, stamp⟩, _, h⟩ := bind_eq_ok.mp h
  cases h
  have ha := sameArrays_noteLag (P.setIndexOf addr) c
  have hline : ∀ r, (c.noteLag (P.setIndexOf addr)).line r = c.line r := by
    intro r
    rw [line, line, ha.lines]
  have hb : ∀ (st : CacheStats) (n : Nat), SameArrays c { c.noteLag (P.setIndexOf addr) with
      repl := repl, stats := st, prefetchUseful := n } := fun _ _ =>
    ⟨⟨ha.control.pipe, ha.control.rWaiting, ha.control.wWaiting, ha.control.isShifted,
      ha.control.isReplay, ha.control.pendingFlush, ha.control.pendingFillReq,
      ha.control.blockedUntil, ha.control.schedHitTime, ha.control.schedHitResp,
      ha.control.served, ha.control.sized⟩, ha.evict, ha.lines, ha.gone⟩
  have hl : ∀ b : Bool, ∃ l : CacheLine, l =
      (if b then { (c.line ⟨P.setIndexOf addr, w⟩) with stamp := stamp, isPrefetched := false }
        else { (c.line ⟨P.setIndexOf addr, w⟩) with stamp := stamp }) ∧
      l.valid = true ∧ l.tag = (c.line ⟨P.setIndexOf addr, w⟩).tag ∧
      l.dirty = (c.line ⟨P.setIndexOf addr, w⟩).dirty ∧
      l.data = (c.line ⟨P.setIndexOf addr, w⟩).data := by
    intro b
    cases b <;> exact ⟨_, rfl, hv, rfl, rfl, rfl⟩
  simp only [hline]
  obtain ⟨l, heq, hlv, hlt, hld, hdata⟩ :=
    hl ((c.line ⟨P.setIndexOf addr, w⟩).isPrefetched && P.prefetcher.present)
  have hx : ∀ (st : CacheStats) (n : Nat), Looked addr c ⟨P.setIndexOf addr, w⟩
      ({ c.noteLag (P.setIndexOf addr) with
        repl := repl, stats := st, prefetchUseful := n }.setLine ⟨P.setIndexOf addr, w⟩ l) :=
    fun st n => ⟨(hb st n).control_setLine hdata, rfl, hw, (hb st n).evict, l,
      (hb st n).lines_setLine, (hb st n).gone_setLine, .inl ⟨hv, hlv, hlt, hld, hp⟩⟩
  rw [← heq]
  exact hx _ _

private theorem accessMiss_looked {addr : Addr} {r : LineRef} (hp : c.probe addr = false)
    (h : c.accessMiss (P.setIndexOf addr) = .ok (r, c')) : Looked addr c r c' := by
  unfold accessMiss at h
  dsimp only at h
  obtain ⟨w, hw, h⟩ := bind_eq_ok.mp h
  cases h
  have ha := sameArrays_noteLag (P.setIndexOf addr)
    ({ c with stats := { c.stats with misses := c.stats.misses + 1 } } : PipeCache P)
  have hb : SameArrays c (({ c with
      stats := { c.stats with misses := c.stats.misses + 1 } } : PipeCache P).noteLag
        (P.setIndexOf addr)) :=
    ⟨⟨ha.control.pipe, ha.control.rWaiting, ha.control.wWaiting, ha.control.isShifted,
      ha.control.isReplay, ha.control.pendingFlush, ha.control.pendingFillReq,
      ha.control.blockedUntil, ha.control.schedHitTime, ha.control.schedHitResp,
      ha.control.served, ha.control.sized⟩, ha.evict, ha.lines, ha.gone⟩
  have hdata : (((({ c with
      stats := { c.stats with misses := c.stats.misses + 1 } } : PipeCache P).noteLag
        (P.setIndexOf addr)).line ⟨P.setIndexOf addr, w % P.assoc⟩).invalidate).data =
      (c.line ⟨P.setIndexOf addr, w % P.assoc⟩).data := by
    rw [line, hb.lines]
    rfl
  exact ⟨hb.control_setLine hdata, rfl, Nat.mod_lt _ P.assoc_pos, hb.evict, _, hb.lines_setLine,
    hb.gone_setLine, .inr ⟨rfl, hp, w, hw, rfl⟩⟩

theorem access_looked {addr : Addr} {r : LineRef} (h : c.access now addr = .ok (r, c')) :
    Looked addr c r c' := by
  unfold access at h
  dsimp only at h
  have hx : ∀ r, Looked addr
      ({ c with stats := { c.stats with accesses := c.stats.accesses + 1 } } : PipeCache P) r c' →
      Looked addr c r c' := fun r hl =>
    ⟨⟨hl.same.pipe, hl.same.rWaiting, hl.same.wWaiting, hl.same.isShifted, hl.same.isReplay,
      hl.same.pendingFlush, hl.same.pendingFillReq, hl.same.blockedUntil, hl.same.schedHitTime,
      hl.same.schedHitResp, hl.same.served, hl.same.sized⟩, hl.set, hl.way, hl.evict, hl.lines⟩
  split at h
  · rename_i w hw
    obtain ⟨hlt, hv, _⟩ := findWay_some hw
    obtain ⟨d, hd, h⟩ := bind_eq_ok.mp h
    cases h
    have hp : c.probe addr = true := Option.isSome_iff_exists.mpr ⟨w, hw⟩
    exact hx _ (accessHit_looked hlt hp hv hd)
  · rename_i hw
    have hp : c.probe addr = false :=
      Option.isSome_eq_false_iff.mpr (Option.isNone_iff_eq_none.mpr hw)
    exact hx _ (accessMiss_looked hp h)

/-- The eviction that `save_evict_info` prepares: of the line that a miss would empty. -/
theorem saveEvictInfo_cases {addr : Addr} (h : c.saveEvictInfo addr = .ok c') :
    ∃ p a d x, c' = { c with
        pendingEvict := p, evictAddr := a, evictData := d, examined := x } ∧
      (P.writeBack = false → p = false) ∧
      (P.writeBack = true → ∃ w, c.missVictimWay (P.setIndexOf addr) = .ok w ∧
        x = some ⟨P.setIndexOf addr, w % P.assoc⟩ ∧
        p = ((c.lines (P.setIndexOf addr) (w % P.assoc)).valid &&
          (c.lines (P.setIndexOf addr) (w % P.assoc)).dirty) ∧
        (p = true → a = (c.lines (P.setIndexOf addr) (w % P.assoc)).tag ∧
          d.length = P.lineWords)) := by
  unfold saveEvictInfo at h
  dsimp only at h
  split at h
  · rename_i hwb
    cases h
    exact ⟨false, c.evictAddr, c.evictData, none, rfl, fun _ => rfl,
      fun ht => by simp [ht] at hwb⟩
  · rename_i hwb
    have hwb' : P.writeBack = true := by simpa using hwb
    obtain ⟨w, hw, h⟩ := bind_eq_ok.mp h
    split at h
    · rename_i hvd
      obtain ⟨data, hdata, h⟩ := bind_eq_ok.mp h
      cases h
      refine ⟨true, _, _, _, rfl, fun hf => absurd (hwb'.symm.trans hf) (by decide), fun _ =>
        ⟨w, hw, rfl, hvd.symm, fun _ => ⟨rfl, ?_⟩⟩⟩
      rw [length_of_mapM hdata, List.length_range]
    · rename_i hvd
      cases h
      exact ⟨false, c.evictAddr, c.evictData, _, rfl, fun _ => rfl, fun _ =>
        ⟨w, hw, rfl, (Bool.eq_false_of_not_eq_true hvd).symm, fun hf => absurd hf (by decide)⟩⟩

/-- The eviction noted for a lookup that misses is that of the block its victim loses. -/
structure TailLooked (bk : CachePipeEntry) (c : PipeCache P) (bk' : CachePipeEntry) (r : LineRef)
    (c' : PipeCache P) : Prop where
  entry : bk' = { bk with
    line := some r, accesses := bk.accesses + 1, missed := !(c'.line r).valid
    examined := bk'.examined, found := some (c.line r) }
  pipe : c'.pipe = c.pipe.dropLast ++ [some bk']
  rWaiting : c'.rWaiting = c.rWaiting
  wWaiting : c'.wWaiting = c.wWaiting
  isShifted : c'.isShifted = c.isShifted
  isReplay : c'.isReplay = c.isReplay
  pendingFlush : c'.pendingFlush = c.pendingFlush
  pendingFillReq : c'.pendingFillReq = c.pendingFillReq
  blockedUntil : c'.blockedUntil = c.blockedUntil
  schedHitTime : c'.schedHitTime = c.schedHitTime
  schedHitResp : c'.schedHitResp = c.schedHitResp
  served : c'.served = c.served
  sized : c.Sized → c'.Sized
  set : r.set = P.setIndexOf bk.addr
  way : r.way < P.assoc
  probed : c.probe bk.addr = false → (c'.line r).valid = false
  hit : (c'.line r).valid = true → c'.gone = c.gone
  miss : (c'.line r).valid = false → P.writeBack = true →
    c'.gone = c.gone ++ (if c'.pendingEvict then [c'.evictAddr] else []) ∧
      (c'.pendingEvict = true → c'.evictData.length = P.lineWords) ∧
      bk'.evicts = (if c'.pendingEvict then [c'.evictAddr] else []) ∧ bk'.examined = some r

theorem accessTail_looked {bk bk' : CachePipeEntry} (h : c.accessTail now bk = .ok (bk', c')) :
    ∃ r, TailLooked bk c bk' r c' := by
  unfold accessTail at h
  obtain ⟨d, hd, h⟩ := bind_eq_ok.mp h
  obtain ⟨p, a, w, x, rfl, hoff, hon⟩ := saveEvictInfo_cases hd
  obtain ⟨⟨r, e⟩, he, h⟩ := bind_eq_ok.mp h
  have hl := access_looked he
  cases h
  obtain ⟨l, hlines, hgone, hcases⟩ := hl.lines
  have hline : e.line r = l := by
    rw [line, hlines, if_pos ⟨rfl, rfl⟩]
  refine ⟨r, ⟨rfl, ?_, hl.same.rWaiting, hl.same.wWaiting, hl.same.isShifted, hl.same.isReplay,
    hl.same.pendingFlush, hl.same.pendingFillReq, hl.same.blockedUntil, hl.same.schedHitTime,
    hl.same.schedHitResp, hl.same.served, hl.same.sized, hl.set, hl.way, ?_, ?_, ?_⟩⟩
  · change e.pipe.dropLast ++ _ = _
    rw [hl.same.pipe]
  · intro hp
    change (e.line r).valid = false
    rw [hline]
    rcases hcases with ⟨_, _, _, _, hp'⟩ | ⟨hlv, _⟩
    · exact absurd (hp'.symm.trans hp) (by decide)
    · exact hlv
  · intro hv
    change (e.line r).valid = true at hv
    change e.gone = c.gone
    rw [hline] at hv
    rcases hcases with ⟨_, hlv, hlt, _⟩ | ⟨hlv, _⟩
    · rw [hgone]
      change c.gone ++ (c.line r).lost l = c.gone
      have hlt' : l.tag = (c.line r).tag := hlt
      simp [CacheLine.lost, hlv, hlt']
    · exact absurd (hv.symm.trans hlv) (by decide)
  · intro hv hwb
    change (e.line r).valid = false at hv
    rw [hline] at hv
    obtain ⟨hp, ha, hdt⟩ := hl.evict
    rcases hcases with ⟨_, hlv, _⟩ | ⟨_, _, v, hv', hway⟩
    · exact absurd (hlv.symm.trans hv) (by decide)
    · obtain ⟨v₂, hv₂, hx, hpe, hpa⟩ := hon hwb
      have hvv : v = v₂ := by
        rw [hl.set] at hv'
        exact Except.ok.inj (hv'.symm.trans hv₂)
      subst hvv
      have hr : c.line r = c.lines (P.setIndexOf bk.addr) (v % P.assoc) := by
        rw [line, hl.set, hway]
      have hlost : (if (c.line r).valid && (c.line r).dirty then [(c.line r).tag] else []) =
          if p then [a] else [] := by
        rw [hr, ← hpe]
        cases p with
        | true => rw [if_pos rfl, if_pos rfl, (hpa rfl).1]
        | false => rfl
      change e.gone = c.gone ++ (if e.pendingEvict then [e.evictAddr] else []) ∧
        (e.pendingEvict = true → e.evictData.length = P.lineWords) ∧
        (if !(e.line r).valid && ((c.line r).valid && (c.line r).dirty) then [(c.line r).tag]
          else []) = (if e.pendingEvict then [e.evictAddr] else []) ∧ x = some r
      rw [hp, ha, hdt, hline, hv]
      refine ⟨?_, fun hpt => (hpa hpt).2, ?_, ?_⟩
      · rw [hgone]
        change c.gone ++ (c.line r).lost l = _
        rw [CacheLine.lost, hv, Bool.false_and, Bool.not_false, Bool.and_true, hlost]
      · rw [Bool.not_false, Bool.true_and, hlost]
      · rw [hx, ← hway, ← hl.set]

/-- The line a prefetch after the access of `addr` overwrites, if it overwrites one. -/
def prefetchVictim (addr : Addr) (isHit : Bool) (c : PipeCache P) : Option LineRef :=
  if P.prefetcher.present then
    match (P.prefetcher.probe c.pf addr isHit).1 with
    | none => none
    | some paddr =>
      if (c.findWay (P.setIndexOf paddr) (P.tagOf paddr)).isSome then none
      else (c.selectVictim (P.setIndexOf paddr)).toOption.map fun w => ⟨P.setIndexOf paddr, w⟩
  else none

theorem handlePrefetch_cases {addr : Addr} {isHit : Bool}
    (h : c.handlePrefetch now addr isHit = .ok c') :
    SameControl c c' ∧ c'.pendingEvict = c.pendingEvict ∧
      (c'.lines = c.lines ∧ c'.gone = c.gone ∨
        ∃ r l, c.prefetchVictim addr isHit = some r ∧ c'.gone = c.gone ++ (c.line r).lost l) := by
  unfold handlePrefetch at h
  split at h
  · cases h
    exact ⟨.refl c, rfl, .inl ⟨rfl, rfl⟩⟩
  · rename_i hp
    dsimp only at h
    split at h
    · cases h
      exact ⟨⟨rfl, rfl, rfl, rfl, rfl, rfl, rfl, rfl, rfl, rfl, rfl, id⟩, rfl, .inl ⟨rfl, rfl⟩⟩
    · rename_i paddr hprobe
      split at h
      · cases h
        exact ⟨⟨rfl, rfl, rfl, rfl, rfl, rfl, rfl, rfl, rfl, rfl, rfl, id⟩, rfl, .inl ⟨rfl, rfl⟩⟩
      · rename_i hfind
        obtain ⟨way, hway, h⟩ := bind_eq_ok.mp h
        obtain ⟨⟨repl, stamp⟩, _, h⟩ := bind_eq_ok.mp h
        cases h
        refine ⟨⟨rfl, rfl, rfl, rfl, rfl, rfl, rfl, rfl, rfl, rfl, rfl, fun hs => ?_⟩, rfl,
          .inr ⟨⟨P.setIndexOf paddr, way⟩, _, ?_, rfl⟩⟩
        · exact Sized.setLine (c := { c with
            pf := _, prefetchIssued := _, repl := repl }) hs rfl
        · have hsel : c.selectVictim (P.setIndexOf paddr) = .ok way := hway
          have hfind' : ¬(c.findWay (P.setIndexOf paddr) (P.tagOf paddr)).isSome = true := hfind
          rw [prefetchVictim, if_pos (by simpa using hp), hprobe]
          dsimp only
          rw [if_neg hfind', hsel]
          rfl

/-- A line that survives a hit: only its dirty bit may change. -/
structure Hit (now : Nat) (bk : CachePipeEntry) (c c' : PipeCache P) (outs : List CacheOut) :
    Prop where
  pipe : c'.pipe = c.pipe
  rWaiting : c'.rWaiting = c.rWaiting
  wWaiting : c'.wWaiting = c.wWaiting
  isShifted : c'.isShifted = c.isShifted
  isReplay : c'.isReplay = c.isReplay
  pendingFlush : c'.pendingFlush = c.pendingFlush
  pendingFillReq : c'.pendingFillReq = c.pendingFillReq
  served : c'.served = c.served
  gone : c'.gone = c.gone
  sized : c.Sized → c'.Sized
  resp : (P.writeBack && P.wbHitRespDelay != 0) = false →
    c'.schedHitTime = c.schedHitTime ∧ ∃ w, outs = [.cpuResp ⟨bk.addr, w, P.cacheId, bk.mop⟩]
  noReq : ∀ m, .memReq m ∉ outs

private theorem respond_cases (now : Nat) (t : CpuTrans) (c : PipeCache P) :
    ∃ time resp outs, c.respond now t = ({ c with
        schedHitTime := time, schedHitResp := resp }, outs) ∧ (∀ m, .memReq m ∉ outs) ∧
      ((P.writeBack && P.wbHitRespDelay != 0) = false →
        time = c.schedHitTime ∧ outs = [.cpuResp t]) := by
  unfold respond
  split
  · rename_i hd
    exact ⟨_, _, _, rfl, by simp, fun hn => absurd (hd.symm.trans hn) (by decide)⟩
  · exact ⟨c.schedHitTime, c.schedHitResp, _, rfl, by simp, fun _ => ⟨rfl, rfl⟩⟩

theorem handleHit_cases {bk : CachePipeEntry} {r : LineRef} {outs : List CacheOut}
    (hv : (c.line r).valid = true) (h : c.handleHit now bk r = .ok (c', outs)) :
    Hit now bk c c' outs := by
  unfold handleHit at h
  dsimp only at h
  split at h
  · rename_i hop
    obtain ⟨dt, _, h⟩ := bind_eq_ok.mp h
    obtain ⟨time, resp, o, heq, hno, himm⟩ := respond_cases now ⟨bk.addr, dt, P.cacheId, .read⟩
      ({ c with blockedUntil := now + 1 } : PipeCache P)
    rw [heq] at h
    cases h
    refine ⟨rfl, rfl, rfl, rfl, rfl, rfl, rfl, rfl, rfl, id, fun hd => ?_, hno⟩
    exact ⟨(himm hd).1, dt, by rw [(himm hd).2, hop]⟩
  · rename_i hop
    generalize ((~~~strbExtend bk.wrstrb &&& bk.wrdata) ||| (strbExtend bk.wrstrb &&& bk.wrdata))
      = dt at h
    obtain ⟨time, resp, o, heq, hno, himm⟩ := respond_cases now ⟨bk.addr, dt, P.cacheId, .write⟩
      (({ c with blockedUntil := now + 1 } : PipeCache P).setLine r (c.line r).setDirty)
    have h' : PipeCache.respond now ⟨bk.addr, dt, P.cacheId, .write⟩
        (({ c with blockedUntil := now + 1 } : PipeCache P).setLine r (c.line r).setDirty) =
          (c', outs) := Except.ok.inj h
    rw [heq] at h'
    cases h'
    refine ⟨rfl, rfl, rfl, rfl, rfl, rfl, rfl, rfl, ?_, fun hs => ?_, fun hd => ?_, hno⟩
    · change c.gone ++ (c.line r).lost (c.line r).setDirty = c.gone
      simp [CacheLine.lost, CacheLine.setDirty, hv]
    · exact Sized.setLine (c := { c with blockedUntil := now + 1 }) hs rfl
    · exact ⟨(himm hd).1, dt, by rw [(himm hd).2, hop]⟩

end PipeCache

end NpSim.Cache
