/- digest: The victims of the write-back cache: the line noted for eviction is the line that is
   emptied and refilled, and its block is written back for the miss that drove it out. -/

import NpSim.Cache.Dirty
import NpSim.Cache.Total

set_option autoImplicit false
set_option relaxedAutoImplicit false

namespace NpSim.Cache

open NpSim.Lib.Partial Relation

namespace CachePipeEntry

/-- If the request missed, the line it was given is the line that was looked at for eviction. -/
def Agrees (e : CachePipeEntry) : Prop :=
  e.missed = true → ∃ r, e.line = some r ∧ e.examined = some r

theorem evicts_of_hit {e : CachePipeEntry} (h : e.missed = false) : e.evicts = [] := by
  unfold evicts
  cases e.found with
  | none => rfl
  | some l =>
    dsimp only
    rw [h, Bool.false_and, if_neg Bool.false_ne_true]

theorem Fresh.evicts_eq {e : CachePipeEntry} (h : e.Fresh) : e.evicts = [] := evicts_of_hit h.2.2.1

theorem Fresh.agrees {e : CachePipeEntry} (h : e.Fresh) : e.Agrees := by
  intro hm
  rw [h.2.2.1] at hm
  cases hm

end CachePipeEntry

namespace PipeCache

variable {P : CacheParams} {c c' : PipeCache P} {now : Nat}

/-- The blocks that the requests so far have driven out, in their order. -/
def evicted (c : PipeCache P) : List Addr := c.log.flatMap CachePipeEntry.evicts

/-- What a call does to victims: the blocks driven out by requests are written, and the ways
agree. -/
structure Keeps (c : PipeCache P) (outs : List CacheOut) (c' : PipeCache P) : Prop where
  books : Books evicted c outs c'
  agrees : (∀ e ∈ c.log, e.Agrees) → ∀ e ∈ c'.log, e.Agrees

theorem Keeps.trans {d : PipeCache P} {outs outs' : List CacheOut} (h : Keeps c outs c')
    (h' : Keeps c' outs' d) : Keeps c (outs ++ outs') d :=
  ⟨h.books.trans h'.books, fun hc => h'.agrees (h.agrees hc)⟩

theorem keeps_of_log {outs : List CacheOut} (hl : c'.log = c.log) (ho : c'.owed = c.owed)
    (hw : memReqs .write outs = []) : Keeps c outs c' := by
  refine ⟨⟨⟨[], ?_, ?_⟩, ?_⟩, ?_⟩
  · rw [evicted, evicted, hl, List.append_nil]
  · rw [hw, ho, List.append_nil]
    rfl
  · rw [hw]
    intro m hm
    cases hm
  · rw [hl]
    exact id

private theorem mem_log_setTail {o : Option CachePipeEntry} {k : List CachePipeEntry}
    (hf : Framed c) (hp : c'.pipe = c.pipe.dropLast ++ [o]) (hs : c'.served = c.served ++ k)
    {e : CachePipeEntry} (he : e ∈ c'.log) : e ∈ c.log ∨ e ∈ k ++ o.toList := by
  rw [log, hs, pending_of_pipe hp] at he
  rw [log, pending_of_pipe (pipe_eq hf.len)]
  simp only [List.mem_append] at he ⊢
  rcases he with (he | he) | he | he
  · exact .inl (.inl he)
  · exact .inr (.inl he)
  · exact .inr (.inr he)
  · exact .inl (.inr (.inr he))

theorem mem_log_of_back {bk : CachePipeEntry} (hf : Framed c) (hb : c.back = some bk) :
    bk ∈ c.log := by
  rw [log, pending_of_pipe (pipe_eq hf.len), hb]
  exact List.mem_append_right _ List.mem_cons_self

private theorem keeps_setTail {bk : CachePipeEntry} {o : Option CachePipeEntry}
    {k : List CachePipeEntry} {d : List Addr} {outs : List CacheOut} (hf : Framed c)
    (hb : c.back = some bk) (hp : c'.pipe = c.pipe.dropLast ++ [o])
    (hs : c'.served = c.served ++ k)
    (hd : (k ++ o.toList).flatMap CachePipeEntry.evicts = bk.evicts ++ d)
    (hw : memReqs .write outs = []) (ho : c.owed ++ d = c'.owed)
    (hag : bk.Agrees → ∀ e ∈ k ++ o.toList, e.Agrees) : Keeps c outs c' := by
  refine ⟨⟨⟨d, log_setTail (fun _ hx => hx.evicts_eq) hf hb hp hs hd, ?_⟩, ?_⟩, ?_⟩
  · rw [hw, ho]
    rfl
  · rw [hw]
    intro m hm
    cases hm
  · intro hc e he
    rcases mem_log_setTail hf hp hs he with he | he
    · exact hc e he
    · exact hag (hc bk (mem_log_of_back hf hb)) e he

theorem TailLooked.keeps_hit {bk bk' : CachePipeEntry} {r : LineRef}
    (h : TailLooked bk c bk' r c') (hf : Framed c) (hb : c.back = some bk) (hx : bk.Fresh)
    (hq : c.Quiet) (hv : (c'.line r).valid = true) : Keeps c [] c' := by
  have hm : bk'.missed = false := by
    rw [h.entry, hv]
    rfl
  refine keeps_setTail (k := []) (d := []) hf hb h.pipe (by rw [h.served, List.append_nil]) ?_ rfl
    ?_ ?_
  · change [bk'].flatMap _ = _
    rw [List.flatMap_singleton, CachePipeEntry.evicts_of_hit hm, hx.evicts_eq]
    rfl
  · rw [owed, owed, h.pendingFillReq, hq.pendingFillReq]
    rfl
  · intro _ e he
    cases List.mem_singleton.mp he
    intro hm'
    rw [hm] at hm'
    cases hm'

theorem TailLooked.keeps_miss {bk bk' : CachePipeEntry} {r : LineRef}
    (h : TailLooked bk c bk' r c') (hf : Framed c) (hb : c.back = some bk) (hx : bk.Fresh)
    (hq : c.Quiet) (hv : (c'.line r).valid = false) (hwb : P.writeBack = true) (b : Nat) :
    Keeps c [] { c' with pendingFillReq := true, blockedUntil := b } := by
  obtain ⟨_, _, hev, hex⟩ := h.miss hv hwb
  have hline : bk'.line = some r := by
    rw [h.entry]
  have hserved : c'.served = c.served ++ [] := by
    rw [h.served, List.append_nil]
  refine keeps_setTail (k := []) (d := bk'.evicts) hf hb h.pipe hserved ?_ rfl ?_ ?_
  · change [bk'].flatMap _ = _
    rw [List.flatMap_singleton, hx.evicts_eq]
    rfl
  · rw [owed, hq.pendingFillReq, hev]
    rfl
  · intro _ e he
    cases List.mem_singleton.mp he
    intro _
    exact ⟨r, hline, hex⟩

private theorem WellFormed.finishUpdate_keeps {outs : List CacheOut} (h : WellFormed c)
    (hwb : P.writeBack = true) (hb : c.back = none) (hx : c.finishUpdate now = .ok (c', outs)) :
    Keeps c outs c' := by
  obtain ⟨hw, _, _, hq⟩ := h.shift hb c.isShifted
  have hlog : c.shifted.log = c.log := by
    have hpipe := pipe_eq h.len
    rw [hb] at hpipe
    rw [log, log, pending_of_pipe hpipe, pending, shifted, List.reverse_cons,
      List.filterMap_append]
    exact congrArg (c.served ++ ·) (List.append_nil _)
  unfold PipeCache.finishUpdate at hx
  split at hx
  · rename_i hf
    cases hx
    simp only [Bool.and_eq_true] at hf
    have hpend : c.pending = [] := filterMap_id_nil (by simpa using hf.2)
    have hpend' : (c.handleFlush now).pending = [] :=
      filterMap_id_nil (by
        rw [List.all_reverse, List.all_eq_true]
        intro o ho
        rw [List.eq_of_mem_replicate ho]
        rfl)
    refine keeps_of_log ?_ ?_ rfl
    · rw [log, log, hpend, hpend']
      rfl
    · rw [owed, owed, hq.pendingFillReq]
      rfl
  · dsimp only at hx
    split at hx
    · rename_i bk hbk
      split at hx
      · rename_i hlook
        obtain ⟨⟨bk', d⟩, hd, hx⟩ := bind_eq_ok.mp hx
        cases hx
        obtain ⟨r, ht⟩ := accessTail_looked hd
        have hq₁ : c.shifted.Quiet :=
          ⟨hq.rWaiting, hq.wWaiting, hq.pendingFillReq, hq.isReplay⟩
        have hfresh := hw.fresh_of_line hbk hlook.1
        have hshift : Keeps c [] c.shifted := keeps_of_log hlog rfl rfl
        exact hshift.trans (ht.keeps_miss hw.toFramed hbk hfresh.1 hq₁ (ht.probed hlook.2) hwb _)
      · cases hx
        exact keeps_of_log hlog rfl rfl
    · cases hx
      exact keeps_of_log hlog rfl rfl

/-- A step of the miss of the tail entry: the prepared write goes out before the refill. -/
private theorem missUpdate_keeps (now : Nat) {bk : CachePipeEntry} (hf : Framed c)
    (hb : c.back = some bk) (hfill : c.pendingFillReq = true)
    (hlen : c.pendingEvict = true → c.evictData.length = P.lineWords) :
    Keeps c (c.missUpdate now bk).2 (c.missUpdate now bk).1 := by
  unfold missUpdate
  rw [if_neg (by simp [hfill])]
  split
  · rename_i hev
    split
    · exact keeps_of_log rfl rfl rfl
    · refine ⟨⟨⟨[], (List.append_nil _).symm, ?_⟩, ?_⟩, id⟩
      · simp [owed, hfill, hev, memReqs]
      · intro m hm
        simp only [memReqs, List.filterMap_cons, List.filterMap_nil, if_true,
          List.mem_singleton] at hm
        rw [hm]
        exact ⟨hlen hev, by rw [hlen hev]⟩
  · rename_i hev
    split
    · exact keeps_of_log rfl rfl rfl
    · refine keeps_setTail (k := []) (d := []) (o := some { bk with refills := bk.refills + 1 }) hf
        hb rfl (List.append_nil _).symm ?_ rfl ?_ ?_
      · change [_].flatMap _ = _
        rw [List.flatMap_singleton, List.append_nil]
        rfl
      · simp [owed, hev, setBack]
      · intro hag e he
        cases List.mem_singleton.mp he
        exact hag

theorem WellFormed.serve_keeps {outs : List CacheOut} (h : WellFormed c)
    (hwb : P.writeBack = true) (hx : c.serve now = .ok (c', outs)) : Keeps c outs c' := by
  cases h.serve_cases hx with
  | finish hb hx => exact h.finishUpdate_keeps hwb hb hx
  | hit bk₀ bk r e hb hlook hline heff hr hg hfill hwait hw hx =>
    obtain ⟨d, resp, f, o, hd, hf, hk, rfl, hwf, hnone, _⟩ := hr.hitUpdate hx
    have hlooked : Keeps c [] e := by
      unfold lookTail at hlook
      split at hlook
      · rename_i hnl
        obtain ⟨r', ht⟩ := accessTail_looked hlook
        have hrr : r' = r := by
          rw [ht.entry] at hline
          exact Option.some.inj hline
        subst hrr
        obtain ⟨hfresh, hq⟩ := h.fresh_of_line hb hnl
        exact ht.keeps_hit h.toFramed hb hfresh hq hr.hv
      · cases hlook
        exact keeps_of_log rfl rfl rfl
    have hh := handleHit_cases hr.hv hd
    obtain ⟨hs, _⟩ := prefetchAfter_cases hf
    have hretire : Keeps { e with isReplay := false } resp (f.retire bk) := by
      refine keeps_setTail (k := [bk]) (o := none) (d := []) hr.toFramed hr.hb ?_ ?_ ?_
        (memReqs_of_noReq hh.noReq) ?_ ?_
      · change f.pipe.dropLast ++ [none] = _
        rw [hs.pipe, hh.pipe]
      · change f.served ++ [bk] = _
        rw [hs.served, hh.served]
      · change [bk].flatMap _ = _
        rw [List.flatMap_singleton, List.append_nil]
      · rw [owed, hr.hq.pendingFillReq, owed]
        have hpf : (f.retire bk).pendingFillReq = false :=
          hs.pendingFillReq.trans (hh.pendingFillReq.trans hr.hq.pendingFillReq)
        rw [hpf]
        rfl
      · intro hag x hx
        cases List.mem_singleton.mp hx
        exact hag
    have hreset : Keeps e [] { e with isReplay := false } := keeps_of_log rfl rfl rfl
    have hall : Keeps c resp (f.retire bk) := hlooked.trans (hreset.trans hretire)
    exact hall.trans (hwf.finishUpdate_keeps hwb hnone hk)
  | start bk bk' r e hb hf hq ht hv heq ho =>
    rw [heq, ho]
    exact ht.keeps_miss h.toFramed hb hf hq hv hwb _
  | miss bk r hb hh hv hm h0 hfill hr hp he hlen heq =>
    have hk := missUpdate_keeps now h.toFramed hb hfill (hlen hwb)
    rw [← heq] at hk
    exact hk

theorem WellFormed.doUpdate_keeps {outs : List CacheOut} (h : WellFormed c)
    (hwb : P.writeBack = true) (hx : c.doUpdate now = .ok (c', outs)) : Keeps c outs c' := by
  rcases doUpdate_cases hx with ⟨_, rfl, rfl⟩ | ⟨_, o, hd, rfl⟩
  · exact keeps_of_log rfl rfl rfl
  · obtain ⟨hw, _⟩ := h.deliverDeferred now
    have hdef : Keeps c (c.deliverDeferred now).2 (c.deliverDeferred now).1 := by
      unfold PipeCache.deliverDeferred
      split <;> exact keeps_of_log rfl rfl rfl
    exact hdef.trans (hw.serve_keeps hwb hd)

theorem handleFill_lines {blk : LineRef} {addr : Addr} {ret : List Word}
    (hx : c.handleFill now blk addr ret = .ok c') :
    blk.set = P.setIndexOf addr ∧ blk.way < P.assoc ∧ SameControl c c' ∧
      ∃ l : CacheLine, l.valid = true ∧ l.tag = P.tagOf addr ∧
        ∀ s w, c'.lines s w = if s = blk.set ∧ w = blk.way then l else c.lines s w := by
  unfold handleFill at hx
  dsimp only at hx
  obtain ⟨hset, hx⟩ := require_bind_eq_ok.mp hx
  obtain ⟨⟨repl, stamp⟩, _, hx⟩ := bind_eq_ok.mp hx
  cases hx
  refine ⟨hset.1, hset.2, ⟨rfl, rfl, rfl, rfl, rfl, rfl, rfl, rfl, rfl, rfl, rfl, fun hs => ?_⟩,
    { ((c.line blk).activate now).setTag (P.tagOf addr) with stamp := stamp }, rfl, rfl, ?_⟩
  · exact Sized.setLine (c := { c with repl := repl }) hs rfl
  · intro s w
    exact lines_setLine { c with repl := repl } blk _ s w

theorem recvMemResp_fills {m : MemTrans} (hop : m.mop = .read)
    (hx : c.recvMemResp now m = .ok c') :
    c.rWaiting = true ∧ c'.pipe = c.pipe ∧ c'.rWaiting = false ∧
      ∃ bk r, c.back = some bk ∧ bk.line = some r ∧
      r.set = P.setIndexOf m.addr ∧ r.way < P.assoc ∧
      ∃ l : CacheLine, l.valid = true ∧ l.tag = P.tagOf m.addr ∧
        ∀ s w, c'.lines s w = if s = r.set ∧ w = r.way then l else c.lines s w := by
  obtain ⟨hr, bk, r, d, hbk, hline, hd, rfl⟩ := (recvRead_eq_ok hop).mp hx
  obtain ⟨hset, hway, hs, hfill⟩ := handleFill_lines hd
  exact ⟨hr, hs.pipe, hs.rWaiting, bk, r, hbk, hline, hset, hway, hfill⟩

theorem recvMemResp_keeps {m : MemTrans} (hx : c.recvMemResp now m = .ok c') : Keeps c [] c' := by
  rcases recvMemResp_cases hx with ⟨_, _, _, _, _, _, _, _, _, rfl⟩ | ⟨_, _, rfl⟩
  · exact keeps_of_log rfl rfl rfl
  · exact keeps_of_log rfl rfl rfl

theorem enqueue_keeps {e : CachePipeEntry} (he : e.Fresh) (hx : c.enqueue now e = .ok c') :
    Keeps c [] c' := by
  obtain ⟨_, rest, hpipe, rfl⟩ := enqueue_eq_ok.mp hx
  have hpend : c.pending = rest.reverse.filterMap id := by
    rw [pending, hpipe, List.reverse_cons, List.filterMap_append]
    exact List.append_nil _
  have hlog : ({ c with
      pipe := some e :: rest, blockedUntil := now + 1, isShifted := false } :
        PipeCache P).log = c.log ++ [e] := by
    rw [log, log, hpend, pending, List.reverse_cons, List.filterMap_append, ← List.append_assoc]
    rfl
  refine ⟨⟨⟨[], ?_, ?_⟩, ?_⟩, ?_⟩
  · rw [evicted, evicted, hlog, List.flatMap_append, List.flatMap_singleton, he.evicts_eq]
  · rw [List.append_nil]
    rfl
  · intro m hm
    cases hm
  · rw [hlog]
    intro hc x hx
    rcases List.mem_append.mp hx with hx | hx
    · exact hc x hx
    · cases List.mem_singleton.mp hx
      exact he.agrees

private theorem WellFormed.deliverDeferred_eq (hi : Immediate P) (h : WellFormed c) :
    c.deliverDeferred now = (c, []) := by
  unfold PipeCache.deliverDeferred
  rw [h.sched hi]
  exact if_neg fun htop => ENat.natCast_ne_top now (top_le_iff.mp htop)

theorem WellFormed.doUpdate_evicts {outs : List CacheOut} (hi : Immediate P)
    (hwb : P.writeBack = true) (h : WellFormed c) (hdue : c.nextUpdate ≤ now) {bk : CachePipeEntry}
    (hback : c.back = some bk) (hnew : bk.line = none) (hprobe : c.probe bk.addr = false)
    (hdirty : ∀ w < P.assoc, (c.lines (P.setIndexOf bk.addr) w).valid = true ∧
      (c.lines (P.setIndexOf bk.addr) w).dirty = true)
    (hx : c.doUpdate now = .ok (c', outs)) :
    c'.pendingFillReq = true ∧ c'.pendingEvict = true ∧ c'.blockedUntil = now + 1 := by
  rcases doUpdate_cases hx with ⟨hn, _⟩ | ⟨_, o, hd, _⟩
  · exact absurd hdue hn
  rw [h.deliverDeferred_eq hi] at hd
  cases h.serve_cases hd with
  | finish hb _ => cases hback.symm.trans hb
  | hit bk₀ bk₁ r e hb hlook hline _ hr =>
    cases hback.symm.trans hb
    obtain ⟨r', ht⟩ := accessTail_looked ((if_pos hnew).symm.trans hlook)
    have hsame : r' = r := by
      rw [ht.entry] at hline
      exact Option.some.inj hline
    have hmiss := ht.probed hprobe
    rw [hsame] at hmiss
    exact absurd (hmiss.symm.trans hr.hv) (by decide)
  | start bk₀ bk' r e hb _ _ ht hv heq =>
    cases hback.symm.trans hb
    obtain ⟨_, _, hev, _⟩ := ht.miss hv hwb
    have hvictim : (c.line r).valid = true ∧ (c.line r).dirty = true := by
      unfold line
      rw [ht.set]
      exact hdirty r.way ht.way
    have hdriven : bk'.evicts = [(c.line r).tag] := by
      rw [ht.entry, CachePipeEntry.evicts]
      dsimp only
      rw [hv, hvictim.1, hvictim.2]
      rfl
    rw [heq]
    refine ⟨rfl, ?_, rfl⟩
    by_contra hno
    rw [if_neg hno, hdriven] at hev
    cases hev
  | miss bk₀ r hb hh =>
    cases hback.symm.trans hb
    cases hnew.symm.trans hh.line

theorem WellFormed.doUpdate_writes {outs : List CacheOut} (hi : Immediate P) (h : WellFormed c)
    (hfill : c.pendingFillReq = true) (hevict : c.pendingEvict = true)
    (hblocked : c.blockedUntil ≤ now) (hx : c.doUpdate now = .ok (c', outs)) :
    memReqs .write outs ≠ [] := by
  have hdue : c.nextUpdate ≤ now := by
    unfold nextUpdate
    rw [hfill, Bool.not_true, Bool.and_false, if_neg Bool.false_ne_true]
    exact (min_le_left _ _).trans (by exact_mod_cast hblocked)
  rcases doUpdate_cases hx with ⟨hn, _⟩ | ⟨_, o, hd, rfl⟩
  · exact absurd hdue hn
  rw [h.deliverDeferred_eq hi] at hd ⊢
  cases h.serve_cases hd with
  | finish hb _ =>
    obtain ⟨_, _, _, hq⟩ := h.shift hb c.isShifted
    exact absurd (hfill.symm.trans hq.pendingFillReq) (by decide)
  | hit _ _ _ _ _ _ _ _ _ _ hno => exact absurd (hfill.symm.trans hno) (by decide)
  | start _ _ _ _ _ _ hq => exact absurd (hfill.symm.trans hq.pendingFillReq) (by decide)
  | miss bk r hb _ _ _ _ _ _ _ he _ heq =>
    have hw : c.wWaiting = false := by
      by_contra hw
      exact absurd (hevict.symm.trans (he (Bool.eq_true_of_not_eq_false hw))) (by decide)
    unfold missUpdate at heq
    rw [hfill, hevict, hw] at heq
    cases heq
    exact List.cons_ne_nil _ _

end PipeCache

namespace Bench

variable {P : CacheParams}

/-- The victims of demand misses. The line examined by `save_evict_info` is the one the request
was given, and a refill fills that one. The writes sent, and the one prepared, are the blocks of
the valid dirty lines that misses have found, in the order of the requests: a hit causes none, nor
does a clean or invalid victim. Once a refill is requested no write is outstanding. -/
structure Victims (b : Bench P) : Prop where
  agree : ∀ e ∈ b.cache.log, e.missed = true → ∃ r, e.line = some r ∧ e.examined = some r
  refilled : ∀ (now : Nat) (m : MemTrans) (c : PipeCache P), m.mop = .read →
    b.cache.recvMemResp now m = .ok c → ∃ e r, b.cache.back = some e ∧ e.missed = true ∧
      e.line = some r ∧ (b.cache.line r).valid = false ∧ (c.line r).valid = true ∧
      ∀ s w, ¬(s = r.set ∧ w = r.way) → c.lines s w = b.cache.lines s w
  written : (memReqs .write b.sent).map (·.addr) ++ b.cache.owed =
    b.cache.log.flatMap CachePipeEntry.evicts
  full : ∀ m ∈ memReqs .write b.sent,
    m.data.length = P.lineBytes / 4 ∧ m.bstLen = P.lineBytes / 4
  order : ∀ e, b.cache.back = some e → e.refills ≠ 0 →
    b.cache.owed = [] ∧ ∀ m ∈ b.outstanding, m.mop ≠ .write

/-- The part of it that every step preserves. -/
private structure Accounted (b : Bench P) : Prop where
  written : (memReqs .write b.sent).map (·.addr) ++ b.cache.owed = b.cache.evicted
  full : ∀ m ∈ memReqs .write b.sent,
    m.data.length = P.lineWords ∧ m.bstLen = P.lineWords % 2 ^ 16
  agrees : ∀ e ∈ b.cache.log, e.Agrees

private theorem Accounted.call {b b' : Bench P} {outs : List CacheOut} (h : Accounted b)
    (hk : PipeCache.Keeps b.cache outs b'.cache) (hs : b'.sent = b.sent ++ outs) :
    Accounted b' := by
  obtain ⟨d, hd, ho⟩ := hk.books.blocks
  refine ⟨?_, ?_, hk.agrees h.agrees⟩
  · rw [hd, ← h.written, List.append_assoc, ho, hs, memReqs_append, List.map_append,
      List.append_assoc]
  · intro m hm
    rw [hs, memReqs_append, List.mem_append] at hm
    exact hm.elim (h.full m) (hk.books.full m)

private theorem Step.accounted {b b' : Bench P} {l : Label} (hwb : P.writeBack = true)
    (hs : Step b l b') (hb : Sound b) (h : Accounted b) : Accounted b' := by
  have hfresh : ∀ (addr : Addr) (op : MemRWOpt) (data : Word) (strb : BitVec 8),
      ({ addr := addr, mop := op, wrdata := data, wrstrb := strb } : CachePipeEntry).Fresh :=
    fun _ _ _ _ => ⟨rfl, rfl, rfl, rfl⟩
  cases hs with
  | read addr hx =>
    exact h.call (PipeCache.enqueue_keeps (hfresh ..) hx) (List.append_nil _).symm
  | write addr data mask _ hx =>
    unfold PipeCache.writeReq at hx
    rw [if_pos hwb] at hx
    obtain ⟨d, hd, hx⟩ := bind_eq_ok.mp hx
    cases hx
    exact h.call (PipeCache.enqueue_keeps (hfresh ..) hd) (List.append_nil _).symm
  | update hx => exact h.call (hb.wf.doUpdate_keeps hwb hx) rfl
  | answer m data hm hx =>
    exact h.call (PipeCache.recvMemResp_keeps hx) (List.append_nil _).symm
  | flushAll => exact ⟨h.written, h.full, h.agrees⟩
  | resetStats => exact ⟨h.written, h.full, h.agrees⟩
  | tick => exact ⟨h.written, h.full, h.agrees⟩

private theorem accounted_init : Accounted ({} : Bench P) := by
  refine ⟨?_, (fun m hm => by cases hm), ?_⟩
  · change [] = ({} : PipeCache P).evicted
    rw [PipeCache.evicted, PipeCache.log_init]
    rfl
  · change ∀ e ∈ ({} : PipeCache P).log, e.Agrees
    rw [PipeCache.log_init]
    intro e he
    cases he

private theorem tail_missed {b : Bench P} (h : Sound b) (hr : b.cache.rWaiting = true) :
    ∃ e r, b.cache.back = some e ∧ e.missed = true ∧ e.line = some r ∧
      (b.cache.line r).valid = false := by
  cases h.wf.tail with
  | empty _ hq => exact absurd (hr.symm.trans hq.rWaiting) (by decide)
  | fresh _ _ _ hq => exact absurd (hr.symm.trans hq.rWaiting) (by decide)
  | missed _ _ _ _ _ _ _ _ hr' => exact absurd (hr.symm.trans hr') (by decide)
  | filling bk r hb hh hv hm => exact ⟨bk, r, hb, hm, hh.line, hv⟩
  | filled _ _ _ _ _ _ _ _ hr' => exact absurd (hr.symm.trans hr') (by decide)

private theorem refill_last {b : Bench P} (h : Sound b) {e : CachePipeEntry}
    (he : b.cache.back = some e) (hn : e.refills ≠ 0) :
    b.cache.owed = [] ∧ b.cache.wWaiting = false := by
  have hsame : ∀ {x : CachePipeEntry}, b.cache.back = some x → x = e := by
    intro x hx
    exact Option.some.inj (hx.symm.trans he)
  have hnone : b.cache.pendingFillReq = false → b.cache.owed = [] := by
    intro hf
    rw [PipeCache.owed, hf]
    rfl
  cases h.wf.tail with
  | empty hb _ => exact absurd (he.symm.trans hb) (by simp)
  | fresh bk hb hf _ => exact absurd (hsame hb ▸ hf.2.2.2) hn
  | missed bk r hb _ _ _ h0 => exact absurd (hsame hb ▸ h0) hn
  | filling bk r hb _ _ _ _ hfill _ _ hw => exact ⟨hnone hfill, hw⟩
  | filled bk r hb _ _ _ _ hfill _ _ hw => exact ⟨hnone hfill, hw⟩

private theorem Sound.refilled {b : Bench P} (h : Sound b) {now : Nat} {m : MemTrans}
    {c : PipeCache P} (hop : m.mop = .read) (hx : b.cache.recvMemResp now m = .ok c) :
    ∃ e r, b.cache.back = some e ∧ e.missed = true ∧ e.line = some r ∧
      (b.cache.line r).valid = false ∧ (c.line r).valid = true ∧
      ∀ s w, ¬(s = r.set ∧ w = r.way) → c.lines s w = b.cache.lines s w := by
  obtain ⟨hr, _, _, bk, r, hbk, hline, _, _, l, hl, _, hlines⟩ :=
    PipeCache.recvMemResp_fills hop hx
  obtain ⟨e, r', he, hm, hr', hv⟩ := tail_missed h hr
  cases Option.some.inj (he.symm.trans hbk)
  cases Option.some.inj (hr'.symm.trans hline)
  refine ⟨bk, r, hbk, hm, hline, hv, ?_, ?_⟩
  · rw [PipeCache.line, hlines, if_pos ⟨rfl, rfl⟩]
    exact hl
  · intro s w hne
    rw [hlines, if_neg hne]

private theorem Sound.written_first {b : Bench P} (h : Sound b) {e : CachePipeEntry}
    (he : b.cache.back = some e) (hn : e.refills ≠ 0) :
    b.cache.owed = [] ∧ ∀ m ∈ b.outstanding, m.mop ≠ .write := by
  obtain ⟨ho, hw⟩ := refill_last h he hn
  refine ⟨ho, ?_⟩
  have hlen := h.waitsWrite
  rw [PipeCache.writesOwed, hw] at hlen
  intro m hm hop
  have hmem : m ∈ b.outstanding.filter (·.mop = .write) :=
    List.mem_filter.mpr ⟨hm, by simpa using hop⟩
  rw [List.eq_nil_of_length_eq_zero hlen] at hmem
  cases hmem

private theorem Reachable.accounted {b : Bench P} (hwb : P.writeBack = true) (h : Reachable b) :
    Accounted b :=
  (invariant_of_run (I := fun b => Sound b ∧ Accounted b)
    (fun _ _ hs hb => ⟨hs.choose_spec.sound hb.1, hs.choose_spec.accounted hwb hb.1 hb.2⟩)
    ⟨sound_init, accounted_init⟩ h).2

private theorem Reachable.truncated {b : Bench P} (hwb : P.writeBack = true) (h : Reachable b)
    (hlong : 2 ^ 18 ≤ P.lineBytes) : ∀ m ∈ memReqs .write b.sent, m.bstLen ≠ P.lineBytes / 4 := by
  intro m hm
  have hwords : P.lineWords = P.lineBytes / 4 := rfl
  rw [((h.accounted hwb).full m hm).2, hwords]
  omega

/-- With lines whose words `bst_len` can count, the victim written back is the victim replaced; with
longer lines no write has the length of its line. -/
theorem Reachable.victims {b : Bench P} (hwb : P.writeBack = true) (h : Reachable b) :
    (P.lineBytes < 2 ^ 18 → b.Victims) ∧
      (2 ^ 18 ≤ P.lineBytes → ∀ m ∈ memReqs .write b.sent, m.bstLen ≠ P.lineBytes / 4) := by
  refine ⟨fun hfit => ?_, h.truncated hwb⟩
  have ha := h.accounted hwb
  refine ⟨ha.agrees, fun _ _ _ hop hx => h.sound.refilled hop hx, ha.written, fun m hm => ?_,
    fun _ he hn => h.sound.written_first he hn⟩
  obtain ⟨hdata, hbst⟩ := ha.full m hm
  have hwords : P.lineWords = P.lineBytes / 4 := rfl
  exact ⟨hdata, by rw [hbst, Nat.mod_eq_of_lt (by omega), hwords]⟩

/-- A miss whose victims are all valid and dirty leads to a write. -/
theorem Reachable.write_sent {b : Bench P} (hP : P.Total) (hi : PipeCache.Immediate P)
    (hwb : P.writeBack = true) (h : Reachable b) (hdue : b.cache.nextUpdate ≤ b.now)
    {bk : CachePipeEntry} (hback : b.cache.back = some bk) (hnew : bk.line = none)
    (hprobe : b.cache.probe bk.addr = false)
    (hdirty : ∀ w < P.assoc, (b.cache.lines (P.setIndexOf bk.addr) w).valid = true ∧
      (b.cache.lines (P.setIndexOf bk.addr) w).dirty = true) :
    ∃ b' : Bench P, Reachable b' ∧ memReqs .write b'.sent ≠ [] := by
  obtain ⟨⟨c₁, o₁⟩, hx₁⟩ : ∃ x, b.cache.doUpdate b.now = .ok x := h.sound.wf.doUpdate_ok hP hi
  obtain ⟨hfill, hevict, hblocked⟩ :=
    h.sound.wf.doUpdate_evicts hi hwb hdue hback hnew hprobe hdirty hx₁
  have hs₁ : Step b .update _ := .update hx₁
  have hs₂ := Step.tick (b := { b with
    cache := c₁, sent := b.sent ++ o₁, outstanding := b.outstanding ++ requests o₁ })
  have h₂ : Reachable _ := (h.tail ⟨_, hs₁⟩).tail ⟨_, hs₂⟩
  obtain ⟨⟨c₂, o₂⟩, hx₂⟩ : ∃ x, c₁.doUpdate (b.now + 1) = .ok x := h₂.sound.wf.doUpdate_ok hP hi
  have hwrite := h₂.sound.wf.doUpdate_writes hi hfill hevict hblocked.le hx₂
  refine ⟨_, h₂.tail ⟨_, .update hx₂⟩, ?_⟩
  change memReqs .write ((b.sent ++ o₁) ++ o₂) ≠ []
  rw [memReqs_append]
  exact fun hnil => hwrite (List.append_eq_nil_iff.mp hnil).2

/-- A second store to the same line drives block 0 out, and the victim is accounted for. -/
theorem victims_conflict : ∃ b : Bench (twoLines nullPrefetcher), b.Victims ∧
    b.cache.log.map CachePipeEntry.evicts = [[], [0]] ∧
    (memReqs .write b.sent).map (·.addr) = [0] := by
  have hrun : (performAll (fun _ => true) ({} : Bench (twoLines nullPrefetcher))
      (store ++ [.write 8, .tick, .update, .tick, .update])).map (fun b =>
        (b.cache.log.map CachePipeEntry.evicts, (memReqs .write b.sent).map (·.addr))) =
        some ([[], [0]], [0]) := by
    decide +kernel
  obtain ⟨b, hb, hx⟩ := Option.map_eq_some_iff.mp hrun
  have hlog := Prod.mk.inj hx
  exact ⟨b, (Reachable.victims rfl (reachable_of_performAll hb)).1 (by decide), hlog.1, hlog.2⟩

def longLines : CacheParams :=
  { twoLines nullPrefetcher with
    lineBytes := 2 ^ 18
    lineBytes_pow2 := ⟨18, rfl⟩ }

/-- The second store to set 0 drives out a line whose length is written as 0. -/
theorem victims_truncated : ∃ b : Bench longLines, Reachable b ∧ ¬b.Victims := by
  have hrun : (performAll (fun _ => true) ({} : Bench longLines)
      (store ++ [.write 0x80000, .tick])).map (fun b =>
        (b.cache.back.map fun e => (e.line, e.addr, b.cache.probe e.addr),
          decide (b.cache.nextUpdate ≤ (b.now : Tick)),
          (b.cache.lines 0 0).valid, (b.cache.lines 0 0).dirty)) =
        some (some (none, 0x80000, false), true, true, true) := by
    decide +kernel
  obtain ⟨b, hb, hx⟩ := Option.map_eq_some_iff.mp hrun
  simp only [Prod.mk.injEq, decide_eq_true_eq] at hx
  obtain ⟨hback, hdue, hvalid, hdirty⟩ := hx
  obtain ⟨bk, hbk, hx⟩ := Option.map_eq_some_iff.mp hback
  simp only [Prod.mk.injEq] at hx
  obtain ⟨hnew, haddr, hprobe⟩ := hx
  have hset : longLines.setIndexOf bk.addr = 0 := by
    rw [haddr]
    decide
  have htotal : longLines.Total := ⟨by decide, lru_total (by decide)⟩
  obtain ⟨b', hb', hsent⟩ := Reachable.write_sent htotal rfl rfl (reachable_of_performAll hb) hdue
    hbk hnew hprobe fun w hw => by
      obtain rfl : w = 0 := Nat.lt_one_iff.mp hw
      rw [hset]
      exact ⟨hvalid, hdirty⟩
  refine ⟨b', hb', fun hv => ?_⟩
  obtain ⟨m, hm⟩ := List.exists_mem_of_ne_nil _ hsent
  exact hb'.truncated rfl (by decide) m hm (hv.full m hm).2

end Bench

end NpSim.Cache
