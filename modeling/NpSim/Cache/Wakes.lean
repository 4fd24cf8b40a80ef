/- digest: A cache that is not ready becomes ready in an update, and that update acknowledges it. -/

import NpSim.Cache.Tail

set_option autoImplicit false
set_option relaxedAutoImplicit false

namespace NpSim.Cache.PipeCache

open NpSim.Lib.Partial

variable {P : CacheParams} {c c' : PipeCache P} {now : Nat}

/-- The cache takes no request, and an update of tick `n` that changes this is still to come: an
entry is at the front, or no update is due. -/
def Busy (n : Nat) (c : PipeCache P) : Prop :=
  c.isShifted = false ∧ ((∃ e, c.pipe.head? = some (some e)) ∨ (n : Tick) < c.nextUpdate)

theorem Busy.not_ready (h : Busy now c) : c.isReady.1 = false := by
  unfold isReady
  rw [h.1]
  cases P.writeBack <;> rfl

private theorem head_setTail {l : List (Option CachePipeEntry)} {o : Option CachePipeEntry}
    (hl : 1 < l.length) : (l.dropLast ++ [o]).head? = l.head? := by
  cases l with
  | nil => exact absurd hl (by simp)
  | cons a l =>
    cases l with
    | nil => exact absurd hl (by simp)
    | cons b l => rfl

private theorem nextUpdate_of_fill (hs : c.schedHitTime = infTime)
    (hf : c.pendingFillReq = true) (hb : c.blockedUntil = now + 1) :
    (now : Tick) < c.nextUpdate := by
  unfold nextUpdate
  rw [hf, hs, hb, Bool.not_true, Bool.and_false, if_neg (by decide)]
  exact lt_min (by exact_mod_cast Nat.lt_succ_self now) (ENat.natCast_lt_top now)

private theorem finishUpdate_busy (hi : Immediate P) (h : WellFormed c)
    (hsh : c.isShifted = false) {e : CachePipeEntry} (hf : c.pipe.head? = some (some e))
    {outs : List CacheOut} (hx : c.finishUpdate now = .ok (c', outs)) :
    Busy now c' ∨ .cpuAck ⟨P.cacheId, .read⟩ ∈ outs := by
  unfold finishUpdate at hx
  split at hx
  · rename_i hall
    have hmem : some e ∈ c.pipe := List.mem_of_head? hf
    have := List.all_eq_true.mp (Bool.and_eq_true_iff.mp hall).2 _ hmem
    cases this
  · dsimp only at hx
    split at hx
    · split at hx
      · obtain ⟨⟨bk', d⟩, hd, hx⟩ := bind_eq_ok.mp hx
        cases hx
        obtain ⟨r, ht⟩ := accessTail_looked hd
        have hsched : d.schedHitTime = infTime := ht.schedHitTime.trans (h.sched hi)
        exact .inl ⟨ht.isShifted.trans hsh, .inr (nextUpdate_of_fill hsched rfl rfl)⟩
      · cases hx
        exact .inr List.mem_cons_self
    · cases hx
      exact .inr List.mem_cons_self

theorem WellFormed.doUpdate_busy (hi : Immediate P) (hd : 1 < P.pipeDepth) (h : WellFormed c)
    (hb : Busy now c) {outs : List CacheOut} (hx : c.doUpdate now = .ok (c', outs)) :
    Busy now c' ∨ .cpuAck ⟨P.cacheId, .read⟩ ∈ outs := by
  rcases doUpdate_cases hx with ⟨_, rfl, _⟩ | ⟨hdue, o, hs, rfl⟩
  · exact .inl hb
  obtain ⟨hsh, hfront⟩ := hb
  obtain ⟨e, he⟩ := hfront.resolve_right (not_lt.mpr hdue)
  have hsame : (c.deliverDeferred now).1.isShifted = c.isShifted ∧
      (c.deliverDeferred now).1.pipe = c.pipe := by
    unfold PipeCache.deliverDeferred
    split <;> exact ⟨rfl, rfl⟩
  have hw := (h.deliverDeferred now).1
  generalize (c.deliverDeferred now).1 = d at hs hsame hw
  rw [← hsame.1] at hsh
  rw [← hsame.2] at he
  have hlen : 1 < d.pipe.length := hw.len.symm ▸ hd
  have hack : Busy now c' ∨ .cpuAck ⟨P.cacheId, .read⟩ ∈ o := by
    cases hw.serve_cases hs with
    | finish hb hx => exact finishUpdate_busy hi hw hsh he hx
    | hit bk₀ bk r f hb hlook hline _ hr _ _ _ _ hx =>
      obtain ⟨g, resp, k, o', hg, hk, hfin, rfl, hwk, _⟩ := hr.hitUpdate hx
      have hhit := handleHit_cases hr.hv hg
      have hpre := (prefetchAfter_cases hk).1
      have hf : f.isShifted = d.isShifted ∧ f.pipe.head? = d.pipe.head? := by
        unfold lookTail at hlook
        split at hlook
        · obtain ⟨r', ht⟩ := accessTail_looked hlook
          exact ⟨ht.isShifted, by rw [ht.pipe, head_setTail hlen]⟩
        · cases hlook
          exact ⟨rfl, rfl⟩
      have hlenf : 1 < k.pipe.length := by
        rw [hpre.pipe, hhit.pipe, hr.len]
        exact hd
      have hshk : (k.retire bk).isShifted = false := by
        change k.isShifted = false
        rw [hpre.isShifted, hhit.isShifted]
        exact hf.1.trans hsh
      have hek : (k.retire bk).pipe.head? = some (some e) := by
        change (k.pipe.dropLast ++ [none]).head? = _
        rw [head_setTail hlenf, hpre.pipe, hhit.pipe]
        exact hf.2.trans he
      rcases finishUpdate_busy hi hwk hshk hek hfin with h | h
      · exact .inl h
      · exact .inr (List.mem_append_right _ h)
    | start bk bk' r f hb hf hq ht hv heq ho =>
      rw [heq]
      refine .inl ⟨ht.isShifted.trans hsh, .inl ⟨e, ?_⟩⟩
      change f.pipe.head? = _
      rw [ht.pipe, head_setTail hlen]
      exact he
    | miss bk r hb hh hv hm h0 hfill hr hp hev hlen' heq =>
      have hmiss : (d.missUpdate now bk).1.isShifted = d.isShifted ∧
          (d.missUpdate now bk).1.pipe.head? = d.pipe.head? := by
        unfold missUpdate
        split
        · exact ⟨rfl, rfl⟩
        · split
          · split <;> exact ⟨rfl, rfl⟩
          · split
            · exact ⟨rfl, rfl⟩
            · exact ⟨rfl, head_setTail hlen⟩
      rw [← heq] at hmiss
      exact .inl ⟨hmiss.1.trans hsh, .inl ⟨e, hmiss.2.trans he⟩⟩
  rcases hack with h | h
  · exact .inl h
  · exact .inr (List.mem_append_right _ h)

theorem WellFormed.recvMemResp_busy (hi : Immediate P) (h : WellFormed c) (hb : Busy now c)
    {m : MemTrans} (hx : c.recvMemResp now m = .ok c') : Busy now c' := by
  obtain ⟨hsh, hfront⟩ := hb
  have hsched : c.schedHitTime = infTime := h.sched hi
  have hlt : ∀ k, 0 < k → ∀ d : PipeCache P, d.schedHitTime = infTime → d.rWaiting = false →
      d.blockedUntil = now + k → (now : Tick) < d.nextUpdate := by
    intro k hk d hds hdr hdb
    unfold nextUpdate
    rw [hdr, hds, hdb, Bool.false_and, if_neg (by decide)]
    refine lt_min ?_ (ENat.natCast_lt_top now)
    exact_mod_cast Nat.lt_add_of_pos_right hk
  rcases recvMemResp_cases hx with ⟨_, _, _, _, _, _, _, _, _, rfl⟩ | ⟨_, _, rfl⟩
  · refine ⟨hsh, .inr (hlt _ ?_ _ hsched rfl rfl)⟩
    split
    · decide
    · split <;> decide
  · refine ⟨hsh, hfront.imp_right fun hn => ?_⟩
    unfold nextUpdate at hn ⊢
    dsimp only
    rw [hsched] at hn ⊢
    split
    · exact ENat.natCast_lt_top now
    · refine lt_min ?_ (ENat.natCast_lt_top now)
      split
      · rename_i hr _
        rw [if_neg hr] at hn
        exact (lt_min_iff.mp hn).1
      · exact_mod_cast Nat.lt_add_of_pos_right (by decide)

theorem enqueue_busy {e : CachePipeEntry} (hx : c.enqueue now e = .ok c') (n : Nat) :
    Busy n c' := by
  obtain ⟨_, _, _, rfl⟩ := enqueue_eq_ok.mp hx
  exact ⟨rfl, .inl ⟨e, rfl⟩⟩

end NpSim.Cache.PipeCache
