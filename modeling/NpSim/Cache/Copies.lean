/- digest: The representation invariant of the cache: no set holds a block twice, and the line
   reserved for a miss stays its own. -/

import NpSim.Cache.Victim
import NpSim.Lib.Directory

set_option autoImplicit false
set_option relaxedAutoImplicit false

namespace NpSim.Cache

open NpSim.Lib NpSim.Lib.Partial Relation

def CacheLine.held (l : CacheLine) : Option Addr := if l.valid then some l.tag else none

theorem CacheLine.held_of_valid {l : CacheLine} (h : l.valid = true) : l.held = some l.tag :=
  if_pos h

theorem CacheLine.held_of_invalid {l : CacheLine} (h : l.valid = false) : l.held = none :=
  if_neg (Bool.eq_false_iff.mp h)

theorem shiftRight_aligned (k : Nat) (addr : Addr) :
    (addr &&& ~~~BitVec.ofNat 32 (2 ^ k - 1)).toNat >>> k = addr.toNat >>> k := by
  apply Nat.eq_of_testBit_eq
  intro i
  rw [Nat.testBit_shiftRight, Nat.testBit_shiftRight, BitVec.testBit_toNat, BitVec.testBit_toNat,
    BitVec.getLsbD_and, BitVec.getLsbD_not, BitVec.getLsbD_ofNat, Nat.testBit_two_pow_sub_one]
  by_cases hi : k + i < 32
  · simp [hi]
  · simp [hi, BitVec.getLsbD_of_ge addr (k + i) (by omega)]

namespace CacheParams

variable (P : CacheParams)

/-- A block-aligned address, in its set and in a way that exists. -/
def Fits (s w : Nat) (b : Addr) : Prop := P.tagOf b = b ∧ P.setIndexOf b = s ∧ w < P.assoc

theorem tagOf_tagOf (addr : Addr) : P.tagOf (P.tagOf addr) = P.tagOf addr := by
  unfold tagOf blockAddrOf
  rw [BitVec.and_assoc, BitVec.and_self]

theorem tagOf_shiftRight (addr : Addr) :
    (P.tagOf addr).toNat >>> P.offsetBits = addr.toNat >>> P.offsetBits := by
  obtain ⟨k, hk⟩ := P.lineBytes_pow2
  have hbits : P.offsetBits = k := by
    unfold offsetBits
    rw [hk, Nat.log2_two_pow]
  rw [hbits]
  unfold tagOf blockAddrOf
  rw [hk]
  exact shiftRight_aligned k addr

theorem setIndexOf_tagOf (addr : Addr) : P.setIndexOf (P.tagOf addr) = P.setIndexOf addr := by
  unfold setIndexOf
  rw [tagOf_shiftRight]

theorem fits_tagOf (addr : Addr) {w : Nat} (hw : w < P.assoc) :
    P.Fits (P.setIndexOf addr) w (P.tagOf addr) :=
  ⟨P.tagOf_tagOf addr, P.setIndexOf_tagOf addr, hw⟩

end CacheParams

namespace PipeCache

variable {P : CacheParams} {c c' : PipeCache P} {now : Nat}

/-- The block held at a set and a way. -/
def held (c : PipeCache P) (s w : Nat) : Option Addr := (c.lines s w).held

/-- `c` may hold what `d` is asked for in the line `r` only. -/
def Reserves (c : PipeCache P) (bk : CachePipeEntry) (r : LineRef) : Prop :=
  r.set = P.setIndexOf bk.addr ∧ r.way < P.assoc ∧
    (c.held r.set r.way = some (P.tagOf bk.addr) ∨
      c.held r.set r.way = none ∧ ∀ w, c.held r.set w ≠ some (P.tagOf bk.addr))

/-- The arrays, and the entries that have not reached the tail. -/
structure Racked (c : PipeCache P) : Prop where
  arrays : Directory.Sound P.Fits c.held
  len : c.pipe.length = P.pipeDepth
  rest : ∀ e, some e ∈ c.pipe.dropLast → e.line = none

structure Single (c : PipeCache P) : Prop extends Racked c where
  tail : ∀ bk r, c.back = some bk → bk.line = some r → c.Reserves bk r
  waiting : c.rWaiting = true → c.isReplay = true ∧
    ∃ bk r, c.back = some bk ∧ bk.line = some r ∧ c.held r.set r.way = none

theorem Single.same (h : c.Single) (hh : ∀ s w, c'.held s w = c.held s w)
    (hp : c'.pipe = c.pipe) (hr : c'.rWaiting = c.rWaiting) (hi : c'.isReplay = c.isReplay) :
    c'.Single := by
  have hheld : c'.held = c.held := by
    funext s w
    exact hh s w
  have hback : c'.back = c.back := by
    rw [back, back, hp]
  refine ⟨⟨?_, ?_, ?_⟩, ?_, ?_⟩
  · rw [hheld]
    exact h.arrays
  · rw [hp]
    exact h.len
  · rw [hp]
    exact h.rest
  · unfold Reserves
    rw [hback, hheld]
    exact h.tail
  · rw [hr, hi, hback, hheld]
    exact h.waiting

theorem single_init : ({} : PipeCache P).Single := by
  refine ⟨⟨?_, List.length_replicate, ?_⟩, ?_, ?_⟩
  · apply Directory.sound_empty
    intro s w
    rfl
  · intro e he
    have := List.eq_of_mem_replicate (List.dropLast_subset _ he)
    cases this
  · intro bk r hb
    rw [back_init] at hb
    cases hb
  · intro hr
    cases hr

theorem not_held_of_probe (h : Directory.Sound P.Fits c.held) (addr : Addr)
    (hp : c.probe addr = false) (w : Nat) : c.held (P.setIndexOf addr) w ≠ some (P.tagOf addr) := by
  intro hw
  have hlt := (h.fits hw).2.2
  have hnone : c.findWay (P.setIndexOf addr) (P.tagOf addr) = none := by
    unfold probe at hp
    exact Option.isNone_iff_eq_none.mp (Option.isSome_eq_false_iff.mp hp)
  have hno := List.find?_eq_none.mp hnone w (List.mem_range.mpr hlt)
  apply hno
  unfold held CacheLine.held at hw
  split at hw
  · rename_i hv
    rw [hv, Option.some.inj hw]
    simp
  · cases hw

theorem Looked.held {addr : Addr} {r : LineRef} (h : Looked addr c r c') :
    ((c'.line r).valid = true ∧ ∀ s w, c'.held s w = c.held s w) ∨
      ((c'.line r).valid = false ∧ c.probe addr = false ∧
        ∀ s w, c'.held s w = if s = r.set ∧ w = r.way then none else c.held s w) := by
  obtain ⟨l, hlines, _, ⟨hv, hlv, hlt, _, _⟩ | ⟨hlv, hp, _⟩⟩ := h.lines
  · refine .inl ⟨?_, ?_⟩
    · rw [line, hlines, if_pos ⟨rfl, rfl⟩]
      exact hlv
    · intro s w
      unfold PipeCache.held
      rw [hlines]
      split
      · rename_i hslot
        rw [hslot.1, hslot.2, CacheLine.held_of_valid hlv, hlt]
        exact (CacheLine.held_of_valid hv).symm
      · rfl
  · refine .inr ⟨?_, hp, ?_⟩
    · rw [line, hlines, if_pos ⟨rfl, rfl⟩]
      exact hlv
    · intro s w
      unfold PipeCache.held
      rw [hlines]
      split
      · exact CacheLine.held_of_invalid hlv
      · rfl

theorem accessTail_held {bk bk' : CachePipeEntry} {r : LineRef}
    (hx : c.accessTail now bk = .ok (bk', c')) (hline : bk'.line = some r) :
    ((c'.line r).valid = true ∧ ∀ s w, c'.held s w = c.held s w) ∨
      ((c'.line r).valid = false ∧ c.probe bk.addr = false ∧
        ∀ s w, c'.held s w = if s = r.set ∧ w = r.way then none else c.held s w) := by
  unfold PipeCache.accessTail at hx
  obtain ⟨d, hd, hx⟩ := bind_eq_ok.mp hx
  obtain ⟨_, _, _, _, rfl, _⟩ := saveEvictInfo_cases hd
  obtain ⟨⟨r', e⟩, he, hx⟩ := bind_eq_ok.mp hx
  cases hx
  cases Option.some.inj hline
  exact (access_looked he).held

/-- The tail entry is looked up: the arrays stay sound, and a miss has its line reserved. -/
theorem Racked.accessTail {bk bk' : CachePipeEntry} (h : c.Racked)
    (hx : c.accessTail now bk = .ok (bk', c')) :
    c'.Racked ∧ c'.back = some bk' ∧ bk'.addr = bk.addr ∧ ∃ r, bk'.line = some r ∧
      TailLooked bk c bk' r c' ∧ ((c'.line r).valid = false → c'.Reserves bk' r) := by
  obtain ⟨r, ht⟩ := accessTail_looked hx
  have haddr : bk'.addr = bk.addr := by
    rw [ht.entry]
  have hline : bk'.line = some r := by
    rw [ht.entry]
  have hheld := accessTail_held hx hline
  have harrays : Directory.Sound P.Fits c'.held := by
    rcases hheld with ⟨_, hsame⟩ | ⟨_, _, hclear⟩
    · apply h.arrays.sub
      intro s w b hb
      rwa [hsame] at hb
    · exact h.arrays.clear hclear
  have hlen : c'.pipe.length = P.pipeDepth := by
    have hne : c.pipe ≠ [] := by
      intro hn
      have := h.len
      rw [hn] at this
      exact P.pipeDepth_pos.ne this
    have hpos := List.length_pos_iff.mpr hne
    rw [ht.pipe, List.length_append, List.length_dropLast, List.length_singleton, ← h.len]
    omega
  refine ⟨⟨harrays, hlen, ?_⟩, back_of_pipe ht.pipe, haddr, r, hline, ht, ?_⟩
  · rw [ht.pipe, List.dropLast_concat]
    exact h.rest
  · intro hv
    rcases hheld with ⟨hv', _⟩ | ⟨_, hp, hclear⟩
    · rw [hv] at hv'
      cases hv'
    · rw [Reserves, haddr]
      refine ⟨ht.set, ht.way, .inr ⟨?_, ?_⟩⟩
      · rw [hclear, if_pos ⟨rfl, rfl⟩]
      · intro w
        rw [hclear]
        split
        · exact Option.some_ne_none _ |>.symm
        · rw [ht.set]
          exact not_held_of_probe h.arrays _ hp w

theorem Racked.finishUpdate {outs : List CacheOut} (h : c.Racked) (hb : c.back = none)
    (hr : c.rWaiting = false) (hx : c.finishUpdate now = .ok (c', outs)) :
    c'.Single ∧ c'.rWaiting = false ∧ memReqs .read outs = [] := by
  have hpipe := pipe_eq h.len
  rw [hb] at hpipe
  have hmem : ∀ e, some e ∈ none :: c.pipe.dropLast → e.line = none := by
    intro e he
    rcases List.mem_cons.mp he with he | he
    · cases he
    · exact h.rest e he
  have hlen : (none :: c.pipe.dropLast).length = P.pipeDepth := by
    rw [← h.len]
    nth_rewrite 2 [hpipe]
    simp
  have hshift : ∀ b, ({ c.shifted with isShifted := b } : PipeCache P).Racked := fun b =>
    ⟨h.arrays, hlen, fun e he => hmem e (List.dropLast_subset _ he)⟩
  have hidle : ∀ b, ({ c.shifted with isShifted := b } : PipeCache P).Single := by
    intro b
    refine ⟨hshift b, ?_, ?_⟩
    · intro bk r hbk hline
      have hin : some bk ∈ none :: c.pipe.dropLast := by
        have hback : c.shifted.back = some bk := hbk
        have heq := pipe_eq (c := c.shifted) hlen
        rw [hback] at heq
        change some bk ∈ c.shifted.pipe
        rw [heq]
        exact List.mem_append_right _ List.mem_cons_self
      rw [hmem bk hin] at hline
      cases hline
    · intro hw
      exact absurd (hw.symm.trans hr) (by decide)
  unfold PipeCache.finishUpdate at hx
  split at hx
  · cases hx
    refine ⟨⟨⟨?_, List.length_replicate, ?_⟩, ?_, ?_⟩, rfl, rfl⟩
    · apply Directory.sound_empty
      intro s w
      exact CacheLine.held_of_invalid rfl
    · intro e he
      have := List.eq_of_mem_replicate (List.dropLast_subset _ he)
      cases this
    · intro bk r hbk
      rw [show (c.handleFlush now).back = none from back_init] at hbk
      cases hbk
    · intro hw
      cases hw
  · dsimp only at hx
    split at hx
    · rename_i bk hbk
      split at hx
      · rename_i hlook
        obtain ⟨⟨bk', d⟩, hd, hx⟩ := bind_eq_ok.mp hx
        cases hx
        obtain ⟨hrack, hback, _, r, hline, ht, hres⟩ := (hshift c.isShifted).accessTail hd
        have hwait : d.rWaiting = false := ht.rWaiting.trans hr
        refine ⟨⟨⟨hrack.arrays, hrack.len, hrack.rest⟩, ?_, ?_⟩, hwait, rfl⟩
        · intro bk₂ r₂ hbk₂ hline₂
          cases Option.some.inj (hback.symm.trans hbk₂)
          cases Option.some.inj (hline.symm.trans hline₂)
          exact hres (ht.probed hlook.2)
        · intro hw
          exact absurd (hw.symm.trans hwait) (by decide)
      · cases hx
        exact ⟨hidle true, hr, rfl⟩
    · cases hx
      exact ⟨hidle true, hr, rfl⟩

private theorem held_setLine {r : LineRef} {l : CacheLine} (hl : l.held = (c.line r).held)
    (s w : Nat) : (c.setLine r l).held s w = c.held s w := by
  unfold held
  rw [lines_setLine]
  split
  · rename_i hslot
    rw [hslot.1, hslot.2]
    exact hl
  · rfl

theorem handleHit_held {bk : CachePipeEntry} {r : LineRef} {outs : List CacheOut}
    (hx : c.handleHit now bk r = .ok (c', outs)) (s w : Nat) : c'.held s w = c.held s w := by
  have hrespond : ∀ (t : CpuTrans) (d : PipeCache P), (d.respond now t).1.lines = d.lines := by
    intro t d
    unfold respond
    split <;> rfl
  unfold handleHit at hx
  dsimp only at hx
  unfold held
  split at hx
  · obtain ⟨dt, _, hx⟩ := bind_eq_ok.mp hx
    rw [show c' = _ from (congrArg Prod.fst (Except.ok.inj hx)).symm, hrespond]
  · rw [show c' = _ from (congrArg Prod.fst (Except.ok.inj hx)).symm, hrespond]
    exact held_setLine (c := { c with blockedUntil := now + 1 }) (r := r)
      (l := (c.line r).setDirty) rfl s w

theorem selectVictim_lt {si w : Nat} (hx : c.selectVictim si = .ok w) : w < P.assoc := by
  unfold selectVictim at hx
  split at hx
  · rename_i v hv
    cases hx
    exact List.mem_range.mp (List.mem_of_find?_eq_some hv)
  · have hlt := P.policy.getVictim_lt hx
    unfold setOf at hlt
    rwa [List.length_map, List.length_range] at hlt

theorem handlePrefetch_arrays {addr : Addr} {isHit : Bool}
    (h : Directory.Sound P.Fits c.held) (hx : c.handlePrefetch now addr isHit = .ok c') :
    Directory.Sound P.Fits c'.held := by
  unfold handlePrefetch at hx
  split at hx
  · cases hx
    exact h
  · dsimp only at hx
    split at hx
    · cases hx
      exact h
    · rename_i paddr _
      split at hx
      · cases hx
        exact h
      · rename_i hfind
        obtain ⟨way, hway, hx⟩ := bind_eq_ok.mp hx
        obtain ⟨⟨repl, stamp⟩, _, hx⟩ := bind_eq_ok.mp hx
        have hlt := selectVictim_lt hway
        have hnew := not_held_of_probe h paddr (Bool.eq_false_of_not_eq_true hfind)
        refine h.put (P.fits_tagOf paddr hlt) (fun w' _ => hnew w') ?_
        cases hx
        intro s w
        unfold held
        rw [lines_setLine]
        split
        · rfl
        · rfl

theorem Racked.prefetchAfter {bk : CachePipeEntry} {wasMiss : Bool} (h : c.Racked)
    (hx : c.prefetchAfter now bk wasMiss = .ok c') : c'.Racked := by
  have hs := (prefetchAfter_cases hx).1
  refine ⟨?_, ?_, ?_⟩
  · unfold PipeCache.prefetchAfter at hx
    split at hx
    · exact handlePrefetch_arrays h.arrays hx
    · cases hx
      exact h.arrays
  · rw [hs.pipe]
    exact h.len
  · rw [hs.pipe]
    exact h.rest

/-- The reads sent by a call are those the cache waits for next. -/
def Reads (c : PipeCache P) (outs : List CacheOut) (c' : PipeCache P) : Prop :=
  c'.readsOwed = c.readsOwed ++ (memReqs .read outs).map (·.addr)

private theorem reads_idle {outs : List CacheOut} (hr : c.rWaiting = false)
    (hr' : c'.rWaiting = false) (ho : memReqs .read outs = []) : Reads c outs c' := by
  unfold Reads readsOwed
  rw [hr, hr', ho]
  rfl

private theorem Racked.hitUpdate {bk : CachePipeEntry} {r : LineRef} {wasMiss : Bool}
    {outs : List CacheOut} (h : c.Racked) (hr : c.rWaiting = false)
    (hv : (c.line r).valid = true) (hx : c.hitUpdate now bk r wasMiss = .ok (c', outs)) :
    c'.Single ∧ c'.rWaiting = false ∧ memReqs .read outs = [] := by
  unfold PipeCache.hitUpdate at hx
  obtain ⟨⟨d, resp⟩, hd, hx⟩ := bind_eq_ok.mp hx
  obtain ⟨f, hf, hx⟩ := bind_eq_ok.mp hx
  obtain ⟨⟨k, o⟩, hk, hx⟩ := bind_eq_ok.mp hx
  cases hx
  have hh := handleHit_cases hv hd
  have hs := (prefetchAfter_cases hf).1
  have hdr : d.Racked := by
    refine ⟨?_, ?_, ?_⟩
    · apply h.arrays.sub
      intro s w b hb
      rwa [handleHit_held hd] at hb
    · rw [hh.pipe]
      exact h.len
    · rw [hh.pipe]
      exact h.rest
  have hfr := hdr.prefetchAfter hf
  have hretire : (f.retire bk).Racked := by
    refine ⟨hfr.arrays, ?_, ?_⟩
    · have hpipe := pipe_eq hfr.len
      change (f.pipe.dropLast ++ [none]).length = _
      rw [← hfr.len]
      nth_rewrite 2 [hpipe]
      simp
    · intro e he
      apply hfr.rest e
      change some e ∈ (f.pipe.dropLast ++ [none]).dropLast at he
      rwa [List.dropLast_concat] at he
  have hwait : (f.retire bk).rWaiting = false :=
    hs.rWaiting.trans (hh.rWaiting.trans hr)
  obtain ⟨hsingle, hr', ho⟩ := hretire.finishUpdate (back_of_pipe rfl) hwait hk
  refine ⟨hsingle, hr', ?_⟩
  rw [memReqs_append, memReqs_of_noReq hh.noReq, ho]
  rfl

private theorem Racked.missUpdate (now : Nat) {bk : CachePipeEntry} {r : LineRef} (h : c.Racked)
    (hb : c.back = some bk) (hline : bk.line = some r) (hres : c.Reserves bk r)
    (hv : (c.line r).valid = false) (hr : c.rWaiting = false) :
    (c.missUpdate now bk).1.Single ∧
      Reads c (c.missUpdate now bk).2 (c.missUpdate now bk).1 := by
  have hsingle : c.Single := by
    refine ⟨h, ?_, ?_⟩
    · intro bk₂ r₂ hbk₂ hline₂
      cases Option.some.inj (hb.symm.trans hbk₂)
      cases Option.some.inj (hline.symm.trans hline₂)
      exact hres
    · intro hw
      rw [hr] at hw
      cases hw
  have hstay : ∀ d : PipeCache P, d.lines = c.lines → d.pipe = c.pipe →
      d.rWaiting = c.rWaiting → d.isReplay = c.isReplay → d.Single := by
    intro d hl hp hw hi
    apply hsingle.same _ hp hw hi
    intro s w
    unfold held
    rw [hl]
  unfold PipeCache.missUpdate
  split
  · exact ⟨hstay _ rfl rfl rfl rfl, reads_idle hr hr rfl⟩
  · split
    · split
      · exact ⟨hstay _ rfl rfl rfl rfl, reads_idle hr hr rfl⟩
      · exact ⟨hstay _ rfl rfl rfl rfl, reads_idle hr hr rfl⟩
    · split
      · exact ⟨hstay _ rfl rfl rfl rfl, reads_idle hr hr rfl⟩
      · have hback : ({ c with
            pendingFillReq := false, rWaiting := true, isReplay := true }.setBack
              (some { bk with refills := bk.refills + 1 })).back =
            some { bk with refills := bk.refills + 1 } := back_of_pipe rfl
        have hnone : c.held r.set r.way = none := CacheLine.held_of_invalid hv
        refine ⟨⟨⟨h.arrays, ?_, ?_⟩, ?_, ?_⟩, ?_⟩
        · have hpipe := pipe_eq h.len
          change (c.pipe.dropLast ++ [_]).length = _
          rw [← h.len]
          nth_rewrite 2 [hpipe]
          simp
        · intro e he
          apply h.rest e
          change some e ∈ (c.pipe.dropLast ++ [_]).dropLast at he
          rwa [List.dropLast_concat] at he
        · intro bk₂ r₂ hbk₂ hline₂
          cases Option.some.inj (hback.symm.trans hbk₂)
          cases Option.some.inj (hline.symm.trans hline₂)
          exact hres
        · intro _
          exact ⟨rfl, _, r, hback, hline, hnone⟩
        · unfold Reads
          rw [readsOwed, readsOwed, hr, hback]
          rfl

theorem Single.serve {outs : List CacheOut} (h : c.Single)
    (hx : c.serve now = .ok (c', outs)) : c'.Single ∧ Reads c outs c' := by
  unfold PipeCache.serve at hx
  cases hb : c.back with
  | none =>
    rw [hb] at hx
    have hr : c.rWaiting = false := by
      cases hr : c.rWaiting with
      | false => rfl
      | true =>
        obtain ⟨_, bk, r, hbk, _⟩ := h.waiting hr
        exact absurd (hbk.symm.trans hb) (by simp)
    obtain ⟨hs, hr', ho⟩ := h.toRacked.finishUpdate hb hr hx
    exact ⟨hs, reads_idle hr hr' ho⟩
  | some bk₀ =>
    rw [hb] at hx
    dsimp only at hx
    unfold serveTail at hx
    obtain ⟨⟨bk, e⟩, hlook, hx⟩ := bind_eq_ok.mp hx
    dsimp only at hx
    -- what the lookup leaves: the tail entry holds a line, its own unless it is about to be served
    have hlooked : e.Racked ∧ e.back = some bk ∧ e.rWaiting = c.rWaiting ∧
        ∃ r, bk.line = some r ∧ ((e.line r).valid = false → e.Reserves bk r) ∧
          (c.rWaiting = true → e.isReplay = true ∧ (e.line r).valid = false) := by
      unfold lookTail at hlook
      split at hlook
      · rename_i hnl
        obtain ⟨hrack, hback, _, r, hline, ht, hres⟩ := h.toRacked.accessTail hlook
        refine ⟨hrack, hback, ht.rWaiting, r, hline, hres, ?_⟩
        intro hr
        obtain ⟨_, bk₂, r₂, hbk₂, hline₂, _⟩ := h.waiting hr
        cases Option.some.inj (hb.symm.trans hbk₂)
        exact absurd (hnl.symm.trans hline₂) (by simp)
      · rename_i hnl
        cases hlook
        obtain ⟨r, hline⟩ := Option.ne_none_iff_exists'.mp hnl
        refine ⟨h.toRacked, hb, rfl, r, hline, fun _ => h.tail _ r hb hline, ?_⟩
        intro hr
        obtain ⟨hrep, bk₂, r₂, hbk₂, hline₂, hnone⟩ := h.waiting hr
        cases Option.some.inj (hb.symm.trans hbk₂)
        cases Option.some.inj (hline.symm.trans hline₂)
        refine ⟨hrep, ?_⟩
        cases hv : (c.line r).valid with
        | false => rfl
        | true => exact absurd ((CacheLine.held_of_valid hv).symm.trans hnone) (by simp)
    obtain ⟨hrack, hback, hsame, r, hline, hres, hwait⟩ := hlooked
    rw [hline] at hx
    dsimp only at hx
    obtain ⟨hreplay, hx⟩ := require_bind_eq_ok.mp hx
    have hr : c.rWaiting = false := by
      cases hr : c.rWaiting with
      | false => rfl
      | true =>
        obtain ⟨hrep, hv⟩ := hwait hr
        rw [hrep, hv] at hreplay
        rcases hreplay with hreplay | hreplay <;> cases hreplay
    have hre : e.rWaiting = false := hsame.trans hr
    have hrack' : ({ e with isReplay := false } : PipeCache P).Racked :=
      ⟨hrack.arrays, hrack.len, hrack.rest⟩
    split at hx
    · rename_i hv
      obtain ⟨hs, hr', ho⟩ := hrack'.hitUpdate hre hv hx
      exact ⟨hs, reads_idle hr hr' ho⟩
    · rename_i hv
      have hv' : (e.line r).valid = false := Bool.eq_false_of_not_eq_true hv
      obtain ⟨hs, hreads⟩ := hrack'.missUpdate now (hback : _ = some bk) hline
        (hres hv') hv' hre
      rw [Except.ok.inj hx] at hs hreads
      refine ⟨hs, hreads.trans ?_⟩
      rw [readsOwed, readsOwed, hr]
      change (if e.rWaiting then _ else _) ++ _ = _
      rw [hre]
      rfl

theorem Single.doUpdate {outs : List CacheOut} (h : c.Single)
    (hx : c.doUpdate now = .ok (c', outs)) : c'.Single ∧ Reads c outs c' := by
  rcases doUpdate_cases hx with ⟨_, rfl, rfl⟩ | ⟨_, o, hd, rfl⟩
  · exact ⟨h, (List.append_nil _).symm⟩
  · have hdef : (c.deliverDeferred now).1.Single ∧
        (c.deliverDeferred now).1.readsOwed = c.readsOwed ∧
        memReqs .read (c.deliverDeferred now).2 = [] := by
      unfold PipeCache.deliverDeferred
      split
      · exact ⟨h.same (fun _ _ => rfl) rfl rfl rfl, rfl, rfl⟩
      · exact ⟨h, rfl, rfl⟩
    obtain ⟨hs, hreads⟩ := hdef.1.serve hd
    refine ⟨hs, hreads.trans ?_⟩
    rw [hdef.2.1, memReqs_append, hdef.2.2]
    rfl

/-- The refill of the tail entry's block goes into the line reserved for it. -/
theorem Single.recvMemResp {m : MemTrans} (h : c.Single)
    (haddr : m.mop = .read → c.rWaiting = true → ∀ bk, c.back = some bk → m.addr = bk.addr)
    (hx : c.recvMemResp now m = .ok c') : c'.Single := by
  cases hop : m.mop with
  | read =>
    obtain ⟨hr, hp, hr', bk, r, hbk, hline, hset, hway, l, hlv, hlt, hlines⟩ :=
      recvMemResp_fills hop hx
    have hm := haddr hop hr bk hbk
    obtain ⟨_, bk₂, r₂, hbk₂, hline₂, hnone⟩ := h.waiting hr
    cases Option.some.inj (hbk.symm.trans hbk₂)
    cases Option.some.inj (hline.symm.trans hline₂)
    rw [hm] at hset hlt
    have hfree : ∀ w, c.held r.set w ≠ some (P.tagOf bk.addr) := by
      obtain ⟨_, _, hown | ⟨_, hfree⟩⟩ := h.tail bk r hbk hline
      · rw [hnone] at hown
        cases hown
      · exact hfree
    have hheld : ∀ s w, c'.held s w =
        if s = r.set ∧ w = r.way then some (P.tagOf bk.addr) else c.held s w := by
      intro s w
      unfold held
      rw [hlines]
      split
      · rw [CacheLine.held_of_valid hlv, hlt]
      · rfl
    have hfits : P.Fits r.set r.way (P.tagOf bk.addr) := by
      rw [hset]
      exact P.fits_tagOf bk.addr hway
    refine ⟨⟨h.arrays.put hfits (fun w _ => hfree w) hheld, ?_, ?_⟩, ?_, ?_⟩
    · rw [hp]
      exact h.len
    · rw [hp]
      exact h.rest
    · intro bk₂ r₂ hbk₂ hline₂
      rw [back, hp] at hbk₂
      cases Option.some.inj (hbk.symm.trans hbk₂)
      cases Option.some.inj (hline.symm.trans hline₂)
      refine ⟨hset, hway, .inl ?_⟩
      rw [hheld, if_pos ⟨rfl, rfl⟩]
    · intro hw
      rw [hr'] at hw
      cases hw
  | write =>
    obtain ⟨_, rfl⟩ := (recvWrite_eq_ok hop).mp hx
    exact h.same (fun _ _ => rfl) rfl rfl rfl

theorem Single.enqueue {e : CachePipeEntry} (h : c.Single) (he : e.line = none)
    (hx : c.enqueue now e = .ok c') : c'.Single ∧ c'.readsOwed = c.readsOwed := by
  obtain ⟨_, rest, hpipe, rfl⟩ := enqueue_eq_ok.mp hx
  have hlen : (some e :: rest).length = P.pipeDepth := by
    rw [← h.len, hpipe]
    rfl
  cases hr : rest with
  | nil =>
    have hb : c.back = none := back_of_pipe (l := []) (by rw [hpipe, hr]; rfl)
    have hw : c.rWaiting = false := by
      cases hw : c.rWaiting with
      | false => rfl
      | true =>
        obtain ⟨_, bk, r, hbk, _⟩ := h.waiting hw
        exact absurd (hbk.symm.trans hb) (by simp)
    rw [hr] at hlen
    refine ⟨⟨⟨h.arrays, hlen, ?_⟩, ?_, ?_⟩, ?_⟩
    · intro x hx
      cases hx
    · intro bk r hbk hline
      cases hbk
      rw [he] at hline
      cases hline
    · intro hw'
      exact absurd (hw'.symm.trans hw) (by decide)
    · rw [readsOwed, readsOwed, hw]
      rfl
  | cons y l =>
    have hback : ({ c with
        pipe := some e :: y :: l, blockedUntil := now + 1, isShifted := false } :
          PipeCache P).back = c.back := by
      rw [back, back, hpipe, hr]
      rfl
    rw [hr] at hlen
    refine ⟨⟨⟨h.arrays, hlen, ?_⟩, ?_, ?_⟩, ?_⟩
    · intro x hx
      have hrest := h.rest
      rw [hpipe, hr, List.dropLast_cons_cons] at hrest
      change some x ∈ (some e :: y :: l).dropLast at hx
      rw [List.dropLast_cons_cons] at hx
      rcases List.mem_cons.mp hx with hx | hx
      · cases hx
        exact he
      · exact hrest x (List.mem_cons_of_mem _ hx)
    · intro bk r hbk
      rw [hback] at hbk
      exact h.tail bk r hbk
    · intro hw
      rw [hback]
      exact h.waiting hw
    · rw [readsOwed, readsOwed, hback]

theorem Single.writeThrough {addr : Addr} {data : Word} {mask : BitVec 8} {outs : List CacheOut}
    (h : c.Single) (hx : c.writeThrough now addr data mask = .ok (c', outs)) :
    c'.Single ∧ Reads c outs c' := by
  have hend : ∀ {d : PipeCache P}, (∀ s w, d.held s w = c.held s w) → d.pipe = c.pipe →
      d.rWaiting = c.rWaiting → d.isReplay = c.isReplay → c' = { d with wWaiting := true } →
      memReqs .read outs = [] → c'.Single ∧ Reads c outs c' := by
    rintro d hheld hp hr hi rfl ho
    refine ⟨h.same hheld hp hr hi, ?_⟩
    unfold Reads
    rw [ho]
    change (if d.rWaiting then d.back.toList.map _ else []) = _ ++ []
    rw [back, hp, hr, List.append_nil]
    rfl
  unfold PipeCache.writeThrough at hx
  dsimp only at hx
  split at hx
  · rename_i hprobe
    obtain ⟨⟨r, e⟩, he, hx⟩ := bind_eq_ok.mp hx
    have hl := access_looked he
    have hheld : ∀ s w, e.held s w = c.held s w := by
      rcases hl.held with ⟨_, hheld⟩ | ⟨_, hp, _⟩
      · exact hheld
      · rw [hprobe] at hp
        cases hp
    dsimp only at hx
    split at hx
    · obtain ⟨x, _, hx⟩ := bind_eq_ok.mp hx
      obtain ⟨d, hd, hx⟩ := bind_eq_ok.mp hx
      cases hd
      cases hx
      refine hend (d := e.setLine r _) ?_ hl.same.pipe hl.same.rWaiting hl.same.isReplay rfl rfl
      intro s w
      rw [← hheld]
      apply held_setLine
      rfl
    · obtain ⟨d, hd, hx⟩ := bind_eq_ok.mp hx
      cases hd
      cases hx
      exact hend hheld hl.same.pipe hl.same.rWaiting hl.same.isReplay rfl rfl
  · obtain ⟨d, hd, hx⟩ := bind_eq_ok.mp hx
    cases hd
    cases hx
    exact hend (fun _ _ => rfl) rfl rfl rfl rfl rfl

end PipeCache

namespace Bench

variable {P : CacheParams}

inductive AnyStep (b : Bench P) : Bench P → Prop
  | step {b' : Bench P} (l : Label) (h : Step b l b') : AnyStep b b'
  | write {c' : PipeCache P} {outs : List CacheOut} (addr : Addr) (data : Word) (mask : BitVec 8)
      (h : b.cache.writeReq b.now addr data mask = .ok (c', outs)) :
      AnyStep b { b with
        cache := c'
        accepted := b.accepted ++ [(addr, .write)]
        sent := b.sent ++ outs
        outstanding := b.outstanding ++ requests outs }

def AnyReachable (b : Bench P) : Prop := ReflTransGen AnyStep {} b

/-- The invariant of a run: the cache, and the addresses of the refills it waits for. -/
private structure Neat (b : Bench P) : Prop where
  single : b.cache.Single
  waits : (b.outstanding.filter (·.mop = .read)).map (·.addr) = b.cache.readsOwed

private theorem Neat.call {b : Bench P} {c' : PipeCache P} {outs : List CacheOut} (h : Neat b)
    (hs : c'.Single) (hr : PipeCache.Reads b.cache outs c')
    (accepted : List (Addr × MemRWOpt)) :
    Neat { b with
      cache := c'
      accepted := accepted
      sent := b.sent ++ outs
      outstanding := b.outstanding ++ requests outs } := by
  refine ⟨hs, ?_⟩
  dsimp only
  rw [List.filter_append, List.map_append, h.waits, filter_requests, hr]

private theorem Neat.answer {b : Bench P} {c' : PipeCache P} {m : MemTrans} {data : List Word}
    (h : Neat b) (hm : m ∈ b.outstanding)
    (hx : b.cache.recvMemResp b.now { m with dir := .resp, data := data } = .ok c') :
    Neat { b with cache := c', outstanding := b.outstanding.erase m } := by
  have haddr : m.mop = .read → b.cache.rWaiting = true → ∀ bk, b.cache.back = some bk →
      m.addr = bk.addr := by
    intro hop hr bk hbk
    have hmem : m.addr ∈ b.cache.readsOwed := by
      rw [← h.waits]
      exact List.mem_map_of_mem (List.mem_filter.mpr ⟨hm, by simpa using hop⟩)
    rw [PipeCache.readsOwed, hr, hbk] at hmem
    exact List.mem_singleton.mp hmem
  refine ⟨h.single.recvMemResp haddr hx, ?_⟩
  have ht := PipeCache.recvMemResp_traffic hx
  dsimp only at ht ⊢
  cases hop : m.mop with
  | read =>
    rw [hop] at ht
    have hlen : (b.outstanding.filter (·.mop = m.mop)).length ≤ 1 := by
      rw [hop, ← List.length_map (f := MemTrans.addr), h.waits]
      exact length_readsOwed b.cache
    have hnil := filter_nil_of_erase hm hlen
    rw [hop] at hnil
    rw [hnil, ht.1]
    rfl
  | write =>
    rw [hop] at ht
    rw [filter_erase_other (by rw [hop]; decide), ht.1]
    exact h.waits

private theorem Neat.step {b b' : Bench P} (h : Neat b) (hs : AnyStep b b') : Neat b' := by
  have hrequest : ∀ {e : CachePipeEntry} {c' : PipeCache P} (accepted : List (Addr × MemRWOpt)),
      e.line = none → b.cache.enqueue b.now e = .ok c' →
        Neat { b with cache := c', accepted := accepted } := by
    intro e c' accepted he hx
    obtain ⟨hs, hr⟩ := h.single.enqueue he hx
    exact ⟨hs, h.waits.trans hr.symm⟩
  cases hs with
  | step l hs =>
    cases hs with
    | read addr hx => exact hrequest _ rfl hx
    | write addr data mask hwb hx =>
      unfold PipeCache.writeReq at hx
      rw [if_pos hwb] at hx
      obtain ⟨d, hd, hx⟩ := bind_eq_ok.mp hx
      cases hx
      exact hrequest _ rfl hd
    | update hx =>
      obtain ⟨hs, hr⟩ := h.single.doUpdate hx
      exact h.call hs hr b.accepted
    | answer m data hm hx => exact h.answer hm hx
    | flushAll => exact ⟨h.single.same (fun _ _ => rfl) rfl rfl rfl, h.waits⟩
    | resetStats => exact ⟨h.single.same (fun _ _ => rfl) rfl rfl rfl, h.waits⟩
    | tick => exact ⟨h.single, h.waits⟩
  | write addr data mask hx =>
    unfold PipeCache.writeReq at hx
    split at hx
    · obtain ⟨d, hd, hx⟩ := bind_eq_ok.mp hx
      cases hx
      have hn := hrequest (b.accepted ++ [(addr, .write)]) rfl hd
      refine ⟨hn.single, ?_⟩
      change ((b.outstanding ++ []).filter _).map _ = _
      rw [List.append_nil]
      exact hn.waits
    · obtain ⟨hs, hr⟩ := h.single.writeThrough hx
      exact h.call hs hr _

theorem Reachable.single {b : Bench P} (h : Reachable b) : b.cache.Single := by
  have hn : Neat b := invariant_of_run (fun _ _ hs hb => hb.step (.step _ hs.choose_spec))
    ⟨PipeCache.single_init, rfl⟩ h
  exact hn.single

/-- The lines of a cache between two calls. Valid lines hold the block-aligned addresses of
distinct blocks of their set; only the tail entry points to a line, and that line is in the set of
its address: if invalid, it is the only place for its block; else it holds the block. -/
structure Represented (c : PipeCache P) : Prop where
  aligned : ∀ s w, (c.lines s w).valid = true →
    P.blockAddrOf (c.lines s w).tag = (c.lines s w).tag ∧ P.setIndexOf (c.lines s w).tag = s
  distinct : ∀ s w w', (c.lines s w).valid = true → (c.lines s w').valid = true →
    (c.lines s w).tag = (c.lines s w').tag → w = w'
  pointers : ∀ e, some e ∈ c.pipe.dropLast → e.line = none
  tail : ∀ bk r, c.back = some bk → bk.line = some r →
    r.set = P.setIndexOf bk.addr ∧ r.way < P.assoc ∧
      ((c.line r).valid = false → ∀ w, (c.lines r.set w).valid = true →
        (c.lines r.set w).tag ≠ P.blockAddrOf bk.addr) ∧
      ((c.line r).valid = true → (c.line r).tag = P.blockAddrOf bk.addr)

/-- In every run of a cache its lines are a faithful picture of a set-associative cache. -/
theorem AnyReachable.represented {b : Bench P} (h : AnyReachable b) : Represented b.cache := by
  have hn : Neat b := invariant_of_run (fun _ _ hs hb => hb.step hs)
    ⟨PipeCache.single_init, rfl⟩ h
  have hheld : ∀ {s w : Nat}, (b.cache.lines s w).valid = true →
      b.cache.held s w = some (b.cache.lines s w).tag := fun hv => CacheLine.held_of_valid hv
  refine ⟨?_, ?_, hn.single.rest, ?_⟩
  · intro s w hv
    obtain ⟨htag, hset, _⟩ := hn.single.arrays.fits (hheld hv)
    exact ⟨htag, hset⟩
  · intro s w w' hv hv' htag
    refine hn.single.arrays.single (hheld hv) ?_
    rw [htag]
    exact hheld hv'
  · intro bk r hbk hline
    obtain ⟨hset, hway, hcase⟩ := hn.single.tail bk r hbk hline
    refine ⟨hset, hway, ?_, ?_⟩
    · intro hv w hvw htag
      rcases hcase with hown | ⟨_, hfree⟩
      · exact absurd (hown.symm.trans (CacheLine.held_of_invalid hv)) (by simp)
      · apply hfree w
        rw [hheld hvw, htag]
        rfl
    · intro hv
      rcases hcase with hown | ⟨hnone, _⟩
      · exact Option.some.inj ((CacheLine.held_of_valid hv).symm.trans hown)
      · exact absurd ((CacheLine.held_of_valid hv).symm.trans hnone) (by simp)

/-- A miss on its way: the tail entry waits for the line reserved for it. -/
theorem represented_miss : ∃ b : Bench (twoLines (nextLinePrefetcher 4)), Represented b.cache ∧
    b.cache.rWaiting = true ∧ b.cache.back.map (·.line) = some (some ⟨0, 0⟩) := by
  have hrun : (performAll (fun _ => true) ({} : Bench (twoLines (nextLinePrefetcher 4)))
      [.read 0, .tick, .update, .tick, .update]).map (fun b =>
        (b.cache.rWaiting, b.cache.back.map (·.line))) = some (true, some (some ⟨0, 0⟩)) := by
    decide +kernel
  obtain ⟨b, hb, hx⟩ := Option.map_eq_some_iff.mp hrun
  obtain ⟨hwait, hline⟩ := Prod.mk.inj hx
  have hreach : AnyReachable b := ReflTransGen.mono (fun _ _ ⟨l, hs⟩ => .step l hs) _ _
    (reachable_of_performAll hb)
  exact ⟨b, hreach.represented, hwait, hline⟩

end Bench

end NpSim.Cache
