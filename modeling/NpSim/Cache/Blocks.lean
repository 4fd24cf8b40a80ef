/- digest: Where the blocks of a cache come from: the refill of a block that was asked for, and the
   prefetch of one that the prefetcher proposes. -/

import NpSim.Cache.Copies
import NpSim.Cache.Deferred
import NpSim.Cache.Flush

set_option autoImplicit false
set_option relaxedAutoImplicit false

namespace NpSim.Cache.PipeCache

open NpSim.Lib.Partial

variable {P : CacheParams} {c c' : PipeCache P} {now : Nat}

/-- The address that an update at `now` prefetches: it answers the read in the tail cell, and the
prefetcher proposes an address whose block is not there. -/
def prefetchAddr (now : Nat) (c : PipeCache P) : Option Addr :=
  match c.back with
  | none => none
  | some bk =>
    if c.nextUpdate ≤ now ∧ c.tailHits = true ∧ bk.mop = .read ∧ P.prefetcher.present = true then
      (P.prefetcher.probe c.pf bk.addr (!c.isReplay)).1.filter fun a => !c.probe a
    else none

theorem prefetchAddr_none (hp : P.prefetcher.present = false) : c.prefetchAddr now = none := by
  unfold prefetchAddr
  cases c.back with
  | none => rfl
  | some bk =>
    dsimp only
    rw [if_neg]
    rintro ⟨_, _, _, hx⟩
    rw [hp] at hx
    cases hx

/-- The cache holds no block that it did not hold before, but for `new`. -/
def Brings (new : Option Addr) (c c' : PipeCache P) : Prop :=
  ∀ s w b, c'.held s w = some b → c.held s w = some b ∨ new = some b

theorem Brings.refl (new : Option Addr) (c : PipeCache P) : Brings new c c :=
  fun _ _ _ => .inl

theorem Brings.of_held {new : Option Addr} (h : ∀ s w, c'.held s w = c.held s w) :
    Brings new c c' := fun s w _ hb => .inl ((h s w).symm.trans hb)

theorem Brings.trans {new : Option Addr} {d : PipeCache P} (h : Brings new c d)
    (h' : Brings new d c') : Brings new c c' := by
  intro s w b hb
  rcases h' s w b hb with hb | hb
  · exact h s w b hb
  · exact .inr hb

theorem probe_congr (h : ∀ s w, c'.held s w = c.held s w) (addr : Addr) :
    c'.probe addr = c.probe addr := by
  have hhit : ∀ l : CacheLine, ∀ tag, (l.valid && l.tag == tag) = (l.held == some tag) := by
    intro l tag
    unfold CacheLine.held
    cases l.valid with
    | false => rfl
    | true => rfl
  unfold probe findWay
  refine congrArg (fun f => ((List.range P.assoc).find? f).isSome) (funext fun w => ?_)
  rw [hhit, hhit]
  exact congrArg (· == some (P.tagOf addr)) (h (P.setIndexOf addr) w)

private theorem accessTail_brings {bk bk' : CachePipeEntry} (new : Option Addr)
    (hx : c.accessTail now bk = .ok (bk', c')) : Brings new c c' := by
  obtain ⟨r, ht⟩ := accessTail_looked hx
  have hline : bk'.line = some r := by
    rw [ht.entry]
  rcases accessTail_held hx hline with ⟨_, hsame⟩ | ⟨_, _, hclear⟩
  · exact .of_held hsame
  · intro s w b hb
    rw [hclear] at hb
    split at hb
    · cases hb
    · exact .inl hb

private theorem finishUpdate_brings {outs : List CacheOut} (new : Option Addr)
    (hx : c.finishUpdate now = .ok (c', outs)) : Brings new c c' := by
  unfold finishUpdate at hx
  split at hx
  · cases hx
    intro s w b hb
    rw [show (c.handleFlush now).held s w = none from CacheLine.held_of_invalid rfl] at hb
    cases hb
  · dsimp only at hx
    split at hx
    · split at hx
      · obtain ⟨⟨bk', d⟩, hd, hx⟩ := bind_eq_ok.mp hx
        cases hx
        intro s w b hb
        exact accessTail_brings (c := c.shifted) new hd s w b hb
      · cases hx
        exact .refl new c
    · cases hx
      exact .refl new c

private theorem handlePrefetch_brings {addr : Addr} {isHit : Bool}
    (hx : c.handlePrefetch now addr isHit = .ok c') :
    ∃ new, Brings new c c' ∧ ∀ b, new = some b → P.prefetcher.present = true ∧ ∃ a,
      (P.prefetcher.probe c.pf addr isHit).1 = some a ∧ c.probe a = false ∧ b = P.tagOf a := by
  unfold handlePrefetch at hx
  split at hx
  · cases hx
    exact ⟨none, .refl none c, fun b hb => by cases hb⟩
  · rename_i hpresent
    dsimp only at hx
    split at hx
    · cases hx
      exact ⟨none, .refl none c, fun b hb => by cases hb⟩
    · rename_i paddr hprobe
      split at hx
      · cases hx
        exact ⟨none, .refl none c, fun b hb => by cases hb⟩
      · rename_i hfind
        obtain ⟨way, hway, hx⟩ := bind_eq_ok.mp hx
        obtain ⟨⟨repl, stamp⟩, _, hx⟩ := bind_eq_ok.mp hx
        cases hx
        have hpres : P.prefetcher.present = true := by
          rwa [Bool.not_eq_true, Bool.not_eq_false'] at hpresent
        refine ⟨some (P.tagOf paddr), fun s w b hb => ?_, fun b hb =>
          ⟨hpres, paddr, hprobe, Bool.eq_false_of_not_eq_true hfind, (Option.some.inj hb).symm⟩⟩
        unfold held at hb ⊢
        rw [lines_setLine] at hb
        split at hb
        · exact .inr hb
        · exact .inl hb

private theorem accessTail_pf {bk bk' : CachePipeEntry}
    (hx : c.accessTail now bk = .ok (bk', c')) : c'.pf = c.pf := by
  have hlag : ∀ (d : PipeCache P) (si : Nat), (d.noteLag si).pf = d.pf := by
    intro d si
    unfold noteLag
    split <;> rfl
  unfold accessTail at hx
  obtain ⟨d, hd, hx⟩ := bind_eq_ok.mp hx
  obtain ⟨_, _, _, _, rfl, _⟩ := saveEvictInfo_cases hd
  obtain ⟨⟨r, e⟩, he, hx⟩ := bind_eq_ok.mp hx
  cases hx
  change e.pf = c.pf
  unfold access at he
  dsimp only at he
  split at he
  · obtain ⟨f, hf, he⟩ := bind_eq_ok.mp he
    cases he
    unfold accessHit at hf
    dsimp only at hf
    obtain ⟨⟨repl, stamp⟩, _, hf⟩ := bind_eq_ok.mp hf
    cases hf
    exact hlag _ _
  · unfold accessMiss at he
    dsimp only at he
    obtain ⟨w, _, he⟩ := bind_eq_ok.mp he
    cases he
    exact hlag _ _

private theorem lookTail_hit {bk₀ bk : CachePipeEntry} {r : LineRef}
    (hx : c.lookTail now bk₀ = .ok (bk, c')) (hline : bk.line = some r)
    (hv : (c'.line r).valid = true) :
    c'.pf = c.pf ∧ c'.isReplay = c.isReplay ∧ ∀ s w, c'.held s w = c.held s w := by
  unfold lookTail at hx
  split at hx
  · obtain ⟨r', ht⟩ := accessTail_looked hx
    refine ⟨accessTail_pf hx, ht.isReplay, ?_⟩
    rcases accessTail_held hx hline with ⟨_, hsame⟩ | ⟨hinv, _⟩
    · exact hsame
    · cases hv.symm.trans hinv
  · cases hx
    exact ⟨rfl, rfl, fun _ _ => rfl⟩

private theorem handleHit_pf {bk : CachePipeEntry} {r : LineRef} {outs : List CacheOut}
    (hx : c.handleHit now bk r = .ok (c', outs)) : c'.pf = c.pf := by
  have hrespond : ∀ (t : CpuTrans) (d : PipeCache P), (d.respond now t).1.pf = d.pf := by
    intro t d
    unfold respond
    split <;> rfl
  unfold handleHit at hx
  dsimp only at hx
  split at hx
  · obtain ⟨dt, _, hx⟩ := bind_eq_ok.mp hx
    rw [show c' = _ from (congrArg Prod.fst (Except.ok.inj hx)).symm, hrespond]
  · rw [show c' = _ from (congrArg Prod.fst (Except.ok.inj hx)).symm, hrespond]
    rfl

theorem prefetchAddr_some {bk : CachePipeEntry} {a : Addr} (hb : c.back = some bk)
    (hdue : c.nextUpdate ≤ now) (hhits : c.tailHits = true) (hop : bk.mop = .read)
    (hp : P.prefetcher.present = true)
    (ha : (P.prefetcher.probe c.pf bk.addr (!c.isReplay)).1 = some a) (hno : c.probe a = false) :
    c.prefetchAddr now = some a := by
  unfold prefetchAddr
  rw [hb]
  dsimp only
  rw [if_pos ⟨hdue, hhits, hop, hp⟩, ha]
  exact Option.filter_eq_some_iff.mpr ⟨rfl, by rw [hno]; rfl⟩

private theorem lookTail_brings {bk bk' : CachePipeEntry} (new : Option Addr)
    (hx : c.lookTail now bk = .ok (bk', c')) : Brings new c c' := by
  unfold lookTail at hx
  split at hx
  · exact accessTail_brings new hx
  · cases hx
    exact .refl new c

private theorem hitUpdate_brings {bk₀ bk : CachePipeEntry} {r : LineRef} {e : PipeCache P}
    {wasMiss : Bool} {outs : List CacheOut} (hb : c.back = some bk₀) (hdue : c.nextUpdate ≤ now)
    (hlook : c.lookTail now bk₀ = .ok (bk, e)) (hline : bk.line = some r)
    (hv : (e.line r).valid = true) (hmiss : wasMiss = e.isReplay)
    (hx : ({ e with isReplay := false } : PipeCache P).hitUpdate now bk r wasMiss =
      .ok (c', outs)) : Brings ((c.prefetchAddr now).map P.tagOf) c c' := by
  obtain ⟨hhits, hreq, _⟩ := tailHits_of_lookTail hb hlook hline hv
  obtain ⟨hpf, hreplay, hheld⟩ := lookTail_hit hlook hline hv
  unfold hitUpdate at hx
  obtain ⟨⟨d, resp⟩, hd, hx⟩ := bind_eq_ok.mp hx
  obtain ⟨f, hf, hx⟩ := bind_eq_ok.mp hx
  obtain ⟨⟨k, o⟩, hk, hx⟩ := bind_eq_ok.mp hx
  cases hx
  have hsame : ∀ s w, d.held s w = c.held s w := fun s w =>
    (handleHit_held hd s w).trans (hheld s w)
  have hfin : Brings ((c.prefetchAddr now).map P.tagOf) f c' :=
    finishUpdate_brings (c := f.retire bk) _ hk
  refine Brings.trans (.of_held hsame) (Brings.trans ?_ hfin)
  unfold prefetchAfter at hf
  split at hf
  · rename_i hread
    obtain ⟨new, hnew, hwhich⟩ := handlePrefetch_brings hf
    intro s w b hbw
    refine (hnew s w b hbw).imp id fun hb' => ?_
    obtain ⟨hpres, a, hprobe, hno, rfl⟩ := hwhich b hb'
    have haddr : bk.addr = bk₀.addr := congrArg Prod.fst hreq
    have hmop : bk₀.mop = .read := (congrArg Prod.snd hreq).symm.trans hread.1
    rw [handleHit_pf hd, haddr, hmiss] at hprobe
    change (P.prefetcher.probe e.pf bk₀.addr (!e.isReplay)).1 = some a at hprobe
    rw [hpf, hreplay] at hprobe
    rw [probe_congr hsame] at hno
    rw [prefetchAddr_some hb hdue hhits hmop hpres hprobe hno]
    rfl
  · cases hf
    exact .refl _ d

/-- An update brings in no block but the one it prefetches. -/
theorem WellFormed.doUpdate_brings {outs : List CacheOut} (hi : Immediate P) (h : WellFormed c)
    (hx : c.doUpdate now = .ok (c', outs)) :
    Brings ((c.prefetchAddr now).map P.tagOf) c c' := by
  rcases doUpdate_cases hx with ⟨_, rfl, _⟩ | ⟨hdue, o, ho, _⟩
  · exact .refl _ c'
  · rw [deliverDeferred_never now (h.sched hi)] at ho
    unfold PipeCache.serve at ho
    split at ho
    · rename_i bk₀ hb
      unfold serveTail at ho
      obtain ⟨⟨bk, e⟩, hlook, ho⟩ := bind_eq_ok.mp ho
      dsimp only at ho
      split at ho
      · cases ho
      · rename_i r hline
        obtain ⟨_, ho⟩ := require_bind_eq_ok.mp ho
        split at ho
        · rename_i hv
          exact hitUpdate_brings hb hdue hlook hline hv rfl ho
        · refine Brings.trans (lookTail_brings _ hlook) ?_
          rw [show c' = _ from (congrArg Prod.fst (Except.ok.inj ho)).symm]
          refine .of_held fun s w => ?_
          unfold missUpdate
          split
          · rfl
          · split
            · split <;> rfl
            · split <;> rfl
    · exact finishUpdate_brings _ ho

theorem recvMemResp_brings {m : MemTrans} (hx : c.recvMemResp now m = .ok c') :
    Brings (if m.mop = .read then some (P.tagOf m.addr) else none) c c' := by
  cases hop : m.mop with
  | read =>
    obtain ⟨_, _, _, bk, r, _, _, _, _, l, hlv, hlt, hlines⟩ := recvMemResp_fills hop hx
    intro s w b hb
    unfold held at hb ⊢
    rw [hlines] at hb
    split at hb
    · rw [CacheLine.held_of_valid hlv, hlt] at hb
      exact .inr hb
    · exact .inl hb
  | write =>
    obtain ⟨_, rfl⟩ := (recvWrite_eq_ok hop).mp hx
    exact .refl _ c

theorem enqueue_held {e : CachePipeEntry} (hx : c.enqueue now e = .ok c') (s w : Nat) :
    c'.held s w = c.held s w := by
  obtain ⟨_, _, _, rfl⟩ := enqueue_eq_ok.mp hx
  rfl

end NpSim.Cache.PipeCache
