/- digest: The pace of hits: a request that hits is answered as many ticks after its acceptance as
   the pipe has cells, one answer a tick. -/

import NpSim.Cache.Answers
import NpSim.Lib.DelayLine

set_option autoImplicit false
set_option relaxedAutoImplicit false

namespace NpSim.Cache

open NpSim.Lib NpSim.Lib.Partial

inductive Ask
  | read (addr : Addr)
  | write (addr : Addr) (data : Word) (mask : BitVec 8)
  deriving DecidableEq, Repr

namespace Ask

def req : Ask → Addr × MemRWOpt
  | .read a => (a, .read)
  | .write a _ _ => (a, .write)

def entry : Ask → CachePipeEntry
  | .read a => { addr := a, mop := .read }
  | .write a data mask => { addr := a, mop := .write, wrdata := data, wrstrb := mask }

theorem entry_req (q : Ask) : q.entry.req = q.req := by
  cases q <;> rfl

theorem entry_fresh (q : Ask) : q.entry.Fresh := by
  cases q <;> exact ⟨rfl, rfl, rfl, rfl⟩

/-- The request goes through the pipe: a read, or a write of a write-back cache. -/
def Piped (P : CacheParams) : Ask → Prop
  | .read _ => True
  | .write .. => P.writeBack = true

end Ask

namespace PipeCache

variable {P : CacheParams} {c c' : PipeCache P} {now : Nat}

/-- The request of a tick, if there is one, is put to the cache. -/
def ask (now : Nat) (q : Option Ask) (c : PipeCache P) :
    Except Fault (PipeCache P × List CacheOut) :=
  match q with
  | none => .ok (c, [])
  | some (.read a) => do
    let c ← c.readReq now a
    .ok (c, [])
  | some (.write a data mask) => c.writeReq now a data mask

theorem ask_some {q : Ask} (hq : q.Piped P) (c : PipeCache P) :
    c.ask now (some q) = (c.enqueue now q.entry).bind fun d => .ok (d, []) := by
  cases q with
  | read a => rfl
  | write a data mask =>
    unfold ask writeReq
    dsimp only
    rw [if_pos (show P.writeBack = true from hq)]
    rfl

/-- The request at the tail finds its block. -/
def Hitting (c : PipeCache P) : Prop := ∀ bk, c.back = some bk → c.probe bk.addr = true

theorem probe_false_iff {addr : Addr} : c.probe addr = false ↔
    ∀ w < P.assoc, ¬((c.lines (P.setIndexOf addr) w).valid = true ∧
      (c.lines (P.setIndexOf addr) w).tag = P.tagOf addr) := by
  unfold probe findWay
  rw [Option.isSome_eq_false_iff, Option.isNone_iff_eq_none, List.find?_eq_none]
  simp only [List.mem_range, Bool.and_eq_true, beq_iff_eq]

theorem accessTail_probe {bk bk' : CachePipeEntry} (h : c.accessTail now bk = .ok (bk', c')) :
    bk'.req = bk.req ∧ c'.back = some bk' ∧ ∃ r, bk'.line = some r ∧
      (c'.line r).valid = c.probe bk.addr ∧
      (c.probe bk.addr = false → c'.probe bk.addr = false) := by
  unfold accessTail at h
  obtain ⟨d, hd, h⟩ := bind_eq_ok.mp h
  obtain ⟨p, a, w, x, rfl, _, _⟩ := saveEvictInfo_cases hd
  obtain ⟨⟨r, e⟩, he, h⟩ := bind_eq_ok.mp h
  have hl := access_looked he
  cases h
  obtain ⟨l, hlines, _, hcases⟩ := hl.lines
  have hline : e.line r = l := by
    rw [line, hlines, if_pos ⟨rfl, rfl⟩]
  refine ⟨rfl, back_of_pipe rfl, r, rfl, ?_, fun hp => ?_⟩
  · change (e.line r).valid = c.probe bk.addr
    rw [hline]
    rcases hcases with ⟨_, hv, _, _, hp⟩ | ⟨hv, hp, _⟩
    · exact hv.trans hp.symm
    · exact hv.trans hp.symm
  · have hv : l.valid = false := by
      rcases hcases with ⟨_, _, _, _, hp'⟩ | ⟨hv, _⟩
      · exact absurd (hp'.symm.trans hp) (by decide)
      · exact hv
    have hold := probe_false_iff.mp hp
    apply probe_false_iff.mpr
    intro v hv'
    change ¬((e.lines (P.setIndexOf bk.addr) v).valid = true ∧
      (e.lines (P.setIndexOf bk.addr) v).tag = P.tagOf bk.addr)
    rw [hlines]
    split
    · rw [hv]
      simp
    · exact hold v hv'

/-- Between two ticks of hits: nothing is under way and nothing is held back. -/
structure Flowing (now : Nat) (c : PipeCache P) : Prop where
  wf : WellFormed c
  quiet : c.Quiet
  noFlush : c.pendingFlush = false
  due : c.blockedUntil ≤ now

theorem Flowing.tail_fresh (h : Flowing now c) {bk : CachePipeEntry} (hb : c.back = some bk) :
    bk.Fresh := by
  cases h.wf.tail with
  | empty hb' => exact absurd (hb.symm.trans hb') (by simp)
  | fresh bk₂ hb' hf => exact Option.some.inj (hb.symm.trans hb') ▸ hf
  | missed _ _ _ _ _ _ _ hfill => exact absurd (h.quiet.pendingFillReq.symm.trans hfill) (by decide)
  | filling _ _ _ _ _ _ _ _ hr => exact absurd (h.quiet.rWaiting.symm.trans hr) (by decide)
  | filled _ _ _ _ _ _ _ _ _ hp => exact absurd (h.quiet.isReplay.symm.trans hp) (by decide)

/-- The new tail entry missed as it reached the tail. -/
def Missing (c : PipeCache P) : Prop := ∃ bk, c.back = some bk ∧ c.probe bk.addr = false

/-- The end of an update without a flush: the pipe moves on and the cache is ready, or the new tail
entry misses. -/
theorem finishUpdate_flowing {outs : List CacheOut} (h : Flowing (now + 1) c)
    (hb : c.back = none) (hx : c.finishUpdate now = .ok (c', outs)) :
    cpuResps outs = [] ∧ (Missing c' ∨ Flowing (now + 1) c' ∧ c'.isShifted = true ∧
      c'.pipe = none :: c.pipe.dropLast) := by
  have hdone : Flowing (now + 1) { c.shifted with isShifted := true } := by
    obtain ⟨hw, _, _, hq⟩ := h.wf.shift hb true
    exact ⟨hw, ⟨hq.rWaiting, hq.wWaiting, hq.pendingFillReq, hq.isReplay⟩, h.noFlush, h.due⟩
  unfold finishUpdate at hx
  rw [if_neg (by simp [h.noFlush])] at hx
  dsimp only at hx
  split at hx
  · rename_i bk hbk
    split at hx
    · rename_i hlook
      obtain ⟨⟨bk', d⟩, hd, hx⟩ := bind_eq_ok.mp hx
      cases hx
      obtain ⟨hreq, hback, r, _, _, hmiss⟩ := accessTail_probe hd
      refine ⟨rfl, .inl ⟨bk', hback, ?_⟩⟩
      rw [show bk'.addr = bk.addr from congrArg Prod.fst hreq]
      exact hmiss hlook.2
    · cases hx
      exact ⟨rfl, .inr ⟨hdone, rfl, rfl⟩⟩
  · cases hx
    exact ⟨rfl, .inr ⟨hdone, rfl, rfl⟩⟩

theorem handleHit_blockedUntil {bk : CachePipeEntry} {r : LineRef} {outs : List CacheOut}
    (h : c.handleHit now bk r = .ok (c', outs)) : c'.blockedUntil = now + 1 := by
  have hresp : ∀ (t : CpuTrans) (d : PipeCache P), (d.respond now t).1.blockedUntil =
      d.blockedUntil := by
    intro t d
    unfold respond
    split <;> rfl
  unfold handleHit at h
  dsimp only at h
  split at h
  · obtain ⟨dt, _, h⟩ := bind_eq_ok.mp h
    exact (congrArg (·.1.blockedUntil) (Except.ok.inj h)).symm.trans (hresp _ _)
  · exact (congrArg (·.1.blockedUntil) (Except.ok.inj h)).symm.trans (hresp _ _)

/-- A due update whose tail entry hits answers it, and the pipe moves on. -/
theorem Flowing.doUpdate {outs : List CacheOut} (hi : Immediate P) (h : Flowing now c)
    (hh : c.Hitting) (hx : c.doUpdate now = .ok (c', outs)) :
    cpuResps outs = c.back.toList.map CachePipeEntry.req ∧
      (Missing c' ∨ Flowing (now + 1) c' ∧ c'.isShifted = true ∧
        c'.pipe = none :: c.pipe.dropLast) := by
  have hsched : c.schedHitTime = infTime := h.wf.sched hi
  have hnext : c.nextUpdate ≤ now := by
    unfold nextUpdate
    rw [h.quiet.rWaiting, Bool.false_and, if_neg (by decide)]
    exact (min_le_left _ _).trans (by exact_mod_cast h.due)
  obtain ⟨_, o, hs, ho⟩ := (doUpdate_cases hx).resolve_left fun hn => hn.1 hnext
  rw [deliverDeferred_never now hsched] at hs ho
  rw [ho, List.nil_append]
  cases hb : c.back with
  | none =>
    have hf : Flowing (now + 1) c := ⟨h.wf, h.quiet, h.noFlush, h.due.trans (Nat.le_succ now)⟩
    unfold PipeCache.serve at hs
    rw [hb] at hs
    obtain ⟨hr, hc⟩ := finishUpdate_flowing hf hb hs
    exact ⟨hr, hc⟩
  | some bk₀ =>
    have hfresh := h.tail_fresh hb
    have hlook : c.lookTail now bk₀ = c.accessTail now bk₀ := if_pos hfresh.1
    obtain ⟨⟨bk, e⟩, hacc⟩ : ∃ p, c.accessTail now bk₀ = .ok p := by
      unfold PipeCache.serve at hs
      rw [hb] at hs
      dsimp only at hs
      unfold serveTail at hs
      rw [hlook] at hs
      obtain ⟨p, hp, _⟩ := bind_eq_ok.mp hs
      exact ⟨p, hp⟩
    obtain ⟨r, ht⟩ := accessTail_looked hacc
    obtain ⟨hreq, _, r', hline', hvalid, _⟩ := accessTail_probe hacc
    obtain ⟨_, hline, hcase⟩ := ht.outcome h.wf.toFramed hb hfresh h.quiet
    have hrr : r' = r := Option.some.inj (hline'.symm.trans hline)
    rw [hrr, hh bk₀ hb] at hvalid
    obtain ⟨_, hx⟩ := serve_some hb (hlook.trans hacc) hline hs
    rw [if_pos hvalid, isReplay_eta (ht.isReplay.trans h.quiet.isReplay)] at hx
    obtain ⟨_, hr, _⟩ := hcase.resolve_right fun hn => absurd (hvalid.symm.trans hn.1) (by decide)
    obtain ⟨d, resp, f, o', hd, hf, hk, rfl, hw, hnone, _⟩ := hr.hitUpdate hx
    have hhit := handleHit_cases hr.hv hd
    have hpre := (prefetchAfter_cases hf).1
    have hflow : Flowing (now + 1) (f.retire bk) := by
      refine ⟨hw, ⟨?_, ?_, ?_, ?_⟩, ?_, ?_⟩
      · exact (hpre.rWaiting.trans hhit.rWaiting).trans hr.hq.rWaiting
      · exact (hpre.wWaiting.trans hhit.wWaiting).trans hr.hq.wWaiting
      · exact (hpre.pendingFillReq.trans hhit.pendingFillReq).trans hr.hq.pendingFillReq
      · exact (hpre.isReplay.trans hhit.isReplay).trans hr.hq.isReplay
      · exact (hpre.pendingFlush.trans hhit.pendingFlush).trans (ht.pendingFlush.trans h.noFlush)
      · exact (hpre.blockedUntil.trans (handleHit_blockedUntil hd)).le
    obtain ⟨hresp, hc⟩ := finishUpdate_flowing hflow hnone hk
    obtain ⟨_, w, hw'⟩ := hhit.resp hi
    refine ⟨?_, hc.imp_right fun hc => ⟨hc.1, hc.2.1, ?_⟩⟩
    · rw [cpuResps_append, hresp, hw', List.append_nil]
      exact congrArg (fun x => [x]) hreq
    · rw [hc.2.2]
      change none :: (f.pipe.dropLast ++ [none]).dropLast = _
      rw [List.dropLast_concat, hpre.pipe, hhit.pipe, ht.pipe, List.dropLast_concat]

/-- A tick of a requester: the cache after its update, the cache after the request of the tick, and
what the update has sent. -/
structure Beat (P : CacheParams) where
  updated : PipeCache P
  asked : PipeCache P
  outs : List CacheOut := []

/-- Tick `t + n` of a requester that puts the request `q n` in it, from the cache `c` on that has
been updated in tick `t`. -/
def stream (t : Nat) (q : Nat → Option Ask) (c : PipeCache P) : Nat → Except Fault (Beat P)
  | 0 => do
    let (a, _) ← c.ask t (q 0)
    .ok ⟨c, a, []⟩
  | n + 1 => do
    let b ← stream t q c n
    let (d, outs) ← b.asked.doUpdate (t + (n + 1))
    let (a, _) ← d.ask (t + (n + 1)) (q (n + 1))
    .ok ⟨d, a, outs⟩

theorem stream_prev {t : Nat} {q : Nat → Option Ask} {N n : Nat} (hn : n ≤ N) {b : Beat P}
    (h : stream t q c N = .ok b) : ∃ b', stream t q c n = .ok b' := by
  induction N generalizing b with
  | zero =>
    obtain rfl : n = 0 := by omega
    exact ⟨b, h⟩
  | succ N ih =>
    rcases Nat.lt_or_ge n (N + 1) with hlt | hge
    · obtain ⟨b', hb', _⟩ := bind_eq_ok.mp h
      exact ih (by omega) hb'
    · obtain rfl : n = N + 1 := by omega
      exact ⟨b, h⟩

theorem Flowing.ask (now : Nat) {q : Option Ask} {outs : List CacheOut} (h : Flowing (now + 1) c)
    (hq : ∀ x, q = some x → x.Piped P) (hf : c.pipe.head? = some none)
    (hx : c.ask now q = .ok (c', outs)) :
    Flowing (now + 1) c' ∧ c'.pipe = q.map Ask.entry :: c.pipe.tail := by
  cases q with
  | none =>
    cases hx
    refine ⟨h, ?_⟩
    cases hp : c.pipe with
    | nil =>
      rw [hp] at hf
      cases hf
    | cons e l =>
      rw [hp] at hf
      exact congrArg (· :: l) (Option.some.inj hf)
  | some x =>
    rw [ask_some (hq x rfl)] at hx
    obtain ⟨d, hd, hx⟩ := bind_eq_ok.mp hx
    cases hx
    have hw := (h.wf.enqueue x.entry_fresh hd).1
    obtain ⟨_, rest, hpipe, rfl⟩ := enqueue_eq_ok.mp hd
    refine ⟨⟨hw, ⟨h.quiet.rWaiting, h.quiet.wWaiting, h.quiet.pendingFillReq,
      h.quiet.isReplay⟩, h.noFlush, le_rfl⟩, ?_⟩
    rw [hpipe]
    rfl

theorem Missing.ask {q : Option Ask} {outs : List CacheOut} (h : Missing c)
    (hq : ∀ x, q = some x → x.Piped P) (hx : c.ask now q = .ok (c', outs)) : Missing c' := by
  obtain ⟨bk, hb, hp⟩ := h
  cases q with
  | none =>
    cases hx
    exact ⟨bk, hb, hp⟩
  | some x =>
    rw [ask_some (hq x rfl)] at hx
    obtain ⟨d, hd, hx⟩ := bind_eq_ok.mp hx
    cases hx
    obtain ⟨_, rest, hpipe, rfl⟩ := enqueue_eq_ok.mp hd
    refine ⟨bk, ?_, hp⟩
    unfold back at hb ⊢
    rw [hpipe] at hb
    cases rest with
    | nil => cases hb
    | cons y l => exact hb

theorem Flowing.isReady (hi : Immediate P) (h : Flowing now c) (hs : c.isShifted = true) :
    c.isReady.1 = true := by
  unfold PipeCache.isReady
  rw [hs, h.noFlush, h.quiet.rWaiting, h.quiet.wWaiting, h.quiet.pendingFillReq, h.quiet.isReplay,
    h.wf.sched hi]
  cases P.writeBack <;> rfl

section

variable {t : Nat} {q : Nat → Option Ask}

private theorem stream_flowing (hi : Immediate P) (h0 : Flowing (t + 1) c)
    (hr : c.isShifted = true) (hq : ∀ n x, q n = some x → x.Piped P) {N : Nat} {b : Beat P}
    (hs : stream t q c N = .ok b)
    (hh : ∀ n ≤ N, ∀ b, stream t q c n = .ok b → b.asked.Hitting) :
    Flowing (t + N + 1) b.updated ∧ b.updated.isShifted = true ∧ Flowing (t + N + 1) b.asked ∧
      b.asked.pipe = (q N).map Ask.entry :: b.updated.pipe.tail ∧
      (∀ n b', n + 1 = N → stream t q c n = .ok b' →
        b.updated.pipe.tail = b'.asked.pipe.dropLast ∧
        cpuResps b.outs = b'.asked.back.toList.map CachePipeEntry.req) := by
  induction N generalizing b with
  | zero =>
    obtain ⟨⟨a, o⟩, ha, hs⟩ := bind_eq_ok.mp hs
    cases hs
    obtain ⟨hf, hp⟩ := h0.ask _ (hq 0) (h0.wf.front hr) ha
    exact ⟨h0, hr, hf, hp, fun n b' hn => by omega⟩
  | succ N ih =>
    have hhit := hh (N + 1) le_rfl b hs
    obtain ⟨b', hb', hs⟩ := bind_eq_ok.mp hs
    obtain ⟨⟨d, outs⟩, hd, hs⟩ := bind_eq_ok.mp hs
    obtain ⟨⟨a, o⟩, ha, hs⟩ := bind_eq_ok.mp hs
    cases hs
    obtain ⟨_, _, hflow, _, _⟩ := ih hb' fun n hn => hh n (by omega)
    obtain ⟨hresp, hcase⟩ := Flowing.doUpdate hi hflow (hh N (by omega) b' hb') hd
    have hgood := hcase.resolve_left fun hm => by
      obtain ⟨bk, hbk, hp⟩ := hm.ask (hq (N + 1)) ha
      exact absurd ((hhit bk hbk).symm.trans hp) (by decide)
    obtain ⟨hfd, hsd, hpd⟩ := hgood
    have hhead : d.pipe.head? = some none := by
      rw [hpd]
      rfl
    obtain ⟨hfa, hpa⟩ := Flowing.ask (t + (N + 1)) hfd (hq (N + 1)) hhead ha
    refine ⟨hfd, hsd, hfa, hpa, ?_⟩
    intro n b'' hn hb''
    obtain rfl : n = N := by omega
    cases Except.ok.inj (hb'.symm.trans hb'')
    exact ⟨congrArg List.tail hpd, hresp⟩

private theorem stream_delay (hi : Immediate P) (h0 : Flowing (t + 1) c) (hr : c.isShifted = true)
    (hq : ∀ n x, q n = some x → x.Piped P) {N : Nat} {b : Beat P}
    (hs : stream t q c N = .ok b)
    (hh : ∀ n ≤ N, ∀ b, stream t q c n = .ok b → b.asked.Hitting) :
    DelayLine P.pipeDepth N (fun n => (q n).map Ask.entry) fun n =>
      ((stream t q c n).toOption.map fun b => b.asked.pipe).getD [] := by
  have hbeat : ∀ n ≤ N, ∃ b, stream t q c n = .ok b ∧
      ((stream t q c n).toOption.map fun b => b.asked.pipe).getD [] = b.asked.pipe := by
    intro n hn
    obtain ⟨b', hb'⟩ := stream_prev hn hs
    exact ⟨b', hb', by rw [hb']; rfl⟩
  have hflow : ∀ n ≤ N, ∀ b, stream t q c n = .ok b → _ := fun n hn b hb =>
    stream_flowing hi h0 hr hq hb fun m hm => hh m (by omega)
  refine ⟨?_, ?_, ?_⟩
  · intro n hn
    obtain ⟨b', hb', heq⟩ := hbeat n hn
    rw [heq]
    exact (hflow n hn b' hb').2.2.1.wf.len
  · intro n hn
    obtain ⟨b', hb', heq⟩ := hbeat n hn
    rw [heq, (hflow n hn b' hb').2.2.2.1]
    rfl
  · intro n hn
    obtain ⟨b', hb', heq⟩ := hbeat n (by omega)
    obtain ⟨b'', hb'', heq'⟩ := hbeat (n + 1) (by omega)
    obtain ⟨_, _, _, hpipe, hlast⟩ := hflow (n + 1) (by omega) b'' hb''
    rw [heq, heq', hpipe]
    exact (hlast n b' rfl hb').1

/-- In a stream of requests that all find their blocks at the tail, with no miss and no write
outstanding at its start, the cache is ready after every update and takes any request; the update
of tick `t + n + d` answers exactly the request of tick `t + n`; and with a policy that knows its
sets no update stops at an assertion. -/
theorem hit_pace (hi : Immediate P) (h0 : Flowing (t + 1) c) (hr : c.isShifted = true)
    (hq : ∀ n x, q n = some x → x.Piped P) {N : Nat} {b : Beat P}
    (hs : stream t q c N = .ok b)
    (hh : ∀ n ≤ N, ∀ b, stream t q c n = .ok b → b.asked.Hitting) :
    (b.updated.isReady.1 = true ∧
      ∀ x : Ask, x.Piped P → ∃ y, b.updated.ask (t + N) (some x) = .ok y) ∧
    (∀ n, n + P.pipeDepth = N → cpuResps b.outs = (q n).toList.map Ask.req) ∧
    (P.Total → ∃ y, b.asked.doUpdate (t + N + 1) = .ok y) := by
  obtain ⟨hf, hsh, hfa, _, hlast⟩ := stream_flowing hi h0 hr hq hs hh
  refine ⟨⟨hf.isReady hi hsh, fun x hx => ?_⟩, fun n hn => ?_, fun hP =>
    hfa.wf.doUpdate_ok hP hi⟩
  · obtain ⟨d, hd⟩ := hf.wf.enqueue_ok (t + N) hsh x.entry
    rw [ask_some hx, hd]
    exact ⟨_, rfl⟩
  · have hd := P.pipeDepth_pos
    obtain ⟨b', hb'⟩ := stream_prev (n := n + (P.pipeDepth - 1)) (by omega) hs
    have hline := (stream_delay hi h0 hr hq hb' fun m hm => hh m (by omega)).last hd le_rfl
    rw [(hlast _ b' (by omega) hb').2]
    have hback : b'.asked.back = (q n).map Ask.entry := by
      rw [hb'] at hline
      unfold back
      exact congrArg Option.join hline
    rw [hback]
    cases q n with
    | none => rfl
    | some x => exact congrArg (fun y => [y]) x.entry_req

end

def hits (c : PipeCache P) : Bool :=
  match c.back with
  | some bk => c.probe bk.addr
  | none => true

theorem hitting_of_hits (h : c.hits = true) : c.Hitting := by
  intro bk hb
  unfold hits at h
  rw [hb] at h
  exact h

/-- What an observer sees of a stream up to tick `t + 2`: hits at the tail, and the answers. -/
def streamView (t : Nat) (q : Nat → Option Ask) (c : PipeCache P) :
    List (Option (Bool × List (Addr × MemRWOpt))) :=
  (List.range 3).map fun n =>
    (stream t q c n).toOption.map fun b => (b.asked.hits, cpuResps b.outs)

/-- An instruction cache with lines of a word, after its first read. -/
abbrev WarmCache := PipeCache (Bench.instCache 2 1 Nat.one_pos lruReplPolicy)

/-- Nothing is under way in the cache, and it takes a request in tick 3. -/
def warm (c : WarmCache) : Bool :=
  !c.rWaiting && !c.wWaiting && !c.pendingFillReq && !c.isReplay && !c.pendingFlush
    && decide (c.blockedUntil ≤ 4) && c.isShifted

/-- A read behind a write of a write-through cache, accepted in tick 3; the response of the write
arrives before the update of tick 4. The readiness in ticks 3 and 4, the answers of ticks 4
and 5. -/
def readBehindWrite (c : PipeCache P) :
    Except Fault (Bool × Bool × List (Addr × MemRWOpt)) := do
  let (c, _) ← c.writeReq 3 0 0 15
  let ready := c.isReady.1
  let c ← c.readReq 3 0
  let c ← c.recvMemResp 4 { mop := .write, addr := 0, id := 0, bstLen := 1 }
  let (c, outs) ← c.doUpdate 4
  let ready' := c.isReady.1
  let (_, outs') ← c.doUpdate 5
  .ok (ready, ready', cpuResps (outs ++ outs'))

/-- What an observer sees of a warm cache. -/
structure WarmView where
  warm : Bool
  reads : List (Option (Bool × List (Addr × MemRWOpt)))
  write : List (Option (Bool × List (Addr × MemRWOpt)))
  behind : Option (Bool × Bool × List (Addr × MemRWOpt))
  deriving DecidableEq

private def reads : Nat → Option Ask := fun _ => some (.read 0)

private def oneWrite : Nat → Option Ask := fun n => if n = 0 then some (.write 0 0 15) else none

private theorem warm_state : ∃ c : WarmCache, (Flowing 4 c ∧ c.isShifted = true) ∧
    streamView 3 reads c =
      [some (true, []), some (true, []), some (true, [(0, .read)])] ∧
    streamView 3 oneWrite c = [some (true, []), some (true, []), some (true, [])] ∧
    (readBehindWrite c).toOption = some (true, false, []) := by
  obtain ⟨b, hb, hobs⟩ := Option.map_eq_some_iff.mp (show (Bench.performAll (fun _ => true)
      ({} : Bench (Bench.instCache 2 1 Nat.one_pos lruReplPolicy))
      [.read 0, .tick, .update, .tick, .update, .answer, .tick, .update]).map (fun b =>
        (⟨warm b.cache, streamView 3 reads b.cache, streamView 3 oneWrite b.cache,
          (readBehindWrite b.cache).toOption⟩ : WarmView)) =
      some ⟨true, [some (true, []), some (true, []), some (true, [(0, .read)])],
        [some (true, []), some (true, []), some (true, [])], some (true, false, [])⟩ by
    decide +kernel)
  have hw : warm b.cache = true := congrArg WarmView.warm hobs
  simp only [warm, Bool.and_eq_true, Bool.not_eq_true', decide_eq_true_eq] at hw
  obtain ⟨⟨⟨⟨⟨⟨hr, hwt⟩, hfill⟩, hrep⟩, hfl⟩, hbl⟩, hsh⟩ := hw
  exact ⟨b.cache, ⟨⟨(Bench.reachable_of_performAll hb).sound.wf, ⟨hr, hwt, hfill, hrep⟩, hfl, hbl⟩,
    hsh⟩, congrArg WarmView.reads hobs, congrArg WarmView.write hobs,
    congrArg WarmView.behind hobs⟩

private theorem stream_of_view {t : Nat} {q : Nat → Option Ask}
    {r0 r1 r2 : List (Addr × MemRWOpt)}
    (h : streamView t q c = [some (true, r0), some (true, r1), some (true, r2)]) :
    (∀ n ≤ 2, ∀ b, stream t q c n = .ok b → b.asked.Hitting) ∧
      ∃ b, stream t q c 2 = .ok b ∧ cpuResps b.outs = r2 := by
  have hview : ∀ {n : Nat} {r : List (Addr × MemRWOpt)},
      (stream t q c n).toOption.map (fun b => (b.asked.hits, cpuResps b.outs)) = some (true, r) →
      ∃ b, stream t q c n = .ok b ∧ b.asked.Hitting ∧ cpuResps b.outs = r := by
    intro n r hn
    obtain ⟨b, hb, heq⟩ := Bench.toOption_map_eq_some hn
    obtain ⟨hh, hr⟩ := Prod.mk.inj heq
    exact ⟨b, hb, hitting_of_hits hh, hr⟩
  obtain ⟨h0, h⟩ := List.cons.inj h
  obtain ⟨h1, h⟩ := List.cons.inj h
  obtain ⟨h2, _⟩ := List.cons.inj h
  obtain ⟨b0, hb0, hh0, _⟩ := hview h0
  obtain ⟨b1, hb1, hh1, _⟩ := hview h1
  obtain ⟨b2, hb2, hh2, hr2⟩ := hview h2
  refine ⟨?_, b2, hb2, hr2⟩
  intro n hn b hb
  rcases (by omega : n = 0 ∨ n = 1 ∨ n = 2) with rfl | rfl | rfl
  · exact Except.ok.inj (hb0.symm.trans hb) ▸ hh0
  · exact Except.ok.inj (hb1.symm.trans hb) ▸ hh1
  · exact Except.ok.inj (hb2.symm.trans hb) ▸ hh2

/-- Three reads of one block, in ticks 3, 4 and 5: the first is answered in tick 5. -/
theorem hit_pace_reads : ∃ (c : WarmCache) (b : Beat _), stream 3 reads c 2 = .ok b ∧
    b.updated.isReady.1 = true ∧ cpuResps b.outs = [(0, .read)] := by
  obtain ⟨c, ⟨hf, hsh⟩, hview, _⟩ := warm_state
  obtain ⟨hh, b, hb, _⟩ := stream_of_view hview
  have hq : ∀ n x, reads n = some x → x.Piped (Bench.instCache 2 1 Nat.one_pos lruReplPolicy) := by
    intro n x hx
    cases hx
    trivial
  obtain ⟨⟨hready, _⟩, hresp, _⟩ :=
    hit_pace (P := Bench.instCache 2 1 Nat.one_pos lruReplPolicy) rfl hf hsh hq hb hh
  exact ⟨c, b, hb, hready, hresp 0 rfl⟩

/-- A write of a write-through cache is answered at once and not from the pipe, and the response to
an older write holds the pipe up. -/
theorem hit_pace_write :
    (¬∀ (P : CacheParams), Immediate P → ∀ (t N : Nat) (q : Nat → Option Ask) (c : PipeCache P)
      (b : Beat P), Flowing (t + 1) c → c.isShifted = true → stream t q c N = .ok b →
      (∀ n ≤ N, ∀ b, stream t q c n = .ok b → b.asked.Hitting) →
      ∀ n, n + P.pipeDepth = N → cpuResps b.outs = (q n).toList.map Ask.req) ∧
    ∃ c : WarmCache, Flowing 4 c ∧ c.isShifted = true ∧
      (readBehindWrite c).toOption = some (true, false, []) := by
  obtain ⟨c, ⟨hf, hsh⟩, _, hview, hlate⟩ := warm_state
  refine ⟨fun hall => ?_, c, hf, hsh, hlate⟩
  obtain ⟨hh, b, hb, hr⟩ := stream_of_view hview
  have :=
    hall (Bench.instCache 2 1 Nat.one_pos lruReplPolicy) rfl 3 2 oneWrite c b hf hsh hb hh 0 rfl
  rw [hr] at this
  cases this

end PipeCache

end NpSim.Cache
