/- digest: A `PipeCache` whose flushes forget nothing: every accepted request is answered once, and
   the port is ready again when all is done. -/

import NpSim.Cache.Flush
import NpSim.Cache.Ports

set_option autoImplicit false
set_option relaxedAutoImplicit false

namespace NpSim.Cache

open NpSim.Lib.Partial NpSim.Lib.Fair Relation

namespace PipeCache

variable {P : CacheParams} {c : PipeCache P}

theorem side_of_free (h : c.wWaiting = false) : c.side = c := by
  unfold side withWrite
  split
  · rfl
  · rw [← h]

theorem pending_of_back {bk : CachePipeEntry} (h : c.back = some bk) : c.pending ≠ [] := by
  intro hp
  have hmem : some bk ∈ c.pipe := List.mem_of_getLast? (Option.join_eq_some_iff.mp h)
  cases List.filterMap_eq_nil_iff.mp hp (some bk) (List.mem_reverse.mpr hmem)

theorem all_of_pending (h : c.pending = []) : c.pipe.all (·.isNone) = true := by
  refine List.all_eq_true.mpr fun o ho => ?_
  have := List.filterMap_eq_nil_iff.mp h o (List.mem_reverse.mpr ho)
  change o = none at this
  rw [this]
  rfl

theorem WellFormed.quiet (h : WellFormed c) (hp : c.pending = []) : c.back = none ∧ c.Quiet := by
  cases h.tail with
  | empty hb hq => exact ⟨hb, hq⟩
  | fresh bk hb => exact absurd hp (pending_of_back hb)
  | missed bk r hb => exact absurd hp (pending_of_back hb)
  | filling bk r hb => exact absurd hp (pending_of_back hb)
  | filled bk r hb => exact absurd hp (pending_of_back hb)

theorem time_of_deferral (h : c.deferral = []) : c.schedHitTime = infTime := by
  by_contra hne
  unfold deferral waiting at h
  rw [if_neg hne] at h
  cases h

theorem isReady_of_quiet (hs : c.isShifted = true) (hf : c.pendingFlush = false) (hq : c.Quiet)
    (ht : c.schedHitTime = infTime) : c.isReady = (true, true) := by
  unfold PipeCache.isReady
  rw [hs, hf, hq.rWaiting, hq.wWaiting, hq.pendingFillReq, hq.isReplay, ht]
  cases P.writeBack <;> rfl

theorem isReady_handleFlush (now : Nat) (c : PipeCache P) :
    (c.handleFlush now).isReady = (true, true) :=
  isReady_of_quiet rfl rfl ⟨rfl, rfl, rfl, rfl⟩ rfl

theorem Healthy.comesBack (h : Healthy c) (hp : c.pending = []) (hd : c.deferral = [])
    (hw : c.wWaiting = false) : (base P).ReadyWithin 2 c := by
  have hwf := h.wf
  rw [side_of_free hw] at hwf
  obtain ⟨hb, hq⟩ := hwf.quiet hp
  have ht := time_of_deferral hd
  have hall := all_of_pending hp
  have hs : c.isShifted = true := h.opened.resolve_right (by rw [hall]; decide)
  cases hf : c.pendingFlush with
  | false => exact .inl (isReady_of_quiet hs hf hq ht)
  | true =>
    have hnext : c.nextUpdate = c.blockedUntil := by
      unfold nextUpdate
      rw [hq.rWaiting, Bool.false_and, if_neg (by decide), ht]
      exact min_eq_left le_top
    refine .inr ⟨?_, fun now _ => ⟨(c.handleFlush now, []), ?_, .inl (isReady_handleFlush now c)⟩⟩
    · change c.nextUpdate ≠ infTime
      rw [hnext]
      exact ENat.natCast_ne_top _
    · change c.updateImpl now = _
      unfold updateImpl deliverDeferred
      rw [ht, if_neg (not_le.mpr (ENat.natCast_lt_top now))]
      dsimp only
      unfold serve
      rw [hb]
      dsimp only
      unfold finishUpdate
      rw [hf, hall]
      rfl

end PipeCache

namespace Client

variable {P : CacheParams} {b b' : Client (PipeCache.base P)} {e : Event}

def piped (P : CacheParams) (a : Addr × MemRWOpt) : Bool := P.writeBack || decide (a.2 = .read)

/-- An update is neither hurried nor does its flush forget anything. -/
def Gentle (b : Client (PipeCache.base P)) (e : Event) : Prop :=
  e = .update → PipeCache.unhurried b.now b.cache = true ∧ PipeCache.mindful b.now b.cache = true

structure Steady (b : Client (PipeCache.base P)) : Prop where
  healthy : PipeCache.Healthy (P := P) b.cache
  log : (PipeCache.log (P := P) b.cache).map CachePipeEntry.req = b.accepted.filter (piped P)
  answered : (cpuResps b.sent).filter (piped P) ++ PipeCache.deferral (P := P) b.cache =
    (PipeCache.served (P := P) b.cache).map CachePipeEntry.req
  through : P.writeBack = false → b.responses .write = b.asked .write
  waits : Bench.Waits (P := P) b.outstanding b.cache

theorem steady_init : Steady ({ cache := ({} : PipeCache P) } : Client (PipeCache.base P)) := by
  have hs := Bench.sound_init (P := P)
  have hside : ({} : PipeCache P).side = {} := by
    unfold PipeCache.side
    split <;> rfl
  refine ⟨⟨?_, fun _ => rfl, .inl rfl⟩, hs.log, ?_, fun _ => rfl, hs.waitsRead, hs.waitsWrite⟩
  · rw [hside]
    exact PipeCache.wellFormed_init
  · rw [PipeCache.deferral_of_none rfl]
    rfl

theorem Steady.piped_log (h : Steady b) {a : Addr × MemRWOpt}
    (ha : a ∈ (PipeCache.log (P := P) b.cache).map CachePipeEntry.req) : piped P a = true := by
  rw [h.log] at ha
  exact (List.mem_filter.mp ha).2

theorem Steady.piped_deferral (h : Steady b) {a : Addr × MemRWOpt}
    (ha : a ∈ PipeCache.deferral (P := P) b.cache) : piped P a = true := by
  have hmem : a ∈ (PipeCache.served (P := P) b.cache).map CachePipeEntry.req := by
    rw [← h.answered]
    exact List.mem_append_right _ ha
  refine h.piped_log ?_
  rw [PipeCache.log, List.map_append]
  exact List.mem_append_left _ hmem

/-- In a write-through cache the requests in the pipe are reads. -/
theorem read_of_piped (hwt : P.writeBack = false) {a : Addr × MemRWOpt} (h : piped P a = true) :
    a.2 = .read := by
  unfold piped at h
  rw [hwt, Bool.false_or] at h
  exact of_decide_eq_true h

theorem filter_write_of_piped (hwt : P.writeBack = false) {l : List (Addr × MemRWOpt)}
    (h : ∀ a ∈ l, piped P a = true) : l.filter (·.2 = .write) = [] := by
  refine List.filter_eq_nil_iff.mpr fun a ha => ?_
  rw [read_of_piped hwt (h a ha)]
  decide

private theorem Steady.call (h : Steady b) (new : List (Addr × MemRWOpt))
    {x : PipeCache P × List CacheOut} (hnew : ∀ a ∈ new, piped P a = true)
    (hh : PipeCache.Healthy x.1)
    (hlog : x.1.log.map CachePipeEntry.req =
      (PipeCache.log (P := P) b.cache).map CachePipeEntry.req ++ new)
    (hserved : ∃ k, x.1.served = PipeCache.served (P := P) b.cache ++ k ∧
      PipeCache.deferral (P := P) b.cache ++ k.map CachePipeEntry.req =
        cpuResps x.2 ++ x.1.deferral)
    (hwaits : Bench.Waits (b.outstanding ++ requests x.2) x.1) :
    Steady (sending { b with accepted := b.accepted ++ new } x) := by
  obtain ⟨k, hk, hresp⟩ := hserved
  have hpiped : ∀ a ∈ cpuResps x.2, piped P a = true := by
    intro a ha
    have hmem : a ∈ PipeCache.deferral (P := P) b.cache ++ k.map CachePipeEntry.req := by
      rw [hresp]
      exact List.mem_append_left _ ha
    rcases List.mem_append.mp hmem with hd | hk'
    · exact h.piped_deferral hd
    · have hin : a ∈ x.1.log.map CachePipeEntry.req := by
        rw [PipeCache.log, List.map_append, hk, List.map_append]
        exact List.mem_append_left _ (List.mem_append_right _ hk')
      rw [hlog] at hin
      rcases List.mem_append.mp hin with hl | hn
      · exact h.piped_log hl
      · exact hnew a hn
  refine ⟨hh, ?_, ?_, fun hwt => ?_, hwaits⟩
  · change x.1.log.map _ = (b.accepted ++ new).filter (piped P)
    rw [hlog, h.log, List.filter_append, List.filter_eq_self.mpr hnew]
  · change (cpuResps (b.sent ++ x.2)).filter (piped P) ++ x.1.deferral =
      x.1.served.map CachePipeEntry.req
    rw [cpuResps_append, List.filter_append, List.filter_eq_self.mpr hpiped, List.append_assoc,
      ← hresp, ← List.append_assoc, h.answered, hk, List.map_append]
  · rw [responses_sending, filter_write_of_piped hwt hpiped, List.append_nil]
    change b.responses .write = (b.accepted ++ new).filter _
    rw [List.filter_append, filter_write_of_piped hwt hnew, List.append_nil]
    exact h.through hwt

private theorem Steady.keep (h : Steady b) {c : PipeCache P} {out : List MemTrans} {n : Nat}
    (hh : PipeCache.Healthy c) (hlog : c.log = PipeCache.log (P := P) b.cache)
    (hserved : c.served = PipeCache.served (P := P) b.cache)
    (hdef : c.deferral = PipeCache.deferral (P := P) b.cache)
    (hwaits : Bench.Waits out c) :
    Steady { b with now := n, cache := c, outstanding := out } := by
  refine ⟨hh, ?_, ?_, h.through, hwaits⟩
  · change c.log.map _ = _
    rw [hlog]
    exact h.log
  · change _ ++ c.deferral = c.served.map _
    rw [hdef, hserved]
    exact h.answered

private theorem Steady.enqueue (h : Steady b) {r : CachePipeEntry} {c : PipeCache P}
    (hr : r.Fresh) (hp : piped P r.req = true)
    (hx : PipeCache.enqueue (P := P) b.now r b.cache = .ok c) :
    Steady ((b.accepting r.req).sending (c, [])) := by
  obtain ⟨hh, hlog, hans, ht⟩ := h.healthy.enqueue hr hx
  refine h.call [r.req] (x := (c, [])) ?_ hh hlog ⟨[], ?_, ?_⟩ (h.waits.send ht)
  · intro a ha
    rw [List.mem_singleton.mp ha]
    exact hp
  · exact hans.served.trans (List.append_nil _).symm
  · exact (List.append_nil _).trans hans.deferral.symm

private theorem Steady.writeThrough (h : Steady b) {x : PipeCache P × List CacheOut} {addr : Addr}
    {data : Word} {mask : BitVec 8} (hwt : P.writeBack = false)
    (hfree : PipeCache.wWaiting (P := P) b.cache = false)
    (hx : PipeCache.writeThrough (P := P) b.now addr data mask b.cache = .ok x) :
    Steady ((b.accepting (addr, .write)).sending x) := by
  obtain ⟨hh, hlog, hans, ht, hresp⟩ := h.healthy.writeThrough hwt hfree hx
  have hnot : piped P (addr, .write) = false := by
    unfold piped
    rw [hwt]
    rfl
  have hnone : [(addr, MemRWOpt.write)].filter (piped P) = [] := by
    rw [List.filter_cons, hnot]
    rfl
  refine ⟨hh, ?_, ?_, fun _ => ?_, h.waits.send ht⟩
  · change x.1.log.map _ = (b.accepted ++ [(addr, MemRWOpt.write)]).filter (piped P)
    rw [hlog, h.log, List.filter_append, hnone, List.append_nil]
  · change (cpuResps (b.sent ++ x.2)).filter (piped P) ++ x.1.deferral =
      x.1.served.map CachePipeEntry.req
    rw [cpuResps_append, hresp, List.filter_append, hnone, List.append_nil, hans.deferral,
      hans.served]
    exact h.answered
  · rw [responses_sending, hresp]
    change b.responses .write ++ _ = (b.accepting (addr, .write)).asked .write
    rw [asked_accepting, h.through hwt]

/-- A gentle step keeps the invariant. -/
theorem Steady.step (h : Steady b) (hok : Gentle b e) (hs : Step b e b') : Steady b' := by
  cases hs with
  | @read x addr hr hx =>
    obtain ⟨c, hc, rfl⟩ := map_eq_ok.mp hx
    exact h.enqueue (r := { addr := addr, mop := .read }) ⟨rfl, rfl, rfl, rfl⟩ (Bool.or_true _) hc
  | @write x addr data mask hr hx =>
    have hx' : PipeCache.writeReq (P := P) b.now addr data mask b.cache = .ok x := hx
    have hr' : (PipeCache.isReady (P := P) b.cache).2 = true := hr
    unfold PipeCache.writeReq at hx'
    unfold PipeCache.isReady at hr'
    cases hwb : P.writeBack with
    | true =>
      rw [if_pos hwb] at hx'
      obtain ⟨c, hc, hx'⟩ := bind_eq_ok.mp hx'
      cases hx'
      refine h.enqueue (r := { addr := addr, mop := .write, wrdata := data, wrstrb := mask })
        ⟨rfl, rfl, rfl, rfl⟩ ?_ hc
      unfold piped
      rw [hwb, Bool.true_or]
    | false =>
      have hno : ¬P.writeBack = true := by rw [hwb]; decide
      rw [if_neg hno] at hx'
      dsimp only at hr'
      rw [if_neg hno, Bool.and_eq_true, Bool.not_eq_true', Bool.not_eq_true'] at hr'
      exact h.writeThrough hwb hr'.2 hx'
  | @update x hx =>
    obtain ⟨hu, hm⟩ := hok rfl
    have hd := h.healthy.doUpdate hu hm hx
    have := h.call [] (x := x) (fun a ha => by cases ha) hd.healthy
      (hd.log.trans (List.append_nil _).symm) hd.served (h.waits.send hd.traffic)
    rwa [List.append_nil] at this
  | @answer x m data hm hx =>
    obtain ⟨c, hc, rfl⟩ := map_eq_ok.mp hx
    obtain ⟨hh, hans, _⟩ := h.healthy.recvMemResp hc
    have hlog : c.log = PipeCache.log (P := P) b.cache := by
      unfold PipeCache.log PipeCache.pending
      rw [hans.served, (PipeCache.recvMemResp_frame hc).1]
    have hkeep := h.keep (n := b.now) hh hlog hans.served hans.deferral (h.waits.answer hm hc)
    have hsame : (b.settling m).sending (c, []) =
        { b with cache := c, outstanding := b.outstanding.erase m } := by
      unfold sending settling
      dsimp only
      rw [List.append_nil, show requests [] = [] from rfl, List.append_nil]
    rw [hsame]
    exact hkeep
  | flushAll =>
    exact ⟨h.healthy.flushAll, h.log, h.answered, h.through, h.waits.reads, h.waits.writes⟩
  | tick => exact ⟨h.healthy, h.log, h.answered, h.through, h.waits⟩

theorem steady_of_reachable (h : Reachable Gentle ({} : PipeCache P) b) : Steady b :=
  invariant_of_run (fun _ _ ⟨_, hok, hs⟩ hI => hI.step hok hs) steady_init h

theorem Steady.split (h : Steady b) {op : MemRWOpt} (hop : P.writeBack = true ∨ op = .read) :
    b.asked op = b.responses op ++ ((PipeCache.deferral (P := P) b.cache ++
      (PipeCache.pending (P := P) b.cache).map CachePipeEntry.req).filter (·.2 = op)) := by
  have hsame : ∀ l : List (Addr × MemRWOpt),
      l.filter (·.2 = op) = (l.filter (piped P)).filter (·.2 = op) := by
    intro l
    rw [List.filter_filter]
    refine List.filter_congr fun a _ => ?_
    by_cases ha : a.2 = op
    · have hp : piped P a = true := by
        unfold piped
        rcases hop with hwb | rfl
        · rw [hwb, Bool.true_or]
        · rw [ha]
          exact Bool.or_true _
      rw [hp, Bool.and_true]
    · rw [decide_eq_false ha, Bool.false_and]
  unfold asked responses
  rw [hsame b.accepted, hsame (cpuResps b.sent), ← List.filter_append, ← List.append_assoc,
    h.answered, ← List.map_append, ← h.log]
  rfl

theorem Steady.answered_grow (h : Steady b) (op : MemRWOpt) :
    b.responses op <+: b.asked op := by
  by_cases hop : P.writeBack = true ∨ op = .read
  · exact ⟨_, (h.split hop).symm⟩
  · rw [not_or, Bool.not_eq_true] at hop
    cases op with
    | read => exact absurd rfl hop.2
    | write => exact (h.through hop.1) ▸ List.prefix_rfl

theorem Steady.awaited (h : Steady b) {m : MemTrans} (hm : m ∈ b.outstanding) :
    (PipeCache.base P).awaits m.mop b.cache = true := by
  by_contra hno
  rw [Bool.not_eq_true] at hno
  have hmem : ∀ op, m.mop = op → m ∈ b.outstanding.filter (·.mop = op) := fun op ho =>
    List.mem_filter.mpr ⟨hm, decide_eq_true ho⟩
  cases hop : m.mop with
  | read =>
    rw [hop] at hno
    have hnil : (b.outstanding.filter (·.mop = .read)).map (·.addr) = [] := by
      rw [h.waits.reads]
      exact if_neg (Bool.eq_false_iff.mp hno)
    have := hmem _ hop
    rw [List.map_eq_nil_iff.mp hnil] at this
    cases this
  | write =>
    rw [hop] at hno
    have hnil : (b.outstanding.filter (·.mop = .write)).length = 0 := by
      rw [h.waits.writes]
      exact if_neg (Bool.eq_false_iff.mp hno)
    have := hmem _ hop
    rw [List.length_eq_zero_iff.mp hnil] at this
    cases this

theorem Steady.rest_nil (h : Steady b) (hall : ∀ op, b.responses op = b.asked op) :
    PipeCache.deferral (P := P) b.cache = [] ∧ PipeCache.pending (P := P) b.cache = [] := by
  have hnil : PipeCache.deferral (P := P) b.cache ++
      (PipeCache.pending (P := P) b.cache).map CachePipeEntry.req = [] := by
    refine List.eq_nil_iff_forall_not_mem.mpr fun a ha => ?_
    have hp : piped P a = true := by
      rcases List.mem_append.mp ha with hd | hl
      · exact h.piped_deferral hd
      · refine h.piped_log ?_
        rw [PipeCache.log, List.map_append]
        exact List.mem_append_right _ hl
    have hop : P.writeBack = true ∨ a.2 = .read := by
      cases hwb : P.writeBack with
      | true => exact .inl rfl
      | false => exact .inr (read_of_piped hwb hp)
    have hsplit := h.split hop
    rw [hall a.2] at hsplit
    have hnone := List.self_eq_append_right.mp hsplit
    exact List.filter_eq_nil_iff.mp hnone a ha (decide_eq_true rfl)
  obtain ⟨hd, hp⟩ := List.append_eq_nil_iff.mp hnil
  exact ⟨hd, List.map_eq_nil_iff.mp hp⟩

theorem Steady.kept (h : Steady b) : Kept b := by
  refine ⟨h.answered_grow, fun m hm => h.awaited hm, fun ⟨hall, hout⟩ => ?_⟩
  obtain ⟨hd, hp⟩ := h.rest_nil hall
  refine h.healthy.comesBack hp hd ?_
  have hwrites := h.waits.writes
  rw [hout] at hwrites
  rw [Bool.eq_false_iff]
  intro hw
  unfold PipeCache.writesOwed at hwrites
  rw [hw] at hwrites
  cases hwrites

end Client

end NpSim.Cache
