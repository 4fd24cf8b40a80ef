/- digest: The channel protocol of the memory fabric: life cycle of a request, choice of the next
   one, and the counters, along every run of accepts and updates. -/

import Mathlib.Algebra.BigOperators.Pi
import Mathlib.Logic.Relation
import NpSim.Mem.Arbiter

set_option autoImplicit false
set_option relaxedAutoImplicit false

namespace NpSim.Mem

open NpSim.Lib.Partial Relation

/-- How far the latest request of one host on one channel has come. -/
inductive Stage
  | free
  | waiting (req : MemTrans)
  | served (req : MemTrans) (finish : Nat)

namespace Event

def about (h : Nat) (op : MemRWOpt) : Event → Bool
  | accept req _ => decide (req.id = h ∧ req.mop = op)
  | start req _ _ _ _ => decide (req.id = h ∧ req.mop = op)
  | answer host req _ => decide (host = h ∧ req.mop = op)
  | reset => false

/-- A service starts with the highest of the pending ids. -/
def PicksHighest : Event → Prop
  | start req _ _ _ pending => req.id ∈ pending ∧ ∀ h ∈ pending, h ≤ req.id
  | _ => True

/-- The starts of host `h` since the last reset. -/
def countStart (h : Nat) (n : Nat) : Event → Nat
  | start req _ _ _ _ => if req.id = h then n + 1 else n
  | reset => 0
  | _ => n

end Event

/-- The life of the requests of host `h` on channel `op`: each is accepted, has its latency
computed once, when its service starts, and is answered once, to its sender, when the latency has
passed; then the next one may come. -/
inductive Life (h : Nat) (op : MemRWOpt) : List Event → Stage → Prop
  | idle : Life h op [] .free
  | accept {l : List Event} (req : MemTrans) (now : Nat) (hl : Life h op l .free) (hid : req.id = h)
      (hop : req.mop = op) : Life h op (l ++ [.accept req now]) (.waiting req)
  | start {l : List Event} {req : MemTrans} (now begin lat : Nat) (pending : List Nat)
      (hl : Life h op l (.waiting req)) (hb : begin = now ∨ begin = now + 1) :
      Life h op (l ++ [.start req now begin lat pending])
        (.served { req with lat := lat } (begin + lat))
  | answer {l : List Event} {req : MemTrans} {finish : Nat} (now : Nat)
      (hl : Life h op l (.served req finish)) (hn : finish ≤ now) :
      Life h op (l ++ [.answer h req now]) .free

theorem Life.of {h : Nat} {op : MemRWOpt} {l : List Event} {st : Stage} (hl : Life h op l st) :
    match st with
    | .free => True
    | .waiting req => req.id = h ∧ req.mop = op
    | .served req _ => req.id = h ∧ req.mop = op := by
  induction hl with
  | idle => trivial
  | accept req now hl hid hop ih => exact ⟨hid, hop⟩
  | start now begin lat pending hl hb ih => exact ih
  | answer now hl hn ih => trivial

namespace RAMArbiter

variable {K : ArbiterConfig} {m m' : RAMArbiter K}

/-- The channel and the stage agree; `active` says that the host is being served. -/
def Agrees (c : Channel) (h : Nat) (active : Prop) : Stage → Prop
  | .free => c.reqs h = none ∧ ¬active
  | .waiting req => c.reqs h = some req ∧ ¬active
  | .served req finish => c.reqs h = some req ∧ active ∧ c.busyUntil = ((finish : Nat) : Tick)

/-- Host `h` is being served on channel `op`, unless the channel is in the middle of a
completion. -/
def Active (comp : Option MemRWOpt) (m : RAMArbiter K) (op : MemRWOpt) (h : Nat) : Prop :=
  comp ≠ some op ∧ (m.chan op).busyUntil ≠ infTime ∧ (m.chan op).servingId = h

def Counted (m : RAMArbiter K) (h : Nat) : Prop :=
  ∑ d ∈ Finset.range K.devices.count, m.hostDev h d = m.hostRd h + m.hostWr h ∧
    m.hostRd h + m.hostWr h = m.hist.foldl (Event.countStart h) 0

/-- The recorded life of host `h` on channel `op` agrees with the channel. -/
def LifeAt (comp : Option MemRWOpt) (m : RAMArbiter K) (op : MemRWOpt) (h : Nat) : Prop :=
  ∃ st, Life h op (m.hist.filter (Event.about h op)) st ∧
    Agrees (m.chan op) h (Active comp m op h) st

/-- What holds between any two events; `comp` is the channel in the middle of a completion. -/
structure Held (comp : Option MemRWOpt) (m : RAMArbiter K) : Prop where
  completing : ∀ op, comp = some op → (m.chan op).busyUntil ≠ infTime
  range : ∀ op h, ((m.chan op).reqs h).isSome → h < K.hosts
  life : ∀ op h, LifeAt comp m op h
  picks : ∀ e ∈ m.hist, e.PicksHighest
  counted : ∀ h, m.Counted h

/-- The invariant between two calls: an idle channel has no request. -/
structure Consistent (comp : Option MemRWOpt) (m : RAMArbiter K) : Prop where
  held : Held comp m
  idle : ∀ op, (m.chan op).busyUntil = infTime →
    (m.chan op).servingId = noHost ∧ ∀ h, (m.chan op).reqs h = none

theorem consistent_init : Consistent none ({} : RAMArbiter K) := by
  refine ⟨⟨by simp, by simp, ?_, by simp, ?_⟩, fun _ _ => ⟨rfl, fun _ => rfl⟩⟩
  · exact fun op h => ⟨.free, .idle, rfl, fun hc => hc.2.1 rfl⟩
  · exact fun h => ⟨by simp, rfl⟩

private theorem filter_about {l : List Event} {e : Event} {h : Nat} {op : MemRWOpt} :
    (l ++ [e]).filter (Event.about h op) =
      l.filter (Event.about h op) ++ if e.about h op then [e] else [] := by
  rw [List.filter_append]
  cases he : e.about h op <;> simp [he]

private theorem LifeAt.frame {comp comp' : Option MemRWOpt} {op : MemRWOpt} {h : Nat}
    (hl : LifeAt comp m op h)
    (hh : m'.hist.filter (Event.about h op) = m.hist.filter (Event.about h op))
    (hr : (m'.chan op).reqs h = (m.chan op).reqs h)
    (ha : Active comp' m' op h ↔ Active comp m op h)
    (hb : Active comp m op h → (m'.chan op).busyUntil = (m.chan op).busyUntil) :
    LifeAt comp' m' op h := by
  obtain ⟨st, hlife, hag⟩ := hl
  refine ⟨st, by rwa [hh], ?_⟩
  cases st with
  | free => exact ⟨hr.trans hag.1, fun hc => hag.2 (ha.mp hc)⟩
  | waiting req => exact ⟨hr.trans hag.1, fun hc => hag.2 (ha.mp hc)⟩
  | served req finish => exact ⟨hr.trans hag.1, ha.mpr hag.2.1, (hb hag.2.1).trans hag.2.2⟩

theorem Held.slot {comp : Option MemRWOpt} (hm : Held comp m) {op : MemRWOpt} {h : Nat}
    {req : MemTrans} (hr : (m.chan op).reqs h = some req) :
    req.id = h ∧ req.mop = op ∧ h < K.hosts := by
  obtain ⟨st, hl, hag⟩ := hm.life op h
  have hlt := hm.range op h (by simp [hr])
  have hof := hl.of
  cases st with
  | free => exact absurd (hr.symm.trans hag.1) (by simp)
  | waiting r =>
    cases Option.some.inj (hr.symm.trans hag.1)
    exact ⟨hof.1, hof.2, hlt⟩
  | served r finish =>
    cases Option.some.inj (hr.symm.trans hag.1)
    exact ⟨hof.1, hof.2, hlt⟩

theorem Held.served {comp : Option MemRWOpt} (hm : Held comp m) {op : MemRWOpt} {h : Nat}
    (ha : Active comp m op h) : ∃ req finish, (m.chan op).reqs h = some req ∧
      Life h op (m.hist.filter (Event.about h op)) (.served req finish) ∧
      (m.chan op).busyUntil = ((finish : Nat) : Tick) := by
  obtain ⟨st, hl, hag⟩ := hm.life op h
  cases st with
  | free => exact absurd ha hag.2
  | waiting r => exact absurd ha hag.2
  | served r finish => exact ⟨r, finish, hag.1, hl, hag.2.2⟩

private theorem counted_frame {h : Nat} (hc : m.Counted h) {e : Event}
    (he : ∀ h n, Event.countStart h n e = n) (hh : m'.hist = m.hist ++ [e])
    (hd : m'.hostDev = m.hostDev) (hr : m'.hostRd = m.hostRd) (hw : m'.hostWr = m.hostWr) :
    m'.Counted h := by
  unfold Counted at hc ⊢
  rw [hd, hr, hw, hh, List.foldl_append, List.foldl_cons, List.foldl_nil, he]
  exact hc

def insert (now : Nat) (req : MemTrans) (m : RAMArbiter K) : RAMArbiter K :=
  let c := m.chan req.mop
  { m.setChan req.mop { c with reqs := Function.update c.reqs req.id (some req) } with
    hist := m.hist ++ [.accept req now] }

private theorem insert_chan (now : Nat) (req : MemTrans) (op : MemRWOpt) (m : RAMArbiter K) :
    ((m.insert now req).chan op).busyUntil = (m.chan op).busyUntil ∧
    ((m.insert now req).chan op).servingId = (m.chan op).servingId ∧
    ∀ h, ((m.insert now req).chan op).reqs h =
      if op = req.mop ∧ h = req.id then some req else (m.chan op).reqs h := by
  by_cases ho : op = req.mop
  · subst ho
    simp [insert, setChan, Function.update_apply]
  · simp [insert, setChan, ho]

theorem Held.insert (now : Nat) {comp : Option MemRWOpt} (hm : Held comp m) {req : MemTrans}
    (hid : req.id < K.hosts) (hfree : (m.chan req.mop).reqs req.id = none) :
    Held comp (m.insert now req) := by
  have hact : ∀ op h, Active comp (m.insert now req) op h ↔ Active comp m op h := by
    intro op h
    obtain ⟨hb, hs, _⟩ := insert_chan now req op m
    rw [Active, Active, hb, hs]
  refine ⟨?_, ?_, ?_, ?_, ?_⟩
  · intro op hc
    rw [(insert_chan now req _ m).1]
    exact hm.completing op hc
  · intro op h hs
    rw [(insert_chan now req _ m).2.2] at hs
    split at hs
    · rename_i hx
      exact hx.2 ▸ hid
    · exact hm.range op h hs
  · intro op h
    by_cases hx : op = req.mop ∧ h = req.id
    · obtain ⟨rfl, rfl⟩ := hx
      obtain ⟨st, hl, hag⟩ := hm.life req.mop req.id
      cases st with
      | free =>
        refine ⟨.waiting req, ?_, ?_, fun hc => hag.2 ((hact _ _).mp hc)⟩
        · change Life _ _ ((m.hist ++ [_]).filter _) _
          rw [filter_about, if_pos (by simp [Event.about])]
          exact .accept req now hl rfl rfl
        · rw [(insert_chan now req _ m).2.2, if_pos ⟨rfl, rfl⟩]
      | waiting r => exact absurd (hfree.symm.trans hag.1) (by simp)
      | served r finish => exact absurd (hfree.symm.trans hag.1) (by simp)
    · refine (hm.life op h).frame ?_ ?_ (hact op h) fun _ => (insert_chan now req _ m).1
      · change (m.hist ++ [_]).filter _ = _
        rw [filter_about, if_neg, List.append_nil]
        simp only [Event.about, decide_eq_true_eq]
        rintro ⟨rfl, rfl⟩
        exact hx ⟨rfl, rfl⟩
      · rw [(insert_chan now req _ m).2.2, if_neg hx]
  · intro e he
    rcases List.mem_append.mp he with he | he
    · exact hm.picks e he
    · cases List.mem_singleton.mp he
      trivial
  · exact fun h => counted_frame (hm.counted h) (fun _ _ => rfl) rfl rfl rfl rfl

theorem latOf_eq_ok {now lat : Nat} {req : MemTrans} (h : m.latOf now req = .ok (lat, m')) :
    req.id < K.hosts ∧ m'.chan = m.chan ∧ m'.hist = m.hist ∧
      ∀ g, ∑ d ∈ Finset.range K.devices.count, m'.hostDev g d =
          ∑ d ∈ Finset.range K.devices.count, m.hostDev g d + (if req.id = g then 1 else 0) ∧
        m'.hostRd g + m'.hostWr g = m.hostRd g + m.hostWr g + (if req.id = g then 1 else 0) := by
  unfold latOf at h
  obtain ⟨hid, h⟩ := require_bind_eq_ok.mp h
  obtain ⟨hdid, h⟩ := require_bind_eq_ok.mp h
  cases h
  refine ⟨hid, ?_, ?_, fun g => ⟨?_, ?_⟩⟩
  · dsimp only [deviceAccess]
    split <;> rfl
  · dsimp only [deviceAccess]
    split <;> rfl
  · have hmem : K.deviceOf req.addr ∈ Finset.range K.devices.count := Finset.mem_range.mpr hdid
    have hdev : ∀ n : RAMArbiter K, n.hostDev = m.hostDev →
        ∑ d ∈ Finset.range K.devices.count, Function.update n.hostDev req.id
          (Function.update (n.hostDev req.id) (K.deviceOf req.addr)
            (n.hostDev req.id (K.deviceOf req.addr) + 1)) g d =
        ∑ d ∈ Finset.range K.devices.count, m.hostDev g d + (if req.id = g then 1 else 0) := by
      intro n hn
      rw [hn]
      by_cases hg : req.id = g
      · subst hg
        rw [Function.update_self, Finset.sum_update_of_mem hmem, if_pos rfl,
          ← Finset.add_sum_erase _ _ hmem, Finset.sdiff_singleton_eq_erase]
        omega
      · rw [Function.update_of_ne (Ne.symm hg), if_neg hg, Nat.add_zero]
    dsimp only [deviceAccess]
    split
    · exact hdev _ rfl
    · exact hdev _ rfl
  · dsimp only [deviceAccess]
    split <;> dsimp only <;> rw [Function.update_apply] <;> split <;> simp_all <;> omega

theorem serve_eq_ok {now start : Nat} {op : MemRWOpt} {req : MemTrans}
    (h : m.serve now start op req = .ok m') : ∃ lat,
    m'.hist = m.hist ++ [.start req now start lat (m.pending op)] ∧
    (∀ g, m.Counted g → m'.Counted g) ∧
    m'.chan = Function.update m.chan op
      { servingId := req.id
        busyUntil := ((start + lat : Nat) : Tick)
        reqs := Function.update (m.chan op).reqs req.id (some { req with lat := lat }) } := by
  unfold serve at h
  obtain ⟨⟨lat, n⟩, hlat, h⟩ := bind_eq_ok.mp h
  cases h
  obtain ⟨hid, hch, hhist, hcnt⟩ := latOf_eq_ok hlat
  refine ⟨lat, ?_, ?_, ?_⟩
  · change n.hist ++ _ = _
    rw [hhist]
  · rintro g ⟨hc1, hc2⟩
    change _ ∧ _ = (n.hist ++ _).foldl _ 0
    rw [hhist, List.foldl_append, ← hc2]
    obtain ⟨h1, h2⟩ := hcnt g
    refine ⟨?_, ?_⟩
    · change ∑ d ∈ Finset.range K.devices.count, n.hostDev g d = n.hostRd g + n.hostWr g
      rw [h1, h2, hc1]
    · change n.hostRd g + n.hostWr g = _
      rw [h2]
      simp only [List.foldl_cons, List.foldl_nil, Event.countStart]
      split <;> rfl
  · change Function.update n.chan op _ = _
    rw [hch]

theorem mem_pending {op : MemRWOpt} {h : Nat} :
    h ∈ m.pending op ↔ h < K.hosts ∧ ((m.chan op).reqs h).isSome := by
  simp [pending]

/-- The service of `req` is the next thing in the life of its host on channel `op`, and no other
host or channel notices it. -/
private theorem Held.serve_life {comp : Option MemRWOpt} (hm : Held comp m) {now start lat : Nat}
    {op : MemRWOpt} {req : MemTrans} (hcomp : comp ≠ some op)
    (hidle : (m.chan op).busyUntil = infTime) (hreq : (m.chan op).reqs req.id = some req)
    (hstart : start = now ∨ start = now + 1)
    (hhist : m'.hist = m.hist ++ [.start req now start lat (m.pending op)])
    (hself : m'.chan op =
      { servingId := req.id
        busyUntil := ((start + lat : Nat) : Tick)
        reqs := Function.update (m.chan op).reqs req.id (some { req with lat := lat }) })
    (hother : ∀ op', op' ≠ op → m'.chan op' = m.chan op') :
    ∀ op' g, LifeAt comp m' op' g := by
  obtain ⟨_, hmop, _⟩ := hm.slot hreq
  have hbusy : (m'.chan op).busyUntil ≠ infTime := by
    rw [hself]
    exact ENat.natCast_ne_top _
  intro op' g
  by_cases he : op' = op
  · subst he
    by_cases hg : g = req.id
    · subst hg
      obtain ⟨st, hl, hag⟩ := hm.life op' req.id
      cases st with
      | free => exact absurd (hreq.symm.trans hag.1) (by simp)
      | waiting r =>
        cases Option.some.inj (hreq.symm.trans hag.1)
        refine ⟨.served { req with lat := lat } (start + lat), ?_, ?_, ⟨hcomp, hbusy, ?_⟩, ?_⟩
        · rw [hhist, filter_about, if_pos (by simp [Event.about, hmop])]
          exact .start now start lat _ hl hstart
        · rw [hself]
          exact Function.update_self ..
        · rw [hself]
        · rw [hself]
      | served r finish => exact absurd hidle hag.2.1.2.1
    · have hserv : (m'.chan op').servingId = req.id := by rw [hself]
      refine (hm.life op' g).frame ?_ ?_ ?_ ?_
      · rw [hhist, filter_about, if_neg, List.append_nil]
        simp [Event.about, Ne.symm hg]
      · rw [hself]
        exact Function.update_of_ne hg ..
      · exact ⟨fun ha => absurd (ha.2.2.symm.trans hserv) hg, fun ha => absurd hidle ha.2.1⟩
      · exact fun ha => absurd hidle ha.2.1
  · refine (hm.life op' g).frame ?_ (by rw [hother op' he]) ?_ fun _ => by rw [hother op' he]
    · rw [hhist, filter_about, if_neg, List.append_nil]
      simp only [Event.about, decide_eq_true_eq]
      exact fun hx => he (hx.2.symm.trans hmop)
    · rw [Active, Active, hother op' he]

theorem Held.serve {comp : Option MemRWOpt} (hm : Held comp m) {now start : Nat} {op : MemRWOpt}
    {req : MemTrans} (hcomp : comp ≠ some op) (hidle : (m.chan op).busyUntil = infTime)
    (hreq : (m.chan op).reqs req.id = some req)
    (htop : ∀ h, ((m.chan op).reqs h).isSome → h ≤ req.id)
    (hstart : start = now ∨ start = now + 1) (h : m.serve now start op req = .ok m') :
    Held comp m' ∧ (m'.chan op).busyUntil ≠ infTime ∧
      ∀ op', op' ≠ op → m'.chan op' = m.chan op' := by
  obtain ⟨lat, hhist, hcnt, hch⟩ := serve_eq_ok h
  obtain ⟨_, _, hid⟩ := hm.slot hreq
  have hself : m'.chan op =
      { servingId := req.id
        busyUntil := ((start + lat : Nat) : Tick)
        reqs := Function.update (m.chan op).reqs req.id (some { req with lat := lat }) } := by
    rw [hch, Function.update_self]
  have hother : ∀ op', op' ≠ op → m'.chan op' = m.chan op' := fun op' hne => by
    rw [hch, Function.update_of_ne hne]
  have hbusy : (m'.chan op).busyUntil ≠ infTime := by
    rw [hself]
    exact ENat.natCast_ne_top _
  have hlife := hm.serve_life hcomp hidle hreq hstart hhist hself hother
  refine ⟨⟨?_, ?_, hlife, ?_, fun g => hcnt g (hm.counted g)⟩, hbusy, hother⟩
  · intro op' hc
    have hne : op' ≠ op := fun he => hcomp (he ▸ hc)
    rw [hother op' hne]
    exact hm.completing op' hc
  · intro op' g hs
    by_cases he : op' = op
    · subst he
      rw [hself] at hs
      dsimp only at hs
      rw [Function.update_apply] at hs
      split at hs
      · rename_i hg
        exact hg ▸ hid
      · exact hm.range op' g hs
    · rw [hother op' he] at hs
      exact hm.range op' g hs
  · intro e he
    rw [hhist] at he
    rcases List.mem_append.mp he with he | he
    · exact hm.picks e he
    · cases List.mem_singleton.mp he
      refine ⟨mem_pending.mpr ⟨hid, by simp [hreq]⟩, fun g hg => htop g (mem_pending.mp hg).2⟩

theorem recvReq_consistent {comp : Option MemRWOpt} (hm : Consistent comp m) {now : Nat}
    {req : MemTrans} (h : m.recvReq now req = .ok m') : Consistent comp m' := by
  unfold recvReq at h
  dsimp only at h
  obtain ⟨hid, h⟩ := require_bind_eq_ok.mp h
  obtain ⟨hfree, h⟩ := require_bind_eq_ok.mp h
  have hins := hm.held.insert now hid hfree
  change (if (m.chan req.mop).busyUntil = infTime then
    (m.insert now req).serve now now req.mop req else .ok (m.insert now req)) = .ok m' at h
  split at h
  · rename_i hidle
    have hnone := (hm.idle req.mop hidle).2
    have hcomp : comp ≠ some req.mop := fun hc => hm.held.completing _ hc hidle
    have htop : ∀ g, (((m.insert now req).chan req.mop).reqs g).isSome → g ≤ req.id := by
      intro g hg
      rw [(insert_chan now req _ m).2.2] at hg
      split at hg
      · rename_i hx
        exact hx.2.le
      · simp [hnone g] at hg
    obtain ⟨hheld, hbusy, hother⟩ := hins.serve hcomp ((insert_chan now req _ m).1.trans hidle)
      (by rw [(insert_chan now req _ m).2.2, if_pos ⟨rfl, rfl⟩]) htop (.inl rfl) h
    refine ⟨hheld, ?_⟩
    intro op hop
    by_cases he : op = req.mop
    · exact absurd (he ▸ hop) hbusy
    · rw [hother op he] at hop ⊢
      rw [(insert_chan now req _ m).1] at hop
      obtain ⟨hs, hn⟩ := hm.idle op hop
      refine ⟨(insert_chan now req _ m).2.1.trans hs, fun g => ?_⟩
      rw [(insert_chan now req _ m).2.2, if_neg fun hx => he hx.1]
      exact hn g
  · rename_i hbusy
    cases h
    refine ⟨hins, ?_⟩
    intro op hop
    rw [(insert_chan now req _ m).1] at hop
    have he : op ≠ req.mop := fun he => hbusy (he ▸ hop)
    obtain ⟨hs, hn⟩ := hm.idle op hop
    refine ⟨(insert_chan now req _ m).2.1.trans hs, fun g => ?_⟩
    rw [(insert_chan now req _ m).2.2, if_neg fun hx => he hx.1]
    exact hn g

def answered (now : Nat) (op : MemRWOpt) (h : Nat) (req : MemTrans) (m : RAMArbiter K) :
    RAMArbiter K :=
  { m.setChan op { m.chan op with reqs := Function.update (m.chan op).reqs h none } with
    hist := m.hist ++ [.answer h req now] }

def freed (op : MemRWOpt) (m : RAMArbiter K) : RAMArbiter K :=
  m.setChan op { m.chan op with busyUntil := infTime, servingId := noHost }

private theorem answered_self {now h : Nat} {op : MemRWOpt} {req : MemTrans} :
    (m.answered now op h req).chan op =
      { m.chan op with reqs := Function.update (m.chan op).reqs h none } :=
  Function.update_self ..

private theorem answered_other {now h : Nat} {op op' : MemRWOpt} {req : MemTrans} (ho : op' ≠ op) :
    (m.answered now op h req).chan op' = m.chan op' :=
  Function.update_of_ne ho ..

private theorem freed_self {op : MemRWOpt} :
    (m.freed op).chan op = { m.chan op with busyUntil := infTime, servingId := noHost } :=
  Function.update_self ..

private theorem freed_other {op op' : MemRWOpt} (ho : op' ≠ op) :
    (m.freed op).chan op' = m.chan op' :=
  Function.update_of_ne ho ..

theorem Consistent.answered (hm : Consistent none m) {now : Nat} {op : MemRWOpt} {req : MemTrans}
    (hdue : (m.chan op).busyUntil ≤ now)
    (hreq : (m.chan op).reqs (m.chan op).servingId = some req) :
    Consistent (some op) (m.answered now op (m.chan op).servingId req) := by
  have hbusy : (m.chan op).busyUntil ≠ infTime := by
    intro hc
    rw [hc] at hdue
    exact absurd (top_le_iff.mp hdue) (ENat.natCast_ne_top now)
  have hact : Active none m op (m.chan op).servingId := ⟨by simp, hbusy, rfl⟩
  obtain ⟨hid, hmop, hlt⟩ := hm.held.slot hreq
  refine ⟨⟨?_, ?_, ?_, ?_, ?_⟩, ?_⟩
  · intro op' hc
    cases hc
    rw [answered_self]
    exact hbusy
  · intro op' g hs
    by_cases he : op' = op
    · subst he
      rw [answered_self] at hs
      dsimp only at hs
      rw [Function.update_apply] at hs
      split at hs
      · cases hs
      · exact hm.held.range op' g hs
    · rw [answered_other he] at hs
      exact hm.held.range op' g hs
  · intro op' g
    by_cases he : op' = op
    · subst he
      by_cases hg : g = (m.chan op').servingId
      · subst hg
        obtain ⟨r, finish, hr, hl, hfin⟩ := hm.held.served hact
        cases Option.some.inj (hreq.symm.trans hr)
        refine ⟨.free, ?_, ?_, fun ha => ha.1 rfl⟩
        · change Life _ _ ((m.hist ++ [_]).filter _) _
          rw [filter_about, if_pos (by simp [Event.about, hmop])]
          refine .answer now hl ?_
          rw [hfin] at hdue
          exact_mod_cast hdue
        · rw [answered_self]
          exact Function.update_self ..
      · refine (hm.held.life op' g).frame ?_ ?_ ?_ fun _ => by rw [answered_self]
        · change (m.hist ++ [_]).filter _ = _
          rw [filter_about, if_neg, List.append_nil]
          simp [Event.about, Ne.symm hg]
        · rw [answered_self]
          exact Function.update_of_ne hg ..
        · exact ⟨fun ha => absurd rfl ha.1, fun ha => absurd ha.2.2.symm hg⟩
    · refine (hm.held.life op' g).frame ?_ (by rw [answered_other he]) ?_
        fun _ => by rw [answered_other he]
      · change (m.hist ++ [_]).filter _ = _
        rw [filter_about, if_neg, List.append_nil]
        simp only [Event.about, decide_eq_true_eq]
        exact fun hx => he (hx.2.symm.trans hmop)
      · rw [Active, Active, answered_other he]
        exact ⟨fun ha => ⟨by simp, ha.2⟩, fun ha => ⟨by simpa using Ne.symm he, ha.2⟩⟩
  · intro e he
    rcases List.mem_append.mp he with he | he
    · exact hm.held.picks e he
    · cases List.mem_singleton.mp he
      trivial
  · exact fun h => counted_frame (hm.held.counted h) (fun _ _ => rfl) rfl rfl rfl rfl
  · intro op' hop
    by_cases he : op' = op
    · subst he
      rw [answered_self] at hop
      exact absurd hop hbusy
    · rw [answered_other he] at hop ⊢
      exact hm.idle op' hop

theorem Held.freed {op : MemRWOpt} (hm : Held (some op) m) : Held none (m.freed op) := by
  refine ⟨by simp, ?_, ?_, hm.picks, hm.counted⟩
  · intro op' g hs
    by_cases he : op' = op
    · subst he
      rw [freed_self] at hs
      exact hm.range op' g hs
    · rw [freed_other he] at hs
      exact hm.range op' g hs
  · intro op' g
    by_cases he : op' = op
    · subst he
      refine (hm.life op' g).frame rfl (by rw [freed_self]) ?_ fun ha => absurd rfl ha.1
      rw [Active, Active, freed_self]
      exact ⟨fun ha => absurd rfl ha.2.1, fun ha => absurd rfl ha.1⟩
    · refine (hm.life op' g).frame rfl (by rw [freed_other he]) ?_
        fun _ => by rw [freed_other he]
      rw [Active, Active, freed_other he]
      exact ⟨fun ha => ⟨by simpa using Ne.symm he, ha.2⟩, fun ha => ⟨by simp, ha.2⟩⟩

def Accepts (now : Nat) (m m' : RAMArbiter K) : Prop := ∃ req, m.recvReq now req = .ok m'

variable {σ : Type}

/-- All a host does to the fabric while it takes a response is to send requests. -/
def Obliging (now : Nat)
    (recv : Nat → MemTrans → σ × RAMArbiter K → Except Fault (σ × RAMArbiter K)) : Prop :=
  ∀ h x s t, recv h x s = .ok t → ReflTransGen (Accepts now) s.2 t.2

theorem accepts_consistent {comp : Option MemRWOpt} {now : Nat}
    (h : ReflTransGen (Accepts now) m m') (hm : Consistent comp m) : Consistent comp m' :=
  invariant_of_run (fun _ _ hr hc => recvReq_consistent hc hr.choose_spec) hm h

private theorem find_reverse_range {p : Nat → Bool} {n g k : Nat}
    (h : (List.range n).reverse.find? p = some g) (hk : k < n) (hp : p k = true) : k ≤ g := by
  induction n with
  | zero => exact absurd hk (Nat.not_lt_zero k)
  | succ n ih =>
    rw [List.range_succ, List.reverse_append, List.reverse_singleton, List.singleton_append,
      List.find?_cons] at h
    split at h
    · cases h
      exact Nat.le_of_lt_succ hk
    · rename_i hn
      have hne : k ≠ n := by
        rintro rfl
        exact absurd hp (by simp [hn])
      exact ih h (by omega)

/-- The inversion of a completion. -/
theorem completeChannel_cases {now : Nat} {op : MemRWOpt}
    {recv : Nat → MemTrans → σ × RAMArbiter K → Except Fault (σ × RAMArbiter K)}
    {s t : σ × RAMArbiter K} (h : completeChannel now op recv s = .ok t) :
    ((s.2.chan op).busyUntil ≤ now → (s.2.chan op).servingId = noHost) ∧ t = s ∨
    ∃ req, (s.2.chan op).busyUntil ≤ now ∧
      (s.2.chan op).reqs (s.2.chan op).servingId = some req ∧ ∃ r,
      recv (s.2.chan op).servingId { req with dir := .resp }
        (s.1, s.2.answered now op (s.2.chan op).servingId req) = .ok r ∧ t.1 = r.1 ∧
      ((∀ h < K.hosts, (r.2.chan op).reqs h = none) ∧ t.2 = r.2.freed op ∨
        ∃ g next, (r.2.chan op).reqs g = some next ∧
          (∀ h < K.hosts, ((r.2.chan op).reqs h).isSome → h ≤ g) ∧
          (r.2.freed op).serve now (now + 1) op next = .ok t.2) := by
  unfold completeChannel at h
  dsimp only at h
  split at h
  · rename_i hdue
    obtain ⟨_, h⟩ := require_bind_eq_ok.mp h
    split at h
    · cases h
    · rename_i req hreq
      obtain ⟨r, hr, h⟩ := bind_eq_ok.mp h
      have hreqs : ((r.2.freed op).chan op).reqs = (r.2.chan op).reqs := by rw [freed_self]
      rw [show r.2.setChan op { reqs := (r.2.chan op).reqs } = r.2.freed op from rfl] at h
      split at h
      · rename_i hnone
        cases h
        refine .inr ⟨req, hdue.1, hreq, r, hr, rfl, .inl ⟨?_, rfl⟩⟩
        unfold pickNext at hnone
        rw [hreqs, List.find?_eq_none] at hnone
        intro g hg
        simpa using hnone g (by simpa using hg)
      · rename_i g hsome
        unfold pickNext at hsome
        rw [hreqs] at hsome h
        split at h
        · rename_i hn
          have := List.find?_some hsome
          simp [hn] at this
        · rename_i next hnext
          obtain ⟨n, hn, h⟩ := bind_eq_ok.mp h
          cases h
          refine .inr ⟨req, hdue.1, hreq, r, hr, rfl, .inr ⟨g, next, hnext, ?_, hn⟩⟩
          exact fun k hk hks => find_reverse_range hsome hk hks
  · rename_i hdue
    cases h
    refine .inl ⟨fun hb => ?_, rfl⟩
    by_contra hs
    exact hdue ⟨hb, hs⟩

theorem Consistent.free {op : MemRWOpt} (hm : Consistent (some op) m)
    (hnone : ∀ h < K.hosts, (m.chan op).reqs h = none) : Consistent none (m.freed op) := by
  refine ⟨hm.held.freed, fun op' hop => ?_⟩
  by_cases he : op' = op
  · subst he
    rw [freed_self]
    refine ⟨rfl, fun h => ?_⟩
    by_contra hs
    have hsome : ((m.chan op').reqs h).isSome := Option.isSome_iff_ne_none.mpr hs
    exact hs (hnone h (hm.held.range op' h hsome))
  · rw [freed_other he] at hop ⊢
    exact hm.idle op' hop

/-- A completed channel takes up the highest of its requests. -/
theorem Consistent.next {now g : Nat} {op : MemRWOpt} {req : MemTrans}
    (hm : Consistent (some op) m) (hg : (m.chan op).reqs g = some req)
    (htop : ∀ h < K.hosts, ((m.chan op).reqs h).isSome → h ≤ g)
    (h : (m.freed op).serve now (now + 1) op req = .ok m') : Consistent none m' := by
  obtain ⟨rfl, _⟩ := hm.held.slot hg
  obtain ⟨hheld, hbusy, hother⟩ := hm.held.freed.serve (by simp) (by rw [freed_self])
    (by rw [freed_self]; exact hg)
    (fun h hs => by
      rw [freed_self] at hs
      exact htop h (hm.held.range op h hs) hs)
    (.inr rfl) h
  refine ⟨hheld, fun op' hop => ?_⟩
  by_cases he : op' = op
  · exact absurd (he ▸ hop) hbusy
  · rw [hother op' he, freed_other he] at hop ⊢
    exact hm.idle op' hop

theorem completeChannel_consistent {now : Nat} {op : MemRWOpt}
    {recv : Nat → MemTrans → σ × RAMArbiter K → Except Fault (σ × RAMArbiter K)}
    (hrecv : Obliging now recv) {s t : σ × RAMArbiter K} (hm : Consistent none s.2)
    (h : completeChannel now op recv s = .ok t) : Consistent none t.2 := by
  obtain ⟨_, rfl⟩ | ⟨req, hdue, hreq, r, hr, _, hnext⟩ := completeChannel_cases h
  · exact hm
  · have hr' := accepts_consistent (hrecv _ _ _ _ hr) (hm.answered hdue hreq)
    rcases hnext with ⟨hnone, ht⟩ | ⟨g, next, hg, htop, hserve⟩
    · rw [ht]
      exact hr'.free hnone
    · exact hr'.next hg htop hserve

theorem resetStats_consistent (hm : Consistent none m) : Consistent none m.resetStats := by
  refine ⟨⟨hm.held.completing, hm.held.range, ?_, ?_, ?_⟩, hm.idle⟩
  · intro op h
    refine (hm.held.life op h).frame ?_ rfl Iff.rfl fun _ => rfl
    change (m.hist ++ [_]).filter _ = _
    rw [filter_about]
    exact List.append_nil _
  · intro e he
    rcases List.mem_append.mp he with he | he
    · exact hm.held.picks e he
    · cases List.mem_singleton.mp he
      trivial
  · intro h
    refine ⟨Finset.sum_const_zero, ?_⟩
    change 0 + 0 = (m.hist ++ [_]).foldl _ 0
    rw [List.foldl_append]
    rfl

/-- What a sequence of calls does not undo: the history, and the requests of a busy channel. -/
structure Extends (m m' : RAMArbiter K) : Prop where
  hist : ∃ l, m'.hist = m.hist ++ l
  kept : ∀ op, (m.chan op).busyUntil ≠ infTime →
    (m'.chan op).busyUntil = (m.chan op).busyUntil ∧
      (m'.chan op).servingId = (m.chan op).servingId ∧
      ∀ h req, (m.chan op).reqs h = some req → (m'.chan op).reqs h = some req

theorem Extends.refl (m : RAMArbiter K) : Extends m m :=
  ⟨⟨[], (List.append_nil _).symm⟩, fun _ _ => ⟨rfl, rfl, fun _ _ hr => hr⟩⟩

theorem Extends.trans {n : RAMArbiter K} (h : Extends m m') (h' : Extends m' n) :
    Extends m n := by
  obtain ⟨l, hl⟩ := h.hist
  obtain ⟨l', hl'⟩ := h'.hist
  refine ⟨⟨l ++ l', by rw [hl', hl, List.append_assoc]⟩, ?_⟩
  intro op hb
  obtain ⟨h1, h2, h3⟩ := h.kept op hb
  obtain ⟨h1', h2', h3'⟩ := h'.kept op (h1 ▸ hb)
  exact ⟨h1'.trans h1, h2'.trans h2, fun g req hg => h3' g req (h3 g req hg)⟩

theorem recvReq_extends {now : Nat} {req : MemTrans} (h : m.recvReq now req = .ok m') :
    Extends m m' := by
  unfold recvReq at h
  dsimp only at h
  obtain ⟨_, h⟩ := require_bind_eq_ok.mp h
  obtain ⟨hfree, h⟩ := require_bind_eq_ok.mp h
  change (if (m.chan req.mop).busyUntil = infTime then
    (m.insert now req).serve now now req.mop req else .ok (m.insert now req)) = .ok m' at h
  have hins : Extends m (m.insert now req) := by
    refine ⟨⟨_, rfl⟩, fun op _ => ⟨(insert_chan now req _ m).1, (insert_chan now req _ m).2.1,
      fun g r hg => ?_⟩⟩
    rw [(insert_chan now req _ m).2.2, if_neg]
    · exact hg
    · rintro ⟨rfl, rfl⟩
      exact absurd (hfree.symm.trans hg) (by simp)
  split at h
  · rename_i hidle
    obtain ⟨lat, hhist, _, hch⟩ := serve_eq_ok h
    refine ⟨⟨_, by rw [hhist, insert, List.append_assoc]⟩, fun op hb => ?_⟩
    have he : op ≠ req.mop := fun he => hb (he ▸ hidle)
    rw [hch, Function.update_of_ne he]
    exact hins.kept op hb
  · cases h
    exact hins

theorem accepts_extends {now : Nat} (h : ReflTransGen (Accepts now) m m') : Extends m m' :=
  invariant_of_run (I := Extends m) (fun _ _ hr he => he.trans (recvReq_extends hr.choose_spec))
    (.refl m) h

theorem completeChannel_extends {now : Nat} {op : MemRWOpt}
    {recv : Nat → MemTrans → σ × RAMArbiter K → Except Fault (σ × RAMArbiter K)}
    (hrecv : Obliging now recv) {s t : σ × RAMArbiter K}
    (h : completeChannel now op recv s = .ok t) :
    (∃ l, t.2.hist = s.2.hist ++ l ∧ ((s.2.chan op).busyUntil ≤ now →
      (s.2.chan op).servingId ≠ noHost → ∃ req,
        (s.2.chan op).reqs (s.2.chan op).servingId = some req ∧
        .answer (s.2.chan op).servingId req now ∈ l)) ∧
    ∀ op', op' ≠ op → (s.2.chan op').busyUntil ≠ infTime →
      (t.2.chan op').busyUntil = (s.2.chan op').busyUntil ∧
      (t.2.chan op').servingId = (s.2.chan op').servingId ∧
      ∀ h req, (s.2.chan op').reqs h = some req → (t.2.chan op').reqs h = some req := by
  obtain ⟨hnot, rfl⟩ | ⟨req, hdue, hreq, r, hr, _, hnext⟩ := completeChannel_cases h
  · exact ⟨⟨[], (List.append_nil _).symm, fun hd hn => absurd (hnot hd) hn⟩,
      fun _ _ _ => ⟨rfl, rfl, fun _ _ hg => hg⟩⟩
  · have hx := accepts_extends (hrecv _ _ _ _ hr)
    obtain ⟨l, hl⟩ := hx.hist
    have hkept : ∀ op', op' ≠ op → (s.2.chan op').busyUntil ≠ infTime →
        ((r.2.freed op).chan op').busyUntil = (s.2.chan op').busyUntil ∧
        ((r.2.freed op).chan op').servingId = (s.2.chan op').servingId ∧
        ∀ h req, (s.2.chan op').reqs h = some req →
          ((r.2.freed op).chan op').reqs h = some req := by
      intro op' he hb
      have hk := hx.kept op'
      rw [answered_other he] at hk
      rw [freed_other he]
      exact hk hb
    have hhist : r.2.hist = s.2.hist ++ (.answer (s.2.chan op).servingId req now :: l) := by
      rw [hl, answered, List.append_assoc]
      rfl
    rcases hnext with ⟨_, ht⟩ | ⟨g, next, _, _, hserve⟩
    · rw [ht]
      exact ⟨⟨_, hhist, fun _ _ => ⟨req, hreq, List.mem_cons_self⟩⟩, hkept⟩
    · obtain ⟨lat, hh, _, hch⟩ := serve_eq_ok hserve
      have hfh : (r.2.freed op).hist = r.2.hist := rfl
      rw [hfh, hhist, List.append_assoc] at hh
      refine ⟨⟨_, hh, fun _ _ => ⟨req, hreq, List.mem_append_left _ List.mem_cons_self⟩⟩, ?_⟩
      · intro op' he hb
        rw [hch, Function.update_of_ne he]
        exact hkept op' he hb

theorem Consistent.serving (hm : Consistent none m) {op : MemRWOpt}
    (hb : (m.chan op).busyUntil ≠ infTime) :
    ∃ req, (m.chan op).reqs (m.chan op).servingId = some req ∧
      (m.chan op).servingId < K.hosts := by
  obtain ⟨req, _, hr, _, _⟩ := hm.held.served (show Active none m op _ from ⟨by simp, hb, rfl⟩)
  exact ⟨req, hr, (hm.held.slot hr).2.2⟩

private theorem due_busy {now : Nat} {t : Tick} (h : t ≤ now) : t ≠ infTime := by
  rintro rfl
  exact absurd (top_le_iff.mp h) (ENat.natCast_ne_top now)

/-- A `do_update` that comes in time answers the request being served. -/
theorem doUpdate_answers (hK : K.hosts ≤ noHost) {now : Nat}
    {recv : Nat → MemTrans → σ × RAMArbiter K → Except Fault (σ × RAMArbiter K)}
    (hrecv : Obliging now recv) {s t : σ × RAMArbiter K} (hm : Consistent none s.2)
    (h : doUpdate now recv s = .ok t) {op : MemRWOpt} (hdue : (s.2.chan op).busyUntil ≤ now) :
    ∃ req l, (s.2.chan op).reqs (s.2.chan op).servingId = some req ∧
      t.2.hist = s.2.hist ++ l ∧ .answer (s.2.chan op).servingId req now ∈ l := by
  unfold doUpdate at h
  rw [if_pos] at h
  · unfold updateImpl at h
    obtain ⟨r, hr, h⟩ := bind_eq_ok.mp h
    obtain ⟨⟨l, hl, ha⟩, hkept⟩ := completeChannel_extends hrecv hr
    obtain ⟨⟨l', hl', ha'⟩, _⟩ := completeChannel_extends hrecv h
    have hb := due_busy hdue
    obtain ⟨req, hreq, hlt⟩ := hm.serving hb
    have hid : (s.2.chan op).servingId ≠ noHost := by omega
    cases op with
    | read =>
      obtain ⟨req', hreq', hmem⟩ := ha hdue hid
      exact ⟨req', l ++ l', hreq', by rw [hl', hl, List.append_assoc],
        List.mem_append_left _ hmem⟩
    | write =>
      obtain ⟨h1, h2, h3⟩ := hkept .write (by decide) hb
      obtain ⟨req', hreq', hmem⟩ := ha' (h1 ▸ hdue) (h2 ▸ hid)
      rw [h2] at hreq' hmem
      cases Option.some.inj (hreq'.symm.trans (h3 _ _ hreq))
      exact ⟨req, l ++ l', hreq, by rw [hl', hl, List.append_assoc],
        List.mem_append_right _ hmem⟩
  · unfold nextUpdate
    cases op with
    | read => exact (min_le_left _ _).trans hdue
    | write => exact (min_le_right _ _).trans hdue

end RAMArbiter

/-- Every entry of the map, and the default, names a device. -/
def ArbiterConfig.MapsDevices (K : ArbiterConfig) : Prop :=
  K.defaultDevice < K.devices.count ∧ ∀ e ∈ K.addrMap, e.deviceId < K.devices.count

theorem ArbiterConfig.MapsDevices.deviceOf {K : ArbiterConfig} (hK : K.MapsDevices) (addr : Addr) :
    K.deviceOf addr < K.devices.count := by
  unfold ArbiterConfig.deviceOf
  split
  · rename_i e he
    exact hK.2 e (List.mem_of_find?_eq_some he)
  · exact hK.1

namespace RAMArbiter

variable {K : ArbiterConfig} {m m' : RAMArbiter K} {σ : Type}

private theorem serve_ok (hK : K.MapsDevices) {req : MemTrans} (hid : req.id < K.hosts)
    (now start : Nat) (op : MemRWOpt) (m : RAMArbiter K) :
    ∃ m', m.serve now start op req = .ok m' := by
  unfold serve latOf
  dsimp only
  rw [require_of hid, ok_bind, require_of (hK.deviceOf req.addr)]
  exact ⟨_, rfl⟩

/-- A host returns when it takes the response to the request it had on a channel. -/
def Returning (recv : Nat → MemTrans → σ × RAMArbiter K → Except Fault (σ × RAMArbiter K)) :
    Prop :=
  ∀ h x s, (s.2.chan x.mop).reqs h = none → ∃ t, recv h x s = .ok t

private theorem completeChannel_ok (hK : K.MapsDevices) {now : Nat} (op : MemRWOpt)
    {recv : Nat → MemTrans → σ × RAMArbiter K → Except Fault (σ × RAMArbiter K)}
    (hrecv : Obliging now recv) (hret : Returning recv) {s : σ × RAMArbiter K}
    (hm : Consistent none s.2) : ∃ t, completeChannel now op recv s = .ok t := by
  unfold completeChannel
  dsimp only
  split
  · rename_i hdue
    obtain ⟨req, hreq, hlt⟩ := hm.serving (due_busy hdue.1)
    obtain ⟨_, hmop, _⟩ := hm.held.slot hreq
    rw [require_of hlt, ok_bind, hreq]
    dsimp only
    have hfree : ((s.2.answered now op (s.2.chan op).servingId req).chan req.mop).reqs
        (s.2.chan op).servingId = none := by
      rw [hmop, answered_self]
      exact Function.update_self ..
    obtain ⟨r, hr⟩ := hret _ { req with dir := .resp } (s.1, _) hfree
    have hheld := (accepts_consistent (hrecv _ _ _ _ hr) (hm.answered hdue.1 hreq)).held.freed
    refine Exists.imp (fun t ht => bind_eq_ok.mpr ⟨r, hr, ht⟩) ?_
    split
    · exact ⟨_, rfl⟩
    · split
      · exact ⟨_, rfl⟩
      · rename_i next hnext
        obtain ⟨hid, _, hg⟩ := hheld.slot hnext
        obtain ⟨n, hn⟩ := serve_ok hK (hid ▸ hg) now (now + 1) op (r.2.freed op)
        exact ⟨(r.1, n), bind_eq_ok.mpr ⟨n, hn, rfl⟩⟩
  · exact ⟨_, rfl⟩

/-- An update with hosts that return returns. -/
theorem doUpdate_ok (hK : K.MapsDevices) {now : Nat}
    {recv : Nat → MemTrans → σ × RAMArbiter K → Except Fault (σ × RAMArbiter K)}
    (hrecv : Obliging now recv) (hret : Returning recv) {s : σ × RAMArbiter K}
    (hm : Consistent none s.2) : ∃ t, doUpdate now recv s = .ok t := by
  unfold doUpdate
  split
  · obtain ⟨r, hr⟩ := completeChannel_ok hK .read hrecv hret hm
    obtain ⟨t, ht⟩ := completeChannel_ok hK .write hrecv hret
      (completeChannel_consistent hrecv hm hr)
    exact ⟨t, by rw [updateImpl, hr, ok_bind, ht]⟩
  · exact ⟨_, rfl⟩

/-- One call on the fabric at tick `now`. -/
inductive Call (now : Nat) (m : RAMArbiter K) : RAMArbiter K → Prop
  | recvReq {m' : RAMArbiter K} (req : MemTrans) (h : m.recvReq now req = .ok m') : Call now m m'
  | doUpdate {σ : Type}
      (recv : Nat → MemTrans → σ × RAMArbiter K → Except Fault (σ × RAMArbiter K))
      (hosts : Obliging now recv) (e : σ) (t : σ × RAMArbiter K)
      (h : doUpdate now recv (e, m) = .ok t) : Call now m t.2
  | resetStats : Call now m m.resetStats

end RAMArbiter

/-- The fabric with its clock. -/
structure Timed (K : ArbiterConfig) where
  now : Nat
  mem : RAMArbiter K

namespace Timed

open RAMArbiter

variable {K : ArbiterConfig}

inductive Step : Timed K → Timed K → Prop
  | call {now : Nat} {m m' : RAMArbiter K} (h : Call now m m') : Step ⟨now, m⟩ ⟨now, m'⟩
  | wait {now later : Nat} {m : RAMArbiter K} (h : now ≤ later) : Step ⟨now, m⟩ ⟨later, m⟩

/-- Any interleaving of requests, updates and resets at non-decreasing ticks. -/
def Reachable (s : Timed K) : Prop := ReflTransGen Step ⟨0, {}⟩ s

/-- Hosts that send nothing while they take a response. -/
def quiet (_ : Nat) (_ : MemTrans) (s : Unit × RAMArbiter K) :
    Except Fault (Unit × RAMArbiter K) :=
  .ok s

end Timed

end NpSim.Mem
