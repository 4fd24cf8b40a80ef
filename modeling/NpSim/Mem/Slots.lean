/- digest: The fabric as its hosts see it: the addresses in its slots, and the one fault left. -/

import NpSim.Lib.Contract
import NpSim.Mem.Protocol

set_option autoImplicit false
set_option relaxedAutoImplicit false

namespace NpSim.Mem

open NpSim.Lib.Partial NpSim.Lib.Contract

/-- The fault left to the fabric: an address that no device serves. -/
def ArbiterConfig.Unrouted (K : ArbiterConfig) (f : Fault) : Prop :=
  f = .deviceRange ∧ ∃ addr, K.devices.count ≤ K.deviceOf addr

/-- The address of the request of each host on each channel. -/
abbrev Slots := MemRWOpt → Nat → Option Addr

def Slots.put (s : Slots) (op : MemRWOpt) (h : Nat) (a : Option Addr) : Slots :=
  Function.update s op (Function.update (s op) h a)

theorem Slots.put_self (s : Slots) (op : MemRWOpt) (h : Nat) (a : Option Addr) :
    s.put op h a op h = a := by
  rw [put, Function.update_self, Function.update_self]

theorem Slots.put_other {s : Slots} {op op' : MemRWOpt} {h h' : Nat} {a : Option Addr}
    (hne : ¬(op' = op ∧ h' = h)) : s.put op h a op' h' = s op' h' := by
  unfold put
  by_cases ho : op' = op
  · subst ho
    rw [Function.update_self, Function.update_of_ne fun hh => hne ⟨rfl, hh⟩]
  · rw [Function.update_of_ne ho]

namespace RAMArbiter

variable {K : ArbiterConfig} {m m' : RAMArbiter K} {now : Nat}

def slots (m : RAMArbiter K) : Slots := fun op h => ((m.chan op).reqs h).map (·.addr)

private theorem slots_update {op : MemRWOpt} {c : Channel} {h : Nat} {o : Option MemTrans}
    (hc : m'.chan = Function.update m.chan op c)
    (hr : c.reqs = Function.update (m.chan op).reqs h o) :
    m'.slots = m.slots.put op h (o.map (·.addr)) := by
  funext op' h'
  by_cases ho : op' = op
  · subst ho
    by_cases hh : h' = h
    · subst hh
      rw [Slots.put_self, slots, hc, Function.update_self, hr, Function.update_self]
    · rw [Slots.put_other fun hx => hh hx.2, slots, hc, Function.update_self, hr,
        Function.update_of_ne hh]
      rfl
  · rw [Slots.put_other fun hx => ho hx.1, slots, hc, Function.update_of_ne ho]
    rfl

private theorem put_same {s : Slots} {op : MemRWOpt} {h : Nat} : s.put op h (s op h) = s := by
  rw [Slots.put, Function.update_eq_self, Function.update_eq_self]

theorem slots_insert (req : MemTrans) :
    (m.insert now req).slots = m.slots.put req.mop req.id (some req.addr) :=
  slots_update (h := req.id) (o := some req) rfl rfl

theorem slots_answered {op : MemRWOpt} {h : Nat} {req : MemTrans} :
    (m.answered now op h req).slots = m.slots.put op h none :=
  slots_update (h := h) (o := none) rfl rfl

theorem slots_freed {op : MemRWOpt} : (m.freed op).slots = m.slots := by
  funext op' h'
  unfold slots freed setChan
  dsimp only
  by_cases ho : op' = op
  · subst ho
    rw [Function.update_self]
  · rw [Function.update_of_ne ho]

private theorem latOf_meets {req : MemTrans} (hid : req.id < K.hosts) :
    Meets K.Unrouted (fun _ => True) (m.latOf now req) := by
  unfold latOf
  refine Meets.require hid ?_
  by_cases hd : K.deviceOf req.addr < K.devices.count
  · exact Meets.require hd trivial
  · dsimp only
    rw [require, if_neg hd]
    exact ⟨rfl, req.addr, Nat.not_lt.mp hd⟩

theorem serve_meets {start : Nat} {op : MemRWOpt} {req : MemTrans} (hid : req.id < K.hosts)
    (hreq : (m.chan op).reqs req.id = some req) :
    Meets K.Unrouted (fun n => n.slots = m.slots) (m.serve now start op req) := by
  have hall : Meets K.Unrouted (fun _ => True) (m.serve now start op req) := by
    unfold serve
    exact (latOf_meets hid).bind fun _ _ _ => trivial
  refine hall.imp fun n hn _ => ?_
  obtain ⟨lat, _, _, hch⟩ := serve_eq_ok hn
  rw [slots_update (h := req.id) (o := some { req with lat := lat }) hch rfl]
  have hs : m.slots op req.id = some req.addr := by
    rw [slots, hreq]
    rfl
  change m.slots.put op req.id (some req.addr) = _
  rw [← hs, put_same]

theorem Held.next_slots {comp : Option MemRWOpt} (hm : Held comp m) {op : MemRWOpt} {g start : Nat}
    {req : MemTrans} (hg : (m.chan op).reqs g = some req)
    (h : (m.freed op).serve now start op req = .ok m') : m'.slots = m.slots := by
  obtain ⟨rfl, _, hlt⟩ := hm.slot hg
  have hreq : ((m.freed op).chan op).reqs req.id = some req := by
    unfold RAMArbiter.freed setChan
    dsimp only
    rw [Function.update_self]
    exact hg
  rw [(serve_meets hlt hreq).result h, slots_freed]

theorem recvReq_meets {comp : Option MemRWOpt} {req : MemTrans} (hm : Consistent comp m)
    (hid : req.id < K.hosts) (hfree : m.slots req.mop req.id = none) :
    Meets K.Unrouted
      (fun n => Consistent comp n ∧ n.slots = m.slots.put req.mop req.id (some req.addr))
      (m.recvReq now req) := by
  refine Meets.imp (Q := fun n => n.slots = m.slots.put req.mop req.id (some req.addr)) ?_
    fun n hn hs => ⟨recvReq_consistent hm hn, hs⟩
  unfold recvReq
  have hfree' : (m.chan req.mop).reqs req.id = none := Option.map_eq_none_iff.mp hfree
  refine Meets.require hid (Meets.require hfree' ?_)
  change Meets _ _ (if (m.chan req.mop).busyUntil = infTime then
    (m.insert now req).serve now now req.mop req else .ok (m.insert now req))
  split
  · have hreq : ((m.insert now req).chan req.mop).reqs req.id = some req := by
      unfold insert setChan
      dsimp only
      rw [Function.update_self]
      exact Function.update_self ..
    exact (serve_meets hid hreq).imp fun n _ hs => hs.trans (slots_insert req)
  · exact slots_insert req

theorem recvReq_slots {comp : Option MemRWOpt} {req : MemTrans} (hm : Consistent comp m)
    (h : m.recvReq now req = .ok m') : req.id < K.hosts ∧ m.slots req.mop req.id = none ∧
      m'.slots = m.slots.put req.mop req.id (some req.addr) := by
  have hx := h
  unfold recvReq at hx
  obtain ⟨hid, hx⟩ := require_bind_eq_ok.mp hx
  obtain ⟨hfree, _⟩ := require_bind_eq_ok.mp hx
  have hnone : m.slots req.mop req.id = none := by
    rw [slots, hfree]
    rfl
  exact ⟨hid, hnone, ((recvReq_meets hm hid hnone).result h).2⟩

variable {σ : Type} {p : Fault → Prop} {I : σ → Slots → Prop}
  {recv : Nat → MemTrans → σ × RAMArbiter K → Except Fault (σ × RAMArbiter K)}

/-- The hosts take every response they wait for, and send nothing meanwhile. -/
def Receptive (p : Fault → Prop) (I : σ → Slots → Prop)
    (recv : Nat → MemTrans → σ × RAMArbiter K → Except Fault (σ × RAMArbiter K)) : Prop :=
  ∀ (e : σ) (s : Slots) (op : MemRWOpt) (h : Nat) (req : MemTrans) (n : RAMArbiter K),
    I e s → s op h = some req.addr → req.id = h → req.mop = op → h < K.hosts →
    Meets p (fun r => r.2 = n ∧ I r.1 (s.put op h none)) (recv h { req with dir := .resp } (e, n))

private theorem nextService_meets (hp : ∀ f, K.Unrouted f → p f) {op : MemRWOpt} {e : σ}
    (hslot : ∀ h req, (m.chan op).reqs h = some req → req.id = h ∧ h < K.hosts)
    (hI : I e m.slots) :
    Meets p (fun t : σ × RAMArbiter K => I t.1 t.2.slots) (match m.pickNext op with
      | none => .ok (e, m)
      | some h =>
        match (m.chan op).reqs h with
        | none => .ok (e, m)
        | some req => do
          let m ← m.serve now (now + 1) op req
          .ok (e, m)) := by
  split
  · exact hI
  · rename_i h _
    split
    · exact hI
    · rename_i req hreq
      obtain ⟨rfl, hlt⟩ := hslot h req hreq
      refine ((serve_meets hlt hreq).mono hp).bind fun n _ hn => ?_
      change I e n.slots
      rw [hn]
      exact hI

/-- A completion stops at most where the host that it answers does, or at an address without a
device. -/
theorem completeChannel_stops {op : MemRWOpt} (hp : ∀ f, K.Unrouted f → p f)
    {s : σ × RAMArbiter K} (hm : Consistent none s.2)
    (hrecv : ∀ req, (s.2.chan op).busyUntil ≤ now →
      (s.2.chan op).reqs (s.2.chan op).servingId = some req →
      Meets p (fun r => Consistent (some op) r.2) (recv (s.2.chan op).servingId
        { req with dir := .resp } (s.1, s.2.answered now op (s.2.chan op).servingId req))) :
    Meets p (fun _ => True) (completeChannel now op recv s) := by
  unfold completeChannel
  dsimp only
  split
  · rename_i hdue
    have hbusy : (s.2.chan op).busyUntil ≠ infTime := by
      intro hb
      rw [hb] at hdue
      exact absurd (top_le_iff.mp hdue.1) (ENat.natCast_ne_top now)
    obtain ⟨req, hreq, hlt⟩ := hm.serving hbusy
    refine Meets.require hlt ?_
    rw [hreq]
    refine (hrecv req hdue.1 hreq).bind fun r _ hr => ?_
    refine nextService_meets (I := fun _ _ => True) (m := r.2.freed op) hp (fun h next hnext => ?_)
      trivial
    obtain ⟨hid, _, hlt⟩ := hr.held.freed.slot hnext
    exact ⟨hid, hlt⟩
  · exact trivial

theorem completeChannel_meets {op : MemRWOpt} (hp : ∀ f, K.Unrouted f → p f)
    (hobl : Obliging now recv) (hrecv : Receptive p I recv) {s : σ × RAMArbiter K}
    (hm : Consistent none s.2) (hI : I s.1 s.2.slots) :
    Meets p (fun t => Consistent none t.2 ∧ I t.1 t.2.slots) (completeChannel now op recv s) := by
  refine Meets.imp (Q := fun t => I t.1 t.2.slots) ?_
    fun t ht h => ⟨completeChannel_consistent hobl hm ht, h⟩
  unfold completeChannel
  dsimp only
  split
  · rename_i hdue
    have hbusy : (s.2.chan op).busyUntil ≠ infTime := by
      intro hb
      rw [hb] at hdue
      exact absurd (top_le_iff.mp hdue.1) (ENat.natCast_ne_top now)
    obtain ⟨req, hreq, hlt⟩ := hm.serving hbusy
    obtain ⟨hid, hmop, _⟩ := hm.held.slot hreq
    refine Meets.require hlt ?_
    rw [hreq]
    dsimp only
    have hslot : s.2.slots op (s.2.chan op).servingId = some req.addr := by
      rw [slots, hreq]
      rfl
    have hr := hrecv s.1 s.2.slots op (s.2.chan op).servingId req
      (s.2.answered now op (s.2.chan op).servingId req) hI hslot hid hmop hlt
    refine hr.bind fun r _ hr => ?_
    have hheld := (hm.answered hdue.1 hreq).held.freed
    refine nextService_meets (m := r.2.freed op) hp ?_ ?_
    · intro h req' hreq'
      rw [hr.1] at hreq'
      obtain ⟨h1, _, h3⟩ := hheld.slot hreq'
      exact ⟨h1, h3⟩
    · rw [slots_freed, hr.1, slots_answered]
      exact hr.2
  · exact hI

theorem doUpdate_meets (hp : ∀ f, K.Unrouted f → p f) (hobl : Obliging now recv)
    (hrecv : Receptive p I recv) {s : σ × RAMArbiter K} (hm : Consistent none s.2)
    (hI : I s.1 s.2.slots) :
    Meets p (fun t => Consistent none t.2 ∧ I t.1 t.2.slots) (doUpdate now recv s) := by
  unfold doUpdate
  split
  · unfold updateImpl
    refine (completeChannel_meets hp hobl hrecv hm hI).bind fun r _ hr => ?_
    exact completeChannel_meets hp hobl hrecv hr.1 hr.2
  · exact ⟨hm, hI⟩

end RAMArbiter

end NpSim.Mem
