/- digest: The counters of the memory fabric: the requests taken up for each host, the requests that
   wait, and the same requests counted at the devices. -/

import NpSim.Mem.Slots

set_option autoImplicit false
set_option relaxedAutoImplicit false

namespace NpSim.Mem.RAMArbiter

open NpSim.Lib.Partial Finset

variable {K : ArbiterConfig} {m m' : RAMArbiter K} {now : Nat}

/-- `host_rd_` and `host_wr_`: the services begun for host `h` on channel `op`. -/
def begun (m : RAMArbiter K) (op : MemRWOpt) (h : Nat) : Nat :=
  match op with
  | .read => m.hostRd h
  | .write => m.hostWr h

/-- The requests of host `h` on channel `op` whose service has not begun; `comp` is the channel in
the middle of a completion. -/
def queued (comp : Option MemRWOpt) (m : RAMArbiter K) (op : MemRWOpt) (h : Nat) : Nat :=
  if ((m.chan op).reqs h).isSome ∧ ¬(comp ≠ some op ∧ (m.chan op).servingId = h) then 1 else 0

/-- The requests that the fabric has taken from host `h` on channel `op`. -/
def taken (comp : Option MemRWOpt) (m : RAMArbiter K) (op : MemRWOpt) (h : Nat) : Nat :=
  m.begun op h + m.queued comp op h

/-- The counters of the hosts and of the devices count the same requests. -/
structure Balanced (m : RAMArbiter K) : Prop where
  device : ∀ d, ∑ h ∈ range K.hosts, m.hostDev h d = (m.devStats d).accesses
  kinds : ∀ d, (m.devStats d).reads + (m.devStats d).writes = (m.devStats d).accesses
  reads : ∑ d ∈ range K.devices.count, (m.devStats d).reads = ∑ h ∈ range K.hosts, m.hostRd h
  writes : ∑ d ∈ range K.devices.count, (m.devStats d).writes = ∑ h ∈ range K.hosts, m.hostWr h

theorem balanced_init : Balanced ({} : RAMArbiter K) :=
  ⟨fun _ => sum_const_zero, fun _ => rfl, sum_const_zero.trans sum_const_zero.symm,
    sum_const_zero.trans sum_const_zero.symm⟩

private theorem sum_charged {n i : Nat} {p : Prop} [Decidable p] {f f' : Nat → Nat} (hi : i < n)
    (h : ∀ j, f' j = f j + if p ∧ j = i then 1 else 0) :
    ∑ j ∈ range n, f' j = ∑ j ∈ range n, f j + if p then 1 else 0 := by
  rw [sum_congr rfl fun j _ => h j, sum_add_distrib]
  congr 1
  by_cases hp : p
  · simp [hp, hi]
  · simp [hp]

/-- A service of `req` on device `did` has been counted. -/
structure Charged (req : MemTrans) (did : Nat) (m m' : RAMArbiter K) : Prop where
  chan : m'.chan = m.chan
  rd : ∀ g, m'.hostRd g = m.hostRd g + if req.mop = .read ∧ g = req.id then 1 else 0
  wr : ∀ g, m'.hostWr g = m.hostWr g + if req.mop = .write ∧ g = req.id then 1 else 0
  dev : ∀ d g, m'.hostDev g d = m.hostDev g d + if d = did ∧ g = req.id then 1 else 0
  accesses : ∀ d, (m'.devStats d).accesses = (m.devStats d).accesses + if d = did then 1 else 0
  reads : ∀ d, (m'.devStats d).reads =
    (m.devStats d).reads + if req.mop = .read ∧ d = did then 1 else 0
  writes : ∀ d, (m'.devStats d).writes =
    (m.devStats d).writes + if req.mop = .write ∧ d = did then 1 else 0

private theorem update_one {f : Nat → Nat} {i : Nat} (g : Nat) :
    Function.update f i (f i + 1) g = f g + if g = i then 1 else 0 := by
  by_cases hg : g = i
  · rw [hg, Function.update_self, if_pos rfl]
  · rw [Function.update_of_ne hg, if_neg hg, Nat.add_zero]

private theorem update_field {f : Nat → RamDeviceStats} {i : Nat} {x : RamDeviceStats} {p : Prop}
    [Decidable p] (field : RamDeviceStats → Nat)
    (hx : field x = field (f i) + if p then 1 else 0) (d : Nat) :
    field (Function.update f i x d) = field (f d) + if p ∧ d = i then 1 else 0 := by
  by_cases hd : d = i
  · rw [hd, Function.update_self, hx]
    simp
  · rw [Function.update_of_ne hd, if_neg fun h => hd h.2, Nat.add_zero]

private theorem latOf_charged {lat : Nat} {req : MemTrans} (h : m.latOf now req = .ok (lat, m')) :
    req.id < K.hosts ∧ ∃ did < K.devices.count, Charged req did m m' := by
  unfold latOf at h
  obtain ⟨hid, h⟩ := require_bind_eq_ok.mp h
  obtain ⟨hdid, h⟩ := require_bind_eq_ok.mp h
  generalize K.deviceOf req.addr = did at hdid h
  have hdev : ∀ d g, Function.update m.hostDev req.id
      (Function.update (m.hostDev req.id) did (m.hostDev req.id did + 1)) g d =
        m.hostDev g d + if d = did ∧ g = req.id then 1 else 0 := by
    intro d g
    by_cases hg : g = req.id
    · rw [hg, Function.update_self, update_one]
      simp
    · rw [Function.update_of_ne hg, if_neg fun hx => hg hx.2, Nat.add_zero]
  refine ⟨hid, did, hdid, ?_⟩
  have hm := congrArg Prod.snd (Except.ok.inj h)
  dsimp only [deviceAccess] at hm
  cases hop : req.mop with
  | read =>
    rw [hop] at hm
    subst hm
    refine ⟨rfl, fun g => ?_, fun g => ?_, hdev, fun d => ?_, fun d => ?_, fun d => ?_⟩
    · exact (update_one g).trans (by simp [hop])
    · simp [hop]
    · exact (update_field (p := True) (·.accesses) rfl d).trans (by simp)
    · exact (update_field (p := req.mop = .read) (·.reads) (by simp [hop]) d)
    · exact (update_field (p := req.mop = .write) (·.writes) (by simp [hop]) d)
  | write =>
    rw [hop] at hm
    subst hm
    refine ⟨rfl, fun g => ?_, fun g => ?_, hdev, fun d => ?_, fun d => ?_, fun d => ?_⟩
    · simp [hop]
    · exact (update_one g).trans (by simp [hop])
    · exact (update_field (p := True) (·.accesses) rfl d).trans (by simp)
    · exact (update_field (p := req.mop = .read) (·.reads) (by simp [hop]) d)
    · exact (update_field (p := req.mop = .write) (·.writes) (by simp [hop]) d)

private theorem Charged.begun {req : MemTrans} {did : Nat} (h : Charged req did m m')
    (op : MemRWOpt) (g : Nat) :
    m'.begun op g = m.begun op g + if op = req.mop ∧ g = req.id then 1 else 0 := by
  cases op with
  | read =>
    refine (h.rd g).trans ?_
    simp only [eq_comm, RAMArbiter.begun]
  | write =>
    refine (h.wr g).trans ?_
    simp only [eq_comm, RAMArbiter.begun]

private theorem Charged.balanced {req : MemTrans} {did : Nat} (h : Charged req did m m')
    (hid : req.id < K.hosts) (hdid : did < K.devices.count) (hb : m.Balanced) : m'.Balanced := by
  refine ⟨fun d => ?_, fun d => ?_, ?_, ?_⟩
  · rw [sum_charged hid (h.dev d), hb.device, h.accesses]
  · have hk := hb.kinds d
    rw [h.reads, h.writes, h.accesses, ← hk]
    cases req.mop <;> simp <;> omega
  · rw [sum_charged hdid h.reads, hb.reads, sum_charged hid h.rd]
  · rw [sum_charged hdid h.writes, hb.writes, sum_charged hid h.wr]

theorem serve_counts {start : Nat} {op : MemRWOpt} {req : MemTrans}
    (h : m.serve now start op req = .ok m') :
    (∀ op' g, m'.begun op' g = m.begun op' g + if op' = req.mop ∧ g = req.id then 1 else 0) ∧
      (m.Balanced → m'.Balanced) := by
  unfold serve at h
  obtain ⟨⟨lat, n⟩, hlat, h⟩ := bind_eq_ok.mp h
  cases h
  obtain ⟨hid, did, hdid, hcharged⟩ := latOf_charged hlat
  refine ⟨hcharged.begun, fun hb => ?_⟩
  obtain ⟨h1, h2, h3, h4⟩ := hcharged.balanced hid hdid hb
  exact ⟨h1, h2, h3, h4⟩

theorem recvReq_balanced {req : MemTrans} (h : m.recvReq now req = .ok m') (hb : m.Balanced) :
    m'.Balanced := by
  unfold recvReq at h
  obtain ⟨_, h⟩ := require_bind_eq_ok.mp h
  obtain ⟨_, h⟩ := require_bind_eq_ok.mp h
  have hins : (m.insert now req).Balanced := ⟨hb.device, hb.kinds, hb.reads, hb.writes⟩
  change (if (m.chan req.mop).busyUntil = infTime then
    (m.insert now req).serve now now req.mop req else .ok (m.insert now req)) = .ok m' at h
  split at h
  · exact (serve_counts h).2 hins
  · cases h
    exact hins

theorem resetStats_balanced (m : RAMArbiter K) : m.resetStats.Balanced :=
  ⟨fun _ => sum_const_zero, fun _ => rfl, sum_const_zero.trans sum_const_zero.symm,
    sum_const_zero.trans sum_const_zero.symm⟩

theorem queued_congr {comp comp' : Option MemRWOpt} {op : MemRWOpt} {g : Nat}
    (hr : (m'.chan op).reqs g = (m.chan op).reqs g)
    (ha : comp' ≠ some op ∧ (m'.chan op).servingId = g ↔
      comp ≠ some op ∧ (m.chan op).servingId = g) :
    m'.queued comp' op g = m.queued comp op g := by
  unfold queued
  simp only [hr, ha]

private theorem queued_of_chan {comp comp' : Option MemRWOpt} {op : MemRWOpt} {g : Nat}
    (hc : comp' = some op ↔ comp = some op) (h : m'.chan op = m.chan op) :
    m'.queued comp' op g = m.queued comp op g :=
  queued_congr (by rw [h]) (by rw [h, ne_eq, ne_eq, hc])

private theorem queued_of_free {comp : Option MemRWOpt} {op : MemRWOpt} {g : Nat}
    (h : (m.chan op).reqs g = none) : m.queued comp op g = 0 := by
  unfold queued
  simp [h]

/-- A request is taken by the fabric: its service begins, or it waits. -/
theorem recvReq_taken {comp : Option MemRWOpt} {req : MemTrans} (hm : Consistent comp m)
    (h : m.recvReq now req = .ok m') (op : MemRWOpt) (g : Nat) :
    m'.taken comp op g = m.taken comp op g + if op = req.mop ∧ g = req.id then 1 else 0 := by
  unfold recvReq at h
  obtain ⟨hid, h⟩ := require_bind_eq_ok.mp h
  obtain ⟨hfree, h⟩ := require_bind_eq_ok.mp h
  change (if (m.chan req.mop).busyUntil = infTime then
    (m.insert now req).serve now now req.mop req else .ok (m.insert now req)) = .ok m' at h
  have hself : (m.insert now req).chan req.mop =
      { m.chan req.mop with reqs := Function.update (m.chan req.mop).reqs req.id (some req) } :=
    Function.update_self ..
  have hother : ∀ op, op ≠ req.mop → (m.insert now req).chan op = m.chan op :=
    fun op hne => Function.update_of_ne hne ..
  unfold taken
  split at h
  · rename_i hidle
    have hcomp : comp ≠ some req.mop := fun hc => hm.held.completing _ hc hidle
    obtain ⟨lat, _, _, hchan⟩ := serve_eq_ok h
    have hbegun : m'.begun op g = m.begun op g + _ := (serve_counts h).1 op g
    rw [hbegun]
    have hqueued : m'.queued comp op g = m.queued comp op g := by
      by_cases hop : op = req.mop
      · subst hop
        rw [queued_of_free ((hm.idle req.mop hidle).2 g)]
        by_cases hg : g = req.id
        · refine if_neg fun hq => hq.2 ⟨hcomp, ?_⟩
          rw [hchan, Function.update_self, hg]
        · refine queued_of_free ?_
          rw [hchan, Function.update_self, hself]
          dsimp only
          rw [Function.update_of_ne hg, Function.update_of_ne hg]
          exact (hm.idle req.mop hidle).2 g
      · refine queued_of_chan Iff.rfl ?_
        rw [hchan, Function.update_of_ne hop, hother op hop]
    rw [hqueued]
    omega
  · rename_i hbusy
    cases h
    have hbegun : (m.insert now req).begun op g = m.begun op g := rfl
    rw [hbegun]
    have hqueued : (m.insert now req).queued comp op g =
        m.queued comp op g + if op = req.mop ∧ g = req.id then 1 else 0 := by
      by_cases hop : op = req.mop
      · subst hop
        by_cases hg : g = req.id
        · subst hg
          have hserving : ¬(comp ≠ some req.mop ∧ (m.chan req.mop).servingId = req.id) := by
            rintro ⟨hcomp, hs⟩
            obtain ⟨r, _, hr, _⟩ := hm.held.served ⟨hcomp, hbusy, hs⟩
            exact absurd (hfree.symm.trans hr) (by simp)
          unfold queued
          rw [hself]
          simp [hfree, hserving]
        · rw [if_neg fun hx => hg hx.2, Nat.add_zero]
          refine queued_congr ?_ (by rw [hself])
          rw [hself]
          exact Function.update_of_ne hg ..
      · rw [if_neg fun hx => hop hx.1, Nat.add_zero]
        exact queued_of_chan Iff.rfl (hother op hop)
    rw [hqueued]
    omega

theorem answered_taken {op : MemRWOpt} {req : MemTrans} (op' : MemRWOpt) (g : Nat) :
    (m.answered now op (m.chan op).servingId req).taken (some op) op' g = m.taken none op' g := by
  have hbegun : (m.answered now op (m.chan op).servingId req).begun op' g = m.begun op' g := rfl
  unfold taken
  rw [hbegun]
  congr 1
  by_cases hop : op' = op
  · subst hop
    have hself : (m.answered now op' (m.chan op').servingId req).chan op' =
        { m.chan op' with
          reqs := Function.update (m.chan op').reqs (m.chan op').servingId none } :=
      Function.update_self ..
    by_cases hg : g = (m.chan op').servingId
    · rw [queued_of_free (by rw [hself, hg]; exact Function.update_self ..)]
      exact (if_neg fun hq => hq.2 ⟨Option.some_ne_none op' |>.symm, hg.symm⟩).symm
    · refine queued_congr ?_ ⟨fun h => absurd rfl h.1, fun h => absurd h.2.symm hg⟩
      rw [hself]
      exact Function.update_of_ne hg ..
  · refine queued_of_chan ?_ (Function.update_of_ne hop ..)
    simp [Ne.symm hop]

theorem freed_taken {op : MemRWOpt} (hm : Held (some op) m)
    (hnone : ∀ h < K.hosts, (m.chan op).reqs h = none) (op' : MemRWOpt) (g : Nat) :
    (m.freed op).taken none op' g = m.taken (some op) op' g := by
  have hbegun : (m.freed op).begun op' g = m.begun op' g := rfl
  unfold taken
  rw [hbegun]
  congr 1
  by_cases hop : op' = op
  · subst hop
    have hfree : (m.chan op').reqs g = none := by
      by_contra hs
      exact hs (hnone g (hm.range op' g (Option.isSome_iff_ne_none.mpr hs)))
    rw [queued_of_free hfree]
    refine queued_of_free ?_
    change ((Function.update m.chan op' _) op').reqs g = none
    rw [Function.update_self]
    exact hfree
  · refine queued_of_chan ?_ (Function.update_of_ne hop ..)
    simp [Ne.symm hop]

theorem next_taken {op : MemRWOpt} {h start : Nat} {req : MemTrans} (hm : Held (some op) m)
    (hg : (m.chan op).reqs h = some req) (hs : (m.freed op).serve now start op req = .ok m')
    (op' : MemRWOpt) (g : Nat) : m'.taken none op' g = m.taken (some op) op' g := by
  obtain ⟨rfl, hmop, _⟩ := hm.slot hg
  obtain ⟨lat, _, _, hchan⟩ := serve_eq_ok hs
  have hfreed : ((m.freed op).chan op).reqs = (m.chan op).reqs := by
    change ((Function.update m.chan op _) op).reqs = _
    rw [Function.update_self]
  have hbegun : m'.begun op' g = m.begun op' g + if op' = req.mop ∧ g = req.id then 1 else 0 :=
    (serve_counts hs).1 op' g
  unfold taken
  rw [hbegun]
  by_cases hop : op' = op
  · subst hop
    by_cases hgid : g = req.id
    · subst hgid
      have hbefore : m.queued (some op') op' req.id = 1 := by
        unfold queued
        simp [hg]
      have hafter : m'.queued none op' req.id = 0 := by
        unfold queued
        rw [hchan, Function.update_self]
        simp
      rw [hbefore, hafter, if_pos ⟨hmop.symm, rfl⟩]
    · rw [if_neg fun hx => hgid hx.2, Nat.add_zero]
      congr 1
      refine queued_congr ?_ ⟨fun h => absurd ?_ hgid, fun h => absurd rfl h.1⟩
      · rw [hchan, Function.update_self]
        dsimp only
        rw [Function.update_of_ne hgid, hfreed]
      · rw [hchan, Function.update_self] at h
        exact h.2.symm
  · rw [if_neg fun hx => hop (hx.1.trans hmop), Nat.add_zero]
    congr 1
    refine queued_of_chan ?_ ?_
    · simp [Ne.symm hop]
    · rw [hchan, Function.update_of_ne hop]
      exact Function.update_of_ne hop ..

end NpSim.Mem.RAMArbiter
