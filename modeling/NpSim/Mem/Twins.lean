/- digest: Two memory fabrics that work alike: the same requests in service, devices that answer
   alike, and any counters. -/

import NpSim.Lib.Pairs
import NpSim.Mem.Arbiter

set_option autoImplicit false
set_option relaxedAutoImplicit false

namespace NpSim.Mem

open NpSim.Lib.Partial NpSim.Lib.Pairs

/-- Devices in related states give the same latencies, and stay related. -/
structure RamDevices.Congruent (D : RamDevices) (R : D.State → D.State → Prop) : Prop where
  latency : ∀ d e did req now, R d e →
    (D.latencyImpl d did req now).1 = (D.latencyImpl e did req now).1
  next : ∀ d e did req now, R d e →
    R (D.latencyImpl d did req now).2 (D.latencyImpl e did req now).2
  reset : ∀ d e, R d e → R (D.resetStats d) (D.resetStats e)

theorem RamDevices.congruent_eq (D : RamDevices) : D.Congruent Eq where
  latency _ _ did req now h := congrArg (fun d => (D.latencyImpl d did req now).1) h
  next _ _ did req now h := congrArg (fun d => (D.latencyImpl d did req now).2) h
  reset _ _ h := congrArg D.resetStats h

/-- The devices of a fabric, its counters and its history. -/
structure Books (K : ArbiterConfig) where
  hostRd : Nat → Nat
  hostWr : Nat → Nat
  hostDev : Nat → Nat → Nat
  devs : K.devices.State
  devStats : Nat → RamDeviceStats
  hist : List Event

namespace RAMArbiter

variable {K : ArbiterConfig} {R : K.devices.State → K.devices.State → Prop} {now : Nat}
  {m m' : RAMArbiter K} {b : Books K}

def withBooks (b : Books K) (m : RAMArbiter K) : RAMArbiter K :=
  { m with
    hostRd := b.hostRd, hostWr := b.hostWr, hostDev := b.hostDev, devs := b.devs
    devStats := b.devStats, hist := b.hist }

/-- Two fabrics that work alike. -/
inductive Twin (R : K.devices.State → K.devices.State → Prop) (m : RAMArbiter K) :
    RAMArbiter K → Prop
  | mk (b : Books K) (h : R m.devs b.devs) : Twin R m (m.withBooks b)

theorem Twin.refl (hR : ∀ d, R d d) (m : RAMArbiter K) : Twin R m m :=
  .mk ⟨m.hostRd, m.hostWr, m.hostDev, m.devs, m.devStats, m.hist⟩ (hR m.devs)

theorem Twin.devs (h : Twin R m m') : R m.devs m'.devs := by
  cases h with
  | mk b h => exact h

theorem Twin.resetStats (hR : K.devices.Congruent R) (h : Twin R m m') :
    Twin R m.resetStats m'.resetStats := by
  cases h with
  | mk b h => exact .mk ⟨_, _, _, _, _, _⟩ (hR.reset _ _ h)

theorem Twin.nextUpdate (h : Twin R m m') : m'.nextUpdate = m.nextUpdate := by
  cases h
  rfl

private theorem deviceAccess_twin (hR : K.devices.Congruent R) (did : Nat) (req : MemTrans)
    (h : R m.devs b.devs) :
    (m.deviceAccess now did req).1 = ((m.withBooks b).deviceAccess now did req).1 ∧
      Twin R (m.deviceAccess now did req).2 ((m.withBooks b).deviceAccess now did req).2 :=
  ⟨hR.latency _ _ _ _ _ h, .mk ⟨_, _, _, _, _, _⟩ (hR.next _ _ _ _ _ h)⟩

private theorem latOf_twin (hR : K.devices.Congruent R) (req : MemTrans) (h : R m.devs b.devs) :
    Both (fun x y => x.1 = y.1 ∧ Twin R x.2 y.2) (m.latOf now req)
      ((m.withBooks b).latOf now req) := by
  refine Both.require (Both.require ?_)
  by_cases hop : req.mop = .read
  · rw [if_pos hop, if_pos hop]
    exact deviceAccess_twin (m := { m with hostRd := _, hostDev := _ })
      (b := { b with hostRd := _, hostDev := _ }) hR _ req h
  · rw [if_neg hop, if_neg hop]
    exact deviceAccess_twin (m := { m with hostWr := _, hostDev := _ })
      (b := { b with hostWr := _, hostDev := _ }) hR _ req h

private theorem Twin.serve (hR : K.devices.Congruent R) (h : Twin R m m') (start : Nat)
    (op : MemRWOpt) (req : MemTrans) :
    Both (Twin R) (m.serve now start op req) (m'.serve now start op req) := by
  cases h with
  | mk b h =>
    refine (latOf_twin hR req h).bind ?_
    rintro ⟨lat, n⟩ ⟨lat', n'⟩ ⟨hl, hn⟩
    cases hl
    cases hn with
    | mk b' h' => exact .mk ⟨_, _, _, _, _, _⟩ h'

private theorem Twin.accept (h : Twin R m m') (op : MemRWOpt) (c : Channel) (e : Event) :
    Twin R { m.setChan op c with hist := m.hist ++ [e] }
      { m'.setChan op c with hist := m'.hist ++ [e] } := by
  cases h with
  | mk b h => exact .mk { b with hist := b.hist ++ [e] } h

theorem Twin.chan_eq (h : Twin R m m') : m'.chan = m.chan := by
  cases h
  rfl

private theorem Twin.pickNext (h : Twin R m m') (op : MemRWOpt) :
    m'.pickNext op = m.pickNext op := by
  cases h
  rfl

private theorem Twin.free (h : Twin R m m') (op : MemRWOpt) :
    Twin R (m.setChan op { m.chan op with busyUntil := infTime, servingId := noHost })
      (m'.setChan op { m'.chan op with busyUntil := infTime, servingId := noHost }) := by
  cases h with
  | mk b h => exact .mk b h

theorem Twin.recvReq (hR : K.devices.Congruent R) (h : Twin R m m') (req : MemTrans) :
    Both (Twin R) (m.recvReq now req) (m'.recvReq now req) := by
  unfold RAMArbiter.recvReq
  dsimp only
  rw [h.chan_eq]
  have ha := h.accept req.mop { m.chan req.mop with
    reqs := Function.update (m.chan req.mop).reqs req.id (some req) } (.accept req now)
  exact Both.require (Both.require (Both.ite (ha.serve hR now req.mop req) ha))

variable {σ : Type} {E : σ → σ → Prop}

/-- Related hosts, with fabrics that work alike. -/
def Beside (E : σ → σ → Prop) (R : K.devices.State → K.devices.State → Prop)
    (x y : σ × RAMArbiter K) : Prop := E x.1 y.1 ∧ Twin R x.2 y.2

private theorem completeChannel_twin (hR : K.devices.Congruent R) (op : MemRWOpt)
    {recv : Nat → MemTrans → σ × RAMArbiter K → Except Fault (σ × RAMArbiter K)}
    (hrecv : ∀ h t x y, Beside E R x y → Both (Beside E R) (recv h t x) (recv h t y))
    {x y : σ × RAMArbiter K} (h : Beside E R x y) :
    Both (Beside E R) (completeChannel now op recv x) (completeChannel now op recv y) := by
  unfold completeChannel
  dsimp only
  rw [h.2.chan_eq]
  refine Both.ite (Both.require ?_) h
  cases hr : (x.2.chan op).reqs (x.2.chan op).servingId with
  | none => exact rfl
  | some rd =>
    have ha := h.2.accept op { x.2.chan op with
      reqs := Function.update (x.2.chan op).reqs (x.2.chan op).servingId none }
      (.answer (x.2.chan op).servingId rd now)
    refine Both.bind (R := Beside E R) (hrecv _ _ (x.1, _) (y.1, _) ⟨h.1, ha⟩) ?_
    rintro ⟨e, n⟩ ⟨e', n'⟩ ⟨he, hn⟩
    have hf := hn.free op
    dsimp only
    generalize n.setChan op _ = f, n'.setChan op _ = f' at hf ⊢
    rw [hf.pickNext, hf.chan_eq]
    cases f.pickNext op with
    | none => exact ⟨he, hf⟩
    | some i =>
      dsimp only
      cases (f.chan op).reqs i with
      | none => exact ⟨he, hf⟩
      | some req => exact Both.bind (hf.serve hR _ _ _) fun _ _ hs => And.intro he hs

theorem Beside.doUpdate (hR : K.devices.Congruent R)
    {recv : Nat → MemTrans → σ × RAMArbiter K → Except Fault (σ × RAMArbiter K)}
    (hrecv : ∀ h t x y, Beside E R x y → Both (Beside E R) (recv h t x) (recv h t y))
    {x y : σ × RAMArbiter K} (h : Beside E R x y) :
    Both (Beside E R) (RAMArbiter.doUpdate now recv x) (RAMArbiter.doUpdate now recv y) := by
  have hn : y.2.nextUpdate = x.2.nextUpdate := h.2.nextUpdate
  unfold RAMArbiter.doUpdate
  rw [hn]
  refine Both.ite ?_ h
  exact (completeChannel_twin hR .read hrecv h).bind fun _ _ h =>
    completeChannel_twin hR .write hrecv h

end RAMArbiter

end NpSim.Mem
