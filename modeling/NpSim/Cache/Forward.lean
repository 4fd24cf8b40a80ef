/- digest: A load that finds a full store to its word in the store buffer, and the stores behind it
   that the answer leaves out. -/

import NpSim.Cache.StoreDrain
import NpSim.Lib.Lanes

set_option autoImplicit false
set_option relaxedAutoImplicit false

namespace NpSim.Cache

open NpSim.Lib.Lanes Relation

private theorem strb_lanes : ∀ a b c d : Bool,
    let m : Word := (if a then 0x000000ff#32 else 0) ||| (if b then 0x0000ff00#32 else 0)
      ||| (if c then 0x00ff0000#32 else 0) ||| (if d then 0xff000000#32 else 0)
    lane 0 m = (if a then BitVec.allOnes 8 else 0) ∧
      lane 1 m = (if b then BitVec.allOnes 8 else 0) ∧
      lane 2 m = (if c then BitVec.allOnes 8 else 0) ∧
      lane 3 m = (if d then BitVec.allOnes 8 else 0) := by
  decide

theorem lane_strbExtend (mask : BitVec 8) {i : Nat} (hi : i < 4) :
    lane i (strbExtend mask) = if mask.getLsbD i then BitVec.allOnes 8 else 0#8 := by
  obtain ⟨h0, h1, h2, h3⟩ :=
    strb_lanes (mask.getLsbD 0) (mask.getLsbD 1) (mask.getLsbD 2) (mask.getLsbD 3)
  match i, hi with
  | 0, _ => exact h0
  | 1, _ => exact h1
  | 2, _ => exact h2
  | 3, _ => exact h3

namespace StBufEnt

def applyTo (w : Word) (e : StBufEnt) : Word := select (strbExtend e.mask) w e.data

/-- A store of the whole word at `addr`. -/
def Full (addr : Addr) (e : StBufEnt) : Prop := e.addr = addr ∧ e.mask = 0xf

/-- The byte that the store puts in a lane of the word at `addr`. -/
def byteAt (addr : Addr) (i : Nat) (e : StBufEnt) : Option (BitVec 8) :=
  if e.addr = addr ∧ e.mask.getLsbD i = true then some (lane i e.data) else none

theorem lane_applyTo {addr : Addr} {e : StBufEnt} (ha : e.addr = addr) (w : Word) {i : Nat}
    (hi : i < 4) : lane i (e.applyTo w) = (e.byteAt addr i).getD (lane i w) := by
  have hmask := lane_strbExtend e.mask hi
  unfold applyTo byteAt
  by_cases hm : e.mask.getLsbD i = true
  · rw [if_pos hm] at hmask
    rw [if_pos ⟨ha, hm⟩]
    exact lane_select_ones hmask w e.data
  · rw [if_neg hm] at hmask
    rw [if_neg fun h => hm h.2]
    exact lane_select_zero hmask w e.data

theorem Full.applyTo {addr : Addr} {e : StBufEnt} (h : e.Full addr) (w : Word) :
    e.applyTo w = e.data := by
  refine ext_lanes fun i hi => ?_
  have hbit : ∀ i < 4, (0xf : BitVec 8).getLsbD i = true := by decide
  rw [lane_applyTo h.1 w hi, byteAt, if_pos ⟨h.1, by rw [h.2]; exact hbit i hi⟩]
  rfl

end StBufEnt

namespace StoreBuffer

open StBufEnt

variable {entries : Nat}

/-- The word `w` at `addr` after the buffered stores, in the order of acceptance. -/
def applied (addr : Addr) (w : Word) (c : StoreBuffer entries) : Word :=
  (c.fifo.filter (·.addr = addr)).foldl StBufEnt.applyTo w

/-- A load of `addr` that is answered from the buffer gets the word that the buffered stores
make. -/
def ForwardsNewest (addr : Addr) (c : StoreBuffer entries) : Prop :=
  ∀ e, c.forward addr = some e → ∀ w, e.data = c.applied addr w

/-- No byte of the oldest full store to `addr` is changed by the stores behind it: the last of them
to store a byte stores the same one. -/
def Unchanged (addr : Addr) (c : StoreBuffer entries) : Prop :=
  ∀ before e later, c.fifo = before ++ e :: later → e.Full addr → (∀ f ∈ before, ¬f.Full addr) →
    ∀ i < 4, ∀ v, later.reverse.findSome? (byteAt addr i) = some v → v = lane i e.data

private theorem forward_answers {addr : Addr} {c : StoreBuffer entries} {e : StBufEnt}
    (h : c.forward addr = some e) (now : Nat) :
    .cpuResp ⟨addr, e.data, c.cacheId, .read⟩ ∈
      ((c.readReq now addr).updateImpl (now + 1)).2 := by
  have htime : (c.readReq now addr).schedRTime = ((now + 1 : Nat) : Tick) ∧
      (c.readReq now addr).schedRResp = ⟨addr, e.data, c.cacheId, .read⟩ := by
    unfold readReq
    dsimp only
    rw [h]
    exact ⟨rfl, rfl⟩
  generalize c.readReq now addr = d at htime ⊢
  have hmiss : (d.issueMiss (now + 1)).1.schedRTime = d.schedRTime ∧
      (d.issueMiss (now + 1)).1.schedRResp = d.schedRResp := by
    unfold issueMiss
    split <;> exact ⟨rfl, rfl⟩
  have hresp : ((d.issueMiss (now + 1)).1.respondRead (now + 1)).2 =
      [.cpuResp ⟨addr, e.data, c.cacheId, .read⟩] := by
    unfold respondRead
    rw [hmiss.1, htime.1, if_pos le_rfl, hmiss.2, htime.2]
  unfold updateImpl
  dsimp only
  rw [hresp]
  exact List.mem_append_left _ (List.mem_append_right _ (List.mem_singleton_self _))

private theorem applied_split {addr : Addr} {before later : List StBufEnt} {e : StBufEnt}
    (he : e.Full addr) (w : Word) :
    ((before ++ e :: later).filter (·.addr = addr)).foldl StBufEnt.applyTo w =
      (later.filter (·.addr = addr)).foldl StBufEnt.applyTo e.data := by
  rw [List.filter_append, List.foldl_append, List.filter_cons, if_pos (decide_eq_true he.1),
    List.foldl_cons, he.applyTo]

private theorem lane_applied (addr : Addr) (later : List StBufEnt) (w : Word) {i : Nat}
    (hi : i < 4) : lane i ((later.filter (·.addr = addr)).foldl StBufEnt.applyTo w) =
      (later.reverse.findSome? (byteAt addr i)).getD (lane i w) := by
  rw [List.foldl_filter]
  refine @get_foldl _ _ _ (lane i) _ _ (fun w e => ?_) w later
  by_cases ha : e.addr = addr
  · rw [if_pos (decide_eq_true ha)]
    exact lane_applyTo ha w hi
  · rw [if_neg (by rwa [decide_eq_true_eq]), byteAt, if_neg fun h => ha h.1]
    rfl

/-- A load that is answered from the buffer gets the data of the oldest full store, and this is the
newest data exactly when the stores behind leave its bytes as they are. -/
theorem forwards_newest_iff (addr : Addr) (c : StoreBuffer entries) :
    (∀ e, c.forward addr = some e → ∀ now, .cpuResp ⟨addr, e.data, c.cacheId, .read⟩ ∈
      ((c.readReq now addr).updateImpl (now + 1)).2) ∧
        (ForwardsNewest addr c ↔ Unchanged addr c) := by
  refine ⟨fun e h now => forward_answers h now, ?_⟩
  have hsplit : ∀ e, c.forward addr = some e ↔ e.Full addr ∧ ∃ before later,
      c.fifo = before ++ e :: later ∧ ∀ f ∈ before, ¬f.Full addr := by
    intro e
    have hfull : ∀ f : StBufEnt, (decide (f.addr = addr) && decide (f.mask = 0xf)) = true ↔
        f.Full addr := fun f => by rw [Bool.and_eq_true, decide_eq_true_eq, decide_eq_true_eq]; rfl
    unfold forward
    rw [List.find?_eq_some_iff_append, hfull]
    refine and_congr_right fun _ => exists_congr fun before => exists_congr fun later => ?_
    refine and_congr_right fun _ => forall₂_congr fun f _ => ?_
    rw [Bool.not_eq_true', ← Bool.not_eq_true, hfull]
  constructor
  · intro h before e later hfifo he hbefore i hi v hv
    have hdata := h e ((hsplit e).mpr ⟨he, before, later, hfifo, hbefore⟩) 0
    unfold applied at hdata
    rw [hfifo, applied_split he] at hdata
    have hlane := lane_applied addr later e.data hi
    rw [← hdata, hv] at hlane
    exact hlane.symm
  · intro h e hfwd w
    obtain ⟨he, before, later, hfifo, hbefore⟩ := (hsplit e).mp hfwd
    unfold applied
    rw [hfifo, applied_split he]
    refine ext_lanes fun i hi => ?_
    rw [lane_applied addr later e.data hi]
    cases hv : later.reverse.findSome? (byteAt addr i) with
    | none => rfl
    | some v => exact (h before e later hfifo he hbefore i hi v hv).symm

/-- Two full stores to one word: a load gets the older one. -/
theorem forwards_older : ∃ b : Run 2, b.Reachable ∧
    b.cache.fifo = [⟨8, 5, 15⟩, ⟨8, 7, 15⟩] ∧ ¬ForwardsNewest 8 b.cache := by
  have hreach : ∀ n, (Run.doubleRun n).Reachable := by
    intro n
    induction n with
    | zero => exact ⟨0, 1, .refl⟩
    | succ n ih =>
      obtain ⟨t, id, h⟩ := ih
      exact ⟨t, id, h.tail ⟨_, Run.doubleRun_step n⟩⟩
  obtain ⟨t, id, h⟩ := hreach 4
  obtain ⟨_, hok⟩ := @writeReq_buffered 2 1 8 7 15 (by decide) (Run.doubleRun 4).cache rfl
  refine ⟨_, ⟨t, id, h.tail ⟨_, Run.Step.write 8 7 15 rfl rfl rfl hok⟩⟩, rfl, fun hnew => ?_⟩
  have hdata := hnew ⟨8, 5, 15⟩ rfl 0
  revert hdata
  decide +kernel

end StoreBuffer

end NpSim.Cache
