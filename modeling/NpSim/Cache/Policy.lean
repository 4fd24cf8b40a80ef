/- digest: Cache lines, replacement policies and prefetchers. -/

import NpSim.Defines

set_option autoImplicit false
set_option relaxedAutoImplicit false

namespace NpSim.Cache

open NpSim.Lib.Partial

structure CacheLine where
  tag : Addr := 0
  valid : Bool := false
  dirty : Bool := false
  stamp : Nat := 0
  isPrefetched : Bool := false
  data : List Word := []
  deriving DecidableEq, Repr

namespace CacheLine

/-- `CacheLine(line_size)` -/
def new (lineSize : Nat) : CacheLine := { data := List.replicate (lineSize / 4) 0 }

def invalidate (l : CacheLine) : CacheLine := { l with tag := 0, stamp := 0, valid := false }

def activate (now : Nat) (l : CacheLine) : CacheLine :=
  { l with valid := true, dirty := false, stamp := now }

def setTag (tag : Addr) (l : CacheLine) : CacheLine := { l with tag := tag }

def setDirty (l : CacheLine) : CacheLine := { l with dirty := true }

/-- `setVecData`: the build is timing-only (`ACTIVE_MODE`) and keeps the line's words. -/
def setVecData (_ : List Word) (l : CacheLine) : CacheLine := l

/-- The block that a valid dirty line stops holding when it becomes `new`. -/
def lost (old new : CacheLine) : List Addr :=
  if old.valid && old.dirty && !(new.valid && new.tag == old.tag) then [old.tag] else []

/-- `atAligned`: the bounds-checked word at a byte offset. -/
def atAligned (off : Nat) (l : CacheLine) : Except Fault Word :=
  match l.data[off / 4]? with
  | some w => .ok w
  | none => .error .dataRange

end CacheLine

/-- `ReplPolicy`: a victim is a way of the given set; a touch may change the line's stamp. -/
structure ReplPolicy where
  State : Type
  getVictim : State → (setIdx : Nat) → List CacheLine → Except Fault Nat
  onHit : State → (now setIdx way stamp : Nat) → Except Fault (State × Nat)
  onFill : State → (now setIdx way stamp : Nat) → Except Fault (State × Nat)
  init : State
  /-- the returned pointer points into the set -/
  getVictim_lt : ∀ {s i set w}, getVictim s i set = .ok w → w < set.length

/-- First index whose stamp is minimal, as `std::min_element` returns it. -/
def minStamp : List CacheLine → Nat
  | [] => 0
  | l :: ls =>
    (ls.foldl (fun (acc : Nat × Nat × Nat) x =>
      if x.stamp < acc.2.1 then (acc.2.2, x.stamp, acc.2.2 + 1)
      else (acc.1, acc.2.1, acc.2.2 + 1)) (0, l.stamp, 1)).1

private theorem minStamp_fold_lt (ls : List CacheLine) (best stamp next : Nat)
    (h : best < next) :
    (ls.foldl (fun (acc : Nat × Nat × Nat) x =>
      if x.stamp < acc.2.1 then (acc.2.2, x.stamp, acc.2.2 + 1)
      else (acc.1, acc.2.1, acc.2.2 + 1)) (best, stamp, next)).1 < next + ls.length := by
  induction ls generalizing best stamp next with
  | nil => simpa using h
  | cons x ls ih =>
    simp only [List.foldl_cons, List.length_cons]
    split
    · have := ih next x.stamp (next + 1) (by omega)
      omega
    · have := ih best stamp (next + 1) (by omega)
      omega

theorem minStamp_lt {set : List CacheLine} (h : set ≠ []) : minStamp set < set.length := by
  cases set with
  | nil => exact absurd rfl h
  | cons l ls =>
    have := minStamp_fold_lt ls 0 l.stamp 1 (by omega)
    simp only [minStamp, List.length_cons]
    omega

def lruReplPolicy : ReplPolicy where
  State := Unit
  getVictim _ _ set :=
    if set = [] then .error .victimRange else .ok (minStamp set)
  onHit _ now _ _ _ := .ok ((), now)
  onFill _ now _ _ _ := .ok ((), now)
  init := ()
  getVictim_lt := by
    intro _ _ set w h
    split at h
    · cases h
    · rename_i hne
      cases h
      exact minStamp_lt hne

def roundRobinReplPolicy (assoc : Nat) : ReplPolicy where
  State := Nat → Nat
  getVictim ptr i set :=
    let idx := ptr i % assoc
    if idx < set.length then .ok idx else .error .victimRange
  onHit ptr _ _ _ stamp := .ok (ptr, stamp)
  onFill ptr _ i _ stamp := .ok (Function.update ptr i ((ptr i + 1) % assoc), stamp)
  init := fun _ => 0
  getVictim_lt := by
    intro _ _ set w h
    simp only at h
    split at h
    · rename_i hlt
      cases h
      exact hlt
    · cases h

/-- First index whose stamp is maximal, as `std::max_element` returns it. -/
def maxStamp : List CacheLine → Nat
  | [] => 0
  | l :: ls =>
    (ls.foldl (fun (acc : Nat × Nat × Nat) x =>
      if acc.2.1 < x.stamp then (acc.2.2, x.stamp, acc.2.2 + 1)
      else (acc.1, acc.2.1, acc.2.2 + 1)) (0, l.stamp, 1)).1

def srripReplPolicy : ReplPolicy where
  State := Unit
  getVictim _ _ set :=
    if maxStamp set < set.length then .ok (maxStamp set) else .error .victimRange
  onHit _ _ _ _ _ := .ok ((), 0)
  onFill _ _ _ _ _ := .ok ((), 2)
  init := ()
  getVictim_lt := by
    intro _ _ set w h
    split at h
    · rename_i hlt
      cases h
      exact hlt
    · cases h

/-- `PLRUReplPolicy::victim_way` -/
def plruVictimWay (assoc bits : Nat) : Except Fault Nat :=
  let b0 := bits.testBit 0
  let b1 := bits.testBit 1
  let b2 := bits.testBit 2
  if assoc = 1 then .ok 0
  else if assoc = 2 then .ok (if b0 then 0 else 1)
  else if assoc = 4 then
    .ok (if b0 then (if b1 then 0 else 1) else (if b2 then 2 else 3))
  else .error .policyAssoc

/-- `PLRUReplPolicy::update_bits` -/
def plruUpdateBits (assoc bits way : Nat) : Except Fault Nat :=
  if assoc = 1 then .ok 0
  else if assoc = 2 then .ok (way % 2)
  else if assoc = 4 then
    let b1 := bits / 2 % 2
    let b2 := bits / 4 % 2
    let w0 := way % 2
    let w1 := way / 2 % 2
    let newB1 := if w1 = 1 then b1 else w0
    let newB2 := if w1 = 1 then w0 else b2
    .ok (w1 + 2 * newB1 + 4 * newB2)
  else .error .policyAssoc

def plruReplPolicy (assoc : Nat) : ReplPolicy where
  State := Nat → Nat
  getVictim bits i set := do
    let idx ← plruVictimWay assoc (bits i)
    if idx < set.length then .ok idx else .error .victimRange
  onHit bits _ i way stamp := do
    let b ← plruUpdateBits assoc (bits i) way
    .ok (Function.update bits i b, stamp)
  onFill bits _ i way stamp := do
    let b ← plruUpdateBits assoc (bits i) way
    .ok (Function.update bits i b, stamp)
  init := fun _ => 0
  getVictim_lt := by
    intro _ _ set w h
    obtain ⟨idx, _, h⟩ := bind_eq_ok.mp h
    split at h
    · rename_i hlt
      cases h
      exact hlt
    · cases h

/-- `Prefetcher::probe` with the prefetcher's own state. `present` is false for a null
pointer. -/
structure Prefetcher where
  State : Type
  present : Bool
  probe : State → Addr → (isHit : Bool) → Option Addr × State
  init : State

/-- No prefetcher configured. -/
def nullPrefetcher : Prefetcher where
  State := Unit
  present := false
  probe _ _ _ := (none, ())
  init := ()

def nextLinePrefetcher (blkSize : Nat) : Prefetcher where
  State := Unit
  present := true
  probe _ addr _ := (some (addr + BitVec.ofNat 32 blkSize), ())
  init := ()

/-- `StridePrefetcher`: the last address and the last stride. -/
def stridePrefetcher : Prefetcher where
  State := Addr × Addr
  present := true
  probe s addr _ :=
    let stride := addr - s.1
    (if stride ≠ 0 ∧ stride = s.2 then some (addr + stride) else none, (addr, stride))
  init := (0, 0)

/-- `TaggedPrefetcher`: the next line, only on a miss. -/
def taggedPrefetcher (blkSize : Nat) : Prefetcher where
  State := Unit
  present := true
  probe _ addr isHit := (if isHit then none else some (addr + BitVec.ofNat 32 blkSize), ())
  init := ()

end NpSim.Cache
