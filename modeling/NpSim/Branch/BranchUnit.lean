/- digest: Direction predictor, branch target buffer and return stack behind one interface. -/

import NpSim.Defines

set_option autoImplicit false
set_option relaxedAutoImplicit false

namespace NpSim.Branch

structure BPUPredResult where
  taken : Bool
  bhtCnt : Nat
  ghrSnap : BitVec 32
  tageOverrodeBimodal : Bool := false
  deriving DecidableEq, Repr

structure BranchResult where
  predTaken : Bool := false
  predTarget : Addr := 0
  willRedirect : Bool := false
  bhtCnt : Nat := 1
  ghrSnap : BitVec 32 := 0
  tageOverrodeBimodal : Bool := false
  deriving DecidableEq, Repr

/-- `BranchPred`: the virtual functions of a direction predictor. -/
structure BranchPred where
  State : Type
  isNoBpu : Bool
  predict : State → (pc btbTarget : Addr) → BPUPredResult × State
  update : State → (pc : Addr) → (taken btbHit : Bool) → (oldCnt : Nat) → (oldGhr : BitVec 32) →
    State
  onMispred : State → (actualTaken : Bool) → (oldCnt : Nat) → (oldGhr : BitVec 32) → State
  onResolved : State → (taken : Bool) → BranchResult → State
  init : State

/-- `BTBBase`: the virtual functions of a target buffer. -/
structure BTBBase where
  State : Type
  numEntries : Nat
  hasRwConflict : Bool
  lookup : State → Addr → Addr
  update : State → (pc target : Addr) → State
  clearEntry : State → Addr → State
  entryType : State → Nat → Nat
  setEntryType : State → Nat → Nat → State
  init : State

def noBPU : BranchPred where
  State := Unit
  isNoBpu := true
  predict _ _ _ := ({ taken := false, bhtCnt := 0, ghrSnap := 0 }, ())
  update _ _ _ _ _ _ := ()
  onMispred _ _ _ _ := ()
  onResolved _ _ _ := ()
  init := ()

/-- `AlwaysTakenPredictor` -/
def alwaysTaken : BranchPred where
  State := Unit
  isNoBpu := false
  predict _ _ _ := ({ taken := true, bhtCnt := 3, ghrSnap := 0 }, ())
  update _ _ _ _ _ _ := ()
  onMispred _ _ _ _ := ()
  onResolved _ _ _ := ()
  init := ()

def noBTB : BTBBase where
  State := Unit
  numEntries := 1
  hasRwConflict := false
  lookup _ _ := 0
  update _ _ _ := ()
  clearEntry _ _ := ()
  entryType _ _ := 0
  setEntryType _ _ _ := ()
  init := ()

/-- `ReturnAddrStack` of `depth` entries -/
structure ReturnAddrStack where
  stack : List Addr
  tos : Nat := 0
  cnt : Nat := 0
  deriving DecidableEq, Repr

namespace ReturnAddrStack

def new (depth : Nat) : ReturnAddrStack := { stack := List.replicate depth 0 }

def push (addr : Addr) (s : ReturnAddrStack) : ReturnAddrStack :=
  let tos := (s.tos + 1) % s.stack.length
  { stack := s.stack.set tos addr
    tos := tos
    cnt := if s.cnt < s.stack.length then s.cnt + 1 else s.cnt }

def pop (s : ReturnAddrStack) : ReturnAddrStack :=
  if 0 < s.cnt then
    { s with tos := if s.tos = 0 then s.stack.length - 1 else s.tos - 1, cnt := s.cnt - 1 }
  else s

def top (s : ReturnAddrStack) : Addr := if 0 < s.cnt then s.stack.getD s.tos 0 else 0

def valid (s : ReturnAddrStack) : Bool := decide (0 < s.cnt)

end ReturnAddrStack

/-- `BPStatsBase` -/
structure BPStats where
  accesses : Nat := 0
  misses : Nat := 0
  noTarget : Nat := 0
  badTarget : Nat := 0
  badPred : Nat := 0
  nonbrMispred : Nat := 0
  brAccesses : Nat := 0
  deriving DecidableEq, Repr

/-- The constructor arguments of `BranchUnit`. -/
structure BranchParams where
  bpu : BranchPred
  btb : BTBBase
  rasDepth : Nat

structure BranchUnit (P : BranchParams) where
  stats : BPStats := {}
  bpu : P.bpu.State := P.bpu.init
  btb : P.btb.State := P.btb.init
  /-- `ras_`: absent when the depth is zero -/
  ras : Option ReturnAddrStack :=
    if 0 < P.rasDepth then some (ReturnAddrStack.new P.rasDepth) else none
  btbWrittenThisTick : Bool := false
  btbWrittenIdx : Nat := 0
  bypassValid : Bool := false
  bypassIdx : Nat := 0

namespace BranchUnit

variable {P : BranchParams}

/-- `(pc >> 2) & (num_entries() - 1)` -/
def btbIndex (P : BranchParams) (pc : Addr) : Nat :=
  (pc.toNat >>> 2) &&& (P.btb.numEntries - 1)

def beginTick (u : BranchUnit P) : BranchUnit P :=
  { u with
    bypassValid := u.btbWrittenThisTick
    bypassIdx := u.btbWrittenIdx
    btbWrittenThisTick := false }

def clearBtbEntry (pc : Addr) (u : BranchUnit P) : BranchUnit P :=
  { u with
    btb := P.btb.clearEntry u.btb pc
    btbWrittenThisTick := true
    btbWrittenIdx := btbIndex P pc }

/-- The target `predict` reads from the target buffer: zero when the single port is taken by the
write of the previous tick to another index. -/
def btbTarget (pc : Addr) (u : BranchUnit P) : Addr :=
  if P.btb.hasRwConflict && u.bypassValid && btbIndex P pc != u.bypassIdx then 0
  else P.btb.lookup u.btb pc

/-- The return-stack override of `predict`. -/
def rasOverride (pc target : Addr) (taken : Bool) (u : BranchUnit P) : Addr × Bool :=
  match u.ras with
  | none => (target, taken)
  | some ras =>
    if target ≠ 0 ∧ P.btb.entryType u.btb (btbIndex P pc) = 1 ∧ ras.valid = true then
      (ras.top, true)
    else (target, taken)

def predict (pc : Addr) (u : BranchUnit P) : BranchResult × BranchUnit P :=
  let btbTarget := u.btbTarget pc
  let (res, bpu) := P.bpu.predict u.bpu pc btbTarget
  let (target, taken) := u.rasOverride pc btbTarget res.taken
  ({ predTaken := taken
     predTarget := target
     willRedirect := taken && target != 0
     bhtCnt := res.bhtCnt
     ghrSnap := res.ghrSnap
     tageOverrodeBimodal := res.tageOverrodeBimodal },
   { u with stats := { u.stats with accesses := u.stats.accesses + 1 }, bpu := bpu })

def predictAtFetch (pc : Addr) (isBranch : Bool) (u : BranchUnit P) :
    BranchResult × BranchUnit P :=
  if isBranch then
    { u with stats := { u.stats with brAccesses := u.stats.brAccesses + 1 } }.predict pc
  else ({}, u)

/-- The verdict of `judge`. -/
def accurate (realTaken : Bool) (realTarget : Addr) (pred : BranchResult) : Bool :=
  if !realTaken && !pred.willRedirect then true
  else if realTaken && pred.willRedirect then pred.predTarget == realTarget
  else false

/-- `judge`: the verdict, and the miss statistics. -/
def judge (realTaken : Bool) (realTarget : Addr) (pred : BranchResult) (u : BranchUnit P) :
    Bool × BranchUnit P :=
  let ok := accurate realTaken realTarget pred
  let s := u.stats
  let s :=
    if ok then s
    else if realTaken && pred.willRedirect then { s with badTarget := s.badTarget + 1 }
    else if realTaken && pred.predTaken then { s with noTarget := s.noTarget + 1 }
    else { s with badPred := s.badPred + 1 }
  let s := if ok then s else { s with misses := s.misses + 1 }
  (ok, { u with stats := s })

/-- The branch-target-buffer part of `update`. -/
def updateBtb (pc : Addr) (taken : Bool) (target : Addr) (isRet : Bool) (u : BranchUnit P) :
    BranchUnit P :=
  if taken then
    { u with
      btb := P.btb.setEntryType (P.btb.update u.btb pc target) (btbIndex P pc)
        (if isRet then 1 else 0)
      btbWrittenThisTick := true
      btbWrittenIdx := btbIndex P pc }
  else u

/-- The return-stack part of `update`. -/
def updateRas (pc : Addr) (isCall isRet : Bool) (u : BranchUnit P) : BranchUnit P :=
  { u with ras := u.ras.map fun s =>
      let s := if isCall then s.push (pc + 4) else s
      if isRet then s.pop else s }

def update (pc : Addr) (taken : Bool) (target : Addr) (isCall isRet btbHit : Bool)
    (pred : BranchResult) (mispred : Bool) (u : BranchUnit P) : BranchUnit P :=
  let s := P.bpu.onResolved u.bpu taken pred
  let s := if btbHit || taken then P.bpu.update s pc taken btbHit pred.bhtCnt pred.ghrSnap else s
  let s := if mispred then P.bpu.onMispred s taken pred.bhtCnt pred.ghrSnap else s
  ({ u with bpu := s }.updateBtb pc taken target isRet).updateRas pc isCall isRet

def isNoBpu (_ : BranchUnit P) : Bool := P.bpu.isNoBpu

def resetStats (u : BranchUnit P) : BranchUnit P := { u with stats := {} }

end BranchUnit

end NpSim.Branch
