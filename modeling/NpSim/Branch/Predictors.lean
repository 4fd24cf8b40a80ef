/- digest: The table predictors and the compressed target buffer. -/

import NpSim.Branch.BranchUnit
import Mathlib.Logic.Function.Basic

set_option autoImplicit false
set_option relaxedAutoImplicit false

namespace NpSim.Branch

/-- `new_cnt` of a two-bit counter trained from the count carried by the branch: a branch that
found no target starts at weakly taken. -/
def newCnt (taken btbHit : Bool) (oldCnt : Nat) : Nat :=
  if taken && !btbHit then 2
  else if taken then (if oldCnt < 3 then oldCnt + 1 else 3)
  else (if 0 < oldCnt then oldCnt - 1 else 0)

/-- A saturating two-bit counter trained in place. -/
def saturate (taken : Bool) (cnt : Nat) : Nat :=
  if taken then (if cnt < 3 then cnt + 1 else cnt) else (if 0 < cnt then cnt - 1 else cnt)

/-- `(1u << bits) - 1u` as an index mask -/
def indexMask (bits : Nat) : Nat := 1 <<< bits - 1

/-- `BimodalPredictor` -/
structure BimodalParams where
  entriesPow2 : Nat
  initVal : Nat := 1

namespace BimodalParams

/-- `index`: the low index bits of the word address, folded with the next ones. -/
def index (B : BimodalParams) (pc : Addr) : Nat :=
  (pc.toNat >>> 2 &&& indexMask B.entriesPow2) ^^^
    (pc.toNat >>> (2 + B.entriesPow2) &&& indexMask B.entriesPow2)

def predictor (B : BimodalParams) : BranchPred where
  State := Nat → Nat
  isNoBpu := false
  predict table pc _ :=
    let cnt := table (B.index pc)
    ({ taken := decide (2 ≤ cnt), bhtCnt := cnt, ghrSnap := 0 }, table)
  update table pc taken btbHit oldCnt _ :=
    Function.update table (B.index pc) (newCnt taken btbHit oldCnt)
  onMispred table _ _ _ := table
  onResolved table _ _ := table
  init := fun _ => B.initVal

end BimodalParams

/-- The constructor arguments of `GSharePredictor` and `TournamentPredictor`. -/
structure HistoryParams where
  tablePow2 : Nat
  historyLen : Nat := 10
  initVal : Nat := 1

namespace HistoryParams

def histMask (G : HistoryParams) : BitVec 32 := (1#32 <<< G.historyLen) - 1#32

/-- The history register `snap` with one more direction. -/
def shift (G : HistoryParams) (snap : BitVec 32) (taken : Bool) : BitVec 32 :=
  ((snap <<< 1) ||| (if taken then 1#32 else 0#32)) &&& G.histMask

/-- `index` of the gshare table, and `global_index` -/
def globalIndex (G : HistoryParams) (pc : Addr) (ghr : BitVec 32) : Nat :=
  ((pc >>> 2) ^^^ ghr).toNat &&& indexMask G.tablePow2

def localIndex (G : HistoryParams) (pc : Addr) : Nat :=
  pc.toNat >>> 2 &&& indexMask G.tablePow2

end HistoryParams

/-- `GSharePredictor` -/
structure GShare where
  globalHistory : BitVec 32 := 0
  table : Nat → Nat

namespace GShare

variable (G : HistoryParams)

/-- The direction `predict` gives. -/
def direction (s : GShare) (pc : Addr) : Bool :=
  decide (2 ≤ s.table (G.globalIndex pc s.globalHistory))

/-- `predict`: the history is shifted with the predicted direction. -/
def predict (s : GShare) (pc _btbTarget : Addr) : BPUPredResult × GShare :=
  ({ taken := s.direction G pc
     bhtCnt := s.table (G.globalIndex pc s.globalHistory)
     ghrSnap := s.globalHistory },
   { s with globalHistory := G.shift s.globalHistory (s.direction G pc) })

def update (s : GShare) (pc : Addr) (taken btbHit : Bool) (oldCnt : Nat) (oldGhr : BitVec 32) :
    GShare :=
  { s with table :=
      Function.update s.table (G.globalIndex pc oldGhr) (newCnt taken btbHit oldCnt) }

def onMispred (s : GShare) (actualTaken : Bool) (_oldCnt : Nat) (oldGhr : BitVec 32) : GShare :=
  { s with globalHistory := G.shift oldGhr actualTaken }

def predictor : BranchPred where
  State := GShare
  isNoBpu := false
  predict := predict G
  update := update G
  onMispred := onMispred G
  onResolved s _ _ := s
  init := { table := fun _ => G.initVal }

end GShare

/-- `TournamentPredictor` -/
structure Tournament where
  globalHistory : BitVec 32 := 0
  localTable : Nat → Nat := fun _ => 1
  globalTable : Nat → Nat := fun _ => 1
  selectorTable : Nat → Nat := fun _ => 1

namespace Tournament

variable (G : HistoryParams)

/-- The count that decides the direction: the selector picks the table. -/
def count (s : Tournament) (pc : Addr) : Nat :=
  if 2 ≤ s.selectorTable (G.localIndex pc) then
    s.globalTable (G.globalIndex pc s.globalHistory)
  else s.localTable (G.localIndex pc)

/-- The direction `predict` gives. -/
def direction (s : Tournament) (pc : Addr) : Bool := decide (2 ≤ s.count G pc)

/-- `predict`: the history is shifted with the predicted direction. -/
def predict (s : Tournament) (pc _btbTarget : Addr) : BPUPredResult × Tournament :=
  ({ taken := s.direction G pc, bhtCnt := s.count G pc, ghrSnap := s.globalHistory },
   { s with globalHistory := G.shift s.globalHistory (s.direction G pc) })

/-- The selector entry `sel` moves towards the table that was right alone. -/
def select (localCorrect globalCorrect : Bool) (sel : Nat) : Nat :=
  if localCorrect != globalCorrect then saturate globalCorrect sel else sel

def update (s : Tournament) (pc : Addr) (taken _btbHit : Bool) (_oldCnt : Nat)
    (oldGhr : BitVec 32) : Tournament :=
  let li := G.localIndex pc
  let gi := G.globalIndex pc oldGhr
  let localCorrect := decide (2 ≤ s.localTable li) == taken
  let globalCorrect := decide (2 ≤ s.globalTable gi) == taken
  { s with
    selectorTable := Function.update s.selectorTable li
      (select localCorrect globalCorrect (s.selectorTable li))
    localTable := Function.update s.localTable li (saturate taken (s.localTable li))
    globalTable := Function.update s.globalTable gi (saturate taken (s.globalTable gi)) }

def onMispred (s : Tournament) (actualTaken : Bool) (_oldCnt : Nat) (oldGhr : BitVec 32) :
    Tournament :=
  { s with globalHistory := G.shift oldGhr actualTaken }

def predictor : BranchPred where
  State := Tournament
  isNoBpu := false
  predict := predict G
  update := update G
  onMispred := onMispred G
  onResolved s _ _ := s
  init := {}

end Tournament

structure BTBEntry where
  pcTag : Nat := 0
  target : Addr := 0
  valid : Bool := false
  type : Nat := 0
  deriving DecidableEq, Repr

/-- The constructor arguments of `CompressedBTB`. -/
structure BTBParams where
  entriesPow2 : Nat
  tagBits : Nat := 10
  sramDff : Bool := true
  tagShiftOverride : Nat := 0

namespace BTBParams

def tagShift (B : BTBParams) : Nat :=
  if 0 < B.tagShiftOverride then B.tagShiftOverride else 2 + B.entriesPow2

def index (B : BTBParams) (pc : Addr) : Nat := pc.toNat >>> 2 &&& indexMask B.entriesPow2

/-- `(pc >> tag_shift_) & tag_mask_` -/
def tag (B : BTBParams) (pc : Addr) : Nat := pc.toNat >>> B.tagShift &&& indexMask B.tagBits

/-- `CompressedBTB` -/
def compressed (B : BTBParams) : BTBBase where
  State := Nat → BTBEntry
  numEntries := 1 <<< B.entriesPow2
  hasRwConflict := !B.sramDff
  lookup table pc :=
    let ent := table (B.index pc)
    if ent.valid && ent.pcTag == B.tag pc then ent.target else 0
  update table pc target :=
    let ent := table (B.index pc)
    Function.update table (B.index pc)
      { ent with pcTag := B.tag pc, target := target, valid := true }
  clearEntry table pc := Function.update table (B.index pc) {}
  entryType table idx := if idx < 1 <<< B.entriesPow2 then (table idx).type else 0
  setEntryType table idx type :=
    if idx < 1 <<< B.entriesPow2 then Function.update table idx { table idx with type := type }
    else table
  init := fun _ => {}

end BTBParams

end NpSim.Branch
