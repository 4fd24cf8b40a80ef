/- digest: The tagged geometric-history predictor and its ring of prediction snapshots. -/

import NpSim.Branch.Predictors

set_option autoImplicit false
set_option relaxedAutoImplicit false

namespace NpSim.Branch

structure TageEntry where
  ctr : Int := 0
  u : Nat := 0
  tag : BitVec 16 := 0
  valid : Bool := false
  deriving DecidableEq

/-- `TageSnap`; a provider that is absent is the base predictor. -/
structure TageSnap where
  valid : Bool := false
  bimodalTaken : Bool := false
  tageTaken : Bool := false
  btbHitAtPred : Bool := false
  baseCnt : Nat := 0
  provider : Option Nat := some 0
  altProvider : Option Nat := some 0
  providerIdx : BitVec 32 := 0
  altIdx : BitVec 32 := 0
  providerCtr : Int := 0
  providerU : Nat := 0
  altCtr : Int := 0
  altTaken : Bool := false
  ghrSnap : BitVec 64 := 0
  fidx : Nat → BitVec 32 := fun _ => 0
  ftag : Nat → BitVec 16 := fun _ => 0
  compHit : Nat → Bool := fun _ => false

structure TageStats where
  bimodalCorrect : Nat := 0
  bimodalMispred : Nat := 0
  tageCorrect : Nat := 0
  tageMispred : Nat := 0
  tageOverrides : Nat := 0
  tageOverrideHelpful : Nat := 0
  tageOverrideHarmful : Nat := 0
  baseUsed : Nat := 0
  baseCorrect : Nat := 0
  baseMispred : Nat := 0
  compUsed : Nat → Nat := fun _ => 0
  compCorrect : Nat → Nat := fun _ => 0
  compMispred : Nat → Nat := fun _ => 0
  allocations : Nat := 0
  allocFailures : Nat := 0
  allocTried : Nat := 0
  updateSnapInvalid : Nat := 0
  snapRingOverflow : Nat := 0

/-- The constructor arguments of `TagePredictor`. -/
structure TageParams where
  basePow2 : Nat := 9
  compPow2 : Nat := 7
  histLens : List Nat := [2, 8, 32]

abbrev snapRing : Nat := 512

/-- `snap_id % SNAP_RING` -/
def ringSlot (id : BitVec 32) : Nat := id.toNat % snapRing

structure Tage where
  baseTable : Nat → Nat := fun _ => 1
  compTables : Nat → Nat → TageEntry := fun _ _ => {}
  ghr : BitVec 64 := 0
  snaps : Nat → TageSnap := fun _ => {}
  snapWrIdx : BitVec 32 := 0
  uResetCtr : Nat := 0
  stats : TageStats := {}

/-- The loop of `fold_ghr`. -/
def foldLoop (outMask : BitVec 32) (outBits : Nat) : Nat → BitVec 64 → BitVec 32 → BitVec 32
  | 0, _, result => result
  | fuel + 1, ghr, result =>
    if ghr = 0 then result
    else foldLoop outMask outBits fuel (ghr >>> outBits) (result ^^^ (ghr.setWidth 32 &&& outMask))

/-- `fold_ghr`: the loop shifts at least one bit out in each of its rounds. -/
def foldGhr (ghr : BitVec 64) (histLen outBits : Nat) : BitVec 32 :=
  let histLen := if 64 ≤ histLen then 63 else histLen
  let mask := if histLen < 63 then (1#64 <<< histLen) - 1#64 else BitVec.allOnes 64
  let outMask := if outBits < 32 then (1#32 <<< outBits) - 1#32 else BitVec.allOnes 32
  foldLoop outMask outBits 64 (ghr &&& mask) 0 &&& outMask

private theorem foldLoop_of_small {outMask : BitVec 32} {outBits : Nat} (h : 0 < outBits) (n : Nat)
    {fuel : Nat} {ghr : BitVec 64} (hg : ghr.toNat < 2 ^ fuel) (result : BitVec 32) :
    foldLoop outMask outBits (fuel + n) ghr result = foldLoop outMask outBits fuel ghr result := by
  induction fuel generalizing ghr result with
  | zero =>
    have hzero : ghr = 0 := by
      apply BitVec.eq_of_toNat_eq
      change ghr.toNat = 0
      omega
    subst hzero
    cases n <;> simp [foldLoop]
  | succ fuel ih =>
    rw [Nat.add_right_comm]
    simp only [foldLoop]
    split
    · rfl
    · apply ih
      rw [BitVec.toNat_ushiftRight, Nat.shiftRight_eq_div_pow]
      have hhalf : ghr.toNat / 2 ^ outBits ≤ ghr.toNat / 2 := by
        apply Nat.div_le_div_left
        · exact Nat.le_self_pow (Nat.ne_of_gt h) 2
        · exact Nat.two_pos
      rw [Nat.pow_succ] at hg
      omega

theorem foldLoop_fuel {outMask : BitVec 32} {outBits : Nat} (h : 0 < outBits) (n : Nat)
    (ghr : BitVec 64) (result : BitVec 32) :
    foldLoop outMask outBits (64 + n) ghr result = foldLoop outMask outBits 64 ghr result := by
  apply foldLoop_of_small h n
  exact ghr.isLt

namespace TageParams

abbrev maxComp : Nat := 8

abbrev tagBits : Nat := 8

variable (T : TageParams)

def nComp : Nat := min T.histLens.length maxComp

def histLen (i : Nat) : Nat := max (T.histLens.getD i 1) 1

def ghrMask : BitVec 64 :=
  let maxHist := T.histLen (T.nComp - 1)
  if maxHist < 64 then (1#64 <<< maxHist) - 1#64 else BitVec.allOnes 64

def shift (snap : BitVec 64) (taken : Bool) : BitVec 64 :=
  ((snap <<< 1) ||| (if taken then 1#64 else 0#64)) &&& T.ghrMask

def baseIndex (pc : Addr) : Nat :=
  (pc.toNat >>> 2 &&& indexMask T.basePow2) ^^^
    (pc.toNat >>> (2 + T.basePow2) &&& indexMask T.basePow2)

def compMask : BitVec 32 := (1#32 <<< T.compPow2) - 1#32

def compIdx (pc : Addr) (ghr : BitVec 64) (comp : Nat) : BitVec 32 :=
  (((pc >>> 2) &&& T.compMask) ^^^ foldGhr ghr (T.histLen comp) T.compPow2) &&& T.compMask

def compTag (pc : Addr) (ghr : BitVec 64) (comp : Nat) : BitVec 16 :=
  let h1 := foldGhr ghr (T.histLen comp) tagBits
  let h2 := foldGhr (ghr >>> 1) (if 1 < T.histLen comp then T.histLen comp - 1 else 1)
    (tagBits - 1)
  let tagMask := (1#32 <<< tagBits) - 1#32
  ((((pc >>> 2) &&& tagMask) ^^^ h1 ^^^ (h2 <<< 1)) &&& tagMask).setWidth 16

end TageParams

namespace Tage

variable (T : TageParams)

def entry (s : Tage) (snap : TageSnap) (comp : Nat) : TageEntry :=
  s.compTables comp (snap.fidx comp).toNat

/-- The first part of `predict`: the history, the base prediction, and the index, tag and hit of
every component. -/
def lookup (s : Tage) (pc btbTarget : Addr) (old : TageSnap) : TageSnap :=
  let cnt := s.baseTable (T.baseIndex pc)
  let fidx := fun i => if i < T.nComp then T.compIdx pc s.ghr i else old.fidx i
  let ftag := fun i => if i < T.nComp then T.compTag pc s.ghr i else old.ftag i
  { old with
    ghrSnap := s.ghr
    btbHitAtPred := btbTarget != 0
    baseCnt := cnt
    bimodalTaken := decide (2 ≤ cnt)
    fidx := fidx
    ftag := ftag
    compHit := fun i =>
      if i < T.nComp then
        let e := s.compTables i (fidx i).toNat
        e.valid && e.tag == ftag i
      else old.compHit i
    provider := none
    altProvider := none }

/-- One round of the search for the two longest matches. After the second match the loop of the
source breaks; here the later rounds change nothing. -/
def searchStep (s : Tage) (snap : TageSnap) (i : Nat) : TageSnap :=
  let e := s.entry snap i
  if !snap.compHit i then snap
  else if snap.provider = none then
    { snap with
      provider := some i, providerIdx := snap.fidx i, providerCtr := e.ctr, providerU := e.u }
  else if snap.altProvider = none then
    { snap with
      altProvider := some i, altIdx := snap.fidx i, altCtr := e.ctr
      altTaken := decide (0 ≤ e.ctr) }
  else snap

/-- The search, longest history first. -/
def search (s : Tage) (snap : TageSnap) : TageSnap :=
  (List.range T.nComp).reverse.foldl s.searchStep snap

/-- Without a second match the base predictor is the alternative. -/
def fillAlt (pc : Addr) (snap : TageSnap) : TageSnap :=
  if snap.altProvider = none then
    { snap with
      altTaken := snap.bimodalTaken, altCtr := snap.baseCnt
      altIdx := BitVec.ofNat 32 (T.baseIndex pc) }
  else snap

/-- The final direction: a freshly allocated provider is not trusted. -/
def decideTaken (s : Tage) (snap : TageSnap) : Bool :=
  match snap.provider with
  | none => snap.bimodalTaken
  | some p =>
    let pe := s.compTables p snap.providerIdx.toNat
    let weak := (decide (pe.ctr = 0) || decide (pe.ctr = -1)) && decide (pe.u = 0)
    if weak && snap.altProvider != snap.provider then snap.altTaken
    else decide (0 ≤ snap.providerCtr)

/-- The snapshot `predict` stores over `old`. -/
def takeSnap (s : Tage) (pc btbTarget : Addr) (old : TageSnap) : TageSnap :=
  let snap := fillAlt T pc (search T s (s.lookup T pc btbTarget old))
  { snap with tageTaken := s.decideTaken snap, valid := true }

/-- `predict`: the history is shifted with the predicted direction when the target buffer hits. -/
def predict (s : Tage) (pc btbTarget : Addr) : BPUPredResult × Tage :=
  let id := s.snapWrIdx
  let snap := s.takeSnap T pc btbTarget (s.snaps (ringSlot id))
  let btbHit := btbTarget != 0
  ({ taken := snap.tageTaken
     bhtCnt := 0
     ghrSnap := id
     tageOverrodeBimodal := btbHit && snap.tageTaken != snap.bimodalTaken },
   { s with
     snapWrIdx := id + 1
     snaps := Function.update s.snaps (ringSlot id) snap
     ghr := if btbHit then T.shift s.ghr snap.tageTaken else s.ghr })

/-- The slot of `id` has been taken by a later prediction. -/
def overwritten (s : Tage) (id : BitVec 32) : Bool := decide (snapRing ≤ (s.snapWrIdx - id).toNat)

def updateCtr (ctr : Int) (taken : Bool) : Int :=
  if taken then (if ctr < 3 then ctr + 1 else ctr) else (if -4 < ctr then ctr - 1 else ctr)

/-- A change of one entry of component `comp`. -/
def setEntry (s : Tage) (comp : Nat) (idx : BitVec 32) (f : TageEntry → TageEntry) : Tage :=
  { s with
    compTables := Function.update s.compTables comp
      (Function.update (s.compTables comp) idx.toNat (f (s.compTables comp idx.toNat))) }

/-- The base counter of `update`. -/
def trainBase (s : Tage) (pc : Addr) (taken : Bool) : Tage :=
  { s with
    baseTable := Function.update s.baseTable (T.baseIndex pc)
      (saturate taken (s.baseTable (T.baseIndex pc))) }

/-- The counter and the usefulness of the provider. -/
def trainProvider (s : Tage) (snap : TageSnap) (taken : Bool) : Tage :=
  match snap.provider with
  | none => s
  | some p =>
    let s := s.setEntry p snap.providerIdx fun e => { e with ctr := updateCtr e.ctr taken }
    let provTaken := decide (0 ≤ snap.providerCtr)
    if provTaken != snap.altTaken then
      s.setEntry p snap.providerIdx fun e => { e with u := saturate (provTaken == taken) e.u }
    else s

/-- The components above the provider. -/
def above (snap : TageSnap) : List Nat :=
  let start := match snap.provider with
    | none => 0
    | some p => p + 1
  List.range' start (T.nComp - start)

/-- The shortest component above the provider with a free or useless entry. -/
def candidate (s : Tage) (snap : TageSnap) : Option Nat :=
  (above T snap).find? fun i => !(s.entry snap i).valid || decide ((s.entry snap i).u = 0)

/-- The loss of usefulness of every candidate. -/
def decay (s : Tage) (snap : TageSnap) : Tage :=
  (above T snap).foldl (fun s i => s.setEntry i (snap.fidx i) fun e =>
    if e.valid && decide (0 < e.u) then { e with u := e.u - 1 } else e) s

/-- The allocation itself: the candidate's entry, or a decay of all of them. -/
def allocateAbove (s : Tage) (snap : TageSnap) (taken : Bool) : Tage :=
  if above T snap = [] then s
  else
    match s.candidate T snap with
    | none =>
      let s := s.decay T snap
      { s with stats := { s.stats with allocFailures := s.stats.allocFailures + 1 } }
    | some i =>
      let s := s.setEntry i (snap.fidx i) fun _ =>
        { tag := snap.ftag i, ctr := if taken then 0 else -1, u := 0, valid := true }
      { s with stats := { s.stats with allocations := s.stats.allocations + 1 } }

/-- The allocation of `update` after a wrong final direction. -/
def allocate (s : Tage) (snap : TageSnap) (taken : Bool) : Tage :=
  if snap.tageTaken = taken then s
  else
    { s with stats := { s.stats with allocTried := s.stats.allocTried + 1 } }.allocateAbove T snap
      taken

/-- The periodic halving of every usefulness counter. -/
def age (s : Tage) : Tage :=
  if 1 <<< 18 ≤ s.uResetCtr + 1 then
    { s with
      uResetCtr := 0
      compTables := fun comp idx =>
        let e := s.compTables comp idx
        if comp < T.nComp && e.valid then { e with u := e.u / 2 } else e }
  else { s with uResetCtr := s.uResetCtr + 1 }

/-- The training of `update` with the snapshot of the branch. -/
def train (s : Tage) (snap : TageSnap) (pc : Addr) (taken : Bool) : Tage :=
  (((s.trainBase T pc taken).trainProvider snap taken).allocate T snap taken).age T

/-- `snap.valid = false` for the slot of `id`. -/
def consume (s : Tage) (id : BitVec 32) : Tage :=
  { s with
    snaps := Function.update s.snaps (ringSlot id)
      { s.snaps (ringSlot id) with valid := false } }

/-- `update`: `old_ghr` is the identifier of the snapshot. -/
def update (s : Tage) (pc : Addr) (taken _btbHit : Bool) (_oldCnt : Nat) (snapId : BitVec 32) :
    Tage :=
  if s.overwritten snapId then
    { s with stats := { s.stats with snapRingOverflow := s.stats.snapRingOverflow + 1 } }
  else
    let snap := s.snaps (ringSlot snapId)
    if !snap.valid then
      { s with stats := { s.stats with updateSnapInvalid := s.stats.updateSnapInvalid + 1 } }
    else (s.train T snap pc taken).consume snapId

def onMispred (s : Tage) (actualTaken : Bool) (_oldCnt : Nat) (snapId : BitVec 32) : Tage :=
  if s.overwritten snapId then s
  else { s with ghr := T.shift (s.snaps (ringSlot snapId)).ghrSnap actualTaken }

/-- `cnt` with the entry of `comp` raised by one. -/
def bump (cnt : Nat → Nat) (comp : Nat) : Nat → Nat := Function.update cnt comp (cnt comp + 1)

/-- The accuracy breakdown of `on_resolved`. -/
def score (snap : TageSnap) (taken overrode : Bool) (t : TageStats) : TageStats :=
  let ok := snap.tageTaken == taken
  let t :=
    if ok then { t with tageCorrect := t.tageCorrect + 1 }
    else { t with tageMispred := t.tageMispred + 1 }
  let t :=
    if snap.bimodalTaken = taken then { t with bimodalCorrect := t.bimodalCorrect + 1 }
    else { t with bimodalMispred := t.bimodalMispred + 1 }
  let t :=
    if overrode then
      if ok then { t with
        tageOverrides := t.tageOverrides + 1, tageOverrideHelpful := t.tageOverrideHelpful + 1 }
      else { t with
        tageOverrides := t.tageOverrides + 1, tageOverrideHarmful := t.tageOverrideHarmful + 1 }
    else t
  match snap.provider with
  | none =>
    if ok then { t with baseUsed := t.baseUsed + 1, baseCorrect := t.baseCorrect + 1 }
    else { t with baseUsed := t.baseUsed + 1, baseMispred := t.baseMispred + 1 }
  | some p =>
    if ok then { t with compUsed := bump t.compUsed p, compCorrect := bump t.compCorrect p }
    else { t with compUsed := bump t.compUsed p, compMispred := bump t.compMispred p }

def onResolved (s : Tage) (taken : Bool) (pred : BranchResult) : Tage :=
  if s.overwritten pred.ghrSnap then s
  else
    let snap := s.snaps (ringSlot pred.ghrSnap)
    if !snap.valid then s
    else { s with stats := score snap taken pred.tageOverrodeBimodal s.stats }

def predictor : BranchPred where
  State := Tage
  isNoBpu := false
  predict := predict T
  update := update T
  onMispred := onMispred T
  onResolved := onResolved
  init := {}

end Tage

end NpSim.Branch
