/- digest: The in-order core: fetch queue, seven stage handlers, response handlers and the
   event-driven update. -/

import Mathlib.Logic.Function.Basic
import NpSim.Branch.BranchUnit
import NpSim.Cache.PipeCache
import NpSim.Pipe.Account

set_option autoImplicit false
set_option relaxedAutoImplicit false

namespace NpSim.Pipe

open NpSim.Lib.Partial NpSim.Branch NpSim.Cache

inductive PipeStage | fetch | decode | execute | intMulExt | intDivExt | memory | writeBack
  deriving DecidableEq, Repr

/-- The stages in the order `update_impl` visits them. -/
def PipeStage.reverseOrder : List PipeStage :=
  [.writeBack, .memory, .intDivExt, .intMulExt, .execute, .decode, .fetch]

/-- The constructor arguments of `Pipeline`; `hasNc` says that a non-cacheable port is
connected. -/
structure PipelineParams where
  branch : BranchParams
  ifqSize : Nat
  mmioLat : Nat
  hasNc : Bool

/-- A transaction. The last three fields are history: the position of its record in the fed
trace, the tick at which it left Decode, and the tick at which its data response arrived. -/
structure Transaction where
  traceInst : TraceInst
  brPred : BranchResult := {}
  brMispred : Bool := false
  isWrongPath : Bool := false
  waitMem : Bool := false
  countedInflight : Bool := true
  bpMetaHold : Nat := 0
  seq : Nat := 0
  execAt : Tick := infTime
  respAt : Tick := infTime
  deriving DecidableEq

/-- The placeholder of a wrong-path fetch. -/
def Transaction.wrongPath (pc : Addr) : Transaction :=
  { traceInst := { pc := pc }, isWrongPath := true, waitMem := true, countedInflight := false }

structure FetchState where
  wrongPath : Bool := false
  wpFlushed : Bool := false
  wrongPathPc : Addr := 0
  resumeTick : Nat := 0
  respIsOrphan : List Bool := []
  wpRedirectS1 : Bool := false
  wpRedirectTargetS1 : Addr := 0
  wpRedirectS2 : Bool := false
  wpRedirectTargetS2 : Addr := 0
  earlyRedirRemaining : Nat := 0
  earlyRedirSeqPc : Addr := 0
  deriving DecidableEq, Repr

/-- What `is_ready` of the three ports answers during a call. -/
structure Ports where
  imem : Bool
  dmem : Bool × Bool
  nc : Bool × Bool
  deriving DecidableEq, Repr

/-- A request on a port. Neither port calls back into the core while it takes a request. -/
inductive PortCall
  | fetch (addr : Addr)
  | lsu (nc : Bool) (op : MemRWOpt) (addr : Addr) (data : Word) (strb : BitVec 8)
  deriving DecidableEq, Repr

/-- History of a commit: the transaction, the tick, and the counters right after. -/
structure Commit where
  trans : Transaction
  tick : Nat
  stats : PipelineStats
  deriving DecidableEq

/-- History of a pass of Decode or of a data response: the transaction, the tick, and the
transactions in the slots behind Fetch at that time. -/
structure Sighting where
  trans : Transaction
  tick : Nat
  issued : List Transaction
  deriving DecidableEq

/-- History of the prediction of a fetched branch: the transaction it was fetched as, the branch
unit right before, and the number of predictions made before it. -/
structure Prediction (K : PipelineParams) where
  trans : Transaction
  unit : BranchUnit K.branch
  index : Nat

/-- History of the front end: a buffered record is fetched as a transaction, a placeholder is
fetched, a mispredicted transaction flushes, the target buffer is written. A fetch carries the
branch unit right before it. -/
inductive Event (K : PipelineParams)
  | take (tick : Nat) (trans : Transaction) (unit : BranchUnit K.branch)
  | wrong (tick : Nat) (pc : Addr) (unit : BranchUnit K.branch)
  | flush (tick : Nat) (trans : Transaction)
  | write (tick : Nat) (pc : Addr)

structure Pipeline (K : PipelineParams) where
  inputBuffer : Option Transaction := none
  simPipe : PipeStage → Option Transaction := fun _ => none
  regReady : Nat → Tick := fun _ => 0
  stageUpdate : PipeStage → Tick := fun _ => 0
  ongoingInsts : Nat := 0
  /-- `calc_nxtupd_` has no initializer. -/
  calcNxtupd : Tick
  acct : Account := {}
  /-- `fetch_queue_`, front first -/
  fetchQueue : List Transaction := []
  fetch : FetchState := {}
  mmioRespTick : Tick := infTime
  mulReadyTick : Nat := 0
  divReadyTick : Nat := 0
  isDraining : Bool := false
  bpu : BranchUnit K.branch := {}
  /-- requests made on the ports and not yet carried out -/
  calls : List PortCall := []
  /-- ghost: the records fed so far -/
  fed : List TraceInst := []
  /-- ghost: the commits so far -/
  commits : List Commit := []
  /-- ghost: the transactions destroyed by flushes so far -/
  discarded : List Transaction := []
  /-- ghost: the passes of Decode so far -/
  passes : List Sighting := []
  /-- ghost: the data responses of loads so far -/
  loads : List Sighting := []
  /-- ghost: the predictions of fetched branches so far -/
  predictions : List (Prediction K) := []
  /-- ghost: the number of predictions so far, those of the wrong path included -/
  predicted : Nat := 0
  /-- ghost: the events of the front end so far -/
  events : List (Event K) := []

def isCacheableAddr (addr : Addr) : Bool :=
  let top := addr.toNat >>> 28 &&& 0xf
  top == 0x3 || top == 0x8 || top == 0x9 || top == 0xa || top == 0xb

namespace Pipeline

abbrev kBranchMissPenalty : Nat := 1
abbrev mulLat : Nat := 4
abbrev divLat : Nat := 34

variable {K : PipelineParams}

def setSlot (i : PipeStage) (x : Option Transaction) (c : Pipeline K) : Pipeline K :=
  { c with simPipe := Function.update c.simPipe i x }

/-- The transactions in the slots behind Fetch. -/
def issued (c : Pipeline K) : List Transaction :=
  [.decode, .execute, .intMulExt, .intDivExt, .memory, .writeBack].filterMap c.simPipe

def schedule (now : Nat) (i : PipeStage) (when : Tick) (c : Pipeline K) :
    Except Fault (Pipeline K) := do
  require ((now : Tick) ≤ when) .scheduleInPast
  .ok { c with stageUpdate := Function.update c.stageUpdate i when }

def asyncSchedule (now : Nat) (i : PipeStage) (when : Tick) (c : Pipeline K) :
    Except Fault (Pipeline K) := do
  let c ← c.schedule now i when
  .ok { c with calcNxtupd := min c.calcNxtupd when }

/-- The earliest strictly future entry of `stage_update_`. -/
def nextStage (now : Nat) (c : Pipeline K) : Tick :=
  PipeStage.reverseOrder.foldl
    (fun m i => if (now : Tick) < c.stageUpdate i then min m (c.stageUpdate i) else m) infTime

def calcSched (now : Nat) (c : Pipeline K) : Pipeline K :=
  let mins := min (c.nextStage now) c.mmioRespTick
  let awake := c.fetch.wrongPath || decide (0 < c.fetch.earlyRedirRemaining)
    || decide (now < c.fetch.resumeTick)
  { c with calcNxtupd := if awake then min mins ((now + 1 : Nat) : Tick) else mins }

def prevStageValid (now : Nat) (c : Pipeline K) : PipeStage → Bool
  | .fetch => true
  | .decode => (c.simPipe .fetch).isSome
  | .execute | .intMulExt | .intDivExt => (c.simPipe .decode).isSome
  | .memory => (c.simPipe .execute).isSome
  | .writeBack =>
    (c.simPipe .memory).isSome
      || (c.simPipe .intMulExt).isSome && decide (c.mulReadyTick ≤ now)
      || (c.simPipe .intDivExt).isSome && decide (c.divReadyTick ≤ now)

/-- `reg_ready_.at(r)` -/
def regAt (c : Pipeline K) (r : Nat) : Except Fault Tick :=
  if r < 32 then .ok (c.regReady r) else .error .regRange

/-- `std::max(reg_ready_.at(src_reg[0]), reg_ready_.at(src_reg[1]))` -/
def srcReady (c : Pipeline K) (inst : TraceInst) : Except Fault Tick := do
  let a ← c.regAt inst.srcReg0
  let b ← c.regAt inst.srcReg1
  .ok (max a b)

/-- `reg_ready_.at(r) = when`, skipped for register zero. -/
def setReg (r : Nat) (when : Tick) (c : Pipeline K) : Except Fault (Pipeline K) :=
  if r = 0 then .ok c
  else do
    require (r < 32) .regRange
    .ok { c with regReady := Function.update c.regReady r when }

/-- The retry of a Decode that is parked on a register, at the end of `update_reg_time`. -/
def retryDecode (now : Nat) (c : Pipeline K) : Except Fault (Pipeline K) :=
  match c.simPipe .fetch with
  | none => .ok c
  | some ids =>
    if c.stageUpdate .decode = infTime ∧
        (ids.traceInst.srcReg0 ≠ 0 ∨ ids.traceInst.srcReg1 ≠ 0) then do
      let ready ← c.srcReady ids.traceInst
      if ready ≤ now then c.schedule now .decode ((now + 1 : Nat) : Tick)
      else c.schedule now .decode ready
    else .ok c

def updateRegTime (now : Nat) (rd : Nat) (when : Tick) (c : Pipeline K) :
    Except Fault (Pipeline K) := do
  let c ← c.setReg rd when
  let c ← c.retryDecode now
  require (c.regReady 0 = 0) .regZero
  .ok c

/-- `fetch_queue_.full()` -/
def ifqFull (c : Pipeline K) : Bool := decide (K.ifqSize ≤ c.fetchQueue.length)

/-- `imem->read_req` with the push on `resp_is_orphan`. -/
def issueFetch (addr : Addr) (orphan : Bool) (c : Pipeline K) : Pipeline K :=
  { c with
    calls := c.calls ++ [.fetch addr]
    fetch := { c.fetch with respIsOrphan := c.fetch.respIsOrphan ++ [orphan] } }

/-- The early-redirect branch of `do_fetch_0`. -/
def fetchEarlyRedir (c : Pipeline K) : Pipeline K :=
  let c := c.issueFetch c.fetch.earlyRedirSeqPc true
  { c with fetch := { c.fetch with
      earlyRedirSeqPc := c.fetch.earlyRedirSeqPc + 4
      earlyRedirRemaining := c.fetch.earlyRedirRemaining - 1 } }

/-- The two-stage redirect pipeline of wrong-path fetches, with the statistics it counts. -/
def stepRedirect (pred : BranchResult) (f : FetchState) (s : PipelineStats) :
    FetchState × PipelineStats :=
  let f := { f with wrongPathPc := f.wrongPathPc + 4 }
  let redirected := f.wpRedirectS2
  let (f, s) :=
    if f.wpRedirectS2 then
      ({ f with wrongPathPc := f.wpRedirectTargetS2, wpRedirectS2 := false,
                wpRedirectS1 := false },
        { s with wpRedirects := s.wpRedirects + 1 })
    else (f, s)
  let f :=
    if f.wpRedirectS1 then
      { f with wpRedirectS2 := true, wpRedirectTargetS2 := f.wpRedirectTargetS1,
               wpRedirectS1 := false }
    else f
  if pred.willRedirect && !redirected then
    ({ f with wpRedirectS1 := true, wpRedirectTargetS1 := pred.predTarget },
      { s with wpBtbHits := s.wpBtbHits + 1 })
  else (f, s)

/-- The wrong-path branch of `do_fetch_0`. -/
def fetchWrongPath (now : Nat) (c : Pipeline K) : Pipeline K :=
  let pc := c.fetch.wrongPathPc
  let (pred, bpu) := c.bpu.predict pc
  let stats := { c.acct.stats with wpBpuQueries := c.acct.stats.wpBpuQueries + 1 }
  let c := { c with
    bpu := bpu
    fetchQueue := c.fetchQueue ++ [Transaction.wrongPath pc]
    predicted := c.predicted + 1
    events := c.events ++ [Event.wrong now pc c.bpu] }
  let c := c.issueFetch pc false
  let (f, stats) := stepRedirect pred c.fetch stats
  { c with fetch := f, acct := { c.acct with stats := stats } }

/-- Where wrong-path fetching starts after the misprediction of `inst`. -/
def wrongPathStart (inst : TraceInst) (pred : BranchResult) : Addr :=
  if (inst.isBranch && inst.brTaken) && !pred.willRedirect then inst.pc + 4 else pred.predTarget

/-- The fetch state after the fetch of `inst`: a misprediction enters the wrong path, an override
of the base predictor holds the next fetch off, and a taken prediction still fetches two
sequential addresses. -/
def fetchStateAfter (now : Nat) (inst : TraceInst) (pred : BranchResult) (ok : Bool)
    (f : FetchState) : FetchState :=
  let f := if ok then f else { f with wrongPath := true, wrongPathPc := wrongPathStart inst pred }
  let f := { f with respIsOrphan := f.respIsOrphan ++ [false] }
  let f :=
    if pred.tageOverrodeBimodal then { f with resumeTick := max f.resumeTick (now + 2) } else f
  if ok && pred.willRedirect then
    { f with earlyRedirRemaining := 2, earlyRedirSeqPc := inst.pc + 4 }
  else f

/-- The attribution at the fetch of a real instruction. -/
def acctAfterFetch (now : Nat) (pred : BranchResult) (ok : Bool) (a : Account) : Account :=
  let a := if ok then a else a.flushStallCycles now
  if ok && pred.willRedirect then
    { a with stats := { a.stats with earlyRedirects := a.stats.earlyRedirects + 1 } }
  else a

/-- The prediction for `inst`, its verdict, and the branch unit afterwards. -/
def judgeFetch (inst : TraceInst) (u : BranchUnit K.branch) :
    BranchResult × Bool × BranchUnit K.branch :=
  let (pred, u) := u.predictAtFetch inst.pc inst.isBranch
  let realTaken := inst.isBranch && inst.brTaken
  let realTarget := if realTaken then inst.memAddr else 0
  let (ok, u) := u.judge realTaken realTarget pred
  (pred, ok, u)

/-- `bp_meta_hold` of a fetched instruction: without a predictor a taken branch waits two ticks. -/
def metaHold (candidate : Transaction) (u : BranchUnit K.branch) : Nat :=
  let inst := candidate.traceInst
  if inst.isBranch && u.isNoBpu then (if inst.brTaken then 2 else 0) else candidate.bpMetaHold

/-- The last branch of `do_fetch_0`: the buffered instruction `candidate` is fetched. -/
def fetchReal (now : Nat) (candidate : Transaction) (c : Pipeline K) : Pipeline K :=
  let inst := candidate.traceInst
  let hold := metaHold candidate c.bpu
  let (pred, ok, bpu) := judgeFetch inst c.bpu
  let candidate := { candidate with
    waitMem := true, bpMetaHold := hold, brPred := pred, brMispred := !ok }
  { c with
    inputBuffer := none
    bpu := bpu
    acct := acctAfterFetch now pred ok c.acct
    calls := c.calls ++ [.fetch inst.pc]
    fetch := fetchStateAfter now inst pred ok c.fetch
    fetchQueue := c.fetchQueue ++ [candidate]
    predictions :=
      if inst.isBranch then c.predictions ++ [⟨candidate, c.bpu, c.predicted⟩] else c.predictions
    predicted := if inst.isBranch then c.predicted + 1 else c.predicted
    events := c.events ++ [Event.take now candidate c.bpu] }

/-- The wrong path ends at the first fetch after its flush. -/
def endWrongPath (c : Pipeline K) : Pipeline K :=
  if c.fetch.wrongPath then
    { c with fetch := { c.fetch with wrongPath := false, wpFlushed := false } }
  else c

/-- `do_fetch_0`: at most one request to the instruction cache. -/
def doFetch0 (now : Nat) (imemReady : Bool) (c : Pipeline K) : Pipeline K :=
  if now < c.fetch.resumeTick then { c with acct := c.acct.setStall now .brMispred }
  else if !imemReady then c
  else if 0 < c.fetch.earlyRedirRemaining then c.fetchEarlyRedir
  else if c.fetch.wrongPath && !c.fetch.wpFlushed then
    if c.ifqFull then c else c.fetchWrongPath now
  else
    let c := c.endWrongPath
    if c.ifqFull then c
    else
      match c.inputBuffer with
      | none => c
      | some candidate => c.fetchReal now candidate

/-- `do_fetch_1` -/
def doFetch1 (now : Nat) (c : Pipeline K) : Except Fault (Pipeline K) :=
  match c.fetchQueue with
  | [] => c.schedule now .fetch infTime
  | ptr :: rest =>
    if ptr.waitMem then c.schedule now .fetch infTime
    else if 0 < ptr.bpMetaHold then
      { c with fetchQueue := { ptr with bpMetaHold := ptr.bpMetaHold - 1 } :: rest }.schedule now
        .fetch ((now + 1 : Nat) : Tick)
    else do
      require (c.simPipe .fetch = none) .slotOccupied
      .ok ({ c with fetchQueue := rest }.setSlot .fetch (some ptr))

/-- `find_if_ptr` on `wait_mem`, with the flag of the entry found cleared. -/
def answerFirst : List Transaction → Option (List Transaction)
  | [] => none
  | x :: xs =>
    if x.waitMem then some ({ x with waitMem := false } :: xs)
    else (answerFirst xs).map (x :: ·)

def handleIfuResp (now : Nat) (c : Pipeline K) : Except Fault (Pipeline K) :=
  match c.fetch.respIsOrphan with
  | [] => .error .orphanEmpty
  | isOrphan :: rest =>
    let c := { c with fetch := { c.fetch with respIsOrphan := rest } }
    if isOrphan then .ok c
    else
      match answerFirst c.fetchQueue with
      | none => .error .noWaitingEntry
      | some q => { c with fetchQueue := q }.asyncSchedule now .fetch ((now + 1 : Nat) : Tick)

/-- A load or store in the Execute slot waits for its response. -/
def lsuActive (c : Pipeline K) : Bool :=
  match c.simPipe .execute with
  | some x => x.waitMem
  | none => false

/-- The earliest tick at which an M-extension unit is done, as `do_decode` computes it. -/
def mextReady (now : Nat) (c : Pipeline K) : Tick :=
  let ready := infTime
  let ready := if (c.simPipe .intMulExt).isSome then min ready c.mulReadyTick else ready
  let ready := if (c.simPipe .intDivExt).isSome then min ready c.divReadyTick else ready
  if ready ≤ now then ((now + 1 : Nat) : Tick) else ready

/-- An M-extension slot `s` holds a writer of `dst`. -/
def hasMextWaw (c : Pipeline K) (dst : Nat) (s : PipeStage) : Bool :=
  match c.simPipe s with
  | some sp => sp.traceInst.dstReg == dst
  | none => false

/-- A stall of `do_decode` until `when`. -/
def stallDecode (now : Nat) (when : Tick) (c : Pipeline K) : Except Fault (Pipeline K) :=
  { c with acct := c.acct.setStallIf (!c.lsuActive) now .raw }.schedule now .decode when

/-- The last part of `do_decode`: the instruction moves on to the Decode slot. -/
def passDecode (now : Nat) (tr : Transaction) (c : Pipeline K) :
    Except Fault (Pipeline K) := do
  let c := { c with acct := c.acct.setStallIf (!c.lsuActive) now .noInst }
  let c ← c.schedule now .decode ((now + 1 : Nat) : Tick)
  let c ← c.setReg tr.traceInst.dstReg infTime
  let c := { c with passes := c.passes ++ [Sighting.mk tr now c.issued] }
  .ok ((c.setSlot .fetch none).setSlot .decode (some tr))

/-- The WAW check of `do_decode`, then the pass. -/
def decodeWaw (now : Nat) (tr : Transaction) (c : Pipeline K) :
    Except Fault (Pipeline K) :=
  let dst := tr.traceInst.dstReg
  if dst ≠ 0 ∧ (c.hasMextWaw dst .intMulExt || c.hasMextWaw dst .intDivExt) = true then do
    let waw ← c.regAt dst
    c.stallDecode now (if waw ≤ now then ((now + 1 : Nat) : Tick) else waw)
  else c.passDecode now tr

def doDecode (now : Nat) (c : Pipeline K) : Except Fault (Pipeline K) :=
  match c.simPipe .fetch with
  | none => .error .nullSlot
  | some tr =>
    let inst := tr.traceInst
    if tr.isWrongPath then
      { c with acct := c.acct.setStallIf c.acct.stall.inBrRecovery now .brMispred }.setSlot .fetch
        none |>.schedule now .decode ((now + 1 : Nat) : Tick)
    else if inst.extOp ≠ Trace.ExtNone ∧
        ((c.simPipe .intMulExt).isSome || (c.simPipe .intDivExt).isSome) = true then
      c.stallDecode now (c.mextReady now)
    else do
      let ready ← c.srcReady inst
      if (now : Tick) < ready then c.stallDecode now ready
      else c.decodeWaw now tr

/-- The flush shared by `do_execute` and `flush_false_btb_hit`. -/
def flushFrontEnd (now : Nat) (c : Pipeline K) : Pipeline K :=
  let inQueue := c.fetchQueue.countP (·.countedInflight)
  let inFetch :=
    match c.simPipe .fetch with
    | some x => if x.countedInflight then 1 else 0
    | none => 0
  let dropped := (c.simPipe .fetch).toList
  let c := c.setSlot .fetch none
  { c with
    ongoingInsts := c.ongoingInsts - inQueue - inFetch
    fetchQueue := []
    discarded := c.discarded ++ (dropped ++ c.fetchQueue)
    fetch := { c.fetch with
      respIsOrphan := c.fetch.respIsOrphan.map fun _ => true
      wpFlushed := true
      wpRedirectS1 := false
      wpRedirectS2 := false
      earlyRedirRemaining := 0
      resumeTick := now + kBranchMissPenalty }
    acct := c.acct.enterRecovery now }

/-- A flush, or a write of the target buffer, is put on record. -/
def note (e : Event K) (c : Pipeline K) : Pipeline K := { c with events := c.events ++ [e] }

def flushFalseBtbHit (now : Nat) (tr : Transaction) (c : Pipeline K) : Pipeline K :=
  let inst := tr.traceInst
  if inst.isBranch then c
  else
    let hadBtbHit := tr.brPred.predTarget != 0
    let bpu := c.bpu.update inst.pc false 0 false false true tr.brPred tr.brMispred
    let c := if hadBtbHit then { c with bpu := bpu } else c
    let cleared := { c with bpu := c.bpu.clearBtbEntry inst.pc }.note (.write now inst.pc)
    if hadBtbHit && !tr.brMispred then cleared
    else if !tr.brMispred then c
    else (cleared.note (.flush now tr)).flushFrontEnd now

/-- The branch resolution of `do_execute`. -/
def resolveBranch (now : Nat) (tr : Transaction) (c : Pipeline K) : Pipeline K :=
  let inst := tr.traceInst
  if inst.isBranch then
    let realTarget := if inst.brTaken then inst.memAddr else 0
    let isCall := inst.dstReg == 1
    let isRet := inst.srcReg0 == 1 && inst.dstReg == 0
    let btbHit := tr.brPred.predTarget != 0
    let bpu :=
      c.bpu.update inst.pc inst.brTaken realTarget isCall isRet btbHit tr.brPred tr.brMispred
    let c := { c with bpu := bpu }
    let c := if inst.brTaken then c.note (.write now inst.pc) else c
    if tr.brMispred then (c.note (.flush now tr)).flushFrontEnd now else c
  else c

/-- The register forwarding of `do_execute`. -/
def forward (now : Nat) (inst : TraceInst) (c : Pipeline K) : Except Fault (Pipeline K) :=
  if inst.memOp = Trace.MemNone then
    if inst.isBranch ∧ inst.dstReg ≠ 0 then
      c.updateRegTime now inst.dstReg ((now + 2 : Nat) : Tick)
    else c.updateRegTime now inst.dstReg (now : Tick)
  else .ok c

def doExecute (now : Nat) (c : Pipeline K) : Except Fault (Pipeline K) := do
  require (c.stageUpdate .decode ≤ now) .decodeNotDue
  match c.simPipe .decode with
  | none => .error .nullSlot
  | some tr =>
    let inst := tr.traceInst
    if inst.extOp ≠ Trace.ExtNone then .ok c
    else do
      let c := (c.resolveBranch now tr).flushFalseBtbHit now tr
      let c ← c.forward now inst
      let c := (c.setSlot .decode none).setSlot .execute (some { tr with execAt := now })
      c.schedule now .execute ((now + 1 : Nat) : Tick)

/-- The body shared by `do_mul_ext` and `do_div_ext`, on unit `s` of latency `lat`. -/
def issueMext (now : Nat) (s : PipeStage) (lat : Nat) (tr : Transaction) (c : Pipeline K) :
    Except Fault (Pipeline K) := do
  let done : Tick := ((now + lat : Nat) : Tick)
  let c ← c.updateRegTime now tr.traceInst.dstReg done
  let c ← c.schedule now s done
  let c ← c.asyncSchedule now .writeBack done
  .ok ((c.setSlot .decode none).setSlot s (some { tr with execAt := now }))

def doMulExt (now : Nat) (c : Pipeline K) : Except Fault (Pipeline K) := do
  require (c.stageUpdate .decode ≤ now) .decodeNotDue
  match c.simPipe .decode with
  | none => .error .nullSlot
  | some tr =>
    let op := tr.traceInst.extOp
    if ¬(op = Trace.IntMulH ∨ op = Trace.IntMulL) then .ok c
    else
      let c := c.flushFalseBtbHit now tr
      { c with mulReadyTick := now + mulLat }.issueMext now .intMulExt mulLat tr

def doDivExt (now : Nat) (c : Pipeline K) : Except Fault (Pipeline K) := do
  require (c.stageUpdate .decode ≤ now) .decodeNotDue
  match c.simPipe .decode with
  | none => .error .nullSlot
  | some tr =>
    let op := tr.traceInst.extOp
    if ¬(op = Trace.IntDiv ∨ op = Trace.IntRem) then .ok c
    else
      let c := c.flushFalseBtbHit now tr
      { c with divReadyTick := now + divLat }.issueMext now .intDivExt divLat tr

/-- The address is served by the pipeline itself: non-cacheable, and no port for it. -/
def legacyMmio (K : PipelineParams) (inst : TraceInst) : Bool :=
  inst.memOp != Trace.MemNone && !isCacheableAddr inst.memAddr && !K.hasNc

/-- The load or store goes to the non-cacheable port. -/
def usesNc (K : PipelineParams) (inst : TraceInst) : Bool :=
  inst.memOp != Trace.MemNone && !isCacheableAddr inst.memAddr && K.hasNc

/-- `send_lsu_req` for the load or store `tr` in the Execute slot. -/
def sendLsuReq (now : Nat) (ports : Ports) (tr : Transaction) (op : MemRWOpt)
    (c : Pipeline K) : Except Fault (Pipeline K) := do
  let nc := usesNc K tr.traceInst
  let port := if nc then ports.nc else ports.dmem
  let c ← c.schedule now .memory infTime
  if (if op = .write then port.2 else port.1) = true then
    let c := c.setSlot .execute (some { tr with waitMem := true })
    .ok { c with
      calls := c.calls ++
        [.lsu nc op (tr.traceInst.memAddr &&& ~~~3#32) 0xbad#32 0xf#8] }
  else .ok c

/-- The transaction in Execute moves to the Memory slot. -/
def passMemory (now : Nat) (tr : Transaction) (c : Pipeline K) :
    Except Fault (Pipeline K) := do
  let c ← c.schedule now .memory ((now + 1 : Nat) : Tick)
  .ok ((c.setSlot .execute none).setSlot .memory (some tr))

/-- The register write of a load `tr` whose data is there at `now`. -/
def noteLoad (now : Nat) (tr : Transaction) (c : Pipeline K) : Except Fault (Pipeline K) :=
  if tr.traceInst.memOp = Trace.MemLoad then
    { c with loads := c.loads ++ [Sighting.mk tr now c.issued] }.updateRegTime now
      tr.traceInst.dstReg ((now + 2 : Nat) : Tick)
  else .ok c

def doMemory (now : Nat) (ports : Ports) (c : Pipeline K) : Except Fault (Pipeline K) :=
  match c.simPipe .execute with
  | none => .error .nullSlot
  | some tr =>
    let inst := tr.traceInst
    if tr.waitMem then
      if legacyMmio K inst then do
        let tr := { tr with waitMem := false, respAt := now }
        let c ← (c.setSlot .execute (some tr)).noteLoad now tr
        c.passMemory now tr
      else c.schedule now .memory infTime
    else if legacyMmio K inst then
      { c with acct := c.acct.setStall now .lsuStall }.setSlot .execute
        (some { tr with waitMem := true }) |>.schedule now .memory
          ((now + K.mmioLat : Nat) : Tick)
    else if inst.memOp = Trace.MemLoad then
      { c with acct := c.acct.setStall now .lsuStall }.sendLsuReq now ports tr .read
    else if inst.memOp = Trace.MemStore then do
      let c ← { c with acct := c.acct.setStall now .lsuStall }.sendLsuReq now ports tr .write
      c.schedule now .memory infTime
    else c.passMemory now tr

/-- Decode is blocked on a source when a data response arrives: the stall becomes RAW. -/
def rawAfterResp (now : Nat) (c : Pipeline K) : Except Fault (Pipeline K) :=
  match c.simPipe .fetch with
  | none => .ok c
  | some ids => do
    let rdy ← c.srcReady ids.traceInst
    .ok (if (now : Tick) < rdy then { c with acct := c.acct.setStall now .raw } else c)

def handleLsuResp (now : Nat) (c : Pipeline K) : Except Fault (Pipeline K) :=
  match c.simPipe .execute with
  | none => .error .lsuSlot
  | some tr => do
    require (tr.waitMem = true ∧ c.simPipe .memory = none) .lsuSlot
    let tr := { tr with waitMem := false, respAt := now }
    let c ← (c.setSlot .execute (some tr)).noteLoad now tr
    let c := { c with acct := c.acct.setStall now .lsuStall }
    let c ← c.rawAfterResp now
    let c ← c.asyncSchedule now .memory ((now + 1 : Nat) : Tick)
    .ok ((c.setSlot .execute none).setSlot .memory (some tr))

/-- The slot `do_writeback` commits from. M-extension results wait for the ALU path to drain. -/
def commitSource (now : Nat) (c : Pipeline K) : Option PipeStage :=
  let pendingAlu := (c.simPipe .execute).isSome
  if (c.simPipe .memory).isSome then some .memory
  else if !pendingAlu && (c.simPipe .intDivExt).isSome && decide (c.divReadyTick ≤ now) then
    some .intDivExt
  else if !pendingAlu && (c.simPipe .intMulExt).isSome && decide (c.mulReadyTick ≤ now) then
    some .intMulExt
  else none

/-- The retry tick of a `do_writeback` that finds nothing to commit. -/
def retryTick (now : Nat) (c : Pipeline K) : Tick :=
  let next := infTime
  let next := if (c.simPipe .intDivExt).isSome then min next c.divReadyTick else next
  let next := if (c.simPipe .intMulExt).isSome then min next c.mulReadyTick else next
  max next ((now + 1 : Nat) : Tick)

def doWriteback (now : Nat) (c : Pipeline K) : Except Fault (Pipeline K) :=
  match c.commitSource now with
  | none => c.schedule now .writeBack (c.retryTick now)
  | some src =>
    match c.simPipe src with
    | none => .error .nullSlot
    | some tr =>
      let cause :=
        if tr.brMispred then .brMispred
        else if c.lsuActive then .lsuStall
        else .noInst
      let acct := c.acct.commit now cause
      let c := c.setSlot src none
      let c := { c with
        ongoingInsts := c.ongoingInsts - 1
        acct := acct
        commits := c.commits ++ [Commit.mk tr now acct.stats] }
      c.schedule now .writeBack ((now + 1 : Nat) : Tick)

def recvMemResp (now : Nat) (tr : CpuTrans) (c : Pipeline K) : Except Fault (Pipeline K) :=
  if tr.id = 0 then do
    require (tr.mop = .read) .unexpectedWrite
    c.handleIfuResp now
  else if tr.id = 1 ∨ tr.id = 2 then c.handleLsuResp now
  else .error .badId

def ackMemAvail (now : Nat) (ack : AckTrans) (c : Pipeline K) : Except Fault (Pipeline K) :=
  if ack.id = 0 then c.asyncSchedule now .fetch (now : Tick)
  else if ack.id = 1 ∨ ack.id = 2 then
    match c.simPipe .execute with
    | some ex =>
      if !ex.waitMem && ex.traceInst.memOp != Trace.MemNone then
        c.asyncSchedule now .memory (now : Tick)
      else .ok c
    | none => .ok c
  else .error .badId

def stageHandler (now : Nat) (ports : Ports) :
    PipeStage → Pipeline K → Except Fault (Pipeline K)
  | .fetch => doFetch1 now
  | .decode => doDecode now
  | .execute => doExecute now
  | .intMulExt => doMulExt now
  | .intDivExt => doDivExt now
  | .memory => doMemory now ports
  | .writeBack => doWriteback now

/-- Stage `i` runs: its slot is empty, its predecessor is not, and it is due. -/
def stageDue (now : Nat) (c : Pipeline K) (i : PipeStage) : Prop :=
  c.simPipe i = none ∧ c.prevStageValid now i = true ∧ c.stageUpdate i ≤ now

instance (now : Nat) (c : Pipeline K) (i : PipeStage) : Decidable (c.stageDue now i) :=
  inferInstanceAs (Decidable (_ ∧ _ ∧ _))

def runStage (now : Nat) (ports : Ports) (c : Pipeline K) (i : PipeStage) :
    Except Fault (Pipeline K) :=
  if c.stageDue now i then stageHandler now ports i c else .ok c

def updateImpl (now : Nat) (ports : Ports) (c : Pipeline K) : Except Fault (Pipeline K) := do
  let c := { c with bpu := c.bpu.beginTick }
  let c ← PipeStage.reverseOrder.foldlM (runStage now ports) c
  .ok ((c.doFetch0 now ports.imem).calcSched now)

def nextUpdate (c : Pipeline K) : Tick := c.calcNxtupd

def doUpdate (now : Nat) (ports : Ports) (c : Pipeline K) : Except Fault (Pipeline K) :=
  if c.nextUpdate ≤ now then c.updateImpl now ports else .ok c

def instAvail (c : Pipeline K) : Bool := c.inputBuffer.isNone && !c.isDraining

def feedInst (now : Nat) (imemReady : Bool) (inst : TraceInst) (c : Pipeline K) :
    Except Fault (Pipeline K) := do
  require (c.inputBuffer = none) .inputOccupied
  .ok ({ c with
    ongoingInsts := c.ongoingInsts + 1
    inputBuffer := some { traceInst := inst, seq := c.fed.length }
    fed := c.fed ++ [inst] }.doFetch0 now imemReady)

def isFinished (c : Pipeline K) : Bool := decide (c.ongoingInsts = 0)

def setDraining (c : Pipeline K) : Pipeline K := { c with isDraining := true }

def resetStats (now : Nat) (c : Pipeline K) : Pipeline K :=
  { c with acct := c.acct.resetStats now }

end Pipeline

end NpSim.Pipe
