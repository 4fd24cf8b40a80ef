/- digest: The assembled simulator: core, caches, memory fabric and the main loop that drives
   them, one device call at a time. -/

import NpSim.Cache.NoCache
import NpSim.Mem.Arbiter
import NpSim.Pipe.Pipeline

set_option autoImplicit false
set_option relaxedAutoImplicit false

namespace NpSim.System

open NpSim.Lib.Partial NpSim.Cache NpSim.Mem NpSim.Pipe

/-- What `main` builds, with the values it fixes. Predictor, geometries, policies, prefetchers,
devices and address map are the command line's. -/
structure Config where
  core : PipelineParams
  icache : CacheParams
  dcache : CacheParams
  hasDcache : Bool
  mem : ArbiterConfig
  maxInsts : Nat
  maxTicks : Nat
  hasNc : core.hasNc = true
  icache_id : icache.cacheId = 0
  icache_depth : icache.pipeDepth = 2
  icache_writeThrough : icache.writeBack = false
  dcache_id : dcache.cacheId = 1
  dcache_depth : dcache.pipeDepth = 1
  dcache_writeBack : dcache.writeBack = true
  dcache_delay : dcache.wbHitRespDelay = 0
  mem_hosts : mem.hosts = 3

def directCache (id depth : Nat) (writeBack : Bool) (delay : Nat) : CacheParams where
  pipeDepth := depth + 1
  lineBytes := 16
  sets := 64
  assoc := 1
  cacheId := id
  writeBack := writeBack
  cwf := false
  wbHitRespDelay := delay
  policy := plruReplPolicy 1
  prefetcher := nullPrefetcher
  pipeDepth_pos := Nat.succ_pos depth
  assoc_pos := Nat.one_pos
  lineBytes_pow2 := ⟨4, rfl⟩
  sets_pow2 := ⟨6, rfl⟩
  sets_gt_one := by decide

/-- A plain machine: no branch prediction, direct-mapped caches, a memory of latency `lat`. -/
def Config.plain (lat : Nat) (hasDcache : Bool) : Config where
  core := { branch := ⟨Branch.noBPU, Branch.noBTB, 0⟩, ifqSize := 8, mmioLat := 3, hasNc := true }
  icache := directCache 0 1 false 1
  dcache := directCache 1 0 true 0
  hasDcache := hasDcache
  mem := .flat 3 lat
  maxInsts := 2 ^ 64 - 1
  maxTicks := 2 ^ 64 - 1
  hasNc := rfl
  icache_id := rfl
  icache_depth := rfl
  icache_writeThrough := rfl
  dcache_id := rfl
  dcache_depth := rfl
  dcache_writeBack := rfl
  dcache_delay := rfl
  mem_hosts := rfl

/-- `dcache`: a write-back cache, or the direct path of a build without one. -/
inductive DataPort (P : CacheParams)
  | cached (c : PipeCache P)
  | uncached (c : NoCache)

namespace DataPort

variable {P : CacheParams}

def isReady : DataPort P → Bool × Bool
  | .cached c => c.isReady
  | .uncached c => c.isReady

/-- `read_req` or `write_req`, with what it sends on at once. -/
def request (now : Nat) (op : MemRWOpt) (addr : Addr) (data : Word) (strb : BitVec 8) :
    DataPort P → Except Fault (DataPort P × List CacheOut)
  | .cached c =>
    match op with
    | .read => do
      let c ← c.readReq now addr
      .ok (.cached c, [])
    | .write => do
      let (c, outs) ← c.writeReq now addr data strb
      .ok (.cached c, outs)
  | .uncached c =>
    match op with
    | .read => do
      let (c, m) ← c.readReq addr
      .ok (.uncached c, [.memReq m])
    | .write => do
      let (c, m) ← c.writeReq addr data strb
      .ok (.uncached c, [.memReq m])

def recvMemResp (now : Nat) (m : MemTrans) :
    DataPort P → Except Fault (DataPort P × List CacheOut)
  | .cached c => do
    let c ← c.recvMemResp now m
    .ok (.cached c, [])
  | .uncached c => do
    let (c, outs) ← c.recvMemResp m
    .ok (.uncached c, outs)

/-- `do_update`; the next update of a `NoCache` is at `InfTime`. -/
def doUpdate (now : Nat) : DataPort P → Except Fault (DataPort P × List CacheOut)
  | .cached c => do
    let (c, outs) ← c.doUpdate now
    .ok (.cached c, outs)
  | .uncached c => .ok (.uncached c, [])

/-- `flush_all`; a `NoCache` does nothing. -/
def flushAll : DataPort P → DataPort P
  | .cached c => .cached c.flushAll
  | .uncached c => .uncached c

def resetStats : DataPort P → DataPort P
  | .cached c => .cached c.resetStats
  | .uncached c => .uncached c.resetStats

end DataPort

/-- The hosts of the memory fabric and the core behind them. -/
structure Hosts (S : Config) where
  icache : PipeCache S.icache
  dcache : DataPort S.dcache
  bypass : NoCache
  core : Pipeline S.core

/-- The calls of one round of the main loop, in order; `halted` is the exit of the loop. -/
inductive Phase | memory | bypass | dcache | icache | core | feed | clock | sysOp | halted
  deriving DecidableEq, Repr

structure Sys (S : Config) where
  tick : Nat := 0
  phase : Phase := .memory
  hosts : Hosts S
  mem : RAMArbiter S.mem
  /-- the records `reader` has not returned yet -/
  trace : List TraceInst
  inst : TraceInst
  hasNext : Bool := true
  stopAfterDump : Bool := false
  instCnt : Nat := 0

namespace Hosts

variable {S : Config}

/-- The readiness of the three ports. -/
def ports (h : Hosts S) : Ports :=
  { imem := h.icache.isReady.1, dmem := h.dcache.isReady, nc := h.bypass.isReady }

/-- One message of a cache reaches the core or the memory. -/
def deliverOne (now : Nat) (s : Hosts S × RAMArbiter S.mem) (out : CacheOut) :
    Except Fault (Hosts S × RAMArbiter S.mem) :=
  match out with
  | .cpuResp t => do
    let core ← s.1.core.recvMemResp now t
    .ok ({ s.1 with core := core }, s.2)
  | .cpuAck a => do
    let core ← s.1.core.ackMemAvail now a
    .ok ({ s.1 with core := core }, s.2)
  | .memReq m => do
    let mem ← s.2.recvReq now m
    .ok (s.1, mem)

def deliver (now : Nat) (outs : List CacheOut) (s : Hosts S × RAMArbiter S.mem) :
    Except Fault (Hosts S × RAMArbiter S.mem) :=
  outs.foldlM (deliverOne now) s

/-- `hosts_.at(id)->recv_mem_resp` -/
def recvMemResp (now : Nat) (id : Nat) (m : MemTrans) (s : Hosts S × RAMArbiter S.mem) :
    Except Fault (Hosts S × RAMArbiter S.mem) :=
  if id = 0 then do
    let icache ← s.1.icache.recvMemResp now m
    .ok ({ s.1 with icache := icache }, s.2)
  else if id = 1 then do
    let (dcache, outs) ← s.1.dcache.recvMemResp now m
    deliver now outs ({ s.1 with dcache := dcache }, s.2)
  else do
    let (bypass, outs) ← s.1.bypass.recvMemResp m
    deliver now outs ({ s.1 with bypass := bypass }, s.2)

/-- One request of the core is carried out on its port. -/
def callOne (now : Nat) (s : Hosts S × RAMArbiter S.mem) (call : PortCall) :
    Except Fault (Hosts S × RAMArbiter S.mem) :=
  match call with
  | .fetch addr => do
    let icache ← s.1.icache.readReq now addr
    .ok ({ s.1 with icache := icache }, s.2)
  | .lsu true op addr data strb => do
    let (bypass, m) ← match op with
      | .read => s.1.bypass.readReq addr
      | .write => s.1.bypass.writeReq addr data strb
    let mem ← s.2.recvReq now m
    .ok ({ s.1 with bypass := bypass }, mem)
  | .lsu false op addr data strb => do
    let (dcache, outs) ← s.1.dcache.request now op addr data strb
    deliver now outs ({ s.1 with dcache := dcache }, s.2)

/-- The requests of a core call are carried out in order. -/
def runCalls (now : Nat) (s : Hosts S × RAMArbiter S.mem) :
    Except Fault (Hosts S × RAMArbiter S.mem) :=
  let calls := s.1.core.calls
  calls.foldlM (callOne now) ({ s.1 with core := { s.1.core with calls := [] } }, s.2)

def updateDcache (now : Nat) (s : Hosts S × RAMArbiter S.mem) :
    Except Fault (Hosts S × RAMArbiter S.mem) := do
  let (dcache, outs) ← s.1.dcache.doUpdate now
  deliver now outs ({ s.1 with dcache := dcache }, s.2)

def updateIcache (now : Nat) (s : Hosts S × RAMArbiter S.mem) :
    Except Fault (Hosts S × RAMArbiter S.mem) := do
  let (icache, outs) ← s.1.icache.doUpdate now
  deliver now outs ({ s.1 with icache := icache }, s.2)

/-- The core's update: event driven, or on every tick when `eager`. -/
def updateCore (eager : Bool) (now : Nat) (s : Hosts S × RAMArbiter S.mem) :
    Except Fault (Hosts S × RAMArbiter S.mem) := do
  let ports := s.1.ports
  let core ← if eager then s.1.core.updateImpl now ports else s.1.core.doUpdate now ports
  runCalls now ({ s.1 with core := core }, s.2)

def feedInst (now : Nat) (inst : TraceInst) (s : Hosts S × RAMArbiter S.mem) :
    Except Fault (Hosts S × RAMArbiter S.mem) := do
  let core ← s.1.core.feedInst now s.1.ports.imem inst
  runCalls now ({ s.1 with core := core }, s.2)

/-- `flush_all` on the three caches, then their updates. -/
def fenceI (now : Nat) (s : Hosts S × RAMArbiter S.mem) :
    Except Fault (Hosts S × RAMArbiter S.mem) := do
  let h := { s.1 with icache := s.1.icache.flushAll, dcache := s.1.dcache.flushAll }
  let s ← updateIcache now (h, s.2)
  updateDcache now s

/-- `reset_stats` of every object of `simlist` that the model keeps. The prefetcher of the data
cache is not in it. -/
def resetStats (now : Nat) (h : Hosts S) : Hosts S :=
  { icache := h.icache.resetStats.resetPrefetcher
    dcache := h.dcache.resetStats
    bypass := h.bypass.resetStats
    core := { h.core.resetStats now with bpu := h.core.bpu.resetStats } }

end Hosts

namespace Sys

variable {S : Config}

/-- The hosts and the memory after a device call, with the phase that follows. -/
def commitTo (s : Sys S) (next : Phase) (r : Hosts S × RAMArbiter S.mem) : Sys S :=
  { s with hosts := r.1, mem := r.2, phase := next }

/-- The feeding block of the main loop. -/
def feed (s : Sys S) : Except Fault (Sys S) :=
  if s.hosts.core.instAvail then
    if !s.stopAfterDump && s.hasNext && decide (s.instCnt < S.maxInsts) then
      match s.trace with
      | [] =>
        .ok { s with
          hasNext := false
          hosts := { s.hosts with core := s.hosts.core.setDraining }
          phase := .clock }
      | inst :: rest => do
        let r ← Hosts.feedInst s.tick inst (s.hosts, s.mem)
        .ok { s.commitTo .clock r with
          trace := rest, inst := inst, instCnt := s.instCnt + 1 }
    else
      .ok { s with
        hosts := { s.hosts with core := s.hosts.core.setDraining }
        phase := .clock }
  else .ok { s with phase := .clock }

/-- The loop goes on while instructions are in flight and ticks are left. -/
def loopOrHalt (s : Sys S) : Sys S :=
  { s with
    phase := if !s.hosts.core.isFinished && decide (s.tick < S.maxTicks) then .memory
      else .halted }

/-- The handling of `sys_op` after the clock has advanced. -/
def handleSysOp (s : Sys S) : Except Fault (Sys S) :=
  if s.inst.sysOp = Trace.SysResetStats then
    .ok { s with
      inst := { s.inst with sysOp := Trace.SysNone }
      hosts := s.hosts.resetStats s.tick
      mem := s.mem.resetStats }.loopOrHalt
  else if s.inst.sysOp = Trace.SysFenceI then do
    let r ← Hosts.fenceI s.tick (s.hosts, s.mem)
    .ok ({ s with inst := { s.inst with sysOp := Trace.SysNone } }.commitTo .sysOp r).loopOrHalt
  else if s.inst.sysOp = Trace.SysDumpStats then
    .ok { s with
      inst := { s.inst with sysOp := Trace.SysNone }
      stopAfterDump := true }.loopOrHalt
  else .ok s.loopOrHalt

/-- One call of the main loop. -/
def step (eager : Bool) (s : Sys S) : Except Fault (Sys S) :=
  match s.phase with
  | .memory => do
    let r ← RAMArbiter.doUpdate s.tick (Hosts.recvMemResp s.tick) (s.hosts, s.mem)
    .ok (s.commitTo .bypass r)
  | .bypass => .ok { s with phase := .dcache }
  | .dcache => do
    let r ← Hosts.updateDcache s.tick (s.hosts, s.mem)
    .ok (s.commitTo .icache r)
  | .icache => do
    let r ← Hosts.updateIcache s.tick (s.hosts, s.mem)
    .ok (s.commitTo .core r)
  | .core => do
    let r ← Hosts.updateCore eager s.tick (s.hosts, s.mem)
    .ok (s.commitTo .feed r)
  | .feed => s.feed
  | .clock => .ok { s with tick := s.tick + 1, phase := .sysOp }
  | .sysOp => s.handleSysOp
  | .halted => .ok s

/-- `n` calls of the main loop. -/
def run (eager : Bool) : Nat → Sys S → Except Fault (Sys S)
  | 0, s => .ok s
  | n + 1, s => do
    let s ← s.step eager
    run eager n s

/-- The state in which `main` enters its loop: the trace `trace`, and whatever `inst` and
`calc_nxtupd_` hold before they are first written. -/
def init (S : Config) (trace : List TraceInst) (inst : TraceInst) (nxt : Tick) : Sys S where
  hosts :=
    { icache := {}
      dcache := if S.hasDcache then .cached {} else .uncached { cacheId := 1 }
      bypass := { cacheId := 2 }
      core := { calcNxtupd := nxt } }
  mem := {}
  trace := trace
  inst := inst

/-- The states the main loop goes through, between two device calls. -/
def Reachable (s : Sys S) : Prop :=
  ∃ trace inst nxt n, run false n (init S trace inst nxt) = .ok s

end Sys

end NpSim.System
