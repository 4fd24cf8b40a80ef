/- digest: The uncached memory port: one read and one write in flight. -/

import NpSim.Cache.PipeCache

set_option autoImplicit false
set_option relaxedAutoImplicit false

namespace NpSim.Cache

open NpSim.Lib.Partial

structure NoCache where
  cacheId : Nat
  stats : CacheStats := {}
  rBusy : Bool := false
  wBusy : Bool := false
  deriving DecidableEq, Repr

namespace NoCache

def isReady (c : NoCache) : Bool × Bool := (!c.rBusy, !c.wBusy)

private def countMiss (s : CacheStats) : CacheStats :=
  { s with accesses := s.accesses + 1, misses := s.misses + 1 }

/-- `read_req`: the request goes straight to memory. -/
def readReq (addr : Addr) (c : NoCache) : Except Fault (NoCache × MemTrans) := do
  require (c.isReady.1 = true) .portBusy
  .ok ({ c with rBusy := true, stats := countMiss c.stats },
    { mop := .read, addr := addr, id := c.cacheId, bstLen := 1 })

def writeReq (addr : Addr) (data : Word) (mask : BitVec 8) (c : NoCache) :
    Except Fault (NoCache × MemTrans) := do
  require (c.isReady.2 = true) .portBusy
  .ok ({ c with wBusy := true, stats := countMiss c.stats },
    { mop := .write, addr := addr, id := c.cacheId, bstLen := 1, data := [data], strb := [mask] })

/-- `recv_mem_resp`: the response and the ack reach the CPU before the busy flag is cleared. -/
def recvMemResp (trans : MemTrans) (c : NoCache) : Except Fault (NoCache × List CacheOut) := do
  let ack : CacheOut := .cpuAck ⟨c.cacheId, trans.mop⟩
  match trans.mop with
  | .read =>
    require (c.rBusy = true) .portBusy
    .ok ({ c with rBusy := false },
      [.cpuResp ⟨trans.addr, 0xdeadbeef, c.cacheId, .read⟩, ack])
  | .write =>
    require (c.wBusy = true) .portBusy
    .ok ({ c with wBusy := false },
      [.cpuResp ⟨trans.addr, 0xbadc0de, c.cacheId, .write⟩, ack])

def resetStats (c : NoCache) : NoCache := { c with stats := {} }

end NoCache

end NpSim.Cache
