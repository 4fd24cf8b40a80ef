/- digest: The store buffer: stores are answered at once and written to memory behind the back of
   the CPU, a load takes a buffered word or goes to memory. -/

import NpSim.Cache.PipeCache

set_option autoImplicit false
set_option relaxedAutoImplicit false

namespace NpSim.Cache

open NpSim.Lib.Partial

structure StBufEnt where
  addr : Addr
  data : Word
  mask : BitVec 8
  deriving DecidableEq, Repr

/-- A store buffer of `entries` stores; with none every store goes straight to memory. -/
structure StoreBuffer (entries : Nat) where
  cacheId : Nat
  stats : CacheStats := {}
  rBusy : Bool := false
  wBusy : Bool := false
  pendingFlush : Bool := false
  fifo : List StBufEnt := []
  schedRTime : Tick := infTime
  schedWTime : Tick := infTime
  schedRResp : CpuTrans := ⟨0, 0, 0, .read⟩
  schedWResp : CpuTrans := ⟨0, 0, 0, .read⟩
  /-- The deferred read of a miss. -/
  pendingRmissTime : Tick := infTime
  pendingRmissAddr : Addr := 0
  deriving DecidableEq

namespace StoreBuffer

variable {entries : Nat}

/-- `is_ready`: without entries the write port waits for memory. -/
def isReady (c : StoreBuffer entries) : Bool × Bool :=
  if c.pendingFlush then (false, false)
  else (!c.rBusy, if entries = 0 then !c.wBusy else decide (c.fifo.length < entries))

def nextUpdate (c : StoreBuffer entries) : Tick :=
  min (min c.schedRTime c.schedWTime) c.pendingRmissTime

/-- The write of a buffered store. -/
def drainReq (c : StoreBuffer entries) (e : StBufEnt) : MemTrans :=
  { mop := .write, addr := e.addr, id := c.cacheId, bstLen := 1, data := [e.data],
    strb := [e.mask] }

/-- The oldest store goes to memory, if there is one and no write is under way. -/
def drain (c : StoreBuffer entries) : StoreBuffer entries × List CacheOut :=
  match c.fifo with
  | [] => (c, [])
  | e :: _ => if c.wBusy then (c, []) else ({ c with wBusy := true }, [.memReq (c.drainReq e)])

/-- The deferred read of a miss goes to memory. -/
def issueMiss (now : Nat) (c : StoreBuffer entries) : StoreBuffer entries × List CacheOut :=
  if c.pendingRmissTime ≤ now then
    ({ c with pendingRmissTime := infTime },
      [.memReq { mop := .read, addr := c.pendingRmissAddr, id := c.cacheId, bstLen := 1 }])
  else (c, [])

/-- The scheduled read response. -/
def respondRead (now : Nat) (c : StoreBuffer entries) : StoreBuffer entries × List CacheOut :=
  if c.schedRTime ≤ now then
    ({ c with schedRTime := infTime, rBusy := false }, [.cpuResp c.schedRResp])
  else (c, [])

/-- The scheduled write response; the buffer starts to drain. -/
def respondWrite (now : Nat) (c : StoreBuffer entries) : StoreBuffer entries × List CacheOut :=
  if c.schedWTime ≤ now then
    let (d, outs) := { c with schedWTime := infTime }.drain
    (d, .cpuResp c.schedWResp :: outs)
  else (c, [])

def updateImpl (now : Nat) (c : StoreBuffer entries) : StoreBuffer entries × List CacheOut :=
  let (c, miss) := c.issueMiss now
  let (c, read) := c.respondRead now
  let (c, write) := c.respondWrite now
  (c, miss ++ read ++ write)

/-- The first buffered full store to `addr`. -/
def forward (addr : Addr) (c : StoreBuffer entries) : Option StBufEnt :=
  c.fifo.find? fun s => s.addr = addr && s.mask = 0xf

def readReq (now : Nat) (addr : Addr) (c : StoreBuffer entries) : StoreBuffer entries :=
  let stats := { c.stats with accesses := c.stats.accesses + 1 }
  match c.forward addr with
  | none =>
    { c with
      stats := { stats with misses := stats.misses + 1 }
      pendingRmissTime := ((now + 1 : Nat) : Tick)
      pendingRmissAddr := addr
      rBusy := true }
  | some e =>
    { c with
      stats := { stats with hits := stats.hits + 1 }
      schedRTime := ((now + 1 : Nat) : Tick)
      schedRResp := ⟨addr, e.data, c.cacheId, .read⟩ }

def writeReq (now : Nat) (addr : Addr) (data : Word) (mask : BitVec 8)
    (c : StoreBuffer entries) : Except Fault (StoreBuffer entries × List CacheOut) :=
  let stats := { c.stats with accesses := c.stats.accesses + 1 }
  if entries = 0 then
    .ok ({ c with stats := { stats with misses := stats.misses + 1 }, wBusy := true },
      [.memReq (c.drainReq ⟨addr, data, mask⟩)])
  else do
    require (c.fifo.length < entries) .queueFull
    .ok ({ c with
      stats := stats
      fifo := c.fifo ++ [⟨addr, data, mask⟩]
      schedWTime := ((now + 1 : Nat) : Tick)
      schedWResp := ⟨addr, 0xbadc0de, c.cacheId, .write⟩ }, [])

def recvMemResp (now : Nat) (trans : MemTrans) (c : StoreBuffer entries) :
    Except Fault (StoreBuffer entries × List CacheOut) :=
  match trans.mop with
  | .read =>
    .ok ({ c with
      schedRTime := ((now + 1 : Nat) : Tick)
      schedRResp := ⟨trans.addr, 0xbeefc0de, c.cacheId, .read⟩ }, [])
  | .write =>
    if entries = 0 then
      .ok ({ c with
        schedWTime := ((now + 1 : Nat) : Tick)
        schedWResp := ⟨trans.addr, 0xbadc0de, c.cacheId, .write⟩
        wBusy := false }, [])
    else
      match c.fifo with
      | [] => .error .queueEmpty
      | front :: rest => do
        require (front.addr = trans.addr) .noWaitingEntry
        let ack : List CacheOut :=
          if c.fifo.length = entries then [.cpuAck ⟨c.cacheId, .write⟩] else []
        let (d, outs) := { c with fifo := rest, wBusy := false }.drain
        .ok (d, ack ++ outs)

def flushAll (c : StoreBuffer entries) : StoreBuffer entries := { c with pendingFlush := true }

def resetStats (c : StoreBuffer entries) : StoreBuffer entries := { c with stats := {} }

end StoreBuffer

end NpSim.Cache
