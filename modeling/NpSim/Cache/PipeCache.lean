/- digest: The pipelined cache: lookup, miss handling, prefetch, flush and its update. -/

import Mathlib.Logic.Function.Basic
import NpSim.Cache.Policy

set_option autoImplicit false
set_option relaxedAutoImplicit false

namespace NpSim.Cache

open NpSim.Lib.Partial

/-- The constructor arguments of `PipeCache` with the constructor's assertions. -/
structure CacheParams where
  pipeDepth : Nat
  lineBytes : Nat
  sets : Nat
  assoc : Nat
  cacheId : Nat
  writeBack : Bool
  cwf : Bool
  wbHitRespDelay : Nat
  policy : ReplPolicy
  prefetcher : Prefetcher
  pipeDepth_pos : 0 < pipeDepth
  assoc_pos : 0 < assoc
  lineBytes_pow2 : ∃ k, lineBytes = 2 ^ k
  sets_pow2 : ∃ k, sets = 2 ^ k
  sets_gt_one : 1 < sets

namespace CacheParams

variable (P : CacheParams)

def victimWayLag : Bool := P.writeBack && decide (1 < P.assoc)

def offsetBits : Nat := P.lineBytes.log2

def blockAddrOf (addr : Addr) : Addr := addr &&& ~~~(BitVec.ofNat 32 (P.lineBytes - 1))

def tagOf (addr : Addr) : Addr := P.blockAddrOf addr

def setIndexOf (addr : Addr) : Nat := (addr.toNat >>> P.offsetBits) &&& (P.sets - 1)

def offsetOf (addr : Addr) : Nat := addr.toNat &&& (P.lineBytes - 1)

/-- `lineBytes_ / sizeof(word_t)` -/
def lineWords : Nat := P.lineBytes / 4

end CacheParams

def strbExtend (strb : BitVec 8) : Word :=
  (if strb.getLsbD 0 then 0x000000ff#32 else 0) ||| (if strb.getLsbD 1 then 0x0000ff00#32 else 0)
    ||| (if strb.getLsbD 2 then 0x00ff0000#32 else 0)
    ||| (if strb.getLsbD 3 then 0xff000000#32 else 0)

/-- A `CacheLine*`: the set and way it points at. -/
structure LineRef where
  set : Nat
  way : Nat
  deriving DecidableEq, Repr

/-- A request in the pipe. The last five fields are history: how often `access` was called for
the request, whether it missed, how many refill reads were sent for it, the line
`save_evict_info` looked at for it, and the line it was given as `access` found it. -/
structure CachePipeEntry where
  addr : Addr
  line : Option LineRef := none
  mop : MemRWOpt
  wrstrb : BitVec 8 := 0
  wrdata : Word := 0
  accesses : Nat := 0
  missed : Bool := false
  refills : Nat := 0
  examined : Option LineRef := none
  found : Option CacheLine := none
  deriving DecidableEq, Repr

structure CacheStats where
  accesses : Nat := 0
  hits : Nat := 0
  misses : Nat := 0
  deriving DecidableEq, Repr

/-- What an update sends to the other components, in call order: none of the callees calls back
into the cache. -/
inductive CacheOut
  | cpuResp (t : CpuTrans)
  | cpuAck (a : AckTrans)
  | memReq (m : MemTrans)
  deriving DecidableEq, Repr

structure PipeCache (P : CacheParams) where
  stats : CacheStats := {}
  lagSetIdx : Nat := 0
  lagSetValid : Bool := false
  /-- `setsArr_`: the line at a set and a way -/
  lines : Nat → Nat → CacheLine := fun _ _ => CacheLine.new P.lineBytes
  pf : P.prefetcher.State := P.prefetcher.init
  prefetchIssued : Nat := 0
  prefetchUseful : Nat := 0
  repl : P.policy.State := P.policy.init
  /-- `pipe_`: the front is the first element, the back the last -/
  pipe : List (Option CachePipeEntry) := List.replicate P.pipeDepth none
  rWaiting : Bool := false
  wWaiting : Bool := false
  isShifted : Bool := true
  isReplay : Bool := false
  pendingFlush : Bool := false
  pendingFillReq : Bool := false
  pendingEvict : Bool := false
  evictAddr : Addr := 0
  evictData : List Word := []
  blockedUntil : Nat := 0
  schedHitTime : Tick := infTime
  schedHitResp : CpuTrans := ⟨0, 0, 0, .read⟩
  /-- ghost: the requests answered so far -/
  served : List CachePipeEntry := []
  /-- ghost: the blocks that valid dirty lines have stopped holding so far -/
  gone : List Addr := []
  /-- ghost: the line `save_evict_info` has looked at last, if it looked at one -/
  examined : Option LineRef := none

namespace PipeCache

variable {P : CacheParams}

def line (c : PipeCache P) (r : LineRef) : CacheLine := c.lines r.set r.way

def setLine (c : PipeCache P) (r : LineRef) (l : CacheLine) : PipeCache P :=
  { c with
    lines := Function.update c.lines r.set (Function.update (c.lines r.set) r.way l)
    gone := c.gone ++ (c.line r).lost l }

/-- The blocks held by valid dirty lines. -/
def dirtyBlocks (c : PipeCache P) : List Addr :=
  (List.range P.sets).flatMap fun s => (List.range P.assoc).flatMap fun w =>
    if (c.lines s w).valid && (c.lines s w).dirty then [(c.lines s w).tag] else []

/-- The lines of set `si` in way order. -/
def setOf (c : PipeCache P) (si : Nat) : List CacheLine :=
  (List.range P.assoc).map (c.lines si)

/-- `pipe_.back()` -/
def back (c : PipeCache P) : Option CachePipeEntry := c.pipe.getLast?.join

def setBack (c : PipeCache P) (e : Option CachePipeEntry) : PipeCache P :=
  { c with pipe := c.pipe.dropLast ++ [e] }

/-- First way of set `si` holding a valid line with tag `tag`. -/
def findWay (c : PipeCache P) (si : Nat) (tag : Addr) : Option Nat :=
  (List.range P.assoc).find? fun w => (c.lines si w).valid && (c.lines si w).tag == tag

/-- First invalid way of set `si`. -/
def invalidWay (c : PipeCache P) (si : Nat) : Option Nat :=
  (List.range P.assoc).find? fun w => !(c.lines si w).valid

def selectVictim (si : Nat) (c : PipeCache P) : Except Fault Nat :=
  match c.invalidWay si with
  | some w => .ok w
  | none => P.policy.getVictim c.repl si (c.setOf si)

/-- `miss_victim_way`: with the lag, the set of the previous access decides. -/
def missVictimWay (si : Nat) (c : PipeCache P) : Except Fault Nat :=
  let vsi := if P.victimWayLag && c.lagSetValid then c.lagSetIdx else si
  match c.invalidWay vsi with
  | some w => .ok w
  | none => P.policy.getVictim c.repl vsi (c.setOf vsi)

def probe (addr : Addr) (c : PipeCache P) : Bool :=
  (c.findWay (P.setIndexOf addr) (P.tagOf addr)).isSome

/-- `lag_set_idx_ = si` when the victim way lags. -/
def noteLag (si : Nat) (c : PipeCache P) : PipeCache P :=
  if P.victimWayLag then { c with lagSetIdx := si, lagSetValid := true } else c

/-- The hit branch of `access`. -/
def accessHit (now : Nat) (r : LineRef) (c : PipeCache P) : Except Fault (PipeCache P) := do
  let c := c.noteLag r.set
  let l := c.line r
  let (repl, stamp) ← P.policy.onHit c.repl now r.set r.way l.stamp
  let l := { l with stamp := stamp }
  let useful := l.isPrefetched && P.prefetcher.present
  let l := if useful then { l with isPrefetched := false } else l
  let c := { c with
    repl := repl
    stats := { c.stats with hits := c.stats.hits + 1 }
    prefetchUseful := if useful then c.prefetchUseful + 1 else c.prefetchUseful }
  .ok (c.setLine r l)

/-- The miss branch of `access`: the victim is invalidated, its dirty bit kept. -/
def accessMiss (si : Nat) (c : PipeCache P) : Except Fault (LineRef × PipeCache P) := do
  let c := { c with stats := { c.stats with misses := c.stats.misses + 1 } }
  let w ← c.missVictimWay si
  let r : LineRef := ⟨si, w % P.assoc⟩
  let c := c.noteLag si
  .ok (r, c.setLine r (c.line r).invalidate)

def access (now : Nat) (addr : Addr) (c : PipeCache P) :
    Except Fault (LineRef × PipeCache P) := do
  let c := { c with stats := { c.stats with accesses := c.stats.accesses + 1 } }
  let si := P.setIndexOf addr
  match c.findWay si (P.tagOf addr) with
  | some w =>
    let c ← c.accessHit now ⟨si, w⟩
    .ok (⟨si, w⟩, c)
  | none => c.accessMiss si

def handleFill (now : Nat) (blk : LineRef) (addr : Addr) (ret : List Word) (c : PipeCache P) :
    Except Fault (PipeCache P) := do
  let l := ((c.line blk).activate now).setTag (P.tagOf addr)
  let si := P.setIndexOf addr
  require (blk.set = si ∧ blk.way < P.assoc) .fillNotFound
  let (repl, stamp) ← P.policy.onFill c.repl now si blk.way l.stamp
  let l := { l with stamp := stamp }
  .ok ({ c with repl := repl }.setLine blk (l.setVecData ret))

def saveEvictInfo (reqAddr : Addr) (c : PipeCache P) : Except Fault (PipeCache P) := do
  let c := { c with pendingEvict := false, examined := none }
  if !P.writeBack then .ok c
  else do
    let si := P.setIndexOf reqAddr
    let w ← c.missVictimWay si
    let l := c.lines si (w % P.assoc)
    let c := { c with examined := some ⟨si, w % P.assoc⟩ }
    if l.valid && l.dirty then do
      let data ← (List.range P.lineWords).mapM fun i => l.atAligned (i * 4)
      .ok { c with pendingEvict := true, evictAddr := l.tag, evictData := data }
    else .ok c

/-- `cpu_resp_recv_` now, or after `wb_hit_resp_delay_` ticks through `sched_hit_resp_`. -/
def respond (now : Nat) (t : CpuTrans) (c : PipeCache P) : PipeCache P × List CacheOut :=
  if P.writeBack && P.wbHitRespDelay != 0 then
    ({ c with
        schedHitResp := t
        schedHitTime := ((now + P.wbHitRespDelay : Nat) : Tick) }, [])
  else (c, [.cpuResp t])

/-- `handle_hit`. A write merges its data into the request's own word. -/
def handleHit (now : Nat) (bk : CachePipeEntry) (r : LineRef) (c : PipeCache P) :
    Except Fault (PipeCache P × List CacheOut) := do
  let c := { c with blockedUntil := now + 1 }
  match bk.mop with
  | .read => do
    let dt ← (c.line r).atAligned (P.offsetOf bk.addr)
    .ok (c.respond now ⟨bk.addr, dt, P.cacheId, .read⟩)
  | .write =>
    let mask := strbExtend bk.wrstrb
    let dt := (~~~mask &&& bk.wrdata) ||| (mask &&& bk.wrdata)
    let c := c.setLine r (c.line r).setDirty
    .ok (c.respond now ⟨bk.addr, dt, P.cacheId, .write⟩)

def handlePrefetch (now : Nat) (addr : Addr) (isHit : Bool) (c : PipeCache P) :
    Except Fault (PipeCache P) := do
  if !P.prefetcher.present then .ok c
  else do
    let (maybe, pf) := P.prefetcher.probe c.pf addr isHit
    let c := { c with pf := pf }
    match maybe with
    | none => .ok c
    | some paddr =>
      let tag := P.tagOf paddr
      let si := P.setIndexOf paddr
      if (c.findWay si tag).isSome then .ok c
      else do
        let c := { c with prefetchIssued := c.prefetchIssued + 1 }
        let way ← c.selectVictim si
        let r : LineRef := ⟨si, way⟩
        let l := ((c.line r).setTag tag).activate now
        let (repl, stamp) ← P.policy.onFill c.repl now si way l.stamp
        .ok ({ c with repl := repl }.setLine r { l with stamp := stamp, isPrefetched := true })

def handleFlush (now : Nat) (c : PipeCache P) : PipeCache P :=
  { c with
    lines := fun s w => (c.lines s w).invalidate
    gone := c.gone ++ c.dirtyBlocks
    pipe := List.replicate P.pipeDepth none
    isShifted := true
    isReplay := false
    rWaiting := false
    wWaiting := false
    pendingFlush := false
    pendingFillReq := false
    pendingEvict := false
    schedHitTime := infTime
    blockedUntil := now + 1 }

/-- `save_evict_info` and `access` for the tail entry `bk`. -/
def accessTail (now : Nat) (bk : CachePipeEntry) (c : PipeCache P) :
    Except Fault (CachePipeEntry × PipeCache P) := do
  let c ← c.saveEvictInfo bk.addr
  let (r, c') ← c.access now bk.addr
  let bk := { bk with
    line := some r
    accesses := bk.accesses + 1
    missed := !(c'.line r).valid
    examined := c.examined
    found := some (c.line r) }
  .ok (bk, c'.setBack (some bk))

/-- The end of `update_impl`: a pending flush, or the shift with the probe of the new tail. -/
def finishUpdate (now : Nat) (c : PipeCache P) : Except Fault (PipeCache P × List CacheOut) := do
  if c.pendingFlush && c.pipe.all (·.isNone) then .ok (c.handleFlush now, [])
  else do
    let c := { c with pipe := none :: c.pipe.dropLast }
    let acks := [.cpuAck ⟨P.cacheId, .read⟩, .cpuAck ⟨P.cacheId, .write⟩]
    match c.back with
    | some bk =>
      if bk.line = none ∧ c.probe bk.addr = false then do
        let (_, c) ← c.accessTail now bk
        .ok ({ c with pendingFillReq := true, blockedUntil := now + 1 }, [])
      else .ok ({ c with isShifted := true }, acks)
    | none => .ok ({ c with isShifted := true }, acks)

/-- The miss branch of `update_impl` for the tail entry `bk`. -/
def missUpdate (now : Nat) (bk : CachePipeEntry) (c : PipeCache P) :
    PipeCache P × List CacheOut :=
  if !c.pendingFillReq then ({ c with pendingFillReq := true, blockedUntil := now + 1 }, [])
  else if c.pendingEvict then
    if c.wWaiting then ({ c with blockedUntil := now + 1 }, [])
    else
      ({ c with wWaiting := true, pendingEvict := false, evictData := [], blockedUntil := now + 1 },
        [.memReq { mop := .write, addr := c.evictAddr, id := P.cacheId,
                   bstLen := c.evictData.length % 2 ^ 16, data := c.evictData }])
  else if c.wWaiting then ({ c with blockedUntil := now + 1 }, [])
  else
    ({ c with pendingFillReq := false, rWaiting := true, isReplay := true }.setBack
        (some { bk with refills := bk.refills + 1 }),
      [.memReq { mop := .read, addr := bk.addr, id := P.cacheId,
                  bstLen := P.lineWords % 2 ^ 16 }])

/-- The tail entry `bk`, looked up now if it has not been. -/
def lookTail (now : Nat) (bk : CachePipeEntry) (c : PipeCache P) :
    Except Fault (CachePipeEntry × PipeCache P) :=
  if bk.line = none then c.accessTail now bk else .ok (bk, c)

/-- A prefetch follows a read. -/
def prefetchAfter (now : Nat) (bk : CachePipeEntry) (wasMiss : Bool) (c : PipeCache P) :
    Except Fault (PipeCache P) :=
  if bk.mop = .read ∧ c.rWaiting = false then c.handlePrefetch now bk.addr (!wasMiss) else .ok c

/-- The tail entry `bk` has been answered and is removed. -/
def retire (bk : CachePipeEntry) (c : PipeCache P) : PipeCache P :=
  { c.setBack none with served := c.served ++ [bk] }

/-- The hit branch of `update_impl` for the tail entry `bk` holding line `r`. -/
def hitUpdate (now : Nat) (bk : CachePipeEntry) (r : LineRef) (wasMiss : Bool) (c : PipeCache P) :
    Except Fault (PipeCache P × List CacheOut) := do
  let (c, resp) ← c.handleHit now bk r
  let c ← c.prefetchAfter now bk wasMiss
  let (c, outs) ← (c.retire bk).finishUpdate now
  .ok (c, resp ++ outs)

/-- The part of `update_impl` that serves the tail entry `bk`. -/
def serveTail (now : Nat) (bk : CachePipeEntry) (c : PipeCache P) :
    Except Fault (PipeCache P × List CacheOut) := do
  let (bk, c) ← c.lookTail now bk
  match bk.line with
  | none => .error .nullSlot
  | some r =>
    require (c.isReplay = false ∨ (c.line r).valid = true) .replayInvalid
    let wasMiss := c.isReplay
    let c := { c with isReplay := false }
    if (c.line r).valid then c.hitUpdate now bk r wasMiss
    else .ok (c.missUpdate now bk)

/-- The deferred hit response, delivered first. -/
def deliverDeferred (now : Nat) (c : PipeCache P) : PipeCache P × List CacheOut :=
  if c.schedHitTime ≤ now then ({ c with schedHitTime := infTime }, [.cpuResp c.schedHitResp])
  else (c, [])

/-- The part of `update_impl` after the deferred response. -/
def serve (now : Nat) (c : PipeCache P) : Except Fault (PipeCache P × List CacheOut) :=
  match c.back with
  | some bk => c.serveTail now bk
  | none => c.finishUpdate now

def updateImpl (now : Nat) (c : PipeCache P) : Except Fault (PipeCache P × List CacheOut) := do
  let (c, deferred) := c.deliverDeferred now
  let (c, outs) ← c.serve now
  .ok (c, deferred ++ outs)

def nextUpdate (c : PipeCache P) : Tick :=
  if c.rWaiting && !c.pendingFillReq then c.schedHitTime
  else min (c.blockedUntil : Tick) c.schedHitTime

def doUpdate (now : Nat) (c : PipeCache P) : Except Fault (PipeCache P × List CacheOut) :=
  if c.nextUpdate ≤ now then c.updateImpl now else .ok (c, [])

def isReady (c : PipeCache P) : Bool × Bool :=
  let r := c.isShifted && !c.pendingFlush
  let r := if P.writeBack then
      r && !c.rWaiting && !c.wWaiting && !c.pendingFillReq && !c.isReplay
        && decide (c.schedHitTime = infTime)
    else r
  let w := if P.writeBack then r else !c.pendingFlush && !c.wWaiting
  (r, w)

/-- A new entry at `pipe_.front()`. -/
def enqueue (now : Nat) (e : CachePipeEntry) (c : PipeCache P) : Except Fault (PipeCache P) := do
  require (c.isShifted = true) .notShifted
  match c.pipe with
  | none :: rest =>
    .ok { c with pipe := some e :: rest, blockedUntil := now + 1, isShifted := false }
  | _ => .error .frontOccupied

def readReq (now : Nat) (addr : Addr) (c : PipeCache P) : Except Fault (PipeCache P) :=
  c.enqueue now { addr := addr, mop := .read }

/-- The write-through branch of `write_req`: no allocation, the write goes straight to memory and
is answered at once. -/
def writeThrough (now : Nat) (addr : Addr) (data : Word) (mask : BitVec 8) (c : PipeCache P) :
    Except Fault (PipeCache P × List CacheOut) := do
  let c ← if c.probe addr then do
      let (r, c) ← c.access now addr
      let l := c.line r
      if l.valid then do
        let w ← l.atAligned (P.offsetOf addr)
        let wm := strbExtend mask
        let l := { l with
          data := l.data.set (P.offsetOf addr / 4) ((~~~wm &&& w) ||| (wm &&& data)) }
        .ok (c.setLine r l)
      else .ok c
    else .ok c
  .ok ({ c with wWaiting := true },
    [.memReq { mop := .write, addr := addr, id := P.cacheId, bstLen := 1, data := [data],
               strb := [mask] },
     .cpuResp ⟨addr, 0, P.cacheId, .write⟩])

def writeReq (now : Nat) (addr : Addr) (data : Word) (mask : BitVec 8) (c : PipeCache P) :
    Except Fault (PipeCache P × List CacheOut) :=
  if P.writeBack then do
    let c ← c.enqueue now { addr := addr, mop := .write, wrdata := data, wrstrb := mask }
    .ok (c, [])
  else c.writeThrough now addr data mask

def recvMemResp (now : Nat) (trans : MemTrans) (c : PipeCache P) : Except Fault (PipeCache P) :=
  match trans.mop with
  | .read => do
    require (c.rWaiting = true) .notWaiting
    match c.back with
    | none => .error .nullSlot
    | some bk =>
      match bk.line with
      | none => .error .nullSlot
      | some r => do
        let c ← { c with rWaiting := false }.handleFill now r trans.addr trans.data
        .ok { c with
          blockedUntil := now + (if P.cwf then 1 else if P.writeBack then 2 else 1) }
  | .write => do
    require (c.wWaiting = true) .notWaiting
    if P.writeBack then .ok { c with wWaiting := false }
    else .ok { c with wWaiting := false, blockedUntil := now + 2 }

def flushAll (c : PipeCache P) : PipeCache P := { c with pendingFlush := true }

def resetStats (c : PipeCache P) : PipeCache P := { c with stats := {} }

/-- `Prefetcher::reset_stats` of the cache's prefetcher. -/
def resetPrefetcher (c : PipeCache P) : PipeCache P :=
  { c with prefetchIssued := 0, prefetchUseful := 0 }

end PipeCache

end NpSim.Cache
