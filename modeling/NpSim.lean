import NpSim.Lib.Partial
import NpSim.Lib.Bypass
import NpSim.Defines
import NpSim.Mem.Arbiter
import NpSim.Cache.Policy
import NpSim.Cache.PipeCache
import NpSim.Cache.NoCache
import NpSim.Branch.BranchUnit
import NpSim.Pipe.Account
import NpSim.Pipe.Pipeline
import NpSim.System.Main
import NpSim.Pipe.Handlers
import NpSim.Pipe.Steps
import NpSim.Pipe.Flow
import NpSim.Pipe.Conservation
import NpSim.System.Core
import NpSim.Pipe.Breakdown
import NpSim.Pipe.Order
import NpSim.System.Commit
import NpSim.Mem.Protocol
import NpSim.Cache.Handlers
import NpSim.Cache.Tail
import NpSim.Cache.Bench
import NpSim.Lib.Fair
import NpSim.Cache.Dirty
import NpSim.Cache.Answers
import NpSim.Pipe.Scoreboard
import NpSim.System.Hazards
import NpSim.Mem.Sdram
import NpSim.Mem.SdramHistory
import NpSim.Mem.SdramPace
import NpSim.Pipe.Deadline
import NpSim.System.Retire
import NpSim.Branch.Predictors
import NpSim.Branch.Tage
import NpSim.Branch.TageUndo
import NpSim.Branch.WrongPath
import NpSim.Branch.Historian
import NpSim.Pipe.Speculation
import NpSim.Pipe.History
import NpSim.Pipe.Snapshots
import NpSim.System.Prediction
import NpSim.Cache.Victim
import NpSim.Cache.Copies
import NpSim.Mem.Slots
import NpSim.Pipe.Demand
import NpSim.Pipe.Contracts
import NpSim.Branch.Targets
import NpSim.Pipe.Misprediction
import NpSim.Pipe.BtbPort
import NpSim.System.Frames
import NpSim.Cache.Wakes
import NpSim.System.BtbPort
import NpSim.Cache.Pace
import NpSim.Cache.Deferred
import NpSim.Cache.Fence
import NpSim.Cache.Useful
import NpSim.Cache.Repeats
import NpSim.System.Updates
import NpSim.System.Latency
import NpSim.Cache.StoreBuffer
import NpSim.Cache.WriteThrough
import NpSim.Cache.Flush
import NpSim.Cache.Ports
import NpSim.Cache.Steady
import NpSim.Cache.Drain
import NpSim.Cache.FlushAll
import NpSim.Branch.Fold
import NpSim.Branch.Dropped
import NpSim.Branch.TageState
import NpSim.Cache.Forward
import NpSim.Cache.Ranking
import NpSim.Cache.Srrip
import NpSim.Cache.Recency
import NpSim.System.Wire
import NpSim.Mem.Turns
import NpSim.System.Links
import NpSim.System.Waiting
import NpSim.Cache.Blocks
import NpSim.System.Routing
import NpSim.Cache.Words
import NpSim.System.Carried
import NpSim.Lib.BoundedQueue
import NpSim.Pipe.FetchQueue
import NpSim.System.Matching
import NpSim.Pipe.Assertions
import NpSim.System.Handshakes
import NpSim.Branch.Alike
import NpSim.Cache.Tallies
import NpSim.Mem.Twins
import NpSim.Pipe.Idle
import NpSim.System.Eager
import NpSim.System.Resets
import NpSim.Pipe.Wakes
import NpSim.System.Wakeups
import NpSim.Lib.Streams
import NpSim.System.Region
import NpSim.System.Sanitizer
import NpSim.System.TraceFile
import NpSim.Branch.Returns
import NpSim.Cache.Counters
import NpSim.Cache.RoundRobin
import NpSim.Cache.TreeLru
import NpSim.Mem.Counts
import NpSim.System.Meters
import NpSim.System.Score
import NpSim.System.Benches
import NpSim.Pipe.Accesses
import NpSim.System.Accesses
