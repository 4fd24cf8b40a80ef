/- digest: Scalar types, trace records, bus transactions and assertion names. -/

import Mathlib.Data.ENat.Basic
import NpSim.Lib.Partial

set_option autoImplicit false
set_option relaxedAutoImplicit false

namespace NpSim

/-- `addr_t` -/
abbrev Addr := BitVec 32

/-- `word_t` -/
abbrev Word := BitVec 32

/-- `tick_t`, with `InfTime` as its top element. The clock counts from zero by ones, so the
64-bit wrap-around is out of reach of any run. -/
abbrev Tick := ℕ∞

abbrev infTime : Tick := ⊤

/-- `std::min` and `std::max` on ticks, as the computable order has them. -/
instance : Min Tick := instLinearOrderENat.toMin

instance : Max Tick := instLinearOrderENat.toMax

inductive MemRWOpt | read | write
  deriving DecidableEq, Repr

inductive Direction | req | resp
  deriving DecidableEq, Repr

structure MemTrans where
  dir : Direction := .req
  mop : MemRWOpt
  addr : Addr
  id : Nat
  bstLen : Nat
  data : List Word := []
  strb : List (BitVec 8) := []
  lat : Nat := 0
  deriving DecidableEq, Repr

structure CpuTrans where
  addr : Addr
  data : Word
  id : Nat
  mop : MemRWOpt
  deriving DecidableEq, Repr

structure AckTrans where
  id : Nat
  mop : MemRWOpt
  deriving DecidableEq, Repr

namespace Trace

abbrev MemNone : Nat := 0
abbrev MemLoad : Nat := 1
abbrev MemStore : Nat := 2

abbrev SysNone : Nat := 0
abbrev SysResetStats : Nat := 1
abbrev SysDumpStats : Nat := 2
abbrev SysFenceI : Nat := 3

abbrev ExtNone : Nat := 0
abbrev IntMulL : Nat := 1
abbrev IntMulH : Nat := 2
abbrev IntDiv : Nat := 3
abbrev IntRem : Nat := 4

end Trace

/-- One trace record. The byte fields keep their raw values: a trace file may hold any of them. -/
structure TraceInst where
  pc : Addr := 0
  memAddr : Addr := 0
  memOp : Nat := 0
  isBranch : Bool := false
  brTaken : Bool := false
  dstReg : Nat := 0
  srcReg0 : Nat := 0
  srcReg1 : Nat := 0
  sysOp : Nat := 0
  extOp : Nat := 0
  deriving DecidableEq, Repr

/-- The records of an RV32IM trace. -/
structure TraceInst.RV32IM (inst : TraceInst) : Prop where
  regs : inst.dstReg < 32 ∧ inst.srcReg0 < 32 ∧ inst.srcReg1 < 32
  memOp : inst.memOp = Trace.MemNone ∨ inst.memOp = Trace.MemLoad ∨ inst.memOp = Trace.MemStore
  extOp : inst.extOp ≤ Trace.IntRem
  store : inst.memOp = Trace.MemStore → inst.dstReg = 0
  branch : inst.isBranch = true → inst.memOp = Trace.MemNone ∧ inst.extOp = Trace.ExtNone
  mext : inst.extOp ≠ Trace.ExtNone → inst.memOp = Trace.MemNone

/-- The assertions and bounds checks at which the simulator aborts. -/
inductive Fault
  | slotOccupied | hostRange | deviceRange | nullSlot
  | notShifted | frontOccupied | notWaiting | portBusy | replayInvalid | fillNotFound
  | dataRange | victimRange | policyAssoc
  | queueFull | queueEmpty | orphanEmpty | noWaitingEntry | lsuSlot | scheduleInPast
  | decodeNotDue | inputOccupied | regRange | regZero | badId | unexpectedWrite
  deriving DecidableEq, Repr

end NpSim
