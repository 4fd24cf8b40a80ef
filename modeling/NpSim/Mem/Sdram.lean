/- digest: The SDRAM timing model: its code, its definition by the history of accesses, and the
   refinement between the two. -/

import Mathlib.Algebra.Order.Ring.Int
import Mathlib.Logic.Function.Basic
import NpSim.Defines

set_option autoImplicit false
set_option relaxedAutoImplicit false

namespace NpSim.Mem

/-- A result of type `int`. Out of range it wraps around, where the language leaves signed
overflow undefined. -/
def toInt (x : Int) : Int := x.bmod (2 ^ 32)

theorem toInt_natCast {n : Nat} (h : n < 2 ^ 31) : toInt n = n :=
  Int.bmod_eq_of_le (by omega) (by omega)

namespace Sdram

abbrev nHosts : Nat := 3
abbrev tRcd : Nat := 2
abbrev refreshPeriod : Nat := 781
abbrev perWord : Nat := 2
abbrev actCost : Nat := 1 + tRcd
abbrev preCost : Nat := 1
abbrev rdBase : Nat := 2
abbrev wrBase : Nat := 0

/-- The arguments of `SdramModel::access`, the tick as the caller has it. -/
structure Access where
  addr : Addr
  bstLen : Nat
  isWrite : Bool
  tick : Nat
  hostId : Nat
  deriving DecidableEq, Repr

namespace Access

/-- `std::min<size_t>(host_id, N_HOSTS - 1)` -/
def host (a : Access) : Nat := min a.hostId (nHosts - 1)

/-- `bank_of` -/
def bank (a : Access) : Nat := (a.addr.toNat >>> 10) &&& 0x3

/-- `row_of` -/
def row (a : Access) : Nat := (a.addr.toNat >>> 12) &&& 0x1fff

def base (a : Access) : Nat := if a.isWrite then wrBase else rdBase

end Access

end Sdram

open Sdram

/-- `SdramModel::Bank` -/
structure SdramBank where
  isOpen : Bool := false
  row : Nat := 0
  deriving DecidableEq, Repr

structure SdramModel where
  ctrlFreeAt : Nat → Int := fun _ => 0
  nextRefreshTick : Int := refreshPeriod
  banks : Nat → Nat → SdramBank := fun _ _ => {}
  rowHit : Nat := 0
  rowMiss : Nat := 0
  rowConf : Nat := 0
  refreshCount : Nat := 0
  ctrlStall : Nat := 0

namespace SdramModel

def checkRefresh (devTick : Int) (m : SdramModel) : SdramModel :=
  if devTick < m.nextRefreshTick then m
  else
    let elapsed := toInt (devTick - m.nextRefreshTick)
    let nRefreshes := toInt (elapsed.tdiv refreshPeriod + 1)
    { m with
      banks := fun h b => { m.banks h b with isOpen := false }
      nextRefreshTick := toInt (m.nextRefreshTick + toInt (nRefreshes * refreshPeriod))
      refreshCount := m.refreshCount + nRefreshes.toNat }

/-- The row check of `access`: the extra cost, and the statistics. -/
def rowCheck (a : Access) (m : SdramModel) : Nat × SdramModel :=
  let bank := m.banks a.host a.bank
  if !bank.isOpen then (actCost, { m with rowMiss := m.rowMiss + 1 })
  else if bank.row ≠ a.row then (preCost + actCost, { m with rowConf := m.rowConf + 1 })
  else (0, { m with rowHit := m.rowHit + 1 })

/-- `static_cast<int>(cur_tick / freq_ratio_)`, after `cur_tick` has become a `tint_t`. -/
def devTick (ratio : Nat) (tick : Nat) : Int := toInt ((tick % 2 ^ 32 / ratio : Nat) : Int)

/-- The stall statistic of `access`, an `int` added to a `size_t`. -/
def noteStall (devTick startDev : Int) (m : SdramModel) : SdramModel :=
  if devTick < startDev then
    { m with ctrlStall := ((m.ctrlStall + toInt (startDev - devTick)) % 2 ^ 64).toNat }
  else m

def access (ratio : Nat) (a : Access) (m : SdramModel) : Nat × SdramModel :=
  let devTick := devTick ratio a.tick
  let m := m.checkRefresh devTick
  let startDev := max devTick (m.ctrlFreeAt a.host)
  let (extra, m) := (m.noteStall devTick startDev).rowCheck a
  let devCyc := toInt (toInt (toInt (perWord * a.bstLen) + a.base) + extra)
  let free := toInt (startDev + devCyc)
  let m := { m with
    ctrlFreeAt := Function.update m.ctrlFreeAt a.host free
    banks := Function.update m.banks a.host
      (Function.update (m.banks a.host) a.bank { isOpen := true, row := a.row }) }
  let totalDev := toInt (free - devTick)
  ((toInt (totalDev * ratio) % 2 ^ 32).toNat, m)

def resetStats (m : SdramModel) : SdramModel :=
  { m with
    rowHit := 0
    rowMiss := 0
    rowConf := 0
    refreshCount := 0
    ctrlStall := 0
    ctrlFreeAt := fun _ => 0
    nextRefreshTick := refreshPeriod
    banks := fun _ _ => {} }

end SdramModel

end NpSim.Mem
