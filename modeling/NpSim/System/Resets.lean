/- digest: A reset of the statistics in the middle of a run: when it changes counters only, and when
   every later instruction commits at the same tick. -/

import NpSim.Mem.Sdram
import NpSim.System.Routing
import NpSim.System.Twins

set_option autoImplicit false
set_option relaxedAutoImplicit false

namespace NpSim.Mem

open NpSim.Lib.Pairs Sdram

namespace SdramModel

variable {ratio : Nat} {m n : SdramModel}

/-- The members that a latency depends on. -/
structure Timing where
  ctrlFreeAt : Nat → Int
  nextRefreshTick : Int
  banks : Nat → Nat → SdramBank

def timing (m : SdramModel) : Timing := ⟨m.ctrlFreeAt, m.nextRefreshTick, m.banks⟩

/-- Two models that differ in their counters only. -/
inductive Twin (m : SdramModel) : SdramModel → Prop
  | mk (rowHit rowMiss rowConf refreshCount ctrlStall : Nat) : Twin m { m with
      rowHit := rowHit, rowMiss := rowMiss, rowConf := rowConf
      refreshCount := refreshCount, ctrlStall := ctrlStall }

theorem twin_iff : Twin m n ↔ m.timing = n.timing := by
  constructor
  · rintro ⟨_, _, _, _, _⟩
    rfl
  · intro h
    cases n with
    | mk ctrlFreeAt nextRefreshTick banks a b c d e =>
      have hc : m.ctrlFreeAt = ctrlFreeAt := congrArg Timing.ctrlFreeAt h
      have hn : m.nextRefreshTick = nextRefreshTick := congrArg Timing.nextRefreshTick h
      have hb : m.banks = banks := congrArg Timing.banks h
      subst hc hn hb
      exact .mk a b c d e

private theorem Twin.checkRefresh (h : Twin m n) (t : Int) :
    Twin (m.checkRefresh t) (n.checkRefresh t) := by
  cases h with
  | mk a b c d e => exact rel_ite (.mk a b c d e) (.mk a b c _ e)

private theorem Twin.noteStall (h : Twin m n) (t u : Int) :
    Twin (m.noteStall t u) (n.noteStall t u) := by
  cases h with
  | mk a b c d e => exact rel_ite (.mk a b c d _) (.mk a b c d e)

private theorem Twin.rowCheck (h : Twin m n) (x : Access) :
    (m.rowCheck x).1 = (n.rowCheck x).1 ∧ Twin (m.rowCheck x).2 (n.rowCheck x).2 := by
  cases h with
  | mk a b c d e =>
    unfold SdramModel.rowCheck
    dsimp only
    split
    · exact ⟨rfl, .mk a _ c d e⟩
    · split
      · exact ⟨rfl, .mk a b _ d e⟩
      · exact ⟨rfl, .mk _ b c d e⟩

theorem Twin.access (h : Twin m n) (x : Access) :
    (m.access ratio x).1 = (n.access ratio x).1 ∧
      Twin (m.access ratio x).2 (n.access ratio x).2 := by
  have hr := h.checkRefresh (devTick ratio x.tick)
  unfold SdramModel.access
  dsimp only
  generalize m.checkRefresh _ = m', n.checkRefresh _ = n' at hr ⊢
  have hf : n'.ctrlFreeAt = m'.ctrlFreeAt := by
    cases hr
    rfl
  rw [hf]
  have hc := (hr.noteStall (devTick ratio x.tick)
    (max (devTick ratio x.tick) (m'.ctrlFreeAt x.host))).rowCheck x
  revert hc
  rcases SdramModel.rowCheck x (m'.noteStall _ _) with ⟨extra, u⟩
  rcases SdramModel.rowCheck x (n'.noteStall _ _) with ⟨extra', v⟩
  rintro ⟨he, hu⟩
  cases he
  cases hu with
  | mk a b c d e => exact ⟨rfl, .mk a b c d e⟩

theorem Twin.resetStats (h : Twin m n) : Twin m.resetStats n.resetStats := by
  cases h with
  | mk a b c d e => exact .mk 0 0 0 0 0

end SdramModel

/-- The devices of `main`: the SDRAM, the SRAM and the CLINT, and everything else. `bst_len` is at
least one in every request of a cache whose lines have a word at least. -/
def RamDevices.board (ratio sramLat mmioLat : Nat) : RamDevices where
  State := SdramModel
  count := 4
  latencyImpl m did req now :=
    if did = 0 then
      m.access ratio
        { addr := req.addr, bstLen := req.bstLen, isWrite := req.mop = .write, tick := now
          hostId := req.id }
    else (if did = 3 then mmioLat else sramLat, m)
  resetStats := SdramModel.resetStats
  init := {}

theorem RamDevices.congruent_board (ratio sramLat mmioLat : Nat) :
    (RamDevices.board ratio sramLat mmioLat).Congruent SdramModel.Twin where
  latency m n did req now h := by
    change (ite _ _ _ : Nat × SdramModel).1 = (ite _ _ _ : Nat × SdramModel).1
    split
    · exact (h.access _).1
    · rfl
  next m n did req now h := by
    change SdramModel.Twin (ite _ _ _ : Nat × SdramModel).2 (ite _ _ _ : Nat × SdramModel).2
    split
    · exact (h.access _).2
    · exact h
  reset _ _ h := h.resetStats

end NpSim.Mem

namespace NpSim.System

open NpSim.Lib.Partial NpSim.Lib.Pairs NpSim.Cache NpSim.Mem NpSim.Pipe

def Config.board (S : Config) (ratio sramLat mmioLat : Nat) : Config :=
  { S with mem := .soc (.board ratio sramLat mmioLat), mem_hosts := rfl }

namespace Sys

variable {S : Config} {ratio sramLat mmioLat : Nat}

/-- `reset_stats` of every object of `simlist`, at any point of the run. -/
def resetStats (s : Sys S) : Sys S :=
  { s with hosts := s.hosts.resetStats s.tick, mem := s.mem.resetStats }

def commitTicks (s : Sys S) : List (Transaction × Nat) := s.hosts.core.commits.map Commit.when

/-- The systems differ in their counters only. -/
def OnlyCounters (s t : Sys (S.board ratio sramLat mmioLat)) : Prop :=
  Twin False True SdramModel.Twin s t

theorem OnlyCounters.run {s t : Sys (S.board ratio sramLat mmioLat)} (h : s.OnlyCounters t)
    (n : Nat) : (run false n s).map commitTicks = (run false n t).map commitTicks := by
  have hb :=
    run_twin (RamDevices.congruent_board ratio sramLat mmioLat) false (fun _ => trivial) n h
  refine hb.map_eq fun a b hab => ?_
  cases hab with
  | mk r h => exact h.1.core.commits

/-- The SDRAM has not been used since the last reset. -/
def Fresh (s : Sys (S.board ratio sramLat mmioLat)) : Prop :=
  SdramModel.timing s.mem.devs = SdramModel.timing {}

private theorem resetStats_hosts (now : Nat) (h : Hosts S) :
    Hosts.Twin False True h (h.resetStats now) where
  icache := .mk ⟨{}, 0, 0⟩
  dcache := by
    unfold Hosts.resetStats
    dsimp only
    cases h.dcache with
    | cached c => exact .cached (.mk ⟨{}, c.prefetchIssued, c.prefetchUseful⟩)
    | uncached c => exact .uncached (.mk {})
  bypass := .mk {}
  core := .mk
    { h.core.ledger with acct := h.core.acct.resetStats now, bpu := h.core.bpu.resetStats }
    ⟨(Branch.BranchUnit.Alike.refl h.core.bpu).stats h.core.bpu.stats {}, False.elim, fun _ => rfl,
      rfl⟩

theorem reset_only_counters (s : Sys (S.board ratio sramLat mmioLat)) :
    s.OnlyCounters s.resetStats ↔ s.Fresh := by
  constructor
  · intro h
    exact SdramModel.twin_iff.mp h.devs
  · intro h
    have hd : SdramModel.Twin s.mem.devs (SdramModel.resetStats s.mem.devs) :=
      SdramModel.twin_iff.mpr h
    exact .mk (s.hosts.resetStats s.tick, s.mem.resetStats)
      ⟨resetStats_hosts s.tick s.hosts, .mk ⟨_, _, _, _, _, _⟩ hd⟩

/-- A reset changes counters only, and no later commit, if and only if the SDRAM is fresh. -/
theorem reset_neutral_iff (s : Sys (S.board ratio sramLat mmioLat)) :
    (s.OnlyCounters s.resetStats ∧
      ∀ n, (run false n s).map commitTicks = (run false n s.resetStats).map commitTicks) ↔
      s.Fresh := by
  constructor
  · exact fun h => (reset_only_counters s).mp h.1
  · intro h
    have hc := (reset_only_counters s).mpr h
    exact ⟨hc, hc.run⟩

def neighbours : List TraceInst :=
  [{ pc := 0x80000000, dstReg := 1 }, { pc := 0x80000010, dstReg := 2 }]

def ticksAfter (n : Nat) (s : Sys S) : Option (List Nat) :=
  ((run false n s).map commitTicks).toOption.map (List.map Prod.snd)

/-- Without a reset the second block is read from the open row. After a reset between the two reads
the row is closed, and both instructions commit three ticks later. -/
theorem reset_not_neutral : ¬∀ (S : Config) (ratio sramLat mmioLat : Nat)
    (s : Sys (S.board ratio sramLat mmioLat)), s.Reachable → s.OnlyCounters s.resetStats ∧
      ∀ n, (run false n s).map commitTicks = (run false n s.resetStats).map commitTicks := by
  intro hall
  obtain ⟨s, hrun, hobs⟩ := exists_of_observed
    (x := run false 135 (init ((Config.plain 0 true).board 1 1 3) neighbours {} 0))
    (f := fun s => (s.ticksAfter 205, s.resetStats.ticksAfter 205))
    (b := (some [32, 33], some [35, 36])) (by decide +kernel)
  obtain ⟨hout, hreset⟩ := Prod.mk.inj hobs
  have hsame : s.ticksAfter 205 = s.resetStats.ticksAfter 205 :=
    congrArg (fun x : Except Fault _ => x.toOption.map (List.map Prod.snd))
      ((hall _ 1 1 3 s ⟨_, _, _, _, hrun⟩).2 205)
  rw [hout, hreset] at hsame
  exact absurd hsame (by decide)

end Sys

end NpSim.System
