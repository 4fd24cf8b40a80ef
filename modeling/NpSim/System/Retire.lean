/- digest: When the transaction in the Memory slot is committed, and how long a division can hold
   it up. -/

import NpSim.Pipe.Deadline
import NpSim.System.Commit

set_option autoImplicit false
set_option relaxedAutoImplicit false

namespace NpSim.System.Sys

open NpSim.Lib.Partial NpSim.Pipe NpSim.Pipe.Pipeline

variable {S : Config}

/-- With a transaction in Memory, WriteBack is due at the next tick exactly when no M-extension
unit has further to go than that, and an update commits the transaction exactly when WriteBack
is due. -/
theorem memory_commits {s : Sys S} (h : s.Reachable) {x : Transaction}
    (hx : s.hosts.core.simPipe .memory = some x) :
    (s.hosts.core.stageUpdate .writeBack ≤ ((s.tick + 1 : Nat) : Tick) ↔
      ∀ u, u.IsUnit → (s.hosts.core.simPipe u).isSome = true →
        s.hosts.core.readyTick u ≤ s.tick + 1) ∧
    ∀ (now : Nat) (ports : Ports) (c : Pipeline S.core),
      s.hosts.core.updateImpl now ports = .ok c →
        ((∃ stats, s.hosts.core.commits ++ [⟨x, now, stats⟩] <+: c.commits) ↔
          s.hosts.core.stageUpdate .writeBack ≤ now) := by
  refine ⟨h.core.deadline.writeBack_soon, ?_⟩
  intro now ports c hc
  exact update_commits h.core.conserved.2.idle hx hc

def div : TraceInst := { pc := 0x80000000, dstReg := 1, extOp := Trace.IntDiv }

/-- What the Memory slot holds, the next update of WriteBack, and what the units hold. -/
structure Waiting where
  tick : Nat
  phase : Phase
  memory : Option Nat
  writeBack : Tick
  units : List (Option Nat)
  deriving DecidableEq

def waiting (s : Sys S) : Waiting where
  tick := s.tick
  phase := s.phase
  memory := (s.hosts.core.simPipe .memory).map (·.seq)
  writeBack := s.hosts.core.stageUpdate .writeBack
  units := [.intMulExt, .intDivExt].map fun u => (s.hosts.core.simPipe u).map (·.seq)

/-- At the end of tick 9 an addition is in Memory behind a division that is ready in tick 40: the
updates before that tick do not commit it, and one in that tick does. -/
theorem memory_commits_behind : ∃ s : Sys (Config.plain 0 true), s.Reachable ∧ s.tick = 9 ∧
    s.hosts.core.readyTick .intDivExt = 40 ∧ ∃ x, s.hosts.core.simPipe .memory = some x ∧
      ¬s.hosts.core.stageUpdate .writeBack ≤ ((s.tick + 1 : Nat) : Tick) ∧
      ∀ (now : Nat) (ports : Ports) (c : Pipeline _), s.hosts.core.updateImpl now ports = .ok c →
        ((∃ stats, s.hosts.core.commits ++ [⟨x, now, stats⟩] <+: c.commits) ↔ 40 ≤ now) := by
  obtain ⟨s, hrun, hobs⟩ := exists_of_observed
    (x := run false 78 (init (Config.plain 0 true) [div, add] {} 0))
    (f := fun s => (waiting s, s.hosts.core.readyTick .intDivExt))
    (b := (⟨9, .clock, some 1, (40 : Nat), [none, some 0]⟩, 40)) (by decide +kernel)
  obtain ⟨hwait, hready⟩ := Prod.mk.inj hobs
  have htick : s.tick = 9 := congrArg Waiting.tick hwait
  have hback : s.hosts.core.stageUpdate .writeBack = ((40 : Nat) : Tick) :=
    congrArg Waiting.writeBack hwait
  have hm : (s.hosts.core.simPipe .memory).map (·.seq) = some 1 := congrArg Waiting.memory hwait
  obtain ⟨x, hx, _⟩ := Option.map_eq_some_iff.mp hm
  have hunits : [s.hosts.core.simPipe .intMulExt, s.hosts.core.simPipe .intDivExt].map
      (fun o => o.map (·.seq)) = [none, some 0] := congrArg Waiting.units hwait
  simp only [List.map_cons, List.map_nil, List.cons.injEq, and_true] at hunits
  have hs : s.Reachable := ⟨_, _, _, _, hrun⟩
  obtain ⟨hsoon, hcommits⟩ := memory_commits hs hx
  refine ⟨s, hs, htick, hready, x, hx, fun hdue => ?_, fun now ports c hc => ?_⟩
  · have hlate := hsoon.mp hdue .intDivExt (.inr rfl) (by
      rw [← Option.isSome_map, hunits.2]
      rfl)
    omega
  · rw [hcommits now ports c hc, hback]
    exact Nat.cast_le

/-- At the end of tick 9 an addition is in Memory and its division has 31 ticks to go. -/
theorem memory_held_up : ¬∀ (S : Config) (s : Sys S), s.Reachable → s.phase = .clock →
    (s.hosts.core.simPipe .memory).isSome = true →
      s.hosts.core.stageUpdate .writeBack ≤ ((s.tick + 1 : Nat) : Tick) := by
  intro hall
  obtain ⟨s, hrun, hobs⟩ := exists_of_observed
    (x := run false 78 (init (Config.plain 0 true) [div, add] {} 0))
    (f := waiting) (b := ⟨9, .clock, some 1, (40 : Nat), [none, some 0]⟩)
    (by decide +kernel)
  have hm := congrArg Waiting.memory hobs
  have hw := hall _ s ⟨_, _, _, _, hrun⟩ (congrArg Waiting.phase hobs) (by
    rw [← Option.isSome_map, show Option.map _ _ = some 1 from hm]
    rfl)
  rw [show s.hosts.core.stageUpdate .writeBack = (40 : Nat) from congrArg Waiting.writeBack hobs,
    show s.tick = 9 from congrArg Waiting.tick hobs] at hw
  have : 40 ≤ 9 + 1 := by exact_mod_cast hw
  omega

end NpSim.System.Sys
