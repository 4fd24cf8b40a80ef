/- digest: The main loop that updates the core when it is due, against the loop that updates it on
   every tick. -/

import NpSim.Pipe.Idle
import NpSim.System.Twins

set_option autoImplicit false
set_option relaxedAutoImplicit false

namespace NpSim.System

open NpSim.Lib.Partial NpSim.Lib.Pairs NpSim.Cache NpSim.Mem NpSim.Pipe

variable {S : Config}

namespace Hosts

variable {now : Nat} {s t : Hosts S × RAMArbiter S.mem}

/-- The event-driven update against one that is made in any case: where the first is left out, the
second finds no work. -/
theorem updateCore_lazy (h : Alike True False Eq s t)
    (hidle : (now : Tick) < s.1.core.nextUpdate → s.1.core.Idle now s.1.ports.imem) :
    Both (Alike True False Eq) (updateCore false now s) (updateCore true now t) := by
  have hboth : Both (Pipeline.Twin True False) (s.1.core.updateImpl now s.1.ports)
      (t.1.core.updateImpl now s.1.ports) := h.1.core.updateImpl s.1.ports
  have hcore : Both (Pipeline.Twin True False) (s.1.core.doUpdate now s.1.ports)
      (t.1.core.updateImpl now s.1.ports) := by
    unfold Pipeline.doUpdate
    by_cases hdue : s.1.core.nextUpdate ≤ now
    · rw [if_pos hdue]
      exact hboth
    · rw [if_neg hdue]
      exact (Pipeline.updateImpl_idle (hidle (not_le.mp hdue))).trans hboth
        fun _ _ _ h h' => h.trans h'
  unfold updateCore
  dsimp only
  rw [h.1.ports]
  exact hcore.bind fun _ _ hc => runCalls_alike (RamDevices.congruent_eq _) (h.core hc)

end Hosts

namespace Sys

/-- If the call leaves out an update of the core, then the update would find no work. -/
def Rested (s : Sys S) : Prop :=
  s.phase = .core → (s.tick : Tick) < s.hosts.core.nextUpdate →
    s.hosts.core.Idle s.tick s.hosts.ports.imem

/-- The tick, the instructions committed so far with their ticks, and the counters of the core. -/
def outcome (s : Sys S) : Nat × List (Transaction × Nat) × PipelineStats :=
  (s.tick, s.hosts.core.commits.map Commit.when, s.hosts.core.acct.stats)

private theorem run_lazy {s t : Sys S} {n : Nat} (ht : Twin True False Eq s t)
    (h : ∀ k < n, ∀ u, run false k s = .ok u → u.Rested) :
    Both (Twin True False Eq) (run false n s) (run true n t) := by
  induction n generalizing s t with
  | zero => exact ht
  | succ n ih =>
    have hrest : s.Rested := h 0 (Nat.succ_pos n) s rfl
    refine (step_twin (RamDevices.congruent_eq _) ht fun hph => ?_).bind_of fun u v hu huv => ?_
    · cases ht with
      | mk r hr => exact Hosts.updateCore_lazy hr (hrest hph)
    · refine ih huv fun k hk w hw => h (k + 1) (Nat.succ_lt_succ hk) w ?_
      exact bind_eq_ok.mpr ⟨u, hu, hw⟩

/-- The event-driven loop and the loop that updates the core on every tick commit the same
instructions at the same ticks, with the same counters, as long as no update with work is left
out. -/
theorem lazy_eq_eager (trace : List TraceInst) (inst : TraceInst) (nxt : Tick) (n : Nat)
    (h : ∀ k < n, ∀ s, run false k (init S trace inst nxt) = .ok s → s.Rested) :
    (run false n (init S trace inst nxt)).map outcome =
      (run true n (init S trace inst nxt)).map outcome := by
  refine (run_lazy (.refl (fun _ => rfl) _) h).map_eq fun s t hst => ?_
  cases hst with
  | mk r hr =>
    have ha : s.hosts.core.acct = r.1.core.acct := hr.1.core.counted trivial
    have hc : s.hosts.core.commits.map Commit.when = r.1.core.commits.map Commit.when :=
      hr.1.core.commits
    unfold outcome
    rw [ha, hc]

instance (s : Sys S) : Decidable s.Rested :=
  inferInstanceAs (Decidable (_ → _ → _))

def restsFor : Nat → Sys S → Bool
  | 0, _ => true
  | n + 1, s =>
    decide s.Rested && match s.step false with
      | .ok t => restsFor n t
      | .error _ => true

theorem rested_of_restsFor {n : Nat} {s : Sys S} (h : s.restsFor n = true) :
    ∀ k < n, ∀ u, run false k s = .ok u → u.Rested := by
  induction n generalizing s with
  | zero => exact fun _ hk => absurd hk (Nat.not_lt_zero _)
  | succ n ih =>
    intro k hk u hu
    obtain ⟨hrest, hnext⟩ := Bool.and_eq_true_iff.mp h
    cases k with
    | zero =>
      cases hu
      exact of_decide_eq_true hrest
    | succ k =>
      obtain ⟨t, ht, hu⟩ := bind_eq_ok.mp hu
      rw [ht] at hnext
      exact ih hnext k (Nat.lt_of_succ_lt_succ hk) u hu

/-- Two instructions of one block: the core sleeps while the block is fetched, and has no work. -/
def oneBlock : List TraceInst :=
  [{ pc := 0x80000000, dstReg := 1 }, { pc := 0x80000004, dstReg := 2 }]

theorem lazy_eq_eager_oneBlock :
    (run false 200 (init (Config.plain 3 true) oneBlock {} 0)).map outcome =
      (run true 200 (init (Config.plain 3 true) oneBlock {} 0)).map outcome :=
  lazy_eq_eager _ _ _ _ (rested_of_restsFor (by decide +kernel))

def twoBlocks : List TraceInst :=
  [{ pc := 0x80000000, dstReg := 1 }, { pc := 0x80000010, dstReg := 2 }]

def ticksOf (o : Nat × List (Transaction × Nat) × PipelineStats) : List Nat := o.2.1.map Prod.snd

/-- `do_fetch_1` moves the first instruction into the Fetch slot and does not schedule Decode: the
core sleeps until the second block is there, and commits five ticks late. -/
theorem lazy_ne_eager : ¬∀ (S : Config) (trace : List TraceInst) (inst : TraceInst) (nxt : Tick)
    (n : Nat), (run false n (init S trace inst nxt)).map outcome =
      (run true n (init S trace inst nxt)).map outcome := by
  intro hall
  have h := congrArg (fun x : Except Fault _ => x.toOption.map ticksOf)
    (hall (Config.plain 3 true) twoBlocks {} 0 160)
  have hlazy : ((run false 160 (init (Config.plain 3 true) twoBlocks {} 0)).map
      outcome).toOption.map ticksOf = some [15, 16] := by
    decide +kernel
  have heager : ((run true 160 (init (Config.plain 3 true) twoBlocks {} 0)).map
      outcome).toOption.map ticksOf = some [10, 16] := by
    decide +kernel
  exact absurd (hlazy.symm.trans (h.trans heager)) (by decide)

end Sys

end NpSim.System
