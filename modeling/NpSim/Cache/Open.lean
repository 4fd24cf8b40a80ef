/- digest: A write-through cache of two cells that is ready for a request has nothing under way, and
   the update that makes it ready acknowledges it or is a flush. -/

import NpSim.Cache.Pace

set_option autoImplicit false
set_option relaxedAutoImplicit false

namespace NpSim.Cache.PipeCache

open NpSim.Lib.Partial

variable {P : CacheParams} {c c' : PipeCache P} {now n : Nat}

/-- Nothing is in the pipe. -/
def Emptied (c : PipeCache P) : Prop := ∀ e ∈ c.pipe, e = none

theorem Emptied.back (h : c.Emptied) : c.back = none := by
  unfold PipeCache.back
  cases hl : c.pipe.getLast? with
  | none => rfl
  | some e => exact h e (List.mem_of_getLast? hl)

/-- Ready, the cache has nothing under way before tick `n`. -/
def Accepting (n : Nat) (c : PipeCache P) : Prop := c.isReady.1 = true → c.Hitting ∧ Flowing n c

/-- Ready, the cache is due in tick `n`, or has just been flushed. -/
def Punctual (n : Nat) (c : PipeCache P) : Prop :=
  c.isReady.1 = true → c.blockedUntil ≤ n ∨ c.Emptied

theorem isReady_iff (ht : P.writeBack = false) :
    c.isReady.1 = true ↔ c.isShifted = true ∧ c.pendingFlush = false := by
  unfold PipeCache.isReady
  rw [ht]
  simp

/-- The end of an update: a flush, a miss that keeps the cache closed, or an acknowledgement. -/
private inductive Finish (now : Nat) (c c' : PipeCache P) (outs : List CacheOut) : Prop
  | flush (hf : c.pendingFlush = true) (he : c' = c.handleFlush now)
  | miss (hs : c'.isShifted = false)
  | ack (ha : .cpuAck ⟨P.cacheId, .read⟩ ∈ outs) (hf : c'.pendingFlush = c.pendingFlush)
      (hh : c'.Hitting) (hflow : c.pendingFlush = false → Flowing (now + 1) c')

private theorem handleFlush_emptied (now : Nat) (c : PipeCache P) : (c.handleFlush now).Emptied :=
  fun _ he => (List.mem_replicate.mp he).2

private theorem Finish.opened {outs : List CacheOut} (ht : P.writeBack = false)
    (h : Finish now c c' outs) (hw : WellFormed c') :
    Accepting (now + 1) c' ∧
      (c'.isReady.1 = true →
        .cpuAck ⟨P.cacheId, .read⟩ ∈ outs ∨ c'.Emptied ∧ c'.blockedUntil = now + 1) ∧
      (c.pendingFlush = true → c'.isReady.1 = true → c'.Emptied) := by
  cases h with
  | flush hf he =>
    rw [he] at hw ⊢
    have hempty := handleFlush_emptied now c
    refine ⟨fun _ => ⟨fun bk hb => ?_, hw, ⟨rfl, rfl, rfl, rfl⟩, rfl, le_rfl⟩,
      fun _ => .inr ⟨hempty, rfl⟩, fun _ _ => hempty⟩
    exact absurd (hb.symm.trans hempty.back) (by simp)
  | miss hs =>
    have hno : c'.isReady.1 = true → False := fun hr => by
      rw [((isReady_iff ht).mp hr).1] at hs
      cases hs
    exact ⟨fun hr => (hno hr).elim, fun hr => (hno hr).elim, fun _ hr => (hno hr).elim⟩
  | ack ha hf hh hflow =>
    refine ⟨fun hr => ⟨hh, hflow (hf.symm.trans ((isReady_iff ht).mp hr).2)⟩, fun _ => .inl ha,
      fun hp hr => ?_⟩
    have := hf.trans hp
    rw [((isReady_iff ht).mp hr).2] at this
    cases this

end NpSim.Cache.PipeCache
