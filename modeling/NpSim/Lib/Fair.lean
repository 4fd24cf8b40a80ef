/- digest: Infinite runs: a rank that keeps falling until a goal is reached, and what stays the same
   while it does not fall. -/

import Mathlib.Data.Nat.Init

set_option autoImplicit false
set_option relaxedAutoImplicit false

namespace NpSim.Lib.Fair

universe u

variable {σ : Type u} {run : ℕ → σ} {goal : σ → Prop} {rank : σ → ℕ}

/-- While the goal is not reached the rank falls again: the goal is reached. -/
theorem eventually_of_descent
    (fall : ∀ n, ¬goal (run n) → ∃ k ≥ n, goal (run k) ∨ rank (run k) < rank (run n)) (n : ℕ) :
    ∃ k ≥ n, goal (run k) := by
  induction h : rank (run n) using Nat.strong_induction_on generalizing n with
  | _ r ih =>
    by_cases hg : goal (run n)
    · exact ⟨n, Nat.le_refl n, hg⟩
    · obtain ⟨k, hk, hgoal | hlt⟩ := fall n hg
      · exact ⟨k, hk, hgoal⟩
      · obtain ⟨j, hj, hgoal⟩ := ih _ (h ▸ hlt) k rfl
        exact ⟨j, Nat.le_trans hk hj, hgoal⟩

/-- Each step reaches the goal, lowers the rank or keeps `R`: so does every stretch of steps. -/
theorem stable_or_descent {R : σ → σ → Prop} (refl : ∀ s, R s s)
    (trans : ∀ {s t u}, R s t → R t u → R s u)
    (step : ∀ n, goal (run (n + 1)) ∨ rank (run (n + 1)) < rank (run n) ∨
      rank (run (n + 1)) = rank (run n) ∧ R (run n) (run (n + 1))) {n k : ℕ} (hk : n ≤ k) :
    (∃ j ≥ n, goal (run j) ∨ rank (run j) < rank (run n)) ∨
      rank (run k) = rank (run n) ∧ R (run n) (run k) := by
  induction k, hk using Nat.le_induction with
  | base => exact .inr ⟨rfl, refl _⟩
  | succ k hk ih =>
    rcases ih with ih | ⟨hr, hR⟩
    · exact .inl ih
    · rcases step k with hg | hlt | ⟨he, hs⟩
      · exact .inl ⟨k + 1, Nat.le_succ_of_le hk, .inl hg⟩
      · exact .inl ⟨k + 1, Nat.le_succ_of_le hk, .inr (hr ▸ hlt)⟩
      · exact .inr ⟨he.trans hr, trans hR hs⟩

/-- Until the goal is reached no step raises the rank, an effective one lowers it, and an effective
one comes as long as `R` is kept: the goal is reached. -/
theorem eventually_of_effective (run : ℕ → σ) {R : σ → σ → Prop} {effective : ℕ → Prop}
    (refl : ∀ s, R s s)
    (trans : ∀ {s t u}, R s t → R t u → R s u)
    (step : ∀ n, goal (run (n + 1)) ∨ rank (run (n + 1)) < rank (run n) ∨
      (rank (run (n + 1)) = rank (run n) ∧ R (run n) (run (n + 1))) ∧ ¬effective n)
    (comes : ∀ n, ¬goal (run n) → ∃ k ≥ n, R (run n) (run k) → effective k) (n : ℕ) :
    ∃ k ≥ n, goal (run k) := by
  have hstep : ∀ n, goal (run (n + 1)) ∨ rank (run (n + 1)) < rank (run n) ∨
      rank (run (n + 1)) = rank (run n) ∧ R (run n) (run (n + 1)) := fun n =>
    (step n).imp_right fun h => h.imp_right And.left
  have fall : ∀ n, ¬goal (run n) → ∃ k ≥ n, goal (run k) ∨ rank (run k) < rank (run n) := by
    intro n hn
    obtain ⟨k, hk, heff⟩ := comes n hn
    rcases stable_or_descent refl trans hstep hk with hx | ⟨hr, hR⟩
    · exact hx
    · rcases step k with hg | hlt | ⟨_, hno⟩
      · exact ⟨k + 1, Nat.le_succ_of_le hk, .inl hg⟩
      · exact ⟨k + 1, Nat.le_succ_of_le hk, .inr (hr ▸ hlt)⟩
      · exact absurd (heff hR) hno
  exact eventually_of_descent fall n

end NpSim.Lib.Fair
