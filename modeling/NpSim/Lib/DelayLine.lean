/- digest: A line of cells that moves by one cell a step: a value reaches the end after as many
   steps as there are cells behind the first. -/

import Mathlib.Data.List.Basic

set_option autoImplicit false
set_option relaxedAutoImplicit false

namespace NpSim.Lib

/-- Up to step `N`, the line `l n` of `d` cells has the value `x n` at its front, and the cells
behind the front are those of the step before, moved on by one. -/
structure DelayLine {α : Type} (d N : Nat) (x : Nat → α) (l : Nat → List α) : Prop where
  length : ∀ n ≤ N, (l n).length = d
  enter : ∀ n ≤ N, (l n).head? = some (x n)
  move : ∀ n < N, (l (n + 1)).tail = (l n).dropLast

namespace DelayLine

variable {α : Type} {d N : Nat} {x : Nat → α} {l : Nat → List α}

/-- The cell `i` holds the value of `i` steps ago. -/
theorem cell (h : DelayLine d N x l) {n i : Nat} (hn : n ≤ N) (hi : i ≤ n) (hd : i < d) :
    (l n)[i]? = some (x (n - i)) := by
  induction i generalizing n with
  | zero =>
    rw [← List.head?_eq_getElem?]
    exact h.enter n hn
  | succ i ih =>
    obtain ⟨m, rfl⟩ : ∃ m, n = m + 1 := ⟨n - 1, by omega⟩
    have hlen := h.length m (by omega)
    have hcell := ih (n := m) (by omega) (by omega) (by omega)
    rw [← List.getElem?_tail, h.move m (by omega), List.getElem?_dropLast, if_pos (by omega),
      hcell]
    congr 2
    omega

/-- A value leaves the line `d - 1` steps after it has entered it. -/
theorem last (h : DelayLine d N x l) {n : Nat} (hd : 0 < d) (hn : n + (d - 1) ≤ N) :
    (l (n + (d - 1))).getLast? = some (x n) := by
  rw [List.getLast?_eq_getElem?, h.length _ hn, h.cell hn (by omega) (by omega)]
  congr 2
  omega

end DelayLine

end NpSim.Lib
