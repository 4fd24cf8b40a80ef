/- digest: Stacks of bounded depth that drop their oldest entry, and the ring of cells that holds
   one. -/

import Mathlib.Data.List.Basic

set_option autoImplicit false
set_option relaxedAutoImplicit false

namespace NpSim.Lib

universe u

variable {α : Type u} {n : Nat}

/-- At most `n` entries, the newest first. -/
structure BoundedStack (α : Type u) (n : Nat) where
  items : List α
  bound : items.length ≤ n
  deriving DecidableEq

namespace BoundedStack

def empty : BoundedStack α n := ⟨[], Nat.zero_le n⟩

/-- A push on a full stack drops the oldest entry. -/
def push (x : α) (s : BoundedStack α n) : BoundedStack α n :=
  ⟨(x :: s.items).take n, List.length_take_le n (x :: s.items)⟩

/-- A pop on the empty stack does nothing. -/
def pop (s : BoundedStack α n) : BoundedStack α n :=
  ⟨s.items.tail, by
    have h := s.bound
    rw [List.length_tail]
    omega⟩

def top (s : BoundedStack α n) : Option α := s.items.head?

/-- The cell `i` places below `tos` in a ring of `n` cells. -/
def below (n tos i : Nat) : Nat := if i ≤ tos then tos - i else tos + n - i

theorem below_inj {tos i j : Nat} (hi : i < n) (hj : j < n)
    (h : below n tos i = below n tos j) : i = j := by
  unfold below at h
  split at h <;> split at h <;> omega

/-- The ring holds the stack's entries downwards from `tos`. -/
structure Ring (cells : List α) (tos cnt : Nat) (s : BoundedStack α n) : Prop where
  length : cells.length = n
  tos_lt : tos < n
  count : cnt = s.items.length
  cell : ∀ i, i < s.items.length → cells[below n tos i]? = s.items[i]?

theorem ring_empty {cells : List α} (hl : cells.length = n) (hn : 0 < n) :
    Ring cells 0 0 (empty : BoundedStack α n) := by
  constructor
  · exact hl
  · exact hn
  · rfl
  · intro i hi
    exact absurd hi (Nat.not_lt_zero i)

variable {cells : List α} {tos cnt : Nat} {s : BoundedStack α n}

theorem Ring.top (h : Ring cells tos cnt s) (hc : 0 < cnt) : s.top = cells[tos]? := by
  have hi : 0 < s.items.length := by
    rw [← h.count]
    exact hc
  have hcell := h.cell 0 hi
  change s.items.head? = cells[tos]?
  rw [List.head?_eq_getElem?]
  exact hcell.symm

theorem Ring.push (h : Ring cells tos cnt s) (x : α) :
    Ring (cells.set ((tos + 1) % n) x) ((tos + 1) % n) (if cnt < n then cnt + 1 else cnt)
      (s.push x) := by
  have ht := h.tos_lt
  have hb := s.bound
  have hc := h.count
  have hn : 0 < n := by omega
  have htos : (tos + 1) % n < n := Nat.mod_lt _ hn
  have hnext : (tos + 1) % n = if tos + 1 < n then tos + 1 else 0 := by
    split
    · next hlt => exact Nat.mod_eq_of_lt hlt
    · next hge =>
      have heq : tos + 1 = n := by omega
      rw [heq]
      exact Nat.mod_self n
  have hlen : (s.push x).items.length = min n (s.items.length + 1) := by
    change ((x :: s.items).take n).length = _
    rw [List.length_take, List.length_cons]
  constructor
  · rw [List.length_set]
    exact h.length
  · exact htos
  · rw [hlen]
    split <;> omega
  · intro i hi
    rw [hlen] at hi
    have hin : i < n := by omega
    change _ = ((x :: s.items).take n)[i]?
    rw [List.getElem?_take_of_lt hin]
    cases i with
    | zero =>
      have hz : below n ((tos + 1) % n) 0 = (tos + 1) % n := by simp [below]
      rw [hz, List.getElem?_set_self (by rw [h.length]; exact htos)]
      rfl
    | succ i =>
      -- one further below the new top is as far below the old one
      have hshift : below n ((tos + 1) % n) (i + 1) = below n tos i := by
        rw [hnext]
        unfold below
        split <;> split <;> split <;> omega
      have hne : (tos + 1) % n ≠ below n ((tos + 1) % n) (i + 1) := by
        intro heq
        have hz : below n ((tos + 1) % n) 0 = (tos + 1) % n := by simp [below]
        have := below_inj hn hin (hz.trans heq)
        omega
      rw [List.getElem?_set_ne hne, hshift, h.cell i (by omega)]
      rfl

theorem Ring.pop (h : Ring cells tos cnt s) (hc : 0 < cnt) :
    Ring cells (if tos = 0 then n - 1 else tos - 1) (cnt - 1) s.pop := by
  have ht := h.tos_lt
  have hb := s.bound
  have hcnt := h.count
  have hlen : s.pop.items.length = s.items.length - 1 := List.length_tail
  constructor
  · exact h.length
  · split <;> omega
  · rw [hlen, hcnt]
  · intro i hi
    rw [hlen] at hi
    have hshift : below n (if tos = 0 then n - 1 else tos - 1) i = below n tos (i + 1) := by
      unfold below
      split <;> split <;> split <;> omega
    rw [hshift, h.cell (i + 1) (by omega)]
    change _ = s.items.tail[i]?
    rw [List.getElem?_tail]

end BoundedStack

end NpSim.Lib
