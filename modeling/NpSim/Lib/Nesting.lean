/- digest: Well-nested pushes and pops on a bounded stack: what they leave of it. -/

import NpSim.Lib.BoundedStack
import Mathlib.Data.List.Infix
import Mathlib.Data.List.TakeDrop

set_option autoImplicit false
set_option relaxedAutoImplicit false

namespace NpSim.Lib.BoundedStack

universe u

variable {α : Type u} {n d : Nat} {l l' : List (Option α)}

def act (s : BoundedStack α n) : Option α → BoundedStack α n
  | some x => s.push x
  | none => s.pop

def run (s : BoundedStack α n) (l : List (Option α)) : BoundedStack α n := l.foldl act s

/-- Each push is matched by a later pop, and at most `d` are open at any time. -/
inductive Nested : Nat → List (Option α) → Prop
  | nil (d : Nat) : Nested d []
  | frame {d : Nat} {l l' : List (Option α)} (x : α) (h : Nested d l) (h' : Nested (d + 1) l') :
      Nested (d + 1) (some x :: (l ++ none :: l'))

theorem Nested.mono {e : Nat} (h : Nested d l) (he : d ≤ e) : Nested e l := by
  induction h generalizing e with
  | nil d => exact .nil e
  | frame x _ _ ih ih' =>
    obtain ⟨k, rfl⟩ := Nat.exists_eq_add_of_le' (Nat.succ_le_of_lt (Nat.lt_of_lt_of_le
      (Nat.succ_pos _) he))
    exact .frame x (ih (Nat.le_of_succ_le_succ he)) (ih' he)

theorem run_append (s : BoundedStack α n) (l l' : List (Option α)) :
    s.run (l ++ l') = (s.run l).run l' :=
  List.foldl_append

/-- Well-nested pushes and pops leave the stack, but for the entries that the deepest of them has
driven out at its bottom. -/
theorem Nested.run (h : Nested d l) (s : BoundedStack α n) :
    s.items.take (n - d) <+: (s.run l).items ∧ (s.run l).items <+: s.items := by
  induction h generalizing s with
  | nil d => exact ⟨List.take_prefix .., List.prefix_rfl⟩
  | @frame d l l' x _ _ ih ih' =>
    have hrun : s.run (some x :: (l ++ none :: l')) = (((s.push x).run l).pop).run l' := by
      change (s.push x).run (l ++ none :: l') = _
      rw [run_append]
      rfl
    rw [hrun]
    obtain ⟨hlow, hhigh⟩ := ih (s.push x)
    obtain ⟨hlow', hhigh'⟩ := ih' ((s.push x).run l).pop
    have hkept : s.items.take (n - (d + 1)) <+: ((s.push x).run l).pop.items := by
      have htail := List.IsPrefix.drop hlow 1
      rw [List.drop_one, List.drop_one] at htail
      change (((x :: s.items).take n).take (n - d)).tail <+: _ at htail
      rw [List.tail_take_eq_take_tail, List.tail_take_eq_take_tail, List.take_take,
        List.tail_cons] at htail
      have hmin : min (n - d - 1) (n - 1) = n - (d + 1) := by omega
      rw [hmin] at htail
      exact htail
    have hold : ((s.push x).run l).pop.items <+: s.items := by
      have htail := List.IsPrefix.drop (hhigh.trans (List.take_prefix n (x :: s.items))) 1
      rw [List.drop_one, List.drop_one] at htail
      exact htail
    constructor
    · have htake := List.IsPrefix.take hkept (n - (d + 1))
      rw [List.take_take, Nat.min_self] at htake
      exact htake.trans hlow'
    · exact hhigh'.trans hold

end NpSim.Lib.BoundedStack
