/- digest: The bytes of a word, words put together from two under a mask, and the last write of a
   sequence. -/

import Mathlib.Logic.Basic
import Mathlib.Order.Basic

set_option autoImplicit false
set_option relaxedAutoImplicit false

namespace NpSim.Lib.Lanes

universe u v w

def lane (i : Nat) (w : BitVec 32) : BitVec 8 := w.extractLsb' (8 * i) 8

theorem ext_lanes {v w : BitVec 32} (h : ∀ i < 4, lane i v = lane i w) : v = w := by
  apply BitVec.eq_of_getLsbD_eq
  intro k hk
  have hbit := congrArg (fun b : BitVec 8 => b.getLsbD (k % 8)) (h (k / 8) (by omega))
  have hlt : k % 8 < 8 := Nat.mod_lt k (by decide)
  have hsplit : 8 * (k / 8) + k % 8 = k := Nat.div_add_mod k 8
  simp only [lane, BitVec.getLsbD_extractLsb', hlt, hsplit, decide_true, Bool.true_and] at hbit
  exact hbit

/-- `w` with the bits of `d` where `mask` is set. -/
def select (mask w d : BitVec 32) : BitVec 32 := (~~~mask &&& w) ||| (mask &&& d)

private theorem lane_op {i : Nat} {mask w d : BitVec 32} : lane i (select mask w d) =
    (~~~(lane i mask) &&& lane i w) ||| (lane i mask &&& lane i d) := by
  apply BitVec.eq_of_getLsbD_eq
  intro k hk
  simp only [select, lane, BitVec.getLsbD_extractLsb', BitVec.getLsbD_or, BitVec.getLsbD_and,
    BitVec.getLsbD_not, hk, decide_true, Bool.true_and]
  by_cases hi : 8 * i + k < 32
  · simp only [hi, decide_true, Bool.true_and]
  · have hout : ∀ x : BitVec 32, x.getLsbD (8 * i + k) = false :=
      fun x => BitVec.getLsbD_of_ge x _ (Nat.not_lt.mp hi)
    simp only [hout, Bool.and_false, Bool.or_false]

theorem lane_select_ones {i : Nat} {mask : BitVec 32} (h : lane i mask = BitVec.allOnes 8)
    (w d : BitVec 32) : lane i (select mask w d) = lane i d := by
  rw [lane_op, h, BitVec.not_allOnes, BitVec.zero_and, BitVec.zero_or, BitVec.allOnes_and]

theorem lane_select_zero {i : Nat} {mask : BitVec 32} (h : lane i mask = 0#8) (w d : BitVec 32) :
    lane i (select mask w d) = lane i w := by
  rw [lane_op, h, show ~~~0#8 = BitVec.allOnes 8 from rfl, BitVec.allOnes_and,
    BitVec.zero_and, BitVec.or_zero]

/-- What the last step that sets a component of the state sets it to. -/
theorem get_foldl {σ : Type u} {ε : Type v} {β : Type w} {get : σ → β} {step : σ → ε → σ}
    {sets : ε → Option β} (h : ∀ s e, get (step s e) = (sets e).getD (get s)) (s : σ)
    (l : List ε) : get (l.foldl step s) = (l.reverse.findSome? sets).getD (get s) := by
  induction l generalizing s with
  | nil => rfl
  | cons e l ih =>
    rw [List.foldl_cons, ih, h, List.reverse_cons, List.findSome?_append]
    cases l.reverse.findSome? sets with
    | some b => rfl
    | none =>
      rw [Option.none_or]
      cases he : sets e with
      | none => rw [List.findSome?_cons, he]; rfl
      | some b => rw [List.findSome?_cons, he]; rfl

end NpSim.Lib.Lanes
