/- digest: The exclusive or of a list of bits, masks of low bits, and the residues of a range. -/

import Mathlib.Data.List.Basic
import Mathlib.Data.Nat.Bitwise

set_option autoImplicit false
set_option relaxedAutoImplicit false

namespace NpSim.Lib.Xor

def xorAll (l : List Bool) : Bool := l.foldr xor false

@[simp] theorem xorAll_nil : xorAll [] = false := rfl

@[simp] theorem xorAll_cons (x : Bool) (l : List Bool) : xorAll (x :: l) = (x ^^ xorAll l) := rfl

theorem xorAll_append (l l' : List Bool) : xorAll (l ++ l') = (xorAll l ^^ xorAll l') := by
  induction l with
  | nil => rw [List.nil_append, xorAll_nil, Bool.false_xor]
  | cons x l ih => rw [List.cons_append, xorAll_cons, xorAll_cons, ih, Bool.xor_assoc]

theorem xorAll_eq_false {l : List Bool} (h : ∀ x ∈ l, x = false) : xorAll l = false := by
  induction l with
  | nil => rfl
  | cons x l ih =>
    rw [xorAll_cons, h x List.mem_cons_self, Bool.false_xor]
    exact ih fun y hy => h y (List.mem_cons_of_mem x hy)

theorem filter_mod_range {b j : Nat} (hj : j < b) (n : Nat) :
    (List.range (b * n)).filter (· % b = j) = (List.range n).map fun k => j + b * k := by
  have hblock : ∀ k, ((List.range b).map (b * k + ·)).filter (· % b = j) = [b * k + j] := by
    intro k
    have hmod : (fun x => decide ((b * k + x) % b = j)) = fun x => decide (x % b = j) := by
      funext x
      rw [Nat.mul_add_mod]
    have hsingle : (List.range b).filter (fun x => decide (x % b = j)) = [j] := by
      have hsame : (List.range b).filter (fun x => decide (x % b = j)) =
          (List.range b).filter (· == j) := by
        refine List.filter_congr fun x hx => ?_
        rw [Nat.mod_eq_of_lt (List.mem_range.mp hx)]
        rfl
      rw [hsame, List.filter_beq, List.count_range, if_pos hj]
      rfl
    rw [List.filter_map]
    change (List.filter (fun x => decide ((b * k + x) % b = j)) (List.range b)).map _ = _
    rw [hmod, hsingle]
    rfl
  induction n with
  | zero => rfl
  | succ n ih =>
    rw [Nat.mul_succ, List.range_add, List.filter_append, ih, hblock, List.range_succ,
      List.map_append, List.map_singleton, Nat.add_comm j]

theorem toNat_mask {w n : Nat} (h : n < w) : ((1#w <<< n) - 1#w).toNat = 2 ^ n - 1 := by
  have hone : (1 : Nat) < 2 ^ w := Nat.one_lt_two_pow (by omega)
  have hlt : 2 ^ n < 2 ^ w := Nat.pow_lt_pow_right (by decide) h
  have hpos : 0 < 2 ^ n := Nat.two_pow_pos n
  rw [BitVec.toNat_sub, BitVec.toNat_shiftLeft, BitVec.toNat_ofNat, Nat.mod_eq_of_lt hone,
    Nat.shiftLeft_eq, Nat.one_mul, Nat.mod_eq_of_lt hlt,
    show 2 ^ w - 1 + 2 ^ n = 2 ^ n - 1 + 2 ^ w by omega, Nat.add_mod_right]
  exact Nat.mod_eq_of_lt (by omega)

theorem getLsbD_mask {w n : Nat} (h : n < w) (i : Nat) :
    ((1#w <<< n) - 1#w).getLsbD i = decide (i < n) := by
  rw [BitVec.getLsbD, toNat_mask h, Nat.testBit_two_pow_sub_one]

end NpSim.Lib.Xor
