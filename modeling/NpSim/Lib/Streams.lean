/- digest: Lists read as streams: the part up to the first marker, numbers as bytes, and the cut
   into whole records of one size. -/

import Mathlib.Data.List.Basic
import Mathlib.Tactic.Ring

set_option autoImplicit false
set_option relaxedAutoImplicit false

namespace NpSim.Lib

variable {α β : Type*}

/-- The list up to its first element with `p`, that element included. -/
def takeThrough (p : α → Bool) : List α → List α
  | [] => []
  | x :: xs => if p x then [x] else x :: takeThrough p xs

theorem takeThrough_cons (p : α → Bool) (x : α) (xs : List α) :
    takeThrough p (x :: xs) = x :: (if p x then [] else takeThrough p xs) := by
  rw [takeThrough]
  split <;> rfl

theorem takeThrough_initial (p : α → Bool) (l : List α) : takeThrough p l <+: l := by
  induction l with
  | nil => exact List.prefix_rfl
  | cons x xs ih =>
    rw [takeThrough_cons]
    apply List.prefix_cons_inj x |>.mpr
    split
    · exact List.nil_prefix
    · exact ih

/-- The `w` bytes of `n`, the lowest first. -/
def toBytes : Nat → Nat → List UInt8
  | 0, _ => []
  | w + 1, n => UInt8.ofNat n :: toBytes w (n / 256)

/-- The number that a list of bytes stands for, the lowest first. -/
def ofBytes : List UInt8 → Nat
  | [] => 0
  | b :: bs => b.toNat + 256 * ofBytes bs

@[simp] theorem length_toBytes (w n : Nat) : (toBytes w n).length = w := by
  induction w generalizing n with
  | zero => rfl
  | succ w ih => rw [toBytes, List.length_cons, ih]

theorem ofBytes_toBytes {w n : Nat} (h : n < 256 ^ w) : ofBytes (toBytes w n) = n := by
  induction w generalizing n with
  | zero =>
    rw [pow_zero, Nat.lt_one_iff] at h
    rw [h]
    rfl
  | succ w ih =>
    have hdiv : n / 256 < 256 ^ w := by
      rw [pow_succ] at h
      exact Nat.div_lt_of_lt_mul (by rwa [mul_comm])
    rw [toBytes, ofBytes, ih hdiv, UInt8.toNat_ofNat', Nat.mod_add_div]

theorem ofBytes_lt (l : List UInt8) : ofBytes l < 256 ^ l.length := by
  induction l with
  | nil => exact Nat.one_pos
  | cons b bs ih =>
    have hb : b.toNat < 256 := b.toNat_lt
    rw [ofBytes, List.length_cons, pow_succ]
    omega

theorem toBytes_ofBytes (l : List UInt8) : toBytes l.length (ofBytes l) = l := by
  induction l with
  | nil => rfl
  | cons b bs ih =>
    have hb : b.toNat < 256 := b.toNat_lt
    have hdiv : (b.toNat + 256 * ofBytes bs) / 256 = ofBytes bs := by omega
    rw [List.length_cons, ofBytes, toBytes, hdiv, ih]
    congr 1
    apply UInt8.toNat_inj.mp
    rw [UInt8.toNat_ofNat']
    omega

end NpSim.Lib
