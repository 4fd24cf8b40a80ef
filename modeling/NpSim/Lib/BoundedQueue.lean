/- digest: First-in first-out queues of bounded length, and the ring of cells that holds one at any
   rotation. -/

import Mathlib.Data.List.Basic
import Mathlib.Data.Nat.ModEq

set_option autoImplicit false
set_option relaxedAutoImplicit false

namespace NpSim.Lib

universe u

variable {α : Type u} {n : Nat}

/-- At most `n` entries, the oldest first. -/
structure BoundedQueue (α : Type u) (n : Nat) where
  items : List α
  bound : items.length ≤ n

namespace BoundedQueue

def empty : BoundedQueue α n := ⟨[], Nat.zero_le n⟩

def push (x : α) (q : BoundedQueue α n) (h : q.items.length < n) : BoundedQueue α n :=
  ⟨q.items ++ [x], by
    rw [List.length_append, List.length_singleton]
    exact h⟩

/-- A pop on the empty queue does nothing. -/
def pop (q : BoundedQueue α n) : BoundedQueue α n :=
  ⟨q.items.tail, by
    have h := q.bound
    rw [List.length_tail]
    omega⟩

def amend (i : Nat) (f : α → α) (q : BoundedQueue α n) : BoundedQueue α n :=
  ⟨q.items.modify i f, by
    rw [List.length_modify]
    exact q.bound⟩

/-- The cell `i` places behind `head` in a ring of `n` cells. -/
def behind (n head i : Nat) : Nat := (head + i) % n

theorem behind_lt {head : Nat} (hn : 0 < n) (i : Nat) : behind n head i < n := Nat.mod_lt _ hn

theorem behind_zero {head : Nat} (h : head < n) : behind n head 0 = head := Nat.mod_eq_of_lt h

theorem behind_inj {head i j : Nat} (hi : i < n) (hj : j < n)
    (h : behind n head i = behind n head j) : i = j := by
  have hmod : i ≡ j [MOD n] := Nat.ModEq.add_left_cancel' head h
  exact hmod.eq_of_lt_of_lt hi hj

theorem behind_next (head i : Nat) : behind n ((head + 1) % n) i = behind n head (i + 1) := by
  unfold behind
  rw [Nat.mod_add_mod, Nat.add_assoc, Nat.add_comm 1 i]

/-- Each cell is behind the head somewhere. -/
theorem exists_behind {head j : Nat} (h : head < n) (hj : j < n) :
    ∃ i < n, behind n head i = j := by
  have hn : 0 < n := by omega
  refine ⟨(j + n - head) % n, Nat.mod_lt _ hn, ?_⟩
  unfold behind
  rw [Nat.add_mod_mod, show head + (j + n - head) = j + n by omega, Nat.add_mod_right]
  exact Nat.mod_eq_of_lt hj

/-- The ring holds the queue's entries from `head` on; its other cells are empty, and `tail` is the
first place behind the entries. -/
structure Ring (cells : List (Option α)) (head tail cnt : Nat) (q : BoundedQueue α n) : Prop where
  length : cells.length = n
  head_lt : head < n
  tail : tail = behind n head cnt
  count : cnt = q.items.length
  cell : ∀ i, i < n → cells[behind n head i]? = some q.items[i]?

theorem ring_empty (hn : 0 < n) :
    Ring (List.replicate n none) 0 0 0 (empty : BoundedQueue α n) := by
  constructor
  · exact List.length_replicate
  · exact hn
  · exact (behind_zero hn).symm
  · rfl
  · intro i _
    rw [List.getElem?_replicate, if_pos (behind_lt hn i)]
    rfl

variable {cells : List (Option α)} {head tail cnt : Nat} {q : BoundedQueue α n}

private theorem cell_set_ne {i j : Nat} (hi : i < n) (hj : j < n) (hne : i ≠ j) (p : Option α) :
    (cells.set (behind n head i) p)[behind n head j]? = cells[behind n head j]? := by
  apply List.getElem?_set_ne
  intro h
  exact hne (behind_inj hi hj h)

private theorem Ring.cell_set_self (h : Ring cells head tail cnt q) (i : Nat) (p : Option α) :
    (cells.set (behind n head i) p)[behind n head i]? = some p := by
  have hn : 0 < n := Nat.lt_of_le_of_lt (Nat.zero_le head) h.head_lt
  apply List.getElem?_set_self
  rw [h.length]
  exact behind_lt hn i

theorem Ring.push (h : Ring cells head tail cnt q) (x : α) (hroom : q.items.length < n) :
    Ring (cells.set tail (some x)) head ((tail + 1) % n) (cnt + 1) (q.push x hroom) := by
  have hcnt := h.count
  have hlt : cnt < n := by omega
  constructor
  · rw [List.length_set]
    exact h.length
  · exact h.head_lt
  · rw [h.tail]
    unfold behind
    rw [Nat.mod_add_mod, Nat.add_assoc]
  · change cnt + 1 = (q.items ++ [x]).length
    rw [List.length_append, List.length_singleton, hcnt]
  · intro i hi
    change _ = some (q.items ++ [x])[i]?
    rw [h.tail]
    rcases Nat.lt_trichotomy i cnt with hold | hnew | hfree
    · rw [cell_set_ne hlt hi (by omega), h.cell i hi, List.getElem?_append_left (by omega)]
    · rw [hnew, h.cell_set_self, hcnt, List.getElem?_concat_length]
    · rw [cell_set_ne hlt hi (by omega), h.cell i hi, List.getElem?_eq_none (by omega),
        List.getElem?_eq_none]
      rw [List.length_append, List.length_singleton]
      omega

theorem Ring.pop (h : Ring cells head tail cnt q) (hc : 0 < cnt) :
    Ring (cells.set head none) ((head + 1) % n) tail (cnt - 1) q.pop := by
  have hcnt := h.count
  have hbound := q.bound
  have hn : 0 < n := by omega
  have hhead := behind_zero h.head_lt
  constructor
  · rw [List.length_set]
    exact h.length
  · exact Nat.mod_lt _ hn
  · rw [behind_next, Nat.sub_add_cancel hc]
    exact h.tail
  · change cnt - 1 = q.items.tail.length
    rw [List.length_tail, hcnt]
  · intro i hi
    change _ = some q.items.tail[i]?
    rw [behind_next, List.getElem?_tail]
    rcases Nat.lt_or_ge (i + 1) n with hlt | hge
    · have hset : (cells.set (behind n head 0) none)[behind n head (i + 1)]? =
          cells[behind n head (i + 1)]? := cell_set_ne hn hlt (by omega) none
      rw [hhead] at hset
      rw [hset, h.cell (i + 1) hlt]
    · -- the cell that the head has left comes last
      have hlast : behind n head (i + 1) = behind n head 0 := by
        unfold behind
        rw [show i + 1 = n by omega, Nat.add_mod_right, Nat.add_zero]
      have hset := h.cell_set_self 0 none
      rw [hhead] at hset
      rw [hlast, hhead, hset, List.getElem?_eq_none (by omega)]

theorem Ring.amend (h : Ring cells head tail cnt q) {i : Nat} {x : α} (hx : q.items[i]? = some x)
    (f : α → α) : Ring (cells.set (behind n head i) (some (f x))) head tail cnt (q.amend i f) := by
  have hcnt := h.count
  have hbound := q.bound
  have hi : i < n := by
    have := (List.getElem?_eq_some_iff.mp hx).1
    omega
  constructor
  · rw [List.length_set]
    exact h.length
  · exact h.head_lt
  · exact h.tail
  · change cnt = (q.items.modify i f).length
    rw [List.length_modify, hcnt]
  · intro j hj
    change _ = some (q.items.modify i f)[j]?
    by_cases hij : i = j
    · subst hij
      rw [h.cell_set_self, List.getElem?_modify_eq, hx]
      rfl
    · rw [cell_set_ne hi hj hij, h.cell j hj, List.getElem?_modify_ne _ _ hij]

theorem Ring.clear_cell (h : Ring cells head tail cnt q) (k : Nat) (hk : k ≤ n) :
    ((List.range k).foldl (fun l i => l.set (behind n head i) none) cells).length = n ∧
      ∀ i, i < n → ((List.range k).foldl (fun l i => l.set (behind n head i) none)
        cells)[behind n head i]? = some (if i < k then none else q.items[i]?) := by
  induction k with
  | zero => exact ⟨h.length, fun i hi => h.cell i hi⟩
  | succ k ih =>
    obtain ⟨hlen, hcell⟩ := ih (by omega)
    have hn : 0 < n := by omega
    rw [List.range_succ, List.foldl_append, List.foldl_cons, List.foldl_nil]
    constructor
    · rw [List.length_set]
      exact hlen
    · intro i hi
      by_cases hik : k = i
      · subst hik
        rw [List.getElem?_set_self (by rw [hlen]; exact behind_lt hn k), if_pos (by omega)]
      · rw [cell_set_ne hk hi hik, hcell i hi]
        congr 1
        split <;> split <;> first | rfl | omega

/-- When the cells of all entries are emptied, every cell is empty. -/
theorem Ring.clear (h : Ring cells head tail cnt q) :
    (List.range cnt).foldl (fun l i => l.set (behind n head i) none) cells =
      List.replicate n none := by
  have hcnt := h.count
  have hbound := q.bound
  obtain ⟨hlen, hcell⟩ := h.clear_cell cnt (by omega)
  apply List.ext_getElem?
  intro j
  rw [List.getElem?_replicate]
  split
  · rename_i hj
    obtain ⟨i, hi, rfl⟩ := exists_behind h.head_lt hj
    rw [hcell i hi]
    split
    · rfl
    · rw [List.getElem?_eq_none (by omega)]
  · exact List.getElem?_eq_none (by omega)

/-- A scan of the readings of all positions finds the oldest entry that passes. -/
theorem find_range (p : Option α → Bool) {l : List α} {g : Nat → Option α}
    (hg : ∀ i, i < l.length → g i = l[i]?) :
    (List.range l.length).find? (fun i => p (g i)) = l.findIdx? fun x => p (some x) := by
  induction l generalizing g with
  | nil => rfl
  | cons x l ih =>
    have hzero : g 0 = some x := hg 0 (Nat.zero_lt_succ _)
    have hsucc : ∀ i, i < l.length → g (i + 1) = l[i]? := fun i hi =>
      hg (i + 1) (Nat.succ_lt_succ hi)
    rw [List.length_cons, List.range_succ_eq_map, List.find?_cons, List.findIdx?_cons, hzero,
      List.find?_map]
    cases p (some x) with
    | true => rfl
    | false => exact congrArg (Option.map Nat.succ) (ih hsucc)

theorem countP_range (p : Option α → Bool) {l : List α} {g : Nat → Option α}
    (hg : ∀ i, i < l.length → g i = l[i]?) :
    (List.range l.length).countP (fun i => p (g i)) = l.countP fun x => p (some x) := by
  induction l generalizing g with
  | nil => rfl
  | cons x l ih =>
    have hzero : g 0 = some x := hg 0 (Nat.zero_lt_succ _)
    have hsucc : ∀ i, i < l.length → g (i + 1) = l[i]? := fun i hi =>
      hg (i + 1) (Nat.succ_lt_succ hi)
    rw [List.length_cons, List.range_succ_eq_map, List.countP_cons, List.countP_cons, hzero,
      List.countP_map, ← ih hsucc]
    rfl

end BoundedQueue

end NpSim.Lib
