/- digest: In-order issue with bypass units: elements enter in order, slow ones leave through a unit
   of their own, and the log of departures stays ordered wherever two elements may conflict. -/

import Mathlib.Data.List.Pairwise
import Mathlib.Data.List.Perm.Basic

set_option autoImplicit false
set_option relaxedAutoImplicit false

namespace NpSim.Lib.Bypass

universe u

variable {α : Type u}

/-- The lane behind issue, the elements up to and including issue, the bypass units, the log of
departures, the element at issue, and the position of the next element to enter. -/
structure Lanes (α : Type u) where
  tail : List α
  front : List α
  units : List α
  log : List α
  head : Option α
  next : Nat

section

variable (pos : α → Nat) (slow : α → Prop) (clash : α → α → Prop)

/-- `x` precedes `y` unless `y` is slow, `x` is not, and they do not clash. -/
def Before (x y : α) : Prop := ¬slow y ∨ slow x ∨ clash x y → pos x < pos y

/-- The moves: an element enters, is checked at issue, is issued to the lane or to a unit, and
leaves the lane from its end or a unit while the lane is empty. -/
inductive Step (L : Lanes α) : Lanes α → Prop
  | stay : Step L L
  | enter (y : α) (h : pos y = L.next) :
      Step L { L with front := L.front ++ [y], next := L.next + 1 }
  | check (x : α) (hs : slow x → L.units = []) (hc : ∀ m ∈ L.units, ¬clash m x ∧ ¬clash x m) :
      Step L { L with head := some x }
  | issue (x : α) (rest : List α) (h : L.front = x :: rest) (hh : L.head = some x)
      (hs : ¬slow x) : Step L { L with tail := L.tail ++ [x], front := rest, head := none }
  | bypass (x : α) (rest units : List α) (h : L.front = x :: rest) (hh : L.head = some x)
      (hs : slow x) (hu : units.Perm (x :: L.units)) :
      Step L { L with units := units, front := rest, head := none }
  | leave (x : α) (rest : List α) (h : L.tail = x :: rest) :
      Step L { L with tail := rest, log := L.log ++ [x] }
  | leaveUnit (x : α) (units : List α) (h : L.tail = []) (hu : L.units.Perm (x :: units)) :
      Step L { L with units := units, log := L.log ++ [x] }

structure Ordered (L : Lanes α) : Prop where
  lane : (L.tail ++ L.front).Pairwise fun x y => pos x < pos y
  units_front : ∀ m ∈ L.units, ∀ y ∈ L.front, pos m < pos y
  tail_fast : ∀ x ∈ L.tail, ¬slow x
  units_slow : ∀ m ∈ L.units, slow m
  one : L.units.length ≤ 1
  head_slow : ∀ x, L.head = some x → slow x → L.units = []
  head_clash : ∀ x, L.head = some x → ∀ m ∈ L.units, ¬clash m x ∧ ¬clash x m
  tail_clash : ∀ m ∈ L.units, ∀ x ∈ L.tail, clash x m → pos x < pos m
  log : L.log.Pairwise (Before pos slow clash)
  log_held : ∀ x ∈ L.log, ∀ y ∈ L.tail ++ L.front ++ L.units, Before pos slow clash x y
  bound : ∀ y ∈ L.tail ++ L.front ++ L.units ++ L.log, pos y < L.next

end

variable {pos : α → Nat} {slow : α → Prop} {clash : α → α → Prop}

theorem ordered_nil : Ordered pos slow clash ⟨[], [], [], [], none, 0⟩ := by
  constructor <;> simp

private theorem lane_cons {L : Lanes α} (h : Ordered pos slow clash L) {x : α} {rest : List α}
    (hf : L.front = x :: rest) :
    (∀ y ∈ L.tail, pos y < pos x) ∧ (∀ y ∈ rest, pos x < pos y) ∧
      (L.tail ++ rest).Pairwise fun x y => pos x < pos y := by
  have hl := h.lane
  rw [hf, List.pairwise_append, List.pairwise_cons] at hl
  obtain ⟨ht, ⟨hx, hr⟩, hc⟩ := hl
  refine ⟨fun y hy => hc y hy x List.mem_cons_self, hx, ?_⟩
  rw [List.pairwise_append]
  exact ⟨ht, hr, fun y hy z hz => hc y hy z (List.mem_cons_of_mem x hz)⟩

namespace Ordered

variable {L : Lanes α}

private theorem log_concat (h : Ordered pos slow clash L) {x : α}
    (hx : x ∈ L.tail ++ L.front ++ L.units) :
    (L.log ++ [x]).Pairwise (Before pos slow clash) := by
  rw [List.pairwise_append]
  refine ⟨h.log, List.pairwise_singleton .., ?_⟩
  intro y hy z hz
  cases List.mem_singleton.mp hz
  exact h.log_held y hy x hx

theorem enter (h : Ordered pos slow clash L) {y : α} (hy : pos y = L.next) :
    Ordered pos slow clash { L with front := L.front ++ [y], next := L.next + 1 } := by
  have hb : ∀ x ∈ L.tail ++ L.front ++ L.units ++ L.log, pos x < pos y := fun x hx =>
    hy ▸ h.bound x hx
  refine { h with lane := ?_, units_front := ?_, log_held := ?_, bound := ?_ }
  · rw [← List.append_assoc, List.pairwise_append]
    refine ⟨h.lane, List.pairwise_singleton .., ?_⟩
    intro x hx z hz
    cases List.mem_singleton.mp hz
    exact hb x (by simp only [List.mem_append] at hx ⊢; tauto)
  · intro m hm z hz
    rcases List.mem_append.mp hz with hz | hz
    · exact h.units_front m hm z hz
    · cases List.mem_singleton.mp hz
      exact hb m (by simp [hm])
  · intro x hx z hz
    simp only [List.mem_append, List.mem_singleton] at hz
    by_cases he : z = y
    · subst he
      exact fun _ => hb x (by simp [hx])
    · exact h.log_held x hx z (by simp only [List.mem_append]; tauto)
  · intro z hz
    simp only [List.mem_append, List.mem_singleton] at hz
    by_cases he : z = y
    · subst he
      exact hy ▸ Nat.lt_succ_self _
    · exact Nat.lt_succ_of_lt (h.bound z (by simp only [List.mem_append]; tauto))

theorem issue (h : Ordered pos slow clash L) {x : α} {rest : List α} (hf : L.front = x :: rest)
    (hh : L.head = some x) (hs : ¬slow x) :
    Ordered pos slow clash { L with tail := L.tail ++ [x], front := rest, head := none } := by
  have hmem : ∀ y, y ∈ L.tail ++ [x] ++ rest → y ∈ L.tail ++ L.front := by
    intro y hy
    rw [hf]
    simpa using hy
  refine { h with lane := ?_, units_front := ?_, tail_fast := ?_, head_slow := ?_,
                  head_clash := ?_, tail_clash := ?_, log_held := ?_, bound := ?_ }
  · have := h.lane
    rw [hf] at this
    simpa using this
  · exact fun m hm y hy => h.units_front m hm y (hf ▸ List.mem_cons_of_mem x hy)
  · intro y hy
    rcases List.mem_append.mp hy with hy | hy
    · exact h.tail_fast y hy
    · cases List.mem_singleton.mp hy
      exact hs
  · exact fun y hy => nomatch hy
  · exact fun y hy => nomatch hy
  · intro m hm y hy hcl
    rcases List.mem_append.mp hy with hy | hy
    · exact h.tail_clash m hm y hy hcl
    · cases List.mem_singleton.mp hy
      exact absurd hcl (h.head_clash x hh m hm).2
  · intro y hy z hz
    refine h.log_held y hy z ?_
    rcases List.mem_append.mp hz with hz | hz
    · exact List.mem_append_left _ (hmem z hz)
    · exact List.mem_append_right _ hz
  · intro z hz
    refine h.bound z ?_
    have := hmem z
    simp only [List.mem_append, List.mem_singleton] at hz this ⊢
    tauto

theorem bypass (h : Ordered pos slow clash L) {x : α} {rest units : List α}
    (hf : L.front = x :: rest) (hh : L.head = some x) (hs : slow x)
    (hu : units.Perm (x :: L.units)) :
    Ordered pos slow clash { L with units := units, front := rest, head := none } := by
  obtain ⟨hx, hr, hl⟩ := lane_cons h hf
  have hnil : L.units = [] := h.head_slow x hh hs
  have hone : ∀ m, m ∈ units ↔ m = x := by
    intro m
    rw [hu.mem_iff, hnil, List.mem_singleton]
  refine { h with lane := hl, units_front := ?_, units_slow := ?_, one := ?_, head_slow := ?_,
                  head_clash := ?_, tail_clash := ?_, log_held := ?_, bound := ?_ }
  · intro m hm y hy
    rw [(hone m).mp hm]
    exact hr y hy
  · intro m hm
    rw [(hone m).mp hm]
    exact hs
  · rw [hu.length_eq, hnil]
    exact Nat.le_refl 1
  · exact fun y hy => nomatch hy
  · exact fun y hy => nomatch hy
  · intro m hm y hy _
    rw [(hone m).mp hm]
    exact hx y hy
  · intro y hy z hz
    refine h.log_held y hy z ?_
    rw [hf]
    simp only [List.mem_append, hone, List.mem_cons] at hz ⊢
    tauto
  · intro z hz
    refine h.bound z ?_
    rw [hf]
    simp only [List.mem_append, hone, List.mem_cons] at hz ⊢
    tauto

theorem leave (h : Ordered pos slow clash L) {x : α} {rest : List α} (ht : L.tail = x :: rest) :
    Ordered pos slow clash { L with tail := rest, log := L.log ++ [x] } := by
  have hl := h.lane
  rw [ht, List.cons_append, List.pairwise_cons] at hl
  have hfast := h.tail_fast x (ht ▸ List.mem_cons_self)
  have hbefore : ∀ y ∈ rest ++ L.front ++ L.units, Before pos slow clash x y := by
    intro y hy hcond
    rcases List.mem_append.mp hy with hy | hy
    · exact hl.1 y hy
    · rcases hcond with hc | hc | hc
      · exact absurd (h.units_slow y hy) hc
      · exact absurd hc hfast
      · exact h.tail_clash y hy x (ht ▸ List.mem_cons_self) hc
  have hsub : ∀ y, y ∈ rest → y ∈ L.tail := fun y hy => ht ▸ List.mem_cons_of_mem x hy
  refine { h with lane := hl.2, tail_fast := fun y hy => h.tail_fast y (hsub y hy)
                  tail_clash := fun m hm y hy => h.tail_clash m hm y (hsub y hy)
                  log := h.log_concat (by simp [ht]), log_held := ?_, bound := ?_ }
  · intro y hy z hz
    rcases List.mem_append.mp hy with hy | hy
    · refine h.log_held y hy z ?_
      have := hsub z
      simp only [List.mem_append] at hz ⊢
      tauto
    · cases List.mem_singleton.mp hy
      exact hbefore z hz
  · intro z hz
    refine h.bound z ?_
    rw [ht]
    simp only [List.mem_append, List.mem_cons] at hz ⊢
    tauto

theorem leaveUnit (h : Ordered pos slow clash L) {x : α} {units : List α} (ht : L.tail = [])
    (hu : L.units.Perm (x :: units)) :
    Ordered pos slow clash { L with units := units, log := L.log ++ [x] } := by
  have hnil : units = [] := by
    have := h.one
    rw [hu.length_eq, List.length_cons] at this
    exact List.eq_nil_of_length_eq_zero (by omega)
  subst hnil
  have hx : x ∈ L.units := hu.mem_iff.mpr List.mem_cons_self
  refine { h with units_front := fun m hm => absurd hm List.not_mem_nil
                  units_slow := fun m hm => absurd hm List.not_mem_nil, one := Nat.zero_le 1
                  head_slow := fun _ _ _ => rfl
                  head_clash := fun _ _ m hm => absurd hm List.not_mem_nil
                  tail_clash := fun m hm => absurd hm List.not_mem_nil
                  log := h.log_concat (by simp [hx]), log_held := ?_, bound := ?_ }
  · intro y hy z hz
    simp only [ht, List.nil_append, List.append_nil] at hz
    rcases List.mem_append.mp hy with hy | hy
    · exact h.log_held y hy z (by simp [hz])
    · cases List.mem_singleton.mp hy
      exact fun _ => h.units_front x hx z hz
  · intro z hz
    refine h.bound z ?_
    by_cases he : z = x
    · subst he
      simp [hx]
    · simp only [List.mem_append, List.mem_singleton, List.not_mem_nil] at hz ⊢
      tauto

end Ordered

/-- Every move keeps the order. -/
theorem Step.ordered {L M : Lanes α} (hm : Step pos slow clash L M)
    (h : Ordered pos slow clash L) : Ordered pos slow clash M := by
  cases hm with
  | stay => exact h
  | enter y hy => exact h.enter hy
  | check x hs hc =>
    refine { h with head_slow := ?_, head_clash := ?_ }
    · intro z hz
      cases hz
      exact hs
    · intro z hz
      cases hz
      exact hc
  | issue x rest hf hh hs => exact h.issue hf hh hs
  | bypass x rest units hf hh hs hu => exact h.bypass hf hh hs hu
  | leave x rest ht => exact h.leave ht
  | leaveUnit x units ht hu => exact h.leaveUnit ht hu

end NpSim.Lib.Bypass
