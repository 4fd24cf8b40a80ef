/- digest: Trees of pointers that follow a sequence of touches, and how old the place is that they
   point away to. -/

import Mathlib.Data.List.Basic
import Mathlib.Data.List.Nodup

set_option autoImplicit false
set_option relaxedAutoImplicit false

namespace NpSim.Lib

universe u v

variable {α : Type u} {β : Type v}

/-- In a history, newest first, `x` occurs after the last occurrence of `y`. -/
def Newer (l : List α) (x y : α) : Prop := ∃ pre post, l = pre ++ x :: post ∧ y ∉ pre ∧ y ≠ x

theorem Newer.mem {l : List α} {x y : α} (h : Newer l x y) : x ∈ l := by
  obtain ⟨pre, post, rfl, _⟩ := h
  exact List.mem_append_right pre List.mem_cons_self

theorem Newer.of_filterMap {f : α → Option β} {l : List α} {a b : β}
    (h : Newer (l.filterMap f) a b) : ∃ x, f x = some a ∧ ∀ y, f y = some b → Newer l x y := by
  obtain ⟨pre, post, hl, hpre, hne⟩ := h
  obtain ⟨l₁, l₂, rfl, h₁, h₂⟩ := List.filterMap_eq_append_iff.mp hl
  obtain ⟨m, x, m', rfl, hm, hx, _⟩ := List.filterMap_eq_cons_iff.mp h₂
  refine ⟨x, hx, fun y hy => ⟨l₁ ++ m, m', ?_, ?_, ?_⟩⟩
  · rw [List.append_assoc]
  · intro hmem
    rcases List.mem_append.mp hmem with hmem | hmem
    · exact hpre (h₁ ▸ List.mem_filterMap.mpr ⟨y, hmem, hy⟩)
    · have hnone := hm y hmem
      rw [hy] at hnone
      cases hnone
  · rintro rfl
    exact hne (Option.some.inj (hy.symm.trans hx))

/-- A binary tree each of whose nodes keeps a side. -/
inductive PointerTree
  | leaf
  | node (side : Bool) (child : Bool → PointerTree)

namespace PointerTree

/-- The path leads from the root to a leaf. -/
def Path : PointerTree → List Bool → Prop
  | leaf, w => w = []
  | node _ _, [] => False
  | node _ child, c :: w => (child c).Path w

/-- Each node of the path is set to the side that the path takes. -/
def touch : PointerTree → List Bool → PointerTree
  | leaf, _ => leaf
  | node side child, [] => node side child
  | node _ child, c :: w => node c fun b => if b = c then (child b).touch w else child b

/-- The leaf on the other side at every node. -/
def away : PointerTree → List Bool
  | leaf => []
  | node side child => (!side) :: (child !side).away

def under (c : Bool) : List Bool → Option (List Bool)
  | [] => none
  | b :: w => if b = c then some w else none

theorem under_eq_some {c : Bool} {x w : List Bool} : under c x = some w ↔ x = c :: w := by
  cases x with
  | nil =>
    constructor
    · intro h
      cases h
    · intro h
      cases h
  | cons b x =>
    change (if b = c then some x else none) = some w ↔ _
    by_cases hb : b = c
    · rw [if_pos hb, hb, Option.some_inj, List.cons.injEq]
      exact ⟨fun h => ⟨rfl, h⟩, fun h => h.2⟩
    · rw [if_neg hb, List.cons.injEq]
      constructor
      · intro h
        cases h
      · intro h
        exact absurd h.1 hb

theorem under_cons_ne {b c : Bool} (h : c ≠ b) (w : List Bool) : under b (c :: w) = none := if_neg h

/-- Each node that was touched keeps the side of its newest touch. -/
def Follows : PointerTree → List (List Bool) → Prop
  | leaf, _ => True
  | node side child, h =>
    (∀ w, h.head? = some w → w.head? = some side) ∧ ∀ c, (child c).Follows (h.filterMap (under c))

theorem follows_nil (t : PointerTree) : t.Follows [] := by
  induction t with
  | leaf => trivial
  | node side child ih =>
    refine ⟨fun w hw => ?_, fun c => ih c⟩
    cases hw

theorem Follows.touch {t : PointerTree} {h : List (List Bool)} (hf : t.Follows h) {w : List Bool}
    (hw : t.Path w) : (t.touch w).Follows (w :: h) := by
  induction t generalizing h w with
  | leaf => trivial
  | node side child ih =>
    cases w with
    | nil => exact hw.elim
    | cons c w =>
      refine ⟨fun v hv => ?_, fun b => ?_⟩
      · cases hv
        rfl
      · change (if b = c then (child b).touch w else child b).Follows _
        by_cases hb : b = c
        · subst hb
          rw [if_pos rfl, List.filterMap_cons_some (under_eq_some.mpr rfl)]
          exact ih b (hf.2 b) hw
        · rw [if_neg hb, List.filterMap_cons_none (under_cons_ne (Ne.symm hb) w)]
          exact hf.2 b

theorem path_away (t : PointerTree) : t.Path t.away := by
  induction t with
  | leaf => rfl
  | node side child ih => exact ih !side

/-- When every leaf has been touched, as many leaves as the path has nodes have been touched since
the one that the tree points away to. -/
theorem Follows.away_old {t : PointerTree} {h : List (List Bool)} (hf : t.Follows h)
    (hall : ∀ w, t.Path w → w ∈ h) :
    ∃ ws : List (List Bool), ws.length = t.away.length ∧ ws.Nodup ∧ ∀ w ∈ ws, Newer h w t.away := by
  induction t generalizing h with
  | leaf => exact ⟨[], rfl, List.nodup_nil, fun w hw => absurd hw List.not_mem_nil⟩
  | node side child ih =>
    -- the newest touch went to the side kept at the root
    obtain ⟨w, h', hh⟩ : ∃ w h', h = w :: h' := by
      have hmem := hall _ (path_away (node side child))
      cases h with
      | nil => cases hmem
      | cons w h' => exact ⟨w, h', rfl⟩
    have hside : w.head? = some side := hf.1 w (by rw [hh]; rfl)
    have hall' : ∀ v, (child !side).Path v → v ∈ h.filterMap (under !side) := fun v hv =>
      List.mem_filterMap.mpr ⟨(!side) :: v, hall _ hv, under_eq_some.mpr rfl⟩
    obtain ⟨ws, hlen, hnodup, hnewer⟩ := ih (!side) (hf.2 !side) hall'
    have hne : ∀ v : List Bool, w ≠ (!side) :: v := by
      rintro v rfl
      rw [List.head?_cons] at hside
      cases side <;> cases hside
    refine ⟨w :: ws.map ((!side) :: ·), ?_, ?_, ?_⟩
    · change (ws.map _).length + 1 = (child !side).away.length + 1
      rw [List.length_map, hlen]
    · rw [List.nodup_cons]
      constructor
      · intro hmem
        obtain ⟨v, _, hv⟩ := List.mem_map.mp hmem
        exact hne v hv.symm
      · exact hnodup.map (List.cons_injective)
    · intro v hv
      rcases List.mem_cons.mp hv with rfl | hv
      · exact ⟨[], h', hh, List.not_mem_nil, fun heq => hne _ heq.symm⟩
      · obtain ⟨v', hmem, rfl⟩ := List.mem_map.mp hv
        obtain ⟨x, hx, hlast⟩ := (hnewer v' hmem).of_filterMap
        rw [← under_eq_some.mp hx]
        exact hlast _ (under_eq_some.mpr rfl)

end PointerTree

end NpSim.Lib
