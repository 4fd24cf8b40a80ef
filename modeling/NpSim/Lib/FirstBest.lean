/- digest: The search of a list for its first best element, which keeps the position and the key of
   the best one so far. -/

import Mathlib.Data.List.Induction

set_option autoImplicit false
set_option relaxedAutoImplicit false

namespace NpSim.Lib.FirstBest

universe u v

variable {α : Type u} {κ : Type v} (key : α → κ) (better : κ → κ → Prop) [DecidableRel better]

/-- One step of the search: the position and the key of the best element, and the next position. -/
def scan (acc : Nat × κ × Nat) (x : α) : Nat × κ × Nat :=
  if better (key x) acc.2.1 then (acc.2.2, key x, acc.2.2 + 1)
  else (acc.1, acc.2.1, acc.2.2 + 1)

variable {key better}

theorem next_foldl (l : List α) (acc : Nat × κ × Nat) :
    (l.foldl (scan key better) acc).2.2 = acc.2.2 + l.length := by
  induction l generalizing acc with
  | nil => rfl
  | cons x l ih =>
    have hstep : (scan key better acc x).2.2 = acc.2.2 + 1 := by
      unfold scan
      split <;> rfl
    rw [List.foldl_cons, ih, hstep, List.length_cons]
    omega

/-- The search over `l`, after `pre` has been searched: the position of an element that no other one
beats and that beats all before it. -/
structure Best (key : α → κ) (better : κ → κ → Prop) (l : List α) (i : Nat) (k : κ) : Prop where
  found : ∃ h : i < l.length, key (l.get ⟨i, h⟩) = k
  unbeaten : ∀ x ∈ l, ¬better (key x) k
  first : ∀ j (h : j < l.length), j < i → better k (key (l.get ⟨j, h⟩))

theorem Best.scan_last {l : List α} {acc : Nat × κ × Nat} (h : Best key better l acc.1 acc.2.1)
    (hn : acc.2.2 = l.length) (irrefl : ∀ a, ¬better a a)
    (trans : ∀ {a b c}, better a b → better b c → better a c)
    (weak : ∀ {a b c}, better a b → ¬better c b → better a c) (x : α) :
    Best key better (l ++ [x]) (scan key better acc x).1 (scan key better acc x).2.1 := by
  obtain ⟨hlt, hkey⟩ := h.found
  have hleft : ∀ j (hj : j < l.length) (hj' : j < (l ++ [x]).length),
      (l ++ [x]).get ⟨j, hj'⟩ = l.get ⟨j, hj⟩ := fun j hj hj' => List.getElem_append_left hj
  have hlen : (l ++ [x]).length = l.length + 1 := List.length_append
  unfold scan
  split
  · rename_i hb
    refine ⟨⟨by omega, ?_⟩, fun y hy => ?_, fun j hj hji => ?_⟩
    · dsimp only
      rw [show (l ++ [x]).get ⟨acc.2.2, by omega⟩ = x by
        simp only [List.get_eq_getElem, hn, List.getElem_append_right (Nat.le_refl _), Nat.sub_self,
          List.getElem_cons_zero]]
    · dsimp only
      rcases List.mem_append.mp hy with hy | hy
      · intro hyx
        exact h.unbeaten y hy (trans hyx hb)
      · rw [List.mem_singleton.mp hy]
        exact irrefl _
    · dsimp only at hji ⊢
      have hj' : j < l.length := by omega
      rw [hleft j hj' hj]
      exact weak hb (h.unbeaten _ (List.get_mem l ⟨j, hj'⟩))
  · rename_i hb
    refine ⟨⟨by omega, ?_⟩, fun y hy => ?_, fun j hj hji => ?_⟩
    · rw [hleft acc.1 hlt (by omega)]
      exact hkey
    · rcases List.mem_append.mp hy with hy | hy
      · exact h.unbeaten y hy
      · rw [List.mem_singleton.mp hy]
        exact hb
    · have hj' : j < l.length := by
        dsimp only at hji
        omega
      rw [hleft j hj' hj]
      exact h.first j hj' hji

theorem best_foldl (irrefl : ∀ a, ¬better a a)
    (trans : ∀ {a b c}, better a b → better b c → better a c)
    (weak : ∀ {a b c}, better a b → ¬better c b → better a c) (x : α) (l : List α) :
    Best key better (x :: l) (l.foldl (scan key better) (0, key x, 1)).1
      (l.foldl (scan key better) (0, key x, 1)).2.1 := by
  induction l using List.reverseRecOn with
  | nil =>
    refine ⟨⟨Nat.zero_lt_one, rfl⟩, fun y hy => ?_, fun j _ hj => absurd hj (Nat.not_lt_zero j)⟩
    rw [List.mem_singleton.mp hy]
    exact irrefl _
  | append_singleton l y ih =>
    rw [List.foldl_append, List.foldl_cons, List.foldl_nil, ← List.cons_append]
    refine ih.scan_last ?_ irrefl trans weak y
    rw [next_foldl, List.length_cons]
    exact Nat.add_comm 1 l.length

end NpSim.Lib.FirstBest
