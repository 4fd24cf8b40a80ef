/- digest: Two partial computations side by side: both stop at the same error, or their results are
   related. -/

import NpSim.Lib.Partial

set_option autoImplicit false
set_option relaxedAutoImplicit false

namespace NpSim.Lib.Pairs

open NpSim.Lib.Partial

universe u v

variable {ε : Type u} {α β γ δ σ τ : Type v}

theorem rel_ite {R : α → β → Prop} {p : Prop} [Decidable p] {x x' : α} {y y' : β} (h : R x y)
    (h' : R x' y') : R (if p then x else x') (if p then y else y') := by
  by_cases hp : p
  · rw [if_pos hp, if_pos hp]
    exact h
  · rw [if_neg hp, if_neg hp]
    exact h'

/-- The computations stop at one error, or have results related by `R`. -/
def Both (R : α → β → Prop) : Except ε α → Except ε β → Prop
  | .ok a, .ok b => R a b
  | .error e, .error f => e = f
  | .ok _, .error _ => False
  | .error _, .ok _ => False

namespace Both

variable {R : α → β → Prop} {x : Except ε α} {y : Except ε β}

theorem refl {R : α → α → Prop} (hR : ∀ a, R a a) (x : Except ε α) : Both R x x := by
  cases x with
  | error e => exact rfl
  | ok a => exact hR a

theorem trans {Q : β → γ → Prop} {T : α → γ → Prop} {z : Except ε γ} (h : Both R x y)
    (h' : Both Q y z) (hT : ∀ a b c, R a b → Q b c → T a c) : Both T x z := by
  cases y with
  | error e =>
    cases x with
    | ok a => exact h.elim
    | error e' =>
      cases z with
      | ok c => exact h'.elim
      | error e'' => exact Eq.trans h h'
  | ok b =>
    cases x with
    | error e' => exact h.elim
    | ok a =>
      cases z with
      | error e' => exact h'.elim
      | ok c => exact hT a b c h h'

theorem bind_of {Q : γ → δ → Prop} {f : α → Except ε γ} {g : β → Except ε δ} (h : Both R x y)
    (hf : ∀ a b, x = .ok a → R a b → Both Q (f a) (g b)) : Both Q (x >>= f) (y >>= g) := by
  cases x with
  | error e =>
    cases y with
    | error e' => exact h
    | ok b => exact h.elim
  | ok a =>
    cases y with
    | error e' => exact h.elim
    | ok b => exact hf a b rfl h

theorem bind {Q : γ → δ → Prop} {f : α → Except ε γ} {g : β → Except ε δ} (h : Both R x y)
    (hf : ∀ a b, R a b → Both Q (f a) (g b)) : Both Q (x >>= f) (y >>= g) :=
  h.bind_of fun a b _ => hf a b

theorem after {Q : γ → δ → Prop} {f : α → Except ε γ} {g : α → Except ε δ} {x : Except ε α}
    (hf : ∀ a, Both Q (f a) (g a)) : Both Q (x >>= f) (x >>= g) := by
  cases x with
  | error e => exact rfl
  | ok a => exact hf a

theorem require {p : Prop} [Decidable p] {e : ε} {f : PUnit → Except ε α} {g : PUnit → Except ε β}
    (h : Both R (f ⟨⟩) (g ⟨⟩)) : Both R (require p e >>= f) (require p e >>= g) :=
  after fun _ => h

theorem ite {p : Prop} [Decidable p] {x' : Except ε α} {y' : Except ε β} (h : Both R x y)
    (h' : Both R x' y') : Both R (if p then x else x') (if p then y else y') :=
  rel_ite h h'

theorem foldlM {ι : Type v} {S : σ → τ → Prop} {f : σ → ι → Except ε σ} {g : τ → ι → Except ε τ}
    (hf : ∀ i s t, S s t → Both S (f s i) (g t i)) (l : List ι) {s : σ} {t : τ} (h : S s t) :
    Both S (l.foldlM f s) (l.foldlM g t) := by
  induction l generalizing s t with
  | nil => exact h
  | cons i l ih =>
    rw [List.foldlM_cons, List.foldlM_cons]
    exact (hf i s t h).bind fun _ _ hst => ih hst

theorem map_eq {f : α → γ} {g : β → γ} (h : Both R x y) (hR : ∀ a b, R a b → f a = g b) :
    x.map f = y.map g := by
  cases x with
  | error e =>
    cases y with
    | error e' => exact congrArg Except.error h
    | ok b => exact h.elim
  | ok a =>
    cases y with
    | error e' => exact h.elim
    | ok b => exact congrArg Except.ok (hR a b h)

theorem imp {Q : α → β → Prop} (h : Both R x y) (hRQ : ∀ a b, R a b → Q a b) : Both Q x y := by
  cases x with
  | error e =>
    cases y with
    | error e' => exact h
    | ok b => exact h.elim
  | ok a =>
    cases y with
    | error e' => exact h.elim
    | ok b => exact hRQ a b h

/-- A result on the right has its partner on the left. -/
theorem of_right {b : β} (h : Both R x y) (hy : y = .ok b) : ∃ a, x = .ok a ∧ R a b := by
  subst hy
  cases x with
  | error e => exact h.elim
  | ok a => exact ⟨a, rfl, h⟩

end Both

end NpSim.Lib.Pairs
