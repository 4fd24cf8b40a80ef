/- digest: Contracts of partial computations: what a result satisfies, and which errors are left. -/

import NpSim.Lib.Partial

set_option autoImplicit false
set_option relaxedAutoImplicit false

namespace NpSim.Lib.Contract

open NpSim.Lib.Partial

universe u v

variable {ε : Type u} {α β σ : Type v} {p : ε → Prop}

/-- A result of `x` satisfies `Q` and an error of `x` satisfies `p`. -/
def Meets (p : ε → Prop) (Q : α → Prop) (x : Except ε α) : Prop :=
  match x with
  | .ok a => Q a
  | .error e => p e

theorem Meets.of_ok {Q : α → Prop} {x : Except ε α} {a : α} (hx : x = .ok a) (h : Q a) :
    Meets p Q x := by
  rw [hx]
  exact h

theorem Meets.result {Q : α → Prop} {x : Except ε α} {a : α} (h : Meets p Q x)
    (hx : x = .ok a) : Q a := by
  rw [hx] at h
  exact h

theorem Meets.fault {Q : α → Prop} {x : Except ε α} {e : ε} (h : Meets p Q x)
    (hx : x = .error e) : p e := by
  rw [hx] at h
  exact h

theorem Meets.exists_ok {Q : α → Prop} {x : Except ε α} (h : Meets p Q x) (hp : ∀ e, ¬p e) :
    ∃ a, x = .ok a ∧ Q a := by
  cases x with
  | error e => exact absurd h (hp e)
  | ok a => exact ⟨a, rfl, h⟩

theorem Meets.imp {Q R : α → Prop} {x : Except ε α} (h : Meets p Q x)
    (hQR : ∀ a, x = .ok a → Q a → R a) : Meets p R x := by
  cases x with
  | error e => exact h
  | ok a => exact hQR a rfl h

theorem Meets.mono {p' : ε → Prop} {Q : α → Prop} {x : Except ε α} (h : Meets p Q x)
    (hp : ∀ e, p e → p' e) : Meets p' Q x := by
  cases x with
  | error e => exact hp e h
  | ok a => exact h

theorem Meets.bind {Q : α → Prop} {R : β → Prop} {x : Except ε α} {f : α → Except ε β}
    (h : Meets p Q x) (hf : ∀ a, x = .ok a → Q a → Meets p R (f a)) : Meets p R (x >>= f) := by
  cases x with
  | error e => exact h
  | ok a => exact hf a rfl h

theorem Meets.require {q : Prop} [Decidable q] {e : ε} {R : β → Prop} {f : PUnit → Except ε β}
    (hq : q) (h : Meets p R (f ⟨⟩)) : Meets p R (require q e >>= f) := by
  rw [require_of hq, ok_bind]
  exact h

/-- A loop over a list, with an invariant about the elements that are left. -/
theorem Meets.foldlM {ι : Type v} {I : List ι → σ → Prop} {f : σ → ι → Except ε σ}
    (hf : ∀ i l s, I (i :: l) s → Meets p (I l) (f s i)) {l : List ι} {s : σ} (h : I l s) :
    Meets p (I []) (l.foldlM f s) := by
  induction l generalizing s with
  | nil => exact h
  | cons i l ih =>
    rw [List.foldlM_cons]
    exact (hf i l s h).bind fun t _ ht => ih ht

end NpSim.Lib.Contract
