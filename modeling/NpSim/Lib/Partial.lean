/- digest: Partial steps: computations that may stop at a failed assertion, their inversion
   rules, and invariants carried along runs. -/

import Mathlib.Logic.Relation

set_option autoImplicit false
set_option relaxedAutoImplicit false

namespace NpSim.Lib.Partial

universe u v

variable {ε : Type u} {α β σ : Type v}

/-- An assertion: `e` is raised when `p` fails. -/
def require (p : Prop) [Decidable p] (e : ε) : Except ε PUnit.{v + 1} :=
  if p then .ok ⟨⟩ else .error e

theorem bind_eq_ok {x : Except ε α} {f : α → Except ε β} {b : β} :
    (x >>= f) = .ok b ↔ ∃ a, x = .ok a ∧ f a = .ok b := by
  cases x <;> simp [Bind.bind, Except.bind]

theorem map_eq_ok {x : Except ε α} {f : α → β} {b : β} :
    x.map f = .ok b ↔ ∃ a, x = .ok a ∧ f a = b := by
  cases x <;> simp [Except.map]

theorem pure_eq_ok {a b : α} : (pure a : Except ε α) = .ok b ↔ a = b := by
  simp [pure, Except.pure]

@[simp] theorem require_of {p : Prop} [Decidable p] {e : ε} (h : p) :
    require p e = .ok (PUnit.unit : PUnit.{v + 1}) := by simp [require, h]

@[simp] theorem ok_bind {a : α} {f : α → Except ε β} : (Except.ok a >>= f) = f a := rfl

theorem require_bind_eq_ok {p : Prop} [Decidable p] {e : ε} {f : PUnit → Except ε β} {b : β} :
    (require p e >>= f) = .ok b ↔ p ∧ f ⟨⟩ = .ok b := by
  by_cases h : p <;> simp [require, h, Bind.bind, Except.bind]

theorem bind_eq_map_bind {γ : Type v} {x : Except ε α} {f : α → Except ε γ}
    {f' : α → Except ε β} {g : β → γ} (h : ∀ a, x = .ok a → f a = (f' a).map g) :
    (x >>= f) = (x >>= f').map g := by
  cases x with
  | error e => rfl
  | ok a => exact h a rfl

theorem map_bind_eq_map_bind {γ δ : Type v} {x : Except ε α} {g : α → γ} {f : γ → Except ε δ}
    {f' : α → Except ε β} {g' : β → δ} (h : ∀ a, x = .ok a → f (g a) = (f' a).map g') :
    (x.map g >>= f) = (x >>= f').map g' := by
  cases x with
  | error e => rfl
  | ok a => exact h a rfl

/-- A computation whose observation is known has a result with that observation. -/
theorem exists_of_observed {x : Except ε α} {f : α → β} {b : β}
    (h : x.toOption.map f = some b) : ∃ a, x = .ok a ∧ f a = b := by
  cases x with
  | error e => cases h
  | ok a => exact ⟨a, rfl, Option.some.inj h⟩

theorem length_of_mapM {f : α → Except ε β} {l : List α} {r : List β} (h : l.mapM f = .ok r) :
    r.length = l.length := by
  induction l generalizing r with
  | nil =>
    rw [List.mapM_nil, pure_eq_ok] at h
    rw [← h]
    rfl
  | cons x l ih =>
    rw [List.mapM_cons] at h
    obtain ⟨y, _, h⟩ := bind_eq_ok.mp h
    obtain ⟨ys, hys, h⟩ := bind_eq_ok.mp h
    rw [pure_eq_ok] at h
    rw [← h, List.length_cons, List.length_cons, ih hys]

theorem mapM_ok {f : α → Except ε β} {l : List α} (h : ∀ x ∈ l, ∃ y, f x = .ok y) :
    ∃ r, l.mapM f = .ok r := by
  induction l with
  | nil => exact ⟨[], rfl⟩
  | cons x l ih =>
    obtain ⟨y, hy⟩ := h x List.mem_cons_self
    obtain ⟨ys, hys⟩ := ih fun z hz => h z (List.mem_cons_of_mem x hz)
    exact ⟨y :: ys, by rw [List.mapM_cons, hy, hys]; rfl⟩

/-- `f` preserves `I` on every run that does not stop at an assertion. -/
def Keeps (I : σ → Prop) (f : σ → Except ε σ) : Prop :=
  ∀ s t, f s = .ok t → I s → I t

theorem Keeps.bind {I : σ → Prop} {f g : σ → Except ε σ} (hf : Keeps I f) (hg : Keeps I g) :
    Keeps I (fun s => f s >>= g) := by
  intro s t h hs
  obtain ⟨m, hm, ht⟩ := bind_eq_ok.mp h
  exact hg m t ht (hf s m hm hs)

theorem Keeps.foldlM {ι : Type*} {I : σ → Prop} {f : σ → ι → Except ε σ}
    (hf : ∀ i, Keeps I (fun s => f s i)) (l : List ι) :
    Keeps I (fun s => l.foldlM f s) := by
  intro s t h hs
  induction l generalizing s with
  | nil =>
    simp only [List.foldlM_nil, pure_eq_ok] at h
    exact h ▸ hs
  | cons i l ih =>
    simp only [List.foldlM_cons] at h
    obtain ⟨m, hm, ht⟩ := bind_eq_ok.mp h
    exact ih m ht (hf i s m hm hs)

open Relation (ReflTransGen)

/-- An invariant of the initial state and of every step holds along every run. -/
theorem invariant_of_run {R : σ → σ → Prop} {I : σ → Prop} {a b : σ}
    (step : ∀ s t, R s t → I s → I t) (ha : I a) (run : ReflTransGen R a b) : I b := by
  induction run with
  | refl => exact ha
  | tail _ last ih => exact step _ _ last ih

/-- Actions that are performed one after the other make a run, if each of them makes a step. -/
theorem run_of_foldlM {κ : Type v} {R : σ → σ → Prop} {f : σ → κ → Option σ} {ks : List κ}
    {a b : σ} (step : ∀ s k t, f s k = some t → R s t) (h : ks.foldlM f a = some b) :
    ReflTransGen R a b := by
  induction ks generalizing a with
  | nil =>
    cases h
    exact .refl
  | cons k ks ih =>
    obtain ⟨s, hs, h⟩ := Option.bind_eq_some_iff.mp h
    exact .head (step a k s hs) (ih h)

theorem run_of_simulation {τ : Type v} {R : σ → σ → Prop} {Q : τ → τ → Prop} {I : σ → τ → Prop}
    (step : ∀ s s' t, R s s' → I s t → ∃ t', ReflTransGen Q t t' ∧ I s' t') {a b : σ} {c : τ}
    (run : ReflTransGen R a b) (h : I a c) : ∃ d, ReflTransGen Q c d ∧ I b d := by
  induction run with
  | refl => exact ⟨c, .refl, h⟩
  | tail _ last ih =>
    obtain ⟨d, hd, hsim⟩ := ih
    obtain ⟨e, he, hsim⟩ := step _ _ d last hsim
    exact ⟨e, hd.trans he, hsim⟩

end NpSim.Lib.Partial
