/- digest: Set-associative directories: what each way of each set holds, without copies. -/

import Mathlib.Data.Option.Basic

set_option autoImplicit false
set_option relaxedAutoImplicit false

namespace NpSim.Lib.Directory

variable {σ ω β : Type} {fits : σ → ω → β → Prop} {d d' : σ → ω → Option β}

/-- Every block fits where it is, and no set holds a block twice. -/
structure Sound (fits : σ → ω → β → Prop) (d : σ → ω → Option β) : Prop where
  fits : ∀ {s w b}, d s w = some b → fits s w b
  single : ∀ {s w w' b}, d s w = some b → d s w' = some b → w = w'

theorem sound_empty (h : ∀ s w, d s w = none) : Sound fits d := by
  constructor
  · intro s w b hb
    rw [h] at hb
    cases hb
  · intro s w w' b hb
    rw [h] at hb
    cases hb

theorem Sound.sub (h : Sound fits d) (hsub : ∀ s w b, d' s w = some b → d s w = some b) :
    Sound fits d' := by
  constructor
  · intro s w b hb
    exact h.fits (hsub s w b hb)
  · intro s w w' b hb hb'
    exact h.single (hsub s w b hb) (hsub s w' b hb')

/-- A block is held once in the whole directory if it fits in one set only. -/
theorem Sound.once (h : Sound fits d)
    (home : ∀ {s s' w w' b}, fits s w b → fits s' w' b → s = s') {s s' : σ} {w w' : ω} {b : β}
    (hb : d s w = some b) (hb' : d s' w' = some b) : s = s' ∧ w = w' := by
  have hs := home (h.fits hb) (h.fits hb')
  subst hs
  exact ⟨rfl, h.single hb hb'⟩

variable [DecidableEq σ] [DecidableEq ω]

theorem Sound.clear (h : Sound fits d) {s : σ} {w : ω}
    (hd : ∀ s' w', d' s' w' = if s' = s ∧ w' = w then none else d s' w') : Sound fits d' := by
  apply h.sub
  intro s' w' b hb
  rw [hd] at hb
  split at hb
  · cases hb
  · exact hb

theorem Sound.put (h : Sound fits d) {s : σ} {w : ω} {b : β} (hfits : fits s w b)
    (hnew : ∀ w', w' ≠ w → d s w' ≠ some b)
    (hd : ∀ s' w', d' s' w' = if s' = s ∧ w' = w then some b else d s' w') : Sound fits d' := by
  constructor
  · intro s' w' b' hb
    rw [hd] at hb
    split at hb
    · rename_i hslot
      cases hb
      rw [hslot.1, hslot.2]
      exact hfits
    · exact h.fits hb
  · intro s' w₁ w₂ b' h₁ h₂
    rw [hd] at h₁ h₂
    split at h₁
    · rename_i hslot₁
      cases h₁
      split at h₂
      · rename_i hslot₂
        rw [hslot₁.2, hslot₂.2]
      · rename_i hslot₂
        rw [hslot₁.1] at h₂
        by_cases hw : w₂ = w
        · rw [hslot₁.2, hw]
        · exact absurd h₂ (hnew w₂ hw)
    · split at h₂
      · rename_i hslot₁ hslot₂
        cases h₂
        rw [hslot₂.1] at h₁
        by_cases hw : w₁ = w
        · rw [hslot₂.2, hw]
        · exact absurd h₁ (hnew w₁ hw)
      · exact h.single h₁ h₂

end NpSim.Lib.Directory
