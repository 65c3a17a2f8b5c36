import Mathlib

/-!
# Steps and their labels

A system is a relation `step s a s'`: from `s` there is a step to `s'` that is labelled `a`.
`Steps step s h s'` are finitely many of them, with the labels as the history `h`, the latest first.
A property of states and histories that every step keeps holds after any number of steps
(`Steps.invariant`), and a history can be cut at any place (`Steps.cut`).
-/

namespace MUtils

variable {σ α : Type*}

inductive Steps (step : σ → α → σ → Prop) (s : σ) : List α → σ → Prop
  | refl : Steps step s [] s
  | tail : Steps step s h s' → step s' a s'' → Steps step s (a :: h) s''

namespace Steps

variable {step : σ → α → σ → Prop} {s s' s'' : σ} {a : α} {h h' : List α}

theorem single (hstep : step s a s') : Steps step s [a] s' := .tail .refl hstep

theorem trans (h₁ : Steps step s h s') (h₂ : Steps step s' h' s'') :
    Steps step s (h' ++ h) s'' := by
  induction h₂ with
  | refl => exact h₁
  | tail _ hstep ih => exact .tail ih hstep

theorem cut (hsteps : Steps step s (h' ++ h) s'') :
    ∃ s', Steps step s h s' ∧ Steps step s' h' s'' := by
  induction h' generalizing s'' with
  | nil => exact ⟨s'', hsteps, .refl⟩
  | cons a h' ih =>
    cases hsteps with
    | tail hsteps hstep =>
      obtain ⟨s', h₁, h₂⟩ := ih hsteps
      exact ⟨s', h₁, .tail h₂ hstep⟩

theorem cut_at (hsteps : Steps step s (h' ++ a :: h) s'') :
    ∃ s₁ s₂, Steps step s h s₁ ∧ step s₁ a s₂ ∧ Steps step s₂ h' s'' := by
  obtain ⟨s₂, h₁, h₂⟩ := hsteps.cut
  cases h₁ with
  | tail h₁ hstep => exact ⟨_, s₂, h₁, hstep, h₂⟩

/-- The steps so far may be used when one more step is taken. -/
theorem invariant {I : List α → σ → Prop} (hstart : I [] s)
    (hkeeps : ∀ {h s₁ a s₂}, Steps step s h s₁ → I h s₁ → step s₁ a s₂ → I (a :: h) s₂)
    (hsteps : Steps step s h s') : I h s' := by
  induction hsteps with
  | refl => exact hstart
  | tail hsteps hstep ih => exact hkeeps hsteps ih hstep

theorem preserves {P : σ → Prop} (hkeeps : ∀ {s₁ a s₂}, P s₁ → step s₁ a s₂ → P s₂)
    (hstart : P s) (hsteps : Steps step s h s') : P s' :=
  hsteps.invariant (I := fun _ => P) hstart fun _ => hkeeps

end Steps

end MUtils
