/-!
# Step functions that return

A step function takes a state and a program counter and either goes on or returns a result.

* `Returns step s a s' r` : from the state `s` and the counter `a`, with no other steps in between,
  the result is `r` in the state `s'`;
* `Returns.unique` : there is one such result;
* `Returns.embed` : a run of one step function as the first part of a run of another.
-/

inductive Status (A R : Type) where
  | running (pc : A)
  | returned (r : R)
  deriving DecidableEq

namespace Status

variable {S A R S' A' R' : Type} {step : S → A → S × Status A R} {s s' s₁ s₂ : S}
    {a : A} {r r₁ r₂ : R}

inductive Returns (step : S → A → S × Status A R) : S → A → S → R → Prop
  | done {s s' : S} {a : A} {r : R} : step s a = (s', .returned r) → Returns step s a s' r
  | next {s s₁ s' : S} {a a₁ : A} {r : R} : step s a = (s₁, .running a₁) → Returns step s₁ a₁ s' r →
      Returns step s a s' r

theorem Returns.unique (h₁ : Returns step s a s₁ r₁) (h₂ : Returns step s a s₂ r₂) :
    s₁ = s₂ ∧ r₁ = r₂ := by
  induction h₁ with
  | done hd =>
    cases h₂ with
    | done hd' =>
      rw [hd] at hd'
      cases hd'
      exact ⟨rfl, rfl⟩
    | next hn _ =>
      rw [hd] at hn
      cases hn
  | next hn _ ih =>
    cases h₂ with
    | done hd =>
      rw [hn] at hd
      cases hd
    | next hn' h₂ =>
      rw [hn] at hn'
      cases hn'
      exact ih h₂

/-- The steps of `step` are steps of `step'` until the last one, from which `step'` goes its own
way. -/
theorem Returns.embed {step' : S' → A' → S' × Status A' R'} {s'' : S'} {r'' : R'}
    (f : S → S') (g : A → A')
    (hrun : ∀ s a s₁ a₁, step s a = (s₁, .running a₁) → step' (f s) (g a) = (f s₁, .running (g a₁)))
    (h : Returns step s a s' r)
    (hlast : ∀ s₀ a₀, step s₀ a₀ = (s', .returned r) → Returns step' (f s₀) (g a₀) s'' r'') :
    Returns step' (f s) (g a) s'' r'' := by
  induction h with
  | done hd => exact hlast _ _ hd
  | next hn _ ih => exact .next (hrun _ _ _ _ hn) (ih hlast)

end Status
