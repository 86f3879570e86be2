/-!
# Runs whose steps meet a condition
-/

namespace JouleDB

variable {σ α : Type} {step : σ → α → σ} {condition : σ → α → Prop}

/-- Every step of a run meets a condition, in the state in which it is taken. -/
def AllMeet (step : σ → α → σ) (condition : σ → α → Prop) : σ → List α → Prop
  | _, [] => True
  | state, action :: actions =>
      condition state action ∧ AllMeet step condition (step state action) actions

instance AllMeet.decide [∀ state action, Decidable (condition state action)] :
    ∀ state actions, Decidable (AllMeet step condition state actions)
  | _, [] => .isTrue trivial
  | state, action :: actions =>
      have := AllMeet.decide (step state action) actions
      inferInstanceAs (Decidable (_ ∧ _))

namespace AllMeet

/-- What every step that meets the condition keeps holds after every run. -/
theorem invariant {motive : σ → Prop}
    (keeps : ∀ state action, motive state → condition state action → motive (step state action))
    {state : σ} (start : motive state) {actions : List α}
    (meets : AllMeet step condition state actions) : motive (actions.foldl step state) := by
  induction actions generalizing state with
  | nil => exact start
  | cons action actions ih => exact ih (keeps state action start meets.1) meets.2

theorem append_iff {state : σ} {front back : List α} :
    AllMeet step condition state (front ++ back) ↔
      AllMeet step condition state front ∧ AllMeet step condition (front.foldl step state) back := by
  induction front generalizing state with
  | nil => exact ⟨fun meets => ⟨trivial, meets⟩, fun meets => meets.2⟩
  | cons action front ih => exact (and_congr_right fun _ => ih).trans and_assoc.symm

/-- Two conditions that agree where a motive holds, which steps meeting the first one keep, are met
by the same runs. -/
theorem congr {condition' : σ → α → Prop} {motive : σ → Prop}
    (agrees : ∀ state action, motive state → (condition state action ↔ condition' state action))
    (keeps : ∀ state action, motive state → condition state action → motive (step state action))
    {state : σ} (start : motive state) (actions : List α) :
    AllMeet step condition state actions ↔ AllMeet step condition' state actions := by
  induction actions generalizing state with
  | nil => exact Iff.rfl
  | cons action actions ih =>
      constructor
      · rintro ⟨now, later⟩
        exact ⟨(agrees state action start).mp now, (ih (keeps state action start now)).mp later⟩
      · rintro ⟨now, later⟩
        have first := (agrees state action start).mpr now
        exact ⟨first, (ih (keeps state action start first)).mpr later⟩

end AllMeet

end JouleDB
