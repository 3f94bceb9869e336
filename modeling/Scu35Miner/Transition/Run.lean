import Mathlib

namespace transition

variable {S E : Type}

/-- The state after a finite sequence of events. -/
def run (step : S → E → S) (s : S) (events : List E) : S := events.foldl step s

@[simp] theorem run_nil (step : S → E → S) (s : S) : run step s [] = s := rfl

@[simp] theorem run_cons (step : S → E → S) (s : S) (e : E) (events : List E) :
    run step s (e :: events) = run step (step s e) events := rfl

theorem run_append (step : S → E → S) (s : S) (before after : List E) :
    run step s (before ++ after) = run step (run step s before) after := List.foldl_append

/-- A property that every event preserves holds after every run. -/
theorem run_invariant {step : S → E → S} {P : S → Prop} (hstep : ∀ s e, P s → P (step s e)) {s : S}
    (hstart : P s) (events : List E) : P (run step s events) := by
  induction events generalizing s with
  | nil => exact hstart
  | cons e events ih => exact ih (hstep s e hstart)

end transition
