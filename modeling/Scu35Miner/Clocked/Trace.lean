import Mathlib

namespace clocked

variable {S I : Type}

/-- The register contents after `t` clock edges, with input `ins u` sampled at
edge `u`. -/
def trace (step : S → I → S) (s : S) (ins : Nat → I) : Nat → S
  | 0 => s
  | t + 1 => step (trace step s ins t) (ins t)

@[simp] theorem trace_zero (step : S → I → S) (s : S) (ins : Nat → I) : trace step s ins 0 = s := rfl

theorem trace_succ (step : S → I → S) (s : S) (ins : Nat → I) (t : Nat) :
    trace step s ins (t + 1) = step (trace step s ins t) (ins t) := rfl

theorem trace_add (step : S → I → S) (s : S) (ins : Nat → I) (t u : Nat) :
    trace step s ins (t + u) = trace step (trace step s ins t) (fun k => ins (t + k)) u := by
  induction u with
  | zero => rfl
  | succ u ih => rw [← Nat.add_assoc, trace_succ, trace_succ, ih]

/-- The state after `t` edges depends on the inputs before edge `t` only. -/
theorem trace_congr (step : S → I → S) (s : S) {ins ins' : Nat → I} {t : Nat} (h : ∀ u < t, ins u = ins' u) :
    trace step s ins t = trace step s ins' t := by
  induction t with
  | zero => rfl
  | succ t ih => rw [trace_succ, trace_succ, ih fun u hu => h u (by omega), h t (Nat.lt_succ_self t)]

/-- States a machine can be in after a reset and any inputs. -/
inductive Reachable (step : S → I → S) (reset : S → Prop) : S → Prop where
  | reset {s : S} (h : reset s) : Reachable step reset s
  | step {s : S} (h : Reachable step reset s) (i : I) : Reachable step reset (step s i)

theorem Reachable.trace {step : S → I → S} {reset : S → Prop} {s : S}
    (h : Reachable step reset s) (ins : Nat → I) (t : Nat) :
    Reachable step reset (clocked.trace step s ins t) := by
  induction t with
  | zero => exact h
  | succ t ih => exact ih.step (ins t)

/-- A property of the reset states that every edge preserves holds in every
reachable state. -/
theorem Reachable.invariant {step : S → I → S} {reset : S → Prop} {P : S → Prop}
    (hreset : ∀ s, reset s → P s) (hstep : ∀ s i, P s → P (step s i)) {s : S}
    (h : Reachable step reset s) : P s := by
  induction h with
  | reset h => exact hreset _ h
  | step _ i ih => exact hstep _ i ih

end clocked
