import Mathlib

namespace clocked

variable {α : Type}

/-- A list that only cycle `j` can contribute to. -/
theorem filterMap_single (x : Option α) (j m : Nat) :
    (List.range m).filterMap (fun n => if n = j then x else none) = if j < m then x.toList else [] := by
  induction m with
  | zero => simp
  | succ m ih =>
    rw [List.range_succ, List.filterMap_append, ih]
    obtain hlt | heq | hgt := Nat.lt_trichotomy m j
    · simp [show ¬ j < m by omega, show ¬ j < m + 1 by omega, show m ≠ j by omega]
    · cases x <;> simp [heq]
    · simp [hgt, show j < m + 1 by omega, show m ≠ j by omega]

/-- Of each period of `P` cycles only cycle `j` counts. -/
theorem filterMap_periodic {P j : Nat} (hj : j < P) (f : Nat → Option α) (c : Nat) :
    (List.range (P * c)).filterMap (fun n => if n % P = j then f (n / P) else none) = (List.range c).filterMap f := by
  induction c with
  | zero => simp
  | succ c ih =>
    have hsingle : List.filterMap f [c] = (f c).toList := by
      cases hf : f c <;> simp [hf]
    have hblock := filterMap_single (f c) j P
    rw [if_pos hj] at hblock
    rw [Nat.mul_succ, List.range_add, List.filterMap_append, ih, List.range_succ, List.filterMap_append,
      List.filterMap_map, hsingle, ← hblock]
    congr 1
    refine List.filterMap_congr fun n hn => ?_
    have hlt := List.mem_range.mp hn
    dsimp only [Function.comp]
    rw [Nat.mul_add_mod, Nat.mod_eq_of_lt hlt, Nat.mul_add_div (by omega), Nat.div_eq_of_lt hlt, Nat.add_zero]

end clocked
