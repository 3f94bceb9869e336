import Mathlib

namespace ring

variable {α : Type}

/-- The `count` entries of a ring buffer from index `rd` on, oldest first. -/
def contents (mem : Nat → α) (depth rd count : Nat) : List α :=
  (List.range count).map fun k => mem ((rd + k) % depth)

@[simp] theorem contents_zero (mem : Nat → α) (depth rd : Nat) : contents mem depth rd 0 = [] := rfl

@[simp] theorem length_contents (mem : Nat → α) (depth rd count : Nat) : (contents mem depth rd count).length = count := by
  simp [contents]

/-- The oldest entry stands at the read index, the others from the next one on. -/
theorem contents_succ (mem : Nat → α) {depth rd : Nat} (count : Nat) (hrd : rd < depth) :
    contents mem depth rd (count + 1) = mem rd :: contents mem depth ((rd + 1) % depth) count := by
  rw [contents, List.range_succ_eq_map, List.map_cons, List.map_map, Nat.add_zero, Nat.mod_eq_of_lt hrd, contents]
  congr 1
  refine List.map_congr_left fun k _ => ?_
  dsimp only [Function.comp]
  rw [Nat.mod_add_mod]
  congr 2
  omega

theorem index_injective {depth rd j k : Nat} (hj : j < depth) (hk : k < depth)
    (h : (rd + j) % depth = (rd + k) % depth) : j = k := by
  have hmod : j % depth = k % depth := Nat.ModEq.add_left_cancel' rd h
  rwa [Nat.mod_eq_of_lt hj, Nat.mod_eq_of_lt hk] at hmod

/-- An entry written behind the newest one is appended. -/
theorem contents_push (mem : Nat → α) {depth count : Nat} (rd : Nat) (hroom : count < depth) (x : α) :
    contents (Function.update mem ((rd + count) % depth) x) depth rd (count + 1) = contents mem depth rd count ++ [x] := by
  rw [contents, List.range_succ, List.map_append, contents]
  congr 1
  · refine List.map_congr_left fun k hk => ?_
    have hlt := List.mem_range.mp hk
    rw [Function.update_of_ne]
    intro heq
    have := index_injective (by omega) hroom heq
    omega
  · simp

/-- An index before the end is followed by the next one, the last by the first. -/
theorem next_index {depth ptr : Nat} (hptr : ptr < depth) :
    (ptr + 1) % depth = if ptr = depth - 1 then 0 else ptr + 1 := by
  split
  next hlast =>
    rw [hlast, Nat.sub_add_cancel (by omega), Nat.mod_self]
  next hmore => exact Nat.mod_eq_of_lt (by omega)

end ring
