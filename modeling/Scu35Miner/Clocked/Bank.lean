import Mathlib

namespace clocked

variable {α : Type} {n : Nat}

/-- A register bank read at one of its own lanes, where no bound is left to
prove. -/
scoped instance bank_getElem : GetElem (Vector α n) (Fin n) α fun _ _ => True where
  getElem bank lane _ := bank.get lane

@[simp] theorem getElem_lane (bank : Vector α n) (lane : Fin n) : bank[lane] = bank[lane.val] := rfl

end clocked
