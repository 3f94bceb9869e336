import Mathlib

namespace radix

theorem one_toNat {w : Nat} (hw : 0 < w) : (1 : BitVec w).toNat = 1 := by
  rw [BitVec.ofNat_eq_ofNat, BitVec.toNat_ofNat]
  exact Nat.mod_eq_of_lt (Nat.one_lt_two_pow hw.ne')

/-- The last index below `n`, computed in a width that holds the indices but
perhaps not `n` itself. -/
theorem last_index_toNat {w n : Nat} (hw : 0 < w) (hn : 1 ≤ n) (hle : n ≤ 2 ^ w) :
    (BitVec.ofNat w n - 1).toNat = n - 1 := by
  rw [BitVec.toNat_sub, one_toNat hw, BitVec.toNat_ofNat]
  obtain hlt | heq := Nat.lt_or_eq_of_le hle
  · rw [Nat.mod_eq_of_lt hlt, show 2 ^ w - 1 + n = n - 1 + 2 ^ w by omega, Nat.add_mod_right, Nat.mod_eq_of_lt (by omega)]
  · rw [heq, Nat.mod_self, Nat.add_zero, Nat.mod_eq_of_lt (by omega)]

/-- The next index, below the end of that width. -/
theorem succ_index_toNat {w : Nat} {x : BitVec w} (hw : 0 < w) (h : x.toNat + 1 < 2 ^ w) : (x + 1).toNat = x.toNat + 1 := by
  rw [BitVec.toNat_add, one_toNat hw, Nat.mod_eq_of_lt h]

end radix
