import Mathlib

namespace radix

/-- The next bit of a number continues its leading bits. -/
theorem leading_bits (n k : Nat) : n / 2 ^ k = 2 * (n / 2 ^ (k + 1)) + (n.testBit k).toNat := by
  have hbit : (n.testBit k).toNat = n / 2 ^ k % 2 := by
    rw [Nat.testBit_eq_decide_div_mod_eq]
    obtain h | h := Nat.mod_two_eq_zero_or_one (n / 2 ^ k) <;> simp [h]
  rw [hbit, Nat.pow_succ, ← Nat.div_div_eq_div_mul]
  omega

/-- The partial remainder with the next bit of the numerator. -/
def shifted (n d k : Nat) : Nat := 2 * (n / 2 ^ (k + 1) % d) + (n.testBit k).toNat

theorem shifted_lt {n d : Nat} (hd : 0 < d) (k : Nat) : shifted n d k < 2 * d := by
  have hrem := Nat.mod_lt (n / 2 ^ (k + 1)) hd
  have hbit := Bool.toNat_le (n.testBit k)
  rw [shifted]
  omega

theorem leading_bits_eq (n d k : Nat) :
    n / 2 ^ k = shifted n d k + d * (2 * (n / 2 ^ (k + 1) / d)) := by
  have hdiv := Nat.div_add_mod (n / 2 ^ (k + 1)) d
  rw [leading_bits n k, shifted]
  generalize n / 2 ^ (k + 1) = q at *
  have hcomm : d * (2 * (q / d)) = 2 * (d * (q / d)) := by ring
  omega

/-- The divisor is subtracted from the partial remainder when it fits. -/
theorem remainder_step {n d : Nat} (hd : 0 < d) (k : Nat) :
    n / 2 ^ k % d = if d ≤ shifted n d k then shifted n d k - d else shifted n d k := by
  have hlt := shifted_lt hd (n := n) k
  rw [leading_bits_eq n d k, Nat.add_mul_mod_self_left]
  split
  next hle => rw [Nat.mod_eq_sub_mod hle, Nat.mod_eq_of_lt (by omega)]
  next hgt => exact Nat.mod_eq_of_lt (by omega)

/-- It fits when the quotient has that bit. -/
theorem quotient_testBit {n d : Nat} (hd : 0 < d) (k : Nat) : (n / d).testBit k = decide (d ≤ shifted n d k) := by
  have hlt := shifted_lt hd (n := n) k
  rw [Nat.testBit_eq_decide_div_mod_eq, Nat.div_div_eq_div_mul, Nat.mul_comm, ← Nat.div_div_eq_div_mul,
    leading_bits_eq n d k, Nat.add_mul_div_left _ _ hd, Nat.add_mul_mod_self_left]
  by_cases hle : d ≤ shifted n d k
  · have hone : shifted n d k / d = 1 := by
      rw [Nat.div_eq_sub_div hd hle, Nat.div_eq_of_lt (by omega)]
    simp [hone, hle]
  · simp [Nat.div_eq_of_lt (Nat.lt_of_not_le hle), hle]

/-- The quotient grows by that bit. -/
theorem quotient_step {n d : Nat} (hd : 0 < d) (k : Nat) :
    n / 2 ^ k / d = 2 * (n / 2 ^ (k + 1) / d) + if d ≤ shifted n d k then 1 else 0 := by
  have hlt := shifted_lt hd (n := n) k
  have hbit : shifted n d k / d = if d ≤ shifted n d k then 1 else 0 := by
    split
    next hle => rw [Nat.div_eq_sub_div hd hle, Nat.div_eq_of_lt (by omega)]
    next hgt => exact Nat.div_eq_of_lt (by omega)
  rw [leading_bits_eq n d k, Nat.add_mul_div_left _ _ hd, hbit, Nat.add_comm]

end radix
