import Scu35Miner.Radix.BigEndian

namespace radix

variable {w : Nat}

/-- The number whose base `2 ^ w` digits are given, least significant first. -/
def leValue : List (BitVec w) → Nat
  | [] => 0
  | d :: digits => d.toNat + 2 ^ w * leValue digits

@[simp] theorem leValue_nil : leValue ([] : List (BitVec w)) = 0 := rfl

@[simp] theorem leValue_cons (d : BitVec w) (digits : List (BitVec w)) :
    leValue (d :: digits) = d.toNat + 2 ^ w * leValue digits := rfl

theorem beValue_reverse (digits : List (BitVec w)) : beValue digits.reverse = leValue digits := by
  induction digits with
  | nil => rfl
  | cons d digits ih =>
    rw [List.reverse_cons, beValue_concat, ih, leValue_cons]
    ring

theorem leValue_lt (digits : List (BitVec w)) : leValue digits < 2 ^ (w * digits.length) := by
  have h := beValue_lt digits.reverse
  rwa [beValue_reverse, List.length_reverse] at h

theorem leValue_replicate_zero (n : Nat) : leValue (List.replicate n (0 : BitVec w)) = 0 := by
  induction n with
  | zero => rfl
  | succ n ih =>
    rw [List.replicate_succ, leValue_cons, ih]
    simp

/-- The bits of a number are those of its digits. -/
theorem leValue_testBit (hw : 0 < w) (digits : List (BitVec w)) (i : Nat) :
    (leValue digits).testBit i = (digits.getD (i / w) 0).getLsbD (i % w) := by
  induction digits generalizing i with
  | nil => simp
  | cons d digits ih =>
    rw [leValue_cons, Nat.add_comm, Nat.testBit_two_pow_mul_add _ d.isLt]
    by_cases hi : i < w
    · rw [if_pos hi, Nat.div_eq_of_lt hi, Nat.mod_eq_of_lt hi]
      rfl
    · have hdiv : i / w = (i - w) / w + 1 := by
        rw [Nat.div_eq_sub_div hw (by omega)]
      rw [if_neg hi, ih, hdiv, List.getD_cons_succ, ← Nat.mod_eq_sub_mod (by omega)]

end radix
