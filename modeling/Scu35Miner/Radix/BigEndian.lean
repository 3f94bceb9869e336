import Mathlib

namespace radix

variable {w : Nat}

/-- The number whose base `2 ^ w` digits are given, most significant first. -/
def beValue (digits : List (BitVec w)) : Nat := digits.foldl (fun acc d => acc * 2 ^ w + d.toNat) 0

@[simp] theorem beValue_nil : beValue ([] : List (BitVec w)) = 0 := rfl

@[simp] theorem beValue_concat (digits : List (BitVec w)) (d : BitVec w) :
    beValue (digits ++ [d]) = beValue digits * 2 ^ w + d.toNat := by
  simp [beValue]

theorem beValue_append (high low : List (BitVec w)) :
    beValue (high ++ low) = beValue high * 2 ^ (w * low.length) + beValue low := by
  induction low using List.reverseRecOn with
  | nil => simp
  | append_singleton low d ih =>
    rw [← List.append_assoc, beValue_concat, beValue_concat, ih, List.length_append, List.length_singleton,
      Nat.mul_add, Nat.mul_one, Nat.pow_add]
    ring

theorem beValue_lt (digits : List (BitVec w)) : beValue digits < 2 ^ (w * digits.length) := by
  induction digits using List.reverseRecOn with
  | nil => simp
  | append_singleton digits d ih =>
    have hd := d.isLt
    rw [beValue_concat, List.length_append, List.length_singleton, Nat.mul_add, Nat.mul_one, Nat.pow_add]
    calc beValue digits * 2 ^ w + d.toNat
        < beValue digits * 2 ^ w + 2 ^ w := by omega
      _ = (beValue digits + 1) * 2 ^ w := by ring
      _ ≤ 2 ^ (w * digits.length) * 2 ^ w := Nat.mul_le_mul_right _ ih

/-- Comparison of two numbers is decided by their leading digits unless these
agree. -/
theorem concat_lt_iff (a b : List (BitVec w)) (x y : BitVec w) :
    beValue (a ++ [x]) < beValue (b ++ [y]) ↔
      beValue a < beValue b ∨ (beValue a = beValue b ∧ x.toNat < y.toNat) := by
  have hx := x.isLt
  have hy := y.isLt
  rw [beValue_concat, beValue_concat]
  rcases Nat.lt_trichotomy (beValue a) (beValue b) with hlt | heq | hgt
  · have hmul := Nat.mul_le_mul_right (2 ^ w) (Nat.succ_le_of_lt hlt)
    rw [Nat.succ_mul] at hmul
    constructor
    · intro _
      exact .inl hlt
    · intro _
      omega
  · rw [heq]
    omega
  · have hmul := Nat.mul_le_mul_right (2 ^ w) (Nat.succ_le_of_lt hgt)
    rw [Nat.succ_mul] at hmul
    constructor <;> intro h <;> omega

theorem beValue_cons (d : BitVec w) (digits : List (BitVec w)) :
    beValue (d :: digits) = d.toNat * 2 ^ (w * digits.length) + beValue digits := by
  have h := beValue_append [d] digits
  simpa [beValue] using h

/-- The leading digit decides a comparison unless it is equal. -/
theorem cons_le_iff {x y : BitVec w} {xs ys : List (BitVec w)} (hlen : xs.length = ys.length) :
    beValue (x :: xs) ≤ beValue (y :: ys) ↔ x < y ∨ (x = y ∧ beValue xs ≤ beValue ys) := by
  have hxs := beValue_lt xs
  have hys := beValue_lt ys
  rw [beValue_cons, beValue_cons, BitVec.lt_def, ← BitVec.toNat_inj]
  rw [hlen] at hxs ⊢
  rcases Nat.lt_trichotomy x.toNat y.toNat with hlt | heq | hgt
  · have hmul := Nat.mul_le_mul_right (2 ^ (w * ys.length)) (Nat.succ_le_of_lt hlt)
    rw [Nat.succ_mul] at hmul
    constructor <;> intro _ <;> omega
  · rw [heq]
    omega
  · have hmul := Nat.mul_le_mul_right (2 ^ (w * ys.length)) (Nat.succ_le_of_lt hgt)
    rw [Nat.succ_mul] at hmul
    constructor <;> intro _ <;> omega

/-- Splitting every digit into `k` smaller ones does not change the number. -/
theorem beValue_flatMap {v k : Nat} (split : BitVec v → List (BitVec w)) (hv : v = w * k)
    (hlen : ∀ x, (split x).length = k) (hvalue : ∀ x, beValue (split x) = x.toNat) (digits : List (BitVec v)) :
    beValue (digits.flatMap split) = beValue digits := by
  induction digits using List.reverseRecOn with
  | nil => rfl
  | append_singleton digits d ih =>
    rw [List.flatMap_append, List.flatMap_singleton, beValue_append, hlen, ← hv, ih, hvalue, beValue_concat]

/-- The `n` low digits of a number. -/
def beDigits (w : Nat) : Nat → Nat → List (BitVec w)
  | 0, _ => []
  | n + 1, value => beDigits w n (value / 2 ^ w) ++ [BitVec.ofNat w value]

@[simp] theorem beDigits_length (n value : Nat) : (beDigits w n value).length = n := by
  induction n generalizing value with
  | zero => rfl
  | succ n ih => simp [beDigits, ih]

theorem beValue_beDigits {n value : Nat} (h : value < 2 ^ (w * n)) : beValue (beDigits w n value) = value := by
  induction n generalizing value with
  | zero =>
    rw [Nat.mul_zero, Nat.pow_zero] at h
    rw [beDigits, beValue_nil]
    omega
  | succ n ih =>
    have hhigh : value / 2 ^ w < 2 ^ (w * n) := by
      rw [Nat.mul_add, Nat.mul_one, Nat.pow_add] at h
      exact Nat.div_lt_of_lt_mul (by rwa [Nat.mul_comm])
    rw [beDigits, beValue_concat, ih hhigh, BitVec.toNat_ofNat, Nat.mul_comm]
    exact Nat.div_add_mod value (2 ^ w)

end radix
