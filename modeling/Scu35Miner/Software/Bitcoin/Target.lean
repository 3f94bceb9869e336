import Scu35Miner.Radix.LittleEndian
import Scu35Miner.Radix.LongDivision
import Scu35Miner.Software.Bitcoin

open fips180 radix

namespace scu35.bitcoin

theorem multiply10_limbs_value (a : big) (carry : Nat) :
    leValue (multiply10_limbs a carry).1 + 2 ^ (32 * a.length) * (multiply10_limbs a carry).2 =
      leValue a * 10 + carry := by
  induction a generalizing carry with
  | nil => simp [multiply10_limbs]
  | cons limb limbs ih =>
    have hrest := ih ((carry + limb.toNat * 10) / 2 ^ 32)
    have hsplit := Nat.div_add_mod (carry + limb.toNat * 10) (2 ^ 32)
    simp only [multiply10_limbs, leValue_cons, BitVec.toNat_ofNat, List.length_cons]
    generalize multiply10_limbs limbs ((carry + limb.toNat * 10) / 2 ^ 32) = r at *
    have hpow : 2 ^ (32 * (limbs.length + 1)) * r.2 = 2 ^ 32 * (2 ^ (32 * limbs.length) * r.2) := by
      rw [Nat.mul_add, Nat.mul_one, Nat.pow_add]
      ring
    rw [hpow]
    omega

theorem multiply10_limbs_length (a : big) (carry : Nat) : (multiply10_limbs a carry).1.length = a.length := by
  induction a generalizing carry with
  | nil => rfl
  | cons limb limbs ih => simp [multiply10_limbs, ih]

/-- No carry is left if the product fits. -/
theorem multiply10_limbs_carry {a : big} {add : Nat} (h : leValue a * 10 + add < 2 ^ (32 * a.length)) :
    (multiply10_limbs a add).2 = 0 := by
  have hvalue := multiply10_limbs_value a add
  by_contra hcarry
  have hmul := Nat.mul_le_mul_left (2 ^ (32 * a.length)) (Nat.one_le_iff_ne_zero.mpr hcarry)
  omega

theorem multiply10_spec {a : big} {add : Nat} (h : leValue a * 10 + add < 2 ^ (32 * a.length)) :
    ∃ product, multiply10 a add = some product ∧ product.length = a.length ∧
      leValue product = leValue a * 10 + add := by
  have hcarry := multiply10_limbs_carry h
  have hvalue := multiply10_limbs_value a add
  rw [hcarry, Nat.mul_zero, Nat.add_zero] at hvalue
  refine ⟨(multiply10_limbs a add).1, ?_, multiply10_limbs_length a add, hvalue⟩
  exact if_pos hcarry

theorem multiply10_times_spec {a : big} {n : Nat} (h : leValue a * 10 ^ n < 2 ^ (32 * a.length)) :
    ∃ product, multiply10_times a n = some product ∧ product.length = a.length ∧
      leValue product = leValue a * 10 ^ n := by
  induction n generalizing a with
  | zero => exact ⟨a, rfl, rfl, by simp⟩
  | succ n ih =>
    have hpow : leValue a * 10 ^ (n + 1) = leValue a * 10 * 10 ^ n := by ring
    have hone : leValue a * 10 ≤ leValue a * 10 * 10 ^ n := Nat.le_mul_of_pos_right _ (by positivity)
    have hfits : leValue a * 10 + 0 < 2 ^ (32 * a.length) := by omega
    obtain ⟨next, hnext, hlen, hvalue⟩ := multiply10_spec hfits
    rw [Nat.add_zero] at hvalue
    rw [← hlen, hpow, ← hvalue] at h
    obtain ⟨product, hproduct, hplen, hpvalue⟩ := ih h
    refine ⟨product, ?_, hplen.trans hlen, ?_⟩
    · rw [multiply10_times, hnext]
      exact hproduct
    · rw [hpvalue, hvalue, hpow]

theorem compare_limbs_spec {a b : List Word} (hlen : a.length = b.length) :
    0 ≤ compare_limbs a b ↔ beValue b ≤ beValue a := by
  induction a generalizing b with
  | nil =>
    obtain rfl := List.length_eq_zero_iff.mp hlen.symm
    simp [compare_limbs]
  | cons x xs ih =>
    cases b with
    | nil => simp at hlen
    | cons y ys =>
      have hlen' : xs.length = ys.length := by simpa using hlen
      rw [cons_le_iff hlen'.symm, compare_limbs]
      by_cases hxy : x = y
      · subst hxy
        simp [ih hlen']
      · rw [if_pos (by simpa using hxy)]
        by_cases hgt : x > y
        · rw [if_pos hgt]
          exact iff_of_true (by decide) (.inl hgt)
        · rw [if_neg hgt]
          refine iff_of_false (by decide) ?_
          rintro (hlt | ⟨heq, _⟩)
          · exact hgt hlt
          · exact hxy heq.symm

theorem compare_spec {a b : big} (hlen : a.length = b.length) : compare a b ≥ 0 ↔ leValue b ≤ leValue a := by
  rw [← beValue_reverse a, ← beValue_reverse b]
  exact compare_limbs_spec (by simpa using hlen)

theorem subtract_limbs_length (a b : big) (borrow : Nat) : (subtract_limbs a b borrow).length = a.length := by
  induction a generalizing b borrow with
  | nil => cases b <;> rfl
  | cons x xs ih =>
    cases b with
    | nil => rfl
    | cons y ys => simp [subtract_limbs, ih]

theorem subtract_limbs_value {a b : big} {borrow : Nat} (hlen : a.length = b.length) (hborrow : borrow ≤ 1)
    (hle : leValue b + borrow ≤ leValue a) : leValue (subtract_limbs a b borrow) + leValue b + borrow = leValue a := by
  induction a generalizing b borrow with
  | nil =>
    obtain rfl := List.length_eq_zero_iff.mp hlen.symm
    simp only [leValue_nil] at hle
    simp [subtract_limbs]
    omega
  | cons x xs ih =>
    cases b with
    | nil => simp at hlen
    | cons y ys =>
      have hx := x.isLt
      have hy := y.isLt
      have hlen' : xs.length = ys.length := by simpa using hlen
      have hlimb : (x - BitVec.ofNat 32 (y.toNat + borrow)).toNat =
          if x.toNat < y.toNat + borrow then x.toNat + 2 ^ 32 - (y.toNat + borrow)
          else x.toNat - (y.toNat + borrow) := by
        rw [BitVec.toNat_sub, BitVec.toNat_ofNat]
        split <;> omega
      simp only [leValue_cons] at hle
      simp only [subtract_limbs, leValue_cons, hlimb]
      by_cases hsub : x.toNat < y.toNat + borrow
      · have hrest := ih hlen' (Nat.le_refl 1) (by omega)
        rw [if_pos hsub, if_pos hsub]
        omega
      · have hrest := ih hlen' (Nat.zero_le 1) (by omega)
        rw [if_neg hsub, if_neg hsub]
        omega

theorem subtract_spec {a b : big} (hlen : a.length = b.length) (hle : leValue b ≤ leValue a) :
    (subtract a b).length = a.length ∧ leValue (subtract a b) = leValue a - leValue b := by
  have hvalue := subtract_limbs_value hlen (Nat.zero_le 1) hle
  rw [subtract]
  exact ⟨subtract_limbs_length a b 0, by omega⟩

/-- The bit that the shift loop moves out of the last limb. -/
def shift_carry : big → Word → Word
  | [], carry => carry
  | a :: as, _ => shift_carry as (a >>> 31)

theorem shift_limbs_length (a : big) (carry : Word) : (shift_limbs a carry).length = a.length := by
  induction a generalizing carry with
  | nil => rfl
  | cons x xs ih => simp [shift_limbs, ih]

theorem shift_limbs_value {a : big} {carry : Word} (hcarry : carry.toNat ≤ 1) :
    leValue (shift_limbs a carry) + 2 ^ (32 * a.length) * (shift_carry a carry).toNat =
      2 * leValue a + carry.toNat := by
  induction a generalizing carry with
  | nil => simp [shift_limbs, shift_carry]
  | cons x xs ih =>
    have hx := x.isLt
    have htop : (x >>> 31).toNat = x.toNat / 2 ^ 31 := by
      rw [BitVec.toNat_ushiftRight, Nat.shiftRight_eq_div_pow]
    have hbit : (x >>> 31).toNat ≤ 1 := by omega
    have hrest := ih hbit
    have hlimb : ((x <<< 1) ||| carry).toNat = 2 * (x.toNat % 2 ^ 31) + carry.toNat := by
      have hshift : (x <<< 1).toNat = 2 ^ 1 * (x.toNat % 2 ^ 31) := by
        rw [BitVec.toNat_shiftLeft, Nat.shiftLeft_eq]
        omega
      rw [BitVec.toNat_or, hshift, ← Nat.two_pow_add_eq_or_of_lt (by omega), Nat.pow_one]
    have hpow : 2 ^ (32 * (xs.length + 1)) * (shift_carry xs (x >>> 31)).toNat =
        2 ^ 32 * (2 ^ (32 * xs.length) * (shift_carry xs (x >>> 31)).toNat) := by
      rw [Nat.mul_add, Nat.mul_one, Nat.pow_add]
      ring
    simp only [shift_limbs, shift_carry, leValue_cons, hlimb, List.length_cons, hpow]
    omega

/-- The bit that the division loop shifts into the remainder. -/
def numerator_bit (numerator : big) (bit : Nat) : Word := (numerator.getD (bit / 32) 0 >>> (bit % 32)) &&& 1

theorem numerator_bit_toNat (numerator : big) (bit : Nat) :
    (numerator_bit numerator bit).toNat = ((leValue numerator).testBit bit).toNat := by
  rw [leValue_testBit (by decide), numerator_bit, BitVec.toNat_and, BitVec.toNat_ushiftRight]
  change _ &&& 1 = _
  rw [Nat.and_one_is_mod, BitVec.getLsbD, Nat.testBit_eq_decide_div_mod_eq, Nat.shiftRight_eq_div_pow]
  generalize (numerator.getD (bit / 32) 0).toNat / 2 ^ (bit % 32) = high
  obtain h | h := Nat.mod_two_eq_zero_or_one high <;> simp [h]

/-- The state of the division loop when the bits from `k` on have been done. -/
structure Divided (numerator denominator : big) (k : Nat) (d : Division) : Prop where
  remainder_length : d.remainder.length = 32
  remainder_value : leValue d.remainder = leValue numerator / 2 ^ k % leValue denominator
  out_length : d.out.length = 8
  out_bits : ∀ b < 256, (d.out.getD (7 - b / 32) 0).getLsbD (b % 32) =
    (decide (k ≤ b) && (leValue numerator / leValue denominator).testBit b)
  overflow : d.overflow = true ↔ ∃ b, k ≤ b ∧ 256 ≤ b ∧ (leValue numerator / leValue denominator).testBit b = true

section Division

variable {numerator denominator : big} (hnumerator : numerator.length = 32) (hdenominator : denominator.length = 32)
  (hpos : 0 < leValue denominator) (hfits : leValue denominator < 2 ^ 1023)

include hnumerator in
theorem divided_start : Divided numerator denominator 1024 ⟨big.zero, List.replicate 8 0, false⟩ := by
  have hlt : leValue numerator < 2 ^ 1024 := by
    have h := leValue_lt numerator
    simpa only [hnumerator, Nat.reduceMul] using h
  refine ⟨rfl, ?_, rfl, ?_, ?_⟩
  · rw [Nat.div_eq_of_lt hlt, Nat.zero_mod]
    exact leValue_replicate_zero 32
  · intro b hb
    have hlast : ¬1024 ≤ b := by omega
    rw [List.getD_replicate _ (by omega)]
    simp [hlast]
  · refine iff_of_false (by decide) ?_
    rintro ⟨b, hb, _, hbit⟩
    have hquotient : leValue numerator / leValue denominator < 2 ^ b :=
      Nat.lt_of_le_of_lt (Nat.div_le_self _ _) (Nat.lt_of_lt_of_le hlt (Nat.pow_le_pow_right (by decide) hb))
    rw [Nat.testBit_lt_two_pow hquotient] at hbit
    cases hbit

include hpos hfits in
/-- The shifted remainder fits its limbs. -/
theorem Divided.shift {k : Nat} {d : Division} (h : Divided numerator denominator (k + 1) d) :
    shift_carry d.remainder (numerator_bit numerator k) = 0 ∧
      leValue (shift_limbs d.remainder (numerator_bit numerator k)) =
        shifted (leValue numerator) (leValue denominator) k := by
  have hbit : (numerator_bit numerator k).toNat ≤ 1 := by
    rw [numerator_bit_toNat]
    exact Bool.toNat_le _
  have hvalue := shift_limbs_value (a := d.remainder) hbit
  have hlt := shifted_lt hpos (n := leValue numerator) k
  rw [h.remainder_value, numerator_bit_toNat, h.remainder_length] at hvalue
  change _ = shifted (leValue numerator) (leValue denominator) k at hvalue
  have hcarry : (shift_carry d.remainder (numerator_bit numerator k)).toNat = 0 := by
    by_contra hne
    have hmul := Nat.mul_le_mul_left (2 ^ (32 * 32)) (Nat.one_le_iff_ne_zero.mpr hne)
    omega
  rw [hcarry, Nat.mul_zero, Nat.add_zero] at hvalue
  exact ⟨BitVec.eq_of_toNat_eq hcarry, hvalue⟩

/-- Setting the bit of the quotient leaves the others. -/
theorem out_set_bit {out : List Word} (hlen : out.length = 8) {k b : Nat} (hk : k < 256) (hb : b < 256) :
    ((out.set (7 - k / 32) (out.getD (7 - k / 32) 0 ||| ((1 : Word) <<< (k % 32)))).getD (7 - b / 32) 0).getLsbD
      (b % 32) = ((out.getD (7 - b / 32) 0).getLsbD (b % 32) || decide (b = k)) := by
  have hmod : b % 32 < 32 := Nat.mod_lt b (by decide)
  rw [List.getD_eq_getElem?_getD, List.getElem?_set]
  by_cases hword : 7 - k / 32 = 7 - b / 32
  · have hsame : (b % 32 = k % 32) ↔ b = k := by omega
    rw [if_pos hword, if_pos (by omega), Option.getD_some, hword, BitVec.getLsbD_or, BitVec.getLsbD_shiftLeft]
    congr 1
    by_cases heq : b = k
    · subst heq
      simp [hmod]
    · have hne : ¬b % 32 = k % 32 := fun h => heq (hsame.mp h)
      by_cases hlt : b % 32 < k % 32
      · simp [hlt, heq]
      · have hpos : b % 32 - k % 32 ≠ 0 := by omega
        simp [heq, hpos]
  · have hne : b ≠ k := fun h => hword (by rw [h])
    rw [if_neg hword, ← List.getD_eq_getElem?_getD]
    simp [hne]

include hdenominator hpos hfits in
theorem divide_bit_divided {k : Nat} {d : Division} (h : Divided numerator denominator (k + 1) d) :
    Divided numerator denominator k (divide_bit numerator denominator d k) := by
  have hshift := (h.shift hpos hfits).2
  have hstep := remainder_step hpos (n := leValue numerator) k
  have hbit := quotient_testBit hpos (n := leValue numerator) k
  have hlen : (shift_limbs d.remainder (numerator_bit numerator k)).length = 32 := by
    rw [shift_limbs_length, h.remainder_length]
  have hcompare := compare_spec (hlen.trans hdenominator.symm)
  unfold divide_bit
  change Divided numerator denominator k (if compare (shift_limbs d.remainder (numerator_bit numerator k))
    denominator ≥ 0 then _ else _)
  rw [hshift] at hcompare
  by_cases hle : leValue denominator ≤ shifted (leValue numerator) (leValue denominator) k
  · rw [if_pos (hcompare.mpr hle)]
    rw [if_pos hle] at hstep
    obtain ⟨hsublen, hsub⟩ := subtract_spec (hlen.trans hdenominator.symm) (by rw [hshift]; exact hle)
    rw [hshift, ← hstep] at hsub
    rw [decide_eq_true hle] at hbit
    split
    next hbig =>
      refine ⟨hsublen.trans hlen, hsub, h.out_length, ?_, ?_⟩
      · intro b hb
        have h1 : ¬k ≤ b := by omega
        have h2 : ¬k + 1 ≤ b := by omega
        rw [h.out_bits b hb]
        simp [h1, h2]
      · exact iff_of_true rfl ⟨k, Nat.le_refl k, hbig, hbit⟩
    next hsmall =>
      refine ⟨hsublen.trans hlen, hsub, ?_, ?_, ?_⟩
      · rw [List.length_set, h.out_length]
      · intro b hb
        rw [out_set_bit h.out_length (by omega) hb, h.out_bits b hb]
        by_cases heq : b = k
        · subst heq
          simp [hbit]
        · have hiff : k + 1 ≤ b ↔ k ≤ b := by omega
          simp [heq, hiff]
      · rw [h.overflow]
        refine exists_congr fun b => ?_
        constructor
        · rintro ⟨h1, h2, h3⟩
          exact ⟨by omega, h2, h3⟩
        · rintro ⟨h1, h2, h3⟩
          exact ⟨by omega, h2, h3⟩
  · rw [if_neg fun hge => hle (hcompare.mp hge)]
    rw [if_neg hle] at hstep
    rw [decide_eq_false hle] at hbit
    have hsame (b : Nat) : (k + 1 ≤ b ∧ (leValue numerator / leValue denominator).testBit b = true) ↔
        (k ≤ b ∧ (leValue numerator / leValue denominator).testBit b = true) := by
      constructor
      · rintro ⟨h1, h2⟩
        exact ⟨by omega, h2⟩
      · rintro ⟨h1, h2⟩
        refine ⟨Nat.lt_of_le_of_ne h1 ?_, h2⟩
        rintro rfl
        rw [hbit] at h2
        cases h2
    refine ⟨hlen, hshift.trans hstep.symm, h.out_length, ?_, ?_⟩
    · intro b hb
      rw [h.out_bits b hb, Bool.eq_iff_iff]
      simpa using hsame b
    · rw [h.overflow]
      refine exists_congr fun b => ?_
      constructor
      · rintro ⟨h1, h2, h3⟩
        exact ⟨((hsame b).mp ⟨h1, h3⟩).1, h2, h3⟩
      · rintro ⟨h1, h2, h3⟩
        exact ⟨((hsame b).mpr ⟨h1, h3⟩).1, h2, h3⟩

include hdenominator hpos hfits in
/-- The division loop leaves the quotient and its overflow. -/
theorem divide_divided {k : Nat} {d : Division} (h : Divided numerator denominator k d) :
    Divided numerator denominator 0 (divide numerator denominator k d) := by
  induction k generalizing d with
  | zero => exact h
  | succ k ih => exact ih (divide_bit_divided hdenominator hpos hfits h)

end Division

/-- The words of a 256-bit number, most significant first. -/
def target_words (n : Nat) : Vector Word 8 := Vector.ofFn fun i => BitVec.ofNat 32 (n / 2 ^ (32 * (7 - i.val)))

theorem divided_out {numerator denominator : big} {d : Division} (h : Divided numerator denominator 0 d) :
    (if d.overflow then Vector.replicate 8 0xffffffff else Vector.ofFn fun i : Fin 8 => d.out.getD i 0) =
      target_words (min (leValue numerator / leValue denominator) (2 ^ 256 - 1)) := by
  have hoverflow := h.overflow
  have hbits := h.out_bits
  generalize leValue numerator / leValue denominator = q at *
  by_cases hbig : 2 ^ 256 ≤ q
  · have hset : d.overflow = true := by
      obtain ⟨b, hb, hbit⟩ := Nat.exists_ge_and_testBit_of_ge_two_pow hbig
      exact hoverflow.mpr ⟨b, Nat.zero_le b, hb, hbit⟩
    rw [hset, if_pos rfl, Nat.min_eq_right (by omega)]
    decide
  · have hclear : d.overflow = false := by
      rw [← Bool.not_eq_true, hoverflow]
      rintro ⟨b, _, hb, hbit⟩
      have hlt : q < 2 ^ b := Nat.lt_of_lt_of_le (Nat.lt_of_not_le hbig) (Nat.pow_le_pow_right (by decide) hb)
      rw [Nat.testBit_lt_two_pow hlt] at hbit
      cases hbit
    rw [hclear, if_neg (by decide), Nat.min_eq_left (by omega), target_words]
    congr 1
    funext i
    refine BitVec.eq_of_getLsbD_eq fun j hj => ?_
    have hb := hbits (32 * (7 - i) + j) (by omega)
    have hdiv : 7 - (32 * (7 - i.val) + j) / 32 = i := by omega
    have hmod : (32 * (7 - i.val) + j) % 32 = j := by omega
    rw [hdiv, hmod] at hb
    rw [hb, BitVec.getLsbD_ofNat, Nat.testBit_div_two_pow]
    simp [hj, Nat.add_comm]

end scu35.bitcoin
