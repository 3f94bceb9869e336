import Mathlib

open Polynomial

namespace cyclic

variable {w v : Nat}

/-- A register as a polynomial over the two-element field; in reflected order
its low bit stands for the highest power. -/
noncomputable def poly (c : BitVec w) : (ZMod 2)[X] := ∑ j ∈ Finset.range w, if c.getMsbD j then X ^ j else 0

/-- The generator of a shift register with feedback `g`. -/
noncomputable def generator (g : BitVec w) : (ZMod 2)[X] := X ^ w + poly g

/-- One cycle of the shift register. -/
def shift (g c : BitVec w) : BitVec w := (c >>> 1) ^^^ if c.getLsbD 0 then g else 0

/-- The register after a symbol of `v` bits. -/
def absorb (g c : BitVec w) (b : BitVec v) : BitVec w := (shift g)^[v] (c ^^^ b.setWidth w)

/-- The polynomial of a string of symbols, first symbol first. -/
noncomputable def message (bs : List (BitVec v)) : (ZMod 2)[X] := bs.foldl (fun m b => X ^ v * m + poly b) 0

section Poly

theorem coeff_poly (c : BitVec w) (j : Nat) : (poly c).coeff j = if c.getMsbD j then 1 else 0 := by
  rw [poly, finsetSum_coeff]
  have hterm (i : Nat) : (if c.getMsbD i then (X : (ZMod 2)[X]) ^ i else 0).coeff j =
      if j = i then if c.getMsbD j then 1 else 0 else 0 := by
    by_cases hij : j = i
    · subst hij
      cases c.getMsbD j <;> simp
    · cases c.getMsbD i <;> simp [coeff_X_pow, hij]
  simp only [hterm, Finset.sum_ite_eq, Finset.mem_range]
  by_cases hj : j < w
  · rw [if_pos hj]
  · rw [if_neg hj, BitVec.getMsbD_of_ge c j (by omega)]
    rfl

theorem degree_poly_lt (c : BitVec w) : (poly c).degree < w := by
  rw [degree_lt_iff_coeff_zero]
  intro j hj
  rw [coeff_poly, BitVec.getMsbD_of_ge c j hj]
  rfl

theorem poly_injective {a b : BitVec w} (h : poly a = poly b) : a = b := by
  apply BitVec.eq_of_getMsbD_eq
  intro j _
  have hcoeff := congrArg (fun q => q.coeff j) h
  simp only [coeff_poly] at hcoeff
  cases ha : a.getMsbD j <;> cases hb : b.getMsbD j <;> simp [ha, hb] at hcoeff ⊢

@[simp] theorem poly_zero : poly 0#w = 0 := by
  ext j
  simp [coeff_poly]

theorem poly_xor (a b : BitVec w) : poly (a ^^^ b) = poly a + poly b := by
  ext j
  rw [coeff_add, coeff_poly, coeff_poly, coeff_poly, BitVec.getMsbD_xor]
  cases a.getMsbD j <;> cases b.getMsbD j <;> decide

theorem poly_not (c : BitVec w) : poly (~~~c) = poly c + poly (BitVec.allOnes w) := by
  rw [← poly_xor, BitVec.xor_allOnes]

/-- Zero extension leaves the low powers free. -/
theorem poly_setWidth (b : BitVec v) (h : v ≤ w) : poly (b.setWidth w) = X ^ (w - v) * poly b := by
  ext j
  rw [coeff_X_pow_mul', coeff_poly, coeff_poly]
  by_cases hj : w - v ≤ j
  · rw [if_pos hj]
    by_cases hw : j < w
    · simp only [BitVec.getMsbD, BitVec.getLsbD_setWidth, hw, show j - (w - v) < v by omega, decide_true, Bool.true_and,
        show w - 1 - j < w by omega, show v - 1 - (j - (w - v)) = w - 1 - j by omega]
    · rw [BitVec.getMsbD_of_ge _ j (by omega), BitVec.getMsbD_of_ge _ (j - (w - v)) (by omega)]
  · rw [if_neg hj, BitVec.getMsbD]
    simp only [BitVec.getLsbD_setWidth, BitVec.getLsbD_of_ge b (w - 1 - j) (by omega), Bool.and_false, Bool.false_eq_true,
      ↓reduceIte]

/-- The low part of a concatenation stands for the high powers. -/
theorem poly_append (hi : BitVec w) (lo : BitVec v) : poly (hi ++ lo) = X ^ w * poly lo + poly hi := by
  ext j
  rw [coeff_add, coeff_X_pow_mul', coeff_poly, coeff_poly, coeff_poly, BitVec.getMsbD_append]
  by_cases hj : w ≤ j
  · simp only [hj, ↓reduceIte, BitVec.getMsbD_of_ge hi j hj, Bool.false_eq_true, add_zero]
  · simp only [hj, ↓reduceIte, zero_add]

end Poly

section Register

/-- The bit that a shift drops comes back as the highest power. -/
theorem poly_ushiftRight_one (c : BitVec w) (hw : 0 < w) :
    poly (c >>> 1) + X * poly c = if c.getLsbD 0 then X ^ w else 0 := by
  have hdouble (x : Bool) : (if x then 1 else 0 : ZMod 2) + (if x then 1 else 0) = 0 := by cases x <;> decide
  have hpower (j : Nat) : (if c.getLsbD 0 then (X : (ZMod 2)[X]) ^ w else 0).coeff j =
      if c.getLsbD 0 ∧ j = w then 1 else 0 := by
    cases c.getLsbD 0 <;> simp [coeff_X_pow]
  ext j
  rw [coeff_add, coeff_poly, BitVec.getMsbD_ushiftRight, hpower]
  cases j with
  | zero =>
    rw [coeff_X_mul_zero]
    simp [hw.ne]
  | succ j =>
    rw [coeff_X_mul, coeff_poly]
    obtain hlt | rfl | hgt := Nat.lt_trichotomy (j + 1) w
    · simpa [hlt, hlt.ne] using hdouble (c.getMsbD j)
    · simp [BitVec.getMsbD]
    · simp [show ¬ j + 1 < w by omega, show j + 1 ≠ w by omega, BitVec.getMsbD_of_ge c j (by omega)]

/-- A shift multiplies by the variable, up to the generator. -/
theorem shift_congr (g c : BitVec w) (hw : 0 < w) :
    AdjoinRoot.mk (generator g) (poly (shift g c)) = AdjoinRoot.mk (generator g) (X * poly c) := by
  rw [AdjoinRoot.mk_eq_mk, CharTwo.sub_eq_add, shift, poly_xor, add_right_comm, poly_ushiftRight_one c hw]
  cases c.getLsbD 0 with
  | true => exact dvd_refl _
  | false => simp

theorem shifts_congr (g c : BitVec w) (hw : 0 < w) (n : Nat) :
    AdjoinRoot.mk (generator g) (poly ((shift g)^[n] c)) = AdjoinRoot.mk (generator g) (X ^ n * poly c) := by
  induction n with
  | zero => rw [pow_zero, one_mul, Function.iterate_zero_apply]
  | succ n ih => rw [Function.iterate_succ_apply', shift_congr g _ hw, map_mul, ih, ← map_mul, ← mul_assoc, ← pow_succ']

theorem absorb_congr (g c : BitVec w) (b : BitVec v) (hw : 0 < w) (hv : v ≤ w) :
    AdjoinRoot.mk (generator g) (poly (absorb g c b)) =
      AdjoinRoot.mk (generator g) (X ^ v * poly c + X ^ w * poly b) := by
  rw [absorb, shifts_congr g _ hw, poly_xor, poly_setWidth b hv, mul_add, ← mul_assoc, ← pow_add, Nat.add_sub_cancel' hv]

theorem message_concat (bs : List (BitVec v)) (b : BitVec v) : message (bs ++ [b]) = X ^ v * message bs + poly b := by
  rw [message, List.foldl_append]
  rfl

theorem absorb_arrange {R : Type} [CommRing R] (a b c m q r : R) :
    a * (b * m + c * q) + b * r = b * (a * m + r) + c * a * q := by
  ring

/-- A register that absorbs a string holds its remainder. -/
theorem register_congr (g c : BitVec w) (hw : 0 < w) (hv : v ≤ w) (bs : List (BitVec v)) :
    AdjoinRoot.mk (generator g) (poly (bs.foldl (absorb g) c)) =
      AdjoinRoot.mk (generator g) (X ^ w * message bs + X ^ (v * bs.length) * poly c) := by
  induction bs using List.reverseRecOn with
  | nil => simp [message]
  | append_singleton bs b ih =>
    rw [List.foldl_append, List.foldl_cons, List.foldl_nil, absorb_congr g _ b hw hv, map_add, map_mul, ih, ← map_mul,
      ← map_add, message_concat, List.length_append, List.length_singleton, Nat.mul_succ, pow_add, absorb_arrange]

theorem generator_monic (g : BitVec w) : (generator g).Monic := monic_X_pow_add (degree_poly_lt g)

theorem generator_degree (g : BitVec w) : (generator g).degree = w := by
  have hdegree : (X ^ w : (ZMod 2)[X]).degree = w := degree_X_pow w
  rw [generator, degree_add_eq_left_of_degree_lt (by rw [hdegree]; exact degree_poly_lt g), hdegree]

theorem register_remainder (g c : BitVec w) (hw : 0 < w) (hv : v ≤ w) (bs : List (BitVec v)) :
    poly (bs.foldl (absorb g) c) = (X ^ w * message bs + X ^ (v * bs.length) * poly c) %ₘ generator g := by
  have hdvd := AdjoinRoot.mk_eq_mk.mp (register_congr g c hw hv bs)
  have hself := (modByMonic_eq_self_iff (generator_monic g) (p := poly (bs.foldl (absorb g) c))).mpr
    (by rw [generator_degree]; exact degree_poly_lt _)
  rw [← hself]
  exact modByMonic_eq_of_dvd_sub (generator_monic g) hdvd

end Register

end cyclic
