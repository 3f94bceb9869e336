import Scu35Miner.Cyclic.Reflected

open Polynomial

namespace cyclic

variable {w v : Nat}

/-- A generator with a constant term divides no short burst. -/
theorem eq_zero_of_dvd_burst {K : Type} [Field K] {g d : K[X]} (hconst : g.coeff 0 ≠ 0) (hshort : d.degree < g.degree)
    (n : Nat) (hdvd : g ∣ X ^ n * d) : d = 0 := by
  have hX : ¬ (X : K[X]) ∣ g := by rwa [X_dvd_iff]
  have hcoprime : IsCoprime g (X ^ n) := (((irreducible_X).coprime_iff_not_dvd.mpr hX).pow_left).symm
  exact eq_zero_of_dvd_of_degree_lt (hcoprime.dvd_of_dvd_mul_left hdvd) hshort

theorem message_append (xs ys : List (BitVec v)) :
    message (xs ++ ys) = X ^ (v * ys.length) * message xs + message ys := by
  induction ys using List.reverseRecOn with
  | nil => simp [message]
  | append_singleton ys y ih =>
    rw [← List.append_assoc, message_concat, message_concat, ih, List.length_append, List.length_singleton, Nat.mul_succ,
      pow_add, mul_add, ← mul_assoc, mul_comm (X ^ v) (X ^ (v * ys.length)), add_assoc]

theorem coeff_message_concat (bs : List (BitVec v)) (b : BitVec v) (j : Nat) :
    (message (bs ++ [b])).coeff j = if v ≤ j then (message bs).coeff (j - v) else (poly b).coeff j := by
  rw [message_concat, coeff_add, coeff_X_pow_mul']
  by_cases hj : v ≤ j
  · rw [if_pos hj, if_pos hj, coeff_poly, BitVec.getMsbD_of_ge b j hj, if_neg Bool.false_ne_true, add_zero]
  · rw [if_neg hj, if_neg hj, zero_add]

theorem degree_message_lt (bs : List (BitVec v)) : (message bs).degree < (v * bs.length : Nat) := by
  induction bs using List.reverseRecOn with
  | nil => simp [message]
  | append_singleton bs b ih =>
    rw [degree_lt_iff_coeff_zero] at ih ⊢
    intro j hj
    rw [List.length_append, List.length_singleton, Nat.mul_succ] at hj
    rw [coeff_message_concat, if_pos (by omega)]
    exact ih _ (by omega)

/-- Strings of the same length have different polynomials. -/
theorem message_injective {xs ys : List (BitVec v)} (hlength : xs.length = ys.length) (h : message xs = message ys) :
    xs = ys := by
  induction xs using List.reverseRecOn generalizing ys with
  | nil => exact (List.length_eq_zero_iff.mp hlength.symm).symm
  | append_singleton xs x ih =>
    obtain rfl | ⟨ys, y, rfl⟩ := ys.eq_nil_or_concat
    · simp at hlength
    · rw [List.concat_eq_append] at *
      have hcoeff (j : Nat) := congrArg (fun q => q.coeff j) h
      simp only [coeff_message_concat] at hcoeff
      have hlast : x = y := by
        apply poly_injective
        ext j
        by_cases hj : v ≤ j
        · rw [coeff_poly, coeff_poly, BitVec.getMsbD_of_ge x j hj, BitVec.getMsbD_of_ge y j hj]
        · simpa only [if_neg hj] using hcoeff j
      have hfirst : message xs = message ys := by
        ext j
        have hj := hcoeff (j + v)
        simpa only [if_pos (Nat.le_add_left v j), Nat.add_sub_cancel] using hj
      rw [ih (by simpa using hlength) hfirst, hlast]

theorem generator_coeff_zero (g : BitVec w) (hw : 0 < w) : (generator g).coeff 0 = if g.getMsbD 0 then 1 else 0 := by
  rw [generator, coeff_add, coeff_X_pow, if_neg hw.ne, zero_add, coeff_poly]

/-- Two strings that differ within one register width have different
remainders. -/
theorem burst_detected {g : BitVec w} (hg : g.getMsbD 0 = true) (hw : 0 < w) {low mid mid' high : List (BitVec v)}
    (hlength : mid.length = mid'.length) (hshort : v * mid.length ≤ w) (hne : mid ≠ mid') :
    ¬ generator g ∣ message (low ++ mid ++ high) - message (low ++ mid' ++ high) := by
  have hdiff : message (low ++ mid ++ high) - message (low ++ mid' ++ high) =
      X ^ (v * high.length) * (message mid - message mid') := by
    rw [message_append, message_append, message_append, message_append, hlength, add_sub_add_right_eq_sub, ← mul_sub,
      add_sub_add_left_eq_sub]
  intro hdvd
  rw [hdiff] at hdvd
  have hconst : (generator g).coeff 0 ≠ 0 := by
    rw [generator_coeff_zero g hw, hg]
    exact one_ne_zero
  have hle : ((v * mid.length : Nat) : WithBot Nat) ≤ w := by exact_mod_cast hshort
  have hdegree : (message mid - message mid').degree < (generator g).degree := by
    rw [generator_degree]
    refine (degree_sub_le _ _).trans_lt (max_lt ?_ ?_)
    · exact (degree_message_lt mid).trans_le hle
    · refine (degree_message_lt mid').trans_le ?_
      rwa [← hlength]
  exact hne (message_injective hlength (sub_eq_zero.mp (eq_zero_of_dvd_burst hconst hdegree _ hdvd)))

end cyclic
