import Scu35Miner.Rtl.MinerAxi.Launch

open fips180 clocked radix

namespace scu35.bitcoin_miner_axi

open LoadState

/-- The shared register with its leading dividend bit taken off. -/
theorem dividend_split {n k j : Nat} (hn : n < 2 ^ 32) (hkj : k + j = 31) :
    n % 2 ^ (k + 1) * 2 ^ j + n / 2 ^ (k + 1) / 3 =
        (n.testBit k).toNat * 2 ^ 31 + (n % 2 ^ k * 2 ^ j + n / 2 ^ (k + 1) / 3) ∧
      n % 2 ^ k * 2 ^ j + n / 2 ^ (k + 1) / 3 < 2 ^ 31 := by
  have hpow : 2 ^ k * 2 ^ j = 2 ^ 31 := by rw [← Nat.pow_add, hkj]
  have hbit : (n.testBit k).toNat = n / 2 ^ k % 2 := by
    rw [Nat.testBit_eq_decide_div_mod_eq]
    obtain h | h := Nat.mod_two_eq_zero_or_one (n / 2 ^ k) <;> simp [h]
  have hquotient : n / 2 ^ (k + 1) / 3 < 2 ^ j := by
    have hlead : n / 2 ^ (k + 1) < 2 ^ j := by
      rw [Nat.div_lt_iff_lt_mul (Nat.two_pow_pos _), ← Nat.pow_add, show j + (k + 1) = 32 by omega]
      exact hn
    exact Nat.lt_of_le_of_lt (Nat.div_le_self _ _) hlead
  have hlow : n % 2 ^ k * 2 ^ j + 2 ^ j ≤ 2 ^ 31 := by
    rw [← Nat.succ_mul, ← hpow]
    exact Nat.mul_le_mul_right _ (Nat.mod_lt _ (Nat.two_pow_pos k))
  refine ⟨?_, by omega⟩
  rw [Nat.mod_pow_succ, hbit, Nat.add_mul, Nat.mul_right_comm, hpow]
  ring

/-- After `j` cycles the divider has worked off the `j` leading bits of the
count: `load_div_q` holds the other bits above the quotient so far. -/
structure Loader.Dividing {p : Params} (l : Loader p) (n : Word) (j : Nat) : Prop where
  state : l.load_state_q = if j < 32 then LOAD_DIVIDE else LOAD_PREP
  bits : l.load_div_bits_q.toNat = 32 - j
  rem : l.load_rem_q.toNat = n.toNat / 2 ^ (32 - j) % 3
  div : l.load_div_q.toNat = n.toNat % 2 ^ (32 - j) * 2 ^ j + n.toNat / 2 ^ (32 - j) / 3
  idx : l.load_engine_idx_q = 0
  start : l.engine_start_q = Vector.replicate _ false

section Divide

variable {p : Params} {s : State p} {i : Input p}

theorem load_rem_shift_toNat : s.load_rem_shift.toNat = 2 * s.load_rem_q.toNat + s.load_div_q.toNat / 2 ^ 31 := by
  have hdiv := s.load_div_q.isLt
  rw [State.load_rem_shift, BitVec.toNat_append, ← Nat.shiftLeft_add_eq_or_of_lt (BitVec.isLt _), Nat.shiftLeft_eq,
    BitVec.extractLsb'_toNat, Nat.shiftRight_eq_div_pow]
  omega

/-- Shifting a quotient bit into the register. -/
theorem shift_in_toNat (div : Word) (bit : BitVec 1) :
    (div.extractLsb' 0 31 ++ bit).toNat = 2 * (div.toNat % 2 ^ 31) + bit.toNat := by
  rw [BitVec.toNat_append, ← Nat.shiftLeft_add_eq_or_of_lt bit.isLt, Nat.shiftLeft_eq, BitVec.extractLsb'_toNat,
    Nat.shiftRight_zero]
  omega

theorem loader_divide (hstate : s.load_state_q = LOAD_DIVIDE) (hstop : s.control_write 1 = false) :
    (step p s i).toLoader = { s.toLoader with
      engine_start_q := Vector.replicate _ false
      load_rem_q := if s.load_rem_shift ≥ 3 then (s.load_rem_shift - 3).setWidth 2 else s.load_rem_shift.setWidth 2
      load_div_q := s.load_div_q.extractLsb' 0 31 ++ if s.load_rem_shift ≥ 3 then 1#1 else 0#1
      load_div_bits_q := s.load_div_bits_q - 1
      load_state_q := if s.load_div_bits_q = 1 then LOAD_PREP else LOAD_DIVIDE } := by
  rw [loader_run (by simp [hstate]) hstop, State.load_step, hstate]
  dsimp only
  by_cases hfits : s.load_rem_shift ≥ 3 <;> by_cases hlast : s.load_div_bits_q = 1 <;>
    simp only [hfits, hlast, ↓reduceIte, ← hstate]

/-- One cycle of the restoring division by three. -/
theorem divide_step {n : Word} {j : Nat} (h : s.toLoader.Dividing n j) (hj : j < 32) (hstop : s.control_write 1 = false) :
    (step p s i).toLoader.Dividing n (j + 1) := by
  obtain ⟨k, hk⟩ : ∃ k, 32 - j = k + 1 := ⟨31 - j, by omega⟩
  have hkj : k + j = 31 := by omega
  have hnext : 32 - (j + 1) = k := by omega
  have hrem := h.rem
  have hdiv := h.div
  obtain ⟨hsplit, hlow⟩ := dividend_split n.isLt hkj
  rw [hk] at hrem hdiv
  rw [hsplit] at hdiv
  have hremainder := remainder_step (n := n.toNat) (d := 3) (by decide) k
  have hquotient := quotient_step (n := n.toNat) (d := 3) (by decide) k
  have hlt := shifted_lt (n := n.toNat) (d := 3) (by decide) k
  have hbit := Bool.toNat_le (n.toNat.testBit k)
  have hdouble : n.toNat % 2 ^ k * 2 ^ (j + 1) + n.toNat / 2 ^ k / 3 =
      2 * (n.toNat % 2 ^ k * 2 ^ j + n.toNat / 2 ^ (k + 1) / 3) + if 3 ≤ shifted n.toNat 3 k then 1 else 0 := by
    rw [hquotient, Nat.pow_succ]
    ring
  generalize n.toNat % 2 ^ k * 2 ^ j + n.toNat / 2 ^ (k + 1) / 3 = low at *
  have hshift : s.load_rem_shift.toNat = shifted n.toNat 3 k := by
    rw [load_rem_shift_toNat, hrem, hdiv, shifted]
    omega
  have hge : s.load_rem_shift ≥ 3 ↔ 3 ≤ shifted n.toNat 3 k := by
    rw [ge_iff_le, BitVec.le_def, hshift]
    rfl
  have hlast : s.load_div_bits_q = 1 ↔ ¬ j + 1 < 32 := by
    rw [← BitVec.toNat_inj, h.bits]
    change 32 - j = 1 ↔ _
    omega
  rw [loader_divide (by rw [h.state, if_pos hj]) hstop]
  refine ⟨?_, ?_, ?_, ?_, h.idx, rfl⟩
  · simp only [hlast]
    split <;> simp_all
  · change (s.load_div_bits_q - 1).toNat = _
    rw [BitVec.toNat_sub, h.bits]
    change (2 ^ 6 - 1 + (32 - j)) % 2 ^ 6 = _
    omega
  · rw [hnext, hremainder]
    simp only [hge]
    split
    · rw [BitVec.toNat_setWidth, BitVec.toNat_sub, hshift]
      change (2 ^ 3 - 3 + _) % 2 ^ 3 % 2 ^ 2 = _
      omega
    · rw [BitVec.toNat_setWidth, hshift]
      omega
  · rw [hnext, hdouble]
    simp only [hge]
    rw [shift_in_toNat, hdiv]
    split <;> simp <;> omega

end Divide

end scu35.bitcoin_miner_axi
