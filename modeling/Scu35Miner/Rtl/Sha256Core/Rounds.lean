import Scu35Miner.Rtl.Sha256Core

open fips180

namespace scu35.sha256_core_iterative

open dsp48e2_add32

/-- Cycles that each round takes in the selected schedule. -/
def Params.phases (p : Params) : Nat := if p.FOUR_PHASE then 4 else 5

def State.working (s : State) : Working := ⟨s.a_q, s.b_q, s.c_q, s.d_q, s.e_q, s.f_q, s.g_q, s.h_q⟩

theorem rotr_eq (x : Word) {n : Nat} (hn : n < 32) : rotr x n = x.rotateRight n := by
  rw [BitVec.rotateRight_def, Nat.mod_eq_of_lt hn]
  rfl

theorem big_sigma0_eq (x : Word) : big_sigma0 x = bigSigma0 x := by
  simp only [big_sigma0, bigSigma0, rotr_eq _ (show 2 < 32 by omega), rotr_eq _ (show 13 < 32 by omega),
    rotr_eq _ (show 22 < 32 by omega)]

theorem big_sigma1_eq (x : Word) : big_sigma1 x = bigSigma1 x := by
  simp only [big_sigma1, bigSigma1, rotr_eq _ (show 6 < 32 by omega), rotr_eq _ (show 11 < 32 by omega),
    rotr_eq _ (show 25 < 32 by omega)]

theorem small_sigma0_eq (x : Word) : small_sigma0 x = smallSigma0 x := by
  simp only [small_sigma0, smallSigma0, rotr_eq _ (show 7 < 32 by omega), rotr_eq _ (show 18 < 32 by omega)]

theorem small_sigma1_eq (x : Word) : small_sigma1 x = smallSigma1 x := by
  simp only [small_sigma1, smallSigma1, rotr_eq _ (show 17 < 32 by omega), rotr_eq _ (show 19 < 32 by omega)]

/-! Every adder of the core adds, whichever of them are placed in slices. -/

@[simp] theorem round_add_eq (p : Params) (a b : Word) : round_add p a b = a + b := by
  simp [round_add, sum_o_eq]

@[simp] theorem schedule_add_eq (p : Params) (a b : Word) : schedule_add p a b = a + b := by
  simp [schedule_add, sum_o_eq]

@[simp] theorem t1_add_eq (p : Params) (a b : Word) : t1_add p a b = a + b := by
  simp [t1_add, sum_o_eq]

/-- Between two edges of round `r`: the working variables are those of the
standard after `r` rounds, and the window holds the last sixteen words of the
message schedule, each at its index modulo sixteen. -/
structure State.InRound (iv : Vector Word 8) (m : Vector Word 16) (r : Nat) (s : State) : Prop where
  bound : r < 64
  round : s.round_q.toNat = r
  busy : s.busy_q = true
  done : s.done_o = false
  hash : #v[s.h0_q, s.h1_q, s.h2_q, s.h3_q, s.h4_q, s.h5_q, s.h6_q, s.h7_q] = iv
  working : s.working = rounds m (.ofHash iv) r
  window : ∀ t (j : Fin 16), j.val = t % 16 → t < max 16 r → max 16 r ≤ t + 16 → s.w_mem.get j = schedule m t

/-- Phase 0 has sampled the round inputs. The four schedule operands matter
from round 16 on, the stored message word only before it. -/
structure State.Sampled (m : Vector Word 16) (r : Nat) (v : Working) (s : State) : Prop where
  t1_a : s.t1_a_q = v.h + bigSigma1 v.e
  t1_b : s.t1_b_q = ch v.e v.f v.g + roundConstant r
  t2 : s.t2_q = v.temp2
  t1_c : r < 16 → s.t1_c_q = schedule m r
  w_s1 : 16 ≤ r → s.w_s1_q = smallSigma1 (schedule m (r - 2))
  w_m7 : 16 ≤ r → s.w_m7_q = schedule m (r - 7)
  w_s0 : 16 ≤ r → s.w_s0_q = smallSigma0 (schedule m (r - 15))
  w_m16 : 16 ≤ r → s.w_m16_q = schedule m (r - 16)

/-- Phase 1 has added the operands in pairs. -/
structure State.Paired (p : Params) (m : Vector Word 16) (r : Nat) (v : Working) (s : State) : Prop where
  w_ab : 16 ≤ r → s.w_ab_q = smallSigma1 (schedule m (r - 2)) + schedule m (r - 7)
  w_cd : 16 ≤ r → s.w_cd_q = smallSigma0 (schedule m (r - 15)) + schedule m (r - 16)
  t1_ab : p.FOUR_PHASE = true → s.t1_ab_q = (v.h + bigSigma1 v.e) + (ch v.e v.f v.g + roundConstant r)

/-- The core while it compresses block `m` into `iv`, before the edge that
ends phase `ph` of round `r`. -/
structure State.Computing (p : Params) (iv : Vector Word 8) (m : Vector Word 16) (r ph : Nat)
    (s : State) : Prop extends s.InRound iv m r where
  phase_lt : ph < p.phases
  phase : s.phase_q.toNat = ph
  sampled : 1 ≤ ph → s.Sampled m r (rounds m (.ofHash iv) r)
  paired : 2 ≤ ph → s.Paired p m r (rounds m (.ofHash iv) r)
  w_new : 3 ≤ ph → 16 ≤ r → s.w_new_q = schedule m r
  t1 : ph + 1 = p.phases → s.t1_q = (rounds m (.ofHash iv) r).temp1 (roundConstant r) (schedule m r)

theorem Params.phases_cases (p : Params) :
    (p.FOUR_PHASE = true ∧ p.phases = 4) ∨ (p.FOUR_PHASE = false ∧ p.phases = 5) := by
  cases h : p.FOUR_PHASE <;> simp [Params.phases, h]

theorem temp1_eq (v : Working) (c w : Word) :
    (v.h + bigSigma1 v.e) + (ch v.e v.f v.g + c) + w = v.temp1 c w := by
  unfold Working.temp1
  ac_rfl

/-- The window read at a distance of at most fifteen words behind round `r`,
or at round `r`'s own slot, which still holds the word sixteen rounds back. -/
theorem State.InRound.w_at {iv : Vector Word 8} {m : Vector Word 16} {r : Nat} {s : State}
    (h : s.InRound iv m r) (back : BitVec 4) {t : Nat} (hlo : t < max 16 r) (hhi : max 16 r ≤ t + 16)
    (hmod : (r + 16 - back.toNat) % 16 = t % 16) :
    s.w_at (s.round_q.extractLsb' 0 4 - back) = schedule m t := by
  apply h.window t _ ?_ hlo hhi
  have hr := h.round
  have hbound := h.bound
  simp only [BitVec.toNat_sub, BitVec.extractLsb'_toNat, Nat.shiftRight_zero, hr]
  omega

theorem State.InRound.w_at_own {iv : Vector Word 8} {m : Vector Word 16} {r : Nat} {s : State}
    (h : s.InRound iv m r) {t : Nat} (hlo : t < max 16 r) (hhi : max 16 r ≤ t + 16)
    (hmod : r % 16 = t % 16) : s.w_at s.w_idx = schedule m t := by
  have hown : s.w_idx = s.round_q.extractLsb' 0 4 - 0#4 := (BitVec.sub_zero _).symm
  rw [hown]
  exact h.w_at 0#4 hlo hhi (by simpa using hmod)

/-- The case table holds the constants of the standard. -/
theorem k_eq_roundConstant : ∀ idx : BitVec 7, k idx = roundConstant idx.toNat := by decide

theorem k_eq {s : State} {r : Nat} (h : s.round_q.toNat = r) : k s.round_q = roundConstant r := by
  rw [k_eq_roundConstant, h]

section Steps

variable {p : Params} {iv : Vector Word 8} {m : Vector Word 16} {r : Nat} {s : State}

/-- Phase 0 of a round. -/
theorem State.Computing.sample (h : s.Computing p iv m r 0) (i : Input) :
    (step p s i).Computing p iv m r 1 := by
  have hphase : s.phase_q = 0 := BitVec.eq_of_toNat_eq h.phase
  have hv := h.working
  have hlt := h.bound
  have hstep : step p s i =
      { s with
        done_o := false
        t1_a_q := s.round_t1_a p, t1_b_q := s.round_t1_b p, t1_c_q := s.w_at s.w_idx
        t2_q := s.round_t2 p
        w_s1_q := small_sigma1 (s.w_at s.w_idx_m2), w_m7_q := s.w_at s.w_idx_m7
        w_s0_q := small_sigma0 (s.w_at s.w_idx_m15), w_m16_q := s.w_at s.w_idx_m16
        phase_q := 1 } := by
    simp [step, h.busy, hphase]
  rw [hstep]
  refine ⟨⟨hlt, h.round, h.busy, rfl, h.hash, hv, h.window⟩, ?_, rfl, ?_, by omega, by omega, ?_⟩
  · rcases p.phases_cases with ⟨_, hp⟩ | ⟨_, hp⟩ <;> omega
  · intro _
    rw [← hv]
    refine ⟨?_, ?_, ?_, ?_, ?_, ?_, ?_, ?_⟩
    · simp [State.round_t1_a, State.working, big_sigma1_eq]
    · simp [State.round_t1_b, State.working, k_eq h.round]
    · simp [State.round_t2, State.working, Working.temp2, big_sigma0_eq]
      rfl
    · intro hr
      exact h.w_at_own (by omega) (by omega) rfl
    · intro hr
      rw [small_sigma1_eq]
      exact congrArg smallSigma1 (h.w_at 2#4 (by omega) (by omega) (by simp; omega))
    · intro hr
      exact h.w_at 7#4 (by omega) (by omega) (by simp; omega)
    · intro hr
      rw [small_sigma0_eq]
      exact congrArg smallSigma0 (h.w_at 15#4 (by omega) (by omega) (by simp; omega))
    · intro hr
      exact h.w_at 0#4 (by omega) (by omega) (by simp; omega)
  · rcases p.phases_cases with ⟨_, hp⟩ | ⟨_, hp⟩ <;> omega

/-- Phase 1 of a round. -/
theorem State.Computing.pair (h : s.Computing p iv m r 1) (i : Input) :
    (step p s i).Computing p iv m r 2 := by
  have hphase : s.phase_q = 1 := BitVec.eq_of_toNat_eq h.phase
  have hs := h.sampled (le_refl _)
  have hstep : step p s i =
      { s with
        done_o := false
        w_ab_q := s.w_ab_add p, w_cd_q := s.w_cd_add p
        t1_ab_q := if p.FOUR_PHASE then s.t1_ab_add p else s.t1_ab_q
        phase_q := 2 } := by
    simp [step, h.busy, hphase]
  rw [hstep]
  refine ⟨⟨h.bound, h.round, h.busy, rfl, h.hash, h.working, h.window⟩, ?_, rfl, fun _ => ?_, fun _ => ?_,
    by omega, ?_⟩
  · rcases p.phases_cases with ⟨_, hp⟩ | ⟨_, hp⟩ <;> omega
  · exact ⟨hs.t1_a, hs.t1_b, hs.t2, hs.t1_c, hs.w_s1, hs.w_m7, hs.w_s0, hs.w_m16⟩
  · refine ⟨?_, ?_, ?_⟩
    · intro hr
      simp [State.w_ab_add, hs.w_s1 hr, hs.w_m7 hr]
    · intro hr
      simp [State.w_cd_add, hs.w_s0 hr, hs.w_m16 hr]
    · intro hfour
      simp [hfour, State.t1_ab_add, hs.t1_a, hs.t1_b]
  · rcases p.phases_cases with ⟨_, hp⟩ | ⟨_, hp⟩ <;> omega

/-- Phase 2 of a round; the four-phase schedule completes `T1` here, from the
new message word before it is registered. -/
theorem State.Computing.extend (h : s.Computing p iv m r 2) (i : Input) :
    (step p s i).Computing p iv m r 3 := by
  have hphase : s.phase_q = 2 := BitVec.eq_of_toNat_eq h.phase
  have hs := h.sampled (by omega)
  have hp := h.paired (le_refl _)
  have hnew : 16 ≤ r → s.w_new_add p = schedule m r := by
    intro hr
    rw [schedule_recurrence m hr, State.w_new_add, schedule_add_eq, hp.w_ab hr, hp.w_cd hr]
  have hstep : step p s i =
      { s with
        done_o := false
        w_new_q := s.w_new_add p
        t1_q := if p.FOUR_PHASE then s.t1_total_add p else s.t1_q
        phase_q := 3 } := by
    simp [step, h.busy, hphase]
  rw [hstep]
  refine ⟨⟨h.bound, h.round, h.busy, rfl, h.hash, h.working, h.window⟩, ?_, rfl, fun _ => ?_, fun _ => ?_,
    fun _ => hnew, ?_⟩
  · rcases p.phases_cases with ⟨_, hp⟩ | ⟨_, hp⟩ <;> omega
  · exact ⟨hs.t1_a, hs.t1_b, hs.t2, hs.t1_c, hs.w_s1, hs.w_m7, hs.w_s0, hs.w_m16⟩
  · exact ⟨hp.w_ab, hp.w_cd, hp.t1_ab⟩
  · intro hlast
    rcases p.phases_cases with ⟨hfour, _⟩ | ⟨_, hfive⟩
    · have hw : s.t1_w_add p = schedule m r := by
        unfold State.t1_w_add
        by_cases hr : r < 16
        · rw [if_pos (by simpa [BitVec.lt_def, h.round] using hr), hs.t1_c hr]
        · rw [if_neg (by simpa [BitVec.lt_def, h.round] using hr), hnew (by omega)]
      simp only [hfour, ↓reduceIte, State.t1_total_add, t1_add_eq, hp.t1_ab hfour, hw, temp1_eq]
    · omega

/-- Phase 3 of the five-phase schedule completes `T1`. -/
theorem State.Computing.total (h : s.Computing p iv m r 3) (hfive : p.FOUR_PHASE = false) (i : Input) :
    (step p s i).Computing p iv m r 4 := by
  have hphase : s.phase_q = 3 := BitVec.eq_of_toNat_eq h.phase
  have hs := h.sampled (by omega)
  have hp := h.paired (by omega)
  have hstep : step p s i =
      { s with
        done_o := false
        t1_q := s.t1_a_q + s.t1_b_q + (if s.round_q < 16#7 then s.t1_c_q else s.w_new_q)
        phase_q := 4 } := by
    simp [step, h.busy, hphase, hfive]
  have hphases : p.phases = 5 := by simp [Params.phases, hfive]
  rw [hstep]
  refine ⟨⟨h.bound, h.round, h.busy, rfl, h.hash, h.working, h.window⟩, by omega, rfl, fun _ => ?_, fun _ => ?_,
    fun _ => h.w_new (le_refl _), fun _ => ?_⟩
  · exact ⟨hs.t1_a, hs.t1_b, hs.t2, hs.t1_c, hs.w_s1, hs.w_m7, hs.w_s0, hs.w_m16⟩
  · exact ⟨hp.w_ab, hp.w_cd, hp.t1_ab⟩
  · have hw : (if s.round_q < 16#7 then s.t1_c_q else s.w_new_q) = schedule m r := by
      by_cases hr : r < 16
      · rw [if_pos (by simpa [BitVec.lt_def, h.round] using hr), hs.t1_c hr]
      · rw [if_neg (by simpa [BitVec.lt_def, h.round] using hr), h.w_new (le_refl _) (by omega)]
    simp only [hw, hs.t1_a, hs.t1_b, temp1_eq]

/-- Both schedules end a round in `finish_round`. -/
theorem State.Computing.step_last {ph : Nat} (h : s.Computing p iv m r ph) (hlast : ph + 1 = p.phases)
    (i : Input) : step p s i = s.finish_round p := by
  rcases p.phases_cases with ⟨hfour, hp⟩ | ⟨hfive, hp⟩
  · have hphase : s.phase_q = 3 := BitVec.eq_of_toNat_eq (h.phase.trans (by simp; omega))
    simp [step, h.busy, hphase, hfour]
  · have hphase : s.phase_q = 4 := BitVec.eq_of_toNat_eq (h.phase.trans (by simp; omega))
    simp [step, h.busy, hphase]

private theorem finish_working (h : s.InRound iv m r)
    (ht1 : s.t1_q = (rounds m (.ofHash iv) r).temp1 (roundConstant r) (schedule m r))
    (ht2 : s.t2_q = (rounds m (.ofHash iv) r).temp2) :
    (⟨s.a_next p, s.a_q, s.b_q, s.c_q, s.e_next p, s.e_q, s.f_q, s.g_q⟩ : Working) =
      rounds m (.ofHash iv) (r + 1) := by
  rw [rounds, ← h.working]
  rw [← h.working] at ht1 ht2
  simp [Working.round, State.a_next, State.e_next, ht1, ht2, State.working]

/-- The last phase of a round before the sixty-fourth. -/
theorem State.Computing.advance {ph : Nat} (h : s.Computing p iv m r ph) (hlast : ph + 1 = p.phases)
    (hr : r + 1 < 64) (i : Input) : (step p s i).Computing p iv m (r + 1) 0 := by
  have hph : 3 ≤ ph := by rcases p.phases_cases with ⟨_, hp⟩ | ⟨_, hp⟩ <;> omega
  have hs := h.sampled (by omega)
  have hround := h.round
  have hne : s.round_q ≠ 63 := by
    intro heq
    rw [heq] at hround
    simp at hround
    omega
  have hnext : (s.round_q + 1).toNat = r + 1 := by
    rw [BitVec.toNat_add, hround]
    simp
    omega
  rw [h.step_last hlast, State.finish_round, if_neg hne]
  refine ⟨⟨hr, hnext, h.busy, rfl, h.hash, finish_working h.toInRound (h.t1 hlast) hs.t2, ?_⟩,
    by omega, rfl, by omega, by omega, by omega, by omega⟩
  intro t j hj hlo hhi
  have hidx : s.w_idx.toNat = r % 16 := by
    simp [State.w_idx, hround]
  change Vector.get (if 16#7 ≤ s.round_q then s.w_mem.set s.w_idx.toNat s.w_new_q s.w_idx.isLt else s.w_mem) j = _
  by_cases hwrite : 16 ≤ r
  · rw [if_pos (by simpa [BitVec.le_def, hround] using hwrite)]
    by_cases hown : t = r
    · have hval : s.w_idx.toNat = j.val := by omega
      simp only [Vector.get_eq_getElem, Vector.getElem_set, hval, ↓reduceIte]
      rw [h.w_new hph hwrite, hown]
    · have hval : s.w_idx.toNat ≠ j.val := by omega
      simp only [Vector.get_eq_getElem, Vector.getElem_set, hval, ↓reduceIte]
      exact h.window t j hj (by omega) (by omega)
  · rw [if_neg (by simpa [BitVec.le_def, hround] using hwrite)]
    exact h.window t j hj (by omega) (by omega)

/-- The last phase of the sixty-fourth round delivers the compression. -/
theorem State.Computing.finish {ph : Nat} (h : s.Computing p iv m 63 ph) (hlast : ph + 1 = p.phases)
    (i : Input) : (step p s i).busy_q = false ∧ (step p s i).done_o = true ∧
      (step p s i).digest_o = compress iv m := by
  have hph : 3 ≤ ph := by rcases p.phases_cases with ⟨_, hp⟩ | ⟨_, hp⟩ <;> omega
  have hround : s.round_q = 63 := BitVec.eq_of_toNat_eq h.round
  have hv := finish_working (p := p) h.toInRound (h.t1 hlast) (h.sampled (by omega)).t2
  rw [h.step_last hlast, State.finish_round, if_pos hround]
  refine ⟨rfl, rfl, ?_⟩
  change s.digest p = _
  rw [compress, ← hv, ← h.hash]
  rfl

/-- A start accepted while the core is idle begins round 0, whatever the
datapath registers held. -/
theorem load_computing (p : Params) (s : State) (i : Input) (hidle : s.busy_q = false)
    (hstart : i.start_i = true) : (step p s i).Computing p i.h_i i.block_i 0 0 := by
  have hstep : step p s i = s.load i := by simp [step, hidle, hstart]
  rw [hstep]
  refine ⟨⟨by omega, rfl, rfl, rfl, ?_, rfl, ?_⟩, ?_, rfl, by omega, by omega, by omega, ?_⟩
  · apply Vector.ext
    intro j hj
    have hcases : j = 0 ∨ j = 1 ∨ j = 2 ∨ j = 3 ∨ j = 4 ∨ j = 5 ∨ j = 6 ∨ j = 7 := by omega
    rcases hcases with rfl | rfl | rfl | rfl | rfl | rfl | rfl | rfl <;> rfl
  · intro t j hj hlo _
    have ht : j.val = t := by omega
    subst ht
    rw [schedule_input _ j.isLt]
    rfl
  · rcases p.phases_cases with ⟨_, hp⟩ | ⟨_, hp⟩ <;> omega
  · rcases p.phases_cases with ⟨_, hp⟩ | ⟨_, hp⟩ <;> omega

/-- One edge of a compression that does not end a round. -/
theorem State.Computing.next {ph : Nat} (h : s.Computing p iv m r ph) (hph : ph + 1 < p.phases) (i : Input) :
    (step p s i).Computing p iv m r (ph + 1) := by
  rcases p.phases_cases with ⟨_, hp⟩ | ⟨hfive, hp⟩
  · have hcases : ph = 0 ∨ ph = 1 ∨ ph = 2 := by omega
    rcases hcases with rfl | rfl | rfl
    · exact h.sample i
    · exact h.pair i
    · exact h.extend i
  · have hcases : ph = 0 ∨ ph = 1 ∨ ph = 2 ∨ ph = 3 := by omega
    rcases hcases with rfl | rfl | rfl | rfl
    · exact h.sample i
    · exact h.pair i
    · exact h.extend i
    · exact h.total hfive i

end Steps

end scu35.sha256_core_iterative
