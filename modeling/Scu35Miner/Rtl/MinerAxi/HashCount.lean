import Scu35Miner.Rtl.MinerAxi.Polling

open fips180 clocked

namespace scu35.bitcoin_miner_axi

section Counter

variable {p : Params}

/-- How many engines complete a hash in a cycle. -/
def State.hashes (s : State p) : Nat := (List.finRange p.NUM_ENGINES).countP fun k => s.engines[k].hash_complete_o

/-- The counter adds up the hashes modulo its width. -/
theorem trace_hash_count (s : State p) (ins : Nat → Input p) (n : Nat) : (trace (step p) s ins n).hash_count_q =
    s.hash_count_q + BitVec.ofNat 32 (∑ u ∈ Finset.range n, (trace (step p) s ins u).hashes) := by
  induction n with
  | zero =>
    rw [Finset.sum_range_zero]
    exact (BitVec.add_zero _).symm
  | succ n ih =>
    have hfits : (trace (step p) s ins n).hashes < 2 ^ Nat.clog 2 (p.NUM_ENGINES + 1) := by
      have hle : (trace (step p) s ins n).hashes ≤ (List.finRange p.NUM_ENGINES).length := List.countP_le_length
      rw [List.length_finRange] at hle
      exact Nat.lt_of_lt_of_le (Nat.lt_succ_of_le hle) (Nat.le_pow_clog (by decide) _)
    have hwide : (trace (step p) s ins n).hashes_this_cycle.setWidth 32 = BitVec.ofNat 32 (trace (step p) s ins n).hashes := by
      apply BitVec.eq_of_toNat_eq
      rw [State.hashes_this_cycle, BitVec.toNat_setWidth, BitVec.toNat_ofNat, BitVec.toNat_ofNat]
      exact congrArg (· % 2 ^ 32) (Nat.mod_eq_of_lt hfits)
    rw [trace_succ, Finset.sum_range_succ, BitVec.ofNat_add, ← BitVec.add_assoc, ← ih, ← hwide]
    rfl

/-- The cycle of a job in which the double hash of its `i`-th nonce is complete. -/
def Params.hash_cycle (p : Params) (i : Nat) : Nat :=
  p.lane_start (i % p.NUM_ENGINES) + (p.engine.period * (i / p.NUM_ENGINES) + p.engine.hashed + 1)

variable {s : State p} {ins : Nat → Input p} {t n : Nat}

/-- A lane completes the hash of each of its nonces once. -/
theorem JobRun.hash_complete_iff (h : JobRun s ins t) (hheld : JobHeld s ins) {k : Fin p.NUM_ENGINES}
    (hidle : s.engines[k].Idle) (hpending : s.engine_start_q[k] = false) :
    (trace (step p) s ins t).engines[k].hash_complete_o = true ↔
      ∃ i < s.nonce_count_q.toNat, i % p.NUM_ENGINES = k ∧ t = p.hash_cycle i := by
  have hengines := p.engines_lt
  have hperiod := p.engine.period_eq
  have hhashed : p.engine.hashed < p.engine.period := by
    rw [hperiod]
    unfold bitcoin_hash_engine.Params.hashed
    omega
  have hquota (hstarted : p.lane_start k ≤ t) (j : Nat) :
      j < (quota s ins k).toNat ↔ k + p.NUM_ENGINES * j < s.nonce_count_q.toNat := by
    rw [((h.mono hstarted).lane_takes hheld).2]
    exact lt_engine_work_count_iff s.nonce_count_q (by omega) j
  constructor
  · intro hcomplete
    by_cases hbusy : LaneBusy s ins k t
    · obtain ⟨hpast, hle⟩ := hbusy
      unfold lane_end at hle
      obtain ⟨m, rfl⟩ : ∃ m, t = p.lane_start k + (m + 1) := ⟨t - p.lane_start k - 1, by omega⟩
      have hm : m < p.engine.period * (quota s ins k).toNat := by omega
      obtain ⟨_, hat⟩ := h.lane_scans hidle hpending hm
      have hplace := bitcoin_hash_engine.stage_eq_done_iff.mp (hat.hash_complete.mp hcomplete)
      have hindex := (hquota (by omega) _).mp (Nat.div_lt_of_lt_mul hm)
      obtain ⟨hlane, hnonce⟩ := (lane_of_index k.isLt).mp (rfl : k + p.NUM_ENGINES * (m / p.engine.period) = _)
      have hdiv := Nat.div_add_mod m p.engine.period
      refine ⟨_, hindex, hlane, ?_⟩
      rw [Params.hash_cycle, hlane, hnonce]
      omega
    · have hrest := (h.lane_idle hidle hpending hbusy).state
      rw [bitcoin_hash_engine.State.hash_complete_o, hrest] at hcomplete
      cases hcomplete
  · rintro ⟨i, hi, hlane, rfl⟩
    rw [Params.hash_cycle, hlane] at h hquota ⊢
    have hindex := (lane_of_index k.isLt).mpr ⟨hlane, rfl⟩
    rw [hindex] at hi
    have hj := (hquota (Nat.le_add_right _ _) _).mpr hi
    have hle : p.engine.period * (i / p.NUM_ENGINES + 1) ≤ p.engine.period * (quota s ins k).toNat :=
      Nat.mul_le_mul_left _ hj
    rw [Nat.mul_add] at hle
    obtain ⟨_, hat⟩ := h.lane_scans hidle hpending (by omega)
    refine hat.hash_complete.mpr (bitcoin_hash_engine.stage_eq_done_iff.mpr ?_)
    rw [Nat.mul_add_mod, Nat.mod_eq_of_lt hhashed]

theorem hashes_eq_card (s : State p) :
    s.hashes = ((Finset.univ : Finset (Fin p.NUM_ENGINES)).filter fun k => s.engines[k].hash_complete_o = true).card := by
  rw [State.hashes, List.countP_eq_length_filter, Fin.univ_def]
  exact congrArg List.length (List.filter_congr fun k _ => Bool.decide_eq_true.symm)

theorem hash_cycle_injective {i j : Nat} (hlane : i % p.NUM_ENGINES = j % p.NUM_ENGINES)
    (hcycle : p.hash_cycle i = p.hash_cycle j) : i = j := by
  rw [Params.hash_cycle, Params.hash_cycle, hlane] at hcycle
  have hperiods : p.engine.period * (i / p.NUM_ENGINES) = p.engine.period * (j / p.NUM_ENGINES) := by omega
  have hplace := Nat.eq_of_mul_eq_mul_left p.engine.period_pos hperiods
  rw [← Nat.mod_add_div i p.NUM_ENGINES, ← Nat.mod_add_div j p.NUM_ENGINES, hlane, hplace]

/-- The hashes of a job that are complete so far, counted by lanes and cycles and
by nonces. -/
theorem JobRun.sum_hashes (hreach : Reachable (step p) IsReset s) (hquiet : s.Quiescent) (h : JobRun s ins n)
    (hheld : JobHeld s ins) : ∑ u ∈ Finset.range n, (trace (step p) s ins u).hashes =
      ((Finset.range s.nonce_count_q.toNat).filter fun i => p.hash_cycle i < n).card := by
  have hcomplete {u : Nat} (hu : u < n) (k : Fin p.NUM_ENGINES) :=
    (h.mono (Nat.le_of_lt hu)).hash_complete_iff hheld (hquiet.idle hreach k) (hquiet.not_pending k)
  simp only [hashes_eq_card, ← Finset.card_sigma]
  refine (Finset.card_bij (fun i _ => ⟨p.hash_cycle i, ⟨i % p.NUM_ENGINES, Nat.mod_lt i p.engines_pos⟩⟩) ?_ ?_ ?_).symm
  · intro i hi
    rw [Finset.mem_filter, Finset.mem_range] at hi
    rw [Finset.mem_sigma, Finset.mem_range, Finset.mem_filter]
    exact ⟨hi.2, Finset.mem_univ _, (hcomplete hi.2 _).mpr ⟨i, hi.1, rfl, rfl⟩⟩
  · intro i _ j _ hsame
    rw [Sigma.mk.injEq] at hsame
    obtain ⟨hcycle, hlane⟩ := hsame
    exact hash_cycle_injective (Fin.mk.inj (eq_of_heq hlane)) hcycle
  · rintro ⟨u, k⟩ hmem
    rw [Finset.mem_sigma, Finset.mem_range, Finset.mem_filter] at hmem
    obtain ⟨hu, -, hraised⟩ := hmem
    obtain ⟨i, hi, hlane, rfl⟩ := (hcomplete hu k).mp hraised
    refine ⟨i, Finset.mem_filter.mpr ⟨Finset.mem_range.mpr hi, hu⟩, ?_⟩
    rw [Sigma.mk.injEq]
    exact ⟨rfl, heq_of_eq (Fin.ext hlane)⟩

/-- While a job runs, `HASH_COUNT` has advanced by the number of its nonces whose
double hashes are complete, modulo its width; in the end that is the nonce count,
whatever was found or lost. -/
theorem hashes_counted (hreach : Reachable (step p) IsReset s) (hquiet : s.Quiescent) (h : JobRun s ins n)
    (hheld : JobHeld s ins) :
    (trace (step p) s ins n).hash_count_q =
      s.hash_count_q + BitVec.ofNat 32 ((Finset.range s.nonce_count_q.toNat).filter fun i => p.hash_cycle i < n).card ∧
    (1 ≤ n → (trace (step p) s ins n).Quiescent → (trace (step p) s ins n).hash_count_q = s.hash_count_q + s.nonce_count_q) := by
  have hcounted : (trace (step p) s ins n).hash_count_q = _ :=
    (trace_hash_count s ins n).trans (by rw [h.sum_hashes hreach hquiet hheld])
  refine ⟨hcounted, fun hpos hrest => ?_⟩
  have hended := h.ended_of_quiescent hreach hquiet hpos hrest
  have hall : ((Finset.range s.nonce_count_q.toNat).filter fun i => p.hash_cycle i < n) =
      Finset.range s.nonce_count_q.toNat := by
    refine Finset.filter_true_of_mem fun i hi => ?_
    have hlater := (hended.share_cycle_lt h hheld (Finset.mem_range.mp hi)).2
    have hperiod := p.engine.period_eq
    unfold Params.share_cycle at hlater
    rw [Nat.mul_add] at hlater
    unfold Params.hash_cycle bitcoin_hash_engine.Params.hashed
    omega
  rw [hcounted, hall, Finset.card_range, BitVec.ofNat_toNat, BitVec.setWidth_eq]

end Counter

theorem polled_job_counted : (trace (step deployed) (reset_state deployed) polled_job 621).hash_count_q =
    (trace (step deployed) (reset_state deployed) polled_job 6).hash_count_q +
      BitVec.ofNat 32 ((Finset.range (trace (step deployed) (reset_state deployed) polled_job 6).nonce_count_q.toNat).filter
        fun i => deployed.hash_cycle i < 615).card := by
  have hreach : Reachable (step deployed) IsReset (trace (step deployed) (reset_state deployed) polled_job 6) :=
    (Reachable.reset (reset_state_isReset deployed)).trace polled_job 6
  have hcounted := (hashes_counted hreach polled_job_clean.quiescent (polled_job_alone 615).run polled_job_held).1
  rwa [trace_after] at hcounted

end scu35.bitcoin_miner_axi
