import Scu35Miner.Rtl.MinerAxi.Clusters
import Scu35Miner.Rtl.MinerAxi.Completion
import Scu35Miner.Rtl.MinerAxi.Discard

open fips180 clocked

namespace scu35.bitcoin_miner_axi

open LoadState

section Pending

variable {p : Params} {s : State p} {i : Input p}

/-- A resting launch machine has no start pulse pending but that of the last
lane. -/
structure Loader.LastPending (l : Loader p) : Prop where
  decode : l.load_state_q = LOAD_DECODE →
    l.load_start_last_q = (l.load_start_idx_q == BitVec.ofNat p.ENGINE_INDEX_WIDTH p.NUM_ENGINES - 1)
  launch : l.load_state_q = LOAD_START → l.load_start_last_q = true →
    ∀ k : Fin p.NUM_ENGINES, l.load_start_onehot_q[k] = true → k.val + 1 = p.NUM_ENGINES
  idle : l.load_state_q = LOAD_IDLE → ∀ k : Fin p.NUM_ENGINES, l.engine_start_q[k] = true → k.val + 1 = p.NUM_ENGINES

theorem no_pulse (k : Fin p.NUM_ENGINES) : (Vector.replicate p.NUM_ENGINES false)[k] = false := by
  rw [getElem_lane, Vector.getElem_replicate]

/-- Before the lanes are prepared no lane is at issue. -/
theorem last_pending_of_early {l : Loader p} (h : l.load_state_q = LOAD_DIVIDE ∨ l.load_state_q = LOAD_PREP) :
    l.LastPending := by
  obtain hstate | hstate := h
  · exact ⟨by simp [hstate], by simp [hstate], by simp [hstate]⟩
  · exact ⟨by simp [hstate], by simp [hstate], by simp [hstate]⟩

theorem last_pending_of_none {l : Loader p} (hstate : l.load_state_q = LOAD_IDLE)
    (hnone : l.engine_start_q = Vector.replicate _ false) : l.LastPending := by
  refine ⟨by simp [hstate], by simp [hstate], fun _ k hpulse => ?_⟩
  rw [hnone, no_pulse] at hpulse
  cases hpulse

theorem Loader.LastPending.step (h : s.toLoader.LastPending) : (step p s i).toLoader.LastPending := by
  cases hstop : s.control_write 1 with
  | true =>
    obtain ⟨hidle, hnone⟩ := loader_stop hstop (i := i)
    exact last_pending_of_none hidle hnone
  | false =>
    cases hstate : s.load_state_q with
    | LOAD_IDLE =>
      cases hstart : s.starts with
      | true =>
        rw [loader_start hstart hstop]
        apply last_pending_of_early
        by_cases hthree : p.NUM_ENGINES = 3
        · exact .inl (if_pos hthree)
        · exact .inr (if_neg hthree)
      | false =>
        rw [loader_idle hstate hstart]
        exact last_pending_of_none hstate rfl
    | LOAD_DIVIDE =>
      rw [loader_divide hstate hstop]
      apply last_pending_of_early
      by_cases hlast : s.load_div_bits_q = 1
      · exact .inr (if_pos hlast)
      · exact .inl (if_neg hlast)
    | LOAD_PREP =>
      rw [loader_prep hstate hstop]
      exact ⟨fun _ => rfl, by simp, by simp⟩
    | LOAD_DECODE =>
      rw [loader_decode hstate hstop]
      refine ⟨by simp, fun _ hlast k hpulse => ?_, by simp⟩
      rw [h.decode hstate] at hlast
      rw [onehot_eq_lane_pulse, lane_pulse_get] at hpulse
      rw [← hpulse.1]
      exact last_lane_iff.mp hlast
    | LOAD_START =>
      rw [loader_launch hstate hstop]
      cases hlast : s.load_start_last_q with
      | true => exact ⟨by simp, by simp, fun _ k hpulse => h.launch hstate hlast k hpulse⟩
      | false => exact last_pending_of_early (.inr rfl)

theorem reachable_last_pending (h : Reachable (step p) IsReset s) : s.toLoader.LastPending := by
  refine Reachable.invariant (P := fun s : State p => s.toLoader.LastPending) ?_ ?_ h
  · intro s hreset
    rw [hreset.loader]
    exact last_pending_of_none rfl rfl
  · intro s i hpending
    exact hpending.step

end Pending

section Phases

variable {p : Params} {s : State p} {ins : Nat → Input p} {t : Nat}

/-- A lane shows its results a whole number of periods after its start. -/
theorem JobRun.result_phase (h : JobRun s ins t) {k : Fin p.NUM_ENGINES} (hidle : s.engines[k].Idle)
    (hpending : s.engine_start_q[k] = false) (hvalid : (trace (step p) s ins t).engines[k].result_valid_o = true) :
    p.lane_start k ≤ t ∧ p.engine.period ∣ t - p.lane_start k := by
  by_cases hbusy : LaneBusy s ins k t
  · obtain ⟨hpast, hle⟩ := hbusy
    have hperiod := p.engine.period_pos
    unfold lane_end at hle
    obtain ⟨n, rfl⟩ : ∃ n, t = p.lane_start k + (n + 1) := ⟨t - p.lane_start k - 1, by omega⟩
    obtain ⟨_, hat⟩ := h.lane_scans hidle hpending (by omega)
    have hlast := (hat.result_valid.mp hvalid).1
    rw [bitcoin_hash_engine.stage_eq_check_iff (Nat.mod_lt n hperiod)] at hlast
    refine ⟨by omega, n / p.engine.period + 1, ?_⟩
    have hdiv := Nat.div_add_mod n p.engine.period
    rw [Nat.mul_add]
    omega
  · rw [(h.lane_idle hidle hpending hbusy).result_valid] at hvalid
    cases hvalid

/-- Lanes that are launched less than a period apart never show a result in
the same cycle. -/
theorem JobRun.results_apart (h : JobRun s ins t) {j k : Fin p.NUM_ENGINES} (hidle_j : s.engines[j].Idle)
    (hidle_k : s.engines[k].Idle) (hpending_j : s.engine_start_q[j] = false) (hpending_k : s.engine_start_q[k] = false)
    (hlt : j < k) (hnear : 3 * (k.val - j.val) < p.engine.period) :
    ¬ ((trace (step p) s ins t).engines[j].result_valid_o = true ∧
      (trace (step p) s ins t).engines[k].result_valid_o = true) := by
  rintro ⟨hj, hk⟩
  obtain ⟨_, hphase_j⟩ := h.result_phase hidle_j hpending_j hj
  obtain ⟨hstart_k, hphase_k⟩ := h.result_phase hidle_k hpending_k hk
  have hvals : j.val < k.val := hlt
  have hapart : t - p.lane_start j - (t - p.lane_start k) = 3 * (k.val - j.val) := by
    unfold Params.lane_start at *
    omega
  have hdvd := Nat.dvd_sub hphase_j hphase_k
  rw [hapart] at hdvd
  have hle := Nat.le_of_dvd (by omega) hdvd
  omega

end Phases

section ThreeLanes

variable {p : Params} {s : State p} {ins : Nat → Input p} {t : Nat}

/-- A result of cluster `c` meets a full memory that is not popped. -/
def State.MeetsFull (s : State p) (c : Fin p.NUM_CLUSTERS) : Prop :=
  (s.fifos c).stage2_valid_q = true ∧ (s.fifos c).count_q.toNat = p.CLUSTER_FIFO_DEPTH ∧ s.cluster_pop_q[c] = false

theorem meets_full {c : Fin p.NUM_CLUSTERS} (hreach : Reachable (step p) IsReset s)
    (hvalid : (s.fifos c).stage2_valid_q = true) (hlost : (s.fifos c).do_push (s.fifo_input c) = false) :
    s.MeetsFull c := by
  have hpos := p.depth_pos
  have hle : (s.fifos c).count_q.toNat ≤ p.CLUSTER_FIFO_DEPTH := (reachable_bounded hreach c).count_le
  have hdepth : (p.cluster c).FIFO_DEPTH = p.CLUSTER_FIFO_DEPTH := rfl
  rw [← Bool.not_eq_true, bitcoin_result_cluster_fifo.do_push_iff, bitcoin_result_cluster_fifo.do_pop_iff, hdepth] at hlost
  have hfull : (s.fifos c).count_q.toNat = p.CLUSTER_FIFO_DEPTH := by
    by_contra hroom
    exact hlost ⟨hvalid, .inl (by omega)⟩
  refine ⟨hvalid, hfull, ?_⟩
  rw [← Bool.not_eq_true]
  exact fun hpop => hlost ⟨hvalid, .inr ⟨hpop, by omega⟩⟩

/-- A FIFO raises the overflow flag of a job. -/
theorem JobRun.overflow_raised (h : JobRun s ins t) (hpos : 1 ≤ t) (hover : (trace (step p) s ins t).overflow_q = true) :
    ∃ c u, u < t ∧ ((trace (step p) s ins u).fifos c).overflow_o = true := by
  induction t, hpos using Nat.le_induction with
  | base =>
    rw [trace_succ, trace_zero, control_step, h.start] at hover
    have hany : s.any_overflow = true := by simpa using hover
    rw [State.any_overflow, List.any_eq_true] at hany
    obtain ⟨c, _, hraised⟩ := hany
    exact ⟨c, 0, Nat.one_pos, hraised⟩
  | succ t hpos ih =>
    rw [trace_succ, control_step, Bool.or_eq_true, Bool.and_eq_true] at hover
    obtain hany | ⟨_, hold⟩ := hover
    · rw [State.any_overflow, List.any_eq_true] at hany
      obtain ⟨c, _, hraised⟩ := hany
      exact ⟨c, t, Nat.lt_succ_self t, hraised⟩
    · obtain ⟨c, u, hu, hraised⟩ := ih (h.mono (Nat.le_succ t)) hold
      exact ⟨c, u, by omega, hraised⟩

variable (hthree : p.NUM_ENGINES = 3) (hcluster : p.CLUSTER_SIZE = 2) (hreach : Reachable (step p) IsReset s)
  (hidle : ∀ k : Fin p.NUM_ENGINES, s.engines[k].busy_o = false)

include hthree hreach hidle

theorem first_lanes_apart (h : JobRun s ins t) {j k : Fin p.NUM_ENGINES} (hj : j.val = 0) (hk : k.val = 1) :
    ¬ ((trace (step p) s ins t).engines[j].result_valid_o = true ∧
      (trace (step p) s ins t).engines[k].result_valid_o = true) := by
  have hfree (k : Fin p.NUM_ENGINES) := bitcoin_hash_engine.idle_of_not_busy (reachable_engine hreach k) (hidle k)
  have hpending {k : Fin p.NUM_ENGINES} (hk : k.val ≤ 1) : s.engine_start_q[k] = false := by
    rw [← Bool.not_eq_true]
    intro hpulse
    have hlast := (reachable_last_pending hreach).idle (starts_idle h.start) k hpulse
    omega
  have hperiod := p.engine.period_eq
  exact h.results_apart (hfree j) (hfree k) (hpending (by omega)) (hpending (by omega)) (by omega) (by omega)

include hcluster

/-- No cluster sees two results in one cycle. -/
theorem single_result (h : JobRun s ins t) (c : Fin p.NUM_CLUSTERS) :
    ((trace (step p) s ins t).fifo_input c).results.length ≤ 1 := by
  rw [bitcoin_result_cluster_fifo.Input.results, bitcoin_result_cluster_fifo.length_results]
  apply countP_le_one
  rintro l l' hlt ⟨hl, hl'⟩
  obtain ⟨j, hj, hvalid_j⟩ := cluster_valid hl
  obtain ⟨k, hk, hvalid_k⟩ := cluster_valid hl'
  have hvals : l.val < l'.val := hlt
  have hsize : l'.val < p.CLUSTER_SIZE := l'.isLt
  have hlast := k.isLt
  have hbase : c.val * p.CLUSTER_SIZE = c.val * 2 := by rw [hcluster]
  exact first_lanes_apart hthree hreach hidle h (j := j) (k := k) (by omega) (by omega) ⟨hvalid_j, hvalid_k⟩

/-- Neither input stage of a cluster sees a collision. -/
theorem stages_single (h : JobRun s ins t) (hpos : 1 ≤ t) (c : Fin p.NUM_CLUSTERS) :
    ((trace (step p) s ins t).fifos c).stage1_overflow_q = false ∧
      ((trace (step p) s ins t).fifos c).entering.length ≤ 1 := by
  obtain ⟨u, rfl⟩ : ∃ u, t = u + 1 := ⟨t - 1, by omega⟩
  rw [trace_succ, fifo_step]
  exact bitcoin_result_cluster_fifo.step_stage1_single
    (single_result hthree hcluster hreach hidle (h.mono (Nat.le_succ u)) c)

/-- Once the FIFOs are cleared for the job, only a result that meets a full
memory raises `overflow_o`. -/
theorem fifo_overflow_cause (h : JobRun s ins t) (hpos : 3 ≤ t) (c : Fin p.NUM_CLUSTERS)
    (hover : ((trace (step p) s ins t).fifos c).overflow_o = true) :
    ∃ u, 3 ≤ u ∧ u < t ∧ (trace (step p) s ins u).MeetsFull c := by
  induction t, hpos using Nat.le_induction with
  | base =>
    have hpulse : (trace (step p) s ins 1).start_pulse_q = true := by
      rw [trace_succ, trace_zero, control_step]
      exact h.start
    have hclear : ((trace (step p) s ins 2).fifos c).clear_q = true := by
      rw [trace_succ, clear_step, hpulse, Bool.or_true, Bool.true_or]
    rw [trace_succ, fifo_step, (bitcoin_result_cluster_fifo.step_clear hclear).2.2.2.1] at hover
    cases hover
  | succ t hpos ih =>
    obtain ⟨u, rfl⟩ : ∃ u, t = u + 1 := ⟨t - 1, by omega⟩
    have hrun : JobRun s ins u := h.mono (by omega)
    obtain ⟨hfirst, hsingle⟩ := stages_single hthree hcluster hreach hidle hrun (by omega) c
    have hsecond : ((trace (step p) s ins (u + 1)).fifos c).stage2_overflow_q = false := by
      rw [trace_succ, fifo_step]
      exact bitcoin_result_cluster_fifo.step_stage2_single hfirst hsingle
    rw [trace_succ, fifo_step] at hover
    obtain hold | hmany | ⟨hvalid, hlost⟩ := bitcoin_result_cluster_fifo.step_overflow_cause hover
    · obtain ⟨v, hv, hlt, hfull⟩ := ih (h.mono (Nat.le_succ _)) hold
      exact ⟨v, hv, by omega, hfull⟩
    · rw [hsecond] at hmany
      cases hmany
    · exact ⟨u + 1, hpos, Nat.lt_succ_self _, meets_full (hreach.trace ins (u + 1)) hvalid hlost⟩

/-- The overflow flag of a job is left over from before its clear, or due to a
result that met a full memory. -/
theorem overflow_cause (h : JobRun s ins t) (hpos : 1 ≤ t) (hover : (trace (step p) s ins t).overflow_q = true) :
    (∃ c u, u < 3 ∧ u < t ∧ ((trace (step p) s ins u).fifos c).overflow_o = true) ∨
      ∃ c u, 3 ≤ u ∧ u < t ∧ (trace (step p) s ins u).MeetsFull c := by
  obtain ⟨c, u, hu, hraised⟩ := h.overflow_raised hpos hover
  by_cases hearly : u < 3
  · exact .inl ⟨c, u, hearly, hu, hraised⟩
  · obtain ⟨v, hv, hlt, hfull⟩ :=
      fifo_overflow_cause hthree hcluster hreach hidle (h.mono (by omega)) (by omega) c hraised
    exact .inr ⟨c, v, hv, by omega, hfull⟩

/-- Lanes never collide: the engines that share a cluster never show a result
in the same cycle, no FIFO marks a collision, and what raises the overflow flag
of a job is a result that met a full FIFO. -/
theorem lanes_never_collide (h : JobRun s ins t) :
    (∀ j k : Fin p.NUM_ENGINES, j.val = 0 → k.val = 1 →
      ¬ ((trace (step p) s ins t).engines[j].result_valid_o = true ∧
        (trace (step p) s ins t).engines[k].result_valid_o = true)) ∧
    (1 ≤ t → ∀ c, ((trace (step p) s ins t).fifos c).stage1_overflow_q = false) ∧
    (3 ≤ t → ∀ c, ((trace (step p) s ins t).fifos c).overflow_o = true →
      ∃ u, 3 ≤ u ∧ u < t ∧ (trace (step p) s ins u).MeetsFull c) ∧
    (1 ≤ t → (trace (step p) s ins t).overflow_q = true →
      (∃ c u, u < 3 ∧ u < t ∧ ((trace (step p) s ins u).fifos c).overflow_o = true) ∨
        ∃ c u, 3 ≤ u ∧ u < t ∧ (trace (step p) s ins u).MeetsFull c) := by
  refine ⟨fun j k hj hk => first_lanes_apart hthree hreach hidle h hj hk, fun hpos c => ?_, fun hpos c => ?_, fun hpos => ?_⟩
  · exact (stages_single hthree hcluster hreach hidle h hpos c).1
  · exact fifo_overflow_cause hthree hcluster hreach hidle h hpos c
  · exact overflow_cause hthree hcluster hreach hidle h hpos

end ThreeLanes

section ManyNonces

/-- A master that starts a job of 64 nonces after reset. -/
def start_many : Nat → Input deployed
  | 0 => bus_write ADDR_NONCE_COUNT 64
  | 4 => bus_write ADDR_CONTROL 1
  | u => idle_bus u

/-- The state in which its START is applied. -/
def started_many : State deployed := trace (step deployed) (reset_state deployed) start_many 6

theorem started_many_reachable : Reachable (step deployed) IsReset started_many :=
  (Reachable.reset (reset_state_isReset deployed)).trace start_many 6

theorem started_many_quiescent : started_many.Quiescent :=
  ⟨by decide, by decide, by decide, by decide⟩

theorem started_many_no_apply {u : Nat} (hpos : 1 ≤ u) :
    (trace (step deployed) started_many idle_bus u).write_apply = false := by
  have happly : started_many.write_apply = true := by decide
  exact no_request_no_apply (reachable_one_write started_many_reachable) happly hpos fun _ _ => rfl

theorem started_many_run (n : Nat) : JobRun started_many idle_bus n := by
  refine ⟨by decide, fun u _ => ?_, fun u hpos _ => (no_apply_no_pulse (started_many_no_apply hpos) 0).2.2⟩
  obtain rfl | hpos := Nat.eq_zero_or_pos u
  · decide
  · exact (no_apply_no_pulse (started_many_no_apply hpos) 1).1

theorem started_many_target {u : Nat} (hpos : 1 ≤ u) :
    (trace (step deployed) started_many idle_bus u).target_q = Vector.replicate 8 0xffffffff := by
  induction u, hpos using Nat.le_induction with
  | base => decide
  | succ u hpos ih =>
    rw [trace_succ, registers_hold (started_many_no_apply hpos)]
    exact ih

/-- Lane 0 shows its first result in cycle 563. -/
theorem many_first_result :
    (trace (step deployed) started_many idle_bus 563).engines[first_lane].result_valid_o = true := by
  have hrun := started_many_run 563
  have hidle := started_many_quiescent.idle started_many_reachable first_lane
  have hquota : quota started_many idle_bus first_lane = 22 := by
    change quota started_many idle_bus 0 = 22
    rw [quota_eq rfl hrun.start (by decide) (hrun.stop.mono (by decide))]
    decide
  obtain ⟨_, hat⟩ := JobRun.lane_scans (k := first_lane) (n := 526) hrun hidle
    (started_many_quiescent.not_pending first_lane) (by rw [hquota]; decide)
  refine hat.result_valid.mpr ⟨bitcoin_hash_engine.stage_last (p := deployed.engine), hit_of_reset_target _ ?_⟩
  exact started_many_target (u := 36) (by decide)

/-- Lane 1 does not show one then, and no cluster marks a collision, neither before
nor after it. -/
theorem first_result_alone :
    (trace (step deployed) started_many idle_bus 563).engines[first_lane].result_valid_o = true ∧
      (∀ k : Fin deployed.NUM_ENGINES, k.val = 1 →
        (trace (step deployed) started_many idle_bus 563).engines[k].result_valid_o = false) ∧
      ∀ t, 1 ≤ t → ∀ c, ((trace (step deployed) started_many idle_bus t).fifos c).stage1_overflow_q = false := by
  obtain ⟨hapart, -⟩ := lanes_never_collide rfl rfl started_many_reachable started_many_quiescent.engines
    (started_many_run 563)
  refine ⟨many_first_result, fun k hk => Bool.eq_false_iff.mpr fun hvalid => ?_, fun t hpos => ?_⟩
  · exact hapart first_lane k rfl hk ⟨many_first_result, hvalid⟩
  · exact (lanes_never_collide rfl rfl started_many_reachable started_many_quiescent.engines (started_many_run t)).2.1 hpos

end ManyNonces

end scu35.bitcoin_miner_axi
