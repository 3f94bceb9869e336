import Scu35Miner.Rtl.MinerAxi.Completion
import Scu35Miner.Rtl.MinerAxi.Origin

open fips180 clocked

namespace scu35.bitcoin_miner_axi

open bitcoin_result_cluster_fifo (stamps cleared Dropped)

section Clear

variable {p : Params} {s : State p} {ins : Nat → Input p} {t : Nat}

/-- A START that is accepted, or a CLEAR, is applied in this cycle. -/
def State.clears (s : State p) : Bool := s.starts || s.control_write 2

theorem clears_apply (h : s.clears = true) : s.write_apply = true := by
  cases happly : s.write_apply with
  | true => rfl
  | false =>
    obtain ⟨hclear, _, hstart⟩ := no_apply_no_pulse happly 2
    rw [State.clears, hclear, hstart] at h
    cases h

/-- A cycle after a cycle without write has no pulse. -/
theorem no_apply_no_clear {i : Input p} (h : s.write_apply = false) :
    ((step p s i).stop_pulse_q || (step p s i).start_pulse_q || (step p s i).clear_results_q) = false := by
  rw [control_step, (no_apply_no_pulse h 1).1, (no_apply_no_pulse h 2).1, (no_apply_no_pulse h 0).2.2]
  rfl

/-- The FIFOs are cleared two cycles after the write. -/
theorem fifo_clear (hclears : (trace (step p) s ins t).clears = true) (c : Fin p.NUM_CLUSTERS) :
    ((trace (step p) s ins (t + 2)).fifos c).clear_q = true := by
  rw [trace_succ, clear_step, trace_succ, control_step]
  dsimp only
  rw [Bool.or_assoc]
  exact Bool.or_eq_true _ _ ▸ .inr hclears

/-- While nothing is captured, the result register stays free. -/
theorem result_free (hclears : (trace (step p) s ins t).clears = true) {u : Nat} (hu : t < u)
    (hnone : ∀ v, t ≤ v → v < u → (trace (step p) s ins v).capture = none) :
    (trace (step p) s ins u).result_valid_q = false := by
  induction u, hu using Nat.le_induction with
  | base =>
    rw [Nat.succ_eq_add_one, trace_succ, step_result_valid, hnone t (Nat.le_refl t) (Nat.lt_succ_self t)]
    rw [State.clears, Bool.or_eq_true] at hclears
    obtain hstart | hclear := hclears
    · simp [hstart]
    · simp [hclear]
  | succ u hu ih =>
    have hfree := ih fun v hge hlt => hnone v hge (by omega)
    have hge : t ≤ u := Nat.le_of_lt hu
    rw [trace_succ, step_result_valid, hnone u hge (Nat.lt_succ_self u), hfree, Bool.and_false]
    rfl

/-- A capture before the clear takes effect presents an earlier result. -/
theorem captures_nothing (hreset : IsReset s) (hdiscards : DiscardsEarlier s ins t) {u : Nat} (hge : t ≤ u) (hle : u ≤ t + 2) :
    (trace (step p) s ins u).capture = none := by
  cases hcapture : (trace (step p) s ins u).capture with
  | none => rfl
  | some c =>
    obtain ⟨v, horigin, _, hpast, _⟩ := capture_stamp hreset hcapture
    have hvalid : (trace (step p) s ins (u + 1)).result_valid_q = true := by
      rw [trace_succ, step_result_valid, hcapture]
      rfl
    have hlater := hdiscards.1 (u + 1) (by omega) hvalid v horigin
    omega

variable (hreset : IsReset s) (hclears : (trace (step p) s ins t).clears = true)

include hreset hclears

/-- No other write is applied in the three cycles before or after. -/
theorem no_apply_before {u : Nat} (hlt : u < t) (hnear : t ≤ u + 3) : (trace (step p) s ins u).write_apply = false := by
  cases happly : (trace (step p) s ins u).write_apply with
  | false => rfl
  | true =>
    have hone := reachable_one_write ((Reachable.reset hreset).trace ins u)
    have hspacing : (trace (step p) (trace (step p) s ins u) (fun k => ins (u + k)) (t - u)).write_apply = false :=
      apply_spacing hone happly (by omega) (by omega)
    rw [← trace_add, Nat.add_sub_cancel' (Nat.le_of_lt hlt), clears_apply hclears] at hspacing
    cases hspacing

theorem no_apply_after {u : Nat} (hlt : t < u) (hnear : u ≤ t + 3) : (trace (step p) s ins u).write_apply = false := by
  have hone := reachable_one_write ((Reachable.reset hreset).trace ins t)
  have hspacing : (trace (step p) (trace (step p) s ins t) (fun k => ins (t + k)) (u - t)).write_apply = false :=
    apply_spacing hone (clears_apply hclears) (by omega) (by omega)
  rwa [← trace_add, Nat.add_sub_cancel' (Nat.le_of_lt hlt)] at hspacing

/-- The FIFOs are still open in the cycle of the write and in the next one. -/
theorem fifo_open {u : Nat} (hge : t ≤ u) (hle : u ≤ t + 1) (c : Fin p.NUM_CLUSTERS) :
    ((trace (step p) s ins u).fifos c).clear_q = false := by
  match u, hge, hle with
  | 0, _, _ =>
    rw [trace_zero, hreset.fifos]
    rfl
  | 1, _, _ =>
    rw [trace_succ, trace_zero, clear_step, hreset.control]
    rfl
  | v + 2, hge, hle =>
    rw [trace_succ, clear_step, trace_succ]
    exact no_apply_no_clear (no_apply_before hreset hclears (by omega) (by omega))

theorem cleared_after {u : Nat} (hu : t + 3 ≤ u) (c : Fin p.NUM_CLUSTERS) :
    t + 3 ≤ cleared (p.cluster c) (cluster_input s ins c) u := by
  induction u, hu using Nat.le_induction with
  | base =>
    have hclear := fifo_clear hclears c
    rw [fifo_run hreset] at hclear
    rw [bitcoin_result_cluster_fifo.cleared_clear hclear]
  | succ u hu ih =>
    have hle : cleared (p.cluster c) (cluster_input s ins c) u ≤ u := bitcoin_result_cluster_fifo.cleared_le u
    cases hclear : (bitcoin_result_cluster_fifo.run (p.cluster c) (cluster_input s ins c) u).clear_q with
    | true =>
      rw [bitcoin_result_cluster_fifo.cleared_clear hclear]
      omega
    | false => rwa [bitcoin_result_cluster_fifo.cleared_open hclear]

theorem drained_of_discards (hdiscards : DiscardsEarlier s ins t) (c : Fin p.NUM_CLUSTERS) :
    (trace (step p) s ins t).Drained c := by
  have hnone {u : Nat} (hge : t ≤ u) (hle : u ≤ t + 2) := captures_nothing hreset hdiscards hge hle
  have hbounded (u : Nat) := reachable_bounded ((Reachable.reset hreset).trace ins u) c
  have hempty {u : Nat} (hge : t < u) (hle : u ≤ t + 2) : ((trace (step p) s ins u).fifos c).count_q.toNat = 0 := by
    have hfree := result_free hclears hge fun v hv hlt => hnone hv (by omega)
    exact (capture_none_iff hfree).mp (hnone (Nat.le_of_lt hge) hle) c
  have hopen := fifo_open hreset hclears (Nat.le_refl t) (Nat.le_succ t) c
  have hopen1 := fifo_open hreset hclears (Nat.le_succ t) (Nat.le_refl _) c
  have hempty1 := hempty (Nat.lt_succ_self t) (Nat.le_succ _)
  have hempty2 := hempty (u := t + 2) (by omega) (Nat.le_refl _)
  rw [trace_succ, fifo_step, bitcoin_result_cluster_fifo.count_step_eq_zero_iff (hbounded t) hopen] at hempty1
  rw [trace_succ, fifo_step, bitcoin_result_cluster_fifo.count_step_eq_zero_iff (hbounded (t + 1)) hopen1] at hempty2
  have hentering := hempty2.2
  rw [trace_succ, fifo_step, bitcoin_result_cluster_fifo.step_arriving hopen, List.head?_eq_none_iff] at hentering
  refine ⟨?_, ⟨hentering, hempty1.2⟩, hempty1.1⟩
  cases hover : ((trace (step p) s ins t).fifos c).overflow_o with
  | false => rfl
  | true =>
    have hany : (trace (step p) s ins t).any_overflow = true :=
      List.any_eq_true.mpr ⟨c, List.mem_finRange c, hover⟩
    have hflag {u : Nat} (hlt : t < u) (hle : u ≤ t + 3) : (trace (step p) s ins u).overflow_q = true := by
      induction u, hlt using Nat.le_induction with
      | base =>
        rw [Nat.succ_eq_add_one, trace_succ, step_overflow_flag, hany]
        rfl
      | succ u hlt ih =>
        have hquiet := no_apply_after hreset hclears hlt (by omega)
        obtain ⟨hclear, hack, hstart⟩ := no_apply_no_pulse hquiet 1
        rw [trace_succ, step_overflow_flag, hack, (no_apply_no_pulse hquiet 2).1, hstart, ih (by omega)]
        simp
    obtain ⟨c, v, w, hv, hw, _, hpast, _⟩ := hdiscards.2 (t + 3) (Nat.le_refl _) (hflag (by omega) (Nat.le_refl _))
    omega

/-- A drained cluster stays empty until its FIFO is cleared. -/
theorem drained_stays (c : Fin p.NUM_CLUSTERS) (hdrained : (trace (step p) s ins t).Drained c) {u : Nat} (hlt : t < u)
    (hle : u ≤ t + 2) :
    ((trace (step p) s ins u).fifos c).count_q.toNat = 0 ∧ ((trace (step p) s ins u).fifos c).overflow_o = false := by
  have hopen := fifo_open hreset hclears (Nat.le_refl t) (Nat.le_succ t) c
  have hopen1 := fifo_open hreset hclears (Nat.le_succ t) (Nat.le_refl _) c
  obtain ⟨hover, ⟨hentering, harriving⟩, hcount⟩ := hdrained
  change _ = (bitcoin_result_cluster_fifo.State.do_pop _ (cluster_input s ins c t)).toNat at hcount
  have hnone1 : ((trace (step p) s ins (t + 1)).fifos c).arriving = none := by
    rw [trace_succ, fifo_step, bitcoin_result_cluster_fifo.step_arriving hopen, hentering, List.head?_nil]
  rw [fifo_run hreset] at hopen hopen1 hover harriving hcount hnone1
  have hnext := bitcoin_result_cluster_fifo.run_settles p.depth_pos hopen harriving hcount hover
  obtain rfl | rfl : u = t + 1 ∨ u = t + 2 := by omega
  · rw [fifo_run hreset]
    exact hnext
  · rw [fifo_run hreset]
    exact bitcoin_result_cluster_fifo.run_settles p.depth_pos hopen1 hnone1
      (hnext.1.trans (bitcoin_result_cluster_fifo.pop_eq_zero hnext.1).symm) hnext.2

theorem drained_captures_nothing (hdrained : ∀ c, (trace (step p) s ins t).Drained c) {u : Nat} (hge : t ≤ u)
    (hle : u ≤ t + 2) : (trace (step p) s ins u).capture = none := by
  cases hcapture : (trace (step p) s ins u).capture with
  | none => rfl
  | some c =>
    obtain ⟨hfree, hcount⟩ := capture_valid hcapture
    obtain hlt | rfl := Nat.lt_or_eq_of_le hge
    · exact absurd (drained_stays hreset hclears c (hdrained c) hlt hle).1 hcount
    · have hpop : ((trace (step p) s ins t).fifos c).do_pop ((trace (step p) s ins t).fifo_input c) = true := by
        have hone := (hdrained c).count
        cases hpop : ((trace (step p) s ins t).fifos c).do_pop ((trace (step p) s ins t).fifo_input c) with
        | true => rfl
        | false =>
          rw [hpop] at hone
          exact absurd hone hcount
      have hvalid := pop_result_valid ((Reachable.reset hreset).trace ins t)
        (bitcoin_result_cluster_fifo.do_pop_iff.mp hpop).1
      rw [hfree] at hvalid
      cases hvalid

/-- From drained clusters only later results are presented. -/
theorem presents_later (hdrained : ∀ c, (trace (step p) s ins t).Drained c) {u : Nat} (hu : t < u)
    (hvalid : (trace (step p) s ins u).result_valid_q = true) : ∀ v ∈ origin s ins u, t ≤ v := by
  have hnone {u : Nat} (hge : t ≤ u) (hle : u ≤ t + 2) := drained_captures_nothing hreset hclears hdrained hge hle
  induction u, hu using Nat.le_induction with
  | base =>
    have hfree := result_free hclears (Nat.lt_succ_self t) fun v hge hlt => hnone hge (by omega)
    rw [hfree] at hvalid
    cases hvalid
  | succ u hu ih =>
    cases hcapture : (trace (step p) s ins u).capture with
    | some c =>
      have hlate : t + 3 ≤ u := by
        by_contra hearly
        rw [hnone (Nat.le_of_lt hu) (by omega)] at hcapture
        cases hcapture
      obtain ⟨v, horigin, hge, _, _⟩ := capture_stamp hreset hcapture
      have hcleared := cleared_after hreset hclears hlate c
      intro w hw
      rw [horigin, Option.mem_some_iff] at hw
      omega
    | none =>
      rw [trace_succ, step_result_valid, hcapture, Option.isSome_none, Bool.false_or, Bool.and_eq_true] at hvalid
      have hkept : origin s ins (u + 1) = origin s ins u := by rw [origin, hcapture]
      rw [hkept]
      exact ih hvalid.2

/-- From drained clusters only later losses raise the overflow flag. -/
theorem overflow_later (hdrained : ∀ c, (trace (step p) s ins t).Drained c) {u : Nat} (hu : t < u)
    (hflag : (trace (step p) s ins u).overflow_q = true) :
    ∃ c w, t + 3 ≤ w ∧ w < u ∧ ((trace (step p) s ins w).fifos c).overflow_o = true := by
  induction u, hu using Nat.le_induction with
  | base =>
    have hkept : (!(trace (step p) s ins t).control_write 2 && !(trace (step p) s ins t).starts) = false := by
      rw [State.clears, Bool.or_eq_true] at hclears
      obtain hstart | hclear := hclears
      · rw [hstart, Bool.not_true, Bool.and_false]
      · rw [hclear, Bool.not_true, Bool.false_and]
    rw [Nat.succ_eq_add_one, trace_succ, step_overflow_flag, Bool.and_assoc _ _ (!State.starts _), hkept, Bool.and_false,
      Bool.false_and, Bool.or_false, State.any_overflow, List.any_eq_true] at hflag
    obtain ⟨c, _, hover⟩ := hflag
    rw [(hdrained c).overflow] at hover
    cases hover
  | succ u hu ih =>
    rw [trace_succ, step_overflow_flag, Bool.or_eq_true, Bool.and_eq_true] at hflag
    obtain hany | ⟨_, hold⟩ := hflag
    · rw [State.any_overflow, List.any_eq_true] at hany
      obtain ⟨c, _, hover⟩ := hany
      by_cases hlate : t + 3 ≤ u
      · exact ⟨c, u, hlate, Nat.lt_succ_self u, hover⟩
      · rw [(drained_stays hreset hclears c (hdrained c) hu (by omega)).2] at hover
        cases hover
    · obtain ⟨c, w, hge, hlt, hover⟩ := ih hold
      exact ⟨c, w, hge, by omega, hover⟩

theorem discards_of_drained (hdrained : ∀ c, (trace (step p) s ins t).Drained c) : DiscardsEarlier s ins t := by
  refine ⟨fun u hu hvalid => presents_later hreset hclears hdrained hu hvalid, fun u hu hflag => ?_⟩
  obtain ⟨c, w, hge, hlt, hover⟩ := overflow_later hreset hclears hdrained (by omega) hflag
  rw [fifo_run hreset] at hover
  obtain ⟨v, hcleared, hpast, hdropped⟩ := (bitcoin_result_cluster_fifo.accounted p.depth_pos w).cause.mp hover
  have hsince := cleared_after hreset hclears hge c
  exact ⟨c, v, w, by omega, hlt, hcleared, hpast, hdropped⟩

/-- START and CLEAR discard what came before exactly when nothing is queued in
any cluster but what is being popped, and no FIFO shows an overflow. -/
theorem discards_earlier_iff : DiscardsEarlier s ins t ↔ ∀ c, (trace (step p) s ins t).Drained c :=
  ⟨fun hdiscards c => drained_of_discards hreset hclears hdiscards c, discards_of_drained hreset hclears⟩

end Clear

section LateClear

/-- The master that starts a job of one nonce, and clears the results when the
first result has just left its engine. -/
def late_clear (u : Nat) : Input deployed := if u = 568 then bus_write ADDR_CONTROL 4 else start_one u

/-- What it does from the START on. -/
def after_start (k : Nat) : Input deployed := late_clear (6 + k)

theorem after_start_quiet {k : Nat} (hk : k < 562) : after_start k = idle_bus (6 + k) := by
  rw [after_start, late_clear, if_neg (by omega), start_one_quiet (by omega)]

theorem late_clear_started : trace (step deployed) (reset_state deployed) late_clear 6 = started deployed :=
  trace_congr _ _ fun u hu => if_neg (by omega)

theorem started_apply : (started deployed).write_apply = true := by decide

theorem started_one_write : (started deployed).OneWrite := reachable_one_write (started_reachable deployed)

theorem after_start_empty {k : Nat} (hpos : 1 ≤ k) (hk : k ≤ 562) :
    (trace (step deployed) (started deployed) after_start k).StagesEmpty := by
  refine no_request_empty started_one_write started_apply hpos fun v hv => ?_
  rw [after_start_quiet (by omega)]
  rfl

theorem after_start_no_apply {k : Nat} (hpos : 1 ≤ k) (hk : k < 564) :
    (trace (step deployed) (started deployed) after_start k).write_apply = false := by
  by_cases hle : k ≤ 562
  · exact (after_start_empty hpos hle).no_apply
  · obtain rfl : k = 563 := by omega
    rw [State.write_apply, trace_succ, (after_start_empty (by decide) (Nat.le_refl 562)).stage2_step, Bool.false_and]

theorem after_start_job : JobRun (started deployed) after_start 564 := by
  refine ⟨by decide, fun u hu => ?_, fun u hpos hu => (no_apply_no_pulse (after_start_no_apply hpos hu) 0).2.2⟩
  obtain rfl | hpos := Nat.eq_zero_or_pos u
  · decide
  · exact (no_apply_no_pulse (after_start_no_apply hpos hu) 1).1

/-- The CLEAR lands when the result is in the first input stage. -/
theorem late_clear_clears : (trace (step deployed) (started deployed) after_start 564).clears = true := by
  have hfree : (trace (step deployed) (started deployed) after_start 562).s_axi_bvalid = false := by
    refine response_taken started_one_write started_apply (by decide) ?_ fun v hv => ?_
    · rw [after_start_quiet (by decide)]
      rfl
    · rw [after_start_quiet hv]
      rfl
  have hvalid : ((after_start (562 + 0)).s_axi_awvalid && (after_start (562 + 0)).s_axi_wvalid) = true := rfl
  have hlands : (trace (step deployed) _ (fun k => after_start (562 + k)) 2).control_write 2 = _ :=
    control_write_lands (after_start_empty (by decide) (Nat.le_refl 562)) hfree hvalid rfl 2
  rw [← trace_add] at hlands
  rw [State.clears, hlands]
  exact Bool.or_true _

theorem after_start_target {k : Nat} (hpos : 1 ≤ k) (hk : k ≤ 564) :
    (trace (step deployed) (started deployed) after_start k).target_q = Vector.replicate 8 0xffffffff := by
  induction k, hpos using Nat.le_induction with
  | base => decide
  | succ k hpos ih =>
    rw [trace_succ, registers_hold (after_start_no_apply hpos (by omega))]
    exact ih (by omega)

/-- Every hash meets the target that is in the registers after reset. -/
theorem hit_of_reset_target {p : bitcoin_hash_engine.Params} {job : bitcoin_hash_engine.Job} (k : Nat)
    (htarget : job.target = Vector.replicate 8 0xffffffff) : job.Hit p k := by
  rw [bitcoin_hash_engine.Job.hit_iff, bitcoin_hash_engine.Job.hash_value, htarget]
  have hlt := radix.leValue_lt (digestBytes (bitcoin_hash_engine.double_digest job.midstate job.header_tail (job.nonce p k)))
  rw [digestBytes_length] at hlt
  have hmax : radix.beValue (Vector.replicate 8 (0xffffffff : Word)).toList = 2 ^ (8 * 32) - 1 := by decide
  omega

/-- Lane 0 raises its result in the cycle before the CLEAR lands. -/
theorem first_result : (trace (step deployed) (started deployed) after_start 563).engines[first_lane].result_valid_o = true := by
  have hidle := started_deployed_quiescent.idle (started_reachable deployed) first_lane
  have hpending := started_deployed_quiescent.not_pending first_lane
  have hrun : JobRun (started deployed) after_start 563 := after_start_job.mono (by decide)
  have hquota : quota (started deployed) after_start first_lane = 1 := by
    change quota (started deployed) after_start 0 = 1
    rw [quota_eq rfl hrun.start (by decide) (hrun.stop.mono (by decide))]
    decide
  obtain ⟨_, hat⟩ := JobRun.lane_scans (k := first_lane) (n := 526) hrun hidle hpending (by rw [hquota]; decide)
  refine hat.result_valid.mpr ⟨bitcoin_hash_engine.stage_last (p := deployed.engine), hit_of_reset_target _ ?_⟩
  exact after_start_target (k := 36) (by decide) (by decide)

theorem first_result_entering :
    ((trace (step deployed) (started deployed) after_start 564).fifos first_cluster).entering ≠ [] := by
  have hopen : ((trace (step deployed) (started deployed) after_start 563).fifos first_cluster).clear_q = false := by
    rw [trace_succ, clear_step, trace_succ]
    exact no_apply_no_clear (after_start_no_apply (by decide) (by decide))
  have hplace : cluster_engine first_cluster ⟨0, by decide⟩ = some first_lane := by decide
  rw [trace_succ, fifo_step, bitcoin_result_cluster_fifo.step_entering hopen]
  exact results_of_valid hplace first_result

/-- A CLEAR that lands when a result is in an input stage does not discard it. -/
theorem late_clear_keeps_result : IsReset (reset_state deployed) ∧
    (trace (step deployed) (reset_state deployed) late_clear 570).clears = true ∧
      ¬ DiscardsEarlier (reset_state deployed) late_clear 570 := by
  have hreset := reset_state_isReset deployed
  have hstate : trace (step deployed) (reset_state deployed) late_clear 570 =
      trace (step deployed) (started deployed) after_start 564 := by
    rw [trace_add (step deployed) (reset_state deployed) late_clear 6 564, late_clear_started]
    rfl
  have hclears : (trace (step deployed) (reset_state deployed) late_clear 570).clears = true := by
    rw [hstate]
    exact late_clear_clears
  refine ⟨hreset, hclears, fun hdiscards => ?_⟩
  have hdrained := drained_of_discards hreset hclears hdiscards first_cluster
  rw [hstate] at hdrained
  exact first_result_entering hdrained.stages.1

end LateClear

end scu35.bitcoin_miner_axi
