import Scu35Miner.Rtl.MinerAxi.Reads
import Scu35Miner.Rtl.MinerAxi.Stop

open fips180 clocked

namespace scu35.bitcoin_miner_axi

open LoadState

section Ended

variable {p : Params} {s : State p} {ins : Nat → Input p} {t e : Nat}

/-- All lanes are launched and past their last nonces. -/
structure LanesEnded (s : State p) (ins : Nat → Input p) (e : Nat) : Prop where
  launched : p.launched ≤ e
  ended : ∀ k : Fin p.NUM_ENGINES, quota s ins k ≠ 0 → lane_end s ins k < e

theorem LanesEnded.not_busy (h : LanesEnded s ins e) (ht : e ≤ t) (k : Fin p.NUM_ENGINES) : ¬ LaneBusy s ins k t := by
  rintro ⟨hpast, hle⟩
  by_cases hquota : quota s ins k = 0
  · rw [lane_end, hquota] at hle
    change t ≤ p.lane_start k + p.engine.period * 0 at hle
    omega
  · have hended := h.ended k hquota
    omega

variable (hreach : Reachable (step p) IsReset s) (hquiet : s.Quiescent)

include hreach hquiet

theorem LanesEnded.idle (h : LanesEnded s ins e) (hrun : JobRun s ins t) (ht : e ≤ t) (k : Fin p.NUM_ENGINES) :
    (trace (step p) s ins t).engines[k].Idle :=
  hrun.lane_idle (hquiet.idle hreach k) (hquiet.not_pending k) (h.not_busy ht k)

/-- A job is seen to be complete only when its lanes have ended. -/
theorem JobRun.completes_ended (hrun : JobRun s ins e) (hheld : JobHeld s ins) (htwo : 2 ≤ p.NUM_ENGINES) (hpos : 1 ≤ e)
    (hcompletes : (trace (step p) s ins e).completes = true) : LanesEnded s ins e := by
  have hidle : (trace (step p) s ins e).load_state_q = LOAD_IDLE := by
    by_contra hloading
    rw [not_completes_of_loading hloading] at hcompletes
    cases hcompletes
  have hlaunched : p.launched ≤ e := by
    by_contra hearly
    exact loading_at hrun.start hpos (Nat.lt_of_not_le hearly) hrun.stop hidle
  have hfree (k : Fin p.NUM_ENGINES) : ¬ LaneBusy s ins k e := by
    intro hbusy
    obtain ⟨hworks, hopen⟩ := hrun.lane_busy (hquiet.idle hreach k) (hquiet.not_pending k) hbusy
    rw [not_completes_of_busy hworks hopen] at hcompletes
    cases hcompletes
  have hquota (k : Fin p.NUM_ENGINES) : quota s ins k ≠ 0 ↔ k.val < s.nonce_count_q.toNat := by
    have hprep := prep_le_launched k
    rw [quota_held hrun.start (hrun.stop.mono (by omega)) k.isLt (hheld.count hprep)]
    exact lane_quota_ne_zero_iff k
  refine ⟨hlaunched, fun k hwork => ?_⟩
  by_contra hopen
  have hwaits : e ≤ p.lane_start k := by
    by_contra hstarted
    exact hfree k ⟨by omega, by omega⟩
  -- The last lane is about to start, and the lane before it is at work.
  have hstarts := lane_start_le k
  have hk := k.isLt
  have hlast : k.val + 1 = p.NUM_ENGINES := by
    unfold Params.launched at hlaunched
    unfold Params.lane_start at hwaits
    omega
  have hbefore : k.val - 1 < p.NUM_ENGINES := by omega
  have hwork' : quota s ins (k.val - 1) ≠ 0 := (hquota ⟨k.val - 1, hbefore⟩).mpr (by
    have hcount := (hquota k).mp hwork
    change k.val - 1 < _
    omega)
  have hnonces : 1 ≤ (quota s ins (k.val - 1)).toNat := quota_pos_iff.mpr hwork'
  have hperiod := p.engine.period_eq
  have hlong : p.engine.period * 1 ≤ p.engine.period * (quota s ins (k.val - 1)).toNat := Nat.mul_le_mul_left _ hnonces
  refine hfree ⟨k.val - 1, hbefore⟩ ⟨?_, ?_⟩
  · unfold Params.launched at hlaunched
    unfold Params.lane_start
    dsimp only
    omega
  · unfold lane_end
    unfold Params.lane_start at hwaits ⊢
    dsimp only
    omega

/-- A flag that says that the job is done was raised by its completion. -/
theorem JobRun.done_ended (hrun : JobRun s ins t) (hheld : JobHeld s ins) (htwo : 2 ≤ p.NUM_ENGINES) (hpos : 1 ≤ t)
    (hdone : (trace (step p) s ins t).nonce_done_q = true) :
    ∃ e, e < t ∧ (trace (step p) s ins e).completes = true ∧ LanesEnded s ins e := by
  by_contra hnone
  have hopen : ∀ u, 1 ≤ u → u < t → (trace (step p) s ins u).completes = false := by
    intro u hu hlt
    rw [← Bool.not_eq_true]
    exact fun hcompletes =>
      hnone ⟨u, hlt, hcompletes, (hrun.mono (Nat.le_of_lt hlt)).completes_ended hreach hquiet hheld htwo hu hcompletes⟩
  rw [(hrun.stays_running hquiet.running hpos hopen).2] at hdone
  cases hdone

/-- Once its lanes have ended, a job is done until the next write to `CONTROL`. -/
theorem LanesEnded.done (h : LanesEnded s ins e) (hrun : JobRun s ins t) (he : e < t)
    (hrests : ∀ u, 1 ≤ u → u < t → (trace (step p) s ins u).control_rests) :
    (trace (step p) s ins t).nonce_done_q = true := by
  have hpast : 2 ≤ e := by
    have hengines := p.engines_pos
    have hlaunched := h.launched
    unfold Params.launched at hlaunched
    omega
  obtain ⟨x, hx, hle, hcompletes⟩ : ∃ x, 1 ≤ x ∧ x ≤ e ∧ (trace (step p) s ins x).completes = true := by
    by_contra hnone
    have hopen : ∀ u, 1 ≤ u → u < e → (trace (step p) s ins u).completes = false := by
      intro u hu hlt
      rw [← Bool.not_eq_true]
      exact fun hcompletes => hnone ⟨u, hu, Nat.le_of_lt hlt, hcompletes⟩
    have hrun' : JobRun s ins e := hrun.mono (Nat.le_of_lt he)
    have hrunning := (hrun'.stays_running hquiet.running (by omega) hopen).1
    have hidle (k : Fin p.NUM_ENGINES) := (h.idle hreach hquiet hrun' (Nat.le_refl e) k).not_busy
    exact hnone ⟨e, by omega, Nat.le_refl e,
      completes_of_idle hrunning (hrun'.load_idle h.launched) hidle (hrun'.start_pulse hpast)⟩
  exact (stays_done hcompletes (by omega) fun u hu hlt => hrests u (by omega) hlt).2

end Ended

section Emptied

variable {p : Params} {s : State p} {i : Input p}

/-- Nothing is under way, and no result is left anywhere. -/
structure State.Emptied (s : State p) : Prop where
  quiescent : s.Quiescent
  result_valid : s.result_valid_q = false
  stages : ∀ c, (s.fifos c).PipelineEmpty
  counts : ∀ c, (s.fifos c).count_q.toNat = 0

/-- What is in the stages after an edge comes from the inputs and the first
stage. -/
theorem stages_step {c : Fin p.NUM_CLUSTERS} :
    ((s.fifo_input c).results = [] → ((step p s i).fifos c).entering = []) ∧
      ((s.fifos c).entering = [] → ((step p s i).fifos c).arriving = none) := by
  rw [fifo_step]
  cases hclear : (s.fifos c).clear_q with
  | true =>
    have hempty := bitcoin_result_cluster_fifo.step_clear (i := s.fifo_input c) hclear
    exact ⟨fun _ => hempty.1, fun _ => hempty.2.1⟩
  | false =>
    refine ⟨fun hnone => ?_, fun hnone => ?_⟩
    · rw [bitcoin_result_cluster_fifo.step_entering hclear, hnone]
    · rw [bitcoin_result_cluster_fifo.step_arriving hclear, hnone, List.head?_nil]

theorem count_stays_zero (hreach : Reachable (step p) IsReset s) {c : Fin p.NUM_CLUSTERS}
    (harriving : (s.fifos c).arriving = none) (hcount : (s.fifos c).count_q.toNat = 0) :
    ((step p s i).fifos c).count_q.toNat = 0 := by
  rw [fifo_step]
  cases hclear : (s.fifos c).clear_q with
  | true => exact (bitcoin_result_cluster_fifo.step_clear_empty hclear).count
  | false =>
    rw [bitcoin_result_cluster_fifo.count_step_eq_zero_iff (reachable_bounded hreach c) hclear,
      bitcoin_result_cluster_fifo.pop_eq_zero hcount]
    exact ⟨hcount, harriving⟩

/-- Only a START ends it. -/
theorem State.Emptied.step (h : s.Emptied) (hreach : Reachable (step p) IsReset s) (hstart : s.starts = false) :
    (step p s i).Emptied := by
  have hidle (k : Fin p.NUM_ENGINES) := h.quiescent.idle hreach k
  obtain ⟨hrunning, hload, hpending⟩ := control_rests_step (i := i) h.quiescent.running h.quiescent.load hstart
  refine ⟨⟨hrunning, hload, hpending, fun k => ?_⟩, ?_, fun c => ⟨?_, ?_⟩, fun c => ?_⟩
  · exact (engine_rests (hidle k) (h.quiescent.not_pending k)).not_busy
  · exact result_valid_rests h.counts h.result_valid
  · exact stages_step.1 (no_results (fun k => (hidle k).result_valid) c)
  · exact stages_step.2 (h.stages c).1
  · exact count_stays_zero hreach (h.stages c).2 (h.counts c)

end Emptied

section Check

variable {p : Params} {s : State p} {ins : Nat → Input p} {a b : Nat}
variable (hreach : Reachable (step p) IsReset s) (hquiet : s.Quiescent)

include hreach hquiet

/-- Two cycles after its lanes have ended, nothing of a job is in the stages. -/
theorem LanesEnded.stages_empty {e : Nat} (h : LanesEnded s ins e) (hrun : JobRun s ins b) (hpast : e + 2 ≤ b)
    (c : Fin p.NUM_CLUSTERS) : ((trace (step p) s ins b).fifos c).PipelineEmpty := by
  obtain ⟨u, rfl⟩ : ∃ u, b = u + 2 := ⟨b - 2, by omega⟩
  have hnone {x : Nat} (hx : e ≤ x) (hle : x ≤ u + 2) : ((trace (step p) s ins x).fifo_input c).results = [] :=
    no_results (fun k => (h.idle hreach hquiet (hrun.mono hle) hx k).result_valid) c
  constructor
  · rw [trace_succ]
    exact stages_step.1 (hnone (by omega) (by omega))
  · rw [trace_succ]
    refine stages_step.2 ?_
    rw [trace_succ]
    exact stages_step.1 (hnone (by omega) (by omega))

/-- A done flag, and two cycles later a free result register, mean that nothing
is left of a job. -/
theorem JobRun.emptied (hrun : JobRun s ins b) (hheld : JobHeld s ins) (htwo : 2 ≤ p.NUM_ENGINES) (hpos : 1 ≤ a)
    (hlater : a + 2 ≤ b) (hdone : (trace (step p) s ins a).nonce_done_q = true)
    (hfree : (trace (step p) s ins b).result_valid_q = false)
    (hrests : (trace (step p) s ins (b - 1)).write_apply = false) : (trace (step p) s ins b).Emptied := by
  obtain ⟨e, he, hcompletes, hended⟩ :=
    (hrun.mono (by omega : a ≤ b)).done_ended hreach hquiet hheld htwo hpos hdone
  obtain ⟨u, rfl⟩ : ∃ u, b = u + 1 := ⟨b - 1, by omega⟩
  rw [Nat.add_sub_cancel] at hrests
  have hlaunched := hended.launched
  have hrunning {x : Nat} (hx : e < x) (hle : x ≤ u + 1) : (trace (step p) s ins x).running_q = false := by
    induction x, hx using Nat.le_induction with
    | base =>
      rw [Nat.succ_eq_add_one, trace_succ, control_step, hcompletes]
      rfl
    | succ x hx ih =>
      rw [trace_succ, control_step, hrun.restart x (by omega) (by omega), ih (by omega)]
      exact ite_self _
  have hstages {x : Nat} (hx : e + 2 ≤ x) (hle : x ≤ u + 1) (c : Fin p.NUM_CLUSTERS) :=
    hended.stages_empty hreach hquiet (hrun.mono hle) hx c
  rw [trace_succ, step_result_valid, (no_apply_no_pulse hrests 0).2.1, (no_apply_no_pulse hrests 2).1,
    (no_apply_no_pulse hrests 0).2.2, Bool.or_eq_false_iff] at hfree
  obtain ⟨hcapture, hkept⟩ := hfree
  have hfree : (trace (step p) s ins u).result_valid_q = false := hkept
  have hcounts := (capture_none_iff hfree).mp (Option.isNone_iff_eq_none.mp (Option.isSome_eq_false_iff.mp hcapture))
  refine ⟨⟨hrunning (by omega) (Nat.le_refl _), hrun.load_idle (by omega), ?_, fun k => ?_⟩, ?_, fun c => ?_, fun c => ?_⟩
  · rw [trace_succ, loader_idle ((hrun.mono (Nat.le_succ u)).load_idle (by omega))
      (hrun.restart u (by omega) (Nat.lt_succ_self u))]
  · exact (hended.idle hreach hquiet hrun (by omega) k).not_busy
  · rw [trace_succ]
    exact result_valid_rests hcounts hfree
  · exact hstages (by omega) (Nat.le_refl _) c
  · rw [trace_succ]
    exact count_stays_zero (hreach.trace ins u) (hstages (by omega) (by omega) c).2 (hcounts c)

end Check

section Held

variable {p : Params} {s : State p} {i : Input p} {ins : Nat → Input p}

/-- A cycle that enables no word of the job keeps the job. -/
theorem job_kept (h : ∀ a, a ≠ .boot_version → s.enable a = false) :
    (step p s i).toRegisters.job = s.toRegisters.job := by
  have hword {a : DataWord} (ha : a ≠ .boot_version) : (step p s i).word a = s.word a := by
    rw [step_word, h a ha, State.written, Bool.and_false]
    rfl
  have hmidstate : (step p s i).midstate_q = s.midstate_q :=
    Vector.ext fun k hk => hword (a := .midstate ⟨k, hk⟩) (by simp)
  have htail : (step p s i).header_tail_q = s.header_tail_q :=
    Vector.ext fun k hk => hword (a := .header_tail ⟨k, hk⟩) (by simp)
  have htarget : (step p s i).target_q = s.target_q :=
    Vector.ext fun k hk => hword (a := .target ⟨k, hk⟩) (by simp)
  have hstart : (step p s i).nonce_start_q = s.nonce_start_q := hword (a := .nonce_start) (by simp)
  have hcount : (step p s i).nonce_count_q = s.nonce_count_q := hword (a := .nonce_count) (by simp)
  rw [Registers.job, Registers.job, hmidstate, htail, htarget, hstart, hcount]

variable (s) in
/-- The write of the START is of no word of the job. -/
structure State.SparesJob : Prop where
  midstate : s.wr_stage2_midstate_we_q = Vector.replicate 8 false
  header_tail : s.wr_stage2_tail_we_q = Vector.replicate 4 false
  target : s.wr_stage2_target_we_q = Vector.replicate 8 false
  nonce_start : s.wr_stage2_nonce_start_we_q = false
  nonce_count : s.wr_stage2_nonce_count_we_q = false

theorem State.SparesJob.enable (h : s.SparesJob) {a : DataWord} (ha : a ≠ .boot_version) : s.enable a = false := by
  cases a with
  | midstate k => rw [WriteChannel.enable, h.midstate, getElem_lane, Vector.getElem_replicate]
  | header_tail k => rw [WriteChannel.enable, h.header_tail, getElem_lane, Vector.getElem_replicate]
  | target k => rw [WriteChannel.enable, h.target, getElem_lane, Vector.getElem_replicate]
  | nonce_start => exact h.nonce_start
  | nonce_count => exact h.nonce_count
  | boot_version => exact absurd rfl ha

/-- A job that is not written to during the launch is held. -/
theorem State.SparesJob.held (h : s.SparesJob)
    (hrests : ∀ u, 1 ≤ u → u < p.launched → (trace (step p) s ins u).write_apply = false) : JobHeld s ins := by
  intro u hu
  induction u with
  | zero => rfl
  | succ u ih =>
    rw [← ih (by omega), trace_succ]
    obtain rfl | hpos := Nat.eq_zero_or_pos u
    · exact job_kept fun _ => h.enable
    · rw [registers_hold (hrests u hpos (by omega))]

end Held

end scu35.bitcoin_miner_axi
