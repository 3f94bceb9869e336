import Scu35Miner.Rtl.HashEngine.Stop
import Scu35Miner.Rtl.MinerAxi.Shares

open fips180 clocked

namespace scu35.bitcoin_result_cluster_fifo

section Empty

variable {p : Params} {s : State p} {i : Input p}

/-- No result is in the stages or the memory, and none was lost. -/
structure State.Empty (s : State p) : Prop where
  pipeline : s.PipelineEmpty
  count : s.count_q.toNat = 0
  overflow : s.overflow_o = false
  stage1_overflow : s.stage1_overflow_q = false
  stage2_overflow : s.stage2_overflow_q = false

theorem step_clear_empty (hclear : s.clear_q = true) : (step p s i).Empty := by
  obtain ⟨hentering, harriving, -, hover, hfirst, hsecond⟩ := step_clear (i := i) hclear
  refine ⟨⟨hentering, harriving⟩, ?_, hover, hfirst, hsecond⟩
  rw [step, if_pos hclear]
  rfl

/-- Without a result at the inputs an empty FIFO stays empty. -/
theorem State.Empty.step (h : s.Empty) (hbounded : s.Bounded) (hnone : i.results = []) : (step p s i).Empty := by
  cases hclear : s.clear_q with
  | true => exact step_clear_empty hclear
  | false =>
    obtain ⟨hentering, harriving⟩ := h.pipeline
    refine ⟨⟨?_, ?_⟩, ?_, ?_, ?_, ?_⟩
    · rw [step_entering hclear, hnone]
    · rw [step_arriving hclear, hentering, List.head?_nil]
    · rw [count_step_eq_zero_iff hbounded hclear, pop_eq_zero h.count]
      exact ⟨h.count, harriving⟩
    · rw [step_overflow hclear, h.overflow, arriving_eq_none_iff.mp harriving, h.stage2_overflow]
      rfl
    · rw [step_stage1_overflow hclear, hnone]
      rfl
    · rw [step_stage2_overflow hclear, hentering, h.stage1_overflow]
      rfl

end Empty

end scu35.bitcoin_result_cluster_fifo

namespace scu35.bitcoin_miner_axi

open LoadState

section Stopped

variable {p : Params} {s : State p} {i : Input p}

/-- A write of `data` to `CONTROL` is applied. -/
def State.control_written (s : State p) (data : Word) : Prop :=
  s.write_apply = true ∧ s.wr_stage2_control_we_q = true ∧ s.wr_stage2_data_q = data

/-- A write of `data` to `RESULT_STATUS` is applied. -/
def State.result_status_written (s : State p) (data : Word) : Prop :=
  s.write_apply = true ∧ s.wr_stage2_result_status_we_q = true ∧ s.wr_stage2_data_q = data

/-- No write to `CONTROL` is applied. -/
def State.control_rests (s : State p) : Prop := (s.write_apply && s.wr_stage2_control_we_q) = false

theorem State.control_written.bits {data : Word} (h : s.control_written data) (bit : Nat) :
    s.control_write bit = data.getLsbD bit := by
  rw [State.control_write, h.1, h.2.1, h.2.2]
  rfl

theorem State.result_status_written.bits {data : Word} (h : s.result_status_written data) (bit : Nat) :
    s.result_status_write bit = data.getLsbD bit := by
  rw [State.result_status_write, h.1, h.2.1, h.2.2]
  rfl

theorem State.control_rests.bits (h : s.control_rests) (bit : Nat) : s.control_write bit = false := by
  rw [State.control_write, h, Bool.false_and]

theorem State.control_rests.no_start (h : s.control_rests) : s.starts = false := by
  rw [State.starts, h.bits, Bool.false_and]

/-- No job is running or being launched. -/
structure State.Stopped (s : State p) : Prop where
  running : s.running_q = false
  load : s.load_state_q = LOAD_IDLE
  pending : s.engine_start_q = Vector.replicate _ false
  start_pulse : s.start_pulse_q = false

theorem State.Stopped.not_pending (h : s.Stopped) (k : Fin p.NUM_ENGINES) : s.engine_start_q[k] = false := by
  rw [h.pending, getElem_lane, Vector.getElem_replicate]

theorem State.Stopped.not_completes (h : s.Stopped) : s.completes = false := by
  rw [State.completes, h.running, Bool.false_and, Bool.false_and, Bool.false_and]

theorem step_stopped (hstop : s.control_write 1 = true) (hstart : s.starts = false) : (step p s i).Stopped := by
  obtain ⟨hload, hpending⟩ := loader_stop (i := i) hstop
  refine ⟨?_, hload, hpending, ?_⟩
  · rw [control_step, hstop, Bool.or_true]
    rfl
  · rw [control_step]
    exact hstart

/-- Without a job the control and the loader rest until a START. -/
theorem control_rests_step (hrunning : s.running_q = false) (hload : s.load_state_q = LOAD_IDLE) (hstart : s.starts = false) :
    (step p s i).running_q = false ∧ (step p s i).load_state_q = LOAD_IDLE ∧
      (step p s i).engine_start_q = Vector.replicate _ false := by
  rw [loader_idle hload hstart]
  refine ⟨?_, hload, rfl⟩
  rw [control_step, hstart, hrunning]
  exact ite_self _

theorem State.Stopped.step (h : s.Stopped) (hstart : s.starts = false) : (step p s i).Stopped := by
  obtain ⟨hrunning, hload, hpending⟩ := control_rests_step (i := i) h.running h.load hstart
  refine ⟨hrunning, hload, hpending, ?_⟩
  rw [control_step]
  exact hstart

theorem engine_rests {k : Fin p.NUM_ENGINES} (hidle : s.engines[k].Idle) (hpending : s.engine_start_q[k] = false) :
    (step p s i).engines[k].Idle := by
  rw [bitcoin_miner_axi.step, getElem_lane, Vector.getElem_ofFn]
  exact (bitcoin_hash_engine.step_idle hidle (.inl hpending)).1

/-- Engines that raise nothing give the clusters nothing. -/
theorem no_results (hnone : ∀ k : Fin p.NUM_ENGINES, s.engines[k].result_valid_o = false) (c : Fin p.NUM_CLUSTERS) :
    (s.fifo_input c).results = [] := by
  rw [List.eq_nil_iff_forall_not_mem]
  rintro ⟨id, x⟩ hmem
  obtain ⟨k, -, -, hraised, -⟩ := mem_results_iff.mp hmem
  rw [hnone k] at hraised
  cases hraised

theorem no_capture (hempty : ∀ c, (s.fifos c).count_q.toNat = 0) : s.capture = none := by
  cases hvalid : s.result_valid_q with
  | true => rw [State.capture, if_pos hvalid]
  | false => exact (capture_none_iff hvalid).mpr hempty

/-- A free result register stays free while the clusters hold nothing. -/
theorem result_valid_rests (hempty : ∀ c, (s.fifos c).count_q.toNat = 0) (hfree : s.result_valid_q = false) :
    (step p s i).result_valid_q = false := by
  rw [step_result_valid, no_capture hempty, hfree, Bool.and_false]
  rfl

theorem no_overflow (hnone : ∀ c, (s.fifos c).overflow_o = false) : s.any_overflow = false := by
  rw [State.any_overflow, List.any_eq_false]
  intro c _
  rw [hnone c]
  exact Bool.false_ne_true

end Stopped

section Clean

variable {p : Params} {s : State p} {i : Input p}

/-- Nothing is under way, and nothing of an earlier job is left. -/
structure State.Clean (s : State p) : Prop where
  stopped : s.Stopped
  engines : ∀ k : Fin p.NUM_ENGINES, s.engines[k].Idle
  fifos : ∀ c, (s.fifos c).Empty
  nonce_done : s.nonce_done_q = false
  overflow : s.overflow_q = false
  result_valid : s.result_valid_q = false

theorem State.Clean.quiescent (h : s.Clean) : s.Quiescent :=
  ⟨h.stopped.running, h.stopped.load, h.stopped.pending, fun k => (h.engines k).not_busy⟩

theorem State.Clean.drained (h : s.Clean) (c : Fin p.NUM_CLUSTERS) : s.Drained c := by
  have hempty := h.fifos c
  exact ⟨hempty.overflow, hempty.pipeline, by rw [bitcoin_result_cluster_fifo.pop_eq_zero hempty.count]; exact hempty.count⟩

/-- The flags that `STATUS` shows. -/
theorem read_status (s : State p) : read_reg s ADDR_STATUS = 0#28 ++ BitVec.ofBool s.overflow_q ++
    BitVec.ofBool s.nonce_done_q ++ BitVec.ofBool s.result_valid_q ++ BitVec.ofBool s.running_q := rfl

theorem State.Clean.status (h : s.Clean) : read_reg s ADDR_STATUS = 0 := by
  rw [read_status, h.overflow, h.nonce_done, h.result_valid, h.stopped.running]
  rfl

/-- A reset leaves nothing behind. -/
theorem reset_clean (hreset : IsReset s) : s.Clean := by
  refine ⟨⟨?_, ?_, ?_, ?_⟩, fun k => ?_, fun c => ?_, ?_, ?_, ?_⟩
  · rw [hreset.control]
    rfl
  · rw [hreset.loader]
    rfl
  · rw [hreset.loader]
    rfl
  · rw [hreset.control]
    rfl
  · have hengine := hreset.engines k
    exact ⟨hengine.state, hengine.core_start, hengine.core.2.2.1, hengine.result_valid⟩
  · rw [hreset.fifos]
    exact ⟨⟨bitcoin_result_cluster_fifo.results_replicate _, rfl⟩, rfl, rfl, rfl, rfl⟩
  · rw [hreset.control]
    rfl
  · rw [hreset.control]
    rfl
  · rw [hreset.control]
    rfl

/-- Only a START or a STOP ends it. -/
theorem State.Clean.step (h : s.Clean) (hreach : Reachable (step p) IsReset s) (hstart : s.starts = false)
    (hstop : s.control_write 1 = false) : (step p s i).Clean := by
  refine ⟨h.stopped.step hstart, fun k => ?_, fun c => ?_, ?_, ?_, ?_⟩
  · exact engine_rests (h.engines k) (h.stopped.not_pending k)
  · rw [fifo_step]
    exact (h.fifos c).step (reachable_bounded hreach c) (no_results (fun k => (h.engines k).result_valid) c)
  · rw [control_step, h.stopped.not_completes, hstop, hstart, h.nonce_done]
    exact ite_self _
  · rw [step_overflow_flag, no_overflow fun c => (h.fifos c).overflow, h.overflow, Bool.and_false]
    rfl
  · exact result_valid_rests (fun c => (h.fifos c).count) h.result_valid

theorem clean_stays (h : s.Clean) (hreach : Reachable (step p) IsReset s) {ins : Nat → Input p} {n : Nat}
    (hrests : ∀ u < n, (trace (step p) s ins u).starts = false ∧ (trace (step p) s ins u).control_write 1 = false) :
    (trace (step p) s ins n).Clean := by
  induction n with
  | zero => exact h
  | succ n ih =>
    obtain ⟨hstart, hstop⟩ := hrests n (Nat.lt_succ_self n)
    exact (ih fun u hu => hrests u (by omega)).step (hreach.trace ins n) hstart hstop

end Clean

section Sequence

variable {p : Params} (r : State p) (ins : Nat → Input p)

/-- The writes that stop the miner, by the cycles in which they are applied:
STOP, long enough afterwards CLEAR, and the acknowledgement of both result
flags. -/
structure StopSequence (t u v : Nat) : Prop where
  stop : (trace (step p) r ins t).control_written 2
  clear : (trace (step p) r ins u).control_written 4
  acknowledge : (trace (step p) r ins v).result_status_written 3
  drains : t + 330 ≤ u
  ordered : u < v
  rests : ∀ w, t < w → w ≤ v → w ≠ u → (trace (step p) r ins w).control_rests

/-- No write to `CONTROL` is applied from cycle `t` up to cycle `w`. -/
def RestsBetween (t w : Nat) : Prop := ∀ x, t ≤ x → x < w → (trace (step p) r ins x).control_rests

variable {r ins} {t u v w : Nat}

theorem engine_trace_from (k : Fin p.NUM_ENGINES) (t n : Nat) : (trace (step p) r ins (t + n)).engines[k] =
    trace (bitcoin_hash_engine.step p.engine) (trace (step p) r ins t).engines[k]
      (fun u => (trace (step p) r ins (t + u)).engine_input k) n := by
  rw [engine_trace, trace_add, ← engine_trace]

theorem StopSequence.clears (h : StopSequence r ins t u v) : (trace (step p) r ins u).clears = true := by
  rw [State.clears, h.clear.bits]
  exact Bool.or_true _

/-- A START in the write of a STOP is not taken. -/
theorem StopSequence.no_start (h : StopSequence r ins t u v) (hw : t ≤ w) (hle : w ≤ v) :
    (trace (step p) r ins w).starts = false := by
  obtain rfl | hlt := Nat.eq_or_lt_of_le hw
  · rw [State.starts, h.stop.bits]
    rfl
  · by_cases hclear : w = u
    · rw [hclear, State.starts, h.clear.bits]
      rfl
    · exact (h.rests w hlt hle hclear).no_start

theorem StopSequence.stopped (h : StopSequence r ins t u v) (hw : t < w) (hle : w ≤ v + 1) :
    (trace (step p) r ins w).Stopped := by
  induction w, hw using Nat.le_induction with
  | base => exact step_stopped (h.stop.bits 1) (h.no_start (Nat.le_refl t) (by omega))
  | succ w hw ih => exact (ih (by omega)).step (h.no_start (Nat.le_of_lt hw) (by omega))

theorem StopSequence.halted (hreset : IsReset r) (h : StopSequence r ins t u v) (hw : t + 2 ≤ w) (hle : w ≤ v + 1)
    (k : Fin p.NUM_ENGINES) : (trace (step p) r ins w).engines[k].Halted ∧
      (t + 322 ≤ w → (trace (step p) r ins w).engines[k].Idle) := by
  obtain ⟨n, rfl⟩ := Nat.exists_eq_add_of_le hw
  have hstop : ((trace (step p) r ins (t + 1)).engine_input k).stop_i = true := by
    change (trace (step p) r ins (t + 1)).engine_stop_q[k] = true
    rw [trace_succ, control_step, h.stop.bits 1, getElem_lane, Vector.getElem_replicate]
    rfl
  have hbase : (trace (step p) r ins (t + 2)).engines[k].Halted := by
    rw [show t + 2 = t + 1 + 1 from rfl, engine_trace_from k (t + 1) 1]
    exact bitcoin_hash_engine.step_stop hstop
  have hreach := reachable_engine ((Reachable.reset hreset).trace ins (t + 2)) k
  have hdrained := bitcoin_hash_engine.trace_halted hbase (bitcoin_hash_engine.reachable_paced hreach)
    (fun x => (trace (step p) r ins (t + 2 + x)).engine_input k) (n := n)
    fun x hx => (h.stopped (w := t + 2 + x) (by omega) (by omega)).not_pending k
  rw [← engine_trace_from] at hdrained
  obtain ⟨hhalted, hpaced, hleft⟩ := hdrained
  refine ⟨hhalted, fun hlate => ⟨hhalted.state, hhalted.core_start, ?_, hhalted.result_valid⟩⟩
  have hbound := sha256_core_iterative.left_le p.engine.core (trace (step p) r ins (t + 2)).engines[k].u_core
  have hlatency : p.engine.core.latency ≤ 320 := by
    rw [sha256_core_iterative.Params.latency]
    split <;> omega
  exact sha256_core_iterative.not_busy_of_left hpaced (by omega)

theorem StopSequence.fifos_empty (hreset : IsReset r) (h : StopSequence r ins t u v) (hw : u + 3 ≤ w) (hle : w ≤ v + 1)
    (c : Fin p.NUM_CLUSTERS) : ((trace (step p) r ins w).fifos c).Empty := by
  have hdrains := h.drains
  induction w, hw using Nat.le_induction with
  | base =>
    rw [trace_succ, fifo_step]
    exact bitcoin_result_cluster_fifo.step_clear_empty (fifo_clear h.clears c)
  | succ w hw ih =>
    have hquiet (k : Fin p.NUM_ENGINES) := (h.halted hreset (w := w) (by omega) (by omega) k).1.result_valid
    rw [trace_succ, fifo_step]
    exact (ih (by omega)).step (reachable_bounded ((Reachable.reset hreset).trace ins w) c) (no_results hquiet c)

theorem StopSequence.not_done (h : StopSequence r ins t u v) (hw : u < w) (hle : w ≤ v + 1) :
    (trace (step p) r ins w).nonce_done_q = false := by
  have hdrains := h.drains
  induction w, hw using Nat.le_induction with
  | base =>
    rw [Nat.succ_eq_add_one, trace_succ, control_step, (h.stopped (by omega) (by omega)).not_completes, h.clear.bits 2]
    rfl
  | succ w hw ih =>
    have hrests := h.rests w (by omega) (by omega) (by omega)
    rw [trace_succ, control_step, (h.stopped (by omega) (by omega)).not_completes, hrests.bits, hrests.bits,
      hrests.no_start, ih (by omega)]
    rfl

/-- The sequence leaves nothing behind. -/
theorem StopSequence.clean (hreset : IsReset r) (h : StopSequence r ins t u v) : (trace (step p) r ins (v + 1)).Clean := by
  have hdrains := h.drains
  have hordered := h.ordered
  have hspaced : u + 3 < v := by
    by_contra hnear
    have hnone := no_apply_after hreset h.clears hordered (by omega)
    rw [h.acknowledge.1] at hnone
    cases hnone
  have hempty (c : Fin p.NUM_CLUSTERS) := h.fifos_empty hreset (w := v) (by omega) (by omega) c
  refine ⟨h.stopped (by omega) (Nat.le_refl _), fun k => ?_, fun c => ?_, ?_, ?_, ?_⟩
  · exact (h.halted hreset (by omega) (Nat.le_refl _) k).2 (by omega)
  · exact h.fifos_empty hreset (by omega) (Nat.le_refl _) c
  · exact h.not_done (by omega) (Nat.le_refl _)
  · rw [trace_succ, step_overflow_flag, no_overflow fun c => (hempty c).overflow, h.acknowledge.bits 1]
    rfl
  · rw [trace_succ, step_result_valid, no_capture fun c => (hempty c).count, h.acknowledge.bits 0]
    rfl

theorem StopSequence.stays_clean (hreset : IsReset r) (h : StopSequence r ins t u v) (hw : v < w)
    (hrests : RestsBetween r ins (v + 1) w) : (trace (step p) r ins w).Clean := by
  obtain ⟨n, rfl⟩ := Nat.exists_eq_add_of_le hw
  have hclean : (trace (step p) (trace (step p) r ins (v + 1)) (after ins (v + 1)) n).Clean := by
    refine clean_stays (h.clean hreset) ((Reachable.reset hreset).trace ins (v + 1)) fun x hx => ?_
    have hrest := hrests (v + 1 + x) (by omega) (by omega)
    rw [trace_after]
    exact ⟨hrest.no_start, hrest.bits 1⟩
  rwa [trace_after] at hclean

/-- Stopping isolates jobs, from whatever state: from two cycles after STOP no
engine raises a result, the sequence leaves nothing under way and a status of
zero, and after the next START only shares of the new job are presented. -/
theorem stop_isolates (hreset : IsReset r) (h : StopSequence r ins t u v) :
    (∀ w, t + 2 ≤ w → w ≤ v + 1 → ∀ k : Fin p.NUM_ENGINES, (trace (step p) r ins w).engines[k].result_valid_o = false) ∧
    ∀ w, v < w → RestsBetween r ins (v + 1) w →
      (trace (step p) r ins w).Clean ∧ read_reg (trace (step p) r ins w) ADDR_STATUS = 0 ∧
      ∀ n, 1 ≤ n → JobRun (trace (step p) r ins w) (after ins w) n → JobHeld (trace (step p) r ins w) (after ins w) →
        (trace (step p) r ins (w + n)).result_valid_q = true →
        ∃ i < (trace (step p) r ins w).nonce_count_q.toNat,
          (trace (step p) r ins (w + n)).result_engine_q = BitVec.ofNat 32 (i % p.NUM_ENGINES) ∧
          (trace (step p) r ins (w + n)).result_nonce_q = job_nonce (trace (step p) r ins w).toRegisters.job i ∧
          JobShare (trace (step p) r ins w).toRegisters.job i := by
  refine ⟨fun w hw hle k => (h.halted hreset hw hle k).1.result_valid, fun w hw hrests => ?_⟩
  have hclean := h.stays_clean hreset hw hrests
  exact ⟨hclean, hclean.status, fun n hpos hrun hheld hvalid =>
    presents_only_shares hreset hclean.quiescent hclean.drained hheld hpos hrun hvalid⟩

end Sequence

section Requests

variable {p : Params} {s : State p} {ins : Nat → Input p}

/-- A request that meets a free write channel is applied two cycles later. -/
theorem request_lands (hempty : s.StagesEmpty) (hfree : s.s_axi_bvalid = false)
    (hvalid : ((ins 0).s_axi_awvalid && (ins 0).s_axi_wvalid) = true) :
    (trace (step p) s ins 1).write_apply = false ∧ (trace (step p) s ins 2).write_apply = true ∧
      ∃ w : WriteChannel, w.wr_stage2_data_q = (ins 0).s_axi_wdata ∧ w.wr_stage2_control_we_q = false ∧
        (trace (step p) s ins 2).toWriteChannel = w.decode (word_addr (ins 0).s_axi_awaddr) := by
  have hfirst : (trace (step p) s ins 1).toWriteChannel = _ := write_accepts hfree hempty.stage2 hempty.stage1 hvalid
  have hstage2 : (trace (step p) s ins 1).wr_stage2_valid_q = false := by
    rw [hfirst]
    exact hempty.stage2
  have hsecond : (trace (step p) s ins 2).toWriteChannel = _ := write_decodes (s := trace (step p) s ins 1) (i := ins 1)
    (by rw [hfirst]; exact hfree) hstage2 (by rw [hfirst])
  rw [hfirst] at hsecond
  refine ⟨by rw [State.write_apply, hstage2, Bool.false_and], ?_, _, rfl, rfl, hsecond⟩
  rw [State.write_apply, hsecond, decode_stage2_valid, decode_bvalid]
  dsimp only
  rw [trace_zero, hfree]
  rfl

variable {t u : Nat}

/-- The request that follows a write is the next one to be applied. -/
theorem next_request (hreach : Reachable (step p) IsReset s) (happly : (trace (step p) s ins t).write_apply = true)
    (hgap : t + 2 ≤ u) (hready : (ins (t + 1)).s_axi_bready = true)
    (hquiet : ∀ x, t ≤ x → x < u → (ins x).s_axi_awvalid = false)
    (hvalid : ((ins u).s_axi_awvalid && (ins u).s_axi_wvalid) = true) :
    (∀ x, t < x → x ≤ u + 1 → (trace (step p) s ins x).write_apply = false) ∧
      (trace (step p) s ins (u + 2)).write_apply = true ∧
      ∃ w : WriteChannel, w.wr_stage2_data_q = (ins u).s_axi_wdata ∧ w.wr_stage2_control_we_q = false ∧
        (trace (step p) s ins (u + 2)).toWriteChannel = w.decode (word_addr (ins u).s_axi_awaddr) := by
  have hone := reachable_one_write (hreach.trace ins t)
  have hafter {x : Nat} (hx : t < x) (hle : x ≤ u) : (trace (step p) s ins x).StagesEmpty := by
    obtain ⟨n, rfl⟩ := Nat.exists_eq_add_of_lt hx
    rw [Nat.add_assoc, ← trace_after]
    exact no_request_empty hone happly (by omega) fun v hv => hquiet (t + v) (by omega) (by omega)
  have hfree : (trace (step p) s ins u).s_axi_bvalid = false := by
    obtain ⟨n, rfl⟩ := Nat.exists_eq_add_of_le hgap
    rw [Nat.add_assoc, ← trace_after]
    exact response_taken hone happly (by omega) hready fun v hv => hquiet (t + v) (by omega) (by omega)
  have hrequest : ((after ins u 0).s_axi_awvalid && (after ins u 0).s_axi_wvalid) = true := hvalid
  obtain ⟨hnone, hlands⟩ := request_lands (hafter (by omega) (Nat.le_refl u)) hfree hrequest
  rw [trace_after] at hnone hlands
  refine ⟨fun x hx hle => ?_, hlands⟩
  obtain hbefore | rfl : x ≤ u ∨ x = u + 1 := by omega
  · exact (hafter hx hbefore).no_apply
  · exact hnone

end Requests

section Division

/-- A master that stops a job of one nonce while its quotas are divided. -/
def stop_division (u : Nat) : Input deployed :=
  if u = 10 then bus_write ADDR_CONTROL 2
  else if u = 400 then bus_write ADDR_CONTROL 4
  else if u = 410 then bus_write ADDR_RESULT_STATUS 3
  else start_one u

theorem stop_division_quiet {u : Nat} (hlate : 10 < u) (hclear : u ≠ 400) (hacknowledge : u ≠ 410) :
    stop_division u = idle_bus u := by
  rw [stop_division, if_neg (by omega), if_neg hclear, if_neg hacknowledge, start_one_quiet (by omega)]

theorem stop_division_sequence : StopSequence (reset_state deployed) stop_division 12 402 412 := by
  have hreach : Reachable (step deployed) IsReset (reset_state deployed) := .reset (reset_state_isReset deployed)
  have hstop : (trace (step deployed) (reset_state deployed) stop_division 12).control_written 2 :=
    ⟨by decide, by decide, by decide⟩
  obtain ⟨hrest, happly, w, hdata, -, hclear⟩ := next_request (u := 400) hreach hstop.1 (by decide) rfl
    (fun x hx hlt => by rw [stop_division_quiet (by omega) (by omega) (by omega)]; rfl) rfl
  obtain ⟨hrest', happly', w', hdata', hcontrol, hacknowledge⟩ := next_request (u := 410) hreach happly (by decide) rfl
    (fun x hx hlt => by rw [stop_division_quiet (by omega) (by omega) (by omega)]; rfl) rfl
  refine ⟨hstop, ⟨happly, ?_, ?_⟩, ⟨happly', ?_, ?_⟩, by decide, by decide, fun x hx hle hne => ?_⟩
  · rw [hclear]
    rfl
  · rw [hclear]
    exact hdata
  · rw [hacknowledge]
    rfl
  · rw [hacknowledge]
    exact hdata'
  · obtain hbefore | hbetween | rfl : x ≤ 401 ∨ 402 < x ∧ x ≤ 411 ∨ x = 412 := by omega
    · rw [State.control_rests, hrest x hx hbefore, Bool.false_and]
    · rw [State.control_rests, hrest' x hbetween.1 hbetween.2, Bool.false_and]
    · rw [State.control_rests, happly', Bool.true_and, hacknowledge]
      exact hcontrol

theorem division_stopped : (trace (step deployed) (reset_state deployed) stop_division 413).Clean :=
  ((stop_isolates (reset_state_isReset deployed) stop_division_sequence).2 413 (by decide)
    fun x hx hlt => by omega).1

end Division

end scu35.bitcoin_miner_axi
