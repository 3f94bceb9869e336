import Scu35Miner.Rtl.MinerAxi

open fips180 clocked

namespace scu35.bitcoin_miner_axi

section Flags

variable {p : Params} {s : State p} {i : Input p}

/-- The cluster whose oldest result is taken into the result register. -/
def State.capture (s : State p) : Option (Fin p.NUM_CLUSTERS) := if s.result_valid_q then none else s.cluster_hit_idx_next

def State.any_overflow (s : State p) : Bool := (List.finRange p.NUM_CLUSTERS).any fun k => (s.fifos k).overflow_o

/-- The pulses and flags after the bus write, with the last assignment first. -/
theorem apply_control_eq (c : Control p) : s.apply_control c = { c with
    running_q := if s.control_write 1 then false else s.starts || c.running_q
    nonce_done_q := if s.control_write 2 then false else s.control_write 1 || (!s.starts && c.nonce_done_q)
    overflow_q := !s.result_status_write 1 && !s.control_write 2 && !s.starts && c.overflow_q
    result_valid_q := !s.result_status_write 0 && !s.control_write 2 && !s.starts && c.result_valid_q
    start_pulse_q := s.starts || c.start_pulse_q
    stop_pulse_q := s.control_write 1 || c.stop_pulse_q
    clear_results_q := s.control_write 2 || c.clear_results_q
    engine_stop_q := if s.control_write 1 then Vector.replicate _ true else c.engine_stop_q } := by
  unfold State.apply_control
  generalize s.starts = starts, s.control_write 1 = stop, s.control_write 2 = clear,
    s.result_status_write 0 = ack, s.result_status_write 1 = ack_overflow
  cases starts <;> cases stop <;> cases clear <;> cases ack <;> cases ack_overflow <;> rfl

/-- The clocked block as one update of the flags, with the last assignment
first. -/
theorem control_step : (step p s i).toControl =
    { running_q := if s.completes || s.control_write 1 then false else s.starts || s.running_q
      nonce_done_q := s.completes ||
        if s.control_write 2 then false else s.control_write 1 || (!s.starts && s.nonce_done_q)
      overflow_q := s.any_overflow ||
        (!s.result_status_write 1 && !s.control_write 2 && !s.starts && s.overflow_q)
      result_valid_q := s.capture.isSome ||
        (!s.result_status_write 0 && !s.control_write 2 && !s.starts && s.result_valid_q)
      result_nonce_q := s.capture.elim s.result_nonce_q fun k => (s.fifos k).nonce_o
      result_engine_q := s.capture.elim s.result_engine_q fun k => (s.fifos k).engine_id_o
      start_pulse_q := s.starts
      stop_pulse_q := s.control_write 1
      clear_results_q := s.control_write 2
      engine_stop_q := Vector.replicate _ (s.control_write 1)
      cluster_pop_q := s.capture.elim (Vector.replicate _ false) fun k => (Vector.replicate _ false).set k true k.isLt } := by
  have hany : ((List.finRange p.NUM_CLUSTERS).any fun k => (s.fifos k).overflow_o) = s.any_overflow := rfl
  change s.control_next = _
  simp only [State.control_next, State.capture, apply_control_eq, hany]
  generalize s.completes = completes, s.starts = starts, s.control_write 1 = stop, s.control_write 2 = clear,
    s.any_overflow = any, s.result_status_write 0 = ack, s.result_status_write 1 = ack_overflow
  cases hvalid : s.result_valid_q <;> cases s.cluster_hit_idx_next <;>
    cases completes <;> cases any <;> cases stop <;> simp

theorem step_cluster_pop : (step p s i).cluster_pop_q =
    s.capture.elim (Vector.replicate _ false) fun k => (Vector.replicate _ false).set k true k.isLt :=
  congrArg Control.cluster_pop_q control_step

theorem step_result_valid : (step p s i).result_valid_q =
    (s.capture.isSome || (!s.result_status_write 0 && !s.control_write 2 && !s.starts && s.result_valid_q)) :=
  congrArg Control.result_valid_q control_step

theorem step_overflow_flag : (step p s i).overflow_q =
    (s.any_overflow || (!s.result_status_write 1 && !s.control_write 2 && !s.starts && s.overflow_q)) :=
  congrArg Control.overflow_q control_step

/-- Without a write that is applied the pulses are low and the flags stay, but
for a capture, an overflow or the completion of a job. -/
theorem no_apply_no_pulse (h : s.write_apply = false) (bit : Nat) :
    s.control_write bit = false ∧ s.result_status_write bit = false ∧ s.starts = false := by
  have hcontrol (bit : Nat) : s.control_write bit = false := by
    rw [State.control_write, h, Bool.false_and, Bool.false_and]
  refine ⟨hcontrol bit, ?_, ?_⟩
  · rw [State.result_status_write, h, Bool.false_and, Bool.false_and]
  · rw [State.starts, hcontrol 0, Bool.false_and]

theorem registers_hold (h : s.write_apply = false) : (step p s i).toRegisters = s.toRegisters := by
  change s.registers_next = _
  have hwritten (we : Bool) (old : Word) : s.written we old = old := by
    rw [State.written, h, Bool.false_and]
    rfl
  have hvector {n : Nat} (v : Vector Word n) : (Vector.ofFn fun k => v[k]) = v := by
    ext k hk
    simp
  simp only [State.registers_next, hwritten, hvector, h, Bool.false_and, Bool.false_eq_true, ↓reduceIte]

/-- A busy engine holds up the completion. -/
theorem not_completes_of_busy {k : Fin p.NUM_ENGINES} (hbusy : s.engines[k].busy_o = true)
    (hdone : s.engines[k].done_o = false) : s.completes = false := by
  have hnot_free : s.engines.all (fun e => !e.busy_o) = false := by
    rw [Vector.all_eq_false]
    exact ⟨k, k.isLt, by simpa using hbusy⟩
  have hnot_done : s.engines.all (fun e => e.done_o) = false := by
    rw [Vector.all_eq_false]
    exact ⟨k, k.isLt, by simpa using hdone⟩
  rw [State.completes, hnot_free, hnot_done, Bool.or_self, Bool.and_false, Bool.false_and]

theorem completes_of_idle (hrunning : s.running_q = true) (hload : s.load_state_q = .LOAD_IDLE)
    (hfree : ∀ k : Fin p.NUM_ENGINES, s.engines[k].busy_o = false) (hpulse : s.start_pulse_q = false) :
    s.completes = true := by
  have hall : s.engines.all (fun e => !e.busy_o) = true := by
    rw [Vector.all_eq_true]
    intro k hk
    rw [Bool.not_eq_true']
    exact hfree ⟨k, hk⟩
  rw [State.completes, hrunning, hload, hall, hpulse]
  rfl

theorem not_completes_of_loading (hload : s.load_state_q ≠ .LOAD_IDLE) : s.completes = false := by
  rw [State.completes, beq_false_of_ne hload, Bool.and_false, Bool.false_and, Bool.false_and]

end Flags

end scu35.bitcoin_miner_axi
