import Scu35Miner.Rtl.HashEngine.Run
import Scu35Miner.Rtl.MinerAxi.Bus
import Scu35Miner.Rtl.MinerAxi.Flags
import Scu35Miner.Rtl.MinerAxi.Schedule

open fips180 clocked

namespace scu35.bitcoin_miner_axi

open LoadState

section Parts

variable {p : Params} (s : State p) (ins : Nat → Input p)

/-- Each engine runs on its own, on the inputs that the miner gives it. -/
theorem engine_trace (k : Fin p.NUM_ENGINES) (t : Nat) :
    (trace (step p) s ins t).engines[k] = trace (bitcoin_hash_engine.step p.engine) s.engines[k]
      (fun u => (trace (step p) s ins u).engine_input k) t := by
  induction t with
  | zero => rfl
  | succ t ih =>
    rw [trace_succ, trace_succ, ← ih]
    exact Vector.getElem_ofFn k.isLt

theorem fifo_trace (c : Fin p.NUM_CLUSTERS) (t : Nat) :
    (trace (step p) s ins t).fifos c = trace (bitcoin_result_cluster_fifo.step (p.cluster c)) (s.fifos c)
      (fun u => (trace (step p) s ins u).fifo_input c) t := by
  induction t with
  | zero => rfl
  | succ t ih =>
    rw [trace_succ, trace_succ, ← ih]
    rfl

end Parts

/-- The cycle with the start pulse of lane `k`, counted from the START. -/
def Params.lane_start (p : Params) (k : Nat) : Nat := p.prep + 3 * k + 3

/-- The cycle in which the last lane has been launched. -/
def Params.launched (p : Params) : Nat := p.prep + 3 * p.NUM_ENGINES

section Job

variable {p : Params} {s : State p} {ins : Nat → Input p} {t : Nat}

/-- A job that is neither stopped nor replaced in its first `t` cycles. -/
structure JobRun (s : State p) (ins : Nat → Input p) (t : Nat) : Prop where
  start : s.starts = true
  stop : NoStop s ins t
  restart : ∀ u, 1 ≤ u → u < t → (trace (step p) s ins u).starts = false

theorem JobRun.mono {t' : Nat} (h : JobRun s ins t) (hle : t' ≤ t) : JobRun s ins t' :=
  ⟨h.start, h.stop.mono hle, fun u hpos hu => h.restart u hpos (by omega)⟩

theorem lane_start_le (k : Fin p.NUM_ENGINES) : p.lane_start k ≤ p.launched := by
  have hk := k.isLt
  unfold Params.lane_start Params.launched
  omega

/-- The launch machine rests once the last lane has been launched. -/
theorem JobRun.load_idle (h : JobRun s ins t) (hpast : p.launched ≤ t) :
    (trace (step p) s ins t).load_state_q = LOAD_IDLE := by
  have hprep := p.prep_pos
  induction t, hpast using Nat.le_induction with
  | base => exact launch_done h.start h.stop
  | succ t hpast ih =>
    have hidle := ih (h.mono (Nat.le_succ t))
    have hstart := h.restart t (by unfold Params.launched at hpast; omega) (Nat.lt_succ_self t)
    rw [trace_succ, loader_idle hidle hstart]
    exact hidle

/-- The only start pulse of a lane comes at its launch. -/
theorem JobRun.engine_start_iff (h : JobRun s ins t) (hpos : 1 ≤ t) (k : Fin p.NUM_ENGINES) :
    (trace (step p) s ins t).engine_start_q[k] = true ↔ t = p.lane_start k ∧ quota s ins k ≠ 0 := by
  by_cases hlaunch : t ≤ p.launched
  · exact engine_start_at h.start k hpos hlaunch h.stop
  · have hlane := lane_start_le k
    obtain ⟨u, rfl⟩ : ∃ u, t = u + 1 := ⟨t - 1, by omega⟩
    have hprep := p.prep_pos
    have hlaunched : p.prep ≤ p.launched := Nat.le_add_right _ _
    have hidle := (h.mono (Nat.le_succ u)).load_idle (by omega)
    rw [trace_succ, loader_idle hidle (h.restart u (by omega) (Nat.lt_succ_self u))]
    refine iff_of_false ?_ fun hsame => by omega
    simp

theorem JobRun.engine_stop (h : JobRun s ins t) (hpos : 1 ≤ t) (k : Fin p.NUM_ENGINES) :
    (trace (step p) s ins t).engine_stop_q[k] = false := by
  obtain ⟨u, rfl⟩ : ∃ u, t = u + 1 := ⟨t - 1, by omega⟩
  rw [trace_succ, control_step]
  simp [h.stop u (Nat.lt_succ_self u)]

theorem JobRun.start_pulse (h : JobRun s ins t) (hpos : 2 ≤ t) : (trace (step p) s ins t).start_pulse_q = false := by
  obtain ⟨u, rfl⟩ : ∃ u, t = u + 1 := ⟨t - 1, by omega⟩
  rw [trace_succ, control_step]
  exact h.restart u (by omega) (Nat.lt_succ_self u)

/-- The last cycle in which lane `k` is at work. -/
def lane_end (s : State p) (ins : Nat → Input p) (k : Nat) : Nat :=
  p.lane_start k + p.engine.period * (quota s ins k).toNat

/-- The ports of lane `k` from its start pulse on. -/
def lane_input (s : State p) (ins : Nat → Input p) (k : Fin p.NUM_ENGINES) (u : Nat) : bitcoin_hash_engine.Input :=
  (trace (step p) s ins (p.lane_start k + u)).engine_input k

theorem lane_trace (k : Fin p.NUM_ENGINES) (n : Nat) :
    (trace (step p) s ins (p.lane_start k + n)).engines[k] =
      trace (bitcoin_hash_engine.step p.engine) (trace (step p) s ins (p.lane_start k)).engines[k] (lane_input s ins k) n := by
  rw [engine_trace, trace_add, ← engine_trace]
  rfl

theorem lane_start_pos (k : Nat) : 1 ≤ p.lane_start k := by
  unfold Params.lane_start
  omega

/-- A lane that is not started stays idle. -/
theorem JobRun.lane_waits (h : JobRun s ins t) {k : Fin p.NUM_ENGINES} (hidle : s.engines[k].Idle)
    (hpending : s.engine_start_q[k] = false) (ht : t ≤ p.lane_start k) :
    (trace (step p) s ins t).engines[k].Idle ∧ (1 ≤ t → (trace (step p) s ins t).engines[k].done_o = false) := by
  induction t with
  | zero => exact ⟨hidle, by omega⟩
  | succ t ih =>
    have hrun := h.mono (Nat.le_succ t)
    obtain ⟨hwait, _⟩ := ih hrun (by omega)
    have hstart : (trace (step p) s ins t).engine_start_q[k] = false := by
      obtain rfl | hpos := Nat.eq_zero_or_pos t
      · exact hpending
      · rw [← Bool.not_eq_true, hrun.engine_start_iff hpos]
        omega
    have hnext := bitcoin_hash_engine.step_idle (p := p.engine) hwait
      (i := (trace (step p) s ins t).engine_input k) (.inl hstart)
    rw [engine_trace, trace_succ, ← engine_trace]
    exact ⟨hnext.1, fun _ => hnext.2⟩

/-- What starts a lane with a quota, and lets it work undisturbed. -/
theorem JobRun.lane_starts {n : Nat} {k : Fin p.NUM_ENGINES} (h : JobRun s ins (p.lane_start k + n)) :
    (lane_input s ins k 0).nonce_count_i = quota s ins k ∧
      ((lane_input s ins k 0).start_i = true ↔ quota s ins k ≠ 0) ∧ ∀ u ≤ n, (lane_input s ins k u).stop_i = false := by
  have hpos := lane_start_pos (p := p) k
  have hlane := h.mono (Nat.le_add_right _ _)
  refine ⟨?_, ?_, fun u hu => (h.mono (by omega)).engine_stop (by omega) k⟩
  · have hports := (lane_ports hlane.start (Nat.lt_succ_self k.val) k.isLt hlane.stop).1
    rw [show p.prep + 3 * k.val.succ = p.lane_start k from rfl, Vector.getElem?_eq_getElem k.isLt] at hports
    exact Option.some.inj hports
  · exact (hlane.engine_start_iff hpos k).trans (and_iff_right rfl)

theorem quota_pos_iff {k : Nat} : 0 < (quota s ins k).toNat ↔ quota s ins k ≠ 0 := by
  rw [Nat.pos_iff_ne_zero, ne_eq, ne_eq, BitVec.toNat_eq]
  exact Iff.rfl

/-- A started lane works through its nonces. -/
theorem JobRun.lane_scans {k : Fin p.NUM_ENGINES} {n : Nat} (h : JobRun s ins (p.lane_start k + (n + 1)))
    (hidle : s.engines[k].Idle) (hpending : s.engine_start_q[k] = false)
    (hn : n < p.engine.period * (quota s ins k).toNat) :
    (trace (step p) s ins (p.lane_start k + (n + 1))).engines[k].Scanning p.engine (lane_input s ins k 0).job
        (n / p.engine.period) ∧
      (trace (step p) s ins (p.lane_start k + (n + 1))).engines[k].At p.engine (lane_input s ins k 0).job
        (n / p.engine.period) (p.engine.stage (n % p.engine.period)) := by
  have hwait := ((h.mono (Nat.le_add_right _ _)).lane_waits hidle hpending (Nat.le_refl _)).1
  obtain ⟨hcount, hstart, hstop⟩ := h.lane_starts
  have hquota := quota_pos_iff.mp (Nat.pos_of_lt_mul_left hn)
  rw [lane_trace]
  exact bitcoin_hash_engine.trace_scans hwait (hstart.mpr hquota) (by rwa [hcount]) (by rwa [hcount])
    fun u hu => hstop u (by omega)

/-- Before its start and after its last nonce a lane is idle; its last nonce
is followed by the pulse of `done_o`. -/
theorem JobRun.lane_rests {k : Fin p.NUM_ENGINES} {n : Nat} (hn : p.engine.period * (quota s ins k).toNat ≤ n)
    (h : JobRun s ins (p.lane_start k + (n + 1))) (hidle : s.engines[k].Idle) (hpending : s.engine_start_q[k] = false) :
    (trace (step p) s ins (p.lane_start k + (n + 1))).engines[k].Idle ∧
      ((trace (step p) s ins (p.lane_start k + (n + 1))).engines[k].done_o = true ↔
        quota s ins k ≠ 0 ∧ n = p.engine.period * (quota s ins k).toNat) := by
  have hpos := lane_start_pos (p := p) k
  have hwait := ((h.mono (Nat.le_add_right _ _)).lane_waits hidle hpending (Nat.le_refl _)).1
  induction n, hn using Nat.le_induction with
  | base =>
    obtain ⟨hcount, hstart, hstop⟩ := h.lane_starts
    by_cases hquota : quota s ins k = 0
    · have hnext := bitcoin_hash_engine.step_idle (p := p.engine) (i := lane_input s ins k 0) hwait
        (.inl (by rw [← Bool.not_eq_true, hstart]; simp [hquota]))
      have hzero : p.engine.period * (quota s ins k).toNat = 0 := by rw [hquota]; exact Nat.mul_zero _
      rw [hzero, lane_trace, trace_succ, trace_zero]
      exact ⟨hnext.1, iff_of_false (Bool.eq_false_iff.mp hnext.2) (by simp [hquota])⟩
    · have hbegin : (lane_input s ins k 0).start_i = true := hstart.mpr hquota
      have hdone := bitcoin_hash_engine.trace_done (p := p.engine) hwait hbegin
        (by rwa [hcount]) fun u hu => hstop u (by rw [hcount] at hu; omega)
      rw [hcount, ← lane_trace] at hdone
      exact ⟨hdone.1, iff_of_true hdone.2 ⟨hquota, rfl⟩⟩
  | succ n hn ih =>
    have hrun : JobRun s ins (p.lane_start k + (n + 1)) := h.mono (by omega)
    have hstart : (trace (step p) s ins (p.lane_start k + (n + 1))).engine_start_q[k] = false := by
      rw [← Bool.not_eq_true, hrun.engine_start_iff (by omega)]
      omega
    have hnext := bitcoin_hash_engine.step_idle (p := p.engine) (ih hrun).1
      (i := (trace (step p) s ins (p.lane_start k + (n + 1))).engine_input k) (.inl hstart)
    rw [engine_trace, ← Nat.add_assoc, trace_succ, ← engine_trace]
    exact ⟨hnext.1, iff_of_false (Bool.eq_false_iff.mp hnext.2) (by omega)⟩

/-- Lane `k` is at work from its start pulse on until its last nonce. -/
def LaneBusy (s : State p) (ins : Nat → Input p) (k t : Nat) : Prop := p.lane_start k < t ∧ t ≤ lane_end s ins k

theorem lane_end_ge (k : Nat) : p.lane_start k ≤ lane_end s ins k := Nat.le_add_right _ _

theorem JobRun.lane_idle (h : JobRun s ins t) {k : Fin p.NUM_ENGINES} (hidle : s.engines[k].Idle)
    (hpending : s.engine_start_q[k] = false) (hfree : ¬ LaneBusy s ins k t) :
    (trace (step p) s ins t).engines[k].Idle := by
  by_cases hwait : t ≤ p.lane_start k
  · exact (h.lane_waits hidle hpending hwait).1
  · have hpast : lane_end s ins k < t := by
      by_contra hnot
      exact hfree ⟨by omega, by omega⟩
    unfold lane_end at hpast
    obtain ⟨n, rfl⟩ : ∃ n, t = p.lane_start k + (n + 1) := ⟨t - p.lane_start k - 1, by omega⟩
    exact (JobRun.lane_rests (by omega) h hidle hpending).1

theorem JobRun.lane_busy (h : JobRun s ins t) {k : Fin p.NUM_ENGINES} (hidle : s.engines[k].Idle)
    (hpending : s.engine_start_q[k] = false) (hbusy : LaneBusy s ins k t) :
    (trace (step p) s ins t).engines[k].busy_o = true ∧ (trace (step p) s ins t).engines[k].done_o = false := by
  obtain ⟨hpast, hle⟩ := hbusy
  unfold lane_end at hle
  obtain ⟨n, rfl⟩ : ∃ n, t = p.lane_start k + (n + 1) := ⟨t - p.lane_start k - 1, by omega⟩
  obtain ⟨hscan, hat⟩ := h.lane_scans hidle hpending (by omega)
  refine ⟨?_, hscan.done⟩
  rw [bitcoin_hash_engine.State.busy_o, bne_iff_ne.mpr hat.state_ne_idle, Bool.true_or]

/-- A lane pulses `done_o` once, after its last nonce. -/
theorem JobRun.lane_done_iff (h : JobRun s ins t) {k : Fin p.NUM_ENGINES} (hidle : s.engines[k].Idle)
    (hpending : s.engine_start_q[k] = false) (hpos : 1 ≤ t) :
    (trace (step p) s ins t).engines[k].done_o = true ↔ quota s ins k ≠ 0 ∧ t = lane_end s ins k + 1 := by
  have hge : p.lane_start k ≤ lane_end s ins k := lane_end_ge k
  by_cases hwait : t ≤ p.lane_start k
  · rw [(h.lane_waits hidle hpending hwait).2 hpos]
    exact iff_of_false Bool.false_ne_true (by omega)
  · by_cases hend : t ≤ lane_end s ins k
    · rw [(h.lane_busy hidle hpending ⟨by omega, hend⟩).2]
      exact iff_of_false Bool.false_ne_true (by omega)
    · unfold lane_end at hend ⊢
      obtain ⟨n, rfl⟩ : ∃ n, t = p.lane_start k + (n + 1) := ⟨t - p.lane_start k - 1, by omega⟩
      rw [(JobRun.lane_rests (by omega) h hidle hpending).2]
      exact and_congr_right fun _ => by omega

end Job

end scu35.bitcoin_miner_axi
