import Scu35Miner.Rtl.MinerAxi.Lanes
import Scu35Miner.Rtl.MinerAxi.Partition

open fips180 clocked

namespace scu35.bitcoin_miner_axi

open LoadState

section Quiescence

variable {p : Params} {s : State p}

theorem reachable_engine (h : Reachable (step p) IsReset s) (k : Fin p.NUM_ENGINES) :
    Reachable (bitcoin_hash_engine.step p.engine) bitcoin_hash_engine.IsReset s.engines[k] := by
  induction h with
  | reset h => exact .reset (h.engines k)
  | step _ i ih =>
    rw [step, getElem_lane, Vector.getElem_ofFn]
    exact ih.step _

/-- Nothing is under way. -/
structure State.Quiescent (s : State p) : Prop where
  running : s.running_q = false
  load : s.load_state_q = LOAD_IDLE
  pending : s.engine_start_q = Vector.replicate _ false
  engines : ∀ k : Fin p.NUM_ENGINES, s.engines[k].busy_o = false

theorem State.Quiescent.idle (h : s.Quiescent) (hreach : Reachable (step p) IsReset s) (k : Fin p.NUM_ENGINES) :
    s.engines[k].Idle := bitcoin_hash_engine.idle_of_not_busy (reachable_engine hreach k) (h.engines k)

theorem State.Quiescent.not_pending (h : s.Quiescent) (k : Fin p.NUM_ENGINES) : s.engine_start_q[k] = false := by
  rw [h.pending, getElem_lane, Vector.getElem_replicate]

end Quiescence

section Completion

variable {p : Params} {s : State p} {ins : Nat → Input p} {t : Nat}

/-- The quota of lane `k` for a count. -/
def lane_quota (s : State p) (k : Fin p.NUM_ENGINES) : Word := engine_work_count p s.nonce_count_q (BitVec.ofNat 32 k)

/-- Every lane with a quota has finished its last nonce. -/
def WorkFinished (s : State p) (ins : Nat → Input p) (t : Nat) : Prop :=
  ∀ k, lane_quota s k ≠ 0 → ∃ u, 1 ≤ u ∧ u ≤ t ∧ (trace (step p) s ins u).engines[k].done_o = true

/-- A job that is neither stopped nor replaced before all lanes are launched and
finished, and whose count is not rewritten during the launch. -/
structure Undisturbed (s : State p) (ins : Nat → Input p) : Prop where
  start : s.starts = true
  stop : ∀ u, u < p.launched ∨ ¬ WorkFinished s ins u → (trace (step p) s ins u).control_write 1 = false
  restart : ∀ u, 1 ≤ u → u < p.launched ∨ ¬ WorkFinished s ins u → (trace (step p) s ins u).starts = false
  count : ∀ u ≤ p.launched, (trace (step p) s ins u).nonce_count_q = s.nonce_count_q

/-- The flags tell the truth about a job: until all work is finished it is
running and not done, and some time later it is done and not running until the
next write to `CONTROL`. -/
def CompletionHonest (s : State p) (ins : Nat → Input p) : Prop :=
  (∀ t, 1 ≤ t → ¬ WorkFinished s ins t →
    (trace (step p) s ins t).running_q = true ∧ (trace (step p) s ins t).nonce_done_q = false) ∧
  ∃ e, WorkFinished s ins e ∧ ∀ t, e < t →
    (∀ u, e < u → u < t →
      ((trace (step p) s ins u).write_apply && (trace (step p) s ins u).wr_stage2_control_we_q) = false) →
    (trace (step p) s ins t).running_q = false ∧ (trace (step p) s ins t).nonce_done_q = true

theorem lane_quota_ne_zero_iff (k : Fin p.NUM_ENGINES) : lane_quota s k ≠ 0 ↔ k.val < s.nonce_count_q.toNat := by
  have hengines := p.engines_lt
  have hlt := lt_engine_work_count_iff (p := p) s.nonce_count_q (i := k) (by omega) 0
  rw [Nat.mul_zero, Nat.add_zero] at hlt
  rw [← hlt, Nat.pos_iff_ne_zero, ne_eq, ne_eq, BitVec.toNat_eq]
  exact Iff.rfl

/-- The launch machine gives each lane the quota of the closed formula. -/
theorem quota_held (hstart : s.starts = true) (hstop : NoStop s ins (p.prep + 3 * t)) (ht : t < p.NUM_ENGINES)
    (hcount : (trace (step p) s ins (p.prep + 3 * t)).nonce_count_q = s.nonce_count_q) :
    quota s ins t = engine_work_count p s.nonce_count_q (BitVec.ofNat 32 t) := by
  by_cases hthree : p.NUM_ENGINES = 3
  · have hprep : p.prep = 33 := if_pos hthree
    rw [hprep] at hstop
    exact quota_eq hthree hstart (by omega) hstop
  · obtain ⟨_, hidx⟩ := prep_run hstart ht hstop
    have hwide : (trace (step p) s ins (p.prep + 3 * t)).load_engine_idx_q.setWidth 32 = BitVec.ofNat 32 t := by
      apply BitVec.eq_of_toNat_eq
      rw [BitVec.toNat_setWidth, hidx, BitVec.toNat_ofNat]
    rw [quota, State.load_lane_count, if_neg hthree, hcount, hwide]

theorem prep_le_launched (k : Fin p.NUM_ENGINES) : p.prep + 3 * k ≤ p.launched := by
  have hk := k.isLt
  unfold Params.launched
  omega

theorem Undisturbed.job_run (h : Undisturbed s ins) (hopen : ∀ u < t, u < p.launched ∨ ¬ WorkFinished s ins u) :
    JobRun s ins t :=
  ⟨h.start, fun u hu => h.stop u (hopen u hu), fun u hpos hu => h.restart u hpos (hopen u hu)⟩

theorem Undisturbed.quota_eq_lane_quota (h : Undisturbed s ins) (k : Fin p.NUM_ENGINES) :
    quota s ins k = lane_quota s k := by
  have hle := prep_le_launched k
  refine quota_held h.start (fun u hu => h.stop u (.inl (by omega))) k.isLt (h.count _ hle)

/-- A job keeps running and not done while it is not seen to be complete. -/
theorem JobRun.stays_running (h : JobRun s ins t) (hquiet : s.running_q = false) (hpos : 1 ≤ t)
    (hopen : ∀ u, 1 ≤ u → u < t → (trace (step p) s ins u).completes = false) :
    (trace (step p) s ins t).running_q = true ∧ (trace (step p) s ins t).nonce_done_q = false := by
  induction t, hpos using Nat.le_induction with
  | base =>
    have hstop : s.control_write 1 = false := h.stop 0 (Nat.lt_succ_self 0)
    have hrest : s.completes = false := by
      rw [State.completes, hquiet, Bool.false_and, Bool.false_and, Bool.false_and]
    rw [trace_succ, trace_zero, control_step, hstop, hrest, h.start]
    exact ⟨rfl, by simp⟩
  | succ t hpos ih =>
    obtain ⟨hrunning, hdone⟩ := ih (h.mono (Nat.le_succ t)) fun u hu hlt => hopen u hu (by omega)
    have hlt := Nat.lt_succ_self t
    rw [trace_succ, control_step, h.stop t hlt, hopen t hpos hlt, h.restart t hpos hlt, hrunning, hdone]
    exact ⟨rfl, by simp⟩

/-- Flags that say that the job is done keep saying so until the next write to
`CONTROL`. -/
theorem stays_done {e : Nat} (hcompletes : (trace (step p) s ins e).completes = true) (ht : e < t)
    (hquiet : ∀ u, e < u → u < t →
      ((trace (step p) s ins u).write_apply && (trace (step p) s ins u).wr_stage2_control_we_q) = false) :
    (trace (step p) s ins t).running_q = false ∧ (trace (step p) s ins t).nonce_done_q = true := by
  induction t, ht using Nat.le_induction with
  | base =>
    rw [Nat.succ_eq_add_one, trace_succ, control_step, hcompletes]
    exact ⟨rfl, rfl⟩
  | succ t ht ih =>
    obtain ⟨hrunning, hdone⟩ := ih fun u hu hlt => hquiet u hu (by omega)
    have hwrite (bit : Nat) : (trace (step p) s ins t).control_write bit = false := by
      rw [State.control_write, hquiet t ht (Nat.lt_succ_self t), Bool.false_and]
    have hstart : (trace (step p) s ins t).starts = false := by
      rw [State.starts, hwrite, Bool.false_and]
    rw [trace_succ, control_step, hwrite 1, hwrite 2, hstart, hrunning, hdone]
    simp

section Undisturbed

variable (hreach : Reachable (step p) IsReset s) (hquiet : s.Quiescent) (hjob : Undisturbed s ins)

include hreach hquiet hjob

/-- While the job runs, its work is finished exactly when every lane with a
quota is past its end. -/
theorem work_finished_iff (h : JobRun s ins t) :
    WorkFinished s ins t ↔ ∀ k, lane_quota s k ≠ 0 → lane_end s ins k < t := by
  refine forall_congr' fun k => forall_congr' fun hquota => ?_
  rw [← hjob.quota_eq_lane_quota] at hquota
  constructor
  · rintro ⟨u, hpos, hle, hdone⟩
    have hend := ((h.mono hle).lane_done_iff (hquiet.idle hreach k) (hquiet.not_pending k) hpos).mp hdone
    omega
  · intro hlt
    refine ⟨lane_end s ins k + 1, by omega, hlt, ?_⟩
    exact ((h.mono hlt).lane_done_iff (hquiet.idle hreach k) (hquiet.not_pending k) (by omega)).mpr ⟨hquota, rfl⟩

/-- With two lanes the last start pulse is masked by the lane before. -/
theorem busy_lane (htwo : 2 ≤ p.NUM_ENGINES) (h : JobRun s ins t) (hpast : p.launched ≤ t)
    (hopen : ¬ WorkFinished s ins t) : ∃ k : Fin p.NUM_ENGINES, LaneBusy s ins k t := by
  rw [work_finished_iff hreach hquiet hjob h] at hopen
  push Not at hopen
  obtain ⟨k, hquota, hend⟩ := hopen
  by_cases hstarted : p.lane_start k < t
  · exact ⟨k, hstarted, hend⟩
  · have hlane := lane_start_le k
    have hk := k.isLt
    have hlast : k.val + 1 = p.NUM_ENGINES := by
      unfold Params.launched at hpast
      unfold Params.lane_start at hstarted
      omega
    have hbefore : k.val - 1 < p.NUM_ENGINES := by omega
    have hquota' : lane_quota s ⟨k.val - 1, hbefore⟩ ≠ 0 := by
      rw [lane_quota_ne_zero_iff] at hquota ⊢
      change k.val - 1 < _
      omega
    rw [← hjob.quota_eq_lane_quota, ← quota_pos_iff] at hquota'
    have hperiod : 15 ≤ p.engine.period := by
      rw [p.engine.period_eq]
      omega
    have hwork : p.engine.period ≤ p.engine.period * (quota s ins (k.val - 1)).toNat := Nat.le_mul_of_pos_right _ hquota'
    refine ⟨⟨k.val - 1, hbefore⟩, ?_, ?_⟩
    · change p.lane_start (k.val - 1) < t
      unfold Params.lane_start at *
      omega
    · change t ≤ p.lane_start (k.val - 1) + p.engine.period * (quota s ins (k.val - 1)).toNat
      unfold Params.lane_start at *
      omega

theorem open_not_completes (hcond : 2 ≤ p.NUM_ENGINES ∨ s.nonce_count_q = 0) (h : JobRun s ins t) (hpos : 1 ≤ t)
    (hopen : t < p.launched ∨ ¬ WorkFinished s ins t) : (trace (step p) s ins t).completes = false := by
  by_cases hload : t < p.launched
  · exact not_completes_of_loading (loading_at h.start hpos hload h.stop)
  · replace hopen := hopen.resolve_left hload
    obtain htwo | hzero := hcond
    · obtain ⟨k, hlane⟩ := busy_lane hreach hquiet hjob htwo h (by omega) hopen
      obtain ⟨hbusy, hdone⟩ := h.lane_busy (hquiet.idle hreach k) (hquiet.not_pending k) hlane
      exact not_completes_of_busy hbusy hdone
    · refine absurd (fun k hquota => ?_) hopen
      rw [lane_quota_ne_zero_iff, hzero] at hquota
      exact absurd hquota (Nat.not_lt_zero _)

theorem work_finishes : ∃ t, p.launched ≤ t ∧ WorkFinished s ins t := by
  by_contra hnever
  push Not at hnever
  have hopen (u : Nat) : u < p.launched ∨ ¬ WorkFinished s ins u := by
    by_cases hlt : u < p.launched
    · exact .inl hlt
    · exact .inr (hnever u (by omega))
  have hrun (t : Nat) : JobRun s ins t := hjob.job_run fun u _ => hopen u
  have hle (k : Fin p.NUM_ENGINES) := Finset.le_sup (f := fun k : Fin p.NUM_ENGINES => lane_end s ins k) (Finset.mem_univ k)
  refine hnever _ (Nat.le_add_right p.launched (Finset.univ.sup fun k : Fin p.NUM_ENGINES => lane_end s ins k)) ?_
  rw [work_finished_iff hreach hquiet hjob (hrun _)]
  intro k _
  have hpos := p.prep_pos
  have hk : lane_end s ins k ≤ _ := hle k
  unfold Params.launched
  omega

/-- The flags tell the truth if there are two lanes or nothing to do. -/
theorem honest_of_condition (hcond : 2 ≤ p.NUM_ENGINES ∨ s.nonce_count_q = 0) : CompletionHonest s ins := by
  classical
  have hprep := p.prep_pos
  have hexists := work_finishes hreach hquiet hjob
  obtain ⟨e, he⟩ : ∃ e, e = Nat.find hexists := ⟨_, rfl⟩
  obtain ⟨hpast, hfinished⟩ : p.launched ≤ e ∧ WorkFinished s ins e := he ▸ Nat.find_spec hexists
  have hbefore {u : Nat} (hu : u < e) : u < p.launched ∨ ¬ WorkFinished s ins u := by
    have hnot := Nat.find_min hexists (he ▸ hu)
    by_cases hlt : u < p.launched
    · exact .inl hlt
    · exact .inr fun hdone => hnot ⟨by omega, hdone⟩
  have hrun {t : Nat} (ht : t ≤ e) : JobRun s ins t := hjob.job_run fun u hu => hbefore (by omega)
  have hrunning {t : Nat} (hpos : 1 ≤ t) (ht : t ≤ e) := (hrun ht).stays_running hquiet.running hpos fun u hu hlt =>
    open_not_completes hreach hquiet hjob hcond (hrun (by omega)) hu (hbefore (by omega))
  have hlaunched : 4 ≤ p.launched := by
    have hengines := p.engines_pos
    unfold Params.launched
    omega
  have hcompletes : (trace (step p) s ins e).completes = true := by
    refine completes_of_idle (hrunning (by omega) (Nat.le_refl e)).1 ((hrun (Nat.le_refl e)).load_idle hpast) ?_ ?_
    · intro k
      have hfree : ¬ LaneBusy s ins k e := by
        rintro ⟨hstart, hend⟩
        have hquota : lane_quota s k ≠ 0 := by
          rw [← hjob.quota_eq_lane_quota, ← quota_pos_iff]
          refine Nat.pos_of_ne_zero fun hzero => ?_
          rw [lane_end, hzero, Nat.mul_zero] at hend
          omega
        have hlt := (work_finished_iff hreach hquiet hjob (hrun (Nat.le_refl e))).mp hfinished k hquota
        omega
      exact ((hrun (Nat.le_refl e)).lane_idle (hquiet.idle hreach k) (hquiet.not_pending k) hfree).not_busy
    · exact (hrun (Nat.le_refl e)).start_pulse (by omega)
  refine ⟨fun t hpos hopen => ?_, e, hfinished, fun t ht hwrites => stays_done hcompletes ht hwrites⟩
  refine hrunning hpos (Nat.le_of_not_lt fun hlt => hopen fun k hquota => ?_)
  obtain ⟨u, hu, hle, hdone⟩ := hfinished k hquota
  exact ⟨u, hu, by omega, hdone⟩

/-- With one lane nothing masks its start pulse: the job is seen to be complete
before it has begun. -/
theorem one_lane_dishonest (hone : p.NUM_ENGINES = 1) (hcount : s.nonce_count_q ≠ 0) : ¬ CompletionHonest s ins := by
  rintro ⟨hrunning, _⟩
  have hprep := p.prep_pos
  have hlast : p.launched = p.lane_start 0 := by
    unfold Params.launched Params.lane_start
    omega
  have hlaunched : 4 ≤ p.launched := by
    unfold Params.launched
    omega
  obtain ⟨k, hk⟩ : ∃ k : Fin p.NUM_ENGINES, k.val = 0 := ⟨⟨0, by omega⟩, rfl⟩
  have hquota : lane_quota s k ≠ 0 := by
    rw [lane_quota_ne_zero_iff, hk, Nat.pos_iff_ne_zero]
    exact fun hzero => hcount (BitVec.eq_of_toNat_eq hzero)
  have hend : p.launched + 2 ≤ lane_end s ins k := by
    have hperiod := p.engine.period_eq
    have hpos := hquota
    rw [← hjob.quota_eq_lane_quota, ← quota_pos_iff] at hpos
    have hwork : p.engine.period ≤ p.engine.period * (quota s ins k).toNat := Nat.le_mul_of_pos_right _ hpos
    rw [lane_end, hk, ← hlast]
    rw [hk] at hwork
    omega
  have hrun : JobRun s ins p.launched := hjob.job_run fun u hu => .inl hu
  have hopen {t : Nat} (ht : t ≤ p.launched + 1) (h : JobRun s ins t) : ¬ WorkFinished s ins t := by
    intro hfinished
    have hlt := (work_finished_iff hreach hquiet hjob h).mp hfinished k hquota
    omega
  have hrun' : JobRun s ins (p.launched + 1) := hjob.job_run fun u hu =>
    .inr (hopen (by omega) (hrun.mono (by omega)))
  have hcompletes : (trace (step p) s ins p.launched).completes = true := by
    refine completes_of_idle (hrunning p.launched (by omega) (hopen (by omega) hrun)).1
      (hrun.load_idle (Nat.le_refl _)) ?_ ?_
    · intro j
      obtain rfl : j = k := Fin.ext (by omega)
      exact (hrun.lane_waits (hquiet.idle hreach j) (hquiet.not_pending j) (by rw [hk]; omega)).1.not_busy
    · exact hrun.start_pulse (by omega)
  have hflag := (hrunning (p.launched + 1) (by omega) (hopen (Nat.le_refl _) hrun')).1
  rw [trace_succ, control_step, hcompletes] at hflag
  cases hflag

/-- Completion is reported honestly unless a single lane has work to do. -/
theorem completion_honest_iff : CompletionHonest s ins ↔ 2 ≤ p.NUM_ENGINES ∨ s.nonce_count_q = 0 := by
  have hpos := p.engines_pos
  refine ⟨fun hhonest => ?_, honest_of_condition hreach hquiet hjob⟩
  by_contra hnot
  push Not at hnot
  exact one_lane_dishonest hreach hquiet hjob (by omega) hnot.2 hhonest

end Undisturbed

/-- Without requests nothing disturbs the job that a START begins. -/
theorem undisturbed_of_no_request (hone : s.OneWrite) (hstart : s.starts = true) (hstop : s.control_write 1 = false)
    (hcount : s.wr_stage2_nonce_count_we_q = false) (hquiet : ∀ u, (ins u).s_axi_awvalid = false) :
    Undisturbed s ins := by
  have happly : s.write_apply = true := by
    simp only [State.starts, State.control_write, Bool.and_eq_true] at hstart
    exact hstart.1.1.1
  have hnone {u : Nat} (hpos : 1 ≤ u) := no_request_no_apply hone happly hpos fun v _ => hquiet v
  have hwrite {u : Nat} (hpos : 1 ≤ u) (bit : Nat) : (trace (step p) s ins u).control_write bit = false := by
    rw [State.control_write, hnone hpos, Bool.false_and, Bool.false_and]
  refine ⟨hstart, fun u _ => ?_, fun u hpos _ => ?_, fun u _ => ?_⟩
  · obtain rfl | hpos := Nat.eq_zero_or_pos u
    · exact hstop
    · exact hwrite hpos 1
  · rw [State.starts, hwrite hpos, Bool.false_and]
  · induction u with
    | zero => rfl
    | succ u ih =>
      rw [← ih (by omega), trace_succ]
      change (trace (step p) s ins u).written _ _ = _
      obtain rfl | hpos := Nat.eq_zero_or_pos u
      · rw [trace_zero, State.written, hcount, Bool.and_false]
        rfl
      · rw [State.written, hnone hpos, Bool.false_and]
        rfl

end Completion

theorem reset_state_isReset (p : Params) : IsReset (reset_state p) := by
  refine ⟨rfl, rfl, rfl, rfl, rfl, rfl, fun k => ?_, fun _ => rfl⟩
  rw [reset_state, getElem_lane, Vector.getElem_replicate]
  exact bitcoin_hash_engine.reset_state_isReset

/-- A bus write of all four bytes. -/
def bus_write {p : Params} (addr : BitVec 12) (data : Word) : Input p :=
  ⟨addr.setWidth _, true, data, 15, true, true, 0, false, true⟩

/-- A master that starts a job of one nonce after reset. -/
def start_one {p : Params} : Nat → Input p
  | 0 => bus_write ADDR_NONCE_COUNT 1
  | 4 => bus_write ADDR_CONTROL 1
  | u => idle_bus u

theorem start_one_quiet {p : Params} {u : Nat} (hlate : 4 < u) : (start_one u : Input p) = idle_bus u := by
  rw [start_one]
  · intro h
    omega
  · intro h
    omega

/-- The state in which its START is applied. -/
def started (p : Params) : State p := trace (step p) (reset_state p) start_one 6

theorem started_reachable (p : Params) : Reachable (step p) IsReset (started p) :=
  (Reachable.reset (reset_state_isReset p)).trace start_one 6

theorem started_undisturbed {p : Params} (hstart : (started p).starts = true)
    (hstop : (started p).control_write 1 = false) (hcount : (started p).wr_stage2_nonce_count_we_q = false) :
    Undisturbed (started p) idle_bus :=
  undisturbed_of_no_request (reachable_one_write (started_reachable p)) hstart hstop hcount fun _ => rfl

/-- The miner with a single lane. -/
def single : Params := { deployed with NUM_ENGINES := 1, engines_pos := by decide, engines_lt := by decide }

theorem started_single_quiescent : (started single).Quiescent :=
  ⟨by decide, by decide, by decide, by decide⟩

def first_lane : Fin deployed.NUM_ENGINES := ⟨0, by decide⟩

def first_cluster : Fin deployed.NUM_CLUSTERS := ⟨0, by decide⟩

theorem started_deployed_quiescent : (started deployed).Quiescent :=
  ⟨by decide, by decide, by decide, by decide⟩

theorem started_deployed_undisturbed : Undisturbed (started deployed) idle_bus :=
  started_undisturbed (by decide) (by decide) (by decide)

/-- A single lane with one nonce is reported complete before it has begun. -/
theorem single_lane_reported_early :
    Reachable (step single) IsReset (started single) ∧ (started single).Quiescent ∧
      Undisturbed (started single) idle_bus ∧ ¬ CompletionHonest (started single) idle_bus := by
  have hjob : Undisturbed (started single) idle_bus :=
    started_undisturbed (by decide) (by decide) (by decide)
  refine ⟨started_reachable _, started_single_quiescent, hjob, ?_⟩
  exact one_lane_dishonest (started_reachable _) started_single_quiescent hjob rfl (by decide)

theorem deployed_reported_honestly : CompletionHonest (started deployed) idle_bus :=
  (completion_honest_iff (started_reachable _) started_deployed_quiescent started_deployed_undisturbed).mpr
    (.inl (by decide))

end scu35.bitcoin_miner_axi
