import Scu35Miner.Rtl.MinerAxi.Completion
import Scu35Miner.Rtl.MinerAxi.Discard

open fips180 clocked

namespace scu35.bitcoin_miner_axi

open bitcoin_hash_engine (Job IsShare)

section Job

variable {p : Params}

/-- The job that the registers describe. -/
def Registers.job (r : Registers) : Job where
  midstate := r.midstate_q
  header_tail := r.header_tail_q
  target := r.target_q
  nonce_start := r.nonce_start_q
  nonce_count := r.nonce_count_q

/-- The `i`-th nonce of a job. -/
def job_nonce (job : Job) (i : Nat) : Word := job.nonce_start + BitVec.ofNat 32 i

/-- The `i`-th nonce of a job is a share. -/
def JobShare (job : Job) (i : Nat) : Prop := IsShare job.midstate job.header_tail job.target (job_nonce job i)

/-- The part of a job that lane `k` works on. -/
def lane_job (p : Params) (job : Job) (k : Nat) : Job :=
  { job with
    nonce_start := job.nonce_start + BitVec.ofNat 32 k
    nonce_count := engine_work_count p job.nonce_count (BitVec.ofNat 32 k) }

theorem lane_job_nonce (job : Job) (k j : Nat) :
    (lane_job p job k).nonce p.engine j = job_nonce job (k + p.NUM_ENGINES * j) := by
  change job.nonce_start + BitVec.ofNat 32 k + BitVec.ofNat 32 (j * p.NUM_ENGINES) = _
  rw [job_nonce, BitVec.add_assoc, ← BitVec.ofNat_add, Nat.mul_comm]

theorem lane_job_hit (job : Job) (k j : Nat) :
    (lane_job p job k).Hit p.engine j ↔ JobShare job (k + p.NUM_ENGINES * j) := by
  rw [Job.Hit, lane_job_nonce]
  exact Iff.rfl

/-- The lane of an index, and its place there. -/
theorem lane_of_index {i k j : Nat} (hk : k < p.NUM_ENGINES) :
    i = k + p.NUM_ENGINES * j ↔ i % p.NUM_ENGINES = k ∧ i / p.NUM_ENGINES = j := by
  constructor
  · rintro rfl
    rw [Nat.add_mul_mod_self_left, Nat.mod_eq_of_lt hk, Nat.add_mul_div_left _ _ (by omega), Nat.div_eq_of_lt hk]
    exact ⟨rfl, Nat.zero_add j⟩
  · rintro ⟨rfl, rfl⟩
    exact (Nat.mod_add_div i p.NUM_ENGINES).symm

end Job

section Raised

variable {p : Params} {s : State p} {ins : Nat → Input p} {t : Nat}

/-- The registers of the job stay as they are while its lanes are launched. -/
def JobHeld (s : State p) (ins : Nat → Input p) : Prop :=
  ∀ u ≤ p.launched, (trace (step p) s ins u).toRegisters.job = s.toRegisters.job

theorem JobHeld.count (h : JobHeld s ins) {u : Nat} (hu : u ≤ p.launched) :
    (trace (step p) s ins u).nonce_count_q = s.nonce_count_q := congrArg Job.nonce_count (h u hu)

theorem JobHeld.nonce_start (h : JobHeld s ins) {u : Nat} (hu : u ≤ p.launched) :
    (trace (step p) s ins u).nonce_start_q = s.nonce_start_q := congrArg Job.nonce_start (h u hu)

/-- A lane starts with its part of the job. -/
theorem JobRun.lane_takes {k : Fin p.NUM_ENGINES} (h : JobRun s ins (p.lane_start k)) (hheld : JobHeld s ins) :
    (lane_input s ins k 0).job = lane_job p s.toRegisters.job k ∧
      quota s ins k = engine_work_count p s.nonce_count_q (BitVec.ofNat 32 k) := by
  have hprep := prep_le_launched k
  have hquota := quota_held h.start (h.stop.mono (Nat.le_add_right _ _)) k.isLt (hheld.count hprep)
  have hports := (lane_ports h.start (Nat.lt_succ_self k.val) k.isLt h.stop).2
  rw [show p.prep + 3 * k.val.succ = p.lane_start k from rfl, Vector.getElem?_eq_getElem k.isLt, hheld.nonce_start hprep] at hports
  have hregisters := hheld _ (lane_start_le k)
  have hcount := (h.lane_starts (n := 0)).1
  refine ⟨?_, hquota⟩
  change Job.mk (trace (step p) s ins (p.lane_start k)).toRegisters.job.midstate
    (trace (step p) s ins (p.lane_start k)).toRegisters.job.header_tail
    (trace (step p) s ins (p.lane_start k)).toRegisters.job.target
    (trace (step p) s ins (p.lane_start k)).engine_nonce_start_q[k] (lane_input s ins k 0).nonce_count_i = _
  rw [hregisters, hcount, hquota, show (trace (step p) s ins (p.lane_start k)).engine_nonce_start_q[k] = _ from
    Option.some.inj hports]
  rfl

/-- A lane raises each hit at the end of the work on its nonce. -/
theorem JobRun.raises_iff (h : JobRun s ins t) {k : Fin p.NUM_ENGINES} (hidle : s.engines[k].Idle)
    (hpending : s.engine_start_q[k] = false) (x : Word) :
    (trace (step p) s ins t).engines[k].result_valid_o = true ∧ (trace (step p) s ins t).engines[k].result_nonce_o = x ↔
      ∃ j < (quota s ins k).toNat, t = p.lane_start k + p.engine.period * (j + 1) ∧
        (lane_input s ins k 0).job.Hit p.engine j ∧ x = (lane_input s ins k 0).job.nonce p.engine j := by
  have hperiod := p.engine.period_pos
  constructor
  · rintro ⟨hvalid, rfl⟩
    by_cases hbusy : LaneBusy s ins k t
    · obtain ⟨hpast, hle⟩ := hbusy
      unfold lane_end at hle
      obtain ⟨n, rfl⟩ : ∃ n, t = p.lane_start k + (n + 1) := ⟨t - p.lane_start k - 1, by omega⟩
      have hn : n < p.engine.period * (quota s ins k).toNat := by omega
      obtain ⟨_, hat⟩ := h.lane_scans hidle hpending hn
      obtain ⟨hlast, hhit⟩ := hat.result_valid.mp hvalid
      have hend := (bitcoin_hash_engine.stage_eq_check_iff (Nat.mod_lt n hperiod)).mp hlast
      have hdiv := Nat.div_add_mod n p.engine.period
      rw [hlast] at hat
      refine ⟨n / p.engine.period, Nat.div_lt_of_lt_mul hn, ?_, hhit, hat.result_nonce hvalid⟩
      rw [Nat.mul_add]
      omega
    · rw [(h.lane_idle hidle hpending hbusy).result_valid] at hvalid
      cases hvalid
  · rintro ⟨j, hj, rfl, hhit, rfl⟩
    obtain ⟨n, hn⟩ : ∃ n, p.engine.period * (j + 1) = n + 1 := ⟨p.engine.period * (j + 1) - 1, by
      rw [Nat.mul_add]
      omega⟩
    have hle : p.engine.period * (j + 1) ≤ p.engine.period * (quota s ins k).toNat := Nat.mul_le_mul_left _ hj
    rw [hn] at h hle ⊢
    obtain ⟨_, hat⟩ := h.lane_scans hidle hpending hle
    rw [Nat.mul_add] at hn
    have hplace : n = p.engine.period - 1 + p.engine.period * j := by omega
    have hmod : n % p.engine.period = p.engine.period - 1 := by
      rw [hplace, Nat.add_mul_mod_self_left, Nat.mod_eq_of_lt (by omega)]
    have hdiv : n / p.engine.period = j := by
      rw [hplace, Nat.add_mul_div_left _ _ hperiod, Nat.div_eq_of_lt (by omega), Nat.zero_add]
    rw [hmod, hdiv, bitcoin_hash_engine.stage_last] at hat
    have hvalid := hat.result_valid.mpr ⟨rfl, hhit⟩
    exact ⟨hvalid, hat.result_nonce hvalid⟩

/-- A lane raises the shares of the job that fall to it, each once. -/
theorem JobRun.raises_share_iff (h : JobRun s ins t) (hheld : JobHeld s ins) {k : Fin p.NUM_ENGINES}
    (hidle : s.engines[k].Idle) (hpending : s.engine_start_q[k] = false) (x : Word) :
    (trace (step p) s ins t).engines[k].result_valid_o = true ∧ (trace (step p) s ins t).engines[k].result_nonce_o = x ↔
      ∃ i < s.nonce_count_q.toNat, i % p.NUM_ENGINES = k ∧
        t = p.lane_start k + p.engine.period * (i / p.NUM_ENGINES + 1) ∧
        JobShare s.toRegisters.job i ∧ x = job_nonce s.toRegisters.job i := by
  have hengines := p.engines_lt
  rw [h.raises_iff hidle hpending]
  by_cases hstarted : p.lane_start k ≤ t
  · obtain ⟨hjob, hquota⟩ := (h.mono hstarted).lane_takes hheld
    simp only [hjob, hquota, lane_job_hit, lane_job_nonce, lt_engine_work_count_iff s.nonce_count_q (i := k) (by omega)]
    constructor
    · rintro ⟨j, hj, ht, hshare, hx⟩
      obtain ⟨hmod, hdiv⟩ := (lane_of_index k.isLt).mp (rfl : k + p.NUM_ENGINES * j = _)
      exact ⟨_, hj, hmod, by rw [hdiv]; exact ht, hshare, hx⟩
    · rintro ⟨i, hi, hmod, ht, hshare, hx⟩
      have hindex := (lane_of_index k.isLt).mpr ⟨hmod, rfl⟩
      rw [hindex] at hi hshare hx
      exact ⟨_, hi, ht, hshare, hx⟩
  · constructor
    · rintro ⟨j, _, ht, _⟩
      omega
    · rintro ⟨i, _, _, ht, _⟩
      omega

end Raised

section Presented

variable {p : Params} {s : State p} {ins : Nat → Input p} {t : Nat}

theorem cluster_engine_eq_some {c : Fin p.NUM_CLUSTERS} {l : Fin p.CLUSTER_SIZE} {k : Fin p.NUM_ENGINES} :
    cluster_engine c l = some k ↔ k.val = c * p.CLUSTER_SIZE + l := by
  rw [cluster_engine]
  split
  next hlt =>
    rw [Option.some.injEq, Fin.ext_iff]
    exact eq_comm
  next hge =>
    have hk := k.isLt
    constructor
    · intro h
      cases h
    · omega

theorem mem_results {c : Fin p.NUM_CLUSTERS} {id x : Word} :
    (id, x) ∈ (s.fifo_input c).results ↔ ∃ l : Fin p.CLUSTER_SIZE, (s.fifo_input c).engine_valid_i[l] = true ∧
      BitVec.ofNat 32 (c * p.CLUSTER_SIZE + l) = id ∧ (s.fifo_input c).engine_nonce_i[l] = x := by
  rw [bitcoin_result_cluster_fifo.Input.results, bitcoin_result_cluster_fifo.results, List.mem_map]
  constructor
  · rintro ⟨l, hl, heq⟩
    exact ⟨l, (List.mem_filter.mp hl).2, Prod.mk.inj heq⟩
  · rintro ⟨l, hvalid, hid, hnonce⟩
    exact ⟨l, List.mem_filter.mpr ⟨List.mem_finRange _, hvalid⟩, Prod.mk.injEq _ _ _ _ ▸ ⟨hid, hnonce⟩⟩

/-- A cluster presents what its engines raise. -/
theorem mem_results_iff {c : Fin p.NUM_CLUSTERS} {id x : Word} :
    (id, x) ∈ (s.fifo_input c).results ↔ ∃ k : Fin p.NUM_ENGINES, k / p.CLUSTER_SIZE = c.val ∧ id = BitVec.ofNat 32 k ∧
      s.engines[k].result_valid_o = true ∧ s.engines[k].result_nonce_o = x := by
  have hsize := p.cluster_pos
  have hnonce {l : Fin p.CLUSTER_SIZE} {k : Fin p.NUM_ENGINES} (hk : k.val = c * p.CLUSTER_SIZE + l) :
      (s.fifo_input c).engine_nonce_i[l] = s.engines[k].result_nonce_o := by
    refine (Vector.getElem_ofFn l.isLt).trans ?_
    rw [cluster_engine_eq_some.mpr hk]
  rw [mem_results]
  constructor
  · rintro ⟨l, hvalid, rfl, rfl⟩
    obtain ⟨k, hk, hraised⟩ := cluster_valid hvalid
    refine ⟨k, ?_, by rw [hk], hraised, (hnonce hk).symm⟩
    rw [hk, Nat.mul_comm, Nat.mul_add_div hsize, Nat.div_eq_of_lt l.isLt, Nat.add_zero]
  · rintro ⟨k, hcluster, rfl, hraised, rfl⟩
    have hk := Nat.div_add_mod k.val p.CLUSTER_SIZE
    rw [hcluster, Nat.mul_comm] at hk
    refine ⟨⟨k.val % p.CLUSTER_SIZE, Nat.mod_lt _ hsize⟩, ?_, congrArg _ hk, hnonce hk.symm⟩
    rw [cluster_valid_eq, cluster_engine_eq_some.mpr hk.symm]
    exact hraised

theorem results_nodup {c : Fin p.NUM_CLUSTERS} : ((s.fifo_input c).results).Nodup := by
  refine List.Nodup.map_on ?_ ((List.nodup_finRange _).filter _)
  intro l hl l' hl' heq
  obtain ⟨k, hk, -⟩ := cluster_valid (List.mem_filter.mp hl).2
  obtain ⟨k', hk', -⟩ := cluster_valid (List.mem_filter.mp hl').2
  have hid : BitVec.ofNat 32 (c * p.CLUSTER_SIZE + l) = BitVec.ofNat 32 (c * p.CLUSTER_SIZE + l') := (Prod.mk.inj heq).1
  have hlane := k.isLt
  have hlane' := k'.isLt
  have hengines := p.engines_lt
  have hsame := congrArg BitVec.toNat hid
  rw [BitVec.toNat_ofNat, BitVec.toNat_ofNat, Nat.mod_eq_of_lt (by omega), Nat.mod_eq_of_lt (by omega)] at hsame
  exact Fin.ext (Nat.add_left_cancel hsame)

/-- The cycle of a job in which its `i`-th nonce is raised, if it is a share. -/
def Params.share_cycle (p : Params) (i : Nat) : Nat :=
  p.lane_start (i % p.NUM_ENGINES) + p.engine.period * (i / p.NUM_ENGINES + 1)

/-- What the clusters present during a job are its shares, each in one cycle. -/
theorem JobRun.presents_iff (h : JobRun s ins t) (hheld : JobHeld s ins) (hreach : Reachable (step p) IsReset s)
    (hquiet : s.Quiescent) {c : Fin p.NUM_CLUSTERS} {id x : Word} :
    (id, x) ∈ ((trace (step p) s ins t).fifo_input c).results ↔
      ∃ i < s.nonce_count_q.toNat, JobShare s.toRegisters.job i ∧ id = BitVec.ofNat 32 (i % p.NUM_ENGINES) ∧
        x = job_nonce s.toRegisters.job i ∧ i % p.NUM_ENGINES / p.CLUSTER_SIZE = c.val ∧ t = p.share_cycle i := by
  rw [mem_results_iff]
  constructor
  · rintro ⟨k, hcluster, rfl, hraised⟩
    obtain ⟨i, hi, hlane, ht, hshare, hx⟩ :=
      (h.raises_share_iff hheld (hquiet.idle hreach k) (hquiet.not_pending k) x).mp hraised
    exact ⟨i, hi, hshare, by rw [hlane], hx, by rw [hlane]; exact hcluster, by rw [Params.share_cycle, hlane]; exact ht⟩
  · rintro ⟨i, hi, hshare, rfl, hx, hcluster, ht⟩
    let k : Fin p.NUM_ENGINES := ⟨i % p.NUM_ENGINES, Nat.mod_lt _ p.engines_pos⟩
    exact ⟨k, hcluster, rfl, (h.raises_share_iff hheld (hquiet.idle hreach k) (hquiet.not_pending k) x).mpr
      ⟨i, hi, rfl, ht, hshare, hx⟩⟩

variable {r : State p} {start : Nat}

/-- The inputs from cycle `start` on. -/
def after (ins : Nat → Input p) (start k : Nat) : Input p := ins (start + k)

theorem trace_after (r : State p) (ins : Nat → Input p) (start k : Nat) :
    trace (step p) (trace (step p) r ins start) (after ins start) k = trace (step p) r ins (start + k) :=
  (trace_add _ _ _ _ _).symm

/-- Nothing but shares of a job is presented while it runs, if nothing was on its
way when it was started. -/
theorem presents_only_shares (hreset : IsReset r) (hquiet : (trace (step p) r ins start).Quiescent)
    (hdrained : ∀ c, (trace (step p) r ins start).Drained c) (hheld : JobHeld (trace (step p) r ins start) (after ins start))
    (hpos : 1 ≤ t) (h : JobRun (trace (step p) r ins start) (after ins start) t)
    (hvalid : (trace (step p) r ins (start + t)).result_valid_q = true) :
    ∃ i < (trace (step p) r ins start).nonce_count_q.toNat,
      (trace (step p) r ins (start + t)).result_engine_q = BitVec.ofNat 32 (i % p.NUM_ENGINES) ∧
      (trace (step p) r ins (start + t)).result_nonce_q = job_nonce (trace (step p) r ins start).toRegisters.job i ∧
      JobShare (trace (step p) r ins start).toRegisters.job i := by
  have hclears : (trace (step p) r ins start).clears = true := by
    rw [State.clears, h.start, Bool.true_or]
  obtain ⟨c, v, horigin, hpast, hhead⟩ := result_origin hreset hvalid
  have hlater := presents_later hreset hclears hdrained (by omega) hvalid v (by rw [horigin, Option.mem_some_iff])
  obtain ⟨u, rfl⟩ : ∃ u, v = start + u := ⟨v - start, by omega⟩
  have hmem := List.mem_of_head? hhead
  rw [cluster_input, ← trace_after] at hmem
  obtain ⟨i, hi, hshare, hid, hx, -⟩ :=
    ((h.mono (by omega : u ≤ t)).presents_iff hheld ((Reachable.reset hreset).trace ins start) hquiet).mp hmem
  exact ⟨i, hi, hid, hx, hshare⟩

end Presented

end scu35.bitcoin_miner_axi
