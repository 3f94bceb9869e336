import Scu35Miner.Rtl.HashEngine.Run
import Scu35Miner.Rtl.MinerAxi.Bus
import Scu35Miner.Rtl.MinerAxi.Schedule

open fips180 clocked radix

namespace scu35.bitcoin_miner_axi

section Quotas

variable {p : Params}

/-- A lane's quota counts the steps of its progression that stay below the
count. -/
theorem lt_engine_work_count_iff (count : Word) {i : Nat} (hi : i < 2 ^ 32) (k : Nat) :
    k < (engine_work_count p count (BitVec.ofNat 32 i)).toNat ↔ i + p.NUM_ENGINES * k < count.toNat := by
  have hcount := count.isLt
  have hpos := p.engines_pos
  have hidx : (BitVec.ofNat 32 i).toNat = i := Nat.mod_eq_of_lt hi
  have hengines : (BitVec.ofNat 32 p.NUM_ENGINES).toNat = p.NUM_ENGINES := Nat.mod_eq_of_lt p.engines_lt
  have hcond : count > BitVec.ofNat 32 i ↔ i < count.toNat := by rw [gt_iff_lt, BitVec.lt_def, hidx]
  rw [engine_work_count]
  split
  next hlt =>
    rw [hcond] at hlt
    have hsub : (count - 1 - BitVec.ofNat 32 i).toNat = count.toNat - 1 - i := by
      rw [BitVec.toNat_sub, BitVec.toNat_sub, hidx]
      change (2 ^ 32 - i + (2 ^ 32 - 1 + count.toNat) % 2 ^ 32) % 2 ^ 32 = _
      omega
    have hdiv : (count.toNat - 1 - i) / p.NUM_ENGINES ≤ count.toNat - 1 - i := Nat.div_le_self _ _
    have hquota : ((count - 1 - BitVec.ofNat 32 i) / BitVec.ofNat 32 p.NUM_ENGINES + 1).toNat =
        (count.toNat - 1 - i) / p.NUM_ENGINES + 1 := by
      rw [succ_index_toNat (by decide) (by rw [BitVec.toNat_udiv, hsub, hengines]; omega), BitVec.toNat_udiv, hsub, hengines]
    rw [hquota, Nat.lt_succ_iff, Nat.le_div_iff_mul_le (by omega), Nat.mul_comm]
    omega
  next hge =>
    rw [hcond] at hge
    have hmul := Nat.zero_le (p.NUM_ENGINES * k)
    change k < 0 ↔ _
    omega

/-- The nonces of lane `i`. -/
def lane_nonces (p : Params) (count nonce_start : Word) (i : Nat) : Set Word :=
  { x | ∃ k < (engine_work_count p count (BitVec.ofNat 32 i)).toNat,
    x = nonce_start + BitVec.ofNat 32 i + BitVec.ofNat 32 (p.NUM_ENGINES * k) }

/-- The nonces of a job. -/
def job_nonces (count nonce_start : Word) : Set Word := { x | ∃ j < count.toNat, x = nonce_start + BitVec.ofNat 32 j }

theorem mem_lane_nonces_iff {count nonce_start x : Word} {i : Nat} (hi : i < 2 ^ 32) :
    x ∈ lane_nonces p count nonce_start i ↔
      ∃ k, i + p.NUM_ENGINES * k < count.toNat ∧ x = nonce_start + BitVec.ofNat 32 (i + p.NUM_ENGINES * k) := by
  simp only [lane_nonces, Set.mem_ofPred_eq, lt_engine_work_count_iff count hi, BitVec.ofNat_add, BitVec.add_assoc]

theorem offset_injective {nonce_start : Word} {a b : Nat} (ha : a < 2 ^ 32) (hb : b < 2 ^ 32)
    (h : nonce_start + BitVec.ofNat 32 a = nonce_start + BitVec.ofNat 32 b) : a = b := by
  have heq := congrArg BitVec.toNat ((BitVec.add_right_inj nonce_start).mp h)
  rwa [BitVec.toNat_ofNat, BitVec.toNat_ofNat, Nat.mod_eq_of_lt ha, Nat.mod_eq_of_lt hb] at heq

/-- Two lanes never scan the same nonce. -/
theorem lane_nonces_disjoint (count nonce_start : Word) {i j : Nat} (hi : i < p.NUM_ENGINES) (hj : j < p.NUM_ENGINES)
    (hne : i ≠ j) : Disjoint (lane_nonces p count nonce_start i) (lane_nonces p count nonce_start j) := by
  have hcount := count.isLt
  have hengines := p.engines_lt
  rw [Set.disjoint_left]
  intro x hx hx'
  obtain ⟨k, hk, rfl⟩ := (mem_lane_nonces_iff (by omega)).mp hx
  obtain ⟨k', hk', heq⟩ := (mem_lane_nonces_iff (by omega)).mp hx'
  have hsame := offset_injective (by omega) (by omega) heq
  have hmod := congrArg (· % p.NUM_ENGINES) hsame
  simp only [Nat.add_mul_mod_self_left, Nat.mod_eq_of_lt hi, Nat.mod_eq_of_lt hj] at hmod
  exact hne hmod

/-- Together the lanes scan the nonces of the job, also when these wrap. -/
theorem lane_nonces_union (count nonce_start : Word) :
    ⋃ i : Fin p.NUM_ENGINES, lane_nonces p count nonce_start i = job_nonces count nonce_start := by
  have hengines := p.engines_lt
  have hpos := p.engines_pos
  ext x
  simp only [Set.mem_iUnion]
  constructor
  · rintro ⟨i, hx⟩
    obtain ⟨k, hk, rfl⟩ := (mem_lane_nonces_iff (by omega)).mp hx
    exact ⟨_, hk, rfl⟩
  · rintro ⟨j, hj, rfl⟩
    have hsplit := Nat.mod_add_div j p.NUM_ENGINES
    refine ⟨⟨j % p.NUM_ENGINES, Nat.mod_lt _ hpos⟩, (mem_lane_nonces_iff ?_).mpr ⟨j / p.NUM_ENGINES, ?_, ?_⟩⟩
    · exact Nat.lt_trans (Nat.mod_lt _ hpos) hengines
    · rwa [hsplit]
    · rw [hsplit]

end Quotas

section ThreeLanes

variable {p : Params} {s : State p} {ins : Nat → Input p}

/-- Quotient and remainder stay in their registers while the lanes are
launched. -/
theorem divided_run (hthree : p.NUM_ENGINES = 3) (hstart : s.starts = true) {j : Nat} (hj : j < 3)
    (hstop : NoStop s ins (33 + 3 * j)) :
    (trace (step p) s ins (33 + 3 * j)).load_div_q.toNat = s.nonce_count_q.toNat / 3 ∧
      (trace (step p) s ins (33 + 3 * j)).load_rem_q.toNat = s.nonce_count_q.toNat % 3 := by
  have hprep : p.prep = 33 := if_pos hthree
  induction j with
  | zero =>
    have h := trace_dividing hthree hstart (Nat.le_refl 32) hstop
    have hdiv := h.div
    have hrem := h.rem
    simp only [Nat.sub_self, Nat.pow_zero, Nat.mod_one, Nat.zero_mul, Nat.div_one, Nat.zero_add] at hdiv hrem
    exact ⟨hdiv, hrem⟩
  | succ j ih =>
    have hlane := lane_run hstart (j := j) (by omega) (by rwa [hprep])
    rw [hprep] at hlane
    rw [Nat.mul_succ, ← Nat.add_assoc, hlane.div, hlane.rem]
    exact ih (by omega) (hstop.mono (by omega))

/-- The sequential divider gives each lane the quota of the closed formula. -/
theorem quota_eq (hthree : p.NUM_ENGINES = 3) (hstart : s.starts = true) {j : Nat} (hj : j < 3)
    (hstop : NoStop s ins (33 + 3 * j)) : quota s ins j = engine_work_count p s.nonce_count_q (BitVec.ofNat 32 j) := by
  have hprep : p.prep = 33 := if_pos hthree
  obtain ⟨hdiv, hrem⟩ := divided_run hthree hstart hj hstop
  obtain ⟨_, hidx⟩ := prep_run hstart (j := j) (by omega) (by rwa [hprep])
  have hcount := s.nonce_count_q.isLt
  rw [hprep] at hidx
  have hquota : (quota s ins j).toNat = s.nonce_count_q.toNat / 3 + if j < s.nonce_count_q.toNat % 3 then 1 else 0 := by
    rw [quota, hprep, State.load_lane_count, if_pos hthree, hidx, hrem, BitVec.toNat_add, hdiv]
    split
    · change (s.nonce_count_q.toNat / 3 + 1) % 2 ^ 32 = _
      omega
    · change (s.nonce_count_q.toNat / 3 + 0) % 2 ^ 32 = _
      omega
  have hiff (k : Nat) : k < (quota s ins j).toNat ↔
      k < (engine_work_count p s.nonce_count_q (BitVec.ofNat 32 j)).toNat := by
    rw [lt_engine_work_count_iff _ (by omega), hthree, hquota]
    split <;> omega
  apply BitVec.eq_of_toNat_eq
  have hle := hiff (quota s ins j).toNat
  have hge := hiff (engine_work_count p s.nonce_count_q (BitVec.ofNat 32 j)).toNat
  omega

/-- The divider distributes the nonces like the closed formula: quotient and
remainder after thirty-two cycles, each lane's quota, and lanes that partition
the nonces of the job. -/
theorem divider_partitions (hthree : p.NUM_ENGINES = 3) (hstart : s.starts = true) (hstop : NoStop s ins 42) :
    (∀ j ≤ 32, (trace (step p) s ins (j + 1)).load_rem_q.toNat < 3) ∧
    (trace (step p) s ins 33).load_div_q.toNat = s.nonce_count_q.toNat / 3 ∧
    (trace (step p) s ins 33).load_rem_q.toNat = s.nonce_count_q.toNat % 3 ∧
    (∀ k : Fin p.NUM_ENGINES, (trace (step p) s ins 42).engine_nonce_count_q[k] =
      engine_work_count p s.nonce_count_q (BitVec.ofNat 32 k)) ∧
    ∀ nonce_start : Word,
      (∀ i j : Fin p.NUM_ENGINES, i ≠ j →
        Disjoint (lane_nonces p s.nonce_count_q nonce_start i) (lane_nonces p s.nonce_count_q nonce_start j)) ∧
      ⋃ i : Fin p.NUM_ENGINES, lane_nonces p s.nonce_count_q nonce_start i = job_nonces s.nonce_count_q nonce_start := by
  have hprep : p.prep = 33 := if_pos hthree
  obtain ⟨hdiv, hrem⟩ := divided_run hthree hstart (j := 0) (by decide) (hstop.mono (by decide))
  refine ⟨?_, hdiv, hrem, ?_, ?_⟩
  · intro j hj
    rw [(trace_dividing hthree hstart hj (hstop.mono (by omega))).rem]
    exact Nat.mod_lt _ (by decide)
  · intro k
    have hend : p.prep + 3 * p.NUM_ENGINES = 42 := by rw [hprep, hthree]
    have hports := (lane_ports hstart k.isLt (Nat.le_refl _) (by rwa [hend])).1
    rw [hend, quota_eq hthree hstart (by omega) (hstop.mono (by omega)),
      Vector.getElem?_eq_getElem (by omega)] at hports
    exact Option.some.inj hports
  · intro nonce_start
    refine ⟨fun i j hne => ?_, lane_nonces_union _ _⟩
    exact lane_nonces_disjoint _ _ i.isLt j.isLt fun h => hne (Fin.ext h)

end ThreeLanes

/-- The deployed three-lane miner. -/
def deployed : Params where
  NUM_ENGINES := 3
  CLUSTER_SIZE := 2
  CLUSTER_FIFO_DEPTH := 4
  AXI_ADDR_WIDTH := 12
  EXPLICIT_DSP_SCHEDULE := true
  DSP_ROUND_STATE := true
  dsp := dsp48e2_add32.Dsp48e2.documented
  engines_pos := by decide
  engines_lt := by decide
  cluster_pos := by decide
  depth_pos := by decide
  addr_width := by decide

/-- The reset state with every unreset core register zero. -/
def reset_state (p : Params) : State p where
  toWriteChannel := .reset
  toReadChannel := .reset
  toRegisters := .reset
  toLoader := .reset p
  toControl := .reset p
  hash_count_q := 0
  engines := Vector.replicate _ bitcoin_hash_engine.reset_state
  fifos _ := bitcoin_result_cluster_fifo.reset _

/-- A bus master that requests nothing. -/
def idle_bus {p : Params} (_ : Nat) : Input p := ⟨0, false, 0, 0, false, true, 0, false, true⟩

/-- A START of a thousand nonces that is about to be applied. -/
def start_thousand : State deployed := { reset_state deployed with
  nonce_count_q := 1000, wr_stage2_valid_q := true, wr_stage2_control_we_q := true, wr_stage2_data_q := 1 }

theorem thousand_divided : (trace (step deployed) start_thousand idle_bus 33).load_div_q.toNat = 333 := by
  have hone : start_thousand.OneWrite := by
    unfold State.OneWrite
    decide
  have hstop : NoStop start_thousand idle_bus 42 := by
    intro u hu
    obtain rfl | hpos := Nat.eq_zero_or_pos u
    · decide
    · rw [State.control_write, no_request_no_apply hone (by decide) hpos (fun _ _ => rfl), Bool.false_and, Bool.false_and]
  exact (divider_partitions rfl (by decide) hstop).2.1

end scu35.bitcoin_miner_axi
