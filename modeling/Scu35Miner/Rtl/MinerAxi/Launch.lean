import Scu35Miner.Radix.Index
import Scu35Miner.Radix.LongDivision
import Scu35Miner.Rtl.MinerAxi

open fips180 clocked radix

namespace scu35.bitcoin_miner_axi

open LoadState

theorem Params.index_width_pos (p : Params) : 0 < p.ENGINE_INDEX_WIDTH := by
  unfold Params.ENGINE_INDEX_WIDTH
  split
  next => decide
  next hmany => exact Nat.clog_pos (by decide) (by omega)

theorem Params.engines_le (p : Params) : p.NUM_ENGINES ≤ 2 ^ p.ENGINE_INDEX_WIDTH := by
  unfold Params.ENGINE_INDEX_WIDTH
  split
  next hone =>
    rw [Nat.pow_one]
    omega
  next => exact Nat.le_pow_clog (by decide) p.NUM_ENGINES

section Edges

variable {p : Params} {s : State p} {i : Input p}

theorem starts_eq_false (h : s.load_state_q ≠ LOAD_IDLE) : s.starts = false := by
  simp [State.starts, h]

theorem starts_idle (h : s.starts = true) : s.load_state_q = LOAD_IDLE := by
  simp only [State.starts, Bool.and_eq_true, beq_iff_eq] at h
  exact h.2

/-- An accepted START enters the divider or the first lane. -/
theorem loader_start (hstart : s.starts = true) (hstop : s.control_write 1 = false) :
    (step p s i).toLoader = { s.toLoader with
      engine_start_q := Vector.replicate _ false
      load_state_q := if p.NUM_ENGINES = 3 then LOAD_DIVIDE else LOAD_PREP
      load_div_q := s.nonce_count_q
      load_rem_q := 0
      load_div_bits_q := 32
      load_engine_idx_q := 0 } := by
  change s.loader_next = _
  simp only [State.loader_next, hstart, hstop, State.load_step, starts_idle hstart, ↓reduceIte, Bool.false_eq_true]

/-- A cycle of the launch machine that STOP does not interrupt. -/
theorem loader_run (hrun : s.load_state_q ≠ LOAD_IDLE) (hstop : s.control_write 1 = false) :
    (step p s i).toLoader = s.load_step { s.toLoader with engine_start_q := Vector.replicate _ false } := by
  change s.loader_next = _
  simp only [State.loader_next, starts_eq_false hrun, hstop, ↓reduceIte, Bool.false_eq_true]

/-- An idle launch machine without START stays idle and starts no engine. -/
theorem loader_idle (hidle : s.load_state_q = LOAD_IDLE) (hstart : s.starts = false) :
    (step p s i).toLoader = { s.toLoader with engine_start_q := Vector.replicate _ false } := by
  change s.loader_next = _
  cases hstop : s.control_write 1 <;>
    simp only [State.loader_next, hstart, hstop, State.load_step, hidle, ↓reduceIte, Bool.false_eq_true]

theorem loader_stop (hstop : s.control_write 1 = true) :
    (step p s i).load_state_q = LOAD_IDLE ∧ (step p s i).engine_start_q = Vector.replicate _ false := by
  change s.loader_next.load_state_q = _ ∧ s.loader_next.engine_start_q = _
  cases hstart : s.starts <;> simp [State.loader_next, hstart, hstop]

theorem loader_prep (hstate : s.load_state_q = LOAD_PREP) (hstop : s.control_write 1 = false) :
    (step p s i).toLoader = { s.toLoader with
      engine_start_q := Vector.replicate _ false
      load_start_idx_q := s.load_engine_idx_q
      load_start_count_q := s.load_lane_count
      load_start_last_q := s.load_engine_idx_q == BitVec.ofNat p.ENGINE_INDEX_WIDTH p.NUM_ENGINES - 1
      engine_nonce_start_q := s.engine_nonce_start_q.setIfInBounds s.load_engine_idx_q.toNat
        (s.nonce_start_q + s.load_engine_idx_q.setWidth 32)
      engine_nonce_count_q := s.engine_nonce_count_q.setIfInBounds s.load_engine_idx_q.toNat s.load_lane_count
      load_state_q := LOAD_DECODE } := by
  rw [loader_run (by simp [hstate]) hstop, State.load_step, hstate]

theorem loader_decode (hstate : s.load_state_q = LOAD_DECODE) (hstop : s.control_write 1 = false) :
    (step p s i).toLoader = { s.toLoader with
      engine_start_q := Vector.replicate _ false
      load_start_onehot_q :=
        if s.load_start_count_q ≠ 0 then engine_onehot p s.load_start_idx_q else Vector.replicate _ false
      load_state_q := LOAD_START } := by
  rw [loader_run (by simp [hstate]) hstop, State.load_step, hstate]

theorem loader_launch (hstate : s.load_state_q = LOAD_START) (hstop : s.control_write 1 = false) :
    (step p s i).toLoader = { s.toLoader with
      engine_start_q := s.load_start_onehot_q
      load_engine_idx_q := if s.load_start_last_q then s.load_engine_idx_q else s.load_engine_idx_q + 1
      load_state_q := if s.load_start_last_q then LOAD_IDLE else LOAD_PREP } := by
  rw [loader_run (by simp [hstate]) hstop, State.load_step, hstate]
  dsimp only
  cases hlast : s.load_start_last_q <;> simp only [↓reduceIte, Bool.false_eq_true]

theorem last_lane_iff {idx : BitVec p.ENGINE_INDEX_WIDTH} :
    (idx == BitVec.ofNat p.ENGINE_INDEX_WIDTH p.NUM_ENGINES - 1) = true ↔ idx.toNat + 1 = p.NUM_ENGINES := by
  have hpos := p.engines_pos
  rw [beq_iff_eq, ← BitVec.toNat_inj, last_index_toNat p.index_width_pos hpos p.engines_le]
  omega

theorem engine_onehot_get {idx : BitVec p.ENGINE_INDEX_WIDTH} (k : Fin p.NUM_ENGINES) :
    (engine_onehot p idx)[k] = decide (idx.toNat = k) := by
  have hk : k.val < 2 ^ p.ENGINE_INDEX_WIDTH := Nat.lt_of_lt_of_le k.isLt p.engines_le
  rw [engine_onehot, getElem_lane, Vector.getElem_ofFn, Bool.eq_iff_iff, beq_iff_eq, decide_eq_true_eq, ← BitVec.toNat_inj,
    BitVec.toNat_ofNat, Nat.mod_eq_of_lt hk]

end Edges

/-- The start pulses for lane `j` with a given quota. -/
def lane_pulse (p : Params) (j : Nat) (quota : Word) : Vector Bool p.NUM_ENGINES :=
  Vector.ofFn fun k => decide (j = k.val) && decide (quota ≠ 0)

section Lanes

variable {p : Params} {s : State p} {ins : Nat → Input p}

theorem onehot_eq_lane_pulse (idx : BitVec p.ENGINE_INDEX_WIDTH) (quota : Word) :
    (if quota ≠ 0 then engine_onehot p idx else Vector.replicate _ false) = lane_pulse p idx.toNat quota := by
  apply Vector.ext
  intro k hk
  have hget : (engine_onehot p idx)[(⟨k, hk⟩ : Fin p.NUM_ENGINES)] = _ := engine_onehot_get ⟨k, hk⟩
  rw [lane_pulse, Vector.getElem_ofFn]
  by_cases hquota : quota = 0
  · simp [hquota]
  · rw [if_pos hquota, decide_eq_true hquota, Bool.and_true]
    exact hget

/-- What the launch of one lane leaves in the registers of the launch machine. -/
structure LaneLaunched (j : Nat) (before after : State p) : Prop where
  state : after.load_state_q = if j + 1 < p.NUM_ENGINES then LOAD_PREP else LOAD_IDLE
  idx : j + 1 < p.NUM_ENGINES → after.load_engine_idx_q.toNat = j + 1
  start : after.engine_start_q = lane_pulse p j before.load_lane_count
  nonce_start : after.engine_nonce_start_q =
    before.engine_nonce_start_q.setIfInBounds j (before.nonce_start_q + BitVec.ofNat 32 j)
  nonce_count : after.engine_nonce_count_q = before.engine_nonce_count_q.setIfInBounds j before.load_lane_count
  div : after.load_div_q = before.load_div_q
  rem : after.load_rem_q = before.load_rem_q

/-- The three cycles of a lane. -/
theorem launch_lane {j : Nat} (hj : j < p.NUM_ENGINES) (hprep : s.load_state_q = LOAD_PREP)
    (hidx : s.load_engine_idx_q.toNat = j) (hstop : ∀ u < 3, (trace (step p) s ins u).control_write 1 = false) :
    LaneLaunched j s (trace (step p) s ins 3) := by
  have hwidth := p.engines_le
  have hfirst : (trace (step p) s ins 1).toLoader = _ := loader_prep (s := s) (i := ins 0) hprep (hstop 0 (by omega))
  have hstate1 : (trace (step p) s ins 1).load_state_q = LOAD_DECODE := congrArg Loader.load_state_q hfirst
  have hsecond : (trace (step p) s ins 2).toLoader = _ := loader_decode (i := ins 1) hstate1 (hstop 1 (by omega))
  have hstate2 : (trace (step p) s ins 2).load_state_q = LOAD_START := congrArg Loader.load_state_q hsecond
  have hthird : (trace (step p) s ins 3).toLoader = _ := loader_launch (i := ins 2) hstate2 (hstop 2 (by omega))
  rw [hsecond, hfirst] at hthird
  dsimp only at hthird
  have hlast : (s.load_engine_idx_q == BitVec.ofNat p.ENGINE_INDEX_WIDTH p.NUM_ENGINES - 1) = true ↔ _ := last_lane_iff
  have hpulse := onehot_eq_lane_pulse s.load_engine_idx_q s.load_lane_count
  rw [hidx] at hlast hpulse
  generalize (s.load_engine_idx_q == BitVec.ofNat p.ENGINE_INDEX_WIDTH p.NUM_ENGINES - 1) = last at hthird hlast
  have hwide : s.load_engine_idx_q.setWidth 32 = BitVec.ofNat 32 j := by
    apply BitVec.eq_of_toNat_eq
    rw [BitVec.toNat_setWidth, hidx, BitVec.toNat_ofNat]
  rw [hidx, hwide, hpulse] at hthird
  by_cases hmore : j + 1 < p.NUM_ENGINES
  · obtain rfl : last = false := Bool.eq_false_iff.mpr fun h => by have := hlast.mp h; omega
    rw [if_neg (by simp), if_neg (by simp)] at hthird
    refine ⟨?_, fun _ => ?_, ?_, ?_, ?_, ?_, ?_⟩
    · rw [hthird, if_pos hmore]
    · rw [hthird]
      exact (succ_index_toNat p.index_width_pos (by omega)).trans (by rw [hidx])
    all_goals rw [hthird]
  · obtain rfl : last = true := hlast.mpr (by omega)
    rw [if_pos rfl, if_pos rfl] at hthird
    refine ⟨?_, fun h => absurd h hmore, ?_, ?_, ?_, ?_, ?_⟩
    · rw [hthird, if_neg hmore]
    all_goals rw [hthird]

end Lanes

end scu35.bitcoin_miner_axi
