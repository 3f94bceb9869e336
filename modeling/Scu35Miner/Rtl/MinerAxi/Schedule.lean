import Scu35Miner.Rtl.MinerAxi.Divider

open fips180 clocked radix

namespace scu35.bitcoin_miner_axi

open LoadState

/-- The cycles from the cycle of a START to the preparation of the first lane. -/
def Params.prep (p : Params) : Nat := if p.NUM_ENGINES = 3 then 33 else 1

theorem Params.prep_pos (p : Params) : 1 ≤ p.prep := by
  unfold Params.prep
  split <;> omega

section Schedule

variable {p : Params} {s : State p} {ins : Nat → Input p}

/-- No STOP is applied in the first `t` cycles. -/
def NoStop (s : State p) (ins : Nat → Input p) (t : Nat) : Prop :=
  ∀ u < t, (trace (step p) s ins u).control_write 1 = false

theorem NoStop.mono {t t' : Nat} (h : NoStop s ins t) (hle : t' ≤ t) : NoStop s ins t' := fun u hu => h u (by omega)

/-- The divider works off one bit of the count in every cycle after a START. -/
theorem trace_dividing (hthree : p.NUM_ENGINES = 3) (hstart : s.starts = true) {j : Nat} (hj : j ≤ 32)
    (hstop : NoStop s ins (j + 1)) : (trace (step p) s ins (j + 1)).toLoader.Dividing s.nonce_count_q j := by
  induction j with
  | zero =>
    have hfirst : (trace (step p) s ins 1).toLoader = _ := loader_start (i := ins 0) hstart (hstop 0 (by omega))
    have hlt := s.nonce_count_q.isLt
    rw [hfirst]
    refine ⟨?_, rfl, ?_, ?_, rfl, rfl⟩
    · simp [hthree]
    · change 0 = _
      rw [Nat.div_eq_of_lt hlt]
    · change s.nonce_count_q.toNat = _
      rw [Nat.mod_eq_of_lt hlt, Nat.div_eq_of_lt hlt]
      omega
  | succ j ih =>
    rw [trace_succ]
    exact divide_step (ih (by omega) (hstop.mono (by omega))) (by omega) (hstop (j + 1) (by omega))

theorem first_prep (hstart : s.starts = true) (hstop : NoStop s ins p.prep) :
    (trace (step p) s ins p.prep).load_state_q = LOAD_PREP ∧ (trace (step p) s ins p.prep).load_engine_idx_q.toNat = 0 := by
  by_cases hthree : p.NUM_ENGINES = 3
  · have hprep : p.prep = 33 := if_pos hthree
    rw [hprep] at hstop ⊢
    have h := trace_dividing hthree hstart (Nat.le_refl 32) hstop
    refine ⟨h.state, ?_⟩
    rw [h.idx]
    rfl
  · have hprep : p.prep = 1 := if_neg hthree
    rw [hprep] at hstop ⊢
    have hfirst : (trace (step p) s ins 1).toLoader = _ := loader_start (i := ins 0) hstart (hstop 0 (by omega))
    rw [hfirst]
    exact ⟨if_neg hthree, rfl⟩

/-- A lane that is prepared is launched after three cycles. -/
theorem lane_of_prep {j : Nat} (hj : j < p.NUM_ENGINES) (hstop : NoStop s ins (p.prep + 3 * j + 3))
    (hprep : (trace (step p) s ins (p.prep + 3 * j)).load_state_q = LOAD_PREP)
    (hidx : (trace (step p) s ins (p.prep + 3 * j)).load_engine_idx_q.toNat = j) :
    LaneLaunched j (trace (step p) s ins (p.prep + 3 * j)) (trace (step p) s ins (p.prep + 3 * j + 3)) := by
  rw [trace_add (step p) s ins (p.prep + 3 * j) 3]
  refine launch_lane hj hprep hidx fun u hu => ?_
  rw [← trace_add]
  exact hstop _ (by omega)

/-- The lanes are prepared in turn, three cycles apart. -/
theorem prep_run (hstart : s.starts = true) {j : Nat} (hj : j < p.NUM_ENGINES) (hstop : NoStop s ins (p.prep + 3 * j)) :
    (trace (step p) s ins (p.prep + 3 * j)).load_state_q = LOAD_PREP ∧
      (trace (step p) s ins (p.prep + 3 * j)).load_engine_idx_q.toNat = j := by
  induction j with
  | zero => exact first_prep hstart hstop
  | succ j ih =>
    obtain ⟨hprep, hidx⟩ := ih (by omega) (hstop.mono (by omega))
    have hlane := lane_of_prep (by omega) hstop hprep hidx
    exact ⟨hlane.state.trans (if_pos hj), hlane.idx hj⟩

theorem lane_run (hstart : s.starts = true) {j : Nat} (hj : j < p.NUM_ENGINES)
    (hstop : NoStop s ins (p.prep + 3 * j + 3)) :
    LaneLaunched j (trace (step p) s ins (p.prep + 3 * j)) (trace (step p) s ins (p.prep + 3 * j + 3)) := by
  obtain ⟨hprep, hidx⟩ := prep_run hstart hj (hstop.mono (by omega))
  exact lane_of_prep hj hstop hprep hidx

theorem decode_run (hstart : s.starts = true) {j : Nat} (hj : j < p.NUM_ENGINES)
    (hstop : NoStop s ins (p.prep + 3 * j + 1)) :
    (trace (step p) s ins (p.prep + 3 * j + 1)).load_state_q = LOAD_DECODE ∧
      (trace (step p) s ins (p.prep + 3 * j + 1)).engine_start_q = Vector.replicate _ false := by
  obtain ⟨hprep, _⟩ := prep_run hstart hj (hstop.mono (by omega))
  rw [trace_succ, loader_prep hprep (hstop _ (by omega))]
  exact ⟨rfl, rfl⟩

theorem launch_run (hstart : s.starts = true) {j : Nat} (hj : j < p.NUM_ENGINES)
    (hstop : NoStop s ins (p.prep + 3 * j + 2)) :
    (trace (step p) s ins (p.prep + 3 * j + 2)).load_state_q = LOAD_START ∧
      (trace (step p) s ins (p.prep + 3 * j + 2)).engine_start_q = Vector.replicate _ false := by
  obtain ⟨hdecode, _⟩ := decode_run hstart hj (hstop.mono (by omega))
  rw [trace_succ, loader_decode hdecode (hstop _ (by omega))]
  exact ⟨rfl, rfl⟩

/-- Before the first lane the launch machine starts no engine. -/
theorem divide_run (hstart : s.starts = true) {u : Nat} (hpos : 1 ≤ u) (hu : u ≤ p.prep) (hstop : NoStop s ins u) :
    (trace (step p) s ins u).load_state_q ≠ LOAD_IDLE ∧
      (trace (step p) s ins u).engine_start_q = Vector.replicate _ false := by
  by_cases hthree : p.NUM_ENGINES = 3
  · have hprep : p.prep = 33 := if_pos hthree
    obtain ⟨j, rfl⟩ : ∃ j, u = j + 1 := ⟨u - 1, by omega⟩
    have h := trace_dividing hthree hstart (j := j) (by omega) hstop
    refine ⟨?_, h.start⟩
    rw [h.state]
    split <;> simp
  · have hprep : p.prep = 1 := if_neg hthree
    obtain rfl : u = 1 := by omega
    have hfirst : (trace (step p) s ins 1).toLoader = _ := loader_start (i := ins 0) hstart (hstop 0 (by omega))
    rw [hfirst]
    exact ⟨by simp [hthree], rfl⟩

/-- The cycles of a launch: the division, and three cycles for each lane. -/
theorem launch_cycle {u : Nat} (hu : u ≤ p.prep + 3 * p.NUM_ENGINES) :
    u ≤ p.prep ∨ ∃ j < p.NUM_ENGINES, u = p.prep + 3 * j + 1 ∨ u = p.prep + 3 * j + 2 ∨ u = p.prep + 3 * j + 3 := by
  by_cases hprep : u ≤ p.prep
  · exact .inl hprep
  · exact .inr ⟨(u - p.prep - 1) / 3, by omega, by omega⟩

/-- The quota that lane `j` gets. -/
def quota (s : State p) (ins : Nat → Input p) (j : Nat) : Word := (trace (step p) s ins (p.prep + 3 * j)).load_lane_count

theorem lane_pulse_get (j : Nat) (count : Word) (k : Fin p.NUM_ENGINES) :
    (lane_pulse p j count)[k] = true ↔ j = k ∧ count ≠ 0 := by
  rw [lane_pulse, getElem_lane, Vector.getElem_ofFn, Bool.and_eq_true, decide_eq_true_eq, decide_eq_true_eq]

/-- Each engine is started once, after the launch of its lane, if it has a
quota. -/
theorem engine_start_at (hstart : s.starts = true) (k : Fin p.NUM_ENGINES) {u : Nat} (hpos : 1 ≤ u)
    (hu : u ≤ p.prep + 3 * p.NUM_ENGINES) (hstop : NoStop s ins u) :
    (trace (step p) s ins u).engine_start_q[k] = true ↔ u = p.prep + 3 * k + 3 ∧ quota s ins k ≠ 0 := by
  have hnone (h : (trace (step p) s ins u).engine_start_q = Vector.replicate _ false) :
      (trace (step p) s ins u).engine_start_q[k] = false := by
    rw [h, getElem_lane, Vector.getElem_replicate]
  obtain hprep | ⟨j, hj, rfl | rfl | rfl⟩ := launch_cycle hu
  · rw [hnone (divide_run hstart hpos hprep hstop).2]
    exact iff_of_false (by simp) (by omega)
  · rw [hnone (decode_run hstart hj hstop).2]
    exact iff_of_false (by simp) (by omega)
  · rw [hnone (launch_run hstart hj hstop).2]
    exact iff_of_false (by simp) (by omega)
  · rw [(lane_run hstart hj hstop).start, lane_pulse_get]
    constructor
    · rintro ⟨rfl, hquota⟩
      exact ⟨rfl, hquota⟩
    · rintro ⟨hsame, hquota⟩
      obtain rfl : j = k := by omega
      exact ⟨rfl, hquota⟩

/-- The launch machine is busy until the last lane is launched. -/
theorem loading_at (hstart : s.starts = true) {u : Nat} (hpos : 1 ≤ u) (hu : u < p.prep + 3 * p.NUM_ENGINES)
    (hstop : NoStop s ins u) : (trace (step p) s ins u).load_state_q ≠ LOAD_IDLE := by
  obtain hprep | ⟨j, hj, rfl | rfl | rfl⟩ := launch_cycle (Nat.le_of_lt hu)
  · exact (divide_run hstart hpos hprep hstop).1
  · simp [(decode_run hstart hj hstop).1]
  · simp [(launch_run hstart hj hstop).1]
  · rw [(lane_run hstart hj hstop).state, if_pos (by omega)]
    simp

theorem launch_done (hstart : s.starts = true) (hstop : NoStop s ins (p.prep + 3 * p.NUM_ENGINES)) :
    (trace (step p) s ins (p.prep + 3 * p.NUM_ENGINES)).load_state_q = LOAD_IDLE := by
  have hpos := p.engines_pos
  obtain ⟨j, hj⟩ : ∃ j, p.NUM_ENGINES = j + 1 := ⟨p.NUM_ENGINES - 1, by omega⟩
  have hlane := lane_run (j := j) hstart (by omega) (hstop.mono (by omega))
  have hend : p.prep + 3 * p.NUM_ENGINES = p.prep + 3 * j + 3 := by omega
  rw [hend, hlane.state, if_neg (by omega)]

/-- The ports of a launched lane keep the progression that it was given. -/
theorem lane_ports (hstart : s.starts = true) {k j : Nat} (hk : k < j) (hj : j ≤ p.NUM_ENGINES)
    (hstop : NoStop s ins (p.prep + 3 * j)) :
    (trace (step p) s ins (p.prep + 3 * j)).engine_nonce_count_q[k]? = some (quota s ins k) ∧
      (trace (step p) s ins (p.prep + 3 * j)).engine_nonce_start_q[k]? =
        some ((trace (step p) s ins (p.prep + 3 * k)).nonce_start_q + BitVec.ofNat 32 k) := by
  induction j with
  | zero => omega
  | succ j ih =>
    have hlane := lane_run hstart (j := j) (by omega) hstop
    rw [Nat.mul_succ, ← Nat.add_assoc, hlane.nonce_count, hlane.nonce_start, Vector.getElem?_setIfInBounds,
      Vector.getElem?_setIfInBounds]
    obtain hlt | rfl := Nat.lt_succ_iff_lt_or_eq.mp hk
    · rw [if_neg (by omega), if_neg (by omega)]
      exact ih hlt (by omega) (hstop.mono (by omega))
    · rw [if_pos rfl, if_pos rfl, if_pos (by omega), if_pos (by omega)]
      exact ⟨rfl, rfl⟩

end Schedule

end scu35.bitcoin_miner_axi
