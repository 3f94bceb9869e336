import Scu35Miner.Rtl.HashEngine.Run

open fips180 clocked

namespace scu35.sha256_core_iterative

section Drain

variable {p : Params} {s : State} {i : Input}

/-- The counters of a core stay in their ranges. -/
structure State.Paced (p : Params) (s : State) : Prop where
  round_lt : s.round_q.toNat < 64
  phase_lt : s.phase_q.toNat < p.phases

/-- The edges that a core still needs for its compression. -/
def State.left (p : Params) (s : State) : Nat :=
  if s.busy_q then (63 - s.round_q.toNat) * p.phases + (p.phases - s.phase_q.toNat) else 0

theorem left_le (p : Params) (s : State) : s.left p ≤ p.latency := by
  rw [State.left, Params.latency_eq]
  obtain ⟨_, hphases⟩ | ⟨_, hphases⟩ := p.phases_cases
  · rw [hphases]
    split <;> omega
  · rw [hphases]
    split <;> omega

theorem not_busy_of_left (h : s.Paced p) (hleft : s.left p = 0) : s.busy_q = false := by
  have hphase := h.phase_lt
  rw [← Bool.not_eq_true]
  intro hbusy
  rw [State.left, if_pos hbusy] at hleft
  omega

theorem load_paced (s : State) (i : Input) : (s.load i).Paced p := by
  constructor
  · exact Nat.zero_lt_succ _
  · obtain ⟨_, hphases⟩ | ⟨_, hphases⟩ := p.phases_cases
    · rw [hphases]
      exact Nat.zero_lt_succ _
    · rw [hphases]
      exact Nat.zero_lt_succ _

/-- The edge of a phase that does not end its round. -/
theorem step_phase (hbusy : s.busy_q = true) (hlt : s.phase_q.toNat + 1 < p.phases) :
    (step p s i).busy_q = true ∧ (step p s i).round_q = s.round_q ∧
      (step p s i).phase_q.toNat = s.phase_q.toNat + 1 := by
  have hwidth := s.phase_q.isLt
  obtain hzero | hone | htwo | ⟨hthree, hfive⟩ :
      s.phase_q = 0 ∨ s.phase_q = 1 ∨ s.phase_q = 2 ∨ s.phase_q = 3 ∧ p.FOUR_PHASE = false := by
    simp only [BitVec.toNat_eq]
    change s.phase_q.toNat = 0 ∨ s.phase_q.toNat = 1 ∨ s.phase_q.toNat = 2 ∨ s.phase_q.toNat = 3 ∧ _
    obtain ⟨_, hphases⟩ | ⟨hfive, hphases⟩ := p.phases_cases
    · omega
    · simp only [hfive, and_true]
      omega
  · simp [step, hbusy, hzero]
  · simp [step, hbusy, hone]
  · simp [step, hbusy, htwo]
  · simp [step, hbusy, hthree, hfive]

/-- The edge that ends a round. -/
theorem step_round (hbusy : s.busy_q = true) (hlast : s.phase_q.toNat + 1 = p.phases) :
    step p s i = s.finish_round p := by
  obtain ⟨hfour, hphases⟩ | ⟨_, hphases⟩ := p.phases_cases
  · have hthree : s.phase_q = 3 := BitVec.eq_of_toNat_eq (by change _ = 3; omega)
    simp [step, hbusy, hthree, hfour]
  · have hfour : s.phase_q = 4 := BitVec.eq_of_toNat_eq (by change _ = 4; omega)
    simp [step, hbusy, hfour]

/-- Every edge brings a busy core nearer to its end. -/
theorem step_left (h : s.Paced p) (hbusy : s.busy_q = true) :
    (step p s i).Paced p ∧ (step p s i).left p = s.left p - 1 := by
  have hround := h.round_lt
  have hphase := h.phase_lt
  obtain hlt | hlast : s.phase_q.toNat + 1 < p.phases ∨ s.phase_q.toNat + 1 = p.phases := by omega
  · obtain ⟨hbusy', hround', hphase'⟩ := step_phase (i := i) hbusy hlt
    refine ⟨⟨hround' ▸ hround, by omega⟩, ?_⟩
    rw [State.left, State.left, if_pos hbusy, if_pos hbusy', hround', hphase']
    omega
  · rw [step_round hbusy hlast]
    have hphase' : (s.finish_round p).phase_q.toNat = 0 := by
      rw [State.finish_round]
      split <;> rfl
    by_cases hend : s.round_q = 63
    · have hbusy' : (s.finish_round p).busy_q = false := by rw [State.finish_round, if_pos hend]
      have hround' : (s.finish_round p).round_q = s.round_q := by rw [State.finish_round, if_pos hend]
      refine ⟨⟨hround' ▸ hround, by omega⟩, ?_⟩
      rw [State.left, State.left, if_pos hbusy, hbusy', if_neg Bool.false_ne_true, hend]
      change 0 = (63 - 63) * _ + _ - 1
      omega
    · have hbusy' : (s.finish_round p).busy_q = true := by rw [State.finish_round, if_neg hend]; exact hbusy
      have hround' : (s.finish_round p).round_q.toNat = s.round_q.toNat + 1 := by
        rw [State.finish_round, if_neg hend]
        exact BitVec.toNat_add_of_lt (y := 1#7) (by change s.round_q.toNat + 1 < 2 ^ 7; omega)
      have hne : s.round_q.toNat ≠ 63 := fun heq => hend (BitVec.eq_of_toNat_eq heq)
      have hrounds : 63 - s.round_q.toNat = 63 - (s.round_q.toNat + 1) + 1 := by omega
      refine ⟨⟨by omega, by omega⟩, ?_⟩
      rw [State.left, State.left, if_pos hbusy, if_pos hbusy', hround', hphase', hrounds, Nat.add_mul]
      omega

theorem State.Paced.step (h : s.Paced p) : (step p s i).Paced p := by
  cases hbusy : s.busy_q with
  | true => exact (step_left h hbusy).1
  | false =>
    cases hstart : i.start_i with
    | true =>
      have hload : sha256_core_iterative.step p s i = s.load i := by simp [sha256_core_iterative.step, hbusy, hstart]
      rw [hload]
      exact load_paced s i
    | false =>
      rw [bitcoin_hash_engine.core_idle p hbusy hstart]
      exact ⟨h.round_lt, h.phase_lt⟩

/-- A core that is not started again drains. -/
theorem drain_step (h : s.Paced p) (hstart : i.start_i = false) : (step p s i).left p = s.left p - 1 := by
  cases hbusy : s.busy_q with
  | true => exact (step_left h hbusy).2
  | false =>
    rw [bitcoin_hash_engine.core_idle p hbusy hstart, State.left, State.left, hbusy, if_neg Bool.false_ne_true]

end Drain

end scu35.sha256_core_iterative

namespace scu35.bitcoin_hash_engine

open dsp48e2_add32
open EngineState

section Stop

variable {p : Params} {s : State} {i : Input}

theorem compare_core (s next : State) : (s.compare next).u_core = next.u_core := by
  unfold State.compare
  split_ifs <;> rfl

/-- The core runs on whatever the engine does. -/
theorem step_core : (step p s i).u_core = sha256_core_iterative.step p.core s.u_core s.core_input.core := by
  unfold bitcoin_hash_engine.step
  dsimp only
  split
  next => rfl
  next =>
    split
    next => split <;> rfl
    next => rfl
    next => split <;> rfl
    next => split <;> rfl
    next => exact compare_core s _
    next => split <;> rfl

theorem reachable_paced (h : Reachable (step p) IsReset s) : s.u_core.Paced p.core := by
  refine Reachable.invariant (P := fun s => s.u_core.Paced p.core) (fun s hreset => ?_) (fun s i hpaced => ?_) h
  · obtain ⟨hround, hphase, -, -⟩ := hreset.core
    have hload := sha256_core_iterative.load_paced (p := p.core) s.u_core s.core_input.core
    constructor
    · rw [hround]
      exact hload.round_lt
    · rw [hphase]
      exact hload.phase_lt
  · rw [step_core]
    exact hpaced.step

/-- An engine that does nothing; its core may still be at work. -/
structure State.Halted (s : State) : Prop where
  state : s.state_q = ST_IDLE
  core_start : s.core_start_q = false
  result_valid : s.result_valid_o = false

theorem step_stop (hstop : i.stop_i = true) : (step p s i).Halted := by
  rw [step, if_pos hstop]
  exact ⟨rfl, rfl, rfl⟩

theorem State.Halted.step (h : s.Halted) (hstart : i.start_i = false) : (step p s i).Halted := by
  cases hstop : i.stop_i with
  | true => exact step_stop hstop
  | false =>
    rw [bitcoin_hash_engine.step, if_neg (by simp [hstop]), h.state, hstart]
    exact ⟨rfl, rfl, rfl⟩

/-- A halted engine that is not started is idle once its core has drained. -/
theorem trace_halted (h : s.Halted) (hpaced : s.u_core.Paced p.core) (ins : Nat → Input)
    {n : Nat} (hquiet : ∀ u < n, (ins u).start_i = false) :
    (trace (step p) s ins n).Halted ∧ (trace (step p) s ins n).u_core.Paced p.core ∧
      (trace (step p) s ins n).u_core.left p.core = s.u_core.left p.core - n := by
  induction n with
  | zero => exact ⟨h, hpaced, rfl⟩
  | succ n ih =>
    obtain ⟨hhalted, hrunning, hleft⟩ := ih fun u hu => hquiet u (by omega)
    rw [trace_succ, step_core]
    refine ⟨hhalted.step (hquiet n (Nat.lt_succ_self n)), hrunning.step, ?_⟩
    rw [sha256_core_iterative.drain_step hrunning hhalted.core_start, hleft, Nat.sub_sub]

end Stop

end scu35.bitcoin_hash_engine
