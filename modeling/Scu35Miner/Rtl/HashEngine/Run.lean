import Scu35Miner.Clocked.Periodic
import Scu35Miner.Fips180.Message
import Scu35Miner.Radix.LittleEndian
import Scu35Miner.Rtl.HashEngine.Scan

open fips180 radix clocked

namespace scu35.bitcoin_hash_engine

open EngineState sha256_core_iterative dsp48e2_add32

/-- The clock cycles that an engine spends on one nonce. -/
def Params.period (p : Params) : Nat := if p.EXPLICIT_DSP_SCHEDULE then 527 else 655

theorem Params.period_eq (p : Params) : p.period = 2 * p.core.latency + 15 := by
  cases h : p.EXPLICIT_DSP_SCHEDULE <;> simp [Params.period, Params.core, Params.latency, h]

theorem Params.latency_pos (p : Params) : 0 < p.core.latency := by
  unfold Params.latency
  split <;> omega

theorem Params.period_pos (p : Params) : 0 < p.period := by
  rw [p.period_eq]
  omega

/-- The stage of a pass, `o` cycles after its launch. -/
def Params.pass_stage (p : Params) (pass : Pass) (o : Nat) : Stage :=
  if o = 0 then .launch pass
  else if o = 1 then .start pass
  else if o < p.core.latency + 2 then .compress pass (o - 2)
  else .done pass

/-- The stage of the work on a nonce, `o` cycles after its launch. -/
def Params.stage (p : Params) (o : Nat) : Stage :=
  if o < p.core.latency + 3 then p.pass_stage .first o
  else if o < 2 * p.core.latency + 6 then p.pass_stage .second (o - (p.core.latency + 3))
  else if o < 2 * p.core.latency + 14 then .compare (o - (2 * p.core.latency + 6))
  else .check

section Stages

variable {p : Params} {job : Job} {k : Nat} {s : State} {i : Input}

theorem step_pass_stage {pass : Pass} {o : Nat} (hs : s.Scanning p job k) (hat : s.At p job k (p.pass_stage pass o))
    (ho : o < p.core.latency + 2) (hstop : i.stop_i = false) :
    (step p s i).Scanning p job k ∧ (step p s i).At p job k (p.pass_stage pass (o + 1)) := by
  have hpos := p.latency_pos
  have hnext {n : Nat} (hn : n < p.core.latency) : p.pass_stage pass (n + 2) = .compress pass n := by
    rw [Params.pass_stage, if_neg (by omega), if_neg (by omega), if_pos (by omega), Nat.add_sub_cancel]
  obtain rfl | rfl | ⟨n, rfl⟩ : o = 0 ∨ o = 1 ∨ ∃ n, o = n + 2 := by
    match o with
    | 0 => exact .inl rfl
    | 1 => exact .inr (.inl rfl)
    | n + 2 => exact .inr (.inr ⟨n, rfl⟩)
  · exact step_launch hs hat hstop
  · have hstart := step_start hs hat hstop
    rwa [hnext hpos]
  · have hn : n < p.core.latency := by omega
    rw [hnext hn] at hat
    obtain ⟨hscan, hcompress⟩ := step_compress hs hat hstop
    refine ⟨hscan, ?_⟩
    by_cases hlast : n + 1 < p.core.latency
    · rw [if_pos hlast] at hcompress
      rwa [show n + 2 + 1 = n + 1 + 2 from rfl, hnext hlast]
    · rw [if_neg hlast] at hcompress
      rwa [Params.pass_stage, if_neg (by omega), if_neg (by omega), if_neg (by omega)]

theorem pass_stage_done (pass : Pass) : p.pass_stage pass (p.core.latency + 2) = .done pass := by
  rw [Params.pass_stage, if_neg (by omega), if_neg (by omega), if_neg (by omega)]

/-- Within the work on one nonce each edge moves to the next stage. -/
theorem step_stage {o : Nat} (hs : s.Scanning p job k) (hat : s.At p job k (p.stage o)) (ho : o + 1 < p.period)
    (hstop : i.stop_i = false) :
    (step p s i).Scanning p job k ∧ (step p s i).At p job k (p.stage (o + 1)) := by
  rw [p.period_eq] at ho
  rw [Params.stage] at hat
  by_cases hfirst : o < p.core.latency + 3
  · rw [if_pos hfirst] at hat
    by_cases hmore : o < p.core.latency + 2
    · rw [Params.stage, if_pos (by omega)]
      exact step_pass_stage hs hat hmore hstop
    · obtain rfl : o = p.core.latency + 2 := by omega
      rw [pass_stage_done] at hat
      rw [Params.stage, if_neg (by omega), if_pos (by omega), show p.core.latency + 2 + 1 - (p.core.latency + 3) = 0 by omega]
      exact step_done_first hs hat hstop
  rw [if_neg hfirst] at hat
  by_cases hsecond : o < 2 * p.core.latency + 6
  · rw [if_pos hsecond] at hat
    by_cases hmore : o < 2 * p.core.latency + 5
    · rw [Params.stage, if_neg (by omega), if_pos (by omega),
        show o + 1 - (p.core.latency + 3) = o - (p.core.latency + 3) + 1 by omega]
      exact step_pass_stage hs hat (by omega) hstop
    · rw [show o - (p.core.latency + 3) = p.core.latency + 2 by omega, pass_stage_done] at hat
      rw [Params.stage, if_neg (by omega), if_neg (by omega), if_pos (by omega),
        show o + 1 - (2 * p.core.latency + 6) = 0 by omega]
      exact step_done_second hs hat hstop
  rw [if_neg hsecond, if_pos (by omega)] at hat
  obtain ⟨hscan, hnext⟩ := step_compare hs hat hstop
  refine ⟨hscan, ?_⟩
  by_cases hlast : o = 2 * p.core.latency + 13
  · rw [if_pos (by omega)] at hnext
    rwa [Params.stage, if_neg (by omega), if_neg (by omega), if_neg (by omega)]
  · rw [if_neg (by omega)] at hnext
    rwa [Params.stage, if_neg (by omega), if_neg (by omega), if_pos (by omega),
      show o + 1 - (2 * p.core.latency + 6) = o - (2 * p.core.latency + 6) + 1 by omega]

theorem stage_last : p.stage (p.period - 1) = .check := by
  rw [p.period_eq, Params.stage, if_neg (by omega), if_neg (by omega), if_neg (by omega)]

theorem stage_zero : p.stage 0 = .launch .first := by
  rw [Params.stage, if_pos (by omega)]
  rfl

theorem stage_eq_check_iff {o : Nat} (ho : o < p.period) : p.stage o = .check ↔ o = p.period - 1 := by
  rw [p.period_eq] at *
  unfold Params.stage Params.pass_stage
  split_ifs <;> simp <;> omega

/-- The cycle in which the double hash of a nonce is complete. -/
def Params.hashed (p : Params) : Nat := 2 * p.core.latency + 5

theorem stage_eq_done_iff {o : Nat} : p.stage o = .done .second ↔ o = p.hashed := by
  have hpos := p.latency_pos
  unfold Params.stage Params.pass_stage Params.hashed
  split_ifs <;> simp <;> omega

/-- Only the check stage shows a result pulse, for a nonce that is a hit. -/
theorem State.At.result_valid {st : Stage} (hat : s.At p job k st) :
    s.result_valid_o = true ↔ st = .check ∧ job.Hit p k := by
  cases st with
  | launch pass => simp [hat.2.2.2.2.2]
  | start pass => simp [hat.2.2.2.2.2]
  | compress pass n => simp [hat.2.2.2.2]
  | done pass => simp [hat.2.2.2.2.2]
  | compare idx => simp [hat.2.2.2.2.2.2.2]
  | check => simp [hat.2.2.2.1]

theorem State.At.result_nonce (hat : s.At p job k .check) (hvalid : s.result_valid_o = true) :
    s.result_nonce_o = job.nonce p k := hat.2.2.2.2 hvalid

/-- Only the end of the second pass completes a hash. -/
theorem State.At.hash_complete {st : Stage} (hat : s.At p job k st) :
    s.hash_complete_o = true ↔ st = .done .second := by
  rw [State.hash_complete_o, Bool.and_eq_true, beq_iff_eq]
  cases st with
  | launch pass => simp [hat.1]
  | start pass => simp [hat.2.2.2.2.1]
  | compress pass n => simp [hat.2.2.2.1.done]
  | done pass => cases pass <;> simp [hat.1, hat.2.2.2.1, Pass.state]
  | compare idx => simp [hat.1]
  | check => simp [hat.1]

theorem State.At.state_ne_idle {st : Stage} (hat : s.At p job k st) : s.state_q ≠ ST_IDLE := by
  cases st with
  | launch pass => simp [hat.1]
  | start pass => cases pass <;> simp [hat.1, Pass.state]
  | compress pass n => cases pass <;> simp [hat.1, Pass.state]
  | done pass => cases pass <;> simp [hat.1, Pass.state]
  | compare idx => simp [hat.1]
  | check => simp [hat.1]

end Stages

section Run

variable {p : Params}

/-- An engine that is not at work has no core start and no result pulse
pending, and a launch leads to a pass. -/
structure State.Quiet (s : State) : Prop where
  idle : s.state_q = ST_IDLE → s.core_start_q = false ∧ s.result_valid_o = false
  launch : s.state_q = ST_LAUNCH → s.launch_state_q = ST_PASS1 ∨ s.launch_state_q = ST_PASS2

theorem compare_state (s next : State) :
    (s.compare next).state_q = ST_CHECK ∨ (s.compare next).state_q = next.state_q := by
  unfold State.compare
  split_ifs <;> simp

theorem State.Quiet.step {s : State} (h : s.Quiet) (i : Input) : (step p s i).Quiet := by
  unfold bitcoin_hash_engine.step
  dsimp only
  split
  next => exact ⟨fun _ => ⟨rfl, rfl⟩, by simp⟩
  next =>
    split
    next hstate =>
      split
      · exact ⟨by simp, fun _ => .inl rfl⟩
      · exact ⟨fun _ => ⟨rfl, rfl⟩, by simp [hstate]⟩
    next hstate =>
      obtain hpass | hpass := h.launch hstate
      · exact ⟨by simp [hpass], by simp [hpass]⟩
      · exact ⟨by simp [hpass], by simp [hpass]⟩
    next hstate =>
      split
      · exact ⟨by simp, fun _ => .inr rfl⟩
      · exact ⟨by simp [hstate], by simp [hstate]⟩
    next hstate =>
      split
      · exact ⟨by simp, by simp⟩
      · exact ⟨by simp [hstate], by simp [hstate]⟩
    next hstate =>
      generalize hnext : State.mk _ _ _ _ _ _ _ _ _ _ _ _ _ _ _ _ _ = next
      have hkept : next.state_q = ST_COMPARE := by rw [← hnext]; exact hstate
      obtain hcheck | hsame := compare_state s next
      · exact ⟨by simp [hcheck], by simp [hcheck]⟩
      · exact ⟨by simp [hsame, hkept], by simp [hsame, hkept]⟩
    next hstate =>
      split
      · exact ⟨fun _ => ⟨rfl, rfl⟩, by simp⟩
      · exact ⟨by simp, fun _ => .inl rfl⟩

theorem reachable_quiet {s : State} (h : Reachable (step p) IsReset s) : s.Quiet := by
  refine Reachable.invariant ?_ ?_ h
  · intro s hreset
    exact ⟨fun _ => ⟨hreset.core_start, hreset.result_valid⟩, by simp [hreset.state]⟩
  · intro s i hquiet
    exact hquiet.step i

/-- A reachable engine that is not busy is idle, also right after a stopped job
has drained. -/
theorem idle_of_not_busy {s : State} (h : Reachable (step p) IsReset s) (hbusy : s.busy_o = false) : s.Idle := by
  simp only [State.busy_o, sha256_core_iterative.State.busy_o, Bool.or_eq_false_iff, bne_eq_false_iff_eq] at hbusy
  obtain ⟨hstart, hvalid⟩ := (reachable_quiet h).idle hbusy.1
  exact ⟨hbusy.1, hstart, hbusy.2, hvalid⟩

theorem State.Idle.not_busy {s : State} (h : s.Idle) : s.busy_o = false := by
  rw [State.busy_o, sha256_core_iterative.State.busy_o, h.state, h.core_busy]
  rfl

/-- After the start of a job, cycle `n` works on nonce `n / period` at stage
`n % period`, whatever the inputs other than `stop_i` do. -/
theorem trace_scans {s : State} {ins : Nat → Input} (hidle : s.Idle) (hstart : (ins 0).start_i = true)
    (hcount : (ins 0).nonce_count_i ≠ 0) {n : Nat} (hn : n < p.period * (ins 0).nonce_count_i.toNat)
    (hstop : ∀ u ≤ n, (ins u).stop_i = false) :
    (trace (step p) s ins (n + 1)).Scanning p (ins 0).job (n / p.period) ∧
      (trace (step p) s ins (n + 1)).At p (ins 0).job (n / p.period) (p.stage (n % p.period)) := by
  have hpos := p.period_pos
  induction n with
  | zero =>
    rw [Nat.zero_div, Nat.zero_mod, stage_zero]
    exact step_idle_start hidle (hstop 0 (Nat.le_refl 0)) hstart hcount
  | succ n ih =>
    obtain ⟨hscan, hat⟩ := ih (by omega) fun u hu => hstop u (by omega)
    have hfree := hstop (n + 1) (Nat.le_refl _)
    have hmod := Nat.mod_lt n hpos
    have hdiv := Nat.div_add_mod n p.period
    rw [trace_succ]
    by_cases hlast : n % p.period + 1 < p.period
    · obtain ⟨hdiv', hmod'⟩ : (n + 1) / p.period = n / p.period ∧ (n + 1) % p.period = n % p.period + 1 := by
        rw [← hdiv, Nat.add_assoc, Nat.mul_add_div hpos, Nat.mul_add_mod, Nat.div_eq_of_lt hlast, Nat.mod_eq_of_lt hlast,
          Nat.add_zero, hdiv]
        exact ⟨rfl, rfl⟩
      rw [hdiv', hmod']
      exact step_stage hscan hat hlast hfree
    · have hend : n % p.period = p.period - 1 := by omega
      have hsum : n + 1 = p.period * (n / p.period + 1) := by
        rw [Nat.mul_add, Nat.mul_one]
        omega
      rw [hend, stage_last] at hat
      have hmore : n / p.period + 1 < (ins 0).nonce_count_i.toNat := by
        rw [hsum] at hn
        exact Nat.lt_of_mul_lt_mul_left hn
      have hdiv' : (n + 1) / p.period = n / p.period + 1 := by
        rw [hsum, Nat.mul_div_cancel_left _ hpos]
      have hmod' : (n + 1) % p.period = 0 := by
        rw [hsum, Nat.mul_mod_right]
      rw [hdiv', hmod', stage_zero]
      exact step_check_more hscan hat hfree hmore

/-- After the last nonce the engine is idle and pulses `done_o`. -/
theorem trace_done {s : State} {ins : Nat → Input} (hidle : s.Idle) (hstart : (ins 0).start_i = true)
    (hcount : (ins 0).nonce_count_i ≠ 0)
    (hstop : ∀ u ≤ p.period * (ins 0).nonce_count_i.toNat, (ins u).stop_i = false) :
    (trace (step p) s ins (p.period * (ins 0).nonce_count_i.toNat + 1)).Idle ∧
      (trace (step p) s ins (p.period * (ins 0).nonce_count_i.toNat + 1)).done_o = true := by
  have hpos := p.period_pos
  obtain ⟨c, hc⟩ : ∃ c, (ins 0).nonce_count_i.toNat = c + 1 := by
    refine Nat.exists_eq_succ_of_ne_zero fun hzero => hcount ?_
    exact BitVec.eq_of_toNat_eq hzero
  have hlast : p.period * (c + 1) = p.period * c + (p.period - 1) + 1 := by
    rw [Nat.mul_add, Nat.mul_one]
    omega
  have hlt : p.period * c + (p.period - 1) < p.period * (ins 0).nonce_count_i.toNat := by
    rw [hc]
    omega
  obtain ⟨hscan, hat⟩ := trace_scans hidle hstart hcount hlt fun u hu => hstop u (by omega)
  rw [Nat.mul_add_div hpos, Nat.mul_add_mod, Nat.div_eq_of_lt (by omega), Nat.mod_eq_of_lt (by omega), stage_last] at hat
  rw [Nat.mul_add_div hpos, Nat.div_eq_of_lt (by omega)] at hscan
  rw [hc, hlast, trace_succ]
  refine step_check_last hscan hat (hstop _ (by omega)) ?_
  rw [Nat.add_zero]
  exact hc.symm

/-- At work, an engine samples none of its inputs but `stop_i`. -/
theorem step_input_free {s : State} (hwork : s.state_q ≠ ST_IDLE) {i i' : Input} (hstop : i.stop_i = i'.stop_i) :
    step p s i = step p s i' := by
  unfold step
  rw [hstop]
  split
  next => rfl
  next =>
    cases hstate : s.state_q with
    | ST_IDLE => exact absurd hstate hwork
    | _ => rfl

end Run

section Hits

theorem bitcoin_digest_bytes (digest : Vector Word 8) :
    (bitcoin_digest digest).toList.flatMap wordBytes = (digestBytes digest).reverse := by
  obtain ⟨⟨words⟩, hsize⟩ := digest
  simp only [List.size_toArray] at hsize
  match words, hsize with
  | [a, b, c, d, e, f, g, h], _ =>
    have hwords : (bitcoin_digest #v[a, b, c, d, e, f, g, h]).toList = (List.finRange 8).map fun i : Fin 8 =>
        ofBytes (digest_byte #v[a, b, c, d, e, f, g, h] (4 * i)) (digest_byte #v[a, b, c, d, e, f, g, h] (4 * i + 1))
          (digest_byte #v[a, b, c, d, e, f, g, h] (4 * i + 2)) (digest_byte #v[a, b, c, d, e, f, g, h] (4 * i + 3)) := by
      rw [bitcoin_digest, Vector.toList_ofFn, List.ofFn_eq_map]
    change (bitcoin_digest #v[a, b, c, d, e, f, g, h]).toList.flatMap wordBytes = _
    rw [hwords, List.flatMap_map]
    simp only [wordBytes_ofBytes]
    rfl

/-- The comparator sees the digest bytes as a little-endian number. -/
theorem bitcoin_digest_value (digest : Vector Word 8) :
    beValue (bitcoin_digest digest).toList = leValue (digestBytes digest) := by
  rw [← beValue_words, bitcoin_digest_bytes, beValue_reverse]

/-- The double hash of the `k`-th nonce of a job, as a little-endian number. -/
def Job.hash_value (p : Params) (job : Job) (k : Nat) : Nat :=
  leValue (digestBytes (double_digest job.midstate job.header_tail (job.nonce p k)))

/-- For the midstate of the first sixty-four bytes of a header that is the double
SHA-256 of the header, its last word the nonce. -/
theorem Job.hash_value_eq (p : Params) (job : Job) (k : Nat) {first : List Byte} (hlen : first.length = 64)
    (hmidstate : job.midstate = fips180.compress initialHash (blockWords first)) :
    job.hash_value p k = leValue (sha256 (sha256 (first ++
      (job.header_tail.toList.take 3 ++ [job.nonce p k]).flatMap wordBytes))) := by
  rw [Job.hash_value, hmidstate, double_digest_sha256 hlen]

theorem Job.hit_iff (p : Params) (job : Job) (k : Nat) : job.Hit p k ↔ job.hash_value p k ≤ beValue job.target.toList := by
  rw [Job.Hit, IsShare, bitcoin_digest_value]
  rfl

end Hits

/-- The result nonces that an engine raises in the `c` cycles from edge `t` on. -/
def raised (p : Params) (s : State) (ins : Nat → Input) (t c : Nat) : List Word :=
  (List.range c).filterMap fun n =>
    let s := trace (step p) s ins (t + n)
    if s.result_valid_o then some s.result_nonce_o else none

/-- The hashes that an engine completes in these cycles. -/
def completed (p : Params) (s : State) (ins : Nat → Input) (t c : Nat) : Nat :=
  (List.range c).countP fun n => (trace (step p) s ins (t + n)).hash_complete_o

section Outputs

variable {p : Params} {s : State} {ins : Nat → Input}

/-- A cycle without result pulse raises nothing. -/
theorem raised_succ {t c : Nat} (h : (trace (step p) s ins (t + c)).result_valid_o = false) :
    raised p s ins t (c + 1) = raised p s ins t c := by
  rw [raised, List.range_succ, List.filterMap_append, raised]
  simp [h]

theorem completed_succ {t c : Nat} (h : (trace (step p) s ins (t + c)).hash_complete_o = false) :
    completed p s ins t (c + 1) = completed p s ins t c := by
  rw [completed, List.range_succ, List.countP_append, completed]
  simp [h]

theorem raised_scanning (hidle : s.Idle) (hstart : (ins 0).start_i = true) (hcount : (ins 0).nonce_count_i ≠ 0)
    (hstop : ∀ n ≤ p.period * (ins 0).nonce_count_i.toNat, (ins n).stop_i = false) :
    raised p s ins 1 (p.period * (ins 0).nonce_count_i.toNat) =
      ((List.range (ins 0).nonce_count_i.toNat).filter fun k =>
        (ins 0).job.hash_value p k ≤ beValue (ins 0).job.target.toList).map ((ins 0).job.nonce p) := by
  have hpos := p.period_pos
  have hcycle : ∀ n ∈ List.range (p.period * (ins 0).nonce_count_i.toNat),
      (if (trace (step p) s ins (1 + n)).result_valid_o then some (trace (step p) s ins (1 + n)).result_nonce_o else none) =
        if n % p.period = p.period - 1 then
          if (ins 0).job.hash_value p (n / p.period) ≤ beValue (ins 0).job.target.toList then
            some ((ins 0).job.nonce p (n / p.period))
          else none
        else none := by
    intro n hn
    have hlt := List.mem_range.mp hn
    obtain ⟨_, hat⟩ := trace_scans hidle hstart hcount hlt fun u hu => hstop u (by omega)
    have hvalid := hat.result_valid
    rw [stage_eq_check_iff (Nat.mod_lt n hpos), Job.hit_iff] at hvalid
    rw [Nat.add_comm 1 n]
    by_cases hlast : n % p.period = p.period - 1
    · rw [if_pos hlast]
      by_cases hhit : (ins 0).job.hash_value p (n / p.period) ≤ beValue (ins 0).job.target.toList
      · have hpulse := hvalid.mpr ⟨hlast, hhit⟩
        rw [hlast, stage_last] at hat
        rw [if_pos hpulse, if_pos hhit, hat.result_nonce hpulse]
      · rw [if_neg (fun hpulse => hhit (hvalid.mp hpulse).2), if_neg hhit]
    · rw [if_neg (fun hpulse => hlast (hvalid.mp hpulse).1), if_neg hlast]
  have hperiodic := filterMap_periodic (Nat.sub_lt hpos Nat.one_pos) (fun k =>
    if (ins 0).job.hash_value p k ≤ beValue (ins 0).job.target.toList then some ((ins 0).job.nonce p k) else none)
    (ins 0).nonce_count_i.toNat
  rw [raised, List.filterMap_congr hcycle, hperiodic, ← List.filterMap_eq_map, List.filterMap_filter]
  simp only [decide_eq_true_eq, Function.comp]

theorem completed_scanning (hidle : s.Idle) (hstart : (ins 0).start_i = true) (hcount : (ins 0).nonce_count_i ≠ 0)
    (hstop : ∀ n ≤ p.period * (ins 0).nonce_count_i.toNat, (ins n).stop_i = false) :
    completed p s ins 1 (p.period * (ins 0).nonce_count_i.toNat) = (ins 0).nonce_count_i.toNat := by
  have hpos := p.period_pos
  have hhashed : p.hashed < p.period := by
    rw [p.period_eq, Params.hashed]
    omega
  have hcycle : ∀ n ∈ List.range (p.period * (ins 0).nonce_count_i.toNat),
      ((trace (step p) s ins (1 + n)).hash_complete_o = true ↔
        (if n % p.period = p.hashed then some () else none : Option Unit).isSome = true) := by
    intro n hn
    have hlt := List.mem_range.mp hn
    obtain ⟨_, hat⟩ := trace_scans hidle hstart hcount hlt fun u hu => hstop u (by omega)
    rw [Nat.add_comm 1 n, hat.hash_complete, stage_eq_done_iff]
    split <;> simp_all
  rw [completed, List.countP_congr hcycle, ← List.length_filterMap_eq_countP, filterMap_periodic hhashed fun _ => some ()]
  simp

end Outputs

/-- A start of a free engine scans exactly the job's progression. Edge `1 + n`
is reached `n` cycles after the state has left idle. -/
theorem scans_progression (p : Params) {s : State} (hreach : Reachable (step p) IsReset s) (hfree : s.busy_o = false)
    (ins : Nat → Input) (hstart : (ins 0).start_i = true) (hcount : (ins 0).nonce_count_i ≠ 0)
    (hstop : ∀ n ≤ p.period * (ins 0).nonce_count_i.toNat, (ins n).stop_i = false) :
    let job := (ins 0).job
    let cycles := p.period * job.nonce_count.toNat
    raised p s ins 1 (cycles + 1) =
      ((List.range job.nonce_count.toNat).filter fun k => job.hash_value p k ≤ beValue job.target.toList).map (job.nonce p) ∧
    completed p s ins 1 (cycles + 1) = job.nonce_count.toNat ∧
    (∀ n ≤ cycles, (trace (step p) s ins (1 + n)).done_o = true ↔ n = cycles) ∧
    (∀ n < cycles, (trace (step p) s ins (1 + n)).state_q ≠ ST_IDLE) ∧
    (trace (step p) s ins (1 + cycles)).busy_o = false ∧
    ∀ ins' : Nat → Input, ins' 0 = ins 0 → (∀ n ≤ cycles, (ins' n).stop_i = false) →
      ∀ n ≤ cycles, trace (step p) s ins' (1 + n) = trace (step p) s ins (1 + n) := by
  intro job cycles
  have hidle := idle_of_not_busy hreach hfree
  obtain ⟨hend, hdone⟩ : (trace (step p) s ins (cycles + 1)).Idle ∧ (trace (step p) s ins (cycles + 1)).done_o = true :=
    trace_done hidle hstart hcount hstop
  rw [Nat.add_comm] at hend hdone
  replace hstop : ∀ n ≤ cycles, (ins n).stop_i = false := hstop
  refine ⟨?_, ?_, ?_, ?_, ?_, ?_⟩
  · rw [raised_succ hend.result_valid]
    exact raised_scanning hidle hstart hcount hstop
  · have hlast : (trace (step p) s ins (1 + cycles)).hash_complete_o = false := by
      rw [State.hash_complete_o, hend.state]
      rfl
    rw [completed_succ hlast]
    exact completed_scanning hidle hstart hcount hstop
  · intro n hn
    obtain hlt | rfl := Nat.lt_or_eq_of_le hn
    · have hscan := (trace_scans hidle hstart hcount hlt fun u hu => hstop u (by omega)).1
      rw [Nat.add_comm 1 n, hscan.done]
      exact iff_of_false (by simp) (by omega)
    · exact iff_of_true hdone rfl
  · intro n hn
    rw [Nat.add_comm 1 n]
    exact (trace_scans hidle hstart hcount hn fun u hu => hstop u (by omega)).2.state_ne_idle
  · exact hend.not_busy
  · intro ins' hsame hstop' n hn
    induction n with
    | zero => rw [Nat.add_zero, trace_succ, trace_succ, trace_zero, trace_zero, hsame]
    | succ n ih =>
      rw [← Nat.add_assoc, trace_succ, trace_succ, ih (by omega)]
      have hat := (trace_scans hidle hstart hcount (n := n) (Nat.lt_of_succ_le hn) fun u hu => hstop u (by omega)).2
      rw [Nat.add_comm 1 n]
      exact step_input_free hat.state_ne_idle ((hstop' _ (by omega)).trans (hstop _ (by omega)).symm)

/-- The reset state with every unreset core register zero. -/
def reset_state : State := { (default : State) with core_first_pass_q := true }

theorem reset_state_isReset : IsReset reset_state := by
  constructor
  case core => exact ⟨rfl, rfl, rfl, rfl⟩
  all_goals rfl

/-- A four-phase engine of a three-lane miner, as deployed. -/
def deployed_params : Params := ⟨3, true, true, Dsp48e2.documented⟩

/-- A start of one nonce with the easiest target, held for the whole run. -/
def one_nonce (_ : Nat) : Input := ⟨true, false, default, default, Vector.replicate 8 0xffffffff, 5, 1⟩

theorem one_nonce_done : (trace (step deployed_params) reset_state one_nonce 528).done_o = true :=
  ((scans_progression deployed_params (.reset reset_state_isReset) (by decide) one_nonce rfl (by decide)
    fun _ _ => rfl).2.2.1 527 (by decide)).mpr rfl

end scu35.bitcoin_hash_engine
