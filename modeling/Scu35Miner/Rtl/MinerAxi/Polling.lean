import Scu35Miner.Rtl.MinerAxi.Coverage

open fips180 clocked

namespace scu35.bitcoin_miner_axi

open bitcoin_result_cluster_fifo (cleared presented popped)

section FinalCheck

variable {p : Params} {r : State p} {ins : Nat → Input p} {start a b w : Nat}

theorem status_done (s : State p) : (read_reg s ADDR_STATUS).getLsbD 2 = s.nonce_done_q := by
  rw [read_status]
  cases s.overflow_q <;> cases s.nonce_done_q <;> cases s.result_valid_q <;> cases s.running_q <;> rfl

theorem result_status_valid (s : State p) : (read_reg s ADDR_RESULT_STATUS).getLsbD 0 = s.result_valid_q := by
  have hstatus : read_reg s ADDR_RESULT_STATUS = 0#30 ++ BitVec.ofBool s.overflow_q ++ BitVec.ofBool s.result_valid_q := rfl
  rw [hstatus]
  cases s.overflow_q <;> cases s.result_valid_q <;> rfl

theorem reads_taken_at {q : BusRead} (hq : q ∈ reads_taken r ins w) :
    (trace (step p) r ins q.cycle).ar_taken (ins q.cycle) = true := by
  obtain ⟨u, -, haccepts⟩ := List.mem_filterMap.mp hq
  simp only [State.read_event] at haccepts
  split at haccepts
  next htaken =>
    cases haccepts
    exact htaken
  next => cases haccepts

theorem mem_reads_taken {c t : Nat} (htaken : (trace (step p) r ins c).ar_taken (ins c) = true) (hlt : c < t) :
    ⟨c, word_addr (ins c).s_axi_araddr⟩ ∈ reads_taken r ins t :=
  List.mem_filterMap.mpr ⟨c, List.mem_range.mpr hlt, if_pos htaken⟩

/-- The slave takes two addresses at least four cycles apart. -/
theorem reads_apart (hreset : IsReset r) (hreads : StableReads r ins)
    (ha : (trace (step p) r ins a).ar_taken (ins a) = true) (hb : (trace (step p) r ins b).ar_taken (ins b) = true)
    (hlt : a < b) : a + 4 ≤ b := by
  obtain ⟨phase, hphase, -⟩ := (reads_serial hreset hreads).balanced a
  obtain ⟨q, rfl⟩ := read_stands_taken a hphase ha
  have hsampled : (trace (step p) r ins (a + 1)).ReadSampled _ := read_sample hphase.2
  have hpresented : (trace (step p) r ins (a + 2)).ReadPresented _ := read_present hsampled
  have hresponded : (trace (step p) r ins (a + 3)).ReadFlags _ false false false := (read_respond hpresented).1
  by_contra hnear
  obtain rfl | rfl | rfl : b = a + 1 ∨ b = a + 2 ∨ b = a + 3 := by omega
  · rw [hsampled.flags.ar_taken] at hb
    cases hb
  · rw [hpresented.flags.ar_taken] at hb
    cases hb
  · rw [hresponded.ar_taken] at hb
    cases hb

variable (r ins a b)

/-- The end of a poll, with no write in between: a read of `STATUS` says that the
job is done, and a later read of `RESULT_STATUS` that no result waits. -/
structure FinalCheck : Prop where
  status : ⟨a, ADDR_STATUS⟩ ∈ reads_taken r ins (a + 1)
  result_status : ⟨b, ADDR_RESULT_STATUS⟩ ∈ reads_taken r ins (b + 1)
  ordered : a < b
  done : (BusRead.value r ins ⟨a, ADDR_STATUS⟩).getLsbD 2 = true
  free : (BusRead.value r ins ⟨b, ADDR_RESULT_STATUS⟩).getLsbD 0 = false
  rests : ∀ x, a ≤ x → x < b → (trace (step p) r ins x).write_apply = false

variable {r ins a b}

/-- A poll that ends so has left no result of the job anywhere, whenever the lanes
raised them and the register was acknowledged: until the next START there is
nothing that a CLEAR, a START or a STOP could discard. -/
theorem final_check_emptied (hreset : IsReset r) (hreads : StableReads r ins) (htwo : 2 ≤ p.NUM_ENGINES)
    (hquiet : (trace (step p) r ins start).Quiescent) (hheld : JobHeld (trace (step p) r ins start) (after ins start))
    (hrun : JobRun (trace (step p) r ins start) (after ins start) (b - start)) (hstart : start < a)
    (hcheck : FinalCheck r ins a b) (hw : b ≤ w) (hrests : ∀ x, b ≤ x → x < w → (trace (step p) r ins x).starts = false) :
    (trace (step p) r ins w).Emptied := by
  have hapart := reads_apart hreset hreads (reads_taken_at hcheck.status) (reads_taken_at hcheck.result_status) hcheck.ordered
  dsimp only at hapart
  obtain ⟨m, rfl⟩ := Nat.exists_eq_add_of_lt hstart
  obtain ⟨n, rfl⟩ : ∃ n, b = start + n := ⟨b - start, by omega⟩
  have hdone := hcheck.done
  have hfree := hcheck.free
  rw [BusRead.value, status_done, Nat.add_assoc, ← trace_after] at hdone
  rw [BusRead.value, result_status_valid, ← trace_after] at hfree
  rw [Nat.add_sub_cancel_left] at hrun
  have hquiesces : (trace (step p) (trace (step p) r ins start) (after ins start) (n - 1)).write_apply = false := by
    rw [trace_after]
    exact hcheck.rests _ (by omega) (by omega)
  have hempty := hrun.emptied ((Reachable.reset hreset).trace ins start) hquiet hheld htwo (Nat.le_add_left 1 m)
    (by omega) hdone hfree hquiesces
  rw [trace_after] at hempty
  induction w, hw using Nat.le_induction with
  | base => exact hempty
  | succ w hw ih =>
    exact (ih fun x hx hlt => hrests x hx (by omega)).step ((Reachable.reset hreset).trace ins w)
      (hrests w hw (Nat.lt_succ_self w))

end FinalCheck

section Poll

variable {p : Params} {r : State p} {ins : Nat → Input p} {start n a u : Nat}

/-- A result that is seen stays in its register until it is acknowledged. -/
theorem JobAlone.result_stays (h : JobAlone r ins start n) (hstart : start < a) (hle : a ≤ u) (hu : u ≤ start + n)
    (hvalid : (trace (step p) r ins a).result_valid_q = true)
    (hkeeps : ∀ x, a ≤ x → x < u → (trace (step p) r ins x).result_status_write 0 = false) :
    (trace (step p) r ins u).result = (trace (step p) r ins a).result ∧ (trace (step p) r ins u).result_valid_q = true := by
  induction u, hle using Nat.le_induction with
  | base => exact ⟨rfl, hvalid⟩
  | succ u hle ih =>
    obtain ⟨hsame, hheld⟩ := ih (by omega) fun x hx hlt => hkeeps x hx (by omega)
    obtain ⟨v, rfl⟩ : ∃ v, u = start + v := ⟨u - start, by omega⟩
    have hcapture : (trace (step p) r ins (start + v)).capture = none := by rw [State.capture, if_pos hheld]
    have hstays : (trace (step p) r ins (start + v + 1)).result_valid_q = true := by
      rw [trace_succ, step_result_valid, hkeeps _ hle (Nat.lt_succ_self _), h.clear v (by omega),
        h.no_start (by omega) (by omega), hheld]
      exact Bool.or_true _
    refine ⟨?_, hstays⟩
    rw [← hsame, State.result, State.result, hstays, hheld, trace_succ, control_step, hcapture]
    rfl

/-- While nothing is acknowledged, the register shows a result four cycles after a
share is raised. -/
theorem JobAlone.result_shown (h : JobAlone r ins start n) (hreset : IsReset r)
    (hquiet : (trace (step p) r ins start).Quiescent) (hheld : JobHeld (trace (step p) r ins start) (after ins start))
    {i : Nat} (hi : i < (trace (step p) r ins start).nonce_count_q.toNat)
    (hshare : JobShare (trace (step p) r ins start).toRegisters.job i) (hn : p.share_cycle i + 4 ≤ n)
    (hkeeps : ∀ x, start < x → x < start + p.share_cycle i + 4 → (trace (step p) r ins x).result_status_write 0 = false) :
    (trace (step p) r ins (start + p.share_cycle i + 4)).result_valid_q = true := by
  have hlate : 3 ≤ p.share_cycle i := by
    have hfirst : 3 ≤ p.lane_start (i % p.NUM_ENGINES) := Nat.le_add_left _ _
    unfold Params.share_cycle
    omega
  obtain ⟨c, q, hresult⟩ : ∃ c q, q ∈ (cluster_input r ins c (start + p.share_cycle i)).results :=
    ⟨⟨_, cluster_lt (Nat.mod_lt i p.engines_pos)⟩, _,
      (h.results_iff hreset hquiet hheld (by omega)).mpr ⟨i, hi, hshare, rfl, rfl, rfl⟩⟩
  generalize p.share_cycle i = v at hlate hn hkeeps hresult ⊢
  by_contra hlast
  -- nothing has been shown, so nothing was captured and the FIFO of the lane stayed empty
  have hnever {x : Nat} (hlow : start < x) (hle : x ≤ start + v + 4) : (trace (step p) r ins x).result_valid_q = false := by
    rw [← Bool.not_eq_true]
    intro hvalid
    exact hlast (h.result_stays hlow hle (by omega) hvalid fun y hy hlt => hkeeps y (by omega) hlt).2
  have hcount : ((trace (step p) r ins (start + v + 3)).fifos c).count_q.toNat = 0 := by
    have hnext := hnever (show start < start + v + 3 + 1 by omega) (Nat.le_refl _)
    rw [trace_succ, step_result_valid, Bool.or_eq_false_iff, Option.isSome_eq_false_iff, Option.isNone_iff_eq_none] at hnext
    exact (capture_none_iff (hnever (by omega) (by omega))).mp hnext.1 c
  have hopen {u : Nat} (hpast : 3 ≤ u) (hle : u ≤ v + 2) : ((trace (step p) r ins (start + u)).fifos c).clear_q = false :=
    h.open_after hpast (by omega) c
  have hbounded := reachable_bounded ((Reachable.reset hreset).trace ins (start + (v + 2))) c
  have hnone : ((trace (step p) r ins (start + (v + 2))).fifos c).arriving = none := by
    rw [Nat.add_assoc, show v + 3 = v + 2 + 1 from rfl, ← Nat.add_assoc, trace_succ, fifo_step,
      bitcoin_result_cluster_fifo.count_step_eq_zero_iff hbounded (hopen (by omega) (Nat.le_refl _))] at hcount
    exact hcount.2
  rw [show start + (v + 2) = start + (v + 1) + 1 from rfl, trace_succ, fifo_step,
    bitcoin_result_cluster_fifo.step_arriving (hopen (by omega) (by omega)), List.head?_eq_none_iff,
    show start + (v + 1) = start + v + 1 from rfl, trace_succ, fifo_step,
    bitcoin_result_cluster_fifo.step_entering (hopen hlate (by omega))] at hnone
  have hempty : (cluster_input r ins c (start + v)).results = [] := hnone
  rw [hempty] at hresult
  cases hresult

/-- The words that a master has read when it acknowledges a result in cycle `u`:
since the acknowledgement before, `RESULT_STATUS` with its valid bit set, and then
the nonce and the engine. -/
def Polled (r : State p) (ins : Nat → Input p) (start u : Nat) (q : Word × Word) : Prop :=
  ∃ a b c, start < a ∧ a ≤ b ∧ a ≤ c ∧ ⟨a, ADDR_RESULT_STATUS⟩ ∈ reads_taken r ins u ∧
    ⟨b, ADDR_RESULT_NONCE⟩ ∈ reads_taken r ins u ∧ ⟨c, ADDR_RESULT_ENGINE⟩ ∈ reads_taken r ins u ∧
    (BusRead.value r ins ⟨a, ADDR_RESULT_STATUS⟩).getLsbD 0 = true ∧
    (∀ x, a ≤ x → x < u → (trace (step p) r ins x).result_status_write 0 = false) ∧
    q = (BusRead.value r ins ⟨c, ADDR_RESULT_ENGINE⟩, BusRead.value r ins ⟨b, ADDR_RESULT_NONCE⟩)

/-- A master acknowledges the result that it has read. -/
theorem JobAlone.polled_result (h : JobAlone r ins start n) (hu : u < start + n)
    (hack : (trace (step p) r ins u).result_status_write 0 = true) {q : Word × Word} (hpolled : Polled r ins start u q) :
    (trace (step p) r ins u).acknowledged = some q := by
  obtain ⟨a, b, c, hstart, hb, hc, hstatus, hnonce, hengine, hvalid, hkeeps, rfl⟩ := hpolled
  have hbefore := reads_taken_cycle u hnonce
  have hbefore' := reads_taken_cycle u hengine
  dsimp only at hbefore hbefore'
  rw [BusRead.value, result_status_valid] at hvalid
  have hstays {x : Nat} (hx : a ≤ x) (hle : x ≤ u) :=
    h.result_stays hstart hx (by omega) hvalid fun y hy hlt => hkeeps y hy (by omega)
  have hresult {x : Nat} (hx : a ≤ x) (hle : x ≤ u) : (trace (step p) r ins a).result =
      some ((trace (step p) r ins x).result_engine_q, (trace (step p) r ins x).result_nonce_q) := by
    rw [← (hstays hx hle).1, State.result, if_pos (hstays hx hle).2]
  have hwords : ((trace (step p) r ins c).result_engine_q, (trace (step p) r ins b).result_nonce_q) =
      ((trace (step p) r ins u).result_engine_q, (trace (step p) r ins u).result_nonce_q) := by
    have hb := Option.some.inj ((hresult hb (by omega)).symm.trans (hresult (by omega) (Nat.le_refl u)))
    have hc := Option.some.inj ((hresult hc (by omega)).symm.trans (hresult (by omega) (Nat.le_refl u)))
    exact Prod.ext (Prod.mk.inj hc).1 (Prod.mk.inj hb).2
  rw [State.acknowledged, if_pos hack, State.result, if_pos (hstays (by omega) (Nat.le_refl u)).2, ← hwords]
  rfl

/-- A job is covered exactly. If nothing is left of it in the end and the overflow
flag is clear then, every share of the job has been acknowledged, each once and
with its lane, and nothing else has; a master that reads a result before it
acknowledges it has read these. -/
theorem job_covered (hreset : IsReset r) (hquiet : (trace (step p) r ins start).Quiescent)
    (hdrained : ∀ c, (trace (step p) r ins start).Drained c)
    (hheld : JobHeld (trace (step p) r ins start) (after ins start)) (h : JobAlone r ins start n) (hpos : 1 ≤ n)
    (hempty : (trace (step p) r ins (start + n)).Emptied)
    (hflag : (trace (step p) r ins (start + n + 1)).overflow_q = false) :
    (acknowledged r ins (start + 1) (start + n)).Nodup ∧
    (∀ q, q ∈ acknowledged r ins (start + 1) (start + n) ↔ Shown p (trace (step p) r ins start).toRegisters.job q) ∧
    ∀ u, u < start + n → (trace (step p) r ins u).result_status_write 0 = true → ∀ q, Polled r ins start u q →
      (trace (step p) r ins u).acknowledged = some q := by
  have hended : LanesEnded (trace (step p) r ins start) (after ins start) n :=
    h.run.ended_of_quiescent ((Reachable.reset hreset).trace ins start) hquiet hpos
      (by rw [trace_after]; exact hempty.quiescent)
  have hpast : 3 ≤ n := by
    have hengines := p.engines_pos
    have hlaunched := hended.launched
    unfold Params.launched at hlaunched
    omega
  have hover (c : Fin p.NUM_CLUSTERS) : ((trace (step p) r ins (start + n)).fifos c).overflow_o = false := by
    rw [trace_succ, step_overflow_flag, Bool.or_eq_false_iff, State.any_overflow, List.any_eq_false] at hflag
    exact Bool.not_eq_true _ ▸ hflag.1 c (List.mem_finRange c)
  have hperm := h.acknowledged_presented hreset hpast hdrained hempty hover
  refine ⟨hperm.nodup_iff.mp (h.presented_nodup hreset hquiet hheld), fun q => ?_, fun u hu hack q hpolled =>
    h.polled_result hu hack hpolled⟩
  rw [← hperm.mem_iff, ← h.mem_presented_iff hreset hquiet hheld hended, List.mem_flatMap]
  exact exists_congr fun c => and_iff_right (List.mem_finRange c)

end Poll

section PolledJob

/-- A bus read. -/
def bus_read {p : Params} (addr : BitVec 12) : Input p := ⟨0, false, 0, 0, false, true, addr.setWidth _, true, true⟩

/-- A master that runs a job of one nonce and polls it once it is done: it reads the
result and acknowledges it, and then reads `STATUS` and `RESULT_STATUS`. -/
def polled_job (u : Nat) : Input deployed :=
  if u = 580 ∨ u = 581 then bus_read ADDR_RESULT_STATUS
  else if u = 586 ∨ u = 587 then bus_read ADDR_RESULT_NONCE
  else if u = 592 ∨ u = 593 then bus_read ADDR_RESULT_ENGINE
  else if u = 600 then bus_write ADDR_RESULT_STATUS 1
  else if u = 610 ∨ u = 611 then bus_read ADDR_STATUS
  else if u = 620 ∨ u = 621 then bus_read ADDR_RESULT_STATUS
  else start_one u

theorem polled_job_quiet {u : Nat} (hlate : 4 < u) (hne : u ≠ 600) : (polled_job u).s_axi_awvalid = false := by
  rw [polled_job, if_neg hne, start_one_quiet hlate]
  split_ifs <;> rfl

theorem polled_job_early {u : Nat} (hu : u < 580) : polled_job u = start_one u := by
  rw [polled_job, if_neg (by omega), if_neg (by omega), if_neg (by omega), if_neg (by omega), if_neg (by omega),
    if_neg (by omega)]

theorem polled_job_silent {u : Nat} (h : ¬ (u = 580 ∨ u = 581 ∨ u = 586 ∨ u = 587 ∨ u = 592 ∨ u = 593 ∨ u = 610 ∨ u = 611 ∨
    u = 620 ∨ u = 621)) : (polled_job u).s_axi_arvalid = false := by
  rw [polled_job, if_neg (by omega), if_neg (by omega), if_neg (by omega)]
  split_ifs
  · rfl
  · omega
  · omega
  · rw [start_one.eq_def]
    split <;> rfl

theorem polled_job_reads {u : Nat} (h : (polled_job u).s_axi_arvalid = true) :
    (polled_job (u + 1)).s_axi_arvalid = true ∧ (polled_job (u + 1)).s_axi_araddr = (polled_job u).s_axi_araddr ∨
      u = 581 ∨ u = 587 ∨ u = 593 ∨ u = 611 ∨ u = 621 := by
  by_cases hread : u = 580 ∨ u = 581 ∨ u = 586 ∨ u = 587 ∨ u = 592 ∨ u = 593 ∨ u = 610 ∨ u = 611 ∨ u = 620 ∨ u = 621
  · obtain rfl | rfl | rfl | rfl | rfl | rfl | rfl | rfl | rfl | rfl := hread
    all_goals first | exact .inl ⟨rfl, rfl⟩ | omega
  · rw [polled_job_silent hread] at h
    cases h

theorem polled_job_started : trace (step deployed) (reset_state deployed) polled_job 6 = started deployed :=
  trace_congr _ _ fun _ hu => polled_job_early (by omega)

/-- Each of its five reads is taken in its second cycle. -/
theorem polled_job_served :
    (trace (step deployed) (reset_state deployed) polled_job 581).s_axi_arready = true ∧
    (trace (step deployed) (reset_state deployed) polled_job 587).s_axi_arready = true ∧
    (trace (step deployed) (reset_state deployed) polled_job 593).s_axi_arready = true ∧
    (trace (step deployed) (reset_state deployed) polled_job 611).s_axi_arready = true ∧
    (trace (step deployed) (reset_state deployed) polled_job 621).s_axi_arready = true := by
  have hrest : (trace (step deployed) (reset_state deployed) polled_job 0).ReadFlags false false false false :=
    reset_reads (reset_state_isReset deployed)
  obtain ⟨hfirst, hrest⟩ := read_passes (a := 580) (reads_rest hrest (by decide) fun u _ _ => polled_job_silent (by omega))
    rfl ⟨rfl, rfl⟩ rfl
  obtain ⟨hsecond, hrest⟩ := read_passes (a := 586) (reads_rest hrest (by decide) fun u _ _ => polled_job_silent (by omega))
    rfl ⟨rfl, rfl⟩ rfl
  obtain ⟨hthird, hrest⟩ := read_passes (a := 592) (reads_rest hrest (by decide) fun u _ _ => polled_job_silent (by omega))
    rfl ⟨rfl, rfl⟩ rfl
  obtain ⟨hfourth, hrest⟩ := read_passes (a := 610) (reads_rest hrest (by decide) fun u _ _ => polled_job_silent (by omega))
    rfl ⟨rfl, rfl⟩ rfl
  obtain ⟨hfifth, -⟩ := read_passes (a := 620) (reads_rest hrest (by decide) fun u _ _ => polled_job_silent (by omega))
    rfl ⟨rfl, rfl⟩ rfl
  exact ⟨hfirst, hsecond, hthird, hfourth, hfifth⟩

theorem polled_job_stable : StableReads (reset_state deployed) polled_job := by
  obtain ⟨hfirst, hsecond, hthird, hfourth, hfifth⟩ := polled_job_served
  constructor
  intro t hvalid hnot
  obtain hkept | rfl | rfl | rfl | rfl | rfl := polled_job_reads hvalid
  · exact hkept
  · rw [hfirst] at hnot
    cases hnot
  · rw [hsecond] at hnot
    cases hnot
  · rw [hthird] at hnot
    cases hnot
  · rw [hfourth] at hnot
    cases hnot
  · rw [hfifth] at hnot
    cases hnot

/-- The acknowledgement is the next write after the START. -/
theorem polled_job_acknowledges :
    (∀ x, 6 < x → x ≤ 601 → (trace (step deployed) (reset_state deployed) polled_job x).write_apply = false) ∧
      (trace (step deployed) (reset_state deployed) polled_job 602).result_status_written 1 ∧
      (trace (step deployed) (reset_state deployed) polled_job 602).wr_stage2_control_we_q = false := by
  have hreach : Reachable (step deployed) IsReset (reset_state deployed) := .reset (reset_state_isReset deployed)
  have hstart : (trace (step deployed) (reset_state deployed) polled_job 6).write_apply = true := by
    rw [polled_job_started]
    exact started_apply
  obtain ⟨hbefore, happly, w, hdata, hcontrol, hw⟩ := next_request (u := 600) hreach hstart (by decide) rfl
    (fun y hy hlt => polled_job_quiet (by omega) (by omega)) rfl
  refine ⟨hbefore, ⟨happly, ?_, ?_⟩, ?_⟩
  · rw [hw]
    rfl
  · rw [hw]
    exact hdata
  · rw [hw]
    exact hcontrol

/-- Its START and its acknowledgement are the only writes that follow. -/
theorem polled_job_writes {x : Nat} (hx : 6 < x) :
    (x ≠ 602 → (trace (step deployed) (reset_state deployed) polled_job x).write_apply = false) ∧
      (trace (step deployed) (reset_state deployed) polled_job x).control_rests := by
  have hreach : Reachable (step deployed) IsReset (reset_state deployed) := .reset (reset_state_isReset deployed)
  obtain ⟨hbefore, hacknowledge, hcontrol⟩ := polled_job_acknowledges
  have happly := hacknowledge.1
  have hother : x ≠ 602 → (trace (step deployed) (reset_state deployed) polled_job x).write_apply = false := by
    intro hne
    by_cases hearly : x ≤ 601
    · exact hbefore x hx hearly
    · obtain ⟨m, rfl⟩ : ∃ m, x = 602 + m := ⟨x - 602, by omega⟩
      have hone := reachable_one_write (hreach.trace polled_job 602)
      rw [← trace_after]
      exact no_request_no_apply hone happly (by omega) fun v hv => polled_job_quiet (by omega) (by omega)
  refine ⟨hother, ?_⟩
  by_cases hack : x = 602
  · rw [hack, State.control_rests, happly, Bool.true_and]
    exact hcontrol
  · rw [State.control_rests, hother hack, Bool.false_and]

theorem polled_job_alone (n : Nat) : JobAlone (reset_state deployed) polled_job 6 n := by
  have hclear : (started deployed).control_write 2 = false := by decide
  refine job_alone_of_rests ?_ ?_ ?_ fun u hpos _ => (polled_job_writes (by omega)).2
  · rw [polled_job_started]
    exact started_deployed_undisturbed.start
  · rw [polled_job_started]
    exact started_deployed_undisturbed.stop 0 (.inl (by decide))
  · rw [polled_job_started]
    exact hclear

theorem polled_job_clean : (trace (step deployed) (reset_state deployed) polled_job 6).Clean := by
  have hreset := reset_state_isReset deployed
  have hrests : ∀ u < 6, (trace (step deployed) (reset_state deployed) start_one u).starts = false ∧
      (trace (step deployed) (reset_state deployed) start_one u).control_write 1 = false := by decide
  rw [polled_job_started]
  exact clean_stays (reset_clean hreset) (.reset hreset) hrests

theorem polled_job_count : (trace (step deployed) (reset_state deployed) polled_job 6).nonce_count_q = 1 := by
  rw [polled_job_started]
  decide

theorem polled_job_single : (trace (step deployed) (reset_state deployed) polled_job 6).nonce_count_q.toNat ≤ 1 := by
  rw [polled_job_count]
  decide

theorem polled_job_held : JobHeld (trace (step deployed) (reset_state deployed) polled_job 6) (after polled_job 6) := by
  have hspares : (started deployed).wr_stage2_midstate_we_q = Vector.replicate 8 false ∧
      (started deployed).wr_stage2_tail_we_q = Vector.replicate 4 false ∧
      (started deployed).wr_stage2_target_we_q = Vector.replicate 8 false ∧
      (started deployed).wr_stage2_nonce_start_we_q = false ∧ (started deployed).wr_stage2_nonce_count_we_q = false := by
    decide
  obtain ⟨hmidstate, htail, htarget, hstart, hcount⟩ := hspares
  have hlaunched : deployed.launched = 42 := rfl
  refine State.SparesJob.held ?_ fun u hpos hu => ?_
  · rw [polled_job_started]
    exact ⟨hmidstate, htail, htarget, hstart, hcount⟩
  · rw [trace_after]
    exact (polled_job_writes (by omega)).1 (by omega)

/-- Only lane 0 has a nonce, and it takes it 528 cycles. -/
theorem polled_job_ended : LanesEnded (trace (step deployed) (reset_state deployed) polled_job 6) (after polled_job 6) 600 := by
  refine ⟨by decide, fun k hquota => ?_⟩
  have htakes := ((polled_job_alone (deployed.lane_start k)).run.lane_takes polled_job_held).2
  have hfirst : k.val < 1 := by
    have hlane := (lane_quota_ne_zero_iff k).mp (htakes ▸ hquota)
    rwa [polled_job_count] at hlane
  obtain rfl : k = first_lane := Fin.ext (show k.val = 0 by omega)
  rw [lane_end, htakes, polled_job_count]
  decide

theorem polled_job_done : (trace (step deployed) (reset_state deployed) polled_job 611).nonce_done_q = true := by
  have hdone := polled_job_ended.done ((Reachable.reset (reset_state_isReset deployed)).trace polled_job 6)
    polled_job_clean.quiescent (polled_job_alone 605).run (by decide) fun u hpos _ => by
      rw [trace_after]
      exact (polled_job_writes (by omega)).2
  rwa [trace_after] at hdone

/-- Every hash meets its target. -/
theorem polled_job_share : JobShare (trace (step deployed) (reset_state deployed) polled_job 6).toRegisters.job 0 := by
  have htarget : (trace (step deployed) (reset_state deployed) polled_job 6).target_q = Vector.replicate 8 0xffffffff := by
    rw [polled_job_started]
    decide
  exact (lane_job_hit (p := deployed) _ 0 0).mp (hit_of_reset_target 0 htarget)

/-- Its result is in the register when it is acknowledged. -/
theorem polled_job_shown : (trace (step deployed) (reset_state deployed) polled_job 602).result_valid_q = true := by
  have hkeeps {x : Nat} (hlow : 6 < x) (hlt : x < 602) :
      (trace (step deployed) (reset_state deployed) polled_job x).result_status_write 0 = false :=
    (no_apply_no_pulse ((polled_job_writes hlow).1 (by omega)) 0).2.1
  have hcycle : deployed.share_cycle 0 = 563 := by decide
  have hshown := (polled_job_alone 615).result_shown (reset_state_isReset deployed) polled_job_clean.quiescent polled_job_held
    (by rw [polled_job_count]; decide) polled_job_share (by rw [hcycle]; decide) fun x hlow hlt =>
      hkeeps hlow (by rw [hcycle] at hlt; omega)
  rw [hcycle] at hshown
  exact ((polled_job_alone 615).result_stays (by decide) (by decide) (by decide) hshown fun x hlow hlt =>
    hkeeps (by omega) hlt).2

theorem polled_job_free : (trace (step deployed) (reset_state deployed) polled_job 621).result_valid_q = false := by
  have hack : (trace (step deployed) (reset_state deployed) polled_job 602).acknowledged ≠ none := by
    have hwritten : (trace (step deployed) (reset_state deployed) polled_job 602).result_status_write 0 = true :=
      polled_job_acknowledges.2.1.bits 0
    rw [State.acknowledged, if_pos hwritten, State.result, if_pos polled_job_shown]
    exact Option.some_ne_none _
  have hfree := (polled_job_alone 615).single_taken (reset_state_isReset deployed) polled_job_clean.quiescent
    polled_job_held polled_job_single polled_job_clean.drained (by decide) (by decide) (by decide) hack
  exact hfree

/-- The job of one nonce leaves nothing behind. -/
theorem polled_job_leaves_nothing : (trace (step deployed) (reset_state deployed) polled_job 621).Emptied := by
  have hreach : Reachable (step deployed) IsReset (trace (step deployed) (reset_state deployed) polled_job 6) :=
    (Reachable.reset (reset_state_isReset deployed)).trace polled_job 6
  have hleft := (polled_job_alone 615).run.emptied (a := 605) hreach polled_job_clean.quiescent polled_job_held (by decide)
    (by decide) (by decide) (by rw [trace_after]; exact polled_job_done) (by rw [trace_after]; exact polled_job_free)
    (by rw [trace_after]; exact (polled_job_writes (by decide)).1 (by decide))
  rwa [trace_after] at hleft

/-- Nor does it overflow a FIFO. -/
theorem polled_job_flags (c : Fin deployed.NUM_CLUSTERS) :
    ((trace (step deployed) (reset_state deployed) polled_job 621).fifos c).overflow_o = false ∧
      ((trace (step deployed) (reset_state deployed) polled_job 621).fifos c).stage1_overflow_q = false ∧
      ((trace (step deployed) (reset_state deployed) polled_job 621).fifos c).stage2_overflow_q = false := by
  have hreset := reset_state_isReset deployed
  have hquiet := polled_job_clean.quiescent
  have hsingle {u : Nat} (hpos : 1 ≤ u) :=
    stages_single rfl rfl ((Reachable.reset hreset).trace polled_job 6) hquiet.engines (polled_job_alone u).run hpos c
  simp only [trace_after] at hsingle
  have hkept := (polled_job_alone 615).single_kept (u := 615) hreset hquiet polled_job_held polled_job_single (by decide)
    (by decide) c
  refine ⟨hkept, (hsingle (u := 615) (by decide)).1, ?_⟩
  obtain ⟨hfirst, hlone⟩ := hsingle (u := 614) (by decide)
  rw [trace_succ, fifo_step]
  exact bitcoin_result_cluster_fifo.step_stage2_single hfirst hlone

/-- The job of one nonce is covered by its poll. -/
theorem polled_job_covered : (0, 0) ∈ acknowledged (reset_state deployed) polled_job 7 621 := by
  have hcount : 0 < (trace (step deployed) (reset_state deployed) polled_job 6).nonce_count_q.toNat := by
    rw [polled_job_count]
    decide
  have hnonce : job_nonce (trace (step deployed) (reset_state deployed) polled_job 6).toRegisters.job 0 = 0 := by
    rw [polled_job_started]
    decide
  have hflag := (polled_job_alone 616).single_flag (reset_state_isReset deployed) polled_job_clean.quiescent polled_job_held
    polled_job_single polled_job_clean (by decide)
  have hcovered := (job_covered (reset_state_isReset deployed) polled_job_clean.quiescent polled_job_clean.drained
    polled_job_held (polled_job_alone 615) (by decide) polled_job_leaves_nothing hflag).2.1 (0, 0)
  exact hcovered.mpr ⟨0, hcount, polled_job_share, by rw [hnonce]; rfl⟩

theorem polled_job_check : FinalCheck (reset_state deployed) polled_job 611 621 := by
  obtain ⟨-, -, -, hstatus, hresult⟩ := polled_job_served
  refine ⟨?_, ?_, by decide, ?_, ?_, fun x hx hlt => (polled_job_writes (by omega)).1 (by omega)⟩
  · exact mem_reads_taken (by rw [State.ar_taken, hstatus]; rfl) (Nat.lt_succ_self _)
  · exact mem_reads_taken (by rw [State.ar_taken, hresult]; rfl) (Nat.lt_succ_self _)
  · rw [BusRead.value, status_done]
    exact polled_job_done
  · rw [BusRead.value, result_status_valid]
    exact polled_job_free

theorem polled_job_emptied : (trace (step deployed) (reset_state deployed) polled_job 621).Emptied :=
  final_check_emptied (reset_state_isReset deployed) polled_job_stable (by decide) polled_job_clean.quiescent polled_job_held
    (polled_job_alone 615).run (by decide) polled_job_check (Nat.le_refl 621) fun x hx hlt => by omega

end PolledJob

section ClearedJob

/-- The master that goes on with a CLEAR. -/
def cleared_job (u : Nat) : Input deployed := if u = 640 then bus_write ADDR_CONTROL 4 else polled_job u

theorem cleared_job_same {t : Nat} (ht : t ≤ 640) :
    trace (step deployed) (reset_state deployed) cleared_job t = trace (step deployed) (reset_state deployed) polled_job t :=
  trace_congr _ _ fun u hu => if_neg (by omega)

theorem cleared_job_clears :
    (∀ x, 602 < x → x ≤ 641 → (trace (step deployed) (reset_state deployed) cleared_job x).write_apply = false) ∧
      (trace (step deployed) (reset_state deployed) cleared_job 642).control_written 4 := by
  have hquiet {x : Nat} (hlow : 600 < x) (hlt : x < 640) : cleared_job x = polled_job x := if_neg (by omega)
  have happly : (trace (step deployed) (reset_state deployed) cleared_job 602).write_apply = true := by
    rw [cleared_job_same (by decide)]
    exact polled_job_acknowledges.2.1.1
  obtain ⟨hrest, hlands, w, hdata, -, hw⟩ := next_request (u := 640) (Reachable.reset (reset_state_isReset deployed)) happly
    (by decide) rfl (fun x hx hlt => by rw [hquiet (by omega) hlt]; exact polled_job_quiet (by omega) (by omega)) rfl
  refine ⟨hrest, hlands, ?_, ?_⟩
  · rw [hw]
    rfl
  · rw [hw]
    exact hdata

/-- After the poll the FIFOs stay as they are. -/
theorem cleared_job_empty {t : Nat} (hlow : 621 ≤ t) (hle : t ≤ 642) :
    (trace (step deployed) (reset_state deployed) cleared_job t).Emptied ∧
      ∀ c, ((trace (step deployed) (reset_state deployed) cleared_job t).fifos c).Empty := by
  have hreach : Reachable (step deployed) IsReset (reset_state deployed) := .reset (reset_state_isReset deployed)
  induction t, hlow using Nat.le_induction with
  | base =>
    rw [cleared_job_same (by decide)]
    have hemptied := polled_job_leaves_nothing
    refine ⟨hemptied, fun c => ?_⟩
    obtain ⟨hkept, hfirst, hsecond⟩ := polled_job_flags c
    exact ⟨hemptied.stages c, hemptied.counts c, hkept, hfirst, hsecond⟩
  | succ t hlow ih =>
    obtain ⟨hemptied, hempty⟩ := ih (by omega)
    have hreached := hreach.trace cleared_job t
    have hrests := no_apply_no_pulse (cleared_job_clears.1 t (by omega) (by omega)) 0
    have hidle (k : Fin deployed.NUM_ENGINES) := (hemptied.quiescent.idle hreached k).result_valid
    rw [trace_succ]
    refine ⟨hemptied.step hreached hrests.2.2, fun c => ?_⟩
    rw [fifo_step]
    exact (hempty c).step (reachable_bounded hreached c) (no_results hidle c)

/-- A result is shown when it is acknowledged, and the CLEAR after it discards
what came before. -/
theorem cleared_job_discards :
    (trace (step deployed) (reset_state deployed) cleared_job 602).result_valid_q = true ∧
      (trace (step deployed) (reset_state deployed) cleared_job 602).result_status_write 0 = true ∧
      DiscardsEarlier (reset_state deployed) cleared_job 642 := by
  have hreset := reset_state_isReset deployed
  have hclears : (trace (step deployed) (reset_state deployed) cleared_job 642).clears = true := by
    rw [State.clears, cleared_job_clears.2.bits 2]
    exact Bool.or_true _
  refine ⟨?_, ?_, (discards_earlier_iff hreset hclears).mpr fun c => ?_⟩
  · rw [cleared_job_same (by decide)]
    exact polled_job_shown
  · rw [cleared_job_same (by decide)]
    exact polled_job_acknowledges.2.1.bits 0
  · have hempty := (cleared_job_empty (by decide) (Nat.le_refl 642)).2 c
    refine ⟨hempty.overflow, hempty.pipeline, ?_⟩
    rw [hempty.count, bitcoin_result_cluster_fifo.pop_eq_zero hempty.count]

end ClearedJob

end scu35.bitcoin_miner_axi
