import Scu35Miner.Rtl.MinerAxi.RangeEnd
import Scu35Miner.Rtl.MinerAxi.Stagger

open fips180 clocked

namespace scu35.bitcoin_miner_axi

open bitcoin_result_cluster_fifo (cleared presented popped)

section Register

variable {p : Params} (s : State p)

/-- The result that the result register holds. -/
def State.result : Option (Word × Word) := if s.result_valid_q then some (s.result_engine_q, s.result_nonce_q) else none

/-- The entry that a cycle takes over from a cluster. -/
def State.taken : Option (Word × Word) := s.capture.map fun c => ((s.fifos c).engine_id_o, (s.fifos c).nonce_o)

/-- The result that a cycle acknowledges. -/
def State.acknowledged : Option (Word × Word) := if s.result_status_write 0 then s.result else none

variable {s} {i : Input p}

/-- What is taken over is held until it is acknowledged. -/
theorem result_step (hstart : s.starts = false) (hclear : s.control_write 2 = false) :
    s.acknowledged.toList ++ (step p s i).result.toList = s.result.toList ++ s.taken.toList := by
  rw [State.result, control_step, State.acknowledged, State.taken]
  dsimp only
  rw [hstart, hclear]
  cases hvalid : s.result_valid_q with
  | true =>
    have hnone : s.capture = none := by rw [State.capture, if_pos hvalid]
    rw [hnone, State.result, hvalid]
    cases s.result_status_write 0 <;> rfl
  | false =>
    rw [State.result, hvalid]
    cases s.capture <;> cases s.result_status_write 0 <;> rfl

end Register

section Taken

variable {p : Params} (r : State p) (ins : Nat → Input p)

/-- The entries taken over from cycle `a` up to cycle `t`. -/
def taken (a t : Nat) : List (Word × Word) := (List.range' a (t - a)).filterMap fun u => (trace (step p) r ins u).taken

/-- The results acknowledged from cycle `a` up to cycle `t`. -/
def acknowledged (a t : Nat) : List (Word × Word) :=
  (List.range' a (t - a)).filterMap fun u => (trace (step p) r ins u).acknowledged

variable {r ins} {a t : Nat}

theorem taken_succ (h : a ≤ t) : taken r ins a (t + 1) = taken r ins a t ++ (trace (step p) r ins t).taken.toList := by
  rw [taken, bitcoin_result_cluster_fifo.range'_succ h, List.filterMap_append]
  cases htaken : (trace (step p) r ins t).taken <;> simp [taken, htaken]

theorem acknowledged_succ (h : a ≤ t) :
    acknowledged r ins a (t + 1) = acknowledged r ins a t ++ (trace (step p) r ins t).acknowledged.toList := by
  rw [acknowledged, bitcoin_result_cluster_fifo.range'_succ h, List.filterMap_append]
  cases htaken : (trace (step p) r ins t).acknowledged <;> simp [acknowledged, htaken]

/-- The acknowledged results and the one that is held are those that were taken
over. -/
theorem acknowledged_taken (hfree : (trace (step p) r ins a).result_valid_q = false) (hle : a ≤ t)
    (hstart : ∀ u, a ≤ u → u < t → (trace (step p) r ins u).starts = false)
    (hclear : ∀ u, a ≤ u → u < t → (trace (step p) r ins u).control_write 2 = false) :
    acknowledged r ins a t ++ (trace (step p) r ins t).result.toList = taken r ins a t := by
  induction t, hle using Nat.le_induction with
  | base =>
    rw [acknowledged, taken, Nat.sub_self, State.result, hfree]
    rfl
  | succ t hle ih =>
    have hlt := Nat.lt_succ_self t
    have hprev := ih (fun u hu hlt => hstart u hu (by omega)) fun u hu hlt => hclear u hu (by omega)
    rw [acknowledged_succ hle, taken_succ hle, ← hprev, List.append_assoc, List.append_assoc, trace_succ,
      result_step (hstart t hle hlt) (hclear t hle hlt)]

end Taken

section Popped

variable {p : Params} {s : State p} {i : Input p} {c : Fin p.NUM_CLUSTERS}

theorem step_pop : ((step p s i).fifo_input c).pop_i = decide (s.capture = some c) := by
  change (step p s i).cluster_pop_q[c] = _
  rw [step_cluster_pop]
  cases s.capture with
  | none =>
    rw [Option.elim_none, getElem_lane, Vector.getElem_replicate]
    rfl
  | some k =>
    rw [Option.elim_some, getElem_lane, Vector.getElem_set, Vector.getElem_replicate]
    simp [Fin.ext_iff]

/-- The oldest entry of a cluster stays the oldest while it is taken over. -/
theorem oldest_kept (hreach : Reachable (step p) IsReset s) (hopen : (s.fifos c).clear_q = false)
    (hcapture : s.capture = some c) :
    ((step p s i).fifos c).count_q.toNat ≠ 0 ∧
      (((step p s i).fifos c).engine_id_o, ((step p s i).fifos c).nonce_o) =
        ((s.fifos c).engine_id_o, (s.fifos c).nonce_o) := by
  have hbounded := reachable_bounded hreach c
  have hbounded' := reachable_bounded (hreach.step i) c
  obtain ⟨hfree, hcount⟩ := capture_valid hcapture
  have hpop : (s.fifos c).do_pop (s.fifo_input c) = false := by
    rw [← Bool.not_eq_true]
    intro hpop
    have hvalid := pop_result_valid hreach (bitcoin_result_cluster_fifo.do_pop_iff.mp hpop).1
    rw [hfree] at hvalid
    cases hvalid
  have hstored := bitcoin_result_cluster_fifo.stored_step (i := s.fifo_input c) hbounded hopen
  have hnext := bitcoin_result_cluster_fifo.count_step (i := s.fifo_input c) hbounded hopen
  rw [hpop, Bool.toNat_false, Nat.sub_zero, ← fifo_step (i := i)] at hnext
  have hcount' : ((step p s i).fifos c).count_q.toNat ≠ 0 := by omega
  rw [bitcoin_result_cluster_fifo.State.popped, hpop, if_neg Bool.false_ne_true, ← fifo_step (i := i),
    bitcoin_result_cluster_fifo.stored_cons hbounded hcount,
    bitcoin_result_cluster_fifo.stored_cons hbounded' hcount'] at hstored
  exact ⟨hcount', (List.cons.inj hstored).1⟩

/-- A cluster pops, a cycle later, what was taken over from it. -/
theorem popped_taken (hreach : Reachable (step p) IsReset s) (hopen : (s.fifos c).clear_q = false) :
    ((step p s i).fifos c).popped ((step p s i).fifo_input c) = if s.capture = some c then s.taken else none := by
  rw [bitcoin_result_cluster_fifo.State.popped, bitcoin_result_cluster_fifo.State.do_pop, step_pop]
  by_cases hcapture : s.capture = some c
  · obtain ⟨hcount, hsame⟩ := oldest_kept (i := i) hreach hopen hcapture
    have hvalid : (((step p s i).fifos c).count_q != 0) = true := by
      rw [bne_iff_ne]
      intro hzero
      rw [hzero] at hcount
      exact hcount rfl
    rw [if_pos hcapture, State.taken, hcapture, hvalid, decide_eq_true rfl, Option.map_some, hsame]
    rfl
  · rw [if_neg hcapture, decide_eq_false hcapture, Bool.false_and, if_neg Bool.false_ne_true]

end Popped

/-- What is filed under one place of all. -/
theorem filterMap_place {n : Nat} {β : Type} (k : Fin n) (b : β) :
    ((List.finRange n).filterMap fun c => if k = c then some b else none) = [b] := by
  have hplace : (List.finRange n).filter (fun c => c = k) = [k] := by
    rw [List.filter_eq, List.count_finRange]
    rfl
  have hmap : ((List.finRange n).filter (fun c => c = k)).map (fun _ => b) = [b] := by
    rw [hplace]
    rfl
  rw [← hmap, ← List.filterMap_eq_map, List.filterMap_filter]
  congr 1
  funext c
  by_cases h : k = c
  · simp [h]
  · simp [h, Ne.symm h]

section Window

variable {p : Params} {r : State p} {ins : Nat → Input p} {start n u : Nat}

/-- A job from cycle `start` on that is neither stopped nor replaced nor cleared in
its first `n` cycles. -/
structure JobAlone (r : State p) (ins : Nat → Input p) (start n : Nat) : Prop where
  run : JobRun (trace (step p) r ins start) (after ins start) n
  clear : ∀ u < n, (trace (step p) r ins (start + u)).control_write 2 = false

/-- A job is alone as long as nothing is written to `CONTROL` after its START. -/
theorem job_alone_of_rests (hstart : (trace (step p) r ins start).starts = true)
    (hstop : (trace (step p) r ins start).control_write 1 = false)
    (hclear : (trace (step p) r ins start).control_write 2 = false)
    (hrests : ∀ u, 1 ≤ u → u < n → (trace (step p) r ins (start + u)).control_rests) : JobAlone r ins start n := by
  refine ⟨⟨hstart, fun u hu => ?_, fun u hpos hu => ?_⟩, fun u hu => ?_⟩
  · rw [trace_after]
    obtain rfl | hpos := Nat.eq_zero_or_pos u
    · exact hstop
    · exact (hrests u hpos hu).bits 1
  · rw [trace_after]
    exact (hrests u hpos hu).no_start
  · obtain rfl | hpos := Nat.eq_zero_or_pos u
    · exact hclear
    · exact (hrests u hpos hu).bits 2

theorem JobAlone.mono {m : Nat} (h : JobAlone r ins start n) (hle : m ≤ n) : JobAlone r ins start m :=
  ⟨h.run.mono hle, fun u hu => h.clear u (by omega)⟩

theorem JobAlone.clears (h : JobAlone r ins start n) : (trace (step p) r ins start).clears = true := by
  rw [State.clears, h.run.start, Bool.true_or]

theorem JobAlone.no_start (h : JobAlone r ins start n) (hpos : 1 ≤ u) (hu : u < n) :
    (trace (step p) r ins (start + u)).starts = false := by
  rw [← trace_after]
  exact h.run.restart u hpos hu

/-- The FIFOs are open from the clear of the START on. -/
theorem JobAlone.open_after (h : JobAlone r ins start n) (hpast : 3 ≤ u) (hle : u ≤ n + 1) (c : Fin p.NUM_CLUSTERS) :
    ((trace (step p) r ins (start + u)).fifos c).clear_q = false := by
  obtain ⟨v, rfl⟩ : ∃ v, u = v + 2 := ⟨u - 2, by omega⟩
  have hstop := h.run.stop v (by omega)
  rw [trace_after] at hstop
  rw [← Nat.add_assoc, trace_succ, clear_step, trace_succ, control_step]
  dsimp only
  rw [hstop, h.no_start (by omega) (by omega), h.clear v (by omega)]
  rfl

variable (hreset : IsReset r)

include hreset

theorem JobAlone.cleared_eq (h : JobAlone r ins start n) (hpast : 3 ≤ u) (hle : u ≤ n + 2) (c : Fin p.NUM_CLUSTERS) :
    cleared (p.cluster c) (cluster_input r ins c) (start + u) = start + 3 := by
  induction u, hpast using Nat.le_induction with
  | base =>
    have hclear := fifo_clear h.clears c
    rw [fifo_run hreset] at hclear
    exact bitcoin_result_cluster_fifo.cleared_clear hclear
  | succ u hpast ih =>
    have hopen := h.open_after (u := u) hpast (by omega) c
    rw [fifo_run hreset] at hopen
    rw [← Nat.add_assoc, bitcoin_result_cluster_fifo.cleared_open hopen]
    exact ih (by omega)

/-- What is taken over during a job is what its clusters pop, a cycle later. -/
theorem JobAlone.taken_popped (h : JobAlone r ins start n) (hdrained : ∀ c, (trace (step p) r ins start).Drained c)
    (hpast : 3 ≤ u) (hle : u ≤ n + 1) :
    ((List.finRange p.NUM_CLUSTERS).flatMap fun c : Fin p.NUM_CLUSTERS =>
      popped (p.cluster c) (cluster_input r ins c) (start + 3) (start + u + 1)).Perm (taken r ins (start + 1) (start + u)) := by
  have hnone {v : Nat} (hle : v ≤ 2) : (trace (step p) r ins (start + v)).capture = none :=
    drained_captures_nothing hreset h.clears hdrained (Nat.le_add_right _ _) (by omega)
  have hpopped (c : Fin p.NUM_CLUSTERS) (v : Nat) (hv : 3 ≤ v) :
      popped (p.cluster c) (cluster_input r ins c) (start + 3) (start + v + 1) =
        popped (p.cluster c) (cluster_input r ins c) (start + 3) (start + v) ++
          (((trace (step p) r ins (start + v)).fifos c).popped ((trace (step p) r ins (start + v)).fifo_input c)).toList := by
    rw [bitcoin_result_cluster_fifo.popped_succ (by omega), fifo_run hreset]
    rfl
  induction u, hpast using Nat.le_induction with
  | base =>
    have hempty (c : Fin p.NUM_CLUSTERS) :
        popped (p.cluster c) (cluster_input r ins c) (start + 3) (start + 3 + 1) = [] := by
      rw [hpopped c 3 (Nat.le_refl 3), popped, Nat.sub_self, show start + 3 = start + 2 + 1 from rfl, trace_succ,
        bitcoin_result_cluster_fifo.State.popped, bitcoin_result_cluster_fifo.State.do_pop, step_pop, hnone (Nat.le_refl 2)]
      rfl
    have htaken : taken r ins (start + 1) (start + 3) = [] := by
      rw [show start + 3 = start + 1 + 1 + 1 from rfl, taken_succ (by omega), taken_succ (by omega), taken, Nat.sub_self,
        State.taken, State.taken, hnone (v := 1) (by omega), show start + 1 + 1 = start + 2 from rfl, hnone (Nat.le_refl 2)]
      rfl
    simp only [hempty, htaken]
    simp
  | succ u hpast ih =>
    have hprev := ih (by omega)
    have hreach : Reachable (step p) IsReset (trace (step p) r ins (start + u)) :=
      (Reachable.reset hreset).trace ins (start + u)
    have hgrows (c : Fin p.NUM_CLUSTERS) :
        popped (p.cluster c) (cluster_input r ins c) (start + 3) (start + (u + 1) + 1) =
          popped (p.cluster c) (cluster_input r ins c) (start + 3) (start + u + 1) ++
            (if (trace (step p) r ins (start + u)).capture = some c then (trace (step p) r ins (start + u)).taken
              else none).toList := by
      rw [hpopped c (u + 1) (by omega), ← Nat.add_assoc, trace_succ,
        popped_taken hreach (h.open_after hpast (by omega) c)]
    simp only [hgrows]
    rw [← Nat.add_assoc, taken_succ (by omega)]
    refine (List.flatMap_append_perm _ _ _).symm.trans (hprev.append (.of_eq ?_))
    rw [← List.filterMap_eq_flatMap_toList]
    cases hcapture : (trace (step p) r ins (start + u)).capture with
    | none => simp [State.taken, hcapture]
    | some k =>
      rw [State.taken, hcapture, Option.map_some]
      simp only [Option.some.injEq]
      exact filterMap_place k _

end Window

section Presented

variable {p : Params} {s : State p} {ins : Nat → Input p} {n : Nat}

/-- A job at rest has ended. -/
theorem JobRun.ended_of_quiescent (hreach : Reachable (step p) IsReset s) (hquiet : s.Quiescent) (h : JobRun s ins n)
    (hpos : 1 ≤ n) (hrest : (trace (step p) s ins n).Quiescent) : LanesEnded s ins n := by
  have hlaunched : p.launched ≤ n := by
    by_contra hearly
    exact loading_at h.start hpos (Nat.lt_of_not_le hearly) h.stop hrest.load
  refine ⟨hlaunched, fun k hquota => ?_⟩
  have hstarted : p.lane_start k ≠ n := by
    intro hstarts
    have hpulse := (h.engine_start_iff hpos k).mpr ⟨hstarts.symm, hquota⟩
    rw [hrest.not_pending k] at hpulse
    cases hpulse
  have hle := lane_start_le k
  by_contra hopen
  have hbusy := (h.lane_busy (hquiet.idle hreach k) (hquiet.not_pending k) ⟨by omega, by omega⟩).1
  rw [hrest.engines k] at hbusy
  cases hbusy

theorem cluster_lt {k : Nat} (hk : k < p.NUM_ENGINES) : k / p.CLUSTER_SIZE < p.NUM_CLUSTERS := by
  have hsize := p.cluster_pos
  have hmul := Nat.div_mul_le_self k p.CLUSTER_SIZE
  rw [Params.NUM_CLUSTERS, ← Nat.succ_le_iff, Nat.le_div_iff_mul_le hsize, Nat.succ_mul]
  omega

/-- The shares of an ended job were raised while it ran. -/
theorem LanesEnded.share_cycle_lt (h : LanesEnded s ins n) (hrun : JobRun s ins n) (hheld : JobHeld s ins) {i : Nat}
    (hi : i < s.nonce_count_q.toNat) : 3 ≤ p.share_cycle i ∧ p.share_cycle i < n := by
  have hengines := p.engines_lt
  have hk := Nat.mod_lt i p.engines_pos
  have hlane := hrun.mono ((lane_start_le ⟨_, hk⟩).trans h.launched)
  have hquota := (hlane.lane_takes hheld).2
  have hplace : i / p.NUM_ENGINES < (quota s ins (i % p.NUM_ENGINES)).toNat := by
    rw [hquota, lt_engine_work_count_iff s.nonce_count_q (by omega), Nat.mod_add_div]
    exact hi
  have hended := h.ended ⟨_, hk⟩ (quota_pos_iff.mp (Nat.zero_lt_of_lt hplace))
  have hle : p.engine.period * (i / p.NUM_ENGINES + 1) ≤ p.engine.period * (quota s ins (i % p.NUM_ENGINES)).toNat :=
    Nat.mul_le_mul_left _ hplace
  have hfirst : 3 ≤ p.lane_start (i % p.NUM_ENGINES) := Nat.le_add_left _ _
  unfold lane_end at hended
  unfold Params.share_cycle
  dsimp only at hended
  omega

theorem job_nonce_injective {job : bitcoin_hash_engine.Job} {i j : Nat} (hi : i < job.nonce_count.toNat)
    (hj : j < job.nonce_count.toNat) (h : job_nonce job i = job_nonce job j) : i = j := by
  have hcount := job.nonce_count.isLt
  exact offset_injective (by omega) (by omega) h

end Presented

section Covered

variable {p : Params} {r : State p} {ins : Nat → Input p} {start n : Nat}

/-- A share of a job as the result register shows it. -/
def Shown (p : Params) (job : bitcoin_hash_engine.Job) (q : Word × Word) : Prop :=
  ∃ i < job.nonce_count.toNat, JobShare job i ∧ q = (BitVec.ofNat 32 (i % p.NUM_ENGINES), job_nonce job i)

variable (hreset : IsReset r) (hquiet : (trace (step p) r ins start).Quiescent)
  (hheld : JobHeld (trace (step p) r ins start) (after ins start))

include hreset hquiet hheld

theorem JobAlone.results_iff (h : JobAlone r ins start n) {c : Fin p.NUM_CLUSTERS} {v : Nat} (hv : v ≤ n) {q : Word × Word} :
    q ∈ (cluster_input r ins c (start + v)).results ↔
      ∃ i < (trace (step p) r ins start).nonce_count_q.toNat, JobShare (trace (step p) r ins start).toRegisters.job i ∧
        q = (BitVec.ofNat 32 (i % p.NUM_ENGINES), job_nonce (trace (step p) r ins start).toRegisters.job i) ∧
        i % p.NUM_ENGINES / p.CLUSTER_SIZE = c.val ∧ v = p.share_cycle i := by
  obtain ⟨id, x⟩ := q
  have hpresents : (id, x) ∈ ((trace (step p) (trace (step p) r ins start) (after ins start) v).fifo_input c).results ↔ _ :=
    (h.run.mono hv).presents_iff hheld ((Reachable.reset hreset).trace ins start) hquiet
  rw [trace_after] at hpresents
  simp only [Prod.mk.injEq, and_assoc]
  exact hpresents

/-- The results of an ended job are its shares. -/
theorem JobAlone.mem_presented_iff (h : JobAlone r ins start n)
    (hended : LanesEnded (trace (step p) r ins start) (after ins start) n) {q : Word × Word} :
    (∃ c : Fin p.NUM_CLUSTERS, q ∈ presented (p.cluster c) (cluster_input r ins c) (start + 3) (start + n)) ↔
      Shown p (trace (step p) r ins start).toRegisters.job q := by
  simp only [presented, List.mem_flatMap, List.mem_range'_1]
  constructor
  · rintro ⟨c, u, hu, hmem⟩
    obtain ⟨v, rfl⟩ : ∃ v, u = start + v := ⟨u - start, by omega⟩
    obtain ⟨i, hi, hshare, hq, -⟩ := (h.results_iff hreset hquiet hheld (by omega)).mp hmem
    exact ⟨i, hi, hshare, hq⟩
  · rintro ⟨i, hi, hshare, hq⟩
    obtain ⟨hge, hlt⟩ := hended.share_cycle_lt h.run hheld hi
    refine ⟨⟨_, cluster_lt (Nat.mod_lt i p.engines_pos)⟩, start + p.share_cycle i, by omega, ?_⟩
    exact (h.results_iff hreset hquiet hheld (by omega)).mpr ⟨i, hi, hshare, hq, rfl, rfl⟩

/-- A result is presented by one cluster in one cycle. -/
theorem JobAlone.results_unique (h : JobAlone r ins start n) {c c' : Fin p.NUM_CLUSTERS} {v v' : Nat} (hv : v ≤ n)
    (hv' : v' ≤ n) {q : Word × Word} (hq : q ∈ (cluster_input r ins c (start + v)).results)
    (hq' : q ∈ (cluster_input r ins c' (start + v')).results) : c = c' ∧ v = v' := by
  obtain ⟨i, hi, -, rfl, hc, rfl⟩ := (h.results_iff hreset hquiet hheld hv).mp hq
  obtain ⟨j, hj, -, heq, hc', rfl⟩ := (h.results_iff hreset hquiet hheld hv').mp hq'
  obtain rfl := job_nonce_injective hi hj (Prod.mk.inj heq).2
  exact ⟨Fin.ext (hc.symm.trans hc'), rfl⟩

theorem JobAlone.presented_nodup (h : JobAlone r ins start n) :
    ((List.finRange p.NUM_CLUSTERS).flatMap fun c : Fin p.NUM_CLUSTERS =>
      presented (p.cluster c) (cluster_input r ins c) (start + 3) (start + n)).Nodup := by
  have hcycle {c : Fin p.NUM_CLUSTERS} {q : Word × Word}
      (hq : q ∈ presented (p.cluster c) (cluster_input r ins c) (start + 3) (start + n)) :
      ∃ v ≤ n, q ∈ (cluster_input r ins c (start + v)).results := by
    obtain ⟨u, hu, hmem⟩ := List.mem_flatMap.mp hq
    rw [List.mem_range'_1] at hu
    exact ⟨u - start, by omega, by rwa [show start + (u - start) = u by omega]⟩
  refine List.nodup_flatMap.mpr ⟨fun c _ => List.nodup_flatMap.mpr ⟨fun u _ => results_nodup, ?_⟩, ?_⟩
  · refine (List.nodup_range' 1).pairwise_of_forall_ne fun u hu u' hu' hne => ?_
    rw [List.mem_range'_1] at hu hu'
    obtain ⟨v, rfl⟩ : ∃ v, u = start + v := ⟨u - start, by omega⟩
    obtain ⟨v', rfl⟩ : ∃ v', u' = start + v' := ⟨u' - start, by omega⟩
    intro q hq hq'
    have hsame := (h.results_unique hreset hquiet hheld (by omega) (by omega) hq hq').2
    omega
  · refine (List.nodup_finRange _).pairwise_of_forall_ne fun c _ c' _ hne q hq hq' => ?_
    obtain ⟨v, hv, hmem⟩ := hcycle hq
    obtain ⟨v', hv', hmem'⟩ := hcycle hq'
    exact hne (h.results_unique hreset hquiet hheld hv hv' hmem hmem').1

omit hquiet hheld in
theorem JobAlone.acknowledged_held (h : JobAlone r ins start n) (hdrained : ∀ c, (trace (step p) r ins start).Drained c)
    (hpos : 1 ≤ n) : acknowledged r ins (start + 1) (start + n) ++ (trace (step p) r ins (start + n)).result.toList =
      taken r ins (start + 1) (start + n) := by
  have hfree : (trace (step p) r ins (start + 1)).result_valid_q = false :=
    result_free h.clears (Nat.lt_succ_self start) fun v hge hlt =>
      drained_captures_nothing hreset h.clears hdrained hge (by omega)
  refine acknowledged_taken hfree (by omega) (fun u hu hlt => ?_) fun u hu hlt => ?_
  · obtain ⟨v, rfl⟩ : ∃ v, u = start + v := ⟨u - start, by omega⟩
    exact h.no_start (by omega) (by omega)
  · obtain ⟨v, rfl⟩ : ∃ v, u = start + v := ⟨u - start, by omega⟩
    exact h.clear v (by omega)

omit hquiet hheld in
/-- If nothing is left of a job and no FIFO shows a loss, what was acknowledged is
what was presented. -/
theorem JobAlone.acknowledged_presented (h : JobAlone r ins start n) (hpast : 3 ≤ n)
    (hdrained : ∀ c, (trace (step p) r ins start).Drained c) (hempty : (trace (step p) r ins (start + n)).Emptied)
    (hover : ∀ c, ((trace (step p) r ins (start + n)).fifos c).overflow_o = false) :
    ((List.finRange p.NUM_CLUSTERS).flatMap fun c : Fin p.NUM_CLUSTERS =>
      presented (p.cluster c) (cluster_input r ins c) (start + 3) (start + n)).Perm
        (acknowledged r ins (start + 1) (start + n)) := by
  have htaken : acknowledged r ins (start + 1) (start + n) = taken r ins (start + 1) (start + n) := by
    rw [← h.acknowledged_held hreset hdrained (by omega), State.result, hempty.result_valid, if_neg Bool.false_ne_true,
      Option.toList_none, List.append_nil]
  have hpopped (c : Fin p.NUM_CLUSTERS) : presented (p.cluster c) (cluster_input r ins c) (start + 3) (start + n) =
      popped (p.cluster c) (cluster_input r ins c) (start + 3) (start + n + 1) := by
    have hstages := hempty.stages c
    have hcount := hempty.counts c
    have hnone := hover c
    rw [fifo_run hreset] at hstages hcount hnone
    have hstaged : bitcoin_result_cluster_fifo.Staged (p.cluster c) (cluster_input r ins c) (start + n) :=
      bitcoin_result_cluster_fifo.staged p.depth_pos _
    have hexact := (bitcoin_result_cluster_fifo.accounted p.depth_pos (start + n)).exact hnone
    have hrest := bitcoin_result_cluster_fifo.presented_pipeline_empty hstaged hstages
    rw [h.cleared_eq hreset hpast (by omega) c] at hexact hrest
    rw [← hrest, ← hexact, bitcoin_result_cluster_fifo.popped_succ (by omega), bitcoin_result_cluster_fifo.State.popped,
      bitcoin_result_cluster_fifo.State.stored, hcount]
    have hkept := bitcoin_result_cluster_fifo.pop_eq_zero (i := cluster_input r ins c (start + n)) hcount
    rw [Bool.toNat_eq_zero] at hkept
    rw [hkept]
    rfl
  simp only [hpopped]
  rw [htaken]
  exact h.taken_popped hreset hdrained hpast (Nat.le_succ n)

end Covered

section Single

variable {p : Params} {r : State p} {ins : Nat → Input p} {start n u : Nat}
variable (hreset : IsReset r) (hquiet : (trace (step p) r ins start).Quiescent)
  (hheld : JobHeld (trace (step p) r ins start) (after ins start))

include hreset hquiet hheld

/-- A job presents no more results than it has nonces. -/
theorem JobAlone.presented_le (h : JobAlone r ins start n) :
    ((List.finRange p.NUM_CLUSTERS).flatMap fun c : Fin p.NUM_CLUSTERS =>
      presented (p.cluster c) (cluster_input r ins c) (start + 3) (start + n)).length ≤
        (trace (step p) r ins start).nonce_count_q.toNat := by
  have hsub : ((List.finRange p.NUM_CLUSTERS).flatMap fun c : Fin p.NUM_CLUSTERS =>
      presented (p.cluster c) (cluster_input r ins c) (start + 3) (start + n)) ⊆
      (List.range (trace (step p) r ins start).nonce_count_q.toNat).map fun i =>
        (BitVec.ofNat 32 (i % p.NUM_ENGINES), job_nonce (trace (step p) r ins start).toRegisters.job i) := by
    intro q hq
    obtain ⟨c, -, hpresented⟩ := List.mem_flatMap.mp hq
    obtain ⟨u, hu, hmem⟩ := List.mem_flatMap.mp hpresented
    rw [List.mem_range'_1] at hu
    obtain ⟨v, rfl⟩ : ∃ v, u = start + v := ⟨u - start, by omega⟩
    obtain ⟨i, hi, -, rfl, -⟩ := (h.results_iff hreset hquiet hheld (by omega)).mp hmem
    exact List.mem_map.mpr ⟨i, List.mem_range.mpr hi, rfl⟩
  have hle := (List.subperm_of_subset (h.presented_nodup hreset hquiet hheld) hsub).length_le
  rwa [List.length_map, List.length_range] at hle

/-- A job of one nonce overflows no FIFO. -/
theorem JobAlone.single_kept (h : JobAlone r ins start n) (hone : (trace (step p) r ins start).nonce_count_q.toNat ≤ 1)
    (hpast : 3 ≤ u) (hle : u ≤ n + 1) (c : Fin p.NUM_CLUSTERS) :
    ((trace (step p) r ins (start + u)).fifos c).overflow_o = false := by
  have hpart : (presented (p.cluster c) (cluster_input r ins c) (start + 3) (start + n)).length ≤ 1 := by
    have hplace := List.sublist_flatten_of_mem (List.mem_map.mpr ⟨c, List.mem_finRange c, rfl⟩ :
      presented (p.cluster c) (cluster_input r ins c) (start + 3) (start + n) ∈
        (List.finRange p.NUM_CLUSTERS).map fun c : Fin p.NUM_CLUSTERS =>
          presented (p.cluster c) (cluster_input r ins c) (start + 3) (start + n))
    rw [← List.flatMap_def] at hplace
    exact hplace.length_le.trans ((h.presented_le hreset hquiet hheld).trans hone)
  have haccounted : bitcoin_result_cluster_fifo.Accounted (p.cluster c) (cluster_input r ins c) (start + u) :=
    bitcoin_result_cluster_fifo.accounted p.depth_pos (start + u)
  rw [fifo_run hreset]
  refine haccounted.single_kept p.depth_pos ?_
  rw [h.cleared_eq hreset hpast (by omega) c]
  exact (bitcoin_result_cluster_fifo.presented_mono (by omega)).trans hpart

/-- Until its lanes start, a job leaves empty FIFOs empty. -/
theorem JobAlone.early_empty (h : JobAlone r ins start n) (hclean : (trace (step p) r ins start).Clean) (hu : u ≤ 2)
    (hle : u ≤ n) (c : Fin p.NUM_CLUSTERS) : ((trace (step p) r ins (start + u)).fifos c).Empty := by
  induction u with
  | zero => exact hclean.fifos c
  | succ u ih =>
    have hnone : (cluster_input r ins c (start + u)).results = [] := by
      rw [List.eq_nil_iff_forall_not_mem]
      intro q hq
      obtain ⟨i, -, -, -, -, hcycle⟩ := (h.results_iff hreset hquiet hheld (by omega)).mp hq
      have hfirst : 3 ≤ p.lane_start (i % p.NUM_ENGINES) := Nat.le_add_left _ _
      unfold Params.share_cycle at hcycle
      omega
    rw [← Nat.add_assoc, trace_succ, fifo_step]
    exact (ih (by omega) (by omega)).step (reachable_bounded ((Reachable.reset hreset).trace ins (start + u)) c) hnone

theorem JobAlone.single_flag (h : JobAlone r ins start n) (hone : (trace (step p) r ins start).nonce_count_q.toNat ≤ 1)
    (hclean : (trace (step p) r ins start).Clean) (hpos : 1 ≤ n) : (trace (step p) r ins (start + n)).overflow_q = false := by
  rw [← Bool.not_eq_true, ← trace_after]
  intro hover
  obtain ⟨c, u, hu, hraised⟩ := h.run.overflow_raised hpos hover
  rw [trace_after] at hraised
  have hkept : ((trace (step p) r ins (start + u)).fifos c).overflow_o = false := by
    by_cases hearly : u ≤ 2
    · exact (h.early_empty hreset hquiet hheld hclean hearly (by omega) c).overflow
    · exact h.single_kept hreset hquiet hheld hone (by omega) (by omega) c
  rw [hkept] at hraised
  cases hraised

/-- Nothing of a job of one nonce is left in the result register once a result is
acknowledged. -/
theorem JobAlone.single_taken (h : JobAlone r ins start n) (hone : (trace (step p) r ins start).nonce_count_q.toNat ≤ 1)
    (hdrained : ∀ c, (trace (step p) r ins start).Drained c) (hpast : 3 ≤ n) (hlate : start < u) (hu : u < start + n)
    (hack : (trace (step p) r ins u).acknowledged ≠ none) : (trace (step p) r ins (start + n)).result_valid_q = false := by
  have hpopped : ((List.finRange p.NUM_CLUSTERS).flatMap fun c : Fin p.NUM_CLUSTERS =>
      popped (p.cluster c) (cluster_input r ins c) (start + 3) (start + n + 1)).length ≤ 1 := by
    refine Nat.le_trans ?_ ((h.presented_le hreset hquiet hheld).trans hone)
    rw [List.length_flatMap, List.length_flatMap]
    refine List.sum_le_sum fun c _ => ?_
    have haccounted : bitcoin_result_cluster_fifo.Accounted (p.cluster c) (cluster_input r ins c) (start + n + 1) :=
      bitcoin_result_cluster_fifo.accounted p.depth_pos (start + n + 1)
    have hkept := h.single_kept hreset hquiet hheld hone (u := n + 1) (by omega) (Nat.le_refl _) c
    rw [fifo_run hreset] at hkept
    have hexact := congrArg List.length (haccounted.exact hkept)
    rw [Nat.add_assoc start, h.cleared_eq hreset (by omega) (by omega) c, List.length_append, ← Nat.add_assoc] at hexact
    have hmono : (presented (p.cluster c) (cluster_input r ins c) (start + 3) (start + n + 1 - 2)).length ≤
        (presented (p.cluster c) (cluster_input r ins c) (start + 3) (start + n)).length :=
      bitcoin_result_cluster_fifo.presented_mono (by omega)
    omega
  rw [(h.taken_popped hreset hdrained hpast (Nat.le_succ n)).length_eq, ← h.acknowledged_held hreset hdrained (by omega),
    List.length_append] at hpopped
  have hcounted : 1 ≤ (acknowledged r ins (start + 1) (start + n)).length := by
    obtain ⟨q, hq⟩ := Option.ne_none_iff_exists'.mp hack
    exact List.length_pos_of_mem (List.mem_filterMap.mpr ⟨u, List.mem_range'_1.mpr (by omega), hq⟩)
  have hnone : (trace (step p) r ins (start + n)).result = none := by
    rw [← Option.toList_eq_nil_iff, ← List.length_eq_zero_iff]
    omega
  cases hvalid : (trace (step p) r ins (start + n)).result_valid_q with
  | false => rfl
  | true =>
    rw [State.result, if_pos hvalid] at hnone
    cases hnone

end Single

end scu35.bitcoin_miner_axi
