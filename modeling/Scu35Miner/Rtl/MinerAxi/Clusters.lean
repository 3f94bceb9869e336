import Scu35Miner.Rtl.ClusterFifo.History
import Scu35Miner.Rtl.MinerAxi.Flags

open fips180 clocked

namespace scu35.bitcoin_miner_axi

section Clusters

variable {p : Params} {s : State p} {i : Input p} {c : Fin p.NUM_CLUSTERS}

theorem fifo_step : (step p s i).fifos c = bitcoin_result_cluster_fifo.step (p.cluster c) (s.fifos c) (s.fifo_input c) := rfl

theorem reachable_bounded (h : Reachable (step p) IsReset s) (c : Fin p.NUM_CLUSTERS) : (s.fifos c).Bounded := by
  refine Reachable.invariant (P := fun s : State p => (s.fifos c).Bounded) ?_ ?_ h
  · intro s hreset
    rw [hreset.fifos]
    exact ⟨p.depth_pos, p.depth_pos, Nat.zero_le _, Nat.zero_mod _⟩
  · intro s i hbounded
    exact hbounded.step

/-- A cluster sees the pulse of the engine at each of its places. -/
theorem cluster_valid_eq (l : Fin p.CLUSTER_SIZE) : (s.fifo_input c).engine_valid_i[l] =
    match cluster_engine c l with
    | some k => s.engines[k].result_valid_o
    | none => false := Vector.getElem_ofFn l.isLt

theorem cluster_valid {l : Fin p.CLUSTER_SIZE} (h : (s.fifo_input c).engine_valid_i[l] = true) :
    ∃ k : Fin p.NUM_ENGINES, k.val = c * p.CLUSTER_SIZE + l ∧ s.engines[k].result_valid_o = true := by
  rw [cluster_valid_eq, cluster_engine] at h
  split at h
  next k hk =>
    split at hk
    next hlt =>
      cases hk
      exact ⟨_, rfl, h⟩
    next => cases hk
  next => cases h

theorem results_of_valid {l : Fin p.CLUSTER_SIZE} {k : Fin p.NUM_ENGINES} (hplace : cluster_engine c l = some k)
    (hvalid : s.engines[k].result_valid_o = true) : (s.fifo_input c).results ≠ [] := by
  have hseen : (s.fifo_input c).engine_valid_i[l] = true := by
    rw [cluster_valid_eq, hplace]
    exact hvalid
  rw [← List.length_pos_iff, bitcoin_result_cluster_fifo.Input.results, bitcoin_result_cluster_fifo.length_results,
    List.countP_pos_iff]
  exact ⟨l, List.mem_finRange l, hseen⟩

/-- The clear that the FIFOs take at the next edge. -/
theorem clear_step : ((step p s i).fifos c).clear_q = (s.stop_pulse_q || s.start_pulse_q || s.clear_results_q) := by
  rw [fifo_step, bitcoin_result_cluster_fifo.step]
  split
  · rfl
  · rfl

end Clusters

/-- A test that no two indices pass counts at most one. -/
theorem countP_le_one {n : Nat} {f : Fin n → Bool} (h : ∀ j k, j < k → ¬ (f j = true ∧ f k = true)) :
    (List.finRange n).countP f ≤ 1 := by
  rw [List.countP_eq_length_filter]
  have hsorted := ((List.pairwise_lt_finRange n).filter f)
  have hmem (k : Fin n) (hk : k ∈ (List.finRange n).filter f) : f k = true := (List.mem_filter.mp hk).2
  match hlist : (List.finRange n).filter f with
  | [] => simp
  | [_] => simp
  | j :: k :: rest =>
    rw [hlist] at hsorted hmem
    have hlt : j < k := (List.pairwise_cons.mp hsorted).1 k (by simp)
    exact absurd ⟨hmem j (by simp), hmem k (by simp)⟩ (h j k hlt)

end scu35.bitcoin_miner_axi
