import Scu35Miner.Rtl.ClusterFifo.Stamps
import Scu35Miner.Rtl.MinerAxi.Bus
import Scu35Miner.Rtl.MinerAxi.Clusters
import Scu35Miner.Rtl.MinerAxi.Lanes

open fips180 clocked

namespace scu35.bitcoin_miner_axi

open bitcoin_result_cluster_fifo (stamps cleared Dropped)

section Run

variable {p : Params} (s : State p) (ins : Nat → Input p)

/-- What the FIFO of cluster `c` samples at each edge of a run. -/
def cluster_input (c : Fin p.NUM_CLUSTERS) (u : Nat) : bitcoin_result_cluster_fifo.Input (p.cluster c) :=
  (trace (step p) s ins u).fifo_input c

/-- The cycle in which an engine raised the result that the result register
holds. -/
def origin : Nat → Option Nat
  | 0 => none
  | t + 1 =>
    match (trace (step p) s ins t).capture with
    | some c => (stamps (p.cluster c) (cluster_input s ins c) t).head?
    | none => origin t

/-- The result that cluster `c` raised in cycle `v` was dropped, and a FIFO has
told so by cycle `w`. -/
def Lost (c : Fin p.NUM_CLUSTERS) (v w : Nat) : Prop :=
  cleared (p.cluster c) (cluster_input s ins c) w ≤ v ∧ v + 3 ≤ w ∧ Dropped (p.cluster c) (cluster_input s ins c) v

/-- No result raised before cycle `t` is presented after it, and no overflow
reads as 1 three cycles later unless a result raised since `t` was lost. -/
def DiscardsEarlier (t : Nat) : Prop :=
  (∀ u, t < u → (trace (step p) s ins u).result_valid_q = true → ∀ v ∈ origin s ins u, t ≤ v) ∧
  ∀ u, t + 3 ≤ u → (trace (step p) s ins u).overflow_q = true → ∃ c v w, t ≤ v ∧ w < u ∧ Lost s ins c v w

/-- Nothing is on its way in a cluster but the result that is being popped. -/
structure State.Drained {p : Params} (s : State p) (c : Fin p.NUM_CLUSTERS) : Prop where
  overflow : (s.fifos c).overflow_o = false
  stages : (s.fifos c).PipelineEmpty
  count : (s.fifos c).count_q.toNat = ((s.fifos c).do_pop (s.fifo_input c)).toNat

end Run

section Capture

variable {p : Params} {s : State p} {ins : Nat → Input p}

theorem capture_valid {c : Fin p.NUM_CLUSTERS} (h : s.capture = some c) :
    s.result_valid_q = false ∧ (s.fifos c).count_q.toNat ≠ 0 := by
  rw [State.capture] at h
  split at h
  next => cases h
  next hfree =>
    have hfound := List.find?_some h
    rw [bitcoin_result_cluster_fifo.State.valid_o, bne_iff_ne] at hfound
    exact ⟨Bool.not_eq_true _ ▸ hfree, fun hzero => hfound (BitVec.eq_of_toNat_eq hzero)⟩

/-- Only empty queues leave a free result register free. -/
theorem capture_none_iff (hfree : s.result_valid_q = false) :
    s.capture = none ↔ ∀ c, (s.fifos c).count_q.toNat = 0 := by
  rw [State.capture, if_neg (by simp [hfree]), State.cluster_hit_idx_next, List.find?_eq_none]
  refine ⟨fun h c => ?_, fun h c _ => ?_⟩
  · have hc := h c (List.mem_finRange c)
    rw [bitcoin_result_cluster_fifo.State.valid_o, bne_iff_ne, ne_eq, not_not] at hc
    rw [hc]
    rfl
  · rw [bitcoin_result_cluster_fifo.State.valid_o, bne_iff_ne, ne_eq, not_not]
    exact BitVec.eq_of_toNat_eq (h c)

/-- The result register is full in the cycle of a pop. -/
theorem pop_result_valid (h : Reachable (step p) IsReset s) {c : Fin p.NUM_CLUSTERS} (hpop : s.cluster_pop_q[c] = true) :
    s.result_valid_q = true := by
  cases h with
  | reset h =>
    rw [h.control, Control.reset, getElem_lane, Vector.getElem_replicate] at hpop
    cases hpop
  | @step s _ i =>
    rw [step_cluster_pop] at hpop
    rw [step_result_valid]
    cases hcapture : s.capture with
    | some k => exact Bool.true_or _
    | none =>
      rw [hcapture, Option.elim_none, getElem_lane, Vector.getElem_replicate] at hpop
      cases hpop

end Capture

section Origin

variable {p : Params} {s : State p} {ins : Nat → Input p} {t : Nat} (hreset : IsReset s)

include hreset

/-- In a run from reset each FIFO is a run of its own. -/
theorem fifo_run (c : Fin p.NUM_CLUSTERS) (t : Nat) : (trace (step p) s ins t).fifos c =
    bitcoin_result_cluster_fifo.run (p.cluster c) (cluster_input s ins c) t := by
  rw [fifo_trace, hreset.fifos]
  rfl

/-- A capture takes over the oldest result of a cluster. -/
theorem capture_stamp {c : Fin p.NUM_CLUSTERS} (h : (trace (step p) s ins t).capture = some c) :
    ∃ v, origin s ins (t + 1) = some v ∧ cleared (p.cluster c) (cluster_input s ins c) t ≤ v ∧ v + 3 ≤ t ∧
      (cluster_input s ins c v).results.head? =
        some (((trace (step p) s ins t).fifos c).engine_id_o, ((trace (step p) s ins t).fifos c).nonce_o) := by
  have hcount := (capture_valid h).2
  have hstaged : bitcoin_result_cluster_fifo.Staged (p.cluster c) (cluster_input s ins c) t :=
    bitcoin_result_cluster_fifo.staged p.depth_pos t
  have hstored : (bitcoin_result_cluster_fifo.run (p.cluster c) (cluster_input s ins c) t).stored.map some = _ :=
    bitcoin_result_cluster_fifo.stored_stamps p.depth_pos t
  have horigin : origin s ins (t + 1) = (stamps (p.cluster c) (cluster_input s ins c) t).head? := by
    rw [origin, h]
  rw [fifo_run hreset] at hcount ⊢
  rw [bitcoin_result_cluster_fifo.stored_cons hstaged.bounded hcount, List.map_cons] at hstored
  cases hstamps : stamps (p.cluster c) (cluster_input s ins c) t with
  | nil =>
    rw [hstamps] at hstored
    cases hstored
  | cons v rest =>
    rw [hstamps, List.map_cons, List.cons.injEq] at hstored
    have hmem : v ∈ stamps (p.cluster c) (cluster_input s ins c) t := by
      rw [hstamps]
      exact List.mem_cons_self
    have hwindow := bitcoin_result_cluster_fifo.stamps_window p.depth_pos hmem
    exact ⟨v, by rw [horigin, hstamps, List.head?_cons], hwindow.1, hwindow.2, hstored.1.symm⟩

/-- The result register holds what the lowest engine of a cluster raised in the
cycle of its origin. -/
theorem result_origin (hvalid : (trace (step p) s ins t).result_valid_q = true) :
    ∃ c v, origin s ins t = some v ∧ v + 4 ≤ t ∧ (cluster_input s ins c v).results.head? =
      some ((trace (step p) s ins t).result_engine_q, (trace (step p) s ins t).result_nonce_q) := by
  induction t with
  | zero =>
    rw [trace_zero, hreset.control] at hvalid
    cases hvalid
  | succ t ih =>
    rw [trace_succ, control_step] at *
    cases hcapture : (trace (step p) s ins t).capture with
    | some c =>
      obtain ⟨v, horigin, _, hpast, hresult⟩ := capture_stamp hreset hcapture
      exact ⟨c, v, horigin, by omega, hresult⟩
    | none =>
      rw [hcapture, Option.isSome_none, Bool.false_or, Bool.and_eq_true] at hvalid
      obtain ⟨c, v, horigin, hpast, hresult⟩ := ih hvalid.2
      have hkept : origin s ins (t + 1) = origin s ins t := by rw [origin, hcapture]
      exact ⟨c, v, hkept.trans horigin, by omega, hresult⟩

end Origin

end scu35.bitcoin_miner_axi
