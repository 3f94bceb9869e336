import Scu35Miner.Rtl.ClusterFifo.History

open fips180 clocked

namespace scu35.bitcoin_result_cluster_fifo

/-- The edges at which the results in the queue were presented, oldest first. -/
def stamps (p : Params) (ins : Nat → Input p) : Nat → List Nat
  | 0 => []
  | t + 1 =>
    if (run p ins t).clear_q then []
    else (stamps p ins t).drop ((run p ins t).do_pop (ins t)).toNat ++ if (run p ins t).do_push (ins t) then [t - 2] else []

section Stamps

variable {p : Params} {ins : Nat → Input p}

theorem stamps_clear {t : Nat} (hclear : (run p ins t).clear_q = true) : stamps p ins (t + 1) = [] := by
  rw [stamps, if_pos hclear]

theorem stamps_open {t : Nat} (hclear : (run p ins t).clear_q = false) :
    stamps p ins (t + 1) = (stamps p ins t).drop ((run p ins t).do_pop (ins t)).toNat ++
      if (run p ins t).do_push (ins t) then [t - 2] else [] := by
  rw [stamps, if_neg (by simp [hclear])]

/-- A result that is pushed was presented two edges earlier, by the lowest
engine. -/
theorem pushed_presented {t : Nat} (hstaged : Staged p ins t) (hpush : (run p ins t).do_push (ins t) = true) :
    cleared p ins t + 2 ≤ t ∧ (run p ins t).arriving = (ins (t - 2)).results.head? := by
  have harriving := hstaged.arriving
  have hvalid := arriving_valid (do_push_iff.mp hpush).1
  rw [arrived] at harriving
  split at harriving
  next hpast => exact ⟨hpast, harriving⟩
  next =>
    rw [hvalid] at harriving
    cases harriving

/-- The stamps of the queue: the result that each of them names is the one in
its place. -/
theorem stored_stamps (hdepth : 1 ≤ p.FIFO_DEPTH) (t : Nat) :
    (run p ins t).stored.map some = (stamps p ins t).map fun u => (ins u).results.head? := by
  induction t with
  | zero => rfl
  | succ t ih =>
    have hstaged : Staged p ins t := staged hdepth t
    cases hclear : (run p ins t).clear_q with
    | true =>
      rw [run_succ, (step_clear hclear).2.2.1, stamps_clear hclear]
      rfl
    | false =>
      have hflow := congrArg (List.drop ((run p ins t).do_pop (ins t)).toNat)
        (congrArg (List.map some) (stored_step hstaged.bounded hclear (i := ins t)))
      have hpopped : ((run p ins t).popped (ins t)).toList.length = ((run p ins t).do_pop (ins t)).toNat := by
        rw [State.popped]
        cases (run p ins t).do_pop (ins t) <;> rfl
      have hle : ((run p ins t).do_pop (ins t)).toNat ≤ ((run p ins t).stored.map some).length := by
        rw [List.length_map, State.stored, ring.length_contents]
        exact pop_le_count
      rw [List.map_append, List.map_append, ← hpopped, ← List.length_map (f := some), List.drop_left, List.length_map, hpopped,
        List.drop_append_of_le_length hle, ih, ← List.map_drop] at hflow
      rw [run_succ, hflow, stamps_open hclear, List.map_append]
      congr 1
      rw [State.pushed]
      cases hpush : (run p ins t).do_push (ins t) with
      | true =>
        obtain ⟨_, harriving⟩ := pushed_presented hstaged hpush
        rw [if_pos rfl, if_pos rfl, List.map_singleton, ← harriving, arriving_valid (do_push_iff.mp hpush).1]
        rfl
      | false => rfl

/-- The results in the queue were presented since the last clear, and took two
edges to reach it. -/
theorem stamps_window (hdepth : 1 ≤ p.FIFO_DEPTH) {t u : Nat} (hu : u ∈ stamps p ins t) :
    cleared p ins t ≤ u ∧ u + 3 ≤ t := by
  induction t with
  | zero => cases hu
  | succ t ih =>
    cases hclear : (run p ins t).clear_q with
    | true =>
      rw [stamps_clear hclear] at hu
      cases hu
    | false =>
      rw [stamps_open hclear, List.mem_append] at hu
      rw [cleared_open hclear]
      obtain hold | hnew := hu
      · have hmem := ih (List.mem_of_mem_drop hold)
        omega
      · split at hnew
        next hpush =>
          have hpast := (pushed_presented (staged hdepth t) hpush).1
          rw [List.mem_singleton] at hnew
          omega
        next => cases hnew

end Stamps

end scu35.bitcoin_result_cluster_fifo
