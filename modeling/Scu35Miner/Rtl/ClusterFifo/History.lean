import Scu35Miner.Rtl.ClusterFifo.Queue

open fips180 clocked

namespace scu35.bitcoin_result_cluster_fifo

section Run

variable (p : Params) (ins : Nat → Input p)

/-- The FIFO after `t` clock edges from reset. -/
def run (t : Nat) : State p := trace (step p) (reset p) ins t

/-- The first edge since the last clear took effect. -/
def cleared : Nat → Nat
  | 0 => 0
  | t + 1 => if (run p ins t).clear_q then t + 1 else cleared t

/-- The results presented at the edges from `a` up to `t`. -/
def presented (a t : Nat) : List (Word × Word) := (List.range' a (t - a)).flatMap fun u => (ins u).results

/-- Of each of these edges only the result of the lowest engine. -/
def lowest_presented (a t : Nat) : List (Word × Word) := (List.range' a (t - a)).filterMap fun u => (ins u).results.head?

/-- The entries popped at the edges from `a` up to `t`. -/
def popped (a t : Nat) : List (Word × Word) := (List.range' a (t - a)).filterMap fun u => (run p ins u).popped (ins u)

/-- A result presented at edge `u` is dropped: it has company, or it reaches a
full memory that is not popped. -/
def Dropped (u : Nat) : Prop :=
  1 < (ins u).results.length ∨
    (ins u).results ≠ [] ∧ (run p ins (u + 2)).count_q.toNat = p.FIFO_DEPTH ∧ (ins (u + 2)).pop_i = false

/-- The input stages hold no result. -/
def State.PipelineEmpty {p : Params} (s : State p) : Prop := s.entering = [] ∧ s.arriving = none

/-- The results that are in the first stage before edge `t`. -/
def entered (t : Nat) : List (Word × Word) := if cleared p ins t + 1 ≤ t then (ins (t - 1)).results else []

/-- The results that are in the second stage before edge `t`, or shared it. -/
def arrived (t : Nat) : List (Word × Word) := if cleared p ins t + 2 ≤ t then (ins (t - 2)).results else []

end Run

section Window

variable {p : Params} {ins : Nat → Input p}

theorem run_succ (t : Nat) : run p ins (t + 1) = step p (run p ins t) (ins t) := rfl

theorem cleared_le (t : Nat) : cleared p ins t ≤ t := by
  induction t with
  | zero => exact Nat.le_refl 0
  | succ t ih =>
    rw [cleared]
    split
    · exact Nat.le_refl _
    · exact Nat.le_succ_of_le ih

theorem cleared_clear {t : Nat} (hclear : (run p ins t).clear_q = true) : cleared p ins (t + 1) = t + 1 := by
  rw [cleared, if_pos hclear]

theorem cleared_open {t : Nat} (hclear : (run p ins t).clear_q = false) : cleared p ins (t + 1) = cleared p ins t := by
  rw [cleared, if_neg (by simp [hclear])]

/-- Since the last clear there has been no other. -/
theorem cleared_same {t u : Nat} (hu : cleared p ins t ≤ u) (hle : u ≤ t) : cleared p ins u = cleared p ins t := by
  induction t, hle using Nat.le_induction with
  | base => rfl
  | succ t hle ih =>
    cases hclear : (run p ins t).clear_q with
    | true =>
      rw [cleared_clear hclear] at hu
      omega
    | false =>
      rw [cleared_open hclear] at hu ⊢
      exact ih hu

theorem range'_succ {a t : Nat} (h : a ≤ t) : List.range' a (t + 1 - a) = List.range' a (t - a) ++ [t] := by
  rw [show t + 1 - a = t - a + 1 by omega, List.range'_concat, Nat.one_mul, Nat.add_sub_cancel' h]

theorem range'_empty {a t : Nat} (h : t ≤ a) : List.range' a (t - a) = [] := by
  rw [Nat.sub_eq_zero_of_le h, List.range'_zero]

theorem popped_succ {a t : Nat} (h : a ≤ t) :
    popped p ins a (t + 1) = popped p ins a t ++ ((run p ins t).popped (ins t)).toList := by
  rw [popped, range'_succ h, List.filterMap_append, popped]
  cases hpop : (run p ins t).popped (ins t) <;> simp [hpop]

theorem presented_succ {a t : Nat} (h : a ≤ t) : presented p ins a (t + 1) = presented p ins a t ++ (ins t).results := by
  rw [presented, range'_succ h, List.flatMap_append]
  simp [presented]

theorem presented_empty {a t : Nat} (h : t ≤ a) : presented p ins a t = [] := by
  rw [presented, range'_empty h]
  rfl

/-- The edge at `t` decides about the results presented two edges earlier. -/
theorem presented_arrived {t : Nat} (hclear : (run p ins t).clear_q = false) :
    presented p ins (cleared p ins (t + 1)) (t + 1 - 2) =
      presented p ins (cleared p ins t) (t - 2) ++ arrived p ins t := by
  rw [cleared_open hclear, arrived]
  split
  next h =>
    rw [show t + 1 - 2 = t - 2 + 1 by omega, presented_succ (by omega)]
  next h => rw [presented_empty (by omega), presented_empty (by omega), List.append_nil]

theorem lowest_presented_arrived {t : Nat} (hclear : (run p ins t).clear_q = false) :
    lowest_presented p ins (cleared p ins (t + 1)) (t + 1 - 2) =
      lowest_presented p ins (cleared p ins t) (t - 2) ++ (arrived p ins t).head?.toList := by
  rw [cleared_open hclear, arrived]
  split
  next h =>
    rw [show t + 1 - 2 = t - 2 + 1 by omega, lowest_presented, range'_succ (by omega), List.filterMap_append,
      lowest_presented]
    cases hhead : (ins (t - 2)).results.head? <;> simp [hhead]
  next h =>
    rw [lowest_presented, lowest_presented, range'_empty (by omega), range'_empty (by omega)]
    rfl

/-- The input stages hold the results of the last two edges since the clear. -/
structure Staged (p : Params) (ins : Nat → Input p) (t : Nat) : Prop where
  bounded : (run p ins t).Bounded
  entering : (run p ins t).entering = entered p ins t
  arriving : (run p ins t).arriving = (arrived p ins t).head?
  stage1_overflow : (run p ins t).stage1_overflow_q = decide (1 < (entered p ins t).length)
  stage2_overflow : (run p ins t).stage2_overflow_q = decide (1 < (arrived p ins t).length)

theorem entered_clear {t : Nat} (hclear : (run p ins t).clear_q = true) : entered p ins (t + 1) = [] := by
  rw [entered, cleared_clear hclear, if_neg (by omega)]

theorem arrived_clear {t : Nat} (hclear : (run p ins t).clear_q = true) : arrived p ins (t + 1) = [] := by
  rw [arrived, cleared_clear hclear, if_neg (by omega)]

theorem entered_open {t : Nat} (hclear : (run p ins t).clear_q = false) : entered p ins (t + 1) = (ins t).results := by
  have hle : cleared p ins t ≤ t := cleared_le t
  rw [entered, cleared_open hclear, if_pos (by omega), Nat.add_sub_cancel]

theorem arrived_open {t : Nat} (hclear : (run p ins t).clear_q = false) :
    arrived p ins (t + 1) = entered p ins t := by
  rw [arrived, entered, cleared_open hclear]
  exact if_congr (by omega) rfl rfl

theorem staged (hdepth : 1 ≤ p.FIFO_DEPTH) (t : Nat) : Staged p ins t := by
  induction t with
  | zero => exact ⟨⟨hdepth, hdepth, Nat.zero_le _, Nat.zero_mod _⟩, results_replicate _, rfl, rfl, rfl⟩
  | succ t ih =>
    have hbounded := ih.bounded.step (i := ins t)
    cases hclear : (run p ins t).clear_q with
    | true =>
      obtain ⟨hentering, harriving, _, _, hfirst, hsecond⟩ := step_clear hclear (i := ins t)
      refine ⟨hbounded, ?_, ?_, ?_, ?_⟩
      · rw [run_succ, hentering, entered_clear hclear]
      · rw [run_succ, harriving, arrived_clear hclear, List.head?_nil]
      · simp [run_succ, hfirst, entered_clear hclear]
      · simp [run_succ, hsecond, arrived_clear hclear]
    | false =>
      refine ⟨hbounded, ?_, ?_, ?_, ?_⟩
      · rw [run_succ, step_entering hclear, entered_open hclear]
      · rw [run_succ, step_arriving hclear, arrived_open hclear, ih.entering]
      · rw [run_succ, step_stage1_overflow hclear, entered_open hclear]
      · rw [run_succ, step_stage2_overflow hclear, arrived_open hclear, ih.entering, ih.stage1_overflow, Bool.or_self]

/-- A collision in the second stage comes with a result there. -/
theorem Staged.no_collision {t : Nat} (hstaged : Staged p ins t) (hnone : (run p ins t).arriving = none) :
    (run p ins t).stage2_overflow_q = false := by
  rw [hstaged.arriving, List.head?_eq_none_iff] at hnone
  rw [hstaged.stage2_overflow, hnone]
  rfl

/-- With nothing in the second stage, and nothing stored but what is popped, an
edge leaves an empty queue and adds no overflow. -/
theorem run_settles {t : Nat} (hdepth : 1 ≤ p.FIFO_DEPTH) (hclear : (run p ins t).clear_q = false)
    (hnone : (run p ins t).arriving = none)
    (hcount : (run p ins t).count_q.toNat = ((run p ins t).do_pop (ins t)).toNat)
    (hover : (run p ins t).overflow_o = false) :
    (run p ins (t + 1)).count_q.toNat = 0 ∧ (run p ins (t + 1)).overflow_o = false := by
  have hstaged : Staged p ins t := staged hdepth t
  rw [run_succ]
  refine ⟨(count_step_eq_zero_iff hstaged.bounded hclear).mpr ⟨hcount, hnone⟩, ?_⟩
  rw [step_overflow hclear, hover, hstaged.no_collision hnone, arriving_eq_none_iff.mp hnone]
  rfl

/-- What the queue and the pops account for, and what `overflow_o` says about
the rest. -/
structure Accounted (p : Params) (ins : Nat → Input p) (t : Nat) : Prop where
  kept : (popped p ins (cleared p ins t) t ++ (run p ins t).stored).Sublist
    (lowest_presented p ins (cleared p ins t) (t - 2))
  exact : (run p ins t).overflow_o = false →
    popped p ins (cleared p ins t) t ++ (run p ins t).stored = presented p ins (cleared p ins t) (t - 2)
  lossy : (run p ins t).overflow_o = true →
    (popped p ins (cleared p ins t) t ++ (run p ins t).stored).length <
      (presented p ins (cleared p ins t) (t - 2)).length
  cause : (run p ins t).overflow_o = true ↔ ∃ u, cleared p ins t ≤ u ∧ u + 3 ≤ t ∧ Dropped p ins u

/-- Pops and queue together grow by the accepted result. -/
theorem flow {t : Nat} (hstaged : Staged p ins t) (hclear : (run p ins t).clear_q = false) :
    popped p ins (cleared p ins (t + 1)) (t + 1) ++ (run p ins (t + 1)).stored =
      popped p ins (cleared p ins t) t ++ (run p ins t).stored ++ ((run p ins t).pushed (ins t)).toList := by
  rw [cleared_open hclear, popped_succ (cleared_le t), List.append_assoc, run_succ,
    stored_step hstaged.bounded hclear, List.append_assoc]

theorem pushed_sublist {t : Nat} (hstaged : Staged p ins t) :
    ((run p ins t).pushed (ins t)).toList.Sublist (arrived p ins t).head?.toList := by
  rw [State.pushed, hstaged.arriving]
  split
  · exact List.Sublist.refl _
  · exact List.nil_sublist _

theorem head?_sublist {α : Type} (xs : List α) : xs.head?.toList.Sublist xs := by
  cases xs with
  | nil => exact List.Sublist.slnil
  | cons x xs => exact List.Sublist.cons_cons x (List.nil_sublist xs)

/-- An edge that adds no overflow accepts all that arrived. -/
theorem pushed_eq_arrived {t : Nat} (hstaged : Staged p ins t)
    (hvalid : ((run p ins t).stage2_valid_q && !(run p ins t).do_push (ins t)) = false)
    (hsecond : (run p ins t).stage2_overflow_q = false) :
    ((run p ins t).pushed (ins t)).toList = arrived p ins t := by
  have harriving := hstaged.arriving
  have hlength : ¬ 1 < (arrived p ins t).length := of_decide_eq_false (hstaged.stage2_overflow.symm.trans hsecond)
  have hall : (arrived p ins t).head?.toList = arrived p ins t := by
    match arrived p ins t, hlength with
    | [], _ => rfl
    | [x], _ => rfl
    | x :: y :: xs, hlength => simp at hlength
  cases hstage : (run p ins t).stage2_valid_q with
  | true =>
    rw [hstage, Bool.true_and, Bool.not_eq_false'] at hvalid
    rw [State.pushed, hvalid, if_pos rfl, harriving, hall]
  | false =>
    have hnone : (run p ins t).arriving = none := by simp [State.arriving, hstage]
    rw [hnone] at harriving
    rw [State.pushed, hnone, ite_self, ← hall, ← harriving]

/-- An edge that adds overflow loses a result that arrived. -/
theorem pushed_lt_arrived {t : Nat} (hstaged : Staged p ins t)
    (hlost : (((run p ins t).stage2_valid_q && !(run p ins t).do_push (ins t)) || (run p ins t).stage2_overflow_q) = true) :
    ((run p ins t).pushed (ins t)).toList.length < (arrived p ins t).length := by
  have harriving := hstaged.arriving
  rw [Bool.or_eq_true, Bool.and_eq_true, Bool.not_eq_true', hstaged.stage2_overflow, decide_eq_true_eq] at hlost
  obtain ⟨hvalid, hpush⟩ | hmany := hlost
  · rw [arriving_valid hvalid] at harriving
    have hne : arrived p ins t ≠ [] := by
      intro hnil
      rw [hnil] at harriving
      cases harriving
    rw [State.pushed, hpush, if_neg (by simp)]
    exact List.length_pos_iff.mpr hne
  · have hle : ((run p ins t).pushed (ins t)).toList.length ≤ 1 := by
      cases (run p ins t).pushed (ins t) <;> simp
    omega

/-- The edge at `t` adds overflow exactly when it drops a result presented two
edges earlier. -/
theorem lost_iff_dropped {t : Nat} (hdepth : 1 ≤ p.FIFO_DEPTH) (hstaged : Staged p ins t) :
    (((run p ins t).stage2_valid_q && !(run p ins t).do_push (ins t)) || (run p ins t).stage2_overflow_q) = true ↔
      ∃ u, cleared p ins t ≤ u ∧ u + 2 = t ∧ Dropped p ins u := by
  have hvalid : (run p ins t).stage2_valid_q = true ↔ arrived p ins t ≠ [] := by
    have harriving := hstaged.arriving
    rw [State.arriving] at harriving
    cases hstage : (run p ins t).stage2_valid_q with
    | true =>
      rw [hstage, if_pos rfl] at harriving
      exact iff_of_true rfl fun hnil => by simp [hnil] at harriving
    | false =>
      rw [hstage, if_neg (by simp)] at harriving
      exact iff_of_false (by simp) (by simpa using (List.head?_eq_none_iff.mp harriving.symm))
  have hfull : (run p ins t).stage2_valid_q = true →
      ((run p ins t).do_push (ins t) = false ↔ (run p ins t).count_q.toNat = p.FIFO_DEPTH ∧ (ins t).pop_i = false) := by
    intro hstage
    have hcount := hstaged.bounded.count_le
    rw [← Bool.not_eq_true, do_push_iff, do_pop_iff, ← Bool.not_eq_true]
    constructor
    · intro h
      have hle : ¬ (run p ins t).count_q.toNat < p.FIFO_DEPTH := fun hlt => h ⟨hstage, .inl hlt⟩
      refine ⟨by omega, fun hpop => h ⟨hstage, .inr ⟨hpop, by omega⟩⟩⟩
    · rintro ⟨hcount, hpop⟩ ⟨_, hlt | hpopped⟩
      · omega
      · exact hpop hpopped.1
  rw [Bool.or_eq_true, Bool.and_eq_true, Bool.not_eq_true', hstaged.stage2_overflow, decide_eq_true_eq]
  by_cases ht : cleared p ins t + 2 ≤ t
  · have harrived : arrived p ins t = (ins (t - 2)).results := by rw [arrived, if_pos ht]
    have hback : t - 2 + 2 = t := by omega
    constructor
    · intro hlost
      refine ⟨t - 2, by omega, hback, ?_⟩
      rw [Dropped, hback, ← harrived]
      obtain ⟨hstage, hpush⟩ | hmany := hlost
      · exact .inr ⟨hvalid.mp hstage, (hfull hstage).mp hpush⟩
      · exact .inl hmany
    · rintro ⟨u, _, rfl, hmany | ⟨hne, hdrop⟩⟩
      · rw [harrived]
        exact .inr hmany
      · have hstage := hvalid.mpr (by rwa [harrived])
        exact .inl ⟨hstage, (hfull hstage).mpr hdrop⟩
  · have harrived : arrived p ins t = [] := by rw [arrived, if_neg ht]
    refine iff_of_false ?_ ?_
    · rw [hvalid, harrived]
      simp
    · rintro ⟨u, hu, rfl, _⟩
      omega

theorem accounted (hdepth : 1 ≤ p.FIFO_DEPTH) (t : Nat) : Accounted p ins t := by
  induction t with
  | zero =>
    have hnone : (run p ins 0).overflow_o = false := rfl
    refine ⟨List.Sublist.slnil, fun _ => rfl, fun h => by simp [hnone] at h, iff_of_false (by simp [hnone]) ?_⟩
    rintro ⟨u, _, hu, _⟩
    omega
  | succ t ih =>
    have hstaged : Staged p ins t := staged hdepth t
    cases hclear : (run p ins t).clear_q with
    | true =>
      obtain ⟨_, _, hstored, hoverflow, _, _⟩ := step_clear hclear (i := ins t)
      rw [← run_succ] at hstored hoverflow
      have hpopped : popped p ins (t + 1) (t + 1) = [] := by simp [popped]
      refine ⟨?_, ?_, ?_, ?_⟩
      · rw [cleared_clear hclear, hstored, hpopped]
        exact List.nil_sublist _
      · intro _
        rw [cleared_clear hclear, hstored, hpopped, presented_empty (by omega), List.append_nil]
      · intro h
        rw [hoverflow] at h
        cases h
      · rw [hoverflow, cleared_clear hclear]
        refine iff_of_false (by simp) ?_
        rintro ⟨u, _, _, _⟩
        omega
    | false =>
      have hflow := flow hstaged hclear
      have hstep : (run p ins (t + 1)).overflow_o = ((run p ins t).overflow_o ||
          (((run p ins t).stage2_valid_q && !(run p ins t).do_push (ins t)) || (run p ins t).stage2_overflow_q)) := by
        rw [run_succ, step_overflow hclear, Bool.or_assoc]
      refine ⟨?_, ?_, ?_, ?_⟩
      · rw [hflow, lowest_presented_arrived hclear]
        exact ih.kept.append (pushed_sublist hstaged)
      · intro hnone
        rw [hstep, Bool.or_eq_false_iff, Bool.or_eq_false_iff] at hnone
        rw [hflow, presented_arrived hclear, ih.exact hnone.1, pushed_eq_arrived hstaged hnone.2.1 hnone.2.2]
      · intro hover
        rw [hstep, Bool.or_eq_true] at hover
        rw [hflow, presented_arrived hclear, List.length_append, @List.length_append _ _ (arrived p ins t)]
        have hpushed := ((pushed_sublist hstaged).trans (head?_sublist _)).length_le
        cases hold : (run p ins t).overflow_o with
        | true =>
          have hlossy := ih.lossy hold
          omega
        | false =>
          have hexact := congrArg List.length (ih.exact hold)
          have hlost := pushed_lt_arrived hstaged (hover.resolve_left (by simp [hold]))
          omega
      · rw [hstep, Bool.or_eq_true, ih.cause, lost_iff_dropped hdepth hstaged, cleared_open hclear]
        constructor
        · rintro (⟨u, hu, ht, hdropped⟩ | ⟨u, hu, rfl, hdropped⟩)
          · exact ⟨u, hu, by omega, hdropped⟩
          · exact ⟨u, hu, by omega, hdropped⟩
        · rintro ⟨u, hu, ht, hdropped⟩
          obtain hlt | heq := Nat.lt_or_eq_of_le ht
          · exact .inl ⟨u, hu, by omega, hdropped⟩
          · exact .inr ⟨u, hu, by omega, hdropped⟩

theorem lowest_presented_le (a t : Nat) : (lowest_presented p ins a t).length ≤ (presented p ins a t).length := by
  rw [lowest_presented, presented, List.filterMap_eq_flatMap_toList, List.length_flatMap, List.length_flatMap]
  exact List.sum_le_sum fun u _ => (head?_sublist _).length_le

theorem presented_mono {a t u : Nat} (hle : t ≤ u) : (presented p ins a t).length ≤ (presented p ins a u).length := by
  induction u, hle using Nat.le_induction with
  | base => exact Nat.le_refl _
  | succ u _ ih =>
    by_cases ha : a ≤ u
    · rw [presented_succ ha, List.length_append]
      omega
    · rw [presented_empty (show t ≤ a by omega)]
      exact Nat.zero_le _

/-- A single result is not lost. -/
theorem Accounted.single_kept {t : Nat} (hdepth : 1 ≤ p.FIFO_DEPTH) (h : Accounted p ins t)
    (hsingle : (presented p ins (cleared p ins t) (t - 2)).length ≤ 1) : (run p ins t).overflow_o = false := by
  rw [← Bool.not_eq_true, h.cause]
  rintro ⟨u, hu, ht, hdropped⟩
  have hnext : (presented p ins (cleared p ins t) (u + 1)).length ≤ 1 := (presented_mono (by omega)).trans hsingle
  rw [presented_succ hu, List.length_append] at hnext
  obtain hmany | ⟨hsome, hfull, -⟩ := hdropped
  · omega
  · -- the memory is full of results that were presented before
    have hsince : cleared p ins (u + 2) = cleared p ins t := cleared_same (by omega) (by omega)
    have haccounted : Accounted p ins (u + 2) := accounted hdepth (u + 2)
    have hkept := haccounted.kept.length_le.trans (lowest_presented_le _ _)
    rw [hsince, Nat.add_sub_cancel, List.length_append, State.stored, ring.length_contents, hfull] at hkept
    have hresults := List.length_pos_iff.mpr hsome
    omega

/-- With empty input stages, nothing was presented at the last two edges. -/
theorem presented_pipeline_empty {t : Nat} (hstaged : Staged p ins t) (hempty : (run p ins t).PipelineEmpty) :
    presented p ins (cleared p ins t) (t - 2) = presented p ins (cleared p ins t) t := by
  obtain ⟨hentering, harriving⟩ := hempty
  have hentered : entered p ins t = [] := hstaged.entering.symm.trans hentering
  have harrived : arrived p ins t = [] := by
    rw [hstaged.arriving] at harriving
    exact List.head?_eq_none_iff.mp harriving
  have hle : cleared p ins t ≤ t := cleared_le t
  rw [entered] at hentered
  rw [arrived] at harrived
  generalize cleared p ins t = a at *
  obtain rfl | rfl | ⟨u, rfl, hu⟩ : t = a ∨ t = a + 1 ∨ ∃ u, t = u + 2 ∧ a ≤ u := by
    by_cases htwo : a + 2 ≤ t
    · exact .inr (.inr ⟨t - 2, by omega, by omega⟩)
    · omega
  · rw [presented_empty (by omega), presented_empty (Nat.le_refl _)]
  · rw [if_pos (Nat.le_refl _)] at hentered
    rw [presented_succ (Nat.le_refl _), presented_empty (by omega), presented_empty (Nat.le_refl _)]
    exact hentered.symm
  · rw [if_pos (by omega)] at hentered harrived
    rw [presented_succ (by omega), presented_succ hu, show u + 2 - 2 = u from rfl]
    simp only [Nat.add_sub_cancel] at hentered harrived
    rw [harrived, show (ins (u + 1)).results = [] from hentered, List.append_nil, List.append_nil]

end Window

/-- The FIFO is a bounded queue that loses nothing silently. The pointers and
the count stay in range; what was popped since the last clear is, in order, a
part of what the lowest engines presented; `overflow_o` is set exactly when a
result that has passed the input stages was dropped, that is when pops and
queue together miss one, and it stays set until a clear takes effect. -/
theorem loses_nothing_silently {p : Params} (hdepth : 1 ≤ p.FIFO_DEPTH) (ins : Nat → Input p) (t : Nat) :
    let s := run p ins t
    let since := cleared p ins t
    (s.count_q.toNat ≤ p.FIFO_DEPTH ∧ s.wr_ptr_q.toNat < p.FIFO_DEPTH ∧ s.rd_ptr_q.toNat < p.FIFO_DEPTH ∧
      (s.rd_ptr_q.toNat + s.count_q.toNat) % p.FIFO_DEPTH = s.wr_ptr_q.toNat) ∧
    (popped p ins since t).Sublist (lowest_presented p ins since (t - 2)) ∧
    (s.overflow_o = true ↔ ∃ u, since ≤ u ∧ u + 3 ≤ t ∧ Dropped p ins u) ∧
    (s.overflow_o = true ↔ popped p ins since t ++ s.stored ≠ presented p ins since (t - 2)) ∧
    (s.overflow_o = true → s.clear_q = false → (run p ins (t + 1)).overflow_o = true) ∧
    (s.overflow_o = false → s.PipelineEmpty → popped p ins since t ++ s.stored = presented p ins since t) := by
  have hstaged : Staged p ins t := staged hdepth t
  have haccounted : Accounted p ins t := accounted hdepth t
  have hbounded := hstaged.bounded
  refine ⟨⟨hbounded.count_le, hbounded.wr_lt, hbounded.rd_lt, hbounded.distance⟩, ?_, haccounted.cause, ?_, ?_, ?_⟩
  · exact (List.sublist_append_left _ _).trans haccounted.kept
  · constructor
    · intro hover heq
      have hlossy := haccounted.lossy hover
      rw [heq] at hlossy
      exact Nat.lt_irrefl _ hlossy
    · intro hne
      by_contra hnone
      exact hne (haccounted.exact (Bool.not_eq_true _ ▸ hnone))
  · intro hover hclear
    rw [run_succ, step_overflow hclear, hover, Bool.true_or, Bool.true_or]
  · intro hnone hempty
    rw [← presented_pipeline_empty hstaged hempty]
    exact haccounted.exact hnone

/-- Two engines that present a result in the same cycle, and nothing after. -/
def collision (u : Nat) : Input ⟨1, 2, 3⟩ := ⟨false, false, if u = 0 then #v[true, true] else #v[false, false], #v[7, 8]⟩

theorem collision_overflows : (run ⟨1, 2, 3⟩ collision 3).overflow_o = true :=
  (loses_nothing_silently (by decide) collision 3).2.2.1.mpr ⟨0, by decide, by decide, .inl (by decide)⟩

end scu35.bitcoin_result_cluster_fifo
