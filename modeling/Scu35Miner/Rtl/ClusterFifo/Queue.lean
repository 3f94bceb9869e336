import Scu35Miner.Clocked.Trace
import Scu35Miner.Radix.Index
import Scu35Miner.Ring.Contents
import Scu35Miner.Rtl.ClusterFifo

open fips180 clocked radix

namespace scu35.bitcoin_result_cluster_fifo

theorem Params.depth_le (p : Params) : p.FIFO_DEPTH ≤ 2 ^ p.PTR_WIDTH := by
  unfold Params.PTR_WIDTH
  split
  next hsmall => simpa using hsmall
  next => exact Nat.le_pow_clog (by decide) p.FIFO_DEPTH

/-- The truncated depth still holds the number of entries. -/
theorem depth_toNat (p : Params) : (BitVec.ofNat (p.PTR_WIDTH + 1) p.FIFO_DEPTH).toNat = p.FIFO_DEPTH := by
  have hle := p.depth_le
  rw [BitVec.toNat_ofNat, Nat.mod_eq_of_lt]
  rw [Nat.pow_succ]
  have hpos := Nat.two_pow_pos p.PTR_WIDTH
  omega

theorem Params.width_pos (p : Params) : 0 < p.PTR_WIDTH := by
  unfold Params.PTR_WIDTH
  split
  next => decide
  next hlarge => exact Nat.clog_pos (by decide) (by omega)

/-- A pointer moves round the memory, also when the depth is no power of two. -/
theorem next_ptr_toNat {p : Params} {ptr : BitVec p.PTR_WIDTH} (hptr : ptr.toNat < p.FIFO_DEPTH) :
    (next_ptr p ptr).toNat = (ptr.toNat + 1) % p.FIFO_DEPTH := by
  have hle := p.depth_le
  have hlast := last_index_toNat p.width_pos (Nat.one_le_of_lt hptr) hle
  rw [ring.next_index hptr, next_ptr]
  by_cases h : ptr.toNat = p.FIFO_DEPTH - 1
  · rw [if_pos (BitVec.eq_of_toNat_eq (h.trans hlast.symm)), if_pos h]
    rfl
  · rw [if_neg (fun heq => h (by rw [heq, hlast])), if_neg h,
      succ_index_toNat p.width_pos (by omega)]

section Contents

variable {p : Params}

/-- The results that the engines of the cluster present in one cycle, lowest
engine first. -/
def results (p : Params) (valid : Vector Bool p.CLUSTER_SIZE) (nonce : Vector Word p.CLUSTER_SIZE) : List (Word × Word) :=
  ((List.finRange p.CLUSTER_SIZE).filter fun k => valid[k]).map fun k : Fin _ =>
    (BitVec.ofNat 32 (p.CLUSTER_INDEX * p.CLUSTER_SIZE + k), nonce[k])

def Input.results (i : Input p) : List (Word × Word) :=
  bitcoin_result_cluster_fifo.results p i.engine_valid_i i.engine_nonce_i

/-- The results in the first input stage. -/
def State.entering (s : State p) : List (Word × Word) := results p s.stage1_valid_q s.stage1_nonce_q

/-- The result in the second input stage. -/
def State.arriving (s : State p) : Option (Word × Word) :=
  if s.stage2_valid_q then some (s.stage2_engine_id_q, s.stage2_nonce_q) else none

def State.entry (s : State p) (k : Nat) : Word × Word := (s.engine_id_mem.toList.getD k 0, s.nonce_mem.toList.getD k 0)

/-- The queue that the memory, the read pointer and the count represent. -/
def State.stored (s : State p) : List (Word × Word) :=
  ring.contents s.entry p.FIFO_DEPTH s.rd_ptr_q.toNat s.count_q.toNat

/-- The entry that a cycle takes from the queue. -/
def State.popped (s : State p) (i : Input p) : Option (Word × Word) :=
  if s.do_pop i then some (s.engine_id_o, s.nonce_o) else none

/-- The entry that a cycle adds to the queue. -/
def State.pushed (s : State p) (i : Input p) : Option (Word × Word) := if s.do_push i then s.arriving else none

/-- The pointers stay in the memory and the count is their distance. -/
structure State.Bounded (s : State p) : Prop where
  wr_lt : s.wr_ptr_q.toNat < p.FIFO_DEPTH
  rd_lt : s.rd_ptr_q.toNat < p.FIFO_DEPTH
  count_le : s.count_q.toNat ≤ p.FIFO_DEPTH
  distance : (s.rd_ptr_q.toNat + s.count_q.toNat) % p.FIFO_DEPTH = s.wr_ptr_q.toNat

theorem head?_results (valid : Vector Bool p.CLUSTER_SIZE) (nonce : Vector Word p.CLUSTER_SIZE) :
    (results p valid nonce).head? = ((List.finRange p.CLUSTER_SIZE).find? fun k => valid[k]).map fun k : Fin _ =>
      (p.CLUSTER_BASE_ID + BitVec.ofNat 32 k, nonce[k]) := by
  rw [results, List.head?_map, List.head?_filter]
  simp only [Params.CLUSTER_BASE_ID, BitVec.ofNat_add]

theorem length_results (valid : Vector Bool p.CLUSTER_SIZE) (nonce : Vector Word p.CLUSTER_SIZE) :
    (results p valid nonce).length = (List.finRange p.CLUSTER_SIZE).countP fun k => valid[k] := by
  rw [results, List.length_map, List.countP_eq_length_filter]

theorem results_replicate (nonce : Vector Word p.CLUSTER_SIZE) : results p (Vector.replicate _ false) nonce = [] := by
  simp [results]

section Edge

variable {s : State p} {i : Input p}

theorem step_clear (hclear : s.clear_q = true) :
    (step p s i).entering = [] ∧ (step p s i).arriving = none ∧ (step p s i).stored = [] ∧
      (step p s i).overflow_o = false ∧ (step p s i).stage1_overflow_q = false ∧
      (step p s i).stage2_overflow_q = false := by
  rw [step, if_pos hclear]
  exact ⟨results_replicate _, rfl, rfl, rfl, rfl, rfl⟩

theorem step_entering (hclear : s.clear_q = false) : (step p s i).entering = i.results := by
  rw [step, if_neg (by simp [hclear])]
  rfl

theorem step_arriving (hclear : s.clear_q = false) : (step p s i).arriving = s.entering.head? := by
  rw [step, if_neg (by simp [hclear]), State.entering, head?_results, State.arriving]
  dsimp only
  rw [← State.hit_idx]
  cases s.hit_idx <;> rfl

theorem do_pop_iff : s.do_pop i = true ↔ i.pop_i = true ∧ s.count_q.toNat ≠ 0 := by
  rw [State.do_pop, Bool.and_eq_true, bne_iff_ne, ne_eq, ne_eq, BitVec.toNat_eq, BitVec.ofNat_eq_ofNat,
    BitVec.toNat_ofNat, Nat.zero_mod]

theorem do_push_iff : s.do_push i = true ↔
    s.stage2_valid_q = true ∧ (s.count_q.toNat < p.FIFO_DEPTH ∨ s.do_pop i = true) := by
  rw [State.do_push, Bool.and_eq_true, Bool.or_eq_true, decide_eq_true_eq, BitVec.lt_def, depth_toNat]

theorem count_step (hs : s.Bounded) (hclear : s.clear_q = false) :
    (step p s i).count_q.toNat = s.count_q.toNat + (s.do_push i).toNat - (s.do_pop i).toNat := by
  have hone := one_toNat (Nat.succ_pos p.PTR_WIDTH)
  have hle := p.depth_le
  have hcount := hs.count_le
  have hpow := Nat.pow_succ 2 p.PTR_WIDTH
  rw [step, if_neg (by simp [hclear])]
  dsimp only
  cases hpush : s.do_push i with
  | true =>
    cases hpop : s.do_pop i with
    | true => simp
    | false =>
      have hroom := (do_push_iff.mp hpush).2.resolve_right (by simp [hpop])
      simp only [BitVec.toNat_add, hone, Bool.toNat_true, Bool.toNat_false, Nat.sub_zero]
      exact Nat.mod_eq_of_lt (by omega)
  | false =>
    cases hpop : s.do_pop i with
    | true =>
      have hpos := (do_pop_iff.mp hpop).2
      simp only [BitVec.toNat_sub, hone, Bool.toNat_true, Bool.toNat_false, Nat.add_zero]
      rw [show 2 ^ (p.PTR_WIDTH + 1) - 1 + s.count_q.toNat = s.count_q.toNat - 1 + 2 ^ (p.PTR_WIDTH + 1) by omega,
        Nat.add_mod_right, Nat.mod_eq_of_lt (by omega)]
    | false => simp

theorem rd_ptr_step (hs : s.Bounded) (hclear : s.clear_q = false) :
    (step p s i).rd_ptr_q.toNat = (s.rd_ptr_q.toNat + (s.do_pop i).toNat) % p.FIFO_DEPTH := by
  rw [step, if_neg (by simp [hclear])]
  cases hpop : s.do_pop i with
  | true => simpa using next_ptr_toNat hs.rd_lt
  | false => simpa using (Nat.mod_eq_of_lt hs.rd_lt).symm

theorem wr_ptr_step (hs : s.Bounded) (hclear : s.clear_q = false) :
    (step p s i).wr_ptr_q.toNat = (s.wr_ptr_q.toNat + (s.do_push i).toNat) % p.FIFO_DEPTH := by
  rw [step, if_neg (by simp [hclear])]
  cases hpush : s.do_push i with
  | true => simpa using next_ptr_toNat hs.wr_lt
  | false => simpa using (Nat.mod_eq_of_lt hs.wr_lt).symm

theorem pop_le_count : (s.do_pop i).toNat ≤ s.count_q.toNat := by
  cases hpop : s.do_pop i with
  | true => exact Nat.pos_of_ne_zero (do_pop_iff.mp hpop).2
  | false => exact Nat.zero_le _

theorem arriving_eq_none_iff : s.arriving = none ↔ s.stage2_valid_q = false := by
  rw [State.arriving]
  cases s.stage2_valid_q <;> simp

/-- The queue is empty after an edge that finds nothing to push, and nothing in
it but what is popped. -/
theorem count_step_eq_zero_iff (hs : s.Bounded) (hclear : s.clear_q = false) :
    (step p s i).count_q.toNat = 0 ↔ s.count_q.toNat = (s.do_pop i).toNat ∧ s.arriving = none := by
  have hpop : (s.do_pop i).toNat ≤ s.count_q.toNat := pop_le_count
  have hdepth := Nat.zero_lt_of_lt hs.wr_lt
  rw [count_step hs hclear, arriving_eq_none_iff]
  constructor
  · intro hzero
    have hpush : s.do_push i = false := by
      rw [← Bool.not_eq_true]
      intro htrue
      rw [htrue, Bool.toNat_true] at hzero
      omega
    refine ⟨by omega, ?_⟩
    rw [← Bool.not_eq_true]
    intro hvalid
    rw [← Bool.not_eq_true, do_push_iff] at hpush
    cases hpopped : s.do_pop i with
    | true => exact hpush ⟨hvalid, .inr hpopped⟩
    | false =>
      rw [hpopped, Bool.toNat_false] at hzero
      exact hpush ⟨hvalid, .inl (by omega)⟩
  · rintro ⟨hcount, hvalid⟩
    rw [State.do_push, hvalid, Bool.false_and, Bool.toNat_false]
    omega

theorem pop_eq_zero (hcount : s.count_q.toNat = 0) : (s.do_pop i).toNat = 0 :=
  Nat.le_zero.mp (hcount ▸ pop_le_count)

theorem State.Bounded.step (hs : s.Bounded) : (step p s i).Bounded := by
  have hpos : 0 < p.FIFO_DEPTH := Nat.zero_lt_of_lt hs.wr_lt
  cases hclear : s.clear_q with
  | true =>
    rw [bitcoin_result_cluster_fifo.step, if_pos hclear]
    exact ⟨hpos, hpos, Nat.zero_le _, Nat.zero_mod _⟩
  | false =>
    have hcount := count_step hs hclear (i := i)
    have hpop : (s.do_pop i).toNat ≤ s.count_q.toNat := pop_le_count
    refine ⟨?_, ?_, ?_, ?_⟩
    · rw [wr_ptr_step hs hclear]
      exact Nat.mod_lt _ hpos
    · rw [rd_ptr_step hs hclear]
      exact Nat.mod_lt _ hpos
    · have hle := hs.count_le
      rw [hcount]
      cases hpush : s.do_push i with
      | true =>
        obtain hroom | hpopped := (do_push_iff.mp hpush).2
        · simp only [Bool.toNat_true]
          omega
        · simp only [Bool.toNat_true, hpopped]
          omega
      | false =>
        simp only [Bool.toNat_false]
        omega
    · rw [rd_ptr_step hs hclear, wr_ptr_step hs hclear, hcount, ← hs.distance, Nat.mod_add_mod, Nat.mod_add_mod]
      congr 1
      omega

theorem arriving_valid (hvalid : s.stage2_valid_q = true) :
    s.arriving = some (s.stage2_engine_id_q, s.stage2_nonce_q) := by
  rw [State.arriving, if_pos hvalid]

theorem getD_setIfInBounds {n : Nat} (v : Vector Word n) {j : Nat} (hj : j < n) (x : Word) (k : Nat) :
    (v.setIfInBounds j x).toList.getD k 0 = if k = j then x else v.toList.getD k 0 := by
  simp only [List.getD_eq_getElem?_getD, Vector.toList_setIfInBounds, List.getElem?_set, Vector.length_toList]
  by_cases h : k = j
  · simp [h, hj]
  · rw [if_neg (fun heq => h heq.symm), if_neg h]

theorem entry_step (hs : s.Bounded) (hclear : s.clear_q = false) :
    (step p s i).entry =
      if s.do_push i then Function.update s.entry s.wr_ptr_q.toNat (s.stage2_engine_id_q, s.stage2_nonce_q)
      else s.entry := by
  funext k
  rw [step, if_neg (by simp [hclear]), State.entry]
  cases s.do_push i with
  | true =>
    simp only [↓reduceIte, getD_setIfInBounds _ hs.wr_lt, Function.update_apply]
    split <;> rfl
  | false => rfl

/-- The oldest entry is the one at the outputs. -/
theorem stored_cons (hs : s.Bounded) (hcount : s.count_q.toNat ≠ 0) :
    s.stored = (s.engine_id_o, s.nonce_o) ::
      ring.contents s.entry p.FIFO_DEPTH ((s.rd_ptr_q.toNat + 1) % p.FIFO_DEPTH) (s.count_q.toNat - 1) := by
  obtain ⟨n, hn⟩ := Nat.exists_eq_succ_of_ne_zero hcount
  rw [State.stored, hn, Nat.succ_eq_add_one, ring.contents_succ s.entry n hs.rd_lt]
  rfl

/-- A cycle without clear takes the oldest entry on a pop and appends the
arriving one on a push. -/
theorem stored_step (hs : s.Bounded) (hclear : s.clear_q = false) :
    (s.popped i).toList ++ (step p s i).stored = s.stored ++ (s.pushed i).toList := by
  have hcount := count_step hs hclear (i := i)
  have hrd := rd_ptr_step hs hclear (i := i)
  have hentry := entry_step hs hclear (i := i)
  have hpop_le : (s.do_pop i).toNat ≤ s.count_q.toNat := pop_le_count
  -- The queue after the pop, to which the push appends.
  have hkept : (s.popped i).toList ++ ring.contents s.entry p.FIFO_DEPTH (step p s i).rd_ptr_q.toNat
      (s.count_q.toNat - (s.do_pop i).toNat) = s.stored := by
    rw [hrd, State.popped]
    cases hpop : s.do_pop i with
    | true => exact (stored_cons hs (do_pop_iff.mp hpop).2).symm
    | false => simp [State.stored, Nat.mod_eq_of_lt hs.rd_lt]
  cases hpush : s.do_push i with
  | false =>
    rw [State.pushed, hpush, if_neg (by simp), Option.toList_none, List.append_nil, ← hkept, State.stored, hcount, hentry,
      hpush, if_neg (by simp), Bool.toNat_false, Nat.add_zero]
  | true =>
    obtain ⟨hvalid, hroom⟩ := do_push_iff.mp hpush
    have hlt : s.count_q.toNat - (s.do_pop i).toNat < p.FIFO_DEPTH := by
      obtain hroom | hpop := hroom
      · omega
      · have hle := hs.count_le
        rw [hpop, Bool.toNat_true] at hpop_le ⊢
        omega
    have hslot : ((step p s i).rd_ptr_q.toNat + (s.count_q.toNat - (s.do_pop i).toNat)) % p.FIFO_DEPTH =
        s.wr_ptr_q.toNat := by
      rw [hrd, Nat.mod_add_mod, ← hs.distance]
      congr 1
      omega
    have hgrown := ring.contents_push s.entry (step p s i).rd_ptr_q.toNat hlt (s.stage2_engine_id_q, s.stage2_nonce_q)
    rw [hslot] at hgrown
    rw [State.pushed, hpush, if_pos rfl, arriving_valid hvalid, Option.toList_some, ← hkept, List.append_assoc, ← hgrown,
      State.stored, hcount, hentry, hpush, if_pos rfl, Bool.toNat_true]
    congr 2
    omega

theorem step_overflow (hclear : s.clear_q = false) :
    (step p s i).overflow_o = (s.overflow_o || (s.stage2_valid_q && !s.do_push i) || s.stage2_overflow_q) := by
  rw [step, if_neg (by simp [hclear])]

theorem step_stage1_overflow (hclear : s.clear_q = false) :
    (step p s i).stage1_overflow_q = decide (1 < i.results.length) := by
  rw [step, if_neg (by simp [hclear]), Input.results, length_results]
  rfl

theorem step_stage2_overflow (hclear : s.clear_q = false) :
    (step p s i).stage2_overflow_q = (s.stage1_overflow_q || decide (1 < s.entering.length)) := by
  rw [step, if_neg (by simp [hclear]), State.entering, length_results]
  rfl

/-- A cycle with at most one result leaves the first stage without collision. -/
theorem step_stage1_single (hsingle : i.results.length ≤ 1) :
    (step p s i).stage1_overflow_q = false ∧ (step p s i).entering.length ≤ 1 := by
  cases hclear : s.clear_q with
  | true =>
    obtain ⟨hentering, _, _, _, hfirst, _⟩ := step_clear hclear (i := i)
    rw [hentering, hfirst]
    exact ⟨rfl, Nat.zero_le 1⟩
  | false =>
    rw [step_stage1_overflow hclear, step_entering hclear]
    exact ⟨decide_eq_false (by omega), hsingle⟩

theorem step_stage2_single (hfirst : s.stage1_overflow_q = false) (hsingle : s.entering.length ≤ 1) :
    (step p s i).stage2_overflow_q = false := by
  cases hclear : s.clear_q with
  | true => exact (step_clear hclear).2.2.2.2.2
  | false => rw [step_stage2_overflow hclear, hfirst, decide_eq_false (by omega), Bool.or_false]

/-- What raises `overflow_o`. -/
theorem step_overflow_cause (hover : (step p s i).overflow_o = true) :
    s.overflow_o = true ∨ s.stage2_overflow_q = true ∨ s.stage2_valid_q = true ∧ s.do_push i = false := by
  cases hclear : s.clear_q with
  | true =>
    rw [(step_clear hclear).2.2.2.1] at hover
    cases hover
  | false =>
    rw [step_overflow hclear, Bool.or_eq_true, Bool.or_eq_true, Bool.and_eq_true, Bool.not_eq_true'] at hover
    obtain (hold | hlost) | hmany := hover
    · exact .inl hold
    · exact .inr (.inr hlost)
    · exact .inr (.inl hmany)

end Edge

end Contents

end scu35.bitcoin_result_cluster_fifo
