import Scu35Miner.Rtl.HashEngine
import Scu35Miner.Rtl.Sha256Core.Compress

open fips180 radix

namespace scu35.bitcoin_hash_engine

open EngineState bitcoin_sha256_core sha256_core_iterative

/-- What a start pulse hands to an engine. -/
structure Job where
  midstate : Vector Word 8
  header_tail : Vector Word 4
  target : Vector Word 8
  nonce_start : Word
  nonce_count : Word
deriving DecidableEq, Inhabited

/-- The job that a start pulse presents to an engine. -/
def Input.job (i : Input) : Job := ⟨i.midstate_i, i.header_tail_i, i.target_i, i.nonce_start_i, i.nonce_count_i⟩

def first_digest (midstate : Vector Word 8) (tail : Vector Word 4) (nonce : Word) : Vector Word 8 :=
  compress midstate (first_block tail nonce)

/-- SHA256d of the header with the given midstate, tail words 0 to 2 and nonce
word. -/
def double_digest (midstate : Vector Word 8) (tail : Vector Word 4) (nonce : Word) : Vector Word 8 :=
  compress initialHash (second_block (first_digest midstate tail nonce))

/-- The padding of an eighty-byte header, as words. -/
theorem header_padding : [0x80#8] ++ List.replicate (paddingZeros 16) 0#8 ++ lengthBytes 640 =
    ([0x80000000, 0, 0, 0, 0, 0, 0, 0, 0, 0, 0, 0x280] : List Word).flatMap wordBytes := by
  decide

/-- The padding of a digest, as words. -/
theorem digest_padding : [0x80#8] ++ List.replicate (paddingZeros 32) 0#8 ++ lengthBytes 256 =
    ([0x80000000, 0, 0, 0, 0, 0, 0, 0x100] : List Word).flatMap wordBytes := by
  decide

theorem tail_bytes_length (tail : Vector Word 4) (nonce : Word) :
    ((tail.toList.take 3 ++ [nonce]).flatMap wordBytes).length = 16 := by
  simp [wordBytes_length, Function.const_def]

/-- The last sixteen bytes of a header, padded, are the block of the first
pass. -/
theorem first_block_padded (tail : Vector Word 4) (nonce : Word) :
    finalBlocks ((tail.toList.take 3 ++ [nonce]).flatMap wordBytes) 640 =
      (first_block tail nonce).toList.flatMap wordBytes := by
  have hblock : (first_block tail nonce).toList =
      tail.toList.take 3 ++ [nonce] ++ [0x80000000, 0, 0, 0, 0, 0, 0, 0, 0, 0, 0, 0x280] := by
    obtain ⟨⟨words⟩, hsize⟩ := tail
    simp only [List.size_toArray] at hsize
    match words, hsize with
    | [a, b, c, d], _ => simp [first_block]
  have hshort := tail_bytes_length tail nonce
  rw [finalBlocks, hshort, List.append_assoc, List.append_assoc, ← List.append_assoc [_], header_padding, hblock]
  exact List.flatMap_append.symm

/-- The first digest, padded, is the block of the second pass. -/
theorem second_block_padded (digest : Vector Word 8) :
    finalBlocks (digestBytes digest) 256 = (second_block digest).toList.flatMap wordBytes := by
  have hblock : (second_block digest).toList = digest.toList ++ [0x80000000, 0, 0, 0, 0, 0, 0, 0x100] := by
    obtain ⟨⟨words⟩, hsize⟩ := digest
    simp only [List.size_toArray] at hsize
    match words, hsize with
    | [a, b, c, d, e, f, g, h], _ => rfl
  rw [finalBlocks, digestBytes_length, List.append_assoc, List.append_assoc, ← List.append_assoc [_], digest_padding, hblock,
    List.flatMap_append]
  rfl

theorem absorb_one_block (hash : Vector Word 8) (block : Vector Word 16) :
    absorb hash (block.toList.flatMap wordBytes) = compress hash block := by
  have hlen : (block.toList.flatMap wordBytes).length = 64 := by
    simp [wordBytes_length, Function.const_def]
  have h := absorb_block hash [] hlen
  rwa [List.append_nil, absorb_nil, blockWords_flatMap] at h

/-- An engine that starts from the midstate of the first sixty-four bytes of a
header computes the double SHA-256 of the header with its nonce. -/
theorem double_digest_sha256 {first : List Byte} (hlen : first.length = 64) (tail : Vector Word 4) (nonce : Word) :
    digestBytes (double_digest (fips180.compress initialHash (blockWords first)) tail nonce) =
      sha256 (sha256 (first ++ (tail.toList.take 3 ++ [nonce]).flatMap wordBytes)) := by
  have hshort := tail_bytes_length tail nonce
  have hheader : (first ++ (tail.toList.take 3 ++ [nonce]).flatMap wordBytes).length = 80 := by
    rw [List.length_append, hlen, hshort]
  have hfirst : sha256 (first ++ (tail.toList.take 3 ++ [nonce]).flatMap wordBytes) =
      digestBytes (first_digest (fips180.compress initialHash (blockWords first)) tail nonce) := by
    have hmid : absorb initialHash (first ++ (tail.toList.take 3 ++ [nonce]).flatMap wordBytes) =
        fips180.compress initialHash (blockWords first) := by
      rw [absorb_block _ _ hlen, absorb_short _ (by omega)]
    rw [sha256_eq, hmid, hheader, show 64 * (80 / 64) = 64 from rfl, List.drop_left' hlen,
      show BitVec.ofNat 64 (8 * 80) = 640 from rfl, first_block_padded, absorb_one_block]
    rfl
  have hsecond (digest : Vector Word 8) :
      sha256 (digestBytes digest) = digestBytes (fips180.compress initialHash (second_block digest)) := by
    have hlen := digestBytes_length digest
    rw [sha256_eq, absorb_short _ (by omega : (digestBytes digest).length < 64), hlen,
      show 64 * (32 / 64) = 0 from rfl, List.drop_zero, show BitVec.ofNat 64 (8 * 32) = 256 from rfl, second_block_padded,
      absorb_one_block]
  rw [hfirst, hsecond]
  rfl

/-- The byte-reversed double hash, read as a number, is at most the target. -/
def IsShare (midstate : Vector Word 8) (tail : Vector Word 4) (target : Vector Word 8) (nonce : Word) : Prop :=
  beValue (bitcoin_digest (double_digest midstate tail nonce)).toList ≤ beValue target.toList

instance (midstate : Vector Word 8) (tail : Vector Word 4) (target : Vector Word 8) (nonce : Word) :
    Decidable (IsShare midstate tail target nonce) := inferInstanceAs (Decidable (_ ≤ _))

/-- The `k`-th nonce of a job. -/
def Job.nonce (p : Params) (job : Job) (k : Nat) : Word := job.nonce_start + BitVec.ofNat 32 (k * p.NONCE_STRIDE)

def Job.Hit (p : Params) (job : Job) (k : Nat) : Prop :=
  IsShare job.midstate job.header_tail job.target (job.nonce p k)

instance (p : Params) (job : Job) (k : Nat) : Decidable (job.Hit p k) := inferInstanceAs (Decidable (IsShare _ _ _ _))

inductive Pass where
  | first
  | second
deriving DecidableEq

def Pass.state : Pass → EngineState
  | .first => ST_PASS1
  | .second => ST_PASS2

def Pass.chain (job : Job) : Pass → Vector Word 8
  | .first => job.midstate
  | .second => initialHash

def Pass.block (job : Job) (nonce : Word) : Pass → Vector Word 16
  | .first => first_block job.header_tail nonce
  | .second => second_block (first_digest job.midstate job.header_tail nonce)

/-- Where an engine is in the work on one nonce. -/
inductive Stage where
  | launch (pass : Pass)
  | start (pass : Pass)
  | compress (pass : Pass) (n : Nat)
  | done (pass : Pass)
  | compare (idx : Nat)
  | check

/-- The registers of an engine that works on nonce `k` of its job. -/
structure State.Scanning (p : Params) (job : Job) (k : Nat) (s : State) : Prop where
  lt_count : k < job.nonce_count.toNat
  midstate : s.midstate_q = job.midstate
  header_tail : s.header_tail_q = job.header_tail
  target : s.target_q = job.target
  nonce : s.nonce_q = job.nonce p k
  remaining : s.remaining_q.toNat = job.nonce_count.toNat - k
  done : s.done_o = false

/-- The pass selection that the next core start will use. -/
def State.Selects (p : Params) (job : Job) (k : Nat) (s : State) : Pass → Prop
  | .first => s.core_first_pass_q = true
  | .second => s.core_first_pass_q = false ∧ s.digest_q = first_digest job.midstate job.header_tail (job.nonce p k)

/-- The two comparator flags after the first `idx` words. -/
structure State.Compared (s : State) (digest : Vector Word 8) (idx : Nat) : Prop where
  lt : s.cmp_lt_q = true ↔
    beValue ((bitcoin_digest digest).toList.take idx) < beValue (s.target_q.toList.take idx)
  gt : s.cmp_gt_q = true ↔
    beValue (s.target_q.toList.take idx) < beValue ((bitcoin_digest digest).toList.take idx)

/-- What holds at each stage of the work on nonce `k`. -/
def State.At (p : Params) (job : Job) (k : Nat) (s : State) : Stage → Prop
  | .launch pass => s.state_q = ST_LAUNCH ∧ s.launch_state_q = pass.state ∧ s.Selects p job k pass ∧
      s.core_start_q = false ∧ s.u_core.busy_q = false ∧ s.result_valid_o = false
  | .start pass => s.state_q = pass.state ∧ s.Selects p job k pass ∧ s.core_start_q = true ∧
      s.u_core.busy_q = false ∧ s.u_core.done_o = false ∧ s.result_valid_o = false
  | .compress pass n => s.state_q = pass.state ∧ s.core_start_q = false ∧ n < p.core.latency ∧
      s.u_core.Computing p.core (pass.chain job) (pass.block job (job.nonce p k))
        (n / p.core.phases) (n % p.core.phases) ∧ s.result_valid_o = false
  | .done pass => s.state_q = pass.state ∧ s.core_start_q = false ∧ s.u_core.busy_q = false ∧
      s.u_core.done_o = true ∧
      s.u_core.digest_o = fips180.compress (pass.chain job) (pass.block job (job.nonce p k)) ∧
      s.result_valid_o = false
  | .compare idx => s.state_q = ST_COMPARE ∧ s.core_start_q = false ∧ s.u_core.busy_q = false ∧
      s.digest_q = double_digest job.midstate job.header_tail (job.nonce p k) ∧
      idx < 8 ∧ s.cmp_idx_q.toNat = idx ∧ s.Compared s.digest_q idx ∧ s.result_valid_o = false
  | .check => s.state_q = ST_CHECK ∧ s.core_start_q = false ∧ s.u_core.busy_q = false ∧
      (s.result_valid_o = true ↔ job.Hit p k) ∧ (s.result_valid_o = true → s.result_nonce_o = job.nonce p k)

/-- An engine with nothing to do: no state, no core activity and no result
pulse left over. -/
structure State.Idle (s : State) : Prop where
  state : s.state_q = ST_IDLE
  core_start : s.core_start_q = false
  core_busy : s.u_core.busy_q = false
  result_valid : s.result_valid_o = false

/-- An idle core that is not started stays idle, with `done_o` low. -/
theorem core_idle (p : sha256_core_iterative.Params) {c : sha256_core_iterative.State}
    {i : sha256_core_iterative.Input} (hidle : c.busy_q = false) (hstart : i.start_i = false) :
    sha256_core_iterative.step p c i = { c with done_o := false } := by
  simp [sha256_core_iterative.step, hidle, hstart]

theorem Job.nonce_succ (p : Params) (job : Job) (k : Nat) :
    job.nonce p k + p.NONCE_STRIDE_W = job.nonce p (k + 1) := by
  simp only [Job.nonce, Params.NONCE_STRIDE_W, Nat.add_mul, Nat.one_mul, BitVec.ofNat_add, BitVec.add_assoc]

section Steps

variable {p : Params} {job : Job} {k : Nat} {s : State} {i : Input}

/-- Edges on which the engine changes none of its job registers. -/
theorem State.Scanning.keep {next : State} (h : s.Scanning p job k)
    (hmid : next.midstate_q = s.midstate_q) (htail : next.header_tail_q = s.header_tail_q)
    (htarget : next.target_q = s.target_q) (hnonce : next.nonce_q = s.nonce_q)
    (hrem : next.remaining_q = s.remaining_q) (hdone : next.done_o = false) : next.Scanning p job k where
  lt_count := h.lt_count
  midstate := hmid.trans h.midstate
  header_tail := htail.trans h.header_tail
  target := htarget.trans h.target
  nonce := hnonce.trans h.nonce
  remaining := hrem ▸ h.remaining
  done := hdone

theorem step_launch (hs : s.Scanning p job k) {pass : Pass} (hat : s.At p job k (.launch pass))
    (hstop : i.stop_i = false) :
    (step p s i).Scanning p job k ∧ (step p s i).At p job k (.start pass) := by
  obtain ⟨hstate, hlaunch, hsel, hstart, hbusy, _⟩ := hat
  have hcore := core_idle p.core (i := s.core_input.core) hbusy hstart
  have hstep : step p s i = { s with
      core_start_q := true, done_o := false, result_valid_o := false
      u_core := { s.u_core with done_o := false }, state_q := s.launch_state_q } := by
    simp [step, hstop, hstate, hcore]
  rw [hstep]
  refine ⟨hs.keep rfl rfl rfl rfl rfl rfl, hlaunch, ?_, rfl, hbusy, rfl, rfl⟩
  cases pass <;> exact hsel

theorem step_start (hs : s.Scanning p job k) {pass : Pass} (hat : s.At p job k (.start pass))
    (hstop : i.stop_i = false) :
    (step p s i).Scanning p job k ∧ (step p s i).At p job k (.compress pass 0) := by
  obtain ⟨hstate, hsel, hstart, hbusy, hdone, _⟩ := hat
  have hload := load_computing p.core s.u_core s.core_input.core hbusy hstart
  have hstep : step p s i = { s with
      core_start_q := false, done_o := false, result_valid_o := false
      u_core := sha256_core_iterative.step p.core s.u_core s.core_input.core } := by
    cases pass <;> simp [step, hstop, hstate, Pass.state, hdone]
  have hpos : 0 < p.core.latency := by
    unfold Params.latency
    split <;> omega
  rw [hstep]
  refine ⟨hs.keep rfl rfl rfl rfl rfl rfl, hstate, rfl, hpos, ?_, rfl⟩
  rw [Nat.zero_div, Nat.zero_mod]
  cases pass with
  | first =>
    have hfirst : s.core_first_pass_q = true := hsel
    simpa [bitcoin_sha256_core.Input.core, State.core_input, hfirst, Pass.chain, Pass.block, hs.midstate,
      hs.header_tail, hs.nonce] using hload
  | second =>
    obtain ⟨hsecond, hdigest⟩ : s.core_first_pass_q = false ∧ _ := hsel
    simpa [bitcoin_sha256_core.Input.core, State.core_input, hsecond, Pass.chain, Pass.block, hdigest,
      SHA256_IV, initialHash] using hload

/-- A compression edge, of which the last one raises the core's `done_o`. -/
theorem step_compress (hs : s.Scanning p job k) {pass : Pass} {n : Nat}
    (hat : s.At p job k (.compress pass n)) (hstop : i.stop_i = false) :
    (step p s i).Scanning p job k ∧
      if n + 1 < p.core.latency then (step p s i).At p job k (.compress pass (n + 1))
      else (step p s i).At p job k (.done pass) := by
  obtain ⟨hstate, hstart, hn, hcomp, _⟩ := hat
  have hstep : step p s i = { s with
      core_start_q := false, done_o := false, result_valid_o := false
      u_core := sha256_core_iterative.step p.core s.u_core s.core_input.core } := by
    cases pass <;> simp [step, hstop, hstate, Pass.state, hcomp.done]
  rw [hstep]
  refine ⟨hs.keep rfl rfl rfl rfl rfl rfl, ?_⟩
  split
  next hmore => exact ⟨hstate, rfl, hmore, hcomp.step_next hmore _, rfl⟩
  next hlast =>
    obtain ⟨hbusy, hdone, hdigest⟩ := hcomp.step_finish (by omega) s.core_input.core
    exact ⟨hstate, rfl, hbusy, hdone, hdigest, rfl⟩

theorem step_done_first (hs : s.Scanning p job k) (hat : s.At p job k (.done .first)) (hstop : i.stop_i = false) :
    (step p s i).Scanning p job k ∧ (step p s i).At p job k (.launch .second) := by
  obtain ⟨hstate, hstart, hbusy, hdone, hdigest, _⟩ := hat
  have hcore := core_idle p.core (i := s.core_input.core) hbusy hstart
  have hstep : step p s i = { s with
      core_start_q := false, done_o := false, result_valid_o := false
      u_core := { s.u_core with done_o := false }
      digest_q := s.u_core.digest_o, core_first_pass_q := false, launch_state_q := ST_PASS2
      state_q := ST_LAUNCH } := by
    simp only [Pass.state] at hstate
    simp [step, hstop, hstate, hcore, hdone]
  rw [hstep]
  exact ⟨hs.keep rfl rfl rfl rfl rfl rfl, rfl, rfl, ⟨rfl, hdigest⟩, rfl, hbusy, rfl⟩

theorem step_done_second (hs : s.Scanning p job k) (hat : s.At p job k (.done .second)) (hstop : i.stop_i = false) :
    (step p s i).Scanning p job k ∧ (step p s i).At p job k (.compare 0) := by
  obtain ⟨hstate, hstart, hbusy, hdone, hdigest, _⟩ := hat
  have hcore := core_idle p.core (i := s.core_input.core) hbusy hstart
  have hstep : step p s i = { s with
      core_start_q := false, done_o := false, result_valid_o := false
      u_core := { s.u_core with done_o := false }
      digest_q := s.u_core.digest_o, cmp_idx_q := 0, cmp_lt_q := false, cmp_gt_q := false
      state_q := ST_COMPARE } := by
    simp only [Pass.state] at hstate
    simp [step, hstop, hstate, hcore, hdone]
  rw [hstep]
  refine ⟨hs.keep rfl rfl rfl rfl rfl rfl, rfl, rfl, hbusy, hdigest, by omega, rfl, ⟨?_, ?_⟩, rfl⟩ <;> simp

/-- The comparator outcome that `ST_COMPARE` reports at its last word. -/
def State.cmp_hit (s : State) : Bool :=
  s.cmp_lt_q || (!s.cmp_gt_q && decide ((bitcoin_digest s.digest_q).get 7 ≤ s.target_q.get 7))

/-- The comparator branch as one update of the flags it can write. -/
theorem compare_eq {next : State} (hlt : next.cmp_lt_q = s.cmp_lt_q) (hgt : next.cmp_gt_q = s.cmp_gt_q)
    (hvalid : next.result_valid_o = false) :
    s.compare next =
      let flagged := { next with
        cmp_lt_q := s.cmp_lt_q || (!s.cmp_gt_q && decide (s.cmp_digest < s.cmp_target))
        cmp_gt_q := s.cmp_gt_q || (!s.cmp_lt_q && decide (s.cmp_digest > s.cmp_target)) }
      if s.cmp_idx_q = 7 then
        { flagged with
          result_valid_o := s.cmp_hit
          result_nonce_o := if s.cmp_hit then s.nonce_q else next.result_nonce_o
          state_q := ST_CHECK }
      else { flagged with cmp_idx_q := s.cmp_idx_q + 1 } := by
  have hcases : (s.cmp_digest < s.cmp_target ∧ ¬ s.cmp_target < s.cmp_digest) ∨
      (¬ s.cmp_digest < s.cmp_target ∧ s.cmp_target < s.cmp_digest) ∨
      (¬ s.cmp_digest < s.cmp_target ∧ ¬ s.cmp_target < s.cmp_digest) := by
    simp only [BitVec.lt_def]
    omega
  have hfold : (s.cmp_lt_q || (!s.cmp_gt_q && decide ((bitcoin_digest s.digest_q).get 7 ≤ s.target_q.get 7))) =
      s.cmp_hit := rfl
  unfold State.compare
  rw [hfold]
  generalize s.cmp_hit = hit
  obtain ⟨⟩ := next
  simp only at hlt hgt hvalid
  subst hlt hgt hvalid
  rcases hcases with ⟨hd, ht⟩ | ⟨hd, ht⟩ | ⟨hd, ht⟩ <;> cases s.cmp_lt_q <;> cases s.cmp_gt_q <;>
    cases hit <;> by_cases h7 : s.cmp_idx_q = 7 <;> simp [hd, ht, h7]

theorem take_succ_eq (v : Vector Word 8) {idx : Nat} (h : idx < 8) :
    v.toList.take (idx + 1) = v.toList.take idx ++ [v.get ⟨idx, h⟩] := by
  rw [List.take_succ_eq_append_getElem (by simpa using h)]
  simp [Vector.get_eq_getElem]

/-- The flags computed at word `idx` decide the comparison of the first
`idx + 1` words. -/
theorem compare_compared {digest : Vector Word 8} {idx : Nat} (hdigest : s.digest_q = digest)
    (hidx : s.cmp_idx_q.toNat = idx) (hlt8 : idx < 8) (hcmp : s.Compared digest idx) :
    ((s.cmp_lt_q || (!s.cmp_gt_q && decide (s.cmp_digest < s.cmp_target))) = true ↔
      beValue ((bitcoin_digest digest).toList.take (idx + 1)) < beValue (s.target_q.toList.take (idx + 1))) ∧
    ((s.cmp_gt_q || (!s.cmp_lt_q && decide (s.cmp_digest > s.cmp_target))) = true ↔
      beValue (s.target_q.toList.take (idx + 1)) < beValue ((bitcoin_digest digest).toList.take (idx + 1))) := by
  have hd : s.cmp_digest = (bitcoin_digest digest).get ⟨idx, hlt8⟩ := by
    unfold State.cmp_digest
    congr 1
    · rw [hdigest]
    · exact Fin.ext hidx
  have ht : s.cmp_target = s.target_q.get ⟨idx, hlt8⟩ := by
    unfold State.cmp_target
    congr 1
    exact Fin.ext hidx
  have hl := hcmp.lt
  have hg := hcmp.gt
  rw [take_succ_eq _ hlt8, take_succ_eq _ hlt8, concat_lt_iff,
    concat_lt_iff, hd, ht]
  cases hcl : s.cmp_lt_q <;> cases hcg : s.cmp_gt_q <;> simp_all [BitVec.lt_def] <;> omega

/-- The last comparator word decides between share and no share. -/
theorem cmp_hit_iff {digest : Vector Word 8} (hdigest : s.digest_q = digest) (hcmp : s.Compared digest 7) :
    s.cmp_hit = true ↔ beValue (bitcoin_digest digest).toList ≤ beValue s.target_q.toList := by
  have hfull (v : Vector Word 8) : v.toList = v.toList.take 7 ++ [v.get 7] := by
    have h := take_succ_eq v (show 7 < 8 by omega)
    rw [List.take_of_length_le (by simp)] at h
    exact h
  have hl := hcmp.lt
  have hg := hcmp.gt
  rw [hfull (bitcoin_digest digest), hfull s.target_q, ← Nat.not_lt, concat_lt_iff, State.cmp_hit, hdigest]
  by_cases hless : beValue ((bitcoin_digest digest).toList.take 7) < beValue (s.target_q.toList.take 7)
  · rw [hl.mpr hless, Bool.true_or]
    simp only [true_iff]
    omega
  · rw [Bool.eq_false_iff.mpr (hl.not.mpr hless), Bool.false_or]
    by_cases hmore : beValue (s.target_q.toList.take 7) < beValue ((bitcoin_digest digest).toList.take 7)
    · rw [hg.mpr hmore]
      simp only [Bool.not_true, Bool.false_and, Bool.false_eq_true, false_iff]
      omega
    · rw [Bool.eq_false_iff.mpr (hg.not.mpr hmore)]
      simp only [Bool.not_false, Bool.true_and, decide_eq_true_eq, BitVec.le_def]
      omega

theorem step_compare (hs : s.Scanning p job k) {idx : Nat} (hat : s.At p job k (.compare idx))
    (hstop : i.stop_i = false) :
    (step p s i).Scanning p job k ∧
      (step p s i).At p job k (if idx = 7 then .check else .compare (idx + 1)) := by
  obtain ⟨hstate, hstart, hbusy, hdigest, hlt8, hidx, hcmp, _⟩ := hat
  have hcore := core_idle p.core (i := s.core_input.core) hbusy hstart
  obtain ⟨hlt, hgt⟩ := compare_compared hdigest hidx hlt8 (hdigest ▸ hcmp)
  have hstep : step p s i = s.compare { s with
      core_start_q := false, done_o := false, result_valid_o := false
      u_core := { s.u_core with done_o := false } } := by
    simp [step, hstop, hstate, hcore]
  rw [hstep, compare_eq]
  case hlt => rfl
  case hgt => rfl
  case hvalid => rfl
  by_cases hlast : idx = 7
  · have h7 : s.cmp_idx_q = 7 := BitVec.eq_of_toNat_eq (hidx.trans hlast)
    have hhit := cmp_hit_iff hdigest (hlast ▸ hdigest ▸ hcmp)
    simp only [h7, hlast, ↓reduceIte]
    refine ⟨hs.keep rfl rfl rfl rfl rfl rfl, rfl, rfl, hbusy, ?_, ?_⟩
    · rw [hs.target] at hhit
      exact hhit
    · intro hvalid
      rw [← hs.nonce]
      exact if_pos hvalid
  · have h7 : s.cmp_idx_q ≠ 7 := by
      intro heq
      rw [heq] at hidx
      exact hlast hidx.symm
    have hinc : (s.cmp_idx_q + 1).toNat = idx + 1 := by
      rw [BitVec.toNat_add, hidx]
      simp
      omega
    simp only [h7, hlast, ↓reduceIte]
    refine ⟨hs.keep rfl rfl rfl rfl rfl rfl, hstate, rfl, hbusy, hdigest, by omega, hinc, ⟨?_, ?_⟩, rfl⟩
    · simpa only [hdigest] using hlt
    · simpa only [hdigest] using hgt

/-- The last nonce of a job leaves an idle engine and a `done_o` pulse. -/
theorem step_check_last (hs : s.Scanning p job k) (hat : s.At p job k .check) (hstop : i.stop_i = false)
    (hlast : k + 1 = job.nonce_count.toNat) : (step p s i).Idle ∧ (step p s i).done_o = true := by
  obtain ⟨hstate, hstart, hbusy, _, _⟩ := hat
  have hrem := hs.remaining
  have hle : s.remaining_q ≤ 1 := by
    rw [BitVec.le_def, hrem]
    simp
    omega
  have hcore := core_idle p.core (i := s.core_input.core) hbusy hstart
  have hstep : step p s i = { s with
      core_start_q := false, done_o := true, result_valid_o := false
      u_core := { s.u_core with done_o := false }, state_q := ST_IDLE } := by
    simp only [step, hstop, hstate, hcore, hle, ↓reduceIte, Bool.false_eq_true]
  rw [hstep]
  exact ⟨⟨rfl, rfl, hbusy, rfl⟩, rfl⟩

/-- Every other nonce is followed by the next one of the progression. -/
theorem step_check_more (hs : s.Scanning p job k) (hat : s.At p job k .check) (hstop : i.stop_i = false)
    (hmore : k + 1 < job.nonce_count.toNat) :
    (step p s i).Scanning p job (k + 1) ∧ (step p s i).At p job (k + 1) (.launch .first) := by
  obtain ⟨hstate, hstart, hbusy, _, _⟩ := hat
  have hrem := hs.remaining
  have hgt : ¬ s.remaining_q ≤ 1 := by
    rw [BitVec.le_def, hrem]
    simp
    omega
  have hdec : (s.remaining_q - 1).toNat = job.nonce_count.toNat - (k + 1) := by
    have hbound := job.nonce_count.isLt
    rw [BitVec.toNat_sub, hrem]
    simp
    omega
  have hcore := core_idle p.core (i := s.core_input.core) hbusy hstart
  have hstep : step p s i = { s with
      core_start_q := false, done_o := false, result_valid_o := false
      u_core := { s.u_core with done_o := false }
      remaining_q := s.remaining_q - 1, nonce_q := s.nonce_q + p.NONCE_STRIDE_W
      core_first_pass_q := true, launch_state_q := ST_PASS1, state_q := ST_LAUNCH } := by
    simp only [step, hstop, hstate, hcore, hgt, ↓reduceIte, Bool.false_eq_true]
  rw [hstep]
  refine ⟨⟨hmore, hs.midstate, hs.header_tail, hs.target, ?_, hdec, rfl⟩, rfl, rfl, rfl, rfl, hbusy, rfl⟩
  change s.nonce_q + p.NONCE_STRIDE_W = _
  rw [hs.nonce, Job.nonce_succ]

theorem step_idle_start (hidle : s.Idle) (hstop : i.stop_i = false) (hstart : i.start_i = true)
    (hcount : i.nonce_count_i ≠ 0) :
    (step p s i).Scanning p i.job 0 ∧ (step p s i).At p i.job 0 (.launch .first) := by
  have hcore := core_idle p.core (i := s.core_input.core) hidle.core_busy hidle.core_start
  have hpos : 0 < i.nonce_count_i.toNat := by
    rw [Nat.pos_iff_ne_zero]
    intro hzero
    exact hcount (BitVec.eq_of_toNat_eq hzero)
  have hstep : step p s i = { s with
      core_start_q := false, done_o := false, result_valid_o := false
      u_core := { s.u_core with done_o := false }
      midstate_q := i.midstate_i, header_tail_q := i.header_tail_i, target_q := i.target_i
      nonce_q := i.nonce_start_i, remaining_q := i.nonce_count_i, digest_q := Vector.replicate 8 0
      cmp_idx_q := 0, cmp_lt_q := false, cmp_gt_q := false
      core_first_pass_q := true, launch_state_q := ST_PASS1, state_q := ST_LAUNCH } := by
    simp only [step, hstop, hidle.state, hcore, hstart, hcount, ↓reduceIte, Bool.false_eq_true, Bool.true_and,
      bne_iff_ne, ne_eq, not_false_eq_true]
  rw [hstep]
  refine ⟨⟨hpos, rfl, rfl, rfl, ?_, rfl, rfl⟩, rfl, rfl, rfl, rfl, hidle.core_busy, rfl⟩
  simp [Job.nonce, Input.job]

/-- An idle engine that is not started, or is started with nothing to do, or
is stopped, stays idle. -/
theorem step_idle (hidle : s.Idle) (hquiet : i.start_i = false ∨ i.nonce_count_i = 0 ∨ i.stop_i = true) :
    (step p s i).Idle ∧ (step p s i).done_o = false := by
  have hcore := core_idle p.core (i := s.core_input.core) hidle.core_busy hidle.core_start
  have hstep : step p s i = { s with
      core_start_q := false, done_o := false, result_valid_o := false
      u_core := { s.u_core with done_o := false }, state_q := ST_IDLE } := by
    cases hstop : i.stop_i <;> rcases hquiet with h | h | h <;> simp_all [step, hidle.state]
  rw [hstep]
  exact ⟨⟨rfl, rfl, hidle.core_busy, rfl⟩, rfl⟩

end Steps

end scu35.bitcoin_hash_engine
