import Scu35Miner.Rtl.HashEngine.Run
import Scu35Miner.Software.Stratum.Handlers
import Scu35Miner.Software.Stratum.Recheck

open fips180 radix clocked

namespace scu35.stratum

open sha256_sw bitcoin bitcoin_sha256_core bitcoin_hash_engine

theorem patch_nonce_take {header : List Byte} (hlen : header.length = 80) (nonce : Word) :
    (patch_nonce header nonce).take 64 = header.take 64 := by
  rw [patch_nonce_eq, List.take_append_of_le_length (by simp [hlen]), List.take_take, Nat.min_eq_left (by decide)]

/-- The tail of a patched header: twelve bytes of the header and the nonce. -/
theorem patch_nonce_drop {header : List Byte} (hlen : header.length = 80) (nonce : Word) :
    (patch_nonce header nonce).drop 64 = (header.drop 64).take 12 ++ wordBytes nonce := by
  rw [patch_nonce_eq, List.drop_append_of_le_length (by simp [hlen]), List.drop_take]

theorem wordBytes_load_be32 {bytes : List Byte} (h : 4 ≤ bytes.length) : wordBytes (load_be32 bytes) = bytes.take 4 := by
  match bytes, h with
  | a :: b :: c :: d :: rest, _ =>
    rw [load_be32_eq, wordBytes_ofBytes]
    simp

/-- The tail of a patched header, as the words an engine is loaded with. -/
theorem patch_nonce_tail {header : List Byte} (hlen : header.length = 80) (nonce : Word) :
    (patch_nonce header nonce).drop 64 =
      ((bitcoin_header_tail_words header).toList.take 3 ++ [nonce]).flatMap wordBytes := by
  have htail : (header.drop 64).take 12 = (header.drop 64).take 4 ++ ((header.drop 68).take 4 ++ (header.drop 72).take 4) := by
    rw [show 12 = 4 + (4 + 4) from rfl, List.take_add, List.take_add, List.drop_drop, List.drop_drop]
  have hwords : (bitcoin_header_tail_words header).toList.take 3 ++ [nonce] =
      [load_be32 (header.drop 64), load_be32 (header.drop 68), load_be32 (header.drop 72), nonce] := rfl
  rw [patch_nonce_drop hlen, htail, hwords]
  simp only [List.flatMap_cons, List.flatMap_nil, List.append_nil]
  rw [wordBytes_load_be32 (by simp [hlen]), wordBytes_load_be32 (by simp [hlen]), wordBytes_load_be32 (by simp [hlen])]
  simp only [List.append_assoc]

/-- The engine computes the double hash of the header with its nonce. -/
theorem double_digest_header {header : List Byte} (hlen : header.length = 80) (nonce : Word) :
    double_sha256 (patch_nonce header nonce) =
      digestBytes (double_digest (bitcoin_header_midstate header) (bitcoin_header_tail_words header) nonce) := by
  have hfirst : (header.take 64).length = 64 := by simp [hlen]
  rw [bitcoin_header_midstate_eq (by omega), double_digest_sha256 hfirst, double_sha256, ← patch_nonce_tail hlen,
    ← patch_nonce_take hlen nonce, List.take_append_drop]

/-- What the recheck of a result computes for a nonce of a header. -/
def recheck (header : List Byte) (target : Vector Word 8) (nonce : Word) : Bool :=
  share_valid (sha256d (patch_nonce header nonce)) target

/-- The comparator of an engine and the recheck agree on every nonce. -/
theorem isShare_iff_recheck {header : List Byte} (hlen : header.length = 80) (target : Vector Word 8) (nonce : Word) :
    IsShare (bitcoin_header_midstate header) (bitcoin_header_tail_words header) target nonce ↔
      recheck header target nonce = true := by
  rw [recheck, share_valid_sha256d_iff, MeetsTarget, double_digest_header hlen, IsShare, bitcoin_digest_value,
    beValue_reverse]

/-- A run of an engine: started when it is free, and not stopped before it is
done. -/
structure EngineRun where
  p : Params
  before : bitcoin_hash_engine.State
  ins : Nat → bitcoin_hash_engine.Input
  reachable : Reachable (bitcoin_hash_engine.step p) IsReset before
  free : before.busy_o = false
  start : (ins 0).start_i = true
  count : (ins 0).nonce_count_i ≠ 0
  no_stop : ∀ n ≤ p.period * (ins 0).nonce_count_i.toNat, (ins n).stop_i = false

/-- The nonces for which the run raises `result_valid_o`, in order. -/
def EngineRun.nonces (r : EngineRun) : List Word :=
  raised r.p r.before r.ins 1 (r.p.period * (r.ins 0).nonce_count_i.toNat + 1)

/-- The engine was loaded with the words that `build_header` writes. -/
structure EngineRun.Loaded (r : EngineRun) (header : List Byte) (target : Vector Word 8) : Prop where
  midstate : (r.ins 0).midstate_i = bitcoin_header_midstate header
  tail : (r.ins 0).header_tail_i = bitcoin_header_tail_words header
  target : (r.ins 0).target_i = target

section Agreement

variable {header : List Byte} {target : Vector Word 8}

/-- An engine raises exactly the nonces of its progression that pass the
recheck. -/
theorem EngineRun.Loaded.nonces_eq {r : EngineRun} (h : r.Loaded header target) (hlen : header.length = 80) :
    r.nonces = ((List.range (r.ins 0).nonce_count_i.toNat).filter fun k =>
      recheck header target ((r.ins 0).job.nonce r.p k)).map ((r.ins 0).job.nonce r.p) := by
  have hscan := (scans_progression r.p r.reachable r.free r.ins r.start r.count r.no_stop).1
  refine hscan.trans (congrArg _ (List.filter_congr fun k _ => ?_))
  rw [Bool.eq_iff_iff, decide_eq_true_eq, ← Job.hit_iff, ← isShare_iff_recheck hlen, ← h.midstate, ← h.tail, ← h.target]
  rfl

theorem EngineRun.Loaded.rechecked {r : EngineRun} (h : r.Loaded header target) (hlen : header.length = 80) {nonce : Word}
    (hmem : nonce ∈ r.nonces) : recheck header target nonce = true := by
  rw [h.nonces_eq hlen] at hmem
  obtain ⟨k, hk, rfl⟩ := List.mem_map.mp hmem
  exact (List.mem_filter.mp hk).2

/-- The event for a result that fails the recheck. -/
def hardware_fault : Output := .event .hardware_solution_invalid

theorem out_no_fault {st : State} (hfree : hardware_fault ∉ st.outputs) {outputs : List Output}
    (hquiet : hardware_fault ∉ outputs) : hardware_fault ∉ (st.out outputs).outputs := by
  simp [State.out, hfree, hquiet]

theorem recheck_patch_nonce (hlen : header.length = 80) (earlier nonce : Word) :
    recheck (patch_nonce header earlier) target nonce = recheck header target nonce := by
  rw [recheck, recheck, patch_nonce_eq, patch_nonce_eq, patch_nonce_eq, List.take_append_of_le_length (by simp [hlen]),
    List.take_take, Nat.min_self]

theorem submit_result_kept (nonce : Word) (sent : Bool) (now : Word) (st : State) :
    (submit_result nonce sent now st).1.header = patch_nonce st.header nonce ∧
      (submit_result nonce sent now st).1.job = st.job := by
  obtain ⟨next_id, pending, outputs, _, _, heq | ⟨_, heq⟩⟩ := submit_result_cases nonce sent now st
  · rw [heq]
    exact ⟨rfl, rfl⟩
  · rw [heq]
    exact ⟨rfl, rfl⟩

theorem submit_result_no_fault {st : State} (hfree : hardware_fault ∉ st.outputs) {nonce : Word}
    (hvalid : recheck st.header st.job.target nonce = true) (sent : Bool) (now : Word) :
    hardware_fault ∉ (submit_result nonce sent now st).1.outputs := by
  have hpatched : hardware_fault ∉ (st.patched nonce).outputs := out_no_fault hfree (by simp [hardware_fault])
  unfold submit_result
  extract_lets st1 st2 digest share st3 st4 event
  have hst2 : hardware_fault ∉ st2.outputs := hpatched
  have hst4 : hardware_fault ∉ st4.outputs := out_no_fault hst2 (by simp [hardware_fault])
  have hpassed : share_valid digest st2.job.target = true := hvalid
  rw [hpassed, if_neg (by simp)]
  split
  next => exact out_no_fault hst2 (by simp [hardware_fault])
  next =>
    split_ifs
    · exact hst2
    · exact hst2
    · exact hst4
    · exact out_no_fault hst4 (by simp [hardware_fault])

theorem result_loop_no_fault {env : Environment} (n k : Nat) {st : State} (hlen : st.header.length = 80)
    (hfree : hardware_fault ∉ st.outputs)
    (hvalid : ∀ k, env.result_status k &&& 1 ≠ 0 → recheck st.header st.job.target (env.result_nonce k) = true) :
    hardware_fault ∉ (result_loop env n k st).1.outputs := by
  induction n generalizing k st with
  | zero => exact hfree
  | succ n ih =>
    rw [result_loop]
    split
    next => exact hfree
    next hstatus =>
      have hsubmit := submit_result_no_fault hfree (hvalid k hstatus) (env.sent k) env.now
      obtain ⟨hheader, hjob⟩ := submit_result_kept (env.result_nonce k) (env.sent k) env.now st
      obtain ⟨r, hr⟩ : ∃ r, r = submit_result (env.result_nonce k) (env.sent k) env.now st := ⟨_, rfl⟩
      rw [← hr] at hsubmit hheader hjob ⊢
      dsimp only
      split
      next => exact hsubmit
      next =>
        refine ih (k + 1) ?_ hsubmit ?_
        · rw [hheader, patch_nonce_eq]
          simp [hlen, wordBytes_length]
        · intro k' hk'
          rw [hheader, hjob, recheck_patch_nonce hlen]
          exact hvalid k' hk'

theorem stop_no_fault {st : State} (hfree : hardware_fault ∉ st.outputs) : hardware_fault ∉ (stop st).outputs := by
  have hstopped : hardware_fault ∉ ({ st with running := false } : State).outputs := hfree
  exact out_no_fault hstopped (by simp [hardware_fault])

theorem start_range_no_fault {st : State} (hfree : hardware_fault ∉ st.outputs) :
    hardware_fault ∉ (start_range st).outputs := by
  have hstarted : hardware_fault ∉ ({ st with running := true } : State).outputs := hfree
  exact out_no_fault hstarted (by simp [hardware_fault])

theorem build_header_no_fault {st : State} (hfree : hardware_fault ∉ st.outputs) :
    hardware_fault ∉ (build_header st).1.outputs := by
  obtain ⟨time, _, _, _, heq⟩ | ⟨hex, heq⟩ := build_header_cases st
  · have hload : hardware_fault ∉ (st.load time).outputs := out_no_fault hfree (by simp [job_writes, hardware_fault])
    rw [heq]
    exact start_range_no_fault hload
  · rw [heq]
    exact hfree

theorem next_range_no_fault {st : State} (hfree : hardware_fault ∉ st.outputs) :
    hardware_fault ∉ (next_range st).1.outputs := by
  have hwindow : hardware_fault ∉ ({ st with range_start := st.range_start + RANGE } : State).outputs := hfree
  obtain ⟨_, heq⟩ | ⟨_, heq⟩ := next_range_cases st
  · rw [heq]
    exact build_header_no_fault (stop_no_fault hwindow)
  · rw [heq]
    exact start_range_no_fault hwindow

/-- Polling the results of an engine that works on the current header and
target never reports an invalid one. -/
theorem service_results_no_fault {env : Environment} {st : State} (hlen : st.header.length = 80)
    (hfree : hardware_fault ∉ st.outputs)
    (hvalid : ∀ k, env.result_status k &&& 1 ≠ 0 → recheck st.header st.job.target (env.result_nonce k) = true) :
    hardware_fault ∉ (service_results env st).1.outputs := by
  have hloop := result_loop_no_fault 16 0 hlen hfree hvalid
  rw [service_results]
  obtain ⟨r, hr⟩ : ∃ r, r = result_loop env 16 0 st := ⟨_, rfl⟩
  rw [← hr] at hloop ⊢
  split
  next => exact hfree
  next =>
    split
    next => exact out_no_fault hfree (by simp [hardware_fault])
    next =>
      dsimp only
      split
      next => exact hloop
      next =>
        split
        next => exact next_range_no_fault hloop
        next => exact hloop

/-- Hardware and firmware agree on what a share is: an engine that runs on the
words of a header and target raises exactly the nonces that the recheck finds
valid, so that a poll of such results never reports an invalid one. -/
theorem hardware_agrees (hlen : header.length = 80) :
    (∀ r : EngineRun, r.Loaded header target →
      r.nonces = ((List.range (r.ins 0).nonce_count_i.toNat).filter fun k =>
        recheck header target ((r.ins 0).job.nonce r.p k)).map ((r.ins 0).job.nonce r.p)) ∧
    ∀ (env : Environment) (st : State), st.header = header → st.job.target = target → hardware_fault ∉ st.outputs →
      (∀ k, env.result_status k &&& 1 ≠ 0 → ∃ r : EngineRun, r.Loaded header target ∧ env.result_nonce k ∈ r.nonces) →
      hardware_fault ∉ (service_results env st).1.outputs := by
  refine ⟨fun r h => h.nonces_eq hlen, ?_⟩
  rintro env st rfl rfl hfree hproduced
  refine service_results_no_fault hlen hfree fun k hk => ?_
  obtain ⟨r, hloaded, hmem⟩ := hproduced k hk
  exact hloaded.rechecked hlen hmem

end Agreement

/-- The run of a deployed engine on one nonce of an empty header. -/
def empty_header_run : EngineRun where
  p := deployed_params
  before := reset_state
  ins _ := ⟨true, false, bitcoin_header_midstate (List.replicate 80 0),
    bitcoin_header_tail_words (List.replicate 80 0), Vector.replicate 8 0xffffffff, 5, 1⟩
  reachable := .reset reset_state_isReset
  free := rfl
  start := rfl
  count := by decide
  no_stop _ _ := rfl

theorem empty_header_agrees : empty_header_run.nonces =
    ((List.range 1).filter fun k => recheck (List.replicate 80 0) (Vector.replicate 8 0xffffffff)
      ((empty_header_run.ins 0).job.nonce deployed_params k)).map ((empty_header_run.ins 0).job.nonce deployed_params) :=
  (hardware_agrees (by decide)).1 empty_header_run ⟨rfl, rfl, rfl⟩

end scu35.stratum
