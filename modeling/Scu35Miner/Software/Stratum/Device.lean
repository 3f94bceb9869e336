import Scu35Miner.Rtl.MinerAxi.Polling
import Scu35Miner.Software.Stratum.Hardware

open fips180 clocked

namespace scu35.stratum

open bitcoin sha256_sw bitcoin_miner_axi

/-- A word that the firmware writes, as it goes over the bus. -/
def bus_write_of (offset : Nat) (value : Word) : BusWrite := ⟨BitVec.ofNat 12 offset, value, 0xf⟩

/-- The register writes among the outputs, in order. -/
def bus_writes (outputs : List Output) : List BusWrite :=
  outputs.filterMap fun
    | .reg_write offset value => some (bus_write_of offset value)
    | _ => none

/-- What a write of a whole word leaves in a data word. -/
def word_written (a : DataWord) (w : BusWrite) : Option Word := if a.addr = w.addr then some w.data else none

theorem apply_full_strobe (old new : Word) : apply_wstrb old new 0xf = new := by
  apply BitVec.eq_of_getLsbD_eq
  intro i hi
  simp [apply_wstrb, ofBytes_getLsbD]
  split_ifs <;> grind

theorem bus_writes_append (outputs next : List Output) :
    bus_writes (outputs ++ next) = bus_writes outputs ++ bus_writes next := List.filterMap_append

theorem bus_writes_file (outputs : List Output) (file : DataWord → Word) (a : DataWord) :
    (bus_writes outputs).foldl file_write file a =
      (((bus_writes outputs).filterMap (word_written a)).getLast?).getD (file a) := by
  induction outputs using List.reverseRecOn with
  | nil => rfl
  | append_singleton outputs o ih =>
    rw [bus_writes_append, List.foldl_append, List.filterMap_append]
    cases o with
    | reg_write offset value =>
      rw [show bus_writes [.reg_write offset value] = [bus_write_of offset value] from rfl, List.foldl_cons, List.foldl_nil]
      by_cases hword : a.addr = BitVec.ofNat 12 offset
      · simp [file_write, word_written, bus_write_of, hword]
        exact apply_full_strobe _ _
      · simp [file_write, word_written, bus_write_of, hword, ih]
    | _ => simpa [bus_writes] using ih

theorem getD_lane {n : Nat} (words : Vector Word n) (k : Fin n) : words.toList.getD k 0 = words[k] := by simp

theorem job_writes_midstate (mid target : Vector Word 8) (tail : Vector Word 4) (k : Fin 8) :
    (bus_writes (job_writes mid target tail)).filterMap (word_written (.midstate k)) = [mid[k]] := by
  rw [← getD_lane]
  fin_cases k <;> rfl

theorem job_writes_target (mid target : Vector Word 8) (tail : Vector Word 4) (k : Fin 8) :
    (bus_writes (job_writes mid target tail)).filterMap (word_written (.target k)) = [target[k]] := by
  rw [← getD_lane]
  fin_cases k <;> rfl

theorem job_writes_tail (mid target : Vector Word 8) (tail : Vector Word 4) (k : Fin 4) :
    (bus_writes (job_writes mid target tail)).filterMap (word_written (.header_tail k)) = [tail[k]] := by
  rw [← getD_lane]
  fin_cases k <;> rfl

/-- The words of a miner after the register writes among these outputs. -/
def file_after (file : DataWord → Word) (outputs : List Output) : DataWord → Word :=
  (bus_writes outputs).foldl file_write file

/-- Outputs that write no data word but those of the nonces. -/
def KeepsWork (outputs : List Output) : Prop :=
  ∀ offset value, .reg_write offset value ∈ outputs → offset ∈ [0x00, 0x80, 0x84, 0x98, 0xa0]

theorem KeepsWork.untouched {outputs : List Output} (h : KeepsWork outputs) {a : DataWord} (hstart : a ≠ .nonce_start)
    (hcount : a ≠ .nonce_count) : (bus_writes outputs).filterMap (word_written a) = [] := by
  rw [List.filterMap_eq_nil_iff]
  intro w hw
  obtain ⟨o, ho, hbus⟩ := List.mem_filterMap.mp hw
  cases o with
  | reg_write offset value =>
    cases hbus
    have hoffset := h offset value ho
    refine if_neg fun haddr => ?_
    change a.addr = BitVec.ofNat 12 offset at haddr
    rw [addr_eq_iff, BitVec.toNat_ofNat] at haddr
    simp only [List.mem_cons, List.not_mem_nil, or_false] at hoffset
    cases a with
    | nonce_start => exact hstart rfl
    | nonce_count => exact hcount rfl
    | _ =>
      simp only [DataWord.offset] at haddr
      omega
  | _ => cases hbus

theorem file_after_append {file : DataWord → Word} {outputs next : List Output} (h : KeepsWork next) {a : DataWord}
    (hstart : a ≠ .nonce_start) (hcount : a ≠ .nonce_count) :
    file_after file (outputs ++ next) a = file_after file outputs a := by
  rw [file_after, file_after, bus_writes_file, bus_writes_file, bus_writes_append, List.filterMap_append,
    h.untouched hstart hcount, List.append_nil]

/-- The miner holds the work of a session: the target and, but for the nonce, the
header. -/
structure State.Loaded (st : State) (header : List Byte) (file : DataWord → Word) : Prop where
  length : header.length = 80
  same_length : st.header.length = 80
  front : st.header.take 76 = header.take 76
  midstate : ∀ k, file (.midstate k) = (bitcoin_header_midstate header)[k]
  header_tail : ∀ k, file (.header_tail k) = (bitcoin_header_tail_words header)[k]
  target : ∀ k, file (.target k) = st.job.target[k]

section Session

variable {st : State} {header : List Byte} {file : DataWord → Word}

theorem State.Loaded.extend {st' : State} (h : st.Loaded header (file_after file st.outputs)) (next : List Output)
    (hnext : KeepsWork next) (houtputs : st'.outputs = st.outputs ++ next)
    (hheader : st'.header = st.header ∨ ∃ nonce, st'.header = patch_nonce st.header nonce)
    (htarget : st'.job.target = st.job.target) : st'.Loaded header (file_after file st'.outputs) where
  length := h.length
  same_length := by
    obtain heq | ⟨nonce, heq⟩ := hheader
    · rw [heq, h.same_length]
    · simp [heq, patch_nonce_eq, wordBytes_length, h.same_length]
  front := by
    obtain heq | ⟨nonce, heq⟩ := hheader
    · rw [heq, h.front]
    · have hfront : (st.header.take 76).length = 76 := by simp [h.same_length]
      rw [heq, patch_nonce_eq, List.take_left' hfront, h.front]
  midstate k := by
    rw [houtputs, file_after_append hnext (by simp) (by simp)]
    exact h.midstate k
  header_tail k := by
    rw [houtputs, file_after_append hnext (by simp) (by simp)]
    exact h.header_tail k
  target k := by
    rw [houtputs, file_after_append hnext (by simp) (by simp), htarget]
    exact h.target k

theorem State.Loaded.start_range (h : st.Loaded header (file_after file st.outputs)) :
    (start_range st).Loaded header (file_after file (start_range st).outputs) := by
  refine h.extend [.reg_write 0 4, .reg_write 0x80 st.range_start, .reg_write 0x84 RANGE, .reg_write 0 1,
    .start st.extra2_hex st.range_start, .mining true] ?_ rfl (.inl rfl) rfl
  intro offset value hmem
  simp at hmem ⊢
  omega

theorem State.Loaded.stop (h : st.Loaded header (file_after file st.outputs)) :
    (stop st).Loaded header (file_after file (stop st).outputs) := by
  refine h.extend [.reg_write 0xa0 1, .reg_write 0 2, .delay, .reg_write 0 4, .reg_write 0x98 3, .mining false] ?_
    rfl (.inl rfl) rfl
  intro offset value hmem
  simp at hmem ⊢
  omega

/-- A header that is built is loaded, whatever the registers held. -/
theorem build_header_loaded (file : DataWord → Word) (hok : (build_header st).2 = true) :
    ∃ header, (build_header st).1.Loaded header (file_after file (build_header st).1.outputs) := by
  obtain ⟨time, -, -, -, heq⟩ | ⟨hex, heq⟩ := build_header_cases st
  · rw [heq]
    have hwritten (a : DataWord) {value : Word}
        (hvalue : (bus_writes (job_writes (bitcoin_header_midstate (st.new_header time)) st.job.target
          (bitcoin_header_tail_words (st.new_header time)))).filterMap (word_written a) = [value]) :
        file_after file (st.load time).outputs a = value := by
      change file_after file (st.outputs ++ _) a = value
      rw [file_after, bus_writes_file, bus_writes_append, List.filterMap_append, hvalue]
      simp
    have hloaded : (st.load time).Loaded (st.new_header time) (file_after file (st.load time).outputs) :=
      ⟨bitcoin_build_header_length .., bitcoin_build_header_length .., rfl, fun k => hwritten _ (job_writes_midstate _ _ _ k),
        fun k => hwritten _ (job_writes_tail _ _ _ k), fun k => hwritten _ (job_writes_target _ _ _ k)⟩
    exact ⟨_, hloaded.start_range⟩
  · rw [heq] at hok
    cases hok

theorem State.Loaded.submit_result (h : st.Loaded header (file_after file st.outputs)) (nonce : Word) (sent : Bool)
    (now : Word) : (submit_result nonce sent now st).1.Loaded header
      (file_after file (submit_result nonce sent now st).1.outputs) := by
  have hpatched : (st.patched nonce).Loaded header (file_after file (st.patched nonce).outputs) :=
    h.extend [.reg_write 0x98 1] (by simp [KeepsWork]) rfl (.inr ⟨nonce, rfl⟩) rfl
  unfold stratum.submit_result
  extract_lets st1 st2 digest share st3 st4 event
  have hsilent {st' : State} (outputs : List Output) (hkeeps : KeepsWork outputs)
      (houtputs : st'.outputs = (st.patched nonce).outputs ++ outputs) (hheader : st'.header = (st.patched nonce).header)
      (hjob : st'.job = (st.patched nonce).job) : st'.Loaded header (file_after file st'.outputs) :=
    hpatched.extend outputs hkeeps houtputs (.inl hheader) (by rw [hjob])
  split
  next => exact hsilent [.event .hardware_solution_invalid] (by simp [KeepsWork]) rfl rfl rfl
  next =>
    split
    next => exact hsilent [.event .share_queue_full] (by simp [KeepsWork]) rfl rfl rfl
    next =>
      split_ifs
      · exact hpatched
      · exact hsilent [] (by simp [KeepsWork]) (List.append_nil _).symm rfl rfl
      · exact hsilent [.submit share st3.header] (by simp [KeepsWork]) rfl rfl rfl
      · refine hsilent ([.submit share st3.header] ++ [.detail event]) (by simp [KeepsWork]) ?_ rfl rfl
        exact List.append_assoc (st.patched nonce).outputs [.submit share st3.header] [.detail event]

theorem State.Loaded.result_loop (h : st.Loaded header (file_after file st.outputs)) (env : Environment) (n k : Nat) :
    (result_loop env n k st).1.Loaded header (file_after file (result_loop env n k st).1.outputs) := by
  induction n generalizing k st with
  | zero => exact h
  | succ n ih =>
    have hsubmit := h.submit_result (env.result_nonce k) (env.sent k) env.now
    rw [stratum.result_loop]
    generalize stratum.submit_result (env.result_nonce k) (env.sent k) env.now st = r at hsubmit ⊢
    dsimp only
    split
    · exact h
    · split
      · exact hsubmit
      · exact ih hsubmit (k + 1)

/-- A poll keeps the work loaded, or loads the next. -/
theorem State.Loaded.service_results (h : st.Loaded header (file_after file st.outputs)) {env : Environment}
    (hok : (service_results env st).2 = true) :
    ∃ header, (service_results env st).1.Loaded header (file_after file (service_results env st).1.outputs) := by
  have hloop := h.result_loop env 16 0
  revert hok
  rw [stratum.service_results]
  generalize stratum.result_loop env 16 0 st = r at hloop ⊢
  intro hok
  split at hok
  next hstopped =>
    rw [if_pos hstopped]
    exact ⟨header, h⟩
  next hruns =>
    rw [if_neg hruns]
    split at hok
    next => cases hok
    next hclear =>
      rw [if_neg hclear]
      dsimp only at hok ⊢
      split at hok
      next hfailed =>
        rw [if_pos hfailed]
        exact ⟨header, hloop⟩
      next hwent =>
        rw [if_neg hwent]
        split at hok
        next hlast =>
          rw [if_pos hlast]
          have hwindow : ({ r.1 with range_start := r.1.range_start + RANGE } : State).Loaded header
              (file_after file r.1.outputs) := ⟨hloop.length, hloop.same_length, hloop.front, hloop.midstate, hloop.header_tail, hloop.target⟩
          obtain ⟨_, heq⟩ | ⟨_, heq⟩ := next_range_cases r.1
          · rw [heq] at hok ⊢
            exact build_header_loaded file hok
          · rw [heq]
            exact ⟨header, hwindow.start_range⟩
        next hmore =>
          rw [if_neg hmore]
          exact ⟨header, hloop⟩

/-- A session that mines: a header was built, and every poll since went well. -/
inductive Mining : State → Prop where
  | built {st : State} : (build_header st).2 = true → Mining (build_header st).1
  | polled {st : State} (env : Environment) : Mining st → (service_results env st).2 = true →
      Mining (service_results env st).1

theorem Mining.loaded (h : Mining st) (file : DataWord → Word) :
    ∃ header, st.Loaded header (file_after file st.outputs) := by
  induction h with
  | built hok => exact build_header_loaded file hok
  | polled env _ hok ih =>
    obtain ⟨header, hloaded⟩ := ih
    exact hloaded.service_results hok

end Session

section Device

variable {p : Params} {st : State} {header : List Byte}

/-- The shares of the job that a loaded miner runs are what the recheck accepts. -/
theorem State.Loaded.job_share_iff {s : bitcoin_miner_axi.State p} (h : st.Loaded header s.word) (i : Nat) :
    JobShare s.toRegisters.job i ↔ recheck st.header st.job.target (job_nonce s.toRegisters.job i) = true := by
  have hmidstate : s.midstate_q = bitcoin_header_midstate header := Vector.ext fun k hk => h.midstate ⟨k, hk⟩
  have htail : s.header_tail_q = bitcoin_header_tail_words header := Vector.ext fun k hk => h.header_tail ⟨k, hk⟩
  have htarget : s.target_q = st.job.target := Vector.ext fun k hk => h.target ⟨k, hk⟩
  have hfront (nonce : Word) : recheck st.header st.job.target nonce = recheck header st.job.target nonce := by
    rw [recheck, recheck, patch_nonce_eq, patch_nonce_eq, h.front]
  change bitcoin_hash_engine.IsShare s.midstate_q s.header_tail_q s.target_q _ ↔ _
  rw [hmidstate, htail, htarget, hfront, isShare_iff_recheck h.length]

variable {r : bitcoin_miner_axi.State p} {ins : Nat → Input p} {start n : Nat}

/-- The START of `start_range`, as it goes over the bus. -/
def start_write : BusWrite := bus_write_of 0 1

theorem file_write_start (file : DataWord → Word) : file_write file start_write = file := by
  funext a
  refine if_neg fun haddr => ?_
  rw [addr_eq_iff] at haddr
  change 0 = a.offset at haddr
  cases a <;> simp only [DataWord.offset] at haddr <;> omega

/-- A miner that has applied the writes of a session holds its work. -/
theorem Mining.holds (hmining : Mining st) (hreset : IsReset r) (hmaster : StableWrites r ins) {earlier : List BusWrite}
    (hissued : (writes_taken r ins start).take (writes_applied r ins start) ++ [start_write] =
      earlier ++ bus_writes st.outputs) : ∃ header, st.Loaded header (trace (bitcoin_miner_axi.step p) r ins start).word := by
  have hfile : (trace (bitcoin_miner_axi.step p) r ins start).word =
      ((writes_taken r ins start).take (writes_applied r ins start)).foldl file_write r.word :=
    (writes_serial hreset hmaster).store (fun u => (trace (bitcoin_miner_axi.step p) r ins u).word)
      (fun u q hq => file_step hq (ins u)) (fun u hu => file_kept hu (ins u)) start
  have hwhole : (trace (bitcoin_miner_axi.step p) r ins start).word = file_after (earlier.foldl file_write r.word) st.outputs := by
    rw [file_after, ← List.foldl_append, ← hissued, List.foldl_append, List.foldl_cons, List.foldl_nil, file_write_start,
      hfile]
  rw [hwhole]
  exact hmining.loaded _

/-- The results of a poll are read while the job runs: `RESULT_STATUS` and, where it
shows a result, `RESULT_NONCE` before the acknowledgement. -/
def Environment.ReadFrom (env : Environment) (r : bitcoin_miner_axi.State p) (ins : Nat → Input p) (start n : Nat) : Prop :=
  ∀ k, env.result_status k &&& 1 ≠ 0 → ∃ a b, start < a ∧ a ≤ b ∧ b ≤ start + n ∧
    env.result_status k = BusRead.value r ins ⟨a, ADDR_RESULT_STATUS⟩ ∧
    env.result_nonce k = BusRead.value r ins ⟨b, ADDR_RESULT_NONCE⟩ ∧
    ∀ x, a ≤ x → x < b → (trace (bitcoin_miner_axi.step p) r ins x).result_status_write 0 = false

theorem low_bit {x : Word} (h : x &&& 1 ≠ 0) : x.getLsbD 0 = true := by
  by_contra hclear
  refine h (BitVec.eq_of_getLsbD_eq fun i hi => ?_)
  have hone : (1 : Word).getLsbD i = decide (i = 0) := by
    rw [show (1 : Word) = 1#32 from rfl, BitVec.getLsbD_one]
    simp
  rw [BitVec.getLsbD_and, hone]
  by_cases hzero : i = 0
  · rw [Bool.not_eq_true] at hclear
    rw [hzero, hclear]
    rfl
  · simp [hzero]

/-- The firmware and the miner work together. A miner that is started with the
register writes of a mining session presents, while the job runs, only nonces that
the recheck of the session accepts, so that no poll of the session reports an
invalid one. -/
theorem mining_results_verified (hmining : Mining st) (hreset : IsReset r) (hmaster : StableWrites r ins)
    {earlier : List BusWrite} (hissued : (writes_taken r ins start).take (writes_applied r ins start) ++ [start_write] =
      earlier ++ bus_writes st.outputs) (hquiet : (trace (bitcoin_miner_axi.step p) r ins start).Quiescent)
    (hdrained : ∀ c, (trace (bitcoin_miner_axi.step p) r ins start).Drained c)
    (hheld : JobHeld (trace (bitcoin_miner_axi.step p) r ins start) (after ins start)) (h : JobAlone r ins start n) :
    (∀ t, 1 ≤ t → t ≤ n → (trace (bitcoin_miner_axi.step p) r ins (start + t)).result_valid_q = true →
      recheck st.header st.job.target (trace (bitcoin_miner_axi.step p) r ins (start + t)).result_nonce_q = true) ∧
    ∀ (env : Environment) (st' : State), Mining st' → st'.header.take 76 = st.header.take 76 →
      st'.job.target = st.job.target → hardware_fault ∉ st'.outputs → env.ReadFrom r ins start n →
      hardware_fault ∉ (service_results env st').1.outputs := by
  obtain ⟨header, hloaded⟩ := hmining.holds hreset hmaster hissued
  have hpresents {t : Nat} (hpos : 1 ≤ t) (hle : t ≤ n) (hvalid : (trace (bitcoin_miner_axi.step p) r ins (start + t)).result_valid_q = true) :
      recheck st.header st.job.target (trace (bitcoin_miner_axi.step p) r ins (start + t)).result_nonce_q = true := by
    obtain ⟨i, -, -, hnonce, hshare⟩ := presents_only_shares hreset hquiet hdrained hheld hpos (h.run.mono hle) hvalid
    rw [hnonce]
    exact (hloaded.job_share_iff i).mp hshare
  refine ⟨fun t => hpresents, fun env st' hmining' hfront htarget hfree hreads => ?_⟩
  obtain ⟨_, hloaded'⟩ := hmining'.loaded r.word
  refine service_results_no_fault hloaded'.same_length hfree fun k hstatus => ?_
  obtain ⟨a, b, hstart, hle, hend, hvalue, hnonce, hkeeps⟩ := hreads k hstatus
  have hvalid : (trace (bitcoin_miner_axi.step p) r ins a).result_valid_q = true := by
    rw [← result_status_valid, ← low_bit hstatus, hvalue]
    rfl
  have hstays := (h.result_stays hstart hle hend hvalid hkeeps).2
  obtain ⟨t, rfl⟩ := Nat.exists_eq_add_of_lt (Nat.lt_of_lt_of_le hstart hle)
  rw [hnonce, htarget, recheck, patch_nonce_eq, hfront, ← patch_nonce_eq, ← recheck]
  exact hpresents (t := t + 1) (by omega) (by omega) hstays

end Device

section EmptyJob

/-- A session with an empty job and the easiest target. -/
def empty_job : State :=
  { State.init with job := { State.init.job with time := List.replicate 8 0x30, target := Vector.replicate 8 0xffffffff } }

/-- What it writes to the miner. -/
def empty_job_writes : List BusWrite :=
  [⟨0x020, 0x03c1daa7, 0xf⟩, ⟨0x060, 0xffffffff, 0xf⟩, ⟨0x024, 0x632210e1, 0xf⟩, ⟨0x064, 0xffffffff, 0xf⟩,
    ⟨0x028, 0xb5347abf, 0xf⟩, ⟨0x068, 0xffffffff, 0xf⟩, ⟨0x02c, 0x6fc40ebd, 0xf⟩, ⟨0x06c, 0xffffffff, 0xf⟩,
    ⟨0x030, 0x3c31c32f, 0xf⟩, ⟨0x070, 0xffffffff, 0xf⟩, ⟨0x034, 0xb90a3415, 0xf⟩, ⟨0x074, 0xffffffff, 0xf⟩,
    ⟨0x038, 0xa4e4ad87, 0xf⟩, ⟨0x078, 0xffffffff, 0xf⟩, ⟨0x03c, 0x46c0471a, 0xf⟩, ⟨0x07c, 0xffffffff, 0xf⟩,
    ⟨0x040, 0x5d4c9456, 0xf⟩, ⟨0x044, 0, 0xf⟩, ⟨0x048, 0, 0xf⟩, ⟨0x04c, 0, 0xf⟩, ⟨0x000, 4, 0xf⟩, ⟨0x080, 0, 0xf⟩,
    ⟨0x084, 0x01000000, 0xf⟩, ⟨0x000, 1, 0xf⟩]

theorem empty_job_issues : bus_writes (build_header empty_job).1.outputs = empty_job_writes := by decide +kernel

theorem empty_job_mines : Mining (build_header empty_job).1 := .built (by decide)

/-- A master that carries them out, one every six cycles. -/
def write_out (u : Nat) : Input deployed :=
  match empty_job_writes[u / 6]? with
  | some w => if u % 6 < 2 then ⟨w.addr.setWidth _, true, w.data, w.strb, true, true, 0, false, true⟩ else idle_bus u
  | none => idle_bus u

theorem write_out_again (m : Nat) : write_out (6 * m + 1) = write_out (6 * m) := by
  rw [write_out, write_out, show (6 * m + 1) / 6 = m by omega, show 6 * m / 6 = m by omega,
    show (6 * m + 1) % 6 = 1 by omega, show 6 * m % 6 = 0 by omega]
  rfl

theorem write_out_rests {u : Nat} (h : 2 ≤ u % 6 ∨ 144 ≤ u) : write_out u = idle_bus u := by
  rw [write_out]
  split
  next w hw =>
    refine if_neg fun hlow => ?_
    have hlt := (List.getElem?_eq_some_iff.mp hw).1
    change u / 6 < 24 at hlt
    omega
  next => rfl

/-- Each write is taken in its second cycle, and the START is the first and the
last to be applied. -/
theorem write_out_run :
    (∀ m < 24, (trace (bitcoin_miner_axi.step deployed) (reset_state deployed) write_out (6 * m + 1)).s_axi_awready = true ∧
      (trace (bitcoin_miner_axi.step deployed) (reset_state deployed) write_out (6 * m + 1)).s_axi_wready = true) ∧
    (writes_taken (reset_state deployed) write_out 140).take (writes_applied (reset_state deployed) write_out 140) ++
      [start_write] = empty_job_writes ∧
    (∀ u < 140, (trace (bitcoin_miner_axi.step deployed) (reset_state deployed) write_out u).starts = false ∧
      (trace (bitcoin_miner_axi.step deployed) (reset_state deployed) write_out u).control_write 1 = false) ∧
    (trace (bitcoin_miner_axi.step deployed) (reset_state deployed) write_out 140).write_apply = true ∧
    (trace (bitcoin_miner_axi.step deployed) (reset_state deployed) write_out 140).starts = true ∧
    (trace (bitcoin_miner_axi.step deployed) (reset_state deployed) write_out 140).control_write 1 = false ∧
    (trace (bitcoin_miner_axi.step deployed) (reset_state deployed) write_out 140).control_write 2 = false := by
  decide +kernel

theorem write_out_stable : StableWrites (reset_state deployed) write_out := by
  have hready := write_out_run.1
  have htwice {t : Nat} (hvalid : (write_out t).s_axi_awvalid = true ∨ (write_out t).s_axi_wvalid = true) :
      write_out (t + 1) = write_out t ∨ ∃ m < 24, t = 6 * m + 1 := by
    have hbusy : ¬ (2 ≤ t % 6 ∨ 144 ≤ t) := by
      intro hrests
      rw [write_out_rests hrests] at hvalid
      simp [idle_bus] at hvalid
    obtain ⟨m, rfl | rfl⟩ : ∃ m, t = 6 * m ∨ t = 6 * m + 1 := ⟨t / 6, by omega⟩
    · exact .inl (write_out_again m)
    · exact .inr ⟨m, by omega, rfl⟩
  constructor
  · intro t hvalid hnot
    obtain hsame | ⟨m, hm, rfl⟩ := htwice (.inl hvalid)
    · rw [hsame]
      exact ⟨hvalid, rfl⟩
    · rw [(hready m hm).1] at hnot
      cases hnot
  · intro t hvalid hnot
    obtain hsame | ⟨m, hm, rfl⟩ := htwice (.inr hvalid)
    · rw [hsame]
      exact ⟨hvalid, rfl, rfl⟩
    · rw [(hready m hm).2] at hnot
      cases hnot

theorem write_out_clean : (trace (bitcoin_miner_axi.step deployed) (reset_state deployed) write_out 140).Clean :=
  clean_stays (reset_clean (reset_state_isReset deployed)) (.reset (reset_state_isReset deployed)) write_out_run.2.2.1

/-- Nothing is written after the START. -/
theorem write_out_no_apply {u : Nat} (hpos : 1 ≤ u) :
    (trace (bitcoin_miner_axi.step deployed) (reset_state deployed) write_out (140 + u)).write_apply = false := by
  have hreach : Reachable (bitcoin_miner_axi.step deployed) IsReset
      (trace (bitcoin_miner_axi.step deployed) (reset_state deployed) write_out 140) :=
    (Reachable.reset (reset_state_isReset deployed)).trace write_out 140
  rw [← trace_after]
  refine no_request_no_apply (reachable_one_write hreach) write_out_run.2.2.2.1 hpos fun v _ => ?_
  rw [after, write_out_rests (by omega)]
  rfl

theorem write_out_alone (n : Nat) : JobAlone (reset_state deployed) write_out 140 n := by
  obtain ⟨-, -, -, -, hstart, hstop, hclear⟩ := write_out_run
  refine job_alone_of_rests hstart hstop hclear fun u hpos _ => ?_
  rw [State.control_rests, write_out_no_apply hpos, Bool.false_and]

/-- What the START finds in the registers, and that its write is of no word of
the job. -/
theorem write_out_registers :
    (trace (bitcoin_miner_axi.step deployed) (reset_state deployed) write_out 140).target_q = Vector.replicate 8 0xffffffff ∧
    (trace (bitcoin_miner_axi.step deployed) (reset_state deployed) write_out 140).nonce_count_q = 0x01000000 ∧
    (trace (bitcoin_miner_axi.step deployed) (reset_state deployed) write_out 140).wr_stage2_midstate_we_q = Vector.replicate 8 false ∧
    (trace (bitcoin_miner_axi.step deployed) (reset_state deployed) write_out 140).wr_stage2_tail_we_q = Vector.replicate 4 false ∧
    (trace (bitcoin_miner_axi.step deployed) (reset_state deployed) write_out 140).wr_stage2_target_we_q = Vector.replicate 8 false ∧
    (trace (bitcoin_miner_axi.step deployed) (reset_state deployed) write_out 140).wr_stage2_nonce_start_we_q = false ∧
    (trace (bitcoin_miner_axi.step deployed) (reset_state deployed) write_out 140).wr_stage2_nonce_count_we_q = false := by
  decide +kernel

theorem write_out_held : JobHeld (trace (bitcoin_miner_axi.step deployed) (reset_state deployed) write_out 140) (after write_out 140) := by
  obtain ⟨-, -, hmidstate, htail, htarget, hstart, hcount⟩ := write_out_registers
  refine State.SparesJob.held ⟨hmidstate, htail, htarget, hstart, hcount⟩ fun u hpos _ => ?_
  rw [trace_after]
  exact write_out_no_apply hpos

/-- A poll that reads `RESULT_STATUS` and `RESULT_NONCE` in the cycles 720 and 726. -/
def write_out_poll : Environment where
  status := 0
  result_status := fun k => if k = 0 then BusRead.value (reset_state deployed) write_out ⟨720, ADDR_RESULT_STATUS⟩ else 0
  result_nonce := fun _ => BusRead.value (reset_state deployed) write_out ⟨726, ADDR_RESULT_NONCE⟩
  sent := fun _ => true
  now := 0
  final_status := 0
  final_result_status := 0

theorem write_out_poll_first :
    write_out_poll.result_status 0 = BusRead.value (reset_state deployed) write_out ⟨720, ADDR_RESULT_STATUS⟩ := by
  rw [write_out_poll]
  dsimp only
  rw [if_pos rfl]

theorem write_out_poll_rest (k : Nat) : write_out_poll.result_status (k + 1) = 0 := by
  rw [write_out_poll]
  dsimp only
  rw [if_neg (Nat.succ_ne_zero k)]

theorem write_out_poll_nonce (k : Nat) :
    write_out_poll.result_nonce k = BusRead.value (reset_state deployed) write_out ⟨726, ADDR_RESULT_NONCE⟩ := by
  rw [write_out_poll]

/-- Every hash meets the target, so that the first one is a result. -/
theorem write_out_result : write_out_poll.result_status 0 &&& 1 ≠ 0 := by
  have hshare : JobShare (trace (bitcoin_miner_axi.step deployed) (reset_state deployed) write_out 140).toRegisters.job 0 :=
    (lane_job_hit (p := deployed) _ 0 0).mp (hit_of_reset_target 0 write_out_registers.1)
  have hkeeps {x : Nat} (hlow : 140 < x) :
      (trace (bitcoin_miner_axi.step deployed) (reset_state deployed) write_out x).result_status_write 0 = false := by
    obtain ⟨u, rfl⟩ : ∃ u, x = 140 + u := ⟨x - 140, by omega⟩
    exact (no_apply_no_pulse (write_out_no_apply (by omega)) 0).2.1
  have hcycle : deployed.share_cycle 0 = 563 := by decide
  have hshown := (write_out_alone 600).result_shown (reset_state_isReset deployed) write_out_clean.quiescent write_out_held
    (by rw [write_out_registers.2.1]; decide) hshare (by rw [hcycle]; decide) fun x hlow _ => hkeeps hlow
  rw [hcycle] at hshown
  have hstays : (trace (bitcoin_miner_axi.step deployed) (reset_state deployed) write_out 720).result_valid_q = true :=
    ((write_out_alone 600).result_stays (by decide) (by decide) (by decide) hshown fun x hlow _ => hkeeps (by omega)).2
  rw [← result_status_valid] at hstays
  intro hzero
  have hbit := congrArg (BitVec.getLsbD · 0) hzero
  rw [write_out_poll_first, BusRead.value, BitVec.getLsbD_and, hstays] at hbit
  cases hbit

/-- Its miner reports a result by then, and nothing invalid. -/
theorem empty_job_verified : write_out_poll.result_status 0 &&& 1 ≠ 0 ∧
    hardware_fault ∉ (service_results write_out_poll (build_header empty_job).1).1.outputs := by
  have hissued : (writes_taken (reset_state deployed) write_out 140).take (writes_applied (reset_state deployed) write_out 140) ++
      [start_write] = [] ++ bus_writes (build_header empty_job).1.outputs := by
    rw [List.nil_append, empty_job_issues]
    exact write_out_run.2.1
  refine ⟨write_out_result, (mining_results_verified empty_job_mines (reset_state_isReset deployed) write_out_stable hissued
    write_out_clean.quiescent write_out_clean.drained write_out_held (write_out_alone 600)).2 _ _ empty_job_mines rfl rfl
    (build_header_no_fault List.not_mem_nil) fun k hstatus => ?_⟩
  cases k with
  | zero =>
    refine ⟨720, 726, by decide, by decide, by decide, write_out_poll_first, write_out_poll_nonce 0,
      fun x hlow _ => ?_⟩
    obtain ⟨u, rfl⟩ : ∃ u, x = 140 + u := ⟨x - 140, by omega⟩
    exact (no_apply_no_pulse (write_out_no_apply (by omega)) 0).2.1
  | succ k =>
    rw [write_out_poll_rest] at hstatus
    exact absurd (by decide) hstatus

end EmptyJob

end scu35.stratum
