import Scu35Miner.Software.Bitcoin.Difficulty
import Scu35Miner.Software.MinerProtocol.Packets
import Scu35Miner.Software.Stratum.Handlers
import Scu35Miner.Software.Stratum.Recheck

open fips180 radix transition
open rfc8259 (plain Reads)

namespace scu35.stratum

open sha256_sw bitcoin json_helpers
open miner_protocol (PlainShare share_value share_line_reads)

/-- The stored job is the decoded notify, under the target of its difficulty. -/
structure pool_job.Matches (job : pool_job) (n : Notify) (difficulty : List Byte) : Prop where
  id : job.id = n.id
  time : job.time.length = 8
  prev : hex_pairs n.prevhash = some job.prev ∧ job.prev.length = 32
  coin1 : hex_pairs n.coinb1 = some job.coin1
  coin2 : hex_pairs n.coinb2 = some job.coin2
  version : hex_pairs n.version = some job.version ∧ job.version.length = 4
  bits : hex_pairs n.nbits = some job.bits ∧ job.bits.length = 4
  branches : decode_all n.branches = some job.branches
  target : bitcoin_target difficulty = some job.target

/-- The header, up to its nonce, is the one for the stored job and the
extranonce that `extra2_hex` shows. -/
structure State.HeaderLoaded (st : State) (extra2 time : List Byte) : Prop where
  extra2_text : hex_pairs st.extra2_hex = some extra2
  time_text : hex_pairs st.job.time = some time
  time_length : time.length = 4
  length : st.header.length = 80
  header : st.header.take 76 =
    (bitcoin_build_header st.job.version st.job.prev st.job.bits time st.job.coin1
      (st.extra1.take st.extra1_size) extra2 st.job.coin2 st.job.branches).take 76

/-- What ties the globals of the session to the pool's view of it. -/
structure State.Consistent (st : State) (v : PoolView) : Prop where
  difficulty : st.connected = true → bitcoin_target v.difficulty = some st.pending_target
  extra1 : st.connected = true → st.subscribed = true →
    hex_pairs v.extranonce1 = some (st.extra1.take st.extra1_size)
  job : st.have_job = true → st.connected = true ∧ st.subscribed = true ∧
    ∃ n d, v.notify = some (n, d) ∧ st.job.Matches n d
  running : st.running = true → st.have_job = true ∧ ∃ extra2 time, st.HeaderLoaded extra2 time

/-- A submission that the pool can verify: rebuilding the header from its own
data and the submitted strings gives the checked bytes, whose hash meets the
target of the difficulty before the notify. -/
def Submitted (v : PoolView) (share : Share) (header : List Byte) : Prop :=
  ∃ n d target, v.notify = some (n, d) ∧ share.job_id = n.id ∧ header.length = 80 ∧
    pool_header n v.extranonce1 share.extranonce2 share.ntime share.nonce = some header ∧
    bitcoin_target d = some target ∧ MeetsTarget header target

theorem hex_pairs_plain : ∀ {s out : List Byte}, hex_pairs s = some out → ∀ c ∈ s, plain c = true
  | [], _, _ => nofun
  | [_], _, h => by cases h
  | a :: b :: s, _, h => by
    have hdigit : ∀ c : Byte, hex_digit c ≠ none → plain c = true := by decide
    rw [hex_pairs] at h
    split at h
    next v w out ha hb hout =>
      rw [List.forall_mem_cons, List.forall_mem_cons]
      exact ⟨hdigit a (by simp [ha]), hdigit b (by simp [hb]), hex_pairs_plain hout⟩
    next => cases h

/-- What the pool decodes needs no escapes. -/
theorem Submitted.plain_share {v : PoolView} {share : Share} {header : List Byte} (h : Submitted v share header)
    (hworker : ∀ c ∈ share.worker, plain c = true) (hjob : ∀ c ∈ share.job_id, plain c = true) : PlainShare share := by
  obtain ⟨n, d, target, _, _, _, hheader, _⟩ := h
  unfold pool_header at hheader
  split at hheader
  next hextra2 _ _ _ _ =>
    split at hheader
    next htime _ hnonce =>
      exact ⟨hworker, hjob, hex_pairs_plain hextra2, hex_pairs_plain htime, hex_pairs_plain hnonce⟩
    next => cases hheader
  next => cases hheader

/-- Rebuilding the header on the pool's side. -/
theorem pool_header_eq {st : State} {v : PoolView} {n : Notify} {d extra2 time : List Byte}
    (hjob : st.job.Matches n d) (hextra1 : hex_pairs v.extranonce1 = some (st.extra1.take st.extra1_size))
    (hloaded : st.HeaderLoaded extra2 time) (nonce : Word) :
    pool_header n v.extranonce1 st.extra2_hex st.job.time (format_08lx (bitcoin_swap32 nonce)) =
      some (patch_nonce st.header nonce) := by
  have hroot (root : List Byte) (branches : List (List Byte)) :
      branches.foldl (fun root branch => double_sha256 (root ++ branch)) root = merkle_root root branches := by
    simp only [merkle_root, sha256d_eq, double_sha256]
  have hprev := swap_words_eq 8 hjob.prev.2
  have hlength : (merkle_root (coinbase_root st.job.coin1 (st.extra1.take st.extra1_size) extra2 st.job.coin2)
      st.job.branches).length = 32 := merkle_root_length (by rw [coinbase_root_eq, sha256_length]) _
  simp only [pool_header, hjob.coin1, hextra1, hloaded.extra2_text, hjob.coin2, hjob.branches, hjob.version.1,
    hjob.prev.1, hloaded.time_text, hjob.bits.1, nonce_round_trip, hroot, List.reverse_reverse]
  rw [patch_nonce_eq, hloaded.header, bitcoin_build_header, reverse_four hjob.version.2, hprev,
    reverse_four hloaded.time_length, reverse_four hjob.bits.2, double_sha256, ← coinbase_root_eq]
  have hbody : (st.job.version.reverse ++ swap_words st.job.prev ++
      merkle_root (coinbase_root st.job.coin1 (st.extra1.take st.extra1_size) extra2 st.job.coin2) st.job.branches ++
      time.reverse ++ st.job.bits.reverse).length = 76 := by
    simp only [List.length_append, List.length_reverse, hlength, hjob.version.2, hloaded.time_length, hjob.bits.2,
      ← hprev, List.length_map, List.length_range]
  rw [List.take_append_of_le_length hbody.ge, List.take_of_length_le hbody.le]

section Handlers

variable {st : State} {v : PoolView}

/-- The fields that the job is checked against are the same in both states. -/
structure State.SameJob (st st' : State) : Prop where
  connected : st'.connected = st.connected
  pending_target : st'.pending_target = st.pending_target
  subscribed : st'.subscribed = st.subscribed
  extra1 : st'.extra1 = st.extra1
  extra1_size : st'.extra1_size = st.extra1_size
  job : st'.job = st.job
  have_job : st'.have_job = st.have_job

theorem State.Consistent.of_same_job {st' : State} (h : st.Consistent v) (hsame : st.SameJob st')
    (hrun : st'.running = true → st.have_job = true ∧ ∃ extra2 time, st'.HeaderLoaded extra2 time) :
    st'.Consistent v where
  difficulty := by
    rw [hsame.connected, hsame.pending_target]
    exact h.difficulty
  extra1 := by
    rw [hsame.connected, hsame.subscribed, hsame.extra1, hsame.extra1_size]
    exact h.extra1
  job := by
    rw [hsame.have_job, hsame.connected, hsame.subscribed, hsame.job]
    exact h.job
  running := by
    rw [hsame.have_job]
    exact hrun

/-- The header is kept up to its nonce. -/
theorem State.HeaderLoaded.of_same_job {st' : State} {extra2 time : List Byte} (h : st.HeaderLoaded extra2 time)
    (hsame : st.SameJob st') (hhex : st'.extra2_hex = st.extra2_hex) (hlen : st'.header.length = 80)
    (hheader : st'.header.take 76 = st.header.take 76) : st'.HeaderLoaded extra2 time where
  extra2_text := by rw [hhex, h.extra2_text]
  time_text := by rw [hsame.job, h.time_text]
  time_length := h.time_length
  length := hlen
  header := by rw [hheader, hsame.job, hsame.extra1, hsame.extra1_size, h.header]

/-- Changes outside the fields that the invariant reads. -/
theorem State.Consistent.frame {st' : State} (h : st.Consistent v) (hsame : st.SameJob st')
    (hrun : st'.running = st.running) (hhex : st'.extra2_hex = st.extra2_hex)
    (hheader : st'.header = st.header) : st'.Consistent v := by
  refine h.of_same_job hsame fun hr => ?_
  obtain ⟨hhave, extra2, time, hloaded⟩ := h.running (hrun ▸ hr)
  exact ⟨hhave, extra2, time, hloaded.of_same_job hsame hhex (hheader ▸ hloaded.length) (by rw [hheader])⟩

theorem stop_consistent (h : st.Consistent v) : (stop st).Consistent v :=
  h.of_same_job ⟨rfl, rfl, rfl, rfl, rfl, rfl, rfl⟩ fun hr => by cases hr

theorem out_consistent (h : st.Consistent v) (outputs : List Output) : (st.out outputs).Consistent v :=
  h.frame ⟨rfl, rfl, rfl, rfl, rfl, rfl, rfl⟩ rfl rfl rfl

theorem disconnect_consistent (st : State) (v : PoolView) : (disconnect st).Consistent v where
  difficulty := fun hc => by cases hc
  extra1 := fun hc => by cases hc
  job := fun hc => by cases hc
  running := fun hc => by cases hc

theorem start_range_consistent (h : st.Consistent v) (hhave : st.have_job = true) {extra2 time : List Byte}
    (hloaded : st.HeaderLoaded extra2 time) : (start_range st).Consistent v := by
  have hsame : st.SameJob (start_range st) := ⟨rfl, rfl, rfl, rfl, rfl, rfl, rfl⟩
  exact h.of_same_job hsame fun _ =>
    ⟨hhave, extra2, time, hloaded.of_same_job hsame rfl hloaded.length rfl⟩

theorem load_same_job (st : State) (time : List Byte) : st.SameJob (st.load time) :=
  ⟨rfl, rfl, rfl, rfl, rfl, rfl, rfl⟩

theorem load_header_loaded {time : List Byte} (htext : st.job.time.length = 8)
    (htime : hex_decode (st.job.time.take 8) 4 = some time) (hlen : time.length = 4) :
    (st.load time).HeaderLoaded (st.extra2.take st.extra2_size) time where
  extra2_text := hex_pairs_encode _
  time_text := by
    have hpairs := (hex_decode_eq_some htime).1
    rw [List.take_of_length_le (by omega)] at hpairs
    exact hpairs
  time_length := hlen
  length := bitcoin_build_header_length ..
  header := rfl

theorem build_header_consistent (h : st.Consistent v) (hhave : st.have_job = true)
    (hok : (build_header st).2 = true) : (build_header st).1.Consistent v := by
  obtain ⟨_, _, n, d, _, hjob⟩ := h.job hhave
  obtain ⟨time, htime, hlen, _, heq⟩ | ⟨hex, heq⟩ := build_header_cases st
  · have hloaded := load_header_loaded hjob.time htime hlen
    have hload : (st.load time).Consistent v :=
      h.of_same_job (load_same_job st time) fun _ => ⟨hhave, _, time, hloaded⟩
    rw [heq]
    exact start_range_consistent hload hhave hloaded
  · rw [heq] at hok
    cases hok

theorem json_hex_slice {j : Json} {s : List Byte} {q : String} {cap : Nat} {out : List Byte}
    (h : json_hex j s q cap = some out) : hex_pairs (j.slice s q) = some out := by
  unfold json_hex at h
  split at h
  next value hfound =>
    rw [Json.slice, hfound]
    exact (hex_decode_eq_some h).1
  next => cases h

theorem json_hex_exact_slice {j : Json} {s : List Byte} {q : String} {n : Nat} {out : List Byte}
    (h : json_hex_exact j s q n = some out) : hex_pairs (j.slice s q) = some out ∧ out.length = n := by
  unfold json_hex_exact at h
  split at h
  next value hfound =>
    split at h
    next hlen =>
      cases h
      exact ⟨json_hex_slice hfound, hlen⟩
    next => cases h
  next => cases h

theorem parse_branches_decode {j : Json} {s : List Byte} {n i : Nat} {branches : List (List Byte)}
    (h : parse_branches j s n i = some branches) : decode_all (branch_slices j s n i) = some branches := by
  induction n generalizing i branches with
  | zero =>
    cases h
    rfl
  | succ n ih =>
    rw [parse_branches] at h
    rw [branch_slices]
    split at h
    next hfound =>
      cases h
      rw [hfound]
      rfl
    next value hfound =>
      split at h
      · cases h
      · split at h
        · cases h
        next branch hbranch =>
          split at h
          · cases h
          · split at h
            · cases h
            next rest hrest =>
              cases h
              simp only [hfound, decode_all, (hex_decode_eq_some hbranch).1, ih hrest]
    next => cases h

/-- What `notification` stores is the notify of the line. -/
theorem parse_notify_matches {j : Json} {s : List Byte} {f : NotifyFields} (h : parse_notify j s = some f)
    {difficulty : List Byte} {target : Vector Word 8} (htarget : bitcoin_target difficulty = some target)
    (number : Word) :
    pool_job.Matches ⟨f.id, f.time, number, f.prev, f.version, f.bits, f.coin1, f.coin2, f.branches, target⟩
      (.ofLine j s) difficulty := by
  unfold parse_notify at h
  split at h
  next id prev coin1 coin2 version bits time hid hprev hcoin1 hcoin2 hversion hbits htime =>
    split at h
    · cases h
    next hchecks =>
      simp only [Bool.or_eq_true, decide_eq_true_eq, bne_iff_ne, ne_eq, not_or, not_not] at hchecks
      split at h
      · cases h
      next branches hbranches =>
        cases h
        exact {
          id := (json_string_eq hid).symm
          time := hchecks.1.1.2
          prev := json_hex_exact_slice hprev
          coin1 := json_hex_slice hcoin1
          coin2 := json_hex_slice hcoin2
          version := json_hex_exact_slice hversion
          bits := json_hex_exact_slice hbits
          branches := parse_branches_decode hbranches
          target := htarget }
  next => cases h

theorem extranonce_stored (array out : List Byte) : (store_front array out).take out.length = out := by
  rw [store_front, List.take_left]

theorem set_difficulty_consistent {j : Json} {s : List Byte} (h : st.Consistent v)
    (hok : (set_difficulty j s st).2 = true) :
    (set_difficulty j s st).1.Consistent { v with difficulty := j.slice s "params[0]" } := by
  unfold set_difficulty at hok ⊢
  split
  next value hfound =>
    simp only [hfound] at hok
    split
    next htarget => simp [htarget] at hok
    next target htarget =>
      have hslice : j.slice s "params[0]" = value := by rw [Json.slice, hfound]
      exact {
        difficulty := fun _ => by rw [hslice, htarget]; rfl
        extra1 := h.extra1
        job := h.job
        running := fun hr => by
          obtain ⟨hhave, extra2, time, hl⟩ := h.running hr
          exact ⟨hhave, extra2, time, ⟨hl.extra2_text, hl.time_text, hl.time_length, hl.length, hl.header⟩⟩ }
  next hother =>
    split at hok
    next value hfound => exact absurd hfound (hother value)
    next => cases hok

theorem set_extranonce_consistent {j : Json} {s : List Byte} (h : st.Consistent v)
    (hok : (set_extranonce j s st).2 = true) :
    (set_extranonce j s st).1.Consistent { v with extranonce1 := j.slice s "params[0]" } := by
  unfold set_extranonce at hok ⊢
  cases hhex : json_hex j s "params[0]" 32 with
  | none => simp [hhex] at hok
  | some out =>
    simp only [hhex] at hok ⊢
    cases hsize : extranonce_size j s "params[1]" with
    | none => simp [hsize] at hok
    | some count =>
      exact {
        difficulty := h.difficulty
        extra1 := fun _ _ => by
          rw [json_hex_slice hhex]
          exact congrArg some (extranonce_stored st.extra1 out).symm
        job := fun hr => by cases hr
        running := fun hr => by cases hr }

theorem subscribe_reply_consistent {j : Json} {s : List Byte} {sent : Bool} (h : st.Consistent v)
    (hok : (subscribe_reply j s sent st).2 = true) :
    (subscribe_reply j s sent st).1.Consistent { v with extranonce1 := j.slice s "result[1]" } := by
  unfold subscribe_reply at hok ⊢
  by_cases hsub : st.subscribed = true
  · simp [hsub] at hok
  · rw [if_neg hsub] at hok ⊢
    have hidle : ¬st.have_job = true := fun hhave => hsub (h.job hhave).2.1
    cases hhex : json_hex j s "result[1]" 32 with
    | none => simp [hhex] at hok
    | some out =>
      simp only [hhex] at hok ⊢
      cases hsize : extranonce_size j s "result[2]" with
      | none => simp [hsize] at hok
      | some count =>
        exact {
          difficulty := h.difficulty
          extra1 := fun _ _ => by
            rw [json_hex_slice hhex]
            exact congrArg some (extranonce_stored st.extra1 out).symm
          job := fun hhave => absurd hhave hidle
          running := fun hr => absurd (h.running hr).1 hidle }

/-- A notify ties the job to the view whatever was stored before it. -/
theorem notify_consistent {j : Json} {s : List Byte} (h : st.Consistent v) (hconn : st.connected = true)
    (hok : (notify j s st).2 = true) :
    (notify j s st).1.Consistent { v with notify := some (.ofLine j s, v.difficulty) } := by
  unfold notify at hok ⊢
  by_cases hsub : st.subscribed = true
  · rw [if_neg (by simp [hsub])] at hok ⊢
    cases hparse : parse_notify j s with
    | none => simp [hparse] at hok
    | some f =>
      simp only [hparse] at hok ⊢
      have hmatch := parse_notify_matches hparse (h.difficulty hconn)
      split at hok <;> rename_i hauth
      · rw [if_pos hauth]
        refine build_header_consistent ?_ rfl hok
        exact {
          difficulty := h.difficulty
          extra1 := h.extra1
          job := fun _ => ⟨hconn, hsub, _, _, rfl, hmatch _⟩
          running := fun hr => by cases hr }
      · rw [if_neg hauth]
        exact {
          difficulty := h.difficulty
          extra1 := h.extra1
          job := fun _ => ⟨hconn, hsub, _, _, rfl, hmatch _⟩
          running := fun hr => by cases hr }
  · rw [if_pos (by simp [hsub])] at hok
    cases hok

theorem authorize_reply_consistent {j : Json} {s : List Byte} {sent : Bool} (h : st.Consistent v)
    (hok : (authorize_reply j s sent st).2 = true) : (authorize_reply j s sent st).1.Consistent v := by
  have hauth : ({ st with authorized := true }.out [.event .pool_authorized, .send suggest_request]).Consistent v :=
    h.frame ⟨rfl, rfl, rfl, rfl, rfl, rfl, rfl⟩ rfl rfl rfl
  unfold authorize_reply at hok ⊢
  dsimp only at hok ⊢
  generalize { st with authorized := true }.out [.event .pool_authorized, .send suggest_request] = st'
    at hauth hok ⊢
  split at hok
  · cases hok
  next hfirst =>
    split at hok
    · cases hok
    next hresult =>
      split at hok
      · cases hok
      next hsent =>
        rw [if_neg hfirst, if_neg hresult, if_neg hsent]
        split at hok <;> rename_i hhave
        · rw [if_pos hhave]
          exact build_header_consistent hauth hhave hok
        · rw [if_neg hhave]
          exact hauth

theorem share_reply_consistent (h : st.Consistent v) (id : Word) (accepted : Bool) :
    (share_reply id accepted st).Consistent v := by
  unfold share_reply
  split
  · exact h
  · exact h.frame ⟨rfl, rfl, rfl, rfl, rfl, rfl, rfl⟩ rfl rfl rfl

theorem notification_consistent {j : Json} {s : List Byte} (h : st.Consistent v) (hconn : st.connected = true)
    (hmethod : has_method j s = true) (hok : (notification j s st).2 = true) :
    (notification j s st).1.Consistent (v.line j s) := by
  unfold notification at hok ⊢
  cases hstring : json_string j s "method" 64 with
  | none => simp [hstring] at hok
  | some method =>
    simp only [hstring] at hok ⊢
    rw [PoolView.line, if_pos hmethod, json_string_eq hstring]
    cases hparse : parse_method method with
    | set_difficulty =>
      simp only [hparse] at hok ⊢
      exact set_difficulty_consistent h hok
    | set_extranonce =>
      simp only [hparse] at hok ⊢
      exact set_extranonce_consistent h hok
    | notify =>
      simp only [hparse] at hok ⊢
      exact notify_consistent h hconn hok
    | other =>
      simp only
      exact h

theorem reply_consistent {j : Json} {s : List Byte} {sent : Bool} (h : st.Consistent v)
    (hmethod : has_method j s = false) (hok : (reply j s sent st).2 = true) :
    (reply j s sent st).1.Consistent (v.line j s) := by
  unfold reply at hok ⊢
  rw [PoolView.line, if_neg (by simp [hmethod])]
  cases hid : json_u32 j s "id" with
  | none => exact h
  | some id =>
    simp only [hid] at hok ⊢
    by_cases hone : id = 1
    · rw [if_pos hone] at hok ⊢
      rw [if_pos (by rw [hone])]
      exact subscribe_reply_consistent h hok
    · have hother : ¬some id = some 1 := fun heq => hone (Option.some.inj heq)
      rw [if_neg hone] at hok ⊢
      rw [if_neg hother]
      by_cases htwo : id = 2
      · rw [if_pos htwo] at hok ⊢
        exact authorize_reply_consistent h hok
      · rw [if_neg htwo]
        exact share_reply_consistent h id _

/-- A line that keeps the session open leaves it consistent with the pool's
view after the line. -/
theorem handle_line_consistent {j : Json} {s : List Byte} {sent : Bool} (h : st.Consistent v)
    (hconn : st.connected = true) (hok : (handle_line j s sent st).2 = true) :
    (handle_line j s sent st).1.Consistent (v.line j s) := by
  unfold handle_line at hok ⊢
  split at hok
  · cases hok
  next hvalid =>
    rw [if_neg hvalid]
    split at hok <;> rename_i hmethod
    · rw [if_pos hmethod]
      exact notification_consistent h hconn hmethod hok
    · rw [if_neg hmethod]
      exact reply_consistent h (Bool.eq_false_iff.mpr hmethod) hok

theorem next_window_consistent (h : st.Consistent v) (hrun : st.running = true) (window : Word) :
    (start_range { st with range_start := window }).Consistent v ∧
      (stop { st with range_start := window }).Consistent v ∧
      (stop { st with range_start := window }).have_job = true := by
  have hsame : st.SameJob { st with range_start := window } := ⟨rfl, rfl, rfl, rfl, rfl, rfl, rfl⟩
  have hwindow : { st with range_start := window }.Consistent v := h.frame hsame rfl rfl rfl
  obtain ⟨hhave, extra2, time, hloaded⟩ := h.running hrun
  refine ⟨?_, stop_consistent hwindow, hhave⟩
  exact start_range_consistent hwindow hhave (hloaded.of_same_job hsame rfl hloaded.length rfl)

theorem next_range_consistent (h : st.Consistent v) (hrun : st.running = true)
    (hok : (next_range st).2 = true) : (next_range st).1.Consistent v := by
  obtain ⟨hstart, hstop, hhave⟩ := next_window_consistent h hrun (st.range_start + RANGE)
  obtain ⟨_, heq⟩ | ⟨_, heq⟩ := next_range_cases st
  · rw [heq] at hok ⊢
    exact build_header_consistent hstop hhave hok
  · rw [heq]
    exact hstart

/-- A session with a started header, all of whose submissions can be verified. -/
structure State.Working (st : State) (v : PoolView) : Prop where
  consistent : st.Consistent v
  running : st.running = true
  submitted : ∀ p ∈ st.submits, Submitted v p.1 p.2

theorem patch_nonce_length {header : List Byte} (hlength : header.length = 80) (nonce : Word) :
    (patch_nonce header nonce).length = 80 := by
  rw [patch_nonce_eq, List.length_append, List.length_take, hlength, wordBytes_length]
  rfl

/-- The recheck passed, so that the pool comes to the same header and finds it
below the target. -/
theorem share_submitted (h : st.Consistent v) (hrun : st.running = true) {nonce : Word}
    (hvalid : share_valid (sha256d (patch_nonce st.header nonce)) st.job.target = true) :
    Submitted v (st.share nonce) (patch_nonce st.header nonce) := by
  obtain ⟨hhave, extra2, time, hloaded⟩ := h.running hrun
  obtain ⟨hconn, hsub, n, d, hnotify, hjob⟩ := h.job hhave
  refine ⟨n, d, st.job.target, hnotify, hjob.id, patch_nonce_length hloaded.length nonce, ?_, hjob.target, ?_⟩
  · exact pool_header_eq hjob (h.extra1 hconn hsub) hloaded nonce
  · exact (share_valid_sha256d_iff _ _).mp hvalid

theorem submit_result_working (h : st.Working v) (nonce : Word) (sent : Bool) (now : Word) :
    (submit_result nonce sent now st).1.Working v := by
  obtain ⟨hhave, extra2, time, hloaded⟩ := h.consistent.running h.running
  obtain ⟨next_id, pending, outputs, hsub, _, heq⟩ := submit_result_cases nonce sent now st
  have hheader : (patch_nonce st.header nonce).take 76 = st.header.take 76 := by
    rw [patch_nonce_eq, List.take_append_of_le_length (by simp [hloaded.length]), List.take_take]
    rfl
  have hlength := patch_nonce_length hloaded.length nonce
  have hbook (outputs : List Output) : ({ st.patched nonce with next_id, pending }.out outputs).Consistent v := by
    have hsame : st.SameJob ({ st.patched nonce with next_id, pending }.out outputs) :=
      ⟨rfl, rfl, rfl, rfl, rfl, rfl, rfl⟩
    exact h.consistent.of_same_job hsame fun _ =>
      ⟨hhave, extra2, time, hloaded.of_same_job hsame rfl hlength hheader⟩
  have hpatched : { st.patched nonce with next_id, pending }.submits = st.submits := by
    have hout := out_submits st [.reg_write 0x98 1]
    rw [show List.filterMap Output.submitted [.reg_write 0x98 1] = [] from rfl, List.append_nil] at hout
    exact hout
  obtain heq | ⟨hvalid, heq⟩ := heq
  · rw [heq]
    refine ⟨hbook _, h.running, ?_⟩
    rw [out_submits, hpatched, hsub, List.append_nil]
    exact h.submitted
  · rw [heq]
    refine ⟨hbook _, h.running, ?_⟩
    rw [out_submits, hpatched, List.filterMap_cons, Output.submitted, hsub]
    intro p hp
    rw [List.mem_append, List.mem_singleton] at hp
    obtain hp | rfl := hp
    · exact h.submitted p hp
    · exact share_submitted h.consistent h.running hvalid

theorem result_loop_working (env : Environment) (n k : Nat) (h : st.Working v) :
    (result_loop env n k st).1.Working v := by
  induction n generalizing k st with
  | zero => exact h
  | succ n ih =>
    have hsubmit := submit_result_working h (env.result_nonce k) (env.sent k) env.now
    rw [result_loop]
    generalize submit_result (env.result_nonce k) (env.sent k) env.now st = r at hsubmit ⊢
    dsimp only
    split
    · exact h
    · split
      · exact hsubmit
      · exact ih (k + 1) hsubmit

/-- A poll submits verifiable shares only, and leaves the session consistent. -/
theorem service_results_works (env : Environment) (h : st.Consistent v)
    (hsubmitted : ∀ p ∈ st.submits, Submitted v p.1 p.2) :
    ((service_results env st).2 = true → (service_results env st).1.Consistent v) ∧
      ∀ p ∈ (service_results env st).1.submits, Submitted v p.1 p.2 := by
  by_cases hrun : st.running = true
  · have hloop := result_loop_working env 16 0 ⟨h, hrun, hsubmitted⟩
    rw [service_results, if_neg (by simp [hrun])]
    generalize result_loop env 16 0 st = r at hloop ⊢
    split
    · refine ⟨fun hok => Bool.noConfusion hok, ?_⟩
      rw [(out_silent st _ rfl rfl).submits]
      exact hsubmitted
    · dsimp only
      split
      · exact ⟨fun _ => hloop.consistent, hloop.submitted⟩
      · split
        · refine ⟨next_range_consistent hloop.consistent hloop.running, ?_⟩
          rw [next_range_submits]
          exact hloop.submitted
        · exact ⟨fun _ => hloop.consistent, hloop.submitted⟩
  · rw [service_results, if_pos (by simp [hrun])]
    exact ⟨fun _ => h, hsubmitted⟩

/-- A closed session agrees with every view. -/
theorem State.Consistent.of_disconnected {v' : PoolView} (h : st.Consistent v) (hconn : st.connected = false) :
    st.Consistent v' := by
  have hidle : ¬st.have_job = true := fun hhave => by simp [(h.job hhave).1] at hconn
  exact {
    difficulty := fun hc => by simp [hc] at hconn
    extra1 := fun hc => by simp [hc] at hconn
    job := fun hhave => absurd hhave hidle
    running := fun hr => absurd (h.running hr).1 hidle }

theorem finish_consistent {r : State × Bool} (h : r.2 = true → r.1.Consistent v) : (finish r).Consistent v := by
  obtain ⟨st, ok⟩ := r
  cases ok with
  | true => exact h rfl
  | false => exact disconnect_consistent st v

theorem finish_submits (r : State × Bool) : (finish r).submits = r.1.submits := by
  obtain ⟨st, ok⟩ := r
  cases ok with
  | true => rfl
  | false => exact (disconnect_silent st).submits

theorem connect_submits (worker password : List Byte) (sent : Bool) (st : State) :
    (connect worker password sent st).submits = st.submits := by
  unfold connect
  dsimp only
  split
  · rw [out_submits]
    exact List.append_nil _
  · exact finish_submits _

/-- A new session is at difficulty one until the pool sets another. -/
theorem connect_consistent (worker password : List Byte) (sent : Bool) (st : State) :
    (connect worker password sent st).Consistent .fresh := by
  have hone : (bitcoin_target (ascii "1")).isSome = true := bitcoin_target_one
  obtain ⟨target, htarget⟩ := Option.isSome_iff_exists.mp hone
  unfold connect
  dsimp only
  split
  · exact {
      difficulty := fun _ => by
        rw [htarget, PoolView.fresh, htarget]
        rfl
      extra1 := fun _ hsub => by cases hsub
      job := fun hhave => by cases hhave
      running := fun hr => by cases hr }
  · exact disconnect_consistent _ _

end Handlers

/-- One event keeps the session consistent with the pool's view, and whatever
it submits can be verified against the view before it. -/
theorem step_works (j : Json) {st : State} {v : PoolView} (h : st.Consistent v) (e : Event) :
    (step j st e).Consistent (v.step j st e) ∧ ∀ p ∈ (step j st e).submits, Submitted v p.1 p.2 := by
  have hclear : st.cleared.Consistent v := h.frame ⟨rfl, rfl, rfl, rfl, rfl, rfl, rfl⟩ rfl rfl rfl
  have hquiet {st' : State} (heq : st'.submits = []) : ∀ p ∈ st'.submits, Submitted v p.1 p.2 := by
    rw [heq]
    intro p hp
    cases hp
  cases hconn : st.connected with
  | true =>
    cases e with
    | connect worker password sent =>
      rw [step_open j hconn, PoolView.step, if_pos hconn]
      exact ⟨hclear, hquiet rfl⟩
    | line text sent =>
      have hline (hok : (handle_line j text sent st.cleared).2 = true) := handle_line_consistent hclear hconn hok
      have hopened : step j st (.line text sent) = finish (handle_line j text sent st.cleared) :=
        step_open j hconn (.line text sent)
      rw [PoolView.step, hopened]
      refine ⟨?_, hquiet ((finish_submits _).trans (handle_line_submits ..))⟩
      split <;> rename_i hopen
      · exact finish_consistent hline
      · exact (finish_consistent hline).of_disconnected (Bool.eq_false_iff.mpr hopen)
    | service env =>
      obtain ⟨hservice, hsubmitted⟩ := service_results_works env hclear (hquiet rfl)
      rw [step_open j hconn]
      refine ⟨finish_consistent hservice, ?_⟩
      rw [finish_submits]
      exact hsubmitted
    | timeouts now limit =>
      rw [step_open j hconn]
      refine ⟨finish_consistent fun _ => out_consistent hclear _, hquiet ?_⟩
      rw [finish_submits, (reply_timeouts_silent now limit _).submits]
      rfl
    | disconnect =>
      rw [step_open j hconn]
      exact ⟨disconnect_consistent _ _, hquiet (disconnect_silent _).submits⟩
  | false =>
    cases e with
    | connect worker password sent =>
      rw [step_closed j hconn, PoolView.step, if_neg (by simp [hconn])]
      exact ⟨connect_consistent .., hquiet (connect_submits ..)⟩
    | line text sent =>
      have hopen : ¬(step j st (.line text sent)).connected = true := by
        rw [step_closed j hconn]
        simp [State.cleared, hconn]
      rw [PoolView.step, if_neg hopen, step_closed j hconn]
      exact ⟨hclear, hquiet rfl⟩
    | service env | timeouts now limit | disconnect =>
      rw [step_closed j hconn]
      exact ⟨hclear, hquiet rfl⟩

/-- The session together with what the pool knows about it. -/
def joint_step (j : Json) (p : State × PoolView) (e : Event) : State × PoolView :=
  (step j p.1 e, p.2.step j p.1 e)

theorem run_consistent (j : Json) (events : List Event) :
    (run (joint_step j) (State.init, PoolView.fresh) events).1.Consistent
      (run (joint_step j) (State.init, PoolView.fresh) events).2 := by
  refine run_invariant (P := fun p : State × PoolView => p.1.Consistent p.2)
    (fun p e h => (step_works j h e).1) ?_ events
  exact {
    difficulty := fun hc => by cases hc
    extra1 := fun hc => by cases hc
    job := fun hhave => by cases hhave
    running := fun hr => by cases hr }

theorem joint_run_fst (j : Json) (p : State × PoolView) (events : List Event) :
    (run (joint_step j) p events).1 = run (step j) p.1 events := by
  induction events generalizing p with
  | nil => rfl
  | cons e events ih => exact ih (joint_step j p e)

/-- After every run of the task and whatever comes next, each share that is
sent can be rebuilt by the pool from the last notify, the extranonce in force and
the submitted strings: the result is the header that was checked, and its hash is
at most the target of the difficulty before that notify. The line that is sent
reads as these strings, if the worker's name and the job's need no escapes. -/
theorem submitted_shares_verifiable (j : Json) (events : List Event) (e : Event) :
    let p := run (joint_step j) (State.init, PoolView.fresh) events
    ∀ share header, .submit share header ∈ (step j p.1 e).outputs → Submitted p.2 share header ∧
      ((∀ c ∈ share.worker, plain c = true) → (∀ c ∈ share.job_id, plain c = true) →
        Reads share.line (share_value share)) := by
  intro p share header hmem
  have hsubmits : (share, header) ∈ (step j p.1 e).submits :=
    List.mem_filterMap.mpr ⟨.submit share header, hmem, rfl⟩
  have hsubmitted := (step_works j (run_consistent j events) e).2 (share, header) hsubmits
  exact ⟨hsubmitted, fun hworker hjob => share_line_reads (hsubmitted.plain_share hworker hjob)⟩

/-- The event that announces a share. -/
def State.announcement (st : State) (nonce : Word) : miner_event :=
  ⟨.solution_submitted, st.job.id, (st.share nonce).line,
    hex_encode ((List.range 32).map fun i => (sha256d (patch_nonce st.header nonce)).getD (31 - i) 0), st.job.number⟩

/-- The state after a share was sent. -/
def State.sent (st : State) (nonce now : Word) (slot : Nat) : State :=
  { (st.patched nonce).out [.submit (st.share nonce) (patch_nonce st.header nonce)] with
    next_id := st.next_id + 1
    pending := st.pending.set slot ⟨st.next_id, now, st.announcement nonce⟩ }.out [.detail (st.announcement nonce)]

theorem sent_submits (st : State) (nonce now : Word) (slot : Nat) :
    .submit (st.share nonce) (patch_nonce st.header nonce) ∈ (st.cleared.sent nonce now slot).outputs := by
  change _ ∈ [Output.reg_write 0x98 1] ++ [.submit (st.share nonce) (patch_nonce st.header nonce)] ++ [.detail _]
  simp

/-- A result that passes the check is sent if a slot and an identifier are
free and the line is short enough. -/
theorem submit_result_sent {st : State} {nonce now : Word} {slot : Nat}
    (hvalid : share_valid (sha256d (patch_nonce st.header nonce)) st.job.target = true)
    (hfree : st.pending.findIdx? (fun p => p.id == 0) = some slot) (hissued : ¬st.next_id < 4)
    (hline : (st.share nonce).line.length < 640) :
    submit_result nonce true now st = (st.sent nonce now slot, true) := by
  unfold submit_result
  rw [State.sent, State.announcement]
  extract_lets st1 st2 digest share st3 st4 event
  have hdigest : sha256d (patch_nonce st.header nonce) = digest := rfl
  rw [hdigest] at hvalid ⊢
  clear_value digest
  have hpassed : (!share_valid digest st2.job.target) = false := by
    rw [show share_valid digest st2.job.target = true from hvalid]
    rfl
  rw [if_neg (by rw [hpassed]; exact Bool.false_ne_true), show st2.pending.findIdx? _ = some slot from hfree]
  dsimp only
  rw [if_neg (show ¬st2.next_id < 4 from hissued), if_neg (show ¬share.line.length ≥ 640 from Nat.not_le.mpr hline),
    if_neg (by decide)]
  rfl

theorem share_valid_max {digest : List Byte} (hlen : digest.length = 32) :
    share_valid digest (Vector.replicate 8 0xffffffff) = true := by
  have hlt := beValue_lt digest.reverse
  rw [List.length_reverse, hlen] at hlt
  have hmax : beValue (Vector.replicate 8 (0xffffffff : Word)).toList = 2 ^ 256 - 1 := by decide
  rw [share_valid_iff hlen, hmax]
  omega

/-- A pool with five lines: the subscription reply, the authorization reply, one
job, a low difficulty and the reply to the first share. -/
def sample_pool : Json where
  validate := fun _ => true
  search := fun line query =>
    if line = [3] then
      if query = "method" then .success (ascii "mining.notify") .JSONString
      else if query = "params[0]" then .success (ascii "job") .JSONString
      else if query = "params[1]" then .success (List.replicate 64 0x30) .JSONString
      else if query = "params[2]" || query = "params[3]" then .success (ascii "00") .JSONString
      else if query = "params[4]" then .success (ascii "[]") .JSONArray
      else if query = "params[8]" then .success (ascii "true") .JSONTrue
      else if query = "params[4][0]" then .not_found
      else .success (List.replicate 8 0x30) .JSONString
    else if line = [4] then
      if query = "method" then .success (ascii "mining.set_difficulty") .JSONString
      else if query = "params[0]" then .success (ascii "1e-20") .JSONNumber
      else .not_found
    else if query = "id" then
      .success (if line = [1] then ascii "1" else if line = [5] then ascii "4" else ascii "2") .JSONNumber
    else if query = "result" then .success (ascii "true") .JSONTrue
    else if query = "result[1]" then .success (ascii "00") .JSONString
    else if query = "result[2]" then .success (ascii "4") .JSONNumber
    else .not_found

/-- A session that mines the job at the low difficulty. -/
def sample_session : List Event :=
  [.connect (ascii "w") [] true, .line [1] true, .line [4] true, .line [3] true, .line [2] true]

/-- A poll that finds one result, the nonce 5. -/
def sample_poll : Environment where
  status := 0
  result_status := fun k => if k = 0 then 1 else 0
  result_nonce := fun _ => 5
  sent := fun _ => true
  now := 0
  final_status := 0
  final_result_status := 0

/-- The state in which it arrives. -/
def sample_mining : State := run (step sample_pool) State.init sample_session

/-- The share that it is submitted as. -/
def polled_share : Share := ⟨4, ascii "w", ascii "job", ascii "00000000", ascii "00000000", ascii "05000000"⟩

/-- The difficulty of the session is a number. -/
theorem low_difficulty : ∃ n : Numeral, Accepted n ∧ n.text = ascii "1e-20" ∧ n.value = 1 / 10 ^ 20 := by
  let n : Numeral := ⟨[1], none, some ⟨false, .minus, [2, 0], by simp⟩, by simp, by simp⟩
  have hvalue : n.value = 1 / 10 ^ 20 := by
    rw [Numeral.value, show n.power = -20 from rfl, show decValue n.mantissa = 1 from rfl]
    norm_num
  refine ⟨n, ⟨by decide, by decide, ⟨1, by decide, by decide⟩, fun e he => ?_, by decide⟩, rfl, hvalue⟩
  cases he
  decide

theorem low_difficulty_target : bitcoin_target (ascii "1e-20") = some (Vector.replicate 8 0xffffffff) := by
  obtain ⟨n, haccepted, htext, hvalue⟩ := low_difficulty
  have htarget : target_of n.value = 2 ^ 256 - 1 := by
    rw [target_of, hvalue]
    refine min_eq_right (Nat.le_floor ?_)
    norm_num
  have hword := bitcoin_target_numeral haccepted
  rw [htarget, htext] at hword
  exact hword

/-- The line that sets the difficulty. -/
theorem sample_difficulty {st : State} (hconn : st.connected = true) :
    step sample_pool st (.line [4] true) =
      { st.cleared with pending_target := Vector.replicate 8 0xffffffff }.out [.event .difficulty_changed] := by
  have hmethod : json_string sample_pool [4] "method" 64 = some (ascii "mining.set_difficulty") := by decide
  have hdifficulty : sample_pool.search [4] "params[0]" = .success (ascii "1e-20") .JSONNumber := by decide
  have hhandled (st : State) : handle_line sample_pool [4] true st =
      ({ st with pending_target := Vector.replicate 8 0xffffffff }.out [.event .difficulty_changed], true) := by
    rw [handle_line, if_neg (by decide), if_pos (by decide), notification, hmethod]
    change set_difficulty sample_pool [4] st = _
    rw [set_difficulty, hdifficulty]
    dsimp only
    rw [low_difficulty_target]
  rw [step_open sample_pool hconn]
  change finish (handle_line sample_pool [4] true st.cleared) = _
  rw [hhandled]
  rfl

theorem sample_ready :
    sample_mining.connected = true ∧ sample_mining.running = true ∧
      sample_mining.job.target = Vector.replicate 8 0xffffffff ∧
      sample_mining.pending.findIdx? (fun p => p.id == 0) = some 0 ∧ sample_mining.next_id = 4 ∧
      sample_mining.share 5 = polled_share := by
  have hopen : (run (step sample_pool) State.init [.connect (ascii "w") [] true, .line [1] true]).connected = true := by
    decide
  have hmining : sample_mining = run (step sample_pool)
      (step sample_pool (run (step sample_pool) State.init [.connect (ascii "w") [] true, .line [1] true])
        (.line [4] true)) [.line [3] true, .line [2] true] := rfl
  rw [hmining, sample_difficulty hopen]
  decide

/-- In such a state the poll submits the share. -/
theorem poll_submits (j : Json) {st : State} (hconn : st.connected = true) (hrun : st.running = true)
    (htarget : st.job.target = Vector.replicate 8 0xffffffff)
    (hfree : st.pending.findIdx? (fun p => p.id == 0) = some 0) (hid : st.next_id = 4)
    (hshare : st.share 5 = polled_share) : step j st (.service sample_poll) = st.cleared.sent 5 0 0 := by
  have hvalid : share_valid (sha256d (patch_nonce st.cleared.header 5)) st.cleared.job.target = true := by
    rw [show st.cleared.job.target = _ from htarget]
    exact share_valid_max (sha256d_length _)
  have hline : (st.cleared.share 5).line.length < 640 := by
    rw [show st.cleared.share 5 = polled_share from hshare]
    decide
  have hissued : ¬st.cleared.next_id < 4 := by
    rw [show st.cleared.next_id = 4 from hid]
    decide
  have hsubmit : submit_result 5 true 0 st.cleared = (st.cleared.sent 5 0 0, true) :=
    submit_result_sent hvalid hfree hissued hline
  have hloop : result_loop sample_poll 16 0 st.cleared = (st.cleared.sent 5 0 0, true) := by
    have hnonce : sample_poll.result_nonce 0 = 5 := rfl
    have hsent : sample_poll.sent 0 = true := rfl
    have hnow : sample_poll.now = 0 := rfl
    rw [result_loop, if_neg (by decide), hnonce, hsent, hnow, hsubmit]
    dsimp only
    rw [if_neg (by decide), result_loop, if_pos (by decide)]
  have hopen : (!st.cleared.running) = false := by rw [show st.cleared.running = true from hrun]; rfl
  have hserviced : service_results sample_poll st.cleared = (st.cleared.sent 5 0 0, true) := by
    rw [service_results, if_neg (by rw [hopen]; exact Bool.false_ne_true), if_neg (by decide), hloop]
    dsimp only
    rw [if_neg (by decide), if_neg (by decide)]
  rw [step_open j hconn]
  dsimp only
  rw [hserviced, finish]

theorem sample_polled :
    step sample_pool sample_mining (.service sample_poll) = sample_mining.cleared.sent 5 0 0 := by
  obtain ⟨hconn, hrun, htarget, hfree, hid, hshare⟩ := sample_ready
  exact poll_submits sample_pool hconn hrun htarget hfree hid hshare

theorem polled_share_verifiable :
    let p := run (joint_step sample_pool) (State.init, PoolView.fresh) sample_session
    ∃ header, .submit polled_share header ∈ (step sample_pool p.1 (.service sample_poll)).outputs ∧
      Submitted p.2 polled_share header ∧ Reads polled_share.line (share_value polled_share) := by
  intro p
  have hmining : p.1 = sample_mining := joint_run_fst ..
  have hmem : .submit polled_share (patch_nonce p.1.header 5) ∈ (step sample_pool p.1 (.service sample_poll)).outputs := by
    rw [hmining, sample_polled, ← sample_ready.2.2.2.2.2]
    exact sent_submits sample_mining 5 0 0
  obtain ⟨hsubmitted, hreads⟩ := submitted_shares_verifiable sample_pool sample_session (.service sample_poll) _ _ hmem
  exact ⟨_, hmem, hsubmitted, hreads (by decide) (by decide)⟩

end scu35.stratum
