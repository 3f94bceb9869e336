import Scu35Miner.Software.Stratum.Handlers

open fips180

namespace scu35.stratum

open sha256_sw bitcoin json_helpers

/-- The same state of a session with another password. -/
def State.masked (st : State) (password : List Byte) : State := { st with password }

/-- The result of a handler in a session with another password. -/
def masked_result (password : List Byte) (r : State × Bool) : State × Bool := (r.1.masked password, r.2)

section Masking

variable (password : List Byte) (st : State)

theorem build_header_masked : build_header (st.masked password) = masked_result password (build_header st) := by
  unfold build_header
  by_cases hexhausted : st.extra_exhausted = true
  · have hmasked : (st.masked password).extra_exhausted = true := hexhausted
    rw [if_pos hexhausted, if_pos hmasked]
    rfl
  · have hmasked : ¬(st.masked password).extra_exhausted = true := hexhausted
    rw [if_neg hexhausted, if_neg hmasked]
    have hjob : (st.masked password).job = st.job := rfl
    dsimp only
    rw [hjob]
    cases hex_decode (st.job.time.take 8) 4 with
    | none => rfl
    | some time =>
      by_cases hlen : (time.length != 4) = true
      · simp only [hlen]
        rfl
      · simp only [hlen]
        rfl

theorem set_difficulty_masked (j : Json) (s : List Byte) :
    set_difficulty j s (st.masked password) = masked_result password (set_difficulty j s st) := by
  unfold set_difficulty
  split
  · split <;> rfl
  · rfl

theorem set_extranonce_masked (j : Json) (s : List Byte) :
    set_extranonce j s (st.masked password) = masked_result password (set_extranonce j s st) := by
  unfold set_extranonce
  split
  · rfl
  · dsimp only
    split <;> rfl

theorem notify_masked (j : Json) (s : List Byte) :
    notify j s (st.masked password) = masked_result password (notify j s st) := by
  have hreceived (f : NotifyFields) : (st.masked password).received f = (st.received f).masked password := rfl
  have hbuild (f : NotifyFields) := build_header_masked password (st.received f)
  rw [notify_eq, notify_eq]
  change (if (!st.subscribed) = true then _ else _) = masked_result password (if (!st.subscribed) = true then _ else _)
  cases st.subscribed with
  | false => rfl
  | true =>
    cases parse_notify j s with
    | none => rfl
    | some f =>
      change (if st.authorized = true then _ else _) = masked_result password (if st.authorized = true then _ else _)
      cases st.authorized with
      | true => exact hbuild f
      | false => rfl

theorem notification_masked (j : Json) (s : List Byte) :
    notification j s (st.masked password) = masked_result password (notification j s st) := by
  unfold notification
  split
  · rfl
  · split
    · exact set_difficulty_masked password st j s
    · exact set_extranonce_masked password st j s
    · exact notify_masked password st j s
    · rfl

theorem authorize_reply_masked (j : Json) (s : List Byte) (sent : Bool) :
    authorize_reply j s sent (st.masked password) = masked_result password (authorize_reply j s sent st) := by
  unfold authorize_reply
  change (if (!st.subscribed || st.authorized) = true then _ else _) =
    masked_result password (if (!st.subscribed || st.authorized) = true then _ else _)
  cases (!st.subscribed || st.authorized) with
  | true => rfl
  | false =>
    cases json_true j s "result" with
    | false => rfl
    | true =>
      cases sent with
      | false => rfl
      | true =>
        have hbuild := build_header_masked password
          ({ st with authorized := true }.out [.event .pool_authorized, .send suggest_request])
        change (if st.have_job = true then _ else _) = masked_result password (if st.have_job = true then _ else _)
        by_cases hjob : st.have_job = true
        · rw [if_pos hjob, if_pos hjob]
          exact hbuild
        · rw [if_neg hjob, if_neg hjob]
          rfl

theorem share_reply_masked (id : Word) (accepted : Bool) :
    share_reply id accepted (st.masked password) = (share_reply id accepted st).masked password := by
  unfold share_reply
  have hpending : (st.masked password).pending = st.pending := rfl
  rw [hpending]
  cases st.pending.findIdx? (fun p => id ≥ 4 && p.id == id) <;> rfl

theorem submit_result_masked (nonce : Word) (sent : Bool) (now : Word) :
    submit_result nonce sent now (st.masked password) = masked_result password (submit_result nonce sent now st) := by
  unfold submit_result
  dsimp only [State.masked, State.out]
  cases share_valid (sha256d (patch_nonce st.header nonce)) st.job.target with
  | false => rfl
  | true =>
    cases st.pending.findIdx? (fun p => p.id == 0) with
    | none => rfl
    | some slot =>
      by_cases hid : st.next_id < 4
      · simp only [hid, ↓reduceIte]
        rfl
      · simp only [hid, ↓reduceIte]
        have hvalid : ¬(!true) = true := by decide
        rw [if_neg hvalid, if_neg hvalid]
        split
        · rfl
        · cases sent <;> rfl

theorem next_range_masked : next_range (st.masked password) = masked_result password (next_range st) := by
  obtain ⟨hzero, heq⟩ | ⟨hnext, heq⟩ := next_range_cases st
  · obtain ⟨_, hmasked⟩ | ⟨hnext, _⟩ := next_range_cases (st.masked password)
    · rw [heq, hmasked, ← build_header_masked]
      rfl
    · exact absurd hzero hnext
  · obtain ⟨hzero, _⟩ | ⟨_, hmasked⟩ := next_range_cases (st.masked password)
    · exact absurd hzero hnext
    · rw [heq, hmasked]
      rfl

theorem result_loop_masked (env : Environment) (n k : Nat) :
    result_loop env n k (st.masked password) = masked_result password (result_loop env n k st) := by
  induction n generalizing k st with
  | zero => rfl
  | succ n ih =>
    rw [result_loop, result_loop, submit_result_masked]
    generalize submit_result (env.result_nonce k) (env.sent k) env.now st = r
    obtain ⟨next, ok⟩ := r
    by_cases hempty : env.result_status k &&& 1 = 0
    · rw [if_pos hempty, if_pos hempty]
      rfl
    · rw [if_neg hempty, if_neg hempty]
      cases ok with
      | false => rfl
      | true => exact ih next (k + 1)

theorem service_results_masked (env : Environment) :
    service_results env (st.masked password) = masked_result password (service_results env st) := by
  rw [service_results, service_results, result_loop_masked]
  generalize result_loop env 16 0 st = r
  obtain ⟨next, ok⟩ := r
  change (if (!st.running) = true then _ else _) = masked_result password (if (!st.running) = true then _ else _)
  by_cases hidle : (!st.running) = true
  · rw [if_pos hidle, if_pos hidle]
    rfl
  · rw [if_neg hidle, if_neg hidle]
    by_cases hoverflow : (env.status &&& 8 != 0) = true
    · rw [if_pos hoverflow, if_pos hoverflow]
      rfl
    · rw [if_neg hoverflow, if_neg hoverflow]
      cases ok with
      | false => rfl
      | true =>
        change (if (env.final_status &&& 4 != 0 && env.final_result_status &&& 1 == 0) = true then _ else _) =
          masked_result password
            (if (env.final_status &&& 4 != 0 && env.final_result_status &&& 1 == 0) = true then _ else _)
        by_cases hdone : (env.final_status &&& 4 != 0 && env.final_result_status &&& 1 == 0) = true
        · rw [if_pos hdone, if_pos hdone]
          exact next_range_masked password next
        · rw [if_neg hdone, if_neg hdone]

end Masking

/-- Outputs that differ only in the password of an authorization request. -/
inductive Output.Alike : Output → Output → Prop where
  | same (o : Output) : Output.Alike o o
  | authorize (worker password password' : List Byte) :
    Output.Alike (.send (authorize_request worker password)) (.send (authorize_request worker password'))

theorem alike_refl (outputs : List Output) : List.Forall₂ Output.Alike outputs outputs :=
  List.forall₂_same.mpr fun o _ => .same o

/-- A session without its password and the outputs of the last event. -/
def State.redacted (st : State) : State := { st with password := [], outputs := [] }

/-- Sessions that differ only in the password, and in the request that has it. -/
structure State.Alike (st st' : State) : Prop where
  state : st.redacted = st'.redacted
  outputs : List.Forall₂ Output.Alike st.outputs st'.outputs

theorem masked_alike (st : State) (password password' : List Byte) :
    (st.masked password).Alike (st.masked password') := ⟨rfl, alike_refl _⟩

theorem disconnect_alike {st st' : State} (h : st.Alike st') : (disconnect st).Alike (disconnect st') := by
  have hstate := h.state
  refine ⟨?_, ?_⟩
  · change { { st.redacted with running := false, have_job := false } with connected := false } =
      { { st'.redacted with running := false, have_job := false } with connected := false }
    rw [hstate]
  · exact List.rel_append (List.rel_append h.outputs (alike_refl _)) (alike_refl _)

theorem finish_alike {r r' : State × Bool} (h : r.1.Alike r'.1) (hok : r.2 = r'.2) : (finish r).Alike (finish r') := by
  obtain ⟨st, ok⟩ := r
  obtain ⟨st', ok'⟩ := r'
  cases hok
  cases ok with
  | true => exact h
  | false => exact disconnect_alike h

theorem masked_finish_alike (r : State × Bool) (password password' : List Byte) :
    (finish (masked_result password r)).Alike (finish (masked_result password' r)) :=
  finish_alike (masked_alike r.1 password password') rfl

theorem subscribe_reply_alike (j : Json) (s : List Byte) (sent : Bool) (st : State) (password password' : List Byte) :
    (finish (subscribe_reply j s sent (st.masked password))).Alike
      (finish (subscribe_reply j s sent (st.masked password'))) := by
  unfold subscribe_reply
  change (finish (if st.subscribed = true then _ else _)).Alike (finish (if st.subscribed = true then _ else _))
  cases st.subscribed with
  | true => exact finish_alike (masked_alike st password password') rfl
  | false =>
    cases json_hex j s "result[1]" 32 with
    | none => exact finish_alike (masked_alike st password password') rfl
    | some out =>
      dsimp only
      cases extranonce_size j s "result[2]" with
      | none => exact finish_alike (masked_alike { st with extra1 := store_front st.extra1 out } password password') rfl
      | some count =>
        refine finish_alike ⟨rfl, ?_⟩ rfl
        exact List.rel_append (alike_refl st.outputs) (.cons (.authorize st.worker password password') .nil)

theorem handle_line_alike (j : Json) (s : List Byte) (sent : Bool) (st : State) (password password' : List Byte) :
    (finish (handle_line j s sent (st.masked password))).Alike
      (finish (handle_line j s sent (st.masked password'))) := by
  unfold handle_line
  split
  · exact finish_alike (masked_alike st password password') rfl
  · split
    · rw [notification_masked, notification_masked]
      exact masked_finish_alike _ password password'
    · unfold reply
      split
      · exact finish_alike (masked_alike st password password') rfl
      next id _ =>
        by_cases hone : id = 1
        · rw [if_pos hone, if_pos hone]
          exact subscribe_reply_alike j s sent st password password'
        · rw [if_neg hone, if_neg hone]
          by_cases htwo : id = 2
          · rw [if_pos htwo, if_pos htwo, authorize_reply_masked, authorize_reply_masked]
            exact masked_finish_alike _ password password'
          · rw [if_neg htwo, if_neg htwo, share_reply_masked, share_reply_masked]
            exact finish_alike (masked_alike _ password password') rfl

/-- Events that differ only in the password of a new session. -/
inductive Event.Alike : Event → Event → Prop where
  | same (e : Event) : Event.Alike e e
  | connect (worker password password' : List Byte) (sent : Bool) :
    Event.Alike (.connect worker password sent) (.connect worker password' sent)

theorem connect_alike (worker password password' : List Byte) (sent : Bool) (st : State) (p p' : List Byte) :
    (connect worker password sent (st.masked p)).Alike (connect worker password' sent (st.masked p')) := by
  unfold connect
  generalize bitcoin_target (ascii "1") = target
  cases sent with
  | true => exact ⟨rfl, alike_refl _⟩
  | false =>
    change (disconnect _).Alike (disconnect _)
    exact disconnect_alike ⟨rfl, alike_refl _⟩

/-- An event keeps sessions alike. -/
theorem step_alike (j : Json) {st st' : State} (h : st.redacted = st'.redacted) {e e' : Event} (he : e.Alike e') :
    (step j st e).Alike (step j st' e') := by
  have hst : st.cleared = st.redacted.masked st.password := rfl
  have hst' : st'.cleared = st.redacted.masked st'.password := by
    rw [h]
    rfl
  have hconn : st.connected = st'.connected := by
    change st.redacted.connected = st'.redacted.connected
    rw [h]
  have hsame : st.cleared.Alike st'.cleared := by
    rw [hst, hst']
    exact masked_alike _ _ _
  cases hopen : st.connected with
  | true =>
    rw [step_open j hopen, step_open j (hconn.symm.trans hopen)]
    cases he with
    | connect => exact hsame
    | same e =>
      rw [hst, hst']
      cases e with
      | connect worker password sent => exact masked_alike _ _ _
      | line text sent => exact handle_line_alike j text sent _ _ _
      | service env =>
        dsimp only
        rw [service_results_masked, service_results_masked]
        exact masked_finish_alike _ _ _
      | timeouts now limit => exact @finish_alike (_, _) (_, _) ⟨rfl, alike_refl _⟩ rfl
      | disconnect => exact disconnect_alike (masked_alike _ _ _)
  | false =>
    rw [step_closed j hopen, step_closed j (hconn.symm.trans hopen)]
    cases he with
    | connect worker password password' sent =>
      rw [hst, hst']
      exact connect_alike worker password password' sent _ _ _
    | same e =>
      cases e with
      | connect worker password sent =>
        rw [hst, hst']
        exact connect_alike worker password password sent _ _ _
      | _ => exact hsame

end scu35.stratum
