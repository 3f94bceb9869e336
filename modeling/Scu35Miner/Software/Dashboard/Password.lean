import Scu35Miner.Software.Dashboard
import Scu35Miner.Software.Settings.Failure

open fips180 storage transition

namespace scu35.dashboard

open json_helpers settings miner_protocol

/-- The password that a fault-free load of these contents returns. -/
def stored_password (m : Cells Byte) : List Byte := c_string (loaded m).1.password

/-- A load returns what is stored, or the defaults after a failed read. -/
theorem settings_load_cases {m : Cells Byte} {plan : List (Option Fault)} {r : miner_settings × Int} {d : Device Byte}
    (hload : settings_load ⟨m, plan⟩ = .value r d) :
    d.cells = m ∧ (r = loaded m ∨ r = (settings_defaults, -1) ∧ ¬(fault plan 0 = none ∧ fault plan 1 = none)) := by
  by_cases hread : fault plan 0 = none ∧ fault plan 1 = none
  · rw [settings_load, read_slots_ok ⟨m, plan⟩ hread.1 hread.2] at hload
    dsimp only [Outcome.bind, slots_of, active] at hload
    rw [loaded]
    obtain ⟨hc, _⟩ | ⟨hc, _⟩ | ⟨hc, _⟩ := choose_slot_cases (slot m SETTINGS_SLOT0) (slot m SETTINGS_SLOT1)
    all_goals
      rw [hc] at hload ⊢
      cases hload
      exact ⟨rfl, .inl rfl⟩
  · rw [settings_load] at hload
    obtain ⟨slots, rest, hfailed, heq⟩ | heq := read_slots_failed ⟨m, plan⟩ hread
    · rw [heq, Outcome.bind, hfailed] at hload
      cases hload
      exact ⟨rfl, .inr ⟨rfl, hread⟩⟩
    · rw [heq] at hload
      cases hload

theorem parsed_password {j : Json} {line : List Byte} {current next : miner_settings}
    (homit : j.search line "password" = .not_found) (hparse : miner_config_parse j line current = .ok next) :
    next.password = current.password := by
  obtain ⟨mac, host, worker, port, password, hfields, _, rfl⟩ := miner_config_parse_ok hparse
  have hpassword := hfields.password_eq
  rw [parse_password, homit] at hpassword
  exact (Option.some.inj hpassword).symm

/-- The settings in use have the stored password. -/
def Synced (st : Miner) : Prop :=
  ∀ current, st.settings = some current → c_string current.password = stored_password st.cells

/-- A save that succeeds stores its settings. -/
theorem settings_save_loaded {m : Cells Byte} {s : miner_settings} (hs : settings_valid s = true)
    {plan : List (Option Fault)} {d : Device Byte} (hsave : settings_save s ⟨m, plan⟩ = .value 0 d) :
    loaded d.cells = (s, 1) := by
  have hends := settings_save_ends s ⟨m, plan⟩
  rw [hsave] at hends
  rw [hends.2 rfl]
  exact loaded_sealed m hs

/-- A request leaves the settings in use and the stored password as they were,
or stores the settings it was parsed to; these are in use if it succeeds. -/
theorem config_reply_cases {j : Json} {line : List Byte} {complete : Bool} {current : miner_settings}
    {active_mac : Vector Byte 6} {m : Cells Byte} {plan : List (Option Fault)}
    {r : miner_settings × Option (List Byte)} {d : Device Byte}
    (hreply : config_reply j line complete current active_mac ⟨m, plan⟩ = .value r d) :
    (r.1 = current ∧ loaded d.cells = loaded m) ∨
      ∃ next, miner_config_parse j line current = .ok next ∧ loaded d.cells = (next, 1) ∧
        (r.1 = next ∨ r.1 = current ∧ complete = true ∧ CommitLost plan) := by
  unfold config_reply at hreply
  split at hreply
  · cases hreply
    exact .inl ⟨rfl, rfl⟩
  next hcomplete =>
    replace hcomplete : complete = true := by simpa using hcomplete
    split at hreply
    · cases hreply
      exact .inl ⟨rfl, rfl⟩
    · split at hreply
      · cases hreply
        exact .inl ⟨rfl, rfl⟩
      · split at hreply
        · left
          cases hload : settings_load ⟨m, plan⟩ with
          | lost cells =>
            rw [hload] at hreply
            cases hreply
          | value loaded d' =>
            rw [hload, Outcome.bind] at hreply
            have hcells := (settings_load_cases hload).1
            split at hreply
            · cases hreply
              exact ⟨rfl, by rw [hcells]⟩
            · cases hreply
              exact ⟨rfl, by rw [hcells]⟩
        · unfold configure at hreply
          cases hparse : miner_config_parse j line current with
          | error e =>
            rw [hparse] at hreply
            cases hreply
            exact .inl ⟨rfl, rfl⟩
          | ok next =>
            have hvalid : settings_valid next = true := by
              obtain ⟨_, _, _, _, _, _, hvalid, _⟩ := miner_config_parse_ok hparse
              exact hvalid
            rw [hparse] at hreply
            dsimp only at hreply
            cases hsave : settings_save next ⟨m, plan⟩ with
            | lost cells =>
              rw [hsave] at hreply
              cases hreply
            | value rc d' =>
              rw [hsave] at hreply
              dsimp only [Outcome.bind] at hreply
              by_cases hrc : rc = 0
              · subst hrc
                cases hreply
                exact .inr ⟨next, rfl, settings_save_loaded hvalid hsave, .inl rfl⟩
              · rw [if_neg hrc] at hreply
                cases hreply
                obtain hkept | ⟨_, hlost⟩ := settings_save_failed hsave hrc
                · exact .inl ⟨rfl, hkept⟩
                · obtain ⟨d', hsave', hload⟩ := settings_save_commit_lost m hvalid hlost
                  rw [hsave] at hsave'
                  cases hsave'
                  exact .inr ⟨next, rfl, hload, .inr ⟨rfl, hcomplete, hlost⟩⟩

/-- The faults of an event cannot part the password in use from the stored one:
a boot reads both slots without error unless the stored password is empty, and
no save of another password reports an error after its commit byte. -/
def FaultsHarmless (j : Json) (st : Miner) : Event → Prop
  | .boot plan => (fault plan 0 = none ∧ fault plan 1 = none) ∨ stored_password st.cells = []
  | .request line complete _ plan => complete = true → CommitLost plan → ∀ current next,
      st.settings = some current → miner_config_parse j line current = .ok next →
      c_string next.password = c_string current.password

/-- All events of a sequence have harmless faults. -/
def AllHarmless (j : Json) : Miner → List Event → Prop
  | _, [] => True
  | st, e :: events => FaultsHarmless j st e ∧ AllHarmless j (st.step j e) events

/-- A request without a password field that is answered ok preserves what a
fault-free load returns as the password. -/
def KeepsPassword (j : Json) (st : Miner) (e : Event) : Prop :=
  ∀ line complete active_mac plan current r d, e = .request line complete active_mac plan →
    st.settings = some current → j.search line "password" = .not_found →
    config_reply j line complete current active_mac ⟨st.cells, plan⟩ = .value r d → r.2 = some saved_reply →
    ∀ before after, LoadsAs st.cells before → LoadsAs d.cells after →
      c_string after.1.password = c_string before.1.password

theorem step_synced (j : Json) {st : Miner} (h : Synced st) {e : Event} (hfaults : FaultsHarmless j st e) :
    Synced (st.step j e) := by
  intro current hcurrent
  cases e with
  | boot plan =>
    cases hload : settings_load ⟨st.cells, plan⟩ with
    | lost cells =>
      simp only [Miner.step, hload] at hcurrent
      cases hcurrent
    | value r d =>
      simp only [Miner.step, hload] at hcurrent ⊢
      obtain ⟨hcells, hr⟩ := settings_load_cases hload
      cases hcurrent
      rw [hcells]
      obtain rfl | ⟨rfl, hfailed⟩ := hr
      · rfl
      · rw [hfaults.resolve_left hfailed]
        decide
  | request line complete active_mac plan =>
    cases hsettings : st.settings with
    | none =>
      simp only [Miner.step, hsettings] at hcurrent
      cases hcurrent
    | some used =>
      cases hreply : config_reply j line complete used active_mac ⟨st.cells, plan⟩ with
      | lost cells =>
        simp only [Miner.step, hsettings, hreply] at hcurrent
        cases hcurrent
      | value r d =>
        simp only [Miner.step, hsettings, hreply] at hcurrent ⊢
        cases hcurrent
        have hused := h used hsettings
        obtain ⟨hr, hload⟩ | ⟨next, hparse, hload, hr | ⟨hr, hcomplete, hlost⟩⟩ := config_reply_cases hreply
        · rw [hr, hused, stored_password, stored_password, hload]
        · rw [hr, stored_password, hload]
        · rw [hr, stored_password, hload, hfaults hcomplete hlost used next hsettings hparse]

theorem run_synced (j : Json) {st : Miner} (h : Synced st) {events : List Event} (hall : AllHarmless j st events) :
    Synced (run (Miner.step j) st events) := by
  induction events generalizing st with
  | nil => exact h
  | cons e events ih => exact ih (step_synced j h hall.1) hall.2

/-- From any EEPROM contents, through any boots and requests with harmless
faults, omitting the password preserves the stored one. -/
theorem omitted_password_preserved (j : Json) (m : Cells Byte) (events : List Event)
    (hfaults : AllHarmless j ⟨none, m⟩ events) (e : Event) :
    KeepsPassword j (run (Miner.step j) ⟨none, m⟩ events) e := by
  have hoff : Synced ⟨none, m⟩ := fun current hcurrent => by cases hcurrent
  have hsynced := run_synced j hoff hfaults
  intro line complete active_mac plan current r d he hsettings homit hreply hok before after hbefore hafter
  rw [loadsAs_iff] at hbefore hafter
  have hused := hsynced current hsettings
  rw [stored_password, hbefore] at hused
  obtain ⟨_, hload⟩ | ⟨next, hparse, hload, _⟩ := config_reply_cases hreply
  · rw [← hafter, hload, hbefore]
  · rw [← hafter, hload, parsed_password homit hparse, hused]

/-- A request that changes the last octet of the address and leaves out the
password. -/
def sample_request : List Byte :=
  ascii "\x7b\"command\":\"configure\",\"mac\":\"02:00:00:11:22:34\",\"host\":\"a.b\",\"port\":3333,\"worker\":\"w\"\x7d"

/-- The JSON library on that request. -/
def sample_json : Json where
  validate _ := true
  search _ q :=
    match q with
    | "command" => .success (ascii "configure") .JSONString
    | "mac" => .success (ascii "02:00:00:11:22:34") .JSONString
    | "host" => .success (ascii "a.b") .JSONString
    | "port" => .success (ascii "3333") .JSONNumber
    | "worker" => .success (ascii "w") .JSONString
    | _ => .not_found

/-- The defaults with a password of one character. -/
def secret_settings : miner_settings :=
  { settings_defaults with password := store_string settings_defaults.password (ascii "x") }

/-- The settings that the request asks for. -/
def sample_settings (current : miner_settings) : miner_settings :=
  merged current #v[2, 0, 0, 0x11, 0x22, 0x34] (ascii "a.b") (ascii "w") 3333 current.password

/-- The reply to the request is that of its save. -/
theorem sample_reply {current : miner_settings} (hvalid : settings_valid (sample_settings current) = true)
    (active_mac : Vector Byte 6) (d : Device Byte) :
    config_reply sample_json sample_request true current active_mac d =
      (settings_save (sample_settings current) d).bind fun rc d =>
        if rc = 0 then .value (sample_settings current, some saved_reply) d
        else .value (current, some (error_reply .eeprom_write_failed)) d := by
  have hparse : miner_config_parse sample_json sample_request current = .ok (sample_settings current) := by
    refine Accepted.parses ⟨rfl, by decide, by decide, by decide, by decide, by decide, by decide, ?_⟩ hvalid
    rfl
  have hcommand : json_string sample_json sample_request "command" 24 = some (ascii "configure") := by decide
  rw [config_reply, if_neg (by decide), if_neg (by decide), hcommand]
  dsimp only
  rw [if_neg (by decide), configure, hparse]
  dsimp only
  cases settings_save (sample_settings current) d with
  | lost cells => rfl
  | value rc d =>
    by_cases hrc : rc = 0
    · simp only [Outcome.bind, if_pos hrc]
    · simp only [Outcome.bind, if_neg hrc]

/-- A failed save before a request without a password: the stored password is
kept, and the request is answered ok. -/
theorem secret_password_preserved :
    let m := saved (fun _ => 0xff) secret_settings
    let events := [.boot [], .request sample_request true settings_defaults.mac [some (.error 0)]]
    let st := run (Miner.step sample_json) ⟨none, m⟩ events
    AllHarmless sample_json ⟨none, m⟩ events ∧
      ∃ d, config_reply sample_json sample_request true secret_settings settings_defaults.mac ⟨st.cells, []⟩ =
          .value (sample_settings secret_settings, some saved_reply) d ∧
        c_string (loaded d.cells).1.password = ascii "x" := by
  intro m events st
  have hstored : loaded m = (secret_settings, 1) := loaded_sealed _ (by decide)
  clear_value m
  have hvalid : settings_valid (sample_settings secret_settings) = true := by decide
  have hboot : Miner.step sample_json ⟨none, m⟩ (.boot []) = ⟨some secret_settings, m⟩ := by
    rw [Miner.step, settings_load_fault_free, hstored]
  have hsavefails : settings_save (sample_settings secret_settings) ⟨m, [some (.error 0)]⟩ = .value (-1) ⟨m, []⟩ := by
    rw [settings_save, if_neg (by simp [hvalid])]
    rfl
  have hrequest : Miner.step sample_json ⟨some secret_settings, m⟩
      (.request sample_request true settings_defaults.mac [some (.error 0)]) = ⟨some secret_settings, m⟩ := by
    rw [Miner.step]
    dsimp only
    rw [sample_reply hvalid, hsavefails]
    rfl
  have hst : st = ⟨some secret_settings, m⟩ := by
    rw [show st = run (Miner.step sample_json) ⟨none, m⟩ events from rfl, run_cons, hboot, run_cons, hrequest]
    rfl
  have hall : AllHarmless sample_json ⟨none, m⟩ events :=
    ⟨.inl ⟨rfl, rfl⟩, fun _ hlost => (by cases hlost.1 0 (by decide)), trivial⟩
  obtain ⟨plan, hsave⟩ := settings_save_fault_free m hvalid
  have hreply : config_reply sample_json sample_request true secret_settings settings_defaults.mac ⟨st.cells, []⟩ =
      .value (sample_settings secret_settings, some saved_reply) ⟨saved m (sample_settings secret_settings), plan⟩ := by
    rw [hst, sample_reply hvalid, hsave]
    rfl
  have hkept := omitted_password_preserved sample_json m events hall
    (.request sample_request true settings_defaults.mac []) sample_request true settings_defaults.mac []
    secret_settings _ _ rfl (congrArg Miner.settings hst) (by decide) hreply rfl _ _ (loadsAs_loaded _) (loadsAs_loaded _)
  refine ⟨hall, _, hreply, hkept.trans ?_⟩
  rw [show run (Miner.step sample_json) ⟨none, m⟩ events = st from rfl, hst, hstored]
  decide

/-- A read error at boot leaves the defaults in use, whose password is empty;
the next request without a password then erases the stored one. -/
theorem failed_boot_erases_password :
    ¬KeepsPassword sample_json
      (run (Miner.step sample_json) ⟨none, saved (fun _ => 0xff) secret_settings⟩ [.boot [some (.error 0)]])
      (.request sample_request true settings_defaults.mac []) := by
  have hsecret : settings_valid secret_settings = true := by decide
  have hstored : loaded (saved (fun _ => 0xff) secret_settings) = (secret_settings, 1) := loaded_sealed _ hsecret
  generalize saved (fun _ => 0xff) secret_settings = m at hstored ⊢
  have hvalid : settings_valid (sample_settings settings_defaults) = true := by decide
  obtain ⟨plan, hsave⟩ := settings_save_fault_free m hvalid
  have hreply : config_reply sample_json sample_request true settings_defaults settings_defaults.mac ⟨m, []⟩ =
      .value (sample_settings settings_defaults, some saved_reply) ⟨saved m (sample_settings settings_defaults), plan⟩ := by
    rw [sample_reply hvalid, hsave]
    rfl
  intro hkeeps
  have hlost := hkeeps sample_request true settings_defaults.mac [] settings_defaults _ _ rfl rfl (by decide) hreply rfl
    (secret_settings, 1) (sample_settings settings_defaults, 1) ((loadsAs_iff _ _).mpr hstored)
    ((loadsAs_iff _ _).mpr (loaded_sealed m hvalid))
  revert hlost
  decide

end scu35.dashboard
