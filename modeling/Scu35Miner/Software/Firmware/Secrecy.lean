import Scu35Miner.Software.Dashboard.Password
import Scu35Miner.Software.Firmware
import Scu35Miner.Software.Stratum.Secret

open fips180 storage

namespace scu35.firmware

open json_helpers settings miner_protocol dashboard

/-- Settings that differ only in the password, and agree on whether there is
one. -/
structure SettingsAlike (s t : miner_settings) : Prop where
  mac : s.mac = t.mac
  port : s.port = t.port
  host : s.host = t.host
  worker : s.worker = t.worker
  password_set : s.password[0] = 0 ↔ t.password[0] = 0
  valid : settings_valid s = true
  valid' : settings_valid t = true

theorem settings_valid_password {s : miner_settings} (h : settings_valid s = true) :
    string_ok s.password.toList = true := by
  unfold settings_valid at h
  dsimp only at h
  split at h
  · cases h
  · split at h
    · cases h
    next hstrings =>
      simp only [Bool.or_eq_true, Bool.not_eq_true', not_or, Bool.not_eq_false] at hstrings
      exact hstrings.2

/-- Validity depends on a password only through its characters. -/
theorem settings_valid_congr {s t : miner_settings} (hmac : s.mac = t.mac) (hport : s.port = t.port)
    (hhost : s.host = t.host) (hworker : s.worker = t.worker)
    (hpassword : string_ok s.password.toList = string_ok t.password.toList) : settings_valid s = settings_valid t := by
  simp only [settings_valid, hmac, hport, hhost, hworker, hpassword]

theorem store_string_first (array array' : Vector Byte 64) (s : List Byte) :
    (store_string array s)[0] = (store_string array' s)[0] := by
  simp only [store_string, Vector.getElem_ofFn]
  cases s with
  | nil => simp
  | cons c s => simp

theorem parse_password_alike (j : Json) (line : List Byte) {p q : Vector Byte 64} (hp : string_ok p.toList = true)
    (hq : string_ok q.toList = true) (hset : p[0] = 0 ↔ q[0] = 0) :
    (parse_password j line p = none ∧ parse_password j line q = none) ∨
      ∃ p' q', parse_password j line p = some p' ∧ parse_password j line q = some q' ∧
        string_ok p'.toList = string_ok q'.toList ∧ (p'[0] = 0 ↔ q'[0] = 0) := by
  unfold parse_password
  split
  · exact .inr ⟨p, q, rfl, rfl, by rw [hp, hq], hset⟩
  · cases hstring : json_string j line "password" 64 with
    | none => exact .inl ⟨rfl, rfl⟩
    | some v =>
      have hfits := (json_string_fits hstring).1
      refine .inr ⟨store_string p v, store_string q v, rfl, rfl, ?_, ?_⟩
      · rw [store_string_toList p hfits, store_string_toList q hfits]
        exact string_ok_terminated v _ _
      · rw [store_string_first p q v]
  · exact .inl ⟨rfl, rfl⟩

/-- A request is rejected for the same reason, or leads to settings that are
alike. -/
theorem miner_config_parse_alike (j : Json) (line : List Byte) {s t : miner_settings} (h : SettingsAlike s t) :
    (∃ e, miner_config_parse j line s = .error e ∧ miner_config_parse j line t = .error e) ∨
      ∃ s' t', miner_config_parse j line s = .ok s' ∧ miner_config_parse j line t = .ok t' ∧ SettingsAlike s' t' := by
  unfold miner_config_parse
  cases j.validate line with
  | false => exact .inl ⟨_, rfl, rfl⟩
  | true =>
    simp only [Bool.not_true, Bool.false_eq_true, ↓reduceIte]
    cases json_string j line "command" 24 with
    | none => exact .inl ⟨_, rfl, rfl⟩
    | some command =>
      by_cases hcommand : command ≠ ascii "configure"
      · simp only [if_pos hcommand]
        exact .inl ⟨_, rfl, rfl⟩
      · simp only [if_neg hcommand]
        split
        next mac host worker port hmac hhost hworker hport =>
          by_cases hrange : port > 65535
          · simp only [hrange, ↓reduceIte]
            exact .inl ⟨_, rfl, rfl⟩
          · simp only [hrange, ↓reduceIte]
            obtain ⟨hnone, hnone'⟩ | ⟨p, q, hp, hq, hok, hset⟩ := parse_password_alike j line
              (settings_valid_password h.valid) (settings_valid_password h.valid') h.password_set
            · rw [hnone, hnone']
              exact .inl ⟨_, rfl, rfl⟩
            · rw [hp, hq, h.host, h.worker]
              dsimp only
              have hvalid := settings_valid_congr (s := ⟨mac, port.setWidth 16, store_string t.host host,
                store_string t.worker worker, p⟩) (t := ⟨mac, port.setWidth 16, store_string t.host host,
                store_string t.worker worker, q⟩) rfl rfl rfl rfl hok
              cases hq' : settings_valid ⟨mac, port.setWidth 16, store_string t.host host,
                store_string t.worker worker, q⟩ with
              | false =>
                rw [hvalid, hq']
                exact .inl ⟨_, rfl, rfl⟩
              | true =>
                rw [hvalid, hq']
                exact .inr ⟨_, _, rfl, rfl, ⟨rfl, rfl, rfl, rfl, hset, hvalid.trans hq', hq'⟩⟩
        · exact .inl ⟨_, rfl, rfl⟩

theorem miner_config_json_alike {s t : miner_settings} (h : SettingsAlike s t) (stored : Bool)
    (active_mac : Vector Byte 6) : miner_config_json s stored active_mac = miner_config_json t stored active_mac := by
  have hset : (s.password.get 0 != 0) = (t.password.get 0 != 0) := by
    rw [Bool.eq_iff_iff, bne_iff_ne, bne_iff_ne]
    exact h.password_set.not
  rw [miner_config_json, miner_config_json, h.valid, h.valid', h.mac, h.host, h.port, h.worker, hset]

/-- Contents from which settings are loaded that are alike. -/
def StoredAlike (m m' : Cells Byte) : Prop :=
  SettingsAlike (loaded m).1 (loaded m').1 ∧ (loaded m).2 = (loaded m').2 ∧ 0 ≤ (loaded m).2

theorem saved_alike (m m' : Cells Byte) {s t : miner_settings} (h : SettingsAlike s t) :
    StoredAlike (saved m s) (saved m' t) := by
  have hs : loaded (saved m s) = (s, 1) := loaded_sealed m h.valid
  have ht : loaded (saved m' t) = (t, 1) := loaded_sealed m' h.valid'
  rw [StoredAlike, hs, ht]
  exact ⟨h, rfl, Int.one_nonneg⟩

/-- A request gets the same reply and leaves settings that are alike. -/
theorem config_reply_alike (j : Json) (line : List Byte) (complete : Bool) {s t : miner_settings}
    (h : SettingsAlike s t) (active_mac : Vector Byte 6) {m m' : Cells Byte} (hm : StoredAlike m m') :
    ∃ s' t' reply d d', config_reply j line complete s active_mac ⟨m, []⟩ = .value (s', reply) d ∧
      config_reply j line complete t active_mac ⟨m', []⟩ = .value (t', reply) d' ∧ SettingsAlike s' t' ∧
      StoredAlike d.cells d'.cells := by
  unfold config_reply
  cases complete with
  | false => exact ⟨_, _, _, _, _, rfl, rfl, h, hm⟩
  | true =>
    simp only [Bool.not_true, Bool.false_eq_true, ↓reduceIte]
    cases j.validate line with
    | false => exact ⟨_, _, _, _, _, rfl, rfl, h, hm⟩
    | true =>
      simp only [Bool.not_true, Bool.false_eq_true, ↓reduceIte]
      cases json_string j line "command" 24 with
      | none => exact ⟨_, _, _, _, _, rfl, rfl, h, hm⟩
      | some command =>
        by_cases hget : command = ascii "get_settings"
        · have hstored : ¬(loaded m').2 < 0 := by
            have hle := hm.2.2
            rw [hm.2.1] at hle
            omega
          simp only [hget, ↓reduceIte, settings_load_fault_free, Outcome.bind, hm.2.1, hstored,
            miner_config_json_alike hm.1]
          exact ⟨_, _, _, _, _, rfl, rfl, h, hm⟩
        · simp only [hget, ↓reduceIte]
          obtain ⟨e, he, he'⟩ | ⟨s', t', hs, ht, halike⟩ := miner_config_parse_alike j line h
          · rw [configure, configure, he, he']
            exact ⟨_, _, _, _, _, rfl, rfl, h, hm⟩
          · obtain ⟨plan, hsave⟩ := settings_save_fault_free m halike.valid
            obtain ⟨plan', hsave'⟩ := settings_save_fault_free m' halike.valid'
            rw [configure, configure, hs, ht]
            dsimp only
            rw [hsave, hsave']
            exact ⟨_, _, _, _, _, rfl, rfl, halike, saved_alike m m' halike⟩

/-- Outputs that differ only in the password of an authorization request. -/
inductive Output.Alike : Output → Output → Prop where
  | same (o : Output) : Output.Alike o o
  | authorize (worker password password' : List Byte) :
    Output.Alike (.pool (.send (stratum.authorize_request worker password)))
      (.pool (.send (stratum.authorize_request worker password')))

theorem same_outputs (outputs : List Output) : List.Forall₂ Output.Alike outputs outputs :=
  List.forall₂_same.mpr fun o _ => .same o

theorem pool_outputs {os os' : List stratum.Output} (h : List.Forall₂ stratum.Output.Alike os os') :
    List.Forall₂ Output.Alike (os.map .pool) (os'.map .pool) := by
  induction h with
  | nil => exact .nil
  | cons ho _ ih =>
    refine .cons ?_ ih
    cases ho with
    | same => exact .same _
    | authorize => exact .authorize _ _ _

/-- Requests to the pool are no telemetry. -/
theorem telemetry_alike {os os' : List stratum.Output} (h : List.Forall₂ stratum.Output.Alike os os')
    (id : List Byte) (t : Telemetry) : os.foldl (telemetry_output id) t = os'.foldl (telemetry_output id) t := by
  induction h generalizing t with
  | nil => rfl
  | cons ho _ ih =>
    cases ho with
    | same => exact ih _
    | authorize => exact ih _

/-- Applications that differ only in their passwords. -/
structure Firmware.Alike (fw fw' : Firmware) : Prop where
  settings : SettingsAlike fw.settings fw'.settings
  stored : StoredAlike fw.cells fw'.cells
  settings_generation : fw.settings_generation = fw'.settings_generation
  active_mac : fw.active_mac = fw'.active_mac
  session : fw.session.redacted = fw'.session.redacted
  telemetry : fw.telemetry = fw'.telemetry
  broadcaster : fw.broadcaster = fw'.broadcaster

section Steps

variable {fw fw' : Firmware}

theorem pool_alike (j : Json) (h : fw.Alike fw') {e e' : stratum.Event} (he : e.Alike e') :
    (fw.pool j e).1.Alike (fw'.pool j e').1 ∧ List.Forall₂ Output.Alike (fw.pool j e).2 (fw'.pool j e').2 := by
  have hstep := stratum.step_alike j h.session he
  have hjob : (stratum.step j fw.session e).job.id = (stratum.step j fw'.session e').job.id := by
    change (stratum.step j fw.session e).redacted.job.id = (stratum.step j fw'.session e').redacted.job.id
    rw [hstep.state]
  refine ⟨{ h with session := hstep.state, telemetry := ?_ }, pool_outputs hstep.outputs⟩
  change (stratum.step j fw.session e).outputs.foldl (telemetry_output (stratum.step j fw.session e).job.id) fw.telemetry =
    (stratum.step j fw'.session e').outputs.foldl (telemetry_output (stratum.step j fw'.session e').job.id) fw'.telemetry
  rw [hjob, h.telemetry]
  exact telemetry_alike hstep.outputs _ _

theorem request_alike (j : Json) (h : fw.Alike fw') (line : List Byte) (complete : Bool) :
    (fw.request j line complete).1.Alike (fw'.request j line complete).1 ∧
      List.Forall₂ Output.Alike (fw.request j line complete).2 (fw'.request j line complete).2 := by
  obtain ⟨s, t, reply, d, d', hs, ht, halike, hstored⟩ :=
    config_reply_alike j line complete h.settings fw.active_mac h.stored
  have hmac := h.active_mac
  rw [Firmware.request, Firmware.request, ← hmac, hs, ht, h.telemetry, h.settings_generation]
  dsimp only
  cases reply with
  | none => exact ⟨⟨halike, hstored, rfl, rfl, h.session, rfl, h.broadcaster⟩, .nil⟩
  | some text => exact ⟨⟨halike, hstored, rfl, rfl, h.session, rfl, h.broadcaster⟩, same_outputs _⟩

theorem configured_alike {s t : miner_settings} (h : SettingsAlike s t) : configured s = configured t := by
  rw [configured, configured, h.host, h.worker]

/-- An event keeps applications alike, and only requests for authorization
differ. -/
theorem Firmware.Alike.step (j : Json) (h : fw.Alike fw') (e : Event) :
    (fw.step j e).1.Alike (fw'.step j e).1 ∧ List.Forall₂ Output.Alike (fw.step j e).2 (fw'.step j e).2 := by
  cases e with
  | request line complete => exact request_alike j h line complete
  | unresolved =>
    have hconn : fw.session.connected = fw'.session.connected := by
      change fw.session.redacted.connected = fw'.session.redacted.connected
      rw [h.session]
    rw [Firmware.step, Firmware.step, configured_alike h.settings, hconn, h.telemetry]
    split
    · exact ⟨{ h with telemetry := rfl }, .nil⟩
    · exact ⟨h, .nil⟩
  | connect sent =>
    rw [Firmware.step, Firmware.step, configured_alike h.settings, h.settings.worker]
    split
    · exact pool_alike j h (.connect _ _ _ _)
    · exact ⟨h, .nil⟩
  | line text sent => exact pool_alike j h (.same _)
  | service env => exact pool_alike j h (.same _)
  | timeouts now limit => exact pool_alike j h (.same _)
  | disconnect => exact pool_alike j h (.same _)
  | power samples =>
    rw [Firmware.step, Firmware.step, h.telemetry]
    exact ⟨{ h with telemetry := rfl }, .nil⟩
  | broadcast pass =>
    rw [Firmware.step, Firmware.step, h.active_mac, h.broadcaster, h.telemetry]
    exact ⟨⟨h.settings, h.stored, h.settings_generation, rfl, h.session, rfl, rfl⟩, same_outputs _⟩

theorem outputs_alike (j : Json) (h : fw.Alike fw') (events : List Event) :
    List.Forall₂ Output.Alike (outputs j fw events) (outputs j fw' events) := by
  induction events generalizing fw fw' with
  | nil => exact .nil
  | cons e events ih =>
    obtain ⟨hnext, hout⟩ := h.step j e
    exact List.rel_append hout (ih hnext)

end Steps

/-- Settings that are equal except for their passwords, which are not empty. -/
structure EqualButPasswords (s t : miner_settings) : Prop where
  mac : s.mac = t.mac
  port : s.port = t.port
  host : s.host = t.host
  worker : s.worker = t.worker
  password_set : s.password[0] ≠ 0
  password_set' : t.password[0] ≠ 0

theorem loaded_valid (m : Cells Byte) : settings_valid (loaded m).1 = true := by
  have hrecord {b : Cells Byte} (h : record_valid b = true) : settings_valid (unpack b) = true := by
    simp only [record_valid, Bool.and_eq_true] at h
    exact h.2
  rw [loaded]
  obtain ⟨hc, hv⟩ | ⟨hc, hv⟩ | ⟨hc, _⟩ := choose_slot_cases (slot m SETTINGS_SLOT0) (slot m SETTINGS_SLOT1)
  · rw [hc]
    exact hrecord hv
  · rw [hc]
    exact hrecord hv
  · have hdefaults : settings_valid settings_defaults = true := by decide
    rw [hc]
    exact hdefaults

/-- Settings with a password are not the defaults. -/
theorem loaded_stored {m : Cells Byte} (h : (loaded m).1.password[0] ≠ 0) : (loaded m).2 = 1 := by
  rw [loaded] at h ⊢
  obtain ⟨hc, _⟩ | ⟨hc, _⟩ | ⟨hc, _⟩ := choose_slot_cases (slot m SETTINGS_SLOT0) (slot m SETTINGS_SLOT1)
  · rw [hc]
  · rw [hc]
  · rw [hc] at h
    exact absurd rfl h

theorem boot_alike (hw : Hardware) {m m' : Cells Byte} {r r' : miner_settings × Int} (hm : LoadsAs m r)
    (hm' : LoadsAs m' r') (h : EqualButPasswords r.1 r'.1) : (Firmware.boot hw m).Alike (Firmware.boot hw m') := by
  have hvalid := loaded_valid m
  have hvalid' := loaded_valid m'
  rw [loadsAs_iff] at hm hm'
  have hstored := loaded_stored (m := m) (by rw [hm]; exact h.password_set)
  have hstored' := loaded_stored (m := m') (by rw [hm']; exact h.password_set')
  have halike : SettingsAlike (loaded m).1 (loaded m').1 := by
    rw [hm] at hvalid
    rw [hm'] at hvalid'
    rw [hm, hm']
    exact ⟨h.mac, h.port, h.host, h.worker, iff_of_false h.password_set h.password_set', hvalid, hvalid'⟩
  rw [Firmware.boot, Firmware.boot, settings_load_fault_free, settings_load_fault_free]
  have hnonneg : 0 ≤ (loaded m).2 := by
    rw [hstored]
    exact Int.one_nonneg
  exact ⟨halike, ⟨halike, hstored.trans hstored'.symm, hnonneg⟩, rfl, halike.mac, rfl, rfl, rfl⟩

/-- Two boots from settings that differ only in their passwords, and then the
same events: all telemetry and all replies are the same, and only the request
for authorization at the pool may differ. -/
theorem password_confined (j : Json) (hw : Hardware) (m m' : Cells Byte) (r r' : miner_settings × Int)
    (hm : LoadsAs m r) (hm' : LoadsAs m' r') (h : EqualButPasswords r.1 r'.1) (events : List Event) :
    List.Forall₂ Output.Alike (outputs j (.boot hw m) events) (outputs j (.boot hw m') events) :=
  outputs_alike j (boot_alike hw hm hm' h) events

/-- The defaults with a password. -/
def with_password (password : String) : miner_settings :=
  { settings_defaults with password := store_string settings_defaults.password (ascii password) }

/-- A boot, a connection to the pool, a request and a telemetry pass. -/
def sample_events : List Event :=
  [.connect true, .request sample_request true, .broadcast ⟨some (⟨1, 4028⟩, ascii "SCU35_DISCOVER/1"), 7, 0, 0, true, true⟩]

def sample_hardware : Hardware := ⟨3, 0x01020000, 0x01000000, true, 0, 0⟩

theorem two_passwords_confined :
    EqualButPasswords (with_password "x") (with_password "yz") ∧
      LoadsAs (saved (fun _ => 0xff) (with_password "x")) (with_password "x", 1) ∧
      LoadsAs (saved (fun _ => 0xff) (with_password "yz")) (with_password "yz", 1) ∧
      List.Forall₂ Output.Alike
        (outputs sample_json (.boot sample_hardware (saved (fun _ => 0xff) (with_password "x"))) sample_events)
        (outputs sample_json (.boot sample_hardware (saved (fun _ => 0xff) (with_password "yz"))) sample_events) := by
  have hequal : EqualButPasswords (with_password "x") (with_password "yz") :=
    ⟨rfl, rfl, rfl, rfl, by decide, by decide⟩
  have hx : LoadsAs (saved (fun _ => 0xff) (with_password "x")) (with_password "x", 1) :=
    (loadsAs_iff _ _).mpr (loaded_sealed _ (by decide))
  have hy : LoadsAs (saved (fun _ => 0xff) (with_password "yz")) (with_password "yz", 1) :=
    (loadsAs_iff _ _).mpr (loaded_sealed _ (by decide))
  exact ⟨hequal, hx, hy, password_confined sample_json sample_hardware _ _ _ _ hx hy hequal sample_events⟩

end scu35.firmware
