import Scu35Miner.Software.MinerProtocol
import Scu35Miner.Software.Settings.Save

open fips180 storage

namespace scu35.miner_protocol

open json_helpers settings

/-- Two records are the same but for their sequence numbers and checksums. -/
def SameRecord (a b : Cells Byte) : Prop := ∀ i < 512, ¬(8 ≤ i ∧ i < 12) → ¬(504 ≤ i ∧ i < 508) → a i = b i

theorem record_same (s : miner_settings) (seq seq' : Word) : SameRecord (record s seq) (record s seq') := by
  intro i _ hseq hcrc
  have hsum (n : Word) : record s n i = record_body s n i := by
    rw [record, put32, copy_outside _ _ (by omega)]
  rw [hsum, hsum]
  simp only [record_body, put32]
  unfold copy
  have hinner : ¬(8 ≤ i ∧ i < 8 + 4) := by omega
  simp only [if_neg hinner]

/-- Records with the same bytes are those of the same settings. -/
theorem record_same_iff (s s' : miner_settings) :
    (∀ seq seq', SameRecord (record s seq) (record s' seq')) ↔ s = s' := by
  constructor
  · intro h
    have hunpack : unpack (committed (record s 0)) = unpack (committed (record s' 0)) := by
      apply unpack_congr_fields
      intro i hlow hhigh
      rw [committed, committed, copy_outside _ _ (by omega), copy_outside _ _ (by omega)]
      exact h 0 0 i (by omega) (by omega) (by omega)
    rwa [unpack_record, unpack_record] at hunpack
  · rintro rfl seq seq'
    exact record_same s seq seq'

/-- The bytes behind the terminator of a new string are the same in two
arrays. -/
def SameTail {n : Nat} (a b : Vector Byte n) (s : List Byte) : Prop :=
  a.toList.drop (s.length + 1) = b.toList.drop (s.length + 1)

theorem store_string_eq_iff {n : Nat} (a b : Vector Byte n) {s : List Byte} (hs : s.length < n) :
    store_string a s = store_string b s ↔ SameTail a b s := by
  rw [← Vector.toList_inj, store_string_toList a hs, store_string_toList b hs, List.append_cancel_left_eq,
    List.cons.injEq]
  exact and_iff_right rfl

/-- The strings of a request leave the same bytes of two settings in place. -/
structure SameTails (j : Json) (line : List Byte) (current current' : miner_settings) : Prop where
  host : SameTail current.host current'.host (j.slice line "host")
  worker : SameTail current.worker current'.worker (j.slice line "worker")
  password : SameTail current.password current'.password (j.slice line "password")

/-- An explicit password is the string of the request. -/
theorem parse_password_explicit {j : Json} {line : List Byte} {current password : Vector Byte 64}
    (hexplicit : j.search line "password" ≠ .not_found) (h : parse_password j line current = some password) :
    (j.slice line "password").length < 64 ∧ password = store_string current (j.slice line "password") := by
  unfold parse_password at h
  split at h
  next hnone => exact absurd hnone hexplicit
  next =>
    obtain ⟨s, hs, rfl⟩ := Option.map_eq_some_iff.mp h
    rw [json_string_eq hs]
    exact ⟨(json_string_fits hs).1, rfl⟩
  next => cases h

/-- The records after a request with an explicit password are the same exactly
if the two settings have the same bytes behind the terminators of the new
strings. -/
theorem records_same_iff_tails {j : Json} {line : List Byte} {current current' next next' : miner_settings}
    (hexplicit : j.search line "password" ≠ .not_found) (h : miner_config_parse j line current = .ok next)
    (h' : miner_config_parse j line current' = .ok next') :
    (∀ seq seq', SameRecord (record next seq) (record next' seq')) ↔ SameTails j line current current' := by
  obtain ⟨mac, host, worker, port, password, haccepted, _, rfl⟩ := miner_config_parse_ok h
  obtain ⟨mac', host', worker', port', password', haccepted', _, rfl⟩ := miner_config_parse_ok h'
  obtain ⟨hfits, rfl⟩ := parse_password_explicit hexplicit haccepted.password_eq
  obtain ⟨_, rfl⟩ := parse_password_explicit hexplicit haccepted'.password_eq
  obtain rfl : mac = mac' := Option.some.inj (haccepted.mac_eq.symm.trans haccepted'.mac_eq)
  obtain rfl : port = port' := Option.some.inj (haccepted.port_eq.symm.trans haccepted'.port_eq)
  obtain rfl := json_string_eq haccepted.host_eq
  obtain rfl := json_string_eq haccepted'.host_eq
  obtain rfl := json_string_eq haccepted.worker_eq
  obtain rfl := json_string_eq haccepted'.worker_eq
  rw [record_same_iff]
  simp only [merged, miner_settings.mk.injEq, true_and,
    store_string_eq_iff _ _ (json_string_fits haccepted.host_eq).1,
    store_string_eq_iff _ _ (json_string_fits haccepted.worker_eq).1, store_string_eq_iff _ _ hfits]
  exact ⟨fun ⟨hhost, hworker, hpassword⟩ => ⟨hhost, hworker, hpassword⟩,
    fun ⟨hhost, hworker, hpassword⟩ => ⟨hhost, hworker, hpassword⟩⟩

/-- A request that clears the password. -/
def clearing_request : List Byte :=
  ascii "\x7b\"command\":\"configure\",\"mac\":\"02:00:00:11:22:33\",\"host\":\"a.b\",\"port\":3333," ++
    ascii "\"worker\":\"w\",\"password\":\"\"\x7d"

/-- The JSON library on that request. -/
def clearing_json : Json where
  validate line := line = clearing_request
  search line q :=
    if line = clearing_request then
      match q with
      | "command" => .success (ascii "configure") .JSONString
      | "mac" => .success (ascii "02:00:00:11:22:33") .JSONString
      | "host" => .success (ascii "a.b") .JSONString
      | "port" => .success (ascii "3333") .JSONNumber
      | "worker" => .success (ascii "w") .JSONString
      | "password" => .success [] .JSONString
      | _ => .not_found
    else .not_found

/-- The defaults with another password. -/
def old_settings (password : String) : miner_settings :=
  { settings_defaults with password := store_string settings_defaults.password (ascii password) }

/-- The settings that the request leaves. -/
def cleared (current : miner_settings) : miner_settings :=
  merged current settings_defaults.mac (ascii "a.b") (ascii "w") 3333 (store_string current.password [])

theorem clearing_parses (current : miner_settings) (hvalid : settings_valid (cleared current) = true) :
    miner_config_parse clearing_json clearing_request current = .ok (cleared current) := by
  refine Accepted.parses ⟨?_, ?_, ?_, ?_, ?_, ?_, ?_, ?_⟩ hvalid
  all_goals first | decide | rfl

/-- A password of one character is overwritten by the terminator. -/
theorem one_character_cleared :
    SameRecord (record (cleared settings_defaults) 1) (record (cleared (old_settings "x")) 2) := by
  have hparse := clearing_parses settings_defaults (by decide)
  have hparse' := clearing_parses (old_settings "x") (by decide)
  refine (records_same_iff_tails (by decide) hparse hparse').mpr ⟨rfl, rfl, ?_⟩ 1 2
  unfold SameTail
  decide

/-- A cleared password leaves its second character in the record. -/
theorem cleared_password_remains :
    ¬∀ (j : Json) (line : List Byte) (current current' next next' : miner_settings),
      settings_valid current = true → settings_valid current' = true → j.search line "password" ≠ .not_found →
      miner_config_parse j line current = .ok next → miner_config_parse j line current' = .ok next' →
      ∀ seq seq', SameRecord (record next seq) (record next' seq') := by
  intro h
  have hparse := clearing_parses settings_defaults (by decide)
  have hparse' := clearing_parses (old_settings "pw") (by decide)
  have hsame := h clearing_json clearing_request settings_defaults (old_settings "pw") _ _ (by decide)
    (by decide) (by decide) hparse hparse'
  have heq := (record_same_iff _ _).mp hsame
  have hpassword := congrArg (fun s : miner_settings => s.password[1]) heq
  revert hpassword
  decide

end scu35.miner_protocol
