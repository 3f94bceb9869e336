import Scu35Miner.Software.Bitcoin
import Scu35Miner.Software.Json
import Scu35Miner.Software.Settings

open fips180

namespace scu35.miner_protocol

open bitcoin json_helpers settings

/-- Six pairs of hexadecimal digits, the first five followed by a colon. -/
def parse_octets : Nat → List Byte → Option (List Byte)
  | 0, _ => some []
  | n + 1, s =>
    match hex_digit (s.getD 0 0), hex_digit (s.getD 1 0) with
    | some a, some b =>
      if n ≠ 0 && s.getD 2 0 != 0x3a then none
      else
        match parse_octets n (s.drop 3) with
        | some rest => some ((a * 16 + b) :: rest)
        | none => none
    | _, _ => none

def parse_mac (s : List Byte) : Option (Vector Byte 6) :=
  if s.length != 17 then none
  else
    match parse_octets 6 s with
    | some [a, b, c, d, e, f] => some #v[a, b, c, d, e, f]
    | _ => none

/-- A string stored into an array, with its terminator; the bytes after that
stay. -/
def store_string {n : Nat} (array : Vector Byte n) (s : List Byte) : Vector Byte n :=
  Vector.ofFn fun i => if i < s.length then s.getD i 0 else if i.val = s.length then 0 else array.get i

/-- The string in an array. -/
def c_string {n : Nat} (array : Vector Byte n) : List Byte := array.toList.takeWhile (· != 0)

inductive ConfigError where
  | invalid_json_request
  | unsupported_command
  | invalid_fields
  | invalid_password
  | invalid_settings
  | eeprom_write_failed
  | eeprom_read_failed
  | incomplete_request
deriving DecidableEq, Repr

def ConfigError.text : ConfigError → List Byte
  | .invalid_json_request => ascii "invalid JSON request"
  | .unsupported_command => ascii "unsupported command"
  | .invalid_fields => ascii "invalid fields"
  | .invalid_password => ascii "invalid password"
  | .invalid_settings => ascii "invalid settings"
  | .eeprom_write_failed => ascii "EEPROM write or verification failed"
  | .eeprom_read_failed => ascii "EEPROM read failed"
  | .incomplete_request => ascii "incomplete or oversized request"

/-- The password of a request: the current one if the field is missing. -/
def parse_password (j : Json) (line : List Byte) (current : Vector Byte 64) : Option (Vector Byte 64) :=
  match j.search line "password" with
  | .not_found => some current
  | .success _ _ => (json_string j line "password" 64).map (store_string current)
  | .failure => none

def miner_config_parse (j : Json) (line : List Byte) (current : miner_settings) :
    Except ConfigError miner_settings :=
  if !j.validate line then .error .invalid_json_request
  else
    match json_string j line "command" 24 with
    | none => .error .invalid_json_request
    | some command =>
      if command ≠ ascii "configure" then .error .unsupported_command
      else
        match (json_string j line "mac" 18).bind parse_mac, json_string j line "host" 96,
          json_string j line "worker" 128, json_u32 j line "port" with
        | some mac, some host, some worker, some port =>
          if port > 65535 then .error .invalid_fields
          else
            match parse_password j line current.password with
            | none => .error .invalid_password
            | some password =>
              let next : miner_settings :=
                { mac, port := port.setWidth 16, host := store_string current.host host
                  worker := store_string current.worker worker, password }
              if settings_valid next then .ok next else .error .invalid_settings
        | _, _, _, _ => .error .invalid_fields

def decimal (n : Nat) : List Byte := ascii (toString n)

/-- `%02x:%02x:%02x:%02x:%02x:%02x`. -/
def mac_text (mac : Vector Byte 6) : List Byte :=
  hex_encode [mac.get 0] ++ ascii ":" ++ hex_encode [mac.get 1] ++ ascii ":" ++ hex_encode [mac.get 2] ++ ascii ":" ++
    hex_encode [mac.get 3] ++ ascii ":" ++ hex_encode [mac.get 4] ++ ascii ":" ++ hex_encode [mac.get 5]

def bool_text (b : Bool) : List Byte := if b then ascii "true" else ascii "false"

/-- The reply to `get_settings`; `none` stands for its `-1`. -/
def miner_config_json (s : miner_settings) (stored : Bool) (active : Vector Byte 6) : Option (List Byte) :=
  if !settings_valid s then none
  else
    some (ascii "\x7b\"ok\":true,\"stored\":" ++ bool_text stored ++ ascii ",\"mac\":\"" ++ mac_text s.mac ++
      ascii "\",\"active_mac\":\"" ++ mac_text active ++ ascii "\",\"host\":\"" ++ c_string s.host ++
      ascii "\",\"port\":" ++ decimal s.port.toNat ++ ascii ",\"worker\":\"" ++ c_string s.worker ++
      ascii "\",\"password_set\":" ++ bool_text (s.password.get 0 != 0) ++ ascii "\x7d\n")

/-- What a request must contain to be accepted. -/
structure Accepted (j : Json) (line : List Byte) (current : miner_settings) (mac : Vector Byte 6)
    (host worker : List Byte) (port : Word) (password : Vector Byte 64) : Prop where
  valid : j.validate line = true
  command : json_string j line "command" 24 = some (ascii "configure")
  mac_eq : (json_string j line "mac" 18).bind parse_mac = some mac
  host_eq : json_string j line "host" 96 = some host
  worker_eq : json_string j line "worker" 128 = some worker
  port_eq : json_u32 j line "port" = some port
  port_range : port ≤ 65535
  password_eq : parse_password j line current.password = some password

/-- The settings of an accepted request. -/
def merged (current : miner_settings) (mac : Vector Byte 6) (host worker : List Byte) (port : Word)
    (password : Vector Byte 64) : miner_settings where
  mac := mac
  port := port.setWidth 16
  host := store_string current.host host
  worker := store_string current.worker worker
  password := password

theorem miner_config_parse_ok {j : Json} {line : List Byte} {current next : miner_settings}
    (h : miner_config_parse j line current = .ok next) :
    ∃ mac host worker port password, Accepted j line current mac host worker port password ∧
      settings_valid next = true ∧ next = merged current mac host worker port password := by
  unfold miner_config_parse at h
  split at h
  · cases h
  next hjson =>
    split at h
    · cases h
    next command hcommand =>
      split at h
      · cases h
      next hconfigure =>
        split at h
        next mac host worker port hmac hhost hworker hport =>
          split at h
          · cases h
          next hrange =>
            split at h
            · cases h
            next password hpassword =>
              dsimp only at h
              split at h
              next hvalid =>
                cases h
                refine ⟨mac, host, worker, port, password, ?_, hvalid, rfl⟩
                refine ⟨by simpa using hjson, ?_, hmac, hhost, hworker, hport, by simpa using hrange, hpassword⟩
                rw [hcommand, not_not.mp hconfigure]
              · cases h
        · cases h

/-- A request with these fields is accepted if the settings are valid. -/
theorem Accepted.parses {j : Json} {line : List Byte} {current : miner_settings} {mac : Vector Byte 6}
    {host worker : List Byte} {port : Word} {password : Vector Byte 64}
    (h : Accepted j line current mac host worker port password)
    (hvalid : settings_valid (merged current mac host worker port password) = true) :
    miner_config_parse j line current = .ok (merged current mac host worker port password) := by
  have hrange : ¬port > 65535 := by simpa using h.port_range
  rw [miner_config_parse, h.valid, if_neg (by decide), h.command]
  dsimp only
  rw [if_neg (by decide), h.mac_eq, h.host_eq, h.worker_eq, h.port_eq]
  dsimp only
  rw [if_neg hrange, h.password_eq]
  dsimp only
  exact if_pos hvalid

/-- A stored string, its terminator, and what was there after them. -/
theorem store_string_toList {n : Nat} (array : Vector Byte n) {s : List Byte} (h : s.length < n) :
    (store_string array s).toList = s ++ 0 :: array.toList.drop (s.length + 1) := by
  refine List.ext_getElem (by simp; omega) fun i hi _ => ?_
  have hin : i < n := by simpa using hi
  simp only [Vector.getElem_toList, store_string, Vector.getElem_ofFn]
  obtain hlt | rfl | hgt := Nat.lt_trichotomy i s.length
  · rw [if_pos hlt, List.getElem_append_left hlt, List.getD_eq_getElem?_getD, List.getElem?_eq_getElem hlt,
      Option.getD_some]
  · rw [if_neg (Nat.lt_irrefl _), if_pos rfl, List.getElem_append_right (Nat.le_refl _)]
    simp
  · obtain ⟨k, rfl⟩ : ∃ k, i = s.length + 1 + k := ⟨i - s.length - 1, by omega⟩
    have hsub : s.length + 1 + k - s.length = k + 1 := by omega
    rw [if_neg (by omega), if_neg (by omega), List.getElem_append_right (by omega)]
    simp only [hsub, List.getElem_cons_succ, List.getElem_drop, Vector.getElem_toList]
    rfl

theorem c_string_store {n : Nat} (array : Vector Byte n) {s : List Byte} (h : s.length < n) (hzero : ∀ c ∈ s, c ≠ 0) :
    c_string (store_string array s) = s := by
  rw [c_string, store_string_toList array h, List.takeWhile_append_of_pos fun c hc => bne_iff_ne.mpr (hzero c hc)]
  simp

/-- What follows the terminator of a string does not matter. -/
theorem string_ok_terminated (s after after' : List Byte) :
    string_ok (s ++ 0 :: after) = string_ok (s ++ 0 :: after') := by
  induction s with
  | nil => rfl
  | cons c s ih => rw [List.cons_append, List.cons_append, string_ok, string_ok, ih]

theorem json_string_fits {j : Json} {b : List Byte} {q : String} {cap : Nat} {v : List Byte}
    (h : json_string j b q cap = some v) : v.length < cap ∧ ∀ c ∈ v, string_char c = true := by
  unfold json_string at h
  split at h
  · split at h
    · cases h
    next hfits =>
      cases h
      simp only [ge_iff_le, Bool.or_eq_true, decide_eq_true_eq, Bool.not_eq_true', not_or, Nat.not_le,
        Bool.not_eq_false, List.all_eq_true] at hfits
      exact hfits
  · cases h

end scu35.miner_protocol
