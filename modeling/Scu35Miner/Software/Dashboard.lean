import Scu35Miner.Software.MinerProtocol

open fips180 storage

namespace scu35.dashboard

open json_helpers settings miner_protocol

/-- The settings in use after a request, and its error. -/
def configure (j : Json) (line : List Byte) (current : miner_settings) (d : Device Byte) :
    Outcome Byte (miner_settings × Option ConfigError) :=
  match miner_config_parse j line current with
  | .error e => .value (current, some e) d
  | .ok next =>
    (settings_save next d).bind fun rc d =>
    if rc = 0 then .value (next, none) d else .value (current, some .eeprom_write_failed) d

def saved_reply : List Byte :=
  ascii "\x7b\"ok\":true,\"message\":\"Saved; pool reconnects, MAC applies after reboot\"\x7d\n"

def error_reply (e : ConfigError) : List Byte :=
  ascii "\x7b\"ok\":false,\"error\":\"" ++ e.text ++ ascii "\"\x7d\n"

/-- The settings in use after a request and the reply to it; no reply stands
for a result of `miner_config_json` that closes the connection. -/
def config_reply (j : Json) (line : List Byte) (complete : Bool) (current : miner_settings)
    (active_mac : Vector Byte 6) (d : Device Byte) : Outcome Byte (miner_settings × Option (List Byte)) :=
  if !complete then .value (current, some (error_reply .incomplete_request)) d
  else if !j.validate line then .value (current, some (error_reply .invalid_json_request)) d
  else
    match json_string j line "command" 24 with
    | none => .value (current, some (error_reply .invalid_json_request)) d
    | some command =>
      if command = ascii "get_settings" then
        (settings_load d).bind fun r d =>
        if r.2 < 0 then .value (current, some (error_reply .eeprom_read_failed)) d
        else .value (current, miner_config_json r.1 (r.2 != 0) active_mac) d
      else
        (configure j line current d).bind fun r d =>
        match r.2 with
        | none => .value (r.1, some saved_reply) d
        | some e => .value (r.1, some (error_reply e)) d

/-- The settings in use, unless the power is off, and the EEPROM. -/
structure Miner where
  settings : Option miner_settings
  cells : Cells Byte

inductive Event where
  | boot (plan : List (Option Fault))
  | request (line : List Byte) (complete : Bool) (active_mac : Vector Byte 6) (plan : List (Option Fault))

/-- A boot loads the settings, a request may change them, and loss of power
leaves the EEPROM as it is then. -/
def Miner.step (j : Json) (st : Miner) : Event → Miner
  | .boot plan =>
    match settings_load ⟨st.cells, plan⟩ with
    | .value r d => ⟨some r.1, d.cells⟩
    | .lost cells => ⟨none, cells⟩
  | .request line complete active_mac plan =>
    match st.settings with
    | none => st
    | some current =>
      match config_reply j line complete current active_mac ⟨st.cells, plan⟩ with
      | .value r d => ⟨some r.1, d.cells⟩
      | .lost cells => ⟨none, cells⟩

end scu35.dashboard
