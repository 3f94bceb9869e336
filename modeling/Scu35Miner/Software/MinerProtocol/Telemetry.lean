import Scu35Miner.Software.Ina700
import Scu35Miner.Software.MinerProtocol
import Scu35Miner.Software.Stratum

open fips180

namespace scu35.miner_protocol

open bitcoin json_helpers settings stratum ina700

def MINER_TELEMETRY_MAX : Nat := 3072

structure miner_stats where
  job_id : List Byte
  jobs : Word
  submitted : Word
  accepted : Word
  rejected : Word
  invalid : Word
  dropped : Word
  hashrate_hps : Word
  sample_ms : Word
  engines : Word
  hw_version : Word
  bootloader_version : Word
  hashes_total : BitVec 64
  connected : Bool
  authorized : Bool
  mining : Bool
  hashrate_valid : Bool
  power : ina700_sample × ina700_sample
deriving DecidableEq, Repr

/-- The characters of an event's name. -/
def event_name : EventName → String
  | .mining_job_received => "mining_job_received"
  | .difficulty_changed => "difficulty_changed"
  | .authorization_failed => "authorization_failed"
  | .pool_authorized => "pool_authorized"
  | .pool_connected => "pool_connected"
  | .pool_disconnected => "pool_disconnected"
  | .result_fifo_overflow => "result_fifo_overflow"
  | .hardware_solution_invalid => "hardware_solution_invalid"
  | .share_queue_full => "share_queue_full"
  | .solution_submitted => "solution_submitted"
  | .solution_accepted => "solution_accepted"
  | .solution_rejected => "solution_rejected"
  | .share_reply_timeout => "share_reply_timeout"
  | .pool_dns_failed => "pool_dns_failed"
  | .settings_saved => "settings_saved"
  | .status => "status"

def miner_hashrate (previous current ticks tick_hz : Word) : Word :=
  if ticks ≠ 0 then BitVec.ofNat 32 ((current - previous).toNat * tick_hz.toNat / ticks.toNat) else 0

/-- `%d` and `%ld`. -/
def signed_decimal (z : Int) : List Byte := if z < 0 then ascii "-" ++ decimal (-z).toNat else decimal z.toNat

def quoted (s : List Byte) : List Byte := ascii "\"" ++ s ++ ascii "\""

/-- The members of an object, each a name and the text of its value. -/
def members : List (String × List Byte) → List Byte
  | [] => []
  | [(name, value)] => quoted (ascii name) ++ ascii ":" ++ value
  | (name, value) :: rest => quoted (ascii name) ++ ascii ":" ++ value ++ ascii "," ++ members rest

def object (fields : List (String × List Byte)) : List Byte := ascii "\x7b" ++ members fields ++ ascii "\x7d"

def null_text : List Byte := ascii "null"

/-- `version_json` into an array of 24 characters. -/
def version_json (version : Word) : List Byte :=
  (if version = 0 then null_text
  else quoted (decimal (version >>> 24).toNat ++ ascii "." ++ decimal ((version >>> 16) &&& 255).toNat ++ ascii "." ++
    decimal (version &&& 65535).toNat)).take 23

def details_json (e : miner_event) : List Byte :=
  object [("job_number", decimal e.job_number.toNat), ("job_id", quoted e.job_id),
    ("submission", if e.submission ≠ [] then e.submission else null_text), ("hash", quoted e.hash)]

/-- The text of `miner_event_json`, before it is cut to the capacity. -/
def miner_event_json (e : miner_event) (seq event_seq uptime : Word) (centi : Int) (mac : Vector Byte 6) : List Byte :=
  object [("protocol", quoted (ascii "SCU35/1")), ("partial", ascii "true"), ("seq", decimal seq.toNat),
    ("event_seq", decimal event_seq.toNat), ("event", quoted (ascii (event_name e.name))), ("mac", quoted (mac_text mac)),
    ("uptime_ms", decimal uptime.toNat), ("temp_centi", signed_decimal centi), ("details", details_json e)]

/-- `power_json` into an array of 256 characters. -/
def power_json (s : ina700_sample) (now : Word) : List Byte :=
  let age := now - s.sampled_ms
  (if !s.valid || age > 3000 then
    object [("valid", ascii "false"), ("voltage_uv", null_text), ("current_ua", null_text), ("power_uw", null_text),
      ("temp_milli_c", null_text), ("age_ms", null_text), ("errors", decimal s.errors.toNat)]
  else
    object [("valid", ascii "true"), ("voltage_uv", decimal s.voltage_uv.toNat),
      ("current_ua", signed_decimal s.current_ua), ("power_uw", decimal s.power_uw.toNat),
      ("temp_milli_c", signed_decimal s.temp_milli_c), ("age_ms", decimal age.toNat),
      ("errors", decimal s.errors.toNat)]).take 255

def APPLICATION_VERSION : List Byte := ascii "1.1.0"

/-- The text of `miner_telemetry_json`, before it is cut to the capacity. -/
def miner_telemetry_json (s : miner_stats) (e : miner_event) (seq event_seq uptime : Word) (centi : Int)
    (mac : Vector Byte 6) (network phy : Bool) : List Byte :=
  object [("protocol", quoted (ascii "SCU35/1")), ("seq", decimal seq.toNat), ("event_seq", decimal event_seq.toNat),
    ("event", quoted (ascii (event_name e.name))), ("mac", quoted (mac_text mac)), ("uptime_ms", decimal uptime.toNat),
    ("temp_centi", signed_decimal centi), ("cpu_mhz", ascii "50"), ("engines", decimal s.engines.toNat),
    ("hw_version", version_json s.hw_version), ("bootloader_version", version_json s.bootloader_version),
    ("application_version", quoted APPLICATION_VERSION), ("network_up", bool_text network),
    ("phy_known", bool_text phy), ("reboot_supported", ascii "false"), ("config_port", ascii "4029"),
    ("pool_connected", bool_text s.connected), ("pool_authorized", bool_text s.authorized),
    ("mining", bool_text s.mining), ("job_number", decimal s.jobs.toNat), ("job_id", quoted s.job_id),
    ("shares_submitted", decimal s.submitted.toNat), ("shares_accepted", decimal s.accepted.toNat),
    ("shares_rejected", decimal s.rejected.toNat), ("hardware_errors", decimal s.invalid.toNat),
    ("events_dropped", decimal s.dropped.toNat),
    ("hashrate_hps", if s.hashrate_valid then (decimal s.hashrate_hps.toNat).take 23 else null_text),
    ("hashrate_source", quoted (ascii "hardware_counter")), ("hashrate_sample_ms", decimal s.sample_ms.toNat),
    ("hashes_total", decimal s.hashes_total.toNat),
    ("power", object [("source", quoted (ascii "INA700")), ("internal_5v", power_json s.power.1 uptime),
      ("vccint", power_json s.power.2 uptime)]),
    ("details", details_json e)]

example : miner_event_json ⟨.status, ascii "7f", [], [], 2⟩ 1 0 300 (-5) #v[2, 0, 0, 0x11, 0x22, 0x33] =
    ascii "\x7b\"protocol\":\"SCU35/1\",\"partial\":true,\"seq\":1,\"event_seq\":0,\"event\":\"status\"," ++
    ascii "\"mac\":\"02:00:00:11:22:33\",\"uptime_ms\":300,\"temp_centi\":-5," ++
    ascii "\"details\":\x7b\"job_number\":2,\"job_id\":\"7f\",\"submission\":null,\"hash\":\"\"\x7d\x7d" := by
  decide +kernel

end scu35.miner_protocol
