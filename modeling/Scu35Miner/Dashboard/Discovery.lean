import Scu35Miner.Rfc8259.Reader
import Scu35Miner.Software.Json

open fips180 rfc8259

namespace scu35.miner_dashboard

open json_helpers

/-- `item.get(name)`; a missing key and `null` both give `None`. -/
def field (item : Value) (name : String) : Value := (item.get (ascii name)).getD .null

/-- `isinstance(v, dict)`. -/
def is_dict : Value → Bool
  | .object _ => true
  | _ => false

/-- `v == s` for a text `s`. -/
def equals_text (v : Value) (s : String) : Bool :=
  match v with
  | .string t => t == ascii s
  | _ => false

/-- `isinstance(v, str) and p(len(v))`. -/
def text_length (v : Value) (p : Nat → Bool) : Bool :=
  match v with
  | .string t => p t.length
  | _ => false

/-- `type(v) is int`. -/
def is_int : Value → Bool
  | .int _ => true
  | _ => false

/-- `v is None or type(v) is int and v >= 0`. -/
def absent_or_count : Value → Bool
  | .null => true
  | .int z => 0 ≤ z
  | _ => false

/-- A measurement: an integer in range if the rail is valid, else `None`. -/
def measured (valid : Bool) (low high : Int) : Value → Bool
  | .int z => valid && low ≤ z && z ≤ high
  | .null => !valid
  | _ => false

def measurements : List (String × Int × Int) :=
  [("voltage_uv", 0, 204796875), ("current_ua", -15728640, 15728160), ("power_uw", 0, 1610612640),
    ("temp_milli_c", -256000, 255875), ("age_ms", 0, 3000)]

/-- The checks of `validate_power` on one rail. -/
def rail_ok (rail : Value) : Bool :=
  match field rail "valid", field rail "errors" with
  | .bool valid, .int errors =>
    0 ≤ errors && errors ≤ 0xffffffff && measurements.all fun m => measured valid m.2.1 m.2.2 (field rail m.1)
  | _, _ => false

/-- `validate_power` does not raise. -/
def validate_power (item : Value) : Bool :=
  match field item "power" with
  | .null => true
  | power =>
    is_dict power && equals_text (field power "source") "INA700" && is_dict (field power "internal_5v") &&
      rail_ok (field power "internal_5v") && is_dict (field power "vccint") && rail_ok (field power "vccint")

/-- A submission is missing, or a call of `mining.submit` with five arguments. -/
def submission_ok (submission : Value) : Bool :=
  match submission with
  | .null => true
  | submission =>
    is_dict submission && equals_text (field submission "method") "mining.submit" &&
      match field submission "params" with
      | .array params => params.length = 5
      | _ => false

/-- `isinstance(d.get(name, ""), str)`. -/
def text_or_missing (d : Value) (name : String) : Bool :=
  match d.get (ascii name) with
  | none => true
  | some v => text_length v fun _ => true

def details_ok (detail : Value) : Bool :=
  match detail with
  | .null => true
  | detail =>
    is_dict detail && text_or_missing detail "job_id" && text_or_missing detail "hash" &&
      submission_ok (field detail "submission")

def counters : List String :=
  ["job_number", "shares_submitted", "shares_accepted", "shares_rejected", "hardware_errors", "events_dropped",
    "hashes_total", "hashrate_sample_ms", "hashrate_hps"]

/-- The filters of `Discovery.run` on a value. -/
def item_ok (item : Value) : Bool :=
  is_dict item && equals_text (field item "protocol") "SCU35/1" && text_length (field item "mac") (· = 17) &&
    ["seq", "event_seq", "uptime_ms", "temp_centi"].all (fun key => is_int (field item key)) &&
    text_length (field item "event") (· ≤ 63) && counters.all (fun key => absent_or_count (field item key)) &&
    (match item.get (ascii "job_id") with
      | none => true
      | some v => text_length v (· ≤ 127)) &&
    details_ok (field item "details") && validate_power item

/-- A datagram from the port of the miner is put into the message queue. -/
def accepts (data : List Byte) : Bool :=
  data.length ≤ 2048 &&
    match loads data with
    | none => false
    | some item => item_ok item

end scu35.miner_dashboard
