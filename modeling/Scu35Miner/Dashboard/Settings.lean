import Scu35Miner.Dashboard.Python

open fips180 rfc8259

namespace scu35.miner_dashboard

open bitcoin json_helpers miner_protocol python

/-- The messages of the errors below. Two of them are the library's own, and one
is the miner's. -/
inductive SettingsError where
  | mac_form
  | mac_digits
  | mac_unicast
  | port_literal
  | port_range
  | characters (name : String) (maximum : Nat)
  | host_name
  | oversized_reply
  | not_json
  | invalid_reply
  | refused (error : Option Object)
  | password_returned
  | invalid_response

def SettingsError.text : SettingsError → Option String
  | .mac_form => some "MAC must contain six colon-separated hex bytes"
  | .mac_digits => some "Invalid MAC address"
  | .mac_unicast => some "MAC must be nonzero and unicast"
  | .port_range => some "Port must be 1..65535"
  | .characters name maximum =>
    some (name ++ ": maximum " ++ toString maximum ++ " printable ASCII characters; no quotes or backslashes")
  | .host_name => some "Host must be a hostname or IPv4 address, without a URL prefix"
  | .oversized_reply => some "Oversized miner reply"
  | .invalid_reply => some "Invalid miner reply"
  | .refused none => some "Settings read failed"
  | .password_returned => some "Miner unexpectedly returned a password"
  | .invalid_response => some "Invalid settings response"
  | _ => none

abbrev Result : Type → Type := Except (Raised SettingsError)

/-- `values[name]`. -/
def subscript (values : String → Option Object) (name : String) : Result Object :=
  match values name with
  | some o => .ok o
  | none => .error (.key_error name)

/-- `bytes(int(x, 16) for x in mac)`. -/
def mac_octets (py : Runtime) : List (List Nat) → Result (List Byte)
  | [] => .ok []
  | x :: mac =>
    match int_text py x 16 with
    | none => .error (.value_error .mac_digits)
    | some z =>
      if z < 0 ∨ 255 < z then .error (.value_error .mac_digits)
      else
        match mac_octets py mac with
        | .ok octets => .ok (BitVec.ofInt 8 z :: octets)
        | .error e => .error e

/-- A character that a setting must not have. -/
def bad_char (c : Nat) : Bool := c < 32 || c > 126 || c == 0x5c || c == 0x22

/-- `any(p(ord(c)) for c in os)`. -/
def any_char (p : Nat → Bool) : List Object → Result Bool
  | [] => .ok false
  | o :: os =>
    match ord o with
    | .error e => .error e
    | .ok c => if p c then .ok true else any_char p os

/-- The check of a string of at most `maximum` characters; a missing one passes
as the empty string. -/
def check_text (values : String → Option Object) (name : String) (maximum : Nat) : Result Unit := do
  let os ← iterate ((values name).getD (.str []))
  require (os.length ≤ maximum) (.characters name maximum)
  let bad ← any_char bad_char os
  require (!bad) (.characters name maximum)

/-- `c.isascii() and (c.isalnum() or c in ".-")`. -/
def host_code (c : Nat) : Bool :=
  (0x30 ≤ c && c ≤ 0x39) || (0x41 ≤ c && c ≤ 0x5a) || (0x61 ≤ c && c ≤ 0x7a) || c == 0x2e || c == 0x2d

/-- `octets.hex(":")`. -/
def hex_colons (octets : List Byte) : List Nat :=
  [0x3a].intercalate (octets.map fun b => decode (hex_encode [b]))

/-- The dictionary that `validate_settings` returns. -/
def configure_request (octets : List Byte) (port : Int) (host worker : Object) (password : Option Object) :
    List (String × Object) :=
  [("command", .str (text "configure")), ("mac", .str (hex_colons octets)), ("port", .int port), ("host", host),
    ("worker", worker)] ++ (password.map fun o => ("password", o)).toList

/-- The values of a dictionary. -/
def items (d : List (String × Object)) (name : String) : Option Object := List.lookup name d

def validate_settings (py : Runtime) (values : String → Option Object) : Result (List (String × Object)) := do
  let mac ← subscript values "mac"
  let pieces ← split 0x3a mac
  require (pieces.length == 6 && pieces.all (·.length == 2)) .mac_form
  let octets ← mac_octets py pieces
  require (octets.any (· != 0) && octets.headD 0 &&& 1 == 0) .mac_unicast
  let port ← subscript values "port"
  let port ← int_of py .port_literal port
  require (1 ≤ port && port ≤ 65535) .port_range
  check_text values "host" 95
  check_text values "worker" 127
  check_text values "password" 63
  let host ← subscript values "host"
  -- the characters passed `ord` above
  let os ← iterate host
  let bad ← any_char (fun c => !host_code c) os
  require (!bad) .host_name
  let worker ← subscript values "worker"
  .ok (configure_request octets port host worker (values "password"))

/-- The line that `request_config` sends. -/
def payload (request : List (String × Object)) : List Byte :=
  dumps (.dict (request.map fun f => (text f.1, f.2))) ++ ascii "\n"

def get_settings : List (String × Object) := [("command", .str (text "get_settings"))]

/-- The loop that receives a reply in chunks. An empty chunk, or none, is the
end of the connection. -/
def receive_reply : List (List Byte) → List Byte → Result (List Byte)
  | [], data => if data.contains 0x0a then .ok data else .error .os_error
  | chunk :: chunks, data =>
    if data.contains 0x0a then .ok data
    else if chunk.isEmpty then .error .os_error
    else if (data ++ chunk).length > 2048 then .error (.value_error .oversized_reply)
    else receive_reply chunks (data ++ chunk)

/-- `isinstance(reply, dict) and isinstance(reply.get("ok"), bool)`. -/
def reply_ok (reply : Value) : Option Bool :=
  match reply, reply.get (ascii "ok") with
  | .object _, some (.bool ok) => some ok
  | _, _ => none

/-- The reply of `request_config`, from the chunks that the socket receives. -/
def request_reply (chunks : List (List Byte)) : Result Value := do
  let data ← receive_reply chunks []
  match loads (data.takeWhile (· != 0x0a)) with
  | none => .error (.value_error .not_json)
  | some reply => if (reply_ok reply).isSome then .ok reply else .error (.value_error .invalid_reply)

/-- `reply.get(name)`. -/
def reply_item (reply : Value) (name : String) : Option Object := (reply.get (ascii name)).map of_value

/-- `type(reply.get(name)) is bool`. -/
def is_bool (reply : Value) (name : String) : Bool :=
  match reply.get (ascii name) with
  | some (.bool _) => true
  | _ => false

/-- The `except` clause of `read_settings`. -/
def invalid_response {α : Type} : Result α → Result α
  | .error (.key_error _) => .error (.value_error .invalid_response)
  | .error .type_error => .error (.value_error .invalid_response)
  | .error .attribute_error => .error (.value_error .invalid_response)
  | r => r

/-- `read_settings`, from the chunks that the socket receives. -/
def read_settings (py : Runtime) (chunks : List (List Byte)) : Result Value := do
  let reply ← request_reply chunks
  require (reply_ok reply == some true) (.refused (reply_item reply "error"))
  require (reply_item reply "password").isNone .password_returned
  require (is_bool reply "stored" && is_bool reply "password_set") .invalid_response
  invalid_response do
    let _ ← validate_settings py (reply_item reply)
    let active_mac ← subscript (reply_item reply) "active_mac"
    let _ ← validate_settings py fun name => if name = "mac" then some active_mac else reply_item reply name
    .ok reply

end scu35.miner_dashboard
