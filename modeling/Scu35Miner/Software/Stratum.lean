import Scu35Miner.Software.Bitcoin
import Scu35Miner.Software.Json
import Scu35Miner.Transition.Run

open fips180

namespace scu35.stratum

open sha256_sw bitcoin json_helpers

@[irreducible]
def RANGE : Word := 0x01000000

structure pool_job where
  id : List Byte
  time : List Byte
  number : Word
  prev : List Byte
  version : List Byte
  bits : List Byte
  coin1 : List Byte
  coin2 : List Byte
  branches : List (List Byte)
  target : Vector Word 8
deriving DecidableEq, Repr

inductive EventName where
  | mining_job_received
  | difficulty_changed
  | authorization_failed
  | pool_authorized
  | pool_connected
  | pool_disconnected
  | result_fifo_overflow
  | hardware_solution_invalid
  | share_queue_full
  | solution_submitted
  | solution_accepted
  | solution_rejected
  | share_reply_timeout
  | pool_dns_failed
  | settings_saved
  | status
deriving DecidableEq, Repr

structure miner_event where
  name : EventName
  job_id : List Byte
  submission : List Byte
  hash : List Byte
  job_number : Word
deriving DecidableEq, Repr

structure Pending where
  id : Word
  sent : Word
  event : miner_event
deriving DecidableEq, Repr

/-- The strings of a `mining.submit` line. -/
structure Share where
  id : Word
  worker : List Byte
  job_id : List Byte
  extranonce2 : List Byte
  ntime : List Byte
  nonce : List Byte
deriving DecidableEq, Repr

/-- What the session does to the outside. A START command is logged with the
extranonce text and the nonce window it is for, and a submission with the
eighty header bytes whose hash was compared. -/
inductive Output where
  | reg_write (offset : Nat) (value : Word)
  | delay
  | start (extranonce2 : List Byte) (window : Word)
  | send (line : List Byte)
  | submit (share : Share) (header : List Byte)
  | event (name : EventName)
  | detail (event : miner_event)
  | mining (active : Bool)
deriving DecidableEq, Repr

/-- The globals of the task; `outputs` is what the last event caused. -/
structure State where
  job : pool_job
  extra1 : List Byte
  extra1_size : Nat
  extra2 : List Byte
  extra2_size : Nat
  extra2_hex : List Byte
  header : List Byte
  pending_target : Vector Word 8
  range_start : Word
  next_id : Word
  pending : List Pending
  subscribed : Bool
  authorized : Bool
  have_job : Bool
  running : Bool
  extra_exhausted : Bool
  worker : List Byte
  password : List Byte
  jobs : Word
  connected : Bool
  outputs : List Output
deriving DecidableEq, Repr

def State.out (st : State) (outputs : List Output) : State := { st with outputs := st.outputs ++ outputs }

def stop (st : State) : State :=
  { st with running := false }.out
    [.reg_write 0xa0 1, .reg_write 0 2, .delay, .reg_write 0 4, .reg_write 0x98 3, .mining false]

def start_range (st : State) : State :=
  { st with running := true }.out
    [.reg_write 0 4, .reg_write 0x80 st.range_start, .reg_write 0x84 RANGE, .reg_write 0 1,
      .start st.extra2_hex st.range_start, .mining true]

def json_hex (j : Json) (s : List Byte) (query : String) (cap : Nat) : Option (List Byte) :=
  match j.search s query with
  | .success v .JSONString => hex_decode v cap
  | _ => none

/-- The carry loop over the first `i` bytes, with whether it ran out of them. -/
def increment (extra2 : List Byte) : Nat → List Byte × Bool
  | 0 => (extra2, false)
  | i + 1 =>
    let v := extra2.getD i 0 + 1
    let extra2 := extra2.set i v
    if v != 0 then (extra2, false) else if i = 0 then (extra2, true) else increment extra2 i

/-- The register writes of `build_header`. -/
def job_writes (mid target : Vector Word 8) (tail : Vector Word 4) : List Output :=
  (List.range 8).flatMap (fun i =>
    [.reg_write (0x20 + i * 4) (mid.toList.getD i 0), .reg_write (0x60 + i * 4) (target.toList.getD i 0)]) ++
  (List.range 4).map fun i => .reg_write (0x40 + i * 4) (tail.toList.getD i 0)

/-- `build_header`; `false` stands for its `-1`. -/
def build_header (st : State) : State × Bool :=
  if st.extra_exhausted then (st, false)
  else
    let extra2 := st.extra2.take st.extra2_size
    let st := { st with extra2_hex := hex_encode extra2 }
    match hex_decode (st.job.time.take 8) 4 with
    | none => (st, false)
    | some time =>
      if time.length != 4 then (st, false)
      else
        let header := bitcoin_build_header st.job.version st.job.prev st.job.bits time st.job.coin1
          (st.extra1.take st.extra1_size) extra2 st.job.coin2 st.job.branches
        let mid := bitcoin_header_midstate header
        let tail := bitcoin_header_tail_words header
        let (extra2, exhausted) := increment st.extra2 st.extra2_size
        (start_range ({ st with
          header, extra2, extra_exhausted := exhausted, range_start := 0 }.out (job_writes mid st.job.target tail)),
          true)

/-- The fields of a `mining.notify` that the session keeps. -/
structure NotifyFields where
  id : List Byte
  prev : List Byte
  coin1 : List Byte
  coin2 : List Byte
  version : List Byte
  bits : List Byte
  time : List Byte
  branches : List (List Byte)

/-- `json_hex(..) != n` for an array of `n` bytes. -/
def json_hex_exact (j : Json) (s : List Byte) (query : String) (n : Nat) : Option (List Byte) :=
  match json_hex j s query n with
  | some out => if out.length = n then some out else none
  | none => none

def branch_query (i : Nat) : String := "params[4][" ++ toString i ++ "]"

/-- The merkle branch loop from index `i` on, with `n` passes left. -/
def parse_branches (j : Json) (s : List Byte) : Nat → Nat → Option (List (List Byte))
  | 0, _ => some []
  | n + 1, i =>
    match j.search s (branch_query i) with
    | .not_found => some []
    | .success v .JSONString =>
      if i = 32 then none
      else
        match hex_decode v 32 with
        | none => none
        | some branch =>
          if branch.length != 32 then none
          else
            match parse_branches j s n (i + 1) with
            | none => none
            | some branches => some (branch :: branches)
    | _ => none

def is_array (j : Json) (s : List Byte) (query : String) : Bool :=
  match j.search s query with
  | .success _ .JSONArray => true
  | _ => false

def is_bool (j : Json) (s : List Byte) (query : String) : Bool :=
  match j.search s query with
  | .success _ .JSONTrue => true
  | .success _ .JSONFalse => true
  | _ => false

/-- All checks that `notification` makes on a `mining.notify`. In C the fields
before a failing one are in `job` by then; the session ends, so that nothing
reads them. -/
def parse_notify (j : Json) (s : List Byte) : Option NotifyFields :=
  match json_string j s "params[0]" 128, json_hex_exact j s "params[1]" 32,
    json_hex j s "params[2]" 4096, json_hex j s "params[3]" 4096,
    json_hex_exact j s "params[5]" 4, json_hex_exact j s "params[6]" 4, json_string j s "params[7]" 9 with
  | some id, some prev, some coin1, some coin2, some version, some bits, some time =>
    if id = [] || time.length != 8 || !is_array j s "params[4]" || !is_bool j s "params[8]" then none
    else
      match parse_branches j s 33 0 with
      | none => none
      | some branches => some ⟨id, prev, coin1, coin2, version, bits, time, branches⟩
  | _, _, _, _, _, _, _ => none

def telemetry_job (st : State) : State := { st with jobs := st.jobs + 1 }.out [.event .mining_job_received]

def set_difficulty (j : Json) (s : List Byte) (st : State) : State × Bool :=
  match j.search s "params[0]" with
  | .success v .JSONNumber =>
    match bitcoin_target v with
    | none => (st, false)
    | some target => ({ st with pending_target := target }.out [.event .difficulty_changed], true)
  | _ => (st, false)

/-- The size of the second extranonce, between 1 and 16. -/
def extranonce_size (j : Json) (s : List Byte) (query : String) : Option Nat :=
  match json_u32 j s query with
  | none => none
  | some count => if count = 0 || count > 16 then none else some count.toNat

/-- Decoded bytes stored at the front of an array. -/
def store_front (array out : List Byte) : List Byte := out ++ array.drop out.length

def set_extranonce (j : Json) (s : List Byte) (st : State) : State × Bool :=
  match json_hex j s "params[0]" 32 with
  | none => (st, false)
  | some out =>
    let st := { st with extra1 := store_front st.extra1 out }
    match extranonce_size j s "params[1]" with
    | none => (st, false)
    | some count =>
      ({ stop st with
        have_job := false, extra1_size := out.length, extra2_size := count, extra2 := List.replicate 16 0,
        extra_exhausted := false }, true)

def notify (j : Json) (s : List Byte) (st : State) : State × Bool :=
  if !st.subscribed then (st, false)
  else
    let st := { stop st with have_job := false }
    match parse_notify j s with
    | none => (st, false)
    | some f =>
      let st := { st with
        job := ⟨f.id, f.time, st.job.number, f.prev, f.version, f.bits, f.coin1, f.coin2, f.branches,
          st.pending_target⟩
        have_job := true }
      let st := telemetry_job st
      let st := { st with job := { st.job with number := st.jobs } }
      if st.authorized then build_header st else (st, true)

inductive Method where
  | set_difficulty
  | set_extranonce
  | notify
  | other
deriving DecidableEq, Repr

def parse_method (method : List Byte) : Method :=
  if method = ascii "mining.set_difficulty" then .set_difficulty
  else if method = ascii "mining.set_extranonce" then .set_extranonce
  else if method = ascii "mining.notify" then .notify
  else .other

def notification (j : Json) (s : List Byte) (st : State) : State × Bool :=
  match json_string j s "method" 64 with
  | none => (st, false)
  | some method =>
    match parse_method method with
    | .set_difficulty => set_difficulty j s st
    | .set_extranonce => set_extranonce j s st
    | .notify => notify j s st
    | .other => (st, true)

def authorize_request (worker password : List Byte) : List Byte :=
  (ascii "\x7b\"id\":2,\"method\":\"mining.authorize\",\"params\":[\"" ++ worker ++ ascii "\",\"" ++ password ++
    ascii "\"]\x7d\n").take 511

def suggest_request : List Byte :=
  ascii "\x7b\"id\":3,\"method\":\"mining.suggest_difficulty\",\"params\":[0.0001]\x7d\n"

def subscribe_request : List Byte :=
  ascii "\x7b\"id\":1,\"method\":\"mining.subscribe\",\"params\":[\"SCU35/1\"]\x7d\n"

/-- The reply to `mining.subscribe`; `sent` is the result of `send_line`. -/
def subscribe_reply (j : Json) (s : List Byte) (sent : Bool) (st : State) : State × Bool :=
  if st.subscribed then (st, false)
  else
    match json_hex j s "result[1]" 32 with
    | none => (st, false)
    | some out =>
      let st := { st with extra1 := store_front st.extra1 out }
      match extranonce_size j s "result[2]" with
      | none => (st, false)
      | some count =>
        ({ st with extra1_size := out.length, extra2_size := count, subscribed := true }.out
          [.send (authorize_request st.worker st.password)], sent)

/-- The reply to `mining.authorize`. -/
def authorize_reply (j : Json) (s : List Byte) (sent : Bool) (st : State) : State × Bool :=
  if !st.subscribed || st.authorized then (st, false)
  else if !json_true j s "result" then (st.out [.event .authorization_failed], false)
  else
    let st := { st with authorized := true }.out [.event .pool_authorized, .send suggest_request]
    if !sent then (st, false) else if st.have_job then build_header st else (st, true)

/-- The reply to a share: the first slot with its identifier is released. -/
def share_reply (id : Word) (accepted : Bool) (st : State) : State :=
  match st.pending.findIdx? (fun p => id ≥ 4 && p.id == id) with
  | none => st
  | some i =>
    let p := st.pending.getD i ⟨0, 0, ⟨.solution_submitted, [], [], [], 0⟩⟩
    let event := { p.event with name := if accepted then .solution_accepted else .solution_rejected }
    { st with pending := st.pending.set i { p with id := 0, event } }.out [.detail event]

def reply (j : Json) (s : List Byte) (sent : Bool) (st : State) : State × Bool :=
  match json_u32 j s "id" with
  | none => (st, true)
  | some id =>
    if id = 1 then subscribe_reply j s sent st
    else if id = 2 then authorize_reply j s sent st
    else (share_reply id (json_true j s "result") st, true)

def has_method (j : Json) (s : List Byte) : Bool :=
  match j.search s "method" with
  | .success _ _ => true
  | _ => false

def handle_line (j : Json) (s : List Byte) (sent : Bool) (st : State) : State × Bool :=
  if !j.validate s then (st, false)
  else if has_method j s then notification j s st
  else reply j s sent st

/-- Byte `i` of the target, most significant first. -/
def target_byte (target : Vector Word 8) (i : Nat) : Byte :=
  (target.toList.getD (i / 4) 0 >>> (24 - 8 * (i % 4))).setWidth 8

/-- The comparison loop from byte `i` on, with `n` passes left. -/
def compare_loop (digest : List Byte) (target : Vector Word 8) : Nat → Nat → Bool
  | 0, _ => true
  | n + 1, i =>
    if digest.getD (31 - i) 0 < target_byte target i then true
    else if digest.getD (31 - i) 0 > target_byte target i then false
    else compare_loop digest target n (i + 1)

def share_valid (digest : List Byte) (target : Vector Word 8) : Bool := compare_loop digest target 32 0

/-- The header with the nonce stored into its last four bytes. -/
def patch_nonce (header : List Byte) (nonce : Word) : List Byte :=
  header.take 76 ++ (List.range 4).map fun i => (nonce >>> (24 - i * 8)).setWidth 8

/-- `%08lx`. -/
def format_08lx (v : Word) : List Byte :=
  (List.range 8).map fun i => hex_char ((v >>> (28 - 4 * i)).setWidth 8 &&& 15)

def Share.line (s : Share) : List Byte :=
  ascii "\x7b\"id\":" ++ ascii (toString s.id.toNat) ++
    ascii ",\"method\":\"mining.submit\",\"params\":[\"" ++ s.worker ++ ascii "\",\"" ++ s.job_id ++ ascii "\",\"" ++
    s.extranonce2 ++ ascii "\",\"" ++ s.ntime ++ ascii "\",\"" ++ s.nonce ++ ascii "\"]\x7d\n"

/-- One pass of the result loop after the nonce has been read: acknowledge,
verify and submit. -/
def submit_result (nonce : Word) (sent : Bool) (now : Word) (st : State) : State × Bool :=
  let st := st.out [.reg_write 0x98 1]
  let st := { st with header := patch_nonce st.header nonce }
  let digest := sha256d st.header
  if !share_valid digest st.job.target then (st.out [.event .hardware_solution_invalid], false)
  else
    match st.pending.findIdx? (fun p => p.id == 0) with
    | none => (st.out [.event .share_queue_full], false)
    | some slot =>
      if st.next_id < 4 then (st, false)
      else
        let share : Share := ⟨st.next_id, st.worker, st.job.id, st.extra2_hex, st.job.time,
          format_08lx (bitcoin_swap32 nonce)⟩
        let st := { st with next_id := st.next_id + 1 }
        if share.line.length ≥ 640 then (st, false)
        else
          let st := st.out [.submit share st.header]
          if !sent then (st, false)
          else
            let event : miner_event := ⟨.solution_submitted, st.job.id, share.line,
              hex_encode ((List.range 32).map fun i => digest.getD (31 - i) 0), st.job.number⟩
            ({ st with pending := st.pending.set slot ⟨share.id, now, event⟩ }.out [.detail event], true)

/-- What the device and the network answer during one `service_results`. -/
structure Environment where
  status : Word
  result_status : Nat → Word
  result_nonce : Nat → Word
  sent : Nat → Bool
  now : Word
  final_status : Word
  final_result_status : Word

/-- The result loop from pass `k` on, with `n` passes left. -/
def result_loop (env : Environment) : Nat → Nat → State → State × Bool
  | 0, _, st => (st, true)
  | n + 1, k, st =>
    if env.result_status k &&& 1 = 0 then (st, true)
    else
      let r := submit_result (env.result_nonce k) (env.sent k) env.now st
      if !r.2 then r else result_loop env n (k + 1) r.1

def next_range (st : State) : State × Bool :=
  let st := { st with range_start := st.range_start + RANGE }
  if st.range_start = 0 then build_header (stop st) else (start_range st, true)

def service_results (env : Environment) (st : State) : State × Bool :=
  if !st.running then (st, true)
  else if env.status &&& 8 != 0 then (st.out [.event .result_fifo_overflow], false)
  else
    let r := result_loop env 16 0 st
    if !r.2 then r
    else if env.final_status &&& 4 != 0 && env.final_result_status &&& 1 == 0 then next_range r.1
    else r

/-- The end of a session. -/
def disconnect (st : State) : State :=
  { { stop st with have_job := false }.out [.event .pool_disconnected] with connected := false }

/-- A handler's result: a failure ends the session. -/
def finish : State × Bool → State
  | (st, true) => st
  | (st, false) => disconnect st

/-- The start of a session, up to the subscription request. -/
def connect (worker password : List Byte) (sent : Bool) (st : State) : State :=
  let st := { st with
    worker, password
    subscribed := false, authorized := false, have_job := false, running := false, extra_exhausted := false
    extra2 := List.replicate 16 0
    pending := List.replicate 8 ⟨0, 0, ⟨.solution_submitted, [], [], [], 0⟩⟩
    next_id := 4
    pending_target := (bitcoin_target (ascii "1")).getD st.pending_target
    connected := true }
  if sent then st.out [.send subscribe_request, .event .pool_connected] else finish (st, false)

/-- Shares that have waited for more than thirty seconds end the session. -/
def reply_timeouts (now limit : Word) (st : State) : State × Bool :=
  let late := st.pending.filter fun p => p.id != 0 && now - p.sent > limit
  (st.out (late.map fun p => .detail { p.event with name := .share_reply_timeout }), late.isEmpty)

inductive Event where
  | connect (worker password : List Byte) (sent : Bool)
  | line (text : List Byte) (sent : Bool)
  | service (env : Environment)
  | timeouts (now limit : Word)
  | disconnect

/-- One event of the task; lines and polls only reach an open session. -/
def step (j : Json) (st : State) (e : Event) : State :=
  let st := { st with outputs := [] }
  match e with
  | .connect worker password sent => if st.connected then st else stratum.connect worker password sent st
  | .line text sent => if st.connected then finish (handle_line j text sent st) else st
  | .service env => if st.connected then finish (service_results env st) else st
  | .timeouts now limit => if st.connected then finish (reply_timeouts now limit st) else st
  | .disconnect => if st.connected then stratum.disconnect st else st

/-- Power-up: everything zero, and the device stopped. -/
def State.init : State where
  job := ⟨[], [], 0, [], [], [], [], [], [], Vector.replicate 8 0⟩
  extra1 := List.replicate 32 0
  extra1_size := 0
  extra2 := List.replicate 16 0
  extra2_size := 0
  extra2_hex := []
  header := List.replicate 80 0
  pending_target := Vector.replicate 8 0
  range_start := 0
  next_id := 0
  pending := List.replicate 8 ⟨0, 0, ⟨.solution_submitted, [], [], [], 0⟩⟩
  subscribed := false
  authorized := false
  have_job := false
  running := false
  extra_exhausted := false
  worker := []
  password := []
  jobs := 0
  connected := false
  outputs := []

end scu35.stratum
