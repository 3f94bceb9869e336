import Scu35Miner.Software.MinerProtocol.Telemetry

open fips180

namespace scu35.dashboard

open json_helpers miner_protocol stratum ina700

/-- The statistics, and the events that wait to be sent. -/
structure Telemetry where
  stats : miner_stats
  events : List miner_event

def queue_size : Nat := 32

def count_if (c : Bool) (n : Word) : Word := if c then n + 1 else n

/-- The statistics after an event of the given name. -/
def count_event (name : EventName) (s : miner_stats) : miner_stats :=
  { s with
    submitted := count_if (name = .solution_submitted) s.submitted
    accepted := count_if (name = .solution_accepted) s.accepted
    rejected := count_if (name = .solution_rejected) s.rejected
    invalid := count_if (name = .hardware_solution_invalid) s.invalid
    connected := if name = .pool_disconnected then false else if name = .pool_connected then true else s.connected
    authorized := if name = .pool_disconnected then false else if name = .pool_authorized then true else s.authorized
    mining := if name = .pool_disconnected then false else s.mining
    job_id := if name = .pool_disconnected then [] else s.job_id }

def telemetry_detail (event : miner_event) (t : Telemetry) : Telemetry :=
  let stats := count_event event.name t.stats
  if t.events.length < queue_size then ⟨stats, t.events ++ [event]⟩
  else ⟨{ stats with dropped := stats.dropped + 1 }, t.events⟩

def telemetry_event (name : EventName) (t : Telemetry) : Telemetry :=
  telemetry_detail ⟨name, t.stats.job_id, [], [], t.stats.jobs⟩ t

def telemetry_job (id : List Byte) (t : Telemetry) : Telemetry :=
  telemetry_event .mining_job_received { t with stats := { t.stats with jobs := t.stats.jobs + 1, job_id := id } }

def telemetry_mining (active : Bool) (t : Telemetry) : Telemetry := { t with stats := { t.stats with mining := active } }

def telemetry_power (samples : ina700_sample × ina700_sample) (t : Telemetry) : Telemetry :=
  { t with stats := { t.stats with power := samples } }

/-- The calls behind an output of the Stratum task, whose job is named `id`. -/
def telemetry_output (id : List Byte) (t : Telemetry) : Output → Telemetry
  | .event .mining_job_received => telemetry_job id t
  | .event name => telemetry_event name t
  | .detail event => telemetry_detail event t
  | .mining active => telemetry_mining active t
  | _ => t

def configTICK_RATE_HZ : Nat := 100

def pdMS_TO_TICKS (ms : Nat) : Word := BitVec.ofNat 32 (ms * configTICK_RATE_HZ / 1000)

def portTICK_PERIOD_MS : Word := BitVec.ofNat 32 (1000 / configTICK_RATE_HZ)

structure Peer where
  address : Word
  port : BitVec 16
deriving DecidableEq, Repr

structure Client where
  peer : Peer
  last : Word
  used : Bool
deriving DecidableEq, Repr

/-- The variables of `broadcast_task`. -/
structure Broadcaster where
  clients : List Client
  seq : Word
  event_seq : Word
  last_status : Word
  sampled : Word
  previous : Word
  counter_present : Bool

/-- What one pass of `broadcast_task` reads. -/
structure Pass where
  received : Option (Peer × List Byte)
  now : Word
  count : Word
  raw : Word
  network_up : Bool
  phy_known : Bool

/-- A request is the string in the receive buffer, at most 79 bytes of it. -/
def Pass.requests (p : Pass) (text : String) : Bool :=
  match p.received with
  | some (_, bytes) => (bytes.take 79).takeWhile (· != 0) = ascii text && bytes ≠ []
  | none => false

/-- The slot of a subscriber from index `i` on: its own, or the last one that is
free. -/
def client_slot (peer : Peer) (now : Word) : List Client → Nat → Option Nat → Option Nat
  | [], _, slot => slot
  | c :: clients, i, slot =>
    if c.used && c.peer == peer then some i
    else
      client_slot peer now clients (i + 1) (if !c.used || now - c.last > pdMS_TO_TICKS 5000 then some i else slot)

def subscribe (p : Pass) (clients : List Client) : List Client :=
  match p.received with
  | some (peer, _) =>
    if p.requests "SCU35_SUBSCRIBE/1" then
      match client_slot peer p.now clients 0 none with
      | some slot => clients.set slot ⟨peer, p.now, true⟩
      | none => clients
    else clients
  | none => clients

/-- The hash rate sample of a pass. -/
def sample_rate (p : Pass) (b : Broadcaster) (s : miner_stats) : Broadcaster × miner_stats :=
  if b.counter_present && p.now - b.sampled ≥ pdMS_TO_TICKS 1000 then
    ({ b with previous := p.count, sampled := p.now },
      { s with
        hashrate_hps := miner_hashrate b.previous p.count (p.now - b.sampled) (BitVec.ofNat 32 configTICK_RATE_HZ)
        hashes_total := s.hashes_total + (p.count - b.previous).setWidth 64
        sample_ms := (p.now - b.sampled) * portTICK_PERIOD_MS
        hashrate_valid := true })
  else (b, s)

/-- The die temperature in hundredths of a degree. -/
def temp_centi (raw : Word) : Int := (((raw &&& 0xffff).toNat * 5013743 / 6553600 : Nat) : Int) - 27367

def status_event : miner_event := ⟨.status, [], [], [], 0⟩

/-- A datagram, and whom it goes to. -/
structure Datagram where
  peer : Peer
  message : List Byte
deriving DecidableEq, Repr

def stale (now : Word) (c : Client) : Bool := now - c.last > pdMS_TO_TICKS 5000

/-- The recipients of a message: the discoverer, and every client that is not
stale. -/
def recipients (p : Pass) (discovery : Bool) (clients : List Client) : List Peer :=
  (match p.received with
    | some (peer, _) => if discovery then [peer] else []
    | none => []) ++
  (clients.filter fun c => c.used && !stale p.now c).map (·.peer)

/-- The clients after a message was sent: stale ones are dropped. -/
def sweep (now : Word) (clients : List Client) : List Client :=
  clients.map fun c => if c.used && stale now c then { c with used := false } else c

/-- The loop over the parts of a packet. A message that does not fit into a
datagram is skipped. -/
def send_parts (p : Pass) (discovery : Bool) : List (List Byte) → List Client → List Datagram × List Client
  | [], clients => ([], clients)
  | message :: parts, clients =>
    if message.length = 0 || message.length > 1472 then send_parts p discovery parts clients
    else
      let sent := (recipients p discovery clients).map (⟨·, message⟩)
      let r := send_parts p discovery parts (sweep p.now clients)
      (sent ++ r.1, r.2)

/-- One pass of the loop of `broadcast_task`. -/
def broadcast_pass (active_mac : Vector Byte 6) (p : Pass) (b : Broadcaster) (t : Telemetry) :
    List Datagram × Broadcaster × Telemetry :=
  let discovery := p.requests "SCU35_DISCOVER/1"
  let b := { b with clients := subscribe p b.clients }
  let (b, stats) := sample_rate p b t.stats
  let pending := t.events ≠ []
  let event := t.events.headD status_event
  let t := { t with stats, events := t.events.tail }
  let b := if pending then { b with event_seq := b.event_seq + 1 } else b
  if !discovery && !pending && p.now - b.last_status < pdMS_TO_TICKS 1000 then ([], b, t)
  else
    let uptime := p.now * portTICK_PERIOD_MS
    let centi := temp_centi p.raw
    let json (e : miner_event) (seq : Word) : List Byte :=
      miner_telemetry_json t.stats e seq b.event_seq uptime centi active_mac p.network_up p.phy_known
    let b := { b with last_status := p.now, seq := b.seq + 1 }
    let message := json event b.seq
    if message.length = 0 || message.length ≥ MINER_TELEMETRY_MAX then ([], b, t)
    else if message.length > 1472 then
      let parts := [json status_event (b.seq + 1), miner_event_json event (b.seq + 2) b.event_seq uptime centi active_mac]
      let (sent, clients) := send_parts p discovery parts b.clients
      (sent, { b with clients, seq := b.seq + 2 }, t)
    else
      let (sent, clients) := send_parts p discovery [message] b.clients
      (sent, { b with clients }, t)

end scu35.dashboard
