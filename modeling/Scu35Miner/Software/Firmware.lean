import Scu35Miner.Software.Dashboard
import Scu35Miner.Software.Dashboard.Telemetry

open fips180 storage

namespace scu35.firmware

open json_helpers settings miner_protocol dashboard ina700

/-- The application: its settings, their EEPROM, and the states of its tasks. -/
structure Firmware where
  settings : miner_settings
  settings_generation : Nat
  cells : Cells Byte
  active_mac : Vector Byte 6
  session : stratum.State
  telemetry : Telemetry
  broadcaster : Broadcaster

/-- What the hardware reports at power-up. -/
structure Hardware where
  engines : Word
  hw_version : Word
  bootloader_version : Word
  counter_present : Bool
  count : Word
  now : Word

def no_sample : ina700_sample := ⟨false, 0, 0, 0, 0, 0, 0⟩

/-- The statistics at power-up. -/
def Hardware.stats (hw : Hardware) : miner_stats where
  job_id := []
  jobs := 0
  submitted := 0
  accepted := 0
  rejected := 0
  invalid := 0
  dropped := 0
  hashrate_hps := 0
  sample_ms := 0
  engines := hw.engines
  hw_version := hw.hw_version
  bootloader_version := hw.bootloader_version
  hashes_total := 0
  connected := false
  authorized := false
  mining := false
  hashrate_valid := false
  power := (no_sample, no_sample)

def Hardware.broadcaster (hw : Hardware) : Broadcaster where
  clients := List.replicate 4 ⟨⟨0, 0⟩, 0, false⟩
  seq := 0
  event_seq := 0
  last_status := 0
  sampled := hw.now
  previous := if hw.counter_present then hw.count else 0
  counter_present := hw.counter_present

/-- The state in which the tasks start, with the settings that were loaded. -/
def Firmware.start (hw : Hardware) (settings : miner_settings) (cells : Cells Byte) : Firmware where
  settings := settings
  settings_generation := 0
  cells := cells
  active_mac := settings.mac
  session := stratum.State.init
  telemetry := ⟨hw.stats, []⟩
  broadcaster := hw.broadcaster

/-- A boot from fault-free EEPROM contents. -/
def Firmware.boot (hw : Hardware) (cells : Cells Byte) : Firmware :=
  match settings_load ⟨cells, []⟩ with
  | .value r d => .start hw r.1 d.cells
  | .lost cells => .start hw settings_defaults cells

/-- What happens to the application: a configuration request, a try to reach
the pool, an event of an open session, a power sample and a pass of the
telemetry loop. -/
inductive Event where
  | request (line : List Byte) (complete : Bool)
  | unresolved
  | connect (sent : Bool)
  | line (text : List Byte) (sent : Bool)
  | service (env : stratum.Environment)
  | timeouts (now limit : Word)
  | disconnect
  | power (samples : ina700_sample × ina700_sample)
  | broadcast (pass : Pass)

/-- What leaves the application. -/
inductive Output where
  | reply (text : List Byte)
  | datagram (d : Datagram)
  | pool (o : stratum.Output)
deriving DecidableEq, Repr

/-- The tries of `stratum_task` need a host and a worker. -/
def configured (s : miner_settings) : Bool := s.host[0] != 0 && s.worker[0] != 0

/-- One event of the Stratum task, and the telemetry calls that it makes. -/
def Firmware.pool (j : Json) (fw : Firmware) (e : stratum.Event) : Firmware × List Output :=
  let session := stratum.step j fw.session e
  ({ fw with session, telemetry := session.outputs.foldl (telemetry_output session.job.id) fw.telemetry },
    session.outputs.map .pool)

/-- A configuration request. The reply is sent if it fits the buffer; a failing
EEPROM takes the power down here. -/
def Firmware.request (j : Json) (fw : Firmware) (line : List Byte) (complete : Bool) : Firmware × List Output :=
  match config_reply j line complete fw.settings fw.active_mac ⟨fw.cells, []⟩ with
  | .lost cells => ({ fw with cells }, [])
  | .value (settings, reply) d =>
    let saved : Bool := reply = some saved_reply
    let fw := { fw with
      settings, cells := d.cells
      settings_generation := if saved then fw.settings_generation + 1 else fw.settings_generation
      telemetry := if saved then telemetry_event .settings_saved fw.telemetry else fw.telemetry }
    match reply with
    | some text => (fw, if text.length < 1024 then [.reply text] else [])
    | none => (fw, [])

def Firmware.step (j : Json) (fw : Firmware) : Event → Firmware × List Output
  | .request line complete => fw.request j line complete
  | .unresolved =>
    if configured fw.settings && !fw.session.connected then
      ({ fw with telemetry := telemetry_event .pool_dns_failed fw.telemetry }, [])
    else (fw, [])
  | .connect sent =>
    if configured fw.settings then
      fw.pool j (.connect (c_string fw.settings.worker) (c_string fw.settings.password) sent)
    else (fw, [])
  | .line text sent => fw.pool j (.line text sent)
  | .service env => fw.pool j (.service env)
  | .timeouts now limit => fw.pool j (.timeouts now limit)
  | .disconnect => fw.pool j .disconnect
  | .power samples => ({ fw with telemetry := telemetry_power samples fw.telemetry }, [])
  | .broadcast pass =>
    let r := broadcast_pass fw.active_mac pass fw.broadcaster fw.telemetry
    ({ fw with broadcaster := r.2.1, telemetry := r.2.2 }, r.1.map .datagram)

/-- All outputs of a run, in order. -/
def outputs (j : Json) (fw : Firmware) : List Event → List Output
  | [] => []
  | e :: events => (fw.step j e).2 ++ outputs j (fw.step j e).1 events

end scu35.firmware
