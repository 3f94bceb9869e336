import Scu35Miner.Software.MinerProtocol.Text

open fips180 radix rfc8259

namespace scu35.miner_protocol

open bitcoin json_helpers settings stratum ina700

/-- The value that `version_json` prints. -/
def version_value (version : Word) : Value :=
  if version = 0 then .null
  else .string (decimal (version >>> 24).toNat ++ ascii "." ++ decimal ((version >>> 16) &&& 255).toNat ++ ascii "." ++
    decimal (version &&& 65535).toNat)

theorem version_within (version : Word) : Within (version_json version) (version_value version) 15 := by
  unfold version_json version_value
  split
  · exact null_within.mono (by decide)
  · have hand (v : Word) (m : Nat) (hm : m < 2 ^ 32) : (v &&& BitVec.ofNat 32 m).toNat ≤ m := by
      rw [BitVec.toNat_and, BitVec.toNat_ofNat, Nat.mod_eq_of_lt hm]
      exact Nat.and_le_right
    have hmajor : (version >>> 24).toNat < 10 ^ 3 := by
      have hlt := version.isLt
      rw [BitVec.toNat_ushiftRight, Nat.shiftRight_eq_div_pow]
      omega
    have hminor : ((version >>> 16) &&& 255).toNat ≤ 255 := hand (version >>> 16) 255 (by decide)
    have hpatch : (version &&& 65535).toNat ≤ 65535 := hand version 65535 (by decide)
    have hlen1 := decimal_length (k := 3) (by decide) hmajor
    have hlen2 := decimal_length (k := 3) (by decide) (Nat.lt_of_le_of_lt hminor (by decide))
    have hlen3 := decimal_length (k := 5) (by decide) (Nat.lt_of_le_of_lt hpatch (by decide))
    generalize htext : decimal (version >>> 24).toNat ++ ascii "." ++ decimal ((version >>> 16) &&& 255).toNat ++
      ascii "." ++ decimal (version &&& 65535).toNat = text
    have hlength : text.length ≤ 13 := by
      rw [← htext]
      simp only [List.length_append, ascii_length]
      change _ + 1 + _ + 1 + _ ≤ 13
      omega
    have hplain : ∀ c ∈ text, plain c = true := by
      rw [← htext]
      have hdot : ∀ c ∈ ascii ".", plain c = true := by decide
      exact plain_append (plain_append (plain_append (plain_append (plain_decimal _) hdot) (plain_decimal _)) hdot)
        (plain_decimal _)
    have hquoted := quoted_within hplain hlength
    rw [List.take_of_length_le (Nat.le_trans hquoted.length (by decide))]
    exact hquoted

/-- The members of `power_json`. -/
def power_fields (s : ina700_sample) (now : Word) : List Field :=
  if !s.valid || now - s.sampled_ms > 3000 then
    [⟨"valid", ascii "false", .bool false⟩, ⟨"voltage_uv", null_text, .null⟩, ⟨"current_ua", null_text, .null⟩,
      ⟨"power_uw", null_text, .null⟩, ⟨"temp_milli_c", null_text, .null⟩, ⟨"age_ms", null_text, .null⟩,
      ⟨"errors", decimal s.errors.toNat, .int s.errors.toNat⟩]
  else
    [⟨"valid", ascii "true", .bool true⟩, ⟨"voltage_uv", decimal s.voltage_uv.toNat, .int s.voltage_uv.toNat⟩,
      ⟨"current_ua", signed_decimal s.current_ua, .int s.current_ua⟩,
      ⟨"power_uw", decimal s.power_uw.toNat, .int s.power_uw.toNat⟩,
      ⟨"temp_milli_c", signed_decimal s.temp_milli_c, .int s.temp_milli_c⟩,
      ⟨"age_ms", decimal (now - s.sampled_ms).toNat, .int (now - s.sampled_ms).toNat⟩,
      ⟨"errors", decimal s.errors.toNat, .int s.errors.toNat⟩]

def power_names : List String :=
  ["valid", "voltage_uv", "current_ua", "power_uw", "temp_milli_c", "age_ms", "errors"]

theorem power_fields_names (s : ina700_sample) (now : Word) : (power_fields s now).map Field.name = power_names := by
  unfold power_fields
  split <;> rfl

theorem ne_nil_of_names {fs : List Field} {name : String} {names : List String}
    (h : fs.map Field.name = name :: names) : fs ≠ [] := by
  rintro rfl
  cases h

/-- The text of a sample whose measurements are in range if it is valid. It
fits the array of `power_json`. -/
theorem power_within {s : ina700_sample} (hs : s.valid = true → s.InRange) (now : Word) :
    Within (power_json s now) (fields_value (power_fields s now)) (object_bound power_names [5, 10, 9, 10, 7, 10, 10]) := by
  have hobject : power_json s now = (object ((power_fields s now).map fun f => (f.name, f.text))).take 255 := by
    unfold power_json power_fields
    dsimp only
    split <;> rfl
  have hfields : List.Forall₂ (fun f bound => Within f.text f.value bound) (power_fields s now)
      [5, 10, 9, 10, 7, 10, 10] := by
    have hnull {bound : Nat} (hbound : 4 ≤ bound) := null_within.mono hbound
    unfold power_fields
    split
    · exact .cons (bool_within false) (.cons (hnull (by decide)) (.cons (hnull (by decide)) (.cons (hnull (by decide))
        (.cons (hnull (by decide)) (.cons (hnull (by decide)) (.cons (word_within _) .nil))))))
    next hfresh =>
      have hvalid : s.valid = true := by
        by_contra hinvalid
        simp [hinvalid] at hfresh
      obtain ⟨_, hcurrent, _, htemp⟩ := hs hvalid
      exact .cons (bool_within true) (.cons (word_within _) (.cons (signed_within (k := 8) (by decide) (by omega))
        (.cons (word_within _) (.cons (signed_within (k := 6) (by decide) (by omega)) (.cons (word_within _)
        (.cons (word_within _) .nil))))))
  have hnames := power_fields_names s now
  have hwithin := object_within (ne_nil_of_names hnames) (by rw [hnames]; decide) hfields
  rw [hnames] at hwithin
  rw [hobject, List.take_of_length_le (Nat.le_trans hwithin.length (by decide))]
  exact hwithin

/-- The strings of a share that JSON holds as they are. -/
structure PlainShare (s : Share) : Prop where
  worker : ∀ c ∈ s.worker, plain c = true
  job_id : ∀ c ∈ s.job_id, plain c = true
  extranonce2 : ∀ c ∈ s.extranonce2, plain c = true
  ntime : ∀ c ∈ s.ntime, plain c = true
  nonce : ∀ c ∈ s.nonce, plain c = true

def share_params (s : Share) : List Element :=
  [⟨quoted s.worker, .string s.worker⟩, ⟨quoted s.job_id, .string s.job_id⟩,
    ⟨quoted s.extranonce2, .string s.extranonce2⟩, ⟨quoted s.ntime, .string s.ntime⟩, ⟨quoted s.nonce, .string s.nonce⟩]

def share_fields (s : Share) : List Field :=
  [⟨"id", decimal s.id.toNat, .int s.id.toNat⟩, ⟨"method", quoted (ascii "mining.submit"), .string (ascii "mining.submit")⟩,
    ⟨"params", array_text (share_params s), .array ((share_params s).map Element.value)⟩]

/-- The value of a `mining.submit` line. -/
def share_value (s : Share) : Value := fields_value (share_fields s)

theorem share_line_eq (s : Share) : s.line = object ((share_fields s).map fun f => (f.name, f.text)) ++ ascii "\n" := by
  have hopen : ascii "\x7b\"id\":" = ascii "\x7b" ++ quoted (ascii "id") ++ ascii ":" := by decide
  have hmethod : ascii ",\"method\":\"mining.submit\",\"params\":[\"" =
      ascii "," ++ quoted (ascii "method") ++ ascii ":" ++ quoted (ascii "mining.submit") ++ ascii "," ++
        quoted (ascii "params") ++ ascii ":" ++ [0x5b] ++ ascii "\"" := by decide
  have hcomma : ascii "\",\"" = ascii "\"" ++ [0x2c] ++ ascii "\"" := by decide
  have hclose : ascii "\"]\x7d\n" = ascii "\"" ++ [0x5d] ++ ascii "\x7d" ++ ascii "\n" := by decide
  rw [Share.line, hopen, hmethod, hcomma, hclose]
  simp only [object, share_fields, List.map_cons, List.map_nil, members, array_text, share_params, elements_text, decimal,
    quoted, List.append_assoc, List.cons_append, List.nil_append]

theorem share_line_reads {s : Share} (hs : PlainShare s) : Reads s.line (share_value s) := by
  have hparams : ∀ e ∈ share_params s, Reads e.text e.value := by
    simp only [share_params, List.forall_mem_cons]
    exact ⟨reads_quoted hs.worker, reads_quoted hs.job_id, reads_quoted hs.extranonce2, reads_quoted hs.ntime,
      reads_quoted hs.nonce, by simp⟩
  have hfields : ∀ f ∈ share_fields s, Reads f.text f.value := by
    simp only [share_fields, List.forall_mem_cons]
    exact ⟨reads_decimal _, reads_quoted (by decide), reads_array (by simp [share_params]) hparams, by simp⟩
  have hnames : ∀ name ∈ (share_fields s).map Field.name, (ascii name).all plain = true := by
    change ∀ name ∈ ["id", "method", "params"], _
    decide
  have hobject := reads_fields (by simp [share_fields]) hnames hfields
  rw [share_line_eq]
  exact hobject.white (by decide)

/-- The members of the details of an event, with the value of its submission. -/
def details_fields (e : miner_event) (submission : Value) : List Field :=
  [⟨"job_number", decimal e.job_number.toNat, .int e.job_number.toNat⟩, ⟨"job_id", quoted e.job_id, .string e.job_id⟩,
    ⟨"submission", if e.submission ≠ [] then e.submission else null_text, submission⟩,
    ⟨"hash", quoted e.hash, .string e.hash⟩]

def details_names : List String := ["job_number", "job_id", "submission", "hash"]

/-- An event whose strings can be printed, with bounds of their lengths. -/
structure Printable (e : miner_event) (submission : Value) (n l m : Nat) : Prop where
  job_id : ∀ c ∈ e.job_id, plain c = true
  job_id_length : e.job_id.length ≤ n
  submission : Within (if e.submission ≠ [] then e.submission else null_text) submission l
  hash : ∀ c ∈ e.hash, plain c = true
  hash_length : e.hash.length ≤ m

theorem details_within {e : miner_event} {submission : Value} {n l m : Nat}
    (h : Printable e submission n l m) :
    Within (details_json e) (fields_value (details_fields e submission))
      (object_bound details_names [10, n + 2, l, m + 2]) := by
  have hfields : List.Forall₂ (fun f bound => Within f.text f.value bound) (details_fields e submission)
      [10, n + 2, l, m + 2] :=
    .cons (word_within _) (.cons (quoted_within h.job_id h.job_id_length) (.cons h.submission
      (.cons (quoted_within h.hash h.hash_length) .nil)))
  exact object_within (ne_nil_of_names rfl) (by change ∀ name ∈ details_names, _; decide) hfields

/-- The members of `miner_event_json`. -/
def event_fields (e : miner_event) (submission : Value) (seq event_seq uptime : Word) (centi : Int)
    (mac : Vector Byte 6) : List Field :=
  [⟨"protocol", quoted (ascii "SCU35/1"), .string (ascii "SCU35/1")⟩, ⟨"partial", ascii "true", .bool true⟩,
    ⟨"seq", decimal seq.toNat, .int seq.toNat⟩, ⟨"event_seq", decimal event_seq.toNat, .int event_seq.toNat⟩,
    ⟨"event", quoted (ascii (event_name e.name)), .string (ascii (event_name e.name))⟩,
    ⟨"mac", quoted (mac_text mac), .string (mac_text mac)⟩, ⟨"uptime_ms", decimal uptime.toNat, .int uptime.toNat⟩,
    ⟨"temp_centi", signed_decimal centi, .int centi⟩,
    ⟨"details", details_json e, fields_value (details_fields e submission)⟩]

def event_names : List String :=
  ["protocol", "partial", "seq", "event_seq", "event", "mac", "uptime_ms", "temp_centi", "details"]

theorem event_name_within (name : EventName) :
    Within (quoted (ascii (event_name name))) (.string (ascii (event_name name))) 27 := by
  have hplain : (ascii (event_name name)).all plain = true := by cases name <;> decide
  have hlength : (ascii (event_name name)).length ≤ 25 := by cases name <;> decide
  exact quoted_within (List.all_eq_true.mp hplain) hlength

theorem mac_within (mac : Vector Byte 6) : Within (quoted (mac_text mac)) (.string (mac_text mac)) 19 :=
  quoted_within (plain_mac_text mac) (Nat.le_of_eq (mac_text_length mac))

theorem protocol_within : Within (quoted (ascii "SCU35/1")) (.string (ascii "SCU35/1")) 9 :=
  quoted_within (by decide) (by decide)

theorem event_within {e : miner_event} {submission : Value} {n l m : Nat}
    (h : Printable e submission n l m) (seq event_seq uptime : Word) {centi : Int}
    (hcenti : centi.natAbs < 10 ^ 5) (mac : Vector Byte 6) :
    Within (miner_event_json e seq event_seq uptime centi mac)
      (fields_value (event_fields e submission seq event_seq uptime centi mac))
      (object_bound event_names [9, 5, 10, 10, 27, 19, 10, 6,
        object_bound details_names [10, n + 2, l, m + 2]]) := by
  have hfields : List.Forall₂ (fun f bound => Within f.text f.value bound)
      (event_fields e submission seq event_seq uptime centi mac)
      [9, 5, 10, 10, 27, 19, 10, 6, object_bound details_names [10, n + 2, l, m + 2]] :=
    .cons protocol_within (.cons (bool_within true) (.cons (word_within _) (.cons (word_within _)
      (.cons (event_name_within _) (.cons (mac_within _) (.cons (word_within _)
      (.cons (signed_within (by decide) hcenti) (.cons (details_within h) .nil))))))))
  exact object_within (ne_nil_of_names rfl) (by change ∀ name ∈ event_names, _; decide) hfields

/-- The members of the power readings. -/
def readings_fields (s : miner_stats) (now : Word) : List Field :=
  [⟨"source", quoted (ascii "INA700"), .string (ascii "INA700")⟩,
    ⟨"internal_5v", power_json s.power.1 now, fields_value (power_fields s.power.1 now)⟩,
    ⟨"vccint", power_json s.power.2 now, fields_value (power_fields s.power.2 now)⟩]

def readings_names : List String := ["source", "internal_5v", "vccint"]

def readings_bound : Nat :=
  object_bound readings_names [8, object_bound power_names [5, 10, 9, 10, 7, 10, 10],
    object_bound power_names [5, 10, 9, 10, 7, 10, 10]]

/-- The statistics as the firmware builds them: the job's name can be printed,
and valid power samples are in range. -/
structure miner_stats.Sound (s : miner_stats) : Prop where
  job_id : ∀ c ∈ s.job_id, plain c = true
  job_id_length : s.job_id.length ≤ 127
  internal_5v : s.power.1.valid = true → s.power.1.InRange
  vccint : s.power.2.valid = true → s.power.2.InRange

theorem readings_within {s : miner_stats} (h : s.Sound) (now : Word) :
    Within (object ((readings_fields s now).map fun f => (f.name, f.text))) (fields_value (readings_fields s now))
      readings_bound := by
  refine object_within (ne_nil_of_names rfl) (by change ∀ name ∈ readings_names, _; decide) ?_
  exact .cons (quoted_within (by decide) (by decide)) (.cons (power_within h.internal_5v now)
    (.cons (power_within h.vccint now) .nil))

/-- The members of `miner_telemetry_json`. -/
def telemetry_fields (s : miner_stats) (e : miner_event) (submission : Value) (seq event_seq uptime : Word)
    (centi : Int) (mac : Vector Byte 6) (network phy : Bool) : List Field :=
  [⟨"protocol", quoted (ascii "SCU35/1"), .string (ascii "SCU35/1")⟩, ⟨"seq", decimal seq.toNat, .int seq.toNat⟩,
    ⟨"event_seq", decimal event_seq.toNat, .int event_seq.toNat⟩,
    ⟨"event", quoted (ascii (event_name e.name)), .string (ascii (event_name e.name))⟩,
    ⟨"mac", quoted (mac_text mac), .string (mac_text mac)⟩, ⟨"uptime_ms", decimal uptime.toNat, .int uptime.toNat⟩,
    ⟨"temp_centi", signed_decimal centi, .int centi⟩, ⟨"cpu_mhz", ascii "50", .int 50⟩,
    ⟨"engines", decimal s.engines.toNat, .int s.engines.toNat⟩,
    ⟨"hw_version", version_json s.hw_version, version_value s.hw_version⟩,
    ⟨"bootloader_version", version_json s.bootloader_version, version_value s.bootloader_version⟩,
    ⟨"application_version", quoted APPLICATION_VERSION, .string APPLICATION_VERSION⟩,
    ⟨"network_up", bool_text network, .bool network⟩, ⟨"phy_known", bool_text phy, .bool phy⟩,
    ⟨"reboot_supported", ascii "false", .bool false⟩, ⟨"config_port", ascii "4029", .int 4029⟩,
    ⟨"pool_connected", bool_text s.connected, .bool s.connected⟩,
    ⟨"pool_authorized", bool_text s.authorized, .bool s.authorized⟩, ⟨"mining", bool_text s.mining, .bool s.mining⟩,
    ⟨"job_number", decimal s.jobs.toNat, .int s.jobs.toNat⟩, ⟨"job_id", quoted s.job_id, .string s.job_id⟩,
    ⟨"shares_submitted", decimal s.submitted.toNat, .int s.submitted.toNat⟩,
    ⟨"shares_accepted", decimal s.accepted.toNat, .int s.accepted.toNat⟩,
    ⟨"shares_rejected", decimal s.rejected.toNat, .int s.rejected.toNat⟩,
    ⟨"hardware_errors", decimal s.invalid.toNat, .int s.invalid.toNat⟩,
    ⟨"events_dropped", decimal s.dropped.toNat, .int s.dropped.toNat⟩,
    ⟨"hashrate_hps", if s.hashrate_valid then (decimal s.hashrate_hps.toNat).take 23 else null_text,
      if s.hashrate_valid then .int s.hashrate_hps.toNat else .null⟩,
    ⟨"hashrate_source", quoted (ascii "hardware_counter"), .string (ascii "hardware_counter")⟩,
    ⟨"hashrate_sample_ms", decimal s.sample_ms.toNat, .int s.sample_ms.toNat⟩,
    ⟨"hashes_total", decimal s.hashes_total.toNat, .int s.hashes_total.toNat⟩,
    ⟨"power", object ((readings_fields s uptime).map fun f => (f.name, f.text)), fields_value (readings_fields s uptime)⟩,
    ⟨"details", details_json e, fields_value (details_fields e submission)⟩]

def telemetry_names : List String :=
  ["protocol", "seq", "event_seq", "event", "mac", "uptime_ms", "temp_centi", "cpu_mhz", "engines", "hw_version",
    "bootloader_version", "application_version", "network_up", "phy_known", "reboot_supported", "config_port",
    "pool_connected", "pool_authorized", "mining", "job_number", "job_id", "shares_submitted", "shares_accepted",
    "shares_rejected", "hardware_errors", "events_dropped", "hashrate_hps", "hashrate_source", "hashrate_sample_ms",
    "hashes_total", "power", "details"]

/-- The bounds of the members of a status packet, the last one that of its
details. -/
def telemetry_bounds (details : Nat) : List Nat :=
  [9, 10, 10, 27, 19, 10, 6, 2, 10, 15, 15, 7, 5, 5, 5, 4, 5, 5, 5, 10, 129, 10, 10, 10, 10, 10, 10, 18, 10, 20,
    readings_bound, details]

theorem hashrate_within (valid : Bool) (hps : Word) :
    Within (if valid then (decimal hps.toNat).take 23 else null_text) (if valid then .int hps.toNat else .null) 10 := by
  cases valid with
  | false => exact null_within.mono (by decide)
  | true =>
    have hwithin := word_within hps
    rw [if_pos rfl, if_pos rfl, List.take_of_length_le (Nat.le_trans hwithin.length (by decide))]
    exact hwithin

theorem telemetry_within {s : miner_stats} (hs : s.Sound) {e : miner_event} {submission : Value}
    {n l m : Nat} (h : Printable e submission n l m) (seq event_seq uptime : Word) {centi : Int}
    (hcenti : centi.natAbs < 10 ^ 5) (mac : Vector Byte 6) (network phy : Bool) :
    Within (miner_telemetry_json s e seq event_seq uptime centi mac network phy)
      (fields_value (telemetry_fields s e submission seq event_seq uptime centi mac network phy))
      (object_bound telemetry_names
        (telemetry_bounds (object_bound details_names [10, n + 2, l, m + 2]))) := by
  have hwide : Within (decimal s.hashes_total.toNat) (.int s.hashes_total.toNat) 20 :=
    ⟨reads_decimal _, decimal_length (by decide) (Nat.lt_trans s.hashes_total.isLt (by decide))⟩
  have hversion : Within (quoted APPLICATION_VERSION) (.string APPLICATION_VERSION) 7 :=
    quoted_within (by decide) (by decide)
  have hsource : Within (quoted (ascii "hardware_counter")) (.string (ascii "hardware_counter")) 18 :=
    quoted_within (by decide) (by decide)
  have hfields : List.Forall₂ (fun f bound => Within f.text f.value bound)
      (telemetry_fields s e submission seq event_seq uptime centi mac network phy)
      (telemetry_bounds (object_bound details_names [10, n + 2, l, m + 2])) :=
    .cons protocol_within <| .cons (word_within _) <| .cons (word_within _) <| .cons (event_name_within _) <|
    .cons (mac_within _) <| .cons (word_within _) <| .cons (signed_within (by decide) hcenti) <|
    .cons ⟨reads_decimal 50, by decide⟩ <| .cons (word_within _) <| .cons (version_within _) <|
    .cons (version_within _) <| .cons hversion <| .cons (bool_within _) <| .cons (bool_within _) <|
    .cons (bool_within false) <| .cons ⟨reads_decimal 4029, by decide⟩ <| .cons (bool_within _) <|
    .cons (bool_within _) <| .cons (bool_within _) <| .cons (word_within _) <|
    .cons (quoted_within hs.job_id hs.job_id_length) <| .cons (word_within _) <| .cons (word_within _) <|
    .cons (word_within _) <| .cons (word_within _) <| .cons (word_within _) <| .cons (hashrate_within _ _) <|
    .cons hsource <| .cons (word_within _) <| .cons hwide <| .cons (readings_within hs uptime) <|
    .cons (details_within h) .nil
  exact object_within (ne_nil_of_names rfl) (by change ∀ name ∈ telemetry_names, _; decide) hfields

end scu35.miner_protocol
