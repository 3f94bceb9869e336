import Scu35Miner.Dashboard.Discovery
import Scu35Miner.Software.MinerProtocol.Packets

open fips180 rfc8259

namespace scu35.miner_dashboard

open json_helpers miner_protocol stratum ina700

theorem field_at {fs : List Field} (hkeys : ((fs.map Field.name).map ascii).Nodup) {i : Nat} {name : String}
    {text : List Byte} {v : Value} (h : fs[i]? = some ⟨name, text, v⟩) : field (fields_value fs) name = v := by
  rw [field, fields_value, field_get hkeys (List.mem_of_getElem? h)]
  rfl

theorem get_at {fs : List Field} (hkeys : ((fs.map Field.name).map ascii).Nodup) {i : Nat} {name : String}
    {text : List Byte} {v : Value} (h : fs[i]? = some ⟨name, text, v⟩) :
    (fields_value fs).get (ascii name) = some v := by
  rw [fields_value, field_get hkeys (List.mem_of_getElem? h)]

theorem field_missing {fs : List Field} {name : String} (h : ascii name ∉ (fs.map Field.name).map ascii) :
    field (fields_value fs) name = .null := by
  rw [field, fields_value, field_get_none h]
  rfl

theorem rail_ok_of {rail : Value} {valid : Bool} {errors : Word} (hvalid : field rail "valid" = .bool valid)
    (herrors : field rail "errors" = .int errors.toNat)
    (hmeasured : ∀ m ∈ measurements, measured valid m.2.1 m.2.2 (field rail m.1) = true) : rail_ok rail = true := by
  have hrange : (errors.toNat : Int) ≤ 0xffffffff := by
    have hlt := errors.isLt
    omega
  rw [rail_ok, hvalid, herrors]
  simp only [Bool.and_eq_true, decide_eq_true_eq, List.all_eq_true]
  exact ⟨⟨Int.natCast_nonneg _, hrange⟩, hmeasured⟩

theorem measured_of_range {z low high : Int} (hrange : low ≤ z ∧ z ≤ high) : measured true low high (.int z) = true := by
  simp [measured, hrange]

/-- A rail as `power_json` prints it passes `validate_power`. -/
theorem rail_ok_power {s : ina700_sample} (hs : s.valid = true → s.InRange) (now : Word) :
    rail_ok (fields_value (power_fields s now)) = true := by
  have hkeys : (((power_fields s now).map Field.name).map ascii).Nodup := by
    rw [power_fields_names]
    decide
  unfold power_fields at hkeys ⊢
  split at hkeys
  next hstale =>
    rw [if_pos hstale]
    refine rail_ok_of (field_at hkeys (i := 0) rfl) (field_at hkeys (i := 6) rfl) ?_
    simp only [measurements, List.forall_mem_cons, field_at hkeys (i := 1) rfl, field_at hkeys (i := 2) rfl,
      field_at hkeys (i := 3) rfl, field_at hkeys (i := 4) rfl, field_at hkeys (i := 5) rfl]
    exact ⟨rfl, rfl, rfl, rfl, rfl, by simp⟩
  next hfresh =>
    rw [if_neg hfresh]
    simp only [Bool.or_eq_true, Bool.not_eq_true', decide_eq_true_eq, not_or, Bool.not_eq_false, gt_iff_lt,
      BitVec.not_lt] at hfresh
    obtain ⟨hvalid, hage⟩ := hfresh
    obtain ⟨hvoltage, hcurrent, hpower, htemp⟩ := hs hvalid
    have hage : (now - s.sampled_ms).toNat ≤ 3000 := BitVec.le_def.mp hage
    refine rail_ok_of (field_at hkeys (i := 0) rfl) (field_at hkeys (i := 6) rfl) ?_
    simp only [measurements, List.forall_mem_cons, field_at hkeys (i := 1) rfl, field_at hkeys (i := 2) rfl,
      field_at hkeys (i := 3) rfl, field_at hkeys (i := 4) rfl, field_at hkeys (i := 5) rfl]
    exact ⟨measured_of_range (by omega), measured_of_range hcurrent, measured_of_range (by omega),
      measured_of_range htemp, measured_of_range (by omega), by simp⟩

/-- The readings of sound statistics pass `validate_power`. -/
theorem validate_power_readings {s : miner_stats} (h : s.Sound) (now : Word) {item : Value}
    (hpower : field item "power" = fields_value (readings_fields s now)) : validate_power item = true := by
  have hkeys : (((readings_fields s now).map Field.name).map ascii).Nodup := by
    change (readings_names.map ascii).Nodup
    decide
  have hsource : field (fields_value (readings_fields s now)) "source" = .string (ascii "INA700") :=
    field_at hkeys (i := 0) rfl
  have hinternal := field_at hkeys (i := 1) rfl
  have hcore := field_at hkeys (i := 2) rfl
  have hdict (fs : List Field) : is_dict (fields_value fs) = true := rfl
  rw [validate_power, hpower]
  change (is_dict (fields_value (readings_fields s now)) && _ && _ && _ && _ && _) = true
  rw [hinternal, hcore, hsource, hdict, hdict, hdict, rail_ok_power h.internal_5v, rail_ok_power h.vccint]
  simp [equals_text]

/-- A share passes the filters of `Discovery.run`. -/
theorem submission_ok_share (s : Share) : submission_ok (share_value s) = true := by
  have hkeys : (((share_fields s).map Field.name).map ascii).Nodup := by
    change (["id", "method", "params"].map ascii).Nodup
    decide
  have hmethod : field (share_value s) "method" = .string (ascii "mining.submit") := field_at hkeys (i := 1) rfl
  have hparams := field_at hkeys (i := 2) rfl
  change field (share_value s) "params" = _ at hparams
  change (is_dict (share_value s) && _ && _) = true
  rw [hmethod, hparams]
  simp [is_dict, share_value, fields_value, equals_text, share_params]

theorem details_ok_event {e : miner_event} {submission : Value} (h : submission_ok submission = true) :
    details_ok (fields_value (details_fields e submission)) = true := by
  have hkeys : (((details_fields e submission).map Field.name).map ascii).Nodup := by
    change (details_names.map ascii).Nodup
    decide
  have hjob : text_or_missing (fields_value (details_fields e submission)) "job_id" = true := by
    rw [text_or_missing, get_at hkeys (i := 1) rfl]
    rfl
  have hhash : text_or_missing (fields_value (details_fields e submission)) "hash" = true := by
    rw [text_or_missing, get_at hkeys (i := 3) rfl]
    rfl
  have hsubmission := field_at hkeys (i := 2) rfl
  change (true && _ && _ && _) = true
  rw [hjob, hhash, hsubmission, h]
  rfl

/-- What the filters ask of an item besides its power readings. -/
theorem item_ok_of {item : Value} {mac event : List Byte} (hdict : is_dict item = true)
    (hprotocol : field item "protocol" = .string (ascii "SCU35/1")) (hmac : field item "mac" = .string mac)
    (hmac_length : mac.length = 17)
    (hnumbers : ∀ key ∈ ["seq", "event_seq", "uptime_ms", "temp_centi"], is_int (field item key) = true)
    (hevent : field item "event" = .string event) (hevent_length : event.length ≤ 63)
    (hcounters : ∀ key ∈ counters, absent_or_count (field item key) = true)
    (hjob : ∀ v, item.get (ascii "job_id") = some v → text_length v (· ≤ 127) = true)
    (hdetails : details_ok (field item "details") = true) (hpower : validate_power item = true) :
    item_ok item = true := by
  rw [item_ok, hdict, hprotocol, hmac, List.all_eq_true.mpr hnumbers, hevent, List.all_eq_true.mpr hcounters, hdetails,
    hpower]
  cases hget : item.get (ascii "job_id") with
  | none => simp [equals_text, text_length, hmac_length, hevent_length]
  | some v =>
    dsimp only
    rw [hjob v hget]
    simp [equals_text, text_length, hmac_length, hevent_length]

theorem event_name_length (name : EventName) : (ascii (event_name name)).length ≤ 63 := by
  cases name <;> decide

theorem count_nat (n : Nat) : absent_or_count (.int n) = true := decide_eq_true (Int.natCast_nonneg n)

theorem count_hashrate (valid : Bool) (n : Nat) : absent_or_count (if valid then .int n else .null) = true := by
  cases valid with
  | false => rfl
  | true => exact count_nat n

/-- A partial event packet passes the filters. -/
theorem item_ok_event {e : miner_event} {submission : Value} (h : submission_ok submission = true)
    (seq event_seq uptime : Word) (centi : Int) (mac : Vector Byte 6) :
    item_ok (fields_value (event_fields e submission seq event_seq uptime centi mac)) = true := by
  have hkeys : (((event_fields e submission seq event_seq uptime centi mac).map Field.name).map ascii).Nodup := by
    change (event_names.map ascii).Nodup
    decide
  have hmissing {name : String} (hname : ascii name ∉ event_names.map ascii) :
      field (fields_value (event_fields e submission seq event_seq uptime centi mac)) name = .null := by
    apply field_missing
    change ascii name ∉ event_names.map ascii
    exact hname
  refine item_ok_of rfl (field_at hkeys (i := 0) rfl) (field_at hkeys (i := 5) rfl) (mac_text_length mac) ?_
    (field_at hkeys (i := 4) rfl) (event_name_length _) ?_ ?_ ?_ ?_
  · simp only [List.forall_mem_cons, field_at hkeys (i := 2) rfl, field_at hkeys (i := 3) rfl,
      field_at hkeys (i := 6) rfl, field_at hkeys (i := 7) rfl]
    exact ⟨rfl, rfl, rfl, rfl, by simp⟩
  · intro key hkey
    have habsent : ∀ key ∈ counters, ascii key ∉ event_names.map ascii := by decide
    rw [hmissing (habsent key hkey)]
    rfl
  · intro v hget
    have habsent : ascii "job_id" ∉
        ((event_fields e submission seq event_seq uptime centi mac).map Field.name).map ascii := by
      change ascii "job_id" ∉ event_names.map ascii
      decide
    rw [fields_value, field_get_none habsent] at hget
    cases hget
  · rw [field_at hkeys (i := 8) rfl]
    exact details_ok_event h
  · rw [validate_power, hmissing (by decide)]

/-- A status packet passes the filters. -/
theorem item_ok_telemetry {s : miner_stats} (hs : s.Sound) {e : miner_event} {submission : Value}
    (h : submission_ok submission = true) (seq event_seq uptime : Word) (centi : Int) (mac : Vector Byte 6)
    (network phy : Bool) :
    item_ok (fields_value (telemetry_fields s e submission seq event_seq uptime centi mac network phy)) = true := by
  have hkeys : (((telemetry_fields s e submission seq event_seq uptime centi mac network phy).map Field.name).map
      ascii).Nodup := by
    change (telemetry_names.map ascii).Nodup
    decide
  refine item_ok_of rfl (field_at hkeys (i := 0) rfl) (field_at hkeys (i := 4) rfl) (mac_text_length mac) ?_
    (field_at hkeys (i := 3) rfl) (event_name_length _) ?_ ?_ ?_ ?_
  · simp only [List.forall_mem_cons, field_at hkeys (i := 1) rfl, field_at hkeys (i := 2) rfl,
      field_at hkeys (i := 5) rfl, field_at hkeys (i := 6) rfl]
    exact ⟨rfl, rfl, rfl, rfl, by simp⟩
  · simp only [counters, List.forall_mem_cons, field_at hkeys (i := 19) rfl, field_at hkeys (i := 21) rfl,
      field_at hkeys (i := 22) rfl, field_at hkeys (i := 23) rfl, field_at hkeys (i := 24) rfl,
      field_at hkeys (i := 25) rfl, field_at hkeys (i := 29) rfl, field_at hkeys (i := 28) rfl,
      field_at hkeys (i := 26) rfl]
    exact ⟨count_nat _, count_nat _, count_nat _, count_nat _, count_nat _, count_nat _, count_nat _, count_nat _,
      count_hashrate _ _, by simp⟩
  · intro v hget
    rw [get_at hkeys (i := 20) rfl] at hget
    cases hget
    exact decide_eq_true hs.job_id_length
  · rw [field_at hkeys (i := 31) rfl]
    exact details_ok_event h
  · exact validate_power_readings hs uptime (field_at hkeys (i := 30) rfl)

end scu35.miner_dashboard
