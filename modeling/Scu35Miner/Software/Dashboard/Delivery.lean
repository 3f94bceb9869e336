import Scu35Miner.Dashboard.Discovery.Accepts
import Scu35Miner.Software.Dashboard.Telemetry
import Scu35Miner.Software.Stratum.Pool

open fips180 rfc8259

namespace scu35.dashboard

open bitcoin json_helpers settings miner_protocol stratum ina700 miner_dashboard

/-- A string value of the JSON library has no quote without a backslash in
front of it. -/
def Unquoted (j : Json) : Prop :=
  ∀ b q v, j.search b q = .success v .JSONString → ∀ s t, v = s ++ 0x22 :: t → s.getLast? = some 0x5c

/-- A text that `json_string` stores into an array of `cap` characters. -/
def Stored (cap : Nat) (s : List Byte) : Prop := ∃ j b q, Unquoted j ∧ json_string j b q cap = some s

theorem plain_of_string_char {c : Byte} (hc : string_char c = true) (hquote : c ≠ 0x22) : plain c = true := by
  revert c
  decide

theorem Stored.fits {cap : Nat} {s : List Byte} (h : Stored cap s) : s.length < cap ∧ ∀ c ∈ s, plain c = true := by
  obtain ⟨j, b, q, hj, hs⟩ := h
  obtain ⟨hlength, hchars⟩ := json_string_fits hs
  refine ⟨hlength, fun c hc => plain_of_string_char (hchars c hc) ?_⟩
  rintro rfl
  obtain ⟨before, after, heq⟩ := List.append_of_mem hc
  have hfound : j.search b q = .success s .JSONString := by
    unfold json_string at hs
    split at hs
    next v hsearch =>
      split at hs
      · cases hs
      · cases hs
        exact hsearch
    next => cases hs
  have hlast := hj b q s hfound before after heq
  have hmem : (0x5c : Byte) ∈ s := by
    rw [heq]
    exact List.mem_append_left _ (List.mem_of_getLast? hlast)
  exact absurd (hchars _ hmem) (by decide)

/-- A text of the pool, or none yet. -/
def PoolText (cap : Nat) (s : List Byte) : Prop := s = [] ∨ Stored cap s

theorem PoolText.fits {cap : Nat} {s : List Byte} (h : PoolText (cap + 1) s) :
    s.length ≤ cap ∧ ∀ c ∈ s, plain c = true := by
  obtain rfl | h := h
  · exact ⟨Nat.zero_le cap, by simp⟩
  · exact ⟨Nat.le_of_lt_succ h.fits.1, h.fits.2⟩

/-- A power sample that is not valid, or one that `ina700_sample_read` made. -/
def PowerSample (s : ina700_sample) : Prop :=
  s.valid = false ∨ ∃ read out sampled_ms errors, s = { (ina700_sample_read read out).1 with sampled_ms, errors }

theorem PowerSample.inRange {s : ina700_sample} (h : PowerSample s) (hvalid : s.valid = true) : s.InRange := by
  obtain hinvalid | ⟨read, out, sampled_ms, errors, rfl⟩ := h
  · rw [hvalid] at hinvalid
    cases hinvalid
  · obtain ⟨hvoltage, hcurrent, hpower, htemp⟩ := ina700_sample_read_inRange read out hvalid
    exact ⟨hvoltage, hcurrent, hpower, htemp⟩

/-- A share as `service_results` formats it. -/
structure BuiltShare (s : Share) : Prop where
  worker : ∃ settings, settings_valid settings = true ∧ s.worker = c_string settings.worker
  job_id : PoolText 128 s.job_id
  extranonce2 : ∃ bytes : List Byte, bytes.length ≤ 16 ∧ s.extranonce2 = hex_encode bytes
  ntime : PoolText 9 s.ntime
  nonce : ∃ nonce, s.nonce = format_08lx nonce
  fits : s.line.length < 640

/-- An event that the firmware can build: one without a share, or one about a
share. -/
inductive BuiltEvent : miner_event → Prop
  | bare (name : EventName) {job_id : List Byte} (number : Word) (hjob : PoolText 128 job_id) :
    BuiltEvent ⟨name, job_id, [], [], number⟩
  | share (name : EventName) {share : Share} {digest : List Byte} (number : Word) (hshare : BuiltShare share)
    (hdigest : digest.length = 32) : BuiltEvent ⟨name, share.job_id, share.line, hex_encode digest, number⟩

/-- Statistics that the firmware can build; the counters are arbitrary. -/
structure BuiltStats (s : miner_stats) : Prop where
  job_id : PoolText 128 s.job_id
  internal_5v : PowerSample s.power.1
  vccint : PowerSample s.power.2

theorem BuiltStats.sound {s : miner_stats} (h : BuiltStats s) : s.Sound where
  job_id := h.job_id.fits.2
  job_id_length := h.job_id.fits.1
  internal_5v := h.internal_5v.inRange
  vccint := h.vccint.inRange

theorem plain_of_string_ok {s : List Byte} (h : string_ok s = true) : ∀ c ∈ s.takeWhile (· != 0), plain c = true := by
  have hchar : ∀ c : Byte, c ≠ 0 → (c < 32 || c > 126 || c == 0x22 || c == 0x5c) = false → plain c = true := by decide
  induction s with
  | nil => simp
  | cons c s ih =>
    rw [string_ok] at h
    split at h
    next hzero =>
      simp [hzero]
    next hzero =>
      split at h
      · cases h
      next hok =>
        have htake : (c :: s).takeWhile (· != 0) = c :: s.takeWhile (· != 0) :=
          List.takeWhile_cons_of_pos (bne_iff_ne.mpr hzero)
        rw [htake, List.forall_mem_cons]
        exact ⟨hchar c hzero (Bool.eq_false_of_not_eq_true hok), ih h⟩

theorem worker_plain {settings : miner_settings} (h : settings_valid settings = true) :
    ∀ c ∈ c_string settings.worker, plain c = true := by
  have hworker := ((settings_valid_iff settings).mp h).worker
  exact plain_of_string_ok hworker

theorem BuiltShare.plain {s : Share} (h : BuiltShare s) : PlainShare s where
  worker := by
    obtain ⟨settings, hvalid, hworker⟩ := h.worker
    rw [hworker]
    exact worker_plain hvalid
  job_id := h.job_id.fits.2
  extranonce2 := by
    obtain ⟨bytes, _, hextra⟩ := h.extranonce2
    rw [hextra]
    exact plain_hex_encode bytes
  ntime := h.ntime.fits.2
  nonce := by
    obtain ⟨nonce, hnonce⟩ := h.nonce
    rw [hnonce, format_08lx_eq]
    exact plain_hex_encode _

/-- The submission of an event, as the packets print it. -/
def submission_text (e : miner_event) : List Byte := if e.submission ≠ [] then e.submission else null_text

theorem BuiltEvent.printable {e : miner_event} (h : BuiltEvent e) :
    ∃ submission, Printable e submission 127 639 64 ∧ submission_ok submission = true := by
  cases h with
  | bare name number hjob =>
    refine ⟨.null, ⟨hjob.fits.2, hjob.fits.1, ?_, by simp, Nat.zero_le _⟩, rfl⟩
    exact null_within.mono (by decide)
  | @share name share digest number hshare hdigest =>
    have hreads := share_line_reads hshare.plain
    have hline : share.line ≠ [] := by
      obtain ⟨c, t, heq, _⟩ := hreads.head
      rw [heq]
      exact List.cons_ne_nil c t
    refine ⟨share_value share, ⟨hshare.job_id.fits.2, hshare.job_id.fits.1, ?_,
      plain_hex_encode digest, ?_⟩, submission_ok_share share⟩
    · dsimp only
      rw [if_pos hline]
      exact ⟨hreads, Nat.le_of_lt_succ hshare.fits⟩
    · rw [hex_encode_length, hdigest]

theorem status_printable : Printable status_event .null 0 4 0 :=
  ⟨by simp [status_event], Nat.le_refl 0, null_within, by simp [status_event], Nat.le_refl 0⟩

/-- The die temperature has at most five digits. -/
theorem temp_centi_digits (raw : Word) : (temp_centi raw).natAbs < 10 ^ 5 := by
  have hraw : (raw &&& 0xffff).toNat ≤ 65535 := by
    rw [BitVec.toNat_and]
    exact Nat.and_le_right
  unfold temp_centi
  generalize (raw &&& 0xffff).toNat = x at hraw ⊢
  have hquotient : x * 5013743 / 6553600 ≤ 50136 := by omega
  generalize x * 5013743 / 6553600 = q at hquotient ⊢
  omega

/-- The combined packet fits its buffer. If it is too long for a datagram, the
status packet and the partial event packet are not, and the latter has the
whole submission. -/
theorem packets_fit {s : miner_stats} (hs : BuiltStats s) {e : miner_event} (he : BuiltEvent e)
    (seq event_seq uptime raw : Word) (mac : Vector Byte 6) (network phy : Bool) :
    (miner_telemetry_json s e seq event_seq uptime (temp_centi raw) mac network phy).length < MINER_TELEMETRY_MAX ∧
      (miner_telemetry_json s status_event seq event_seq uptime (temp_centi raw) mac network phy).length ≤ 1472 ∧
      (miner_event_json e seq event_seq uptime (temp_centi raw) mac).length ≤ 1472 := by
  obtain ⟨submission, hprint, _⟩ := he.printable
  have hcombined := telemetry_within hs.sound hprint seq event_seq uptime (temp_centi_digits raw) mac network phy
  have hstatus := telemetry_within hs.sound status_printable seq event_seq uptime (temp_centi_digits raw) mac network phy
  have hevent := event_within hprint seq event_seq uptime (temp_centi_digits raw) mac
  refine ⟨Nat.lt_of_le_of_lt hcombined.length ?_, Nat.le_trans hstatus.length ?_, Nat.le_trans hevent.length ?_⟩
  all_goals decide

/-- A packet tells of an event: its name, its number and its details with the
value of the whole submission. -/
def Carries (message : List Byte) (e : miner_event) (event_seq : Word) : Prop :=
  ∃ item submission, loads message = some item ∧ field item "event" = .string (ascii (event_name e.name)) ∧
    field item "event_seq" = .int event_seq.toNat ∧
    field item "details" = fields_value (details_fields e submission) ∧ loads (submission_text e) = some submission

/-- A packet that fits a datagram, is accepted by the dashboard and tells of an
event. -/
structure Conveys (message : List Byte) (e : miner_event) (event_seq : Word) : Prop where
  accepted : miner_dashboard.accepts message = true
  carries : Carries message e event_seq

theorem telemetry_keys (s : miner_stats) (e : miner_event) (submission : Value) (seq event_seq uptime : Word)
    (centi : Int) (mac : Vector Byte 6) (network phy : Bool) :
    (((telemetry_fields s e submission seq event_seq uptime centi mac network phy).map Field.name).map ascii).Nodup := by
  change (telemetry_names.map ascii).Nodup
  decide

theorem accepts_of {message : List Byte} {item : Value} (hlength : message.length ≤ 1472)
    (hreads : Reads message item) (hok : item_ok item = true) : miner_dashboard.accepts message = true := by
  rw [miner_dashboard.accepts, hreads.loads]
  dsimp only
  rw [hok, Bool.and_true]
  exact decide_eq_true (Nat.le_trans hlength (by decide))

theorem telemetry_conveys {s : miner_stats} (hs : BuiltStats s) {e : miner_event} {submission : Value} {n l m : Nat}
    (h : Printable e submission n l m) (hok : submission_ok submission = true) (seq event_seq uptime raw : Word)
    (mac : Vector Byte 6) (network phy : Bool)
    (hlength : (miner_telemetry_json s e seq event_seq uptime (temp_centi raw) mac network phy).length ≤ 1472) :
    Conveys (miner_telemetry_json s e seq event_seq uptime (temp_centi raw) mac network phy) e event_seq := by
  have hwithin := telemetry_within hs.sound h seq event_seq uptime (temp_centi_digits raw) mac network phy
  have hkeys := telemetry_keys s e submission seq event_seq uptime (temp_centi raw) mac network phy
  refine ⟨accepts_of hlength hwithin.reads (item_ok_telemetry hs.sound hok _ _ _ _ _ _ _), _, submission,
    hwithin.reads.loads, ?_, ?_, ?_, h.submission.reads.loads⟩
  · exact field_at hkeys (i := 3) rfl
  · exact field_at hkeys (i := 2) rfl
  · exact field_at hkeys (i := 31) rfl

theorem event_conveys {e : miner_event} {submission : Value} {n l m : Nat} (h : Printable e submission n l m)
    (hok : submission_ok submission = true) (seq event_seq uptime raw : Word) (mac : Vector Byte 6)
    (hlength : (miner_event_json e seq event_seq uptime (temp_centi raw) mac).length ≤ 1472) :
    Conveys (miner_event_json e seq event_seq uptime (temp_centi raw) mac) e event_seq := by
  have hwithin := event_within h seq event_seq uptime (temp_centi_digits raw) mac
  have hkeys : (((event_fields e submission seq event_seq uptime (temp_centi raw) mac).map Field.name).map
      ascii).Nodup := by
    change (event_names.map ascii).Nodup
    decide
  refine ⟨accepts_of hlength hwithin.reads (item_ok_event hok _ _ _ _ _), _, submission, hwithin.reads.loads, ?_, ?_, ?_,
    h.submission.reads.loads⟩
  · exact field_at hkeys (i := 4) rfl
  · exact field_at hkeys (i := 3) rfl
  · exact field_at hkeys (i := 8) rfl

theorem recipients_sweep (p : Pass) (discovery : Bool) (clients : List Client) :
    recipients p discovery (sweep p.now clients) = recipients p discovery clients := by
  have hfilter : ((sweep p.now clients).filter fun c => c.used && !stale p.now c) =
      clients.filter fun c => c.used && !stale p.now c := by
    induction clients with
    | nil => rfl
    | cons c clients ih =>
      have ih : (clients.map fun c => if c.used && stale p.now c then { c with used := false } else c).filter
          (fun c => c.used && !stale p.now c) = clients.filter fun c => c.used && !stale p.now c := ih
      rw [sweep, List.map_cons, List.filter_cons, List.filter_cons, ih]
      by_cases hused : c.used = true
      · by_cases hstale : stale p.now c = true
        · simp [hused, hstale]
        · simp [hused, hstale]
      · simp [hused]
  rw [recipients, recipients, hfilter]

theorem send_parts_sent (p : Pass) (discovery : Bool) (parts : List (List Byte)) (clients : List Client) :
    ∀ d ∈ (send_parts p discovery parts clients).1, d.message ∈ parts := by
  induction parts generalizing clients with
  | nil => simp [send_parts]
  | cons message parts ih =>
    intro d hd
    rw [send_parts] at hd
    split at hd
    · exact List.mem_cons_of_mem _ (ih _ d hd)
    · obtain hd | hd := List.mem_append.mp hd
      · obtain ⟨peer, _, rfl⟩ := List.mem_map.mp hd
        exact List.mem_cons_self
      · exact List.mem_cons_of_mem _ (ih _ d hd)

/-- Every part that fits a datagram goes to every recipient. -/
theorem send_parts_reach (p : Pass) (discovery : Bool) (parts : List (List Byte)) (clients : List Client) {peer : Peer}
    (hpeer : peer ∈ recipients p discovery clients) {message : List Byte} (hmessage : message ∈ parts)
    (hpos : 0 < message.length) (hlength : message.length ≤ 1472) :
    ⟨peer, message⟩ ∈ (send_parts p discovery parts clients).1 := by
  induction parts generalizing clients with
  | nil => cases hmessage
  | cons first parts ih =>
    rw [send_parts]
    obtain rfl | hrest := List.mem_cons.mp hmessage
    · rw [if_neg (by simp only [Bool.or_eq_true, decide_eq_true_eq]; omega)]
      exact List.mem_append_left _ (List.mem_map.mpr ⟨peer, hpeer, rfl⟩)
    · split
      · exact ih clients hpeer hrest
      · refine List.mem_append_right _ (ih _ ?_ hrest)
        rw [recipients_sweep]
        exact hpeer

theorem sample_rate_keeps (p : Pass) (b : Broadcaster) {s : miner_stats} (h : BuiltStats s) :
    BuiltStats (sample_rate p b s).2 ∧ (sample_rate p b s).1.clients = b.clients ∧
      (sample_rate p b s).1.event_seq = b.event_seq := by
  unfold sample_rate
  split
  · exact ⟨⟨h.job_id, h.internal_5v, h.vccint⟩, rfl, rfl⟩
  · exact ⟨h, rfl, rfl⟩

theorem miner_telemetry_json_pos (s : miner_stats) (e : miner_event) (seq event_seq uptime : Word) (centi : Int)
    (mac : Vector Byte 6) (network phy : Bool) :
    0 < (miner_telemetry_json s e seq event_seq uptime centi mac network phy).length := by
  rw [miner_telemetry_json, object, List.length_append, List.length_append, ascii_length]
  change 0 < 1 + _ + _
  omega

/-- The parts of a packet about an event: the combined packet if a datagram
holds it, else a status packet and the event. -/
structure Parts (parts : List (List Byte)) (e : miner_event) (event_seq : Word) : Prop where
  fit : ∀ message ∈ parts, message.length ≤ 1472 ∧ miner_dashboard.accepts message = true
  carry : ∃ message ∈ parts, 0 < message.length ∧ Carries message e event_seq

theorem Conveys.pos {message : List Byte} {e : miner_event} {event_seq : Word} (h : Conveys message e event_seq) :
    0 < message.length := by
  obtain ⟨item, _, hloads, _⟩ := h.carries
  cases message with
  | nil => cases hloads
  | cons c message => exact Nat.zero_lt_succ _

theorem combined_parts {s : miner_stats} (hs : BuiltStats s) {e : miner_event} (he : BuiltEvent e)
    (seq event_seq uptime raw : Word) (mac : Vector Byte 6) (network phy : Bool)
    (hlength : (miner_telemetry_json s e seq event_seq uptime (temp_centi raw) mac network phy).length ≤ 1472) :
    Parts [miner_telemetry_json s e seq event_seq uptime (temp_centi raw) mac network phy] e event_seq := by
  obtain ⟨submission, hprint, hok⟩ := he.printable
  have hconveys := telemetry_conveys hs hprint hok seq event_seq uptime raw mac network phy hlength
  constructor
  · intro message hmessage
    rw [List.mem_singleton.mp hmessage]
    exact ⟨hlength, hconveys.accepted⟩
  · exact ⟨_, List.mem_singleton_self _, hconveys.pos, hconveys.carries⟩

theorem split_parts {s : miner_stats} (hs : BuiltStats s) {e : miner_event} (he : BuiltEvent e)
    (seq seq' event_seq uptime raw : Word) (mac : Vector Byte 6) (network phy : Bool) :
    Parts [miner_telemetry_json s status_event seq event_seq uptime (temp_centi raw) mac network phy,
      miner_event_json e seq' event_seq uptime (temp_centi raw) mac] e event_seq := by
  obtain ⟨submission, hprint, hok⟩ := he.printable
  obtain ⟨_, hstatus, _⟩ := packets_fit hs he seq event_seq uptime raw mac network phy
  obtain ⟨_, _, hevent⟩ := packets_fit hs he seq' event_seq uptime raw mac network phy
  have hfirst := telemetry_conveys hs status_printable rfl seq event_seq uptime raw mac network phy hstatus
  have hsecond := event_conveys hprint hok seq' event_seq uptime raw mac hevent
  constructor
  · simp only [List.forall_mem_cons]
    exact ⟨⟨hstatus, hfirst.accepted⟩, ⟨hevent, hsecond.accepted⟩, by simp⟩
  · exact ⟨_, List.mem_cons_of_mem _ (List.mem_singleton_self _), hsecond.pos, hsecond.carries⟩

/-- A pass sends nothing if no event waits, or the parts of the packet about the
event that it takes. -/
theorem broadcast_pass_parts (mac : Vector Byte 6) (p : Pass) (b : Broadcaster) {t : Telemetry}
    (hstats : BuiltStats t.stats) (hevents : ∀ e ∈ t.events, BuiltEvent e) :
    t.events = [] ∧ (broadcast_pass mac p b t).1 = [] ∨
      ∃ parts, Parts parts (t.events.headD status_event) (broadcast_pass mac p b t).2.1.event_seq ∧
        (broadcast_pass mac p b t).1 =
          (send_parts p (p.requests "SCU35_DISCOVER/1") parts (subscribe p b.clients)).1 := by
  have hkeep := sample_rate_keeps p { b with clients := subscribe p b.clients } hstats
  have hevent : BuiltEvent (t.events.headD status_event) := by
    cases hqueue : t.events with
    | nil => exact .bare .status 0 (.inl rfl)
    | cons e events => exact hevents e (by simp [hqueue])
  unfold broadcast_pass
  dsimp only
  generalize sample_rate p { b with clients := subscribe p b.clients } t.stats = r at hkeep ⊢
  obtain ⟨b', stats⟩ := r
  obtain ⟨hbuilt, hclients, _⟩ := hkeep
  dsimp only at hbuilt hclients ⊢
  generalize hnumber : (if t.events ≠ [] then _ else b' : Broadcaster) = b''
  have hclients : b''.clients = subscribe p b.clients := by
    rw [← hnumber]
    split
    · exact hclients
    · exact hclients
  obtain ⟨hfits, _⟩ := packets_fit hbuilt hevent (b''.seq + 1) b''.event_seq (p.now * portTICK_PERIOD_MS) p.raw mac
    p.network_up p.phy_known
  have hpos := miner_telemetry_json_pos stats (t.events.headD status_event) (b''.seq + 1) b''.event_seq
    (p.now * portTICK_PERIOD_MS) (temp_centi p.raw) mac p.network_up p.phy_known
  split
  next hquiet =>
    left
    simp only [Bool.and_eq_true, Bool.not_eq_true', decide_eq_false_iff_not, not_not] at hquiet
    exact ⟨hquiet.1.2, rfl⟩
  next =>
    right
    rw [if_neg (by simp only [Bool.or_eq_true, decide_eq_true_eq]; omega)]
    split
    next hlong =>
      have hparts := split_parts hbuilt hevent (b''.seq + 1 + 1) (b''.seq + 1 + 2) b''.event_seq
        (p.now * portTICK_PERIOD_MS) p.raw mac p.network_up p.phy_known
      exact ⟨_, hparts, by rw [← hclients]⟩
    next hshort =>
      have hparts := combined_parts hbuilt hevent (b''.seq + 1) b''.event_seq (p.now * portTICK_PERIOD_MS) p.raw mac
        p.network_up p.phy_known (Nat.le_of_not_lt hshort)
      exact ⟨_, hparts, by rw [← hclients]⟩

theorem event_holds_submission (e : miner_event) (seq event_seq uptime : Word) (centi : Int) (mac : Vector Byte 6) :
    e.submission <:+: miner_event_json e seq event_seq uptime centi mac := by
  have hdetails : details_json e <:+: miner_event_json e seq event_seq uptime centi mac :=
    object_holds (List.mem_of_getElem? (i := 8) rfl)
  have hsubmission : submission_text e <:+: details_json e := object_holds (List.mem_of_getElem? (i := 2) rfl)
  refine List.IsInfix.trans ?_ (hsubmission.trans hdetails)
  unfold submission_text
  split
  · exact List.infix_refl _
  next hempty =>
    rw [not_not.mp hempty]
    exact List.nil_infix

/-- Telemetry reaches the wire whole and is accepted by the dashboard: a packet
fits its buffer, what is too long for a datagram is split into two that are
not, and every datagram of a pass passes the filters. An event taken from the
queue reaches every recipient with its complete submission. -/
theorem telemetry_delivered {t : Telemetry} (hstats : BuiltStats t.stats) (hevents : ∀ e ∈ t.events, BuiltEvent e) :
    (∀ e, BuiltEvent e → ∀ (seq event_seq uptime raw : Word) (mac : Vector Byte 6) (network phy : Bool),
      let combined := miner_telemetry_json t.stats e seq event_seq uptime (temp_centi raw) mac network phy
      let status (seq : Word) :=
        miner_telemetry_json t.stats status_event seq event_seq uptime (temp_centi raw) mac network phy
      let event (seq : Word) := miner_event_json e seq event_seq uptime (temp_centi raw) mac
      combined.length < MINER_TELEMETRY_MAX ∧
        (1472 < combined.length → (status (seq + 1)).length ≤ 1472 ∧ (event (seq + 2)).length ≤ 1472 ∧
          e.submission <:+: event (seq + 2) ∧ Carries (event (seq + 2)) e event_seq)) ∧
    ∀ (mac : Vector Byte 6) (p : Pass) (b : Broadcaster),
      let r := broadcast_pass mac p b t
      (∀ d ∈ r.1, d.message.length ≤ 1472 ∧ miner_dashboard.accepts d.message = true) ∧
        ∀ e, t.events.head? = some e →
          ∀ peer ∈ recipients p (p.requests "SCU35_DISCOVER/1") (subscribe p b.clients),
            ∃ d ∈ r.1, d.peer = peer ∧ Carries d.message e r.2.1.event_seq := by
  constructor
  · intro e he seq event_seq uptime raw mac network phy
    obtain ⟨hcombined, _, _⟩ := packets_fit hstats he seq event_seq uptime raw mac network phy
    obtain ⟨_, hstatus, _⟩ := packets_fit hstats he (seq + 1) event_seq uptime raw mac network phy
    obtain ⟨_, _, hevent⟩ := packets_fit hstats he (seq + 2) event_seq uptime raw mac network phy
    obtain ⟨submission, hprint, hok⟩ := he.printable
    refine ⟨hcombined, fun _ => ⟨hstatus, hevent, event_holds_submission e _ _ _ _ _, ?_⟩⟩
    exact (event_conveys hprint hok (seq + 2) event_seq uptime raw mac hevent).carries
  · intro mac p b
    dsimp only
    obtain ⟨hidle, hnothing⟩ | ⟨parts, hparts, hsent⟩ := broadcast_pass_parts mac p b hstats hevents
    · rw [hnothing]
      refine ⟨by simp, fun e he => ?_⟩
      rw [hidle] at he
      cases he
    · constructor
      · intro d hd
        rw [hsent] at hd
        exact hparts.fit d.message (send_parts_sent _ _ _ _ d hd)
      · intro e he peer hpeer
        have hhead : t.events.headD status_event = e := by rw [List.headD_eq_head?_getD, he, Option.getD_some]
        obtain ⟨message, hmessage, hpos, hcarries⟩ := hparts.carry
        rw [hhead] at hcarries
        refine ⟨⟨peer, message⟩, ?_, rfl, hcarries⟩
        rw [hsent]
        exact send_parts_reach _ _ _ _ hpeer hmessage hpos (hparts.fit message hmessage).1

def sample_line : List Byte := ascii "\x7b\"params\":[\"7f\",\"5f5e1000\"]\x7d"

/-- A library that finds the two strings of the line above. -/
def sample_reader : Json where
  validate := fun line => line = sample_line
  search := fun line query =>
    if line = sample_line && query = "params[0]" then .success (ascii "7f") .JSONString
    else if line = sample_line && query = "params[1]" then .success (ascii "5f5e1000") .JSONString
    else .not_found

theorem sample_reader_unquoted : Unquoted sample_reader := by
  intro b q v hfound s t heq
  have hvalue : v = ascii "7f" ∨ v = ascii "5f5e1000" := by
    unfold sample_reader at hfound
    dsimp only at hfound
    split at hfound
    · cases hfound
      exact .inl rfl
    · split at hfound
      · cases hfound
        exact .inr rfl
      · cases hfound
  have hquote : (0x22 : Byte) ∈ v := by simp [heq]
  obtain rfl | rfl := hvalue
  · exact absurd hquote (by decide)
  · exact absurd hquote (by decide)

def worker_settings : miner_settings := { settings_defaults with worker := store_string settings_defaults.worker (ascii "me.1") }

def sample_share : Share :=
  ⟨4, c_string worker_settings.worker, ascii "7f", hex_encode [0, 0, 0, 0], ascii "5f5e1000", format_08lx 9⟩

def sample_event : miner_event :=
  ⟨.solution_submitted, sample_share.job_id, sample_share.line, hex_encode (List.replicate 32 0), 1⟩

def sample_telemetry : Telemetry where
  stats := ⟨ascii "7f", 1, 1, 0, 0, 0, 0, 0, 0, 1, 0x01020000, 0, 0, true, true, true, false,
    ⟨false, 0, 0, 0, 0, 0, 0⟩, ⟨false, 0, 0, 0, 0, 0, 0⟩⟩
  events := [sample_event]

def sample_pass : Pass := ⟨some (⟨0x0100a8c0, 5000⟩, ascii "SCU35_DISCOVER/1"), 100, 0, 0x9d00, true, true⟩

def sample_broadcaster : Broadcaster := ⟨List.replicate 4 ⟨⟨0, 0⟩, 0, false⟩, 0, 0, 0, 0, 0, false⟩

/-- A submitted share reaches a discoverer. -/
theorem sample_share_delivered :
    ∃ d ∈ (broadcast_pass #v[2, 0, 0, 0x11, 0x22, 0x33] sample_pass sample_broadcaster sample_telemetry).1,
      miner_dashboard.accepts d.message = true ∧ Carries d.message sample_event
        (broadcast_pass #v[2, 0, 0, 0x11, 0x22, 0x33] sample_pass sample_broadcaster sample_telemetry).2.1.event_seq := by
  have hjob : PoolText 128 (ascii "7f") := .inr ⟨sample_reader, sample_line, "params[0]", sample_reader_unquoted,
    by decide⟩
  have htime : PoolText 9 (ascii "5f5e1000") := .inr ⟨sample_reader, sample_line, "params[1]", sample_reader_unquoted,
    by decide⟩
  have hshare : BuiltShare sample_share := ⟨⟨worker_settings, by decide, rfl⟩, hjob,
    ⟨[0, 0, 0, 0], by decide, rfl⟩, htime, ⟨9, rfl⟩, by decide⟩
  have hstats : BuiltStats sample_telemetry.stats := ⟨hjob, .inl rfl, .inl rfl⟩
  have hevents : ∀ e ∈ sample_telemetry.events, BuiltEvent e := by
    intro e he
    rw [List.mem_singleton.mp he]
    exact .share .solution_submitted 1 hshare (by decide)
  obtain ⟨haccepted, hcarried⟩ := (telemetry_delivered hstats hevents).2 #v[2, 0, 0, 0x11, 0x22, 0x33] sample_pass
    sample_broadcaster
  obtain ⟨d, hd, _, hcarries⟩ := hcarried sample_event rfl ⟨0x0100a8c0, 5000⟩ (by decide)
  exact ⟨d, hd, (haccepted d hd).2, hcarries⟩

end scu35.dashboard
