import Scu35Miner.Dashboard.Settings.Profile
import Scu35Miner.Software.Json.Standard

open fips180 rfc8259

namespace scu35.miner_dashboard

open bitcoin json_helpers settings miner_protocol python

theorem six_octets (octets : List Byte) (h : octets.length = 6) : ∃ a b c d e f, octets = [a, b, c, d, e, f] := by
  rcases octets with _ | ⟨a, _ | ⟨b, _ | ⟨c, _ | ⟨d, _ | ⟨e, _ | ⟨f, _ | _⟩⟩⟩⟩⟩⟩
  all_goals simp at h
  exact ⟨a, b, c, d, e, f, rfl⟩

/-- The text of six bytes. -/
def colon_text (a b c d e f : Byte) : List Byte :=
  hex_encode [a] ++ ascii ":" ++ hex_encode [b] ++ ascii ":" ++ hex_encode [c] ++ ascii ":" ++ hex_encode [d] ++ ascii ":" ++
    hex_encode [e] ++ ascii ":" ++ hex_encode [f]

theorem mac_text_eq {mac : Vector Byte 6} {a b c d e f : Byte} (h : mac.toList = [a, b, c, d, e, f]) :
    mac_text mac = colon_text a b c d e f := by
  obtain ⟨⟨octets⟩, hsize⟩ := mac
  change octets = _ at h
  subst h
  rfl

theorem decode_append (s t : List Byte) : decode (s ++ t) = decode s ++ decode t := List.map_append

/-- Both sides print an address alike. -/
theorem hex_colons_eq (mac : Vector Byte 6) : hex_colons mac.toList = decode (mac_text mac) := by
  obtain ⟨a, b, c, d, e, f, hoctets⟩ := six_octets mac.toList (by simp)
  have hcolon : decode (ascii ":") = [0x3a] := by decide
  rw [mac_text_eq hoctets, hoctets, colon_text]
  simp only [hex_colons, List.map_cons, List.map_nil, List.intercalate_cons_cons, List.intercalate_singleton,
    decode_append, hcolon, List.append_assoc]

/-- The characters of a byte are read as the byte. -/
theorem hex_encode_digits (b : Byte) : ∃ x y v w, hex_encode [b] = [x, y] ∧ hex_digit x = some v ∧ hex_digit y = some w ∧
    v * 16 + w = b := by
  have hdigits : ∀ b : Byte, hex_digit (hex_char (b >>> 4)) = some (b >>> 4) ∧
      hex_digit (hex_char (b &&& 15)) = some (b &&& 15) ∧ (b >>> 4) * 16 + (b &&& 15) = b := by decide
  exact ⟨hex_char (b >>> 4), hex_char (b &&& 15), b >>> 4, b &&& 15, rfl, hdigits b⟩

theorem parse_octets_colon (n : Nat) (b : Byte) (rest : List Byte) :
    parse_octets (n + 1) (hex_encode [b] ++ (ascii ":" ++ rest)) = (parse_octets n rest).map (b :: ·) := by
  obtain ⟨x, y, v, w, hchars, hx, hy, rfl⟩ := hex_encode_digits b
  have htext : hex_encode [v * 16 + w] ++ (ascii ":" ++ rest) = x :: y :: 0x3a :: rest := by
    rw [hchars]
    rfl
  rw [htext, parse_octets]
  simp only [List.getD_cons_zero, List.getD_cons_succ, hx, hy]
  cases h : parse_octets n rest <;> simp [h]

theorem parse_octets_last (b : Byte) : parse_octets 1 (hex_encode [b]) = some [b] := by
  obtain ⟨x, y, v, w, hchars, hx, hy, rfl⟩ := hex_encode_digits b
  rw [hchars, parse_octets]
  simp [hx, hy, parse_octets]

/-- A printed address is read as the address. -/
theorem parse_mac_text (mac : Vector Byte 6) : parse_mac (mac_text mac) = some mac := by
  obtain ⟨a, b, c, d, e, f, hlist⟩ := six_octets mac.toList (by simp)
  have hoctets : parse_octets 6 (mac_text mac) = some [a, b, c, d, e, f] := by
    rw [mac_text_eq hlist, colon_text]
    simp only [List.append_assoc]
    rw [parse_octets_colon, parse_octets_colon, parse_octets_colon, parse_octets_colon, parse_octets_colon,
      parse_octets_last]
    rfl
  rw [parse_mac, mac_text_length, if_neg (by decide), hoctets]
  refine congrArg some (Vector.toList_inj.mp ?_)
  rw [hlist]
  rfl

theorem plain_of_setting_char {c : Byte} (h : setting_char c = true) : plain c = true := by
  revert c
  decide

theorem string_char_of_setting_char {c : Byte} (h : setting_char c = true) : string_char c = true := by
  revert c
  decide

theorem dumps_setting {s : List Byte} (h : ∀ c ∈ s, setting_char c = true) : dumps (.str (decode s)) = quoted s := by
  rw [dumps_str (printable_decode h), encode_decode]

theorem hex_setting_char (b : Byte) : ∀ c ∈ hex_encode [b], setting_char c = true := by
  have hchar : ∀ b : Byte, setting_char (hex_char (b >>> 4)) = true ∧ setting_char (hex_char (b &&& 15)) = true := by
    decide
  intro c hc
  obtain rfl | rfl := List.mem_pair.mp hc
  · exact (hchar b).1
  · exact (hchar b).2

theorem mac_text_chars (mac : Vector Byte 6) : ∀ c ∈ mac_text mac, setting_char c = true := by
  obtain ⟨a, b, c, d, e, f, hlist⟩ := six_octets mac.toList (by simp)
  have hcolon : ∀ c ∈ ascii ":", setting_char c = true := by decide
  rw [mac_text_eq hlist]
  simp only [colon_text, List.forall_mem_append]
  exact ⟨⟨⟨⟨⟨⟨⟨⟨⟨⟨hex_setting_char a, hcolon⟩, hex_setting_char b⟩, hcolon⟩, hex_setting_char c⟩, hcolon⟩,
    hex_setting_char d⟩, hcolon⟩, hex_setting_char e⟩, hcolon⟩, hex_setting_char f⟩

namespace Profile

/-- The members of the request. -/
def fields (p : Profile) : List (String × Scalar) :=
  [("command", .string (ascii "configure")), ("mac", .string (mac_text p.mac)), ("port", .number p.port.toNat),
    ("host", .string p.host), ("worker", .string p.worker)] ++ (p.password.map fun s => ("password", .string s)).toList

theorem host_setting (p : Profile) : ∀ c ∈ p.host, setting_char c = true := fun c hc => setting_char_of_host (p.host_chars c hc)

theorem forall_fields {p : Profile} {P : String × Scalar → Prop} (hcommand : P ("command", .string (ascii "configure")))
    (hmac : P ("mac", .string (mac_text p.mac))) (hport : P ("port", .number p.port.toNat))
    (hhost : P ("host", .string p.host)) (hworker : P ("worker", .string p.worker))
    (hpassword : ∀ s ∈ p.password, P ("password", .string s)) : ∀ f ∈ p.fields, P f := by
  have hlast : ∀ f ∈ (p.password.map fun s => (("password", .string s) : String × Scalar)).toList, P f := by
    intro f hf
    obtain ⟨s, hs, rfl⟩ := Option.map_eq_some_iff.mp (Option.mem_toList.mp hf)
    exact hpassword s hs
  rw [fields, List.forall_mem_append]
  refine ⟨?_, hlast⟩
  simp only [List.forall_mem_cons]
  exact ⟨hcommand, hmac, hport, hhost, hworker, by simp⟩

theorem names_cases (p : Profile) :
    p.password = none ∧ p.fields.map (·.1) = ["command", "mac", "port", "host", "worker"] ∨
      p.password.isSome = true ∧ p.fields.map (·.1) = ["command", "mac", "port", "host", "worker", "password"] := by
  unfold fields
  cases p.password with
  | none => exact .inl ⟨rfl, rfl⟩
  | some s => exact .inr ⟨rfl, rfl⟩

theorem names_ascii (p : Profile) : p.fields.map (fun f => ascii f.1) = (p.fields.map (·.1)).map ascii := by
  rw [List.map_map]
  rfl

theorem flat (p : Profile) : Flat p.fields where
  nonempty := by simp [fields]
  names := by
    have hall : ∀ name ∈ p.fields.map (·.1), simple_name name = true := by
      obtain ⟨_, hnames⟩ | ⟨_, hnames⟩ := p.names_cases
      all_goals
        rw [hnames]
        decide
    exact fun f hf => hall f.1 (List.mem_map_of_mem hf)
  nodup := by
    rw [names_ascii]
    obtain ⟨_, hnames⟩ | ⟨_, hnames⟩ := p.names_cases
    all_goals
      rw [hnames]
      decide
  plain := forall_fields (P := fun f => f.2.Plain) (fun c hc => by revert c; decide)
    (fun c hc => plain_of_setting_char (mac_text_chars p.mac c hc)) trivial
    (fun c hc => plain_of_setting_char (p.host_setting c hc)) (fun c hc => plain_of_setting_char (p.worker_chars c hc))
    fun s hs c hc => plain_of_setting_char (p.password_chars s hs c hc)

theorem request_text (p : Profile) :
    (p.request.map fun f => (f.1, dumps f.2)) = p.fields.map fun f => (f.1, f.2.text) := by
  have hcommand : dumps (.str (text "configure")) = quoted (ascii "configure") := by
    rw [dumps_str (by decide), encode_text]
  have hmac : dumps (.str (hex_colons p.mac.toList)) = quoted (mac_text p.mac) := by
    rw [hex_colons_eq, dumps_setting (mac_text_chars p.mac)]
  have hport : dumps (.int (p.port.toNat : Int)) = decimal p.port.toNat := by
    rw [dumps, signed_decimal, if_neg (by omega), Int.toNat_natCast]
  have hhost := dumps_setting p.host_setting
  have hworker := dumps_setting p.worker_chars
  have hpassword : ((p.password.map fun s => (("password", .str (decode s)) : String × Object)).toList.map
      fun f => (f.1, dumps f.2)) = (p.password.map fun s => (("password", .string s) : String × Scalar)).toList.map
      fun f => (f.1, f.2.text) := by
    cases hp : p.password with
    | none => rfl
    | some s => exact congrArg (fun t => [("password", t)]) (dumps_setting (p.password_chars s hp))
  rw [request, configure_request, fields, List.map_append, List.map_append]
  simp only [List.map_cons, List.map_nil, Option.map_map, hcommand, hmac, hport, hhost, hworker]
  exact congrArg (_ ++ ·) hpassword

theorem payload_eq (p : Profile) : payload p.request = flat_text p.fields ++ ascii "\n" := by
  have hsame : p.request.map (·.1) = p.fields.map (·.1) := by
    have htext := congrArg (List.map Prod.fst) p.request_text
    rwa [List.map_map, List.map_map] at htext
  have hall : ∀ name ∈ p.request.map (·.1), ∀ c ∈ text name, Printable c := by
    rw [hsame]
    obtain ⟨_, hnames⟩ | ⟨_, hnames⟩ := p.names_cases
    all_goals
      rw [hnames]
      decide
  have hnames : ∀ f ∈ p.request, ∀ c ∈ text f.1, Printable c := fun f hf => hall f.1 (List.mem_map_of_mem hf)
  rw [payload, dumps_dict hnames, request_text, flat_text]

/-- A request fits into the line of the miner. -/
theorem fields_length (p : Profile) : (flat_text p.fields).length ≤ 383 := by
  have hfirst {l : List (String × Scalar)} {bounds : List Nat}
      (h : List.Forall₂ (fun f bound => f.2.text.length ≤ bound) l bounds) :
      List.Forall₂ (fun (f : String × Scalar) bound => f.2.text.length ≤ bound)
        ([("command", .string (ascii "configure")), ("mac", .string (mac_text p.mac)), ("port", .number p.port.toNat),
          ("host", .string p.host), ("worker", .string p.worker)] ++ l) ([11, 19, 5, 97, 129] ++ bounds) :=
    .cons (Scalar.string_length (by decide)) <| .cons (Scalar.string_length (mac_text_length p.mac).le) <|
      .cons (Scalar.port_length p.port) <| .cons (Scalar.string_length p.host_length) <|
      .cons (Scalar.string_length p.worker_length) h
  have hflat := p.flat
  have hpassword := p.password_length
  unfold fields at hflat ⊢
  cases hp : p.password with
  | none =>
    have hbound : object_bound ["command", "mac", "port", "host", "worker"] [11, 19, 5, 97, 129] ≤ 383 := by decide
    rw [hp] at hflat
    exact Nat.le_trans (hflat.length (hfirst .nil)) hbound
  | some s =>
    have hbound : object_bound ["command", "mac", "port", "host", "worker", "password"] [11, 19, 5, 97, 129, 65] ≤ 383 := by
      decide
    rw [hp] at hflat
    exact Nat.le_trans (hflat.length (hfirst (.cons (Scalar.string_length (hpassword s hp)) .nil))) hbound

/-- The password after the request: the one before it if it has none. -/
def next_password (p : Profile) (current : Vector Byte 64) : Vector Byte 64 :=
  match p.password with
  | none => current
  | some s => store_string current s

/-- The settings after the request. -/
def next (p : Profile) (current : miner_settings) : miner_settings :=
  merged current p.mac p.host p.worker (BitVec.ofNat 32 p.port.toNat) (p.next_password current.password)

theorem mem_fields (p : Profile) : ("command", .string (ascii "configure")) ∈ p.fields ∧
    ("mac", .string (mac_text p.mac)) ∈ p.fields ∧ ("port", .number p.port.toNat) ∈ p.fields ∧
    ("host", .string p.host) ∈ p.fields ∧ ("worker", .string p.worker) ∈ p.fields ∧
    ∀ s ∈ p.password, ("password", .string s) ∈ p.fields := by
  refine ⟨by simp [fields], by simp [fields], by simp [fields], by simp [fields], by simp [fields], ?_⟩
  intro s hs
  refine List.mem_append_right _ (Option.mem_toList.mpr ?_)
  exact Option.map_eq_some_iff.mpr ⟨s, hs, rfl⟩

theorem parse_password_eq {j : Json} (hj : Standard j) (p : Profile) (current : Vector Byte 64) :
    parse_password j (flat_text p.fields) current = some (p.next_password current) := by
  unfold parse_password next_password
  cases hp : p.password with
  | none =>
    have hmissing : ascii "password" ∉ p.fields.map fun f => ascii f.1 := by
      obtain ⟨_, hnames⟩ | ⟨hsome, _⟩ := p.names_cases
      · rw [names_ascii, hnames]
        decide
      · rw [hp] at hsome
        cases hsome
    rw [hj.missing p.flat (by decide) hmissing]
  | some s =>
    have hmem := p.mem_fields.2.2.2.2.2 s hp
    have hlen : s.length < 64 := Nat.lt_succ_of_le (p.password_length s hp)
    have hchars : ∀ c ∈ s, string_char c = true := fun c hc => string_char_of_setting_char (p.password_chars s hp c hc)
    rw [hj.found p.flat hmem]
    dsimp only
    rw [hj.json_string p.flat hmem hlen hchars]
    rfl

theorem accepted {j : Json} (hj : Standard j) (p : Profile) (current : miner_settings) :
    Accepted j (flat_text p.fields) current p.mac p.host p.worker (BitVec.ofNat 32 p.port.toNat)
      (p.next_password current.password) := by
  obtain ⟨hcommand, hmac, hport, hhost, hworker, _⟩ := p.mem_fields
  have hlt : p.port.toNat < 65536 := p.port.isLt
  have hlen : (mac_text p.mac).length < 18 := by
    rw [mac_text_length]
    decide
  have hchars {s : List Byte} (hs : ∀ c ∈ s, setting_char c = true) : ∀ c ∈ s, string_char c = true :=
    fun c hc => string_char_of_setting_char (hs c hc)
  have hconfigure : ∀ c ∈ ascii "configure", string_char c = true := by decide
  have hword : BitVec.ofNat 32 p.port.toNat ≤ 65535 := by
    have hmax : (65535 : Word).toNat = 65535 := by decide
    rw [BitVec.le_def, BitVec.toNat_ofNat, hmax, Nat.mod_eq_of_lt (Nat.lt_trans hlt (by decide))]
    exact Nat.le_of_lt_succ hlt
  constructor
  · exact hj.validate p.flat
  · exact hj.json_string p.flat hcommand (by decide) hconfigure
  · rw [hj.json_string p.flat hmac hlen (hchars (mac_text_chars p.mac)), Option.bind_some]
    exact parse_mac_text p.mac
  · exact hj.json_string p.flat hhost (Nat.lt_succ_of_le p.host_length) (hchars p.host_setting)
  · exact hj.json_string p.flat hworker (Nat.lt_succ_of_le p.worker_length) (hchars p.worker_chars)
  · exact hj.json_u32 p.flat hport (Nat.lt_trans hlt (by decide))
  · exact hword
  · exact p.parse_password_eq hj current.password

/-- A text of printable characters and its terminator. -/
theorem string_ok_store {n : Nat} (array : Vector Byte n) {s : List Byte} (hlen : s.length < n)
    (hs : ∀ c ∈ s, setting_char c = true) : string_ok (store_string array s).toList = true := by
  have hchar : ∀ c : Byte, setting_char c = true → c ≠ 0 ∧ (c < 32 || c > 126 || c == 0x22 || c == 0x5c) = false := by
    decide
  rw [store_string_toList array hlen]
  generalize array.toList.drop (s.length + 1) = after
  clear hlen
  induction s with
  | nil => rfl
  | cons c s ih =>
    obtain ⟨hzero, hok⟩ := hchar c (hs c (by simp))
    rw [List.cons_append, string_ok, if_neg hzero, hok]
    exact ih fun d hd => hs d (by simp [hd])

theorem setting_char_ne_zero {c : Byte} (h : setting_char c = true) : c ≠ 0 := by
  rintro rfl
  cases h

theorem foldl_or_ne_zero {octets : List Byte} (h : ∃ b ∈ octets, b ≠ 0) : octets.foldl (· ||| ·) 0 ≠ 0 := by
  have hkeeps (octets : List Byte) (start : Byte) (hstart : start ≠ 0) : octets.foldl (· ||| ·) start ≠ 0 := by
    induction octets generalizing start with
    | nil => exact hstart
    | cons b octets ih =>
      refine ih _ fun hzero => hstart ?_
      exact (BitVec.or_eq_zero_iff.mp hzero).1
  obtain ⟨b, hb, hne⟩ := h
  obtain ⟨before, after, rfl⟩ := List.append_of_mem hb
  rw [List.foldl_append, List.foldl_cons]
  exact hkeeps after _ fun hzero => hne (BitVec.or_eq_zero_iff.mp hzero).2

theorem next_port (p : Profile) (current : miner_settings) : (p.next current).port = p.port := by
  refine BitVec.eq_of_toNat_eq ?_
  have hlt : p.port.toNat < 65536 := p.port.isLt
  simp only [next, merged, BitVec.toNat_setWidth, BitVec.toNat_ofNat]
  omega

theorem next_strings (p : Profile) (current : miner_settings) :
    c_string (p.next current).host = p.host ∧ c_string (p.next current).worker = p.worker ∧
      c_string (p.next current).password = p.password.getD (c_string current.password) := by
  refine ⟨?_, ?_, ?_⟩
  · exact c_string_store current.host (Nat.lt_succ_of_le p.host_length) fun c hc => setting_char_ne_zero (p.host_setting c hc)
  · exact c_string_store current.worker (Nat.lt_succ_of_le p.worker_length) fun c hc =>
      setting_char_ne_zero (p.worker_chars c hc)
  · unfold next merged next_password
    cases hp : p.password with
    | none => rfl
    | some s =>
      exact c_string_store current.password (Nat.lt_succ_of_le (p.password_length s hp)) fun c hc =>
        setting_char_ne_zero (p.password_chars s hp c hc)

theorem next_valid (p : Profile) {current : miner_settings} (h : settings_valid current = true) :
    settings_valid (p.next current) = true := by
  have hcurrent := (settings_valid_iff current).mp h
  rw [settings_valid_iff]
  exact {
    mac := foldl_or_ne_zero p.mac_nonzero
    unicast := p.mac_unicast
    port := by
      rw [next_port]
      exact p.port_nonzero
    host := string_ok_store current.host (Nat.lt_succ_of_le p.host_length) p.host_setting
    worker := string_ok_store current.worker (Nat.lt_succ_of_le p.worker_length) p.worker_chars
    password := by
      unfold next merged next_password
      cases hp : p.password with
      | none => exact hcurrent.password
      | some s =>
        exact string_ok_store current.password (Nat.lt_succ_of_le (p.password_length s hp)) (p.password_chars s hp)
    host_chars := by
      change (c_string (p.next current).host).all host_char = true
      rw [(p.next_strings current).1, List.all_eq_true]
      exact p.host_chars }

/-- The miner takes the request over. -/
theorem parses {j : Json} (hj : Standard j) (p : Profile) {current : miner_settings} (h : settings_valid current = true) :
    miner_config_parse j (flat_text p.fields) current = .ok (p.next current) :=
  (p.accepted hj current).parses (p.next_valid h)

end Profile

/-- The settings after a request are those of the form: the bytes and the port
as Python reads them, the texts as they are, and the password of before if the
form has none. -/
structure Configured (py : Runtime) (values : String → Option Object) (current next : miner_settings) : Prop where
  mac : ∃ s, values "mac" = some (.str s) ∧ mac_octets py (s.splitOn 0x3a) = .ok next.mac.toList
  port : ∃ o, values "port" = some o ∧ int_of py SettingsError.port_literal o = .ok next.port.toNat
  host : values "host" = some (.str (decode (c_string next.host)))
  worker : values "worker" = some (.str (decode (c_string next.worker)))
  password : values "password" = none ∧ next.password = current.password ∨
    values "password" = some (.str (decode (c_string next.password)))
  valid : settings_valid next = true

theorem Profile.Spelled.configured {p : Profile} {py : Runtime} {values : String → Option Object} (h : p.Spelled py values)
    {current : miner_settings} (hcurrent : settings_valid current = true) :
    Configured py values current (p.next current) := by
  obtain ⟨s, hmac, _, _, hoctets⟩ := h.mac
  obtain ⟨o, hport, hint⟩ := h.port
  obtain ⟨hhost, hworker, hpassword⟩ := p.next_strings current
  constructor
  · exact ⟨s, hmac, hoctets⟩
  · exact ⟨o, hport, by rw [hint, p.next_port]⟩
  · rw [hhost]
    exact h.host
  · rw [hworker]
    exact h.worker
  · rw [hpassword, h.password]
    cases hp : p.password with
    | none =>
      refine .inl ⟨rfl, ?_⟩
      unfold Profile.next merged Profile.next_password
      rw [hp]
    | some s => exact .inr rfl
  · exact p.next_valid hcurrent

end scu35.miner_dashboard
