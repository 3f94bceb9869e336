import Scu35Miner.Dashboard.Settings.Accepts

open fips180 rfc8259

namespace scu35.miner_dashboard

open bitcoin json_helpers settings miner_protocol python

/-- A character of a worker's name or a password. -/
def setting_char (c : Byte) : Bool := 32 ≤ c && c ≤ 126 && c != 0x22 && c != 0x5c

/-- Settings that both sides take for valid; a password may be left out. -/
structure Profile where
  mac : Vector Byte 6
  port : BitVec 16
  host : List Byte
  worker : List Byte
  password : Option (List Byte)
  mac_nonzero : ∃ b ∈ mac.toList, b ≠ 0
  mac_unicast : mac.get 0 &&& 1 = 0
  port_nonzero : port ≠ 0
  host_length : host.length ≤ 95
  host_chars : ∀ c ∈ host, host_char c = true
  worker_length : worker.length ≤ 127
  worker_chars : ∀ c ∈ worker, setting_char c = true
  password_length : ∀ s ∈ password, s.length ≤ 63
  password_chars : ∀ s ∈ password, ∀ c ∈ s, setting_char c = true

/-- The dictionary of a profile. -/
def Profile.request (p : Profile) : List (String × Object) :=
  configure_request p.mac.toList p.port.toNat (.str (decode p.host)) (.str (decode p.worker))
    (p.password.map fun s => .str (decode s))

/-- The values spell the profile. -/
structure Profile.Spelled (p : Profile) (py : Runtime) (values : String → Option Object) : Prop where
  mac : ∃ s, values "mac" = some (.str s) ∧ (s.splitOn 0x3a).length = 6 ∧ (∀ x ∈ s.splitOn 0x3a, x.length = 2) ∧
    mac_octets py (s.splitOn 0x3a) = .ok p.mac.toList
  port : ∃ o, values "port" = some o ∧ int_of py SettingsError.port_literal o = .ok p.port.toNat
  host : values "host" = some (.str (decode p.host))
  worker : values "worker" = some (.str (decode p.worker))
  password : values "password" = p.password.map fun s => .str (decode s)

theorem setting_char_iff (c : Byte) : setting_char c = true ↔ Printable c.toNat := by
  have hall : ∀ c : Byte, setting_char c = true ↔ 0x20 ≤ c.toNat ∧ c.toNat ≤ 0x7e ∧ c.toNat ≠ 0x22 ∧ c.toNat ≠ 0x5c := by
    decide
  exact hall c

theorem host_char_eq (c : Byte) : host_char c = host_code c.toNat := by
  revert c
  decide

theorem setting_char_of_host {c : Byte} (h : host_char c = true) : setting_char c = true := by
  revert c
  decide

theorem printable_decode {s : List Byte} (h : ∀ c ∈ s, setting_char c = true) : ∀ c ∈ decode s, Printable c := by
  intro c hc
  obtain ⟨b, hb, rfl⟩ := List.mem_map.mp hc
  exact (setting_char_iff b).mp (h b hb)

/-- A text without the two halves of a byte. -/
theorem hex_pieces (b : Byte) : (decode (hex_encode [b])).length = 2 ∧ 0x3a ∉ decode (hex_encode [b]) ∧
    ∀ c ∈ decode (hex_encode [b]), c < 128 := by
  revert b
  decide

theorem split_hex_colons {octets : List Byte} (hne : octets ≠ []) :
    (hex_colons octets).splitOn 0x3a = octets.map fun b => decode (hex_encode [b]) := by
  refine List.splitOn_intercalate 0x3a ?_ (by simpa using hne)
  intro piece hpiece
  obtain ⟨b, _, rfl⟩ := List.mem_map.mp hpiece
  exact (hex_pieces b).2.1

theorem mac_octets_hex (py : Runtime) (octets : List Byte) :
    mac_octets py (octets.map fun b => decode (hex_encode [b])) = .ok octets := by
  induction octets with
  | nil => rfl
  | cons b octets ih =>
    have hrange : ¬((b.toNat : Int) < 0 ∨ 255 < (b.toNat : Int)) := by omega
    have hb : BitVec.ofInt 8 (b.toNat : Int) = b := by simp
    rw [List.map_cons, mac_octets, int_text_ascii py (hex_pieces b).2.2, int_ascii_hex]
    dsimp only
    rw [if_neg hrange, ih, hb]

/-- A printed address spells its bytes. -/
theorem hex_colons_spelled (py : Runtime) (mac : Vector Byte 6) : ((hex_colons mac.toList).splitOn 0x3a).length = 6 ∧
    (∀ x ∈ (hex_colons mac.toList).splitOn 0x3a, x.length = 2) ∧
    mac_octets py ((hex_colons mac.toList).splitOn 0x3a) = .ok mac.toList := by
  have hne : mac.toList ≠ [] := List.ne_nil_of_length_pos (by simp)
  rw [split_hex_colons hne]
  refine ⟨by simp, ?_, mac_octets_hex py mac.toList⟩
  intro x hx
  obtain ⟨b, _, rfl⟩ := List.mem_map.mp hx
  exact (hex_pieces b).1

theorem mac_octets_length {py : Runtime} {pieces : List (List Nat)} {octets : List Byte}
    (h : mac_octets py pieces = .ok octets) : octets.length = pieces.length := by
  induction pieces generalizing octets with
  | nil =>
    cases h
    rfl
  | cons x pieces ih =>
    rw [mac_octets] at h
    split at h
    · cases h
    next z _ =>
      split at h
      · cases h
      · split at h
        next rest hrest =>
          cases h
          rw [List.length_cons, List.length_cons, ih hrest]
        next => cases h

theorem any_host_code {s : List Byte} (h : ∀ c ∈ s, host_char c = true) :
    any_char (fun c => !host_code c) ((decode s).map fun c => .str [c]) = .ok false := by
  rw [any_char_str]
  refine congrArg Except.ok (List.any_eq_false.mpr fun c hc => ?_)
  obtain ⟨b, hb, rfl⟩ := List.mem_map.mp hc
  simpa [← host_char_eq] using h b hb

theorem decode_length (s : List Byte) : (decode s).length = s.length := List.length_map _

theorem headD_toList (mac : Vector Byte 6) : mac.toList.headD 0 = mac.get 0 := by
  rw [List.headD_eq_head?_getD, List.head?_eq_getElem?]
  simp [Vector.get]

/-- Values that spell a profile are accepted, and normalised to its
dictionary. -/
theorem Profile.Spelled.validates {p : Profile} {py : Runtime} {values : String → Option Object}
    (h : p.Spelled py values) : validate_settings py values = .ok p.request := by
  have hhost_chars : ∀ c ∈ p.host, setting_char c = true := fun c hc => setting_char_of_host (p.host_chars c hc)
  have hpassword : check_text values "password" 63 = .ok () := by
    cases hp : p.password with
    | none =>
      have hvalue : (values "password").getD (.str []) = .str [] := by rw [h.password, hp]; rfl
      exact (check_text_str hvalue).mpr ⟨Nat.zero_le _, by simp⟩
    | some s =>
      have hvalue : (values "password").getD (.str []) = .str (decode s) := by rw [h.password, hp]; rfl
      refine (check_text_str hvalue).mpr ⟨?_, printable_decode (p.password_chars s hp)⟩
      rw [decode_length]
      exact p.password_length s hp
  have hvalid : ValidValues py values p.mac.toList p.port.toNat (.str (decode p.host)) (.str (decode p.worker)) := {
    mac := h.mac
    nonzero := p.mac_nonzero
    unicast := by
      rw [headD_toList]
      exact p.mac_unicast
    port_value := h.port
    port_range := by
      have hne : p.port.toNat ≠ 0 := fun hzero => p.port_nonzero (BitVec.eq_of_toNat_eq hzero)
      have hlt := p.port.isLt
      omega
    host_text := by
      refine (check_text_str (s := decode p.host) (by rw [h.host]; rfl)).mpr ⟨?_, printable_decode hhost_chars⟩
      rw [decode_length]
      exact p.host_length
    worker_text := by
      refine (check_text_str (s := decode p.worker) (by rw [h.worker]; rfl)).mpr ⟨?_, printable_decode p.worker_chars⟩
      rw [decode_length]
      exact p.worker_length
    password_text := hpassword
    host_value := h.host
    host_name := ⟨_, rfl, any_host_code p.host_chars⟩
    worker_value := h.worker }
  have hrequest := hvalid.validates
  rw [h.password] at hrequest
  exact hrequest

/-- The dictionary of a profile spells it again: `configure` checks what was
checked before. -/
theorem Profile.request_spelled (p : Profile) (py : Runtime) : p.Spelled py (items p.request) where
  mac := ⟨_, rfl, hex_colons_spelled py p.mac⟩
  port := ⟨_, rfl, rfl⟩
  host := rfl
  worker := rfl
  password := by
    unfold request configure_request
    cases p.password <;> rfl

/-- The texts of a form are strings. -/
structure FormValues (values : String → Option Object) : Prop where
  host : ∀ o, values "host" = some o → ∃ s, o = .str s
  worker : ∀ o, values "worker" = some o → ∃ s, o = .str s
  password : ∀ o, values "password" = some o → ∃ s, o = .str s

theorem setting_char_encode {s : List Nat} (h : ∀ c ∈ s, Printable c) : ∀ b ∈ encode s, setting_char b = true := by
  intro b hb
  rw [setting_char_iff]
  refine h b.toNat ?_
  have hmem : b.toNat ∈ decode (encode s) := List.mem_map.mpr ⟨b, hb, rfl⟩
  rwa [decode_encode h] at hmem

theorem encode_length (s : List Nat) : (encode s).length = s.length := List.length_map _

theorem spelled_profile {py : Runtime} {values : String → Option Object} {request : List (String × Object)}
    (h : validate_settings py values = .ok request) (hform : FormValues values) : ∃ p : Profile, p.Spelled py values := by
  obtain ⟨octets, port, host, worker, hvalid, _⟩ := validate_settings_ok h
  obtain ⟨s, hmac, hlength, hpieces, hoctets⟩ := hvalid.mac
  have hsix : octets.length = 6 := (mac_octets_length hoctets).trans hlength
  obtain ⟨host, rfl⟩ := hform.host _ hvalid.host_value
  obtain ⟨worker, rfl⟩ := hform.worker _ hvalid.worker_value
  obtain ⟨hhost_length, hhost⟩ := (check_text_str (s := host) (by rw [hvalid.host_value]; rfl)).mp hvalid.host_text
  obtain ⟨hworker_length, hworker⟩ :=
    (check_text_str (s := worker) (by rw [hvalid.worker_value]; rfl)).mp hvalid.worker_text
  obtain ⟨os, hos, hname⟩ := hvalid.host_name
  cases hos
  rw [any_char_str] at hname
  have hhost_chars : ∀ b ∈ encode host, host_char b = true := by
    intro b hb
    have hmem : b.toNat ∈ decode (encode host) := List.mem_map.mpr ⟨b, hb, rfl⟩
    rw [decode_encode hhost] at hmem
    have hcode := List.any_eq_false.mp (Except.ok.inj hname) _ hmem
    rw [host_char_eq]
    simpa using hcode
  obtain ⟨password, hpassword, hpassword_ok⟩ : ∃ password : Option (List Nat),
      values "password" = password.map Object.str ∧ ∀ t ∈ password, t.length ≤ 63 ∧ ∀ c ∈ t, Printable c := by
    cases hvalue : values "password" with
    | none => exact ⟨none, rfl, by simp⟩
    | some o =>
      obtain ⟨t, rfl⟩ := hform.password _ hvalue
      have ht := (check_text_str (s := t) (by rw [hvalue]; rfl)).mp hvalid.password_text
      exact ⟨some t, rfl, by simpa using ht⟩
  have hport : ((BitVec.ofInt 16 port).toNat : Int) = port := by
    have hrange := hvalid.port_range
    simp only [BitVec.toNat_ofInt]
    omega
  have hspelled : (password.map encode).map (fun t => Object.str (decode t)) = password.map Object.str := by
    cases password with
    | none => rfl
    | some t => exact congrArg (fun t => some (Object.str t)) (decode_encode (hpassword_ok t rfl).2)
  obtain ⟨mac, rfl⟩ : ∃ mac : Vector Byte 6, octets = mac.toList := ⟨⟨octets.toArray, by simpa using hsix⟩, rfl⟩
  refine ⟨{
    mac, port := BitVec.ofInt 16 port, host := encode host, worker := encode worker, password := password.map encode
    mac_nonzero := hvalid.nonzero
    mac_unicast := by
      rw [← headD_toList]
      exact hvalid.unicast
    port_nonzero := by
      intro hzero
      rw [hzero] at hport
      have hrange := hvalid.port_range
      simp at hport
      omega
    host_length := by rw [encode_length]; exact hhost_length
    host_chars := hhost_chars
    worker_length := by rw [encode_length]; exact hworker_length
    worker_chars := setting_char_encode hworker
    password_length := by
      intro b hb
      obtain ⟨t, ht, rfl⟩ := Option.map_eq_some_iff.mp hb
      rw [encode_length]
      exact (hpassword_ok t ht).1
    password_chars := by
      intro b hb
      obtain ⟨t, ht, rfl⟩ := Option.map_eq_some_iff.mp hb
      exact setting_char_encode (hpassword_ok t ht).2 }, ?_⟩
  obtain ⟨o, ho, hint⟩ := hvalid.port_value
  exact {
    mac := ⟨s, hmac, hlength, hpieces, hoctets⟩
    port := ⟨o, ho, by rw [hint, hport]⟩
    host := by rw [hvalid.host_value, decode_encode hhost]
    worker := by rw [hvalid.worker_value, decode_encode hworker]
    password := hpassword.trans hspelled.symm }

/-- An accepted form spells a profile, and is normalised to its dictionary. -/
theorem validated_profile {py : Runtime} {values : String → Option Object} {request : List (String × Object)}
    (h : validate_settings py values = .ok request) (hform : FormValues values) :
    ∃ p : Profile, p.Spelled py values ∧ request = p.request := by
  obtain ⟨p, hp⟩ := spelled_profile h hform
  exact ⟨p, hp, Except.ok.inj (h.symm.trans hp.validates)⟩

end scu35.miner_dashboard
