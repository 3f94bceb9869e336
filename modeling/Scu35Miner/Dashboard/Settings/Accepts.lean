import Scu35Miner.Dashboard.Settings

open fips180 rfc8259

namespace scu35.miner_dashboard

open bitcoin json_helpers miner_protocol python

/-- What `validate_settings` asks, and what it takes from the values. -/
structure ValidValues (py : Runtime) (values : String → Option Object) (octets : List Byte) (port : Int)
    (host worker : Object) : Prop where
  mac : ∃ s, values "mac" = some (.str s) ∧ (s.splitOn 0x3a).length = 6 ∧ (∀ x ∈ s.splitOn 0x3a, x.length = 2) ∧
    mac_octets py (s.splitOn 0x3a) = .ok octets
  nonzero : ∃ b ∈ octets, b ≠ 0
  unicast : octets.headD 0 &&& 1 = 0
  port_value : ∃ o, values "port" = some o ∧ int_of py SettingsError.port_literal o = .ok port
  port_range : 1 ≤ port ∧ port ≤ 65535
  host_text : check_text values "host" 95 = .ok ()
  worker_text : check_text values "worker" 127 = .ok ()
  password_text : check_text values "password" 63 = .ok ()
  host_value : values "host" = some host
  host_name : ∃ os, (iterate host : Result (List Object)) = .ok os ∧ any_char (fun c => !host_code c) os = .ok false
  worker_value : values "worker" = some worker

theorem subscript_eq_ok {values : String → Option Object} {name : String} {o : Object} :
    subscript values name = .ok o ↔ values name = some o := by
  unfold subscript
  cases values name <;> simp

theorem ValidValues.validates {py : Runtime} {values : String → Option Object} {octets : List Byte} {port : Int}
    {host worker : Object} (h : ValidValues py values octets port host worker) :
    validate_settings py values = .ok (configure_request octets port host worker (values "password")) := by
  obtain ⟨s, hmac, hlength, hpieces, hoctets⟩ := h.mac
  obtain ⟨o, hport, hint⟩ := h.port_value
  obtain ⟨os, hiterate, hhost⟩ := h.host_name
  obtain ⟨b, hb, hnonzero⟩ := h.nonzero
  have hform : ((s.splitOn 0x3a).length == 6 && (s.splitOn 0x3a).all (·.length == 2)) = true := by
    simpa [hlength] using hpieces
  have hunicast : (octets.any (· != 0) && octets.headD 0 &&& 1 == 0) = true := by
    rw [Bool.and_eq_true, List.any_eq_true]
    exact ⟨⟨b, hb, bne_iff_ne.mpr hnonzero⟩, beq_iff_eq.mpr h.unicast⟩
  have hrange : (decide (1 ≤ port) && decide (port ≤ 65535)) = true := by simpa using h.port_range
  unfold validate_settings
  refine bind_eq_ok.mpr ⟨_, subscript_eq_ok.mpr hmac, ?_⟩
  refine bind_eq_ok.mpr ⟨_, rfl, ?_⟩
  refine bind_eq_ok.mpr ⟨(), require_eq_ok.mpr hform, ?_⟩
  refine bind_eq_ok.mpr ⟨_, hoctets, ?_⟩
  refine bind_eq_ok.mpr ⟨(), require_eq_ok.mpr hunicast, ?_⟩
  refine bind_eq_ok.mpr ⟨_, subscript_eq_ok.mpr hport, ?_⟩
  refine bind_eq_ok.mpr ⟨_, hint, ?_⟩
  refine bind_eq_ok.mpr ⟨(), require_eq_ok.mpr hrange, ?_⟩
  refine bind_eq_ok.mpr ⟨(), h.host_text, ?_⟩
  refine bind_eq_ok.mpr ⟨(), h.worker_text, ?_⟩
  refine bind_eq_ok.mpr ⟨(), h.password_text, ?_⟩
  refine bind_eq_ok.mpr ⟨_, subscript_eq_ok.mpr h.host_value, ?_⟩
  refine bind_eq_ok.mpr ⟨_, hiterate, ?_⟩
  refine bind_eq_ok.mpr ⟨_, hhost, ?_⟩
  refine bind_eq_ok.mpr ⟨(), rfl, ?_⟩
  exact bind_eq_ok.mpr ⟨_, subscript_eq_ok.mpr h.worker_value, rfl⟩

theorem validate_settings_ok {py : Runtime} {values : String → Option Object} {request : List (String × Object)}
    (h : validate_settings py values = .ok request) :
    ∃ octets port host worker, ValidValues py values octets port host worker ∧
      request = configure_request octets port host worker (values "password") := by
  unfold validate_settings at h
  obtain ⟨mac, hmac, h⟩ := bind_eq_ok.mp h
  obtain ⟨pieces, hpieces, h⟩ := bind_eq_ok.mp h
  obtain ⟨_, hform, h⟩ := bind_eq_ok.mp h
  obtain ⟨octets, hoctets, h⟩ := bind_eq_ok.mp h
  obtain ⟨_, hunicast, h⟩ := bind_eq_ok.mp h
  obtain ⟨o, hport, h⟩ := bind_eq_ok.mp h
  obtain ⟨port, hint, h⟩ := bind_eq_ok.mp h
  obtain ⟨_, hrange, h⟩ := bind_eq_ok.mp h
  obtain ⟨_, hhost_text, h⟩ := bind_eq_ok.mp h
  obtain ⟨_, hworker_text, h⟩ := bind_eq_ok.mp h
  obtain ⟨_, hpassword_text, h⟩ := bind_eq_ok.mp h
  obtain ⟨host, hhost, h⟩ := bind_eq_ok.mp h
  obtain ⟨os, hiterate, h⟩ := bind_eq_ok.mp h
  obtain ⟨bad, hbad, h⟩ := bind_eq_ok.mp h
  obtain ⟨_, hname, h⟩ := bind_eq_ok.mp h
  obtain ⟨worker, hworker, hrequest⟩ := bind_eq_ok.mp h
  obtain ⟨s, rfl, rfl⟩ := split_eq_ok hpieces
  rw [require_eq_ok, Bool.and_eq_true, beq_iff_eq, List.all_eq_true] at hform
  rw [require_eq_ok, Bool.and_eq_true, List.any_eq_true, beq_iff_eq] at hunicast
  rw [require_eq_ok, Bool.and_eq_true, decide_eq_true_eq, decide_eq_true_eq] at hrange
  rw [require_eq_ok, Bool.not_eq_true'] at hname
  obtain ⟨b, hb, hnonzero⟩ := hunicast.1
  refine ⟨octets, port, host, worker, ?_, (Except.ok.inj hrequest).symm⟩
  exact {
    mac := ⟨s, subscript_eq_ok.mp hmac, hform.1, fun x hx => beq_iff_eq.mp (hform.2 x hx), hoctets⟩
    nonzero := ⟨b, hb, bne_iff_ne.mp hnonzero⟩
    unicast := hunicast.2
    port_value := ⟨o, subscript_eq_ok.mp hport, hint⟩
    port_range := hrange
    host_text := hhost_text
    worker_text := hworker_text
    password_text := hpassword_text
    host_value := subscript_eq_ok.mp hhost
    host_name := ⟨os, hiterate, hname ▸ hbad⟩
    worker_value := subscript_eq_ok.mp hworker }

/-- The characters of a string, one by one. -/
theorem any_char_str (p : Nat → Bool) (s : List Nat) : any_char p (s.map fun c => .str [c]) = .ok (s.any p) := by
  induction s with
  | nil => rfl
  | cons c s ih =>
    rw [List.map_cons, any_char, ord]
    dsimp only
    by_cases hc : p c = true
    · rw [if_pos hc, List.any_cons, hc]
      rfl
    · rw [if_neg hc, ih, List.any_cons, Bool.eq_false_of_not_eq_true hc]
      rfl

theorem bad_char_eq_false {c : Nat} : bad_char c = false ↔ Printable c := by
  simp only [bad_char, Printable, Bool.or_eq_false_iff, decide_eq_false_iff_not, beq_eq_false_iff_ne]
  omega

/-- A string passes its check if it is short enough and printable. -/
theorem check_text_str {values : String → Option Object} {name : String} {s : List Nat} {maximum : Nat}
    (h : (values name).getD (.str []) = .str s) :
    check_text values name maximum = .ok () ↔ s.length ≤ maximum ∧ ∀ c ∈ s, Printable c := by
  have hbad : s.any bad_char = false ↔ ∀ c ∈ s, Printable c := by
    simp only [List.any_eq_false, ← bad_char_eq_false, Bool.not_eq_true]
  rw [check_text, h, ← hbad]
  constructor
  · intro hcheck
    obtain ⟨os, hos, hcheck⟩ := bind_eq_ok.mp hcheck
    obtain ⟨_, hlength, hcheck⟩ := bind_eq_ok.mp hcheck
    obtain ⟨bad, hany, hcheck⟩ := bind_eq_ok.mp hcheck
    cases hos
    rw [any_char_str] at hany
    cases hany
    rw [require_eq_ok, decide_eq_true_eq, List.length_map] at hlength
    rw [require_eq_ok, Bool.not_eq_true'] at hcheck
    exact ⟨hlength, hcheck⟩
  · rintro ⟨hlength, hcheck⟩
    refine bind_eq_ok.mpr ⟨_, rfl, ?_⟩
    refine bind_eq_ok.mpr ⟨(), require_eq_ok.mpr ?_, ?_⟩
    · rw [decide_eq_true_eq, List.length_map]
      exact hlength
    · refine bind_eq_ok.mpr ⟨_, any_char_str bad_char s, ?_⟩
      rw [hcheck]
      rfl

end scu35.miner_dashboard
