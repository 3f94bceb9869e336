import Scu35Miner.Dashboard.Settings.Agreement
import Scu35Miner.Software.Dashboard.ConfigTask
import Scu35Miner.Software.Firmware.Secrecy

open fips180 rfc8259 storage

namespace scu35.miner_dashboard

open bitcoin json_helpers settings miner_protocol dashboard python

/-- The chunks in which a connection delivers these bytes. -/
structure Segments (chunks : List (List Byte)) (bytes : List Byte) : Prop where
  flatten : chunks.flatten = bytes
  nonempty : ∀ chunk ∈ chunks, chunk ≠ []
  at_most : ∀ chunk ∈ chunks, chunk.length ≤ 256

/-- The loop goes on from the bytes it has to the end of the line. -/
theorem receive_reply_loop {chunks : List (List Byte)} {line : List Byte} (data : List Byte)
    (hline : data ++ chunks.flatten = line ++ [0x0a]) (hnonempty : ∀ chunk ∈ chunks, chunk ≠ []) (hnewline : 0x0a ∉ line)
    (hlen : line.length < 2048) : receive_reply chunks data = .ok (line ++ [0x0a]) := by
  induction chunks generalizing data with
  | nil =>
    rw [List.flatten_nil, List.append_nil] at hline
    have hends : data.contains 0x0a = true := by simp [hline]
    rw [receive_reply, if_pos hends, hline]
  | cons chunk chunks ih =>
    obtain ⟨c, chunk, rfl⟩ := List.exists_cons_of_ne_nil (hnonempty chunk (by simp))
    have hlength := congrArg List.length hline
    simp only [List.flatten_cons, List.length_append, List.length_cons, List.length_nil] at hlength
    have htaken : data = line.take data.length := by
      have htake := congrArg (List.take data.length) hline
      rwa [List.take_left, List.take_append_of_le_length (by omega)] at htake
    have hopen : ¬data.contains 0x0a = true := by
      rw [List.contains_iff_mem]
      intro hmem
      rw [htaken] at hmem
      exact hnewline (List.mem_of_mem_take hmem)
    have hfits : ¬(data ++ c :: chunk).length > 2048 := by
      rw [List.length_append, List.length_cons]
      omega
    rw [receive_reply, if_neg hopen, if_neg (by simp), if_neg hfits]
    refine ih (data ++ c :: chunk) ?_ fun chunk hchunk => hnonempty chunk (by simp [hchunk])
    rw [List.append_assoc]
    exact hline

/-- A reply of one line is parsed, however it is split. -/
theorem request_reply_line {chunks : List (List Byte)} {fs : List (String × Scalar)} (hflat : Flat fs)
    (h : Segments chunks (flat_text fs ++ [0x0a])) (hlen : (flat_text fs).length < 2048) {ok : Bool}
    (hok : ("ok", .bool ok) ∈ fs) : request_reply chunks = .ok (flat_value fs) ∧ reply_ok (flat_value fs) = some ok := by
  have hnewline : 0x0a ∉ flat_text fs := fun hmem => absurd (hflat.printed _ hmem) (by decide)
  have hdata := receive_reply_loop [] h.flatten h.nonempty hnewline hlen
  have hreply : reply_ok (flat_value fs) = some ok := by
    unfold reply_ok
    rw [hflat.get hok]
    rfl
  have htake : (flat_text fs ++ [0x0a]).takeWhile (· != 0x0a) = flat_text fs := by
    rw [List.takeWhile_append_of_pos fun c hc => bne_iff_ne.mpr (ne_of_mem_of_not_mem hc hnewline)]
    simp
  refine ⟨?_, hreply⟩
  refine bind_eq_ok.mpr ⟨_, hdata, ?_⟩
  rw [htake, hflat.reads.loads]
  dsimp only
  rw [hreply]
  rfl

/-- An address that a board may have. -/
structure ValidMac (mac : Vector Byte 6) : Prop where
  nonzero : ∃ b ∈ mac.toList, b ≠ 0
  unicast : mac.get 0 &&& 1 = 0

theorem setting_char_of_string_ok {s : List Byte} (h : string_ok s = true) :
    (∀ c ∈ s.takeWhile (· != 0), setting_char c = true) ∧ (s.takeWhile (· != 0)).length < s.length := by
  have hchar : ∀ c : Byte, (c < 32 || c > 126 || c == 0x22 || c == 0x5c) = false → setting_char c = true := by decide
  induction s with
  | nil => cases h
  | cons c s ih =>
    rw [string_ok] at h
    split at h
    next hzero => simp [hzero]
    next hzero =>
      split at h
      · cases h
      next hok =>
        obtain ⟨hrest, hlen⟩ := ih h
        have htake : (c :: s).takeWhile (· != 0) = c :: s.takeWhile (· != 0) :=
          List.takeWhile_cons_of_pos (bne_iff_ne.mpr hzero)
        rw [htake, List.forall_mem_cons]
        exact ⟨⟨hchar c (Bool.eq_false_of_not_eq_true hok), hrest⟩, Nat.succ_lt_succ hlen⟩

/-- The profile of stored settings, without their password, and of an
address. -/
def Profile.of_settings (s : miner_settings) (hs : ValidSettings s) (mac : Vector Byte 6) (hmac : ValidMac mac) : Profile where
  mac
  port := s.port
  host := c_string s.host
  worker := c_string s.worker
  password := none
  mac_nonzero := hmac.nonzero
  mac_unicast := hmac.unicast
  port_nonzero := hs.port
  host_length := by
    have hlen := (setting_char_of_string_ok hs.host).2
    rw [Vector.length_toList] at hlen
    exact Nat.le_of_lt_succ hlen
  host_chars := List.all_eq_true.mp hs.host_chars
  worker_length := by
    have hlen := (setting_char_of_string_ok hs.worker).2
    rw [Vector.length_toList] at hlen
    exact Nat.le_of_lt_succ hlen
  worker_chars := (setting_char_of_string_ok hs.worker).1
  password_length := by simp
  password_chars := by simp

theorem password_set_eq (password : Vector Byte 64) : (password.get 0 != 0) = decide (c_string password ≠ []) := by
  obtain ⟨⟨bytes⟩, hsize⟩ := password
  cases bytes with
  | nil => cases hsize
  | cons c bytes =>
    change (c != 0) = decide (List.takeWhile (· != 0) (c :: bytes) ≠ [])
    by_cases hc : c = 0
    · simp [hc]
    · have hne : (c != 0) = true := bne_iff_ne.mpr hc
      have htake : (c :: bytes).takeWhile (· != 0) = c :: bytes.takeWhile (· != 0) := List.takeWhile_cons_of_pos hne
      rw [htake, hne]
      rfl

/-- The members of the reply to `get_settings`. -/
def reply_fields (s : miner_settings) (stored : Bool) (active_mac : Vector Byte 6) : List (String × Scalar) :=
  [("ok", .bool true), ("stored", .bool stored), ("mac", .string (mac_text s.mac)),
    ("active_mac", .string (mac_text active_mac)), ("host", .string (c_string s.host)), ("port", .number s.port.toNat),
    ("worker", .string (c_string s.worker)), ("password_set", .bool (c_string s.password ≠ []))]

def reply_names : List String := ["ok", "stored", "mac", "active_mac", "host", "port", "worker", "password_set"]

section Reply

variable {s : miner_settings} (hs : ValidSettings s) (stored : Bool) (active_mac : Vector Byte 6)
include hs

theorem reply_flat : Flat (reply_fields s stored active_mac) where
  nonempty := by simp [reply_fields]
  names := by
    have hall : ∀ name ∈ reply_names, simple_name name = true := by decide
    exact fun f hf => hall f.1 (List.mem_map_of_mem (f := Prod.fst) hf)
  nodup := by
    have hnames : (reply_names.map ascii).Nodup := by decide
    exact hnames
  plain := by
    simp only [reply_fields, List.forall_mem_cons]
    refine ⟨trivial, trivial, ?_, ?_, ?_, trivial, ?_, trivial, by simp⟩
    · exact fun c hc => plain_of_setting_char (mac_text_chars s.mac c hc)
    · exact fun c hc => plain_of_setting_char (mac_text_chars active_mac c hc)
    · exact fun c hc => plain_of_setting_char ((setting_char_of_string_ok hs.host).1 c hc)
    · exact fun c hc => plain_of_setting_char ((setting_char_of_string_ok hs.worker).1 c hc)

/-- The reply is the text of its members. -/
theorem miner_config_json_eq :
    miner_config_json s stored active_mac = some (flat_text (reply_fields s stored active_mac) ++ [0x0a]) := by
  have hstart : ascii "\x7b\"ok\":true,\"stored\":" = ascii "\x7b" ++ quoted (ascii "ok") ++ ascii ":" ++ bool_text true ++
      ascii "," ++ quoted (ascii "stored") ++ ascii ":" := by decide
  have hmac : ascii ",\"mac\":\"" = ascii "," ++ quoted (ascii "mac") ++ ascii ":" ++ ascii "\"" := by decide
  have hactive : ascii "\",\"active_mac\":\"" = ascii "\"" ++ ascii "," ++ quoted (ascii "active_mac") ++ ascii ":" ++
      ascii "\"" := by decide
  have hhost : ascii "\",\"host\":\"" = ascii "\"" ++ ascii "," ++ quoted (ascii "host") ++ ascii ":" ++ ascii "\"" := by
    decide
  have hport : ascii "\",\"port\":" = ascii "\"" ++ ascii "," ++ quoted (ascii "port") ++ ascii ":" := by decide
  have hworker : ascii ",\"worker\":\"" = ascii "," ++ quoted (ascii "worker") ++ ascii ":" ++ ascii "\"" := by decide
  have hpassword : ascii "\",\"password_set\":" = ascii "\"" ++ ascii "," ++ quoted (ascii "password_set") ++ ascii ":" := by
    decide
  have hend : ascii "\x7d\n" = ascii "\x7d" ++ [0x0a] := by decide
  have hvalid : (!settings_valid s) = false := by
    rw [(settings_valid_iff s).mpr hs]
    rfl
  rw [miner_config_json, hvalid, if_neg (by decide), hstart, hmac, hactive, hhost, hport, hworker, hpassword, hend,
    password_set_eq]
  refine congrArg some ?_
  simp only [flat_text, reply_fields, object, members, List.map_cons, List.map_nil, Scalar.text, quoted, List.append_assoc]

theorem reply_length : (flat_text (reply_fields s stored active_mac)).length < 1023 := by
  have hbounds : List.Forall₂ (fun (f : String × Scalar) bound => f.2.text.length ≤ bound)
      (reply_fields s stored active_mac) [5, 5, 19, 19, 97, 5, 129, 5] := by
    have hhost := (setting_char_of_string_ok hs.host).2
    have hworker := (setting_char_of_string_ok hs.worker).2
    rw [Vector.length_toList] at hhost hworker
    exact .cons (Scalar.bool_length true) <| .cons (Scalar.bool_length stored) <|
      .cons (Scalar.string_length (mac_text_length s.mac).le) <|
      .cons (Scalar.string_length (mac_text_length active_mac).le) <|
      .cons (Scalar.string_length (Nat.le_of_lt_succ hhost)) <| .cons (Scalar.port_length s.port) <|
      .cons (Scalar.string_length (Nat.le_of_lt_succ hworker)) <| .cons (Scalar.bool_length _) .nil
  have hsum : object_bound reply_names [5, 5, 19, 19, 97, 5, 129, 5] < 1023 := by decide
  exact Nat.lt_of_le_of_lt ((reply_flat hs stored active_mac).length hbounds) hsum

end Reply

/-- A reply shows these settings, but no password. -/
structure Shows (reply : Value) (s : miner_settings) (stored : Bool) (active_mac : Vector Byte 6) : Prop where
  stored : reply.get (ascii "stored") = some (.bool stored)
  mac : reply.get (ascii "mac") = some (.string (mac_text s.mac))
  active_mac : reply.get (ascii "active_mac") = some (.string (mac_text active_mac))
  host : reply.get (ascii "host") = some (.string (c_string s.host))
  port : reply.get (ascii "port") = some (.int s.port.toNat)
  worker : reply.get (ascii "worker") = some (.string (c_string s.worker))
  password_set : reply.get (ascii "password_set") = some (.bool (c_string s.password ≠ []))
  password : reply.get (ascii "password") = none

theorem reply_shows {s : miner_settings} (hs : ValidSettings s) (stored : Bool) (active_mac : Vector Byte 6) :
    Shows (flat_value (reply_fields s stored active_mac)) s stored active_mac := by
  have hflat := reply_flat hs stored active_mac
  have hget {name : String} {v : Scalar} (hv : (name, v) ∈ reply_fields s stored active_mac) := hflat.get hv
  have hpassword : ascii "password" ∉ (reply_fields s stored active_mac).map fun f => ascii f.1 := by
    have hnames : ascii "password" ∉ reply_names.map ascii := by decide
    exact hnames
  constructor
  · exact hget (v := .bool stored) (by simp [reply_fields])
  · exact hget (v := .string _) (by simp [reply_fields])
  · exact hget (v := .string _) (by simp [reply_fields])
  · exact hget (v := .string _) (by simp [reply_fields])
  · exact hget (v := .number _) (by simp [reply_fields])
  · exact hget (v := .string _) (by simp [reply_fields])
  · exact hget (v := .bool _) (by simp [reply_fields])
  · exact Flat.get_none hpassword

/-- The values of a reply, with one of the two addresses, spell a profile. -/
theorem Shows.spelled {reply : Value} {s : miner_settings} {stored : Bool} {active_mac : Vector Byte 6}
    (h : Shows reply s stored active_mac) (hs : ValidSettings s) (py : Runtime) {mac : Vector Byte 6} (hmac : ValidMac mac)
    {values : String → Option Object} (haddress : values "mac" = some (.str (decode (mac_text mac))))
    (hvalues : ∀ name, name ≠ "mac" → values name = reply_item reply name) :
    (Profile.of_settings s hs mac hmac).Spelled py values := by
  constructor
  · rw [← hex_colons_eq] at haddress
    exact ⟨_, haddress, hex_colons_spelled py mac⟩
  · refine ⟨.int s.port.toNat, ?_, rfl⟩
    rw [hvalues "port" (by decide), reply_item, h.port]
    rfl
  · rw [hvalues "host" (by decide), reply_item, h.host]
    rfl
  · rw [hvalues "worker" (by decide), reply_item, h.worker]
    rfl
  · rw [hvalues "password" (by decide), reply_item, h.password]
    rfl

theorem valid_mac {s : miner_settings} (h : ValidSettings s) : ValidMac s.mac where
  nonzero := by
    by_contra hzero
    have hall : ∀ b ∈ s.mac.toList, b = 0 := fun b hb => by_contra fun hne => hzero ⟨b, hb, hne⟩
    have hreplicate := List.eq_replicate_of_mem hall
    rw [Vector.length_toList] at hreplicate
    refine h.mac ?_
    rw [hreplicate]
    rfl
  unicast := h.unicast

theorem invalid_response_eq_ok {α : Type} {r : Result α} {a : α} : invalid_response r = .ok a ↔ r = .ok a := by
  unfold invalid_response
  split <;> simp

/-- The reply to `get_settings` is accepted and shows the settings, however it
is split. -/
theorem settings_reply_read {s : miner_settings} (hs : settings_valid s = true) (stored : Bool) {active_mac : Vector Byte 6}
    (hactive : ValidMac active_mac) (py : Runtime) :
    ∃ line, miner_config_json s stored active_mac = some (line ++ [0x0a]) ∧ 0x0a ∉ line ∧ line.length < 1023 ∧
      ∀ chunks, Segments chunks (line ++ [0x0a]) →
        ∃ reply, read_settings py chunks = .ok reply ∧ Shows reply s stored active_mac := by
  have hvalid := (settings_valid_iff s).mp hs
  have hflat := reply_flat hvalid stored active_mac
  have hlen := reply_length hvalid stored active_mac
  have hshows := reply_shows hvalid stored active_mac
  refine ⟨_, miner_config_json_eq hvalid stored active_mac, ?_, hlen, ?_⟩
  · exact fun hmem => absurd (hflat.printed _ hmem) (by decide)
  · intro chunks hchunks
    refine ⟨_, ?_, hshows⟩
    have hmem : ("ok", Scalar.bool true) ∈ reply_fields s stored active_mac := by simp [reply_fields]
    obtain ⟨hreply, hok⟩ := request_reply_line hflat hchunks (by omega) hmem
    have hmac : reply_item (flat_value (reply_fields s stored active_mac)) "mac" = some (.str (decode (mac_text s.mac))) := by
      rw [reply_item, hshows.mac]
      rfl
    have haddress : reply_item (flat_value (reply_fields s stored active_mac)) "active_mac" =
        some (.str (decode (mac_text active_mac))) := by
      rw [reply_item, hshows.active_mac]
      rfl
    have hsaved := (hshows.spelled hvalid py (valid_mac hvalid) hmac fun _ _ => rfl).validates
    have hrunning : (Profile.of_settings s hvalid active_mac hactive).Spelled py fun name =>
        if name = "mac" then some (.str (decode (mac_text active_mac)))
        else reply_item (flat_value (reply_fields s stored active_mac)) name :=
      hshows.spelled hvalid py hactive rfl fun _ hname => if_neg hname
    have htrue : (reply_ok (flat_value (reply_fields s stored active_mac)) == some true) = true := by
      rw [hok]
      rfl
    have hnone : (reply_item (flat_value (reply_fields s stored active_mac)) "password").isNone = true := by
      rw [reply_item, hshows.password]
      rfl
    have hbool : (is_bool (flat_value (reply_fields s stored active_mac)) "stored" &&
        is_bool (flat_value (reply_fields s stored active_mac)) "password_set") = true := by
      rw [is_bool, hshows.stored, is_bool, hshows.password_set]
      rfl
    refine bind_eq_ok.mpr ⟨_, hreply, ?_⟩
    refine bind_eq_ok.mpr ⟨(), require_eq_ok.mpr htrue, ?_⟩
    refine bind_eq_ok.mpr ⟨(), require_eq_ok.mpr hnone, ?_⟩
    refine bind_eq_ok.mpr ⟨(), require_eq_ok.mpr hbool, ?_⟩
    rw [invalid_response_eq_ok]
    refine bind_eq_ok.mpr ⟨_, hsaved, ?_⟩
    refine bind_eq_ok.mpr ⟨_, subscript_eq_ok.mpr haddress, ?_⟩
    exact bind_eq_ok.mpr ⟨_, hrunning.validates, rfl⟩

/-- `str(o)` of a string or an integer. -/
def str_of : Object → Option (List Nat)
  | .str s => some s
  | .int z => some (decode (signed_decimal z))
  | _ => none

/-- The form after a reply was loaded into it: the password is blank and not to
be replaced. -/
def loaded_form (reply : Value) (name : String) : Option Object :=
  if name ∈ ["mac", "host", "port", "worker"] then ((reply_item reply name).bind str_of).map .str else none

/-- A string that has a terminator. -/
theorem string_ok_split {s : List Byte} (h : string_ok s = true) :
    s.takeWhile (· != 0) ++ 0 :: s.drop ((s.takeWhile (· != 0)).length + 1) = s := by
  induction s with
  | nil => cases h
  | cons c s ih =>
    rw [string_ok] at h
    split at h
    next hzero => simp [hzero]
    next hzero =>
      split at h
      · cases h
      · have htake : (c :: s).takeWhile (· != 0) = c :: s.takeWhile (· != 0) :=
          List.takeWhile_cons_of_pos (bne_iff_ne.mpr hzero)
        rw [htake]
        exact congrArg (c :: ·) (ih h)

theorem store_c_string {n : Nat} {array : Vector Byte n} (h : string_ok array.toList = true) :
    store_string array (c_string array) = array := by
  have hlen := (setting_char_of_string_ok h).2
  rw [Vector.length_toList] at hlen
  refine Vector.toList_inj.mp ?_
  rw [c_string, store_string_toList array hlen]
  exact string_ok_split h

theorem signed_decimal_nat (n : Nat) : signed_decimal (n : Int) = decimal n := by
  rw [signed_decimal, if_neg (by omega), Int.toNat_natCast]

section Unedited

variable {s : miner_settings} (hs : ValidSettings s)

/-- The profile of a form that settings were loaded into. -/
def unedited : Profile := Profile.of_settings s hs s.mac (valid_mac hs)

theorem unedited_spelled {reply : Value} {stored : Bool} {active_mac : Vector Byte 6} (h : Shows reply s stored active_mac)
    (py : Runtime) : (unedited hs).Spelled py (loaded_form reply) := by
  constructor
  · refine ⟨hex_colons s.mac.toList, ?_, hex_colons_spelled py s.mac⟩
    rw [hex_colons_eq, loaded_form, if_pos (by decide), reply_item, h.mac]
    rfl
  · refine ⟨.str (decode (decimal s.port.toNat)), ?_, ?_⟩
    · rw [loaded_form, if_pos (by decide), reply_item, h.port, ← signed_decimal_nat]
      rfl
    · have hplain : ∀ b : Byte, plain b = true → b.toNat < 128 := by decide
      have hchars : ∀ c ∈ decode (decimal s.port.toNat), c < 128 := by
        intro c hc
        obtain ⟨b, hb, rfl⟩ := List.mem_map.mp hc
        exact hplain b (plain_decimal _ b hb)
      rw [int_of, int_text_ascii py hchars, int_ascii_decimal]
      rfl
  · rw [loaded_form, if_pos (by decide), reply_item, h.host]
    rfl
  · rw [loaded_form, if_pos (by decide), reply_item, h.worker]
    rfl
  · rw [loaded_form, if_neg (by decide)]
    rfl

/-- The settings that a form was loaded with do not change when it is saved. -/
theorem unedited_next : (unedited hs).next s = s := by
  have hport := (unedited hs).next_port s
  have hhost := store_c_string hs.host
  have hworker := store_c_string hs.worker
  have hfields : ∀ a b : miner_settings, a.mac = b.mac → a.port = b.port → a.host = b.host → a.worker = b.worker →
      a.password = b.password → a = b := by
    rintro ⟨⟩ ⟨⟩ rfl rfl rfl rfl rfl
    rfl
  exact hfields _ _ rfl hport hhost hworker rfl

end Unedited

theorem get_settings_flat : Flat [("command", .string (ascii "get_settings"))] where
  nonempty := by simp
  names := by simp only [List.forall_mem_singleton]; decide
  nodup := by simp
  plain := by
    rw [List.forall_mem_singleton]
    exact fun c hc => by revert c; decide

theorem get_settings_payload :
    payload get_settings = flat_text [("command", .string (ascii "get_settings"))] ++ [0x0a] := by
  decide

/-- A reply of one line is sent whole. -/
theorem connection_reply {j : Json} {start : Word} {received : List (Word × Received)} {line reply : List Byte}
    (hin : Delivers start received (line ++ [0x0a])) (hnewline : 0x0a ∉ line) (hlen : line.length < LINE_SIZE)
    {current next : miner_settings} {active_mac : Vector Byte 6} {d d' : Device Byte}
    (hreply : config_reply j line true current active_mac d = .value (next, some reply) d')
    (hfits : reply.length < LINE_SIZE) {sends : List Int} (hsends : Takes sends reply) :
    config_connection j start received sends current active_mac d = .value (next, reply) d' := by
  rw [config_connection, hin.line hnewline hlen]
  dsimp only
  rw [hreply]
  dsimp only [Outcome.bind]
  rw [if_neg (Nat.not_le.mpr hfits), hsends.all]

/-- A connection that asks for the settings: the miner answers with those it
would load, and the dashboard accepts the answer. -/
theorem get_settings_exchange {j : Json} (hj : Standard j) (py : Runtime) {start : Word} {received : List (Word × Received)}
    (hin : Delivers start received (payload get_settings)) (current : miner_settings) {active_mac : Vector Byte 6}
    (hactive : ValidMac active_mac) (m : Cells Byte) :
    ∃ reply, (∀ sends, Takes sends reply →
        config_connection j start received sends current active_mac ⟨m, []⟩ = .value (current, reply) ⟨m, []⟩) ∧
      ∀ chunks, Segments chunks reply →
        ∃ v, read_settings py chunks = .ok v ∧ Shows v (loaded m).1 ((loaded m).2 != 0) active_mac := by
  obtain ⟨line, hjson, _, hlen, hread⟩ := settings_reply_read (firmware.loaded_valid m) ((loaded m).2 != 0) hactive py
  refine ⟨line ++ [0x0a], ?_, hread⟩
  intro sends hsends
  have hcommand : json_string j (flat_text [("command", .string (ascii "get_settings"))]) "command" 24 =
      some (ascii "get_settings") := hj.json_string get_settings_flat (by simp) (by decide) (by decide)
  have hstatus : ¬(loaded m).2 < 0 := by
    unfold loaded
    split <;> simp
  have hreply : config_reply j (flat_text [("command", .string (ascii "get_settings"))]) true current active_mac ⟨m, []⟩ =
      .value (current, some (line ++ [0x0a])) ⟨m, []⟩ := by
    rw [config_reply, hj.validate get_settings_flat, if_neg (by decide), if_neg (by decide), hcommand]
    dsimp only
    rw [if_pos rfl, settings_load_fault_free]
    dsimp only [Outcome.bind]
    rw [if_neg hstatus, hjson]
  rw [get_settings_payload] at hin
  have hnewline : 0x0a ∉ flat_text [("command", .string (ascii "get_settings"))] := fun hmem =>
    absurd (get_settings_flat.printed _ hmem) (by decide)
  refine connection_reply hin hnewline (by decide) hreply ?_ hsends
  rw [List.length_append, List.length_singleton, LINE_SIZE]
  omega

/-- The members of the reply to a request that was saved. -/
def saved_fields : List (String × Scalar) :=
  [("ok", .bool true), ("message", .string (ascii "Saved; pool reconnects, MAC applies after reboot"))]

theorem saved_flat : Flat saved_fields where
  nonempty := by simp [saved_fields]
  names := by
    simp only [saved_fields, List.forall_mem_cons]
    decide
  nodup := by decide
  plain := by
    simp only [saved_fields, List.forall_mem_cons]
    refine ⟨trivial, ?_, by simp⟩
    exact fun c hc => by revert c; decide

theorem saved_reply_eq : saved_reply = flat_text saved_fields ++ [0x0a] := by
  decide

/-- A connection that sends the request of a profile: the miner uses and stores
its settings. -/
theorem configure_exchange {j : Json} (hj : Standard j) (p : Profile) {start : Word} {received : List (Word × Received)}
    (hin : Delivers start received (payload p.request)) {current : miner_settings}
    (hcurrent : settings_valid current = true) (active_mac : Vector Byte 6) (m : Cells Byte) {sends : List Int}
    (hsends : Takes sends saved_reply) :
    ∃ plan, config_connection j start received sends current active_mac ⟨m, []⟩ =
      .value (p.next current, saved_reply) ⟨saved m (p.next current), plan⟩ := by
  obtain ⟨plan, hsave⟩ := settings_save_fault_free m (p.next_valid hcurrent)
  have hcommand : json_string j (flat_text p.fields) "command" 24 = some (ascii "configure") :=
    hj.json_string p.flat p.mem_fields.1 (by decide) (by decide)
  have hconfigure : configure j (flat_text p.fields) current ⟨m, []⟩ =
      .value (p.next current, none) ⟨saved m (p.next current), plan⟩ := by
    rw [configure, p.parses hj hcurrent]
    dsimp only
    rw [hsave]
    rfl
  have hreply : config_reply j (flat_text p.fields) true current active_mac ⟨m, []⟩ =
      .value (p.next current, some saved_reply) ⟨saved m (p.next current), plan⟩ := by
    rw [config_reply, hj.validate p.flat, if_neg (by decide), if_neg (by decide), hcommand]
    dsimp only
    rw [if_neg (by decide), hconfigure]
    rfl
  have hnewline : 0x0a ∉ flat_text p.fields := fun hmem => absurd (p.flat.printed _ hmem) (by decide)
  rw [p.payload_eq] at hin
  exact ⟨plan, connection_reply hin hnewline (Nat.lt_of_le_of_lt p.fields_length (by decide)) hreply (by decide) hsends⟩

/-- The dashboard takes the answer to a saved form, however it is split. -/
theorem saved_reply_read {chunks : List (List Byte)} (h : Segments chunks saved_reply) :
    ∃ v, request_reply chunks = .ok v ∧ reply_ok v = some true := by
  rw [saved_reply_eq] at h
  exact ⟨_, request_reply_line saved_flat h (by decide) (by simp [saved_fields])⟩

/-- A form that the dashboard accepts becomes the settings of the miner, and is
what the dashboard reads back from any later connection. -/
theorem saved_settings_read_back {j : Json} (hj : Standard j) {py : Runtime} {values : String → Option Object}
    {request : List (String × Object)} (h : validate_settings py values = .ok request) (hform : FormValues values)
    {start : Word} {received : List (Word × Received)} (hin : Delivers start received (payload request))
    {current : miner_settings} (hcurrent : settings_valid current = true) (active_mac : Vector Byte 6) (m : Cells Byte) :
    validate_settings py (items request) = .ok request ∧
    ∃ next m', Configured py values current next ∧
      (∀ sends, Takes sends saved_reply → ∃ plan, config_connection j start received sends current active_mac ⟨m, []⟩ =
        .value (next, saved_reply) ⟨m', plan⟩) ∧
      (∀ chunks, Segments chunks saved_reply → ∃ v, request_reply chunks = .ok v ∧ reply_ok v = some true) ∧
      settings_load ⟨m', []⟩ = .value (next, 1) ⟨m', []⟩ ∧
      ∀ start' received', Delivers start' received' (payload get_settings) → ∀ active_mac', ValidMac active_mac' →
        ∃ reply, (∀ sends, Takes sends reply → config_connection j start' received' sends next active_mac' ⟨m', []⟩ =
            .value (next, reply) ⟨m', []⟩) ∧
          ∀ chunks, Segments chunks reply → ∃ v, read_settings py chunks = .ok v ∧ Shows v next true active_mac' := by
  obtain ⟨p, hp, rfl⟩ := validated_profile h hform
  have hvalid := p.next_valid hcurrent
  have hloaded : loaded (saved m (p.next current)) = (p.next current, 1) := loaded_sealed m hvalid
  refine ⟨(p.request_spelled py).validates, p.next current, saved m (p.next current), hp.configured hcurrent, ?_,
    fun _ => saved_reply_read, ?_, ?_⟩
  · exact fun sends hsends => configure_exchange hj p hin hcurrent active_mac m hsends
  · rw [settings_load_fault_free, hloaded]
  · intro start' received' hin' active_mac' hactive'
    obtain ⟨reply, hreply, hread⟩ := get_settings_exchange hj py hin' (p.next current) hactive' (saved m (p.next current))
    rw [hloaded] at hread
    exact ⟨reply, hreply, hread⟩

theorem defaults_valid : ValidSettings settings_defaults := (settings_valid_iff settings_defaults).mp (by decide)

/-- Python without characters outside ASCII or floats. -/
def plain_python : Runtime := ⟨fun _ => none, fun _ => none⟩

/-- An address like that of the defaults. -/
def edited_mac : Vector Byte 6 := #v[2, 0, 0, 0x11, 0x22, 0x44]

theorem edited_mac_unicast : edited_mac.get 0 &&& 1 = 0 := by decide

/-- A form with a pool, a worker and a password. -/
def edited : Profile where
  mac := edited_mac
  port := 4444
  host := ascii "pool.example"
  worker := ascii "rig.1"
  password := some (ascii "x9")
  mac_nonzero := ⟨2, by decide, by decide⟩
  mac_unicast := edited_mac_unicast
  port_nonzero := by decide
  host_length := by decide
  host_chars := by decide
  worker_length := by decide
  worker_chars := by decide
  password_length := by decide
  password_chars := by decide

/-- It can be saved on a blank EEPROM and read back. -/
theorem edited_saved_and_read :
    ∃ next m', (c_string next.host = ascii "pool.example" ∧ c_string next.worker = ascii "rig.1" ∧
        c_string next.password = ascii "x9") ∧
      (∀ sends, Takes sends saved_reply → ∃ plan, config_connection reference 0
        ((payload edited.request).map fun c => (0, .byte c)) sends settings_defaults settings_defaults.mac
        ⟨fun _ => 0xff, []⟩ = .value (next, saved_reply) ⟨m', plan⟩) ∧
      settings_load ⟨m', []⟩ = .value (next, 1) ⟨m', []⟩ ∧
      ∃ reply, ∀ chunks, Segments chunks reply → ∃ v, read_settings plain_python chunks = .ok v ∧
        Shows v next true settings_defaults.mac := by
  have hspelled := edited.request_spelled plain_python
  have hform : FormValues (items edited.request) := by
    constructor
    · intro o ho
      exact ⟨_, Option.some.inj (ho.symm.trans hspelled.host)⟩
    · intro o ho
      exact ⟨_, Option.some.inj (ho.symm.trans hspelled.worker)⟩
    · intro o ho
      exact ⟨_, Option.some.inj (ho.symm.trans hspelled.password)⟩
  obtain ⟨_, next, m', hconfigured, hsaved, _, hload, hread⟩ := saved_settings_read_back reference_standard
    hspelled.validates hform (delivers_at_once 0 _) ((settings_valid_iff _).mpr defaults_valid) settings_defaults.mac
    fun _ => 0xff
  obtain ⟨reply, _, hshown⟩ := hread 0 _ (delivers_at_once 0 _) settings_defaults.mac (valid_mac defaults_valid)
  have htext {a b : List Byte} (h : some (Object.str (decode a)) = some (.str (decode b))) : a = b := by
    have hdecoded : decode a = decode b := Object.str.inj (Option.some.inj h)
    rw [← encode_decode a, hdecoded, encode_decode]
  have hpassword : c_string next.password = ascii "x9" := by
    obtain ⟨hnone, _⟩ | hsome := hconfigured.password
    · cases hnone.symm.trans hspelled.password
    · exact htext (hsome.symm.trans hspelled.password)
  exact ⟨next, m', ⟨htext (hconfigured.host.symm.trans hspelled.host), htext (hconfigured.worker.symm.trans hspelled.worker),
    hpassword⟩, hsaved, hload, reply, hshown⟩

/-- Settings that are read into the form and saved without an edit stay as they
are, the password with them, also when they are loaded again. -/
theorem unedited_form_kept {j : Json} (hj : Standard j) (py : Runtime) {start : Word} {received : List (Word × Received)}
    (hin : Delivers start received (payload get_settings)) {active_mac : Vector Byte 6} (hactive : ValidMac active_mac)
    (m : Cells Byte) :
    ∃ reply, (∀ sends, Takes sends reply → config_connection j start received sends (loaded m).1 active_mac ⟨m, []⟩ =
        .value ((loaded m).1, reply) ⟨m, []⟩) ∧
      ∀ chunks, Segments chunks reply → ∃ v request, read_settings py chunks = .ok v ∧
        Shows v (loaded m).1 ((loaded m).2 != 0) active_mac ∧ validate_settings py (loaded_form v) = .ok request ∧
        (∀ start' received', Delivers start' received' (payload request) → ∀ active_mac' sends, Takes sends saved_reply →
          ∃ plan, config_connection j start' received' sends (loaded m).1 active_mac' ⟨m, []⟩ =
            .value ((loaded m).1, saved_reply) ⟨saved m (loaded m).1, plan⟩) ∧
        settings_load ⟨saved m (loaded m).1, []⟩ = .value ((loaded m).1, 1) ⟨saved m (loaded m).1, []⟩ := by
  have hvalid := firmware.loaded_valid m
  have hs := (settings_valid_iff _).mp hvalid
  obtain ⟨reply, hreply, hread⟩ := get_settings_exchange hj py hin (loaded m).1 hactive m
  refine ⟨reply, hreply, ?_⟩
  intro chunks hchunks
  obtain ⟨v, hv, hshows⟩ := hread chunks hchunks
  refine ⟨v, _, hv, hshows, (unedited_spelled hs hshows py).validates, ?_, ?_⟩
  · intro start' received' hin' active_mac' sends hsends
    have hsaved := configure_exchange hj (unedited hs) hin' hvalid active_mac' m hsends
    rw [unedited_next] at hsaved
    exact hsaved
  · have hloaded : loaded (saved m (loaded m).1) = ((loaded m).1, 1) := loaded_sealed m hvalid
    rw [settings_load_fault_free, hloaded]

/-- Settings with a pool, a worker and a password stay as they are. -/
theorem edited_form_kept :
    let s := edited.next settings_defaults
    let m := saved (fun _ => 0xff) s
    ∃ reply, ∀ chunks, Segments chunks reply → ∃ v request, read_settings plain_python chunks = .ok v ∧
      Shows v s true s.mac ∧ validate_settings plain_python (loaded_form v) = .ok request ∧
      (∀ sends, Takes sends saved_reply → ∃ plan, config_connection reference 0
        ((payload request).map fun c => (0, .byte c)) sends s s.mac ⟨m, []⟩ = .value (s, saved_reply) ⟨saved m s, plan⟩) ∧
      settings_load ⟨saved m s, []⟩ = .value (s, 1) ⟨saved m s, []⟩ := by
  intro s m
  have hvalid : settings_valid s = true := edited.next_valid ((settings_valid_iff _).mpr defaults_valid)
  have hloaded : loaded m = (s, 1) := loaded_sealed _ hvalid
  obtain ⟨reply, _, hread⟩ := unedited_form_kept reference_standard plain_python (delivers_at_once 0 _)
    (valid_mac ((settings_valid_iff _).mp hvalid)) m
  rw [hloaded] at hread
  refine ⟨reply, fun chunks hchunks => ?_⟩
  obtain ⟨v, request, hv, hshows, hvalidated, hkept, hagain⟩ := hread chunks hchunks
  exact ⟨v, request, hv, hshows, hvalidated, fun sends => hkept 0 _ (delivers_at_once 0 _) s.mac sends, hagain⟩

end scu35.miner_dashboard
