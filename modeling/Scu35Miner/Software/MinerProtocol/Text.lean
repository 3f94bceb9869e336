import Scu35Miner.Rfc8259.Text
import Scu35Miner.Software.MinerProtocol.Telemetry

open fips180 radix rfc8259

namespace scu35.miner_protocol

open bitcoin json_helpers settings stratum ina700

theorem ascii_append (s t : String) : ascii (s ++ t) = ascii s ++ ascii t := by
  simp [ascii]

/-- A printed number is its decimal digits. -/
theorem decimal_digits (n : Nat) : ∃ digits, Canonical digits ∧ decValue digits = n ∧ decimal n = digitText digits := by
  induction n using Nat.strong_induction_on with
  | _ n ih =>
    have hchar : ∀ d : Fin 10, ascii (String.singleton (Nat.digitChar d)) = digitText [d] := by decide
    by_cases hlt : n < 10
    · refine ⟨[⟨n, hlt⟩], ⟨by simp, fun h => congrArg (fun d => [d]) (Option.some.inj h)⟩, by simp [decValue], ?_⟩
      rw [decimal, Nat.toString_eq_repr, Nat.repr_of_lt hlt]
      exact hchar ⟨n, hlt⟩
    · obtain ⟨digits, hcanonical, hvalue, htext⟩ := ih (n / 10) (by omega)
      have hlast : n % 10 < 10 := Nat.mod_lt _ (by decide)
      refine ⟨digits ++ [⟨n % 10, hlast⟩], ⟨by simp, ?_⟩, ?_, ?_⟩
      · intro hhead
        obtain ⟨d, ds, rfl⟩ : ∃ d ds, digits = d :: ds := List.exists_cons_of_ne_nil hcanonical.1
        have hone := hcanonical.2 hhead
        rw [hone] at hvalue
        change 0 = n / 10 at hvalue
        omega
      · rw [decValue_concat, hvalue]
        change n / 10 * 10 + n % 10 = n
        omega
      · rw [digitText_append, ← htext, decimal, decimal, Nat.toString_eq_repr, Nat.toString_eq_repr,
          Nat.repr_of_ge (Nat.le_of_not_lt hlt), ascii_append]
        exact congrArg (ascii (n / 10).repr ++ ·) (hchar ⟨n % 10, hlast⟩)

theorem decimal_length {n k : Nat} (hk : 0 < k) (hn : n < 10 ^ k) : (decimal n).length ≤ k := by
  have hlen := (Nat.length_repr_le_iff hk).mpr hn
  rw [decimal, ascii, List.length_map, Nat.toString_eq_repr, String.length_toList]
  exact hlen

theorem reads_decimal (n : Nat) : Reads (decimal n) (.int n) := by
  obtain ⟨digits, hcanonical, rfl, htext⟩ := decimal_digits n
  rw [htext]
  exact reads_digits hcanonical

theorem reads_signed_decimal (z : Int) : Reads (signed_decimal z) (.int z) := by
  unfold signed_decimal
  split
  next hneg =>
    obtain ⟨digits, hcanonical, hvalue, htext⟩ := decimal_digits (-z).toNat
    have hz : z = -(decValue digits : Int) := by omega
    rw [htext, hz]
    exact reads_negative hcanonical
  next hpos =>
    have hz : z = (z.toNat : Int) := by omega
    have hread := reads_decimal z.toNat
    rwa [← hz] at hread

theorem signed_decimal_length {z : Int} {k : Nat} (hk : 0 < k) (hz : z.natAbs < 10 ^ k) :
    (signed_decimal z).length ≤ k + 1 := by
  unfold signed_decimal
  split
  · have hlen := decimal_length hk (n := (-z).toNat) (by omega)
    rw [List.length_append]
    change 1 + _ ≤ _
    omega
  · have hlen := decimal_length hk (n := z.toNat) (by omega)
    omega

theorem reads_quoted {s : List Byte} (hs : ∀ c ∈ s, plain c = true) : Reads (quoted s) (.string s) := by
  have h := reads_string hs
  exact h

theorem reads_bool_text (b : Bool) : Reads (bool_text b) (.bool b) := by
  cases b with
  | true => exact reads_true
  | false => exact reads_false

theorem reads_null_text : Reads null_text .null := reads_null

/-- A member of an object: its name, the text of its value, and the value. -/
structure Field where
  name : String
  text : List Byte
  value : Value

def Field.member (f : Field) : Member := ⟨ascii f.name, f.text, f.value⟩

theorem object_eq (fs : List Field) :
    object (fs.map fun f => (f.name, f.text)) = object_text (fs.map Field.member) := by
  have hmembers : members (fs.map fun f => (f.name, f.text)) = members_text (fs.map Field.member) := by
    induction fs with
    | nil => rfl
    | cons f fs ih =>
      have hfield (after : List Byte) : quoted (ascii f.name) ++ ascii ":" ++ f.text ++ after = f.member.bytes ++ after := by
        simp [quoted, Field.member, Member.bytes, ascii]
      cases fs with
      | nil =>
        have hlast := hfield []
        rw [List.append_nil, List.append_nil] at hlast
        exact hlast
      | cons f' fs =>
        change quoted (ascii f.name) ++ ascii ":" ++ f.text ++ ascii "," ++ members _ = f.member.bytes ++ 0x2c :: members_text _
        rw [ih, hfield, List.append_assoc]
        rfl
  rw [object, hmembers]
  rfl

/-- An object of fields reads as their values. -/
theorem reads_fields {fs : List Field} (hne : fs ≠ []) (hnames : ∀ name ∈ fs.map Field.name, (ascii name).all plain = true)
    (h : ∀ f ∈ fs, Reads f.text f.value) :
    Reads (object (fs.map fun f => (f.name, f.text))) (.object (fs.map fun f => (ascii f.name, f.value))) := by
  have hsound : ∀ m ∈ fs.map Field.member, m.Sound := by
    intro m hm
    obtain ⟨f, hf, rfl⟩ := List.mem_map.mp hm
    exact ⟨List.all_eq_true.mp (hnames f.name (List.mem_map_of_mem hf)), h f hf⟩
  have hread := reads_object (by simpa using hne) hsound
  rw [← object_eq, List.map_map] at hread
  exact hread

/-- The value of a field whose name occurs once. -/
theorem field_get {fs : List Field} (hkeys : ((fs.map Field.name).map ascii).Nodup) {f : Field} (hf : f ∈ fs) :
    (Value.object (fs.map fun f => (ascii f.name, f.value))).get (ascii f.name) = some f.value := by
  refine get_of_mem ?_ (List.mem_map.mpr ⟨f, hf, rfl⟩)
  rw [List.map_map] at hkeys ⊢
  exact hkeys

theorem field_get_none {fs : List Field} {name : String} (h : ascii name ∉ (fs.map Field.name).map ascii) :
    (Value.object (fs.map fun f => (ascii f.name, f.value))).get (ascii name) = none := by
  refine get_of_not_mem ?_
  rw [List.map_map] at h ⊢
  exact h

theorem ascii_length (s : String) : (ascii s).length = s.length := by
  rw [ascii, List.length_map, String.length_toList]

/-- A text that is read as a value, and a bound of its length. -/
structure Within (text : List Byte) (value : Value) (bound : Nat) : Prop where
  reads : Reads text value
  length : text.length ≤ bound

theorem Within.mono {text : List Byte} {value : Value} {bound bound' : Nat} (h : Within text value bound)
    (hle : bound ≤ bound') : Within text value bound' :=
  ⟨h.reads, Nat.le_trans h.length hle⟩

/-- The length of an object: four characters for a member beside its name and
its value. -/
def object_bound (names : List String) (bounds : List Nat) : Nat :=
  (names.map fun name => name.length + 4).sum + bounds.sum + 1

theorem members_length {fs : List Field} {bounds : List Nat} (hne : fs ≠ [])
    (h : List.Forall₂ (fun f bound => Within f.text f.value bound) fs bounds) :
    (members (fs.map fun f => (f.name, f.text))).length + 2 ≤ object_bound (fs.map Field.name) bounds := by
  induction h with
  | nil => exact absurd rfl hne
  | @cons f bound fs bounds hf h ih =>
    have hfield : (quoted (ascii f.name) ++ ascii ":" ++ f.text).length = f.name.length + f.text.length + 3 := by
      simp only [quoted, List.length_append, ascii_length]
      change 1 + f.name.length + 1 + 1 + f.text.length = _
      omega
    have hlength := hf.length
    have hbound : object_bound ((f :: fs).map Field.name) (bound :: bounds) =
        f.name.length + 4 + bound + object_bound (fs.map Field.name) bounds := by
      simp only [object_bound, List.map_cons, List.sum_cons]
      omega
    rw [hbound]
    cases fs with
    | nil =>
      change (quoted (ascii f.name) ++ ascii ":" ++ f.text).length + 2 ≤ _
      rw [hfield, object_bound]
      omega
    | cons f' fs =>
      have hrest := ih (by simp)
      change (quoted (ascii f.name) ++ ascii ":" ++ f.text ++ ascii "," ++ members _).length + 2 ≤ _
      rw [List.length_append, List.length_append, hfield, ascii_length]
      change f.name.length + f.text.length + 3 + 1 + _ + 2 ≤ _
      omega

/-- The value of an object of fields. -/
def fields_value (fs : List Field) : Value := .object (fs.map fun f => (ascii f.name, f.value))

/-- An object reads as the values of its fields, and its length is bounded by
theirs. -/
theorem object_within {fs : List Field} {bounds : List Nat} (hne : fs ≠ [])
    (hnames : ∀ name ∈ fs.map Field.name, (ascii name).all plain = true)
    (h : List.Forall₂ (fun f bound => Within f.text f.value bound) fs bounds) :
    Within (object (fs.map fun f => (f.name, f.text))) (fields_value fs)
      (object_bound (fs.map Field.name) bounds) := by
  constructor
  · refine reads_fields hne hnames fun f hf => ?_
    obtain ⟨i, hi, rfl⟩ := List.mem_iff_getElem.mp hf
    have hlen : i < bounds.length := h.length_eq ▸ hi
    exact (h.get hi hlen).reads
  · have hmembers := members_length hne h
    rw [object, List.length_append, List.length_append]
    change 1 + _ + 1 ≤ _
    omega

/-- The text of a member stands in the text of its object. -/
theorem object_holds {fields : List (String × List Byte)} {name : String} {text : List Byte}
    (h : (name, text) ∈ fields) : text <:+: object fields := by
  have hmembers : text <:+: members fields := by
    induction fields with
    | nil => cases h
    | cons f fields ih =>
      obtain rfl | hrest := List.mem_cons.mp h
      · cases fields with
        | nil => exact List.infix_append_right
        | cons f' fields =>
          change text <:+: quoted (ascii name) ++ ascii ":" ++ text ++ ascii "," ++ members _
          rw [List.append_assoc (_ ++ text)]
          exact List.infix_append _ _ _
      · cases fields with
        | nil => cases hrest
        | cons f' fields => exact (ih hrest).trans List.infix_append_right
  exact hmembers.trans (List.infix_append _ _ _)

theorem word_within (w : Word) : Within (decimal w.toNat) (.int w.toNat) 10 :=
  ⟨reads_decimal _, decimal_length (by decide) (Nat.lt_trans w.isLt (by decide))⟩

theorem null_within : Within null_text .null 4 := ⟨reads_null_text, by decide⟩

theorem bool_within (b : Bool) : Within (bool_text b) (.bool b) 5 := by
  refine ⟨reads_bool_text b, ?_⟩
  cases b <;> decide

theorem signed_within {z : Int} {k : Nat} (hk : 0 < k) (hz : z.natAbs < 10 ^ k) :
    Within (signed_decimal z) (.int z) (k + 1) :=
  ⟨reads_signed_decimal z, signed_decimal_length hk hz⟩

theorem quoted_within {s : List Byte} {bound : Nat} (hs : ∀ c ∈ s, plain c = true) (hlen : s.length ≤ bound) :
    Within (quoted s) (.string s) (bound + 2) := by
  refine ⟨reads_quoted hs, ?_⟩
  rw [quoted, List.length_append, List.length_append]
  change 1 + s.length + 1 ≤ _
  omega

theorem plain_append {s t : List Byte} (hs : ∀ c ∈ s, plain c = true) (ht : ∀ c ∈ t, plain c = true) :
    ∀ c ∈ s ++ t, plain c = true := by
  intro c hc
  obtain hc | hc := List.mem_append.mp hc
  · exact hs c hc
  · exact ht c hc

theorem plain_decimal (n : Nat) : ∀ c ∈ decimal n, plain c = true := by
  obtain ⟨digits, _, _, htext⟩ := decimal_digits n
  have hdigit : ∀ d : Fin 10, plain (digitChar d) = true := by decide
  intro c hc
  rw [htext] at hc
  obtain ⟨d, _, rfl⟩ := List.mem_map.mp hc
  exact hdigit d

theorem plain_hex_encode (s : List Byte) : ∀ c ∈ hex_encode s, plain c = true := by
  have hchar : ∀ b : Byte, plain (hex_char (b >>> 4)) = true ∧ plain (hex_char (b &&& 15)) = true := by decide
  intro c hc
  rw [hex_encode, List.mem_flatMap] at hc
  obtain ⟨b, _, hb⟩ := hc
  obtain rfl | rfl := List.mem_pair.mp hb
  · exact (hchar b).1
  · exact (hchar b).2

theorem hex_encode_length (s : List Byte) : (hex_encode s).length = 2 * s.length := by
  induction s with
  | nil => rfl
  | cons b s ih =>
    change (hex_char _ :: hex_char _ :: hex_encode s).length = _
    simp only [List.length_cons, ih]
    omega


theorem mac_text_length (mac : Vector Byte 6) : (mac_text mac).length = 17 := by
  simp only [mac_text, List.length_append, ascii_length]
  rfl

theorem plain_mac_text (mac : Vector Byte 6) : ∀ c ∈ mac_text mac, plain c = true := by
  have hcolon : ∀ c ∈ ascii ":", plain c = true := by decide
  have hpair (b : Byte) := plain_hex_encode [b]
  exact plain_append (plain_append (plain_append (plain_append (plain_append (plain_append (plain_append (plain_append
    (plain_append (plain_append (hpair _) hcolon) (hpair _)) hcolon) (hpair _)) hcolon) (hpair _)) hcolon) (hpair _))
    hcolon) (hpair _)

end scu35.miner_protocol
