import Scu35Miner.Software.MinerProtocol.Text

open fips180 radix rfc8259

namespace scu35.json_helpers

open miner_protocol

/-- A member of an object that holds no others. -/
inductive Scalar where
  | string (s : List Byte)
  | number (n : Nat)
  | bool (b : Bool)

namespace Scalar

def Plain : Scalar → Prop
  | .string s => ∀ c ∈ s, plain c = true
  | _ => True

def text : Scalar → List Byte
  | .string s => quoted s
  | .number n => decimal n
  | .bool b => bool_text b

def value : Scalar → Value
  | .string s => .string s
  | .number n => .int n
  | .bool b => .bool b

/-- A string without its quotes. -/
def slice : Scalar → List Byte
  | .string s => s
  | .number n => decimal n
  | .bool b => bool_text b

def type : Scalar → JSONTypes
  | .string _ => .JSONString
  | .number _ => .JSONNumber
  | .bool true => .JSONTrue
  | .bool false => .JSONFalse

theorem reads {v : Scalar} (h : v.Plain) : Reads v.text v.value := by
  cases v with
  | string s => exact reads_quoted h
  | number n => exact reads_decimal n
  | bool b => exact reads_bool_text b

theorem string_length {s : List Byte} {n : Nat} (hs : s.length ≤ n) : (Scalar.string s).text.length ≤ n + 2 := by
  simp only [text, quoted, List.length_append]
  change 1 + s.length + 1 ≤ n + 2
  omega

theorem port_length (port : BitVec 16) : (Scalar.number port.toNat).text.length ≤ 5 :=
  decimal_length (by decide) (Nat.lt_trans port.isLt (by decide))

theorem bool_length (b : Bool) : (Scalar.bool b).text.length ≤ 5 := (bool_within b).length

end Scalar

/-- A name that a query finds at the top of an object. -/
def simple_name (name : String) : Bool :=
  name != "" && (ascii name).all fun c => plain c && c != 0x2e && c != 0x5b

/-- Members with different simple names. -/
structure Flat (fs : List (String × Scalar)) : Prop where
  nonempty : fs ≠ []
  names : ∀ f ∈ fs, simple_name f.1 = true
  nodup : (fs.map fun f => ascii f.1).Nodup
  plain : ∀ f ∈ fs, f.2.Plain

/-- The text of an object. -/
def flat_text (fs : List (String × Scalar)) : List Byte := object (fs.map fun f => (f.1, f.2.text))

/-- The documented behaviour of the JSON library on objects without escapes. -/
structure Standard (j : Json) : Prop where
  validate : ∀ {fs}, Flat fs → j.validate (flat_text fs) = true
  found : ∀ {fs}, Flat fs → ∀ {name v}, (name, v) ∈ fs → j.search (flat_text fs) name = .success v.slice v.type
  missing : ∀ {fs}, Flat fs → ∀ {name}, simple_name name = true → ascii name ∉ fs.map (fun f => ascii f.1) →
    j.search (flat_text fs) name = .not_found

def field_of (f : String × Scalar) : Field := ⟨f.1, f.2.text, f.2.value⟩

def flat_value (fs : List (String × Scalar)) : Value := .object (fs.map fun f => (ascii f.1, f.2.value))

theorem Flat.reads {fs : List (String × Scalar)} (h : Flat fs) : Reads (flat_text fs) (flat_value fs) := by
  have hne : fs.map field_of ≠ [] := by simpa using h.nonempty
  have hread := reads_fields hne ?_ ?_
  · rw [List.map_map, List.map_map] at hread
    exact hread
  · intro name hname
    rw [List.map_map, List.mem_map] at hname
    obtain ⟨f, hf, rfl⟩ := hname
    have hsimple := h.names f hf
    simp only [simple_name, Bool.and_eq_true, List.all_eq_true] at hsimple
    exact List.all_eq_true.mpr fun c hc => (hsimple.2 c hc).1.1
  · intro f hf
    obtain ⟨g, hg, rfl⟩ := List.mem_map.mp hf
    exact Scalar.reads (h.plain g hg)

theorem Flat.get {fs : List (String × Scalar)} (h : Flat fs) {name : String} {v : Scalar} (hv : (name, v) ∈ fs) :
    (flat_value fs).get (ascii name) = some v.value := by
  refine get_of_mem ?_ (List.mem_map.mpr ⟨_, hv, rfl⟩)
  rw [List.map_map]
  exact h.nodup

theorem Flat.get_none {fs : List (String × Scalar)} {name : String} (h : ascii name ∉ fs.map fun f => ascii f.1) :
    (flat_value fs).get (ascii name) = none := by
  refine get_of_not_mem ?_
  rw [List.map_map]
  exact h

/-- The length of an object from bounds for its values. -/
theorem Flat.length {fs : List (String × Scalar)} (h : Flat fs) {bounds : List Nat}
    (hb : List.Forall₂ (fun f bound => f.2.text.length ≤ bound) fs bounds) :
    (flat_text fs).length ≤ object_bound (fs.map (·.1)) bounds := by
  have hwithin : List.Forall₂ (fun f bound => Within f.text f.value bound) (fs.map field_of) bounds := by
    rw [List.forall₂_map_left_iff]
    have hboth := (List.forall₂_and_left fs bounds).mpr ⟨fun f hf => Scalar.reads (h.plain f hf), hb⟩
    exact hboth.imp fun f bound hf => ⟨hf.1, hf.2⟩
  have hmembers := members_length (by simpa using h.nonempty) hwithin
  rw [List.map_map, List.map_map] at hmembers
  change (members (fs.map fun f => (f.1, f.2.text))).length + 2 ≤ object_bound (fs.map (·.1)) bounds at hmembers
  rw [flat_text, object, List.length_append, List.length_append]
  change 1 + (members (fs.map fun f => (f.1, f.2.text))).length + 1 ≤ _
  omega

theorem le_of_plain {c : Byte} (h : plain c = true) : 0x20 ≤ c := by
  revert c
  decide

theorem quoted_printed {s : List Byte} (hs : ∀ c ∈ s, (0x20 : Byte) ≤ c) : ∀ c ∈ quoted s, (0x20 : Byte) ≤ c := by
  have hquote : ∀ c ∈ ascii "\"", (0x20 : Byte) ≤ c := by decide
  simp only [quoted, List.forall_mem_append]
  exact ⟨⟨hquote, hs⟩, hquote⟩

theorem members_printed {l : List (String × List Byte)} (h : ∀ f ∈ l, (∀ c ∈ ascii f.1, (0x20 : Byte) ≤ c) ∧ ∀ c ∈ f.2, (0x20 : Byte) ≤ c) :
    ∀ c ∈ members l, (0x20 : Byte) ≤ c := by
  have hmark : (∀ c ∈ ascii ":", (0x20 : Byte) ≤ c) ∧ ∀ c ∈ ascii ",", (0x20 : Byte) ≤ c := by decide
  induction l with
  | nil => simp [members]
  | cons f l ih =>
    obtain ⟨hname, htext⟩ := h f (by simp)
    have hrest := ih fun g hg => h g (by simp [hg])
    cases l with
    | nil =>
      simp only [members, List.forall_mem_append]
      exact ⟨⟨quoted_printed hname, hmark.1⟩, htext⟩
    | cons g l =>
      simp only [members, List.forall_mem_append]
      exact ⟨⟨⟨⟨quoted_printed hname, hmark.1⟩, htext⟩, hmark.2⟩, hrest⟩

/-- The text of an object has no control characters. -/
theorem Flat.printed {fs : List (String × Scalar)} (h : Flat fs) : ∀ c ∈ flat_text fs, (0x20 : Byte) ≤ c := by
  have hbrace : (∀ c ∈ ascii "\x7b", (0x20 : Byte) ≤ c) ∧ ∀ c ∈ ascii "\x7d", (0x20 : Byte) ≤ c := by decide
  have hscalar {v : Scalar} (hv : v.Plain) : ∀ c ∈ v.text, (0x20 : Byte) ≤ c := by
    cases v with
    | string s => exact quoted_printed fun c hc => le_of_plain (hv c hc)
    | number n => exact fun c hc => le_of_plain (plain_decimal n c hc)
    | bool b => cases b <;> decide
  simp only [flat_text, object, List.forall_mem_append]
  refine ⟨⟨hbrace.1, members_printed ?_⟩, hbrace.2⟩
  intro f hf
  obtain ⟨g, hg, rfl⟩ := List.mem_map.mp hf
  have hsimple := h.names g hg
  simp only [simple_name, Bool.and_eq_true, List.all_eq_true] at hsimple
  exact ⟨fun c hc => le_of_plain (hsimple.2 c hc).1.1, hscalar (h.plain g hg)⟩

/-- A library that reads a text as a value and looks a scalar up in it. -/
def reference : Json where
  validate := fun b => (loads b).isSome
  search := fun b q =>
    match loads b with
    | none => .failure
    | some v =>
      match v.get (ascii q) with
      | none => .not_found
      | some (.string s) => .success s .JSONString
      | some (.int z) => .success (signed_decimal z) .JSONNumber
      | some (.bool true) => .success (bool_text true) .JSONTrue
      | some (.bool false) => .success (bool_text false) .JSONFalse
      | some _ => .failure

theorem reference_standard : Standard reference where
  validate h := by
    change (loads _).isSome = true
    rw [h.reads.loads]
    rfl
  found h name v hv := by
    unfold reference
    dsimp only
    rw [h.reads.loads]
    dsimp only
    rw [h.get hv]
    cases v with
    | string s => rfl
    | number n => rfl
    | bool b => cases b <;> rfl
  missing h name hsimple hname := by
    unfold reference
    dsimp only
    rw [h.reads.loads]
    dsimp only
    rw [Flat.get_none hname]

/-- The digits are added to the number read so far while it fits. -/
theorem u32_loop_digits (digits : List (Fin 10)) (r : Nat) (hfits : r * 10 ^ digits.length + decValue digits < 2 ^ 32) :
    u32_loop (digitText digits) r = some (r * 10 ^ digits.length + decValue digits) := by
  have hchar : ∀ d : Fin 10, ¬digitChar d < 0x30 ∧ ¬digitChar d > 0x39 := by decide
  induction digits generalizing r with
  | nil => simp [digitText, u32_loop]
  | cons d digits ih =>
    have hstep : r * 10 ^ (d :: digits).length + decValue (d :: digits) =
        (r * 10 + d) * 10 ^ digits.length + decValue digits := by
      rw [decValue_cons, List.length_cons]
      ring
    rw [hstep] at hfits ⊢
    have hpow : 0 < 10 ^ digits.length := by positivity
    have hle : r * 10 + d < 2 ^ 32 := by nlinarith
    have hd : (digitChar d).toNat - 0x30 = d.val := by
      rw [digitChar_toNat]
      omega
    have hroom : ¬r > (2 ^ 32 - 1 - d.val) / 10 := by omega
    rw [digitText_cons, u32_loop, hd, if_neg, ih _ hfits]
    simp only [hchar d, hroom, decide_false, Bool.or_false, Bool.false_eq_true, not_false_eq_true]

theorem u32_loop_decimal {n : Nat} (hn : n < 2 ^ 32) : u32_loop (decimal n) 0 = some n := by
  obtain ⟨digits, _, rfl, htext⟩ := decimal_digits n
  rw [htext, u32_loop_digits digits 0 (by simpa using hn), Nat.zero_mul, Nat.zero_add]

variable {j : Json} (hj : Standard j) {fs : List (String × Scalar)} (h : Flat fs) {name : String}
include hj h

theorem Standard.json_string {s : List Byte} (hs : (name, .string s) ∈ fs) {cap : Nat} (hlen : s.length < cap)
    (hchars : ∀ c ∈ s, string_char c = true) : json_string j (flat_text fs) name cap = some s := by
  have hfits : ¬(decide (s.length ≥ cap) || !s.all string_char) = true := by
    simpa [Nat.not_le.mpr hlen] using hchars
  rw [json_helpers.json_string, hj.found h hs]
  exact if_neg hfits

theorem Standard.json_u32 {n : Nat} (hn : (name, .number n) ∈ fs) (hlt : n < 2 ^ 32) :
    json_u32 j (flat_text fs) name = some (BitVec.ofNat 32 n) := by
  have hnil : (decimal n).length ≠ 0 := by
    obtain ⟨digits, hcanonical, _, htext⟩ := decimal_digits n
    rw [htext]
    simpa using hcanonical.1
  rw [json_helpers.json_u32, hj.found h hn]
  change (if (decimal n).length = 0 then none else (u32_loop (decimal n) 0).map _) = _
  rw [if_neg hnil, u32_loop_decimal hlt]
  rfl

end scu35.json_helpers
