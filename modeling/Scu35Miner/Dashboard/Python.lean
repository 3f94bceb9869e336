import Scu35Miner.Software.MinerProtocol.Text

open fips180 radix rfc8259

namespace scu35.python

open bitcoin json_helpers miner_protocol

/-- A string is the list of its code points. -/
def text (s : String) : List Nat := s.toList.map Char.toNat

/-- The values that forms and JSON texts hold. A float keeps its text. -/
inductive Object where
  | none
  | bool (b : Bool)
  | int (z : Int)
  | float (text : List Byte)
  | str (s : List Nat)
  | list (os : List Object)
  | dict (ms : List (List Nat × Object))

/-- An exception; the message of a `ValueError` is one of `ε`. -/
inductive Raised (ε : Type) where
  | value_error (e : ε)
  | key_error (name : String)
  | type_error
  | attribute_error
  | overflow_error
  | os_error
deriving DecidableEq, Repr

/-- What follows a check that may raise. -/
def require {ε : Type} (c : Bool) (e : ε) : Except (Raised ε) Unit := if c then .ok () else .error (.value_error e)

/-- `d[key] = o`. -/
def set_item (d : List (List Nat × Object)) (key : List Nat) (o : Object) : List (List Nat × Object) :=
  if d.any (·.1 == key) then d.map fun m => if m.1 == key then (key, o) else m else d ++ [(key, o)]

mutual

/-- The object that `json.loads` makes of a value. -/
def of_value : Value → Object
  | .null => .none
  | .bool b => .bool b
  | .int z => .int z
  | .real t => .float t
  | .string s => .str (s.map BitVec.toNat)
  | .array vs => .list (of_values vs)
  | .object ms => .dict (of_members ms [])

def of_values : List Value → List Object
  | [] => []
  | v :: vs => of_value v :: of_values vs

def of_members : List (List Byte × Value) → List (List Nat × Object) → List (List Nat × Object)
  | [], d => d
  | (key, v) :: ms, d => of_members ms (set_item d (key.map BitVec.toNat) (of_value v))

end

/-- What an iteration over an object yields. -/
def iterate {ε : Type} : Object → Except (Raised ε) (List Object)
  | .str s => .ok (s.map fun c => .str [c])
  | .list os => .ok os
  | .dict ms => .ok (ms.map fun m => .str m.1)
  | _ => .error .type_error

/-- `ord(o)`. -/
def ord {ε : Type} : Object → Except (Raised ε) Nat
  | .str [c] => .ok c
  | _ => .error .type_error

/-- `o.split(sep)` for a single character. -/
def split {ε : Type} (sep : Nat) : Object → Except (Raised ε) (List (List Nat))
  | .str s => .ok (s.splitOn sep)
  | _ => .error .attribute_error

/-- The white space around a number. -/
def space (c : Nat) : Bool := (9 ≤ c && c ≤ 13) || c == 32

def digit (base : Nat) (c : Nat) : Option Nat :=
  let v :=
    if 0x30 ≤ c && c ≤ 0x39 then c - 0x30
    else if 0x61 ≤ c && c ≤ 0x7a then c - 0x57
    else if 0x41 ≤ c && c ≤ 0x5a then c - 0x37
    else 36
  if v < base then some v else none

/-- Digits with single underscores between them, and what follows. -/
def int_digits (base : Nat) (s : List Nat) : Option (Nat × List Nat) :=
  let inside (c : Nat) : Bool := c == 0x5f || (digit base c).isSome
  let pieces := (s.takeWhile inside).splitOn 0x5f
  if pieces.any (·.isEmpty) then none
  else some (pieces.flatten.foldl (fun v c => v * base + (digit base c).getD 0) 0, s.dropWhile inside)

/-- Without the `0x` of a hexadecimal number and an underscore after it. -/
def drop_base (base : Nat) : List Nat → List Nat
  | c :: d :: s =>
    if base = 16 ∧ c = 0x30 ∧ (d = 0x78 ∨ d = 0x58) then if s.head? = some 0x5f then s.tail else s else c :: d :: s
  | s => s

def int_ascii (s : List Nat) (base : Nat) : Option Int :=
  let s := s.dropWhile space
  let negative := s.head? = some 0x2d
  let s := if negative || s.head? = some 0x2b then s.tail else s
  match int_digits base (drop_base base s) with
  | none => none
  | some (v, rest) => if rest.all space then some (if negative then -v else v) else none

/-- The white space and the decimal digits outside ASCII as ASCII characters,
and the integer part of a finite float. -/
structure Runtime where
  unicode : Nat → Option Nat
  truncate : List Byte → Option Int

/-- `int(s, base)`. -/
def int_text (py : Runtime) (s : List Nat) (base : Nat) : Option Int :=
  int_ascii (s.map fun c => if c < 128 then c else (py.unicode c).getD 0x3f) base

/-- `int(o)`; `e` is the message for a text that is no number. -/
def int_of {ε : Type} (py : Runtime) (e : ε) : Object → Except (Raised ε) Int
  | .bool b => .ok (if b then 1 else 0)
  | .int z => .ok z
  | .float t =>
    match py.truncate t with
    | some z => .ok z
    | none => .error .overflow_error
  | .str s =>
    match int_text py s 10 with
    | some z => .ok z
    | none => .error (.value_error e)
  | _ => .error .type_error

/-- `\u` and four hexadecimal digits. -/
def unicode_escape (n : Nat) : List Byte :=
  0x5c :: 0x75 :: hex_encode [BitVec.ofNat 8 (n / 256), BitVec.ofNat 8 n]

/-- A character of a string in a JSON text. -/
def escape (c : Nat) : List Byte :=
  if c = 0x22 ∨ c = 0x5c then [0x5c, BitVec.ofNat 8 c]
  else if c = 0x0a then [0x5c, 0x6e]
  else if c = 0x0d then [0x5c, 0x72]
  else if c = 0x09 then [0x5c, 0x74]
  else if c = 0x0c then [0x5c, 0x66]
  else if c = 0x08 then [0x5c, 0x62]
  else if 0x20 ≤ c ∧ c ≤ 0x7e then [BitVec.ofNat 8 c]
  else if c < 0x10000 then unicode_escape c
  else unicode_escape (0xd800 + (c - 0x10000) / 1024) ++ unicode_escape (0xdc00 + (c - 0x10000) % 1024)

mutual

/-- `json.dumps(o, separators=(",", ":"))`, which is ASCII. -/
def dumps : Object → List Byte
  | .none => null_text
  | .bool b => bool_text b
  | .int z => signed_decimal z
  | .float t => t
  | .str s => quoted (s.flatMap escape)
  | .list os => ascii "[" ++ dumps_elements os ++ ascii "]"
  | .dict ms => ascii "\x7b" ++ dumps_members ms ++ ascii "\x7d"

def dumps_elements : List Object → List Byte
  | [] => []
  | [o] => dumps o
  | o :: os => dumps o ++ ascii "," ++ dumps_elements os

def dumps_members : List (List Nat × Object) → List Byte
  | [] => []
  | [(key, o)] => quoted (key.flatMap escape) ++ ascii ":" ++ dumps o
  | (key, o) :: ms => quoted (key.flatMap escape) ++ ascii ":" ++ dumps o ++ ascii "," ++ dumps_members ms

end

theorem bind_eq_ok {ε α β : Type} {x : Except ε α} {f : α → Except ε β} {b : β} :
    x >>= f = .ok b ↔ ∃ a, x = .ok a ∧ f a = .ok b := by
  constructor
  · intro h
    cases x with
    | error e => cases h
    | ok a => exact ⟨a, rfl, h⟩
  · rintro ⟨a, rfl, h⟩
    exact h

theorem require_eq_ok {ε : Type} {c : Bool} {e : ε} {u : Unit} : require c e = .ok u ↔ c = true := by
  cases c <;> simp [require]

theorem split_eq_ok {ε : Type} {sep : Nat} {o : Object} {pieces : List (List Nat)}
    (h : split (ε := ε) sep o = .ok pieces) : ∃ s, o = .str s ∧ pieces = s.splitOn sep := by
  cases o with
  | str s =>
    cases h
    exact ⟨s, rfl, rfl⟩
  | _ => cases h

/-- A character that a JSON text holds as it is. -/
def Printable (c : Nat) : Prop := 0x20 ≤ c ∧ c ≤ 0x7e ∧ c ≠ 0x22 ∧ c ≠ 0x5c

instance : DecidablePred Printable := fun _ => inferInstanceAs (Decidable (_ ∧ _ ∧ _ ∧ _))

/-- The characters of a text as bytes. -/
def encode (s : List Nat) : List Byte := s.map (BitVec.ofNat 8)

theorem escape_printable {c : Nat} (h : Printable c) : escape c = [BitVec.ofNat 8 c] := by
  obtain ⟨hlow, hhigh, hquote, hslash⟩ := h
  unfold escape
  rw [if_neg (by omega), if_neg (by omega), if_neg (by omega), if_neg (by omega), if_neg (by omega), if_neg (by omega),
    if_pos ⟨hlow, hhigh⟩]

theorem flatMap_escape {s : List Nat} (h : ∀ c ∈ s, Printable c) : s.flatMap escape = encode s := by
  induction s with
  | nil => rfl
  | cons c s ih =>
    rw [List.flatMap_cons, escape_printable (h c (by simp)), ih fun d hd => h d (by simp [hd])]
    rfl

/-- Bytes as characters. -/
def decode (b : List Byte) : List Nat := b.map BitVec.toNat

theorem decode_encode {s : List Nat} (h : ∀ c ∈ s, Printable c) : decode (encode s) = s := by
  induction s with
  | nil => rfl
  | cons c s ih =>
    have hc : (BitVec.ofNat 8 c).toNat = c := by
      rw [BitVec.toNat_ofNat]
      exact Nat.mod_eq_of_lt (Nat.lt_of_le_of_lt (h c (by simp)).2.1 (by decide))
    exact congrArg₂ List.cons hc (ih fun d hd => h d (by simp [hd]))

theorem encode_decode (b : List Byte) : encode (decode b) = b := by
  rw [decode, encode, List.map_map]
  exact Eq.trans (List.map_congr_left fun c _ => BitVec.ofNat_toNat 8 c |>.trans (by simp)) (List.map_id b)

theorem encode_text (s : String) : encode (text s) = ascii s := by
  rw [encode, text, List.map_map]
  rfl

theorem dumps_str {s : List Nat} (h : ∀ c ∈ s, Printable c) : dumps (.str s) = quoted (encode s) := by
  rw [dumps, flatMap_escape h]

/-- A dictionary with printable keys is dumped as the object of its members. -/
theorem dumps_dict {fs : List (String × Object)} (h : ∀ f ∈ fs, ∀ c ∈ text f.1, Printable c) :
    dumps (.dict (fs.map fun f => (text f.1, f.2))) = object (fs.map fun f => (f.1, dumps f.2)) := by
  have hmembers : dumps_members (fs.map fun f => (text f.1, f.2)) = members (fs.map fun f => (f.1, dumps f.2)) := by
    induction fs with
    | nil => rfl
    | cons f fs ih =>
      have hkey : (text f.1).flatMap escape = ascii f.1 := by
        rw [flatMap_escape (h f (by simp)), encode_text]
      have hrest := ih fun g hg => h g (by simp [hg])
      cases fs with
      | nil =>
        change quoted ((text f.1).flatMap escape) ++ ascii ":" ++ dumps f.2 = _
        rw [hkey]
        rfl
      | cons g fs =>
        change quoted ((text f.1).flatMap escape) ++ ascii ":" ++ dumps f.2 ++ ascii "," ++ dumps_members _ = _
        rw [hkey]
        exact congrArg (_ ++ ·) hrest
  rw [dumps, hmembers]
  rfl

theorem int_text_ascii (py : Runtime) {s : List Nat} (h : ∀ c ∈ s, c < 128) (base : Nat) :
    int_text py s base = int_ascii s base := by
  have hmap : (s.map fun c => if c < 128 then c else (py.unicode c).getD 0x3f) = s := by
    refine Eq.trans (List.map_congr_left fun c hc => ?_) (List.map_id s)
    exact if_pos (h c hc)
  rw [int_text, hmap]

/-- Two hexadecimal digits are read as the byte they were printed for. -/
theorem int_ascii_hex (b : Byte) : int_ascii (decode (hex_encode [b])) 16 = some (b.toNat : Int) := by
  revert b
  decide

/-- A run of digits without underscores. -/
theorem int_digits_run {base : Nat} {s : List Nat} (hne : s ≠ []) (hdigit : ∀ c ∈ s, (digit base c).isSome = true ∧ c ≠ 0x5f) :
    int_digits base s = some (s.foldl (fun v c => v * base + (digit base c).getD 0) 0, []) := by
  have hinside : ∀ c ∈ s, (c == 0x5f || (digit base c).isSome) = true := by
    intro c hc
    rw [(hdigit c hc).1]
    exact Bool.or_true _
  have hsplit : s.splitOn 0x5f = [s] := List.splitOnP_eq_singleton fun c hc => beq_false_of_ne (hdigit c hc).2
  rw [int_digits, List.takeWhile_eq_self_iff.mpr hinside, List.dropWhile_eq_nil_iff.mpr hinside, hsplit]
  simp [hne]

theorem drop_base_decimal (s : List Nat) : drop_base 10 s = s := by
  unfold drop_base
  split
  · exact if_neg fun h => absurd h.1 (by decide)
  · rfl

/-- A decimal number is read as the number it was printed for. -/
theorem int_ascii_decimal (n : Nat) : int_ascii (decode (decimal n)) 10 = some (n : Int) := by
  obtain ⟨digits, hcanonical, rfl, htext⟩ := decimal_digits n
  have hchar : ∀ d : Fin 10, space (digitChar d).toNat = false ∧ (digitChar d).toNat ≠ 0x2d ∧ (digitChar d).toNat ≠ 0x2b ∧
      (digitChar d).toNat ≠ 0x5f ∧ digit 10 (digitChar d).toNat = some d.val := by decide
  have hdecode : decode (digitText digits) = digits.map fun d => (digitChar d).toNat := by
    rw [decode, digitText, List.map_map]
    rfl
  have hdigit : ∀ c ∈ digits.map fun d => (digitChar d).toNat, (digit 10 c).isSome = true ∧ c ≠ 0x5f := by
    intro c hc
    obtain ⟨d, _, rfl⟩ := List.mem_map.mp hc
    rw [(hchar d).2.2.2.2]
    exact ⟨rfl, (hchar d).2.2.2.1⟩
  have hvalue : (digits.map fun d => (digitChar d).toNat).foldl (fun v c => v * 10 + (digit 10 c).getD 0) 0 =
      decValue digits := by
    clear hcanonical htext hdecode hdigit
    induction digits using List.reverseRecOn with
    | nil => rfl
    | append_singleton digits d ih =>
      rw [List.map_append, List.foldl_append, ih, decValue_concat]
      change decValue digits * 10 + (digit 10 (digitChar d).toNat).getD 0 = _
      rw [(hchar d).2.2.2.2]
      rfl
  have hrun := int_digits_run (by simpa using hcanonical.1) hdigit
  rw [hvalue] at hrun
  rw [htext, hdecode, int_ascii]
  obtain ⟨d, ds, rfl⟩ : ∃ d ds, digits = d :: ds := List.exists_cons_of_ne_nil hcanonical.1
  obtain ⟨hspace, hminus, hplus, _⟩ := hchar d
  rw [List.map_cons] at hrun ⊢
  rw [List.dropWhile_cons_of_neg (by simp [hspace])]
  simp only [List.head?_cons, Option.some.injEq, hminus, hplus, decide_false, Bool.or_false, Bool.false_eq_true, ↓reduceIte,
    drop_base_decimal, hrun]
  rfl

end scu35.python
