import Mathlib

namespace radix

/-- The number whose decimal digits are given, most significant first. -/
def decValue (digits : List (Fin 10)) : Nat := digits.foldl (fun value d => value * 10 + d) 0

@[simp] theorem decValue_nil : decValue [] = 0 := rfl

@[simp] theorem decValue_concat (digits : List (Fin 10)) (d : Fin 10) :
    decValue (digits ++ [d]) = decValue digits * 10 + d := by
  simp [decValue]

theorem decValue_append (high low : List (Fin 10)) :
    decValue (high ++ low) = decValue high * 10 ^ low.length + decValue low := by
  induction low using List.reverseRecOn with
  | nil => simp
  | append_singleton low d ih =>
    rw [← List.append_assoc, decValue_concat, decValue_concat, ih, List.length_append, List.length_singleton]
    ring

theorem decValue_cons (d : Fin 10) (digits : List (Fin 10)) :
    decValue (d :: digits) = d * 10 ^ digits.length + decValue digits := by
  have h := decValue_append [d] digits
  simpa [decValue] using h

theorem decValue_pos_iff (digits : List (Fin 10)) : 0 < decValue digits ↔ ∃ d ∈ digits, d ≠ 0 := by
  induction digits with
  | nil => simp
  | cons d digits ih =>
    rw [decValue_cons, List.exists_mem_cons_iff]
    by_cases hd : d = 0
    · subst hd
      simp [ih]
    · have hdigit : 0 < d.val := Nat.pos_of_ne_zero fun h => hd (Fin.ext h)
      exact iff_of_true (Nat.add_pos_left (Nat.mul_pos hdigit (by positivity)) _) (.inl hd)

/-- The character of a digit. -/
def digitChar (d : Fin 10) : BitVec 8 := BitVec.ofNat 8 (48 + d)

theorem digitChar_toNat (d : Fin 10) : (digitChar d).toNat = 48 + d := by
  revert d
  decide

theorem digitChar_injective {d e : Fin 10} (h : digitChar d = digitChar e) : d = e := by
  have hnat := congrArg BitVec.toNat h
  rw [digitChar_toNat, digitChar_toNat] at hnat
  exact Fin.ext (by omega)

theorem exists_digitChar {c : BitVec 8} (hlow : 48 ≤ c.toNat) (hhigh : c.toNat ≤ 57) : ∃ d, digitChar d = c := by
  refine ⟨⟨c.toNat - 48, by omega⟩, BitVec.eq_of_toNat_eq ?_⟩
  rw [digitChar_toNat]
  exact Nat.add_sub_cancel' hlow

def digitText (digits : List (Fin 10)) : List (BitVec 8) := digits.map digitChar

@[simp] theorem digitText_nil : digitText [] = [] := rfl

@[simp] theorem digitText_cons (d : Fin 10) (digits : List (Fin 10)) :
    digitText (d :: digits) = digitChar d :: digitText digits := rfl

@[simp] theorem digitText_append (high low : List (Fin 10)) :
    digitText (high ++ low) = digitText high ++ digitText low := List.map_append

@[simp] theorem digitText_length (digits : List (Fin 10)) : (digitText digits).length = digits.length :=
  List.length_map _

inductive Sign where
  | absent
  | plus
  | minus
deriving DecidableEq, Repr

def Sign.text : Sign → List (BitVec 8)
  | .absent => []
  | .plus => [0x2b]
  | .minus => [0x2d]

/-- An exponent: a mark, a sign and at least one digit. -/
structure Exponent where
  capital : Bool
  sign : Sign
  digits : List (Fin 10)
  nonempty : digits ≠ []

def Exponent.mark (e : Exponent) : BitVec 8 := if e.capital then 0x45 else 0x65

def Exponent.text (e : Exponent) : List (BitVec 8) := e.mark :: (e.sign.text ++ digitText e.digits)

def Exponent.value (e : Exponent) : Int := if e.sign = .minus then -decValue e.digits else decValue e.digits

/-- A decimal numeral. The point, when there is one, stands between digits. -/
structure Numeral where
  whole : List (Fin 10)
  fraction : Option (List (Fin 10))
  exponent : Option Exponent
  whole_nonempty : whole ≠ []
  fraction_nonempty : ∀ digits, fraction = some digits → digits ≠ []

namespace Numeral

def places (n : Numeral) : List (Fin 10) := n.fraction.getD []

def mantissa (n : Numeral) : List (Fin 10) := n.whole ++ n.places

def fraction_text (n : Numeral) : List (BitVec 8) :=
  match n.fraction with
  | none => []
  | some digits => 0x2e :: digitText digits

def scale_text (n : Numeral) : List (BitVec 8) :=
  match n.exponent with
  | none => []
  | some e => e.text

def text (n : Numeral) : List (BitVec 8) := digitText n.whole ++ n.fraction_text ++ n.scale_text

def scale (n : Numeral) : Int :=
  match n.exponent with
  | none => 0
  | some e => e.value

/-- The power of ten that the mantissa is multiplied by. -/
def power (n : Numeral) : Int := n.scale - n.places.length

def value (n : Numeral) : ℚ := decValue n.mantissa * 10 ^ n.power

end Numeral

end radix
