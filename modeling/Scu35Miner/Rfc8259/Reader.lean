import Scu35Miner.Radix.Decimal

open radix

namespace rfc8259

/-- A JSON value. A number that is not an integer keeps its text. -/
inductive Value where
  | null
  | bool (b : Bool)
  | int (z : Int)
  | real (text : List (BitVec 8))
  | string (s : List (BitVec 8))
  | array (vs : List Value)
  | object (ms : List (List (BitVec 8) × Value))

def white (c : BitVec 8) : Bool := c == 0x20 || c == 0x09 || c == 0x0a || c == 0x0d

def skip_white : List (BitVec 8) → List (BitVec 8)
  | [] => []
  | c :: s => if white c then skip_white s else c :: s

/-- ASCII characters that a string holds as they are. -/
def plain (c : BitVec 8) : Bool := 0x20 ≤ c && c < 0x80 && c != 0x22 && c != 0x5c

/-- A string after its opening quote, and what follows it. Only strings of
ASCII characters without escapes are read. -/
def read_string : List (BitVec 8) → Option (List (BitVec 8) × List (BitVec 8))
  | [] => none
  | c :: s =>
    if c = 0x22 then some ([], s)
    else if plain c then
      match read_string s with
      | some (t, rest) => some (c :: t, rest)
      | none => none
    else none

def is_digit (c : BitVec 8) : Bool := 0x30 ≤ c && c ≤ 0x39

def digits_value (digits : List (BitVec 8)) : Nat := digits.foldl (fun v c => v * 10 + (c.toNat - 0x30)) 0

/-- The text of a fraction, which may be missing. -/
def read_fraction (s : List (BitVec 8)) : Option (List (BitVec 8) × List (BitVec 8)) :=
  match s with
  | [] => some ([], [])
  | c :: s =>
    if c = 0x2e then
      let digits := s.takeWhile is_digit
      if digits = [] then none else some (c :: digits, s.dropWhile is_digit)
    else some ([], c :: s)

/-- The text of an exponent, which may be missing. -/
def read_exponent (s : List (BitVec 8)) : Option (List (BitVec 8) × List (BitVec 8)) :=
  match s with
  | [] => some ([], [])
  | c :: s =>
    if c = 0x65 ∨ c = 0x45 then
      let sign := s.head?.filter fun d => d = 0x2b || d = 0x2d
      let s := s.drop sign.toList.length
      let digits := s.takeWhile is_digit
      if digits = [] then none else some (c :: sign.toList ++ digits, s.dropWhile is_digit)
    else some ([], c :: s)

/-- A number after its sign. -/
def read_number (negative : Bool) (s : List (BitVec 8)) : Option (Value × List (BitVec 8)) :=
  let digits := s.takeWhile is_digit
  let rest := s.dropWhile is_digit
  if digits = [] || (digits.head? = some 0x30 && digits.length ≠ 1) then none
  else
    match read_fraction rest with
    | none => none
    | some (fraction, rest) =>
      match read_exponent rest with
      | none => none
      | some (exponent, rest) =>
        if fraction = [] && exponent = [] then
          some (.int (if negative then -digits_value digits else digits_value digits), rest)
        else some (.real ((if negative then [0x2d] else []) ++ digits ++ fraction ++ exponent), rest)

def literals : List (List (BitVec 8) × Value) :=
  [([0x6e, 0x75, 0x6c, 0x6c], .null), ([0x74, 0x72, 0x75, 0x65], .bool true),
    ([0x66, 0x61, 0x6c, 0x73, 0x65], .bool false)]

/-- `null`, `true` and `false`. -/
def read_literal (s : List (BitVec 8)) : Option (Value × List (BitVec 8)) :=
  (literals.find? fun l => l.1.isPrefixOf s).map fun l => (l.2, s.drop l.1.length)

/-- A key with the colon after it. -/
def read_key (s : List (BitVec 8)) : Option (List (BitVec 8) × List (BitVec 8)) :=
  match skip_white s with
  | [] => none
  | c :: s =>
    if c = 0x22 then
      match read_string s with
      | none => none
      | some (key, s) =>
        match skip_white s with
        | [] => none
        | c :: s => if c = 0x3a then some (key, s) else none
    else none

mutual

/-- A value and what follows it. -/
def read_value : Nat → List (BitVec 8) → Option (Value × List (BitVec 8))
  | 0, _ => none
  | n + 1, s =>
    match skip_white s with
    | [] => none
    | c :: s =>
      if c = 0x7b then
        if (skip_white s).head? = some 0x7d then some (.object [], (skip_white s).tail)
        else
          match read_members n s with
          | some (ms, rest) => some (.object ms, rest)
          | none => none
      else if c = 0x5b then
        if (skip_white s).head? = some 0x5d then some (.array [], (skip_white s).tail)
        else
          match read_elements n s with
          | some (vs, rest) => some (.array vs, rest)
          | none => none
      else if c = 0x22 then
        match read_string s with
        | some (t, rest) => some (.string t, rest)
        | none => none
      else if c = 0x2d then read_number true s
      else if is_digit c then read_number false (c :: s)
      else read_literal (c :: s)

/-- The members of an object up to its closing brace. -/
def read_members : Nat → List (BitVec 8) → Option (List (List (BitVec 8) × Value) × List (BitVec 8))
  | 0, _ => none
  | n + 1, s =>
    match read_key s with
    | none => none
    | some (key, s) =>
      match read_value n s with
      | none => none
      | some (v, s) =>
        match skip_white s with
        | [] => none
        | c :: s =>
          if c = 0x2c then
            match read_members n s with
            | some (ms, rest) => some ((key, v) :: ms, rest)
            | none => none
          else if c = 0x7d then some ([(key, v)], s)
          else none

/-- The elements of an array up to its closing bracket. -/
def read_elements : Nat → List (BitVec 8) → Option (List Value × List (BitVec 8))
  | 0, _ => none
  | n + 1, s =>
    match read_value n s with
    | none => none
    | some (v, s) =>
      match skip_white s with
      | [] => none
      | c :: s =>
        if c = 0x2c then
          match read_elements n s with
          | some (vs, rest) => some (v :: vs, rest)
          | none => none
        else if c = 0x5d then some ([v], s)
        else none

end

/-- The value of a whole text. -/
def loads (s : List (BitVec 8)) : Option Value :=
  match read_value (s.length + 1) s with
  | some (v, rest) => if skip_white rest = [] then some v else none
  | none => none

/-- The value of a key; the last one counts. -/
def Value.get (v : Value) (key : List (BitVec 8)) : Option Value :=
  match v with
  | .object ms => (ms.reverse.find? (·.1 == key)).map (·.2)
  | _ => none

end rfc8259
