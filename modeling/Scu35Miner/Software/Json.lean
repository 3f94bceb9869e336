import Scu35Miner.Fips180.Compression

open fips180

namespace scu35.json_helpers

/-- The characters of a text. -/
def ascii (s : String) : List Byte := s.toList.map fun c => BitVec.ofNat 8 c.toNat

inductive JSONTypes where
  | JSONString
  | JSONNumber
  | JSONTrue
  | JSONFalse
  | JSONNull
  | JSONObject
  | JSONArray
deriving DecidableEq, Repr

/-- What `JSON_SearchConst` reports: the raw slice of the value and its type, or
that there is none, or another status. -/
inductive Found where
  | success (value : List Byte) (type : JSONTypes)
  | not_found
  | failure
deriving DecidableEq, Repr

/-- The JSON library. Nothing is assumed about it: a query names the value that
the raw slice is read from. -/
structure Json where
  validate : List Byte → Bool
  search : List Byte → String → Found

def string_char (c : Byte) : Bool := !(c == 0x5c || c < 32 || c > 126)

/-- `json_string` into an array of `cap` characters. -/
def json_string (j : Json) (b : List Byte) (q : String) (cap : Nat) : Option (List Byte) :=
  match j.search b q with
  | .success v .JSONString => if v.length ≥ cap || !v.all string_char then none else some v
  | _ => none

def u32_loop : List Byte → Nat → Option Nat
  | [], r => some r
  | c :: v, r =>
    if c < 0x30 || c > 0x39 || r > (2 ^ 32 - 1 - (c.toNat - 0x30)) / 10 then none
    else u32_loop v (r * 10 + (c.toNat - 0x30))

def json_u32 (j : Json) (b : List Byte) (q : String) : Option Word :=
  match j.search b q with
  | .success v .JSONNumber => if v.length = 0 then none else (u32_loop v 0).map (BitVec.ofNat 32)
  | _ => none

def json_true (j : Json) (b : List Byte) (q : String) : Bool :=
  match j.search b q with
  | .success _ .JSONTrue => true
  | _ => false

/-- The raw slice that a query finds. -/
def Json.slice (j : Json) (b : List Byte) (q : String) : List Byte :=
  match j.search b q with
  | .success v _ => v
  | _ => []

theorem json_string_eq {j : Json} {b : List Byte} {q : String} {cap : Nat} {v : List Byte}
    (h : json_string j b q cap = some v) : j.slice b q = v := by
  unfold json_string at h
  split at h
  next value hfound =>
    split at h
    · cases h
    · cases h
      rw [Json.slice, hfound]
  next => cases h

end scu35.json_helpers
