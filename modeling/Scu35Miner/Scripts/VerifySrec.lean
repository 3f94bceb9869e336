import Scu35Miner.Software.Bootloader.Framing

open fips180 radix

namespace scu35.verify_srec

open srec

/-- The newline translation of `read_text`. -/
def universal_newlines : List Byte → List Byte
  | [] => []
  | [c] => [if c = 0x0d then 0x0a else c]
  | c :: d :: s =>
    if c = 0x0d then if d = 0x0a then 0x0a :: universal_newlines s else 0x0a :: universal_newlines (d :: s)
    else c :: universal_newlines (d :: s)

/-- The ASCII characters that `splitlines` splits at. -/
def line_boundary (c : Byte) : Bool := (0x0a ≤ c && c ≤ 0x0d) || (0x1c ≤ c && c ≤ 0x1e)

/-- `splitlines` after the characters of an unfinished line. No carriage return
is left in the text when it is called. -/
def splitlines : List Byte → List Byte → List (List Byte)
  | line, [] => if line = [] then [] else [line]
  | line, c :: s => if line_boundary c then line :: splitlines [] s else splitlines (line ++ [c]) s

/-- `read_text("ascii").splitlines()`. -/
def text_lines (text : List Byte) : List (List Byte) := splitlines [] (universal_newlines text)

def is_space (c : Byte) : Bool := (0x09 ≤ c && c ≤ 0x0d) || c == 0x20

/-- `bytes.fromhex`, which skips white space before every pair of digits. -/
def fromhex : List Byte → Option (List Byte)
  | [] => some []
  | [a] => if is_space a then some [] else none
  | a :: b :: s =>
    if is_space a then fromhex (b :: s)
    else
      match hex a, hex b, fromhex s with
      | some x, some y, some rest => some (BitVec.ofNat 8 (x * 16 + y) :: rest)
      | _, _, _ => none

/-- What the checker reads from a line. -/
structure Record where
  kind : Nat
  address : Nat
  payload : List Byte
deriving DecidableEq, Repr

def kinds : List Byte := [0x30, 0x31, 0x32, 0x33, 0x35, 0x36, 0x37, 0x38, 0x39]

def width : Nat → Nat
  | 0 | 1 | 5 | 9 => 2
  | 2 | 6 | 8 => 3
  | _ => 4

/-- The first part of the loop of `verify`; `none` stands for an exception. -/
def parse_line (line : List Byte) : Option Record :=
  if line.length < 4 || line.getD 0 0 != 0x53 || !kinds.contains (line.getD 1 0) then none
  else
    let kind := (line.getD 1 0).toNat - 0x30
    match fromhex (line.drop 2) with
    | none | some [] => none
    | some (count :: rest) =>
      let data := count :: rest
      if count.toNat != data.length - 1 || byte_sum data % 256 != 255 then none
      else
        some ⟨kind, beValue ((data.drop 1).take (width kind)), (data.drop (1 + width kind)).dropLast⟩

structure Check where
  memory : List (Nat × Byte)
  entry : Option Nat
  count : Nat
deriving DecidableEq, Repr

def Check.has (c : Check) (address : Nat) : Bool := c.memory.any (·.1 == address)

/-- The loop over the payload of a data record. -/
def store_payload (c : Check) (address : Nat) : List Byte → Option Check
  | [] => some c
  | value :: payload =>
    if c.has address then none
    else store_payload { c with memory := c.memory ++ [(address, value)] } (address + 1) payload

def permitted (r : Record) : Bool :=
  r.address + r.payload.length ≤ 0x50 ||
    (0x80000000 ≤ r.address && r.address + r.payload.length ≤ 0x80800000)

/-- The second part of the loop of `verify`. -/
def check_record (c : Check) (r : Record) : Option Check :=
  if r.kind = 1 || r.kind = 2 || r.kind = 3 then
    let c := { c with count := c.count + 1 }
    if !permitted r then none else store_payload c r.address r.payload
  else if r.kind = 5 || r.kind = 6 then
    if r.payload != [] || r.address != c.count then none else some c
  else if 7 ≤ r.kind then
    if r.payload != [] then none else some { c with entry := some r.address }
  else some c

def check_line (c : Check) (line : List Byte) : Option Check :=
  if c.entry ≠ none then none else (parse_line line).bind (check_record c)

def check_lines (c : Check) : List (List Byte) → Option Check
  | [] => some c
  | line :: lines => (check_line c line).bind fun c => check_lines c lines

def vector_addresses : List Nat := [0, 8, 16, 32].flatMap fun v => (List.range 8).map (v + ·)

/-- `verify`, with the memory map that it builds; `none` stands for an
exception. -/
def verify (text : List Byte) : Option (Nat × Check) :=
  if text.any (· ≥ 0x80) then none
  else
    match check_lines ⟨[], none, 0⟩ (text_lines text) with
    | none => none
    | some c =>
      match c.entry with
      | none => none
      | some entry =>
        if entry % 4 != 0 || entry < 0x80000000 || !c.has entry then none
        else if vector_addresses.any fun a => !c.has a then none
        else some (entry, c)

end scu35.verify_srec
