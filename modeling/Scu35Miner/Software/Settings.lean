import Scu35Miner.Software.Sha256
import Scu35Miner.Storage.Device

open fips180 storage

namespace scu35.settings

def COMMIT : Byte := 0xa5
def SETTINGS_SLOT_SIZE : Nat := 512
def SETTINGS_SLOT0 : Nat := 0x1000
def SETTINGS_SLOT1 : Nat := 0x1200

/-- `u32(b + off)`. -/
def u32 (b : Cells Byte) (off : Nat) : Word :=
  (b off).setWidth 32 ||| (b (off + 1)).setWidth 32 <<< 8 ||| (b (off + 2)).setWidth 32 <<< 16 |||
    (b (off + 3)).setWidth 32 <<< 24

/-- `put32(b + off, n)`. -/
def put32 (b : Cells Byte) (off : Nat) (n : Word) : Cells Byte :=
  copy b off (fun i => (n >>> (8 * i)).setWidth 8) 4

def crc_bit (c : Word) : Word := (c >>> 1) ^^^ ((0 - (c &&& 1)) &&& 0xedb88320)

def crc_byte (c : Word) (b : Byte) : Word := (List.range 8).foldl (fun c _ => crc_bit c) (c ^^^ b.setWidth 32)

def crc (b : Cells Byte) (n : Nat) : Word := ~~~((List.range n).foldl (fun c i => crc_byte c (b i)) (~~~0))

structure miner_settings where
  mac : Vector Byte 6
  port : BitVec 16
  host : Vector Byte 96
  worker : Vector Byte 128
  password : Vector Byte 64
deriving DecidableEq, Repr

def settings_defaults : miner_settings where
  mac := #v[2, 0, 0, 0x11, 0x22, 0x33]
  port := 3333
  host := Vector.replicate 96 0
  worker := Vector.replicate 128 0
  password := Vector.replicate 64 0

/-- A NUL-terminated string of printable characters other than the quote and
the backslash. -/
def string_ok : List Byte → Bool
  | [] => false
  | c :: s => if c = 0 then true else if c < 32 || c > 126 || c == 0x22 || c == 0x5c then false else string_ok s

def host_char (c : Byte) : Bool :=
  (0x61 ≤ c && c ≤ 0x7a) || (0x41 ≤ c && c ≤ 0x5a) || (0x30 ≤ c && c ≤ 0x39) || c == 0x2e || c == 0x2d

def settings_valid (s : miner_settings) : Bool :=
  let any := s.mac.toList.foldl (· ||| ·) 0
  if any = 0 || s.mac[0] &&& 1 != 0 || s.port == 0 then false
  else if !string_ok s.host.toList || !string_ok s.worker.toList || !string_ok s.password.toList then false
  else (s.host.toList.takeWhile (· != 0)).all host_char

/-- What `settings_valid` asks. -/
structure ValidSettings (s : miner_settings) : Prop where
  mac : s.mac.toList.foldl (· ||| ·) 0 ≠ 0
  unicast : s.mac[0] &&& 1 = 0
  port : s.port ≠ 0
  host : string_ok s.host.toList = true
  worker : string_ok s.worker.toList = true
  password : string_ok s.password.toList = true
  host_chars : (s.host.toList.takeWhile (· != 0)).all host_char = true

theorem settings_valid_iff (s : miner_settings) : settings_valid s = true ↔ ValidSettings s := by
  unfold settings_valid
  dsimp only
  constructor
  · intro h
    split at h
    · cases h
    next hmac =>
      split at h
      · cases h
      next hstrings =>
        simp only [Bool.or_eq_true, decide_eq_true_eq, bne_iff_ne, beq_iff_eq, not_or, not_not] at hmac
        simp only [Bool.or_eq_true, Bool.not_eq_true', not_or, Bool.not_eq_false] at hstrings
        exact ⟨hmac.1.1, hmac.1.2, hmac.2, hstrings.1.1, hstrings.1.2, hstrings.2, h⟩
  · intro h
    rw [if_neg, if_neg, h.host_chars]
    · simp [h.host, h.worker, h.password]
    · simp only [Bool.or_eq_true, decide_eq_true_eq, bne_iff_ne, beq_iff_eq, not_or, not_not]
      exact ⟨⟨h.mac, h.unicast⟩, h.port⟩

def unpack (b : Cells Byte) : miner_settings where
  mac := Vector.ofFn fun i => b (16 + i)
  port := (b 22).setWidth 16 ||| (b 23).setWidth 16 <<< 8
  host := Vector.ofFn fun i => b (24 + i)
  worker := Vector.ofFn fun i => b (120 + i)
  password := Vector.ofFn fun i => b (248 + i)

/-- The four characters `S35C`. -/
def magic : Cells Byte := fun i => [0x53#8, 0x33#8, 0x35#8, 0x43#8].getD i 0

def record_valid (b : Cells Byte) : Bool :=
  (List.range 4).all (fun i => b i == magic i) && b 4 == 1 && b 511 == COMMIT && u32 b 504 == crc b 504 &&
    settings_valid (unpack b)

/-- What `read_slots` returns: the active slot, none of the two, or a failed
read. -/
inductive Active where
  | slot0
  | slot1
  | none
  | failed
deriving DecidableEq, Repr

def choose_slot (b0 b1 : Cells Byte) : Active :=
  let a := record_valid b0
  let c := record_valid b1
  if !a && !c then .none
  else if !a then .slot1
  else if !c then .slot0
  else if 0 < (u32 b1 8 - u32 b0 8).toInt then .slot1
  else .slot0

structure Slots where
  active : Active
  b0 : Cells Byte
  b1 : Cells Byte

def read_slots (d : Device Byte) : Outcome Byte Slots :=
  (d.read SETTINGS_SLOT0).bind fun r0 d =>
  match r0 with
  | none => .value ⟨.failed, fun _ => 0, fun _ => 0⟩ d
  | some b0 =>
    (d.read SETTINGS_SLOT1).bind fun r1 d =>
    match r1 with
    | none => .value ⟨.failed, b0, fun _ => 0⟩ d
    | some b1 => .value ⟨choose_slot b0 b1, b0, b1⟩ d

def settings_load (d : Device Byte) : Outcome Byte (miner_settings × Int) :=
  (read_slots d).bind fun slots d =>
  match slots.active with
  | .failed => .value (settings_defaults, -1) d
  | .none => .value (settings_defaults, 0) d
  | .slot0 => .value (unpack slots.b0, 1) d
  | .slot1 => .value (unpack slots.b1, 1) d

/-- The record of `settings_save` before its checksum is filled in. -/
def record_body (s : miner_settings) (seq : Word) : Cells Byte :=
  let b : Cells Byte := fun _ => 0
  let b := copy b 0 magic 4
  let b := copy b 4 (fun _ => 1) 1
  let b := put32 b 8 seq
  let b := copy b 16 (fun i => s.mac.toList.getD i 0) 6
  let b := copy b 22 (fun _ => s.port.setWidth 8) 1
  let b := copy b 23 (fun _ => (s.port >>> 8).setWidth 8) 1
  let b := copy b 24 (fun i => s.host.toList.getD i 0) 96
  let b := copy b 120 (fun i => s.worker.toList.getD i 0) 128
  copy b 248 (fun i => s.password.toList.getD i 0) 64

/-- The record before its commit byte is set. -/
def record (s : miner_settings) (seq : Word) : Cells Byte :=
  put32 (record_body s seq) 504 (crc (record_body s seq) 504)

/-- `!memcmp(a, b, 512)`. -/
def same_record (a b : Cells Byte) : Bool := (List.range 512).all fun i => a i == b i

def Slots.next_seq (slots : Slots) : Word :=
  match slots.active with
  | .slot0 => u32 slots.b0 8 + 1
  | .slot1 => u32 slots.b1 8 + 1
  | _ => 0

def Slots.next_addr (slots : Slots) : Nat := if slots.active = .slot0 then SETTINGS_SLOT1 else SETTINGS_SLOT0

/-- The writes of `settings_save`: clear the commit byte, write and verify the
body, then set the commit byte and verify the record. -/
def write_record (addr : Nat) (b : Cells Byte) (d : Device Byte) : Outcome Byte Int :=
  (d.write (addr + 511) (fun _ => 0) 1).bind fun ok d =>
  if !ok then .value (-1) d else
  (d.write addr b 511).bind fun ok d =>
  if !ok then .value (-1) d else
  (d.read addr).bind fun verify d =>
  match verify with
  | none => .value (-1) d
  | some verify =>
    if !same_record b verify then .value (-1) d else
    (d.write (addr + 511) (fun _ => COMMIT) 1).bind fun ok d =>
    if !ok then .value (-1) d else
    (d.read addr).bind fun verify d =>
    match verify with
    | none => .value (-1) d
    | some verify => if !record_valid verify then .value (-1) d else .value 0 d

def settings_save (s : miner_settings) (d : Device Byte) : Outcome Byte Int :=
  if !settings_valid s then .value (-1) d else
  (read_slots d).bind fun slots d =>
  if slots.active = .failed then .value (-1) d else
  write_record slots.next_addr (record s slots.next_seq) d

end scu35.settings
