import Scu35Miner.Software.Srec
import Scu35Miner.Storage.Device

open fips180 storage

namespace scu35.bootloader

open srec

def FLASH_START : Nat := 0x00800000
def FLASH_END : Nat := 0x01000000
def RAM_START : Nat := 0x80000000
def RAM_END : Nat := 0x80800000
def vectors_size : Nat := 0x50
def line_size : Nat := 514

/-- The hardware around the loader: the flash contents, the answers of the SPI
status register to successive polls, what HyperRAM returns on a read after the
given stores, and whether calibration and flash identification succeeded. -/
structure Board where
  flash : Nat → Byte
  rx_empty : Nat → Bool
  read_back : List (Nat × Byte) → Nat → Byte
  ready : Bool

/-- A store of the loader, to HyperRAM, to the live vectors or to one of its
own arrays. -/
inductive Store where
  | ram (address : Nat) (value : Byte)
  | live (address : Nat) (value : Byte)
  | line (index : Nat)
  | data (index : Nat)
  | vectors (index : Nat)
  | seen (index : Nat)
deriving DecidableEq, Repr

/-- `while (rx empty && --guard) {}`, with the number of polls made so far. -/
def wait_rx (b : Board) : Nat → Nat → Nat × Nat
  | 0, polls => (0, polls)
  | guard + 1, polls => if b.rx_empty polls then wait_rx b guard (polls + 1) else (guard + 1, polls + 1)

/-- The receive loop of `transfer`: whether `n` bytes arrived before the guard
ran out, and the polls made. -/
def receive (b : Board) : Nat → Nat → Nat → Bool × Nat
  | 0, _, polls => (true, polls)
  | n + 1, guard, polls =>
    let (guard, polls) := wait_rx b guard polls
    if guard = 0 then (false, polls) else receive b n guard polls

def transfer (b : Board) (n polls : Nat) : Bool × Nat := receive b n 1000000 polls

/-- Where `load` is: before a record, inside a line, or finished with an entry
address or a failure. -/
inductive Control where
  | start
  | line (text : List Byte)
  | done (entry : Option Word)
deriving DecidableEq, Repr

structure State where
  cache : Cells Byte
  flash : Nat
  pos : Nat
  polls : Nat
  data_records : Word
  low : Nat
  high : Nat
  vectors : Cells Byte
  seen : Cells Bool
  stores : List Store
  control : Control

def State.init : State where
  cache := fun _ => 0
  flash := FLASH_START
  pos := 64
  polls := 0
  data_records := 0
  low := RAM_END
  high := RAM_START
  vectors := fun _ => 0
  seen := fun _ => false
  stores := []
  control := .start

/-- The stores made to HyperRAM, in order. -/
def ram_history (stores : List Store) : List (Nat × Byte) :=
  stores.filterMap fun
    | .ram a v => some (a, v)
    | _ => none

/-- `get_byte`, with `none` for its `-1`. -/
def get_byte (b : Board) (s : State) : Option Byte × State :=
  if s.pos = 64 then
    if s.flash > FLASH_END - 64 then (none, s)
    else
      let (ok, polls) := transfer b 68 s.polls
      let s := { s with polls }
      if !ok then (none, s)
      else
        let s := { s with cache := fun i => b.flash (s.flash + i), flash := s.flash + 64, pos := 0 }
        (some (s.cache s.pos), { s with pos := s.pos + 1 })
  else (some (s.cache s.pos), { s with pos := s.pos + 1 })

def State.fail (s : State) : State := { s with control := .done none }

/-- The loop that copies a record into the shadow vectors. -/
def store_vectors (s : State) (a : Nat) : List Byte → State
  | [] => s
  | v :: data =>
    store_vectors { s with
      vectors := Function.update s.vectors a v
      seen := Function.update s.seen a true
      stores := s.stores ++ [.vectors a, .seen a] } (a + 1) data

/-- The loop that copies a record into HyperRAM and reads every byte back. -/
def store_ram (b : Board) (s : State) (a : Nat) : List Byte → Bool × State
  | [] => (true, s)
  | v :: data =>
    let s := { s with stores := s.stores ++ [.ram a v] }
    if b.read_back (ram_history s.stores) a != v then (false, s) else store_ram b s (a + 1) data

def in_vectors (r : srec_record) : Bool := r.address.toNat < vectors_size && r.size ≤ vectors_size - r.address.toNat

def in_ram (r : srec_record) : Bool :=
  RAM_START ≤ r.address.toNat && r.address.toNat < RAM_END && r.size ≤ RAM_END - r.address.toNat

/-- The body of `load` after a record has been parsed. -/
def process (b : Board) (s : State) (r : srec_record) : State :=
  let a := r.address.toNat
  if r.type = 0 then { s with control := .start }
  else if r.type = 5 || r.type = 6 then
    if r.address != s.data_records then s.fail else { s with control := .start }
  else if 7 ≤ r.type then
    if s.data_records != 0 && s.low ≤ a && a < s.high && r.address &&& 3 == 0 then
      { s with control := .done (some r.address) }
    else s.fail
  else if in_vectors r then
    let s := store_vectors s a r.data
    { s with data_records := s.data_records + 1, control := .start }
  else if in_ram r then
    let (ok, s) := store_ram b s a r.data
    if !ok then s.fail
    else
      { s with
        low := if a < s.low then a else s.low
        high := if a + r.size > s.high then a + r.size else s.high
        data_records := s.data_records + 1
        control := .start }
  else s.fail

def newline (c : Byte) : Bool := c == 0x0d || c == 0x0a

/-- One pass of the loops of `load`: a `get_byte` and what is done with it. -/
def load_step (b : Board) (s : State) : State :=
  match s.control with
  | .done _ => s
  | .start =>
    match get_byte b s with
    | (none, s) => s.fail
    | (some c, s) =>
      if newline c then s
      else if c != 0x53 then s.fail
      else { s with stores := s.stores ++ [.line 0], control := .line [c] }
  | .line text =>
    match get_byte b s with
    | (none, s) => s.fail
    | (some c, s) =>
      if text.length = line_size then s.fail
      else if newline c then
        let (r, writes) := srec_parse text
        let s := { s with stores := s.stores ++ writes.map .data }
        match r with
        | none => s.fail
        | some r => process b s r
      else { s with stores := s.stores ++ [.line text.length], control := .line (text ++ [c]) }

/-- `load` for as many passes as are given. -/
def load (b : Board) (passes : Nat) : State := (load_step b)^[passes] .init

/-- One pass for each byte of the window and one for its end. -/
def passes : Nat := FLASH_END - FLASH_START + 1

def offsets : List Nat := [0, 8, 16, 32]

/-- The bytes of the live vectors. -/
def vector_bytes : List Nat := offsets.flatMap fun o => (List.range 8).map (o + ·)

/-- The outcome of the boot loader: the jump it ends with, or none, all stores
that were made and the shadow vectors. -/
structure Boot where
  jump : Option Word
  stores : List Store
  vectors : Cells Byte

/-- `main` from the return of `load` on. -/
def finish (s : State) : Boot :=
  match s.control with
  | .done (some entry) =>
    if vector_bytes.all s.seen then
      ⟨some entry, s.stores ++ vector_bytes.map (fun a => .live a (s.vectors a)), s.vectors⟩
    else ⟨none, s.stores, s.vectors⟩
  | _ => ⟨none, s.stores, s.vectors⟩

def main (b : Board) : Boot := if b.ready then finish (load b passes) else ⟨none, [], fun _ => 0⟩

end scu35.bootloader
