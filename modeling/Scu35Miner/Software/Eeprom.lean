import Scu35Miner.Software.Settings
import Scu35Miner.Storage.Paged
import Scu35Miner.Transition.Run

open fips180 scu35.settings storage transition

namespace scu35.eeprom

/-- A write transaction: the address it names and the bytes that follow. -/
structure Transaction where
  address : Nat
  bytes : List Byte
deriving DecidableEq, Repr

/-- No byte of the transaction wraps inside its page. -/
def Transaction.Fits (t : Transaction) : Prop := t.address % 32 + t.bytes.length ≤ 32

/-- How far the transaction on the bus has come: addressed for a write with the
bytes of the memory address so far, latching data, addressed for a read whose
length is awaited, or reading. -/
inductive Phase where
  | idle
  | selected (high : Option Byte)
  | writing (bytes : List Byte)
  | counting
  | reading (left : Nat) (stop : Bool)
deriving DecidableEq, Repr

/-- The EEPROM with its address counter, and the write transactions that have
ended, whether programmed or not. -/
structure M24C64 where
  cells : Cells Byte
  address : Nat
  phase : Phase
  ended : List Transaction

/-- The transaction ends. Only a STOP programs the latched bytes. -/
def M24C64.finish (c : M24C64) (stop : Bool) : M24C64 :=
  match c.phase with
  | .writing bytes =>
    { cells := if stop then program 32 c.address c.cells bytes else c.cells
      address := wrap 32 c.address bytes.length
      phase := .idle
      ended := c.ended ++ [⟨c.address, bytes⟩] }
  | _ => { c with phase := .idle }

/-- Whether a STOP begins a write cycle. -/
def M24C64.programs (c : M24C64) : Bool :=
  match c.phase with
  | .writing bytes => !bytes.isEmpty
  | _ => false

/-- A byte sent to the EEPROM. -/
def M24C64.latch (c : M24C64) (byte : Byte) : M24C64 :=
  match c.phase with
  | .selected none => { c with phase := .selected (some byte) }
  | .selected (some high) => { c with address := (high ++ byte).toNat % 8192, phase := .writing [] }
  | .writing bytes => { c with phase := .writing (bytes ++ [byte]) }
  | _ => c

/-- A byte read from the EEPROM. -/
def M24C64.receive (c : M24C64) : M24C64 :=
  match c.phase with
  | .reading (left + 1) stop =>
    { c with
      address := (c.address + 1) % 8192
      phase := if left = 0 ∧ stop then .idle else .reading left stop }
  | _ => c

/-- A word of the transmit FIFO of the AXI IIC. -/
structure TxWord where
  start : Bool
  stop : Bool
  byte : Byte
deriving DecidableEq, Repr

def TxWord.of (v : Word) : TxWord := ⟨v.getLsbD 8, v.getLsbD 9, v.setWidth 8⟩

/-- A word on the bus that the EEPROM acknowledges. -/
def M24C64.send (c : M24C64) (w : TxWord) : M24C64 :=
  if w.start then { c.finish false with phase := if w.byte.getLsbD 0 then .counting else .selected none }
  else
    match c.phase with
    | .counting => { c with phase := .reading w.byte.toNat w.stop }
    | _ => if w.stop then (c.latch w.byte).finish true else c.latch w.byte

/-- The controller, its FIFOs and its shift register, and the EEPROM behind it.
`busy` is a write cycle of the EEPROM, `held` the bus in use by another party. -/
structure Bus where
  chip : M24C64
  tx : List TxWord
  shifting : Option TxWord
  rx : List Byte
  isr : Word
  cr : Word
  rx_pirq : Nat
  busy : Bool
  held : Bool

/-- The words that are not on the bus yet, the one being sent included. -/
def Bus.queue (b : Bus) : List TxWord := b.shifting.toList ++ b.tx

/-- The transaction is given up: `stop` tells whether the EEPROM sees a STOP. -/
def Bus.release (b : Bus) (stop : Bool) : Bus :=
  { b with chip := b.chip.finish stop, busy := b.busy || stop && b.chip.programs }

/-- A bus error while something is on the bus sets its flag and empties the
transmit FIFO. -/
def Bus.abort (b : Bus) (flag : Word) (stop : Bool) : Bus :=
  if b.chip.phase = .idle ∧ b.shifting = none then b
  else { b.release stop with tx := [], shifting := none, isr := b.isr ||| flag }

/-- The word in the shift register has been sent. An EEPROM that is busy or has
another device address does not acknowledge it. -/
def Bus.complete (b : Bus) (w : TxWord) : Bus :=
  if w.start ∧ (b.busy ∨ w.byte >>> 1 ≠ 0x50) then b.abort 2 false
  else
    { b with
      chip := b.chip.send w
      shifting := none
      busy := b.busy || !w.start && w.stop && (b.chip.latch w.byte).programs }

/-- Whether the controller begins with the next word: without a START only
inside a transaction. -/
def Bus.takes (b : Bus) (w : TxWord) : Bool :=
  b.cr.getLsbD 0 &&
    match b.chip.phase with
    | .idle => w.start && !b.held
    | .reading _ _ => w.start
    | _ => true

/-- The bus moves on by the sending of a word, by the first bit of the next one
or by the receipt of a byte. The last byte read is not acknowledged. -/
def Bus.shift (b : Bus) : Bus :=
  match b.shifting with
  | some w => b.complete w
  | none =>
    match b.chip.phase with
    | .reading (left + 1) _ =>
      if b.rx.length ≤ b.rx_pirq then
        { b with
          chip := b.chip.receive
          rx := b.rx ++ [b.chip.cells b.chip.address]
          isr := if left = 0 then b.isr ||| 2 else b.isr }
      else b
    | _ =>
      match b.tx with
      | [] => b
      | w :: tx => if b.takes w then { b with shifting := some w, tx } else b

/-- What may happen on the bus between two accesses of the processor. -/
inductive Event where
  | shift
  | settle
  | hold (held : Bool)
  | arbitration_lost (stop : Bool)
  | no_acknowledge (stop : Bool)
deriving DecidableEq, Repr

def Bus.step (b : Bus) (e : Event) : Bus :=
  match e with
  | .shift => b.shift
  | .settle => { b with busy := false }
  | .hold held => { b with held }
  | .arbitration_lost stop => b.abort 1 stop
  | .no_acknowledge stop => b.abort 2 stop

/-- The bus is busy from the first bit of a START to the STOP. -/
def Bus.bus_busy (b : Bus) : Bool := b.held || b.chip.phase != .idle || b.shifting.isSome

def Bus.status (b : Bus) : Word :=
  (if b.bus_busy then 4 else 0) ||| (if 16 ≤ b.tx.length then 0x10 else 0) ||| (if b.rx.isEmpty then 0x40 else 0) |||
    (if b.tx.isEmpty then 0x80 else 0)

/-- A soft reset, after which the EEPROM may or may not see a STOP. -/
def Bus.reset (b : Bus) (stop : Bool) : Bus :=
  { b.release stop with tx := [], shifting := none, rx := [], isr := 0, cr := 0, rx_pirq := 0 }

def Bus.push (b : Bus) (w : TxWord) : Bus :=
  if 16 ≤ b.tx.length ∨ b.cr.getLsbD 1 then b else { b with tx := b.tx ++ [w] }

def Bus.read (b : Bus) (r : Nat) : Word × Bus :=
  match r with
  | 0x104 => (b.status, b)
  | 0x20 => (b.isr, b)
  | 0x10c => ((b.rx.headD 0).setWidth 32, { b with rx := b.rx.tail })
  | _ => (0, b)

/-- A register write. The interrupt status toggles where a one is written. -/
def Bus.write (b : Bus) (stop : Bool) (r : Nat) (v : Word) : Bus :=
  match r with
  | 0x40 => if v = 10 then b.reset stop else b
  | 0x120 => { b with rx_pirq := (v &&& 15).toNat }
  | 0x100 => { b with cr := v, tx := if v.getLsbD 1 then [] else b.tx }
  | 0x20 => { b with isr := b.isr ^^^ v }
  | 0x108 => b.push (.of v)
  | _ => b

@[simp] theorem Bus.read_status (b : Bus) : b.read 0x104 = (b.status, b) := rfl

@[simp] theorem Bus.read_isr (b : Bus) : b.read 0x20 = (b.isr, b) := rfl

@[simp] theorem Bus.read_rx (b : Bus) :
    b.read 0x10c = ((b.rx.headD 0).setWidth 32, { b with rx := b.rx.tail }) := rfl

@[simp] theorem Bus.write_reset (b : Bus) (stop : Bool) : b.write stop 0x40 10 = b.reset stop := rfl

@[simp] theorem Bus.write_isr (b : Bus) (stop : Bool) (v : Word) :
    b.write stop 0x20 v = { b with isr := b.isr ^^^ v } := rfl

@[simp] theorem Bus.write_tx (b : Bus) (stop : Bool) (v : Word) : b.write stop 0x108 v = b.push (.of v) := rfl

/-- What happens before one access of the processor, and whether a reset there
looks like a STOP to the EEPROM. -/
structure Interval where
  events : List Event
  stop : Bool

/-- The processor's view: the bus, and all that will happen on it. -/
structure Machine where
  bus : Bus
  plan : Nat → Interval

/-- The bus at the next access. -/
def Machine.tick (m : Machine) : Machine := ⟨run Bus.step m.bus (m.plan 0).events, fun n => m.plan (n + 1)⟩

def rd (m : Machine) (r : Nat) : Word × Machine :=
  ((m.tick.bus.read r).1, { m.tick with bus := (m.tick.bus.read r).2 })

def wr (m : Machine) (r : Nat) (v : Word) : Machine := { m.tick with bus := m.tick.bus.write (m.plan 0).stop r v }

/-- `vTaskDelay(pdMS_TO_TICKS(10) + 1)`, in which a write cycle ends. -/
def delay (m : Machine) : Machine := { m.tick with bus := { m.tick.bus with busy := false } }

/-- The polls of `wait_status`, `n` of them left. -/
def poll (mask expected : Word) : Nat → Machine → Int × Machine
  | 0, m => (-1, m)
  | n + 1, m => if (rd m 0x104).1 &&& mask = expected then (0, (rd m 0x104).2) else poll mask expected n (rd m 0x104).2

def wait_status (m : Machine) (mask expected : Word) : Int × Machine := poll mask expected 100000 m

def start (m : Machine) (address : BitVec 16) : Int × Machine :=
  let waited := wait_status m 4 0
  if waited.1 ≠ 0 then (-1, waited.2)
  else
    let m := wr (wr (wr (wr waited.2 0x40 10) 0x120 15) 0x100 3) 0x100 1
    let flags := rd m 0x20
    let m := wr flags.2 0x20 flags.1
    (0, wr (wr (wr m 0x108 0x1a0) 0x108 ((address >>> 8).setWidth 32)) 0x108 ((address &&& 255).setWidth 32))

def finish (m : Machine) : Int × Machine :=
  let drained := wait_status m 0x80 0x80
  if drained.1 ≠ 0 then (-1, wr drained.2 0x40 10)
  else
    let free := wait_status drained.2 4 0
    if free.1 ≠ 0 then (-1, wr free.2 0x40 10)
    else
      let flags := rd free.2 0x20
      if flags.1 &&& 3 ≠ 0 then (-1, wr flags.2 0x40 10) else (0, flags.2)

/-- The next `n` bytes of a read, stored from `p` on. -/
def read_bytes : Nat → Machine → Nat → Cells Byte → Int × Machine × Cells Byte
  | 0, m, _, buffer => (0, m, buffer)
  | n + 1, m, p, buffer =>
    let waited := wait_status m 0x40 0
    if waited.1 ≠ 0 then (-1, wr waited.2 0x40 10, buffer)
    else
      let byte := rd waited.2 0x10c
      read_bytes n byte.2 (p + 1) (Function.update buffer p (byte.1.setWidth 8))

/-- The body of the loop of `eeprom_read`, for `n` bytes. -/
def read_chunk (m : Machine) (address : BitVec 16) (n p : Nat) (buffer : Cells Byte) : Int × Machine × Cells Byte :=
  let started := start m address
  if started.1 ≠ 0 then (-1, started.2, buffer)
  else
    let fetched := read_bytes n (wr (wr started.2 0x108 0x1a1) 0x108 (0x200 ||| BitVec.ofNat 32 n)) p buffer
    if fetched.1 ≠ 0 then (-1, fetched.2)
    else
      let free := wait_status fetched.2.1 4 0
      if free.1 ≠ 0 then (-1, wr free.2 0x40 10, fetched.2.2)
      else
        let flags := rd free.2 0x20
        if flags.1 &&& 1 ≠ 0 then (-1, wr flags.2 0x40 10, fetched.2.2) else (0, flags.2, fetched.2.2)

/-- The bytes that `eeprom_read` asks for next. -/
def burst (size : Nat) : Nat := if size > 16 then 16 else size

theorem burst_eq (size : Nat) : burst size = min 16 size := by
  unfold burst
  split <;> omega

/-- The loop of `eeprom_read` from `p` on in the buffer. -/
def read_chunks (m : Machine) (address : BitVec 16) (p size : Nat) (buffer : Cells Byte) :
    Int × Machine × Cells Byte :=
  if size = 0 then (0, m, buffer)
  else
    let n := burst size
    let r := read_chunk m address n p buffer
    if r.1 ≠ 0 then r else read_chunks r.2.1 (address + BitVec.ofNat 16 n) (p + n) (size - n) r.2.2
termination_by size
decreasing_by
  rw [burst_eq]
  omega

/-- An object of the C program. None is larger than a pointer difference. -/
structure Buffer where
  bytes : Cells Byte
  size : BitVec 32
  object : size.toNat < 2 ^ 31

def eeprom_read (m : Machine) (address : BitVec 16) (buffer : Buffer) : Int × Machine × Cells Byte :=
  if address.setWidth 32 + buffer.size > 8192 then (-1, m, buffer.bytes)
  else read_chunks m address 0 buffer.size.toNat buffer.bytes

/-- The last `n` bytes of a page, the STOP with the last one. -/
def write_bytes : Nat → Machine → Cells Byte → Int × Machine
  | 0, m, _ => (0, m)
  | n + 1, m, p =>
    let waited := wait_status m 0x10 0
    if waited.1 ≠ 0 then (-1, wr waited.2 0x40 10)
    else
      write_bytes n (wr waited.2 0x108 ((p 0).setWidth 32 ||| if n = 0 then 0x200 else 0)) (fun i => p (i + 1))

/-- The body of the loop of `eeprom_write`, for `n` bytes. -/
def write_chunk (m : Machine) (address : BitVec 16) (n : Nat) (p : Cells Byte) : Int × Machine :=
  let started := start m address
  if started.1 ≠ 0 then (-1, started.2)
  else
    let sent := write_bytes n started.2 p
    if sent.1 ≠ 0 then (-1, sent.2)
    else
      let finished := finish sent.2
      if finished.1 ≠ 0 then (-1, finished.2) else (0, delay finished.2)

/-- The bytes that `eeprom_write` sends next. -/
def chunk (address : BitVec 16) (size : Nat) : Nat :=
  let n := 32 - (address &&& 31).toNat
  if n > size then size else n

theorem and_31 (address : BitVec 16) : (address &&& 31).toNat = address.toNat % 32 := by
  have hmask : (31 : BitVec 16).toNat = 2 ^ 5 - 1 := rfl
  rw [BitVec.toNat_and, hmask, Nat.and_two_pow_sub_one_eq_mod]

theorem chunk_eq (address : BitVec 16) (size : Nat) : chunk address size = min (32 - address.toNat % 32) size := by
  unfold chunk
  rw [and_31]
  dsimp only
  split <;> omega

/-- The loop of `eeprom_write`. -/
def write_chunks (m : Machine) (address : BitVec 16) (p : Cells Byte) (size : Nat) : Int × Machine :=
  if size = 0 then (0, m)
  else
    let n := chunk address size
    let r := write_chunk m address n p
    if r.1 ≠ 0 then r else write_chunks r.2 (address + BitVec.ofNat 16 n) (fun i => p (n + i)) (size - n)
termination_by size
decreasing_by
  rw [chunk_eq]
  omega

def eeprom_write (m : Machine) (address : BitVec 16) (buffer : Buffer) : Int × Machine :=
  if address.toNat < SETTINGS_SLOT0 ∨
      address.setWidth 32 + buffer.size > BitVec.ofNat 32 (SETTINGS_SLOT1 + SETTINGS_SLOT_SIZE) then (-1, m)
  else write_chunks m address buffer.bytes buffer.size.toNat

end scu35.eeprom
