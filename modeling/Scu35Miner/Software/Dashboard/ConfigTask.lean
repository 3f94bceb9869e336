import Scu35Miner.Software.Dashboard.Telemetry
import Scu35Miner.Software.Dashboard

open fips180 storage

namespace scu35.dashboard

open json_helpers settings miner_protocol

/-- What a call of `FreeRTOS_recv` for one byte returns: the byte, nothing yet,
or an error other than that. -/
inductive Received where
  | byte (c : Byte)
  | nothing
  | error
deriving DecidableEq, Repr

def LINE_SIZE : Nat := 1024

/-- The loop that reads a line, and whether it ended with a newline. Each call
stands with the tick count that the loop compared before it. -/
def receive_line (start : Word) : List (Word × Received) → List Byte → List Byte × Bool
  | [], line => (line, false)
  | (now, received) :: rest, line =>
    if line.length < LINE_SIZE ∧ now - start < pdMS_TO_TICKS 3000 then
      match received with
      | .error => (line, false)
      | .nothing => receive_line start rest line
      | .byte c => if c = 0x0a then (line, true) else receive_line start rest (line ++ [c])
    else (line, false)

/-- The loop that sends a reply: how much of it is sent after calls of
`FreeRTOS_send` with these results. -/
def send_reply (reply : List Byte) : List Int → Nat → List Byte
  | [], sent => reply.take sent
  | k :: results, sent =>
    if sent < reply.length ∧ 0 < k then send_reply reply results (sent + k.toNat) else reply.take sent

/-- A connection of `config_task`: the settings in use after it, and what it
sends. A reply that does not fit is not sent. -/
def config_connection (j : Json) (start : Word) (received : List (Word × Received)) (sends : List Int)
    (current : miner_settings) (active_mac : Vector Byte 6) (d : Device Byte) :
    Outcome Byte (miner_settings × List Byte) :=
  let r := receive_line start received []
  (config_reply j r.1 r.2 current active_mac d).bind fun r d =>
  match r.2 with
  | none => .value (r.1, []) d
  | some reply => .value (r.1, if reply.length ≥ LINE_SIZE then [] else send_reply reply sends 0) d

/-- The bytes that were received. -/
def received_bytes (received : List (Word × Received)) : List Byte :=
  received.filterMap fun r =>
    match r.2 with
    | .byte c => some c
    | _ => none

/-- The calls of a connection that delivers these bytes in time; between them
there may be nothing yet. -/
structure Delivers (start : Word) (received : List (Word × Received)) (bytes : List Byte) : Prop where
  in_time : ∀ r ∈ received, r.1 - start < pdMS_TO_TICKS 3000
  no_error : ∀ r ∈ received, r.2 ≠ .error
  bytes_eq : received_bytes received = bytes

theorem delivers_at_once (start : Word) (bytes : List Byte) :
    Delivers start (bytes.map fun c => (start, .byte c)) bytes where
  in_time := by
    intro r hr
    obtain ⟨c, _, rfl⟩ := List.mem_map.mp hr
    rw [BitVec.sub_self]
    decide
  no_error := by
    intro r hr
    obtain ⟨c, _, rfl⟩ := List.mem_map.mp hr
    exact Received.noConfusion
  bytes_eq := by
    rw [received_bytes, List.filterMap_map]
    exact List.filterMap_some

/-- The loop goes on from the bytes it has to the end of the line. -/
theorem receive_line_loop {start : Word} {received : List (Word × Received)} {line before after : List Byte}
    (hline : line = before ++ after) (hnewline : 0x0a ∉ line) (hlen : line.length < LINE_SIZE)
    (h : Delivers start received (after ++ [0x0a])) : receive_line start received before = (line, true) := by
  induction received generalizing before after with
  | nil => exact absurd h.bytes_eq.symm (by simp [received_bytes])
  | cons r rest ih =>
    obtain ⟨now, r⟩ := r
    have hfits : before.length < LINE_SIZE := by
      rw [hline, List.length_append] at hlen
      omega
    have hrest : ∀ bytes, received_bytes rest = bytes → Delivers start rest bytes := fun bytes hbytes =>
      ⟨fun q hq => h.in_time q (by simp [hq]), fun q hq => h.no_error q (by simp [hq]), hbytes⟩
    have hbytes := h.bytes_eq
    have hopen : before.length < LINE_SIZE ∧ now - start < pdMS_TO_TICKS 3000 := ⟨hfits, h.in_time _ List.mem_cons_self⟩
    cases r with
    | error => exact absurd rfl (h.no_error _ List.mem_cons_self)
    | nothing =>
      rw [receive_line, if_pos hopen]
      exact ih hline (hrest _ hbytes)
    | byte c =>
      change c :: received_bytes rest = _ at hbytes
      rw [receive_line, if_pos hopen]
      cases after with
      | nil =>
        rw [List.nil_append, List.cons.injEq] at hbytes
        rw [hbytes.1, hline, List.append_nil]
        rfl
      | cons d after =>
        rw [List.cons_append, List.cons.injEq] at hbytes
        obtain ⟨rfl, hbytes⟩ := hbytes
        have hc : c ≠ 0x0a := by
          rintro rfl
          exact hnewline (by simp [hline])
        rw [if_neg hc]
        exact ih (by simp [hline]) (hrest _ hbytes)

/-- A line that fits is read, however long its bytes take to come. -/
theorem Delivers.line {start : Word} {received : List (Word × Received)} {line : List Byte}
    (h : Delivers start received (line ++ [0x0a])) (hnewline : 0x0a ∉ line) (hlen : line.length < LINE_SIZE) :
    receive_line start received [] = (line, true) :=
  receive_line_loop rfl hnewline hlen h

/-- The calls of `FreeRTOS_send` take the whole reply. -/
structure Takes (sends : List Int) (reply : List Byte) : Prop where
  positive : ∀ k ∈ sends, 0 < k
  enough : reply.length ≤ (sends.map Int.toNat).sum

theorem send_reply_from {reply : List Byte} {sends : List Int} (sent : Nat) (hpos : ∀ k ∈ sends, 0 < k)
    (henough : reply.length ≤ sent + (sends.map Int.toNat).sum) : send_reply reply sends sent = reply := by
  induction sends generalizing sent with
  | nil =>
    rw [List.map_nil, List.sum_nil, Nat.add_zero] at henough
    exact List.take_of_length_le henough
  | cons k sends ih =>
    rw [List.map_cons, List.sum_cons] at henough
    rw [send_reply]
    split
    · exact ih (sent + k.toNat) (fun q hq => hpos q (by simp [hq])) (by omega)
    next hstop =>
      have hle : reply.length ≤ sent := by
        have hk := hpos k (by simp)
        omega
      exact List.take_of_length_le hle

theorem Takes.all {sends : List Int} {reply : List Byte} (h : Takes sends reply) : send_reply reply sends 0 = reply :=
  send_reply_from 0 h.positive (by simpa using h.enough)

end scu35.dashboard
