import Scu35Miner.Rtl.Sha256Core
import Scu35Miner.Radix.BigEndian

open fips180

namespace scu35.bitcoin_sha256_core

def SHA256_IV : Vector Word 8 := #v[
  0x6a09e667#32, 0xbb67ae85#32, 0x3c6ef372#32, 0xa54ff53a#32, 0x510e527f#32, 0x9b05688c#32, 0x1f83d9ab#32, 0x5be0cd19#32]

def first_block (header_tail_i : Vector Word 4) (nonce_i : Word) : Vector Word 16 := #v[
  header_tail_i[0], header_tail_i[1], header_tail_i[2], nonce_i ||| (header_tail_i[3] &&& 0x00000000),
  0x80000000, 0, 0, 0, 0, 0, 0, 0, 0, 0, 0, 0x00000280]

def second_block (first_digest_i : Vector Word 8) : Vector Word 16 := #v[
  first_digest_i.get 0, first_digest_i.get 1, first_digest_i.get 2, first_digest_i.get 3,
  first_digest_i.get 4, first_digest_i.get 5, first_digest_i.get 6, first_digest_i.get 7,
  0x80000000, 0, 0, 0, 0, 0, 0, 0x00000100]

structure Input where
  start_i : Bool
  first_pass_i : Bool
  midstate_i : Vector Word 8
  header_tail_i : Vector Word 4
  nonce_i : Word
  first_digest_i : Vector Word 8

/-- The ports of `u_core`. -/
def Input.core (i : Input) : sha256_core_iterative.Input where
  start_i := i.start_i
  block_i := if i.first_pass_i then first_block i.header_tail_i i.nonce_i else second_block i.first_digest_i
  h_i := if i.first_pass_i then i.midstate_i else SHA256_IV

end scu35.bitcoin_sha256_core

namespace scu35.bitcoin_hash_engine

open dsp48e2_add32

structure Params where
  NONCE_STRIDE : Nat
  EXPLICIT_DSP_SCHEDULE : Bool
  DSP_ROUND_STATE : Bool
  dsp : Dsp48e2

def Params.NONCE_STRIDE_W (p : Params) : Word := BitVec.ofNat 32 p.NONCE_STRIDE

/-- `HYBRID_DSP48` selects both the slices and the four-phase schedule. -/
def Params.core (p : Params) : sha256_core_iterative.Params where
  EXPLICIT_DSP_SCHEDULE := p.EXPLICIT_DSP_SCHEDULE
  FOUR_PHASE := p.EXPLICIT_DSP_SCHEDULE
  DSP_ROUND_STATE := p.DSP_ROUND_STATE
  dsp := p.dsp

inductive EngineState where
  | ST_IDLE
  | ST_LAUNCH
  | ST_PASS1
  | ST_PASS2
  | ST_COMPARE
  | ST_CHECK
deriving DecidableEq, Repr, Inhabited

open EngineState

structure State where
  state_q : EngineState
  core_start_q : Bool
  launch_state_q : EngineState
  core_first_pass_q : Bool
  midstate_q : Vector Word 8
  header_tail_q : Vector Word 4
  target_q : Vector Word 8
  nonce_q : Word
  remaining_q : Word
  digest_q : Vector Word 8
  cmp_idx_q : BitVec 3
  cmp_lt_q : Bool
  cmp_gt_q : Bool
  done_o : Bool
  result_valid_o : Bool
  result_nonce_o : Word
  u_core : sha256_core_iterative.State
deriving DecidableEq, Inhabited

structure Input where
  start_i : Bool
  stop_i : Bool
  midstate_i : Vector Word 8
  header_tail_i : Vector Word 4
  target_i : Vector Word 8
  nonce_start_i : Word
  nonce_count_i : Word

/-- Reset state; the core resets its control registers only. -/
structure IsReset (s : State) : Prop where
  state : s.state_q = ST_IDLE
  launch_state : s.launch_state_q = ST_IDLE
  core_start : s.core_start_q = false
  core_first_pass : s.core_first_pass_q = true
  midstate : s.midstate_q = Vector.replicate 8 0
  header_tail : s.header_tail_q = Vector.replicate 4 0
  target : s.target_q = Vector.replicate 8 0
  nonce : s.nonce_q = 0
  remaining : s.remaining_q = 0
  digest : s.digest_q = Vector.replicate 8 0
  cmp_idx : s.cmp_idx_q = 0
  cmp_lt : s.cmp_lt_q = false
  cmp_gt : s.cmp_gt_q = false
  done : s.done_o = false
  result_valid : s.result_valid_o = false
  result_nonce : s.result_nonce_o = 0
  core : sha256_core_iterative.IsReset s.u_core

/-- `digest_q[b*8 +: 8]`, counting bytes from the least significant. -/
def digest_byte (digest_q : Vector Word 8) (b : Nat) : Byte :=
  (digest_q.toList.getD (7 - b / 4) 0).extractLsb' (8 * (b % 4)) 8

/-- The digest with its thirty-two bytes reversed. -/
def bitcoin_digest (digest_q : Vector Word 8) : Vector Word 8 :=
  Vector.ofFn fun i => ofBytes (digest_byte digest_q (4 * i)) (digest_byte digest_q (4 * i + 1))
    (digest_byte digest_q (4 * i + 2)) (digest_byte digest_q (4 * i + 3))

def State.busy_o (s : State) : Bool := s.state_q != ST_IDLE || s.u_core.busy_o

def State.hash_complete_o (s : State) : Bool := s.state_q == ST_PASS2 && s.u_core.done_o

/-- The ports that the engine drives on `u_core`. -/
def State.core_input (s : State) : bitcoin_sha256_core.Input where
  start_i := s.core_start_q
  first_pass_i := s.core_first_pass_q
  midstate_i := s.midstate_q
  header_tail_i := s.header_tail_q
  nonce_i := s.nonce_q
  first_digest_i := s.digest_q

def State.cmp_digest (s : State) : Word := (bitcoin_digest s.digest_q).get ⟨s.cmp_idx_q.toNat, s.cmp_idx_q.isLt⟩
def State.cmp_target (s : State) : Word := s.target_q.get ⟨s.cmp_idx_q.toNat, s.cmp_idx_q.isLt⟩

/-- The `ST_COMPARE` branch. -/
def State.compare (s next : State) : State :=
  let next :=
    if !s.cmp_lt_q && !s.cmp_gt_q then
      if s.cmp_digest < s.cmp_target then { next with cmp_lt_q := true }
      else if s.cmp_digest > s.cmp_target then { next with cmp_gt_q := true }
      else next
    else next
  if s.cmp_idx_q = 7 then
    let next :=
      if s.cmp_lt_q || (!s.cmp_gt_q && (bitcoin_digest s.digest_q).get 7 ≤ s.target_q.get 7) then
        { next with result_valid_o := true, result_nonce_o := s.nonce_q }
      else next
    { next with state_q := ST_CHECK }
  else { next with cmp_idx_q := s.cmp_idx_q + 1 }

def step (p : Params) (s : State) (i : Input) : State :=
  let next := { s with
    core_start_q := false
    done_o := false
    result_valid_o := false
    u_core := sha256_core_iterative.step p.core s.u_core s.core_input.core }
  if i.stop_i then { next with state_q := ST_IDLE, done_o := s.state_q != ST_IDLE }
  else match s.state_q with
    | ST_IDLE =>
      if i.start_i && i.nonce_count_i != 0 then
        { next with
          midstate_q := i.midstate_i
          header_tail_q := i.header_tail_i
          target_q := i.target_i
          nonce_q := i.nonce_start_i
          remaining_q := i.nonce_count_i
          digest_q := Vector.replicate 8 0
          cmp_idx_q := 0
          cmp_lt_q := false
          cmp_gt_q := false
          core_first_pass_q := true
          launch_state_q := ST_PASS1
          state_q := ST_LAUNCH }
      else next
    | ST_LAUNCH => { next with core_start_q := true, state_q := s.launch_state_q }
    | ST_PASS1 =>
      if s.u_core.done_o then
        { next with
          digest_q := s.u_core.digest_o
          core_first_pass_q := false
          launch_state_q := ST_PASS2
          state_q := ST_LAUNCH }
      else next
    | ST_PASS2 =>
      if s.u_core.done_o then
        { next with
          digest_q := s.u_core.digest_o
          cmp_idx_q := 0
          cmp_lt_q := false
          cmp_gt_q := false
          state_q := ST_COMPARE }
      else next
    | ST_COMPARE => s.compare next
    | ST_CHECK =>
      if s.remaining_q ≤ 1 then { next with done_o := true, state_q := ST_IDLE }
      else
        { next with
          remaining_q := s.remaining_q - 1
          nonce_q := s.nonce_q + p.NONCE_STRIDE_W
          core_first_pass_q := true
          launch_state_q := ST_PASS1
          state_q := ST_LAUNCH }

end scu35.bitcoin_hash_engine
