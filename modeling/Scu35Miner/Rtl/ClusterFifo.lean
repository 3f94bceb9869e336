import Scu35Miner.Clocked.Bank
import Scu35Miner.Fips180.Compression

open fips180 clocked

namespace scu35.bitcoin_result_cluster_fifo

structure Params where
  CLUSTER_INDEX : Nat
  CLUSTER_SIZE : Nat
  FIFO_DEPTH : Nat

def Params.PTR_WIDTH (p : Params) : Nat := if p.FIFO_DEPTH ≤ 2 then 1 else Nat.clog 2 p.FIFO_DEPTH

def Params.CLUSTER_BASE_ID (p : Params) : Word := BitVec.ofNat 32 (p.CLUSTER_INDEX * p.CLUSTER_SIZE)

structure State (p : Params) where
  engine_id_mem : Vector Word p.FIFO_DEPTH
  nonce_mem : Vector Word p.FIFO_DEPTH
  wr_ptr_q : BitVec p.PTR_WIDTH
  rd_ptr_q : BitVec p.PTR_WIDTH
  count_q : BitVec (p.PTR_WIDTH + 1)
  clear_q : Bool
  stage1_valid_q : Vector Bool p.CLUSTER_SIZE
  stage1_nonce_q : Vector Word p.CLUSTER_SIZE
  stage1_overflow_q : Bool
  stage2_valid_q : Bool
  stage2_engine_id_q : Word
  stage2_nonce_q : Word
  stage2_overflow_q : Bool
  overflow_o : Bool

structure Input (p : Params) where
  clear_i : Bool
  pop_i : Bool
  engine_valid_i : Vector Bool p.CLUSTER_SIZE
  engine_nonce_i : Vector Word p.CLUSTER_SIZE

def reset (p : Params) : State p where
  engine_id_mem := Vector.replicate _ 0
  nonce_mem := Vector.replicate _ 0
  wr_ptr_q := 0
  rd_ptr_q := 0
  count_q := 0
  clear_q := false
  stage1_valid_q := Vector.replicate _ false
  stage1_nonce_q := Vector.replicate _ 0
  stage1_overflow_q := false
  stage2_valid_q := false
  stage2_engine_id_q := 0
  stage2_nonce_q := 0
  stage2_overflow_q := false
  overflow_o := false

section Wires

variable {p : Params} (s : State p) (i : Input p)

def State.valid_o : Bool := s.count_q != 0

/-- A read beyond the memory, which no reachable state makes, is zero. -/
def State.engine_id_o : Word := s.engine_id_mem.toList.getD s.rd_ptr_q.toNat 0
def State.nonce_o : Word := s.nonce_mem.toList.getD s.rd_ptr_q.toNat 0

def State.do_pop : Bool := i.pop_i && s.count_q != 0

def State.do_push : Bool :=
  s.stage2_valid_q && (decide (s.count_q < BitVec.ofNat (p.PTR_WIDTH + 1) p.FIFO_DEPTH) || s.do_pop i)

/-- The lowest engine with a result in the first stage. -/
def State.hit_idx : Option (Fin p.CLUSTER_SIZE) := (List.finRange p.CLUSTER_SIZE).find? fun k => s.stage1_valid_q[k]

def State.stage1_valid_count : Nat := (List.finRange p.CLUSTER_SIZE).countP fun k => s.stage1_valid_q[k]

def Input.input_valid_count : Nat := (List.finRange p.CLUSTER_SIZE).countP fun k => i.engine_valid_i[k]

end Wires

/-- A pointer one further; the last index is compared in the pointer's width. -/
def next_ptr (p : Params) (ptr : BitVec p.PTR_WIDTH) : BitVec p.PTR_WIDTH :=
  if ptr = BitVec.ofNat p.PTR_WIDTH p.FIFO_DEPTH - 1 then 0 else ptr + 1

def step (p : Params) (s : State p) (i : Input p) : State p :=
  if s.clear_q then
    { s with
      clear_q := i.clear_i
      wr_ptr_q := 0
      rd_ptr_q := 0
      count_q := 0
      overflow_o := false
      stage1_valid_q := Vector.replicate _ false
      stage1_overflow_q := false
      stage2_valid_q := false
      stage2_overflow_q := false }
  else
    { clear_q := i.clear_i
      stage1_valid_q := i.engine_valid_i
      stage1_nonce_q := i.engine_nonce_i
      stage1_overflow_q := decide (i.input_valid_count > 1)
      stage2_valid_q := s.hit_idx.isSome
      stage2_engine_id_q :=
        match s.hit_idx with
        | some k => p.CLUSTER_BASE_ID + BitVec.ofNat 32 k
        | none => 0
      stage2_nonce_q :=
        match s.hit_idx with
        | some k => s.stage1_nonce_q[k]
        | none => 0
      stage2_overflow_q := s.stage1_overflow_q || decide (s.stage1_valid_count > 1)
      overflow_o := s.overflow_o || (s.stage2_valid_q && !s.do_push i) || s.stage2_overflow_q
      engine_id_mem :=
        if s.do_push i then s.engine_id_mem.setIfInBounds s.wr_ptr_q.toNat s.stage2_engine_id_q else s.engine_id_mem
      nonce_mem := if s.do_push i then s.nonce_mem.setIfInBounds s.wr_ptr_q.toNat s.stage2_nonce_q else s.nonce_mem
      wr_ptr_q := if s.do_push i then next_ptr p s.wr_ptr_q else s.wr_ptr_q
      rd_ptr_q := if s.do_pop i then next_ptr p s.rd_ptr_q else s.rd_ptr_q
      count_q :=
        match s.do_push i, s.do_pop i with
        | true, false => s.count_q + 1
        | false, true => s.count_q - 1
        | _, _ => s.count_q }

end scu35.bitcoin_result_cluster_fifo
