import Scu35Miner.Clocked.Bank
import Scu35Miner.Clocked.Trace
import Scu35Miner.Rtl.ClusterFifo
import Scu35Miner.Rtl.HashEngine

open fips180 clocked

namespace scu35.bitcoin_miner_axi

open dsp48e2_add32

/-- The parameters, in the ranges that the module elaborates with. -/
structure Params where
  NUM_ENGINES : Nat
  CLUSTER_SIZE : Nat
  CLUSTER_FIFO_DEPTH : Nat
  AXI_ADDR_WIDTH : Nat
  EXPLICIT_DSP_SCHEDULE : Bool
  DSP_ROUND_STATE : Bool
  dsp : Dsp48e2
  engines_pos : 1 ≤ NUM_ENGINES
  engines_lt : NUM_ENGINES < 2 ^ 32
  cluster_pos : 1 ≤ CLUSTER_SIZE
  depth_pos : 1 ≤ CLUSTER_FIFO_DEPTH
  addr_width : 12 ≤ AXI_ADDR_WIDTH

namespace Params

variable (p : Params)

def NUM_CLUSTERS : Nat := (p.NUM_ENGINES + p.CLUSTER_SIZE - 1) / p.CLUSTER_SIZE

def ENGINE_INDEX_WIDTH : Nat := if p.NUM_ENGINES ≤ 1 then 1 else Nat.clog 2 p.NUM_ENGINES

def engine : bitcoin_hash_engine.Params where
  NONCE_STRIDE := p.NUM_ENGINES
  EXPLICIT_DSP_SCHEDULE := p.EXPLICIT_DSP_SCHEDULE
  DSP_ROUND_STATE := p.DSP_ROUND_STATE
  dsp := p.dsp

def cluster (c : Nat) : bitcoin_result_cluster_fifo.Params where
  CLUSTER_INDEX := c
  CLUSTER_SIZE := p.CLUSTER_SIZE
  FIFO_DEPTH := p.CLUSTER_FIFO_DEPTH

end Params

def ADDR_CONTROL : BitVec 12 := 0x000
def ADDR_STATUS : BitVec 12 := 0x004
def ADDR_NUM_ENGINES : BitVec 12 := 0x008
def ADDR_MIDSTATE_BASE : BitVec 12 := 0x020
def ADDR_TAIL_BASE : BitVec 12 := 0x040
def ADDR_TARGET_BASE : BitVec 12 := 0x060
def ADDR_NONCE_START : BitVec 12 := 0x080
def ADDR_NONCE_COUNT : BitVec 12 := 0x084
def ADDR_RESULT_NONCE : BitVec 12 := 0x090
def ADDR_RESULT_ENGINE : BitVec 12 := 0x094
def ADDR_RESULT_STATUS : BitVec 12 := 0x098
def ADDR_IRQ_CONTROL : BitVec 12 := 0x0a0

def HW_VERSION : Word := 0x01020000

inductive LoadState where
  | LOAD_IDLE
  | LOAD_PREP
  | LOAD_DECODE
  | LOAD_START
  | LOAD_DIVIDE
deriving DecidableEq, Repr

open LoadState

/-- The registers of the write channel and its two stages. -/
structure WriteChannel where
  s_axi_awready : Bool
  s_axi_wready : Bool
  s_axi_bresp : BitVec 2
  s_axi_bvalid : Bool
  wr_stage1_valid_q : Bool
  wr_stage1_addr_q : BitVec 12
  wr_stage1_data_q : Word
  wr_stage1_strb_q : BitVec 4
  wr_stage2_valid_q : Bool
  wr_stage2_data_q : Word
  wr_stage2_strb_q : BitVec 4
  wr_stage2_midstate_we_q : Vector Bool 8
  wr_stage2_tail_we_q : Vector Bool 4
  wr_stage2_target_we_q : Vector Bool 8
  wr_stage2_control_we_q : Bool
  wr_stage2_nonce_start_we_q : Bool
  wr_stage2_nonce_count_we_q : Bool
  wr_stage2_result_status_we_q : Bool
  wr_stage2_irq_control_we_q : Bool
  wr_stage2_boot_version_we_q : Bool

/-- The registers of the read channel and its two stages. -/
structure ReadChannel where
  s_axi_arready : Bool
  s_axi_rdata : Word
  s_axi_rresp : BitVec 2
  s_axi_rvalid : Bool
  rd_stage1_valid_q : Bool
  rd_stage1_addr_q : BitVec 12
  rd_stage2_valid_q : Bool
  rd_stage2_data_q : Word

/-- The registers that only bus writes change. -/
structure Registers where
  midstate_q : Vector Word 8
  header_tail_q : Vector Word 4
  target_q : Vector Word 8
  nonce_start_q : Word
  nonce_count_q : Word
  boot_version_q : Word
  irq_mask_q : Bool
  irq_force_q : Bool

/-- The registers of the launch machine, with the divider and the ports that it
drives on the engines. -/
structure Loader (p : Params) where
  load_state_q : LoadState
  load_div_q : Word
  load_rem_q : BitVec 2
  load_div_bits_q : BitVec 6
  load_engine_idx_q : BitVec p.ENGINE_INDEX_WIDTH
  load_start_idx_q : BitVec p.ENGINE_INDEX_WIDTH
  load_start_count_q : Word
  load_start_last_q : Bool
  load_start_onehot_q : Vector Bool p.NUM_ENGINES
  engine_start_q : Vector Bool p.NUM_ENGINES
  engine_nonce_start_q : Vector Word p.NUM_ENGINES
  engine_nonce_count_q : Vector Word p.NUM_ENGINES

/-- The status flags, the result register and the pulses. -/
structure Control (p : Params) where
  running_q : Bool
  nonce_done_q : Bool
  overflow_q : Bool
  result_valid_q : Bool
  result_nonce_q : Word
  result_engine_q : Word
  start_pulse_q : Bool
  stop_pulse_q : Bool
  clear_results_q : Bool
  engine_stop_q : Vector Bool p.NUM_ENGINES
  cluster_pop_q : Vector Bool p.NUM_CLUSTERS

structure State (p : Params) extends WriteChannel, ReadChannel, Registers, Loader p, Control p where
  hash_count_q : Word
  engines : Vector bitcoin_hash_engine.State p.NUM_ENGINES
  fifos : (c : Fin p.NUM_CLUSTERS) → bitcoin_result_cluster_fifo.State (p.cluster c)

structure Input (p : Params) where
  s_axi_awaddr : BitVec p.AXI_ADDR_WIDTH
  s_axi_awvalid : Bool
  s_axi_wdata : Word
  s_axi_wstrb : BitVec 4
  s_axi_wvalid : Bool
  s_axi_bready : Bool
  s_axi_araddr : BitVec p.AXI_ADDR_WIDTH
  s_axi_arvalid : Bool
  s_axi_rready : Bool

def WriteChannel.reset : WriteChannel where
  s_axi_awready := false
  s_axi_wready := false
  s_axi_bresp := 0
  s_axi_bvalid := false
  wr_stage1_valid_q := false
  wr_stage1_addr_q := 0
  wr_stage1_data_q := 0
  wr_stage1_strb_q := 0
  wr_stage2_valid_q := false
  wr_stage2_data_q := 0
  wr_stage2_strb_q := 0
  wr_stage2_midstate_we_q := Vector.replicate 8 false
  wr_stage2_tail_we_q := Vector.replicate 4 false
  wr_stage2_target_we_q := Vector.replicate 8 false
  wr_stage2_control_we_q := false
  wr_stage2_nonce_start_we_q := false
  wr_stage2_nonce_count_we_q := false
  wr_stage2_result_status_we_q := false
  wr_stage2_irq_control_we_q := false
  wr_stage2_boot_version_we_q := false

def ReadChannel.reset : ReadChannel where
  s_axi_arready := false
  s_axi_rdata := 0
  s_axi_rresp := 0
  s_axi_rvalid := false
  rd_stage1_valid_q := false
  rd_stage1_addr_q := 0
  rd_stage2_valid_q := false
  rd_stage2_data_q := 0

def Registers.reset : Registers where
  midstate_q := Vector.replicate 8 0
  header_tail_q := Vector.replicate 4 0
  target_q := Vector.replicate 8 0xffffffff
  nonce_start_q := 0
  nonce_count_q := 0
  boot_version_q := 0
  irq_mask_q := false
  irq_force_q := false

def Loader.reset (p : Params) : Loader p where
  load_state_q := LOAD_IDLE
  load_div_q := 0
  load_rem_q := 0
  load_div_bits_q := 0
  load_engine_idx_q := 0
  load_start_idx_q := 0
  load_start_count_q := 0
  load_start_last_q := false
  load_start_onehot_q := Vector.replicate _ false
  engine_start_q := Vector.replicate _ false
  engine_nonce_start_q := Vector.replicate _ 0
  engine_nonce_count_q := Vector.replicate _ 0

def Control.reset (p : Params) : Control p where
  running_q := false
  nonce_done_q := false
  overflow_q := false
  result_valid_q := false
  result_nonce_q := 0
  result_engine_q := 0
  start_pulse_q := false
  stop_pulse_q := false
  clear_results_q := false
  engine_stop_q := Vector.replicate _ false
  cluster_pop_q := Vector.replicate _ false

/-- Reset state; the cores of the engines reset their control registers only. -/
structure IsReset {p : Params} (s : State p) : Prop where
  write : s.toWriteChannel = .reset
  read : s.toReadChannel = .reset
  registers : s.toRegisters = .reset
  loader : s.toLoader = .reset p
  control : s.toControl = .reset p
  hash_count : s.hash_count_q = 0
  engines : ∀ k : Fin p.NUM_ENGINES, bitcoin_hash_engine.IsReset s.engines[k]
  fifos : ∀ c, s.fifos c = bitcoin_result_cluster_fifo.reset _

/-- The bytes of a word, each taken from the new data where its strobe is set. -/
def apply_wstrb (old_data new_data : Word) (strobe : BitVec 4) : Word :=
  let byte (k : Nat) : Byte := if strobe.getLsbD k then new_data.extractLsb' (8 * k) 8 else old_data.extractLsb' (8 * k) 8
  ofBytes (byte 3) (byte 2) (byte 1) (byte 0)

/-- `addr` lies in the `n` words from `base` on, and at which of them. -/
def word_index (base : BitVec 12) (n : Nat) (addr : BitVec 12) : Option Nat :=
  if base ≤ addr ∧ addr < base + BitVec.ofNat 12 (4 * n) then some ((addr - base).toNat / 4) else none

/-- An address with its two low bits cleared. -/
def word_addr {w : Nat} (addr : BitVec w) : BitVec 12 := addr.extractLsb' 2 10 ++ 0#2

section Wires

variable {p : Params} (s : State p) (i : Input p)

def State.write_fire : Bool :=
  i.s_axi_awvalid && i.s_axi_wvalid && !s.wr_stage1_valid_q && !s.wr_stage2_valid_q && !s.s_axi_bvalid

def State.write_apply : Bool := s.wr_stage2_valid_q && !s.s_axi_bvalid

def State.read_fire : Bool := i.s_axi_arvalid && !s.rd_stage1_valid_q && !s.rd_stage2_valid_q && !s.s_axi_rvalid

/-- The lowest cluster with a stored result. -/
def State.cluster_hit_idx_next : Option (Fin p.NUM_CLUSTERS) :=
  (List.finRange p.NUM_CLUSTERS).find? fun c => (s.fifos c).valid_o

/-- The sum is taken in a register that just holds the number of engines. -/
def State.hashes_this_cycle : BitVec (Nat.clog 2 (p.NUM_ENGINES + 1)) :=
  BitVec.ofNat _ ((List.finRange p.NUM_ENGINES).countP fun k => s.engines[k].hash_complete_o)

def State.irq_o : Bool := !s.irq_mask_q && (s.irq_force_q || s.result_valid_q || s.overflow_q || s.nonce_done_q)

def State.load_rem_shift : BitVec 3 := s.load_rem_q ++ s.load_div_q.extractLsb' 31 1

/-- Bit `bit` of a `CONTROL` write that is applied in this cycle. -/
def State.control_write (bit : Nat) : Bool := s.write_apply && s.wr_stage2_control_we_q && s.wr_stage2_data_q.getLsbD bit

/-- Bit `bit` of a `RESULT_STATUS` write that is applied in this cycle. -/
def State.result_status_write (bit : Nat) : Bool :=
  s.write_apply && s.wr_stage2_result_status_we_q && s.wr_stage2_data_q.getLsbD bit

/-- A START that the launch machine accepts. -/
def State.starts : Bool := s.control_write 0 && s.load_state_q == LOAD_IDLE

end Wires

def read_reg {p : Params} (s : State p) (addr : BitVec 12) : Word :=
  match word_index ADDR_MIDSTATE_BASE 8 addr with
  | some idx => s.midstate_q.toList.getD idx 0
  | none =>
    match word_index ADDR_TAIL_BASE 4 addr with
    | some idx => s.header_tail_q.toList.getD idx 0
    | none =>
      match word_index ADDR_TARGET_BASE 8 addr with
      | some idx => s.target_q.toList.getD idx 0
      | none =>
        if addr = ADDR_CONTROL then 0
        else if addr = ADDR_STATUS then
          0#28 ++ BitVec.ofBool s.overflow_q ++ BitVec.ofBool s.nonce_done_q ++ BitVec.ofBool s.result_valid_q ++
            BitVec.ofBool s.running_q
        else if addr = ADDR_NUM_ENGINES then BitVec.ofNat 32 p.NUM_ENGINES
        else if addr = ADDR_NONCE_START then s.nonce_start_q
        else if addr = ADDR_NONCE_COUNT then s.nonce_count_q
        else if addr = ADDR_RESULT_NONCE then s.result_nonce_q
        else if addr = ADDR_RESULT_ENGINE then s.result_engine_q
        else if addr = ADDR_RESULT_STATUS then 0#30 ++ BitVec.ofBool s.overflow_q ++ BitVec.ofBool s.result_valid_q
        else if addr = ADDR_IRQ_CONTROL then 0#30 ++ BitVec.ofBool s.irq_force_q ++ BitVec.ofBool s.irq_mask_q
        else if addr = 0x0a8 then 0x48534831
        else if addr = 0x0ac then s.hash_count_q
        else if addr = 0x0b0 then HW_VERSION
        else if addr = 0x0b4 then s.boot_version_q
        else 0

def engine_work_count (p : Params) (count engine_index : Word) : Word :=
  if count > engine_index then (count - 1 - engine_index) / BitVec.ofNat 32 p.NUM_ENGINES + 1 else 0

def engine_onehot (p : Params) (engine_index : BitVec p.ENGINE_INDEX_WIDTH) : Vector Bool p.NUM_ENGINES :=
  Vector.ofFn fun engine_idx => engine_index == BitVec.ofNat _ engine_idx

/-- The quota of the lane that is being prepared. -/
def State.load_lane_count {p : Params} (s : State p) : Word :=
  if p.NUM_ENGINES = 3 then s.load_div_q + if s.load_engine_idx_q.toNat < s.load_rem_q.toNat then 1 else 0
  else engine_work_count p s.nonce_count_q (s.load_engine_idx_q.setWidth 32)

/-- The one-hot write enables for an address. -/
def WriteChannel.decode (w : WriteChannel) (wr_addr : BitVec 12) : WriteChannel :=
  match word_index ADDR_MIDSTATE_BASE 8 wr_addr with
  | some i => { w with wr_stage2_midstate_we_q := w.wr_stage2_midstate_we_q.setIfInBounds i true }
  | none =>
    match word_index ADDR_TAIL_BASE 4 wr_addr with
    | some i => { w with wr_stage2_tail_we_q := w.wr_stage2_tail_we_q.setIfInBounds i true }
    | none =>
      match word_index ADDR_TARGET_BASE 8 wr_addr with
      | some i => { w with wr_stage2_target_we_q := w.wr_stage2_target_we_q.setIfInBounds i true }
      | none =>
        if wr_addr = 0x0b4 then { w with wr_stage2_boot_version_we_q := true }
        else if wr_addr = ADDR_CONTROL then { w with wr_stage2_control_we_q := true }
        else if wr_addr = ADDR_NONCE_START then { w with wr_stage2_nonce_start_we_q := true }
        else if wr_addr = ADDR_NONCE_COUNT then { w with wr_stage2_nonce_count_we_q := true }
        else if wr_addr = ADDR_RESULT_STATUS then { w with wr_stage2_result_status_we_q := true }
        else if wr_addr = ADDR_IRQ_CONTROL then { w with wr_stage2_irq_control_we_q := true }
        else w

section Next

variable {p : Params} (s : State p) (i : Input p)

/-- The clocked block assigns each group of registers in the order given here;
a later assignment overrides an earlier one. -/
def State.write_next : WriteChannel :=
  let w := { s.toWriteChannel with s_axi_awready := s.write_fire i, s_axi_wready := s.write_fire i }
  let w := if s.s_axi_bvalid && i.s_axi_bready then { w with s_axi_bvalid := false } else w
  let w :=
    if s.write_fire i then
      { w with
        wr_stage1_valid_q := true
        wr_stage1_addr_q := word_addr i.s_axi_awaddr
        wr_stage1_data_q := i.s_axi_wdata
        wr_stage1_strb_q := i.s_axi_wstrb }
    else w
  let w :=
    if s.wr_stage1_valid_q && !s.wr_stage2_valid_q && !s.s_axi_bvalid then
      WriteChannel.decode
        { w with
          wr_stage2_valid_q := true
          wr_stage2_data_q := s.wr_stage1_data_q
          wr_stage2_strb_q := s.wr_stage1_strb_q
          wr_stage2_midstate_we_q := Vector.replicate 8 false
          wr_stage2_tail_we_q := Vector.replicate 4 false
          wr_stage2_target_we_q := Vector.replicate 8 false
          wr_stage2_control_we_q := false
          wr_stage2_nonce_start_we_q := false
          wr_stage2_nonce_count_we_q := false
          wr_stage2_result_status_we_q := false
          wr_stage2_irq_control_we_q := false
          wr_stage2_boot_version_we_q := false
          wr_stage1_valid_q := false } s.wr_stage1_addr_q
    else w
  if s.write_apply then { w with s_axi_bresp := 0, s_axi_bvalid := true, wr_stage2_valid_q := false } else w

def State.read_next : ReadChannel :=
  let r := { s.toReadChannel with s_axi_arready := s.read_fire i }
  let r := if s.s_axi_rvalid && i.s_axi_rready then { r with s_axi_rvalid := false } else r
  let r :=
    if s.read_fire i then { r with rd_stage1_valid_q := true, rd_stage1_addr_q := word_addr i.s_axi_araddr } else r
  let r :=
    if s.rd_stage1_valid_q then
      { r with rd_stage2_valid_q := true, rd_stage2_data_q := read_reg s s.rd_stage1_addr_q, rd_stage1_valid_q := false }
    else r
  if s.rd_stage2_valid_q && !s.s_axi_rvalid then
    { r with s_axi_rdata := s.rd_stage2_data_q, s_axi_rresp := 0, s_axi_rvalid := true, rd_stage2_valid_q := false }
  else r

/-- A register after the write that is being applied. -/
def State.written (we : Bool) (old : Word) : Word :=
  if s.write_apply && we then apply_wstrb old s.wr_stage2_data_q s.wr_stage2_strb_q else old

def State.registers_next : Registers where
  midstate_q := Vector.ofFn fun k => s.written s.wr_stage2_midstate_we_q[k] s.midstate_q[k]
  header_tail_q := Vector.ofFn fun k => s.written s.wr_stage2_tail_we_q[k] s.header_tail_q[k]
  target_q := Vector.ofFn fun k => s.written s.wr_stage2_target_we_q[k] s.target_q[k]
  nonce_start_q := s.written s.wr_stage2_nonce_start_we_q s.nonce_start_q
  nonce_count_q := s.written s.wr_stage2_nonce_count_we_q s.nonce_count_q
  boot_version_q := s.written s.wr_stage2_boot_version_we_q s.boot_version_q
  irq_mask_q :=
    if s.write_apply && s.wr_stage2_irq_control_we_q && s.wr_stage2_strb_q.getLsbD 0 then s.wr_stage2_data_q.getLsbD 0
    else s.irq_mask_q
  irq_force_q :=
    if s.write_apply && s.wr_stage2_irq_control_we_q && s.wr_stage2_strb_q.getLsbD 0 then s.wr_stage2_data_q.getLsbD 1
    else s.irq_force_q

/-- One cycle of the launch machine outside of START and STOP. -/
def State.load_step (load : Loader p) : Loader p :=
  match s.load_state_q with
  | LOAD_IDLE => load
  | LOAD_DIVIDE =>
    let load :=
      if s.load_rem_shift ≥ 3 then
        { load with
          load_rem_q := (s.load_rem_shift - 3).setWidth 2
          load_div_q := s.load_div_q.extractLsb' 0 31 ++ 1#1 }
      else
        { load with
          load_rem_q := s.load_rem_shift.setWidth 2
          load_div_q := s.load_div_q.extractLsb' 0 31 ++ 0#1 }
    let load := { load with load_div_bits_q := s.load_div_bits_q - 1 }
    if s.load_div_bits_q = 1 then { load with load_state_q := LOAD_PREP } else load
  | LOAD_PREP =>
    { load with
      load_start_idx_q := s.load_engine_idx_q
      load_start_count_q := s.load_lane_count
      load_start_last_q := s.load_engine_idx_q == BitVec.ofNat p.ENGINE_INDEX_WIDTH p.NUM_ENGINES - 1
      engine_nonce_start_q := s.engine_nonce_start_q.setIfInBounds s.load_engine_idx_q.toNat
        (s.nonce_start_q + s.load_engine_idx_q.setWidth 32)
      engine_nonce_count_q := s.engine_nonce_count_q.setIfInBounds s.load_engine_idx_q.toNat s.load_lane_count
      load_state_q := LOAD_DECODE }
  | LOAD_DECODE =>
    { load with
      load_start_onehot_q :=
        if s.load_start_count_q ≠ 0 then engine_onehot p s.load_start_idx_q else Vector.replicate _ false
      load_state_q := LOAD_START }
  | LOAD_START =>
    let load := { load with engine_start_q := s.load_start_onehot_q }
    if s.load_start_last_q then { load with load_state_q := LOAD_IDLE }
    else { load with load_engine_idx_q := s.load_engine_idx_q + 1, load_state_q := LOAD_PREP }

def State.loader_next : Loader p :=
  let load := { s.toLoader with engine_start_q := Vector.replicate _ false }
  let load :=
    if s.starts then
      { load with
        load_state_q := if p.NUM_ENGINES = 3 then LOAD_DIVIDE else LOAD_PREP
        load_div_q := s.nonce_count_q
        load_rem_q := 0
        load_div_bits_q := 32
        load_engine_idx_q := 0 }
    else load
  if s.control_write 1 then { load with load_state_q := LOAD_IDLE } else s.load_step load

/-- The effect of the bus write that is being applied on flags and pulses. -/
def State.apply_control (c : Control p) : Control p :=
  let c :=
    if s.starts then
      { c with
        start_pulse_q := true
        running_q := true
        nonce_done_q := false
        overflow_q := false
        result_valid_q := false }
    else c
  let c :=
    if s.control_write 1 then
      { c with
        stop_pulse_q := true
        engine_stop_q := Vector.replicate _ true
        running_q := false
        nonce_done_q := true }
    else c
  let c :=
    if s.control_write 2 then
      { c with
        clear_results_q := true
        result_valid_q := false
        overflow_q := false
        nonce_done_q := false }
    else c
  let c := if s.result_status_write 0 then { c with result_valid_q := false } else c
  if s.result_status_write 1 then { c with overflow_q := false } else c

/-- The cycle in which a job is seen to be complete. -/
def State.completes : Bool :=
  s.running_q && s.load_state_q == LOAD_IDLE &&
    (s.engines.all (fun e => !e.busy_o) || s.engines.all (fun e => e.done_o)) && !s.start_pulse_q

def State.control_next : Control p :=
  let c := { s.toControl with
    start_pulse_q := false
    stop_pulse_q := false
    clear_results_q := false
    engine_stop_q := Vector.replicate _ false
    cluster_pop_q := Vector.replicate _ false }
  let c := s.apply_control c
  let c := if (List.finRange p.NUM_CLUSTERS).any fun k => (s.fifos k).overflow_o then { c with overflow_q := true } else c
  let c :=
    match s.result_valid_q, s.cluster_hit_idx_next with
    | false, some k =>
      { c with
        result_valid_q := true
        result_engine_q := (s.fifos k).engine_id_o
        result_nonce_q := (s.fifos k).nonce_o
        cluster_pop_q := c.cluster_pop_q.set k true }
    | _, _ => c
  if s.completes then { c with running_q := false, nonce_done_q := true } else c

/-- The ports of engine `k`. -/
def State.engine_input (k : Fin p.NUM_ENGINES) : bitcoin_hash_engine.Input where
  start_i := s.engine_start_q[k]
  stop_i := s.engine_stop_q[k]
  midstate_i := s.midstate_q
  header_tail_i := s.header_tail_q
  target_i := s.target_q
  nonce_start_i := s.engine_nonce_start_q[k]
  nonce_count_i := s.engine_nonce_count_q[k]

/-- The engine at place `l` of cluster `c`, if there is one. -/
def cluster_engine (c : Fin p.NUM_CLUSTERS) (l : Fin p.CLUSTER_SIZE) : Option (Fin p.NUM_ENGINES) :=
  if h : c * p.CLUSTER_SIZE + l < p.NUM_ENGINES then some ⟨c * p.CLUSTER_SIZE + l, h⟩ else none

/-- The ports of the FIFO of cluster `c`; inactive engines are tied to zero. -/
def State.fifo_input (c : Fin p.NUM_CLUSTERS) : bitcoin_result_cluster_fifo.Input (p.cluster c) where
  clear_i := s.stop_pulse_q || s.start_pulse_q || s.clear_results_q
  pop_i := s.cluster_pop_q[c]
  engine_valid_i := Vector.ofFn fun l : Fin p.CLUSTER_SIZE =>
    match cluster_engine c l with
    | some k => s.engines[k].result_valid_o
    | none => false
  engine_nonce_i := Vector.ofFn fun l : Fin p.CLUSTER_SIZE =>
    match cluster_engine c l with
    | some k => s.engines[k].result_nonce_o
    | none => 0

def step (p : Params) (s : State p) (i : Input p) : State p where
  toWriteChannel := s.write_next i
  toReadChannel := s.read_next i
  toRegisters := s.registers_next
  toLoader := s.loader_next
  toControl := s.control_next
  hash_count_q := s.hash_count_q + s.hashes_this_cycle.setWidth 32
  engines := Vector.ofFn fun k => bitcoin_hash_engine.step p.engine s.engines[k] (s.engine_input k)
  fifos c := bitcoin_result_cluster_fifo.step (p.cluster c) (s.fifos c) (s.fifo_input c)

end Next

end scu35.bitcoin_miner_axi
