import Scu35Miner.Clocked.Serial
import Scu35Miner.Rtl.MinerAxi.Bus

open fips180 clocked

namespace scu35.bitcoin_miner_axi

/-- The words that the bus alone writes. -/
inductive DataWord where
  | midstate (k : Fin 8)
  | header_tail (k : Fin 4)
  | target (k : Fin 8)
  | nonce_start
  | nonce_count
  | boot_version
deriving DecidableEq, Repr

def DataWord.addr : DataWord → BitVec 12
  | .midstate k => ADDR_MIDSTATE_BASE + BitVec.ofNat 12 (4 * k)
  | .header_tail k => ADDR_TAIL_BASE + BitVec.ofNat 12 (4 * k)
  | .target k => ADDR_TARGET_BASE + BitVec.ofNat 12 (4 * k)
  | .nonce_start => ADDR_NONCE_START
  | .nonce_count => ADDR_NONCE_COUNT
  | .boot_version => 0x0b4

def Registers.word (r : Registers) : DataWord → Word
  | .midstate k => r.midstate_q[k]
  | .header_tail k => r.header_tail_q[k]
  | .target k => r.target_q[k]
  | .nonce_start => r.nonce_start_q
  | .nonce_count => r.nonce_count_q
  | .boot_version => r.boot_version_q

/-- The write enable of a word in the second stage. -/
def WriteChannel.enable (w : WriteChannel) : DataWord → Bool
  | .midstate k => w.wr_stage2_midstate_we_q[k]
  | .header_tail k => w.wr_stage2_tail_we_q[k]
  | .target k => w.wr_stage2_target_we_q[k]
  | .nonce_start => w.wr_stage2_nonce_start_we_q
  | .nonce_count => w.wr_stage2_nonce_count_we_q
  | .boot_version => w.wr_stage2_boot_version_we_q

/-- A write as the master issues it. -/
structure BusWrite where
  addr : BitVec 12
  data : Word
  strb : BitVec 4
deriving DecidableEq, Repr

/-- A write into a file of words, all at once. -/
def file_write (file : DataWord → Word) (w : BusWrite) : DataWord → Word := fun a =>
  if a.addr = w.addr then apply_wstrb (file a) w.data w.strb else file a

/-- Byte `k` of a word. -/
def byte_of (x : Word) (k : Fin 4) : Byte := x.extractLsb' (8 * k) 8

theorem byte_apply_wstrb (old new : Word) (strb : BitVec 4) (k : Fin 4) :
    byte_of (apply_wstrb old new strb) k = if strb.getLsbD k then byte_of new k else byte_of old k := by
  have hbytes (b0 b1 b2 b3 : Byte) : byte_of (ofBytes b0 b1 b2 b3) k = [b3, b2, b1, b0].getD k 0 := by
    apply BitVec.eq_of_getLsbD_eq
    intro i hi
    rw [byte_of, BitVec.getLsbD_extractLsb', ofBytes_getLsbD]
    obtain rfl | rfl | rfl | rfl : k = 0 ∨ k = 1 ∨ k = 2 ∨ k = 3 := by omega
    · simp [hi]
    · simp [hi, show ¬ 8 + i < 8 by omega, show 8 + i < 16 by omega]
    · simp [hi, show ¬ 16 + i < 8 by omega, show ¬ 16 + i < 16 by omega, show 16 + i < 24 by omega]
    · simp [hi, show ¬ 24 + i < 8 by omega, show ¬ 24 + i < 16 by omega, show ¬ 24 + i < 24 by omega]
  rw [apply_wstrb, hbytes]
  obtain rfl | rfl | rfl | rfl : k = 0 ∨ k = 1 ∨ k = 2 ∨ k = 3 := by omega
  all_goals rfl

section Decode

theorem word_addr_aligned {n : Nat} (addr : BitVec n) : (word_addr addr).toNat % 4 = 0 := by
  rw [word_addr, BitVec.toNat_append]
  simp [Nat.shiftLeft_eq]

/-- Aligned addresses of a range of words, in terms of their values. -/
theorem word_index_some (base : BitVec 12) {addr : BitVec 12} {n k : Nat} (hend : base.toNat + 4 * n < 2 ^ 12)
    (hbase : base.toNat % 4 = 0) (haddr : addr.toNat % 4 = 0) :
    word_index base n addr = some k ↔ k < n ∧ addr.toNat = base.toNat + 4 * k := by
  have hlimit : (base + BitVec.ofNat 12 (4 * n)).toNat = base.toNat + 4 * n := by
    rw [BitVec.toNat_add, BitVec.toNat_ofNat]
    omega
  have hsub (hle : base.toNat ≤ addr.toNat) : (addr - base).toNat = addr.toNat - base.toNat :=
    BitVec.toNat_sub_of_le hle
  rw [word_index]
  split
  next hin =>
    rw [BitVec.le_def, BitVec.lt_def, hlimit] at hin
    rw [Option.some.injEq, hsub hin.1]
    omega
  next hout =>
    rw [BitVec.le_def, BitVec.lt_def, hlimit] at hout
    simp only [reduceCtorEq, false_iff]
    omega

theorem word_index_none (base : BitVec 12) {addr : BitVec 12} {n : Nat} (hend : base.toNat + 4 * n < 2 ^ 12)
    (hbase : base.toNat % 4 = 0) (haddr : addr.toNat % 4 = 0) :
    word_index base n addr = none ↔ ∀ k < n, addr.toNat ≠ base.toNat + 4 * k := by
  rw [Option.eq_none_iff_forall_ne_some]
  constructor
  · intro h k hk heq
    exact h k ((word_index_some base hend hbase haddr).mpr ⟨hk, heq⟩)
  · intro h k hsome
    obtain ⟨hk, heq⟩ := (word_index_some base hend hbase haddr).mp hsome
    exact h k hk heq

/-- The addresses of the words as numbers. -/
def DataWord.offset : DataWord → Nat
  | .midstate k => 0x20 + 4 * k
  | .header_tail k => 0x40 + 4 * k
  | .target k => 0x60 + 4 * k
  | .nonce_start => 0x80
  | .nonce_count => 0x84
  | .boot_version => 0xb4

theorem addr_toNat (a : DataWord) : a.addr.toNat = a.offset := by
  have hword (base : BitVec 12) {n k : Nat} (hend : base.toNat + 4 * n < 2 ^ 12) (hk : k < n) :
      (base + BitVec.ofNat 12 (4 * k)).toNat = base.toNat + 4 * k := by
    rw [BitVec.toNat_add, BitVec.toNat_ofNat]
    omega
  cases a with
  | midstate k => exact hword ADDR_MIDSTATE_BASE (by decide) k.isLt
  | header_tail k => exact hword ADDR_TAIL_BASE (by decide) k.isLt
  | target k => exact hword ADDR_TARGET_BASE (by decide) k.isLt
  | nonce_start => rfl
  | nonce_count => rfl
  | boot_version => rfl

theorem addr_eq_iff (a : DataWord) (addr : BitVec 12) : a.addr = addr ↔ addr.toNat = a.offset := by
  rw [← BitVec.toNat_inj, addr_toNat, eq_comm]

/-- Decoding an aligned address enables the word that it is the address of. -/
theorem decode_enable {w : WriteChannel} {addr : BitVec 12} (haddr : addr.toNat % 4 = 0)
    (hclear : ∀ a, w.enable a = false) (a : DataWord) : (w.decode addr).enable a = decide (a.addr = addr) := by
  have hset {n : Nat} (v : Vector Bool n) (i : Nat) (k : Fin n) (hk : v[k] = false) :
      (v.setIfInBounds i true)[k] = decide (i = k.val) := by
    rw [getElem_lane] at hk ⊢
    rw [Vector.getElem_setIfInBounds, hk]
    by_cases h : i = k.val <;> simp [h]
  have hother {b : DataWord} (h : addr.toNat ≠ b.offset) : w.enable b = decide (b.addr = addr) := by
    rw [hclear, eq_comm, decide_eq_false_iff_not, addr_eq_iff]
    exact h
  unfold WriteChannel.decode
  cases hmid : word_index ADDR_MIDSTATE_BASE 8 addr with
  | some i =>
    obtain ⟨hi, hvalue⟩ := (word_index_some ADDR_MIDSTATE_BASE (by decide) (by decide) haddr).mp hmid
    change addr.toNat = 0x20 + 4 * i at hvalue
    cases a with
    | midstate k =>
      refine (hset _ i k (hclear (.midstate k))).trans (decide_eq_decide.mpr ?_)
      rw [addr_eq_iff, hvalue, DataWord.offset]
      omega
    | header_tail k => exact hother (b := .header_tail k) (by rw [hvalue, DataWord.offset]; omega)
    | target k => exact hother (b := .target k) (by rw [hvalue, DataWord.offset]; omega)
    | nonce_start => exact hother (b := .nonce_start) (by rw [hvalue, DataWord.offset]; omega)
    | nonce_count => exact hother (b := .nonce_count) (by rw [hvalue, DataWord.offset]; omega)
    | boot_version => exact hother (b := .boot_version) (by rw [hvalue, DataWord.offset]; omega)
  | none =>
    have hnot_mid : ∀ k < 8, addr.toNat ≠ 0x20 + 4 * k :=
      (word_index_none ADDR_MIDSTATE_BASE (by decide) (by decide) haddr).mp hmid
    cases htail : word_index ADDR_TAIL_BASE 4 addr with
    | some i =>
      obtain ⟨hi, hvalue⟩ := (word_index_some ADDR_TAIL_BASE (by decide) (by decide) haddr).mp htail
      change addr.toNat = 0x40 + 4 * i at hvalue
      cases a with
      | midstate k => exact hother (b := .midstate k) (hnot_mid k k.isLt)
      | header_tail k =>
        refine (hset _ i k (hclear (.header_tail k))).trans (decide_eq_decide.mpr ?_)
        rw [addr_eq_iff, hvalue, DataWord.offset]
        omega
      | target k => exact hother (b := .target k) (by rw [hvalue, DataWord.offset]; omega)
      | nonce_start => exact hother (b := .nonce_start) (by rw [hvalue, DataWord.offset]; omega)
      | nonce_count => exact hother (b := .nonce_count) (by rw [hvalue, DataWord.offset]; omega)
      | boot_version => exact hother (b := .boot_version) (by rw [hvalue, DataWord.offset]; omega)
    | none =>
      have hnot_tail : ∀ k < 4, addr.toNat ≠ 0x40 + 4 * k :=
        (word_index_none ADDR_TAIL_BASE (by decide) (by decide) haddr).mp htail
      cases htarget : word_index ADDR_TARGET_BASE 8 addr with
      | some i =>
        obtain ⟨hi, hvalue⟩ := (word_index_some ADDR_TARGET_BASE (by decide) (by decide) haddr).mp htarget
        change addr.toNat = 0x60 + 4 * i at hvalue
        cases a with
        | midstate k => exact hother (b := .midstate k) (hnot_mid k k.isLt)
        | header_tail k => exact hother (b := .header_tail k) (hnot_tail k k.isLt)
        | target k =>
          refine (hset _ i k (hclear (.target k))).trans (decide_eq_decide.mpr ?_)
          rw [addr_eq_iff, hvalue, DataWord.offset]
          omega
        | nonce_start => exact hother (b := .nonce_start) (by rw [hvalue, DataWord.offset]; omega)
        | nonce_count => exact hother (b := .nonce_count) (by rw [hvalue, DataWord.offset]; omega)
        | boot_version => exact hother (b := .boot_version) (by rw [hvalue, DataWord.offset]; omega)
      | none =>
        have hnot_target : ∀ k < 8, addr.toNat ≠ 0x60 + 4 * k :=
          (word_index_none ADDR_TARGET_BASE (by decide) (by decide) haddr).mp htarget
        have hsingle {value : BitVec 12} {b : DataWord} (hb : b.addr = value) (heq : addr = value) :
            true = decide (b.addr = addr) := by rw [hb, heq, decide_eq_true rfl]
        have hclash {value : BitVec 12} {b : DataWord} (heq : addr = value) (hb : value.toNat ≠ b.offset) :
            w.enable b = decide (b.addr = addr) := hother (heq ▸ hb)
        dsimp only
        cases a with
        | midstate k => split_ifs <;> exact hother (b := .midstate k) (hnot_mid k k.isLt)
        | header_tail k => split_ifs <;> exact hother (b := .header_tail k) (hnot_tail k k.isLt)
        | target k => split_ifs <;> exact hother (b := .target k) (hnot_target k k.isLt)
        | nonce_start =>
          split_ifs with h0 h1 h2 h3 h4 h5
          · exact hclash (b := .nonce_start) h0 (by decide)
          · exact hclash (b := .nonce_start) h1 (by decide)
          · exact hsingle rfl h2
          · exact hclash (b := .nonce_start) h3 (by decide)
          · exact hclash (b := .nonce_start) h4 (by decide)
          · exact hclash (b := .nonce_start) h5 (by decide)
          · exact hother (b := .nonce_start) fun heq => h2 (BitVec.eq_of_toNat_eq heq)
        | nonce_count =>
          split_ifs with h0 h1 h2 h3 h4 h5
          · exact hclash (b := .nonce_count) h0 (by decide)
          · exact hclash (b := .nonce_count) h1 (by decide)
          · exact hclash (b := .nonce_count) h2 (by decide)
          · exact hsingle rfl h3
          · exact hclash (b := .nonce_count) h4 (by decide)
          · exact hclash (b := .nonce_count) h5 (by decide)
          · exact hother (b := .nonce_count) fun heq => h3 (BitVec.eq_of_toNat_eq heq)
        | boot_version =>
          split_ifs with h0 h1 h2 h3 h4 h5
          · exact hsingle rfl h0
          · exact hclash (b := .boot_version) h1 (by decide)
          · exact hclash (b := .boot_version) h2 (by decide)
          · exact hclash (b := .boot_version) h3 (by decide)
          · exact hclash (b := .boot_version) h4 (by decide)
          · exact hclash (b := .boot_version) h5 (by decide)
          · exact hother (b := .boot_version) fun heq => h0 (BitVec.eq_of_toNat_eq heq)

end Decode

/-- Decoding leaves what the master sees alone. -/
theorem decode_seen (w : WriteChannel) (addr : BitVec 12) :
    (w.decode addr).s_axi_awready = w.s_axi_awready ∧ (w.decode addr).s_axi_wready = w.s_axi_wready ∧
      (w.decode addr).s_axi_bresp = w.s_axi_bresp := by
  unfold WriteChannel.decode
  split
  next => exact ⟨rfl, rfl, rfl⟩
  next =>
    split
    next => exact ⟨rfl, rfl, rfl⟩
    next =>
      split
      next => exact ⟨rfl, rfl, rfl⟩
      next => split_ifs <;> exact ⟨rfl, rfl, rfl⟩

section Registers

variable {p : Params} {s : State p} {i : Input p}

/-- In every cycle a data word takes the write that is applied to it, and keeps its
value otherwise. -/
theorem step_word (a : DataWord) : (step p s i).word a = s.written (s.enable a) (s.word a) := by
  change s.registers_next.word a = _
  cases a with
  | midstate k =>
    change (Vector.ofFn _)[k] = _
    rw [getElem_lane, Vector.getElem_ofFn]
    rfl
  | header_tail k =>
    change (Vector.ofFn _)[k] = _
    rw [getElem_lane, Vector.getElem_ofFn]
    rfl
  | target k =>
    change (Vector.ofFn _)[k] = _
    rw [getElem_lane, Vector.getElem_ofFn]
    rfl
  | nonce_start => rfl
  | nonce_count => rfl
  | boot_version => rfl

/-- Reading the address of a data word returns it. -/
theorem read_reg_word (a : DataWord) : read_reg s a.addr = s.word a := by
  have haligned : a.addr.toNat % 4 = 0 := by
    rw [addr_toNat]
    cases a <;> simp only [DataWord.offset] <;> omega
  have hsome (base : BitVec 12) {n k : Nat} (hend : base.toNat + 4 * n < 2 ^ 12) (hbase : base.toNat % 4 = 0) (hk : k < n)
      (heq : a.offset = base.toNat + 4 * k) : word_index base n a.addr = some k :=
    (word_index_some base hend hbase haligned).mpr ⟨hk, (addr_toNat a).trans heq⟩
  have hnone (base : BitVec 12) {n : Nat} (hend : base.toNat + 4 * n < 2 ^ 12) (hbase : base.toNat % 4 = 0)
      (hout : ∀ k < n, a.offset ≠ base.toNat + 4 * k) : word_index base n a.addr = none :=
    (word_index_none base hend hbase haligned).mpr fun k hk heq => hout k hk ((addr_toNat a).symm.trans heq)
  have hget {n : Nat} (v : Vector Word n) (k : Fin n) : v.toList.getD k 0 = v[k] := by
    rw [getElem_lane]
    simp [List.getD_eq_getElem?_getD]
  cases a with
  | midstate k =>
    rw [read_reg, hsome ADDR_MIDSTATE_BASE (by decide) (by decide) k.isLt rfl]
    exact hget s.midstate_q k
  | header_tail k =>
    rw [read_reg, hnone ADDR_MIDSTATE_BASE (by decide) (by decide) ?_,
      hsome ADDR_TAIL_BASE (by decide) (by decide) k.isLt rfl]
    · exact hget s.header_tail_q k
    · intro j hj
      change 0x40 + 4 * k.val ≠ 0x20 + 4 * j
      omega
  | target k =>
    rw [read_reg, hnone ADDR_MIDSTATE_BASE (by decide) (by decide) ?_, hnone ADDR_TAIL_BASE (by decide) (by decide) ?_,
      hsome ADDR_TARGET_BASE (by decide) (by decide) k.isLt rfl]
    · exact hget s.target_q k
    · intro j hj
      change 0x60 + 4 * k.val ≠ 0x40 + 4 * j
      omega
    · intro j hj
      change 0x60 + 4 * k.val ≠ 0x20 + 4 * j
      omega
  | nonce_start => rfl
  | nonce_count => rfl
  | boot_version => rfl

end Registers

end scu35.bitcoin_miner_axi
