import Scu35Miner.Rtl.MinerAxi

open fips180 clocked

namespace scu35.bitcoin_miner_axi

section Decode

variable (w : WriteChannel) (addr : BitVec 12)

/-- Decoding an address sets write enables and nothing else. -/
theorem decode_kept :
    (w.decode addr).s_axi_bvalid = w.s_axi_bvalid ∧ (w.decode addr).wr_stage1_valid_q = w.wr_stage1_valid_q ∧
      (w.decode addr).wr_stage2_valid_q = w.wr_stage2_valid_q ∧ (w.decode addr).wr_stage2_data_q = w.wr_stage2_data_q ∧
      (w.decode addr).wr_stage2_strb_q = w.wr_stage2_strb_q := by
  unfold WriteChannel.decode
  split
  next => exact ⟨rfl, rfl, rfl, rfl, rfl⟩
  next =>
    split
    next => exact ⟨rfl, rfl, rfl, rfl, rfl⟩
    next =>
      split
      next => exact ⟨rfl, rfl, rfl, rfl, rfl⟩
      next => split_ifs <;> exact ⟨rfl, rfl, rfl, rfl, rfl⟩

@[simp] theorem decode_bvalid : (w.decode addr).s_axi_bvalid = w.s_axi_bvalid := (decode_kept w addr).1

@[simp] theorem decode_stage1_valid : (w.decode addr).wr_stage1_valid_q = w.wr_stage1_valid_q := (decode_kept w addr).2.1

@[simp] theorem decode_stage2_valid : (w.decode addr).wr_stage2_valid_q = w.wr_stage2_valid_q := (decode_kept w addr).2.2.1

@[simp] theorem decode_data : (w.decode addr).wr_stage2_data_q = w.wr_stage2_data_q := (decode_kept w addr).2.2.2.1

@[simp] theorem decode_strb : (w.decode addr).wr_stage2_strb_q = w.wr_stage2_strb_q := (decode_kept w addr).2.2.2.2

end Decode

section Write

variable {p : Params} {s : State p} {i : Input p}

/-- While a response waits, the write channel only waits for its acceptance. -/
theorem write_responds (hresp : s.s_axi_bvalid = true) :
    (step p s i).toWriteChannel = { s.toWriteChannel with
      s_axi_awready := false, s_axi_wready := false, s_axi_bvalid := !i.s_axi_bready } := by
  change s.write_next i = _
  cases hready : i.s_axi_bready <;>
    simp [State.write_next, State.write_fire, State.write_apply, hresp, hready]

/-- A write in the second stage is applied and answered. -/
theorem write_applies (hresp : s.s_axi_bvalid = false) (hstage2 : s.wr_stage2_valid_q = true) :
    (step p s i).toWriteChannel = { s.toWriteChannel with
      s_axi_awready := false, s_axi_wready := false, s_axi_bresp := 0, s_axi_bvalid := true
      wr_stage2_valid_q := false } := by
  change s.write_next i = _
  simp [State.write_next, State.write_fire, State.write_apply, hresp, hstage2]

/-- A write in the first stage is decoded into the second. -/
theorem write_decodes (hresp : s.s_axi_bvalid = false) (hstage2 : s.wr_stage2_valid_q = false)
    (hstage1 : s.wr_stage1_valid_q = true) :
    (step p s i).toWriteChannel = WriteChannel.decode { s.toWriteChannel with
      s_axi_awready := false, s_axi_wready := false
      wr_stage1_valid_q := false
      wr_stage2_valid_q := true
      wr_stage2_data_q := s.wr_stage1_data_q
      wr_stage2_strb_q := s.wr_stage1_strb_q
      wr_stage2_midstate_we_q := Vector.replicate 8 false
      wr_stage2_tail_we_q := Vector.replicate 4 false
      wr_stage2_target_we_q := Vector.replicate 8 false
      wr_stage2_control_we_q := false
      wr_stage2_nonce_start_we_q := false
      wr_stage2_nonce_count_we_q := false
      wr_stage2_result_status_we_q := false
      wr_stage2_irq_control_we_q := false
      wr_stage2_boot_version_we_q := false } s.wr_stage1_addr_q := by
  change s.write_next i = _
  simp [State.write_next, State.write_fire, State.write_apply, hresp, hstage2, hstage1]

/-- A free write channel takes a request as soon as address and data are there. -/
theorem write_accepts (hresp : s.s_axi_bvalid = false) (hstage2 : s.wr_stage2_valid_q = false)
    (hstage1 : s.wr_stage1_valid_q = false) (hvalid : (i.s_axi_awvalid && i.s_axi_wvalid) = true) :
    (step p s i).toWriteChannel = { s.toWriteChannel with
      s_axi_awready := true, s_axi_wready := true
      wr_stage1_valid_q := true
      wr_stage1_addr_q := word_addr i.s_axi_awaddr
      wr_stage1_data_q := i.s_axi_wdata
      wr_stage1_strb_q := i.s_axi_wstrb } := by
  change s.write_next i = _
  simp [State.write_next, State.write_fire, State.write_apply, hresp, hstage2, hstage1, hvalid]

theorem write_waits (hresp : s.s_axi_bvalid = false) (hstage2 : s.wr_stage2_valid_q = false)
    (hstage1 : s.wr_stage1_valid_q = false) (hvalid : (i.s_axi_awvalid && i.s_axi_wvalid) = false) :
    (step p s i).toWriteChannel = { s.toWriteChannel with s_axi_awready := false, s_axi_wready := false } := by
  change s.write_next i = _
  simp [State.write_next, State.write_fire, State.write_apply, hresp, hstage2, hstage1, hvalid]

/-- At most one of the two stages and the response holds a write. -/
def State.OneWrite (s : State p) : Prop :=
  s.s_axi_bvalid.toNat + s.wr_stage1_valid_q.toNat + s.wr_stage2_valid_q.toNat ≤ 1

theorem State.OneWrite.step (h : s.OneWrite) : (step p s i).OneWrite := by
  unfold State.OneWrite at *
  cases hresp : s.s_axi_bvalid with
  | true =>
    rw [write_responds hresp]
    simp only [hresp, Bool.toNat_true] at h ⊢
    have hle := Bool.toNat_le (!i.s_axi_bready)
    omega
  | false =>
    cases hstage2 : s.wr_stage2_valid_q with
    | true =>
      rw [write_applies hresp hstage2]
      simp only [hresp, hstage2, Bool.toNat_true, Bool.toNat_false] at h ⊢
      omega
    | false =>
      cases hstage1 : s.wr_stage1_valid_q with
      | true =>
        rw [write_decodes hresp hstage2 hstage1]
        simp [hresp]
      | false =>
        cases hvalid : (i.s_axi_awvalid && i.s_axi_wvalid) with
        | true =>
          rw [write_accepts hresp hstage2 hstage1 hvalid]
          simp [hresp, hstage2]
        | false =>
          rw [write_waits hresp hstage2 hstage1 hvalid]
          simp [hresp, hstage2, hstage1]

theorem reachable_one_write (h : Reachable (step p) IsReset s) : s.OneWrite := by
  refine Reachable.invariant ?_ ?_ h
  · intro s hreset
    rw [State.OneWrite, hreset.write]
    decide
  · intro s i hone
    exact hone.step

/-- Neither stage holds a write. -/
structure State.StagesEmpty (s : State p) : Prop where
  stage1 : s.wr_stage1_valid_q = false
  stage2 : s.wr_stage2_valid_q = false

theorem State.StagesEmpty.no_apply (h : s.StagesEmpty) : s.write_apply = false := by
  rw [State.write_apply, h.stage2, Bool.false_and]

theorem State.StagesEmpty.stage2_step (h : s.StagesEmpty) : (step p s i).wr_stage2_valid_q = false := by
  cases hresp : s.s_axi_bvalid with
  | true =>
    rw [write_responds hresp]
    exact h.stage2
  | false =>
    cases hvalid : (i.s_axi_awvalid && i.s_axi_wvalid) with
    | true =>
      rw [write_accepts hresp h.stage2 h.stage1 hvalid]
      exact h.stage2
    | false =>
      rw [write_waits hresp h.stage2 h.stage1 hvalid]
      exact h.stage2

/-- Without a request empty stages stay empty. -/
theorem State.StagesEmpty.step (h : s.StagesEmpty) (hquiet : s.s_axi_bvalid = true ∨ i.s_axi_awvalid = false) :
    (step p s i).StagesEmpty := by
  refine ⟨?_, h.stage2_step⟩
  cases hresp : s.s_axi_bvalid with
  | true =>
    rw [write_responds hresp]
    exact h.stage1
  | false =>
    rw [write_waits hresp h.stage2 h.stage1 (by simp [hquiet.resolve_left (by simp [hresp])])]
    exact h.stage1

theorem apply_empties (hone : s.OneWrite) (happly : s.write_apply = true) :
    (step p s i).StagesEmpty ∧ (step p s i).s_axi_bvalid = true := by
  simp only [State.write_apply, Bool.and_eq_true, Bool.not_eq_true'] at happly
  rw [State.OneWrite, happly.1, happly.2] at hone
  have hstage1 : s.wr_stage1_valid_q = false := by
    cases h : s.wr_stage1_valid_q with
    | true => simp [h] at hone
    | false => rfl
  constructor
  · constructor
    · rw [write_applies happly.2 happly.1]
      exact hstage1
    · rw [write_applies happly.2 happly.1]
  · rw [write_applies happly.2 happly.1]

/-- Two writes are applied at least four cycles apart. -/
theorem apply_spacing (hone : s.OneWrite) (happly : s.write_apply = true) {ins : Nat → Input p} {u : Nat} (hpos : 1 ≤ u)
    (hu : u ≤ 3) : (trace (step p) s ins u).write_apply = false := by
  obtain ⟨hempty, hresp⟩ := apply_empties (i := ins 0) hone happly
  have hempty2 : (trace (step p) s ins 2).StagesEmpty := hempty.step (i := ins 1) (.inl hresp)
  have hstage2 : (trace (step p) s ins 3).wr_stage2_valid_q = false := hempty2.stage2_step
  obtain rfl | rfl | rfl : u = 1 ∨ u = 2 ∨ u = 3 := by omega
  · exact hempty.no_apply
  · exact hempty2.no_apply
  · rw [State.write_apply, hstage2, Bool.false_and]

/-- Without requests nothing follows the write under way. -/
theorem no_request_empty (hone : s.OneWrite) (happly : s.write_apply = true) {ins : Nat → Input p} {u : Nat} (hpos : 1 ≤ u)
    (hquiet : ∀ v < u, (ins v).s_axi_awvalid = false) : (trace (step p) s ins u).StagesEmpty := by
  induction u, hpos using Nat.le_induction with
  | base => exact (apply_empties (i := ins 0) hone happly).1
  | succ u _ ih =>
    have hempty := ih fun v hv => hquiet v (by omega)
    exact hempty.step (.inr (hquiet u (Nat.lt_succ_self u)))

theorem no_request_no_apply (hone : s.OneWrite) (happly : s.write_apply = true) {ins : Nat → Input p} {u : Nat}
    (hpos : 1 ≤ u) (hquiet : ∀ v < u, (ins v).s_axi_awvalid = false) :
    (trace (step p) s ins u).write_apply = false := (no_request_empty hone happly hpos hquiet).no_apply

/-- A ready master has taken the response a cycle later. -/
theorem response_taken (hone : s.OneWrite) (happly : s.write_apply = true) {ins : Nat → Input p} {u : Nat} (hpast : 2 ≤ u)
    (hready : (ins 1).s_axi_bready = true) (hquiet : ∀ v < u, (ins v).s_axi_awvalid = false) :
    (trace (step p) s ins u).s_axi_bvalid = false := by
  induction u, hpast using Nat.le_induction with
  | base =>
    have hresp : (trace (step p) s ins 1).s_axi_bvalid = true := (apply_empties (i := ins 0) hone happly).2
    rw [trace_succ, write_responds hresp, hready]
    rfl
  | succ u hpast ih =>
    have hfree := ih fun v hv => hquiet v (by omega)
    have hempty : (trace (step p) s ins u).StagesEmpty :=
      no_request_empty hone happly (by omega) fun v hv => hquiet v (by omega)
    have hnone : ((ins u).s_axi_awvalid && (ins u).s_axi_wvalid) = false := by
      rw [hquiet u (Nat.lt_succ_self u), Bool.false_and]
    rw [trace_succ, write_waits hfree hempty.stage2 hempty.stage1 hnone]
    exact hfree

theorem decode_control (w : WriteChannel) : w.decode ADDR_CONTROL = { w with wr_stage2_control_we_q := true } := rfl

/-- A write to `CONTROL` that meets a free write channel is applied two cycles
later. -/
theorem control_write_lands (hempty : s.StagesEmpty) (hfree : s.s_axi_bvalid = false) {ins : Nat → Input p}
    (hvalid : ((ins 0).s_axi_awvalid && (ins 0).s_axi_wvalid) = true) (haddr : word_addr (ins 0).s_axi_awaddr = ADDR_CONTROL)
    (bit : Nat) : (trace (step p) s ins 2).control_write bit = (ins 0).s_axi_wdata.getLsbD bit := by
  have hfirst : (trace (step p) s ins 1).toWriteChannel = _ := write_accepts hfree hempty.stage2 hempty.stage1 hvalid
  have hsecond : (trace (step p) s ins 2).toWriteChannel = _ := write_decodes (s := trace (step p) s ins 1) (i := ins 1)
    (by rw [hfirst]; exact hfree) (by rw [hfirst]; exact hempty.stage2) (by rw [hfirst])
  rw [hfirst, haddr, decode_control] at hsecond
  rw [State.control_write, State.write_apply, hsecond]
  dsimp only
  rw [trace_zero, hfree, Bool.not_false, Bool.and_self, Bool.and_self, Bool.true_and]

end Write

end scu35.bitcoin_miner_axi
