import Scu35Miner.Rtl.MinerAxi.Completion
import Scu35Miner.Rtl.MinerAxi.RegisterFile

open fips180 clocked

namespace scu35.bitcoin_miner_axi

section Channel

variable {p : Params}

/-- The request that the master drives on the two write channels. -/
def Input.write (i : Input p) : BusWrite := ⟨word_addr i.s_axi_awaddr, i.s_axi_wdata, i.s_axi_wstrb⟩

/-- The handshakes of the write channels in a cycle. -/
def State.aw_taken (s : State p) (i : Input p) : Bool := i.s_axi_awvalid && s.s_axi_awready

def State.w_taken (s : State p) (i : Input p) : Bool := i.s_axi_wvalid && s.s_axi_wready

def State.b_taken (s : State p) (i : Input p) : Bool := s.s_axi_bvalid && i.s_axi_bready

/-- What happens to writes in a cycle. -/
def State.write_event (s : State p) (i : Input p) : Happening BusWrite where
  accepts := if s.aw_taken i && s.w_taken i then some i.write else none
  executes := s.write_apply
  answers := s.b_taken i

/-- The flags of the write channel. -/
structure State.WriteFlags (s : State p) (responds stage1 stage2 ready : Bool) : Prop where
  bvalid : s.s_axi_bvalid = responds
  stage1 : s.wr_stage1_valid_q = stage1
  stage2 : s.wr_stage2_valid_q = stage2
  awready : s.s_axi_awready = ready
  wready : s.s_axi_wready = ready

/-- The first stage holds the request that the master still drives. -/
structure State.WriteOffered (s : State p) (i : Input p) (q : BusWrite) : Prop where
  flags : s.WriteFlags false true false true
  awvalid : i.s_axi_awvalid = true
  wvalid : i.s_axi_wvalid = true
  driven : i.write = q
  addr : s.wr_stage1_addr_q = q.addr
  data : s.wr_stage1_data_q = q.data
  strb : s.wr_stage1_strb_q = q.strb
  aligned : q.addr.toNat % 4 = 0

/-- The second stage holds the decoded request. -/
structure State.WriteDecoded (s : State p) (q : BusWrite) : Prop where
  flags : s.WriteFlags false false true false
  data : s.wr_stage2_data_q = q.data
  strb : s.wr_stage2_strb_q = q.strb
  enable : ∀ a, s.enable a = decide (a.addr = q.addr)

/-- Where the write channel stands with a request. -/
def State.WriteStands (s : State p) (i : Input p) : Phase BusWrite → Prop
  | .idle => s.WriteFlags false false false false
  | .offered q => s.WriteOffered i q
  | .accepted q => s.WriteDecoded q
  | .served _ => s.WriteFlags true false false false

/-- A master that keeps its requests until they are taken. -/
structure StableWrites (s : State p) (ins : Nat → Input p) : Prop where
  address : ∀ t, (ins t).s_axi_awvalid = true → (trace (step p) s ins t).s_axi_awready = false →
    (ins (t + 1)).s_axi_awvalid = true ∧ (ins (t + 1)).s_axi_awaddr = (ins t).s_axi_awaddr
  data : ∀ t, (ins t).s_axi_wvalid = true → (trace (step p) s ins t).s_axi_wready = false →
    (ins (t + 1)).s_axi_wvalid = true ∧ (ins (t + 1)).s_axi_wdata = (ins t).s_axi_wdata ∧
      (ins (t + 1)).s_axi_wstrb = (ins t).s_axi_wstrb

variable {s : State p} {i : Input p}

theorem State.WriteFlags.event {responds stage1 stage2 : Bool} (h : s.WriteFlags responds stage1 stage2 false) :
    s.write_event i = ⟨none, stage2 && !responds, responds && i.s_axi_bready⟩ := by
  simp only [State.write_event, State.aw_taken, State.w_taken, State.b_taken, State.write_apply, h.awready, h.bvalid,
    h.stage2, Bool.and_false, Bool.false_and, Bool.false_eq_true, ↓reduceIte]

theorem State.WriteOffered.event {q : BusWrite} (h : s.WriteOffered i q) : s.write_event i = ⟨some q, false, false⟩ := by
  simp only [State.write_event, State.aw_taken, State.w_taken, State.b_taken, State.write_apply, h.flags.awready,
    h.flags.wready, h.flags.bvalid, h.flags.stage2, h.awvalid, h.wvalid, h.driven, Bool.and_self, Bool.false_and,
    ↓reduceIte]

/-- A free channel takes a request into its first stage. -/
theorem write_offer (next : Input p) (h : s.WriteFlags false false false false) (hvalid : i.s_axi_awvalid = true)
    (hdata : i.s_axi_wvalid = true) (hkept : next.s_axi_awvalid = true ∧ next.s_axi_awaddr = i.s_axi_awaddr)
    (hkept' : next.s_axi_wvalid = true ∧ next.s_axi_wdata = i.s_axi_wdata ∧ next.s_axi_wstrb = i.s_axi_wstrb) :
    (step p s i).WriteOffered next i.write := by
  have hnext : (step p s i).toWriteChannel = _ :=
    write_accepts h.bvalid h.stage2 h.stage1 (by rw [hvalid, hdata, Bool.and_self])
  refine ⟨⟨?_, ?_, ?_, ?_, ?_⟩, hkept.1, hkept'.1, ?_, ?_, ?_, ?_, word_addr_aligned _⟩
  · rw [hnext]
    exact h.bvalid
  · rw [hnext]
  · rw [hnext]
    exact h.stage2
  · rw [hnext]
  · rw [hnext]
  · rw [Input.write, hkept.2, hkept'.2.1, hkept'.2.2, Input.write]
  · rw [hnext, Input.write]
  · rw [hnext, Input.write]
  · rw [hnext, Input.write]

theorem write_wait (h : s.WriteFlags false false false false) (hvalid : (i.s_axi_awvalid && i.s_axi_wvalid) = false) :
    (step p s i).WriteFlags false false false false := by
  have hnext : (step p s i).toWriteChannel = _ := write_waits h.bvalid h.stage2 h.stage1 hvalid
  constructor
  · rw [hnext]
    exact h.bvalid
  · rw [hnext]
    exact h.stage1
  · rw [hnext]
    exact h.stage2
  · rw [hnext]
  · rw [hnext]

/-- The request is decoded in the cycle in which the master sees it taken. -/
theorem write_accept {q : BusWrite} (h : s.WriteOffered i q) : (step p s i).WriteDecoded q := by
  have hnext : (step p s i).toWriteChannel = _ := write_decodes h.flags.bvalid h.flags.stage2 h.flags.stage1
  refine ⟨⟨?_, ?_, ?_, ?_, ?_⟩, ?_, ?_, ?_⟩
  · rw [hnext, decode_bvalid]
    exact h.flags.bvalid
  · rw [hnext, decode_stage1_valid]
  · rw [hnext, decode_stage2_valid]
  · rw [hnext, (decode_seen _ _).1]
  · rw [hnext, (decode_seen _ _).2.1]
  · rw [hnext, decode_data]
    exact h.data
  · rw [hnext, decode_strb]
    exact h.strb
  · intro a
    rw [hnext, h.addr]
    refine decode_enable h.aligned ?_ a
    intro b
    cases b <;> simp [WriteChannel.enable]

/-- The decoded request is applied and answered. -/
theorem write_execute {q : BusWrite} (h : s.WriteDecoded q) : (step p s i).WriteFlags true false false false := by
  have hnext : (step p s i).toWriteChannel = _ := write_applies h.flags.bvalid h.flags.stage2
  constructor
  · rw [hnext]
  · rw [hnext]
    exact h.flags.stage1
  · rw [hnext]
  · rw [hnext]
  · rw [hnext]

theorem write_respond (h : s.WriteFlags true false false false) :
    (step p s i).WriteFlags (!i.s_axi_bready) false false false := by
  have hnext : (step p s i).toWriteChannel = _ := write_responds h.bvalid
  constructor
  · rw [hnext]
  · rw [hnext]
    exact h.stage1
  · rw [hnext]
    exact h.stage2
  · rw [hnext]
  · rw [hnext]

/-- The write channel has one request at a time in hand. -/
theorem writes_serial (hreset : IsReset s) {ins : Nat → Input p} (hmaster : StableWrites s ins) :
    Serial (fun t => (trace (step p) s ins t).write_event (ins t))
      (fun t => (trace (step p) s ins t).WriteStands (ins t)) where
  start := by
    change s.WriteFlags false false false false
    constructor <;> rw [hreset.write] <;> rfl
  move t phase hphase := by
    rw [trace_succ]
    generalize hnow : trace (step p) s ins t = now at hphase
    cases phase with
    | idle =>
      have hflags : now.WriteFlags false false false false := hphase
      rw [hflags.event]
      cases hvalid : (ins t).s_axi_awvalid && (ins t).s_axi_wvalid with
      | true =>
        rw [Bool.and_eq_true] at hvalid
        refine ⟨.offered (ins t).write, .offer _, write_offer _ hflags hvalid.1 hvalid.2 ?_ ?_⟩
        · exact hmaster.address t hvalid.1 (hnow ▸ hflags.awready)
        · exact hmaster.data t hvalid.2 (hnow ▸ hflags.wready)
      | false => exact ⟨.idle, .wait, write_wait hflags hvalid⟩
    | offered q =>
      have hoffered : now.WriteOffered (ins t) q := hphase
      rw [hoffered.event]
      exact ⟨.accepted q, .accept q, write_accept hoffered⟩
    | accepted q =>
      have hdecoded : now.WriteDecoded q := hphase
      rw [hdecoded.flags.event]
      exact ⟨.served q, .execute q, write_execute hdecoded⟩
    | served q =>
      have hflags : now.WriteFlags true false false false := hphase
      rw [hflags.event]
      have hnext := write_respond (i := ins t) hflags
      cases hready : (ins t).s_axi_bready with
      | true =>
        rw [hready] at hnext
        exact ⟨.idle, .answer q, hnext⟩
      | false =>
        rw [hready] at hnext
        exact ⟨.served q, .hold q, hnext⟩

theorem step_bresp (h : s.s_axi_bresp = 0) : (step p s i).s_axi_bresp = 0 := by
  change (s.write_next i).s_axi_bresp = 0
  simp only [State.write_next]
  split_ifs <;> simp [h, decode_seen]

end Channel

section Service

variable {p : Params} (s : State p) (ins : Nat → Input p) (t : Nat)

/-- The writes that the master saw taken before cycle `t`. -/
def writes_taken : List BusWrite := requests (fun u => (trace (step p) s ins u).write_event (ins u)) t

/-- How many writes were applied to the registers before cycle `t`. -/
def writes_applied : Nat := executed (fun u => (trace (step p) s ins u).write_event (ins u)) t

/-- How many responses to writes the master took before cycle `t`. -/
def writes_answered : Nat := answered (fun u => (trace (step p) s ins u).write_event (ins u)) t

/-- Byte `k` of the word `a`, if a write reaches it. -/
def byte_written (a : DataWord) (k : Fin 4) (w : BusWrite) : Option Byte :=
  if a.addr = w.addr ∧ w.strb.getLsbD k = true then some (byte_of w.data k) else none

/-- The writes that are taken are applied in order and each once, as into a file
of words, and each is answered once. -/
structure WritesServed : Prop where
  file : (trace (step p) s ins t).word =
    ((writes_taken s ins t).take (writes_applied s ins t)).foldl file_write s.word
  bytes : ∀ a k, byte_of ((trace (step p) s ins t).word a) k =
    (((writes_taken s ins t).take (writes_applied s ins t)).filterMap (byte_written a k)).getLast?.getD
      (byte_of (s.word a) k)
  applied_le : writes_applied s ins t ≤ (writes_taken s ins t).length
  responses : writes_applied s ins t = writes_answered s ins t + (trace (step p) s ins t).s_axi_bvalid.toNat
  one_at_a_time : (writes_taken s ins t).length ≤ writes_answered s ins t + 1
  together : (trace (step p) s ins t).aw_taken (ins t) = (trace (step p) s ins t).w_taken (ins t)
  prompt : (trace (step p) s ins t).aw_taken (ins t) = true →
    (trace (step p) s ins (t + 1)).write_apply = true ∧ (trace (step p) s ins (t + 2)).s_axi_bvalid = true
  taken_when_free : (writes_taken s ins t).length = writes_answered s ins t →
    (ins t).s_axi_awvalid = true → (ins t).s_axi_wvalid = true →
      (trace (step p) s ins t).aw_taken (ins t) = true ∨ (trace (step p) s ins (t + 1)).aw_taken (ins (t + 1)) = true
  response_kept : (trace (step p) s ins t).s_axi_bvalid = true → (ins t).s_axi_bready = false →
    (trace (step p) s ins (t + 1)).s_axi_bvalid = true
  okay : (trace (step p) s ins t).s_axi_bresp = 0

variable {s ins}

theorem file_step {q : BusWrite} (h : s.WriteDecoded q) (i : Input p) : (step p s i).word = file_write s.word q := by
  have happly : s.write_apply = true := by
    rw [State.write_apply, h.flags.bvalid, h.flags.stage2]
    rfl
  funext a
  rw [step_word, State.written, happly, Bool.true_and, h.enable, h.data, h.strb]
  simp only [decide_eq_true_eq, file_write]

theorem file_kept (h : s.write_apply = false) (i : Input p) : (step p s i).word = s.word := by
  funext a
  rw [step_word, State.written, h, Bool.false_and]
  rfl

theorem byte_file_write (a : DataWord) (k : Fin 4) (file : DataWord → Word) (w : BusWrite) :
    byte_of (file_write file w a) k = (byte_written a k w).getD (byte_of (file a) k) := by
  rw [file_write, byte_written]
  by_cases haddr : a.addr = w.addr
  · rw [if_pos haddr, byte_apply_wstrb]
    by_cases hstrb : w.strb.getLsbD k = true
    · rw [if_pos hstrb, if_pos ⟨haddr, hstrb⟩, Option.getD_some]
    · rw [if_neg hstrb, if_neg fun h => hstrb h.2, Option.getD_none]
  · rw [if_neg haddr, if_neg fun h => haddr h.1, Option.getD_none]

theorem bresp_okay (hreset : IsReset s) : (trace (step p) s ins t).s_axi_bresp = 0 := by
  induction t with
  | zero =>
    rw [trace_zero, hreset.write]
    rfl
  | succ t ih =>
    rw [trace_succ]
    exact step_bresp ih

theorem State.WriteFlags.aw_taken {responds stage1 stage2 : Bool} {i : Input p} (h : s.WriteFlags responds stage1 stage2 false) :
    s.aw_taken i = false := by rw [State.aw_taken, h.awready, Bool.and_false]

theorem State.WriteFlags.w_taken {responds stage1 stage2 : Bool} {i : Input p} (h : s.WriteFlags responds stage1 stage2 false) :
    s.w_taken i = false := by rw [State.w_taken, h.wready, Bool.and_false]

theorem State.WriteOffered.taken {i : Input p} {q : BusWrite} (h : s.WriteOffered i q) :
    s.aw_taken i = true ∧ s.w_taken i = true := by
  rw [State.aw_taken, State.w_taken, h.awvalid, h.wvalid, h.flags.awready, h.flags.wready]
  exact ⟨rfl, rfl⟩

/-- A response is presented while, and only while, an applied write is
unanswered. -/
theorem stands_responses {i : Input p} {phase : Phase BusWrite} {l : List BusWrite} {n m : Nat}
    (hphase : s.WriteStands i phase) (h : Balanced phase l n m) : n = m + s.s_axi_bvalid.toNat := by
  cases h with
  | idle =>
    have hflags : s.WriteFlags false false false false := hphase
    rw [hflags.bvalid]
    rfl
  | offered l q =>
    have hoffered : s.WriteOffered i q := hphase
    rw [hoffered.flags.bvalid]
    rfl
  | accepted l q =>
    have hdecoded : s.WriteDecoded q := hphase
    rw [hdecoded.flags.bvalid]
    rfl
  | served =>
    have hflags : s.WriteFlags true false false false := hphase
    rw [hflags.bvalid]
    rfl

theorem stands_together {i : Input p} {phase : Phase BusWrite} (hphase : s.WriteStands i phase) :
    s.aw_taken i = s.w_taken i := by
  cases phase with
  | idle => rw [State.WriteFlags.aw_taken hphase, State.WriteFlags.w_taken hphase]
  | offered q => rw [(State.WriteOffered.taken hphase).1, (State.WriteOffered.taken hphase).2]
  | accepted q => rw [State.WriteFlags.aw_taken hphase.flags, State.WriteFlags.w_taken hphase.flags]
  | served q => rw [State.WriteFlags.aw_taken hphase, State.WriteFlags.w_taken hphase]

theorem stands_taken {i : Input p} {phase : Phase BusWrite} (hphase : s.WriteStands i phase)
    (h : s.aw_taken i = true) : ∃ q, phase = .offered q := by
  cases phase with
  | idle =>
    rw [State.WriteFlags.aw_taken hphase] at h
    cases h
  | offered q => exact ⟨q, rfl⟩
  | accepted q =>
    rw [State.WriteFlags.aw_taken hphase.flags] at h
    cases h
  | served q =>
    rw [State.WriteFlags.aw_taken hphase] at h
    cases h

theorem stands_served {i : Input p} {phase : Phase BusWrite} (hphase : s.WriteStands i phase)
    (h : s.s_axi_bvalid = true) : s.WriteFlags true false false false := by
  cases phase with
  | idle =>
    have hflags : s.WriteFlags false false false false := hphase
    rw [hflags.bvalid] at h
    cases h
  | offered q =>
    have hoffered : s.WriteOffered i q := hphase
    rw [hoffered.flags.bvalid] at h
    cases h
  | accepted q =>
    have hdecoded : s.WriteDecoded q := hphase
    rw [hdecoded.flags.bvalid] at h
    cases h
  | served q => exact hphase

/-- The write side of the slave is an atomic file of words. -/
theorem writes_served (hreset : IsReset s) (hmaster : StableWrites s ins) : WritesServed s ins t := by
  have hserial := writes_serial hreset hmaster
  obtain ⟨phase, hphase, hbalanced⟩ := hserial.balanced t
  have hcounts := hbalanced.counts
  have hfile : (trace (step p) s ins t).word =
      ((writes_taken s ins t).take (writes_applied s ins t)).foldl file_write s.word :=
    hserial.store (fun u => (trace (step p) s ins u).word)
      (fun u q hq => file_step hq (ins u)) (fun u hu => file_kept hu (ins u)) t
  have hbytes (a : DataWord) (k : Fin 4) : byte_of ((trace (step p) s ins t).word a) k =
      (((writes_taken s ins t).take (writes_applied s ins t)).filterMap (byte_written a k)).getLast?.getD
        (byte_of (s.word a) k) := by
    rw [hfile]
    exact foldl_latest (fun file : DataWord → Word => byte_of (file a) k) (byte_file_write a k) _ _
  refine ⟨hfile, hbytes, hcounts.2.1, stands_responses hphase hbalanced, hcounts.2.2, stands_together hphase, ?_, ?_, ?_,
    bresp_okay t hreset⟩
  · intro htaken
    obtain ⟨q, rfl⟩ := stands_taken hphase htaken
    have hdecoded : (trace (step p) s ins (t + 1)).WriteDecoded q :=
      write_accept (s := trace (step p) s ins t) (i := ins t) hphase
    have hserved := write_execute (i := ins (t + 1)) hdecoded
    refine ⟨?_, hserved.bvalid⟩
    rw [State.write_apply, hdecoded.flags.bvalid, hdecoded.flags.stage2]
    rfl
  · intro hanswered haddress hdata
    change (requests _ t).length = answered _ t at hanswered
    generalize requests _ t = l, executed _ t = n, answered _ t = m at hbalanced hanswered
    cases hbalanced with
    | idle =>
      have hflags : (trace (step p) s ins t).WriteFlags false false false false := hphase
      have hoffered := write_offer (ins (t + 1)) hflags haddress hdata (hmaster.address t haddress hflags.awready)
        (hmaster.data t hdata hflags.wready)
      exact .inr hoffered.taken.1
    | offered l q => exact .inl (State.WriteOffered.taken hphase).1
    | accepted l q =>
      rw [List.length_append, List.length_singleton] at hanswered
      omega
    | served l q =>
      rw [List.length_append, List.length_singleton] at hanswered
      omega
  · intro hresponds hready
    have hnext := write_respond (i := ins t) (stands_served hphase hresponds)
    rw [hready] at hnext
    exact hnext.bvalid

end Service

/-- A write to `NONCE_START` and a read of it at the same time. -/
def one_access (t : Nat) : Input deployed :=
  if t < 2 then ⟨ADDR_NONCE_START, true, 5, 0xf, true, true, ADDR_NONCE_START, true, true⟩ else idle_bus t

theorem one_access_late {t : Nat} (h : 2 ≤ t) : one_access t = idle_bus t := if_neg (by omega)

theorem one_access_stable : StableWrites (reset_state deployed) one_access := by
  have hready : (trace (step deployed) (reset_state deployed) one_access 1).s_axi_awready = true ∧
      (trace (step deployed) (reset_state deployed) one_access 1).s_axi_wready = true := by decide
  constructor
  · intro t hvalid hnot
    obtain rfl | rfl | hlate : t = 0 ∨ t = 1 ∨ 2 ≤ t := by omega
    · exact ⟨rfl, rfl⟩
    · rw [hready.1] at hnot
      cases hnot
    · rw [one_access_late hlate] at hvalid
      cases hvalid
  · intro t hvalid hnot
    obtain rfl | rfl | hlate : t = 0 ∨ t = 1 ∨ 2 ≤ t := by omega
    · exact ⟨rfl, rfl, rfl⟩
    · rw [hready.2] at hnot
      cases hnot
    · rw [one_access_late hlate] at hvalid
      cases hvalid

theorem nonce_start_write_served : WritesServed (reset_state deployed) one_access 3 :=
  writes_served 3 (reset_state_isReset deployed) one_access_stable

end scu35.bitcoin_miner_axi
