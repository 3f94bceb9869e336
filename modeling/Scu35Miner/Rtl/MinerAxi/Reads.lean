import Scu35Miner.Rtl.MinerAxi.Writes

open fips180 clocked

namespace scu35.bitcoin_miner_axi

section Channel

variable {p : Params}

/-- The handshakes of the read channels in a cycle. -/
def State.ar_taken (s : State p) (i : Input p) : Bool := i.s_axi_arvalid && s.s_axi_arready

def State.r_taken (s : State p) (i : Input p) : Bool := s.s_axi_rvalid && i.s_axi_rready

/-- A read as the slave takes it: in which cycle, and of which address. -/
structure BusRead where
  cycle : Nat
  addr : BitVec 12
deriving DecidableEq, Repr

/-- What happens to reads in cycle `t`. -/
def State.read_event (s : State p) (i : Input p) (t : Nat) : Happening BusRead where
  accepts := if s.ar_taken i then some ⟨t, word_addr i.s_axi_araddr⟩ else none
  executes := s.rd_stage2_valid_q && !s.s_axi_rvalid
  answers := s.r_taken i

/-- The flags of the read channel. -/
structure State.ReadFlags (s : State p) (responds stage1 stage2 ready : Bool) : Prop where
  rvalid : s.s_axi_rvalid = responds
  stage1 : s.rd_stage1_valid_q = stage1
  stage2 : s.rd_stage2_valid_q = stage2
  arready : s.s_axi_arready = ready

/-- The first stage holds the address that the master still drives. -/
structure State.ReadOffered (s : State p) (i : Input p) (addr : BitVec 12) : Prop where
  flags : s.ReadFlags false true false true
  arvalid : i.s_axi_arvalid = true
  driven : word_addr i.s_axi_araddr = addr
  addr : s.rd_stage1_addr_q = addr

/-- The second stage holds the word that was read. -/
structure State.ReadSampled (s : State p) (value : Word) : Prop where
  flags : s.ReadFlags false false true false
  data : s.rd_stage2_data_q = value

/-- The word is presented. -/
structure State.ReadPresented (s : State p) (value : Word) : Prop where
  flags : s.ReadFlags true false false false
  data : s.s_axi_rdata = value

variable {s : State p} {i : Input p}

theorem read_wait (h : s.ReadFlags false false false false) (hvalid : i.s_axi_arvalid = false) :
    (step p s i).ReadFlags false false false false := by
  have hnext : (step p s i).toReadChannel = { s.toReadChannel with s_axi_arready := false } := by
    change s.read_next i = _
    simp [State.read_next, State.read_fire, h.rvalid, h.stage1, h.stage2, hvalid]
  constructor
  · rw [hnext]
    exact h.rvalid
  · rw [hnext]
    exact h.stage1
  · rw [hnext]
    exact h.stage2
  · rw [hnext]

/-- A free channel takes an address into its first stage. -/
theorem read_offer (next : Input p) (h : s.ReadFlags false false false false) (hvalid : i.s_axi_arvalid = true)
    (hkept : next.s_axi_arvalid = true ∧ next.s_axi_araddr = i.s_axi_araddr) :
    (step p s i).ReadOffered next (word_addr i.s_axi_araddr) := by
  have hnext : (step p s i).toReadChannel = { s.toReadChannel with
      s_axi_arready := true, rd_stage1_valid_q := true, rd_stage1_addr_q := word_addr i.s_axi_araddr } := by
    change s.read_next i = _
    simp [State.read_next, State.read_fire, h.rvalid, h.stage1, h.stage2, hvalid]
  refine ⟨⟨?_, ?_, ?_, ?_⟩, hkept.1, by rw [hkept.2], ?_⟩
  · rw [hnext]
    exact h.rvalid
  · rw [hnext]
  · rw [hnext]
    exact h.stage2
  · rw [hnext]
  · rw [hnext]

/-- The register is read in the cycle in which the master sees the address
taken. -/
theorem read_sample {addr : BitVec 12} (h : s.ReadOffered i addr) : (step p s i).ReadSampled (read_reg s addr) := by
  have hnext : (step p s i).toReadChannel = { s.toReadChannel with
      s_axi_arready := false, rd_stage1_valid_q := false, rd_stage2_valid_q := true
      rd_stage2_data_q := read_reg s s.rd_stage1_addr_q } := by
    change s.read_next i = _
    simp [State.read_next, State.read_fire, h.flags.rvalid, h.flags.stage1, h.flags.stage2]
  refine ⟨⟨?_, ?_, ?_, ?_⟩, ?_⟩
  · rw [hnext]
    exact h.flags.rvalid
  · rw [hnext]
  · rw [hnext]
  · rw [hnext]
  · rw [hnext, h.addr]

theorem read_present {value : Word} (h : s.ReadSampled value) : (step p s i).ReadPresented value := by
  have hnext : (step p s i).toReadChannel = { s.toReadChannel with
      s_axi_arready := false, s_axi_rdata := s.rd_stage2_data_q, s_axi_rresp := 0, s_axi_rvalid := true
      rd_stage2_valid_q := false } := by
    change s.read_next i = _
    simp [State.read_next, State.read_fire, h.flags.rvalid, h.flags.stage1, h.flags.stage2]
  refine ⟨⟨?_, ?_, ?_, ?_⟩, ?_⟩
  · rw [hnext]
  · rw [hnext]
    exact h.flags.stage1
  · rw [hnext]
  · rw [hnext]
  · rw [hnext]
    exact h.data

theorem read_respond {value : Word} (h : s.ReadPresented value) :
    (step p s i).ReadFlags (!i.s_axi_rready) false false false ∧ (step p s i).s_axi_rdata = value := by
  have hnext : (step p s i).toReadChannel = { s.toReadChannel with
      s_axi_arready := false, s_axi_rvalid := !i.s_axi_rready } := by
    change s.read_next i = _
    cases hready : i.s_axi_rready <;>
      simp [State.read_next, State.read_fire, h.flags.rvalid, h.flags.stage1, h.flags.stage2, hready]
  refine ⟨⟨?_, ?_, ?_, ?_⟩, ?_⟩
  · rw [hnext]
  · rw [hnext]
    exact h.flags.stage1
  · rw [hnext]
    exact h.flags.stage2
  · rw [hnext]
  · rw [hnext]
    exact h.data

theorem reset_reads (hreset : IsReset s) : s.ReadFlags false false false false := by
  constructor <;> rw [hreset.read] <;> rfl

/-- A free channel stays free while no address is driven. -/
theorem reads_rest {ins : Nat → Input p} {a b : Nat} (h : (trace (step p) s ins a).ReadFlags false false false false)
    (hle : a ≤ b) (hquiet : ∀ u, a ≤ u → u < b → (ins u).s_axi_arvalid = false) :
    (trace (step p) s ins b).ReadFlags false false false false := by
  induction b, hle using Nat.le_induction with
  | base => exact h
  | succ b hle ih => exact read_wait (ih fun u hu hlt => hquiet u hu (by omega)) (hquiet b hle (Nat.lt_succ_self b))

/-- A free channel takes the address in the next cycle, and is free again in the
fourth. -/
theorem read_passes {ins : Nat → Input p} {a : Nat} (h : (trace (step p) s ins a).ReadFlags false false false false)
    (hvalid : (ins a).s_axi_arvalid = true)
    (hkept : (ins (a + 1)).s_axi_arvalid = true ∧ (ins (a + 1)).s_axi_araddr = (ins a).s_axi_araddr)
    (hready : (ins (a + 3)).s_axi_rready = true) :
    (trace (step p) s ins (a + 1)).s_axi_arready = true ∧
      (trace (step p) s ins (a + 4)).ReadFlags false false false false := by
  have hoffered : (trace (step p) s ins (a + 1)).ReadOffered (ins (a + 1)) _ := read_offer _ h hvalid hkept
  have hsampled : (trace (step p) s ins (a + 2)).ReadSampled _ := read_sample hoffered
  have hpresented : (trace (step p) s ins (a + 3)).ReadPresented _ := read_present hsampled
  have hfree : (trace (step p) s ins (a + 4)).ReadFlags _ false false false := (read_respond hpresented).1
  rw [hready] at hfree
  exact ⟨hoffered.flags.arready, hfree⟩

theorem step_rresp (h : s.s_axi_rresp = 0) : (step p s i).s_axi_rresp = 0 := by
  change (s.read_next i).s_axi_rresp = 0
  simp only [State.read_next]
  split_ifs <;> simp [h]

theorem State.ReadFlags.event {responds stage1 stage2 : Bool} {t : Nat} (h : s.ReadFlags responds stage1 stage2 false) :
    s.read_event i t = ⟨none, stage2 && !responds, responds && i.s_axi_rready⟩ := by
  simp only [State.read_event, State.ar_taken, State.r_taken, h.arready, h.rvalid, h.stage2, Bool.and_false,
    Bool.false_eq_true, ↓reduceIte]

theorem State.ReadOffered.event {addr : BitVec 12} {t : Nat} (h : s.ReadOffered i addr) :
    s.read_event i t = ⟨some ⟨t, addr⟩, false, false⟩ := by
  simp only [State.read_event, State.ar_taken, State.r_taken, h.flags.arready, h.flags.rvalid, h.flags.stage2, h.arvalid,
    h.driven, Bool.and_self, Bool.false_and, ↓reduceIte]

theorem State.ReadFlags.ar_taken {responds stage1 stage2 : Bool} (h : s.ReadFlags responds stage1 stage2 false) :
    s.ar_taken i = false := by rw [State.ar_taken, h.arready, Bool.and_false]

theorem State.ReadOffered.taken {addr : BitVec 12} (h : s.ReadOffered i addr) : s.ar_taken i = true := by
  rw [State.ar_taken, h.arvalid, h.flags.arready]
  rfl

end Channel

section Service

variable {p : Params} (s : State p) (ins : Nat → Input p) (t : Nat)

/-- A master that keeps its address until it is taken. -/
structure StableReads : Prop where
  address : ∀ t, (ins t).s_axi_arvalid = true → (trace (step p) s ins t).s_axi_arready = false →
    (ins (t + 1)).s_axi_arvalid = true ∧ (ins (t + 1)).s_axi_araddr = (ins t).s_axi_araddr

/-- The value of a register in the cycle in which its address is taken. -/
def BusRead.value (q : BusRead) : Word := read_reg (trace (step p) s ins q.cycle) q.addr

/-- Where the read channel stands with a read in cycle `t`. -/
def ReadStands : Phase BusRead → Prop
  | .idle => (trace (step p) s ins t).ReadFlags false false false false
  | .offered q => q.cycle = t ∧ (trace (step p) s ins t).ReadOffered (ins t) q.addr
  | .accepted q => (trace (step p) s ins t).ReadSampled (q.value s ins)
  | .served q => (trace (step p) s ins t).ReadPresented (q.value s ins)

/-- The reads that the master saw taken before cycle `t`. -/
def reads_taken : List BusRead := requests (fun u => (trace (step p) s ins u).read_event (ins u) u) t

/-- How many words the master took before cycle `t`. -/
def reads_answered : Nat := answered (fun u => (trace (step p) s ins u).read_event (ins u) u) t

/-- The words that the master took before cycle `t`. -/
def words_returned : List Word := (List.range t).filterMap fun u =>
  if (trace (step p) s ins u).r_taken (ins u) then some (trace (step p) s ins u).s_axi_rdata else none

/-- The reads that are taken are answered in order and each once, with the value
of the register in the cycle in which the address was taken. -/
structure ReadsServed : Prop where
  returned : words_returned s ins t = ((reads_taken s ins t).take (reads_answered s ins t)).map (BusRead.value s ins)
  answered_le : reads_answered s ins t ≤ (reads_taken s ins t).length
  one_at_a_time : (reads_taken s ins t).length ≤ reads_answered s ins t + 1
  requested : (trace (step p) s ins t).s_axi_rvalid = true →
    (reads_taken s ins t).length = reads_answered s ins t + 1 ∧
      (reads_taken s ins t).getLast?.map (BusRead.value s ins) = some (trace (step p) s ins t).s_axi_rdata
  prompt : (trace (step p) s ins t).ar_taken (ins t) = true → (trace (step p) s ins (t + 2)).s_axi_rvalid = true
  taken_when_free : (reads_taken s ins t).length = reads_answered s ins t → (ins t).s_axi_arvalid = true →
    (trace (step p) s ins t).ar_taken (ins t) = true ∨ (trace (step p) s ins (t + 1)).ar_taken (ins (t + 1)) = true
  response_kept : (trace (step p) s ins t).s_axi_rvalid = true → (ins t).s_axi_rready = false →
    (trace (step p) s ins (t + 1)).s_axi_rvalid = true ∧
      (trace (step p) s ins (t + 1)).s_axi_rdata = (trace (step p) s ins t).s_axi_rdata
  okay : (trace (step p) s ins t).s_axi_rresp = 0

variable {s ins}

/-- The read channel has one read at a time in hand. -/
theorem reads_serial (hreset : IsReset s) (hmaster : StableReads s ins) :
    Serial (fun u => (trace (step p) s ins u).read_event (ins u) u) (ReadStands s ins) where
  start := reset_reads hreset
  move t phase hphase := by
    cases phase with
    | idle =>
      have hflags : (trace (step p) s ins t).ReadFlags false false false false := hphase
      rw [hflags.event]
      cases hvalid : (ins t).s_axi_arvalid with
      | true =>
        refine ⟨.offered ⟨t + 1, word_addr (ins t).s_axi_araddr⟩, .offer _, rfl, ?_⟩
        exact read_offer _ hflags hvalid (hmaster.address t hvalid hflags.arready)
      | false => exact ⟨.idle, .wait, read_wait hflags hvalid⟩
    | offered q =>
      obtain ⟨hcycle, hoffered⟩ := hphase
      rw [hoffered.event]
      refine ⟨.accepted q, ?_, ?_⟩
      · rw [← hcycle]
        exact .accept q
      · have hnext := read_sample hoffered
        rw [← hcycle] at hnext ⊢
        exact hnext
    | accepted q =>
      have hsampled : (trace (step p) s ins t).ReadSampled (q.value s ins) := hphase
      rw [hsampled.flags.event]
      exact ⟨.served q, .execute q, read_present hsampled⟩
    | served q =>
      have hpresented : (trace (step p) s ins t).ReadPresented (q.value s ins) := hphase
      rw [hpresented.flags.event]
      obtain ⟨hnext, hdata⟩ := read_respond (i := ins t) hpresented
      cases hready : (ins t).s_axi_rready with
      | true =>
        rw [hready] at hnext
        exact ⟨.idle, .answer q, hnext⟩
      | false =>
        rw [hready] at hnext
        exact ⟨.served q, .hold q, hnext, hdata⟩

theorem rresp_okay (hreset : IsReset s) : (trace (step p) s ins t).s_axi_rresp = 0 := by
  induction t with
  | zero =>
    rw [trace_zero, hreset.read]
    rfl
  | succ t ih =>
    rw [trace_succ]
    exact step_rresp ih

theorem read_stands_presented {phase : Phase BusRead} (hphase : ReadStands s ins t phase)
    (h : (trace (step p) s ins t).s_axi_rvalid = true) :
    ∃ q, phase = .served q ∧ (trace (step p) s ins t).ReadPresented (q.value s ins) := by
  cases phase with
  | idle =>
    have hflags : (trace (step p) s ins t).ReadFlags false false false false := hphase
    rw [hflags.rvalid] at h
    cases h
  | offered q =>
    rw [hphase.2.flags.rvalid] at h
    cases h
  | accepted q =>
    have hsampled : (trace (step p) s ins t).ReadSampled (q.value s ins) := hphase
    rw [hsampled.flags.rvalid] at h
    cases h
  | served q => exact ⟨q, rfl, hphase⟩

theorem read_stands_taken {phase : Phase BusRead} (hphase : ReadStands s ins t phase)
    (h : (trace (step p) s ins t).ar_taken (ins t) = true) : ∃ q, phase = .offered q := by
  cases phase with
  | idle =>
    rw [State.ReadFlags.ar_taken hphase] at h
    cases h
  | offered q => exact ⟨q, rfl⟩
  | accepted q =>
    rw [State.ReadFlags.ar_taken hphase.flags] at h
    cases h
  | served q =>
    rw [State.ReadFlags.ar_taken hphase.flags] at h
    cases h

/-- The read side of the slave returns each register as it is when its address is
taken. -/
theorem reads_served (hreset : IsReset s) (hmaster : StableReads s ins) : ReadsServed s ins t := by
  have hserial := reads_serial hreset hmaster
  obtain ⟨phase, hphase, hbalanced⟩ := hserial.balanced t
  have hcounts := hbalanced.counts
  have hreturned : words_returned s ins t =
      ((reads_taken s ins t).take (reads_answered s ins t)).map (BusRead.value s ins) :=
    hserial.responses (fun u => (trace (step p) s ins u).s_axi_rdata) (fun u q hq => State.ReadPresented.data hq) t
  refine ⟨hreturned, hcounts.1.trans hcounts.2.1, hcounts.2.2, ?_, ?_, ?_, ?_, rresp_okay t hreset⟩
  · intro hresponds
    obtain ⟨q, rfl, hpresented⟩ := read_stands_presented t hphase hresponds
    change (requests _ t).length = answered _ t + 1 ∧ (requests _ t).getLast?.map _ = _
    generalize requests _ t = l, executed _ t = n, answered _ t = m at hbalanced
    cases hbalanced with
    | served l =>
      rw [List.length_append, List.getLast?_append, hpresented.data]
      exact ⟨rfl, rfl⟩
  · intro htaken
    obtain ⟨q, rfl⟩ := read_stands_taken t hphase htaken
    exact (read_present (i := ins (t + 1)) (read_sample (i := ins t) hphase.2)).flags.rvalid
  · intro hanswered hvalid
    change (requests _ t).length = answered _ t at hanswered
    generalize requests _ t = l, executed _ t = n, answered _ t = m at hbalanced hanswered
    cases hbalanced with
    | idle =>
      have hflags : (trace (step p) s ins t).ReadFlags false false false false := hphase
      exact .inr (read_offer (ins (t + 1)) hflags hvalid (hmaster.address t hvalid hflags.arready)).taken
    | offered l q => exact .inl hphase.2.taken
    | accepted l q =>
      rw [List.length_append, List.length_singleton] at hanswered
      omega
    | served l q =>
      rw [List.length_append, List.length_singleton] at hanswered
      omega
  · intro hresponds hready
    obtain ⟨q, rfl, hpresented⟩ := read_stands_presented t hphase hresponds
    obtain ⟨hnext, hdata⟩ := read_respond (i := ins t) hpresented
    rw [hready] at hnext
    exact ⟨hnext.rvalid, hdata.trans hpresented.data.symm⟩

theorem reads_taken_cycle {q : BusRead} (hq : q ∈ reads_taken s ins t) : q.cycle < t := by
  obtain ⟨u, hu, haccepts⟩ := List.mem_filterMap.mp hq
  rw [List.mem_range] at hu
  simp only [State.read_event] at haccepts
  split at haccepts
  · cases haccepts
    exact hu
  · cases haccepts

/-- Reads of data words return what the writes applied before their addresses
were taken have left, and these are at least the answered ones. -/
theorem reads_see_writes (hreset : IsReset s) (hwrites : StableWrites s ins) (hreads : StableReads s ins) :
    ReadsServed s ins t ∧ ∀ q ∈ reads_taken s ins t, q.cycle < t ∧
      writes_answered s ins q.cycle ≤ writes_applied s ins q.cycle ∧
      ∀ a : DataWord, q.addr = a.addr → q.value s ins =
        ((writes_taken s ins q.cycle).take (writes_applied s ins q.cycle)).foldl file_write s.word a := by
  refine ⟨reads_served t hreset hreads, fun q hq => ⟨reads_taken_cycle t hq, ?_, fun a haddr => ?_⟩⟩
  · have hresponses := (writes_served q.cycle hreset hwrites).responses
    omega
  · rw [← (writes_served q.cycle hreset hwrites).file, BusRead.value, haddr, read_reg_word]

end Service

theorem one_access_reads : StableReads (reset_state deployed) one_access := by
  have hready : (trace (step deployed) (reset_state deployed) one_access 1).s_axi_arready = true := by decide
  constructor
  intro t hvalid hnot
  obtain rfl | rfl | hlate : t = 0 ∨ t = 1 ∨ 2 ≤ t := by omega
  · exact ⟨rfl, rfl⟩
  · rw [hready] at hnot
    cases hnot
  · rw [one_access_late hlate] at hvalid
    cases hvalid

theorem nonce_start_read_served : ReadsServed (reset_state deployed) one_access 5 :=
  (reads_see_writes 5 (reset_state_isReset deployed) one_access_stable one_access_reads).1

end scu35.bitcoin_miner_axi
