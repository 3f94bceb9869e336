import Scu35Miner.Software.Eeprom.Fetching

open fips180 storage transition

namespace scu35.eeprom

theorem Bus.abort_rx (b : Bus) (flag : Word) (stop : Bool) : (b.abort flag stop).rx = b.rx := by
  unfold Bus.abort
  split <;> rfl

theorem Bus.complete_rx (b : Bus) (x : TxWord) : (b.complete x).rx = b.rx := by
  unfold Bus.complete
  split
  · exact b.abort_rx 2 false
  · rfl

/-- The processor alone empties the receive FIFO. -/
theorem Bus.step_rx (b : Bus) (e : Event) (h : b.rx ≠ []) : (b.step e).rx ≠ [] := by
  cases e with
  | shift =>
    unfold Bus.step Bus.shift
    dsimp only
    split
    · rwa [b.complete_rx]
    · split
      · split
        · exact List.append_ne_nil_of_right_ne_nil _ (List.cons_ne_nil _ _)
        · exact h
      · split
        · exact h
        · split <;> exact h
  | settle | hold held => exact h
  | arbitration_lost stop | no_acknowledge stop =>
    unfold Bus.step
    dsimp only
    rwa [b.abort_rx]

/-- A read of which the processor has sent `words` and taken `popped`. -/
structure ReadStage (prompt : Prop) (before : M24C64) (address : BitVec 16) (n w : Nat) (words : List TxWord)
    (popped : List Byte) (m : Machine) : Prop where
  fetching : Fetching before address n w words popped m.bus
  calm : Allows m.plan Event.Calm
  prompt : prompt → Prompt m.plan

section stage

variable {prompt : Prop} {before : M24C64} {address : BitVec 16} {n w : Nat} {words : List TxWord} {popped : List Byte}
  {m : Machine}

theorem ReadStage.tick (hidle : before.phase = .idle) (haddress : address.toNat + n ≤ 8192) (hn : 0 < n)
    (hmax : n ≤ 16) (hwithin : words <+: read_words address n)
    (h : ReadStage prompt before address n w words popped m) :
    ReadStage prompt before address n w words popped m.tick :=
  ⟨Machine.tick_keeps (Fetching.step hidle haddress hn hmax hwithin) h.calm h.fetching, h.calm.tick,
    fun hp => (h.prompt hp).tick⟩

theorem ReadStage.wr_word (hidle : before.phase = .idle) (haddress : address.toNat + n ≤ 8192) (hn : 0 < n)
    (hmax : n ≤ 16) (h : ReadStage prompt before address n w words popped m) {x : TxWord}
    (hwithin : words ++ [x] <+: read_words address n) {v : Word} (hv : TxWord.of v = x) :
    ReadStage prompt before address n (w + 2) (words ++ [x]) popped (wr m 0x108 v) := by
  have htick := h.tick hidle haddress hn hmax ((List.prefix_append _ _).trans hwithin)
  have hbus : (wr m 0x108 v).bus = m.tick.bus.push x := by rw [wr, Bus.write_tx, hv]
  refine ⟨?_, htick.calm, htick.prompt⟩
  rw [hbus]
  exact htick.fetching.push hwithin

theorem ReadStage.wait_status (hidle : before.phase = .idle) (haddress : address.toNat + n ≤ 8192) (hn : 0 < n)
    (hmax : n ≤ 16) (h : ReadStage prompt before address n w (read_words address n) popped m) (mask expected : Word) :
    ReadStage prompt before address n w (read_words address n) popped (wait_status m mask expected).2 ∧
      ((wait_status m mask expected).1 = 0 ∧ (wait_status m mask expected).2.bus.status &&& mask = expected ∨
        (wait_status m mask expected).1 = -1) := by
  obtain ⟨hfetching, hallows, hresult⟩ := wait_status_keeps
    (Fetching.step hidle haddress hn hmax (List.prefix_refl _)) mask expected h.calm h.fetching
  exact ⟨⟨hfetching, hallows, fun hp => wait_status_prompt mask expected (h.prompt hp)⟩, hresult⟩

theorem ReadStage.wait_returns (hidle : before.phase = .idle) (haddress : address.toNat + n ≤ 8192) (hn : 0 < n)
    (hmax : n ≤ 16) (h : ReadStage prompt before address n w (read_words address n) popped m) (hw : w ≤ 64)
    (hp : prompt) {mask expected : Word}
    (hdone : ∀ b, Fetching before address n 0 (read_words address n) popped b → b.status &&& mask = expected) :
    (eeprom.wait_status m mask expected).1 = 0 := by
  apply wait_status_returns (P := fun w b => Fetching before address n w (read_words address n) popped b) _ _ hdone
    (h.prompt hp) hw h.fetching
  · exact fun w b hb => hb.settle
  · intro w b hb
    obtain ⟨w', hshift, -, hless⟩ := hb.shift hidle haddress hn hmax (List.prefix_refl _)
    exact hshift.mono (hless rfl)

/-- Once the work is done all bytes have come back. -/
theorem Fetching.all_received (hn : 0 < n) {b : Bus}
    (h : Fetching before address n 0 (read_words address n) popped b) :
    b.chip = received before address.toNat n n ∧ b.queue = [] ∧ popped ++ b.rx = stored before.cells address.toNat n := by
  cases h.progress with
  | addressing sent hsplit hpart hchip hrx hpopped hwork => omega
  | receiving k hbound hwords hqueue hchip hbytes hwork =>
    obtain rfl : k = n := by omega
    exact ⟨hchip, hqueue, hbytes⟩

/-- The next byte that the processor takes is the next one stored. -/
theorem ReadStage.rd_byte (hidle : before.phase = .idle) (haddress : address.toNat + n ≤ 8192) (hn : 0 < n)
    (hmax : n ≤ 16) (h : ReadStage prompt before address n w (read_words address n) popped m) (hrx : m.bus.rx ≠ []) :
    (rd m 0x10c).1.setWidth 8 = before.cells (address.toNat + popped.length) ∧
      ReadStage prompt before address n w (read_words address n)
        (popped ++ [before.cells (address.toNat + popped.length)]) (rd m 0x10c).2 := by
  have htick := h.tick hidle haddress hn hmax (List.prefix_refl _)
  have hsome : m.tick.bus.rx ≠ [] :=
    Machine.tick_keeps (P := fun b => b.rx ≠ []) (fun b e _ => b.step_rx e) (allows_any m.plan) hrx
  obtain ⟨byte, rest, hbyte⟩ := List.exists_cons_of_ne_nil hsome
  obtain ⟨hprogress, hquiet, henabled, hpirq, hawake, hfree⟩ := htick.fetching
  cases hprogress with
  | addressing sent hsplit hpart hchip hnone hpopped hwork => exact absurd hnone hsome
  | receiving k hbound hwords hqueue hchip hbytes hwork =>
    rw [hbyte] at hbytes
    have hlength := congrArg List.length hbytes
    rw [List.length_append, List.length_cons, stored, length_bytes] at hlength
    have hvalue : byte = before.cells (address.toNat + popped.length) := by
      have hget := congrArg (fun l => l[popped.length]?) hbytes
      rw [List.getElem?_append_right (Nat.le_refl _), Nat.sub_self, List.getElem?_cons_zero, stored, bytes,
        List.getElem?_map, List.getElem?_range (by omega)] at hget
      exact Option.some.inj hget
    have hread : rd m 0x10c = (byte.setWidth 32, { m.tick with bus := { m.tick.bus with rx := rest } }) := by
      rw [rd, Bus.read_rx, hbyte]
      rfl
    rw [hread, ← hvalue]
    refine ⟨?_, ⟨⟨.receiving k hbound hwords hqueue hchip ?_ hwork, hquiet, henabled, hpirq, hawake, hfree⟩,
      htick.calm, htick.prompt⟩⟩
    · exact BitVec.setWidth_setWidth_of_le byte (by decide)
    · rw [List.append_assoc]
      exact hbytes

/-- `read_bytes` takes the rest of the bytes in order. -/
theorem read_bytes_spec (hidle : before.phase = .idle) (haddress : address.toNat + n ≤ 8192) (hn : 0 < n)
    (hmax : n ≤ 16) (hw : w ≤ 64) (left : Nat) {popped : List Byte} {m : Machine}
    (h : ReadStage prompt before address n w (read_words address n) popped m) (hleft : popped.length + left = n)
    (p : Nat) (buffer : Cells Byte) :
    (read_bytes left m p buffer).1 = 0 ∧
        (∃ popped, popped.length = n ∧
          ReadStage prompt before address n w (read_words address n) popped (read_bytes left m p buffer).2.1) ∧
        (read_bytes left m p buffer).2.2 =
          copy buffer p (fun i => before.cells (address.toNat + popped.length + i)) left ∨
      (read_bytes left m p buffer).1 = -1 ∧ ¬prompt := by
  induction left generalizing popped m p buffer with
  | zero =>
    refine .inl ⟨rfl, ⟨popped, hleft, h⟩, ?_⟩
    rw [copy_zero]
    rfl
  | succ left ih =>
    obtain ⟨hwait, hresult⟩ := h.wait_status hidle haddress hn hmax 0x40 0
    rw [read_bytes]
    split
    next hfail =>
      refine .inr ⟨rfl, fun hp => hfail ?_⟩
      apply h.wait_returns hidle haddress hn hmax hw hp
      intro b hb
      obtain ⟨-, -, hbytes⟩ := hb.all_received hn
      rw [status_received]
      intro hnone
      have hlength := congrArg List.length hbytes
      rw [hnone, List.append_nil, stored, length_bytes] at hlength
      omega
    next hok =>
      obtain ⟨-, hseen⟩ | hbad := hresult
      swap
      · rw [hbad] at hok
        exact absurd (by decide) hok
      obtain ⟨hbyte, hnext⟩ := hwait.rd_byte hidle haddress hn hmax ((status_received _).mp hseen)
      have hcount : (popped ++ [before.cells (address.toNat + popped.length)]).length + left = n := by
        rw [List.length_append, List.length_singleton]
        omega
      dsimp only
      rw [hbyte]
      obtain ⟨hok, hstage, hbuffer⟩ | hfail := ih hnext hcount (p + 1)
        (Function.update buffer p (before.cells (address.toNat + popped.length)))
      · refine .inl ⟨hok, hstage, ?_⟩
        have hsource : (fun i => before.cells (address.toNat + (popped.length + 1) + i)) =
            fun i => before.cells (address.toNat + popped.length + (1 + i)) := by
          funext i
          congr 1
          omega
        have hfirst := update_eq_copy buffer p (fun i => before.cells (address.toNat + popped.length + i))
        rw [Nat.add_zero] at hfirst
        rw [hbuffer, List.length_append, List.length_singleton, hsource, hfirst, copy_append, Nat.add_comm left 1]
      · exact .inr hfail

theorem of_count {n : Nat} (hmax : n ≤ 16) : TxWord.of (0x200 ||| BitVec.ofNat 32 n) = ⟨false, true, BitVec.ofNat 8 n⟩ := by
  have hall : ∀ k : Fin 17, TxWord.of (0x200 ||| BitVec.ofNat 32 k) = ⟨false, true, BitVec.ofNat 8 k⟩ := by decide
  exact hall ⟨n, Nat.lt_succ_of_le hmax⟩

theorem idle_of_received {b : Bus} (hchip : b.chip = received before address.toNat n n) (hqueue : b.queue = []) :
    b.Idle := by
  obtain ⟨hshifting, htx⟩ := List.append_eq_nil_iff.mp hqueue
  refine ⟨by rw [hchip, received, if_pos rfl], htx, ?_⟩
  cases hword : b.shifting with
  | none => rfl
  | some x =>
    rw [hword] at hshifting
    cases hshifting

/-- When the bus is free again, the read is over. -/
theorem Fetching.ended (hn : 0 < n) {b : Bus} (h : Fetching before address n w (read_words address n) popped b)
    (hlength : popped.length = n) (hfree : b.bus_busy = false) :
    b.Idle ∧ b.chip = received before address.toNat n n := by
  cases h.progress with
  | addressing sent hsplit hpart hchip hrx hpopped hwork =>
    rw [hpopped, List.length_nil] at hlength
    omega
  | receiving k hbound hwords hqueue hchip hbytes hwork =>
    obtain rfl | hmore := Nat.eq_or_lt_of_le hbound
    · exact ⟨idle_of_received hchip hqueue, hchip⟩
    · have hphase : b.chip.phase ≠ .idle := by
        rw [hchip, received, if_neg hmore.ne]
        exact Phase.noConfusion
      simp only [Bus.bus_busy, Bool.or_eq_false_iff, bne_eq_false_iff_eq] at hfree
      exact absurd hfree.1.2 hphase

/-- The words of a read over a fresh controller. -/
theorem read_stage_start (hidle : before.phase = .idle) (haddress : address.toNat + n ≤ 8192) (hn : 0 < n)
    (hmax : n ≤ 16) (h : Resting True True prompt (primed before) m) :
    ReadStage prompt before address n (n + 10) (read_words address n) []
      (wr (wr (wr (wr (wr m 0x108 0x1a0) 0x108 ((address >>> 8).setWidth 32)) 0x108 ((address &&& 255).setWidth 32))
        0x108 0x1a1) 0x108 (0x200 ||| BitVec.ofNat 32 n)) := by
  obtain ⟨hcalm, hheld⟩ := h.calm trivial
  have hbus : m.bus = primed before := by
    rw [Bus.eq_of_core h.core, h.awake trivial, hheld]
    rfl
  have hnone : ReadStage prompt before address n n [] [] m := by
    refine ⟨?_, hcalm, h.prompt⟩
    rw [hbus]
    refine ⟨.addressing [] rfl ?_ rfl rfl rfl ?_, BitVec.zero_and, rfl, rfl, rfl, rfl⟩
    · exact fun hempty => List.cons_ne_nil _ _ hempty.symm
    · exact (Nat.zero_add n).le
  have hone := hnone.wr_word hidle haddress hn hmax (x := ⟨true, false, 0xa0⟩) (v := 0x1a0) ⟨_, rfl⟩ (by decide)
  have htwo := hone.wr_word hidle haddress hn hmax ⟨_, rfl⟩ (of_high address)
  have hthree := htwo.wr_word hidle haddress hn hmax ⟨_, rfl⟩ (of_low address)
  have hfour := hthree.wr_word hidle haddress hn hmax (x := ⟨true, false, 0xa1⟩) (v := 0x1a1) ⟨_, rfl⟩ (by decide)
  exact hfour.wr_word hidle haddress hn hmax ⟨[], rfl⟩ (of_count hmax)

/-- One read without bus errors. -/
theorem read_chunk_spec {core : Bus} (h : Resting True True prompt core m) (hidle : core.Idle)
    (haddress : address.toNat + n ≤ 8192) (hn : 0 < n) (hmax : n ≤ 16) (p : Nat) (buffer : Cells Byte) :
    (read_chunk m address n p buffer).1 = 0 ∧
        (∃ core', Resting True True prompt core' (read_chunk m address n p buffer).2.1 ∧ core'.Idle ∧
          core'.chip.cells = core.chip.cells) ∧
        (read_chunk m address n p buffer).2.2 = copy buffer p (fun i => core.chip.cells (address.toNat + i)) n ∨
      (read_chunk m address n p buffer).1 = -1 ∧ ¬prompt := by
  rw [read_chunk]
  dsimp only
  obtain ⟨hfail, -, hdead⟩ | ⟨m', hprimed, hstart⟩ := start_spec h hidle address
  · rw [hfail, if_pos (by decide)]
    exact .inr ⟨rfl, fun hp => hdead ⟨trivial, hp⟩⟩
  have hcontinue : ¬(0 : Int) ≠ 0 := by decide
  rw [hstart, if_neg hcontinue]
  have hstage := read_stage_start hidle.phase haddress hn hmax hprimed
  obtain ⟨hok, ⟨popped, hlength, hfetched⟩, hbuffer⟩ | ⟨hfail, hdead⟩ :=
    read_bytes_spec hidle.phase haddress hn hmax (by omega) n hstage (Nat.zero_add n) p buffer
  swap
  · rw [hfail, if_pos (by decide)]
    exact .inr ⟨rfl, hdead⟩
  rw [hok, if_neg hcontinue]
  obtain ⟨hfree, hresult⟩ := hfetched.wait_status hidle.phase haddress hn hmax 4 0
  split
  next hfail =>
    refine .inr ⟨rfl, fun hp => hfail ?_⟩
    apply hfetched.wait_returns hidle.phase haddress hn hmax (by omega) hp
    intro b hb
    obtain ⟨hchip, hqueue, -⟩ := hb.all_received hn
    rw [status_busy]
    exact bus_free (idle_of_received hchip hqueue) hb.free
  next hok =>
    obtain ⟨-, hseen⟩ | hbad := hresult
    swap
    · rw [hbad] at hok
      exact absurd (by decide) hok
    obtain ⟨hrest, hchip⟩ := hfree.fetching.ended hn hlength ((status_busy _).mp hseen)
    have htick := hfree.tick hidle.phase haddress hn hmax (List.prefix_refl _)
    have hcore := Machine.tick_core hrest
    have hcells := cells_of_core hcore
    have hclear : ¬(rd (wait_status _ 4 0).2 0x20).1 &&& 1 ≠ 0 := not_not_intro htick.fetching.quiet
    rw [if_neg hclear]
    refine .inl ⟨rfl, ⟨_, ⟨rfl, fun _ => htick.fetching.awake, fun _ => ⟨htick.calm, htick.fetching.free⟩, htick.prompt⟩,
      Bus.Idle.core (Bus.Idle.of_core hcore hrest.core), hcells.trans ?_⟩, ?_⟩
    · change (wait_status _ 4 0).2.bus.chip.cells = _
      rw [hchip]
      rfl
    · rw [hbuffer]
      rfl

end stage

end scu35.eeprom
