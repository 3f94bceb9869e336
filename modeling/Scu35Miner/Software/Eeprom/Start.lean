import Scu35Miner.Software.Eeprom.Polling

open fips180 storage transition

namespace scu35.eeprom

theorem M24C64.finish_idle {c : M24C64} (h : c.phase = .idle) (stop : Bool) : c.finish stop = c := by
  obtain ⟨cells, address, phase, ended⟩ := c
  cases h
  rfl

theorem M24C64.finish_phase (c : M24C64) (stop : Bool) : (c.finish stop).phase = .idle := by
  unfold M24C64.finish
  split <;> rfl

/-- No transaction is on the bus and none is queued. -/
structure Bus.Idle (b : Bus) : Prop where
  phase : b.chip.phase = .idle
  tx : b.tx = []
  shifting : b.shifting = none

theorem tx_of_queue {b : Bus} (h : b.queue = []) : b.tx = [] := (List.append_eq_nil_iff.mp h).2

theorem idle_of_free {b : Bus} (hfree : b.bus_busy = false) (htx : b.tx.length ≤ 0) : b.Idle := by
  simp only [Bus.bus_busy, Bool.or_eq_false_iff, bne_eq_false_iff_eq, Option.isSome_eq_false_iff,
    Option.isNone_iff_eq_none] at hfree
  exact ⟨hfree.1.2, List.length_eq_zero_iff.mp (Nat.le_zero.mp htx), hfree.2⟩

/-- The bus without its two flags that change at any time. -/
def Bus.core (b : Bus) : Bus := { b with busy := false, held := false }

theorem Bus.eq_of_core {b core : Bus} (h : b.core = core) : b = { core with busy := b.busy, held := b.held } := by
  rw [← h]
  rfl

theorem cells_of_core {b core : Bus} (h : b.core = core) : b.chip.cells = core.chip.cells := by
  rw [← h]
  rfl

theorem Bus.Idle.core {b : Bus} (h : b.Idle) : b.core.Idle := ⟨h.phase, h.tx, h.shifting⟩

theorem Bus.Idle.of_core {b core : Bus} (h : b.core = core) (hidle : core.Idle) : b.Idle := by
  rw [← h] at hidle
  exact ⟨hidle.phase, hidle.tx, hidle.shifting⟩

theorem Bus.abort_idle {b : Bus} (h : b.Idle) (flag : Word) (stop : Bool) : b.abort flag stop = b :=
  if_pos ⟨h.phase, h.shifting⟩

theorem Bus.shift_idle {b : Bus} (h : b.Idle) : b.shift = b := by
  simp only [Bus.shift, h.shifting, h.phase, h.tx]

theorem Bus.reset_idle {b : Bus} (h : b.Idle) (stop : Bool) :
    b.reset stop = { b with rx := [], isr := 0, cr := 0, rx_pirq := 0 } := by
  have hprograms : b.chip.programs = false := by rw [M24C64.programs, h.phase]
  simp only [Bus.reset, Bus.release, M24C64.finish_idle h.phase, hprograms, Bool.and_false, Bool.or_false, h.tx,
    h.shifting]

theorem Bus.push_eq {b : Bus} (henabled : b.cr = 1) (hroom : b.tx.length < 16) (w : TxWord) :
    b.push w = { b with tx := b.tx ++ [w] } := by
  apply if_neg
  rw [henabled]
  simpa using hroom

/-- While nothing is on the bus, it only ends write cycles and changes hands. -/
theorem Bus.Idle.step {b : Bus} (h : b.Idle) (e : Event) :
    (b.step e).core = b.core ∧ (b.busy = false → (b.step e).busy = false) ∧ (e.Calm → (b.step e).held = b.held) := by
  cases e with
  | shift =>
    rw [Bus.step, Bus.shift_idle h]
    exact ⟨rfl, id, fun _ => rfl⟩
  | settle => exact ⟨rfl, fun _ => rfl, fun _ => rfl⟩
  | hold held => exact ⟨rfl, id, fun hcalm => by cases hcalm <;> contradiction⟩
  | arbitration_lost stop | no_acknowledge stop =>
    rw [Bus.step, Bus.abort_idle h]
    exact ⟨rfl, id, fun _ => rfl⟩

/-- A machine whose bus is at rest. In the cases of the three propositions no
write cycle is going on, the bus has no errors, and it answers every poll in
time. -/
structure Resting (awake calm prompt : Prop) (core : Bus) (m : Machine) : Prop where
  core : m.bus.core = core
  awake : awake → m.bus.busy = false
  calm : calm → Allows m.plan Event.Calm ∧ m.bus.held = false
  prompt : prompt → Prompt m.plan

/-- The bus after the registers have been set up for a transaction. -/
def primed (chip : M24C64) : Bus where
  chip := chip
  tx := []
  shifting := none
  rx := []
  isr := 0
  cr := 1
  rx_pirq := 15
  busy := false
  held := false

section resting

variable {awake calm prompt : Prop} {core : Bus} {m : Machine}

/-- What the events before an access keep while the bus is at rest. -/
theorem core_step (hidle : core.Idle) (b : Bus) (e : Event) (h : b.core = core ∧ (awake → b.busy = false)) :
    (b.step e).core = core ∧ (awake → (b.step e).busy = false) := by
  obtain ⟨hcore, hbusy, -⟩ := (Bus.Idle.of_core h.1 hidle).step e
  exact ⟨hcore.trans h.1, fun ha => hbusy (h.2 ha)⟩

theorem held_step (hidle : core.Idle) (b : Bus) (e : Event) (hcalm : e.Calm) (h : b.core = core ∧ b.held = false) :
    (b.step e).core = core ∧ (b.step e).held = false := by
  obtain ⟨hcore, -, hheld⟩ := (Bus.Idle.of_core h.1 hidle).step e
  exact ⟨hcore.trans h.1, (hheld hcalm).trans h.2⟩

theorem Resting.tick (h : Resting awake calm prompt core m) (hidle : core.Idle) :
    Resting awake calm prompt core m.tick := by
  obtain ⟨hcore, hawake⟩ := Machine.tick_keeps (fun b e _ => core_step hidle b e) (allows_any m.plan) ⟨h.core, h.awake⟩
  refine ⟨hcore, hawake, fun hc => ?_, fun hp => (h.prompt hp).tick⟩
  obtain ⟨hcalm, hheld⟩ := h.calm hc
  exact ⟨hcalm.tick, (Machine.tick_keeps (held_step hidle) hcalm ⟨h.core, hheld⟩).2⟩

theorem Machine.tick_core (hidle : m.bus.Idle) : m.tick.bus.core = m.bus.core := by
  have hrest : Resting False False False m.bus.core m := ⟨rfl, False.elim, False.elim, False.elim⟩
  exact (hrest.tick hidle.core).core

/-- A register write at rest changes the core and not the flags. -/
theorem Resting.wr (core' : Bus) (h : Resting awake calm prompt core m) (hidle : core.Idle) {r : Nat} {v : Word}
    (hwrite : ∀ busy held stop, ({ core with busy, held } : Bus).write stop r v = { core' with busy, held })
    (hcore : core'.core = core') : Resting awake calm prompt core' (wr m r v) := by
  have htick := h.tick hidle
  have hbus : (eeprom.wr m r v).bus = { core' with busy := m.tick.bus.busy, held := m.tick.bus.held } := by
    rw [← hwrite _ _ (m.plan 0).stop, ← Bus.eq_of_core htick.core]
    rfl
  refine ⟨?_, fun ha => ?_, fun hc => ?_, htick.prompt⟩
  · rw [hbus]
    exact hcore
  · rw [hbus]
    exact htick.awake ha
  · rw [hbus]
    exact htick.calm hc

theorem Resting.wait_status (h : Resting awake calm prompt core m) (hidle : core.Idle) (mask expected : Word) :
    Resting awake calm prompt core (wait_status m mask expected).2 := by
  obtain ⟨⟨hcore, hawake⟩, -, -⟩ := wait_status_keeps (fun b e _ => core_step hidle b e) mask expected
    (allows_any m.plan) ⟨h.core, h.awake⟩
  refine ⟨hcore, hawake, fun hc => ?_, fun hp => wait_status_prompt mask expected (h.prompt hp)⟩
  obtain ⟨hcalm, hheld⟩ := h.calm hc
  obtain ⟨⟨-, hfree⟩, hallows, -⟩ := wait_status_keeps (held_step hidle) mask expected hcalm ⟨h.core, hheld⟩
  exact ⟨hallows, hfree⟩

theorem bus_free {b : Bus} (hidle : b.Idle) (hheld : b.held = false) : b.bus_busy = false := by
  rw [Bus.bus_busy, hheld, hidle.phase, hidle.shifting]
  rfl

theorem wait_free (h : Resting awake calm prompt core m) (hidle : core.Idle) (hc : calm) (hp : prompt) :
    (eeprom.wait_status m 4 0).1 = 0 := by
  obtain ⟨-, hheld⟩ := h.calm hc
  apply wait_status_returns (P := fun _ b => b.core = core ∧ b.held = false) (w := 0) _ _ _ (h.prompt hp)
    (Nat.zero_le _) ⟨h.core, hheld⟩
  · exact fun _ b => held_step hidle b .settle (.inr rfl)
  · exact fun _ b => held_step hidle b .shift (.inl rfl)
  · exact fun b hb => (status_busy b).mpr (bus_free (Bus.Idle.of_core hb.1 hidle) hb.2)

/-- The soft reset and the setup of the registers. -/
theorem set_up (h : Resting awake calm prompt core m) (hidle : core.Idle) :
    Resting awake calm prompt (primed core.chip) (wr (wr (wr (wr m 0x40 10) 0x120 15) 0x100 3) 0x100 1) := by
  have hphase : core.chip.phase = .idle := hidle.phase
  have hreset := h.wr (r := 0x40) (v := 10) { primed core.chip with cr := 0, rx_pirq := 0 } hidle
    (fun busy held stop => by
      have hbus : ({ core with busy, held } : Bus).Idle := ⟨hidle.phase, hidle.tx, hidle.shifting⟩
      have htx : core.tx = [] := hidle.tx
      have hshifting : core.shifting = none := hidle.shifting
      rw [Bus.write_reset, Bus.reset_idle hbus]
      simp only [primed, htx, hshifting]) rfl
  have hpirq := hreset.wr (r := 0x120) (v := 15) { primed core.chip with cr := 0 }
    ⟨hphase, rfl, rfl⟩ (fun _ _ _ => rfl) rfl
  have hclear := hpirq.wr (r := 0x100) (v := 3) { primed core.chip with cr := 3 }
    ⟨hphase, rfl, rfl⟩ (fun _ _ _ => rfl) rfl
  exact hclear.wr (r := 0x100) (v := 1) _ ⟨hphase, rfl, rfl⟩ (fun _ _ _ => rfl) rfl

/-- `start` leaves the bus at rest, or sends three words over a fresh controller. -/
theorem start_spec (h : Resting awake calm prompt core m) (hidle : core.Idle) (address : BitVec 16) :
    (start m address).1 = -1 ∧ Resting awake calm prompt core (start m address).2 ∧ ¬(calm ∧ prompt) ∨
      ∃ m', Resting awake calm prompt (primed core.chip) m' ∧
        start m address = ((0 : Int), wr (wr (wr m' 0x108 0x1a0) 0x108 ((address >>> 8).setWidth 32)) 0x108
          ((address &&& 255).setWidth 32)) := by
  have hwait := h.wait_status hidle 4 0
  by_cases hfail : (eeprom.wait_status m 4 0).1 ≠ 0
  · left
    have hstart : start m address = (-1, (eeprom.wait_status m 4 0).2) := if_pos hfail
    rw [hstart]
    exact ⟨rfl, hwait, fun hlive => hfail (wait_free h hidle hlive.1 hlive.2)⟩
  right
  refine ⟨_, ?_, if_neg hfail⟩
  have hprimed : (primed core.chip).Idle := ⟨hidle.phase, rfl, rfl⟩
  have hflags := (set_up hwait hidle).tick hprimed
  have hisr : (wr (wr (wr (wr (eeprom.wait_status m 4 0).2 0x40 10) 0x120 15) 0x100 3) 0x100 1).tick.bus.isr = 0 :=
    congrArg Bus.isr hflags.core
  apply hflags.wr _ hprimed _ rfl
  intro busy held stop
  have hxor : (primed core.chip).isr ^^^ 0 = (primed core.chip).isr := BitVec.xor_zero
  simp only [rd, Bus.read_isr, hisr, Bus.write_isr, hxor]

end resting

end scu35.eeprom
