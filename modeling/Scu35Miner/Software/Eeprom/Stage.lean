import Scu35Miner.Software.Eeprom.Flowing

open fips180 storage transition

namespace scu35.eeprom

/-- A write of which the processor has sent `words`, undisturbed in the `live`
case. -/
structure Stage (live : Prop) (before : M24C64) (words : List TxWord) (m : Machine) : Prop where
  kept : Sending before words m.bus ∨ Failed before words m.bus
  live : live → Prompt m.plan ∧ Flowing before words m.bus

/-- The write has been given up, with a part of its words sent. -/
structure Aborted (before : M24C64) (full : List TxWord) (b : Bus) : Prop where
  idle : b.Idle
  chip : ∃ sent stop, sent <+: full ∧ b.chip = (run M24C64.send before sent).finish stop

section stage

variable {live : Prop} {before : M24C64} {full words : List TxWord} {m : Machine}

theorem kept_step (hscript : Script before full) (hfull : words <+: full) (k : Nat) (b : Bus) (e : Event)
    (h : (Sending before words b ∨ Failed before words b) ∧ b.tx.length ≤ k) :
    (Sending before words (b.step e) ∨ Failed before words (b.step e)) ∧ (b.step e).tx.length ≤ k := by
  refine ⟨?_, (b.step_tx_length e).trans h.2⟩
  obtain ⟨hsending | hfailed, -⟩ := h
  · exact hsending.step (hscript.mem_device hfull) e
  · exact .inr (hfailed.step e)

theorem flowing_step (hscript : Script before full) (hfull : words <+: full) (b : Bus) (e : Event) (he : e.Calm)
    (h : Flowing before words b) : Flowing before words (b.step e) := by
  obtain rfl | rfl := he
  · exact (h.shift hscript hfull).1
  · exact h.settle

theorem Stage.tick (hscript : Script before full) (hfull : words <+: full) (h : Stage live before words m) {k : Nat}
    (hk : m.bus.tx.length ≤ k) : Stage live before words m.tick ∧ m.tick.bus.tx.length ≤ k := by
  obtain ⟨hkept, hlength⟩ := Machine.tick_keeps (fun b e _ => kept_step hscript hfull k b e) (allows_any m.plan)
    ⟨h.kept, hk⟩
  refine ⟨⟨hkept, fun hlive => ?_⟩, hlength⟩
  obtain ⟨hprompt, hflowing⟩ := h.live hlive
  exact ⟨hprompt.tick, Machine.tick_keeps (flowing_step hscript hfull) hprompt.calm hflowing⟩

theorem Stage.wait_status (hscript : Script before full) (hfull : words <+: full) (h : Stage live before words m)
    {k : Nat} (hk : m.bus.tx.length ≤ k) (mask expected : Word) :
    Stage live before words (wait_status m mask expected).2 ∧ (wait_status m mask expected).2.bus.tx.length ≤ k ∧
      ((wait_status m mask expected).1 = 0 ∧ (wait_status m mask expected).2.bus.status &&& mask = expected ∨
        (wait_status m mask expected).1 = -1) := by
  obtain ⟨⟨hkept, hlength⟩, -, hresult⟩ := wait_status_keeps (fun b e _ => kept_step hscript hfull k b e)
    mask expected (allows_any m.plan) ⟨h.kept, hk⟩
  refine ⟨⟨hkept, fun hlive => ?_⟩, hlength, hresult⟩
  obtain ⟨hprompt, hflowing⟩ := h.live hlive
  exact ⟨wait_status_prompt mask expected hprompt,
    (wait_status_keeps (flowing_step hscript hfull) mask expected hprompt.calm hflowing).1⟩

/-- An undisturbed write is sent while the processor polls. -/
theorem Stage.wait_returns (hscript : Script before full) (hfull : words <+: full) (h : Stage live before words m)
    (hlive : live) {mask expected : Word}
    (hdone : ∀ b, Flowing before words b → b.queue = [] → b.status &&& mask = expected) :
    (eeprom.wait_status m mask expected).1 = 0 := by
  obtain ⟨hprompt, hflowing⟩ := h.live hlive
  have hwork : m.bus.work ≤ 33 := by
    have hroom := hflowing.room
    have hshifting : m.bus.shifting.toList.length ≤ 1 := Option.length_toList_le
    unfold Bus.work
    omega
  apply wait_status_returns (P := fun w b => Flowing before words b ∧ b.work ≤ w) _ _ _ hprompt
    (by decide : 33 ≤ 64) ⟨hflowing, hwork⟩
  · exact fun w b hb => ⟨hb.1.settle, hb.2⟩
  · intro w b hb
    obtain ⟨hnext, hless⟩ := hb.1.shift hscript hfull
    refine ⟨hnext, ?_⟩
    rw [Bus.step, hless]
    exact Nat.sub_le_sub_right hb.2 1
  · exact fun b hb => hdone b hb.1 (Bus.queue_of_work (Nat.le_zero.mp hb.2))

theorem Stage.wr_word (hscript : Script before full) (hfull : words <+: full) (h : Stage live before words m) {k : Nat}
    (hk : m.bus.tx.length ≤ k) (hroom : k < 16) {w : TxWord} (hw : w.start = false) {v : Word} (hv : TxWord.of v = w) :
    Stage live before (words ++ [w]) (wr m 0x108 v) ∧ (wr m 0x108 v).bus.tx.length ≤ k + 1 := by
  obtain ⟨htick, hlength⟩ := h.tick hscript hfull hk
  have hbus : (wr m 0x108 v).bus = m.tick.bus.push w := by rw [wr, Bus.write_tx, hv]
  have hfree := hlength.trans_lt hroom
  rw [hbus]
  refine ⟨⟨?_, fun hlive => ?_⟩, ?_⟩
  · rw [hbus]
    obtain hsending | hfailed := htick.kept
    · exact .inl (hsending.push hfree w).1
    · exact .inr (hfailed.push hw).1
  · rw [hbus]
    obtain ⟨hprompt, hflowing⟩ := htick.live hlive
    exact ⟨hprompt, hflowing.push hfree hw⟩
  · obtain hsending | hfailed := htick.kept
    · rw [(hsending.push hfree w).2]
      exact Nat.succ_le_succ hlength
    · exact (hfailed.push hw).2.trans (Nat.succ_le_succ hlength)

/-- Giving up leaves the bus at rest. -/
theorem Stage.wr_reset (hscript : Script before full) (hfull : words <+: full) (h : Stage live before words m) :
    Aborted before full (wr m 0x40 10).bus := by
  obtain ⟨htick, -⟩ := h.tick hscript hfull (Nat.le_refl _)
  have hchip : (wr m 0x40 10).bus.chip = m.tick.bus.chip.finish (m.plan 0).stop := rfl
  refine ⟨⟨?_, rfl, rfl⟩, ?_⟩
  · rw [hchip, M24C64.finish_phase]
  · rw [hchip]
    obtain hsending | hfailed := htick.kept
    · obtain ⟨sent, hwords, hbefore⟩ := hsending.sent
      have hsent : sent <+: words := ⟨_, hwords.symm⟩
      exact ⟨sent, _, hsent.trans hfull, by rw [hbefore]⟩
    · rw [M24C64.finish_idle hfailed.phase]
      obtain ⟨sent, stop, hsent, hbefore⟩ := hfailed.chip
      exact ⟨sent, stop, hsent.trans hfull, hbefore⟩

/-- The first word of a write. -/
theorem stage_start (h : Resting live live live (primed before) m)
    (hidle : before.phase = .idle) :
    Stage live before [⟨true, false, 0xa0⟩] (wr m 0x108 0x1a0) ∧ (wr m 0x108 0x1a0).bus.tx.length ≤ 1 := by
  have htick := h.tick ⟨hidle, rfl, rfl⟩
  have hword : TxWord.of 0x1a0 = ⟨true, false, 0xa0⟩ := by decide
  have hbus : (wr m 0x108 0x1a0).bus = { primed before with
      tx := [⟨true, false, 0xa0⟩], busy := m.tick.bus.busy, held := m.tick.bus.held } := by
    calc (wr m 0x108 0x1a0).bus = m.tick.bus.push ⟨true, false, 0xa0⟩ := by rw [wr, Bus.write_tx, hword]
      _ = ({ primed before with busy := m.tick.bus.busy, held := m.tick.bus.held } : Bus).push ⟨true, false, 0xa0⟩ :=
        congrArg (Bus.push · _) (Bus.eq_of_core htick.core)
      _ = _ := Bus.push_eq rfl (by exact Nat.zero_lt_succ 15) _
  have hsending : Sending before [⟨true, false, 0xa0⟩] (wr m 0x108 0x1a0).bus := by
    rw [hbus]
    refine ⟨⟨[], rfl, rfl⟩, BitVec.zero_and, rfl, ?_⟩
    change before.reads = false
    rw [M24C64.reads, hidle]
  refine ⟨⟨.inl hsending, fun hlive => ?_⟩, by rw [hbus]; exact Nat.le_refl 1⟩
  obtain ⟨-, hheld⟩ := htick.calm hlive
  refine ⟨htick.prompt hlive, ⟨hsending, ?_, ?_, ?_⟩⟩
  · rw [hbus]
    exact hheld
  · rw [hbus]
    intro hbusy
    rw [htick.awake hlive] at hbusy
    cases hbusy
  · rw [hbus]
    exact Nat.le_of_ble_eq_true rfl

end stage

end scu35.eeprom
