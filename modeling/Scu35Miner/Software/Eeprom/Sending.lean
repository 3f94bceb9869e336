import Scu35Miner.Software.Eeprom.Start

open fips180 storage transition

namespace scu35.eeprom

/-- The EEPROM has been addressed for reading. -/
def M24C64.reads (c : M24C64) : Bool :=
  match c.phase with
  | .counting | .reading _ _ => true
  | _ => false

theorem M24C64.finish_reads (c : M24C64) (stop : Bool) : (c.finish stop).reads = false := by
  rw [M24C64.reads, M24C64.finish_phase]

theorem M24C64.latch_reads {c : M24C64} (hc : c.reads = false) (byte : Byte) : (c.latch byte).reads = false := by
  unfold M24C64.latch
  split <;> first | rfl | exact hc

theorem M24C64.send_reads {c : M24C64} {w : TxWord} (hc : c.reads = false) (hw : w.start = true → w.byte = 0xa0) :
    (c.send w).reads = false := by
  unfold M24C64.send
  split
  next hstart =>
    rw [hw hstart]
    rfl
  · split
    next hcounting =>
      rw [M24C64.reads, hcounting] at hc
      cases hc
    · split
      · exact finish_reads _ _
      · exact latch_reads hc _

theorem Bus.abort_tx_length (b : Bus) (flag : Word) (stop : Bool) : (b.abort flag stop).tx.length ≤ b.tx.length := by
  unfold Bus.abort
  split
  · exact Nat.le_refl _
  · exact Nat.zero_le _

theorem Bus.complete_tx_length (b : Bus) (w : TxWord) : (b.complete w).tx.length ≤ b.tx.length := by
  unfold Bus.complete
  split
  · exact b.abort_tx_length 2 false
  · exact Nat.le_refl _

theorem Bus.shift_tx_length (b : Bus) : b.shift.tx.length ≤ b.tx.length := by
  unfold Bus.shift
  split
  · exact b.complete_tx_length _
  · split
    · split <;> exact Nat.le_refl _
    · split
      · exact Nat.le_refl _
      next htx =>
        rw [htx]
        split
        · exact Nat.le_succ _
        · rw [htx]

/-- The processor alone fills the transmit FIFO. -/
theorem Bus.step_tx_length (b : Bus) (e : Event) : (b.step e).tx.length ≤ b.tx.length := by
  cases e with
  | shift => exact b.shift_tx_length
  | settle | hold held => exact Nat.le_refl _
  | arbitration_lost stop => exact b.abort_tx_length 1 stop
  | no_acknowledge stop => exact b.abort_tx_length 2 stop

/-- The words of a write, of which the first ones have been sent without an
error. -/
structure Sending (before : M24C64) (words : List TxWord) (b : Bus) : Prop where
  sent : ∃ sent, words = sent ++ b.queue ∧ b.chip = run M24C64.send before sent
  quiet : b.isr &&& 3 = 0
  enabled : b.cr = 1
  writes : b.chip.reads = false

/-- A bus error has ended the transaction; what the processor sends is stuck. -/
structure Failed (before : M24C64) (words : List TxWord) (b : Bus) : Prop where
  chip : ∃ sent stop, sent <+: words ∧ b.chip = (run M24C64.send before sent).finish stop
  shifting : b.shifting = none
  stuck : ∀ w ∈ b.tx, w.start = false
  flagged : b.isr &&& 3 ≠ 0

section steps

variable {before : M24C64} {words : List TxWord} {b : Bus}

theorem Failed.phase (h : Failed before words b) : b.chip.phase = .idle := by
  obtain ⟨sent, stop, -, hchip⟩ := h.chip
  rw [hchip, M24C64.finish_phase]

theorem Failed.shift (h : Failed before words b) : b.shift = b := by
  simp only [Bus.shift, h.shifting, h.phase]
  split
  · rfl
  next w tx htx =>
    have hstuck : w.start = false := h.stuck w (by rw [htx]; exact List.mem_cons_self)
    have htakes : b.takes w = false := by simp only [Bus.takes, h.phase, hstuck, Bool.false_and, Bool.and_false]
    rw [htakes]
    rfl

theorem Failed.step (h : Failed before words b) (e : Event) : Failed before words (b.step e) := by
  cases e with
  | shift =>
    rw [Bus.step, h.shift]
    exact h
  | settle | hold held => exact ⟨h.chip, h.shifting, h.stuck, h.flagged⟩
  | arbitration_lost stop | no_acknowledge stop =>
    rw [Bus.step, Bus.abort, if_pos ⟨h.phase, h.shifting⟩]
    exact h

theorem or_flag_ne_zero (isr : Word) {flag : Word} (hflag : flag = 1 ∨ flag = 2) : (isr ||| flag) &&& 3 ≠ 0 := by
  intro hzero
  have hbit (i : Nat) : ((isr ||| flag) &&& 3).getLsbD i = false := by
    rw [hzero]
    exact BitVec.getLsbD_zero
  obtain rfl | rfl := hflag
  · have h := hbit 0
    simp at h
  · have h := hbit 1
    simp at h

theorem Sending.abort (h : Sending before words b) {flag : Word} (hflag : flag = 1 ∨ flag = 2) (stop : Bool) :
    Sending before words (b.abort flag stop) ∨ Failed before words (b.abort flag stop) := by
  unfold Bus.abort
  split
  · exact .inl h
  right
  obtain ⟨sent, hwords, hchip⟩ := h.sent
  refine ⟨⟨sent, stop, ⟨b.queue, hwords.symm⟩, ?_⟩, rfl, fun w hw => absurd hw List.not_mem_nil,
    or_flag_ne_zero b.isr hflag⟩
  rw [← hchip]
  rfl

theorem Sending.complete (hdevice : ∀ w ∈ words, w.start = true → w.byte = 0xa0) (h : Sending before words b)
    {w : TxWord} (hw : b.shifting = some w) :
    Sending before words (b.complete w) ∨ Failed before words (b.complete w) := by
  unfold Bus.complete
  split
  · exact h.abort (.inr rfl) false
  left
  obtain ⟨sent, hwords, hchip⟩ := h.sent
  have hqueue : b.queue = w :: b.tx := by rw [Bus.queue, hw]; rfl
  have hmem : w ∈ words := by
    rw [hwords, hqueue]
    exact List.mem_append_right _ List.mem_cons_self
  refine ⟨⟨sent ++ [w], ?_, ?_⟩, h.quiet, h.enabled, M24C64.send_reads h.writes (hdevice w hmem)⟩
  · rw [hwords, hqueue, List.append_assoc]
    rfl
  · rw [run_append, ← hchip]
    rfl

theorem Sending.shift (hdevice : ∀ w ∈ words, w.start = true → w.byte = 0xa0) (h : Sending before words b) :
    Sending before words b.shift ∨ Failed before words b.shift := by
  unfold Bus.shift
  split
  next w hw => exact h.complete hdevice hw
  next hnone =>
    split
    next hreading =>
      have hwrites := h.writes
      rw [M24C64.reads, hreading] at hwrites
      cases hwrites
    · left
      split
      · exact h
      next w tx htx =>
        split
        · obtain ⟨sent, hwords, hchip⟩ := h.sent
          refine ⟨⟨sent, ?_, hchip⟩, h.quiet, h.enabled, h.writes⟩
          rw [hwords, Bus.queue, hnone, htx]
          rfl
        · exact h

/-- While a write is sent, everything that happens continues it or is an error. -/
theorem Sending.step (hdevice : ∀ w ∈ words, w.start = true → w.byte = 0xa0) (h : Sending before words b) (e : Event) :
    Sending before words (b.step e) ∨ Failed before words (b.step e) := by
  cases e with
  | shift => exact h.shift hdevice
  | settle | hold held => exact .inl ⟨h.sent, h.quiet, h.enabled, h.writes⟩
  | arbitration_lost stop => exact h.abort (.inl rfl) stop
  | no_acknowledge stop => exact h.abort (.inr rfl) stop

theorem Sending.push (h : Sending before words b) (hroom : b.tx.length < 16) (w : TxWord) :
    Sending before (words ++ [w]) (b.push w) ∧ (b.push w).tx.length = b.tx.length + 1 := by
  rw [Bus.push_eq h.enabled hroom]
  refine ⟨⟨?_, h.quiet, h.enabled, h.writes⟩, List.length_append⟩
  obtain ⟨sent, hwords, hchip⟩ := h.sent
  refine ⟨sent, ?_, hchip⟩
  rw [hwords, List.append_assoc, Bus.queue, Bus.queue, List.append_assoc]

theorem Failed.push (h : Failed before words b) {w : TxWord} (hw : w.start = false) :
    Failed before (words ++ [w]) (b.push w) ∧ (b.push w).tx.length ≤ b.tx.length + 1 := by
  obtain ⟨sent, stop, hsent, hchip⟩ := h.chip
  have hwithin : sent <+: words ++ [w] := hsent.trans (List.prefix_append _ _)
  unfold Bus.push
  split
  · exact ⟨⟨⟨sent, stop, hwithin, hchip⟩, h.shifting, h.stuck, h.flagged⟩, Nat.le_succ _⟩
  · refine ⟨⟨⟨sent, stop, hwithin, hchip⟩, h.shifting, fun x hx => ?_, h.flagged⟩, List.length_append.le⟩
    obtain hx | hx := List.mem_append.mp hx
    · exact h.stuck x hx
    · rw [List.mem_singleton.mp hx]
      exact hw

end steps

end scu35.eeprom
