import Scu35Miner.Software.Eeprom.Sending

open fips180 storage transition

namespace scu35.eeprom

/-- The words of one write: a START before the first only, and a STOP only
after the last. -/
structure Script (before : M24C64) (full : List TxWord) : Prop where
  device : ∀ w ∈ full, w.start = true → w.byte = 0xa0
  once : ∀ w ∈ full.tail, w.start = false
  unbroken : ∀ sent w rest, full = sent ++ w :: rest → (run M24C64.send before sent).phase = .idle → w.start = true
  closed : (run M24C64.send before full).phase = .idle

/-- A write that no one disturbs. -/
structure Flowing (before : M24C64) (words : List TxWord) (b : Bus) : Prop extends Sending before words b where
  free : b.held = false
  awake : b.busy = true → ∀ w ∈ b.queue, w.start = false
  room : b.tx.length ≤ 16

/-- The steps the bus needs to send what is queued. -/
def Bus.work (b : Bus) : Nat := 2 * b.tx.length + b.shifting.toList.length

theorem Bus.queue_of_work {b : Bus} (h : b.work = 0) : b.queue = [] := by
  have htx : b.tx.length = 0 := by
    unfold Bus.work at h
    omega
  have hshifting : b.shifting.toList.length = 0 := by
    unfold Bus.work at h
    omega
  rw [Bus.queue, List.length_eq_zero_iff.mp htx, List.length_eq_zero_iff.mp hshifting]
  rfl

section flowing

variable {before : M24C64} {full words : List TxWord} {b : Bus}

theorem Script.mem_device (hscript : Script before full) (hfull : words <+: full) :
    ∀ w ∈ words, w.start = true → w.byte = 0xa0 := fun w hw => hscript.device w (hfull.subset hw)

theorem Flowing.settle (h : Flowing before words b) : Flowing before words (b.step .settle) :=
  ⟨⟨h.sent, h.quiet, h.enabled, h.writes⟩, h.free, fun hbusy => absurd hbusy Bool.false_ne_true, h.room⟩

/-- A word that is under way will be acknowledged. -/
theorem Flowing.complete (hscript : Script before full) (hfull : words <+: full) (h : Flowing before words b)
    {w : TxWord} (hw : b.shifting = some w) :
    Flowing before words (b.complete w) ∧ (b.complete w).work = b.work - 1 := by
  have hqueue : b.queue = w :: b.tx := by rw [Bus.queue, hw]; rfl
  obtain ⟨sent, hwords, hchip⟩ := h.sent
  have hmem : w ∈ words := by
    rw [hwords, hqueue]
    exact List.mem_append_right _ List.mem_cons_self
  have hack : ¬(w.start = true ∧ (b.busy = true ∨ w.byte >>> 1 ≠ 0x50)) := by
    rintro ⟨hstart, hbusy | hdevice⟩
    · have hno := h.awake hbusy w (by rw [hqueue]; exact List.mem_cons_self)
      rw [hstart] at hno
      cases hno
    · rw [hscript.mem_device hfull w hmem hstart] at hdevice
      exact hdevice (by decide)
  have hlater : ∀ x ∈ b.tx, x.start = false := by
    intro x hx
    apply hscript.once
    obtain ⟨rest, hrest⟩ := hfull
    have hin : x ∈ b.tx ++ rest := List.mem_append_left _ hx
    rw [← hrest, hwords, hqueue, List.append_assoc]
    cases sent with
    | nil => exact hin
    | cons y sent => exact List.mem_append_right _ (List.mem_cons_of_mem _ hin)
  have hcomplete : b.complete w = { b with
      chip := b.chip.send w
      shifting := none
      busy := b.busy || !w.start && w.stop && (b.chip.latch w.byte).programs } := if_neg hack
  refine ⟨⟨?_, ?_, ?_, ?_⟩, ?_⟩
  · obtain hsending | hfailed := h.toSending.complete (hscript.mem_device hfull) hw
    · exact hsending
    · exfalso
      apply hfailed.flagged
      rw [hcomplete]
      exact h.quiet
  · rw [hcomplete]
    exact h.free
  · rw [hcomplete]
    exact fun _ => hlater
  · rw [hcomplete]
    exact h.room
  · rw [hcomplete, Bus.work, Bus.work, hw]
    simp only [Option.toList_none, Option.toList_some, List.length_nil, List.length_singleton]
    omega

/-- The next word is taken when the shift register is empty. -/
theorem Flowing.takes (hscript : Script before full) (hfull : words <+: full) (h : Flowing before words b)
    (hnone : b.shifting = none) {w : TxWord} {tx : List TxWord} (htx : b.tx = w :: tx) : b.takes w = true := by
  obtain ⟨sent, hwords, hchip⟩ := h.sent
  have hqueue : b.queue = w :: tx := by
    rw [Bus.queue, hnone, htx]
    rfl
  have hwrites := h.writes
  unfold Bus.takes
  rw [h.enabled]
  cases hphase : b.chip.phase with
  | idle =>
    obtain ⟨rest, hrest⟩ := hfull
    have hstart : w.start = true := by
      apply hscript.unbroken sent w (tx ++ rest)
      · rw [← hrest, hwords, hqueue, List.append_assoc]
        rfl
      · rw [← hchip]
        exact hphase
    simp only [hstart, h.free]
    decide
  | selected high => rfl
  | writing bytes => rfl
  | counting | reading left stop =>
    rw [M24C64.reads, hphase] at hwrites
    cases hwrites

theorem Flowing.shift (hscript : Script before full) (hfull : words <+: full) (h : Flowing before words b) :
    Flowing before words b.shift ∧ b.shift.work = b.work - 1 := by
  cases hshifting : b.shifting with
  | some w =>
    rw [Bus.shift, hshifting]
    exact h.complete hscript hfull hshifting
  | none =>
    have hread : ∀ left stop, b.chip.phase ≠ .reading left stop := by
      intro left stop hphase
      have hwrites := h.writes
      rw [M24C64.reads, hphase] at hwrites
      cases hwrites
    cases htx : b.tx with
    | nil =>
      have hsame : b.shift = b := by
        simp only [Bus.shift, hshifting, htx]
        split
        next hphase => exact absurd hphase (hread _ _)
        next => rfl
      have hwork : b.work = 0 := by rw [Bus.work, htx, hshifting]; rfl
      rw [hsame, hwork]
      exact ⟨h, rfl⟩
    | cons w tx =>
      have hshift : b.shift = { b with shifting := some w, tx } := by
        simp only [Bus.shift, hshifting, htx]
        split
        next hphase => exact absurd hphase (hread _ _)
        next => rw [if_pos (h.takes hscript hfull hshifting htx)]
      have hqueue : ({ b with shifting := some w, tx } : Bus).queue = b.queue := by
        rw [Bus.queue, Bus.queue, hshifting, htx]
        rfl
      rw [hshift]
      obtain ⟨sent, hwords, hchip⟩ := h.sent
      refine ⟨⟨⟨⟨sent, ?_, hchip⟩, h.quiet, h.enabled, h.writes⟩, h.free, ?_, ?_⟩, ?_⟩
      · rw [hqueue]
        exact hwords
      · rw [hqueue]
        exact h.awake
      · have hroom := h.room
        rw [htx, List.length_cons] at hroom
        exact Nat.le_of_succ_le hroom
      · rw [Bus.work, Bus.work, hshifting, htx]
        simp only [Option.toList_none, Option.toList_some, List.length_nil, List.length_cons]
        omega

theorem Flowing.push (h : Flowing before words b) (hroom : b.tx.length < 16) {w : TxWord} (hw : w.start = false) :
    Flowing before (words ++ [w]) (b.push w) := by
  obtain ⟨hsending, hlength⟩ := h.toSending.push hroom w
  have hpush := Bus.push_eq h.enabled hroom w
  refine ⟨hsending, ?_, ?_, ?_⟩
  · rw [hpush]
    exact h.free
  · rw [hpush, Bus.queue, ← List.append_assoc]
    intro hbusy x hx
    obtain hx | hx := List.mem_append.mp hx
    · exact h.awake hbusy x hx
    · rw [List.mem_singleton.mp hx]
      exact hw
  · rw [hlength]
    exact hroom

end flowing

end scu35.eeprom
