import Scu35Miner.Software.Eeprom.Read

open fips180 storage transition

namespace scu35.eeprom

/-- The number of words of a read that have left the queue, by what the EEPROM
is doing. An idle EEPROM may have missed any of them. -/
def Phase.Follows (phase : Phase) (i : Nat) : Prop :=
  match phase with
  | .idle => True
  | .selected none => i = 1
  | .selected (some _) => i = 2
  | .writing bytes => bytes = [] ∧ i = 3
  | .counting => i = 4
  | .reading _ _ => i = 5

/-- A read of which the processor has sent `words`, whatever the bus has done.
Once a byte has been received, which `got` records, no word is left. -/
structure Unwritten (cells : Cells Byte) (words : List TxWord) (got : Prop) (b : Bus) : Prop where
  progress : ∃ i ≤ words.length, b.queue = words.drop i ∧ b.chip.phase.Follows i
  cells : b.chip.cells = cells
  enabled : b.cr = 1
  caught : got ∨ b.rx ≠ [] → b.queue = [] ∧ 5 ≤ words.length

section unwritten

variable {cells : Cells Byte} {address : BitVec 16} {n : Nat} {words : List TxWord} {got : Prop} {b : Bus}

/-- Ending a transaction without latched bytes writes nothing. -/
theorem finish_unwritten {c : M24C64} {i : Nat} (h : c.phase.Follows i) (stop : Bool) :
    (c.finish stop).cells = c.cells := by
  unfold M24C64.finish
  split
  next bytes hphase =>
    rw [hphase] at h
    obtain ⟨rfl, -⟩ := h
    cases stop <;> rfl
  · rfl

theorem Unwritten.abort (h : Unwritten cells words got b) (flag : Word) (stop : Bool) :
    Unwritten cells words got (b.abort flag stop) := by
  unfold Bus.abort
  split
  · exact h
  obtain ⟨i, -, -, hphase⟩ := h.progress
  refine ⟨⟨words.length, Nat.le_refl _, (List.drop_length).symm, ?_⟩, ?_, h.enabled, fun hgot => ⟨rfl, (h.caught hgot).2⟩⟩
  · change (b.chip.finish stop).phase.Follows _
    rw [M24C64.finish_phase]
    trivial
  · exact (finish_unwritten hphase stop).trans h.cells

theorem send_idle {c : M24C64} (h : c.phase = .idle) {x : TxWord} (hx : x.start = false) : c.send x = c := by
  have hlatch : c.latch x.byte = c := by rw [M24C64.latch, h]
  have hstart : ¬x.start = true := by
    rw [hx]
    exact Bool.false_ne_true
  rw [M24C64.send, if_neg hstart, h]
  dsimp only
  rw [hlatch, M24C64.finish_idle h, ite_self]

/-- The `i`th word of a read, sent to an EEPROM that may have seen all before it. -/
theorem send_unwritten {c : M24C64} {x : TxWord} {i : Nat} (hx : (read_words address n)[i]? = some x)
    (hphase : c.phase.Follows i) : (c.send x).phase.Follows (i + 1) ∧ (c.send x).cells = c.cells := by
  have hcells := finish_unwritten hphase
  obtain ⟨contents, counter, phase, ended⟩ := c
  match i, hx with
  | 0, rfl => exact ⟨rfl, hcells false⟩
  | 3, rfl => exact ⟨rfl, hcells false⟩
  | 1, rfl =>
    match phase, hphase with
    | .idle, _ =>
      rw [send_idle rfl rfl]
      exact ⟨trivial, rfl⟩
    | .selected none, _ => exact ⟨rfl, rfl⟩
  | 2, rfl =>
    match phase, hphase with
    | .idle, _ =>
      rw [send_idle rfl rfl]
      exact ⟨trivial, rfl⟩
    | .selected (some high), _ => exact ⟨⟨rfl, rfl⟩, rfl⟩
  | 4, rfl =>
    match phase, hphase with
    | .idle, _ =>
      rw [send_idle rfl rfl]
      exact ⟨trivial, rfl⟩
    | .counting, _ => exact ⟨rfl, rfl⟩

theorem Unwritten.complete (hwithin : words <+: read_words address n) (h : Unwritten cells words got b) {x : TxWord}
    (hshifting : b.shifting = some x) : Unwritten cells words got (b.complete x) := by
  unfold Bus.complete
  split
  · exact h.abort 2 false
  obtain ⟨i, hi, hqueue, hphase⟩ := h.progress
  have hnow : b.queue = x :: b.tx := by rw [Bus.queue, hshifting]; rfl
  have hword : words[i]? = some x := by
    rw [← List.head?_drop, ← hqueue, hnow]
    rfl
  have hlt : i < words.length := (List.getElem?_eq_some_iff.mp hword).1
  have hfull : (read_words address n)[i]? = some x := by
    obtain ⟨more, hmore⟩ := hwithin
    rw [← hmore, List.getElem?_append_left hlt, hword]
  obtain ⟨hnext, hsame⟩ := send_unwritten hfull hphase
  refine ⟨⟨i + 1, hlt, ?_, hnext⟩, hsame.trans h.cells, h.enabled, fun hgot => ?_⟩
  · change b.tx = _
    rw [← List.tail_drop, ← hqueue, hnow]
    rfl
  · have hempty := (h.caught hgot).1
    rw [hnow] at hempty
    cases hempty

theorem Unwritten.shift (hwithin : words <+: read_words address n) (h : Unwritten cells words got b) :
    Unwritten cells words got b.shift := by
  obtain ⟨i, hi, hqueue, hphase⟩ := h.progress
  unfold Bus.shift
  split
  next x hshifting => exact h.complete hwithin hshifting
  next hnone =>
    split
    next left stop hreading =>
      split
      · have hlength := hwithin.length_le
        rw [length_read_words] at hlength
        have hlast : i = 5 := by
          rw [hreading] at hphase
          exact hphase
        have hempty : b.queue = [] := by
          rw [hqueue, List.drop_eq_nil_iff]
          omega
        refine ⟨⟨i, hi, hqueue, ?_⟩, ?_, h.enabled, fun _ => ⟨hempty, hlast ▸ hi⟩⟩
        · change b.chip.receive.phase.Follows i
          rw [M24C64.receive, hreading]
          dsimp only
          split
          · trivial
          · exact hlast
        · change b.chip.receive.cells = cells
          rw [M24C64.receive, hreading]
          exact h.cells
      · exact h
    · split
      · exact h
      next x tx htx =>
        split
        · have hsame : ({ b with shifting := some x, tx } : Bus).queue = b.queue := by
            rw [Bus.queue, Bus.queue, hnone, htx]
            rfl
          refine ⟨⟨i, hi, ?_, hphase⟩, h.cells, h.enabled, ?_⟩
          · rw [hsame]
            exact hqueue
          · rw [hsame]
            exact h.caught
        · exact h

theorem Unwritten.step (hwithin : words <+: read_words address n) (b : Bus) (e : Event)
    (h : Unwritten cells words got b) : Unwritten cells words got (b.step e) := by
  cases e with
  | shift => exact h.shift hwithin
  | settle | hold held => exact ⟨h.progress, h.cells, h.enabled, h.caught⟩
  | arbitration_lost stop => exact h.abort 1 stop
  | no_acknowledge stop => exact h.abort 2 stop

theorem Unwritten.push (h : Unwritten cells words got b) {x : TxWord}
    (hwithin : words ++ [x] <+: read_words address n) : Unwritten cells (words ++ [x]) got (b.push x) := by
  obtain ⟨i, hi, hqueue, hphase⟩ := h.progress
  have hlength := hwithin.length_le
  rw [List.length_append, length_read_words, List.length_singleton] at hlength
  have hroom : b.tx.length < 16 := by
    have hparts := congrArg List.length hqueue
    rw [Bus.queue, List.length_append, List.length_drop] at hparts
    omega
  rw [Bus.push_eq h.enabled hroom]
  refine ⟨⟨i, ?_, ?_, hphase⟩, h.cells, h.enabled, ?_⟩
  · rw [List.length_append]
    omega
  · rw [List.drop_append_of_le_length hi, ← hqueue, Bus.queue, Bus.queue, List.append_assoc]
  · intro hgot
    have hall := (h.caught hgot).2
    omega

theorem Unwritten.tick {m : Machine} (hwithin : words <+: read_words address n)
    (h : Unwritten cells words got m.bus) : Unwritten cells words got m.tick.bus :=
  Machine.tick_keeps (fun b e _ => Unwritten.step hwithin b e) (allows_any m.plan) h

theorem Unwritten.wr_word {m : Machine} (h : Unwritten cells words got m.bus) {x : TxWord}
    (hwithin : words ++ [x] <+: read_words address n) {v : Word} (hv : TxWord.of v = x) :
    Unwritten cells (words ++ [x]) got (wr m 0x108 v).bus := by
  have hbus : (wr m 0x108 v).bus = m.tick.bus.push x := by rw [wr, Bus.write_tx, hv]
  rw [hbus]
  exact (h.tick ((List.prefix_append _ _).trans hwithin)).push hwithin

theorem Unwritten.wait_status {m : Machine} (h : Unwritten cells (read_words address n) got m.bus)
    (mask expected : Word) :
    Unwritten cells (read_words address n) got (wait_status m mask expected).2.bus ∧
      ((wait_status m mask expected).1 = 0 ∧ (wait_status m mask expected).2.bus.status &&& mask = expected ∨
        (wait_status m mask expected).1 = -1) := by
  obtain ⟨hkept, -, hresult⟩ := wait_status_keeps (fun b e _ => Unwritten.step (List.prefix_refl _) b e)
    mask expected (allows_any m.plan) h
  exact ⟨hkept, hresult⟩

/-- The bus at rest with the contents of the EEPROM as they were. -/
structure Kept (cells : Cells Byte) (b : Bus) : Prop where
  idle : b.Idle
  cells : b.chip.cells = cells

theorem Unwritten.wr_reset {m : Machine} (h : Unwritten cells (read_words address n) got m.bus) :
    Kept cells (wr m 0x40 10).bus := by
  have htick := h.tick (List.prefix_refl _)
  obtain ⟨i, -, -, hphase⟩ := htick.progress
  exact ⟨⟨M24C64.finish_phase _ _, rfl, rfl⟩, (finish_unwritten hphase _).trans htick.cells⟩

theorem read_bytes_unwritten (left : Nat) {m : Machine} (h : Unwritten cells (read_words address n) got m.bus)
    (p : Nat) (buffer : Cells Byte) :
    (read_bytes left m p buffer).1 = 0 ∧
        Unwritten cells (read_words address n) (got ∨ 0 < left) (read_bytes left m p buffer).2.1.bus ∨
      (read_bytes left m p buffer).1 = -1 ∧ Kept cells (read_bytes left m p buffer).2.1.bus := by
  induction left generalizing got m p buffer with
  | zero =>
    refine .inl ⟨rfl, h.progress, h.cells, h.enabled, ?_⟩
    rintro ((hgot | hlt) | hrx)
    · exact h.caught (.inl hgot)
    · exact absurd hlt (Nat.lt_irrefl 0)
    · exact h.caught (.inr hrx)
  | succ left ih =>
    obtain ⟨hwait, hresult⟩ := h.wait_status 0x40 0
    rw [read_bytes]
    split
    · exact .inr ⟨rfl, hwait.wr_reset⟩
    next hok =>
      obtain ⟨-, hseen⟩ | hbad := hresult
      swap
      · rw [hbad] at hok
        exact absurd (by decide) hok
      have htick := hwait.tick (List.prefix_refl _)
      have hsome : (eeprom.wait_status m 0x40 0).2.tick.bus.rx ≠ [] :=
        Machine.tick_keeps (P := fun b => b.rx ≠ []) (fun b e _ => b.step_rx e) (allows_any _)
          ((status_received _).mp hseen)
      have htaken : Unwritten cells (read_words address n) True (rd (eeprom.wait_status m 0x40 0).2 0x10c).2.bus :=
        ⟨htick.progress, htick.cells, htick.enabled, fun _ => htick.caught (.inr hsome)⟩
      obtain ⟨hzero, hrest⟩ | hfail := ih htaken (p + 1)
        (Function.update buffer p ((rd (eeprom.wait_status m 0x40 0).2 0x10c).1.setWidth 8))
      · refine .inl ⟨hzero, hrest.progress, hrest.cells, hrest.enabled, fun _ => hrest.caught (.inl (.inl trivial))⟩
      · exact .inr hfail

/-- Whatever happens on the bus, a read leaves the EEPROM as it was. -/
theorem read_chunk_kept {m : Machine} (hidle : m.bus.Idle) (address : BitVec 16) (hn : 0 < n) (hmax : n ≤ 16)
    (p : Nat) (buffer : Cells Byte) :
    Kept m.bus.chip.cells (read_chunk m address n p buffer).2.1.bus ∧
      ((read_chunk m address n p buffer).1 = 0 ∨ (read_chunk m address n p buffer).1 = -1) := by
  have hrest : Resting False False False m.bus.core m := ⟨rfl, False.elim, False.elim, False.elim⟩
  rw [read_chunk]
  dsimp only
  obtain ⟨hfail, hafter, -⟩ | ⟨m', hprimed, hstart⟩ := start_spec hrest hidle.core address
  · rw [hfail, if_pos (by decide)]
    have hcells := cells_of_core hafter.core
    exact ⟨⟨Bus.Idle.of_core hafter.core hidle.core, hcells⟩, .inr rfl⟩
  have hcontinue : ¬(0 : Int) ≠ 0 := by decide
  rw [hstart, if_neg hcontinue]
  have hnone : Unwritten m.bus.chip.cells [] False m'.bus := by
    rw [Bus.eq_of_core hprimed.core]
    refine ⟨⟨0, Nat.le_refl 0, rfl, ?_⟩, rfl, rfl, ?_⟩
    · change m.bus.chip.phase.Follows 0
      rw [hidle.phase]
      trivial
    · rintro (hgot | hrx)
      · exact hgot.elim
      · exact absurd rfl hrx
  have hfirst : [] ++ [(⟨true, false, 0xa0⟩ : TxWord)] <+: read_words address n := ⟨_, rfl⟩
  have hone := hnone.wr_word (v := 0x1a0) hfirst (by decide)
  have htwo := hone.wr_word (n := n) ⟨_, rfl⟩ (of_high address)
  have hthree := htwo.wr_word (n := n) ⟨_, rfl⟩ (of_low address)
  have hfour := hthree.wr_word (x := ⟨true, false, 0xa1⟩) (v := 0x1a1) (n := n) ⟨_, rfl⟩ (by decide)
  have hfive := hfour.wr_word ⟨[], rfl⟩ (of_count hmax)
  obtain ⟨hok, hfetched⟩ | ⟨hfail, hkept⟩ := read_bytes_unwritten n hfive p buffer
  swap
  · rw [hfail, if_pos (by decide)]
    exact ⟨hkept, .inr rfl⟩
  rw [hok, if_neg hcontinue]
  obtain ⟨hfree, hresult⟩ := Unwritten.wait_status hfetched 4 0
  split
  · exact ⟨hfree.wr_reset, .inr rfl⟩
  next hok =>
    split
    · have htick : Unwritten _ _ _ (rd (eeprom.wait_status _ 4 0).2 0x20).2.bus := hfree.tick (List.prefix_refl _)
      exact ⟨htick.wr_reset, .inr rfl⟩
    · obtain ⟨-, hseen⟩ | hbad := hresult
      swap
      · rw [hbad] at hok
        exact absurd (by decide) hok
      obtain ⟨hempty, -⟩ := hfree.caught (.inl (.inr hn))
      have hdone := idle_of_free ((status_busy _).mp hseen) (by rw [tx_of_queue hempty]; exact Nat.le_refl 0)
      have hcore := Machine.tick_core hdone
      refine ⟨⟨Bus.Idle.of_core hcore hdone.core, ?_⟩, .inl rfl⟩
      exact (cells_of_core hcore).trans hfree.cells

end unwritten

end scu35.eeprom
