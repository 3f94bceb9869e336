import Scu35Miner.Software.Eeprom

open fips180 storage transition

namespace scu35.eeprom

/-- The status flags can be read apart. -/
theorem status_flags (busy full empty drained : Prop) [Decidable busy] [Decidable full] [Decidable empty]
    [Decidable drained] :
    let v : Word := (if busy then 4 else 0) ||| (if full then 0x10 else 0) ||| (if empty then 0x40 else 0) |||
      (if drained then 0x80 else 0)
    (v &&& 4 = 0 ↔ ¬busy) ∧ (v &&& 0x10 = 0 ↔ ¬full) ∧ (v &&& 0x40 = 0 ↔ ¬empty) ∧ (v &&& 0x80 = 0x80 ↔ drained) := by
  by_cases hbusy : busy <;> by_cases hfull : full <;> by_cases hempty : empty <;> by_cases hdrained : drained <;>
    simp [hbusy, hfull, hempty, hdrained]

theorem status_busy (b : Bus) : b.status &&& 4 = 0 ↔ b.bus_busy = false :=
  (status_flags _ _ _ _).1.trans (by rw [Bool.not_eq_true])

theorem status_full (b : Bus) : b.status &&& 0x10 = 0 ↔ b.tx.length < 16 :=
  (status_flags _ _ _ _).2.1.trans Nat.not_le

theorem status_received (b : Bus) : b.status &&& 0x40 = 0 ↔ b.rx ≠ [] :=
  (status_flags _ _ _ _).2.2.1.trans (not_congr List.isEmpty_iff)

theorem status_drained (b : Bus) : b.status &&& 0x80 = 0x80 ↔ b.tx = [] :=
  (status_flags _ _ _ _).2.2.2.trans List.isEmpty_iff

/-- Only events of `allowed` will happen. -/
def Allows (plan : Nat → Interval) (allowed : Event → Prop) : Prop := ∀ n, ∀ e ∈ (plan n).events, allowed e

theorem allows_any (plan : Nat → Interval) : Allows plan (fun _ => True) := fun _ _ _ => trivial

/-- The events of a bus without errors. -/
def Event.Calm (e : Event) : Prop := e = .shift ∨ e = .settle

/-- No bus errors, and in the time of the polls of `wait_status` the bus moves
some thirty words on. -/
structure Prompt (plan : Nat → Interval) : Prop where
  calm : Allows plan Event.Calm
  quick : ∀ n, 64 ≤ ∑ i ∈ Finset.range 100000, (plan (n + i)).events.count .shift

theorem Allows.tick {m : Machine} {allowed : Event → Prop} (h : Allows m.plan allowed) : Allows m.tick.plan allowed :=
  fun n => h (n + 1)

theorem Prompt.tick {m : Machine} (h : Prompt m.plan) : Prompt m.tick.plan where
  calm := h.calm.tick
  quick n := by
    have hquick := h.quick (n + 1)
    simp only [Nat.add_right_comm n 1] at hquick
    exact hquick

section keeps

variable {allowed : Event → Prop} {P : Bus → Prop}

theorem Machine.tick_keeps (hstep : ∀ b e, allowed e → P b → P (b.step e)) {m : Machine} (hplan : Allows m.plan allowed)
    (h : P m.bus) : P m.tick.bus := by
  have hrun : ∀ events : List Event, (∀ e ∈ events, allowed e) → ∀ b, P b → P (run Bus.step b events) := by
    intro events
    induction events with
    | nil => exact fun _ b hb => hb
    | cons e events ih =>
      intro hall b hb
      apply ih (fun x hx => hall x (List.mem_cons_of_mem _ hx))
      exact hstep b e (hall e List.mem_cons_self) hb
  exact hrun _ (hplan 0) _ h

/-- What polling keeps, and what it has seen when it ends well. -/
theorem poll_keeps (hstep : ∀ b e, allowed e → P b → P (b.step e)) (mask expected : Word) (n : Nat) {m : Machine}
    (hplan : Allows m.plan allowed) (h : P m.bus) :
    P (poll mask expected n m).2.bus ∧ Allows (poll mask expected n m).2.plan allowed ∧
      ((poll mask expected n m).1 = 0 ∧ (poll mask expected n m).2.bus.status &&& mask = expected ∨
        (poll mask expected n m).1 = -1) := by
  induction n generalizing m with
  | zero => exact ⟨h, hplan, .inr rfl⟩
  | succ n ih =>
    have htick := Machine.tick_keeps hstep hplan h
    rw [poll]
    split
    next hseen => exact ⟨htick, hplan.tick, .inl ⟨rfl, hseen⟩⟩
    next => exact ih hplan.tick htick

theorem poll_prompt (mask expected : Word) (n : Nat) {m : Machine} (h : Prompt m.plan) :
    Prompt (poll mask expected n m).2.plan := by
  induction n generalizing m with
  | zero => exact h
  | succ n ih =>
    rw [poll]
    split
    · exact h.tick
    · exact ih h.tick

end keeps

section work

variable {P : Nat → Bus → Prop}

theorem Machine.tick_work (hsettle : ∀ w b, P w b → P w (b.step .settle))
    (hshift : ∀ w b, P w b → P (w - 1) (b.step .shift)) {m : Machine} (hplan : Allows m.plan Event.Calm) {w : Nat}
    (h : P w m.bus) : P (w - (m.plan 0).events.count .shift) m.tick.bus := by
  have hrun : ∀ events : List Event, (∀ e ∈ events, e.Calm) → ∀ w b, P w b →
      P (w - events.count .shift) (run Bus.step b events) := by
    intro events
    induction events with
    | nil => exact fun _ w b hb => hb
    | cons e events ih =>
      intro hall w b hb
      have hrest := ih (fun x hx => hall x (List.mem_cons_of_mem _ hx))
      obtain rfl | rfl := hall e List.mem_cons_self
      · have h := hrest _ _ (hshift w b hb)
        rwa [Nat.sub_sub, Nat.add_comm, ← List.count_cons_self] at h
      · have h := hrest _ _ (hsettle w b hb)
        rwa [← List.count_cons_of_ne (a := Event.shift) (b := Event.settle) (by decide)] at h
  exact hrun _ (hplan 0) w _ h

/-- Polling sees what it waits for when the bus has the time to finish its work. -/
theorem poll_returns (hsettle : ∀ w b, P w b → P w (b.step .settle))
    (hshift : ∀ w b, P w b → P (w - 1) (b.step .shift)) {mask expected : Word}
    (hdone : ∀ b, P 0 b → b.status &&& mask = expected) {n : Nat} (hn : 0 < n) {m : Machine}
    (hplan : Allows m.plan Event.Calm) {w : Nat} (h : P w m.bus)
    (henough : w ≤ ∑ i ∈ Finset.range n, (m.plan i).events.count .shift) : (poll mask expected n m).1 = 0 := by
  induction n generalizing m w with
  | zero => exact absurd hn (Nat.lt_irrefl 0)
  | succ n ih =>
    have htick := Machine.tick_work hsettle hshift hplan h
    rw [poll]
    split
    next => rfl
    next hunseen =>
      have hleft : w - (m.plan 0).events.count .shift ≠ 0 := by
        intro hzero
        rw [hzero] at htick
        exact hunseen (hdone _ htick)
      rw [Finset.sum_range_succ'] at henough
      have hpos : 0 < n := by
        apply Nat.pos_of_ne_zero
        rintro rfl
        rw [Finset.sum_range_zero] at henough
        omega
      apply ih hpos hplan.tick htick
      change _ ≤ ∑ i ∈ Finset.range n, (m.plan (i + 1)).events.count .shift
      omega

end work

/-- `wait_status` in a machine whose bus keeps a property. -/
theorem wait_status_keeps {allowed : Event → Prop} {P : Bus → Prop}
    (hstep : ∀ b e, allowed e → P b → P (b.step e)) (mask expected : Word) {m : Machine}
    (hplan : Allows m.plan allowed) (h : P m.bus) :
    P (wait_status m mask expected).2.bus ∧ Allows (wait_status m mask expected).2.plan allowed ∧
      ((wait_status m mask expected).1 = 0 ∧ (wait_status m mask expected).2.bus.status &&& mask = expected ∨
        (wait_status m mask expected).1 = -1) :=
  poll_keeps hstep mask expected 100000 hplan h

theorem wait_status_prompt (mask expected : Word) {m : Machine} (h : Prompt m.plan) :
    Prompt (wait_status m mask expected).2.plan := poll_prompt mask expected 100000 h

theorem wait_status_returns {P : Nat → Bus → Prop} (hsettle : ∀ w b, P w b → P w (b.step .settle))
    (hshift : ∀ w b, P w b → P (w - 1) (b.step .shift)) {mask expected : Word}
    (hdone : ∀ b, P 0 b → b.status &&& mask = expected) {m : Machine} (hprompt : Prompt m.plan) {w : Nat} (hw : w ≤ 64)
    (h : P w m.bus) : (wait_status m mask expected).1 = 0 := by
  have hquick := hprompt.quick 0
  simp only [Nat.zero_add] at hquick
  exact poll_returns hsettle hshift hdone (by decide) hprompt.calm h (hw.trans hquick)

end scu35.eeprom
