import Mathlib

namespace storage

/-- An array of cells, of which only the indices in bounds matter. -/
abbrev Cells (α : Type) := Nat → α

variable {α β γ : Type}

/-- `memcpy(b + off, src, n)`. -/
def copy (b : Cells α) (off : Nat) (src : Cells α) (n : Nat) : Cells α :=
  fun i => if off ≤ i ∧ i < off + n then src (i - off) else b i

theorem copy_inside (b : Cells α) {off : Nat} (src : Cells α) {n i : Nat} (hlo : off ≤ i) (hhi : i < off + n) :
    copy b off src n i = src (i - off) := if_pos ⟨hlo, hhi⟩

theorem copy_outside (b : Cells α) {off : Nat} (src : Cells α) {n i : Nat} (h : i < off ∨ off + n ≤ i) :
    copy b off src n i = b i := if_neg (by omega)

@[simp] theorem copy_zero (b : Cells α) (off : Nat) (src : Cells α) : copy b off src 0 = b := by
  funext i
  exact copy_outside b src (by omega)

/-- What may go wrong in one access to the device. `done` cells of the access
have been written by then. -/
inductive Fault where
  | error (done : Nat)
  | power_loss (done : Nat)
deriving DecidableEq, Repr

/-- Storage with the outcomes of the accesses to come, `none` for success.
After the planned ones all accesses succeed. -/
structure Device (α : Type) where
  cells : Cells α
  plan : List (Option Fault)

/-- The result of a computation over a device: a value, or power loss with the
contents that are left. -/
inductive Outcome (α β : Type) where
  | value (b : β) (d : Device α)
  | lost (cells : Cells α)

def Outcome.bind (o : Outcome α β) (f : β → Device α → Outcome α γ) : Outcome α γ :=
  match o with
  | .value b d => f b d
  | .lost cells => .lost cells

/-- The contents of the device afterwards, whether or not power was lost. -/
def Outcome.cells : Outcome α β → Cells α
  | .value _ d => d.cells
  | .lost cells => cells

/-- A read of cells from `addr` on: faithful, or `none` for an error. -/
def Device.read (d : Device α) (addr : Nat) : Outcome α (Option (Cells α)) :=
  match d.plan with
  | [] => .value (some fun i => d.cells (addr + i)) d
  | none :: plan => .value (some fun i => d.cells (addr + i)) { d with plan }
  | some (.error _) :: plan => .value none { d with plan }
  | some (.power_loss _) :: _ => .lost d.cells

/-- A write of the first `n` cells of `src`, in order; `false` for an error. -/
def Device.write (d : Device α) (addr : Nat) (src : Cells α) (n : Nat) : Outcome α Bool :=
  match d.plan with
  | [] => .value true { d with cells := copy d.cells addr src n }
  | none :: plan => .value true { cells := copy d.cells addr src n, plan }
  | some (.error done) :: plan => .value false { cells := copy d.cells addr src (min done n), plan }
  | some (.power_loss done) :: _ => .lost (copy d.cells addr src (min done n))

/-- The outcome planned for the access after `i` others. -/
def fault (plan : List (Option Fault)) (i : Nat) : Option Fault := plan.getD i none

@[simp] theorem fault_tail (plan : List (Option Fault)) (i : Nat) : fault plan.tail i = fault plan (i + 1) := by
  cases plan with
  | nil => rfl
  | cons first rest => rfl

/-- A read by the fault that is planned for it. -/
theorem Device.read_eq (d : Device α) (addr : Nat) :
    d.read addr =
      match fault d.plan 0 with
      | none => .value (some fun i => d.cells (addr + i)) ⟨d.cells, d.plan.tail⟩
      | some (.error _) => .value none ⟨d.cells, d.plan.tail⟩
      | some (.power_loss _) => .lost d.cells := by
  obtain ⟨cells, plan⟩ := d
  match plan with
  | [] | none :: _ | some (.error _) :: _ | some (.power_loss _) :: _ => rfl

/-- A write by the fault that is planned for it. -/
theorem Device.write_eq (d : Device α) (addr : Nat) (src : Cells α) (n : Nat) :
    d.write addr src n =
      match fault d.plan 0 with
      | none => .value true ⟨copy d.cells addr src n, d.plan.tail⟩
      | some (.error done) => .value false ⟨copy d.cells addr src (min done n), d.plan.tail⟩
      | some (.power_loss done) => .lost (copy d.cells addr src (min done n)) := by
  obtain ⟨cells, plan⟩ := d
  match plan with
  | [] | none :: _ | some (.error _) :: _ | some (.power_loss _) :: _ => rfl

/-- A postcondition on the value, and a condition on the contents that a power
loss may leave. -/
def Outcome.Ends (o : Outcome α β) (post : β → Device α → Prop) (crash : Cells α → Prop) : Prop :=
  match o with
  | .value b d => post b d
  | .lost cells => crash cells

theorem Outcome.Ends.bind {o : Outcome α β} {f : β → Device α → Outcome α γ}
    {mid : β → Device α → Prop} {post : γ → Device α → Prop} {crash : Cells α → Prop}
    (h : o.Ends mid crash) (hf : ∀ b d, mid b d → (f b d).Ends post crash) : (o.bind f).Ends post crash := by
  cases o with
  | value b d => exact hf b d h
  | lost cells => exact h

theorem Device.read_ends (d : Device α) (addr : Nat) {crash : Cells α → Prop} (hcrash : crash d.cells) :
    (d.read addr).Ends
      (fun b d' => d'.cells = d.cells ∧ (b = none ∨ b = some fun i => d.cells (addr + i))) crash := by
  unfold Device.read
  split
  · exact ⟨rfl, .inr rfl⟩
  · exact ⟨rfl, .inr rfl⟩
  · exact ⟨rfl, .inl rfl⟩
  · exact hcrash

/-- A write leaves a prefix of its cells, all of them when it succeeds. -/
theorem Device.write_ends (d : Device α) (addr : Nat) (src : Cells α) (n : Nat) {crash : Cells α → Prop}
    (hcrash : ∀ k ≤ n, crash (copy d.cells addr src k)) :
    (d.write addr src n).Ends
      (fun ok d' => ∃ k ≤ n, d'.cells = copy d.cells addr src k ∧ (ok = true → k = n)) crash := by
  unfold Device.write
  split
  · exact ⟨n, Nat.le_refl n, rfl, fun _ => rfl⟩
  · exact ⟨n, Nat.le_refl n, rfl, fun _ => rfl⟩
  · exact ⟨_, Nat.min_le_right _ _, rfl, fun h => absurd h (by decide)⟩
  · exact hcrash _ (Nat.min_le_right _ _)

/-- Two bounds on the same outcome, one of them for power loss as well. -/
theorem Outcome.Ends.cells {o : Outcome α β} {P : Cells α → Prop}
    (h : o.Ends (fun _ d => P d.cells) P) : P o.cells := by
  cases o with
  | value b d => exact h
  | lost cells => exact h

theorem Outcome.Ends.mono {o : Outcome α β} {post post' : β → Device α → Prop} {crash crash' : Cells α → Prop}
    (h : o.Ends post crash) (hpost : ∀ b d, post b d → post' b d) (hcrash : ∀ c, crash c → crash' c) :
    o.Ends post' crash' := by
  cases o with
  | value b d => exact hpost b d h
  | lost cells => exact hcrash cells h

end storage
