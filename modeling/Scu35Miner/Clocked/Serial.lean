import Mathlib

namespace clocked

variable {Q A : Type}

/-- Where a server that has one request at a time in hand stands with it. -/
inductive Phase (Q : Type) where
  | idle
  | offered (q : Q)
  | accepted (q : Q)
  | served (q : Q)

/-- What happens in one cycle: a request is accepted, it is carried out, its
response is taken. -/
structure Happening (Q : Type) where
  accepts : Option Q
  executes : Bool
  answers : Bool

/-- The cycles of such a server. -/
inductive Moves : Phase Q → Happening Q → Phase Q → Prop where
  | wait : Moves .idle ⟨none, false, false⟩ .idle
  | offer (q : Q) : Moves .idle ⟨none, false, false⟩ (.offered q)
  | accept (q : Q) : Moves (.offered q) ⟨some q, false, false⟩ (.accepted q)
  | execute (q : Q) : Moves (.accepted q) ⟨none, true, false⟩ (.served q)
  | hold (q : Q) : Moves (.served q) ⟨none, false, false⟩ (.served q)
  | answer (q : Q) : Moves (.served q) ⟨none, false, true⟩ .idle

section Counts

variable (events : Nat → Happening Q) (t : Nat)

/-- The requests accepted before cycle `t`, in order. -/
def requests : List Q := (List.range t).filterMap fun u => (events u).accepts

/-- How many of them were carried out. -/
def executed : Nat := (List.range t).countP fun u => (events u).executes

/-- How many of them were answered. -/
def answered : Nat := (List.range t).countP fun u => (events u).answers

@[simp] theorem requests_zero : requests events 0 = [] := rfl

@[simp] theorem executed_zero : executed events 0 = 0 := rfl

@[simp] theorem answered_zero : answered events 0 = 0 := rfl

theorem requests_succ : requests events (t + 1) = requests events t ++ (events t).accepts.toList := by
  rw [requests, List.range_succ, List.filterMap_append]
  cases h : (events t).accepts <;> simp [requests, h]

theorem executed_succ : executed events (t + 1) = executed events t + (events t).executes.toNat := by
  rw [executed, List.range_succ, List.countP_append]
  cases h : (events t).executes <;> simp [executed, h]

theorem answered_succ : answered events (t + 1) = answered events t + (events t).answers.toNat := by
  rw [answered, List.range_succ, List.countP_append]
  cases h : (events t).answers <;> simp [answered, h]

end Counts

/-- What the phase says about the requests accepted, carried out and answered so
far. -/
inductive Balanced : Phase Q → List Q → Nat → Nat → Prop where
  | idle (l : List Q) : Balanced .idle l l.length l.length
  | offered (l : List Q) (q : Q) : Balanced (.offered q) l l.length l.length
  | accepted (l : List Q) (q : Q) : Balanced (.accepted q) (l ++ [q]) l.length l.length
  | served (l : List Q) (q : Q) : Balanced (.served q) (l ++ [q]) (l.length + 1) l.length

theorem Balanced.counts {phase : Phase Q} {l : List Q} {n m : Nat} (h : Balanced phase l n m) :
    m ≤ n ∧ n ≤ l.length ∧ l.length ≤ m + 1 := by
  cases h with
  | idle => omega
  | offered => omega
  | accepted =>
    rw [List.length_append, List.length_singleton]
    omega
  | served =>
    rw [List.length_append, List.length_singleton]
    omega

theorem Balanced.move {phase phase' : Phase Q} {e : Happening Q} {l : List Q} {n m : Nat} (h : Balanced phase l n m)
    (hmove : Moves phase e phase') :
    Balanced phase' (l ++ e.accepts.toList) (n + e.executes.toNat) (m + e.answers.toNat) := by
  cases hmove with
  | wait =>
    cases h with
    | idle =>
      simpa using Balanced.idle l
  | offer q =>
    cases h with
    | idle =>
      simpa using Balanced.offered l q
  | accept q =>
    cases h with
    | offered => exact .accepted l q
  | execute q =>
    cases h with
    | accepted l =>
      simpa using Balanced.served l q
  | hold q =>
    cases h with
    | served l =>
      simpa using Balanced.served l q
  | answer q =>
    cases h with
    | served l =>
      simpa using Balanced.idle (l ++ [q])

/-- A relation between cycles and phases that every cycle of the machine keeps
moves as a server of one request at a time does. -/
structure Serial (events : Nat → Happening Q) (holds : Nat → Phase Q → Prop) : Prop where
  start : holds 0 .idle
  move : ∀ t phase, holds t phase → ∃ phase', Moves phase (events t) phase' ∧ holds (t + 1) phase'

section Server

variable {events : Nat → Happening Q} {holds : Nat → Phase Q → Prop}

/-- In every cycle at most one request is unanswered. -/
theorem Serial.balanced (h : Serial events holds) (t : Nat) :
    ∃ phase, holds t phase ∧ Balanced phase (requests events t) (executed events t) (answered events t) := by
  induction t with
  | zero => exact ⟨.idle, h.start, .idle []⟩
  | succ t ih =>
    obtain ⟨phase, hphase, hbalanced⟩ := ih
    obtain ⟨phase', hmove, hphase'⟩ := h.move t phase hphase
    refine ⟨phase', hphase', ?_⟩
    rw [requests_succ, executed_succ, answered_succ]
    exact hbalanced.move hmove

/-- A store that changes with the requests that are carried out, and with nothing
else, holds their effects in the order of acceptance. -/
theorem Serial.store {M : Type} (h : Serial events holds) (store : Nat → M) {write : M → Q → M}
    (hexecute : ∀ t q, holds t (.accepted q) → store (t + 1) = write (store t) q)
    (hkeep : ∀ t, (events t).executes = false → store (t + 1) = store t) (t : Nat) :
    store t = ((requests events t).take (executed events t)).foldl write (store 0) := by
  induction t with
  | zero => rfl
  | succ t ih =>
    obtain ⟨phase, hphase, hbalanced⟩ := h.balanced t
    obtain ⟨phase', hmove, -⟩ := h.move t phase hphase
    have hle := hbalanced.counts
    rw [requests_succ, executed_succ]
    cases hexecutes : (events t).executes with
    | false =>
      rw [hkeep t hexecutes, ih, Bool.toNat_false, Nat.add_zero, List.take_append_of_le_length hle.2.1]
    | true =>
      generalize hevent : events t = event at hmove hexecutes
      cases hmove with
      | execute q =>
        rw [hexecute t q hphase, ih]
        generalize requests events t = log, executed events t = n, answered events t = m at hbalanced
        cases hbalanced with
        | accepted l =>
          simp [List.take_append, List.take_of_length_le (Nat.le_succ l.length)]
      | _ => cases hexecutes

/-- Responses that hold the value of the request they answer come in the order of
acceptance. -/
theorem Serial.responses {A : Type} (h : Serial events holds) (response : Nat → A) {value : Q → A}
    (hserved : ∀ t q, holds t (.served q) → response t = value q) (t : Nat) :
    (List.range t).filterMap (fun u => if (events u).answers then some (response u) else none) =
      ((requests events t).take (answered events t)).map value := by
  induction t with
  | zero => rfl
  | succ t ih =>
    obtain ⟨phase, hphase, hbalanced⟩ := h.balanced t
    obtain ⟨phase', hmove, -⟩ := h.move t phase hphase
    have hle := hbalanced.counts
    rw [List.range_succ, List.filterMap_append, ih, requests_succ, answered_succ]
    cases hanswers : (events t).answers with
    | false =>
      rw [Bool.toNat_false, Nat.add_zero, List.take_append_of_le_length (hle.1.trans hle.2.1)]
      simp [hanswers]
    | true =>
      generalize hevent : events t = event at hmove hanswers
      cases hmove with
      | answer q =>
        have hvalue := hserved t q hphase
        generalize requests events t = log, executed events t = n, answered events t = m at hbalanced
        cases hbalanced with
        | served l =>
          simp [hevent, hvalue, List.take_append]
      | _ => cases hanswers

end Server

/-- The latest write that hits a place decides what it holds. -/
theorem foldl_latest {M W B : Type} (read : M → B) {write : M → W → M} {hit : W → Option B}
    (hwrite : ∀ m w, read (write m w) = (hit w).getD (read m)) (m : M) (writes : List W) :
    read (writes.foldl write m) = ((writes.filterMap hit).getLast?).getD (read m) := by
  induction writes using List.reverseRecOn with
  | nil => rfl
  | append_singleton writes w ih =>
    rw [List.foldl_append, List.foldl_cons, List.foldl_nil, hwrite, List.filterMap_append]
    cases hhit : hit w with
    | none => simp [hhit, ih]
    | some b => simp [hhit]

end clocked
