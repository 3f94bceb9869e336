import Scu35Miner.Software.Settings.Save

open fips180 storage

namespace scu35.settings

/-- The commit byte is written, and then an error is reported: by the write of
the commit byte itself, or by the read that verifies it. -/
def CommitLost (plan : List (Option Fault)) : Prop :=
  (∀ i < 5, fault plan i = none) ∧
    ((∃ k, fault plan 5 = some (.error (k + 1))) ∨ (fault plan 5 = none ∧ ∃ k, fault plan 6 = some (.error k)))

/-- The contents that a completed save of `s` leaves. -/
def saved (m : Cells Byte) (s : miner_settings) : Cells Byte :=
  sealed m (slots_of m).next_addr (record s (slots_of m).next_seq)

theorem read_slots_ok (d : Device Byte) (h0 : fault d.plan 0 = none) (h1 : fault d.plan 1 = none) :
    read_slots d = .value (slots_of d.cells) ⟨d.cells, d.plan.tail.tail⟩ := by
  rw [read_slots, Device.read_eq, h0]
  dsimp only [Outcome.bind]
  rw [Device.read_eq, fault_tail, h1]
  rfl

/-- A fault in the first two reads leaves a save without slots. -/
theorem read_slots_failed (d : Device Byte) (h : ¬(fault d.plan 0 = none ∧ fault d.plan 1 = none)) :
    (∃ slots plan, slots.active = .failed ∧ read_slots d = .value slots ⟨d.cells, plan⟩) ∨
      read_slots d = .lost d.cells := by
  rw [read_slots, Device.read_eq]
  match h0 : fault d.plan 0 with
  | some (.error k) => exact .inl ⟨⟨.failed, fun _ => 0, fun _ => 0⟩, d.plan.tail, rfl, rfl⟩
  | some (.power_loss k) => exact .inr rfl
  | none =>
    dsimp only [Outcome.bind]
    rw [Device.read_eq, fault_tail]
    match h1 : fault d.plan 1 with
    | some (.error k) => exact .inl ⟨⟨.failed, slot d.cells SETTINGS_SLOT0, fun _ => 0⟩, d.plan.tail.tail, rfl, rfl⟩
    | some (.power_loss k) => exact .inr rfl
    | none => exact absurd ⟨h0, h1⟩ h

/-- The body of a record reads back as it was written. -/
theorem same_record_staged (m : Cells Byte) (addr : Nat) (s : miner_settings) (seq : Word) :
    same_record (record s seq) (fun i => staged m addr (record s seq) 511 (addr + i)) = true := by
  unfold same_record
  rw [List.all_eq_true]
  intro i hi
  have hlt := List.mem_range.mp hi
  rw [beq_iff_eq]
  by_cases hlast : i = 511
  · subst hlast
    simp (disch := omega) only [staged, copy_outside, copy_inside]
    simp only [record, record_body, put32]
    simp (disch := omega) only [copy_outside]
  · simp (disch := omega) only [staged, copy_inside, Nat.add_sub_cancel_left]

/-- A sealed record passes its verification. -/
theorem record_valid_sealed (m : Cells Byte) (addr : Nat) {s : miner_settings} (hs : settings_valid s = true)
    (seq : Word) : record_valid (fun i => sealed m addr (record s seq) (addr + i)) = true :=
  (record_valid_congr (sealed_slot m (record s seq) addr)).trans ((record_valid_record s seq).trans hs)

section Writes

variable (addr : Nat) {s : miner_settings} (seq : Word) (d : Device Byte)

/-- Without a fault up to the verification of the body, what is left of a save
is its commit byte. -/
theorem write_record_commit (h : ∀ i < 3, fault d.plan i = none) :
    write_record addr (record s seq) d =
      ((⟨staged d.cells addr (record s seq) 511, d.plan.tail.tail.tail⟩ : Device Byte).write (addr + 511)
        (fun _ => COMMIT) 1).bind fun ok d =>
      if !ok then .value (-1) d else
      (d.read addr).bind fun verify d =>
      match verify with
      | none => .value (-1) d
      | some verify => if !record_valid verify then .value (-1) d else .value 0 d := by
  have hsame := same_record_staged d.cells addr s seq
  rw [write_record, Device.write_eq, h 0 (by omega)]
  dsimp only [Outcome.bind]
  rw [if_neg (by decide), Device.write_eq, fault_tail, h 1 (by omega)]
  dsimp only
  rw [if_neg (by decide), Device.read_eq, fault_tail, fault_tail, h 2 (by omega)]
  dsimp only
  change (if (!same_record (record s seq) fun i => staged d.cells addr (record s seq) 511 (addr + i)) = true
    then _ else _) = _
  rw [hsame, if_neg (by decide)]
  rfl

/-- The commit byte has not been written. -/
def Uncommitted (m : Cells Byte) (addr : Nat) (b : Cells Byte) (cells : Cells Byte) : Prop :=
  cells = m ∨ ∃ k ≤ 511, cells = staged m addr b k

theorem uncommitted_clear (m : Cells Byte) (addr : Nat) (b : Cells Byte) (k : Nat) :
    Uncommitted m addr b (copy m (addr + 511) (fun _ => 0) (min k 1)) := by
  obtain hk | hk : min k 1 = 0 ∨ min k 1 = 1 := by omega
  · rw [hk, copy_zero]
    exact .inl rfl
  · refine .inr ⟨0, by omega, ?_⟩
    rw [hk, staged, copy_zero]

/-- A fault before the commit byte ends the save with the old record in force. -/
theorem write_record_interrupted (h : ¬∀ i < 3, fault d.plan i = none) :
    (∃ cells plan, Uncommitted d.cells addr (record s seq) cells ∧
      write_record addr (record s seq) d = .value (-1) ⟨cells, plan⟩) ∨
    ∃ cells, write_record addr (record s seq) d = .lost cells := by
  rw [write_record, Device.write_eq]
  match h0 : fault d.plan 0 with
  | some (.error k) => exact .inl ⟨_, _, uncommitted_clear d.cells addr (record s seq) k, rfl⟩
  | some (.power_loss k) => exact .inr ⟨_, rfl⟩
  | none =>
    dsimp only [Outcome.bind]
    rw [if_neg (by decide), Device.write_eq, fault_tail]
    match h1 : fault d.plan 1 with
    | some (.error k) => exact .inl ⟨_, _, .inr ⟨min k 511, by omega, rfl⟩, rfl⟩
    | some (.power_loss k) => exact .inr ⟨_, rfl⟩
    | none =>
      dsimp only
      rw [if_neg (by decide), Device.read_eq, fault_tail, fault_tail]
      match h2 : fault d.plan 2 with
      | some (.error k) => exact .inl ⟨_, _, .inr ⟨511, by omega, rfl⟩, rfl⟩
      | some (.power_loss k) => exact .inr ⟨_, rfl⟩
      | none =>
        refine absurd (fun i hi => ?_) h
        interval_cases i
        · exact h0
        · exact h1
        · exact h2

/-- The outcomes of the commit byte. -/
theorem write_record_sealed (hs : settings_valid s = true) (h : ∀ i < 3, fault d.plan i = none) :
    match fault d.plan 3, fault d.plan 4 with
    | none, none => ∃ plan, write_record addr (record s seq) d =
        .value 0 ⟨sealed d.cells addr (record s seq), plan⟩
    | none, some (.error _) | some (.error (_ + 1)), _ => ∃ plan, write_record addr (record s seq) d =
        .value (-1) ⟨sealed d.cells addr (record s seq), plan⟩
    | some (.error 0), _ => ∃ plan, write_record addr (record s seq) d =
        .value (-1) ⟨staged d.cells addr (record s seq) 511, plan⟩
    | _, _ => ∃ cells, write_record addr (record s seq) d = .lost cells := by
  have hvalid := record_valid_sealed d.cells addr hs seq
  rw [write_record_commit addr seq d h, Device.write_eq]
  simp only [fault_tail]
  match h3 : fault d.plan 3 with
  | some (.error 0) =>
    dsimp only [Outcome.bind]
    rw [Nat.zero_min, copy_zero]
    exact ⟨_, rfl⟩
  | some (.error (k + 1)) =>
    dsimp only [Outcome.bind]
    rw [Nat.min_eq_right (by omega)]
    exact ⟨_, rfl⟩
  | some (.power_loss k) => exact ⟨_, rfl⟩
  | none =>
    dsimp only [Outcome.bind]
    rw [if_neg (by decide), Device.read_eq]
    simp only [fault_tail]
    match h4 : fault d.plan 4 with
    | some (.error k) => exact ⟨_, rfl⟩
    | some (.power_loss k) => exact ⟨_, rfl⟩
    | none =>
      dsimp only
      change ∃ plan, (if (!record_valid fun i => sealed d.cells addr (record s seq) (addr + i)) = true
        then _ else _) = _
      rw [hvalid, if_neg (by decide)]
      exact ⟨_, rfl⟩

end Writes

/-- The slots have been read, and the writes begin. -/
theorem settings_save_writes (m : Cells Byte) {s : miner_settings} (hs : settings_valid s = true)
    {plan : List (Option Fault)} (h0 : fault plan 0 = none) (h1 : fault plan 1 = none) :
    settings_save s ⟨m, plan⟩ = write_record (slots_of m).next_addr (record s (slots_of m).next_seq)
      ⟨m, plan.tail.tail⟩ := by
  have hactive : ¬(slots_of m).active = .failed := by
    obtain ⟨hc, _⟩ | ⟨hc, _⟩ | ⟨hc, _⟩ := choose_slot_cases (slot m SETTINGS_SLOT0) (slot m SETTINGS_SLOT1) <;>
      simp [slots_of, active, hc]
  rw [settings_save, if_neg (by simp [hs]), read_slots_ok ⟨m, plan⟩ h0 h1]
  exact if_neg hactive

theorem uncommitted_loaded {m cells : Cells Byte} {b : Cells Byte} (h : Uncommitted m (slots_of m).next_addr b cells) :
    loaded cells = loaded m := by
  obtain rfl | ⟨k, hk, rfl⟩ := h
  · rfl
  · exact loaded_staged m b hk

/-- A failed save leaves what a load returns alone, unless its commit byte was
written. -/
theorem settings_save_failed {m : Cells Byte} {s : miner_settings} {plan : List (Option Fault)} {rc : Int}
    {d : Device Byte} (hsave : settings_save s ⟨m, plan⟩ = .value rc d) (hrc : rc ≠ 0) :
    loaded d.cells = loaded m ∨ (settings_valid s = true ∧ CommitLost plan) := by
  cases hs : settings_valid s with
  | false =>
    rw [settings_save, if_pos (by simp [hs])] at hsave
    cases hsave
    exact .inl rfl
  | true =>
    by_cases hread : fault plan 0 = none ∧ fault plan 1 = none
    · rw [settings_save_writes m hs hread.1 hread.2] at hsave
      by_cases hbody : ∀ i < 3, fault plan.tail.tail i = none
      · have hsealed := write_record_sealed (slots_of m).next_addr (slots_of m).next_seq ⟨m, plan.tail.tail⟩ hs hbody
        simp only [fault_tail, Nat.reduceAdd] at hsealed hbody
        have hclean : ∀ i < 5, fault plan i = none := by
          intro i hi
          obtain rfl | rfl | ⟨j, rfl⟩ : i = 0 ∨ i = 1 ∨ ∃ j, i = j + 2 := by
            by_cases hlow : i < 2
            · omega
            · exact .inr (.inr ⟨i - 2, by omega⟩)
          · exact hread.1
          · exact hread.2
          · exact hbody j (by omega)
        rcases h5 : fault plan 5 with _ | ((_ | k) | k)
        · rcases h6 : fault plan 6 with _ | (k | k)
          · simp only [h5, h6] at hsealed
            obtain ⟨rest, heq⟩ := hsealed
            rw [heq] at hsave
            cases hsave
            exact absurd rfl hrc
          · exact .inr ⟨rfl, hclean, .inr ⟨h5, k, h6⟩⟩
          · simp only [h5, h6] at hsealed
            obtain ⟨cells, heq⟩ := hsealed
            rw [heq] at hsave
            cases hsave
        · simp only [h5] at hsealed
          obtain ⟨rest, heq⟩ := hsealed
          rw [heq] at hsave
          cases hsave
          exact .inl (loaded_staged m _ (Nat.le_refl _))
        · exact .inr ⟨rfl, hclean, .inl ⟨k, h5⟩⟩
        · simp only [h5] at hsealed
          obtain ⟨cells, heq⟩ := hsealed
          rw [heq] at hsave
          cases hsave
      · obtain ⟨cells, rest, hcells, heq⟩ | ⟨cells, heq⟩ := write_record_interrupted (s := s) (slots_of m).next_addr
          (slots_of m).next_seq ⟨m, plan.tail.tail⟩ hbody
        · rw [heq] at hsave
          cases hsave
          exact .inl (uncommitted_loaded hcells)
        · rw [heq] at hsave
          cases hsave
    · rw [settings_save, if_neg (by simp [hs])] at hsave
      obtain ⟨slots, rest, hfailed, heq⟩ | heq := read_slots_failed ⟨m, plan⟩ hread
      · rw [heq, Outcome.bind, if_pos hfailed] at hsave
        cases hsave
        exact .inl rfl
      · rw [heq] at hsave
        cases hsave

/-- A save whose commit byte was written fails, but the next load returns its
settings. -/
theorem settings_save_commit_lost (m : Cells Byte) {s : miner_settings} (hs : settings_valid s = true)
    {plan : List (Option Fault)} (hlost : CommitLost plan) :
    ∃ d, settings_save s ⟨m, plan⟩ = .value (-1) d ∧ loaded d.cells = (s, 1) := by
  obtain ⟨hclean, hcommit⟩ := hlost
  have hsealed := write_record_sealed (slots_of m).next_addr (slots_of m).next_seq ⟨m, plan.tail.tail⟩ hs
    fun i hi => by
      simp only [fault_tail]
      exact hclean _ (by omega)
  simp only [fault_tail, Nat.reduceAdd] at hsealed
  rw [settings_save_writes m hs (hclean 0 (by omega)) (hclean 1 (by omega))]
  obtain ⟨k, h5⟩ | ⟨h5, k, h6⟩ := hcommit
  · simp only [h5] at hsealed
    obtain ⟨rest, heq⟩ := hsealed
    exact ⟨_, heq, loaded_sealed m hs⟩
  · simp only [h5, h6] at hsealed
    obtain ⟨rest, heq⟩ := hsealed
    exact ⟨_, heq, loaded_sealed m hs⟩

/-- Without faults a save stores its settings. -/
theorem settings_save_fault_free (m : Cells Byte) {s : miner_settings} (hs : settings_valid s = true) :
    ∃ plan, settings_save s ⟨m, []⟩ = .value 0 ⟨saved m s, plan⟩ := by
  rw [settings_save_writes m hs rfl rfl]
  exact write_record_sealed (slots_of m).next_addr (slots_of m).next_seq ⟨m, []⟩ hs fun _ _ => rfl

/-- If the save returns an error, a fault-free load afterwards returns what it
would have returned before. -/
def FailsInvisibly (m : Cells Byte) (s : miner_settings) (plan : List (Option Fault)) : Prop :=
  ∀ rc d, settings_save s ⟨m, plan⟩ = .value rc d → rc ≠ 0 → ∀ r, LoadsAs m r → LoadsAs d.cells r

theorem loadsAs_iff (m : Cells Byte) (r : miner_settings × Int) : LoadsAs m r ↔ loaded m = r := by
  constructor
  · intro h
    rw [LoadsAs, settings_load_fault_free] at h
    cases h
    rfl
  · rintro rfl
    exact loadsAs_loaded m

/-- A failed save is invisible unless it is of valid settings that are not the
stored ones and an error is reported after the commit byte was written. -/
theorem save_failure_invisible_iff (m : Cells Byte) (s : miner_settings) (plan : List (Option Fault)) :
    FailsInvisibly m s plan ↔ ¬(settings_valid s = true ∧ CommitLost plan ∧ ¬LoadsAs m (s, 1)) := by
  constructor
  · rintro hfails ⟨hs, hlost, hother⟩
    obtain ⟨d, hsave, hload⟩ := settings_save_commit_lost m hs hlost
    have hkept := hfails (-1) d hsave (by decide) (loaded m) (loadsAs_loaded m)
    rw [loadsAs_iff, hload] at hkept
    exact hother ((loadsAs_iff m (s, 1)).mpr hkept.symm)
  · intro hgood rc d hsave hrc r hr
    rw [loadsAs_iff] at hr ⊢
    obtain hkept | ⟨hs, hlost⟩ := settings_save_failed hsave hrc
    · rw [hkept, hr]
    · have hstored : LoadsAs m (s, 1) := by
        by_contra hother
        exact hgood ⟨hs, hlost, hother⟩
      obtain ⟨d', hsave', hload⟩ := settings_save_commit_lost m hs hlost
      rw [hsave] at hsave'
      cases hsave'
      rw [hload, ← hr, ← (loadsAs_iff m (s, 1)).mp hstored]

/-- Blank storage, and a save whose last write reports an error although the
byte was written: the save fails, and the next boot uses the new settings. -/
theorem blank_commit_lost_visible :
    ¬FailsInvisibly (fun _ => 0xff) { settings_defaults with port := 3334 }
      [none, none, none, none, none, some (.error 1)] := by
  intro hfails
  have hvalid : settings_valid { settings_defaults with port := 3334 } = true := by decide
  have hlost : CommitLost [none, none, none, none, none, some (.error 1)] := ⟨by decide, .inl ⟨0, rfl⟩⟩
  have hblank : loaded (fun _ => 0xff) = (settings_defaults, 0) := by
    have hinvalid (addr : Nat) : record_valid (slot (fun _ => 0xff) addr) = false := rfl
    rw [loaded, choose_none (hinvalid _) (hinvalid _)]
  obtain ⟨d, hsave, hload⟩ := settings_save_commit_lost (fun _ => 0xff) hvalid hlost
  have hkept := hfails (-1) d hsave (by decide) _ (loadsAs_loaded _)
  rw [loadsAs_iff, hload, hblank] at hkept
  cases hkept

end scu35.settings
