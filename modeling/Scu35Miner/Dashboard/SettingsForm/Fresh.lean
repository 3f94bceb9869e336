import Scu35Miner.Dashboard.SettingsForm

open transition

namespace scu35.miner_dashboard

/-- The token was given out. -/
def Issued (log : List Action) (t : Token) : Prop := .began t ∈ log ∨ .saving t ∈ log

/-- A read was begun with the token, and since then the user has only edited
fields. -/
structure Reading (g : Gui) (t : Token) : Prop where
  log : ∃ before edits, g.log = before ++ .began t :: edits ∧ (∀ a ∈ edits, a = .edited) ∧
    (edits ≠ [] → t.revision < g.form_state.revision)
  revision : t.revision ≤ g.form_state.revision
  others : ∀ u, Issued g.log u → u ≠ t → u.generation < g.form_state.generation

/-- A reply is written when nothing has happened since its read was begun. All
other tokens before it are of older generations. -/
structure Written (before : List Action) (t : Token) : Prop where
  fresh : ∃ earlier, before = earlier ++ [.began t]
  others : ∀ u, Issued before u → u ≠ t → u.generation < t.generation

/-- The tokens of the requests that are still to be answered, and of the
replies that were written, against the counters of the form. -/
structure Ordered (g : Gui) : Prop where
  issued : ∀ t, Issued g.log t → t.generation ≤ g.form_state.generation
  pending : ∀ r ∈ g.requests, Issued g.log r.token
  single : (g.requests.filter fun r => r.token.generation = g.form_state.generation).length ≤ 1
  idle : g.save_enabled = true ∨ g.dialog = some .save →
    ∀ r ∈ g.requests, r.token.generation < g.form_state.generation
  reading : ∀ t, .read t ∈ g.requests → t.generation = g.form_state.generation → Reading g t
  written : ∀ before t, before ++ [.wrote t] <+: g.log →
    Written before t ∧ t.generation ≤ g.form_state.generation ∧ .read t ∉ g.requests

theorem init_ordered : Ordered Gui.init where
  issued := by simp [Gui.init, Issued]
  pending := by simp [Gui.init]
  single := by simp [Gui.init]
  idle := by simp [Gui.init]
  reading := by simp [Gui.init]
  written := by
    intro before t h
    have hlen := h.length_le
    simp [Gui.init] at hlen

theorem issued_concat {log : List Action} {a : Action} {t : Token} (h : Issued (log ++ [a]) t) :
    Issued log t ∨ a = .began t ∨ a = .saving t := by
  unfold Issued at h ⊢
  simp only [List.mem_append, List.mem_singleton] at h
  tauto

theorem Issued.append {log : List Action} {t : Token} (h : Issued log t) (a : Action) : Issued (log ++ [a]) t :=
  h.imp (List.mem_append_left _) (List.mem_append_left _)

/-- What is written is not changed by another action. -/
theorem wrote_concat {log before : List Action} {t : Token} {a : Action} (ha : ∀ u, a ≠ .wrote u)
    (h : before ++ [.wrote t] <+: log ++ [a]) : before ++ [.wrote t] <+: log := by
  obtain heq | h := List.prefix_concat_iff.mp h
  · have hlast := (List.append_inj' heq rfl).2
    exact absurd (List.cons.inj hlast).1.symm (ha t)
  · exact h

variable {g : Gui}

theorem Ordered.pending_le (h : Ordered g) {r : Request} (hr : r ∈ g.requests) :
    r.token.generation ≤ g.form_state.generation := h.issued _ (h.pending r hr)

/-- A new read is of a new generation. -/
theorem load_settings_ordered (h : Ordered g) (hdialog : g.dialog ≠ some .save) : Ordered g.load_settings := by
  unfold Gui.load_settings
  split
  · exact h
  · have hnew : ∀ r ∈ g.requests, r.token.generation < g.form_state.generation + 1 :=
      fun r hr => Nat.lt_succ_of_le (h.pending_le hr)
    constructor
    · intro t ht
      obtain ht | heq | heq := issued_concat ht
      · exact Nat.le_succ_of_le (h.issued t ht)
      · cases heq
        exact Nat.le_refl _
      · cases heq
    · intro r hr
      obtain hr | hr := List.mem_append.mp hr
      · exact (h.pending r hr).append _
      · rw [List.mem_singleton.mp hr]
        exact .inl (by simp [Request.token])
    · have hold : (g.requests.filter fun r => r.token.generation = g.form_state.generation + 1) = [] := by
        rw [List.filter_eq_nil_iff]
        intro r hr
        have hlt := hnew r hr
        simp only [decide_eq_true_eq]
        omega
      change ((g.requests ++ [_]).filter fun r : Request => r.token.generation = g.form_state.generation + 1).length ≤ 1
      rw [List.filter_append, hold, List.nil_append]
      exact List.length_filter_le _ _
    · rintro (hfalse | hsave)
      · cases hfalse
      · exact absurd hsave hdialog
    · intro t ht hgen
      obtain ht | ht := List.mem_append.mp ht
      · have hlt := hnew _ ht
        change t.generation < _ at hlt
        change t.generation = g.form_state.generation + 1 at hgen
        omega
      · cases List.mem_singleton.mp ht
        refine ⟨⟨g.log, [], rfl, by simp, by simp⟩, Nat.le_refl _, ?_⟩
        intro u hu hne
        obtain hu | heq | heq := issued_concat hu
        · exact Nat.lt_succ_of_le (h.issued u hu)
        · cases heq
          exact absurd rfl hne
        · cases heq
    · intro before t hwrote
      obtain ⟨hwritten, hle, hread⟩ := h.written before t (wrote_concat (by simp) hwrote)
      refine ⟨hwritten, Nat.le_succ_of_le hle, ?_⟩
      intro hmem
      obtain hmem | hmem := List.mem_append.mp hmem
      · exact hread hmem
      · cases List.mem_singleton.mp hmem
        exact absurd hle (Nat.not_succ_le_self _)

theorem edit_ordered (h : Ordered g) (fields : Fields) : Ordered (g.edit fields) where
  issued := by
    intro t ht
    obtain ht | heq | heq := issued_concat ht
    · exact h.issued t ht
    · cases heq
    · cases heq
  pending := fun r hr => (h.pending r hr).append _
  single := h.single
  idle := h.idle
  reading := by
    intro t ht hgen
    obtain ⟨⟨before, edits, hlog, hedits, _⟩, hrevision, hothers⟩ := h.reading t ht hgen
    refine ⟨?_, Nat.le_succ_of_le hrevision, ?_⟩
    · refine ⟨before, edits ++ [.edited], ?_, ?_, ?_⟩
      · change g.log ++ [_] = _
        rw [hlog, List.append_assoc]
        rfl
      · intro a ha
        obtain ha | ha := List.mem_append.mp ha
        · exact hedits a ha
        · exact List.mem_singleton.mp ha
      · intro _
        exact Nat.lt_succ_of_le hrevision
    · intro u hu hne
      obtain hu | heq | heq := issued_concat hu
      · exact hothers u hu hne
      · cases heq
      · cases heq
  written := by
    intro before t hwrote
    exact h.written before t (wrote_concat (by simp) hwrote)

theorem select_ordered (h : Ordered g) (ip mac : String) :
    Ordered { g with
      form_state := g.form_state.select ip, fields := blank_fields mac, log := g.log ++ [.selected ip] } := by
  have hnew : ∀ r ∈ g.requests, r.token.generation < g.form_state.generation + 1 :=
    fun r hr => Nat.lt_succ_of_le (h.pending_le hr)
  constructor
  · intro t ht
    obtain ht | heq | heq := issued_concat ht
    · exact Nat.le_succ_of_le (h.issued t ht)
    · cases heq
    · cases heq
  · exact fun r hr => (h.pending r hr).append _
  · have hold : (g.requests.filter fun r => r.token.generation = g.form_state.generation + 1) = [] := by
      rw [List.filter_eq_nil_iff]
      intro r hr
      have hlt := hnew r hr
      simp only [decide_eq_true_eq]
      omega
    change (g.requests.filter fun r : Request => r.token.generation = g.form_state.generation + 1).length ≤ 1
    rw [hold]
    exact Nat.zero_le 1
  · exact fun _ => hnew
  · intro t ht hgen
    exact absurd hgen (Nat.ne_of_lt (hnew _ ht))
  · intro before t hwrote
    obtain ⟨hwritten, hle, hread⟩ := h.written before t (wrote_concat (by simp) hwrote)
    exact ⟨hwritten, Nat.le_succ_of_le hle, hread⟩

/-- A save is begun when no request of its generation waits for a reply. -/
theorem save_confirmed_ordered (h : Ordered g) (hdialog : g.dialog = some .save) :
    Ordered (Gui.save_confirmed { g with dialog := none }) := by
  have hidle := h.idle (.inr hdialog)
  constructor
  · intro t ht
    obtain ht | heq | heq := issued_concat ht
    · exact h.issued t ht
    · cases heq
    · cases heq
      exact Nat.le_refl _
  · intro r hr
    obtain hr | hr := List.mem_append.mp hr
    · exact (h.pending r hr).append _
    · rw [List.mem_singleton.mp hr]
      exact .inr (by simp [Request.token, Gui.save_confirmed])
  · have hold : (g.requests.filter fun r => r.token.generation = g.form_state.generation) = [] := by
      rw [List.filter_eq_nil_iff]
      intro r hr
      have hlt := hidle r hr
      simp only [decide_eq_true_eq]
      omega
    change ((g.requests ++ [_]).filter fun r : Request => r.token.generation = g.form_state.generation).length ≤ 1
    rw [List.filter_append, hold, List.nil_append]
    exact List.length_filter_le _ _
  · rintro (hfalse | hnone)
    · cases hfalse
    · cases hnone
  · intro t ht hgen
    obtain ht | ht := List.mem_append.mp ht
    · exact absurd hgen (Nat.ne_of_lt (hidle _ ht))
    · cases List.mem_singleton.mp ht
  · intro before t hwrote
    obtain ⟨hwritten, hle, hread⟩ := h.written before t (wrote_concat (by simp) hwrote)
    refine ⟨hwritten, hle, ?_⟩
    intro hmem
    obtain hmem | hmem := List.mem_append.mp hmem
    · exact hread hmem
    · cases List.mem_singleton.mp hmem

/-- A question is opened or closed. The one of `save` is opened when its button
is enabled. -/
theorem dialog_ordered (h : Ordered g) {dialog : Option Dialog} (hsave : dialog = some .save → g.save_enabled = true) :
    Ordered { g with dialog } where
  issued := h.issued
  pending := h.pending
  single := h.single
  idle := by
    rintro (henabled | hdialog)
    · exact h.idle (.inl henabled)
    · exact h.idle (.inl (hsave hdialog))
  reading := by
    intro t ht hgen
    obtain ⟨hlog, hrevision, hothers⟩ := h.reading t ht hgen
    exact ⟨hlog, hrevision, hothers⟩
  written := h.written

theorem erase_ordered (h : Ordered g) (i : Nat) : Ordered { g with requests := g.requests.eraseIdx i } where
  issued := h.issued
  pending := fun r hr => h.pending r (List.mem_of_mem_eraseIdx hr)
  single := Nat.le_trans ((List.eraseIdx_sublist g.requests i).filter _).length_le h.single
  idle := fun hidle r hr => h.idle hidle r (List.mem_of_mem_eraseIdx hr)
  reading := by
    intro t ht hgen
    obtain ⟨hlog, hrevision, hothers⟩ := h.reading t (List.mem_of_mem_eraseIdx ht) hgen
    exact ⟨hlog, hrevision, hothers⟩
  written := by
    intro before t hwrote
    obtain ⟨hwritten, hle, hread⟩ := h.written before t hwrote
    exact ⟨hwritten, hle, fun hmem => hread (List.mem_of_mem_eraseIdx hmem)⟩

/-- At most one request of the current generation waits for a reply. -/
theorem others_older (h : Ordered g) {i : Nat} {r : Request} (hr : g.requests[i]? = some r)
    (hgen : r.token.generation = g.form_state.generation) :
    ∀ r' ∈ g.requests.eraseIdx i, r'.token.generation < g.form_state.generation := by
  obtain ⟨hi, hget⟩ := List.getElem?_eq_some_iff.mp hr
  have hperm := ((List.getElem_cons_eraseIdx_perm hi).filter
    fun r => decide (r.token.generation = g.form_state.generation)).length_eq
  have hsingle := h.single
  rw [hget, List.filter_cons_of_pos (by simpa using hgen), List.length_cons] at hperm
  intro r' hr'
  have hle := h.pending_le (List.mem_of_mem_eraseIdx hr')
  by_contra hnot
  have hmem : r' ∈ (g.requests.eraseIdx i).filter fun r => decide (r.token.generation = g.form_state.generation) :=
    List.mem_filter.mpr ⟨hr', by simp; omega⟩
  have hpos := List.length_pos_of_mem hmem
  omega

/-- The button is enabled when no request of the current generation waits. -/
theorem enable_ordered (h : Ordered g) {i : Nat} {r : Request} (hr : g.requests[i]? = some r) :
    Ordered (Gui.enable { g with requests := g.requests.eraseIdx i } r.token) := by
  have herased := erase_ordered h i
  unfold Gui.enable
  split
  next hsame =>
    simp only [SettingsFormState.same_read, Bool.and_eq_true, decide_eq_true_eq] at hsame
    have hold := others_older h hr hsame.2
    constructor
    · exact herased.issued
    · exact herased.pending
    · exact herased.single
    · exact fun _ => hold
    · intro t ht hgen
      exact absurd hgen (Nat.ne_of_lt (hold _ ht))
    · exact herased.written
  next => exact herased

theorem accepts_generation {s : SettingsFormState} {t : Token} (h : s.accepts t = true) :
    t = s.token ∧ s.same_read t = true := by
  have heq : t = s.token := by simpa [SettingsFormState.accepts] using h
  refine ⟨heq, ?_⟩
  rw [heq]
  simp [SettingsFormState.same_read, SettingsFormState.token]

theorem settings_read_ordered (h : Ordered g) {i : Nat} {t : Token} (hr : g.requests[i]? = some (.read t))
    (reply : Option SettingsReply) :
    Ordered (Gui.settings_read { g with requests := g.requests.eraseIdx i } t reply) := by
  have hread : .read t ∈ g.requests := List.mem_of_getElem? hr
  have henabled := enable_ordered h hr
  change Ordered (Gui.enable { g with requests := g.requests.eraseIdx i } t) at henabled
  unfold Gui.settings_read
  split
  next reply =>
    split
    · exact erase_ordered h i
    next hsame =>
      have hsame : g.form_state.same_read t = true := by simpa using hsame
      have henable : Gui.enable { g with requests := g.requests.eraseIdx i } t =
          { g with requests := g.requests.eraseIdx i, save_enabled := true } := if_pos hsame
      rw [henable] at henabled ⊢
      dsimp only
      split
      · exact henabled
      next haccepted =>
        have haccepted : g.form_state.accepts t = true := by simpa using haccepted
        obtain ⟨rfl, _⟩ := accepts_generation haccepted
        have hold := others_older h hr rfl
        obtain ⟨⟨before, edits, hlog, _, hedits⟩, _, hothers⟩ := h.reading _ hread rfl
        have hnone : edits = [] := by
          by_contra hne
          exact absurd (hedits hne) (Nat.lt_irrefl _)
        constructor
        · intro u hu
          obtain hu | heq | heq := issued_concat hu
          · exact h.issued u hu
          · cases heq
          · cases heq
        · exact fun r hr => (henabled.pending r hr).append _
        · exact henabled.single
        · exact fun _ => hold
        · intro u hu hgen
          exact absurd hgen (Nat.ne_of_lt (hold _ hu))
        · intro earlier u hwrote
          obtain heq | hwrote := List.prefix_concat_iff.mp hwrote
          · obtain ⟨rfl, hlast⟩ := List.append_inj' heq rfl
            cases hlast
            refine ⟨⟨⟨before, by rw [hlog, hnone]⟩, hothers⟩, Nat.le_refl _, ?_⟩
            intro hmem
            exact absurd rfl (Nat.ne_of_lt (hold _ hmem))
          · exact henabled.written earlier u hwrote
  next => exact henabled

theorem saved_ordered (h : Ordered g) {i : Nat} {t : Token} (hr : g.requests[i]? = some (.save t))
    (reply : Option Bool) : Ordered (Gui.saved { g with requests := g.requests.eraseIdx i } t reply) := by
  have henabled := enable_ordered h hr
  change Ordered (Gui.enable { g with requests := g.requests.eraseIdx i } t) at henabled
  have hform : (Gui.enable { g with requests := g.requests.eraseIdx i } t).form_state = g.form_state ∧
      (Gui.enable { g with requests := g.requests.eraseIdx i } t).dialog = g.dialog := by
    unfold Gui.enable
    split
    · exact ⟨rfl, rfl⟩
    · exact ⟨rfl, rfl⟩
  unfold Gui.saved
  dsimp only
  split
  · split
    next haccepted =>
      rw [hform.1] at haccepted
      obtain ⟨rfl, _⟩ := accepts_generation haccepted
      refine load_settings_ordered henabled ?_
      rw [hform.2]
      intro hsave
      have hlt := h.idle (.inr hsave) _ (List.mem_of_getElem? hr)
      exact absurd hlt (Nat.lt_irrefl _)
    · exact henabled
  · exact henabled

/-- Every event keeps the order of the tokens. -/
theorem step_ordered (g : Gui) (e : Event) (h : Ordered g) : Ordered (g.step e) := by
  have hclosed (hdialog : ¬g.dialog.isSome = true) : g.dialog ≠ some .save := by
    rintro heq
    rw [heq] at hdialog
    exact hdialog rfl
  cases e with
  | edit fields =>
    rw [Gui.step]
    split
    · exact h
    · exact edit_ordered h fields
  | select ip mac =>
    rw [Gui.step]
    split
    · exact h
    next hdialog =>
      rw [Gui.selected]
      split
      · exact load_settings_ordered (select_ordered h ip mac) (hclosed hdialog)
      · exact h
  | reload =>
    rw [Gui.step]
    split
    · exact h
    next hdialog =>
      rw [Gui.reload_settings]
      split
      · exact dialog_ordered h (by simp)
      · exact load_settings_ordered h (hclosed hdialog)
  | save valid =>
    rw [Gui.step]
    split
    · exact h
    · rw [Gui.save]
      split
      next hready =>
        refine dialog_ordered h fun _ => ?_
        simp only [Bool.and_eq_true] at hready
        exact hready.1.1
      · exact h
  | answer yes =>
    rw [Gui.step, Gui.answer]
    split
    · exact h
    · have hclose : Ordered { g with dialog := none } := dialog_ordered h (by simp)
      dsimp only
      split
      · exact load_settings_ordered hclose (by simp)
      · exact hclose
    next hdialog =>
      dsimp only
      split
      · exact save_confirmed_ordered h hdialog
      · exact dialog_ordered h (by simp)
  | read_reply i reply =>
    rw [Gui.step]
    split
    next t hr => exact settings_read_ordered h hr reply
    next => exact h
  | save_reply i reply =>
    rw [Gui.step]
    split
    next t hr => exact saved_ordered h hr reply
    next => exact h

/-- A reply is written into the form only if nothing has happened since its
read was begun, and then neither it nor any older token is accepted in a later
state. -/
theorem late_replies_rejected (events : List Event) (before after : List Action) (t : Token)
    (h : (run Gui.step Gui.init events).log = before ++ .wrote t :: after) :
    (∃ earlier since, before = earlier ++ .began t :: since ∧
      ∀ a ∈ since, a ≠ .edited ∧ (∀ ip, a ≠ .selected ip) ∧ ∀ u, a ≠ .began u) ∧
    .read t ∉ (run Gui.step Gui.init events).requests ∧
    ∀ u, Issued before u → u ≠ t → (run Gui.step Gui.init events).form_state.accepts u = false := by
  have hordered : Ordered (run Gui.step Gui.init events) := run_invariant step_ordered init_ordered events
  have hwrote : before ++ [.wrote t] <+: (run Gui.step Gui.init events).log := by
    rw [h]
    exact ⟨after, by simp⟩
  obtain ⟨⟨⟨earlier, hbegan⟩, hothers⟩, hle, hread⟩ := hordered.written before t hwrote
  refine ⟨⟨earlier, [], hbegan, by simp⟩, hread, ?_⟩
  intro u hu hne
  have hlt := hothers u hu hne
  rw [SettingsFormState.accepts, decide_eq_false_iff_not]
  rintro rfl
  change (run Gui.step Gui.init events).form_state.generation < _ at hlt
  omega

/-- The read that follows a selection is written, and an edit then leaves no
token to accept. -/
theorem first_read_written :
    (run Gui.step Gui.init [.select "10.0.0.1" "02:00:00:11:22:33",
      .read_reply 0 (some ⟨"02:00:00:11:22:33", "pool", "3333", "me"⟩), .edit (blank_fields "")]).log =
        [.selected "10.0.0.1", .began ⟨some "10.0.0.1", 2, 0⟩, .wrote ⟨some "10.0.0.1", 2, 0⟩, .edited] ∧
      .read ⟨some "10.0.0.1", 2, 0⟩ ∉ (run Gui.step Gui.init [.select "10.0.0.1" "02:00:00:11:22:33",
        .read_reply 0 (some ⟨"02:00:00:11:22:33", "pool", "3333", "me"⟩), .edit (blank_fields "")]).requests := by
  have hlog : (run Gui.step Gui.init [.select "10.0.0.1" "02:00:00:11:22:33",
      .read_reply 0 (some ⟨"02:00:00:11:22:33", "pool", "3333", "me"⟩), .edit (blank_fields "")]).log =
      [.selected "10.0.0.1", .began ⟨some "10.0.0.1", 2, 0⟩, .wrote ⟨some "10.0.0.1", 2, 0⟩, .edited] := by decide
  exact ⟨hlog, (late_replies_rejected _ [.selected "10.0.0.1", .began ⟨some "10.0.0.1", 2, 0⟩] [.edited] _ hlog).2.1⟩

end scu35.miner_dashboard
