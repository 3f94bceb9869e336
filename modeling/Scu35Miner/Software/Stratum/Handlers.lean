import Scu35Miner.Software.Stratum

open fips180

namespace scu35.stratum

open sha256_sw bitcoin json_helpers

/-- The share of an output and the header bytes that were checked for it. -/
def Output.submitted : Output → Option (Share × List Byte)
  | .submit share header => some (share, header)
  | _ => none

/-- The extranonce text and the nonce window of a START command. -/
def Output.started : Output → Option (List Byte × Word)
  | .start extranonce2 window => some (extranonce2, window)
  | _ => none

/-- The submissions of the current event. -/
def State.submits (st : State) : List (Share × List Byte) := st.outputs.filterMap Output.submitted

/-- The START commands of the current event. -/
def State.starts (st : State) : List (List Byte × Word) := st.outputs.filterMap Output.started

/-- Every START command directly follows the writes of its window, of `RANGE` and
of the start bit. -/
def Announced (outputs : List Output) : Prop :=
  ∀ before extranonce2 window after, outputs = before ++ .start extranonce2 window :: after →
    [.reg_write 0x80 window, .reg_write 0x84 RANGE, .reg_write 0 1] <:+ before

theorem Announced.append {xs ys : List Output} (hx : Announced xs) (hy : Announced ys) : Announced (xs ++ ys) := by
  intro before extranonce2 window after heq
  obtain ⟨rest, rfl, hrest⟩ | ⟨rest, hxs, hrest⟩ := List.append_eq_append_iff.mp heq
  · exact (hy rest extranonce2 window after hrest).trans (List.suffix_append xs rest)
  · cases rest with
    | nil =>
      rw [List.append_nil] at hxs
      rw [← hxs, ← List.nil_append (.start extranonce2 window :: after)] at *
      exact (hy [] extranonce2 window after hrest.symm).trans List.nil_suffix
    | cons o rest =>
      obtain ⟨rfl, _⟩ := List.cons.inj hrest
      exact hx before extranonce2 window rest hxs

theorem announced_quiet {outputs : List Output} (h : outputs.filterMap Output.started = []) : Announced outputs := by
  intro before extranonce2 window after heq
  have hmem : Output.start extranonce2 window ∈ outputs := by simp [heq]
  exact absurd (List.filterMap_eq_nil_iff.mp h _ hmem) nofun

/-- The work assigned to the device is the same in both states, or stopped in
the second. -/
structure State.SameWork (st st' : State) : Prop where
  starts : st'.starts = st.starts
  subscribed : st'.subscribed = st.subscribed
  extra2 : st'.extra2 = st.extra2
  extra2_size : st'.extra2_size = st.extra2_size
  extra2_hex : st'.extra2_hex = st.extra2_hex
  extra_exhausted : st'.extra_exhausted = st.extra_exhausted
  range_start : st'.range_start = st.range_start
  running : st'.running = true → st.running = true
  announced : Announced st.outputs → Announced st'.outputs

/-- Moreover, nothing was submitted in between. -/
structure State.Silent (st st' : State) : Prop where
  work : st.SameWork st'
  submits : st'.submits = st.submits

theorem State.SameWork.refl (st : State) : st.SameWork st := ⟨rfl, rfl, rfl, rfl, rfl, rfl, rfl, fun hr => hr, fun ha => ha⟩

theorem State.SameWork.trans {st st' st'' : State} (h : st.SameWork st') (h' : st'.SameWork st'') :
    st.SameWork st'' where
  starts := h'.starts.trans h.starts
  subscribed := h'.subscribed.trans h.subscribed
  extra2 := h'.extra2.trans h.extra2
  extra2_size := h'.extra2_size.trans h.extra2_size
  extra2_hex := h'.extra2_hex.trans h.extra2_hex
  extra_exhausted := h'.extra_exhausted.trans h.extra_exhausted
  range_start := h'.range_start.trans h.range_start
  running := fun hr => h.running (h'.running hr)
  announced := fun ha => h'.announced (h.announced ha)

theorem State.Silent.refl (st : State) : st.Silent st := ⟨State.SameWork.refl st, rfl⟩

theorem State.Silent.trans {st st' st'' : State} (h : st.Silent st') (h' : st'.Silent st'') : st.Silent st'' :=
  ⟨h.work.trans h'.work, h'.submits.trans h.submits⟩

section Handlers

variable {st : State}

theorem out_pending (st : State) (pending : List Pending) (before after : List Output) :
    { st.out before with pending }.out after = { st with pending }.out (before ++ after) := by
  simp only [State.out, List.append_assoc]

@[simp]
theorem out_submits (st : State) (outputs : List Output) :
    (st.out outputs).submits = st.submits ++ outputs.filterMap Output.submitted := by
  rw [State.submits, State.out, List.filterMap_append]
  rfl

@[simp]
theorem out_starts (st : State) (outputs : List Output) :
    (st.out outputs).starts = st.starts ++ outputs.filterMap Output.started := by
  rw [State.starts, State.out, List.filterMap_append]
  rfl

theorem out_same_work (st : State) (outputs : List Output) (hstart : outputs.filterMap Output.started = []) :
    st.SameWork (st.out outputs) :=
  ⟨by rw [out_starts, hstart, List.append_nil], rfl, rfl, rfl, rfl, rfl, rfl, fun hr => hr,
    fun ha => ha.append (announced_quiet hstart)⟩

theorem out_silent (st : State) (outputs : List Output) (hsub : outputs.filterMap Output.submitted = [])
    (hstart : outputs.filterMap Output.started = []) : st.Silent (st.out outputs) :=
  ⟨out_same_work st outputs hstart, by rw [out_submits, hsub, List.append_nil]⟩

theorem stop_silent (st : State) : st.Silent (stop st) :=
  (show st.Silent { st with running := false } from
      ⟨⟨rfl, rfl, rfl, rfl, rfl, rfl, rfl, fun hr => (by cases hr), fun ha => ha⟩, rfl⟩).trans (out_silent _ _ rfl rfl)

theorem stop_drop_silent (st : State) : st.Silent { stop st with have_job := false } :=
  (stop_silent st).trans ⟨⟨rfl, rfl, rfl, rfl, rfl, rfl, rfl, fun hr => hr, fun ha => ha⟩, rfl⟩

theorem disconnect_silent (st : State) : st.Silent (disconnect st) :=
  ((stop_drop_silent st).trans (out_silent _ [.event .pool_disconnected] rfl rfl)).trans
    ⟨⟨rfl, rfl, rfl, rfl, rfl, rfl, rfl, fun hr => hr, fun ha => ha⟩, rfl⟩

theorem start_range_submits (st : State) : (start_range st).submits = st.submits := by
  rw [start_range, out_submits]
  exact List.append_nil _

theorem start_range_starts (st : State) :
    (start_range st).starts = st.starts ++ [(st.extra2_hex, st.range_start)] := by
  rw [start_range, out_starts]
  rfl

theorem start_range_announced {st : State} (h : Announced st.outputs) : Announced (start_range st).outputs := by
  refine h.append ?_
  intro before extranonce2 window after heq
  rcases before with _ | ⟨o0, _ | ⟨o1, _ | ⟨o2, _ | ⟨o3, _ | ⟨o4, _ | ⟨o5, rest⟩⟩⟩⟩⟩⟩
  all_goals simp only [List.nil_append, List.cons_append, List.cons.injEq, reduceCtorEq, false_and, and_false] at heq
  · obtain ⟨rfl, rfl, rfl, rfl, hstart, _⟩ := heq
    cases hstart
    exact ⟨[.reg_write 0 4], rfl⟩
  · cases rest <;> simp at heq

/-- The header that `build_header` makes for a decoded time. -/
def State.new_header (st : State) (time : List Byte) : List Byte :=
  bitcoin_build_header st.job.version st.job.prev st.job.bits time st.job.coin1
    (st.extra1.take st.extra1_size) (st.extra2.take st.extra2_size) st.job.coin2 st.job.branches

/-- The state in which `build_header` starts its first range. -/
def State.load (st : State) (time : List Byte) : State :=
  { st with
    extra2_hex := hex_encode (st.extra2.take st.extra2_size)
    header := st.new_header time
    extra2 := (increment st.extra2 st.extra2_size).1
    extra_exhausted := (increment st.extra2 st.extra2_size).2
    range_start := 0 }.out (job_writes (bitcoin_header_midstate (st.new_header time)) st.job.target
      (bitcoin_header_tail_words (st.new_header time)))

/-- The outcomes of `build_header`. -/
theorem build_header_cases (st : State) :
    (∃ time, hex_decode (st.job.time.take 8) 4 = some time ∧ time.length = 4 ∧ st.extra_exhausted = false ∧
      build_header st = (start_range (st.load time), true)) ∨
    ∃ hex, build_header st = ({ st with extra2_hex := hex }, false) := by
  unfold build_header
  by_cases hexhausted : st.extra_exhausted = true
  · refine .inr ⟨st.extra2_hex, ?_⟩
    rw [if_pos hexhausted]
  · rw [if_neg hexhausted]
    cases htime : hex_decode (st.job.time.take 8) 4 with
    | none =>
      refine .inr ⟨hex_encode (st.extra2.take st.extra2_size), ?_⟩
      simp only [htime]
    | some time =>
      by_cases hlen : time.length = 4
      · refine .inl ⟨time, rfl, hlen, Bool.eq_false_iff.mpr hexhausted, ?_⟩
        simp only [htime, hlen, bne_self_eq_false, Bool.false_eq_true, ↓reduceIte]
        rfl
      · refine .inr ⟨hex_encode (st.extra2.take st.extra2_size), ?_⟩
        simp only [htime, bne_iff_ne.mpr hlen, ↓reduceIte]

theorem job_writes_quiet (mid target : Vector Word 8) (tail : Vector Word 4) {A : Type} {f : Output → Option A}
    (hwrite : ∀ offset value, f (.reg_write offset value) = none) :
    (job_writes mid target tail).filterMap f = [] := by
  rw [List.filterMap_eq_nil_iff]
  intro o ho
  simp only [job_writes, List.mem_append, List.mem_flatMap, List.mem_map, List.mem_cons, List.not_mem_nil,
    or_false] at ho
  obtain ⟨_, _, rfl | rfl⟩ | ⟨_, _, rfl⟩ := ho
  · exact hwrite _ _
  · exact hwrite _ _
  · exact hwrite _ _

theorem load_submits (st : State) (time : List Byte) : (st.load time).submits = st.submits := by
  rw [State.load, out_submits, job_writes_quiet _ _ _ fun _ _ => rfl, List.append_nil]
  rfl

theorem load_starts (st : State) (time : List Byte) : (st.load time).starts = st.starts := by
  rw [State.load, out_starts, job_writes_quiet _ _ _ fun _ _ => rfl, List.append_nil]
  rfl

theorem build_header_submits (st : State) : (build_header st).1.submits = st.submits := by
  obtain ⟨time, _, _, _, heq⟩ | ⟨hex, heq⟩ := build_header_cases st
  · rw [heq, start_range_submits, load_submits]
  · rw [heq]
    rfl

theorem build_header_announced {st : State} (h : Announced st.outputs) : Announced (build_header st).1.outputs := by
  obtain ⟨time, _, _, _, heq⟩ | ⟨hex, heq⟩ := build_header_cases st
  · rw [heq]
    exact start_range_announced (h.append (announced_quiet (job_writes_quiet _ _ _ fun _ _ => rfl)))
  · rw [heq]
    exact h

/-- A handler that leaves the assigned work alone, or goes on to the next
header with it. -/
def Continues (st : State) (r : State × Bool) : Prop :=
  st.Silent r.1 ∨ ∃ st', st.Silent st' ∧ st'.subscribed = true ∧ r = build_header st'

theorem Continues.submits {r : State × Bool} (h : Continues st r) : r.1.submits = st.submits := by
  obtain hsilent | ⟨st', hsilent, _, rfl⟩ := h
  · exact hsilent.submits
  · rw [build_header_submits, hsilent.submits]

theorem Continues.announced {r : State × Bool} (h : Continues st r) (ha : Announced st.outputs) : Announced r.1.outputs := by
  obtain hsilent | ⟨st', hsilent, _, rfl⟩ := h
  · exact hsilent.work.announced ha
  · exact build_header_announced (hsilent.work.announced ha)

theorem set_difficulty_continues (j : Json) (s : List Byte) (st : State) :
    Continues st (set_difficulty j s st) := by
  left
  unfold set_difficulty
  split
  · split
    · exact State.Silent.refl st
    next target _ =>
      exact (show st.Silent { st with pending_target := target } from
      ⟨⟨rfl, rfl, rfl, rfl, rfl, rfl, rfl, fun hr => hr, fun ha => ha⟩, rfl⟩).trans (out_silent _ _ rfl rfl)
  · exact State.Silent.refl st

/-- The state in which `notify` has taken over a job. -/
def State.received (st : State) (f : NotifyFields) : State :=
  let st := { stop st with
    job := ⟨f.id, f.time, st.job.number, f.prev, f.version, f.bits, f.coin1, f.coin2, f.branches, st.pending_target⟩
    have_job := true }
  let st := telemetry_job st
  { st with job := { st.job with number := st.jobs } }

theorem notify_eq (j : Json) (s : List Byte) (st : State) :
    notify j s st =
      if !st.subscribed then (st, false)
      else
        match parse_notify j s with
        | none => ({ stop st with have_job := false }, false)
        | some f => if st.authorized then build_header (st.received f) else (st.received f, true) := by
  unfold notify
  cases st.subscribed <;> rfl

theorem telemetry_job_silent (st : State) : st.Silent (telemetry_job st) :=
  (show st.Silent { st with jobs := st.jobs + 1 } from
    ⟨⟨rfl, rfl, rfl, rfl, rfl, rfl, rfl, fun hr => hr, fun ha => ha⟩, rfl⟩).trans (out_silent _ _ rfl rfl)

theorem received_silent (st : State) (f : NotifyFields) : st.Silent (st.received f) := by
  have hjob : State.Silent (stop st) { stop st with
      job := ⟨f.id, f.time, st.job.number, f.prev, f.version, f.bits, f.coin1, f.coin2, f.branches, st.pending_target⟩
      have_job := true } := ⟨⟨rfl, rfl, rfl, rfl, rfl, rfl, rfl, fun hr => hr, fun ha => ha⟩, rfl⟩
  have hcounted := ((stop_silent st).trans hjob).trans (telemetry_job_silent _)
  exact hcounted.trans ⟨⟨rfl, rfl, rfl, rfl, rfl, rfl, rfl, fun hr => hr, fun ha => ha⟩, rfl⟩

theorem notify_continues (j : Json) (s : List Byte) (st : State) : Continues st (notify j s st) := by
  rw [notify_eq]
  split
  · exact .inl (State.Silent.refl st)
  next hsub =>
    split
    · exact .inl (stop_drop_silent st)
    next f _ =>
      split
      · have hsilent := received_silent st f
        exact .inr ⟨_, hsilent, hsilent.work.subscribed.trans (by simpa using hsub), rfl⟩
      · exact .inl (received_silent st f)

theorem authorize_reply_continues (j : Json) (s : List Byte) (sent : Bool) (st : State) :
    Continues st (authorize_reply j s sent st) := by
  have hauth : st.Silent ({ st with authorized := true }.out [.event .pool_authorized, .send suggest_request]) :=
    (show st.Silent { st with authorized := true } from
      ⟨⟨rfl, rfl, rfl, rfl, rfl, rfl, rfl, fun hr => hr, fun ha => ha⟩, rfl⟩).trans (out_silent _ _ rfl rfl)
  unfold authorize_reply
  dsimp only
  generalize { st with authorized := true }.out [.event .pool_authorized, .send suggest_request] = st' at hauth ⊢
  split
  · exact .inl (State.Silent.refl st)
  next hfirst =>
    simp only [Bool.or_eq_true, Bool.not_eq_true', not_or, Bool.not_eq_false, Bool.not_eq_true] at hfirst
    split
    · exact .inl (out_silent st _ rfl rfl)
    · split
      · exact .inl hauth
      · split
        · exact .inr ⟨st', hauth, hauth.work.subscribed.trans hfirst.1, rfl⟩
        · exact .inl hauth

theorem pending_silent (st : State) (pending : List Pending) : st.Silent { st with pending } :=
  ⟨⟨rfl, rfl, rfl, rfl, rfl, rfl, rfl, fun hr => hr, fun ha => ha⟩, rfl⟩

theorem share_reply_silent (id : Word) (accepted : Bool) (st : State) : st.Silent (share_reply id accepted st) := by
  unfold share_reply
  split
  · exact State.Silent.refl st
  next i _ =>
    extract_lets p event
    exact (pending_silent st _).trans (out_silent _ _ rfl rfl)

/-- Lines that set the extranonces: the subscription reply and
`mining.set_extranonce`. -/
def extranonce_line (j : Json) (s : List Byte) : Bool :=
  if has_method j s then parse_method (j.slice s "method") = .set_extranonce else json_u32 j s "id" = some 1

/-- New extranonces are in force: the counter starts over, or was not used. -/
structure State.Renewed (st st' : State) : Prop where
  size : 1 ≤ st'.extra2_size ∧ st'.extra2_size ≤ 16
  counter : (st'.extra2 = List.replicate 16 0 ∧ st'.extra_exhausted = false ∧ st'.running = false) ∨
    (st.subscribed = false ∧ st'.extra2 = st.extra2 ∧ st'.extra_exhausted = st.extra_exhausted ∧
      st'.running = st.running)

/-- A handler of new extranonces starts and submits nothing. -/
structure Renews (st : State) (r : State × Bool) : Prop where
  starts : r.1.starts = st.starts
  submits : r.1.submits = st.submits
  renewed : r.2 = true → st.Renewed r.1
  announced : Announced st.outputs → Announced r.1.outputs

theorem State.Silent.renews {st' : State} (h : st.Silent st') : Renews st (st', false) :=
  ⟨h.work.starts, h.submits, fun hok => (by cases hok), h.work.announced⟩

theorem extranonce_size_bounds {j : Json} {s : List Byte} {q : String} {size : Nat}
    (h : extranonce_size j s q = some size) : 1 ≤ size ∧ size ≤ 16 := by
  unfold extranonce_size at h
  split at h
  · cases h
  next count _ =>
    split at h
    · cases h
    next hrange =>
      cases h
      simp only [Bool.or_eq_true, decide_eq_true_eq, not_or, gt_iff_lt, BitVec.lt_def] at hrange
      have hne : count.toNat ≠ 0 := fun h0 => hrange.1 (BitVec.eq_of_toNat_eq h0)
      have hmax : (16 : Word).toNat = 16 := rfl
      omega

theorem set_extranonce_renews (j : Json) (s : List Byte) (st : State) : Renews st (set_extranonce j s st) := by
  unfold set_extranonce
  split
  · exact (State.Silent.refl st).renews
  next out _ =>
    dsimp only
    split
    · exact State.Silent.renews ⟨⟨rfl, rfl, rfl, rfl, rfl, rfl, rfl, fun hr => hr, fun ha => ha⟩, rfl⟩
    next count hsize =>
      have hstop := stop_silent { st with extra1 := store_front st.extra1 out }
      exact ⟨hstop.work.starts, hstop.submits, fun _ => ⟨extranonce_size_bounds hsize, .inl ⟨rfl, rfl, rfl⟩⟩,
        hstop.work.announced⟩

theorem subscribe_reply_renews (j : Json) (s : List Byte) (sent : Bool) (st : State) :
    Renews st (subscribe_reply j s sent st) := by
  unfold subscribe_reply
  split
  · exact (State.Silent.refl st).renews
  next hsub =>
    split
    · exact (State.Silent.refl st).renews
    next out _ =>
      dsimp only
      split
      · exact State.Silent.renews ⟨⟨rfl, rfl, rfl, rfl, rfl, rfl, rfl, fun hr => hr, fun ha => ha⟩, rfl⟩
      next count hsize =>
        have hout := out_silent { st with
          extra1 := store_front st.extra1 out, extra1_size := out.length, extra2_size := count, subscribed := true }
          [.send (authorize_request st.worker st.password)] rfl rfl
        exact ⟨hout.work.starts, hout.submits, fun _ =>
          ⟨extranonce_size_bounds hsize, .inr ⟨Bool.eq_false_iff.mpr hsub, rfl, rfl, rfl⟩⟩, hout.work.announced⟩

theorem handle_line_continues {j : Json} {s : List Byte} (sent : Bool) (st : State)
    (hline : extranonce_line j s = false) : Continues st (handle_line j s sent st) := by
  have hrefl : st.Silent st := State.Silent.refl st
  unfold handle_line
  split
  · exact .inl hrefl
  · unfold extranonce_line at hline
    split <;> rename_i hmethod
    · rw [if_pos hmethod, decide_eq_false_iff_not] at hline
      unfold notification
      split
      · exact .inl hrefl
      next method hstring =>
        rw [json_string_eq hstring] at hline
        split
        · exact set_difficulty_continues j s st
        next hparse => exact absurd hparse hline
        · exact notify_continues j s st
        · exact .inl hrefl
    · rw [if_neg hmethod, decide_eq_false_iff_not] at hline
      unfold reply
      split
      · exact .inl hrefl
      next id hid =>
        have hone : ¬id = 1 := fun heq => hline (by rw [hid, heq])
        rw [if_neg hone]
        split
        · exact authorize_reply_continues j s sent st
        · exact .inl (share_reply_silent id _ st)

theorem handle_line_renews {j : Json} {s : List Byte} (sent : Bool) (st : State)
    (hline : extranonce_line j s = true) : Renews st (handle_line j s sent st) := by
  have hrefl : st.Silent st := State.Silent.refl st
  unfold handle_line
  split
  · exact hrefl.renews
  · unfold extranonce_line at hline
    split <;> rename_i hmethod
    · rw [if_pos hmethod, decide_eq_true_iff] at hline
      unfold notification
      split
      · exact hrefl.renews
      next method hstring =>
        rw [json_string_eq hstring] at hline
        rw [hline]
        exact set_extranonce_renews j s st
    · rw [if_neg hmethod, decide_eq_true_iff] at hline
      unfold reply
      rw [hline]
      exact subscribe_reply_renews j s sent st

theorem handle_line_submits (j : Json) (s : List Byte) (sent : Bool) (st : State) :
    (handle_line j s sent st).1.submits = st.submits := by
  cases hline : extranonce_line j s with
  | false => exact (handle_line_continues sent st hline).submits
  | true => exact (handle_line_renews sent st hline).submits

/-- The state in which a result is checked. -/
def State.patched (st : State) (nonce : Word) : State :=
  { st.out [.reg_write 0x98 1] with header := patch_nonce st.header nonce }

/-- The share that a result is submitted as. -/
def State.share (st : State) (nonce : Word) : Share :=
  ⟨st.next_id, st.worker, st.job.id, st.extra2_hex, st.job.time, format_08lx (bitcoin_swap32 nonce)⟩

/-- A result is dropped, or submitted after a successful check. -/
theorem submit_result_cases (nonce : Word) (sent : Bool) (now : Word) (st : State) :
    ∃ next_id pending outputs, outputs.filterMap Output.submitted = [] ∧ outputs.filterMap Output.started = [] ∧
      ((submit_result nonce sent now st).1 = { st.patched nonce with next_id, pending }.out outputs ∨
        share_valid (sha256d (patch_nonce st.header nonce)) st.job.target = true ∧
        (submit_result nonce sent now st).1 = { st.patched nonce with next_id, pending }.out
          (.submit (st.share nonce) (patch_nonce st.header nonce) :: outputs)) := by
  unfold submit_result
  extract_lets st1 st2 digest share st3 st4 event source
  have hdigest : digest = sha256d (patch_nonce st.header nonce) := rfl
  have hkeep (st : State) : st.out [] = st := by rw [State.out, List.append_nil]
  clear_value digest
  split
  · exact ⟨st.next_id, st.pending, [.event .hardware_solution_invalid], rfl, rfl, .inl rfl⟩
  next hvalid =>
    split
    · exact ⟨st.next_id, st.pending, [.event .share_queue_full], rfl, rfl, .inl rfl⟩
    next slot _ =>
      split
      · exact ⟨st.next_id, st.pending, [], rfl, rfl, .inl (hkeep st2).symm⟩
      · split
        · exact ⟨st.next_id + 1, st.pending, [], rfl, rfl, .inl (hkeep st3).symm⟩
        · have hpassed : share_valid (sha256d (patch_nonce st.header nonce)) st.job.target = true := by
            rw [hdigest] at hvalid
            exact Bool.eq_true_of_not_eq_false fun hf => hvalid (by rw [show st2.job = st.job from rfl, hf]; rfl)
          have hshare : share = st.share nonce := rfl
          have hst4 : st4 = { st.patched nonce with next_id := st.next_id + 1 }.out
              [.submit (st.share nonce) (patch_nonce st.header nonce)] := by
            rw [← hshare]
            clear_value share
            rfl
          split
          · exact ⟨st.next_id + 1, st.pending, [], rfl, rfl, .inr ⟨hpassed, hst4⟩⟩
          · refine ⟨st.next_id + 1, st.pending.set slot ⟨share.id, now, event⟩, [.detail event], rfl, rfl,
              .inr ⟨hpassed, ?_⟩⟩
            clear_value event st4
            rw [hst4]
            exact out_pending { st.patched nonce with next_id := st.next_id + 1 } _ _ _

theorem patched_same_work (st : State) (nonce : Word) : st.SameWork (st.patched nonce) :=
  (out_same_work st [.reg_write 0x98 1] rfl).trans ⟨rfl, rfl, rfl, rfl, rfl, rfl, rfl, fun hr => hr, fun ha => ha⟩

/-- One result leaves the work assigned. -/
theorem submit_result_same_work (nonce : Word) (sent : Bool) (now : Word) (st : State) :
    st.SameWork (submit_result nonce sent now st).1 := by
  obtain ⟨next_id, pending, outputs, _, hstart, heq⟩ := submit_result_cases nonce sent now st
  have hbook : st.SameWork { st.patched nonce with next_id, pending } :=
    (patched_same_work st nonce).trans ⟨rfl, rfl, rfl, rfl, rfl, rfl, rfl, fun hr => hr, fun ha => ha⟩
  obtain heq | ⟨_, heq⟩ := heq
  · rw [heq]
    exact hbook.trans (out_same_work _ _ hstart)
  · rw [heq]
    exact hbook.trans (out_same_work _ _ hstart)

theorem result_loop_same_work (env : Environment) (n k : Nat) (st : State) :
    st.SameWork (result_loop env n k st).1 := by
  induction n generalizing k st with
  | zero => exact State.SameWork.refl st
  | succ n ih =>
    have hsubmit := submit_result_same_work (env.result_nonce k) (env.sent k) env.now st
    rw [result_loop]
    generalize submit_result (env.result_nonce k) (env.sent k) env.now st = r at hsubmit ⊢
    dsimp only
    split
    · exact State.SameWork.refl st
    · split
      · exact hsubmit
      · exact hsubmit.trans (ih (k + 1) r.1)

theorem submit_result_running (nonce : Word) (sent : Bool) (now : Word) (st : State) :
    (submit_result nonce sent now st).1.running = st.running := by
  obtain ⟨next_id, pending, outputs, _, _, heq | ⟨_, heq⟩⟩ := submit_result_cases nonce sent now st
  · rw [heq]
    rfl
  · rw [heq]
    rfl

theorem result_loop_running (env : Environment) (n k : Nat) (st : State) :
    (result_loop env n k st).1.running = st.running := by
  induction n generalizing k st with
  | zero => rfl
  | succ n ih =>
    have hsubmit := submit_result_running (env.result_nonce k) (env.sent k) env.now st
    rw [result_loop]
    generalize submit_result (env.result_nonce k) (env.sent k) env.now st = r at hsubmit ⊢
    dsimp only
    split
    · rfl
    · split
      · exact hsubmit
      · rw [ih, hsubmit]

/-- The next window of the header, or a new header after the last one. -/
theorem next_range_cases (st : State) :
    (st.range_start + RANGE = 0 ∧ next_range st =
      build_header (stop { st with range_start := st.range_start + RANGE })) ∨
    (st.range_start + RANGE ≠ 0 ∧ next_range st =
      (start_range { st with range_start := st.range_start + RANGE }, true)) := by
  by_cases hzero : st.range_start + RANGE = 0
  · refine .inl ⟨hzero, ?_⟩
    rw [next_range]
    exact if_pos hzero
  · refine .inr ⟨hzero, ?_⟩
    rw [next_range]
    exact if_neg hzero

theorem window_submits (st : State) (window : Word) : { st with range_start := window }.submits = st.submits := rfl

theorem window_starts (st : State) (window : Word) : { st with range_start := window }.starts = st.starts := rfl

theorem next_range_submits (st : State) : (next_range st).1.submits = st.submits := by
  obtain ⟨_, heq⟩ | ⟨_, heq⟩ := next_range_cases st
  · rw [heq, build_header_submits, (stop_silent _).submits, window_submits]
  · rw [heq, start_range_submits, window_submits]

/-- A poll leaves the work assigned, or is done with the range. -/
theorem service_results_cases (env : Environment) (st : State) :
    st.SameWork (service_results env st).1 ∨
      ∃ st', st.SameWork st' ∧ st'.running = true ∧ service_results env st = next_range st' := by
  unfold service_results
  split
  · exact .inl (State.SameWork.refl st)
  next hrun =>
    split
    · exact .inl (out_same_work st _ rfl)
    · have hloop := result_loop_same_work env 16 0 st
      have hkept := result_loop_running env 16 0 st
      generalize result_loop env 16 0 st = r at hloop hkept ⊢
      dsimp only
      split
      · exact .inl hloop
      · split
        · exact .inr ⟨r.1, hloop, hkept.trans (by simpa using hrun), rfl⟩
        · exact .inl hloop

theorem next_range_announced {st : State} (h : Announced st.outputs) : Announced (next_range st).1.outputs := by
  obtain ⟨_, heq⟩ | ⟨_, heq⟩ := next_range_cases st
  · rw [heq]
    exact build_header_announced ((stop_silent _).work.announced h)
  · rw [heq]
    exact start_range_announced h

theorem reply_timeouts_silent (now limit : Word) (st : State) : st.Silent (reply_timeouts now limit st).1 := by
  refine out_silent st _ ?_ ?_ <;> simp [List.filterMap_eq_nil_iff, Output.submitted, Output.started]

/-- The state before an event, with the outputs of the last one dropped. -/
def State.cleared (st : State) : State := { st with outputs := [] }

theorem step_open (j : Json) (hconn : st.connected = true) (e : Event) :
    step j st e =
      match e with
      | .connect _ _ _ => st.cleared
      | .line text sent => finish (handle_line j text sent st.cleared)
      | .service env => finish (service_results env st.cleared)
      | .timeouts now limit => finish (reply_timeouts now limit st.cleared)
      | .disconnect => disconnect st.cleared := by
  cases e <;> exact if_pos hconn

theorem step_closed (j : Json) (hconn : st.connected = false) (e : Event) :
    step j st e =
      match e with
      | .connect worker password sent => connect worker password sent st.cleared
      | _ => st.cleared := by
  have hclosed : ¬st.connected = true := by simp [hconn]
  cases e <;> exact if_neg hclosed

end Handlers

end scu35.stratum
