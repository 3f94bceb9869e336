import Scu35Miner.Software.Dashboard.Telemetry
import Scu35Miner.Software.Stratum.Work

open fips180 transition

namespace scu35.stratum

open sha256_sw bitcoin json_helpers

/-- An output of a run, with its session and the event that caused it. -/
structure Entry where
  session : Nat
  cause : Event
  output : Output

/-- The share counters of the statistics, without their 32-bit limit. -/
structure Counters where
  submitted : Nat
  accepted : Nat
  rejected : Nat
deriving DecidableEq, Repr

/-- What `telemetry_detail` counts. -/
def Counters.detail (c : Counters) (name : EventName) : Counters where
  submitted := if name = .solution_submitted then c.submitted + 1 else c.submitted
  accepted := if name = .solution_accepted then c.accepted + 1 else c.accepted
  rejected := if name = .solution_rejected then c.rejected + 1 else c.rejected

def Counters.output (c : Counters) : Output → Counters
  | .event name => c.detail name
  | .detail event => c.detail event.name
  | _ => c

/-- The statistics hold the counters in 32 bits. -/
structure Counters.Shown (c : Counters) (s : miner_protocol.miner_stats) : Prop where
  submitted : s.submitted = BitVec.ofNat 32 c.submitted
  accepted : s.accepted = BitVec.ofNat 32 c.accepted
  rejected : s.rejected = BitVec.ofNat 32 c.rejected

theorem count_if_ofNat (p : Prop) [Decidable p] (n : Nat) :
    dashboard.count_if p (BitVec.ofNat 32 n) = BitVec.ofNat 32 (if p then n + 1 else n) := by
  by_cases hp : p
  · simp [dashboard.count_if, hp, BitVec.ofNat_add]
  · simp [dashboard.count_if, hp]

theorem Counters.Shown.detail {c : Counters} {s : miner_protocol.miner_stats} (h : c.Shown s) (name : EventName) :
    (c.detail name).Shown (dashboard.count_event name s) where
  submitted := by
    rw [dashboard.count_event, h.submitted]
    exact count_if_ofNat ..
  accepted := by
    rw [dashboard.count_event, h.accepted]
    exact count_if_ofNat ..
  rejected := by
    rw [dashboard.count_event, h.rejected]
    exact count_if_ofNat ..

theorem Counters.Shown.telemetry_detail {c : Counters} {t : dashboard.Telemetry} (h : c.Shown t.stats)
    (event : miner_event) : (c.detail event.name).Shown (dashboard.telemetry_detail event t).stats := by
  have hshown := h.detail event.name
  unfold dashboard.telemetry_detail
  dsimp only
  split
  · exact hshown
  · exact ⟨hshown.submitted, hshown.accepted, hshown.rejected⟩

/-- What the telemetry makes of the outputs of the task. -/
theorem Counters.Shown.output {c : Counters} {t : dashboard.Telemetry} (h : c.Shown t.stats) (id : List Byte)
    (o : Output) : (c.output o).Shown (dashboard.telemetry_output id t o).stats := by
  cases o with
  | event name =>
    cases name with
    | mining_job_received =>
      have hcounted : c.Shown { t.stats with jobs := t.stats.jobs + 1, job_id := id } :=
        ⟨h.submitted, h.accepted, h.rejected⟩
      let t' : dashboard.Telemetry := { t with stats := { t.stats with jobs := t.stats.jobs + 1, job_id := id } }
      exact (show c.Shown t'.stats from hcounted).telemetry_detail ⟨.mining_job_received, _, _, _, _⟩
    | _ => exact h.telemetry_detail ⟨_, _, _, _, _⟩
  | detail event => exact h.telemetry_detail event
  | mining active => exact ⟨h.submitted, h.accepted, h.rejected⟩
  | _ => exact h

/-- The history of the shares: the session, the outputs of all sessions, the
counters, and the shares without a reply at the ends of the sessions. -/
structure Books where
  session : Nat
  log : List Entry
  counters : Counters
  dropped : Nat

def Books.empty : Books := ⟨0, [], ⟨0, 0, 0⟩, 0⟩

def Books.record (cause : Event) (b : Books) (o : Output) : Books :=
  { b with log := b.log ++ [⟨b.session, cause, o⟩], counters := b.counters.output o }

def Books.post (cause : Event) (b : Books) (outputs : List Output) : Books := outputs.foldl (Books.record cause) b

/-- The slots of `pending` that are in use. -/
def occupied (pending : List Pending) : Nat := pending.countP (·.id != 0)

/-- A connection starts a new session. -/
def begins (st : State) : Event → Bool
  | .connect _ _ _ => !st.connected
  | _ => false

/-- The history after an event that leads from `st` to `st'`. -/
def Books.step (b : Books) (st : State) (e : Event) (st' : State) : Books :=
  let b := { b with session := if begins st e then b.session + 1 else b.session }
  let b := b.post e st'.outputs
  { b with dropped := if st.connected && !st'.connected then b.dropped + occupied st'.pending else b.dropped }

def account_step (j : Json) (p : State × Books) (e : Event) : State × Books :=
  (step j p.1 e, p.2.step p.1 e (step j p.1 e))

/-- The session and the identifier of a submission. -/
def Entry.submission (x : Entry) : Option (Nat × Word) :=
  match x.output with
  | .submit share _ => some (x.session, share.id)
  | _ => none

/-- The names of verdicts on shares. -/
def EventName.verdict : EventName → Bool
  | .solution_accepted | .solution_rejected => true
  | _ => false

/-- The names of events about a share. -/
def EventName.about_share : EventName → Bool
  | .solution_submitted | .solution_accepted | .solution_rejected | .share_reply_timeout => true
  | _ => false

/-- The session of a verdict and the identifier in the line that caused it. -/
def Entry.verdict (j : Json) (x : Entry) : Option (Nat × Word) :=
  match x.output, x.cause with
  | .detail event, .line text _ => if event.name.verdict then (json_u32 j text "id").map (x.session, ·) else none
  | _, _ => none

def submissions (log : List Entry) : List (Nat × Word) := log.filterMap Entry.submission

def verdicts (j : Json) (log : List Entry) : List (Nat × Word) := log.filterMap (Entry.verdict j)

def Output.received : Output → Bool
  | .event .mining_job_received => true
  | _ => false

/-- The jobs received so far, in the 32 bits of a job number. -/
def jobs_received (log : List Entry) : Word := BitVec.ofNat 32 (log.countP fun x => x.output.received)

/-- The event of a submission carries the request, the hash of the header that
was checked and the number of the job. -/
structure Describes (event : miner_event) (share : Share) (header : List Byte) (number : Word) : Prop where
  name : event.name = .solution_submitted
  job_id : event.job_id = share.job_id
  submission : event.submission = share.line
  hash : event.hash = hex_encode ((List.range 32).map fun i => (sha256d header).getD (31 - i) 0)
  number : event.job_number = number

/-- A share was sent in a session under an identifier and announced by `event`,
under the number of the last job received before. -/
def SubmittedAs (log : List Entry) (session : Nat) (id : Word) (event : miner_event) : Prop :=
  ∃ before cause share header,
    before ++ [⟨session, cause, .submit share header⟩, ⟨session, cause, .detail event⟩] <+: log ∧
      share.id = id ∧ Describes event share header (jobs_received before)

/-- The submission that an event reports on. -/
def miner_event.origin (event : miner_event) : miner_event := { event with name := .solution_submitted }

/-- An entry is justified by the entries before it: a verdict answers a line
with the identifier of its submission, and a timeout is about a submission of
the same session. -/
structure Justified (j : Json) (before : List Entry) (x : Entry) : Prop where
  verdict : ∀ event, x.output = .detail event → event.name.verdict = true →
    ∃ text sent id, x.cause = .line text sent ∧ json_u32 j text "id" = some id ∧
      SubmittedAs before x.session id event.origin
  timeout : ∀ event, x.output = .detail event → event.name = .share_reply_timeout →
    ∃ id, SubmittedAs before x.session id event.origin
  plain : ∀ name, x.output = .event name → name.about_share = false

/-- The identifiers in use are pairwise distinct. -/
def Distinct (pending : List Pending) : Prop :=
  ∀ (i k : Nat) (p q : Pending), pending[i]? = some p → pending[k]? = some q → p.id ≠ 0 → p.id = q.id → i = k

/-- Every share is accounted for. -/
structure SharesExact (j : Json) (st : State) (b : Books) : Prop where
  distinct : Distinct st.pending
  current : ∀ p ∈ st.pending, p.id ≠ 0 → SubmittedAs b.log b.session p.id p.event
  justified : ∀ before x, before ++ [x] <+: b.log → Justified j before x
  submitted_once : (submissions b.log).Nodup
  answered_once : (verdicts j b.log).Nodup
  balance : b.counters.submitted = b.counters.accepted + b.counters.rejected +
    (if st.connected then occupied st.pending else 0) + b.dropped

/-- Identifiers that are no longer available in the session; zero stands for
all of them. -/
def issued_below (next_id : Word) : Nat := if next_id = 0 then 2 ^ 32 else next_id.toNat

/-- The invariant behind `SharesExact`, with `held` shares that wait for a
reply. -/
structure Accounted (j : Json) (b : Books) (pending : List Pending) (next_id : Word) (held : Nat) : Prop where
  distinct : Distinct pending
  current : ∀ p ∈ pending, p.id ≠ 0 → SubmittedAs b.log b.session p.id p.event
  unanswered : ∀ p ∈ pending, p.id ≠ 0 → (b.session, p.id) ∉ verdicts j b.log
  justified : ∀ before x, before ++ [x] <+: b.log → Justified j before x
  submitted_once : (submissions b.log).Nodup
  answered_once : (verdicts j b.log).Nodup
  issued : ∀ id, (b.session, id) ∈ submissions b.log → id.toNat < issued_below next_id
  sessions : ∀ x ∈ b.log, x.session ≤ b.session
  balance : b.counters.submitted = b.counters.accepted + b.counters.rejected + held + b.dropped

theorem SubmittedAs.mono {log log' : List Entry} {session : Nat} {id : Word} {event : miner_event}
    (h : SubmittedAs log session id event) ( hprefix : log <+: log') : SubmittedAs log' session id event := by
  obtain ⟨before, cause, share, header, hlog, hid, hdesc⟩ := h
  exact ⟨before, cause, share, header, hlog.trans hprefix, hid, hdesc⟩

theorem SubmittedAs.mem {log : List Entry} {session : Nat} {id : Word} {event : miner_event}
    (h : SubmittedAs log session id event) : (session, id) ∈ submissions log := by
  obtain ⟨before, cause, share, header, hlog, rfl, _⟩ := h
  exact List.mem_filterMap.mpr ⟨_, hlog.subset (List.mem_append_right before (List.mem_cons_self ..)), rfl⟩

theorem Books.post_append (cause : Event) (b : Books) (xs ys : List Output) :
    b.post cause (xs ++ ys) = (b.post cause xs).post cause ys := List.foldl_append

theorem Books.post_concat (cause : Event) (b : Books) (xs : List Output) (o : Output) :
    b.post cause (xs ++ [o]) = (b.post cause xs).record cause o := Books.post_append cause b xs [o]

@[simp]
theorem Books.post_session (cause : Event) (b : Books) (outputs : List Output) :
    (b.post cause outputs).session = b.session := by
  induction outputs generalizing b with
  | nil => rfl
  | cons o outputs ih => exact ih (b.record cause o)

theorem Books.post_log (cause : Event) (b : Books) (outputs : List Output) :
    (b.post cause outputs).log = b.log ++ outputs.map fun o => ⟨b.session, cause, o⟩ := by
  induction outputs generalizing b with
  | nil => exact (List.append_nil _).symm
  | cons o outputs ih =>
    have hpost := ih (b.record cause o)
    rw [Books.record, List.append_assoc] at hpost
    exact hpost

theorem jobs_received_post (cause : Event) (b : Books) (outputs : List Output) :
    jobs_received (b.post cause outputs).log =
      jobs_received b.log + BitVec.ofNat 32 (outputs.countP Output.received) := by
  rw [jobs_received, Books.post_log, List.countP_append, List.countP_map, BitVec.ofNat_add]
  rfl

theorem submissions_record (cause : Event) (b : Books) (o : Output) :
    submissions (b.record cause o).log = submissions b.log ++ (Entry.submission ⟨b.session, cause, o⟩).toList := by
  rw [submissions, Books.record, List.filterMap_append]
  rfl

theorem verdicts_record (j : Json) (cause : Event) (b : Books) (o : Output) :
    verdicts j (b.record cause o).log = verdicts j b.log ++ (Entry.verdict j ⟨b.session, cause, o⟩).toList := by
  rw [verdicts, Books.record, List.filterMap_append]
  rfl

section Accounting

variable {j : Json} {b : Books} {pending : List Pending} {next_id : Word} {held : Nat}

/-- A verdict is about a submission. -/
theorem Accounted.answered_submitted (h : Accounted j b pending next_id held) {session : Nat} {id : Word}
    (hmem : (session, id) ∈ verdicts j b.log) : (session, id) ∈ submissions b.log := by
  obtain ⟨x, hx, hkey⟩ := List.mem_filterMap.mp hmem
  obtain ⟨before, after, hlog⟩ := List.append_of_mem hx
  have hprefix : before ++ [x] <+: b.log := ⟨after, by rw [hlog, List.append_assoc]; rfl⟩
  unfold Entry.verdict at hkey
  split at hkey
  next event text sent hout hcause =>
    split at hkey
    next hname =>
      obtain ⟨text', sent', id', hline, hid, hsubmitted⟩ := (h.justified before x hprefix).verdict event hout hname
      rw [hcause, Event.line.injEq] at hline
      rw [hline.1, hid, Option.map_some, Option.some.injEq, Prod.mk.injEq] at hkey
      obtain ⟨rfl, rfl⟩ := hkey
      exact (hsubmitted.mono ((List.prefix_append before [x]).trans hprefix)).mem
    · cases hkey
  · cases hkey

theorem issued_below_of_ne (hne : next_id ≠ 0) : issued_below next_id = next_id.toNat := if_neg hne

theorem Accounted.fresh (h : Accounted j b pending next_id held) (hne : next_id ≠ 0) :
    (b.session, next_id) ∉ submissions b.log := by
  intro hmem
  have hlt := h.issued next_id hmem
  rw [issued_below_of_ne hne] at hlt
  exact Nat.lt_irrefl _ hlt

theorem Accounted.not_pending (h : Accounted j b pending next_id held) (hne : next_id ≠ 0) {p : Pending}
    (hp : p ∈ pending) : p.id ≠ next_id := by
  intro heq
  have hsubmitted := (h.current p hp (by rw [heq]; exact hne)).mem
  rw [heq] at hsubmitted
  exact h.fresh hne hsubmitted

theorem justified_record (h : Accounted j b pending next_id held) {cause : Event} {o : Output}
    (hjust : Justified j b.log ⟨b.session, cause, o⟩) :
    ∀ before x, before ++ [x] <+: (b.record cause o).log → Justified j before x := by
  intro before x hprefix
  obtain heq | hold := List.prefix_concat_iff.mp hprefix
  · obtain ⟨hbefore, hx⟩ := List.append_inj' heq rfl
    cases hx
    rw [hbefore]
    exact hjust
  · exact h.justified before x hold

theorem log_prefix_record (cause : Event) (b : Books) (o : Output) : b.log <+: (b.record cause o).log :=
  List.prefix_append _ _

theorem sessions_record (h : Accounted j b pending next_id held) (cause : Event) (o : Output) :
    ∀ x ∈ (b.record cause o).log, x.session ≤ (b.record cause o).session := by
  intro x hx
  obtain hold | hnew := List.mem_append.mp hx
  · exact h.sessions x hold
  · rw [List.mem_singleton.mp hnew]
    exact Nat.le_refl _

/-- Outputs that are not about a share. -/
def Output.quiet : Output → Bool
  | .submit _ _ | .detail _ => false
  | .event name => !name.about_share
  | _ => true

theorem Output.quiet_justified {o : Output} (hquiet : o.quiet = true) (before : List Entry) (session : Nat)
    (cause : Event) : Justified j before ⟨session, cause, o⟩ where
  verdict := by
    intro event (hout : o = .detail event)
    rw [hout] at hquiet
    cases hquiet
  timeout := by
    intro event (hout : o = .detail event)
    rw [hout] at hquiet
    cases hquiet
  plain := by
    intro name (hout : o = .event name)
    rw [hout] at hquiet
    simpa [Output.quiet] using hquiet

theorem Output.quiet_counters {o : Output} (hquiet : o.quiet = true) (c : Counters) : c.output o = c := by
  cases o with
  | event name => cases name <;> first | rfl | cases hquiet
  | detail event => cases hquiet
  | _ => rfl

theorem Output.quiet_submission {o : Output} (hquiet : o.quiet = true) (session : Nat) (cause : Event) :
    Entry.submission ⟨session, cause, o⟩ = none := by
  cases o with
  | submit share header => cases hquiet
  | _ => rfl

theorem Output.quiet_verdict {o : Output} (hquiet : o.quiet = true) (session : Nat) (cause : Event) :
    Entry.verdict j ⟨session, cause, o⟩ = none := by
  cases o with
  | detail event => cases hquiet
  | _ => rfl

/-- An entry that is neither a submission nor a verdict. -/
theorem Accounted.record (h : Accounted j b pending next_id held) {cause : Event} {o : Output}
    (hjust : Justified j b.log ⟨b.session, cause, o⟩) (hsubmission : Entry.submission ⟨b.session, cause, o⟩ = none)
    (hverdict : Entry.verdict j ⟨b.session, cause, o⟩ = none) (hcounters : b.counters.output o = b.counters) :
    Accounted j (b.record cause o) pending next_id held where
  distinct := h.distinct
  current := fun p hp hne => (h.current p hp hne).mono (log_prefix_record cause b o)
  unanswered := by
    rw [verdicts_record, hverdict, Option.toList_none, List.append_nil]
    exact h.unanswered
  justified := justified_record h hjust
  submitted_once := by
    rw [submissions_record, hsubmission, Option.toList_none, List.append_nil]
    exact h.submitted_once
  answered_once := by
    rw [verdicts_record, hverdict, Option.toList_none, List.append_nil]
    exact h.answered_once
  issued := by
    rw [submissions_record, hsubmission, Option.toList_none, List.append_nil]
    exact h.issued
  sessions := sessions_record h cause o
  balance := by
    change (b.counters.output o).submitted = _ + (b.counters.output o).rejected + held + b.dropped
    rw [Books.record, hcounters]
    exact h.balance

theorem Accounted.post_quiet (h : Accounted j b pending next_id held) (cause : Event) {outputs : List Output}
    (hquiet : ∀ o ∈ outputs, o.quiet = true) : Accounted j (b.post cause outputs) pending next_id held := by
  induction outputs generalizing b with
  | nil => exact h
  | cons o outputs ih =>
    have ho := hquiet o (by simp)
    exact ih (h.record (Output.quiet_justified ho _ _ _) (Output.quiet_submission ho _ _) (Output.quiet_verdict ho _ _)
      (Output.quiet_counters ho _)) fun q hq => hquiet q (by simp [hq])

theorem Distinct.release (h : Distinct pending) {i : Nat} {p : Pending} (hp : p.id = 0) :
    Distinct (pending.set i p) := by
  intro m k q r hq hr hne heq
  rw [List.getElem?_set] at hq hr
  split at hq
  · split at hq
    · cases hq
      exact absurd hp hne
    · cases hq
  · split at hr
    · split at hr
      · cases hr
        exact absurd (heq.trans hp) hne
      · cases hr
    · exact h m k q r hq hr hne heq

theorem Distinct.take (h : Distinct pending) {i : Nat} {p : Pending} (hfresh : ∀ q ∈ pending, q.id ≠ p.id) :
    Distinct (pending.set i p) := by
  intro m k q r hq hr hne heq
  rw [List.getElem?_set] at hq hr
  split at hq <;> rename_i hm
  · split at hr <;> rename_i hk
    · exact hm.symm.trans hk
    · split at hq
      · cases hq
        exact absurd heq.symm (hfresh r (List.mem_of_getElem? hr))
      · cases hq
  · split at hr
    · split at hr
      · cases hr
        exact absurd heq (hfresh q (List.mem_of_getElem? hq))
      · cases hr
    · exact h m k q r hq hr hne heq

theorem occupied_release {i : Nat} {p q : Pending} (hi : pending[i]? = some p) (hp : p.id ≠ 0) (hq : q.id = 0) :
    occupied pending = occupied (pending.set i q) + 1 := by
  obtain ⟨hlt, hget⟩ := List.getElem?_eq_some_iff.mp hi
  have hpos : 0 < pending.countP (·.id != 0) :=
    List.countP_pos_iff.mpr ⟨p, List.mem_of_getElem? hi, bne_iff_ne.mpr hp⟩
  rw [occupied, occupied, List.countP_set hlt, hget, if_pos (bne_iff_ne.mpr hp), if_neg (by simp [hq])]
  omega

theorem occupied_take {i : Nat} {p q : Pending} (hi : pending[i]? = some p) (hp : p.id = 0) (hq : q.id ≠ 0) :
    occupied (pending.set i q) = occupied pending + 1 := by
  obtain ⟨hlt, hget⟩ := List.getElem?_eq_some_iff.mp hi
  rw [occupied, occupied, List.countP_set hlt, hget, if_neg (by simp [hp]), if_pos (bne_iff_ne.mpr hq)]
  omega

/-- The event of a slot, renamed for a verdict or a timeout. -/
theorem Accounted.origin (h : Accounted j b pending next_id held) {p : Pending} (hp : p ∈ pending) (hne : p.id ≠ 0)
    (name : EventName) : ({ p.event with name } : miner_event).origin = p.event := by
  obtain ⟨_, _, _, _, _, _, hdesc⟩ := h.current p hp hne
  rw [miner_event.origin, ← hdesc.name]

theorem Accounted.timeout (h : Accounted j b pending next_id held) (cause : Event) {p : Pending} (hp : p ∈ pending)
    (hne : p.id ≠ 0) :
    Accounted j (b.record cause (.detail { p.event with name := .share_reply_timeout })) pending next_id held := by
  refine h.record ⟨?_, ?_, ?_⟩ rfl ?_ rfl
  · rintro event hout hname
    cases hout
    cases hname
  · rintro event hout hname
    cases hout
    refine ⟨p.id, ?_⟩
    rw [h.origin hp hne]
    exact h.current p hp hne
  · rintro name hout
    cases hout
  · cases cause <;> rfl

/-- A reply to a share releases its slot. -/
theorem Accounted.answer (h : Accounted j b pending next_id (held + 1)) {text : List Byte} {sent : Bool} {i : Nat}
    {p q : Pending} (hi : pending[i]? = some p) (hne : p.id ≠ 0) (hline : json_u32 j text "id" = some p.id)
    (hq : q.id = 0) {name : EventName} (hname : name.verdict = true) :
    Accounted j (b.record (.line text sent) (.detail { p.event with name })) (pending.set i q) next_id held := by
  have hp : p ∈ pending := List.mem_of_getElem? hi
  have hkept {r : Pending} (hr : r ∈ pending.set i q) (hr0 : r.id ≠ 0) : r ∈ pending ∧ r.id ≠ p.id := by
    obtain ⟨k, hk⟩ := List.getElem?_of_mem hr
    rw [List.getElem?_set] at hk
    split at hk <;> rename_i hik
    · split at hk
      · cases hk
        exact absurd hq hr0
      · cases hk
    · exact ⟨List.mem_of_getElem? hk, fun heq => hik (h.distinct i k p r hi hk hne heq.symm)⟩
  have hverdict : Entry.verdict j ⟨b.session, .line text sent, .detail { p.event with name }⟩ =
      some (b.session, p.id) := by
    rw [Entry.verdict]
    simp only [hname, hline, ↓reduceIte, Option.map_some]
  have hsubmission : Entry.submission ⟨b.session, .line text sent, .detail { p.event with name }⟩ = none := rfl
  constructor
  case distinct => exact h.distinct.release hq
  case current =>
    intro r hr hr0
    exact (h.current r (hkept hr hr0).1 hr0).mono (log_prefix_record _ b _)
  case unanswered =>
    intro r hr hr0
    rw [verdicts_record, hverdict, Option.toList_some, List.mem_append, List.mem_singleton, Prod.mk.injEq, not_or]
    exact ⟨h.unanswered r (hkept hr hr0).1 hr0, fun heq => (hkept hr hr0).2 heq.2⟩
  case justified =>
    refine justified_record h ⟨?_, ?_, ?_⟩
    · rintro event hout _
      cases hout
      refine ⟨text, sent, p.id, rfl, hline, ?_⟩
      rw [h.origin hp hne]
      exact h.current p hp hne
    · rintro event hout htimeout
      cases hout
      cases htimeout
      cases hname
    · rintro other hout
      cases hout
  case submitted_once =>
    rw [submissions_record, hsubmission, Option.toList_none, List.append_nil]
    exact h.submitted_once
  case answered_once =>
    rw [verdicts_record, hverdict, Option.toList_some, List.nodup_append]
    refine ⟨h.answered_once, List.nodup_singleton _, ?_⟩
    intro key hkey other hother heq
    rw [List.mem_singleton.mp hother] at heq
    rw [heq] at hkey
    exact h.unanswered p hp hne hkey
  case issued =>
    rw [submissions_record, hsubmission, Option.toList_none, List.append_nil]
    exact h.issued
  case sessions => exact sessions_record h _ _
  case balance =>
    have hbalance := h.balance
    change (b.counters.detail name).submitted =
      (b.counters.detail name).accepted + (b.counters.detail name).rejected + held + b.dropped
    cases name with
    | solution_accepted =>
      change b.counters.submitted = b.counters.accepted + 1 + b.counters.rejected + held + b.dropped
      omega
    | solution_rejected =>
      change b.counters.submitted = b.counters.accepted + (b.counters.rejected + 1) + held + b.dropped
      omega
    | _ => cases hname

theorem issued_below_succ (next_id : Word) : issued_below (next_id + 1) = next_id.toNat + 1 := by
  have hlt := next_id.isLt
  by_cases hlast : next_id + 1 = 0
  · rw [hlast]
    have hnat : (next_id + 1).toNat = 0 := by rw [hlast]; rfl
    rw [BitVec.toNat_add] at hnat
    change (next_id.toNat + 1) % 2 ^ 32 = 0 at hnat
    change 2 ^ 32 = _
    omega
  · have hnat : (next_id + 1).toNat ≠ 0 := fun h0 => hlast (BitVec.eq_of_toNat_eq h0)
    rw [BitVec.toNat_add] at hnat
    change (next_id.toNat + 1) % 2 ^ 32 ≠ 0 at hnat
    rw [issued_below_of_ne hlast, BitVec.toNat_add]
    change (next_id.toNat + 1) % 2 ^ 32 = _
    omega

/-- An identifier that was issued and not used. -/
theorem Accounted.skip (h : Accounted j b pending next_id held) (hne : next_id ≠ 0) :
    Accounted j b pending (next_id + 1) held :=
  { h with
    issued := by
      intro id hid
      have hlt := h.issued id hid
      rw [issued_below_of_ne hne] at hlt
      rw [issued_below_succ]
      omega }

/-- A submission that was tried. -/
theorem Accounted.send (h : Accounted j b pending next_id held) (hne : next_id ≠ 0) (cause : Event) {share : Share}
    (hid : share.id = next_id) (header : List Byte) :
    Accounted j (b.record cause (.submit share header)) pending (next_id + 1) held := by
  have hverdict : Entry.verdict j ⟨b.session, cause, .submit share header⟩ = none := by cases cause <;> rfl
  have hsubmission : Entry.submission ⟨b.session, cause, .submit share header⟩ = some (b.session, next_id) := by
    rw [← hid]
    rfl
  constructor
  case distinct => exact h.distinct
  case current => exact fun p hp hp0 => (h.current p hp hp0).mono (log_prefix_record cause b _)
  case unanswered =>
    rw [verdicts_record, hverdict, Option.toList_none, List.append_nil]
    exact h.unanswered
  case justified =>
    refine justified_record h ⟨?_, ?_, ?_⟩ <;> rintro other hout <;> cases hout
  case submitted_once =>
    rw [submissions_record, hsubmission, Option.toList_some, List.nodup_append]
    refine ⟨h.submitted_once, List.nodup_singleton _, ?_⟩
    intro key hkey other hother heq
    rw [List.mem_singleton.mp hother] at heq
    rw [heq] at hkey
    exact h.fresh hne hkey
  case answered_once =>
    rw [verdicts_record, hverdict, Option.toList_none, List.append_nil]
    exact h.answered_once
  case issued =>
    intro id hmem
    rw [submissions_record, hsubmission, Option.toList_some, List.mem_append, List.mem_singleton,
      Prod.mk.injEq] at hmem
    obtain hold | ⟨_, rfl⟩ := hmem
    · exact (h.skip hne).issued id hold
    · rw [issued_below_succ]
      exact Nat.lt_succ_self _
  case sessions => exact sessions_record h _ _
  case balance => exact h.balance

/-- A submission that was sent takes a slot. -/
theorem Accounted.submit (h : Accounted j b pending next_id held) (hne : next_id ≠ 0) (cause : Event) {share : Share}
    (hid : share.id = next_id) {header : List Byte} {event : miner_event}
    (hdesc : Describes event share header (jobs_received b.log)) (slot : Nat) (now : Word) :
    Accounted j ((b.record cause (.submit share header)).record cause (.detail event))
      (pending.set slot ⟨share.id, now, event⟩) (next_id + 1) (held + 1) := by
  have hsend := h.send hne cause hid header
  have hverdict : Entry.verdict j ⟨b.session, cause, .detail event⟩ = none := by
    rw [Entry.verdict]
    cases cause <;> simp [hdesc.name, EventName.verdict]
  have hsubmission : Entry.submission ⟨b.session, cause, .detail event⟩ = none := rfl
  have hnew : SubmittedAs ((b.record cause (.submit share header)).record cause (.detail event)).log b.session
      share.id event := by
    refine ⟨b.log, cause, share, header, ?_, rfl, hdesc⟩
    change _ <+: b.log ++ [_] ++ [_]
    rw [List.append_assoc]
    exact List.prefix_refl _
  have hunanswered : (b.session, share.id) ∉ verdicts j b.log := by
    intro hmem
    rw [hid] at hmem
    exact h.fresh hne (h.answered_submitted hmem)
  constructor
  case distinct =>
    refine h.distinct.take fun q hq => ?_
    change q.id ≠ share.id
    rw [hid]
    exact h.not_pending hne hq
  case current =>
    intro p hp hp0
    obtain hold | rfl := List.mem_or_eq_of_mem_set hp
    · exact (hsend.current p hold hp0).mono (log_prefix_record cause _ _)
    · exact hnew
  case unanswered =>
    intro p hp hp0
    rw [verdicts_record]
    change _ ∉ _ ++ (Entry.verdict j ⟨b.session, cause, .detail event⟩).toList
    rw [hverdict, Option.toList_none, List.append_nil]
    obtain hold | rfl := List.mem_or_eq_of_mem_set hp
    · exact hsend.unanswered p hold hp0
    · have hverdict' : Entry.verdict j ⟨b.session, cause, .submit share header⟩ = none := by cases cause <;> rfl
      rw [verdicts_record, hverdict', Option.toList_none, List.append_nil]
      exact hunanswered
  case justified =>
    refine justified_record hsend ⟨?_, ?_, ?_⟩
    · intro other (hout : Output.detail event = .detail other) hname
      cases hout
      rw [hdesc.name] at hname
      cases hname
    · intro other (hout : Output.detail event = .detail other) hname
      cases hout
      rw [hdesc.name] at hname
      cases hname
    · intro other (hout : Output.detail event = .event other)
      cases hout
  case submitted_once =>
    rw [submissions_record]
    change (_ ++ (Entry.submission ⟨b.session, cause, .detail event⟩).toList).Nodup
    rw [hsubmission, Option.toList_none, List.append_nil]
    exact hsend.submitted_once
  case answered_once =>
    rw [verdicts_record]
    change (_ ++ (Entry.verdict j ⟨b.session, cause, .detail event⟩).toList).Nodup
    rw [hverdict, Option.toList_none, List.append_nil]
    exact hsend.answered_once
  case issued =>
    rw [submissions_record]
    change ∀ id, _ ∈ _ ++ (Entry.submission ⟨b.session, cause, .detail event⟩).toList → _
    rw [hsubmission, Option.toList_none, List.append_nil]
    exact hsend.issued
  case sessions => exact sessions_record hsend _ _
  case balance =>
    have hbalance := h.balance
    change (b.counters.detail event.name).submitted =
      (b.counters.detail event.name).accepted + (b.counters.detail event.name).rejected + (held + 1) + b.dropped
    rw [hdesc.name]
    change b.counters.submitted + 1 = b.counters.accepted + b.counters.rejected + (held + 1) + b.dropped
    omega

end Accounting

/-- The shares are the same in both states, and nothing was reported about
them; the job has the number of the last job received. -/
structure State.Undisturbed (st st' : State) : Prop where
  pending : st'.pending = st.pending
  next_id : st'.next_id = st.next_id
  connected : st'.connected = st.connected
  number : st.job.number = st.jobs → st'.job.number = st'.jobs
  outputs : ∃ outputs, st'.outputs = st.outputs ++ outputs ∧ (∀ o ∈ outputs, o.quiet = true) ∧
    st'.jobs = st.jobs + BitVec.ofNat 32 (outputs.countP Output.received)

theorem State.Undisturbed.trans {st st' st'' : State} (h : st.Undisturbed st') (h' : st'.Undisturbed st'') :
    st.Undisturbed st'' := by
  obtain ⟨outputs, heq, hquiet, hjobs⟩ := h.outputs
  obtain ⟨outputs', heq', hquiet', hjobs'⟩ := h'.outputs
  refine ⟨h'.pending.trans h.pending, h'.next_id.trans h.next_id, h'.connected.trans h.connected,
    fun hnumber => h'.number (h.number hnumber), outputs ++ outputs', by rw [heq', heq, List.append_assoc], ?_, ?_⟩
  · intro o ho
    obtain ho | ho := List.mem_append.mp ho
    · exact hquiet o ho
    · exact hquiet' o ho
  · rw [hjobs', hjobs, List.countP_append, BitVec.ofNat_add, BitVec.add_assoc]

/-- Updates of fields that have nothing to do with shares, and outputs about
neither shares nor jobs. -/
theorem State.Undisturbed.of_outputs {st st' : State} (outputs : List Output)
    (hpending : st'.pending = st.pending) (hnext : st'.next_id = st.next_id)
    (hconnected : st'.connected = st.connected) (hnumber : st'.job.number = st.job.number)
    (hjobs : st'.jobs = st.jobs) (houtputs : st'.outputs = st.outputs ++ outputs)
    (hquiet : ∀ o ∈ outputs, o.quiet = true ∧ o.received = false) : st.Undisturbed st' := by
  have hnone : outputs.countP Output.received = 0 :=
    List.countP_eq_zero.mpr fun o ho => by simp [(hquiet o ho).2]
  refine ⟨hpending, hnext, hconnected, fun h => by rw [hnumber, hjobs, h], outputs, houtputs,
    fun o ho => (hquiet o ho).1, ?_⟩
  rw [hjobs, hnone]
  exact (BitVec.add_zero _).symm

theorem State.Undisturbed.of_eq {st st' : State} (hpending : st'.pending = st.pending)
    (hnext : st'.next_id = st.next_id) (hconnected : st'.connected = st.connected)
    (hnumber : st'.job.number = st.job.number) (hjobs : st'.jobs = st.jobs)
    (houtputs : st'.outputs = st.outputs) : st.Undisturbed st' :=
  .of_outputs [] hpending hnext hconnected hnumber hjobs (by rw [houtputs, List.append_nil]) (by simp)

theorem State.Undisturbed.refl (st : State) : st.Undisturbed st := .of_eq rfl rfl rfl rfl rfl rfl

theorem out_undisturbed (st : State) {outputs : List Output}
    (hquiet : ∀ o ∈ outputs, o.quiet = true ∧ o.received = false) : st.Undisturbed (st.out outputs) :=
  .of_outputs outputs rfl rfl rfl rfl rfl rfl hquiet

theorem stop_undisturbed (st : State) : st.Undisturbed (stop st) :=
  (State.Undisturbed.of_eq rfl rfl rfl rfl rfl rfl : st.Undisturbed { st with running := false }).trans
    (out_undisturbed _ (by decide))

theorem start_range_undisturbed (st : State) : st.Undisturbed (start_range st) :=
  (State.Undisturbed.of_eq rfl rfl rfl rfl rfl rfl : st.Undisturbed { st with running := true }).trans
    (out_undisturbed _ (by simp [Output.quiet, Output.received]))

theorem job_writes_silent (mid target : Vector Word 8) (tail : Vector Word 4) :
    ∀ o ∈ job_writes mid target tail, o.quiet = true ∧ o.received = false := by
  intro o ho
  simp only [job_writes, List.mem_append, List.mem_flatMap, List.mem_map, List.mem_cons, List.not_mem_nil,
    or_false] at ho
  obtain ⟨_, _, rfl | rfl⟩ | ⟨_, _, rfl⟩ := ho <;> exact ⟨rfl, rfl⟩

theorem build_header_undisturbed (st : State) : st.Undisturbed (build_header st).1 := by
  obtain ⟨time, _, _, _, heq⟩ | ⟨hex, heq⟩ := build_header_cases st
  · rw [heq]
    have hload : st.Undisturbed (st.load time) :=
      .of_outputs _ rfl rfl rfl rfl rfl rfl (job_writes_silent _ _ _)
    exact hload.trans (start_range_undisturbed _)
  · rw [heq]
    exact .of_eq rfl rfl rfl rfl rfl rfl

theorem set_difficulty_undisturbed (j : Json) (s : List Byte) (st : State) :
    st.Undisturbed (set_difficulty j s st).1 := by
  unfold set_difficulty
  split
  · split
    · exact .refl st
    · exact .of_outputs [.event .difficulty_changed] rfl rfl rfl rfl rfl rfl (by decide)
  · exact .refl st

theorem set_extranonce_undisturbed (j : Json) (s : List Byte) (st : State) :
    st.Undisturbed (set_extranonce j s st).1 := by
  unfold set_extranonce
  split
  · exact .refl st
  next out _ =>
    dsimp only
    split
    · exact .of_eq rfl rfl rfl rfl rfl rfl
    · have hstored : st.Undisturbed { st with extra1 := store_front st.extra1 out } := .of_eq rfl rfl rfl rfl rfl rfl
      exact (hstored.trans (stop_undisturbed _)).trans (.of_eq rfl rfl rfl rfl rfl rfl)

theorem received_undisturbed (st : State) (f : NotifyFields) : st.Undisturbed (st.received f) :=
  (stop_undisturbed st).trans ⟨rfl, rfl, rfl, fun _ => rfl, [.event .mining_job_received], rfl, by decide, rfl⟩

theorem notify_undisturbed (j : Json) (s : List Byte) (st : State) : st.Undisturbed (notify j s st).1 := by
  rw [notify_eq]
  split
  · exact .refl st
  · split
    · exact (stop_undisturbed st).trans (.of_eq rfl rfl rfl rfl rfl rfl)
    next f _ =>
      split
      · exact (received_undisturbed st f).trans (build_header_undisturbed _)
      · exact received_undisturbed st f

theorem notification_undisturbed (j : Json) (s : List Byte) (st : State) :
    st.Undisturbed (notification j s st).1 := by
  unfold notification
  split
  · exact .refl st
  · split
    · exact set_difficulty_undisturbed j s st
    · exact set_extranonce_undisturbed j s st
    · exact notify_undisturbed j s st
    · exact .refl st

theorem subscribe_reply_undisturbed (j : Json) (s : List Byte) (sent : Bool) (st : State) :
    st.Undisturbed (subscribe_reply j s sent st).1 := by
  unfold subscribe_reply
  split
  · exact .refl st
  · split
    · exact .refl st
    · dsimp only
      split
      · exact .of_eq rfl rfl rfl rfl rfl rfl
      · exact .of_outputs [.send (authorize_request st.worker st.password)] rfl rfl rfl rfl rfl rfl
          (by simp [Output.quiet, Output.received])

theorem authorize_reply_undisturbed (j : Json) (s : List Byte) (sent : Bool) (st : State) :
    st.Undisturbed (authorize_reply j s sent st).1 := by
  have hauth : st.Undisturbed ({ st with authorized := true }.out [.event .pool_authorized, .send suggest_request]) :=
    .of_outputs [.event .pool_authorized, .send suggest_request] rfl rfl rfl rfl rfl rfl
      (by simp [Output.quiet, Output.received]; rfl)
  unfold authorize_reply
  split
  · exact .refl st
  · split
    · exact out_undisturbed st (by decide)
    · dsimp only
      split
      · exact hauth
      · split
        · exact hauth.trans (build_header_undisturbed _)
        · exact hauth

theorem next_range_undisturbed (st : State) : st.Undisturbed (next_range st).1 := by
  have hwindow : st.Undisturbed { st with range_start := st.range_start + RANGE } := .of_eq rfl rfl rfl rfl rfl rfl
  obtain ⟨_, heq⟩ | ⟨_, heq⟩ := next_range_cases st
  · rw [heq]
    exact (hwindow.trans (stop_undisturbed _)).trans (build_header_undisturbed _)
  · rw [heq]
    exact hwindow.trans (start_range_undisturbed _)

/-- The shares of an open session are accounted for while an event is handled. -/
structure Open (j : Json) (b : Books) (cause : Event) (st : State) : Prop where
  connected : st.connected = true
  number : st.job.number = st.jobs
  jobs : jobs_received (b.post cause st.outputs).log = st.jobs
  accounted : Accounted j (b.post cause st.outputs) st.pending st.next_id (occupied st.pending)

section Sessions

variable {j : Json} {b : Books} {cause : Event} {st : State}

theorem Open.undisturbed {st' : State} (h : Open j b cause st) (hkept : st.Undisturbed st') : Open j b cause st' := by
  obtain ⟨outputs, heq, hquiet, hjobs⟩ := hkept.outputs
  refine ⟨hkept.connected.trans h.connected, hkept.number h.number, ?_, ?_⟩
  · rw [heq, Books.post_append, jobs_received_post, h.jobs, hjobs]
  · rw [heq, hkept.pending, hkept.next_id, Books.post_append]
    exact h.accounted.post_quiet cause hquiet

/-- Outputs other than the receipt of a job. -/
theorem Open.jobs_out (h : Open j b cause st) {outputs : List Output}
    (hnone : outputs.countP Output.received = 0) :
    jobs_received (b.post cause (st.outputs ++ outputs)).log = st.jobs := by
  rw [Books.post_append, jobs_received_post, h.jobs, hnone]
  exact BitVec.add_zero _

theorem share_reply_open {text : List Byte} {sent : Bool} (h : Open j b (.line text sent) st) {id : Word}
    (hid : json_u32 j text "id" = some id) (accepted : Bool) :
    Open j b (.line text sent) (share_reply id accepted st) := by
  unfold share_reply
  split
  · exact h
  next i hfind =>
    obtain ⟨hlt, hslot, _⟩ := List.findIdx?_eq_some_iff_getElem.mp hfind
    have hget : st.pending[i]? = some (st.pending.get ⟨i, hlt⟩) := List.getElem?_eq_getElem hlt
    rw [Bool.and_eq_true, decide_eq_true_eq, beq_iff_eq] at hslot
    extract_lets p source event
    have hp : p = st.pending.get ⟨i, hlt⟩ := by
      rw [show p = st.pending.getD i _ from rfl, List.getD_eq_getElem?_getD, hget]
      rfl
    have hpid : p.id = id := by
      rw [hp]
      exact hslot.2
    have hne : p.id ≠ 0 := by
      rw [hpid]
      intro h0
      rw [h0] at hslot
      exact absurd hslot.1 (by decide)
    rw [← hp] at hget
    have haccounted := h.accounted
    rw [occupied_release (q := { p with id := 0, event }) hget hne rfl] at haccounted
    refine ⟨h.connected, h.number, h.jobs_out rfl, ?_⟩
    change Accounted j (b.post _ (st.outputs ++ [.detail event])) _ _ _
    rw [Books.post_concat]
    exact haccounted.answer hget hne (hid.trans (by rw [hpid])) rfl (by cases accepted <;> rfl)

theorem handle_line_open {text : List Byte} {sent : Bool} (h : Open j b (.line text sent) st) :
    Open j b (.line text sent) (handle_line j text sent st).1 := by
  unfold handle_line
  split
  · exact h
  · split
    · exact h.undisturbed (notification_undisturbed j text st)
    · unfold reply
      split
      · exact h
      next id hid =>
        split
        · exact h.undisturbed (subscribe_reply_undisturbed j text sent st)
        · split
          · exact h.undisturbed (authorize_reply_undisturbed j text sent st)
          · exact share_reply_open h hid _

theorem submit_result_open (h : Open j b cause st) (nonce : Word) (sent : Bool) (now : Word) :
    Open j b cause (submit_result nonce sent now st).1 := by
  have hpatched : st.Undisturbed (st.patched nonce) :=
    .of_outputs [.reg_write 0x98 1] rfl rfl rfl rfl rfl rfl (by decide)
  have hchecked := h.undisturbed hpatched
  unfold submit_result
  extract_lets st1 st2 digest share st3 st4 event
  have hdigest : digest = sha256d (patch_nonce st.header nonce) := rfl
  change Open j b cause st2 at hchecked
  clear_value digest
  split
  · exact hchecked.undisturbed (out_undisturbed st2 (by decide))
  · split
    · exact hchecked.undisturbed (out_undisturbed st2 (by decide))
    next slot hfind =>
      split
      · exact hchecked
      next hfree =>
        have hne : st2.next_id ≠ 0 := fun h0 => hfree (by rw [h0]; decide)
        obtain ⟨hlt, hslot, _⟩ := List.findIdx?_eq_some_iff_getElem.mp hfind
        have hget : st2.pending[slot]? = some (st2.pending.get ⟨slot, hlt⟩) := List.getElem?_eq_getElem hlt
        split
        · exact ⟨hchecked.connected, hchecked.number, hchecked.jobs, hchecked.accounted.skip hne⟩
        · split
          · refine ⟨hchecked.connected, hchecked.number, hchecked.jobs_out rfl, ?_⟩
            change Accounted j (b.post cause (st2.outputs ++ [.submit share (patch_nonce st.header nonce)])) _ _ _
            rw [Books.post_concat]
            exact hchecked.accounted.send hne cause rfl _
          · have hdesc : Describes event share (patch_nonce st.header nonce)
                (jobs_received (b.post cause st2.outputs).log) :=
              ⟨rfl, rfl, rfl, by rw [← hdigest], hchecked.number.trans hchecked.jobs.symm⟩
            have hheld : occupied (st2.pending.set slot ⟨share.id, now, event⟩) = occupied st2.pending + 1 :=
              occupied_take hget (beq_iff_eq.mp hslot) hne
            have hjobs : jobs_received (b.post cause (st2.outputs ++ [.submit share (patch_nonce st.header nonce)] ++
                [.detail event])).log = st2.jobs := by
              rw [List.append_assoc]
              exact hchecked.jobs_out rfl
            refine ⟨hchecked.connected, hchecked.number, hjobs, ?_⟩
            change Accounted j (b.post cause (st2.outputs ++ [.submit share (patch_nonce st.header nonce)] ++
              [.detail event])) (st2.pending.set slot ⟨share.id, now, event⟩) _
              (occupied (st2.pending.set slot ⟨share.id, now, event⟩))
            rw [Books.post_concat, Books.post_concat, hheld]
            exact hchecked.accounted.submit hne cause rfl hdesc slot now

theorem result_loop_open (env : Environment) (n k : Nat) (h : Open j b cause st) :
    Open j b cause (result_loop env n k st).1 := by
  induction n generalizing k st with
  | zero => exact h
  | succ n ih =>
    have hsubmit := submit_result_open h (env.result_nonce k) (env.sent k) env.now
    rw [result_loop]
    generalize submit_result (env.result_nonce k) (env.sent k) env.now st = r at hsubmit ⊢
    dsimp only
    split
    · exact h
    · split
      · exact hsubmit
      · exact ih (k + 1) hsubmit

theorem service_results_open (env : Environment) (h : Open j b cause st) :
    Open j b cause (service_results env st).1 := by
  unfold service_results
  split
  · exact h
  · split
    · exact h.undisturbed (out_undisturbed st (by decide))
    · have hloop := result_loop_open env 16 0 h
      generalize result_loop env 16 0 st = r at hloop ⊢
      dsimp only
      split
      · exact hloop
      · split
        · exact hloop.undisturbed (next_range_undisturbed r.1)
        · exact hloop

theorem Accounted.timeouts {pending : List Pending} {next_id : Word} {held : Nat}
    (h : Accounted j b pending next_id held) (cause : Event) {late : List Pending}
    (hlate : ∀ p ∈ late, p ∈ pending ∧ p.id ≠ 0) :
    Accounted j (b.post cause (late.map fun p => .detail { p.event with name := .share_reply_timeout })) pending
      next_id held := by
  induction late generalizing b with
  | nil => exact h
  | cons p late ih =>
    obtain ⟨hp, hne⟩ := hlate p (by simp)
    exact ih (h.timeout cause hp hne) fun q hq => hlate q (by simp [hq])

theorem reply_timeouts_open (now limit : Word) (h : Open j b cause st) :
    Open j b cause (reply_timeouts now limit st).1 := by
  unfold reply_timeouts
  extract_lets late
  refine ⟨h.connected, h.number, h.jobs_out (List.countP_eq_zero.mpr fun o ho => ?_), ?_⟩
  · obtain ⟨p, _, rfl⟩ := List.mem_map.mp ho
    exact Bool.false_ne_true
  change Accounted j (b.post cause (st.outputs ++ _)) _ _ _
  rw [Books.post_append]
  refine h.accounted.timeouts cause fun p hp => ?_
  obtain ⟨hmem, hwaits⟩ := List.mem_filter.mp hp
  rw [Bool.and_eq_true] at hwaits
  exact ⟨hmem, bne_iff_ne.mp hwaits.1⟩

/-- The invariant between two events. -/
structure Settled (j : Json) (st : State) (b : Books) : Prop where
  number : st.job.number = st.jobs
  jobs : jobs_received b.log = st.jobs
  accounted : Accounted j b st.pending st.next_id (if st.connected then occupied st.pending else 0)

theorem Settled.exact (h : Settled j st b) : SharesExact j st b :=
  ⟨h.accounted.distinct, h.accounted.current, h.accounted.justified, h.accounted.submitted_once,
    h.accounted.answered_once, h.accounted.balance⟩

theorem Accounted.drop {pending : List Pending} {next_id : Word} {held : Nat}
    (h : Accounted j b pending next_id held) :
    Accounted j { b with dropped := b.dropped + held } pending next_id 0 :=
  { h with
    balance := by
      have hbalance := h.balance
      change b.counters.submitted = b.counters.accepted + b.counters.rejected + 0 + (b.dropped + held)
      omega }

/-- An event in an open session. -/
theorem Open.settled {e : Event} (hconn : st.connected = true) (hbegins : begins st e = false) {r : State × Bool}
    (h : Open j b e r.1) : Settled j (finish r) (b.step st e (finish r)) := by
  obtain ⟨st', ok⟩ := r
  have hsession : { b with session := if begins st e then b.session + 1 else b.session } = b := by rw [hbegins]; rfl
  rw [Books.step, hsession]
  cases ok with
  | true =>
    refine ⟨h.number, h.jobs, ?_⟩
    change Accounted j { b.post e st'.outputs with dropped := if st.connected && !st'.connected then _ else _ }
      st'.pending st'.next_id (if st'.connected then occupied st'.pending else 0)
    rw [h.connected, hconn]
    exact h.accounted
  | false =>
    have hquiet : ∀ o ∈ [Output.event .pool_disconnected], o.quiet = true ∧ o.received = false := by decide
    have hstopped : st'.Undisturbed { stop st' with have_job := false } :=
      (stop_undisturbed st').trans (.of_eq rfl rfl rfl rfl rfl rfl)
    have hclosed := hstopped.trans (out_undisturbed _ hquiet)
    have hend := h.undisturbed hclosed
    have hdropped := hend.accounted.drop
    rw [hconn]
    exact ⟨hend.number, hend.jobs, hdropped⟩

end Sessions

/-- A new session starts without shares. -/
theorem Accounted.begin {j : Json} {b : Books} {pending : List Pending} {next_id : Word}
    (h : Accounted j b pending next_id 0) {pending' : List Pending} (hempty : ∀ p ∈ pending', p.id = 0)
    (next_id' : Word) : Accounted j { b with session := b.session + 1 } pending' next_id' (occupied pending') := by
  have hzero : occupied pending' = 0 := by
    rw [occupied, List.countP_eq_zero]
    intro p hp
    simp [hempty p hp]
  have hlater {id : Word} (hmem : (b.session + 1, id) ∈ submissions b.log) : False := by
    obtain ⟨x, hx, hkey⟩ := List.mem_filterMap.mp hmem
    have hle := h.sessions x hx
    unfold Entry.submission at hkey
    split at hkey
    · rw [Option.some.injEq, Prod.mk.injEq] at hkey
      omega
    · cases hkey
  constructor
  case distinct => exact fun i k p q hp _ hne => absurd (hempty p (List.mem_of_getElem? hp)) hne
  case current => exact fun p hp hne => absurd (hempty p hp) hne
  case unanswered => exact fun p hp hne => absurd (hempty p hp) hne
  case justified => exact h.justified
  case submitted_once => exact h.submitted_once
  case answered_once => exact h.answered_once
  case issued => exact fun id hmem => absurd hmem hlater
  case sessions => exact fun x hx => Nat.le_succ_of_le (h.sessions x hx)
  case balance =>
    rw [hzero]
    exact h.balance

theorem connect_settled {j : Json} {b : Books} {st : State} (h : Settled j st b) (hconn : st.connected = false)
    (worker password : List Byte) (sent : Bool) :
    Settled j (connect worker password sent st.cleared)
      (b.step st (.connect worker password sent) (connect worker password sent st.cleared)) := by
  have haccounted := h.accounted
  rw [hconn] at haccounted
  have hempty : ∀ p ∈ List.replicate 8 (⟨0, 0, ⟨.solution_submitted, [], [], [], 0⟩⟩ : Pending), p.id = 0 := by
    intro p hp
    rw [List.eq_of_mem_replicate hp]
  have hbegin := haccounted.begin hempty 4
  have hsession : ({ b with session := if begins st (.connect worker password sent) then b.session + 1 else b.session }
      : Books) = { b with session := b.session + 1 } := by
    rw [begins, hconn]
    rfl
  have hjobs (outputs : List Output) (hnone : outputs.countP Output.received = 0) :
      jobs_received ({ b with session := b.session + 1 }.post (.connect worker password sent) outputs).log = st.jobs := by
    rw [jobs_received_post, hnone]
    exact (BitVec.add_zero _).trans h.jobs
  rw [Books.step, hsession, hconn]
  cases sent with
  | true =>
    have hquiet : ∀ o ∈ [Output.send subscribe_request, .event .pool_connected], o.quiet = true := by
      simp [Output.quiet, EventName.about_share]
    exact ⟨h.number, hjobs [.send subscribe_request, .event .pool_connected] rfl,
      hbegin.post_quiet (.connect worker password true) hquiet⟩
  | false =>
    have hquiet : ∀ o ∈ [Output.reg_write 0xa0 1, .reg_write 0 2, .delay, .reg_write 0 4, .reg_write 0x98 3,
        .mining false, .event .pool_disconnected], o.quiet = true := by decide
    refine ⟨h.number, ?_, hbegin.post_quiet (.connect worker password false) hquiet⟩
    exact hjobs [.reg_write 0xa0 1, .reg_write 0 2, .delay, .reg_write 0 4, .reg_write 0x98 3, .mining false,
      .event .pool_disconnected] rfl

theorem Settled.step {j : Json} {b : Books} {st : State} (h : Settled j st b) (e : Event) :
    Settled j (step j st e) (b.step st e (step j st e)) := by
  cases hconn : st.connected with
  | false =>
    rw [step_closed j hconn]
    cases e with
    | connect worker password sent => exact connect_settled h hconn worker password sent
    | _ =>
      have haccounted := h.accounted
      rw [hconn] at haccounted
      rw [Books.step, hconn]
      refine ⟨h.number, h.jobs, ?_⟩
      change Accounted j b _ _ (if st.connected = true then _ else _)
      rw [hconn]
      exact haccounted
  | true =>
    have haccounted := h.accounted
    rw [hconn] at haccounted
    have hopen (e : Event) : Open j b e st.cleared := ⟨hconn, h.number, h.jobs, haccounted⟩
    rw [step_open j hconn]
    cases e with
    | connect worker password sent =>
      rw [Books.step, begins, hconn]
      refine ⟨h.number, h.jobs, ?_⟩
      change Accounted j { b with dropped := if true && !st.connected then _ else _ } _ _
        (if st.connected = true then _ else _)
      rw [hconn]
      exact haccounted
    | line text sent => exact (handle_line_open (hopen _)).settled hconn rfl
    | service env => exact (service_results_open env (hopen _)).settled hconn rfl
    | timeouts now limit => exact (reply_timeouts_open now limit (hopen _)).settled hconn rfl
    | disconnect =>
      have hend : Open j b .disconnect (st.cleared, false).1 := hopen _
      exact hend.settled hconn rfl

theorem init_accounted (j : Json) : Accounted j Books.empty State.init.pending State.init.next_id 0 where
  distinct := by
    intro i k p q hp _ hne
    exact absurd (congrArg Pending.id (List.eq_of_mem_replicate (List.mem_of_getElem? hp))) hne
  current := fun p hp hne => absurd (congrArg Pending.id (List.eq_of_mem_replicate hp)) hne
  unanswered := fun p hp hne => absurd (congrArg Pending.id (List.eq_of_mem_replicate hp)) hne
  justified := by
    intro before x hprefix
    exact absurd (List.prefix_nil.mp hprefix) (List.concat_ne_nil x before)
  submitted_once := List.nodup_nil
  answered_once := List.nodup_nil
  issued := fun id hmem => absurd hmem List.not_mem_nil
  sessions := fun x hx => absurd hx List.not_mem_nil
  balance := rfl

theorem init_settled (j : Json) : Settled j State.init Books.empty := ⟨rfl, rfl, init_accounted j⟩

theorem account_run_fst (j : Json) (p : State × Books) (events : List Event) :
    (run (account_step j) p events).1 = run (step j) p.1 events := by
  induction events generalizing p with
  | nil => rfl
  | cons e events ih => exact ih _

/-- After every run over any number of sessions all shares are accounted for. -/
theorem shares_accounted (j : Json) (events : List Event) :
    let p := run (account_step j) (State.init, Books.empty) events
    p.1 = run (step j) State.init events ∧ SharesExact j p.1 p.2 := by
  have hstep : ∀ p e, Settled j p.1 p.2 → Settled j (account_step j p e).1 (account_step j p e).2 :=
    fun p e h => h.step e
  have hsettled := run_invariant (P := fun p => Settled j p.1 p.2) (s := (State.init, Books.empty)) hstep
    (init_settled j) events
  exact ⟨account_run_fst j (State.init, Books.empty) events, hsettled.exact⟩

/-- The books of a session up to its first share. -/
theorem sample_books :
    run (account_step sample_pool) (State.init, Books.empty) (sample_session ++ [.service sample_poll]) =
      (sample_mining.cleared.sent 5 0 0,
        (run (account_step sample_pool) (State.init, Books.empty) sample_session).2.step sample_mining (.service sample_poll)
          (sample_mining.cleared.sent 5 0 0)) := by
  have hmining : (run (account_step sample_pool) (State.init, Books.empty) sample_session).1 = sample_mining :=
    account_run_fst ..
  rw [run_append, run_cons, run_nil, account_step, hmining, sample_polled]

/-- The share is sent once and accepted once. -/
theorem sample_share_accounted :
    let p := run (account_step sample_pool) (State.init, Books.empty)
      (sample_session ++ [.service sample_poll] ++ [.line [5] true])
    SharesExact sample_pool p.1 p.2 ∧ submissions p.2.log = [(1, 4)] ∧ verdicts sample_pool p.2.log = [(1, 4)] ∧
      p.2.counters = ⟨1, 1, 0⟩ ∧ occupied p.1.pending = 0 := by
  intro p
  have hlast : p = account_step sample_pool (run (account_step sample_pool) (State.init, Books.empty)
      (sample_session ++ [.service sample_poll])) (.line [5] true) := run_append ..
  refine ⟨(shares_accounted sample_pool _).2, ?_⟩
  rw [hlast, sample_books]
  decide

end scu35.stratum
