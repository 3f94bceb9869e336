import Scu35Miner.Software.Stratum.Work

open fips180 radix transition

namespace scu35.stratum

open sha256_sw bitcoin json_helpers

section Counter

theorem increment_length (extra2 : List Byte) (i : Nat) : (increment extra2 i).1.length = extra2.length := by
  induction i generalizing extra2 with
  | zero => rfl
  | succ i ih =>
    rw [increment]
    split
    · simp
    · split
      · simp
      · rw [ih, List.length_set]

/-- The carry leaves the bytes alone that are not counted. -/
theorem increment_getElem (extra2 : List Byte) {i k : Nat} (hk : i ≤ k) :
    (increment extra2 i).1[k]? = extra2[k]? := by
  induction i generalizing extra2 with
  | zero => rfl
  | succ i ih =>
    have hset (v : Byte) : (extra2.set i v)[k]? = extra2[k]? := List.getElem?_set_ne (by omega)
    rw [increment]
    split
    · exact hset _
    · split
      · exact hset _
      · rw [ih _ (by omega), hset]

theorem beValue_take_succ (extra2 : List Byte) {i : Nat} (hi : i < extra2.length) :
    beValue (extra2.take (i + 1)) = beValue (extra2.take i) * 256 + extra2[i].toNat := by
  rw [List.take_succ_eq_append_getElem hi, beValue_concat]
  rfl

/-- The carry loop adds one to the big-endian number, or reports that all its
values are used. -/
theorem increment_value (extra2 : List Byte) {i : Nat} (hpos : 1 ≤ i) (hi : i ≤ extra2.length) :
    ((increment extra2 i).2 = false ∧
      beValue ((increment extra2 i).1.take i) = beValue (extra2.take i) + 1) ∨
    ((increment extra2 i).2 = true ∧ beValue (extra2.take i) + 1 = 256 ^ i) := by
  induction i generalizing extra2 with
  | zero => omega
  | succ i ih =>
    have hget : extra2.getD i 0 = extra2[i] := List.getD_eq_getElem _ _ (by omega)
    have htake := beValue_take_succ extra2 (i := i) (by omega)
    have hlt := extra2[i].isLt
    have hadd : (extra2[i] + 1).toNat = (extra2[i].toNat + 1) % 256 := BitVec.toNat_add ..
    have hset (v : Byte) : (extra2.set i v).take i = extra2.take i := List.take_set_of_le (by omega)
    rw [increment, hget]
    split
    next hcarry =>
      left
      have hne : (extra2[i] + 1).toNat ≠ 0 := by
        intro h0
        have hz : extra2[i] + 1 = 0 := BitVec.eq_of_toNat_eq h0
        rw [hz] at hcarry
        exact Bool.noConfusion hcarry
      refine ⟨rfl, ?_⟩
      rw [beValue_take_succ _ (by rw [List.length_set]; omega), hset, List.getElem_set_self, htake]
      omega
    next hcarry =>
      have hz : extra2[i] + 1 = 0 := by simpa using hcarry
      have hlast : extra2[i].toNat = 255 := by
        have hzero : (extra2[i] + 1).toNat = 0 := by
          rw [hz]
          rfl
        omega
      split
      next h0 =>
        right
        refine ⟨rfl, ?_⟩
        subst h0
        rw [htake, hlast, List.take_zero, beValue_nil, Nat.pow_one]
      next h0 =>
        rw [hz]
        have hrest := ih (extra2.set i 0) (by omega) (by rw [List.length_set]; omega)
        rw [hset] at hrest
        have hlen : i < (increment (extra2.set i 0) i).1.length := by
          rw [increment_length, List.length_set]
          omega
        have hdigit : (increment (extra2.set i 0) i).1[i].toNat = 0 := by
          have hkept := increment_getElem (extra2.set i 0) (Nat.le_refl i)
          rw [List.getElem?_eq_getElem hlen, List.getElem?_set_self (by omega)] at hkept
          rw [Option.some.inj hkept]
          rfl
        obtain ⟨hmore, hvalue⟩ | ⟨hmore, hvalue⟩ := hrest
        · left
          refine ⟨hmore, ?_⟩
          rw [beValue_take_succ _ hlen, hvalue, hdigit, htake, hlast]
          omega
        · right
          refine ⟨hmore, ?_⟩
          rw [htake, hlast, Nat.pow_succ, ← hvalue]
          omega

end Counter

/-- The number that the extranonce text of a unit stands for. -/
def unit_value (u : List Byte × Word) : Nat := beValue ((hex_pairs u.1).getD [])

/-- An extranonce of `size` bytes with a window on a multiple of its length. -/
structure UnitOf (size : Nat) (u : List Byte × Word) : Prop where
  text : ∃ bytes, hex_pairs u.1 = some bytes ∧ bytes.length = size
  window : u.2.toNat % 2 ^ 24 = 0

/-- The unit after another one: the next window of the same header, or the
first window of the header with the next extranonce. -/
def NextUnit (u u' : List Byte × Word) : Prop :=
  (u'.1 = u.1 ∧ u'.2 = u.2 + RANGE ∧ u'.2 ≠ 0) ∨ (unit_value u' = unit_value u + 1 ∧ u'.2 = 0)

/-- A position of a unit in the order of issue. -/
def unit_key (u : List Byte × Word) : Nat := unit_value u * 2 ^ 32 + u.2.toNat

/-- How many extranonces the headers of a log have used. -/
def issued (log : List (List Byte × Word)) : Nat :=
  match log.getLast? with
  | none => 0
  | some u => unit_value u + 1

/-- Units issued in order from zero. -/
structure InOrder (size : Nat) (log : List (List Byte × Word)) : Prop where
  units : ∀ u ∈ log, UnitOf size u
  first : ∀ u ∈ log.head?, unit_value u = 0 ∧ u.2 = 0
  next : log.IsChain NextUnit

theorem range_add {w : Word} (hw : w.toNat % 2 ^ 24 = 0) (hne : w + RANGE ≠ 0) :
    (w + RANGE).toNat = w.toNat + 2 ^ 24 := by
  have hlt := w.isLt
  have hrange : RANGE.toNat = 2 ^ 24 := by
    unfold RANGE
    rfl
  have hadd : (w + RANGE).toNat = (w.toNat + 2 ^ 24) % 2 ^ 32 := by rw [BitVec.toNat_add, hrange]
  have hpos : (w + RANGE).toNat ≠ 0 := fun h0 => hne (BitVec.eq_of_toNat_eq h0)
  rw [hadd] at hpos ⊢
  omega

theorem NextUnit.key_lt {size : Nat} {u u' : List Byte × Word} (h : NextUnit u u') (hu : UnitOf size u) :
    unit_key u < unit_key u' := by
  have hlt := u.2.isLt
  obtain ⟨htext, hwindow, hne⟩ | ⟨hvalue, hwindow⟩ := h
  · have hadd := range_add hu.window (hwindow ▸ hne)
    rw [unit_key, unit_key, unit_value, unit_value, htext, hwindow, hadd]
    omega
  · have hzero : (0 : Word).toNat = 0 := rfl
    rw [unit_key, unit_key, hvalue, hwindow, hzero]
    omega

/-- Later units come later in the order, so that none is issued twice. -/
theorem InOrder.nodup {size : Nat} {log : List (List Byte × Word)} (h : InOrder size log) : log.Nodup := by
  have hchain : log.IsChain fun u u' => unit_key u < unit_key u' :=
    h.next.imp_of_mem_imp fun u u' hu _ hnext => hnext.key_lt (h.units u hu)
  have hpairs : (log.map unit_key).Pairwise (· < ·) :=
    List.isChain_iff_pairwise.mp ((List.isChain_map unit_key).mpr hchain)
  exact (List.pairwise_map.mp hpairs).imp fun hlt heq => by
    rw [heq] at hlt
    exact Nat.lt_irrefl _ hlt

theorem InOrder.append {size : Nat} {log : List (List Byte × Word)} (h : InOrder size log)
    {u : List Byte × Word} (hunit : UnitOf size u) (hfirst : log = [] → unit_value u = 0 ∧ u.2 = 0)
    (hnext : ∀ u' ∈ log.getLast?, NextUnit u' u) : InOrder size (log ++ [u]) where
  units := by
    intro u' hu'
    rw [List.mem_append, List.mem_singleton] at hu'
    obtain hu' | rfl := hu'
    · exact h.units u' hu'
    · exact hunit
  first := by
    cases log with
    | nil =>
      intro u' hu'
      cases hu'
      exact hfirst rfl
    | cons a log => exact h.first
  next := by
    refine List.isChain_append.mpr ⟨h.next, List.isChain_singleton u, ?_⟩
    intro u' hu' u'' hu''
    cases hu''
    exact hnext u' hu'

theorem issued_concat (log : List (List Byte × Word)) (u : List Byte × Word) :
    issued (log ++ [u]) = unit_value u + 1 := by
  rw [issued, List.getLast?_concat]

/-- The extranonce counter is usable, and unused before the subscription. -/
structure State.Ready (st : State) : Prop where
  length : st.extra2.length = 16
  size : st.subscribed = true → 1 ≤ st.extra2_size ∧ st.extra2_size ≤ 16
  unused : st.subscribed = false →
    st.extra2 = List.replicate 16 0 ∧ st.extra_exhausted = false ∧ st.running = false

/-- The state of the session after a log of units under one setting of the
extranonces. -/
structure Segment (st : State) (size : Nat) (log : List (List Byte × Word)) : Prop where
  ready : st.Ready
  extra2_size : st.extra2_size = size
  order : InOrder size log
  counter : (st.extra_exhausted = false ∧ beValue (st.extra2.take size) = issued log) ∨
    (st.extra_exhausted = true ∧ issued log = 256 ^ size)
  running : st.running = true → log.getLast? = some (st.extra2_hex, st.range_start)

section Segments

variable {st : State} {size : Nat} {log : List (List Byte × Word)}

theorem State.Ready.same_work {st' : State} (h : st.Ready) (hwork : st.SameWork st') : st'.Ready where
  length := by rw [hwork.extra2, h.length]
  size := by
    rw [hwork.subscribed, hwork.extra2_size]
    exact h.size
  unused := by
    rw [hwork.subscribed, hwork.extra2, hwork.extra_exhausted]
    intro hsub
    obtain ⟨hextra2, hexhausted, hrun⟩ := h.unused hsub
    refine ⟨hextra2, hexhausted, ?_⟩
    by_contra hr
    rw [hwork.running (by simpa using hr)] at hrun
    cases hrun

theorem Segment.same_work {st' : State} (h : Segment st size log) (hwork : st.SameWork st') :
    Segment st' size log where
  ready := h.ready.same_work hwork
  extra2_size := by rw [hwork.extra2_size, h.extra2_size]
  order := h.order
  counter := by
    rw [hwork.extra_exhausted, hwork.extra2]
    exact h.counter
  running := by
    intro hr
    rw [hwork.extra2_hex, hwork.range_start]
    exact h.running (hwork.running hr)

theorem build_header_ready (h : st.Ready) (hsub : st.subscribed = true) (hok : (build_header st).2 = true) :
    (build_header st).1.Ready := by
  obtain ⟨time, _, _, _, heq⟩ | ⟨hex, heq⟩ := build_header_cases st
  · rw [heq]
    exact {
      length := (increment_length _ _).trans h.length
      size := h.size
      unused := fun hno => absurd (hsub.symm.trans hno) Bool.noConfusion }
  · rw [heq] at hok
    cases hok

/-- A new header is for the next extranonce, and starts at the first window. -/
theorem build_header_segment (h : Segment st size log) (hsub : st.subscribed = true)
    (hok : (build_header st).2 = true) :
    ∃ u, (build_header st).1.starts = st.starts ++ [u] ∧ Segment (build_header st).1 size (log ++ [u]) := by
  have hready := build_header_ready h.ready hsub hok
  obtain ⟨hpos, hsize⟩ := h.ready.size hsub
  obtain ⟨time, _, _, hexhausted, heq⟩ | ⟨hex, heq⟩ := build_header_cases st
  · rw [heq] at hready ⊢
    have hvalue : beValue (st.extra2.take st.extra2_size) = issued log := by
      obtain ⟨_, hvalue⟩ | ⟨hused, _⟩ := h.counter
      · rw [h.extra2_size, hvalue]
      · simp [hexhausted] at hused
    have hunit : unit_value (hex_encode (st.extra2.take st.extra2_size), 0) = issued log := by
      rw [unit_value, hex_pairs_encode, Option.getD_some, hvalue]
    have hlength : st.extra2_size ≤ st.extra2.length := by
      rw [h.ready.length]
      exact hsize
    have horder : InOrder size (log ++ [(hex_encode (st.extra2.take st.extra2_size), 0)]) := by
      refine h.order.append ⟨⟨_, hex_pairs_encode _, ?_⟩, rfl⟩ ?_ ?_
      · rw [List.length_take, h.extra2_size]
        have := h.extra2_size
        omega
      · rintro rfl
        exact ⟨hunit, rfl⟩
      · intro u hu
        refine .inr ⟨?_, rfl⟩
        rw [hunit, issued, Option.mem_def.mp hu]
    refine ⟨(hex_encode (st.extra2.take st.extra2_size), 0), ?_, ?_⟩
    · rw [start_range_starts, load_starts]
      rfl
    · exact {
        ready := hready
        extra2_size := h.extra2_size
        order := horder
        counter := by
          rw [issued_concat, hunit, ← hvalue, ← h.extra2_size]
          obtain ⟨hmore, hnext⟩ | ⟨hmore, hnext⟩ := increment_value st.extra2 hpos hlength
          · exact .inl ⟨hmore, hnext⟩
          · exact .inr ⟨hmore, hnext⟩
        running := fun _ => List.getLast?_concat }
  · rw [heq] at hok
    cases hok

/-- Stopping the device keeps the counter. -/
theorem Segment.stopped {st' : State} (h : Segment st size log) (hsub : st'.subscribed = st.subscribed)
    (hextra2 : st'.extra2 = st.extra2) (hsize : st'.extra2_size = st.extra2_size)
    (hexhausted : st'.extra_exhausted = st.extra_exhausted) (hrun : st'.running = false) :
    Segment st' size log where
  ready := by
    constructor
    · rw [hextra2, h.ready.length]
    · rw [hsub, hsize]
      exact h.ready.size
    · rw [hsub, hextra2, hexhausted]
      intro hno
      obtain ⟨hzero, hmore, _⟩ := h.ready.unused hno
      exact ⟨hzero, hmore, hrun⟩
  extra2_size := by rw [hsize, h.extra2_size]
  order := h.order
  counter := by
    rw [hexhausted, hextra2]
    exact h.counter
  running := by
    rw [hrun]
    intro hr
    cases hr

/-- What an event starts extends the log. -/
def Advances (size : Nat) (log : List (List Byte × Word)) (st : State) : Prop :=
  Segment st size (log ++ st.starts)

theorem Segment.advances {st' : State} (h : Segment st' size log) (hempty : st'.starts = []) :
    Advances size log st' := by
  rw [Advances, hempty, List.append_nil]
  exact h

theorem finish_same_work (r : State × Bool) : r.1.SameWork (finish r) := by
  obtain ⟨st, ok⟩ := r
  cases ok with
  | true => exact State.SameWork.refl st
  | false => exact (disconnect_silent st).work

theorem build_header_advances (h : Segment st size log) (hsub : st.subscribed = true) (hempty : st.starts = []) :
    Advances size log (finish (build_header st)) := by
  cases hok : (build_header st).2 with
  | true =>
    obtain ⟨u, hstarts, hseg⟩ := build_header_segment h hsub hok
    have hdone : finish (build_header st) = (build_header st).1 := by
      generalize build_header st = r at hok
      obtain ⟨st', ok⟩ := r
      cases hok
      rfl
    rw [hdone, Advances, hstarts, hempty]
    exact hseg
  | false =>
    obtain ⟨time, _, _, _, heq⟩ | ⟨hex, heq⟩ := build_header_cases st
    · rw [heq] at hok
      cases hok
    · rw [heq]
      have hquiet := (disconnect_silent { st with extra2_hex := hex }).work
      refine Segment.advances ?_ (hquiet.starts.trans hempty)
      exact h.stopped hquiet.subscribed hquiet.extra2 hquiet.extra2_size hquiet.extra_exhausted rfl

theorem Segment.subscribed (h : Segment st size log) (hrun : st.running = true) : st.subscribed = true := by
  cases hsub : st.subscribed with
  | true => rfl
  | false =>
    rw [(h.ready.unused hsub).2.2] at hrun
    cases hrun

theorem next_window_segment (h : Segment st size log) (hrun : st.running = true) {window : Word}
    (hwindow : window = st.range_start + RANGE) (hne : window ≠ 0) :
    Segment (start_range { st with range_start := window }) size (log ++ [(st.extra2_hex, window)]) := by
  have hlast := h.running hrun
  have hunit := h.order.units _ (List.mem_of_getLast? hlast)
  have hissued : issued log = unit_value (st.extra2_hex, window) + 1 := by rw [issued, hlast]; rfl
  exact {
    ready := ⟨h.ready.length, h.ready.size, fun hno => by
      have hsub := h.subscribed hrun
      rw [show st.subscribed = false from hno] at hsub
      cases hsub⟩
    extra2_size := h.extra2_size
    order := by
      refine h.order.append ⟨hunit.text, ?_⟩ ?_ ?_
      · have hadd := range_add hunit.window (hwindow ▸ hne)
        have hold := hunit.window
        rw [← hwindow] at hadd
        rw [hadd]
        omega
      · rintro rfl
        cases hlast
      · intro u hu
        rw [hlast] at hu
        cases hu
        exact .inl ⟨rfl, hwindow, hne⟩
    counter := by
      rw [issued_concat, ← hissued]
      exact h.counter
    running := fun _ => List.getLast?_concat }

theorem stopped_window_segment (h : Segment st size log) (window : Word) :
    Segment (stop { st with range_start := window }) size log :=
  h.stopped rfl rfl rfl rfl rfl

theorem next_range_advances (h : Segment st size log) (hrun : st.running = true) (hempty : st.starts = []) :
    Advances size log (finish (next_range st)) := by
  obtain ⟨window, hwindow⟩ : ∃ window, window = st.range_start + RANGE := ⟨_, rfl⟩
  have hcases := next_range_cases st
  rw [← hwindow] at hcases
  obtain ⟨_, heq⟩ | ⟨hne, heq⟩ := hcases
  · rw [heq]
    refine build_header_advances (stopped_window_segment h window) (h.subscribed hrun) ?_
    rw [(stop_silent _).work.starts, window_starts, hempty]
  · have hseg := next_window_segment h hrun hwindow hne
    rw [heq, Advances, finish, start_range_starts, window_starts, hempty]
    exact hseg

theorem Continues.advances {r : State × Bool} (hcont : Continues st r) (h : Segment st size log)
    (hempty : st.starts = []) : Advances size log (finish r) := by
  obtain hsilent | ⟨st', hsilent, hsub, rfl⟩ := hcont
  · have hwork := hsilent.work.trans (finish_same_work r)
    exact (h.same_work hwork).advances (hwork.starts.trans hempty)
  · exact build_header_advances (h.same_work hsilent.work) hsub (hsilent.work.starts.trans hempty)

theorem service_results_advances (env : Environment) (h : Segment st size log) (hempty : st.starts = []) :
    Advances size log (finish (service_results env st)) := by
  obtain hwork | ⟨st', hwork, hrun, heq⟩ := service_results_cases env st
  · have hall := hwork.trans (finish_same_work _)
    exact (h.same_work hall).advances (hall.starts.trans hempty)
  · rw [heq]
    exact next_range_advances (h.same_work hwork) hrun (hwork.starts.trans hempty)

end Segments

/-- Events that change the extranonces: a new session, and a line that sets
them. The latter is accepted or ends the session. -/
def changes (j : Json) (st : State) : Event → Prop
  | .connect _ _ _ => st.connected = false
  | .line text _ => st.connected = true ∧ extranonce_line j text = true
  | _ => False

/-- No event of a sequence changes the extranonces. -/
def Unchanged (j : Json) : State → List Event → Prop
  | _, [] => True
  | st, e :: events => ¬changes j st e ∧ Unchanged j (step j st e) events

/-- The units started by a sequence of events. -/
def starts_log (j : Json) : State → List Event → List (List Byte × Word)
  | _, [] => []
  | st, e :: events => (step j st e).starts ++ starts_log j (step j st e) events

theorem finish_announced {r : State × Bool} (h : Announced r.1.outputs) : Announced (finish r).outputs :=
  (finish_same_work r).announced h

/-- Whatever the event, each logged START directly follows the register writes
that carry it out. -/
theorem step_announced (j : Json) (st : State) (e : Event) : Announced (step j st e).outputs := by
  have hcleared : Announced st.cleared.outputs := announced_quiet rfl
  cases hconn : st.connected with
  | true =>
    rw [step_open j hconn]
    cases e with
    | connect worker password sent => exact hcleared
    | line text sent =>
      apply finish_announced
      cases hline : extranonce_line j text with
      | false => exact (handle_line_continues sent st.cleared hline).announced hcleared
      | true => exact (handle_line_renews sent st.cleared hline).announced hcleared
    | service env =>
      apply finish_announced
      obtain hwork | ⟨st', hwork, _, heq⟩ := service_results_cases env st.cleared
      · exact hwork.announced hcleared
      · rw [heq]
        exact next_range_announced (hwork.announced hcleared)
    | timeouts now limit => exact finish_announced ((reply_timeouts_silent now limit st.cleared).work.announced hcleared)
    | disconnect => exact (disconnect_silent st.cleared).work.announced hcleared
  | false =>
    rw [step_closed j hconn]
    cases e with
    | connect worker password sent =>
      dsimp only
      unfold connect
      dsimp only
      split
      · exact announced_quiet rfl
      · exact finish_announced hcleared
    | line text sent | service env | timeouts now limit | disconnect => exact hcleared

theorem Segment.cleared {st : State} {size : Nat} {log : List (List Byte × Word)} (h : Segment st size log) :
    Segment st.cleared size log :=
  ⟨⟨h.ready.length, h.ready.size, h.ready.unused⟩, h.extra2_size, h.order, h.counter, h.running⟩

/-- One event that does not change the extranonces extends the log in order. -/
theorem step_advances (j : Json) {st : State} {size : Nat} {log : List (List Byte × Word)} (h : Segment st size log)
    {e : Event} (hsame : ¬changes j st e) : Advances size log (step j st e) := by
  cases hconn : st.connected with
  | true =>
    rw [step_open j hconn]
    cases e with
    | connect worker password sent => exact h.cleared.advances rfl
    | line text sent =>
      have hline : extranonce_line j text = false := by
        rw [← Bool.not_eq_true]
        exact fun hline => hsame ⟨hconn, hline⟩
      exact (handle_line_continues sent st.cleared hline).advances h.cleared rfl
    | service env => exact service_results_advances env h.cleared rfl
    | timeouts now limit =>
      exact Continues.advances (.inl (reply_timeouts_silent now limit st.cleared)) h.cleared rfl
    | disconnect =>
      have hquiet := (disconnect_silent st.cleared).work
      exact (h.cleared.same_work hquiet).advances hquiet.starts
  | false =>
    rw [step_closed j hconn]
    cases e with
    | connect worker password sent => exact absurd hconn hsame
    | line text sent | service env | timeouts now limit | disconnect => exact h.cleared.advances rfl

theorem run_advances (j : Json) {st : State} {size : Nat} {log : List (List Byte × Word)} (h : Segment st size log)
    {events : List Event} (hsame : Unchanged j st events) :
    Segment (run (step j) st events) size (log ++ starts_log j st events) := by
  induction events generalizing st log with
  | nil =>
    rw [starts_log, List.append_nil]
    exact h
  | cons e events ih =>
    rw [run_cons, starts_log, ← List.append_assoc]
    exact ih (step_advances j h hsame.1) hsame.2

theorem Segment.empty {st : State} (hready : st.Ready) (hextra2 : st.extra2 = List.replicate 16 0)
    (hmore : st.extra_exhausted = false) (hrun : st.running = false) : Segment st st.extra2_size [] where
  ready := hready
  extra2_size := rfl
  order := ⟨fun u hu => (by cases hu), fun u hu => (by cases hu), List.IsChain.nil⟩
  counter := by
    refine .inl ⟨hmore, ?_⟩
    rw [hextra2, List.take_replicate]
    generalize min st.extra2_size 16 = n
    induction n with
    | zero => rfl
    | succ n ih =>
      rw [List.replicate_succ', beValue_concat, ih]
      rfl
  running := by
    rw [hrun]
    intro hr
    cases hr

theorem State.Renewed.segment {st st' : State} (h : st.Renewed st') (hready : st.Ready) :
    Segment st' st'.extra2_size [] := by
  obtain ⟨hextra2, hmore, hrun⟩ :
      st'.extra2 = List.replicate 16 0 ∧ st'.extra_exhausted = false ∧ st'.running = false := by
    obtain hzero | ⟨hsub, hextra2, hmore, hrun⟩ := h.counter
    · exact hzero
    · rw [hextra2, hmore, hrun]
      exact hready.unused hsub
  refine Segment.empty ⟨?_, fun _ => h.size, fun _ => ⟨hextra2, hmore, hrun⟩⟩ hextra2 hmore hrun
  rw [hextra2, List.length_replicate]

theorem connect_segment (worker password : List Byte) (st : State) :
    Segment (connect worker password true st) (connect worker password true st).extra2_size [] :=
  Segment.empty ⟨rfl, fun hsub => (by cases hsub), fun _ => ⟨rfl, rfl, rfl⟩⟩ rfl rfl rfl

/-- New extranonces that are accepted begin an empty log. -/
theorem changed_segment (j : Json) {st : State} (hready : st.connected = true → st.Ready) {e : Event}
    (hchange : changes j st e) (hopen : (step j st e).connected = true) :
    Segment (step j st e) (step j st e).extra2_size [] := by
  cases e with
  | connect worker password sent =>
    rw [step_closed j hchange] at hopen ⊢
    cases sent with
    | true => exact connect_segment worker password st.cleared
    | false => cases hopen
  | line text sent =>
    obtain ⟨hconn, hline⟩ := hchange
    have hrenews := handle_line_renews sent st.cleared hline
    rw [step_open j hconn] at hopen ⊢
    dsimp only at hopen ⊢
    generalize handle_line j text sent st.cleared = r at hrenews hopen ⊢
    obtain ⟨st', ok⟩ := r
    cases ok with
    | true =>
      obtain ⟨hlength, hsize, hunused⟩ := hready hconn
      exact (hrenews.renewed rfl).segment ⟨hlength, hsize, hunused⟩
    | false => cases hopen
  | service env | timeouts now limit | disconnect => cases hchange

/-- A closed session issues nothing before the next one. -/
theorem closed_run (j : Json) {st : State} (hconn : st.connected = false) {events : List Event}
    (hsame : Unchanged j st events) :
    starts_log j st events = [] ∧ (run (step j) st events).connected = false := by
  induction events generalizing st with
  | nil => exact ⟨rfl, hconn⟩
  | cons e events ih =>
    have hclosed : step j st e = st.cleared := by
      rw [step_closed j hconn]
      cases e with
      | connect worker password sent => exact absurd hconn hsame.1
      | line text sent | service env | timeouts now limit | disconnect => rfl
    have hrest := hsame.2
    rw [hclosed] at hrest
    rw [starts_log, run_cons, hclosed]
    exact ih (show st.cleared.connected = false from hconn) hrest

/-- An open session is always in some segment. -/
theorem run_in_segment (j : Json) (events : List Event) :
    (run (step j) State.init events).connected = true →
      ∃ size log, Segment (run (step j) State.init events) size log := by
  refine run_invariant (P := fun st : State => st.connected = true → ∃ size log, Segment st size log)
    (fun st e h hopen => ?_) (fun hopen => (by cases hopen)) events
  by_cases hchange : changes j st e
  · refine ⟨_, [], changed_segment j (fun hconn => ?_) hchange hopen⟩
    obtain ⟨size, log, hseg⟩ := h hconn
    exact hseg.ready
  · cases hconn : st.connected with
    | true =>
      obtain ⟨size, log, hseg⟩ := h hconn
      exact ⟨size, _, step_advances j hseg hchange⟩
    | false =>
      rw [step_closed j hconn] at hopen
      cases e with
      | connect worker password sent => exact absurd hconn hchange
      | line text sent | service env | timeouts now limit | disconnect =>
        rw [show st.cleared.connected = st.connected from rfl, hconn] at hopen
        cases hopen

/-- The device works for an open session, on the header of the last extranonce
text. -/
theorem run_header_loaded (j : Json) (events : List Event)
    (hrun : (run (step j) State.init events).running = true) :
    (run (step j) State.init events).connected = true ∧
      ∃ extra2 time, (run (step j) State.init events).HeaderLoaded extra2 time := by
  have h := run_consistent j events
  rw [joint_run_fst] at h
  obtain ⟨hhave, hloaded⟩ := h.running hrun
  exact ⟨(h.job hhave).1, hloaded⟩

theorem build_header_exhausted {st : State} (hused : st.extra_exhausted = true) : build_header st = (st, false) := by
  rw [build_header, if_pos hused]

/-- From one change of the extranonces to the next, no unit of work is started
twice: the units follow each other from the first window of extranonce zero on,
window by window and extranonce by extranonce, each with the header that it
names; when the last extranonce has been used `build_header` fails and starts
nothing. -/
theorem work_units_in_order (j : Json) (before : List Event) (e : Event) (after : List Event)
    (hchange : changes j (run (step j) State.init before) e)
    (hsame : Unchanged j (run (step j) State.init (before ++ [e])) after) :
    let start := run (step j) State.init (before ++ [e])
    let log := starts_log j start after
    let last := run (step j) start after
    log.Nodup ∧ InOrder start.extra2_size log ∧
      (last.running = true → log.getLast? = some (last.extra2_hex, last.range_start) ∧
        ∃ extra2 time, last.HeaderLoaded extra2 time) ∧
      (issued log = 256 ^ start.extra2_size → log ≠ [] →
        (build_header last).2 = false ∧ (build_header last).1.starts = last.starts) := by
  intro start log last
  have hstart : start = step j (run (step j) State.init before) e := run_append ..
  have hlast : last = run (step j) State.init (before ++ [e] ++ after) := (run_append ..).symm
  have hloaded := run_header_loaded j (before ++ [e] ++ after)
  rw [← hlast] at hloaded
  cases hopen : start.connected with
  | true =>
    have hsegment : Segment start start.extra2_size [] := by
      rw [hstart] at hopen ⊢
      refine changed_segment j (fun hconn => ?_) hchange hopen
      obtain ⟨size, log, hseg⟩ := run_in_segment j before hconn
      exact hseg.ready
    have hseg : Segment last start.extra2_size log := run_advances j hsegment hsame
    refine ⟨hseg.order.nodup, hseg.order, fun hrun => ⟨hseg.running hrun, (hloaded hrun).2⟩, fun hissued _ => ?_⟩
    obtain ⟨_, hvalue⟩ | ⟨hused, _⟩ := hseg.counter
    · have hlt := beValue_lt (last.extra2.take start.extra2_size)
      rw [hvalue, hissued, List.length_take, hseg.ready.length, Nat.pow_mul] at hlt
      exact absurd (Nat.pow_le_pow_right (by omega) (Nat.min_le_left ..)) (Nat.not_le.mpr hlt)
    · rw [build_header_exhausted hused]
      exact ⟨rfl, rfl⟩
  | false =>
    obtain ⟨hempty, hclosed⟩ := closed_run j hopen hsame
    have hlog : log = [] := hempty
    rw [hlog]
    refine ⟨List.nodup_nil, ⟨fun u hu => (by cases hu), fun u hu => (by cases hu), List.IsChain.nil⟩, ?_, ?_⟩
    · intro hrun
      have hconn : last.connected = false := hclosed
      rw [(hloaded hrun).1] at hconn
      cases hconn
    · intro _ hne
      exact absurd rfl hne

/-- A poll that finds the range done. -/
def range_done : Environment where
  status := 0
  result_status := fun _ => 0
  result_nonce := fun _ => 0
  sent := fun _ => true
  now := 0
  final_status := 4
  final_result_status := 0

/-- The job, the authorization, the end of the first range and the job again. -/
def sample_work : List Event := [.line [3] true, .line [2] true, .service range_done, .line [3] true]

theorem sample_pool_units :
    let start := run (step sample_pool) State.init [.connect [] [] true, .line [1] true]
    changes sample_pool (run (step sample_pool) State.init [.connect [] [] true]) (.line [1] true) ∧
      starts_log sample_pool start sample_work =
        [(ascii "00000000", 0), (ascii "00000000", RANGE), (ascii "00000001", 0)] ∧
      (starts_log sample_pool start sample_work).Nodup := by
  intro start
  have hchange :
      changes sample_pool (run (step sample_pool) State.init [.connect [] [] true]) (.line [1] true) :=
    ⟨rfl, by decide⟩
  have hquiet : extranonce_line sample_pool [3] = false ∧ extranonce_line sample_pool [2] = false := by
    decide
  have hline {st : State} {text : List Byte} (h : extranonce_line sample_pool text = false) :
      ¬changes sample_pool st (.line text true) := by
    rintro ⟨_, hline⟩
    rw [h] at hline
    cases hline
  have hsame : Unchanged sample_pool start sample_work := ⟨hline hquiet.1, hline hquiet.2, id, hline hquiet.1, trivial⟩
  have hlog : starts_log sample_pool start sample_work =
      [(ascii "00000000", 0), (ascii "00000000", RANGE), (ascii "00000001", 0)] := by decide +kernel
  exact ⟨hchange, hlog, (work_units_in_order sample_pool [.connect [] [] true] (.line [1] true) sample_work hchange hsame).1⟩

end scu35.stratum
