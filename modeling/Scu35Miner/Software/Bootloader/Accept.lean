import Scu35Miner.Software.Bootloader.Steps

open fips180 storage

namespace scu35.bootloader

open srec

/-- Of the polls of the SPI status register from `p` up to `q`, `n` find a byte,
the last one among them, and `w` find none. -/
inductive Arrives (b : Board) : Nat → Nat → Nat → Nat → Prop where
  | done (p : Nat) : Arrives b 0 0 p p
  | wait {n w p q : Nat} (hempty : b.rx_empty p = true) (hrest : Arrives b (n + 1) w (p + 1) q) :
    Arrives b (n + 1) (w + 1) p q
  | byte {n w p q : Nat} (hfull : b.rx_empty p = false) (hrest : Arrives b n w (p + 1) q) : Arrives b (n + 1) w p q

/-- The first `k` flash reads of 64 bytes after their command, which end at poll
`p`, are answered: none of them finds the register empty a million times. -/
inductive Refilled (b : Board) : Nat → Nat → Prop where
  | zero : Refilled b 0 0
  | succ {k p w q : Nat} (hbefore : Refilled b k p) (hbytes : Arrives b 68 w p q) (hguard : w < 1000000) :
    Refilled b (k + 1) q

theorem receive_wait {b : Board} {n guard p : Nat} (hempty : b.rx_empty p = true) :
    receive b (n + 1) (guard + 1) p = receive b (n + 1) guard (p + 1) := by
  simp only [receive, wait_rx, hempty, ↓reduceIte]

theorem receive_byte {b : Board} {n guard p : Nat} (hfull : b.rx_empty p = false) :
    receive b (n + 1) (guard + 1) p = receive b n (guard + 1) (p + 1) := by
  simp only [receive, wait_rx, hfull, Bool.false_eq_true, ↓reduceIte, Nat.add_one_ne_zero]

theorem receive_of_arrives {b : Board} {n w p q : Nat} (h : Arrives b n w p q) {guard : Nat} (hguard : w < guard) :
    receive b n guard p = (true, q) := by
  induction h generalizing guard with
  | done => rfl
  | wait hempty _ ih =>
    obtain ⟨guard, rfl⟩ := Nat.exists_eq_succ_of_ne_zero (Nat.ne_zero_of_lt hguard)
    rw [receive_wait hempty]
    exact ih (by omega)
  | byte hfull _ ih =>
    obtain ⟨guard, rfl⟩ := Nat.exists_eq_succ_of_ne_zero (Nat.ne_zero_of_lt hguard)
    rw [receive_byte hfull]
    exact ih hguard

theorem arrives_of_receive {b : Board} {n guard p q : Nat} (hpos : 0 < guard) (h : receive b n guard p = (true, q)) :
    ∃ w < guard, Arrives b n w p q := by
  induction n generalizing guard p with
  | zero =>
    cases h
    exact ⟨0, hpos, .done _⟩
  | succ n ih =>
    -- the guard counts the empty polls
    induction guard generalizing p with
    | zero => omega
    | succ guard ihguard =>
      cases hempty : b.rx_empty p with
      | false =>
        rw [receive_byte hempty] at h
        obtain ⟨w, hw, hrest⟩ := ih hpos h
        exact ⟨w, hw, .byte hempty hrest⟩
      | true =>
        rw [receive_wait hempty] at h
        obtain rfl | hleft := Nat.eq_zero_or_pos guard
        · simp [receive, wait_rx] at h
        · obtain ⟨w, hw, hrest⟩ := ihguard hleft h
          exact ⟨w + 1, by omega, .wait hempty hrest⟩

/-- A flash read succeeds exactly if its bytes arrive before the guard runs
out. -/
theorem transfer_iff (b : Board) (n p q : Nat) :
    transfer b n p = (true, q) ↔ ∃ w < 1000000, Arrives b n w p q := by
  constructor
  · exact arrives_of_receive (by decide)
  · rintro ⟨w, hw, harrives⟩
    exact receive_of_arrives harrives hw

theorem Refilled.next {b : Board} {k p : Nat} (h : Refilled b k p) (hok : (transfer b 68 p).1 = true) :
    Refilled b (k + 1) (transfer b 68 p).2 := by
  obtain ⟨w, hw, hbytes⟩ := (transfer_iff b 68 p (transfer b 68 p).2).mp (Prod.ext hok rfl)
  exact .succ h hbytes hw

theorem refilled_le {b : Board} {k n q : Nat} (h : Refilled b n q) (hle : k ≤ n) : ∃ p, Refilled b k p := by
  induction h with
  | zero =>
    obtain rfl := Nat.le_zero.mp hle
    exact ⟨0, .zero⟩
  | succ hbefore hbytes hguard ih =>
    obtain hlt | rfl := Nat.lt_or_eq_of_le hle
    · exact ih (by omega)
    · exact ⟨_, .succ hbefore hbytes hguard⟩

/-- The poll at which a number of reads ends is determined. -/
theorem Refilled.unique {b : Board} {k p q : Nat} (h : Refilled b k p) (h' : Refilled b k q) : p = q := by
  induction h generalizing q with
  | zero =>
    cases h'
    rfl
  | succ _ hbytes hguard ih =>
    cases h' with
    | succ hbefore' hbytes' hguard' =>
      obtain rfl := ih hbefore'
      have heq := (receive_of_arrives hbytes hguard).symm.trans (receive_of_arrives hbytes' hguard')
      exact (Prod.mk.inj heq).2

/-- If one more read is answered, the next transfer succeeds. -/
theorem Refilled.answered {b : Board} {k p q : Nat} (h : Refilled b k p) (hnext : Refilled b (k + 1) q) :
    (transfer b 68 p).1 = true := by
  cases hnext with
  | succ hbefore hbytes hguard =>
    obtain rfl := h.unique hbefore
    rw [(transfer_iff b 68 p q).mpr ⟨_, hguard, hbytes⟩]

/-- The flash reads made so far were answered. -/
def State.Fed (b : Board) (s : State) : Prop := ∃ k, s.flash = FLASH_START + 64 * k ∧ Refilled b k s.polls

theorem get_byte_fed {b : Board} {s : State} (h : s.Fed b) (hbyte : (get_byte b s).1 ≠ none) :
    (get_byte b s).2.Fed b := by
  obtain ⟨k, hflash, hrefilled⟩ := h
  unfold get_byte at hbyte ⊢
  by_cases hpos : s.pos = 64
  · by_cases hend : s.flash > FLASH_END - 64
    · simp [hpos, hend] at hbyte
    · cases hok : (transfer b 68 s.polls).1 with
      | false => simp [hpos, hend, hok] at hbyte
      | true =>
        simp only [hpos, hend, hok, Bool.not_true, Bool.false_eq_true, ↓reduceIte]
        exact ⟨k + 1, by simp only [hflash]; omega, hrefilled.next hok⟩
  · rw [if_neg hpos]
    exact ⟨k, hflash, hrefilled⟩

theorem process_reads (b : Board) (s : State) (r : srec_record) :
    (process b s r).flash = s.flash ∧ (process b s r).polls = s.polls := by
  unfold process
  simp only
  split
  · exact ⟨rfl, rfl⟩
  · split
    · split <;> exact ⟨rfl, rfl⟩
    · split
      · split <;> exact ⟨rfl, rfl⟩
      · split
        · rw [store_vectors_eq]
          exact ⟨rfl, rfl⟩
        · obtain ⟨k, hstate, _⟩ := store_ram_cases b s r.address.toNat r.data
          split
          · rw [hstate]
            split <;> exact ⟨rfl, rfl⟩
          · exact ⟨rfl, rfl⟩

/-- A pass that does not fail has read a byte. -/
theorem load_step_byte {b : Board} {s : State} (hopen : ∀ entry, s.control ≠ .done entry)
    (hkept : (load_step b s).control ≠ .done none) : (get_byte b s).1 ≠ none := by
  intro hbyte
  apply hkept
  rcases hget : get_byte b s with ⟨c, s'⟩
  rw [hget] at hbyte
  obtain rfl : c = none := hbyte
  unfold load_step
  cases hcontrol : s.control with
  | start =>
    simp only [hget]
    rfl
  | line text =>
    simp only [hget]
    rfl
  | done entry => exact absurd hcontrol (hopen entry)

theorem load_step_fed {b : Board} {s : State} (h : s.Fed b) (hopen : ∀ entry, s.control ≠ .done entry)
    (hkept : (load_step b s).control ≠ .done none) : (load_step b s).Fed b := by
  have hfed := get_byte_fed h (load_step_byte hopen hkept)
  rcases hget : get_byte b s with ⟨c, s'⟩
  rw [hget] at hfed
  have hsame : (load_step b s).flash = s'.flash ∧ (load_step b s).polls = s'.polls := by
    unfold load_step
    cases hcontrol : s.control with
    | done entry => exact absurd hcontrol (hopen entry)
    | start =>
      cases c with
      | none => simp only [hget, State.fail, and_self]
      | some c =>
        simp only [hget]
        split
        · exact ⟨rfl, rfl⟩
        · split <;> exact ⟨rfl, rfl⟩
    | line text =>
      cases c with
      | none => simp only [hget, State.fail, and_self]
      | some c =>
        simp only [hget]
        split
        · exact ⟨rfl, rfl⟩
        · split
          · split
            · exact ⟨rfl, rfl⟩
            · exact process_reads _ _ _
          · exact ⟨rfl, rfl⟩
  obtain ⟨k, hflash, hrefilled⟩ := hfed
  exact ⟨k, by rw [hsame.1, hflash], by rw [hsame.2]; exact hrefilled⟩

/-- A pass that reads a byte has one left in the window, and an answer if it
needs one. -/
theorem get_byte_answered {b : Board} {s : State} {n : Nat} (h : s.Position b n) (hbyte : (get_byte b s).1 ≠ none) :
    s.Answered b ∧ n < FLASH_END - FLASH_START := by
  constructor
  · intro hpos
    unfold get_byte at hbyte
    by_cases hend : s.flash > FLASH_END - 64
    · simp [hpos, hend] at hbyte
    · cases hok : (transfer b 68 s.polls).1 with
      | false => simp [hpos, hend, hok] at hbyte
      | true => rfl
  · obtain ⟨cache, flash, pos, polls, hnone | ⟨_, _, hn⟩⟩ := get_byte_cases h
    · rw [hnone] at hbyte
      exact absurd rfl hbyte
    · exact hn

/-- `load` accepts the image: the window holds it, the SPI answers the reads up
to its end, no line fills the buffer, the data records have their places, the
counts are right, RAM reads back and the entry is allowed. -/
structure Loadable (b : Board) (n : Nat) (rs : List srec_record) (last : srec_record) : Prop where
  image : Image b.flash n rs last
  window : n ≤ FLASH_END - FLASH_START
  answered : ∃ p, Refilled b ((n + 63) / 64) p
  lines : ∀ m < n, ∀ qs text, scan b.flash m = some (qs, some text) → text.length ≠ line_size
  placed : ∀ r ∈ rs, is_data r = true → in_vectors r = true ∨ in_ram r = true
  counts : CountsMatch rs
  read_back : RamHolds b rs
  entry : EntryOk rs last.address

/-- The loader has read `n` bytes and found nothing against them. -/
structure State.Clean (b : Board) (s : State) (n : Nat) (rs : List srec_record) (control : Control) : Prop where
  reads : s.At b n rs control
  fed : s.Fed b
  lines : ∀ m < n, ∀ qs text, scan b.flash m = some (qs, some text) → text.length ≠ line_size
  placed : ∀ r ∈ rs, is_data r = true → in_vectors r = true ∨ in_ram r = true

/-- After `n` passes the loader has failed, has accepted a loadable image, or has
read `n` bytes. -/
def State.Checked (b : Board) (n : Nat) (s : State) : Prop :=
  match s.control with
  | .done none => True
  | .done (some entry) => ∃ n rs last, Loadable b n rs last ∧ last.address = entry
  | control => ∃ rs, s.Clean b n rs control

/-- The loader fails where the scan does. -/
theorem State.At.unscanned {b : Board} {s : State} {n : Nat} {rs : List srec_record} {control : Control}
    (h : s.At b n rs control) (hanswer : s.Answered b) (hn : n < FLASH_END - FLASH_START)
    (hopen : ∀ entry, control ≠ .done entry) (hscan : scan b.flash (n + 1) = none) :
    (load_step b s).control = .done none := by
  obtain ⟨cache, flash, pos, polls, _, hbyte⟩ := get_byte_next hanswer h.loading.position h.aligned hn
  have hbefore := h.loading.scan
  rw [h.control_eq] at hbefore
  cases control with
  | done entry => exact absurd rfl (hopen entry)
  | start =>
    rw [scan_between hbefore] at hscan
    by_cases hnl : newline (b.flash (FLASH_START + n)) = true
    · rw [if_pos hnl] at hscan
      cases hscan
    · by_cases hS : b.flash (FLASH_START + n) = 0x53
      · rw [if_neg hnl, if_pos hS] at hscan
        cases hscan
      · simp only [load_step, h.control_eq, hbyte, hnl, bne_iff_ne, ne_eq, hS, not_false_eq_true,
          Bool.false_eq_true, ↓reduceIte, State.fail]
  | line text =>
    rw [scan_inside hbefore] at hscan
    by_cases hnl : newline (b.flash (FLASH_START + n)) = true
    · rw [if_pos hnl, Option.map_eq_none_iff] at hscan
      simp only [load_step, h.control_eq, hbyte, hnl, hscan, ↓reduceIte, State.fail]
      split <;> rfl
    · rw [if_neg hnl] at hscan
      cases hscan

section Step

variable {b : Board} {s : State} {n : Nat} {rs : List srec_record}

/-- The line lengths found so far are still right after a pass. -/
theorem lines_succ {line : Option (List Byte)} (hscan : scan b.flash n = some (rs, line))
    (hroom : ∀ text, line = some text → text.length ≠ line_size)
    (h : ∀ m < n, ∀ qs text, scan b.flash m = some (qs, some text) → text.length ≠ line_size) :
    ∀ m < n + 1, ∀ qs text, scan b.flash m = some (qs, some text) → text.length ≠ line_size := by
  intro m hm qs text htext
  obtain hlt | rfl := Nat.lt_succ_iff_lt_or_eq.mp hm
  · exact h m hlt qs text htext
  · rw [hscan] at htext
    cases htext
    exact hroom text rfl

/-- A pass between records. -/
theorem State.Clean.step_start (h : s.Clean b n rs .start) : (load_step b s).Checked b (n + 1) := by
  have hstart := h.reads.control_eq
  have hopen (entry : Option Word) : s.control ≠ .done entry := by
    rw [hstart]
    nofun
  by_cases hkept : (load_step b s).control = .done none
  · rw [State.Checked, hkept]
    trivial
  obtain ⟨hanswer, hn⟩ := get_byte_answered h.reads.loading.position (load_step_byte hopen hkept)
  have hscan := h.reads.loading.scan
  rw [hstart] at hscan
  have hlines := lines_succ hscan nofun h.lines
  have hfed := load_step_fed h.fed hopen hkept
  by_cases hnl : newline (b.flash (FLASH_START + n)) = true
  · have hat := h.reads.skip hanswer hn hnl
    rw [State.Checked, hat.control_eq]
    exact ⟨rs, hat, hfed, hlines, h.placed⟩
  by_cases hS : b.flash (FLASH_START + n) = 0x53
  · have hat := h.reads.first hanswer hn hS
    rw [State.Checked, hat.control_eq]
    exact ⟨rs, hat, hfed, hlines, h.placed⟩
  · have hnone : scan b.flash (n + 1) = none := by rw [scan_between hscan, if_neg hnl, if_neg hS]
    exact absurd (h.reads.unscanned hanswer hn nofun hnone) hkept

/-- The reads up to the byte that a pass takes were answered. -/
theorem State.Fed.answered (h : s.Fed b) (hposition : s.Position b n) (hbyte : (get_byte b s).1 ≠ none) :
    ∃ p, Refilled b ((n + 1 + 63) / 64) p := by
  have hfed := get_byte_fed h hbyte
  obtain ⟨cache, flash, pos, polls, hnone | ⟨hsome, hnext, _⟩⟩ := get_byte_cases hposition
  · rw [hnone] at hbyte
    exact absurd rfl hbyte
  · rw [hsome] at hfed
    obtain ⟨k, hflash, hrefilled⟩ := hfed
    have hconsumed := hnext.consumed
    have hle := hnext.pos_le
    simp only at hflash hconsumed hle
    exact refilled_le hrefilled (by omega)

/-- A pass inside a line. -/
theorem State.Clean.step_line {text : List Byte} (h : s.Clean b n rs (.line text)) :
    (load_step b s).Checked b (n + 1) := by
  have hline := h.reads.control_eq
  have hopen (entry : Option Word) : s.control ≠ .done entry := by
    rw [hline]
    nofun
  by_cases hkept : (load_step b s).control = .done none
  · rw [State.Checked, hkept]
    trivial
  have hbyte := load_step_byte hopen hkept
  obtain ⟨hanswer, hn⟩ := get_byte_answered h.reads.loading.position hbyte
  have hroom : text.length ≠ line_size := fun hfull => hkept (h.reads.full hanswer hn hfull)
  have hscan := h.reads.loading.scan
  rw [hline] at hscan
  have hlines := lines_succ hscan (fun _ heq => Option.some.inj heq ▸ hroom) h.lines
  have hfed := load_step_fed h.fed hopen hkept
  by_cases hnl : newline (b.flash (FLASH_START + n)) = true
  swap
  · have hat := h.reads.next hanswer hn hroom (Bool.eq_false_iff.mpr hnl)
    rw [State.Checked, hat.control_eq]
    exact ⟨rs, hat, hfed, hlines, h.placed⟩
  have hnext := scan_inside hscan
  rw [if_pos hnl] at hnext
  cases hparse : (srec_parse text).1 with
  | none =>
    rw [hparse] at hnext
    exact absurd (h.reads.unscanned hanswer hn nofun hnext) hkept
  | some r =>
    rw [hparse] at hnext
    by_cases htype : r.type < 7
    · obtain ⟨hacc, hat⟩ := (h.reads.record hanswer hparse hroom hnl hn htype).2 hkept
      rw [State.Checked, hat.control_eq]
      refine ⟨rs ++ [r], hat, hfed, hlines, ?_⟩
      rw [List.forall_mem_append, List.forall_mem_singleton]
      exact ⟨h.placed, hacc.placed⟩
    · obtain ⟨hdone, hbad⟩ := h.reads.last hanswer hparse hroom hnl hn (by omega)
      have hentry : EntryOk rs r.address := not_not.mp fun hnot => hkept (hbad hnot)
      rw [State.Checked, (hdone hentry).1]
      have hcontents := h.reads.loading.contents
      refine ⟨n + 1, rs, r, ?_, rfl⟩
      exact {
        image := ⟨hnext, h.reads.loading.body, by omega⟩
        window := by omega
        answered := h.fed.answered h.reads.loading.position hbyte
        lines := hlines
        placed := h.placed
        counts := hcontents.counts
        read_back := by
          rw [RamHolds, ← hcontents.history]
          exact hcontents.read_back
        entry := hentry }

end Step

theorem init_clean (b : Board) : State.init.Clean b 0 [] .start where
  reads := init_at b
  fed := ⟨0, rfl, .zero⟩
  lines := fun m hm => absurd hm (Nat.not_lt_zero m)
  placed := nofun

theorem load_checked (b : Board) (n : Nat) : (load b n).Checked b n := by
  induction n with
  | zero => exact ⟨[], init_clean b⟩
  | succ n ih =>
    rw [load_succ]
    cases hcontrol : (load b n).control with
    | start =>
      rw [State.Checked, hcontrol] at ih
      obtain ⟨rs, hclean⟩ := ih
      exact hclean.step_start
    | line text =>
      rw [State.Checked, hcontrol] at ih
      obtain ⟨rs, hclean⟩ := ih
      exact hclean.step_line
    | done entry =>
      rw [load_step_done hcontrol]
      rw [State.Checked, hcontrol] at ih ⊢
      cases entry with
      | none => trivial
      | some entry => exact ih

theorem load_loadable {b : Board} {n : Nat} {entry : Word} (h : (load b n).control = .done (some entry)) :
    ∃ n' rs last, Loadable b n' rs last ∧ last.address = entry := by
  have hchecked := load_checked b n
  rwa [State.Checked, h] at hchecked

/-- The scan of an image has not stopped before its end. -/
theorem scan_defined {flash : Nat → Byte} {n m : Nat} (hle : n ≤ m) (h : scan flash m ≠ none) : scan flash n ≠ none := by
  induction m, hle using Nat.le_induction with
  | base => exact h
  | succ m _ ih =>
    apply ih
    intro hnone
    rw [scan, hnone] at h
    exact h rfl

theorem RamHolds.mono {b : Board} {qs rs : List srec_record} (h : RamHolds b rs) (hle : qs <+: rs) :
    RamHolds b qs := by
  obtain ⟨rest, rfl⟩ := hle
  intro before a v hbefore
  apply h before a v
  refine hbefore.trans ?_
  rw [image_writes, image_writes, List.filter_append, List.flatMap_append, List.filter_append]
  exact List.prefix_append _ _

/-- The loader does not fail before the end of a loadable image. -/
theorem Loadable.proceeds {b : Board} {s : State} {n m : Nat} {rs qs : List srec_record} {last : srec_record}
    {control : Control} (h : Loadable b n rs last) (hclean : s.Clean b m qs control)
    (hopen : ∀ entry, control ≠ .done entry) (hm : m < n) : (load_step b s).control ≠ .done none := by
  have hn : m < FLASH_END - FLASH_START := Nat.lt_of_lt_of_le hm h.window
  have hanswer : s.Answered b := by
    intro hpos
    obtain ⟨k, hflash, hrefilled⟩ := hclean.fed
    have hconsumed := hclean.reads.loading.position.consumed
    obtain ⟨p, hp⟩ := h.answered
    obtain ⟨q, hnext⟩ := refilled_le (k := k + 1) hp (by omega)
    exact hrefilled.answered hnext
  have hdefined : scan b.flash (m + 1) ≠ none := by
    apply scan_defined hm
    rw [h.image.scan]
    nofun
  have hscan := hclean.reads.loading.scan
  rw [hclean.reads.control_eq] at hscan
  cases control with
  | done entry => exact absurd rfl (hopen entry)
  | start =>
    rw [scan_between hscan] at hdefined
    by_cases hnl : newline (b.flash (FLASH_START + m)) = true
    · rw [(hclean.reads.skip hanswer hn hnl).control_eq]
      nofun
    · rw [if_neg hnl] at hdefined
      by_cases hS : b.flash (FLASH_START + m) = 0x53
      · rw [(hclean.reads.first hanswer hn hS).control_eq]
        nofun
      · rw [if_neg hS] at hdefined
        exact absurd rfl hdefined
  | line text =>
    have hroom := h.lines m hm qs text hscan
    have hnext := scan_inside hscan
    by_cases hnl : newline (b.flash (FLASH_START + m)) = true
    swap
    · rw [(hclean.reads.next hanswer hn hroom (Bool.eq_false_iff.mpr hnl)).control_eq]
      nofun
    rw [if_pos hnl] at hnext
    cases hparse : (srec_parse text).1 with
    | none =>
      rw [hparse] at hnext
      exact absurd hnext hdefined
    | some r =>
      rw [hparse] at hnext
      -- the record is one of the body, or it is the one that ends the image
      obtain heq | hbody := List.prefix_concat_iff.mp ( scan_prefix hm hnext h.image.scan)
      · obtain ⟨rfl, hlast⟩ := List.append_inj' heq rfl
        obtain rfl := List.singleton_inj.mp hlast
        have hdone := (hclean.reads.last hanswer hparse hroom hnl hn h.image.last).1 h.entry
        rw [hdone.1]
        nofun
      · have hmem : r ∈ rs := hbody.subset (List.mem_append_right qs (List.mem_singleton.mpr rfl))
        have htaken := (hclean.reads.record hanswer hparse hroom hnl hn (h.image.body r hmem)).1
        exact htaken ⟨h.placed r hmem, h.counts qs r hbody⟩ (h.read_back.mono hbody)

/-- `load` accepts exactly the loadable images. -/
theorem load_accepts_iff (b : Board) (entry : Word) :
    (load b passes).control = .done (some entry) ↔ ∃ n rs last, Loadable b n rs last ∧ last.address = entry := by
  constructor
  · exact load_loadable
  · rintro ⟨n, rs, last, hloadable, rfl⟩
    have hkept : ∀ m ≤ n, (load b m).control ≠ .done none := by
      intro m hm
      induction m with
      | zero => nofun
      | succ m ih =>
        have hbefore := ih (by omega)
        have hchecked := load_checked b m
        rw [load_succ]
        cases hcontrol : (load b m).control with
        | start =>
          rw [State.Checked, hcontrol] at hchecked
          obtain ⟨qs, hclean⟩ := hchecked
          exact hloadable.proceeds hclean nofun hm
        | line text =>
          rw [State.Checked, hcontrol] at hchecked
          obtain ⟨qs, hclean⟩ := hchecked
          exact hloadable.proceeds hclean nofun hm
        | done entry => rwa [load_step_done hcontrol]
    have hend {control : Control} {qs : List srec_record} (hclean : (load b n).Clean b n qs control) : False := by
      have hscan := hclean.reads.loading.scan
      rw [hloadable.image.scan] at hscan
      obtain ⟨hqs, _⟩ := Prod.mk.inj (Option.some.inj hscan)
      have hbody := hclean.reads.loading.body last (hqs ▸ List.mem_append_right rs (List.mem_singleton.mpr rfl))
      have hlast := hloadable.image.last
      omega
    have hchecked := load_checked b n
    rw [State.Checked] at hchecked
    cases hcontrol : (load b n).control with
    | start =>
      rw [hcontrol] at hchecked
      obtain ⟨qs, hclean⟩ := hchecked
      exact absurd hclean hend
    | line text =>
      rw [hcontrol] at hchecked
      obtain ⟨qs, hclean⟩ := hchecked
      exact absurd hclean hend
    | done entry =>
      cases entry with
      | none => exact absurd hcontrol (hkept n (Nat.le_refl n))
      | some entry =>
        rw [hcontrol] at hchecked
        obtain ⟨n', rs', last', hloadable', rfl⟩ := hchecked
        obtain ⟨_, rfl⟩ := hloadable.image.unique hloadable'.image
        rw [load_determined b hcontrol, hcontrol]

/-- The board starts an image: it is calibrated, the image is loadable and it
supplies the vectors. -/
structure Launches (b : Board) (n : Nat) (rs : List srec_record) (last : srec_record) : Prop extends
    Loadable b n rs last where
  ready : b.ready = true
  supplied : ∀ a ∈ vector_bytes, Supplied rs a

theorem main_ready {b : Board} (h : b.ready = true) : main b = finish (load b passes) := by rw [main, if_pos h]

theorem main_idle {b : Board} (h : b.ready = false) : main b = ⟨none, [], fun _ => 0⟩ := by
  rw [main, h]
  rfl

/-- The vectors are seen exactly if the accepted image supplies them. -/
theorem seen_iff {b : Board} {s : State} {rs : List srec_record} (h : s.Contents b rs) :
    vector_bytes.all s.seen = true ↔ ∀ a ∈ vector_bytes, Supplied rs a := by
  rw [List.all_eq_true]
  refine forall₂_congr fun a ha => ?_
  rw [h.seen a (vector_bytes_lt a ha)]
  rfl

/-- A transfer of control rests on an image that the board starts. -/
theorem jump_launches {b : Board} {entry : Word} (hjump : (main b).jump = some entry) :
    ∃ n rs last, Launches b n rs last ∧ (load b passes).Accepted b entry n rs last := by
  cases hready : b.ready with
  | false =>
    rw [main_idle hready] at hjump
    cases hjump
  | true =>
    rw [main_ready hready] at hjump
    obtain ⟨hcontrol, hseen⟩ := (finish_jump_iff _ _).mp hjump
    obtain ⟨n, rs, last, hloadable, haddress⟩ := load_loadable hcontrol
    obtain ⟨n', rs', last', hacc⟩ := load_accepted hcontrol
    obtain ⟨rfl, rfl⟩ := hloadable.image.unique hacc.image
    have hsupplied := (seen_iff hacc.contents).mp hseen
    exact ⟨n, rs, last, ⟨hloadable, hready, hsupplied⟩, hloadable.image, haddress, hacc.contents, hacc.checked⟩

/-- An image that the board starts is started. -/
theorem Launches.jump {b : Board} {n : Nat} {rs : List srec_record} {last : srec_record} (h : Launches b n rs last) :
    (main b).jump = some last.address := by
  have hcontrol := (load_accepts_iff b last.address).mpr ⟨n, rs, last, h.toLoadable, rfl⟩
  obtain ⟨n', rs', last', hacc⟩ := load_accepted hcontrol
  obtain ⟨rfl, rfl⟩ := h.image.unique hacc.image
  rw [main_ready h.ready]
  exact (finish_jump_iff _ _).mpr ⟨hcontrol, (seen_iff hacc.contents).mpr h.supplied⟩

/-- Only where control is transferred can the loader be unsafe. -/
theorem safe_of_verified {b : Board}
    (hverified : ∀ entry, (main b).jump = some entry → ∃ rs last, Verified b entry rs last) : Safe b := by
  have hbounded := (load_bounded b passes).stores
  obtain ⟨entry, hentry⟩ := load_done b (Nat.le_refl passes)
  refine ⟨?_, ?_, ?_, hverified⟩
  · intro n hn
    have hstable := load_stable b hentry hn
    exact ⟨entry, by rw [hstable, hentry], hstable⟩
  · cases hready : b.ready with
    | false =>
      rw [main_idle hready]
      nofun
    | true =>
      rw [main_ready hready]
      exact finish_in_bounds hbounded
  · intro a v hlive
    cases hready : b.ready with
    | false =>
      rw [main_idle hready] at hlive
      cases hlive
    | true =>
      rw [main_ready hready] at hlive ⊢
      exact finish_live hbounded hlive

/-- The boot loader is safe on every flash content, SPI behaviour and HyperRAM
behaviour but those of an image that it starts although only an empty RAM record
brings the entry into the checked span. -/
theorem boot_safe_iff (b : Board) :
    Safe b ↔ ∀ n rs last, Launches b n rs last → ¬ EmptyStretch rs last.address.toNat := by
  constructor
  · intro hsafe n rs last hlaunches
    obtain ⟨rs', last', hver⟩ := hsafe.verified _ hlaunches.jump
    obtain ⟨n', himage⟩ := hver.image
    obtain ⟨rfl, rfl⟩ := hlaunches.image.unique himage
    exact hlaunches.entry.inLoadedSpan_iff.mp hver.in_span
  · intro hspanned
    apply safe_of_verified
    intro entry hjump
    obtain ⟨n, rs, last, hlaunches, hacc⟩ := jump_launches hjump
    have hspan := hlaunches.entry.inLoadedSpan_iff.mpr (hspanned n rs last hlaunches)
    rw [hacc.address] at hspan
    have hmain := main_ready hlaunches.ready
    have hseen := (seen_iff hacc.contents).mpr hlaunches.supplied
    exact ⟨rs, last, finish_verified hmain hacc hseen hspan⟩

/-- The records of an image that loads forty vector bytes and nothing else, with
two empty RAM records around its entry. -/
def stretched_records : List srec_record := [⟨0, List.replicate 40 0, 1⟩, ⟨0x80000000, [], 3⟩, ⟨0x80000100, [], 3⟩]

/-- The text of that image, ended by `S705800000106A`. -/
def stretched_text : List Byte :=
  [0x53, 0x31, 0x32, 0x42, 0x30, 0x30, 0x30, 0x30] ++ List.replicate 80 0x30 ++ [0x44, 0x34, 0x0a] ++
  [0x53, 0x33, 0x30, 0x35, 0x38, 0x30, 0x30, 0x30, 0x30, 0x30, 0x30, 0x30, 0x37, 0x41, 0x0a] ++
  [0x53, 0x33, 0x30, 0x35, 0x38, 0x30, 0x30, 0x30, 0x30, 0x31, 0x30, 0x30, 0x37, 0x39, 0x0a] ++
  [0x53, 0x37, 0x30, 0x35, 0x38, 0x30, 0x30, 0x30, 0x30, 0x30, 0x31, 0x30, 0x36, 0x41, 0x0a]

/-- A board with that image, a responsive SPI and faithful RAM. -/
def stretched_board : Board where
  flash := fun a => stretched_text.getD (a - FLASH_START) 0xff
  rx_empty := fun _ => false
  read_back := fun history a => (last_write history a).getD 0
  ready := true

set_option maxRecDepth 4000 in
theorem stretched_scan :
    scan stretched_board.flash 136 = some (stretched_records ++ [⟨0x80000010, [], 7⟩], none) := by
  decide

set_option maxRecDepth 4000 in
theorem stretched_load : (load stretched_board 136).control = .done (some 0x80000010) ∧
    vector_bytes.all (load stretched_board 136).seen = true := by
  decide

/-- The loader jumps to a RAM address although no RAM byte was loaded. -/
theorem stretched_board_unsafe :
    (main stretched_board).jump = some 0x80000010 ∧ ¬ Safe stretched_board := by
  obtain ⟨hcontrol, hseen⟩ := stretched_load
  have hload : load stretched_board passes = load stretched_board 136 :=
    load_stable _ hcontrol (by unfold passes FLASH_END FLASH_START; omega)
  have hmain : main stretched_board = finish (load stretched_board 136) := by
    rw [main, if_pos (show stretched_board.ready = true from rfl), hload]
  have hjump : (main stretched_board).jump = some 0x80000010 := by
    rw [hmain]
    exact (finish_jump_iff _ _).mpr ⟨hcontrol, hseen⟩
  refine ⟨hjump, ?_⟩
  intro hsafe
  obtain ⟨rs, last, hver⟩ := hsafe.verified _ hjump
  obtain ⟨n, himage⟩ := hver.image
  have hstretched : Image stretched_board.flash 136 stretched_records ⟨0x80000010, [], 7⟩ :=
    ⟨stretched_scan, by decide, by decide⟩
  obtain ⟨rfl, _⟩ := himage.unique hstretched
  obtain ⟨⟨a, hsupplied, hstart, _⟩, _⟩ := hver.in_span
  obtain ⟨w, hw, rfl⟩ := (last_write_isSome _ _).mp hsupplied
  have hlow : ∀ w ∈ image_writes stretched_records, w.1 < 40 := by decide
  have := hlow w hw
  simp only [RAM_START] at hstart
  omega

end scu35.bootloader
