import Scu35Miner.Software.Bootloader.Boot

open fips180 storage

namespace scu35.bootloader

open srec

/-- The checked span reaches over every RAM record. -/
def State.Covers (s : State) (rs : List srec_record) : Prop :=
  ∀ r ∈ rs, is_data r = true → in_ram r = true → s.low ≤ r.address.toNat ∧ r.address.toNat + r.size ≤ s.high

/-- The loader has read `n` bytes without a failure. -/
structure State.At (b : Board) (s : State) (n : Nat) (rs : List srec_record) (control : Control) : Prop where
  loading : s.Loading b n rs
  aligned : s.flash % 64 = 0
  covers : s.Covers rs
  control_eq : s.control = control

theorem init_at (b : Board) : State.init.At b 0 [] .start where
  loading := init_loading b
  aligned := by decide
  covers := by
    intro r hr
    cases hr
  control_eq := rfl

/-- The next read of the flash is answered, if it is due now. -/
def State.Answered (b : Board) (s : State) : Prop := s.pos = 64 → (transfer b 68 s.polls).1 = true

/-- The next byte of the window is read when there is one. -/
theorem get_byte_next {b : Board} {s : State} (hanswer : s.Answered b) {n : Nat} (h : s.Position b n)
    (haligned : s.flash % 64 = 0) (hn : n < FLASH_END - FLASH_START) :
    ∃ cache flash pos polls, flash % 64 = 0 ∧
      get_byte b s = (some (b.flash (FLASH_START + n)),
        { s with cache := cache, flash := flash, pos := pos, polls := polls }) := by
  have hconsumed := h.consumed
  have hle := h.pos_le
  simp only [FLASH_END, FLASH_START] at hconsumed hn ⊢
  unfold get_byte
  by_cases hpos : s.pos = 64
  · have hend : ¬s.flash > FLASH_END - 64 := by
      simp only [FLASH_END]
      omega
    refine ⟨fun i => b.flash (s.flash + i), s.flash + 64, 1, (transfer b 68 s.polls).2, by omega, ?_⟩
    simp [hpos, hend, hanswer hpos, show 8388608 + n = s.flash by omega]
  · refine ⟨s.cache, s.flash, s.pos + 1, s.polls, haligned, ?_⟩
    have hbyte := h.cache s.pos (Nat.le_refl _) (by omega)
    rw [show s.flash + s.pos - 64 = 8388608 + n by omega] at hbyte
    simp [hpos, ← hbyte]

/-- The records of a loader are those of the scan. -/
theorem loading_records {b : Board} {s : State} {n : Nat} {rs rs' : List srec_record}
    {line : Option (List Byte)} (h : s.Loading b n rs') (hscan : scan b.flash n = some (rs, line)) : rs' = rs := by
  rw [h.scan] at hscan
  exact (Prod.mk.inj (Option.some.inj hscan)).1

section Steps

variable {b : Board} {s : State} (hanswer : s.Answered b) {n : Nat} {rs : List srec_record}
  (hn : n < FLASH_END - FLASH_START)

include hanswer hn

/-- A line end between records is skipped. -/
theorem State.At.skip (h : s.At b n rs .start) (hnl : newline (b.flash (FLASH_START + n)) = true) :
    (load_step b s).At b (n + 1) rs .start := by
  obtain ⟨cache, flash, pos, polls, haligned, hbyte⟩ := get_byte_next hanswer h.loading.position h.aligned hn
  have hstep : load_step b s = { s with cache := cache, flash := flash, pos := pos, polls := polls } := by
    simp only [load_step, h.control_eq, hbyte, hnl, ↓reduceIte]
  have hcontrol : (load_step b s).control = .start := by
    rw [hstep]
    exact h.control_eq
  have hprogress := load_step_start h.loading h.control_eq
  simp only [State.Progress, hcontrol] at hprogress
  obtain ⟨rs', hloading⟩ := hprogress
  have hscan := h.loading.scan
  rw [h.control_eq] at hscan
  have hnext := scan_between hscan
  rw [if_pos hnl] at hnext
  obtain rfl := loading_records hloading hnext
  refine ⟨hloading, ?_, ?_, hcontrol⟩
  · rw [hstep]
    exact haligned
  · rw [hstep]
    exact h.covers

/-- A record begins. -/
theorem State.At.first (h : s.At b n rs .start) (hS : b.flash (FLASH_START + n) = 0x53) :
    (load_step b s).At b (n + 1) rs (.line [0x53]) := by
  obtain ⟨cache, flash, pos, polls, haligned, hbyte⟩ := get_byte_next hanswer h.loading.position h.aligned hn
  have hnl : ¬newline 0x53 = true := by decide
  have hstep : load_step b s = { s with
      cache := cache, flash := flash, pos := pos, polls := polls
      stores := s.stores ++ [.line 0], control := .line [0x53] } := by
    simp only [load_step, h.control_eq, hbyte, hS, hnl, bne_self_eq_false, Bool.false_eq_true, ↓reduceIte]
  have hcontrol : (load_step b s).control = .line [0x53] := by rw [hstep]
  have hprogress := load_step_start h.loading h.control_eq
  simp only [State.Progress, hcontrol] at hprogress
  obtain ⟨rs', hloading⟩ := hprogress
  have hscan := h.loading.scan
  rw [h.control_eq] at hscan
  have hnext := scan_between hscan
  rw [hS, if_neg hnl, if_pos rfl] at hnext
  obtain rfl := loading_records hloading hnext
  refine ⟨hloading, ?_, ?_, hcontrol⟩
  · rw [hstep]
    exact haligned
  · rw [hstep]
    exact h.covers

/-- A line grows while there is room. -/
theorem State.At.next {text : List Byte} (h : s.At b n rs (.line text)) (hroom : text.length ≠ line_size)
    (hnl : newline (b.flash (FLASH_START + n)) = false) :
    (load_step b s).At b (n + 1) rs (.line (text ++ [b.flash (FLASH_START + n)])) := by
  obtain ⟨cache, flash, pos, polls, haligned, hbyte⟩ := get_byte_next hanswer h.loading.position h.aligned hn
  have hstep : load_step b s = { s with
      cache := cache, flash := flash, pos := pos, polls := polls
      stores := s.stores ++ [.line text.length], control := .line (text ++ [b.flash (FLASH_START + n)]) } := by
    simp only [load_step, h.control_eq, hbyte, hnl, hroom, Bool.false_eq_true, ↓reduceIte]
  have hcontrol : (load_step b s).control = .line (text ++ [b.flash (FLASH_START + n)]) := by rw [hstep]
  have hprogress := load_step_line h.loading h.control_eq
  simp only [State.Progress, hcontrol] at hprogress
  obtain ⟨rs', hloading⟩ := hprogress
  have hscan := h.loading.scan
  rw [h.control_eq] at hscan
  have hnext := scan_inside hscan
  rw [hnl, if_neg (by decide)] at hnext
  obtain rfl := loading_records hloading hnext
  refine ⟨hloading, ?_, ?_, hcontrol⟩
  · rw [hstep]
    exact haligned
  · rw [hstep]
    exact h.covers

/-- A full line is rejected whatever follows. -/
theorem State.At.full {text : List Byte} (h : s.At b n rs (.line text)) (hfull : text.length = line_size) :
    (load_step b s).control = .done none := by
  obtain ⟨cache, flash, pos, polls, _, hbyte⟩ := get_byte_next hanswer h.loading.position h.aligned hn
  simp only [load_step, h.control_eq, hbyte, hfull, ↓reduceIte, State.fail]

end Steps

/-- What the loader asks of a record that does not end the image. -/
structure Acceptable (before : List srec_record) (r : srec_record) : Prop where
  placed : is_data r = true → in_vectors r = true ∨ in_ram r = true
  counted : is_count r = true → r.address.toNat = data_count before

section Process

variable {b : Board} {s : State} {rs : List srec_record} {r : srec_record} (h : s.Contents b rs)
  (hcount : data_count rs < 2 ^ 32)

include h hcount

/-- A count record is compared with the number of data records. -/
theorem count_matches : r.address = s.data_records ↔ r.address.toNat = data_count rs := by
  rw [h.records, ← BitVec.toNat_inj, BitVec.toNat_ofNat, Nat.mod_eq_of_lt hcount]

/-- A record that does not end the image is taken if it is acceptable and, for
RAM, reads back; only an acceptable one is. -/
theorem process_start (htype : r.type < 7) (hwidth : ∃ w, naddr r.type = some w) (hcovers : s.Covers rs) :
    (Acceptable rs r →
        (is_data r = true → in_ram r = true → (store_ram b s r.address.toNat r.data).1 = true) →
        (process b s r).control = .start) ∧
      ((process b s r).control ≠ .done none → Acceptable rs r ∧ (process b s r).Covers (rs ++ [r])) := by
  have hnot7 : ¬7 ≤ r.type := by omega
  have hskip (hdata : is_data r = false) {s' : State} (hlow : s'.low = s.low) (hhigh : s'.high = s.high) :
      s'.Covers (rs ++ [r]) := by
    intro q hq hqdata hqram
    rw [hlow, hhigh]
    obtain hold | hnew := List.mem_append.mp hq
    · exact hcovers q hold hqdata hqram
    · rw [List.mem_singleton.mp hnew, hdata] at hqdata
      cases hqdata
  unfold process
  by_cases h0 : r.type = 0
  · have hdata : is_data r = false := by simp [is_data, h0]
    simp only [h0, ↓reduceIte]
    exact ⟨fun _ _ => trivial, fun _ => ⟨⟨by simp [hdata], by simp [is_count, h0]⟩, hskip hdata rfl rfl⟩⟩
  by_cases h56 : r.type = 5 ∨ r.type = 6
  · have hdata : is_data r = false := by
      simp only [is_data, Bool.and_eq_false_iff, decide_eq_false_iff_not]
      exact .inr (by omega)
    have hcounts : is_count r = true := by simpa [is_count] using h56
    have hacc : Acceptable rs r ↔ r.address = s.data_records := by
      rw [count_matches h hcount]
      exact ⟨fun hacc => hacc.counted hcounts, fun haddr => ⟨by simp [hdata], fun _ => haddr⟩⟩
    simp only [h0, Bool.or_eq_true, decide_eq_true_eq, h56, ↓reduceIte, hacc]
    by_cases haddr : r.address = s.data_records
    · simp only [haddr, bne_self_eq_false, Bool.false_eq_true, ↓reduceIte]
      exact ⟨fun _ _ => trivial, fun _ => ⟨trivial, hskip hdata rfl rfl⟩⟩
    · simp only [haddr, bne_iff_ne, ne_eq, not_false_eq_true, ↓reduceIte]
      exact ⟨fun hgood => absurd hgood id, fun hopen => absurd rfl hopen⟩
  have hdata : is_data r = true := by
    obtain ⟨w, hw⟩ := hwidth
    have h4 : r.type ≠ 4 := by
      intro h4
      rw [h4] at hw
      cases hw
    simp only [is_data, Bool.and_eq_true, bne_iff_ne, decide_eq_true_eq]
    omega
  have hacc : Acceptable rs r ↔ in_vectors r = true ∨ in_ram r = true :=
    ⟨fun hacc => hacc.placed hdata, fun hplaced => ⟨fun _ => hplaced, fun hc => absurd hc (not_count_of_data hdata)⟩⟩
  simp only [h0, Bool.or_eq_true, decide_eq_true_eq, h56, hnot7, ↓reduceIte, hacc]
  cases hvec : in_vectors r with
  | true =>
    simp only [↓reduceIte, store_vectors_eq]
    refine ⟨fun _ _ => trivial, fun _ => ⟨.inl trivial, ?_⟩⟩
    intro q hq hqdata hqram
    obtain hold | hnew := List.mem_append.mp hq
    · exact hcovers q hold hqdata hqram
    · rw [List.mem_singleton.mp hnew] at hqram
      have hstart := in_ram_start hqram
      simp only [in_vectors, Bool.and_eq_true, decide_eq_true_eq] at hvec
      simp only [RAM_START, vectors_size] at hstart hvec
      omega
  | false =>
    cases hplace : in_ram r with
    | false => simp [State.fail]
    | true =>
      obtain ⟨k, hstate, _⟩ := store_ram_cases b s r.address.toNat r.data
      cases hok : (store_ram b s r.address.toNat r.data).1 with
      | false => simp [State.fail, hdata]
      | true =>
        simp only [Bool.false_eq_true, ↓reduceIte, Bool.not_true, hstate]
        refine ⟨fun _ _ => trivial, fun _ => ⟨.inr trivial, ?_⟩⟩
        intro q hq hqdata hqram
        dsimp only
        obtain hold | hnew := List.mem_append.mp hq
        · obtain ⟨hlow, hhigh⟩ := hcovers q hold hqdata hqram
          constructor
          · split <;> omega
          · split <;> omega
        · rw [List.mem_singleton.mp hnew]
          constructor
          · split <;> omega
          · split <;> omega

/-- A termination record ends the image exactly if its entry is allowed. -/
theorem process_last (htype : 7 ≤ r.type) (hcovers : s.Covers rs) :
    (EntryOk rs r.address → (process b s r).control = .done (some r.address) ∧ (process b s r).Contents b rs) ∧
      (¬EntryOk rs r.address → (process b s r).control = .done none) := by
  have h0 : ¬r.type = 0 := by omega
  have h56 : ¬(r.type = 5 ∨ r.type = 6) := by omega
  have hcheck : (s.data_records != 0 && s.low ≤ r.address.toNat && r.address.toNat < s.high &&
      r.address &&& 3 == 0) = true ↔ EntryOk rs r.address := by
    simp only [Bool.and_eq_true, decide_eq_true_eq, bne_iff_ne, beq_iff_eq]
    constructor
    · rintro ⟨⟨⟨_, hlow⟩, hhigh⟩, halign⟩
      exact State.EntryChecked.entry_ok h ⟨hlow, hhigh, halign⟩
    · rintro ⟨⟨q, hq, hqdata, hqram, hlow⟩, ⟨p, hp, hpdata, hpram, hhigh⟩, halign⟩
      refine ⟨⟨⟨?_, ?_⟩, ?_⟩, halign⟩
      · have hpos : 0 < data_count rs := List.length_pos_of_mem (List.mem_filter.mpr ⟨hq, hqdata⟩)
        rw [h.records]
        intro hzero
        have hnat := congrArg BitVec.toNat hzero
        rw [BitVec.toNat_ofNat, Nat.mod_eq_of_lt hcount] at hnat
        change data_count rs = 0 at hnat
        omega
      · have := (hcovers q hq hqdata hqram).1
        omega
      · have := (hcovers p hp hpdata hpram).2
        omega
  unfold process
  simp only [h0, Bool.or_eq_true, decide_eq_true_eq, h56, htype, ↓reduceIte]
  by_cases hentry : EntryOk rs r.address
  · rw [if_pos (hcheck.mpr hentry)]
    exact ⟨fun _ => ⟨rfl, h.keep rfl rfl rfl rfl rfl rfl⟩, fun hbad => absurd hentry hbad⟩
  · rw [if_neg fun hok => hentry (hcheck.mp hok)]
    exact ⟨fun hgood => absurd hgood hentry, fun _ => rfl⟩

end Process

/-- The RAM loop succeeds where every byte reads back. -/
theorem store_ram_ok {b : Board} (s : State) (a : Nat) {data : List Byte}
    (h : ReadBack b (ram_history s.stores ++ writes_from a data)) : (store_ram b s a data).1 = true := by
  induction data generalizing s a with
  | nil => rfl
  | cons v data ih =>
    have hhistory : ram_history (s.stores ++ [.ram a v]) = ram_history s.stores ++ [(a, v)] := by
      rw [ram_history_append]
      rfl
    rw [writes_from, ← List.singleton_append, ← List.append_assoc] at h
    have hread : b.read_back (ram_history s.stores ++ [(a, v)]) a = v := h _ a v (List.prefix_append _ _)
    simp only [store_ram, hhistory, hread, bne_self_eq_false, Bool.false_eq_true, ↓reduceIte]
    exact ih _ _ (by rwa [hhistory])

theorem records_lt {b : Board} {s : State} {n : Nat} {rs : List srec_record} {control : Control}
    (h : s.At b n rs control) (hn : n ≤ FLASH_END - FLASH_START) : data_count rs < 2 ^ 32 := by
  have hlen := scan_length_le h.loading.scan
  have hfilter := List.length_filter_le is_data rs
  simp only [FLASH_END, FLASH_START] at hn
  simp only [data_count]
  omega

/-- The image up to a record reads back from RAM. -/
def RamHolds (b : Board) (rs : List srec_record) : Prop :=
  ReadBack b ((image_writes rs).filter fun w => RAM_START ≤ w.1)

section End

variable {b : Board} {s : State} (hanswer : s.Answered b) {n : Nat} {rs : List srec_record} {text : List Byte}
  (h : s.At b n rs (.line text)) {r : srec_record} (hparse : (srec_parse text).1 = some r)
  (hroom : text.length ≠ line_size) (hnl : newline (b.flash (FLASH_START + n)) = true)
  (hn : n < FLASH_END - FLASH_START)

include hanswer h hparse hroom hnl hn

/-- The end of a line hands the record over. -/
theorem end_line :
    ∃ s', load_step b s = process b s' r ∧ s'.Contents b rs ∧ s'.Covers rs ∧ s'.flash % 64 = 0 := by
  obtain ⟨cache, flash, pos, polls, haligned, hbyte⟩ := get_byte_next hanswer h.loading.position h.aligned hn
  refine ⟨{ s with
    cache := cache, flash := flash, pos := pos, polls := polls
    stores := s.stores ++ (srec_parse text).2.map .data }, ?_, ?_, h.covers, haligned⟩
  · simp only [load_step, h.control_eq, hbyte, hroom, hnl, ↓reduceIte, hparse]
  · refine h.loading.contents.keep rfl rfl rfl rfl rfl ?_
    rw [ram_history_append, ram_history_data, List.append_nil]

/-- A record in the body of the image is taken if it is acceptable and reads
back; only an acceptable one is, and it becomes part of the image. -/
theorem State.At.record (htype : r.type < 7) :
    (Acceptable rs r → RamHolds b (rs ++ [r]) → (load_step b s).control ≠ .done none) ∧
      ((load_step b s).control ≠ .done none → Acceptable rs r ∧ (load_step b s).At b (n + 1) (rs ++ [r]) .start) := by
  obtain ⟨s', hstep, hcontents, hcovers, haligned⟩ := end_line hanswer h hparse hroom hnl hn
  obtain ⟨width, values, hencodes⟩ := srec_parse_encodes hparse
  have hcount := records_lt h (by omega)
  obtain ⟨hgood, hopen⟩ := process_start hcontents hcount htype ⟨width, hencodes.naddr⟩ hcovers
  constructor
  · intro hacc hholds
    rw [hstep, hgood hacc]
    · nofun
    · intro hdata hram
      apply store_ram_ok
      rw [hcontents.history, ← ram_writes hram, ← List.filter_append]
      rwa [RamHolds, image_writes_append, hdata] at hholds
  · intro hkept
    rw [hstep] at hkept
    obtain ⟨hacc, hcovered⟩ := hopen hkept
    obtain hfail | ⟨hcontrol, _, _, hsame⟩ | ⟨_, hlast, _⟩ := process_cases hcontents hcount ⟨width, hencodes.naddr⟩
    · exact absurd hfail hkept
    · have hprogress := load_step_line h.loading h.control_eq
      rw [← hstep] at hcontrol hcovered hsame
      simp only [State.Progress, hcontrol] at hprogress
      obtain ⟨rs', hloading⟩ := hprogress
      have hscan := h.loading.scan
      rw [h.control_eq] at hscan
      have hnext := scan_inside hscan
      rw [if_pos hnl, hparse] at hnext
      obtain rfl := loading_records hloading hnext
      refine ⟨hacc, hloading, ?_, hcovered, hcontrol⟩
      rw [hsame.2.1]
      exact haligned
    · omega

/-- A termination record ends the load with its entry if that is allowed. -/
theorem State.At.last (htype : 7 ≤ r.type) :
    (EntryOk rs r.address →
        (load_step b s).control = .done (some r.address) ∧ (load_step b s).Contents b rs) ∧
      (¬EntryOk rs r.address → (load_step b s).control = .done none) := by
  obtain ⟨s', hstep, hcontents, hcovers, _⟩ := end_line hanswer h hparse hroom hnl hn
  rw [hstep]
  exact process_last hcontents (records_lt h (by omega)) htype hcovers

end End

/-- The number of passes does not matter once the loader is done. -/
theorem load_determined (b : Board) {k : Nat} {entry : Option Word} (h : (load b k).control = .done entry) :
    load b passes = load b k := by
  obtain hle | hle := Nat.le_total k passes
  · exact load_stable b h hle
  · obtain ⟨entry', hdone⟩ := load_done b (Nat.le_refl passes)
    exact (load_stable b hdone hle).symm

end scu35.bootloader
