import Scu35Miner.Software.Bootloader.Steps

open fips180 storage

namespace scu35.bootloader

open srec

/-- Every flash read is answered before the guard of `transfer` runs out. -/
def Responsive (b : Board) : Prop := ∀ polls, (transfer b 68 polls).1 = true

theorem Responsive.answered {b : Board} (hb : Responsive b) (s : State) : s.Answered b := fun _ => hb s.polls

/-- Faithful RAM reads every stored byte back. -/
theorem read_back_faithful {b : Board} {initial : Nat → Byte} (hram : FaithfulRam b initial)
    (history : List (Nat × Byte)) : ReadBack b history := by
  intro before a v _
  rw [hram, last_write_concat, if_pos rfl]
  rfl

/-- The bytes of the window from the `n`th on begin with a text. -/
def Holds (flash : Nat → Byte) (n : Nat) (text : List Byte) : Prop :=
  ∀ i (h : i < text.length), flash (FLASH_START + n + i) = text[i]

theorem holds_append {flash : Nat → Byte} {n : Nat} {xs ys : List Byte} :
    Holds flash n (xs ++ ys) ↔ Holds flash n xs ∧ Holds flash (n + xs.length) ys := by
  constructor
  · intro h
    constructor
    · intro i hi
      rw [h i (by rw [List.length_append]; omega), List.getElem_append_left hi]
    · intro i hi
      have hbyte := h (xs.length + i) (by rw [List.length_append]; omega)
      rw [List.getElem_append_right (by omega)] at hbyte
      simpa only [Nat.add_sub_cancel_left, ← Nat.add_assoc] using hbyte
  · rintro ⟨hx, hy⟩ i hi
    by_cases hlt : i < xs.length
    · rw [hx i hlt, List.getElem_append_left hlt]
    · rw [List.length_append] at hi
      have hbyte := hy (i - xs.length) (by omega)
      rw [List.getElem_append_right (by omega), ← hbyte]
      congr 1
      omega

theorem holds_cons {flash : Nat → Byte} {n : Nat} {c : Byte} {text : List Byte} (h : Holds flash n (c :: text)) :
    flash (FLASH_START + n) = c ∧ Holds flash (n + 1) text := by
  rw [← List.singleton_append, holds_append] at h
  exact ⟨h.1 0 (by simp), h.2⟩

/-- The characters of an accepted line after the first two are hexadecimal
digits. -/
theorem accepted_chars {text : List Byte} {r : srec_record} (h : (srec_parse text).1 = some r) :
    ∃ rest, text = 0x53 :: BitVec.ofNat 8 (0x30 + r.type) :: rest ∧ ∀ c ∈ rest, hex c ≠ none := by
  obtain ⟨width, values, hr⟩ := srec_parse_encodes h
  have hlen := hr.length
  have hpos := hr.width_lt
  match text, hlen with
  | [], hlen | [_], hlen =>
    simp only [List.length_cons, List.length_nil] at hlen
    omega
  | x :: y :: rest, hlen =>
    have hx : x = 0x53 := hr.type.1
    have hy : y = BitVec.ofNat 8 (0x30 + r.type) := by
      refine BitVec.eq_of_toNat_eq ?_
      have hy : y.toNat = 0x30 + r.type := hr.type.2
      rw [BitVec.toNat_ofNat, ← hy]
      exact (Nat.mod_eq_of_lt y.isLt).symm
    refine ⟨rest, by rw [hx, hy], fun c hc => ?_⟩
    have hpair {i v : Nat} (hbyte : byte (x :: y :: rest) i = some v) :
        hex ((x :: y :: rest).getD i 0) ≠ none ∧ hex ((x :: y :: rest).getD (i + 1) 0) ≠ none := by
      unfold byte at hbyte
      split at hbyte
      next ha hb =>
        rw [ha, hb]
        exact ⟨nofun, nofun⟩
      next => cases hbyte
    obtain ⟨j, hj, rfl⟩ := List.mem_iff_getElem.mp hc
    have hget : rest[j] = (x :: y :: rest).getD (j + 2) 0 := by
      rw [List.getD_eq_getElem?_getD, List.getElem?_cons_succ, List.getElem?_cons_succ, List.getElem?_eq_getElem hj]
      rfl
    rw [hget]
    simp only [List.length_cons] at hlen
    by_cases hcount : j < 2
    · obtain ⟨h2, h3⟩ := hpair hr.count
      obtain rfl | rfl : j = 0 ∨ j = 1 := by omega
      · exact h2
      · exact h3
    · have hi : (j - 2) / 2 < values.length := by omega
      obtain ⟨heven, hodd⟩ := hpair (hr.bytes ((j - 2) / 2) hi)
      obtain hj2 | hj2 : j + 2 = 4 + 2 * ((j - 2) / 2) ∨ j + 2 = 4 + 2 * ((j - 2) / 2) + 1 := by omega
      · rw [hj2]
        exact heven
      · rw [hj2]
        exact hodd

theorem hex_not_newline {c : Byte} (h : hex c ≠ none) : newline c = false := by
  revert c
  decide

theorem type_not_newline {type w : Nat} (h : naddr type = some w) : newline (BitVec.ofNat 8 (0x30 + type)) = false := by
  have hle : type ≤ 9 := by
    unfold naddr at h
    split at h <;> first | omega | cases h
  interval_cases type <;> decide

/-- An accepted line holds no line end and fits the line buffer. -/
theorem accepted_line {text : List Byte} {r : srec_record} (h : (srec_parse text).1 = some r) :
    ∃ rest, text = 0x53 :: rest ∧ (∀ c ∈ rest, newline c = false) ∧ text.length ≤ line_size := by
  obtain ⟨rest, htext, hhex⟩ := accepted_chars h
  obtain ⟨width, values, hr⟩ := srec_parse_encodes h
  refine ⟨BitVec.ofNat 8 (0x30 + r.type) :: rest, htext, ?_, ?_⟩
  · intro c hc
    obtain rfl | hc := List.mem_cons.mp hc
    · exact type_not_newline hr.naddr
    · exact hex_not_newline (hhex c hc)
  · exact hr.length_le

inductive Terminator where
  | cr
  | lf
  | crlf
deriving DecidableEq, Repr

def Terminator.text : Terminator → List Byte
  | .cr => [0x0d]
  | .lf => [0x0a]
  | .crlf => [0x0d, 0x0a]

/-- A line that the parser accepts, with its line end. -/
structure Line where
  text : List Byte
  terminator : Terminator
  record : srec_record
  parses : (srec_parse text).1 = some record

def Line.bytes (l : Line) : List Byte := l.text ++ l.terminator.text

/-- The text of an image. -/
def image_text (lines : List Line) : List Byte := lines.flatMap Line.bytes

def records (lines : List Line) : List srec_record := lines.map Line.record

section Run

variable {b : Board} (hb : Responsive b)

include hb in
/-- The rest of a line is read into the buffer. -/
theorem read_rest {s : State} {n : Nat} {rs : List srec_record} {text : List Byte} (h : s.At b n rs (.line text))
    {rest : List Byte} (hholds : Holds b.flash n rest) (hplain : ∀ c ∈ rest, newline c = false)
    (hroom : text.length + rest.length ≤ line_size) (hfits : n + rest.length ≤ FLASH_END - FLASH_START) :
    ((load_step b)^[rest.length] s).At b (n + rest.length) rs (.line (text ++ rest)) := by
  induction rest generalizing s n text with
  | nil => simpa using h
  | cons c rest ih =>
    obtain ⟨hc, hrest⟩ := holds_cons hholds
    simp only [List.length_cons] at hroom hfits ⊢
    have hnext := h.next (hb.answered s) (by omega) (by omega) (by rw [hc]; exact hplain c (by simp))
    rw [hc] at hnext
    have hall := ih hnext hrest (fun d hd => hplain d (by simp [hd]))
      (by rw [List.length_append, List.length_singleton]; omega) (by omega)
    rw [List.append_assoc, List.singleton_append] at hall
    rw [Function.iterate_succ_apply, Nat.add_comm rest.length 1, ← Nat.add_assoc]
    exact hall

include hb in
/-- An accepted line is read into the buffer. -/
theorem read_text {s : State} {n : Nat} {rs : List srec_record} (h : s.At b n rs .start) {text : List Byte}
    {r : srec_record} (hparse : (srec_parse text).1 = some r) (hholds : Holds b.flash n text)
    (hfits : n + text.length ≤ FLASH_END - FLASH_START) :
    ((load_step b)^[text.length] s).At b (n + text.length) rs (.line text) := by
  obtain ⟨rest, rfl, hplain, hroom⟩ := accepted_line hparse
  obtain ⟨hS, hrest⟩ := holds_cons hholds
  simp only [List.length_cons] at hroom hfits ⊢
  have hfirst := h.first (hb.answered s) (by omega) hS
  have hall := read_rest hb hfirst hrest hplain (by simp only [List.length_singleton]; omega) (by omega)
  rw [List.singleton_append] at hall
  rw [Function.iterate_succ_apply, Nat.add_comm rest.length 1, ← Nat.add_assoc]
  exact hall

theorem Terminator.text_cons (t : Terminator) : ∃ c rest, t.text = c :: rest ∧ newline c = true ∧
    (rest = [] ∨ ∃ d, rest = [d] ∧ newline d = true) := by
  cases t with
  | cr => exact ⟨0x0d, [], rfl, rfl, .inl rfl⟩
  | lf => exact ⟨0x0a, [], rfl, rfl, .inl rfl⟩
  | crlf => exact ⟨0x0d, [0x0a], rfl, rfl, .inr ⟨0x0a, rfl, rfl⟩⟩

variable {initial : Nat → Byte} (hram : FaithfulRam b initial)

/-- The loader accepts a line in the body of an image. -/
def Line.Good (before : List srec_record) (l : Line) : Prop :=
  l.text.length ≠ line_size ∧ Acceptable before l.record

include hb hram in
/-- A line in the body of an image becomes part of it, or the load fails. -/
theorem run_line {s : State} {n : Nat} {rs : List srec_record} (h : s.At b n rs .start) (l : Line)
    (htype : l.record.type < 7) (hholds : Holds b.flash n l.bytes)
    (hfits : n + l.bytes.length ≤ FLASH_END - FLASH_START) :
    (l.Good rs → ∃ k, ((load_step b)^[k] s).At b (n + l.bytes.length) (rs ++ [l.record]) .start) ∧
      (¬l.Good rs → ∃ k, ((load_step b)^[k] s).control = .done none) := by
  obtain ⟨c, rest, hterminator, hc, hrest⟩ := l.terminator.text_cons
  rw [Line.bytes, hterminator] at hholds hfits ⊢
  obtain ⟨htext, hend⟩ := holds_append.mp hholds
  obtain ⟨hcbyte, hlast⟩ := holds_cons hend
  simp only [List.length_append, List.length_cons] at hfits ⊢
  have hline := read_text hb h l.parses htext (by omega)
  rw [← hcbyte] at hc
  by_cases hroom : l.text.length = line_size
  · refine ⟨fun hgood => absurd hroom hgood.1, fun _ => ⟨l.text.length + 1, ?_⟩⟩
    rw [Function.iterate_succ_apply']
    exact hline.full (hb.answered _) (by omega) hroom
  obtain ⟨hgood, hopen⟩ := hline.record (hb.answered _) l.parses hroom hc (by omega) htype
  rw [← Function.iterate_succ_apply' (load_step b)] at hgood hopen
  constructor
  · intro hl
    obtain ⟨_, hat⟩ := hopen (hgood hl.2 (read_back_faithful hram _))
    obtain rfl | ⟨d, rfl, hd⟩ := hrest
    · exact ⟨_, hat⟩
    · obtain ⟨hdbyte, _⟩ := holds_cons hlast
      rw [← hdbyte] at hd
      simp only [List.length_cons, List.length_nil] at hfits
      have hskip := hat.skip (hb.answered _) (by omega) hd
      rw [← Function.iterate_succ_apply' (load_step b)] at hskip
      exact ⟨_, hskip⟩
  · intro hl
    refine ⟨l.text.length + 1, ?_⟩
    by_contra hkept
    exact hl ⟨hroom, (hopen hkept).1⟩

/-- The loader accepts the lines one after the other. -/
def AllGood : List srec_record → List Line → Prop
  | _, [] => True
  | before, l :: lines => l.Good before ∧ AllGood (before ++ [l.record]) lines

include hb hram in
/-- The body of an image is loaded, or the load fails. -/
theorem run_lines {s : State} {n : Nat} {rs : List srec_record} (h : s.At b n rs .start) {lines : List Line}
    (htypes : ∀ l ∈ lines, l.record.type < 7) (hholds : Holds b.flash n (image_text lines))
    (hfits : n + (image_text lines).length ≤ FLASH_END - FLASH_START) :
    (AllGood rs lines → ∃ k,
        ((load_step b)^[k] s).At b (n + (image_text lines).length) (rs ++ records lines) .start) ∧
      (¬AllGood rs lines → ∃ k, ((load_step b)^[k] s).control = .done none) := by
  induction lines generalizing s n rs with
  | nil => exact ⟨fun _ => ⟨0, by simpa [image_text, records] using h⟩, fun hbad => absurd trivial hbad⟩
  | cons l lines ih =>
    have hsplit : image_text (l :: lines) = l.bytes ++ image_text lines := rfl
    rw [hsplit] at hholds hfits ⊢
    obtain ⟨hfirst, hrest⟩ := holds_append.mp hholds
    rw [List.length_append] at hfits ⊢
    obtain ⟨hgood, hbad⟩ := run_line hb hram h l (htypes l (by simp)) hfirst (by omega)
    by_cases hl : l.Good rs
    · obtain ⟨k, hat⟩ := hgood hl
      obtain ⟨hall, hnone⟩ := ih hat (fun q hq => htypes q (by simp [hq])) hrest (by omega)
      simp only [← Function.iterate_add_apply, List.append_assoc, Nat.add_assoc] at hall hnone
      constructor
      · rintro ⟨_, hlines⟩
        obtain ⟨k', hdone⟩ := hall hlines
        exact ⟨k' + k, hdone⟩
      · intro hnot
        obtain ⟨k', hdone⟩ := hnone fun hlines => hnot ⟨hl, hlines⟩
        exact ⟨k' + k, hdone⟩
    · exact ⟨fun hall => absurd hall.1 hl, fun _ => hbad hl⟩

include hb in
/-- A termination record ends the load with its entry, or the load fails. -/
theorem run_last {s : State} {n : Nat} {rs : List srec_record} (h : s.At b n rs .start) (l : Line)
    (htype : 7 ≤ l.record.type) (hholds : Holds b.flash n l.bytes)
    (hfits : n + l.bytes.length ≤ FLASH_END - FLASH_START) :
    (l.text.length ≠ line_size ∧ EntryOk rs l.record.address →
        ∃ k, ((load_step b)^[k] s).control = .done (some l.record.address) ∧ ((load_step b)^[k] s).Contents b rs) ∧
      (¬(l.text.length ≠ line_size ∧ EntryOk rs l.record.address) →
        ∃ k, ((load_step b)^[k] s).control = .done none) := by
  obtain ⟨c, rest, hterminator, hc, _⟩ := l.terminator.text_cons
  rw [Line.bytes, hterminator] at hholds hfits
  obtain ⟨htext, hend⟩ := holds_append.mp hholds
  obtain ⟨hcbyte, _⟩ := holds_cons hend
  simp only [List.length_append, List.length_cons] at hfits
  have hline := read_text hb h l.parses htext (by omega)
  rw [← hcbyte] at hc
  by_cases hroom : l.text.length = line_size
  · refine ⟨fun hgood => absurd hroom hgood.1, fun _ => ⟨l.text.length + 1, ?_⟩⟩
    rw [Function.iterate_succ_apply']
    exact hline.full (hb.answered _) (by omega) hroom
  obtain ⟨hgood, hbad⟩ := hline.last (hb.answered _) l.parses hroom hc (by omega) htype
  rw [← Function.iterate_succ_apply' (load_step b)] at hgood hbad
  exact ⟨fun hl => ⟨_, hgood hl.2⟩, fun hl => ⟨_, hbad fun hentry => hl ⟨hroom, hentry⟩⟩⟩

end Run

/-- The loader succeeds on an image exactly if every line is shorter than the
line buffer, every record of the body is acceptable and the entry is allowed. -/
theorem load_lines {b : Board} (hb : Responsive b) {initial : Nat → Byte} (hram : FaithfulRam b initial)
    {lines : List Line} {last : Line} (htypes : ∀ l ∈ lines, l.record.type < 7) (hlast : 7 ≤ last.record.type)
    (hholds : Holds b.flash 0 (image_text (lines ++ [last])))
    (hfits : (image_text (lines ++ [last])).length ≤ FLASH_END - FLASH_START) :
    (AllGood [] lines ∧ last.text.length ≠ line_size ∧ EntryOk (records lines) last.record.address →
        (load b passes).control = .done (some last.record.address) ∧ (load b passes).Contents b (records lines)) ∧
      (¬(AllGood [] lines ∧ last.text.length ≠ line_size ∧ EntryOk (records lines) last.record.address) →
        (load b passes).control = .done none) := by
  have hsplit : image_text (lines ++ [last]) = image_text lines ++ last.bytes := by simp [image_text]
  rw [hsplit] at hholds hfits
  obtain ⟨hbody, hend⟩ := holds_append.mp hholds
  rw [List.length_append] at hfits
  obtain ⟨hgood, hbad⟩ := run_lines hb hram (init_at b) htypes hbody (by omega)
  rw [List.nil_append] at hgood
  by_cases hall : AllGood [] lines
  · obtain ⟨k, hat⟩ := hgood hall
    obtain ⟨hdone, hnone⟩ := run_last hb hat last hlast hend (by omega)
    simp only [← Function.iterate_add_apply] at hdone hnone
    constructor
    · rintro ⟨_, hrest⟩
      obtain ⟨k', hcontrol, hcontents⟩ := hdone hrest
      rw [load_determined b (k := k' + k) hcontrol]
      exact ⟨hcontrol, hcontents⟩
    · intro hnot
      obtain ⟨k', hcontrol⟩ := hnone fun hrest => hnot ⟨hall, hrest⟩
      rw [load_determined b (k := k' + k) hcontrol]
      exact hcontrol
  · refine ⟨fun h => absurd h.1 hall, fun _ => ?_⟩
    obtain ⟨k, hcontrol⟩ := hbad hall
    rw [load_determined b (k := k) hcontrol]
    exact hcontrol

/-- The lines are good when none fills the buffer, every data record is placed
and the counts are right. -/
theorem allGood_iff (before : List srec_record) (lines : List Line) :
    AllGood before lines ↔ (∀ l ∈ lines, l.text.length ≠ line_size) ∧
      ∀ mid r, mid ++ [r] <+: records lines → Acceptable (before ++ mid) r := by
  induction lines generalizing before with
  | nil => simp [AllGood, records]
  | cons l lines ih =>
    rw [AllGood, ih, Line.Good]
    constructor
    · rintro ⟨⟨hroom, hacc⟩, hrooms, haccs⟩
      refine ⟨fun q hq => ?_, fun mid r hmid => ?_⟩
      · obtain rfl | hq := List.mem_cons.mp hq
        · exact hroom
        · exact hrooms q hq
      · cases mid with
        | nil =>
          obtain ⟨rfl, _⟩ := List.cons_prefix_cons.mp hmid
          simpa using hacc
        | cons q mid =>
          obtain ⟨rfl, hrest⟩ := List.cons_prefix_cons.mp hmid
          have := haccs mid r hrest
          simpa using this
    · rintro ⟨hrooms, haccs⟩
      refine ⟨⟨hrooms l (by simp), ?_⟩, fun q hq => hrooms q (by simp [hq]), fun mid r hmid => ?_⟩
      · have := haccs [] l.record (by simp [records])
        simpa using this
      · have := haccs (l.record :: mid) r (List.cons_prefix_cons.mpr ⟨rfl, hmid⟩)
        simpa using this

/-- An image in the permitted windows with correct counts and an aligned entry
inside the loaded RAM range. -/
structure WellFormed (lines : List Line) (last : Line) : Prop where
  body : ∀ l ∈ lines, l.record.type < 7
  ends : 7 ≤ last.record.type
  placed : ∀ r ∈ records lines, is_data r = true → in_vectors r = true ∨ in_ram r = true
  counts : CountsMatch (records lines)
  aligned : last.record.address &&& 3 = 0
  span : InLoadedSpan (records lines) last.record.address.toNat

/-- `load` returns 0 with this entry and has stored the bytes of the data
records: those for RAM in order, the others in the shadow vectors. -/
structure Loads (b : Board) (rs : List srec_record) (entry : Word) : Prop where
  control : (load b passes).control = .done (some entry)
  ram : ram_history (load b passes).stores = (image_writes rs).filter fun w => RAM_START ≤ w.1
  vectors : ∀ a < vectors_size, (load b passes).vectors a = (effect rs a).getD 0
  seen : ∀ a < vectors_size, (load b passes).seen a = (effect rs a).isSome

theorem State.Contents.loads {b : Board} {rs : List srec_record} {entry : Word}
    (hcontrol : (load b passes).control = .done (some entry)) (h : (load b passes).Contents b rs) : Loads b rs entry :=
  ⟨hcontrol, h.history, h.vectors, h.seen⟩

/-- A loaded byte lies in a RAM record. -/
theorem supplied_ram {rs : List srec_record}
    (hplaced : ∀ r ∈ rs, is_data r = true → in_vectors r = true ∨ in_ram r = true) {a : Nat} (ha : Supplied rs a)
    (hstart : RAM_START ≤ a) :
    ∃ r ∈ rs, is_data r = true ∧ in_ram r = true ∧ r.address.toNat ≤ a ∧ a < r.address.toNat + r.size := by
  obtain ⟨w, hw, rfl⟩ := (last_write_isSome _ _).mp ha
  obtain ⟨r, hr, hdata, hwrite⟩ := mem_image_writes.mp hw
  have hbound := mem_writes_from hwrite
  obtain hvec | hram := hplaced r hr hdata
  · simp only [in_vectors, Bool.and_eq_true, decide_eq_true_eq] at hvec
    have hsize : r.data.length ≤ vectors_size - r.address.toNat := hvec.2
    simp only [vectors_size, RAM_START] at hsize hstart
    omega
  · exact ⟨r, hr, hdata, hram, hbound⟩

theorem WellFormed.entry_ok {lines : List Line} {last : Line} (h : WellFormed lines last) :
    EntryOk (records lines) last.record.address := by
  obtain ⟨⟨a, ha, hstart, hbelow⟩, a', ha', hstart', habove⟩ := h.span
  obtain ⟨r, hr, hdata, hram, hlow, _⟩ := supplied_ram h.placed ha hstart
  obtain ⟨r', hr', hdata', hram', _, hhigh⟩ := supplied_ram h.placed ha' hstart'
  exact ⟨⟨r, hr, hdata, hram, by omega⟩, ⟨r', hr', hdata', hram', by omega⟩, h.aligned⟩

theorem WellFormed.acceptable {lines : List Line} {last : Line} (h : WellFormed lines last)
    {mid : List srec_record} {r : srec_record} (hmid : mid ++ [r] <+: records lines) : Acceptable mid r :=
  ⟨h.placed r (hmid.subset (by simp)), h.counts mid r hmid⟩

/-- A board whose flash window begins with an image, with working SPI and RAM. -/
structure Flashed (b : Board) (lines : List Line) (last : Line) : Prop where
  responsive : Responsive b
  faithful : ∃ initial, FaithfulRam b initial
  holds : Holds b.flash 0 (image_text (lines ++ [last]))
  fits : (image_text (lines ++ [last])).length ≤ FLASH_END - FLASH_START

/-- A well-formed image of lines that the parser accepts is loaded exactly if no
line has the 514 characters of the longest record. -/
theorem framed_image_loads_iff (b : Board) (lines : List Line) (last : Line) (himage : WellFormed lines last)
    (hflash : Flashed b lines last) :
    Loads b (records lines) last.record.address ↔ ∀ l ∈ lines ++ [last], l.text.length ≠ 514 := by
  obtain ⟨initial, hram⟩ := hflash.faithful
  obtain ⟨hgood, hbad⟩ := load_lines hflash.responsive hram himage.body himage.ends hflash.holds hflash.fits
  have hlines : (AllGood [] lines ∧ last.text.length ≠ line_size ∧ EntryOk (records lines) last.record.address) ↔
      ∀ l ∈ lines ++ [last], l.text.length ≠ line_size := by
    rw [allGood_iff, List.forall_mem_append, List.forall_mem_singleton]
    constructor
    · rintro ⟨⟨hrooms, _⟩, hroom, _⟩
      exact ⟨hrooms, hroom⟩
    · rintro ⟨hrooms, hroom⟩
      exact ⟨⟨hrooms, fun mid r hmid => himage.acceptable hmid⟩, hroom, himage.entry_ok⟩
  change _ ↔ ∀ l ∈ lines ++ [last], l.text.length ≠ line_size
  rw [← hlines]
  constructor
  · intro hloads
    by_contra hnot
    have hcontrol := hloads.control
    rw [hbad hnot] at hcontrol
    cases hcontrol
  · intro hall
    obtain ⟨hcontrol, hcontents⟩ := hgood hall
    exact State.Contents.loads hcontrol hcontents

/-- A board with this text in its flash, a responsive SPI and faithful RAM. -/
def board_with (text : List Byte) : Board where
  flash := fun a => text.getD (a - FLASH_START) 0xff
  rx_empty := fun _ => false
  read_back := fun history a => (last_write history a).getD 0
  ready := true

theorem receive_ready (text : List Byte) (n : Nat) {guard : Nat} (hguard : guard ≠ 0) (polls : Nat) :
    (receive (board_with text) n guard polls).1 = true := by
  induction n generalizing polls with
  | zero => rfl
  | succ n ih =>
    obtain ⟨g, rfl⟩ := Nat.exists_eq_succ_of_ne_zero hguard
    have hwait : wait_rx (board_with text) (g + 1) polls = (g + 1, polls + 1) := rfl
    rw [receive, hwait]
    dsimp only
    rw [if_neg hguard]
    exact ih (polls + 1)

/-- A board with an image. -/
def image_board (lines : List Line) (last : Line) : Board := board_with (image_text (lines ++ [last]))

theorem flashed_board {lines : List Line} {last : Line}
    (hfits : (image_text (lines ++ [last])).length ≤ FLASH_END - FLASH_START) :
    Flashed (image_board lines last) lines last where
  responsive := fun polls => receive_ready _ 68 (by decide) polls
  faithful := ⟨fun _ => 0, fun _ _ => rfl⟩
  holds := by
    intro i hi
    change (image_text (lines ++ [last])).getD (FLASH_START + 0 + i - FLASH_START) 0xff = _
    rw [Nat.add_zero, Nat.add_sub_cancel_left, List.getD_eq_getElem?_getD, List.getElem?_eq_getElem hi]
    rfl
  fits := hfits

/-- The record that fills RAM from its start with zeros. -/
def zero_record (size : Nat) : srec_record := ⟨0x80000000, List.replicate size 0, 3⟩

/-- `S70580000000` and its checksum. -/
def sample_last : Line where
  text := [0x53, 0x37, 0x30, 0x35, 0x38] ++ List.replicate 7 0x30 ++ [0x37, 0x41]
  terminator := .lf
  record := ⟨0x80000000, [], 7⟩
  parses := by decide

theorem zero_record_in_ram {size : Nat} (hle : size ≤ 252) : in_ram (zero_record size) = true := by
  have haddress : (zero_record size).address.toNat = 0x80000000 := rfl
  have hsize : (zero_record size).size = size := List.length_replicate
  simp only [in_ram, haddress, hsize, RAM_START, RAM_END, Bool.and_eq_true, decide_eq_true_eq]
  omega

theorem zero_image {l : Line} {size : Nat} (hr : l.record = zero_record size) (hpos : 0 < size) (hle : size ≤ 252) :
    WellFormed [l] sample_last := by
  have hrecords : records [l] = [zero_record size] := by rw [records, List.map_singleton, hr]
  have hsupplied : Supplied (records [l]) 0x80000000 := by
    rw [hrecords]
    refine supplied_of_mem (List.mem_singleton.mpr rfl) rfl (i := 0) ?_
    rw [srec_record.size, zero_record, List.length_replicate]
    exact hpos
  refine ⟨?_, by decide, ?_, ?_, by decide, ⟨_, hsupplied, by decide, by decide⟩, ⟨_, hsupplied, by decide, by decide⟩⟩
  · intro q hq
    rw [List.mem_singleton.mp hq, hr]
    change 3 < 7
    decide
  · intro r hmem _
    rw [hrecords, List.mem_singleton] at hmem
    rw [hmem]
    exact .inr (zero_record_in_ram hle)
  · intro before r hprefix hcount
    rw [hrecords] at hprefix
    rw [List.mem_singleton.mp ( hprefix.subset (List.mem_append_right before (List.mem_singleton.mpr rfl)))] at hcount
    cases hcount

/-- `S30980000000`, four zero bytes and their checksum. -/
def short_line : Line where
  text := [0x53, 0x33, 0x30, 0x39, 0x38] ++ List.replicate 15 0x30 ++ [0x37, 0x36]
  terminator := .crlf
  record := zero_record 4
  parses := by decide

theorem short_image_loads :
    WellFormed [short_line] sample_last ∧
      Flashed (image_board [short_line] sample_last) [short_line] sample_last ∧
      Loads (image_board [short_line] sample_last) (records [short_line]) 0x80000000 := by
  have himage : WellFormed [short_line] sample_last := zero_image rfl (by decide) (by decide)
  have hflash : Flashed (image_board [short_line] sample_last) [short_line] sample_last :=
    flashed_board (by decide)
  exact ⟨himage, hflash, (framed_image_loads_iff _ [short_line] sample_last himage hflash).mpr (by decide)⟩

/-- The digits of the longest record: `FF80000000`, 250 zero bytes and their
checksum. -/
def long_digits : List Byte := [0x46, 0x46, 0x38] ++ List.replicate 507 0x30 ++ [0x38, 0x30]

def long_values : List Byte := [0x80, 0, 0, 0] ++ List.replicate 250 0 ++ [0x80]

set_option maxRecDepth 2000 in
theorem long_line_parses : (srec_parse (0x53 :: 0x33 :: long_digits)).1 = some (zero_record 250) := by
  have hvalues : hex_values long_digits = some (0xff :: long_values) := by decide
  have hwidth : naddr 3 = some 4 := rfl
  have hencodes := encodes_of_values hvalues (by decide) hwidth (by decide) (by decide)
  have hrecord : (⟨BitVec.ofNat 32 (radix.beValue (long_values.take 4)),
      (long_values.drop 4).take (long_values.length - 1 - 4), 3⟩ : srec_record) = zero_record 250 := by
    decide
  rw [hrecord] at hencodes
  exact srec_parse_of_encodes hencodes (by decide)

/-- The longest record, 514 characters. -/
def long_line : Line := ⟨0x53 :: 0x33 :: long_digits, .lf, zero_record 250, long_line_parses⟩

/-- The longest record that the parser accepts fills the line buffer, and the
loader rejects it before it sees the line end. -/
theorem long_image_rejected :
    WellFormed [long_line] sample_last ∧
      Flashed (image_board [long_line] sample_last) [long_line] sample_last ∧
      ¬Loads (image_board [long_line] sample_last) (records [long_line]) 0x80000000 := by
  have himage : WellFormed [long_line] sample_last := zero_image rfl (by decide) (by decide)
  have hflash : Flashed (image_board [long_line] sample_last) [long_line] sample_last :=
    flashed_board (by decide +kernel)
  refine ⟨himage, hflash, fun hloads => ?_⟩
  obtain ⟨initial, hram⟩ := hflash.faithful
  have hfull : long_line.text.length = line_size := by decide +kernel
  have hnone := (load_lines hflash.responsive hram himage.body himage.ends hflash.holds hflash.fits).2
    fun hall => hall.1.1.1 hfull
  have hcontrol := hloads.control
  rw [hnone] at hcontrol
  cases hcontrol

end scu35.bootloader
