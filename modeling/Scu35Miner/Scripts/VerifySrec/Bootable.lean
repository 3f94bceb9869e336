import Scu35Miner.Scripts.VerifySrec

open fips180 radix storage

namespace scu35.verify_srec

open srec bootloader

theorem universal_newlines_cons {c : Byte} (hc : c ≠ 0x0d) (s : List Byte) :
    universal_newlines (c :: s) = c :: universal_newlines s := by
  cases s with
  | nil =>
    change [if c = 0x0d then 0x0a else c] = [c]
    rw [if_neg hc]
  | cons d s => rw [universal_newlines, if_neg hc]

theorem universal_newlines_append {l : List Byte} (hl : ∀ c ∈ l, c ≠ 0x0d) (s : List Byte) :
    universal_newlines (l ++ s) = l ++ universal_newlines s := by
  induction l with
  | nil => rfl
  | cons c l ih =>
    rw [List.cons_append, universal_newlines_cons (hl c (by simp)), ih fun d hd => hl d (by simp [hd])]
    rfl

/-- A line end is the longest one at its place. -/
def Separated (t : Terminator) (rest : List Byte) : Prop := t = .cr → rest.head? ≠ some 0x0a

/-- Every line end becomes a line feed. -/
theorem universal_newlines_terminator {t : Terminator} {rest : List Byte} (h : Separated t rest) :
    universal_newlines (t.text ++ rest) = 0x0a :: universal_newlines rest := by
  cases t with
  | lf => exact universal_newlines_cons (by decide) rest
  | crlf => rfl
  | cr =>
    cases rest with
    | nil => rfl
    | cons d rest =>
      have hd : ¬d = 0x0a := fun hd => h rfl (by rw [hd]; rfl)
      change universal_newlines (0x0d :: d :: rest) = _
      rw [universal_newlines, if_pos rfl, if_neg hd]

theorem splitlines_append {l : List Byte} (hl : ∀ c ∈ l, line_boundary c = false) (line s : List Byte) :
    splitlines line (l ++ s) = splitlines (line ++ l) s := by
  induction l generalizing line with
  | nil => rw [List.append_nil, List.nil_append]
  | cons c l ih =>
    rw [List.cons_append, splitlines, hl c (by simp), if_neg (by decide), ih fun d hd => hl d (by simp [hd]),
      List.append_assoc]
    rfl

/-- The first line of a text. -/
theorem text_lines_cons {l : List Byte} (hl : ∀ c ∈ l, line_boundary c = false) {t : Terminator} {rest : List Byte}
    (h : Separated t rest) : text_lines (l ++ t.text ++ rest) = l :: text_lines rest := by
  have hcr : ∀ c ∈ l, c ≠ 0x0d := by
    rintro c hc rfl
    have := hl _ hc
    cases this
  rw [text_lines, List.append_assoc, universal_newlines_append hcr, universal_newlines_terminator h,
    splitlines_append hl, splitlines, if_pos (by decide)]
  rfl

theorem text_lines_ne_nil {text : List Byte} (h : text ≠ []) : text_lines text ≠ [] := by
  have hsplit (s : List Byte) (line : List Byte) (hne : line ≠ [] ∨ s ≠ []) : splitlines line s ≠ [] := by
    induction s generalizing line with
    | nil =>
      rw [splitlines, if_neg (hne.resolve_right fun h => h rfl)]
      exact List.cons_ne_nil _ _
    | cons c s ih =>
      rw [splitlines]
      split
      · exact List.cons_ne_nil _ _
      · exact ih _ (.inl (by simp))
  refine hsplit _ _ (.inr ?_)
  match text, h with
  | [c], _ => exact List.cons_ne_nil _ _
  | c :: d :: s, _ =>
    rw [universal_newlines]
    split
    · split <;> exact List.cons_ne_nil _ _
    · exact List.cons_ne_nil _ _

/-- A text without white space decodes as its digits. -/
theorem fromhex_digits {chars : List Byte} (h : ∀ c ∈ chars, is_space c = false) :
    fromhex chars = hex_values chars := by
  match chars, h with
  | [], _ => rfl
  | [a], h =>
    rw [fromhex, h a (by simp)]
    rfl
  | a :: b :: s, h =>
    rewrite [fromhex, h a (by simp), if_neg (by decide), fromhex_digits fun c hc => h c (by simp [hc]), hex_values]
    rfl

theorem hex_not_space {c : Byte} (h : hex c ≠ none) : is_space c = false := by
  revert c
  decide

theorem hex_not_boundary {c : Byte} (h : hex c ≠ none) : line_boundary c = false := by
  revert c
  decide

theorem naddr_width {type w : Nat} (h : naddr type = some w) : width type = w := by
  unfold naddr at h
  split at h <;> first | (cases h; rfl) | cases h

theorem naddr_kind {type w : Nat} (h : naddr type = some w) : kinds.contains (BitVec.ofNat 8 (0x30 + type)) = true := by
  unfold naddr at h
  split at h <;> first | decide | cases h

theorem kind_naddr {c : Byte} (h : kinds.contains c = true) :
    naddr (c.toNat - 0x30) = some (width (c.toNat - 0x30)) ∧ c = BitVec.ofNat 8 (0x30 + (c.toNat - 0x30)) := by
  revert c
  decide

/-- A line that the parser of the boot loader accepts is read alike by the
checker. -/
theorem parse_line_accepted {line : List Byte} {r : srec_record} (h : (srec_parse line).1 = some r) :
    parse_line line = some ⟨r.type, r.address.toNat, r.data⟩ := by
  obtain ⟨rest, rfl, hhex⟩ := accepted_chars h
  obtain ⟨w, values, hr⟩ := srec_parse_encodes h
  have hlen := hr.length
  have hpos := hr.width_lt
  have hdigit : (BitVec.ofNat 8 (0x30 + r.type)).toNat = 0x30 + r.type := hr.type.2
  have hvalues : hex_values rest = some (BitVec.ofNat 8 values.length :: values) := by
    refine hex_values_of_bytes ?_ ?_
    · simp only [List.length_cons] at hlen ⊢
      omega
    · intro i hi
      cases i with
      | zero =>
        have hcount : byte rest 0 = some values.length := hr.count
        rw [Nat.mul_zero, hcount, List.getElem_cons_zero, BitVec.toNat_ofNat, Nat.mod_eq_of_lt (byte_lt hr.count)]
      | succ i =>
        have hbyte := hr.bytes i (by simpa using hi)
        rw [show 4 + 2 * i = 2 * (i + 1) + 2 by omega, byte_cons_cons] at hbyte
        rw [hbyte, List.getElem_cons_succ]
  have hdata : fromhex rest = some (BitVec.ofNat 8 values.length :: values) := by
    rw [fromhex_digits fun c hc => hex_not_space (hhex c hc), hvalues]
  have hcount : (BitVec.ofNat 8 values.length).toNat = values.length := by
    rw [BitVec.toNat_ofNat, Nat.mod_eq_of_lt (byte_lt hr.count)]
  have hhead : ¬((0x53 :: BitVec.ofNat 8 (0x30 + r.type) :: rest).length < 4 || (0x53 : Byte) != 0x53 ||
      !kinds.contains (BitVec.ofNat 8 (0x30 + r.type))) = true := by
    rw [naddr_kind hr.naddr]
    simp only [bne_self_eq_false, Bool.not_true, Bool.or_false, decide_eq_true_eq]
    omega
  have hsum : ¬((BitVec.ofNat 8 values.length).toNat != (BitVec.ofNat 8 values.length :: values).length - 1 ||
      byte_sum (BitVec.ofNat 8 values.length :: values) % 256 != 255) = true := by
    have hchecksum := hr.checksum
    have hcons : byte_sum (BitVec.ofNat 8 values.length :: values) = values.length + byte_sum values := by
      rw [byte_sum, List.map_cons, List.sum_cons, hcount]
      rfl
    rw [hcount, hcons, hchecksum, List.length_cons, Nat.add_sub_cancel]
    simp
  rw [parse_line]
  change (if ((0x53 :: BitVec.ofNat 8 (0x30 + r.type) :: rest).length < 4 || (0x53 : Byte) != 0x53 ||
      !kinds.contains (BitVec.ofNat 8 (0x30 + r.type))) = true then _ else _) = _
  rw [if_neg hhead]
  have hdrop : (0x53 :: BitVec.ofNat 8 (0x30 + r.type) :: rest : List Byte).drop 2 = rest := rfl
  rw [hdrop, hdata]
  dsimp only
  rw [if_neg hsum]
  simp only [List.getD_cons_succ, List.getD_cons_zero]
  rw [hdigit, Nat.add_sub_cancel_left, naddr_width hr.naddr, hr.address, hr.data, List.drop_one, List.tail_cons,
    Nat.add_comm 1 w, List.drop_succ_cons, List.dropLast_eq_take, List.length_drop]
  congr 3
  omega

theorem parse_line_some {line : List Byte} {p : Record} (h : parse_line line = some p) :
    ∃ chars count rest, line = 0x53 :: BitVec.ofNat 8 (0x30 + p.kind) :: chars ∧
      naddr p.kind = some (width p.kind) ∧ fromhex chars = some (count :: rest) ∧ count.toNat = rest.length ∧
      (rest.length + byte_sum rest) % 256 = 255 ∧ p.address = beValue (rest.take (width p.kind)) ∧
      p.payload = (rest.drop (width p.kind)).dropLast := by
  unfold parse_line at h
  split at h
  · cases h
  next hhead =>
    simp only [Bool.or_eq_true, decide_eq_true_eq, bne_iff_ne, not_or, not_not, Bool.not_eq_true', Nat.not_lt,
      Bool.not_eq_false] at hhead
    obtain ⟨⟨hlen, hS⟩, hkind⟩ := hhead
    obtain ⟨x, tail, rfl⟩ := List.exists_cons_of_length_pos (l := line) (by omega)
    obtain ⟨y, chars, rfl⟩ := List.exists_cons_of_length_pos (l := tail) (by
      simp only [List.length_cons] at hlen
      omega)
    change x = 0x53 at hS
    change kinds.contains y = true at hkind
    obtain ⟨hwidth, hy⟩ := kind_naddr hkind
    have hdrop : (x :: y :: chars).drop 2 = chars := rfl
    rw [hdrop] at h
    cases hdata : fromhex chars with
    | none =>
      rw [hdata] at h
      cases h
    | some data =>
      rw [hdata] at h
      cases data with
      | nil => cases h
      | cons count rest =>
        dsimp only at h
        split at h
        · cases h
        next hsum =>
          cases h
          simp only [List.length_cons, Nat.add_sub_cancel, Bool.or_eq_true, bne_iff_ne, not_or, not_not] at hsum
          refine ⟨chars, count, rest, ?_, hwidth, hdata, hsum.1, ?_, ?_, ?_⟩
          · rw [hS]
            exact congrArg (fun d => 0x53 :: d :: chars) hy
          · have hcons : byte_sum (count :: rest) = count.toNat + byte_sum rest := by
              rw [byte_sum, List.map_cons, List.sum_cons]
              rfl
            rw [← hsum.1, ← hcons]
            exact hsum.2
          · rfl
          · change (List.drop (1 + width (y.toNat - 0x30)) (count :: rest)).dropLast = _
            rw [Nat.add_comm, List.drop_succ_cons]
            rfl

/-- The parser of the boot loader accepts what the checker reads from a line
without white space that holds an address and a checksum. -/
theorem accepted_of_parse_line {line : List Byte} {p : Record} (h : parse_line line = some p)
    (hspace : ∀ c ∈ line, is_space c = false) (hlen : 2 * width p.kind + 6 ≤ line.length)
    (hpayload : 5 ≤ p.kind → p.payload = []) :
    (srec_parse line).1 = some ⟨BitVec.ofNat 32 p.address, p.payload, p.kind⟩ := by
  obtain ⟨chars, count, rest, rfl, hwidth, hdata, hcount, hsum, haddress, hbytes⟩ := parse_line_some h
  rw [fromhex_digits fun c hc => hspace c (by simp [hc])] at hdata
  have hchars := (byte_hex_values hdata).1
  simp only [List.length_cons] at hlen hchars
  have hencodes := encodes_of_values hdata hcount hwidth (by omega) hsum
  have hdrop : (rest.drop (width p.kind)).take (rest.length - 1 - width p.kind) = p.payload := by
    rw [hbytes, List.dropLast_eq_take, List.length_drop]
    congr 1
    omega
  rw [← haddress, hdrop] at hencodes
  exact srec_parse_of_encodes hencodes hpayload

/-- The checker has read the records `rs`, none of which overlap. -/
structure Mirrors (c : Check) (rs : List srec_record) : Prop where
  memory : c.memory = image_writes rs
  count : c.count = data_count rs
  disjoint : (c.memory.map Prod.fst).Nodup

theorem store_payload_some {c c' : Check} {address : Nat} {payload : List Byte}
    (hdisjoint : (c.memory.map Prod.fst).Nodup) (h : store_payload c address payload = some c') :
    c' = { c with memory := c.memory ++ writes_from address payload } ∧ (c'.memory.map Prod.fst).Nodup := by
  induction payload generalizing c address with
  | nil =>
    cases h
    exact ⟨by simp [writes_from], hdisjoint⟩
  | cons value payload ih =>
    rw [store_payload] at h
    split at h
    · cases h
    next hfree =>
      have hnew : address ∉ c.memory.map Prod.fst := by
        intro hmem
        obtain ⟨w, hw, rfl⟩ := List.mem_map.mp hmem
        exact hfree (List.any_eq_true.mpr ⟨w, hw, by simp⟩)
      have hnext : ((c.memory ++ [(address, value)]).map Prod.fst).Nodup := by
        rw [List.map_append, List.map_singleton]
        exact List.Nodup.append hdisjoint (List.nodup_singleton _) (by simpa using hnew)
      obtain ⟨rfl, hnodup⟩ := ih hnext h
      exact ⟨by simp [writes_from], hnodup⟩

/-- What the checker asks of a record and does with it. -/
theorem check_record_some {c c' : Check} {rs : List srec_record} (hc : Mirrors c rs) {r : srec_record} {w : Nat}
    (hwidth : naddr r.type = some w) (h : check_record c ⟨r.type, r.address.toNat, r.data⟩ = some c') :
    (r.type < 7 → Mirrors c' (rs ++ [r]) ∧ c'.entry = c.entry ∧
      (is_data r = true → permitted ⟨r.type, r.address.toNat, r.data⟩ = true) ∧
      (is_count r = true → r.address.toNat = data_count rs)) ∧
    (7 ≤ r.type → Mirrors c' rs ∧ c'.entry = some r.address.toNat) := by
  unfold check_record at h
  by_cases hdata : r.type = 1 ∨ r.type = 2 ∨ r.type = 3
  · have hd : is_data r = true := by
      simp only [is_data, Bool.and_eq_true, bne_iff_ne, decide_eq_true_eq]
      omega
    have hif : (r.type = 1 || r.type = 2 || r.type = 3) = true := by
      simpa [or_assoc] using hdata
    simp only [hif, ↓reduceIte] at h
    split at h
    · cases h
    next hperm =>
      obtain ⟨rfl, hnodup⟩ := store_payload_some (by exact hc.disjoint) h
      refine ⟨fun _ => ⟨⟨?_, ?_, hnodup⟩, rfl, fun _ => by simpa using hperm, ?_⟩, fun h7 => by omega⟩
      · rw [image_writes_append, hd, if_pos rfl, ← hc.memory]
      · rw [data_count_append, hd, if_pos rfl, ← hc.count]
      · exact fun hcount => absurd hcount (not_count_of_data hd)
  · have hif : ¬(r.type = 1 || r.type = 2 || r.type = 3) = true := by
      simpa [or_assoc] using hdata
    have hd : is_data r = false := by
      have h4 : r.type ≠ 4 := by
        intro h4
        rw [h4] at hwidth
        cases hwidth
      simp only [is_data, Bool.and_eq_false_iff, bne_eq_false_iff_eq, decide_eq_false_iff_not]
      omega
    have hskip : Mirrors c (rs ++ [r]) := by
      refine ⟨?_, ?_, hc.disjoint⟩
      · rw [image_writes_append, hd, hc.memory]
        simp
      · rw [data_count_append, hd, hc.count]
        simp
    simp only [hif, Bool.false_eq_true, ↓reduceIte] at h
    split at h
    next h56 =>
      simp only [Bool.or_eq_true, decide_eq_true_eq] at h56
      split at h
      · cases h
      next hcount =>
        cases h
        simp only [Bool.or_eq_true, bne_iff_ne, not_or, not_not] at hcount
        exact ⟨fun _ => ⟨hskip, rfl, fun h => absurd (hd.symm.trans h) (by decide), fun _ => hcount.2.trans hc.count⟩,
          fun h7 => by omega⟩
    next h56 =>
      have hnot : is_count r ≠ true := by
        simp only [Bool.or_eq_true, decide_eq_true_eq] at h56
        simpa [is_count] using h56
      split at h
      next h7 =>
        split at h
        · cases h
        · cases h
          exact ⟨fun hlt => by omega, fun _ => ⟨⟨hc.memory, hc.count, hc.disjoint⟩, rfl⟩⟩
      next h7 =>
        cases h
        exact ⟨fun _ => ⟨hskip, rfl, fun h => absurd (hd.symm.trans h) (by decide), fun h => absurd h hnot⟩, fun h => absurd h h7⟩

/-- The first line of a text, if it has a line end. -/
theorem split_first (text : List Byte) :
    (∀ c ∈ text, newline c = false) ∨
      ∃ l t rest, text = l ++ Terminator.text t ++ rest ∧ (∀ c ∈ l, newline c = false) ∧ Separated t rest := by
  induction text with
  | nil => exact .inl (by simp)
  | cons c text ih =>
    by_cases hc : newline c = true
    · right
      simp only [newline, Bool.or_eq_true, beq_iff_eq] at hc
      obtain rfl | rfl := hc
      · cases text with
        | nil => exact ⟨[], .cr, [], rfl, by simp, by simp [Separated]⟩
        | cons d text =>
          by_cases hd : d = 0x0a
          · subst hd
            exact ⟨[], .crlf, text, rfl, by simp, by simp [Separated]⟩
          · exact ⟨[], .cr, d :: text, rfl, by simp, fun _ h => hd (Option.some.inj h)⟩
      · exact ⟨[], .lf, text, rfl, by simp, by simp [Separated]⟩
    · have hplain : newline c = false := by simpa using hc
      obtain hnone | ⟨l, t, rest, rfl, hl, hsep⟩ := ih
      · left
        intro d hd
        obtain rfl | hd := List.mem_cons.mp hd
        · exact hplain
        · exact hnone d hd
      · refine .inr ⟨c :: l, t, rest, rfl, fun d hd => ?_, hsep⟩
        obtain rfl | hd := List.mem_cons.mp hd
        · exact hplain
        · exact hl d hd

theorem kind_plain {type w : Nat} (h : naddr type = some w) :
    line_boundary (BitVec.ofNat 8 (0x30 + type)) = false ∧ is_space (BitVec.ofNat 8 (0x30 + type)) = false := by
  unfold naddr at h
  split at h <;> first | decide | cases h

theorem accepted_not_boundary {line : List Byte} {r : srec_record} (h : (srec_parse line).1 = some r) :
    ∀ c ∈ line, line_boundary c = false ∧ is_space c = false := by
  obtain ⟨rest, rfl, hhex⟩ := accepted_chars h
  obtain ⟨w, values, hr⟩ := srec_parse_encodes h
  intro c hc
  obtain rfl | hc := List.mem_cons.mp hc
  · decide
  · obtain rfl | hc := List.mem_cons.mp hc
    · exact kind_plain hr.naddr
    · exact ⟨hex_not_boundary (hhex c hc), hex_not_space (hhex c hc)⟩

/-- The checker at a line that the parser of the boot loader accepts. -/
theorem frame_step {c cf : Check} {rs : List srec_record} (hc : Mirrors c rs) (hentry : c.entry = none)
    {l rest : List Byte} {t : Terminator} (hsep : Separated t rest) {r : srec_record}
    (hparse : (srec_parse l).1 = some r) (hcheck : check_lines c (text_lines (l ++ t.text ++ rest)) = some cf) :
    text_lines (l ++ t.text ++ rest) = l :: text_lines rest ∧
    (r.type < 7 → ∃ c', Mirrors c' (rs ++ [r]) ∧ c'.entry = none ∧ check_lines c' (text_lines rest) = some cf ∧
      (is_data r = true → permitted ⟨r.type, r.address.toNat, r.data⟩ = true) ∧
      (is_count r = true → r.address.toNat = data_count rs)) ∧
    (7 ≤ r.type → rest = [] ∧ Mirrors cf rs ∧ cf.entry = some r.address.toNat) := by
  have hlines := text_lines_cons (fun d hd => (accepted_not_boundary hparse d hd).1) hsep
  obtain ⟨w, values, hr⟩ := srec_parse_encodes hparse
  rw [hlines, check_lines, check_line, if_neg (by simp [hentry]), parse_line_accepted hparse, Option.bind_some] at hcheck
  refine ⟨hlines, ?_⟩
  cases hrecord : check_record c ⟨r.type, r.address.toNat, r.data⟩ with
  | none =>
    rw [hrecord] at hcheck
    cases hcheck
  | some c' =>
    rw [hrecord, Option.bind_some] at hcheck
    obtain ⟨hbody, hlast⟩ := check_record_some hc hr.naddr hrecord
    constructor
    · intro htype
      obtain ⟨hmirrors, hkept, hperm, hcount⟩ := hbody htype
      exact ⟨c', hmirrors, hkept.trans hentry, hcheck, hperm, hcount⟩
    · intro htype
      obtain ⟨hmirrors, hset⟩ := hlast htype
      have hnil : rest = [] := by
        by_contra hne
        cases hmore : text_lines rest with
        | nil => exact text_lines_ne_nil hne hmore
        | cons line lines =>
          rw [hmore, check_lines, check_line, hset, if_pos (by simp)] at hcheck
          cases hcheck
      subst hnil
      cases hcheck
      exact ⟨rfl, hmirrors, hset⟩

/-- A text is an image whose records the loader accepts after `rs`, and which the
checker has read to the end. -/
structure Framed (rs : List srec_record) (text : List Byte) (cf : Check) (lines : List Line) (last : Line) : Prop where
  text_eq : text = image_text (lines ++ [last])
  lines_eq : text_lines text = (lines ++ [last]).map Line.text
  body : ∀ l ∈ lines, l.record.type < 7
  ends : 7 ≤ last.record.type
  good : AllGood rs lines
  room : last.text.length ≠ line_size
  mirrors : Mirrors cf (rs ++ records lines)
  entry : cf.entry = some last.record.address.toNat

theorem Framed.cons {rs : List srec_record} {rest : List Byte} {cf : Check} {lines : List Line} {last l : Line}
    (h : Framed (rs ++ [l.record]) rest cf lines last) (htype : l.record.type < 7) (hgood : l.Good rs)
    (hlines : text_lines (l.text ++ l.terminator.text ++ rest) = l.text :: text_lines rest) :
    Framed rs (l.text ++ l.terminator.text ++ rest) cf (l :: lines) last where
  text_eq := by
    rw [h.text_eq]
    rfl
  lines_eq := by
    rw [hlines, h.lines_eq]
    rfl
  body := by
    intro q hq
    obtain rfl | hq := List.mem_cons.mp hq
    · exact htype
    · exact h.body q hq
  ends := h.ends
  good := ⟨hgood, h.good⟩
  room := h.room
  mirrors := by
    have hm := h.mirrors
    rw [List.append_assoc] at hm
    exact hm
  entry := h.entry

/-- The image ends with this line. -/
theorem Framed.single {rs : List srec_record} {cf : Check} (last : Line) (hlines : text_lines last.bytes = [last.text])
    (htype : 7 ≤ last.record.type) (hroom : last.text.length ≠ line_size) (hmirrors : Mirrors cf rs)
    (hentry : cf.entry = some last.record.address.toNat) : Framed rs last.bytes cf [] last where
  text_eq := by simp [image_text]
  lines_eq := hlines
  body := by simp
  ends := htype
  good := trivial
  room := hroom
  mirrors := by simpa [records] using hmirrors
  entry := hentry

/-- A data record is where the loader wants it, given that it is where the
checker wants it, unless it is empty and at the end of a window. -/
theorem in_vectors_iff (r : srec_record) :
    in_vectors r = true ↔ r.address.toNat < 0x50 ∧ r.size ≤ 0x50 - r.address.toNat := by
  rw [in_vectors, Bool.and_eq_true, decide_eq_true_eq, decide_eq_true_eq]
  rfl

theorem in_ram_iff (r : srec_record) : in_ram r = true ↔
    (0x80000000 ≤ r.address.toNat ∧ r.address.toNat < 0x80800000) ∧ r.size ≤ 0x80800000 - r.address.toNat := by
  rw [in_ram, Bool.and_eq_true, Bool.and_eq_true, decide_eq_true_eq, decide_eq_true_eq, decide_eq_true_eq]
  rfl

theorem permitted_iff (r : srec_record) : permitted ⟨r.type, r.address.toNat, r.data⟩ = true ↔
    r.address.toNat + r.size ≤ 0x50 ∨ 0x80000000 ≤ r.address.toNat ∧ r.address.toNat + r.size ≤ 0x80800000 := by
  rw [permitted, Bool.or_eq_true, Bool.and_eq_true, decide_eq_true_eq, decide_eq_true_eq, decide_eq_true_eq]
  rfl

theorem placed_iff {r : srec_record} (h : permitted ⟨r.type, r.address.toNat, r.data⟩ = true) :
    (in_vectors r = true ∨ in_ram r = true) ↔
      (r.data = [] → r.address.toNat ≠ 0x50 ∧ r.address.toNat ≠ 0x80800000) := by
  have hnil : r.data = [] ↔ r.size = 0 := List.length_eq_zero_iff.symm
  rw [permitted_iff] at h
  rw [in_vectors_iff, in_ram_iff, hnil]
  generalize r.address.toNat = a at *
  generalize r.size = size at *
  omega

/-- The only white space and line separators are carriage returns and line
feeds, one of which ends the text; every line has fewer than 514 characters and
room for an address and a checksum, and no empty data record stands at the end
of a window. -/
structure Plain (text : List Byte) : Prop where
  chars : ∀ c ∈ text, is_space c = true ∨ line_boundary c = true → newline c = true
  ended : ∀ c, text.getLast? = some c → newline c = true
  room : ∀ line ∈ text_lines text, line.length ≠ 514
  complete : ∀ line ∈ text_lines text, ∀ p, parse_line line = some p → 2 * width p.kind + 6 ≤ line.length
  placed : ∀ line ∈ text_lines text, ∀ p, parse_line line = some p → 1 ≤ p.kind → p.kind ≤ 3 → p.payload = [] →
    p.address ≠ 0x50 ∧ p.address ≠ 0x80800000

theorem Plain.rest {l rest : List Byte} {t : Terminator} (h : Plain (l ++ t.text ++ rest))
    (hlines : text_lines (l ++ t.text ++ rest) = l :: text_lines rest) : Plain rest where
  chars := fun c hc => h.chars c (List.mem_append_right _ hc)
  ended := by
    intro c hc
    refine h.ended c ?_
    rw [List.getLast?_append, hc]
    rfl
  room := fun line hline => h.room line (by rw [hlines]; exact List.mem_cons_of_mem _ hline)
  complete := fun line hline => h.complete line (by rw [hlines]; exact List.mem_cons_of_mem _ hline)
  placed := fun line hline => h.placed line (by rw [hlines]; exact List.mem_cons_of_mem _ hline)

theorem data_kind {r : srec_record} {w : Nat} (hwidth : naddr r.type = some w) :
    is_data r = true ↔ 1 ≤ r.type ∧ r.type ≤ 3 := by
  have h4 : r.type ≠ 4 := by
    intro h4
    rw [h4] at hwidth
    cases hwidth
  simp only [is_data, Bool.and_eq_true, bne_iff_ne, decide_eq_true_eq]
  omega

theorem check_record_payload {c c' : Check} {p : Record} (h : check_record c p = some c') (hkind : 5 ≤ p.kind) :
    p.payload = [] := by
  have hdata : ¬(p.kind = 1 || p.kind = 2 || p.kind = 3) = true := by
    simp only [Bool.or_eq_true, decide_eq_true_eq]
    omega
  simp only [check_record, hdata, Bool.false_eq_true, ↓reduceIte] at h
  by_contra hne
  have hsome : (p.payload != []) = true := by simpa using hne
  simp only [hsome, Bool.true_or, ↓reduceIte, Bool.or_eq_true, decide_eq_true_eq] at h
  split at h
  · cases h
  next hcount =>
    rw [if_pos (by omega)] at h
    cases h

/-- A plain text that the checker accepts is an image that the loader accepts. -/
theorem plain_framed {text : List Byte} (h : Plain text) {c cf : Check} {rs : List srec_record} (hc : Mirrors c rs)
    (hentry : c.entry = none) (hcheck : check_lines c (text_lines text) = some cf) (hcf : cf.entry ≠ none) :
    ∃ lines last, Framed rs text cf lines last := by
  induction hn : text.length using Nat.strong_induction_on generalizing text c rs with
  | _ n ih =>
    obtain hplain | ⟨l, t, rest, rfl, hl, hsep⟩ := split_first text
    · cases hlast : text.getLast? with
      | none =>
        obtain rfl := List.getLast?_eq_none_iff.mp hlast
        cases hcheck
        exact absurd hentry hcf
      | some d =>
        have hnl := h.ended d hlast
        rw [hplain d (List.mem_of_getLast? hlast)] at hnl
        cases hnl
    · have hchars (d : Byte) (hd : d ∈ l) : is_space d = false ∧ line_boundary d = false := by
        have hmem : d ∈ l ++ t.text ++ rest := by simp [hd]
        have hnot := hl d hd
        constructor
        · by_contra hspace
          rw [h.chars d hmem (.inl (by simpa using hspace))] at hnot
          cases hnot
        · by_contra hboundary
          rw [h.chars d hmem (.inr (by simpa using hboundary))] at hnot
          cases hnot
      have hlines := text_lines_cons (fun d hd => (hchars d hd).2) hsep
      have hmem : l ∈ text_lines (l ++ t.text ++ rest) := by
        rw [hlines]
        exact List.mem_cons_self
      have hchecked := hcheck
      rw [hlines, check_lines, check_line, if_neg (by simp [hentry])] at hchecked
      cases hline : parse_line l with
      | none =>
        rw [hline] at hchecked
        cases hchecked
      | some p =>
        rw [hline, Option.bind_some] at hchecked
        cases hrecord : check_record c p with
        | none =>
          rw [hrecord] at hchecked
          cases hchecked
        | some c1 =>
          have hparse := accepted_of_parse_line hline (fun d hd => (hchars d hd).1) (h.complete l hmem p hline)
            (check_record_payload hrecord)
          generalize hr : (⟨BitVec.ofNat 32 p.address, p.payload, p.kind⟩ : srec_record) = r at hparse
          have hp := parse_line_accepted hparse
          rw [hline, Option.some.injEq] at hp
          obtain ⟨w, values, hencodes⟩ := srec_parse_encodes hparse
          obtain ⟨_, hbody, hlast⟩ := frame_step hc hentry hsep hparse hcheck
          by_cases htype : r.type < 7
          · obtain ⟨c', hmirrors, hkept, hnext, hperm, hcount⟩ := hbody htype
            have hshorter : rest.length < n := by
              obtain ⟨d, tail, ht, _⟩ := t.text_cons
              rw [← hn, ht]
              simp only [List.length_append, List.length_cons]
              omega
            obtain ⟨lines, last, hframed⟩ := ih rest.length hshorter (h.rest hlines) hmirrors hkept hnext rfl
            have hgood : Line.Good rs ⟨l, t, r, hparse⟩ := by
              refine ⟨h.room l hmem, fun hdata => ?_, hcount⟩
              refine (placed_iff (hperm hdata)).mpr fun hempty => ?_
              have hkind := (data_kind hencodes.naddr).mp hdata
              have hplaced := h.placed l hmem p hline
              rw [hp] at hplaced
              exact hplaced hkind.1 hkind.2 hempty
            exact ⟨⟨l, t, r, hparse⟩ :: lines, last, hframed.cons (l := ⟨l, t, r, hparse⟩) htype hgood hlines⟩
          · obtain ⟨rfl, hmirrors, hset⟩ := hlast (by omega)
            rw [List.append_nil] at hlines ⊢
            exact ⟨[], ⟨l, t, r, hparse⟩,
              Framed.single ⟨l, t, r, hparse⟩ hlines (Nat.le_of_not_lt htype) (h.room l hmem) hmirrors hset⟩

theorem scan_none {flash : Nat → Byte} {n m : Nat} (h : scan flash n = none) (hle : n ≤ m) : scan flash m = none := by
  induction m, hle using Nat.le_induction with
  | base => exact h
  | succ m _ ih => rw [scan, ih]

/-- The scan is between lines only at the start and after a line end. -/
theorem scan_newline {flash : Nat → Byte} {n : Nat} {rs : List srec_record} (h : scan flash (n + 1) = some (rs, none)) :
    newline (flash (FLASH_START + n)) = true := by
  rw [scan] at h
  split at h
  · cases h
  · dsimp only at h
    split at h
    next hnl => exact hnl
    · split at h <;> cases h
  · dsimp only at h
    split at h
    next hnl => exact hnl
    · cases h

/-- A line that the parser rejects ends the scan. -/
theorem scan_rejected {flash : Nat → Byte} {n : Nat} {rs : List srec_record} (h : scan flash n = some (rs, none))
    {l : List Byte} (hholds : Holds flash n l) (hl : ∀ c ∈ l, newline c = false) (hne : l ≠ [])
    (hnl : newline (flash (FLASH_START + (n + l.length))) = true) (hreject : (srec_parse l).1 = none) :
    scan flash (n + l.length + 1) = none := by
  cases l with
  | nil => exact absurd rfl hne
  | cons c l =>
    obtain ⟨hc, hrest⟩ := holds_cons hholds
    have hfirst := scan_between h
    rw [hc, hl c (by simp), if_neg (by decide)] at hfirst
    by_cases hS : c = 0x53
    · rw [if_pos hS] at hfirst
      have hopen {m : Nat} {text rest : List Byte} (hm : scan flash m = some (rs, some text))
          (hheld : Holds flash m rest) (hplain : ∀ c ∈ rest, newline c = false) :
          scan flash (m + rest.length) = some (rs, some (text ++ rest)) := by
        induction rest generalizing m text with
        | nil => simpa using hm
        | cons d rest ih =>
          obtain ⟨hd, hheld'⟩ := holds_cons hheld
          have hstep := scan_inside hm
          rw [hd, hplain d (by simp), if_neg (by decide)] at hstep
          have hall := ih hstep hheld' fun e he => hplain e (by simp [he])
          rw [List.length_cons, Nat.add_comm rest.length 1, ← Nat.add_assoc, hall, List.append_assoc,
            List.singleton_append]
      have hline := hopen hfirst hrest fun d hd => hl d (by simp [hd])
      rw [List.singleton_append] at hline
      have hlen : n + (c :: l).length = n + 1 + l.length := by
        rw [List.length_cons]
        omega
      rw [hlen] at hnl ⊢
      rw [scan_inside hline, hnl, if_pos rfl, hreject]
      rfl
    · rw [if_neg hS] at hfirst
      exact scan_none hfirst (by rw [List.length_cons]; omega)

/-- The flash window holds a text and is erased behind it. -/
def Written (b : Board) (text : List Byte) : Prop := ∀ i, b.flash (FLASH_START + i) = text.getD i 0xff

theorem written_holds {b : Board} {before text : List Byte} (h : Written b (before ++ text)) :
    Holds b.flash before.length text := by
  intro i hi
  rw [Nat.add_assoc, h, List.getD_eq_getElem?_getD, List.getElem?_append_right (by omega), Nat.add_sub_cancel_left,
    List.getElem?_eq_getElem hi, Option.getD_some]

theorem written_erased {b : Board} {text : List Byte} (h : Written b text) {i : Nat} (hi : text.length ≤ i) :
    newline (b.flash (FLASH_START + i)) = false := by
  rw [h, List.getD_eq_getElem?_getD, List.getElem?_eq_none hi]
  rfl

/-- A text that the checker accepts and the loader loads is an image whose lines
both read alike. -/
theorem loaded_framed {b : Board} (hb : Responsive b) {initial : Nat → Byte} (hram : FaithfulRam b initial)
    {entry : Word} (hload : (load b passes).control = .done (some entry)) {before text : List Byte}
    (hwritten : Written b (before ++ text)) (hfits : (before ++ text).length ≤ FLASH_END - FLASH_START)
    {k : Nat} {rs : List srec_record} (hat : (load b k).At b before.length rs .start) {c cf : Check}
    (hc : Mirrors c rs) (hentry : c.entry = none) (hcheck : check_lines c (text_lines text) = some cf) :
    ∃ lines last, Framed rs text cf lines last := by
  obtain ⟨n', rs', last', hacc⟩ := load_accepted hload
  have hfailed {k' : Nat} (h : (load b k').control = .done none) : False := by
    rw [load_determined b h, h] at hload
    cases hload
  obtain ⟨m, rfl⟩ : ∃ m, n' = m + 1 := by
    refine Nat.exists_eq_succ_of_ne_zero fun hzero => ?_
    have himage := hacc.image.scan
    rw [hzero, scan, Option.some.injEq, Prod.mk.injEq] at himage
    exact List.cons_ne_nil _ _ (List.append_eq_nil_iff.mp himage.1.symm).2
  have hend := scan_newline hacc.image.scan
  induction hn : text.length using Nat.strong_induction_on generalizing before text c rs k with
  | _ n ih =>
    have hscan := hat.loading.scan
    rw [hat.control_eq] at hscan
    have hlater : before.length < m + 1 := by
      by_contra hle
      have hprefix := scan_prefix (Nat.le_of_not_lt hle) hacc.image.scan hscan
      have hbody := hat.loading.body last' ( hprefix.subset (by simp))
      have hends := hacc.image.last
      omega
    have hholds := written_holds hwritten
    obtain hplain | ⟨l, t, rest, rfl, hl, hsep⟩ := split_first text
    · exfalso
      by_cases hm : m < (before ++ text).length
      · rw [List.length_append] at hm
        have hbyte := hholds (m - before.length) (by omega)
        rw [Nat.add_assoc, Nat.add_sub_cancel' (by omega)] at hbyte
        rw [hbyte, hplain _ (List.getElem_mem _)] at hend
        cases hend
      · rw [written_erased hwritten (by omega)] at hend
        cases hend
    · obtain ⟨hline, hafter⟩ := holds_append.mp (by rw [List.append_assoc] at hholds; exact hholds)
      obtain ⟨d, tail, ht, hd, _⟩ := t.text_cons
      have hne : l ≠ [] := by
        rintro rfl
        rw [text_lines_cons (by simp) hsep, check_lines, check_line, if_neg (by simp [hentry])] at hcheck
        cases hcheck
      cases hparse : (srec_parse l).1 with
      | none =>
        exfalso
        have hnl : newline (b.flash (FLASH_START + (before.length + l.length))) = true := by
          rw [ht] at hafter
          rw [(holds_cons hafter).1]
          exact hd
        have hnone := scan_rejected hscan hline hl hne hnl hparse
        have hbefore : m < before.length + l.length := by
          by_contra hge
          have hmore := scan_none hnone (show before.length + l.length + 1 ≤ m + 1 by omega)
          rw [hacc.image.scan] at hmore
          cases hmore
        have hbyte := hline (m - before.length) (by omega)
        rw [Nat.add_assoc, Nat.add_sub_cancel' (by omega)] at hbyte
        rw [hbyte, hl _ (List.getElem_mem _)] at hend
        cases hend
      | some r =>
        obtain ⟨hlines, hbody, hlast⟩ := frame_step hc hentry hsep hparse hcheck
        have hbytes : Holds b.flash before.length (Line.bytes ⟨l, t, r, hparse⟩) := (holds_append.mp hholds).1
        have hsplit : before ++ (l ++ t.text ++ rest) = before ++ Line.bytes ⟨l, t, r, hparse⟩ ++ rest := by
          rw [Line.bytes, List.append_assoc before]
        have hroom : before.length + (Line.bytes ⟨l, t, r, hparse⟩).length ≤ FLASH_END - FLASH_START := by
          rw [hsplit, List.length_append, List.length_append] at hfits
          omega
        by_cases htype : r.type < 7
        · obtain ⟨c', hmirrors, hkept, hnext, _, _⟩ := hbody htype
          obtain ⟨hrun, hbad⟩ := run_line hb hram hat ⟨l, t, r, hparse⟩ htype hbytes hroom
          have hgood : Line.Good rs ⟨l, t, r, hparse⟩ := by
            by_contra hnot
            obtain ⟨k', hnone⟩ := hbad hnot
            rw [load, ← Function.iterate_add_apply] at hnone
            exact hfailed hnone
          obtain ⟨k', hat'⟩ := hrun hgood
          rw [load, ← Function.iterate_add_apply, ← List.length_append] at hat'
          have hshorter : rest.length < n := by
            rw [← hn, ht]
            simp only [List.length_append, List.length_cons]
            omega
          rw [hsplit] at hwritten hfits
          obtain ⟨lines, last, hframed⟩ := ih rest.length hshorter hwritten hfits hat' hmirrors hkept hnext rfl
          exact ⟨⟨l, t, r, hparse⟩ :: lines, last, hframed.cons (l := ⟨l, t, r, hparse⟩) htype hgood hlines⟩
        · have hends : 7 ≤ r.type := Nat.le_of_not_lt htype
          obtain ⟨rfl, hmirrors, hset⟩ := hlast hends
          have hlong : l.length ≠ line_size := by
            intro hfull
            obtain ⟨k', hnone⟩ := (run_last hb hat ⟨l, t, r, hparse⟩ hends hbytes hroom).2 fun h => h.1 hfull
            rw [load, ← Function.iterate_add_apply] at hnone
            exact hfailed hnone
          rw [List.append_nil] at hlines ⊢
          exact ⟨[], ⟨l, t, r, hparse⟩,
            Framed.single ⟨l, t, r, hparse⟩ hlines hends hlong hmirrors hset⟩

/-- The loader succeeds with this entry and leaves this memory in RAM and in the
shadow vectors, with all four vectors present. -/
structure Boots (b : Board) (entry : Nat) (memory : List (Nat × Byte)) : Prop where
  control : (load b passes).control = .done (some (BitVec.ofNat 32 entry))
  ram : ∀ a, RAM_START ≤ a → last_write (ram_history (load b passes).stores) a = last_write memory a
  vectors : ∀ a < vectors_size, (load b passes).vectors a = (last_write memory a).getD 0
  seen : vector_bytes.all (load b passes).seen = true

theorem verify_some {text : List Byte} {entry : Nat} {cf : Check} (h : verify text = some (entry, cf)) :
    check_lines ⟨[], none, 0⟩ (text_lines text) = some cf ∧ cf.entry = some entry ∧ entry % 4 = 0 ∧
      0x80000000 ≤ entry ∧ cf.has entry = true ∧ ∀ a ∈ vector_addresses, cf.has a = true := by
  unfold verify at h
  split at h
  · cases h
  · split at h
    · cases h
    next c hc =>
      split at h
      · cases h
      next e he =>
        split at h
        · cases h
        next hentry =>
          split at h
          · cases h
          next hvectors =>
            cases h
            simp only [Bool.or_eq_true, bne_iff_ne, decide_eq_true_eq, Bool.not_eq_true', not_or, not_not, Nat.not_lt,
              Bool.not_eq_false] at hentry
            refine ⟨hc, he, hentry.1.1, hentry.1.2, hentry.2, fun a ha => ?_⟩
            by_contra hmissing
            exact hvectors (List.any_eq_true.mpr ⟨a, ha, by simpa using hmissing⟩)

theorem start_mirrors : Mirrors ⟨[], none, 0⟩ [] := ⟨rfl, rfl, List.nodup_nil⟩

theorem has_supplied {c : Check} {rs : List srec_record} (h : Mirrors c rs) {a : Nat} (ha : c.has a = true) :
    Supplied rs a := by
  obtain ⟨w, hw, heq⟩ := List.any_eq_true.mp ha
  rw [h.memory] at hw
  exact (last_write_isSome _ _).mpr ⟨w, hw, by simpa using heq⟩

theorem Framed.placed {rs : List srec_record} {text : List Byte} {cf : Check} {lines : List Line} {last : Line}
    (h : Framed rs text cf lines last) {r : srec_record} (hr : r ∈ records lines) (hdata : is_data r = true) :
    in_vectors r = true ∨ in_ram r = true := by
  obtain ⟨before, after, hsplit⟩ := List.append_of_mem hr
  refine (((allGood_iff rs lines).mp h.good).2 before r ⟨after, ?_⟩).placed hdata
  rw [hsplit, List.append_assoc]
  rfl

/-- An image that both read alike boots. -/
theorem Framed.boots {text : List Byte} {entry : Nat} {cf : Check} {lines : List Line} {last : Line}
    (h : Framed [] text cf lines last) (hverify : verify text = some (entry, cf)) {b : Board} (hb : Responsive b)
    {initial : Nat → Byte} (hram : FaithfulRam b initial) (hwritten : Written b text)
    (hfits : text.length ≤ FLASH_END - FLASH_START) : Boots b entry cf.memory := by
  obtain ⟨_, hentry, halign, hlow, hhas, hvectors⟩ := verify_some hverify
  have hmirrors := h.mirrors
  rw [List.nil_append] at hmirrors
  rw [h.entry, Option.some.injEq] at hentry
  have hholds : Holds b.flash 0 (image_text (lines ++ [last])) := by
    have hflash : Written b ([] ++ text) := hwritten
    have hheld := written_holds hflash
    rwa [h.text_eq] at hheld
  have hsupplied := has_supplied hmirrors hhas
  obtain ⟨r, hr, hdata, hplace, hbelow, habove⟩ := supplied_ram (fun r hr => h.placed hr) hsupplied hlow
  rw [← hentry] at hbelow habove halign
  have hok : EntryOk (records lines) last.record.address := by
    refine ⟨⟨r, hr, hdata, hplace, hbelow⟩, ⟨r, hr, hdata, hplace, habove⟩, BitVec.eq_of_toNat_eq ?_⟩
    have hmask : (last.record.address &&& 3).toNat = last.record.address.toNat % 2 ^ 2 := by
      rw [BitVec.toNat_and]
      exact Nat.and_two_pow_sub_one_eq_mod _ 2
    rw [hmask]
    exact halign
  obtain ⟨hcontrol, hcontents⟩ := (load_lines hb hram h.body h.ends hholds (h.text_eq ▸ hfits)).1
    ⟨h.good, h.room, hok⟩
  refine ⟨?_, ?_, ?_, ?_⟩
  · rw [hcontrol, ← hentry, BitVec.ofNat_toNat, BitVec.setWidth_eq]
  · intro a ha
    rw [ram_effect hcontents ha, hmirrors.memory, effect]
  · intro a ha
    rw [hcontents.vectors a ha, hmirrors.memory, effect]
  · refine List.all_eq_true.mpr fun a ha => ?_
    rw [hcontents.seen a (vector_bytes_lt a ha)]
    exact has_supplied hmirrors (hvectors a ha)

theorem terminator_newline (t : Terminator) : ∀ c ∈ t.text, newline c = true := by
  cases t <;> decide

theorem permitted_of_placed {r : srec_record} (h : in_vectors r = true ∨ in_ram r = true) :
    permitted ⟨r.type, r.address.toNat, r.data⟩ = true := by
  rw [in_vectors_iff, in_ram_iff] at h
  rw [permitted_iff]
  omega

/-- An image that both read alike is plain. -/
theorem Framed.plain {text : List Byte} {cf : Check} {lines : List Line} {last : Line}
    (h : Framed [] text cf lines last) : Plain text := by
  have hline {line : List Byte} (hmem : line ∈ text_lines text) :
      ∃ l ∈ lines ++ [last], l.text = line ∧ l.text.length ≠ line_size := by
    rw [h.lines_eq] at hmem
    obtain ⟨l, hl, rfl⟩ := List.mem_map.mp hmem
    refine ⟨l, hl, rfl, ?_⟩
    obtain hbody | hlast := List.mem_append.mp hl
    · exact ((allGood_iff [] lines).mp h.good).1 l hbody
    · rw [List.mem_singleton.mp hlast]
      exact h.room
  have hread {l : Line} {p : Record} (hp : parse_line l.text = some p) :
      p = ⟨l.record.type, l.record.address.toNat, l.record.data⟩ := by
    rw [parse_line_accepted l.parses, Option.some.injEq] at hp
    exact hp.symm
  refine ⟨?_, ?_, ?_, ?_, ?_⟩
  · intro c hc hspace
    rw [h.text_eq, image_text] at hc
    obtain ⟨l, _, hcl⟩ := List.mem_flatMap.mp hc
    obtain htext | hend := List.mem_append.mp hcl
    · obtain ⟨hboundary, hnot⟩ := accepted_not_boundary l.parses c htext
      rw [hboundary, hnot] at hspace
      obtain hspace | hspace := hspace <;> cases hspace
    · exact terminator_newline l.terminator c hend
  · intro c hc
    have hlast : (image_text (lines ++ [last])).getLast? = last.terminator.text.getLast? := by
      rw [image_text, List.flatMap_append, List.flatMap_singleton, Line.bytes, List.getLast?_append,
        List.getLast?_append]
      cases last.terminator <;> rfl
    rw [h.text_eq, hlast] at hc
    exact terminator_newline last.terminator c (List.mem_of_getLast? hc)
  · intro line hmem
    obtain ⟨l, _, rfl, hroom⟩ := hline hmem
    exact hroom
  · intro line hmem p hp
    obtain ⟨l, _, rfl, _⟩ := hline hmem
    obtain ⟨w, values, hr⟩ := srec_parse_encodes l.parses
    have hlen := hr.length
    have hlt := hr.width_lt
    rw [hread hp]
    dsimp only
    rw [naddr_width hr.naddr]
    omega
  · intro line hmem p hp hone hthree
    obtain ⟨l, hl, rfl, _⟩ := hline hmem
    rw [hread hp] at hone hthree ⊢
    obtain ⟨w, values, hr⟩ := srec_parse_encodes l.parses
    have hdata := (data_kind hr.naddr).mpr ⟨hone, hthree⟩
    have hbody : l ∈ lines := by
      refine (List.mem_append.mp hl).resolve_right fun hlast => ?_
      have hends := h.ends
      rw [List.mem_singleton.mp hlast] at hthree
      dsimp only at hthree
      omega
    have hplaced := h.placed (List.mem_map_of_mem hbody) hdata
    exact (placed_iff (permitted_of_placed hplaced)).mp hplaced

theorem board_with_written (text : List Byte) : Written (board_with text) text := by
  intro i
  change text.getD (FLASH_START + i - FLASH_START) 0xff = _
  rw [Nat.add_sub_cancel_left]

/-- A text that the checker accepts and that boots on every board is plain. -/
theorem plain_of_boots {text : List Byte} {entry : Nat} {cf : Check} (hverify : verify text = some (entry, cf))
    (hfits : text.length ≤ FLASH_END - FLASH_START)
    (hboots : ∀ b initial, Responsive b → FaithfulRam b initial → Written b text → Boots b entry cf.memory) :
    Plain text := by
  obtain ⟨hcheck, _⟩ := verify_some hverify
  have hb : Responsive (board_with text) := fun polls => receive_ready _ 68 (by decide) polls
  have hram : FaithfulRam (board_with text) fun _ => 0 := fun _ _ => rfl
  have hload := (hboots _ _ hb hram (board_with_written text)).control
  have hwritten : Written (board_with text) ([] ++ text) := board_with_written text
  obtain ⟨lines, last, hframed⟩ :=
    loaded_framed hb hram hload hwritten hfits (k := 0) (init_at _) start_mirrors rfl hcheck
  exact hframed.plain

/-- A text that the checker accepts boots exactly if it is plain. -/
theorem checked_image_boots_iff (text : List Byte) (entry : Nat) (cf : Check) (hverify : verify text = some (entry, cf))
    (hfits : text.length ≤ FLASH_END - FLASH_START) :
    (∀ b initial, Responsive b → FaithfulRam b initial → Written b text → Boots b entry cf.memory) ↔ Plain text := by
  obtain ⟨hcheck, hentry, _⟩ := verify_some hverify
  constructor
  · exact plain_of_boots hverify hfits
  · intro hplain b initial hb hram hwritten
    obtain ⟨lines, last, hframed⟩ := plain_framed hplain start_mirrors rfl hcheck (by rw [hentry]; simp)
    exact hframed.boots hverify hb hram hwritten hfits

/-- `S12B0000`, forty zero bytes for the vectors and their checksum. -/
def vector_line : List Byte := [0x53, 0x31, 0x32, 0x42] ++ List.replicate 84 0x30 ++ [0x44, 0x34]

def code_line : List Byte := [0x53, 0x33, 0x30, 0x39, 0x38] ++ List.replicate 15 0x30 ++ [0x37, 0x36]

def entry_line : List Byte := [0x53, 0x37, 0x30, 0x35, 0x38] ++ List.replicate 7 0x30 ++ [0x37, 0x41]

/-- An image whose last line has no line end. -/
def unended_text : List Byte := vector_line ++ [0x0a] ++ code_line ++ [0x0a] ++ entry_line

def ended_text : List Byte := unended_text ++ [0x0a]

def sample_check : Check where
  memory := ((List.range 40).map fun a => (a, 0)) ++ (List.range 4).map fun a => (0x80000000 + a, 0)
  entry := some 0x80000000
  count := 2

theorem ended_text_plain : Plain ended_text := by
  have hlines : text_lines ended_text = [vector_line, code_line, entry_line] := by decide
  have hvector : parse_line vector_line = some ⟨1, 0, List.replicate 40 0⟩ := by decide
  have hcode : parse_line code_line = some ⟨3, 0x80000000, List.replicate 4 0⟩ := by decide
  have hentry : parse_line entry_line = some ⟨7, 0x80000000, []⟩ := by decide
  refine ⟨by decide, ?_, ?_, ?_, ?_⟩
  · intro c hc
    have hlast : ended_text.getLast? = some 0x0a := by decide
    rw [hlast, Option.some.injEq] at hc
    rw [← hc]
    decide
  · rw [hlines]
    decide
  · rw [hlines]
    intro line hline p hp
    simp only [List.mem_cons, List.not_mem_nil, or_false] at hline
    obtain rfl | rfl | rfl := hline
    · rw [hvector, Option.some.injEq] at hp
      rw [← hp]
      decide
    · rw [hcode, Option.some.injEq] at hp
      rw [← hp]
      decide
    · rw [hentry, Option.some.injEq] at hp
      rw [← hp]
      decide
  · rw [hlines]
    intro line hline p hp _ hkind hnil
    simp only [List.mem_cons, List.not_mem_nil, or_false] at hline
    obtain rfl | rfl | rfl := hline
    · rw [hvector, Option.some.injEq] at hp
      rw [← hp] at hnil
      cases hnil
    · rw [hcode, Option.some.injEq] at hp
      rw [← hp] at hnil
      cases hnil
    · rw [hentry, Option.some.injEq] at hp
      rw [← hp] at hkind
      exact absurd hkind (by decide)

theorem ended_text_boots :
    verify ended_text = some (0x80000000, sample_check) ∧ ended_text.length ≤ FLASH_END - FLASH_START ∧
      ∀ b initial, Responsive b → FaithfulRam b initial → Written b ended_text →
        Boots b 0x80000000 sample_check.memory := by
  have hverify : verify ended_text = some (0x80000000, sample_check) := by decide
  have hfits : ended_text.length ≤ FLASH_END - FLASH_START := by decide +kernel
  exact ⟨hverify, hfits, (checked_image_boots_iff _ _ _ hverify hfits).mpr ended_text_plain⟩

/-- Without the last line end the checker accepts the image and the loader reads
erased flash into the last line. -/
theorem unended_text_fails :
    verify unended_text = some (0x80000000, sample_check) ∧ unended_text.length ≤ FLASH_END - FLASH_START ∧
      ¬∀ b initial, Responsive b → FaithfulRam b initial → Written b unended_text →
        Boots b 0x80000000 sample_check.memory := by
  have hverify : verify unended_text = some (0x80000000, sample_check) := by decide
  have hfits : unended_text.length ≤ FLASH_END - FLASH_START := by decide +kernel
  refine ⟨hverify, hfits, fun hboots => ?_⟩
  have hlast : unended_text.getLast? = some 0x41 := by decide
  exact absurd ((plain_of_boots hverify hfits hboots).ended _ hlast) (by decide)

end scu35.verify_srec
