import Scu35Miner.Rfc8259.Reader

open radix

namespace rfc8259

theorem skip_white_cons {c : BitVec 8} (hc : white c = false) (s : List (BitVec 8)) :
    skip_white (c :: s) = c :: s := by
  rw [skip_white, hc]
  rfl

theorem skip_white_append {w : List (BitVec 8)} (hw : ∀ c ∈ w, white c = true) (s : List (BitVec 8)) :
    skip_white (w ++ s) = skip_white s := by
  induction w with
  | nil => rfl
  | cons c w ih =>
    rw [List.cons_append, skip_white, hw c (by simp), if_pos rfl]
    exact ih fun d hd => hw d (by simp [hd])

theorem read_string_plain {t : List (BitVec 8)} (ht : ∀ c ∈ t, plain c = true) (rest : List (BitVec 8)) :
    read_string (t ++ 0x22 :: rest) = some (t, rest) := by
  induction t with
  | nil => rfl
  | cons c t ih =>
    have hc := ht c (by simp)
    have hquote : c ≠ 0x22 := by
      rintro rfl
      cases hc
    rw [List.cons_append, read_string, if_neg hquote, if_pos hc, ih fun d hd => ht d (by simp [hd])]

/-- What may follow a value. -/
def Delimited (rest : List (BitVec 8)) : Prop :=
  ∀ c s, rest = c :: s → white c = true ∨ c = 0x2c ∨ c = 0x7d ∨ c = 0x5d

theorem delimited_nil : Delimited [] := fun c s h => by cases h

theorem delimited_cons {c : BitVec 8} (hc : white c = true ∨ c = 0x2c ∨ c = 0x7d ∨ c = 0x5d) (s : List (BitVec 8)) :
    Delimited (c :: s) := by
  rintro d t heq
  cases heq
  exact hc

/-- A number does not go on at a delimiter. -/
theorem Delimited.ends {rest : List (BitVec 8)} (h : Delimited rest) {c : BitVec 8} {s : List (BitVec 8)}
    (heq : rest = c :: s) : is_digit c = false ∧ c ≠ 0x2e ∧ c ≠ 0x65 ∧ c ≠ 0x45 := by
  have hwhite : ∀ c : BitVec 8, white c = true → is_digit c = false ∧ c ≠ 0x2e ∧ c ≠ 0x65 ∧ c ≠ 0x45 := by decide
  obtain hc | rfl | rfl | rfl := h c s heq
  · exact hwhite c hc
  all_goals decide

/-- A text that the reader takes for a value, up to white space after it. -/
structure Reads (s : List (BitVec 8)) (v : Value) : Prop where
  head : ∃ c t, s = c :: t ∧ white c = false ∧ c ≠ 0x5d
  reads : ∀ n rest, s.length ≤ n → Delimited rest →
    ∃ rest', read_value n (s ++ rest) = some (v, rest') ∧ skip_white rest' = skip_white rest

theorem Reads.loads {s : List (BitVec 8)} {v : Value} (h : Reads s v) : loads s = some v := by
  obtain ⟨rest, hread, hskip⟩ := h.reads (s.length + 1) [] (Nat.le_succ _) delimited_nil
  rw [List.append_nil] at hread
  rw [rfc8259.loads, hread]
  dsimp only
  rw [hskip]
  exact if_pos rfl

theorem Reads.white {s w : List (BitVec 8)} {v : Value} (h : Reads s v) (hw : ∀ c ∈ w, white c = true) :
    Reads (s ++ w) v := by
  constructor
  · obtain ⟨c, t, rfl, hc⟩ := h.head
    exact ⟨c, t ++ w, rfl, hc⟩
  · intro n rest hn hrest
    have hafter : Delimited (w ++ rest) := by
      cases w with
      | nil => exact hrest
      | cons c w => exact delimited_cons (.inl (hw c (by simp))) _
    rw [List.length_append] at hn
    obtain ⟨rest', hread, hskip⟩ := h.reads n (w ++ rest) (by omega) hafter
    refine ⟨rest', ?_, ?_⟩
    · rw [List.append_assoc]
      exact hread
    · rw [hskip, skip_white_append hw]

theorem reads_string {t : List (BitVec 8)} (ht : ∀ c ∈ t, plain c = true) : Reads (0x22 :: t ++ [0x22]) (.string t) := by
  refine ⟨⟨0x22, t ++ [0x22], rfl, rfl, by decide⟩, ?_⟩
  intro n rest hn _
  obtain ⟨n, rfl⟩ : ∃ m, n = m + 1 := Nat.exists_eq_succ_of_ne_zero (by rintro rfl; simp at hn)
  refine ⟨rest, ?_, rfl⟩
  have hstring := read_string_plain ht rest
  rw [List.append_assoc, List.cons_append, List.cons_append, List.nil_append, read_value, skip_white_cons rfl]
  simp only [BitVec.reduceEq, ↓reduceIte, hstring]

theorem reads_literal {s : List (BitVec 8)} {v : Value} {c : BitVec 8} {t : List (BitVec 8)} (hs : s = c :: t)
    (hc : white c = false) (hbrace : c ≠ 0x7b) (hbracket : c ≠ 0x5b ∧ c ≠ 0x5d) (hquote : c ≠ 0x22) (hminus : c ≠ 0x2d)
    (hdigit : is_digit c = false) (hliteral : ∀ rest, read_literal (s ++ rest) = some (v, rest)) : Reads s v := by
  subst hs
  refine ⟨⟨c, t, rfl, hc, hbracket.2⟩, ?_⟩
  intro n rest hn _
  obtain ⟨n, rfl⟩ : ∃ m, n = m + 1 := Nat.exists_eq_succ_of_ne_zero (by rintro rfl; simp at hn)
  refine ⟨rest, ?_, rfl⟩
  rw [List.cons_append, read_value, skip_white_cons hc]
  simp only [hbrace, hbracket.1, hquote, hminus, hdigit, ↓reduceIte, Bool.false_eq_true]
  exact hliteral rest

theorem reads_null : Reads [0x6e, 0x75, 0x6c, 0x6c] .null :=
  reads_literal rfl rfl (by decide) (by decide) (by decide) (by decide) (by decide) fun _ => rfl

theorem reads_true : Reads [0x74, 0x72, 0x75, 0x65] (.bool true) :=
  reads_literal rfl rfl (by decide) (by decide) (by decide) (by decide) (by decide) fun _ => rfl

theorem reads_false : Reads [0x66, 0x61, 0x6c, 0x73, 0x65] (.bool false) :=
  reads_literal rfl rfl (by decide) (by decide) (by decide) (by decide) (by decide) fun _ => rfl

theorem is_digit_digitChar (d : Fin 10) : is_digit (digitChar d) = true := by
  revert d
  decide

/-- Digits without superfluous zeros in front. -/
def Canonical (digits : List (Fin 10)) : Prop := digits ≠ [] ∧ (digits.head? = some 0 → digits = [0])

theorem digits_value_text (digits : List (Fin 10)) : digits_value (digitText digits) = decValue digits := by
  induction digits using List.reverseRecOn with
  | nil => rfl
  | append_singleton digits d ih =>
    rw [digitText_append, decValue_concat, ← ih, digits_value, List.foldl_append]
    change _ * 10 + ((digitChar d).toNat - 0x30) = _
    rw [digitChar_toNat, Nat.add_sub_cancel_left]
    rfl

theorem span_digits (digits : List (Fin 10)) {rest : List (BitVec 8)} (hrest : Delimited rest) :
    (digitText digits ++ rest).takeWhile is_digit = digitText digits ∧
      (digitText digits ++ rest).dropWhile is_digit = rest := by
  have hall : ∀ c ∈ digitText digits, is_digit c = true := by
    intro c hc
    obtain ⟨d, _, rfl⟩ := List.mem_map.mp hc
    exact is_digit_digitChar d
  have hstop : rest.takeWhile is_digit = [] ∧ rest.dropWhile is_digit = rest := by
    cases rest with
    | nil => exact ⟨rfl, rfl⟩
    | cons c s =>
      have hc : ¬is_digit c = true := by
        rw [(hrest.ends rfl).1]
        decide
      exact ⟨List.takeWhile_cons_of_neg hc, List.dropWhile_cons_of_neg hc⟩
  rw [List.takeWhile_append_of_pos hall, List.dropWhile_append_of_pos hall, hstop.1, hstop.2, List.append_nil]
  exact ⟨rfl, rfl⟩

theorem read_fraction_delimited {rest : List (BitVec 8)} (hrest : Delimited rest) :
    read_fraction rest = some ([], rest) := by
  cases rest with
  | nil => rfl
  | cons c s =>
    rw [read_fraction, if_neg (hrest.ends rfl).2.1]

theorem read_exponent_delimited {rest : List (BitVec 8)} (hrest : Delimited rest) :
    read_exponent rest = some ([], rest) := by
  cases rest with
  | nil => rfl
  | cons c s =>
    obtain ⟨_, _, hlower, hupper⟩ := hrest.ends rfl
    rw [read_exponent, if_neg (not_or.mpr ⟨hlower, hupper⟩)]

theorem read_number_digits (negative : Bool) {digits : List (Fin 10)} (h : Canonical digits)
    {rest : List (BitVec 8)} (hrest : Delimited rest) :
    read_number negative (digitText digits ++ rest) =
      some (.int (if negative then -decValue digits else decValue digits), rest) := by
  obtain ⟨htake, hdrop⟩ := span_digits digits hrest
  have hnil : ¬digitText digits = [] := fun hnil => h.1 (List.map_eq_nil_iff.mp hnil)
  have hzero : ¬((digitText digits).head? = some 0x30 ∧ (digitText digits).length ≠ 1) := by
    rintro ⟨hhead, hlen⟩
    cases digits with
    | nil => exact h.1 rfl
    | cons d digits =>
      have hd : d = 0 := digitChar_injective (Option.some.inj hhead)
      have hone := h.2 (by rw [hd]; rfl)
      rw [hone] at hlen
      exact hlen rfl
  rw [read_number, htake, hdrop, digits_value_text, read_fraction_delimited hrest]
  dsimp only
  rw [read_exponent_delimited hrest]
  rw [if_neg (by simpa [hnil] using hzero)]
  rfl

theorem reads_digits {digits : List (Fin 10)} (h : Canonical digits) :
    Reads (digitText digits) (.int (decValue digits)) := by
  obtain ⟨d, ds, rfl⟩ : ∃ d ds, digits = d :: ds := List.exists_cons_of_ne_nil h.1
  have hplain : ∀ d : Fin 10, white (digitChar d) = false ∧ digitChar d ≠ 0x5d ∧ digitChar d ≠ 0x7b ∧
      digitChar d ≠ 0x5b ∧ digitChar d ≠ 0x22 ∧ digitChar d ≠ 0x2d := by decide
  obtain ⟨hwhite, hclose, hbrace, hbracket, hquote, hminus⟩ := hplain d
  refine ⟨⟨digitChar d, digitText ds, rfl, hwhite, hclose⟩, ?_⟩
  intro n rest hn hrest
  obtain ⟨n, rfl⟩ : ∃ m, n = m + 1 := Nat.exists_eq_succ_of_ne_zero (by rintro rfl; simp [digitText] at hn)
  refine ⟨rest, ?_, rfl⟩
  have hnumber := read_number_digits false h hrest
  rw [digitText_cons, List.cons_append] at hnumber ⊢
  rw [read_value, skip_white_cons hwhite]
  simp only [hbrace, hbracket, hquote, hminus, is_digit_digitChar, ↓reduceIte]
  exact hnumber

theorem reads_negative {digits : List (Fin 10)} (h : Canonical digits) :
    Reads (0x2d :: digitText digits) (.int (-decValue digits)) := by
  refine ⟨⟨0x2d, digitText digits, rfl, rfl, by decide⟩, ?_⟩
  intro n rest hn hrest
  obtain ⟨n, rfl⟩ : ∃ m, n = m + 1 := Nat.exists_eq_succ_of_ne_zero (by rintro rfl; simp at hn)
  refine ⟨rest, ?_, rfl⟩
  have hnumber := read_number_digits true h hrest
  rw [List.cons_append, read_value, skip_white_cons rfl]
  simp only [BitVec.reduceEq, ↓reduceIte]
  exact hnumber

/-- A member of an object: its key, the text of its value, and the value. -/
structure Member where
  key : List (BitVec 8)
  text : List (BitVec 8)
  value : Value

/-- A member whose text is read as its value. -/
structure Member.Sound (m : Member) : Prop where
  key : ∀ c ∈ m.key, plain c = true
  reads : Reads m.text m.value

def Member.bytes (m : Member) : List (BitVec 8) := 0x22 :: m.key ++ 0x22 :: 0x3a :: m.text

/-- Members with commas between them. -/
def members_text : List Member → List (BitVec 8)
  | [] => []
  | [m] => m.bytes
  | m :: ms => m.bytes ++ 0x2c :: members_text ms

theorem read_key_text {key : List (BitVec 8)} (hkey : ∀ c ∈ key, plain c = true) (rest : List (BitVec 8)) :
    read_key (0x22 :: (key ++ 0x22 :: 0x3a :: rest)) = some (key, rest) := by
  rw [read_key, skip_white_cons rfl]
  dsimp only
  rw [if_pos rfl, read_string_plain hkey]
  dsimp only
  rw [skip_white_cons rfl]
  exact if_pos rfl

/-- A member and the character after it. -/
theorem read_members_step {m : Member} (hm : m.Sound) {n : Nat} (hn : m.text.length ≤ n) {c : BitVec 8}
    (hwhite : white c = false) (hc : c = 0x2c ∨ c = 0x7d) (after : List (BitVec 8)) :
    read_members (n + 1) (m.bytes ++ c :: after) =
      if c = 0x2c then
        match read_members n after with
        | some (ms, rest) => some ((m.key, m.value) :: ms, rest)
        | none => none
      else if c = 0x7d then some ([(m.key, m.value)], after)
      else none := by
  have hbytes : m.bytes ++ c :: after = 0x22 :: (m.key ++ 0x22 :: 0x3a :: (m.text ++ c :: after)) := by
    simp [Member.bytes]
  have hdelimited : white c = true ∨ c = 0x2c ∨ c = 0x7d ∨ c = 0x5d := .inr (hc.imp_right .inl)
  obtain ⟨rest', hread, hskip⟩ := hm.reads.reads n (c :: after) hn (delimited_cons hdelimited after)
  rw [hbytes, read_members, read_key_text hm.key]
  dsimp only
  rw [hread]
  dsimp only
  rewrite [hskip, skip_white_cons hwhite]
  rfl

theorem read_members_text {ms : List Member} (hne : ms ≠ []) (h : ∀ m ∈ ms, m.Sound) {n : Nat}
    (hn : (members_text ms).length < n) (rest : List (BitVec 8)) :
    read_members n (members_text ms ++ 0x7d :: rest) = some (ms.map fun m => (m.key, m.value), rest) := by
  induction ms generalizing n with
  | nil => exact absurd rfl hne
  | cons m ms ih =>
    obtain ⟨n, rfl⟩ : ∃ k, n = k + 1 := Nat.exists_eq_succ_of_ne_zero (by omega)
    have hm := h m (by simp)
    cases ms with
    | nil =>
      have hlen : m.text.length ≤ n := by
        simp only [members_text, Member.bytes, List.length_append, List.length_cons] at hn
        omega
      rw [members_text, read_members_step hm hlen rfl (.inr rfl), if_neg (by decide), if_pos rfl]
      rfl
    | cons m' ms =>
      have htext : members_text (m :: m' :: ms) = m.bytes ++ 0x2c :: members_text (m' :: ms) := rfl
      have hlen : (members_text (m' :: ms)).length < n ∧ m.text.length ≤ n := by
        rw [htext, List.length_append, List.length_cons] at hn
        simp only [Member.bytes, List.length_append, List.length_cons] at hn
        omega
      have hrest := ih (by simp) (fun q hq => h q (List.mem_cons_of_mem m hq)) hlen.1
      rw [htext, List.append_assoc, List.cons_append, read_members_step hm hlen.2 rfl (.inl rfl), if_pos rfl, hrest]
      rfl

def object_text (ms : List Member) : List (BitVec 8) := 0x7b :: members_text ms ++ [0x7d]

/-- An object reads as its members do. -/
theorem reads_object {ms : List Member} (hne : ms ≠ []) (h : ∀ m ∈ ms, m.Sound) :
    Reads (object_text ms) (.object (ms.map fun m => (m.key, m.value))) := by
  refine ⟨⟨0x7b, members_text ms ++ [0x7d], rfl, rfl, by decide⟩, ?_⟩
  intro n rest hn _
  obtain ⟨n, rfl⟩ : ∃ k, n = k + 1 := Nat.exists_eq_succ_of_ne_zero (by rintro rfl; simp [object_text] at hn)
  have hlen : (members_text ms).length < n := by
    simp only [object_text, List.length_append, List.length_cons, List.length_nil] at hn
    omega
  have hread := read_members_text hne h hlen rest
  have hstart : ∃ s, members_text ms = 0x22 :: s := by
    match ms, hne with
    | [m], _ => exact ⟨_, rfl⟩
    | m :: m' :: ms, _ => exact ⟨_, rfl⟩
  obtain ⟨s, hs⟩ := hstart
  refine ⟨rest, ?_, rfl⟩
  rw [hs, List.cons_append] at hread
  rw [object_text, List.append_assoc, List.cons_append, List.singleton_append, read_value, skip_white_cons rfl, hs,
    List.cons_append]
  dsimp only
  rw [if_pos rfl, skip_white_cons rfl, hread]
  exact if_neg fun hhead => absurd (Option.some.inj hhead) (by decide)

/-- An element of an array: its text and its value. -/
structure Element where
  text : List (BitVec 8)
  value : Value

def elements_text : List Element → List (BitVec 8)
  | [] => []
  | [e] => e.text
  | e :: es => e.text ++ 0x2c :: elements_text es

/-- An element and the character after it. -/
theorem read_elements_step {e : Element} (he : Reads e.text e.value) {n : Nat} (hn : e.text.length ≤ n) {c : BitVec 8}
    (hwhite : white c = false) (hc : c = 0x2c ∨ c = 0x5d) (after : List (BitVec 8)) :
    read_elements (n + 1) (e.text ++ c :: after) =
      if c = 0x2c then
        match read_elements n after with
        | some (vs, rest) => some (e.value :: vs, rest)
        | none => none
      else if c = 0x5d then some ([e.value], after)
      else none := by
  have hdelimited : white c = true ∨ c = 0x2c ∨ c = 0x7d ∨ c = 0x5d := .inr (hc.imp_right .inr)
  obtain ⟨rest', hread, hskip⟩ := he.reads n (c :: after) hn (delimited_cons hdelimited after)
  rw [read_elements, hread]
  dsimp only
  rewrite [hskip, skip_white_cons hwhite]
  rfl

theorem read_elements_text {es : List Element} (hne : es ≠ []) (h : ∀ e ∈ es, Reads e.text e.value) {n : Nat}
    (hn : (elements_text es).length < n) (rest : List (BitVec 8)) :
    read_elements n (elements_text es ++ 0x5d :: rest) = some (es.map Element.value, rest) := by
  induction es generalizing n with
  | nil => exact absurd rfl hne
  | cons e es ih =>
    obtain ⟨n, rfl⟩ : ∃ k, n = k + 1 := Nat.exists_eq_succ_of_ne_zero (by omega)
    have he := h e (by simp)
    cases es with
    | nil =>
      have hlen : e.text.length ≤ n := Nat.lt_succ_iff.mp hn
      rw [elements_text, read_elements_step he hlen rfl (.inr rfl), if_neg (by decide), if_pos rfl]
      rfl
    | cons e' es =>
      have htext : elements_text (e :: e' :: es) = e.text ++ 0x2c :: elements_text (e' :: es) := rfl
      have hlen : (elements_text (e' :: es)).length < n ∧ e.text.length ≤ n := by
        rw [htext, List.length_append, List.length_cons] at hn
        omega
      have hrest := ih (by simp) (fun q hq => h q (List.mem_cons_of_mem e hq)) hlen.1
      rw [htext, List.append_assoc, List.cons_append, read_elements_step he hlen.2 rfl (.inl rfl), if_pos rfl, hrest]
      rfl

def array_text (es : List Element) : List (BitVec 8) := 0x5b :: elements_text es ++ [0x5d]

/-- An array reads as its elements do. -/
theorem reads_array {es : List Element} (hne : es ≠ []) (h : ∀ e ∈ es, Reads e.text e.value) :
    Reads (array_text es) (.array (es.map Element.value)) := by
  refine ⟨⟨0x5b, elements_text es ++ [0x5d], rfl, rfl, by decide⟩, ?_⟩
  intro n rest hn _
  obtain ⟨n, rfl⟩ : ∃ k, n = k + 1 := Nat.exists_eq_succ_of_ne_zero (by rintro rfl; simp [array_text] at hn)
  have hlen : (elements_text es).length < n := by
    simp only [array_text, List.length_append, List.length_cons, List.length_nil] at hn
    omega
  have hread := read_elements_text hne h hlen rest
  have hstart : ∃ c s, elements_text es = c :: s ∧ white c = false ∧ c ≠ 0x5d := by
    match es, hne with
    | [e], _ => exact (h e (by simp)).head
    | e :: e' :: es, _ =>
      obtain ⟨c, t, hs, hc⟩ := (h e (by simp)).head
      exact ⟨c, t ++ 0x2c :: elements_text (e' :: es), congrArg (· ++ 0x2c :: elements_text (e' :: es)) hs, hc⟩
  obtain ⟨c, s, hs, hwhite, hclose⟩ := hstart
  refine ⟨rest, ?_, rfl⟩
  rw [hs, List.cons_append] at hread
  rw [array_text, List.append_assoc, List.cons_append, List.singleton_append, read_value, skip_white_cons rfl, hs,
    List.cons_append]
  dsimp only
  rw [if_neg (by decide), if_pos rfl, skip_white_cons hwhite, hread]
  exact if_neg fun hhead => hclose (Option.some.inj hhead)

/-- The value of a key that occurs once. -/
theorem get_of_mem {ms : List (List (BitVec 8) × Value)} (hkeys : (ms.map (·.1)).Nodup) {key : List (BitVec 8)}
    {v : Value} (h : (key, v) ∈ ms) : (Value.object ms).get key = some v := by
  have hsome : ∃ m, ms.reverse.find? (·.1 == key) = some m := by
    rw [← Option.isSome_iff_exists, List.find?_isSome]
    exact ⟨(key, v), List.mem_reverse.mpr h, beq_self_eq_true key⟩
  obtain ⟨m, hm⟩ := hsome
  have hkey : m.1 = key := by simpa using List.find?_some hm
  have hmem := List.mem_reverse.mp (List.mem_of_find?_eq_some hm)
  have heq : m = (key, v) := List.inj_on_of_nodup_map hkeys hmem h hkey
  rw [Value.get, hm, heq]
  rfl

theorem get_of_not_mem {ms : List (List (BitVec 8) × Value)} {key : List (BitVec 8)} (h : key ∉ ms.map (·.1)) :
    (Value.object ms).get key = none := by
  have hnone : ms.reverse.find? (·.1 == key) = none := by
    rw [List.find?_eq_none]
    intro m hm heq
    exact h (List.mem_map.mpr ⟨m, List.mem_reverse.mp hm, by simpa using heq⟩)
  rw [Value.get, hnone]
  rfl

end rfc8259
