import Scu35Miner.Software.Srec

open fips180 radix

namespace scu35.srec

/-- The address width of a record type. -/
def Width (type width : Nat) : Prop :=
  type ∈ [0, 1, 5, 9] ∧ width = 2 ∨ type ∈ [2, 6, 8] ∧ width = 3 ∨ type ∈ [3, 7] ∧ width = 4

/-- A line that is an S-record: the letter, a type digit, and the hexadecimal
digits of a count and that many bytes. These are the address, the data and a
byte that makes the sum of all, the count included, 255 modulo 256. -/
structure srec_record.Format (r : srec_record) (line : List Byte) (width : Nat) (n : Byte) (values : List Byte) :
    Prop where
  type : Width r.type width
  text : ∃ chars, line = 0x53 :: BitVec.ofNat 8 (0x30 + r.type) :: chars ∧ hex_values chars = some (n :: values)
  count : n.toNat = values.length
  room : width + 1 ≤ n.toNat
  bare : 5 ≤ r.type → n.toNat = width + 1
  checksum : (n.toNat + byte_sum values) % 256 = 255
  address : r.address.toNat = beValue (values.take width)
  data : r.data = (values.drop width).take (values.length - 1 - width)

theorem naddr_iff (type width : Nat) : naddr type = some width ↔ Width type width := by
  constructor
  · intro h
    unfold naddr at h
    split at h
    all_goals first | (cases h; unfold Width; decide) | cases h
  · rintro (⟨htype, rfl⟩ | ⟨htype, rfl⟩ | ⟨htype, rfl⟩)
    all_goals
      simp only [List.mem_cons, List.not_mem_nil, or_false] at htype
    · obtain rfl | rfl | rfl | rfl := htype <;> rfl
    · obtain rfl | rfl | rfl := htype <;> rfl
    · obtain rfl | rfl := htype <;> rfl

/-- Records that end or count an image have no data. -/
theorem srec_parse_bare {line : List Byte} {r : srec_record} (h : (srec_parse line).1 = some r) (hfive : 5 ≤ r.type) :
    r.data = [] := by
  obtain ⟨width, values, henc⟩ := srec_parse_encodes h
  unfold srec_parse at h
  simp only at h
  split at h
  · cases h
  · split at h
    next width' count hwidth hcount =>
      split at h
      · cases h
      · split at h
        · cases h
        next hbare =>
          split at h
          · cases h
          next hok =>
            simp only [Option.ite_none_right_eq_some, Option.some.injEq] at h
            obtain ⟨_, rfl⟩ := h
            have hlen : count = values.length := Option.some.inj (hcount.symm.trans henc.count)
            have hsame : width' = width := Option.some.inj (hwidth.symm.trans henc.naddr)
            simp only [Bool.and_eq_true, decide_eq_true_eq, bne_iff_ne, not_and, not_not] at hbare
            have hnone := hbare hfive
            rw [henc.data]
            apply List.eq_nil_of_length_eq_zero
            simp only [List.length_take, List.length_drop]
            omega
    next => cases h

/-- A line is accepted exactly if it is an S-record, and then parsed as it. -/
theorem srec_parse_iff (line : List Byte) (r : srec_record) :
    (srec_parse line).1 = some r ↔ ∃ width count values, r.Format line width count values := by
  constructor
  · intro h
    obtain ⟨width, values, henc⟩ := srec_parse_encodes h
    have hcount := byte_lt henc.count
    have htoNat : (BitVec.ofNat 8 values.length).toNat = values.length := by
      rw [BitVec.toNat_ofNat]
      exact Nat.mod_eq_of_lt hcount
    have hlt := henc.width_lt
    have hlength := henc.length
    match line, henc, hlength with
    | a :: b :: chars, henc, hlength =>
      have hchars : hex_values chars = some (BitVec.ofNat 8 values.length :: values) := by
        refine hex_values_of_bytes ?_ ?_
        · simp only [List.length_cons] at hlength ⊢
          omega
        · intro i hi
          cases i with
          | zero =>
            rw [List.getElem_cons_zero, htoNat]
            exact henc.count
          | succ i =>
            have hbyte := henc.bytes i (by simpa using hi)
            rwa [Nat.add_comm 4, show 2 * i + 4 = 2 * (i + 1) + 2 by omega, byte_cons_cons] at hbyte
      have hbare : 5 ≤ r.type → values.length = width + 1 := by
        intro hfive
        have hnil := srec_parse_bare h hfive
        rw [henc.data] at hnil
        have hzero := congrArg List.length hnil
        simp only [List.length_take, List.length_drop, List.length_nil] at hzero
        omega
      have htype : b = BitVec.ofNat 8 (0x30 + r.type) := by
        rw [← henc.type.2]
        exact (BitVec.ofNat_toNat 8 b).symm.trans (by rfl)
      refine ⟨width, BitVec.ofNat 8 values.length, values, (naddr_iff _ _).mp henc.naddr, ⟨chars, ?_, hchars⟩, htoNat,
        by omega, ?_, ?_, henc.address, henc.data⟩
      · rw [← htype]
        exact congrArg (· :: b :: chars) henc.type.1
      · rw [htoNat]
        exact hbare
      · rw [htoNat]
        exact henc.checksum
  · rintro ⟨width, n, values, hformat⟩
    obtain ⟨chars, rfl, hchars⟩ := hformat.text
    have hcount := hformat.count
    have hroom := hformat.room
    have hsum := hformat.checksum
    rw [hcount] at hsum
    have hencodes := encodes_of_values hchars hcount ((naddr_iff _ _).mpr hformat.type) (by omega) hsum
    have haddress : BitVec.ofNat 32 (beValue (values.take width)) = r.address := by
      rw [← hformat.address, BitVec.ofNat_toNat, BitVec.setWidth_eq]
    rw [haddress, ← hformat.data] at hencodes
    refine srec_parse_of_encodes hencodes fun hfive => ?_
    have hbare := hformat.bare hfive
    change r.data = []
    rw [hformat.data]
    apply List.eq_nil_of_length_eq_zero
    simp only [List.length_take, List.length_drop]
    omega

def hex_char (v : Nat) : Byte := if v < 10 then BitVec.ofNat 8 (0x30 + v) else BitVec.ofNat 8 (0x37 + v)

def hex_text (values : List Byte) : List Byte :=
  values.flatMap fun b : Byte => [hex_char (b.toNat / 16), hex_char (b.toNat % 16)]

theorem hex_values_text (values : List Byte) : hex_values (hex_text values) = some values := by
  have hchar : ∀ v < 16, hex (hex_char v) = some v := by decide
  induction values with
  | nil => rfl
  | cons b values ih =>
    have hb := b.isLt
    have hhigh := hchar (b.toNat / 16) (by omega)
    have hlow := hchar (b.toNat % 16) (by omega)
    have hvalue : b.toNat / 16 * 16 + b.toNat % 16 = b.toNat := by omega
    change hex_values (hex_char (b.toNat / 16) :: hex_char (b.toNat % 16) :: hex_text values) = _
    rw [hex_values, hhigh, hlow, ih]
    dsimp only
    rw [hvalue, BitVec.ofNat_toNat, BitVec.setWidth_eq]

/-- The bytes of a record before its checksum. -/
def srec_record.payload (r : srec_record) (width : Nat) : List Byte := beDigits 8 width r.address.toNat ++ r.data

/-- The byte that completes the sum. -/
def checksum (payload : List Byte) : Byte := BitVec.ofNat 8 (255 - (payload.length + 1 + byte_sum payload) % 256)

/-- The canonical line of a record with an address of `width` bytes. -/
def srec_record.encode (r : srec_record) (width : Nat) : List Byte :=
  0x53 :: BitVec.ofNat 8 (0x30 + r.type) ::
    hex_text (BitVec.ofNat 8 ((r.payload width).length + 1) :: (r.payload width ++ [checksum (r.payload width)]))

/-- A record that a line can hold. -/
structure srec_record.Encodable (r : srec_record) (width : Nat) : Prop where
  type : Width r.type width
  address : r.address.toNat < 2 ^ (8 * width)
  data : width + r.data.length + 1 ≤ 255
  bare : 5 ≤ r.type → r.data = []

/-- The canonical line of a record is parsed as that record. -/
theorem srec_parse_encode {r : srec_record} {width : Nat} (h : r.Encodable width) :
    (srec_parse (r.encode width)).1 = some r := by
  have hlen : (r.payload width).length = width + r.data.length := by simp [srec_record.payload]
  have hdata := h.data
  have hcount : (BitVec.ofNat 8 ((r.payload width).length + 1)).toNat = (r.payload width).length + 1 := by
    rw [BitVec.toNat_ofNat]
    exact Nat.mod_eq_of_lt (by omega)
  have hsum : byte_sum (r.payload width ++ [checksum (r.payload width)]) =
      byte_sum (r.payload width) + (255 - ((r.payload width).length + 1 + byte_sum (r.payload width)) % 256) := by
    have hlt : 255 - ((r.payload width).length + 1 + byte_sum (r.payload width)) % 256 < 2 ^ 8 := by omega
    simp only [byte_sum, List.map_append, List.sum_append, List.map_singleton, List.sum_singleton, checksum,
      BitVec.toNat_ofNat]
    rw [← byte_sum, Nat.mod_eq_of_lt hlt]
  have htake : (r.payload width ++ [checksum (r.payload width)]).take width = beDigits 8 width r.address.toNat := by
    rw [srec_record.payload, List.append_assoc, List.take_left' (beDigits_length _ _)]
  have hdrop : ((r.payload width ++ [checksum (r.payload width)]).drop width).take r.data.length = r.data := by
    rw [srec_record.payload, List.append_assoc, List.drop_left' (beDigits_length _ _), List.take_left' rfl]
  refine (srec_parse_iff _ _).mpr ⟨width, BitVec.ofNat 8 ((r.payload width).length + 1),
    r.payload width ++ [checksum (r.payload width)], h.type, ⟨_, rfl, hex_values_text _⟩, ?_, ?_, ?_, ?_, ?_, ?_⟩
  · rw [hcount, List.length_append, List.length_singleton]
  · omega
  · intro hfive
    have hnil := h.bare hfive
    rw [hcount, hlen, hnil]
    rfl
  · rw [hcount, hsum]
    omega
  · rw [htake, beValue_beDigits h.address]
  · have hsize : (r.payload width ++ [checksum (r.payload width)]).length - 1 - width = r.data.length := by
      rw [List.length_append, List.length_singleton]
      omega
    rw [hsize, hdrop]

/-- `byte(line + i)` with checked reads; `none` is a read outside the line. -/
def byte_checked (text : List Byte) (i : Nat) : Option (Option Nat) :=
  match text[i]?, text[i + 1]? with
  | some a, some b =>
    match hex a, hex b with
    | some a, some b => some (some (a * 16 + b))
    | _, _ => some none
  | _, _ => none

def parse_byte_checked (text : List Byte) (naddr count : Nat) (p : Parse) (i : Nat) : Option Parse :=
  if p.failed then some p
  else
    match byte_checked text (4 + 2 * i) with
    | none => none
    | some none => some { p with failed := true }
    | some (some value) =>
      let p := { p with sum := p.sum + value }
      if i < naddr then some { p with address := (p.address <<< 8) ||| BitVec.ofNat 32 value }
      else if i < count - 1 then
        some { p with data := p.data ++ [BitVec.ofNat 8 value], writes := p.writes ++ [i - naddr] }
      else some p

/-- `srec_parse` with checked reads: `none` as soon as one is outside the line. -/
def srec_parse_checked (text : List Byte) : Option (Option srec_record × List Nat) :=
  if text.length < 4 then some (none, [])
  else
    match text[0]? with
    | none => none
    | some s =>
      if s != 0x53 then some (none, [])
      else
        match text[1]? with
        | none => none
        | some c =>
          if c < 0x30 || c > 0x39 then some (none, [])
          else
            match naddr (c.toNat - 0x30) with
            | none => some (none, [])
            | some naddr =>
              match byte_checked text 2 with
              | none => none
              | some none => some (none, [])
              | some (some count) =>
                if count < naddr + 1 || text.length != 4 + 2 * count then some (none, [])
                else if 5 ≤ c.toNat - 0x30 && count - naddr - 1 != 0 then some (none, [])
                else
                  match (List.range count).foldlM (parse_byte_checked text naddr count) ⟨0, [], count, [], false⟩ with
                  | none => none
                  | some p =>
                    if p.failed then some (none, p.writes)
                    else some (if p.sum % 256 = 255 then some ⟨p.address, p.data, c.toNat - 0x30⟩ else none, p.writes)

theorem byte_checked_inside {text : List Byte} {i : Nat} (h : i + 1 < text.length) :
    byte_checked text i = some (byte text i) := by
  have hi : i < text.length := by omega
  have hget (k : Nat) (hk : k < text.length) : text.getD k 0 = text[k] := by simp [hk]
  rw [byte_checked, byte, List.getElem?_eq_getElem hi, List.getElem?_eq_getElem h, hget i hi, hget (i + 1) h]
  dsimp only
  cases hex text[i] with
  | none => rfl
  | some a => cases hex text[i + 1] <;> rfl

theorem parse_byte_checked_inside {text : List Byte} {naddr count i : Nat} (p : Parse)
    (h : 5 + 2 * i < text.length) :
    parse_byte_checked text naddr count p i = some (parse_byte text naddr count p i) := by
  unfold parse_byte_checked parse_byte
  split
  · rfl
  · rw [byte_checked_inside (by omega)]
    cases byte text (4 + 2 * i) with
    | none => rfl
    | some value =>
      dsimp only
      split
      · rfl
      · split <;> rfl

theorem parse_bytes_checked_inside {text : List Byte} {naddr count n : Nat} (p : Parse) (h : 4 + 2 * n ≤ text.length) :
    (List.range n).foldlM (parse_byte_checked text naddr count) p =
      some ((List.range n).foldl (parse_byte text naddr count) p) := by
  induction n with
  | zero => rfl
  | succ n ih =>
    rw [List.range_succ, List.foldlM_append, ih (by omega), List.foldl_append]
    change (parse_byte_checked text naddr count _ n >>= fun p => some p) = _
    rw [parse_byte_checked_inside _ (by omega)]
    rfl

/-- No read of `srec_parse` is outside the line. -/
theorem srec_parse_reads_inside (text : List Byte) : srec_parse_checked text = some (srec_parse text) := by
  unfold srec_parse_checked srec_parse
  dsimp only
  by_cases hshort : text.length < 4
  · rw [if_pos hshort, if_pos (by simp [hshort])]
  · have hget (k : Nat) (hk : k < 4) : text[k]? = some (text.getD k 0) := by
      have hlt : k < text.length := by omega
      simp [hlt]
    rw [if_neg hshort, hget 0 (by decide), hget 1 (by decide), byte_checked_inside (by omega)]
    dsimp only
    by_cases hletter : (text.getD 0 0 != 0x53) = true
    · rw [if_pos hletter, if_pos (by simp only [hletter, Bool.or_true, Bool.true_or])]
    · by_cases hdigit : (text.getD 1 0 < 0x30 || text.getD 1 0 > 0x39) = true
      · have hhead : (text.length < 4 || text.getD 0 0 != 0x53 || text.getD 1 0 < 0x30 || text.getD 1 0 > 0x39) = true := by
          rw [Bool.or_assoc, hdigit, Bool.or_true]
        rw [if_neg hletter, if_pos hdigit, if_pos hhead]
      · have hhead : ¬(text.length < 4 || text.getD 0 0 != 0x53 || text.getD 1 0 < 0x30 || text.getD 1 0 > 0x39) = true := by
          simp only [Bool.or_eq_true, decide_eq_true_eq, not_or] at hletter hdigit ⊢
          exact ⟨⟨⟨hshort, hletter⟩, hdigit.1⟩, hdigit.2⟩
        rw [if_neg hletter, if_neg hdigit, if_neg hhead]
        cases naddr ((text.getD 1 0).toNat - 0x30) with
        | none => rfl
        | some width =>
          cases byte text 2 with
          | none => rfl
          | some count =>
            dsimp only
            by_cases hcount : (count < width + 1 || text.length != 4 + 2 * count) = true
            · rw [if_pos hcount, if_pos hcount]
            · rw [if_neg hcount, if_neg hcount]
              by_cases hbare : (5 ≤ (text.getD 1 0).toNat - 0x30 && count - width - 1 != 0) = true
              · rw [if_pos hbare, if_pos hbare]
              · simp only [Bool.or_eq_true, decide_eq_true_eq, bne_iff_ne, not_or, not_not] at hcount
                rw [if_neg hbare, if_neg hbare, parse_bytes_checked_inside _ (by omega), ← parse_bytes]
                dsimp only
                split <;> rfl

theorem byte_set_other {text : List Byte} {i j : Nat} (c : Byte) (hlow : i ≠ j) (hhigh : i ≠ j + 1) :
    byte (text.set i c) j = byte text j := by
  have hget (k : Nat) (hk : i ≠ k) : (text.set i c).getD k 0 = text.getD k 0 := by
    rw [List.getD_eq_getElem?_getD, List.getD_eq_getElem?_getD, List.getElem?_set_ne hk]
  rw [byte, byte, hget j hlow, hget (j + 1) hhigh]

theorem hex_lt {c : Byte} {v : Nat} (h : hex c = some v) : v < 16 := by
  have hall : ∀ c : Byte, ∀ v ∈ hex c, v < 16 := by decide
  exact hall c v h

theorem byte_eq_some {text : List Byte} {j x : Nat} (h : byte text j = some x) :
    ∃ a b, hex (text.getD j 0) = some a ∧ hex (text.getD (j + 1) 0) = some b ∧ x = a * 16 + b := by
  unfold byte at h
  split at h
  next a b ha hb => exact ⟨a, b, ha, hb, (Option.some.inj h).symm⟩
  next => cases h

/-- A digit of another value changes the byte that it belongs to. -/
theorem byte_set_changed {text : List Byte} {i j x y v : Nat} {c : Byte} (hi : i < text.length)
    (hat : i = j ∨ i = j + 1) (hc : hex c = some v) (hne : hex (text.getD i 0) ≠ some v) (hx : byte text j = some x)
    (hy : byte (text.set i c) j = some y) : x ≠ y := by
  have hself : (text.set i c).getD i 0 = c := by simp [hi]
  have hother (k : Nat) (hk : i ≠ k) : (text.set i c).getD k 0 = text.getD k 0 := by
    rw [List.getD_eq_getElem?_getD, List.getD_eq_getElem?_getD, List.getElem?_set_ne hk]
  obtain ⟨a, b, ha, hb, rfl⟩ := byte_eq_some hx
  obtain ⟨a', b', ha', hb', rfl⟩ := byte_eq_some hy
  have hblt := hex_lt hb
  have hblt' := hex_lt hb'
  intro heq
  have hhigh : a = a' := by omega
  have hlow : b = b' := by omega
  obtain rfl | rfl := hat
  · rw [hself, hc] at ha'
    rw [ha, hhigh, ← ha'] at hne
    exact hne rfl
  · rw [hself, hc] at hb'
    rw [hb, hlow, ← hb'] at hne
    exact hne rfl

theorem byte_sum_set {values : List Byte} {m : Nat} (hm : m < values.length) (v : Byte) :
    byte_sum (values.set m v) + values[m].toNat = byte_sum values + v.toNat := by
  induction values generalizing m with
  | nil => cases hm
  | cons b values ih =>
    cases m with
    | zero =>
      simp only [List.set_cons_zero, byte_sum, List.map_cons, List.sum_cons, List.getElem_cons_zero]
      omega
    | succ m =>
      have hrest := ih (m := m) (by simpa using hm)
      simp only [byte_sum, List.set_cons_succ, List.map_cons, List.sum_cons, List.getElem_cons_succ] at hrest ⊢
      omega

/-- A line of the body of which one digit was changed to another value is
rejected: a changed count does not match the length, and any other digit
changes the sum. -/
theorem srec_parse_digit_changed {line : List Byte} {r : srec_record} (h : (srec_parse line).1 = some r) {i v : Nat}
    {c : Byte} (hbody : 2 ≤ i) (hi : i < line.length) (hc : hex c = some v) (hne : hex (line.getD i 0) ≠ some v) :
    (srec_parse (line.set i c)).1 = none := by
  by_contra hsome
  obtain ⟨r', hr'⟩ := Option.ne_none_iff_exists'.mp hsome
  obtain ⟨width, values, henc⟩ := srec_parse_encodes h
  obtain ⟨width', values', henc'⟩ := srec_parse_encodes hr'
  have hlen : values'.length = values.length := by
    have hold := henc.length
    have hnew := henc'.length
    rw [List.length_set] at hnew
    omega
  by_cases hcount : i < 4
  · refine byte_set_changed hi (by omega) hc hne henc.count henc'.count hlen.symm
  · have hlength := henc.length
    obtain ⟨m, hm, hat⟩ : ∃ m, m < values.length ∧ (i = 4 + 2 * m ∨ i = 4 + 2 * m + 1) :=
      ⟨(i - 4) / 2, by omega, by omega⟩
    have hm' : m < values'.length := by omega
    have hchanged := byte_set_changed hi hat hc hne (henc.bytes m hm) (henc'.bytes m hm')
    have hset : values' = values.set m values'[m] := by
      refine List.ext_getElem (by simpa using hlen) fun k hk _ => ?_
      by_cases hkm : m = k
      · subst hkm
        rw [List.getElem_set_self]
      · have hkold : k < values.length := by omega
        have hsame := henc'.bytes k hk
        rw [byte_set_other c (by omega) (by omega), henc.bytes k hkold] at hsame
        rw [List.getElem_set_ne hkm]
        exact BitVec.eq_of_toNat_eq (Option.some.inj hsame).symm
    have hsum := byte_sum_set hm values'[m]
    rw [← hset] at hsum
    have hold := henc.checksum
    have hnew := henc'.checksum
    have hlt := values[m].isLt
    have hlt' := values'[m].isLt
    omega

/-- Every accepted record can be encoded. -/
theorem srec_record.Format.encodable {r : srec_record} {line values : List Byte} {width : Nat} {n : Byte}
    (h : r.Format line width n values) : r.Encodable width := by
  have hn := n.isLt
  have hcount := h.count
  have hroom := h.room
  have hdata : r.data.length = values.length - 1 - width := by
    rw [h.data, List.length_take, List.length_drop]
    omega
  refine ⟨h.type, ?_, by omega, fun hfive => ?_⟩
  · have hlt := beValue_lt (values.take width)
    rw [List.length_take, Nat.min_eq_left (by omega)] at hlt
    rw [h.address]
    exact hlt
  · have hbare := h.bare hfive
    exact List.eq_nil_of_length_eq_zero (by omega)

/-- `srec_parse` accepts exactly the S-records and inverts their encoding. Its
reads and stores are in bounds, and it notices every changed digit of the
body. -/
theorem srec_parse_exact :
    (∀ line r, (srec_parse line).1 = some r ↔ ∃ width n values, r.Format line width n values) ∧
    (∀ r : srec_record, (∃ line, (srec_parse line).1 = some r) ↔ ∃ width, r.Encodable width) ∧
    (∀ (r : srec_record) width, r.Encodable width → (srec_parse (r.encode width)).1 = some r) ∧
    (∀ line, srec_parse_checked line = some (srec_parse line) ∧ ∀ w ∈ (srec_parse line).2, w < 252) ∧
    ∀ line r, (srec_parse line).1 = some r → ∀ i v c, 2 ≤ i → i < line.length → hex c = some v →
      hex (line.getD i 0) ≠ some v → (srec_parse (line.set i c)).1 = none := by
  refine ⟨srec_parse_iff, ?_, fun r width => srec_parse_encode, ?_, ?_⟩
  · intro r
    constructor
    · rintro ⟨line, h⟩
      obtain ⟨width, n, values, hformat⟩ := (srec_parse_iff line r).mp h
      exact ⟨width, hformat.encodable⟩
    · rintro ⟨width, h⟩
      exact ⟨r.encode width, srec_parse_encode h⟩
  · intro line
    exact ⟨srec_parse_reads_inside line, srec_parse_writes line⟩
  · intro line r h i v c hbody hi hc hne
    exact srec_parse_digit_changed h hbody hi hc hne

/-- The line `S1050010ABCD72`, and the same with another data digit. -/
theorem data_record_exact :
    (srec_parse [0x53, 0x31, 0x30, 0x35, 0x30, 0x30, 0x31, 0x30, 0x41, 0x42, 0x43, 0x44, 0x37, 0x32]).1 =
        some ⟨0x10, [0xab, 0xcd], 1⟩ ∧
      (srec_parse [0x53, 0x31, 0x30, 0x35, 0x30, 0x30, 0x31, 0x30, 0x42, 0x42, 0x43, 0x44, 0x37, 0x32]).1 = none := by
  have haccepted :
      (srec_parse [0x53, 0x31, 0x30, 0x35, 0x30, 0x30, 0x31, 0x30, 0x41, 0x42, 0x43, 0x44, 0x37, 0x32]).1 =
        some ⟨0x10, [0xab, 0xcd], 1⟩ :=
    srec_parse_exact.2.2.1 ⟨0x10, [0xab, 0xcd], 1⟩ 2 ⟨by unfold Width; decide, by decide, by decide, by decide⟩
  refine ⟨haccepted, ?_⟩
  exact srec_parse_exact.2.2.2.2 _ _ haccepted 8 11 0x42 (by decide) (by decide) (by decide) (by decide)

end scu35.srec
