import Scu35Miner.Fips180.Compression
import Scu35Miner.Radix.BigEndian

open fips180 radix

namespace scu35.srec

def hex (c : Byte) : Option Nat :=
  if 0x30 ≤ c ∧ c ≤ 0x39 then some (c.toNat - 0x30)
  else if 0x61 ≤ c ∧ c ≤ 0x66 then some (c.toNat - 0x61 + 10)
  else if 0x41 ≤ c ∧ c ≤ 0x46 then some (c.toNat - 0x41 + 10)
  else none

/-- The digits and their values, the letters in either case. -/
theorem hex_digits : ∀ c : Byte, hex c =
    (['0', '1', '2', '3', '4', '5', '6', '7', '8', '9', 'a', 'b', 'c', 'd', 'e', 'f'].zipIdx ++
      ['A', 'B', 'C', 'D', 'E', 'F'].zipIdx 10).findSome? fun d =>
        if c.toNat = d.1.toNat then some d.2 else none := by
  decide

/-- `byte(line + i)`. -/
def byte (line : List Byte) (i : Nat) : Option Nat :=
  match hex (line.getD i 0), hex (line.getD (i + 1) 0) with
  | some a, some b => some (a * 16 + b)
  | _, _ => none

/-- A parsed record; `data` holds the first `size` bytes of the C array. -/
structure srec_record where
  address : Word
  data : List Byte
  type : Nat
deriving DecidableEq, Repr

def srec_record.size (r : srec_record) : Nat := r.data.length

/-- The number of address bytes of a record type. -/
def naddr : Nat → Option Nat
  | 0 | 1 | 5 | 9 => some 2
  | 2 | 6 | 8 => some 3
  | 3 | 7 => some 4
  | _ => none

/-- The loop state of `srec_parse`. `writes` lists the indices of `r->data`
that were stored to. -/
structure Parse where
  address : Word
  data : List Byte
  sum : Nat
  writes : List Nat
  failed : Bool

/-- One pass of the loop of `srec_parse`; a failed parse runs no further
passes. -/
def parse_byte (line : List Byte) (naddr count : Nat) (p : Parse) (i : Nat) : Parse :=
  if p.failed then p
  else match byte line (4 + 2 * i) with
    | none => { p with failed := true }
    | some value =>
      let p := { p with sum := p.sum + value }
      if i < naddr then { p with address := (p.address <<< 8) ||| BitVec.ofNat 32 value }
      else if i < count - 1 then
        { p with data := p.data ++ [BitVec.ofNat 8 value], writes := p.writes ++ [i - naddr] }
      else p

def parse_bytes (line : List Byte) (naddr count : Nat) : Parse :=
  (List.range count).foldl (parse_byte line naddr count) ⟨0, [], count, [], false⟩

/-- `srec_parse(line, size, r)` with the stores it makes to `r->data`. -/
def srec_parse (line : List Byte) : Option srec_record × List Nat :=
  let c := line.getD 1 0
  if line.length < 4 || line.getD 0 0 != 0x53 || c < 0x30 || c > 0x39 then (none, [])
  else
    let type := c.toNat - 0x30
    match naddr type, byte line 2 with
    | some naddr, some count =>
      if count < naddr + 1 || line.length != 4 + 2 * count then (none, [])
      else if 5 ≤ type && count - naddr - 1 != 0 then (none, [])
      else
        let p := parse_bytes line naddr count
        if p.failed then (none, p.writes)
        else (if p.sum % 256 = 255 then some ⟨p.address, p.data, type⟩ else none, p.writes)
    | _, _ => (none, [])

/-- The value of a list of bytes under the checksum. -/
def byte_sum (values : List Byte) : Nat := (values.map BitVec.toNat).sum

/-- What an accepted line contains: a count and that many bytes in hexadecimal,
the last of which makes the sum of all of them 255 modulo 256. The leading
bytes are the address, big-endian, and the others but the last the data. -/
structure srec_record.Encodes (r : srec_record) (line : List Byte) (width : Nat) (values : List Byte) : Prop where
  type : line.getD 0 0 = 0x53 ∧ (line.getD 1 0).toNat = 0x30 + r.type
  naddr : naddr r.type = some width
  count : byte line 2 = some values.length
  length : line.length = 4 + 2 * values.length
  bytes : ∀ i (h : i < values.length), byte line (4 + 2 * i) = some values[i].toNat
  checksum : (values.length + byte_sum values) % 256 = 255
  width_lt : width < values.length
  address : r.address.toNat = beValue (values.take width)
  data : r.data = (values.drop width).take (values.length - 1 - width)

theorem naddr_bounds {type n : Nat} (h : naddr type = some n) : 2 ≤ n ∧ n ≤ 4 := by
  unfold naddr at h
  split at h <;> simp at h <;> omega

theorem byte_lt {line : List Byte} {i v : Nat} (h : byte line i = some v) : v < 256 := by
  have hhex {c : Byte} {d : Nat} (hd : hex c = some d) : d < 16 := by
    simp only [hex, BitVec.le_def] at hd
    have h30 : (0x30 : Byte).toNat = 48 := rfl
    have h39 : (0x39 : Byte).toNat = 57 := rfl
    have h61 : (0x61 : Byte).toNat = 97 := rfl
    have h66 : (0x66 : Byte).toNat = 102 := rfl
    have h41 : (0x41 : Byte).toNat = 65 := rfl
    have h46 : (0x46 : Byte).toNat = 70 := rfl
    rw [h30, h39, h61, h66, h41, h46] at hd
    split at hd
    · simp only [Option.some.injEq] at hd
      omega
    · split at hd
      · simp only [Option.some.injEq] at hd
        omega
      · split at hd
        · simp only [Option.some.injEq] at hd
          omega
        · cases hd
  unfold byte at h
  split at h
  next ha hb =>
    have := hhex ha
    have := hhex hb
    simp only [Option.some.injEq] at h
    omega
  next => cases h

/-- The loop after passes over bytes with the given values. -/
structure Parse.After (p : Parse) (line : List Byte) (width count : Nat) (values : List Byte) : Prop where
  bytes : ∀ i (h : i < values.length), byte line (4 + 2 * i) = some values[i].toNat
  sum : p.sum = count + byte_sum values
  address : p.address.toNat = beValue (values.take width)
  data : p.data = (values.drop width).take (count - 1 - width)

theorem address_step {a : Word} {v : Nat} (hv : v < 256) (ha : a.toNat < 2 ^ 24) :
    ((a <<< 8) ||| BitVec.ofNat 32 v).toNat = a.toNat * 256 + v := by
  have hshift : (a <<< 8).toNat = a.toNat <<< 8 := by
    rw [BitVec.toNat_shiftLeft, Nat.shiftLeft_eq]
    exact Nat.mod_eq_of_lt (by omega)
  have hor : (a.toNat <<< 8 ||| v) = a.toNat <<< 8 + v := (Nat.shiftLeft_add_eq_or_of_lt (by omega) _).symm
  rw [BitVec.toNat_or, hshift, BitVec.toNat_ofNat, Nat.mod_eq_of_lt (by omega), hor, Nat.shiftLeft_eq]

/-- One pass over a byte that reads as `v`. -/
theorem Parse.After.step {p : Parse} {line : List Byte} {width count : Nat} {values : List Byte} {v : Nat}
    (h : p.After line width count values) (hok : p.failed = false) (hwidth : width ≤ 4)
    (hlt : values.length < count) (hbyte : byte line (4 + 2 * values.length) = some v) :
    (parse_byte line width count p values.length).After line width count (values ++ [BitVec.ofNat 8 v]) ∧
      (parse_byte line width count p values.length).failed = false := by
  have hv := byte_lt hbyte
  have htoNat : (BitVec.ofNat 8 v).toNat = v := by
    rw [BitVec.toNat_ofNat]
    exact Nat.mod_eq_of_lt hv
  have hbytes : ∀ i (hi : i < (values ++ [BitVec.ofNat 8 v]).length),
      byte line (4 + 2 * i) = some ((values ++ [BitVec.ofNat 8 v])[i]).toNat := by
    intro i hi
    rcases Nat.lt_or_ge i values.length with hold | hnew
    · rw [List.getElem_append_left hold]
      exact h.bytes i hold
    · have hi' : i = values.length := by
        simp only [List.length_append, List.length_singleton] at hi
        omega
      subst hi'
      rw [List.getElem_concat_length rfl, hbyte, htoNat]
  have hsum : byte_sum (values ++ [BitVec.ofNat 8 v]) = byte_sum values + v := by
    simp [byte_sum, htoNat]
  have hnext : p.sum + v = count + byte_sum (values ++ [BitVec.ofNat 8 v]) := by
    rw [h.sum, hsum]
    omega
  simp only [parse_byte, hok, Bool.false_eq_true, ↓reduceIte, hbyte]
  by_cases haddr : values.length < width
  · simp only [haddr, ↓reduceIte, and_true]
    have htake : values.take width = values := List.take_of_length_le (by omega)
    refine ⟨hbytes, hnext, ?_, ?_⟩
    · have hval := h.address
      rw [htake] at hval
      have hbound := beValue_lt values
      have hpow : 2 ^ (8 * values.length) ≤ 2 ^ 24 := Nat.pow_le_pow_right (by omega) (by omega)
      rw [address_step hv (by omega), List.take_of_length_le (by simp; omega), beValue_concat, htoNat, hval]
      rfl
    · have hdrop : (values ++ [BitVec.ofNat 8 v]).drop width = [] := List.drop_eq_nil_of_le (by simp; omega)
      rw [h.data, hdrop, List.drop_eq_nil_of_le (by omega)]
  · simp only [haddr, ↓reduceIte]
    have htake : (values ++ [BitVec.ofNat 8 v]).take width = values.take width :=
      List.take_append_of_le_length (by omega)
    have hdrop : (values ++ [BitVec.ofNat 8 v]).drop width = values.drop width ++ [BitVec.ofNat 8 v] :=
      List.drop_append_of_le_length (by omega)
    by_cases hdata : values.length < count - 1
    · simp only [hdata, ↓reduceIte, and_true]
      refine ⟨hbytes, hnext, by rw [htake]; exact h.address, ?_⟩
      rw [h.data, hdrop, List.take_of_length_le (by simp; omega), List.take_of_length_le (by simp; omega)]
    · simp only [hdata, ↓reduceIte, and_true]
      refine ⟨hbytes, hnext, by rw [htake]; exact h.address, ?_⟩
      rw [hdrop, List.take_append_of_le_length (by simp; omega)]
      exact h.data

theorem parse_byte_failed {p : Parse} {line : List Byte} {width count i : Nat} (h : p.failed = true) :
    parse_byte line width count p i = p := by
  simp [parse_byte, h]

/-- The stores of a parse stay inside `r->data`. -/
theorem parse_byte_writes {p : Parse} {line : List Byte} {width count i : Nat} (hcount : count ≤ 255)
    (hwidth : 2 ≤ width) (h : ∀ w ∈ p.writes, w < 252) :
    ∀ w ∈ (parse_byte line width count p i).writes, w < 252 := by
  unfold parse_byte
  split
  · exact h
  · split
    · exact h
    · dsimp only
      split
      · exact h
      · split
        · intro w hw
          simp only [List.mem_append, List.mem_singleton] at hw
          rcases hw with hold | rfl
          · exact h w hold
          · omega
        · exact h

/-- The loop over the first `n` bytes has either failed or read them all. -/
theorem parse_prefix (line : List Byte) {width count : Nat} (hwidth : width ≤ 4) {n : Nat} (hn : n ≤ count) :
    let p := (List.range n).foldl (parse_byte line width count) ⟨0, [], count, [], false⟩
    p.failed = true ∨ ∃ values, values.length = n ∧ p.After line width count values ∧ p.failed = false := by
  induction n with
  | zero => exact .inr ⟨[], rfl, ⟨by simp, by simp [byte_sum], by simp, by simp⟩, rfl⟩
  | succ n ih =>
    simp only [List.range_succ, List.foldl_append, List.foldl_cons, List.foldl_nil]
    rcases ih (by omega) with hfailed | ⟨values, hlen, hafter, hok⟩
    · rw [parse_byte_failed hfailed]
      exact .inl hfailed
    · cases hbyte : byte line (4 + 2 * values.length) with
      | none =>
        left
        rw [hlen] at hbyte
        simp only [parse_byte, hok, Bool.false_eq_true, ↓reduceIte, hbyte]
      | some v =>
        obtain ⟨hnext, hok'⟩ := hafter.step hok hwidth (by omega) hbyte
        rw [hlen] at hnext hok'
        exact .inr ⟨_, by simp [hlen], hnext, hok'⟩

/-- Every accepted line has the form of an S-record with a correct checksum. -/
theorem srec_parse_encodes {line : List Byte} {r : srec_record} (h : (srec_parse line).1 = some r) :
    ∃ width values, r.Encodes line width values := by
  unfold srec_parse at h
  simp only at h
  split at h
  · cases h
  next hhead =>
    split at h
    next width count hwidth hcount =>
      split at h
      · cases h
      next hlen =>
        split at h
        · cases h
        · split at h
          · cases h
          next hok =>
            simp only [Option.ite_none_right_eq_some, Option.some.injEq] at h
            obtain ⟨hsum, rfl⟩ := h
            simp only [Bool.or_eq_true, decide_eq_true_eq, bne_iff_ne, ne_eq, not_or, not_lt, not_not,
              gt_iff_lt] at hhead hlen
            obtain ⟨⟨⟨_, hS⟩, hlow⟩, _⟩ := hhead
            obtain ⟨hmin, hlength⟩ := hlen
            rcases parse_prefix line (naddr_bounds hwidth).2 (Nat.le_refl count) with hfailed | ⟨values, hvl, hafter, _⟩
            · exact absurd hfailed hok
            · refine ⟨width, values, ⟨hS, ?_⟩, hwidth, by rw [hvl, hcount], by rw [hvl, hlength], hafter.bytes, ?_,
                by omega, hafter.address, by rw [hvl]; exact hafter.data⟩
              · have h30 : (0x30 : Byte).toNat = 48 := rfl
                rw [BitVec.not_lt, BitVec.le_def, h30] at hlow
                change _ = 48 + ((line.getD 1 0).toNat - 48)
                omega
              · have hs := hafter.sum
                rw [hvl]
                change (parse_bytes line width count).sum = _ at hs
                rw [← hs, hsum]
    next => cases h

/-- The stores of `srec_parse` are in bounds of the 252-byte array, for accepted
and rejected lines alike. -/
theorem srec_parse_writes (line : List Byte) : ∀ w ∈ (srec_parse line).2, w < 252 := by
  have hloop {width count : Nat} (hcount : count ≤ 255) (hwidth : 2 ≤ width) (n : Nat) :
      ∀ w ∈ ((List.range n).foldl (parse_byte line width count) ⟨0, [], count, [], false⟩).writes, w < 252 := by
    induction n with
    | zero => simp
    | succ n ih =>
      rw [List.range_succ, List.foldl_append]
      exact parse_byte_writes hcount hwidth ih
  unfold srec_parse
  simp only
  split
  · simp
  · split
    next width count hwidth hcount =>
      have hbound := byte_lt hcount
      have hw := hloop (show count ≤ 255 by omega) (naddr_bounds hwidth).1 count
      split
      · simp
      · split
        · simp
        · split <;> exact hw
    next => simp

/-- An accepted line is at most 514 characters long. -/
theorem srec_record.Encodes.length_le {r : srec_record} {line values : List Byte} {width : Nat}
    (h : r.Encodes line width values) : line.length ≤ 514 := by
  have hcount := byte_lt h.count
  have hlength := h.length
  omega

/-- The bytes that pairs of hexadecimal digits stand for. -/
def hex_values : List Byte → Option (List Byte)
  | [] => some []
  | [_] => none
  | a :: b :: chars =>
    match hex a, hex b, hex_values chars with
    | some x, some y, some values => some (BitVec.ofNat 8 (x * 16 + y) :: values)
    | _, _, _ => none

theorem hex_values_cons {a b : Byte} {chars values : List Byte} (h : hex_values (a :: b :: chars) = some values) :
    ∃ x y rest, hex a = some x ∧ hex b = some y ∧ hex_values chars = some rest ∧
      values = BitVec.ofNat 8 (x * 16 + y) :: rest := by
  rw [hex_values] at h
  split at h
  next x y rest hx hy hrest =>
    cases h
    exact ⟨x, y, rest, hx, hy, hrest, rfl⟩
  next => cases h

theorem byte_cons_cons (a b : Byte) (line : List Byte) (i : Nat) : byte (a :: b :: line) (i + 2) = byte line i := rfl

theorem byte_pair (a b : Byte) (chars : List Byte) :
    byte (a :: b :: chars) 0 = (hex a).bind fun x => (hex b).map fun y => x * 16 + y := by
  rw [byte, List.getD_cons_zero, List.getD_cons_succ, List.getD_cons_zero]
  cases hex a <;> cases hex b <;> rfl

/-- Digits that `byte` reads are those of the values. -/
theorem hex_values_of_bytes {chars values : List Byte} (hlen : chars.length = 2 * values.length)
    (hbytes : ∀ i (hi : i < values.length), byte chars (2 * i) = some values[i].toNat) :
    hex_values chars = some values := by
  induction values generalizing chars with
  | nil =>
    rw [List.length_eq_zero_iff.mp hlen]
    rfl
  | cons v values ih =>
    obtain ⟨a, rest, rfl⟩ := List.exists_cons_of_length_pos (l := chars) (by rw [hlen, List.length_cons]; omega)
    obtain ⟨b, chars, rfl⟩ := List.exists_cons_of_length_pos (l := rest) (by simp at hlen; omega)
    have hfirst := hbytes 0 (by simp)
    have hrest : hex_values chars = some values := ih (by simp at hlen; omega) fun i hi => by
      have hbyte := hbytes (i + 1) (by simpa using hi)
      rwa [Nat.mul_add, Nat.mul_one, byte_cons_cons, List.getElem_cons_succ] at hbyte
    rw [Nat.mul_zero, byte_pair, Option.bind_eq_some_iff] at hfirst
    obtain ⟨x, hx, hfirst⟩ := hfirst
    obtain ⟨y, hy, hv⟩ := Option.map_eq_some_iff.mp hfirst
    rw [hex_values, hx, hy, hrest]
    dsimp only
    rw [hv, List.getElem_cons_zero, BitVec.ofNat_toNat, BitVec.setWidth_eq]

/-- The values are what `byte` reads. -/
theorem byte_hex_values {chars values : List Byte} (h : hex_values chars = some values) :
    chars.length = 2 * values.length ∧
      ∀ i (hi : i < values.length), byte chars (2 * i) = some values[i].toNat := by
  match chars, h with
  | [], h =>
    cases h
    exact ⟨rfl, fun i hi => by cases hi⟩
  | [_], h => cases h
  | a :: b :: chars, h =>
    obtain ⟨x, y, rest, hx, hy, hrest, rfl⟩ := hex_values_cons h
    obtain ⟨hlen, hbytes⟩ := byte_hex_values hrest
    have hfirst : byte (a :: b :: chars) 0 = some (x * 16 + y) := by
      change (match hex a, hex b with | some a, some b => some (a * 16 + b) | _, _ => none) = _
      rw [hx, hy]
    constructor
    · simp only [List.length_cons]
      omega
    · intro i hi
      cases i with
      | zero =>
        have hlt := byte_lt hfirst
        rw [Nat.mul_zero, hfirst, List.getElem_cons_zero, BitVec.toNat_ofNat, Nat.mod_eq_of_lt hlt]
      | succ i =>
        rw [Nat.mul_add, Nat.mul_one, byte_cons_cons, List.getElem_cons_succ]
        exact hbytes i (by simpa using hi)

/-- Every S-record with a correct checksum is accepted, unless it ends or counts
the records of an image and has data. -/
theorem srec_parse_of_encodes {r : srec_record} {line values : List Byte} {width : Nat}
    (h : r.Encodes line width values) (hdata : 5 ≤ r.type → r.data = []) : (srec_parse line).1 = some r := by
  have hbounds := naddr_bounds h.naddr
  have hwidth := h.width_lt
  have hlength := h.length
  have hok (n : Nat) (hn : n ≤ values.length) :
      ((List.range n).foldl (parse_byte line width values.length) ⟨0, [], values.length, [], false⟩).failed = false := by
    induction n with
    | zero => rfl
    | succ n ih =>
      rw [List.range_succ, List.foldl_append, List.foldl_cons, List.foldl_nil]
      obtain hfailed | ⟨read, rfl, hafter, hgood⟩ :=
        parse_prefix line hbounds.2 (show n ≤ values.length by omega)
      · rw [ih (by omega)] at hfailed
        cases hfailed
      · exact (hafter.step hgood hbounds.2 (by omega) (h.bytes _ (by omega))).2
  obtain hfailed | ⟨read, hlen, hafter, _⟩ := parse_prefix line hbounds.2 (Nat.le_refl values.length)
  · rw [hok values.length (Nat.le_refl _)] at hfailed
    cases hfailed
  have hread : read = values := by
    refine List.ext_getElem hlen fun i h1 h2 => ?_
    have hsame := (hafter.bytes i h1).symm.trans (h.bytes i h2)
    exact BitVec.eq_of_toNat_eq (Option.some.inj hsame)
  subst hread
  have htype : (line.getD 1 0).toNat - 0x30 = r.type := by
    rw [h.type.2]
    omega
  have hdigit : r.type ≤ 9 := by
    have hn := h.naddr
    unfold naddr at hn
    split at hn <;> first | omega | cases hn
  have hhead : ¬(line.length < 4 || line.getD 0 0 != 0x53 || line.getD 1 0 < 0x30 || line.getD 1 0 > 0x39) = true := by
    have hc := h.type.2
    have h30 : (0x30 : Byte).toNat = 48 := rfl
    have h39 : (0x39 : Byte).toNat = 57 := rfl
    simp only [Bool.or_eq_true, decide_eq_true_eq, bne_iff_ne, not_or, not_not, BitVec.lt_def, gt_iff_lt, h30, h39]
    exact ⟨⟨⟨by omega, h.type.1⟩, by omega⟩, by omega⟩
  have hcount : ¬(read.length < width + 1 || line.length != 4 + 2 * read.length) = true := by
    simp only [Bool.or_eq_true, decide_eq_true_eq, bne_iff_ne, not_or, not_not]
    exact ⟨by omega, hlength⟩
  have hpayload : ¬(5 ≤ r.type && read.length - width - 1 != 0) = true := by
    simp only [Bool.and_eq_true, decide_eq_true_eq, bne_iff_ne, not_and, not_not]
    intro hfive
    have hnil := congrArg List.length (h.data.symm.trans (hdata hfive))
    simp only [List.length_take, List.length_drop, List.length_nil] at hnil
    omega
  have hsum := hafter.sum
  have hchecksum := h.checksum
  change (parse_bytes line width read.length).sum = _ at hsum
  have haddress : (parse_bytes line width read.length).address = r.address :=
    BitVec.eq_of_toNat_eq (hafter.address.trans h.address.symm)
  have hbytes : (parse_bytes line width read.length).data = r.data := hafter.data.trans h.data.symm
  have hfine : (parse_bytes line width read.length).failed = false := hok read.length (Nat.le_refl _)
  simp only [srec_parse, if_neg hhead, htype, h.naddr, h.count, if_neg hcount, if_neg hpayload, hfine,
    Bool.false_eq_true, ↓reduceIte, hsum, hchecksum, haddress, hbytes]

/-- A line whose digits stand for a count and that many bytes. -/
theorem encodes_of_values {type width : Nat} {chars values : List Byte} {count : Byte}
    (hchars : hex_values chars = some (count :: values)) (hcount : count.toNat = values.length)
    (hwidth : naddr type = some width) (hlt : width < values.length)
    (hsum : (values.length + byte_sum values) % 256 = 255) :
    srec_record.Encodes ⟨BitVec.ofNat 32 (beValue (values.take width)),
      (values.drop width).take (values.length - 1 - width), type⟩
      (0x53 :: BitVec.ofNat 8 (0x30 + type) :: chars) width values := by
  obtain ⟨hlen, hbytes⟩ := byte_hex_values hchars
  have hbounds := naddr_bounds hwidth
  have hdigit : type ≤ 9 := by
    unfold naddr at hwidth
    split at hwidth <;> first | omega | cases hwidth
  have haddress : beValue (values.take width) < 2 ^ 32 := by
    refine Nat.lt_of_lt_of_le (beValue_lt _) (Nat.pow_le_pow_right (by decide) ?_)
    rw [List.length_take]
    omega
  refine ⟨⟨rfl, ?_⟩, hwidth, ?_, ?_, ?_, hsum, hlt, ?_, rfl⟩
  · change (BitVec.ofNat 8 (0x30 + type)).toNat = _
    rw [BitVec.toNat_ofNat]
    exact Nat.mod_eq_of_lt (by omega)
  · rw [byte_cons_cons, ← hcount]
    exact hbytes 0 (by simp)
  · simp only [List.length_cons] at hlen ⊢
    omega
  · intro i hi
    have hbyte := hbytes (i + 1) (by simpa using hi)
    rw [List.getElem_cons_succ] at hbyte
    rw [← hbyte, show 4 + 2 * i = 2 * (i + 1) + 2 by omega, byte_cons_cons]
  · rw [BitVec.toNat_ofNat, Nat.mod_eq_of_lt haddress]

end scu35.srec
