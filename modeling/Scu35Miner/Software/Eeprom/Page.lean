import Scu35Miner.Software.Eeprom.Flowing

open fips180 storage transition

namespace scu35.eeprom

def address_high (address : BitVec 16) : Byte := (address >>> 8).setWidth 8
def address_low (address : BitVec 16) : Byte := (address &&& 255).setWidth 8

/-- The words that `start` sends. -/
def header (address : BitVec 16) : List TxWord :=
  [⟨true, false, 0xa0⟩, ⟨false, false, address_high address⟩, ⟨false, false, address_low address⟩]

/-- The words that `write_bytes` sends. -/
def data_words : Nat → Cells Byte → List TxWord
  | 0, _ => []
  | n + 1, p => ⟨false, decide (n = 0), p 0⟩ :: data_words n (fun i => p (i + 1))

/-- The words of one page. -/
def page_words (address : BitVec 16) (n : Nat) (p : Cells Byte) : List TxWord := header address ++ data_words n p

/-- The first cells as a list. -/
def bytes (p : Cells Byte) (n : Nat) : List Byte := (List.range n).map p

theorem bytes_succ (p : Cells Byte) (n : Nat) : bytes p (n + 1) = p 0 :: bytes (fun i => p (i + 1)) n := by
  rw [bytes, List.range_succ_eq_map, List.map_cons, List.map_map]
  rfl

theorem length_bytes (p : Cells Byte) (n : Nat) : (bytes p n).length = n := by
  rw [bytes, List.length_map, List.length_range]

theorem address_bytes (address : BitVec 16) :
    (address_high address ++ address_low address).toNat = address.toNat := by
  have hwhole : address_high address ++ address_low address = address := by
    apply BitVec.eq_of_getLsbD_eq
    intro i hi
    rw [address_high, address_low, BitVec.getLsbD_append]
    split
    next hlow =>
      have hmask : (255#8).getLsbD i = true := by interval_cases i <;> decide
      rw [BitVec.getLsbD_eq_getElem hlow] at hmask
      simp [hlow, hmask]
    next hhigh =>
      have hbit : i - 8 < 8 := by omega
      have hsame : 8 + (i - 8) = i := by omega
      simp [hbit, hsame]
  rw [hwhole]

theorem of_high (address : BitVec 16) :
    TxWord.of ((address >>> 8).setWidth 32) = ⟨false, false, address_high address⟩ := by
  rw [TxWord.of, TxWord.mk.injEq]
  refine ⟨?_, ?_, ?_⟩
  · simp
  · simp
  · rw [address_high, BitVec.setWidth_setWidth_of_le _ (by decide)]

theorem of_low (address : BitVec 16) :
    TxWord.of ((address &&& 255).setWidth 32) = ⟨false, false, address_low address⟩ := by
  rw [TxWord.of, TxWord.mk.injEq]
  refine ⟨?_, ?_, ?_⟩
  · simp
  · simp
  · rw [address_low, BitVec.setWidth_setWidth_of_le _ (by decide)]

theorem of_data (byte : Byte) (n : Nat) :
    TxWord.of (byte.setWidth 32 ||| if n = 0 then 0x200 else 0) = ⟨false, decide (n = 0), byte⟩ := by
  rw [TxWord.of, TxWord.mk.injEq]
  split
  next hlast =>
    refine ⟨?_, ?_, ?_⟩
    · simp
    · simp [hlast]
    · rw [BitVec.setWidth_or]
      simp
  next hmore =>
    refine ⟨?_, ?_, ?_⟩
    · simp
    · simp [hmore]
    · simp

theorem length_data_words (n : Nat) (p : Cells Byte) : (data_words n p).length = n := by
  induction n generalizing p with
  | zero => rfl
  | succ n ih => rw [data_words, List.length_cons, ih]

theorem data_words_start (n : Nat) (p : Cells Byte) : ∀ w ∈ data_words n p, w.start = false := by
  induction n generalizing p with
  | zero => exact fun w hw => absurd hw List.not_mem_nil
  | succ n ih =>
    intro w hw
    obtain rfl | hw := List.mem_cons.mp hw
    · rfl
    · exact ih _ w hw

/-- The EEPROM while it latches the bytes of a page. -/
theorem run_latching (c : M24C64) (latched : List Byte) (n k : Nat) (p : Cells Byte) (hk : k < n) :
    run M24C64.send { c with phase := .writing latched } ((data_words n p).take k) =
      { c with phase := .writing (latched ++ bytes p k) } := by
  induction k generalizing latched n p with
  | zero =>
    rw [List.take_zero, run_nil, bytes, List.range_zero, List.map_nil, List.append_nil]
  | succ k ih =>
    obtain _ | n := n
    · exact absurd hk (Nat.not_lt_zero _)
    have hnot : n ≠ 0 := by omega
    have hsend : M24C64.send { c with phase := .writing latched } ⟨false, decide (n = 0), p 0⟩ =
        { c with phase := .writing (latched ++ [p 0]) } := by
      rw [decide_eq_false hnot]
      rfl
    rw [data_words, List.take_succ_cons, run_cons, hsend, ih _ _ _ (Nat.lt_of_succ_lt_succ hk), bytes_succ,
      List.append_assoc]
    rfl

/-- The last byte of a page programs them all. -/
theorem run_latched (c : M24C64) (latched : List Byte) (n : Nat) (p : Cells Byte) (hn : 0 < n) :
    run M24C64.send { c with phase := .writing latched } (data_words n p) =
      M24C64.finish { c with phase := .writing (latched ++ bytes p n) } true := by
  induction n generalizing latched p with
  | zero => exact absurd hn (Nat.lt_irrefl 0)
  | succ n ih =>
    rw [data_words, run_cons, bytes_succ]
    obtain rfl | hpos := Nat.eq_zero_or_pos n
    · rfl
    · have hsend : M24C64.send { c with phase := .writing latched } ⟨false, decide (n = 0), p 0⟩ =
          { c with phase := .writing (latched ++ [p 0]) } := by
        rw [decide_eq_false hpos.ne']
        rfl
      rw [hsend, ih _ _ hpos, List.append_assoc]
      rfl

section page

variable {before : M24C64} {address : BitVec 16} {n : Nat} {p : Cells Byte}

/-- The EEPROM once it knows the address. -/
theorem run_header (hidle : before.phase = .idle) (haddress : address.toNat < 8192) :
    run M24C64.send before (header address) = { before with address := address.toNat, phase := .writing [] } := by
  have hmod : address.toNat % 8192 = address.toNat := Nat.mod_eq_of_lt haddress
  have hfinish := M24C64.finish_idle hidle false
  calc run M24C64.send before (header address)
      = { before.finish false with
          address := (address_high address ++ address_low address).toNat % 8192, phase := .writing [] } := rfl
    _ = _ := by rw [hfinish, address_bytes, hmod]

theorem program_bytes (cells p : Cells Byte) (hfits : address.toNat % 32 + n ≤ 32) :
    program 32 address.toNat cells (bytes p n) = copy cells address.toNat p n := by
  have hlength := length_bytes p n
  have hsrc : ∀ j (hj : j < (bytes p n).length), (bytes p n)[j] = p j := by
    intro j hj
    simp only [bytes, List.getElem_map, List.getElem_range]
  rw [program_fits cells hsrc (by rw [hlength]; exact hfits), hlength]

theorem run_page (hidle : before.phase = .idle) (haddress : address.toNat < 8192) (hn : 0 < n)
    (hfits : address.toNat % 32 + n ≤ 32) :
    run M24C64.send before (page_words address n p) =
      { cells := copy before.cells address.toNat p n
        address := wrap 32 address.toNat n
        phase := .idle
        ended := before.ended ++ [⟨address.toNat, bytes p n⟩] } := by
  have hlength := length_bytes p n
  have hprogram := program_bytes before.cells p hfits
  rw [page_words, run_append, run_header hidle haddress]
  rw [run_latched { before with address := address.toNat, phase := .idle } [] n p hn, List.nil_append]
  change ({ cells := program 32 address.toNat before.cells (bytes p n), address := wrap 32 address.toNat (bytes p n).length,
            phase := .idle, ended := before.ended ++ [⟨address.toNat, bytes p n⟩] } : M24C64) = _
  rw [hprogram, hlength]

/-- How far the words of a page may have been sent. -/
theorem page_prefix {sent : List TxWord} (h : sent <+: page_words address n p) :
    sent = [] ∨ sent = [⟨true, false, 0xa0⟩] ∨ sent = [⟨true, false, 0xa0⟩, ⟨false, false, address_high address⟩] ∨
      ∃ k ≤ n, sent = header address ++ (data_words n p).take k := by
  obtain rfl | ⟨first, rfl, hfirst⟩ := List.prefix_cons_iff.mp h
  · exact .inl rfl
  obtain rfl | ⟨second, rfl, hsecond⟩ := List.prefix_cons_iff.mp hfirst
  · exact .inr (.inl rfl)
  obtain rfl | ⟨third, rfl, hthird⟩ := List.prefix_cons_iff.mp hsecond
  · exact .inr (.inr (.inl rfl))
  have hdata : third <+: data_words n p := hthird
  have hle := hdata.length_le
  rw [length_data_words] at hle
  refine .inr (.inr (.inr ⟨third.length, hle, ?_⟩))
  rw [← List.prefix_iff_eq_take.mp hdata]
  rfl

/-- The EEPROM with `k` bytes latched. -/
theorem run_part (hidle : before.phase = .idle) (haddress : address.toNat < 8192) {k : Nat} (hk : k < n) :
    run M24C64.send before (header address ++ (data_words n p).take k) =
      { before with address := address.toNat, phase := .writing (bytes p k) } := by
  rw [run_append, run_header hidle haddress]
  exact run_latching { before with address := address.toNat, phase := .idle } [] n k p hk

theorem run_whole (hidle : before.phase = .idle) (haddress : address.toNat < 8192) (hn : 0 < n) :
    (run M24C64.send before (page_words address n p)).phase = .idle := by
  rw [page_words, run_append, run_header hidle haddress]
  rw [run_latched { before with address := address.toNat, phase := .idle } [] n p hn, M24C64.finish_phase]

theorem page_script (hidle : before.phase = .idle) (haddress : address.toNat < 8192) (hn : 0 < n) :
    Script before (page_words address n p) where
  device := by
    intro w hw hstart
    obtain hw | hw := List.mem_append.mp hw
    · simp only [header, List.mem_cons, List.not_mem_nil, or_false] at hw
      obtain rfl | rfl | rfl := hw
      · rfl
      · cases hstart
      · cases hstart
    · rw [data_words_start n p w hw] at hstart
      cases hstart
  once := by
    intro w hw
    simp only [page_words, header, List.cons_append, List.tail_cons, List.nil_append, List.mem_cons] at hw
    obtain rfl | rfl | hw := hw
    · rfl
    · rfl
    · exact data_words_start n p w hw
  unbroken := by
    intro sent w rest hfull hphase
    have hwithin : sent <+: page_words address n p := ⟨_, hfull.symm⟩
    obtain rfl | rfl | rfl | ⟨k, hk, rfl⟩ := page_prefix hwithin
    · obtain ⟨rfl, -⟩ := List.cons.inj hfull
      rfl
    · cases hphase
    · cases hphase
    · have hlength := congrArg List.length hfull
      simp only [page_words, List.length_append, List.length_cons, List.length_take, length_data_words,
        Nat.min_eq_left hk] at hlength
      rw [run_part hidle haddress (by omega)] at hphase
      cases hphase
  closed := run_whole hidle haddress hn

/-- A write that ends early leaves a first part of its page's bytes. -/
theorem page_interrupted (hidle : before.phase = .idle) (haddress : address.toNat < 8192) (hn : 0 < n)
    (hfits : address.toNat % 32 + n ≤ 32) {sent : List TxWord} (h : sent <+: page_words address n p) (stop : Bool) :
    (∃ k ≤ n, ((run M24C64.send before sent).finish stop).cells = copy before.cells address.toNat p k) ∧
      (((run M24C64.send before sent).finish stop).ended = before.ended ∨
        ∃ k ≤ n, ((run M24C64.send before sent).finish stop).ended =
          before.ended ++ [⟨address.toNat, bytes p k⟩]) := by
  obtain rfl | rfl | rfl | ⟨k, hk, rfl⟩ := page_prefix h
  · rw [run_nil, M24C64.finish_idle hidle]
    exact ⟨⟨0, Nat.zero_le n, (copy_zero _ _ _).symm⟩, .inl rfl⟩
  · have hrun : (run M24C64.send before [⟨true, false, 0xa0⟩]).finish stop =
        { before.finish false with phase := .idle } := rfl
    rw [hrun, M24C64.finish_idle hidle]
    exact ⟨⟨0, Nat.zero_le n, (copy_zero _ _ _).symm⟩, .inl rfl⟩
  · have hrun : (run M24C64.send before [⟨true, false, 0xa0⟩, ⟨false, false, address_high address⟩]).finish stop =
        { before.finish false with phase := .idle } := rfl
    rw [hrun, M24C64.finish_idle hidle]
    exact ⟨⟨0, Nat.zero_le n, (copy_zero _ _ _).symm⟩, .inl rfl⟩
  · obtain hpart | rfl := Nat.lt_or_eq_of_le hk
    · rw [run_part hidle haddress hpart]
      have hended : (M24C64.finish { before with address := address.toNat, phase := .writing (bytes p k) } stop).ended =
          before.ended ++ [⟨address.toNat, bytes p k⟩] := rfl
      refine ⟨?_, .inr ⟨k, hk, hended⟩⟩
      cases stop with
      | false => exact ⟨0, Nat.zero_le n, (copy_zero _ _ _).symm⟩
      | true => exact ⟨k, hk, program_bytes _ _ (by omega)⟩
    · have hall : (data_words k p).take k = data_words k p := List.take_of_length_le (length_data_words k p).le
      rw [hall, ← page_words, run_page hidle haddress hn hfits, M24C64.finish_idle rfl]
      exact ⟨⟨k, hk, rfl⟩, .inr ⟨k, hk, rfl⟩⟩

end page

end scu35.eeprom
