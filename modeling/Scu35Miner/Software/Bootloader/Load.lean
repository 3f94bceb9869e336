import Scu35Miner.Software.Bootloader.Image

open fips180 storage

namespace scu35.bootloader

open srec

/-- The read position: `n` bytes of the window have been consumed and the rest
of the cache holds the bytes that follow. -/
structure State.Position (b : Board) (s : State) (n : Nat) : Prop where
  pos_le : s.pos ≤ 64
  consumed : FLASH_START + n + 64 = s.flash + s.pos
  flash_le : s.flash ≤ FLASH_END
  cache : ∀ i, s.pos ≤ i → i < 64 → s.cache i = b.flash (s.flash + i - 64)

/-- `get_byte` either fails, or returns the next byte of the window; it changes
nothing but the read position. -/
theorem get_byte_cases {b : Board} {s : State} {n : Nat} (h : s.Position b n) :
    ∃ cache flash pos polls, let s' := { s with cache := cache, flash := flash, pos := pos, polls := polls }
      get_byte b s = (none, s') ∨
      (get_byte b s = (some (b.flash (FLASH_START + n)), s') ∧ s'.Position b (n + 1) ∧
        n < FLASH_END - FLASH_START) := by
  have hconsumed := h.consumed
  have hflash := h.flash_le
  simp only [FLASH_START, FLASH_END] at hconsumed hflash ⊢
  unfold get_byte
  by_cases hpos : s.pos = 64
  · by_cases hend : s.flash > FLASH_END - 64
    · exact ⟨s.cache, s.flash, s.pos, s.polls, .inl (by rw [if_pos hpos, if_pos hend])⟩
    · have hend' : s.flash ≤ 0x01000000 - 64 := by
        simp only [FLASH_END] at hend
        omega
      cases hok : (transfer b 68 s.polls).1 with
      | false =>
        refine ⟨s.cache, s.flash, s.pos, (transfer b 68 s.polls).2, .inl ?_⟩
        simp [hpos, hend, hok]
      | true =>
        refine ⟨fun i => b.flash (s.flash + i), s.flash + 64, 1, (transfer b 68 s.polls).2, .inr ⟨?_, ?_, by omega⟩⟩
        · simp [hpos, hend, hok, show 8388608 + n = s.flash by omega]
        · constructor
          · simp
          · simp only [FLASH_START]
            omega
          · simp only [FLASH_END]
            omega
          · intro i _ _
            simp [show s.flash + 64 + i - 64 = s.flash + i by omega]
  · have hle := h.pos_le
    refine ⟨s.cache, s.flash, s.pos + 1, s.polls, .inr ⟨?_, ?_, by omega⟩⟩
    · have hbyte := h.cache s.pos (Nat.le_refl _) (by omega)
      rw [show s.flash + s.pos - 64 = 8388608 + n by omega] at hbyte
      simp [hpos, ← hbyte]
    · constructor
      · simp only
        omega
      · simp only [FLASH_START]
        omega
      · simpa only [FLASH_END] using hflash
      · intro i hi hlt
        exact h.cache i (by simp only at hi; omega) hlt

theorem ram_history_append (xs ys : List Store) : ram_history (xs ++ ys) = ram_history xs ++ ram_history ys :=
  List.filterMap_append

/-- The stores of the vector loop. -/
def vector_stores (a : Nat) (data : List Byte) : List Store :=
  (writes_from a data).flatMap fun w => [.vectors w.1, .seen w.1]

/-- The vector loop applies the record's writes to the shadow vectors and marks
them as seen; besides these it only logs its stores. -/
theorem store_vectors_eq (s : State) (a : Nat) (data : List Byte) :
    store_vectors s a data = { s with
      vectors := fun x => (last_write (writes_from a data) x).getD (s.vectors x)
      seen := fun x => s.seen x || (last_write (writes_from a data) x).isSome
      stores := s.stores ++ vector_stores a data } := by
  induction data generalizing s a with
  | nil => simp [store_vectors, vector_stores, writes_from, last_write]
  | cons v data ih =>
    have hcons (x : Nat) : last_write (writes_from a (v :: data)) x =
        (last_write (writes_from (a + 1) data) x).or (if a = x then some v else none) := by
      rw [writes_from, ← List.singleton_append, last_write_append]
      rfl
    rw [store_vectors, ih]
    simp only [hcons]
    simp only [vector_stores, writes_from, List.flatMap_cons, List.append_assoc, State.mk.injEq, true_and, and_true]
    constructor
    · funext x
      by_cases hx : a = x
      · subst hx
        cases last_write (writes_from (a + 1) data) a <;> simp
      · cases last_write (writes_from (a + 1) data) x <;> simp [hx, Function.update_of_ne (Ne.symm hx)]
    · funext x
      by_cases hx : a = x
      · subst hx
        cases last_write (writes_from (a + 1) data) a <;> simp
      · cases last_write (writes_from (a + 1) data) x <;> simp [hx, Function.update_of_ne (Ne.symm hx)]

def ram_stores (ws : List (Nat × Byte)) : List Store := ws.map fun w => .ram w.1 w.2

@[simp] theorem ram_history_ram_stores (ws : List (Nat × Byte)) : ram_history (ram_stores ws) = ws := by
  simp [ram_history, ram_stores, List.filterMap_map]

@[simp] theorem ram_history_vector_stores (a : Nat) (data : List Byte) : ram_history (vector_stores a data) = [] := by
  simp [ram_history, vector_stores, List.filterMap_flatMap]

/-- The RAM loop stores a prefix of the record, and all of it exactly when every
byte read back. -/
theorem store_ram_cases (b : Board) (s : State) (a : Nat) (data : List Byte) :
    ∃ k, (store_ram b s a data).2 = { s with stores := s.stores ++ ram_stores ((writes_from a data).take k) } ∧
      ((store_ram b s a data).1 = true → (writes_from a data).take k = writes_from a data ∧
        (ReadBack b (ram_history s.stores) → ReadBack b (ram_history s.stores ++ writes_from a data))) := by
  induction data generalizing s a with
  | nil => exact ⟨0, by simp [store_ram, ram_stores], fun _ => ⟨by simp [writes_from], by simp [writes_from]⟩⟩
  | cons v data ih =>
    have hhistory : ram_history (s.stores ++ [.ram a v]) = ram_history s.stores ++ [(a, v)] := by
      rw [ram_history_append]
      rfl
    by_cases hv : b.read_back (ram_history s.stores ++ [(a, v)]) a = v
    · obtain ⟨k, hstate, hok⟩ := ih { s with stores := s.stores ++ [.ram a v] } (a + 1)
      refine ⟨k + 1, ?_, ?_⟩
      · simp [store_ram, hhistory, hv, hstate, writes_from, ram_stores]
      · intro hdone
        simp only [store_ram, hhistory, hv, bne_self_eq_false, Bool.false_eq_true, ↓reduceIte] at hdone
        obtain ⟨hall, hback⟩ := hok hdone
        rw [hhistory] at hback
        refine ⟨by simp [writes_from, hall], ?_⟩
        intro hread
        have hread' : ReadBack b (ram_history s.stores ++ [(a, v)]) := by
          intro before x y hprefix
          rcases List.prefix_concat_iff.mp hprefix with heq | hold
          · obtain ⟨rfl, hw⟩ := List.append_inj' heq rfl
            cases hw
            exact hv
          · exact hread before x y hold
        simpa [writes_from] using hback hread'
    · refine ⟨1, ?_, ?_⟩
      · simp [store_ram, hhistory, hv, writes_from, ram_stores]
      · simp [store_ram, hhistory, hv]

/-- What the loader's variables and stores amount to after the records `rs`. -/
structure State.Contents (b : Board) (s : State) (rs : List srec_record) : Prop where
  counts : CountsMatch rs
  records : s.data_records = BitVec.ofNat 32 (data_count rs)
  low : s.low = RAM_END ∨ ∃ r ∈ rs, is_data r = true ∧ in_ram r = true ∧ r.address.toNat = s.low
  high : s.high = RAM_START ∨ ∃ r ∈ rs, is_data r = true ∧ in_ram r = true ∧ r.address.toNat + r.size = s.high
  low_ge : RAM_START ≤ s.low
  high_le : s.high ≤ RAM_END
  vectors : ∀ a < vectors_size, s.vectors a = (effect rs a).getD 0
  seen : ∀ a < vectors_size, s.seen a = (effect rs a).isSome
  history : ram_history s.stores = (image_writes rs).filter fun w => RAM_START ≤ w.1
  read_back : ReadBack b (ram_history s.stores)

theorem CountsMatch.append {rs : List srec_record} {r : srec_record} (h : CountsMatch rs)
    (hr : is_count r = true → r.address.toNat = data_count rs) : CountsMatch (rs ++ [r]) := by
  intro before q hprefix hq
  rcases List.prefix_concat_iff.mp hprefix with heq | hold
  · obtain ⟨rfl, hlast⟩ := List.append_inj' heq rfl
    cases hlast
    exact hr hq
  · exact h before q hold hq

theorem effect_append (rs : List srec_record) (r : srec_record) (a : Nat) :
    effect (rs ++ [r]) a =
      (if is_data r then last_write (writes_from r.address.toNat r.data) a else none).or (effect rs a) := by
  rw [effect, image_writes_append, last_write_append]
  split <;> rfl

/-- Passes that change neither the variables nor the stores to memory. -/
theorem State.Contents.keep {b : Board} {s s' : State} {rs : List srec_record} (h : s.Contents b rs)
    (hrecords : s'.data_records = s.data_records) (hlow : s'.low = s.low) (hhigh : s'.high = s.high)
    (hvectors : s'.vectors = s.vectors) (hseen : s'.seen = s.seen)
    (hhistory : ram_history s'.stores = ram_history s.stores) : s'.Contents b rs where
  counts := h.counts
  records := hrecords.trans h.records
  low := hlow ▸ h.low
  high := hhigh ▸ h.high
  low_ge := hlow ▸ h.low_ge
  high_le := hhigh ▸ h.high_le
  vectors := hvectors ▸ h.vectors
  seen := hseen ▸ h.seen
  history := hhistory.trans h.history
  read_back := hhistory ▸ h.read_back

/-- Records that are not data only have to state a correct count. -/
theorem State.Contents.skip {b : Board} {s : State} {rs : List srec_record} {r : srec_record}
    (h : s.Contents b rs) (hdata : is_data r = false)
    (hr : is_count r = true → r.address.toNat = data_count rs) : s.Contents b (rs ++ [r]) := by
  have heffect (a : Nat) : effect (rs ++ [r]) a = effect rs a := by simp [effect_append, hdata]
  have hmem {q : srec_record} (hq : q ∈ rs) : q ∈ rs ++ [r] := List.mem_append_left _ hq
  exact {
    counts := h.counts.append hr
    records := by rw [data_count_append, hdata]; exact h.records
    low := h.low.imp_right fun ⟨q, hq, hrest⟩ => ⟨q, hmem hq, hrest⟩
    high := h.high.imp_right fun ⟨q, hq, hrest⟩ => ⟨q, hmem hq, hrest⟩
    low_ge := h.low_ge
    high_le := h.high_le
    vectors := fun a ha => by rw [heffect, h.vectors a ha]
    seen := fun a ha => by rw [heffect, h.seen a ha]
    history := by rw [image_writes_append, hdata, h.history]; simp
    read_back := h.read_back }

theorem not_count_of_data {r : srec_record} (h : is_data r = true) : is_count r ≠ true := by
  simp only [is_data, is_count, Bool.and_eq_true, bne_iff_ne, ne_eq, decide_eq_true_eq, Bool.or_eq_true,
    beq_iff_eq] at h ⊢
  omega

theorem records_succ {rs : List srec_record} {r : srec_record} (h : is_data r = true) {w : Word}
    (hw : w = BitVec.ofNat 32 (data_count rs)) : w + 1 = BitVec.ofNat 32 (data_count (rs ++ [r])) := by
  rw [hw, data_count_append, h, BitVec.ofNat_add]
  rfl

/-- A data record for the vectors. -/
theorem State.Contents.vector_record {b : Board} {s : State} {rs : List srec_record} {r : srec_record}
    (h : s.Contents b rs) (hdata : is_data r = true) (hrange : in_vectors r = true) (control : Control) :
    ({ store_vectors s r.address.toNat r.data with
        data_records := (store_vectors s r.address.toNat r.data).data_records + 1, control } : State).Contents b
      (rs ++ [r]) := by
  have hkept {P : srec_record → Prop} (hold : ∃ q ∈ rs, P q) : ∃ q ∈ rs ++ [r], P q := by
    obtain ⟨q, hq, hrest⟩ := hold
    exact ⟨q, List.mem_append_left _ hq, hrest⟩
  simp only [in_vectors, Bool.and_eq_true, decide_eq_true_eq] at hrange
  have hwrites : (writes_from r.address.toNat r.data).filter (fun w => RAM_START ≤ w.1) = [] := by
    rw [List.filter_eq_nil_iff]
    intro w hw
    have hbound := mem_writes_from hw
    simp only [srec_record.size, vectors_size] at hrange
    simp only [decide_eq_true_eq]
    simp only [RAM_START]
    omega
  rw [store_vectors_eq]
  exact {
    counts := h.counts.append fun hc => absurd hc (not_count_of_data hdata)
    records := records_succ hdata h.records
    low := h.low.imp_right hkept
    high := h.high.imp_right hkept
    low_ge := h.low_ge
    high_le := h.high_le
    vectors := fun a ha => by
      simp only [effect_append, hdata, ↓reduceIte, h.vectors a ha]
      cases last_write (writes_from r.address.toNat r.data) a <;> rfl
    seen := fun a ha => by
      simp only [effect_append, hdata, ↓reduceIte, h.seen a ha]
      cases last_write (writes_from r.address.toNat r.data) a <;> simp
    history := by
      simp only [ram_history_append, ram_history_vector_stores, List.append_nil, image_writes_append, hdata,
        ↓reduceIte, List.filter_append, hwrites, h.history]
    read_back := by
      simp only [ram_history_append, ram_history_vector_stores, List.append_nil]
      exact h.read_back }

/-- The writes of a RAM record all go to RAM. -/
theorem ram_writes {r : srec_record} (h : in_ram r = true) :
    (writes_from r.address.toNat r.data).filter (fun w => RAM_START ≤ w.1) =
      writes_from r.address.toNat r.data := by
  simp only [in_ram, Bool.and_eq_true, decide_eq_true_eq] at h
  rw [List.filter_eq_self]
  intro w hw
  have hbound := mem_writes_from hw
  simp only [decide_eq_true_eq]
  omega

/-- A data record for HyperRAM that has been stored and read back. -/
theorem State.Contents.ram_record {b : Board} {s : State} {rs : List srec_record} {r : srec_record}
    (h : s.Contents b rs) (hdata : is_data r = true) (hrange : in_ram r = true)
    (hread : ReadBack b (ram_history s.stores ++ writes_from r.address.toNat r.data)) (control : Control) :
    ({ s with
        stores := s.stores ++ ram_stores (writes_from r.address.toNat r.data)
        low := if r.address.toNat < s.low then r.address.toNat else s.low
        high := if r.address.toNat + r.size > s.high then r.address.toNat + r.size else s.high
        data_records := s.data_records + 1, control } : State).Contents b (rs ++ [r]) := by
  have hmem {q : srec_record} (hq : q ∈ rs) : q ∈ rs ++ [r] := List.mem_append_left _ hq
  have hram := hrange
  simp only [in_ram, Bool.and_eq_true, decide_eq_true_eq] at hrange
  obtain ⟨⟨hstart, hend⟩, hsize⟩ := hrange
  have hwrites := ram_writes hram
  have hlow (a : Nat) (ha : a < vectors_size) : last_write (writes_from r.address.toNat r.data) a = none := by
    rw [← Option.not_isSome_iff_eq_none, last_write_isSome]
    rintro ⟨w, hw, rfl⟩
    have hbound := mem_writes_from hw
    simp only [RAM_START, vectors_size] at hstart ha
    omega
  exact {
    counts := h.counts.append fun hc => absurd hc (not_count_of_data hdata)
    records := records_succ hdata h.records
    low := by
      dsimp only
      split
      · exact .inr ⟨r, by simp, hdata, hram, rfl⟩
      · exact h.low.imp_right fun ⟨q, hq, hrest⟩ => ⟨q, hmem hq, hrest⟩
    high := by
      dsimp only
      split
      · exact .inr ⟨r, by simp, hdata, hram, rfl⟩
      · exact h.high.imp_right fun ⟨q, hq, hrest⟩ => ⟨q, hmem hq, hrest⟩
    low_ge := by
      have := h.low_ge
      dsimp only
      split <;> omega
    high_le := by
      have := h.high_le
      dsimp only
      split <;> omega
    vectors := fun a ha => by
      simp only [effect_append, hdata, ↓reduceIte, hlow a ha, Option.none_or, h.vectors a ha]
    seen := fun a ha => by
      simp only [effect_append, hdata, ↓reduceIte, hlow a ha, Option.none_or, h.seen a ha]
    history := by
      simp only [ram_history_append, ram_history_ram_stores, image_writes_append, hdata, ↓reduceIte,
        List.filter_append, hwrites, h.history]
    read_back := by
      simp only [ram_history_append, ram_history_ram_stores]
      exact hread }

/-- The read position of two states is the same. -/
def State.SamePosition (s s' : State) : Prop := s'.cache = s.cache ∧ s'.flash = s.flash ∧ s'.pos = s.pos

theorem State.Position.keep {b : Board} {s s' : State} {n : Nat} (h : s.Position b n) (hsame : s.SamePosition s') :
    s'.Position b n := by
  obtain ⟨hcache, hflash, hpos⟩ := hsame
  constructor
  · rw [hpos]
    exact h.pos_le
  · rw [hflash, hpos]
    exact h.consumed
  · rw [hflash]
    exact h.flash_le
  · rw [hcache, hflash, hpos]
    exact h.cache

/-- What the terminating record must satisfy. -/
structure State.EntryChecked (s : State) (entry : Word) : Prop where
  low : s.low ≤ entry.toNat
  high : entry.toNat < s.high
  aligned : entry &&& 3 = 0

/-- One parsed record is rejected, or becomes part of the loaded image, or ends
it with a checked entry. -/
theorem process_cases {b : Board} {s : State} {rs : List srec_record} {r : srec_record} (h : s.Contents b rs)
    (hcount : data_count rs < 2 ^ 32) (hwidth : ∃ w, naddr r.type = some w) :
    (process b s r).control = .done none ∨
    ((process b s r).control = .start ∧ r.type < 7 ∧ (process b s r).Contents b (rs ++ [r]) ∧
      s.SamePosition (process b s r)) ∨
    ((process b s r).control = .done (some r.address) ∧ 7 ≤ r.type ∧ (process b s r).Contents b rs ∧
      (process b s r).EntryChecked r.address) := by
  unfold process
  by_cases h0 : r.type = 0
  · simp only [h0, ↓reduceIte]
    have hskip : s.Contents b (rs ++ [r]) := h.skip (by simp [is_data, h0]) (by simp [is_count, h0])
    exact .inr (.inl ⟨trivial, by omega, hskip.keep rfl rfl rfl rfl rfl rfl, rfl, rfl, rfl⟩)
  simp only [h0, ↓reduceIte]
  by_cases h56 : r.type = 5 ∨ r.type = 6
  · simp only [Bool.or_eq_true, decide_eq_true_eq, h56, ↓reduceIte]
    by_cases haddr : r.address = s.data_records
    · have hskip : s.Contents b (rs ++ [r]) := by
        apply h.skip
        · simp only [is_data, Bool.and_eq_false_iff, decide_eq_false_iff_not]
          exact .inr (by omega)
        · intro _
          rw [haddr, h.records, BitVec.toNat_ofNat]
          exact Nat.mod_eq_of_lt hcount
      simp only [haddr, bne_self_eq_false, Bool.false_eq_true, ↓reduceIte]
      exact .inr (.inl ⟨trivial, by omega, hskip.keep rfl rfl rfl rfl rfl rfl, rfl, rfl, rfl⟩)
    · simp only [bne_iff_ne, ne_eq, haddr, not_false_eq_true, ↓reduceIte]
      exact .inl rfl
  simp only [Bool.or_eq_true, decide_eq_true_eq, h56, ↓reduceIte]
  by_cases h7 : 7 ≤ r.type
  · simp only [h7, ↓reduceIte]
    split
    next hok =>
      simp only [Bool.and_eq_true, decide_eq_true_eq, bne_iff_ne, beq_iff_eq] at hok
      obtain ⟨⟨⟨_, hlow⟩, hhigh⟩, halign⟩ := hok
      exact .inr (.inr ⟨rfl, trivial, h.keep rfl rfl rfl rfl rfl rfl, hlow, hhigh, halign⟩)
    next => exact .inl rfl
  simp only [h7, ↓reduceIte]
  have hdata : is_data r = true := by
    obtain ⟨w, hw⟩ := hwidth
    have h4 : r.type ≠ 4 := by
      intro h4
      rw [h4] at hw
      cases hw
    simp only [is_data, Bool.and_eq_true, bne_iff_ne, decide_eq_true_eq]
    omega
  cases hvec : in_vectors r with
  | true =>
    simp only [↓reduceIte]
    refine .inr (.inl ⟨trivial, by omega, h.vector_record hdata hvec .start, ?_⟩)
    rw [store_vectors_eq]
    exact ⟨rfl, rfl, rfl⟩
  | false =>
    simp only [Bool.false_eq_true, ↓reduceIte]
    cases hram : in_ram r with
    | false =>
      simp only [Bool.false_eq_true, ↓reduceIte]
      exact .inl rfl
    | true =>
      simp only [↓reduceIte]
      obtain ⟨k, hstate, hdone⟩ := store_ram_cases b s r.address.toNat r.data
      cases hok : (store_ram b s r.address.toNat r.data).1 with
      | false =>
        simp only [Bool.not_false, ↓reduceIte]
        exact .inl rfl
      | true =>
        obtain ⟨hall, hread⟩ := hdone hok
        simp only [Bool.not_true, Bool.false_eq_true, ↓reduceIte, hstate, hall]
        exact .inr (.inl ⟨trivial, by omega, h.ram_record hdata hram (hread h.read_back) .start, rfl, rfl, rfl⟩)

/-- The line that `load` is reading. -/
def Control.open_line : Control → Option (List Byte)
  | .line text => some text
  | _ => none

/-- The loader after `n` bytes that make up the records `rs` and the open
line. -/
structure State.Loading (b : Board) (s : State) (n : Nat) (rs : List srec_record) : Prop where
  position : s.Position b n
  scan : scan b.flash n = some (rs, s.control.open_line)
  body : ∀ r ∈ rs, r.type < 7
  contents : s.Contents b rs

/-- The loader at the end of an accepted image. -/
structure State.Accepted (b : Board) (s : State) (entry : Word) (n : Nat) (rs : List srec_record)
    (last : srec_record) : Prop where
  image : Image b.flash n rs last
  address : last.address = entry
  contents : s.Contents b rs
  checked : s.EntryChecked entry

/-- After `n` passes the loader has failed, has accepted an image, or has
consumed exactly `n` bytes. -/
def State.Progress (b : Board) (n : Nat) (s : State) : Prop :=
  match s.control with
  | .done none => True
  | .done (some entry) => ∃ n rs last, s.Accepted b entry n rs last
  | _ => ∃ rs, s.Loading b n rs

theorem scan_length_le {flash : Nat → Byte} {n : Nat} {rs : List srec_record} {line : Option (List Byte)}
    (h : scan flash n = some (rs, line)) : rs.length ≤ n := by
  induction n generalizing rs line with
  | zero =>
    cases h
    simp
  | succ n ih =>
    rw [scan] at h
    split at h
    · cases h
    next qs hq =>
      have := ih hq
      simp only at h
      split at h
      · cases h
        omega
      · split at h
        · cases h
          omega
        · cases h
    next qs text hq =>
      have := ih hq
      simp only at h
      split at h
      · split at h
        · cases h
        · cases h
          simp only [List.length_append, List.length_singleton]
          omega
      · cases h
        omega

theorem Progress_of_fail {b : Board} {n : Nat} {s : State} (h : s.control = .done none) : s.Progress b n := by
  simp [State.Progress, h]

/-- A pass between records. -/
theorem load_step_start {b : Board} {s : State} {n : Nat} {rs : List srec_record} (h : s.Loading b n rs)
    (hcontrol : s.control = .start) : (load_step b s).Progress b (n + 1) := by
  obtain ⟨cache, flash, pos, polls, hcases⟩ := get_byte_cases h.position
  have hscan : scan b.flash n = some (rs, none) := by simpa [hcontrol, Control.open_line] using h.scan
  have hnext := scan_between hscan
  rw [load_step, hcontrol]
  rcases hcases with hnone | ⟨hsome, hposition, _⟩
  · simp only [hnone]
    exact Progress_of_fail rfl
  · simp only [hsome]
    by_cases hnl : newline (b.flash (FLASH_START + n)) = true
    · simp only [hnl, ↓reduceIte] at hnext ⊢
      simp only [State.Progress, hcontrol]
      exact ⟨rs, hposition.keep ⟨rfl, rfl, rfl⟩, hnext, h.body, h.contents.keep rfl rfl rfl rfl rfl rfl⟩
    · simp only [hnl, Bool.false_eq_true, ↓reduceIte] at hnext ⊢
      by_cases hS : b.flash (FLASH_START + n) = 0x53
      · rw [if_pos hS] at hnext
        simp only [hS, bne_self_eq_false, Bool.false_eq_true, ↓reduceIte, State.Progress] at hnext ⊢
        refine ⟨rs, hposition.keep ⟨rfl, rfl, rfl⟩, hnext, h.body, h.contents.keep rfl rfl rfl rfl rfl ?_⟩
        simp [ram_history]
      · simp only [bne_iff_ne, ne_eq, hS, not_false_eq_true, ↓reduceIte]
        exact Progress_of_fail rfl

theorem ram_history_data (writes : List Nat) : ram_history (writes.map .data) = [] := by
  simp [ram_history, List.filterMap_map]

/-- A pass inside a line. -/
theorem load_step_line {b : Board} {s : State} {n : Nat} {rs : List srec_record} {text : List Byte}
    (h : s.Loading b n rs) (hcontrol : s.control = .line text) : (load_step b s).Progress b (n + 1) := by
  obtain ⟨cache, flash, pos, polls, hcases⟩ := get_byte_cases h.position
  have hscan : scan b.flash n = some (rs, some text) := by simpa [hcontrol, Control.open_line] using h.scan
  have hnext := scan_inside hscan
  rw [load_step, hcontrol]
  rcases hcases with hnone | ⟨hsome, hposition, hroom⟩
  · simp only [hnone]
    exact Progress_of_fail rfl
  · simp only [hsome]
    by_cases hfull : text.length = line_size
    · simp only [hfull, ↓reduceIte]
      exact Progress_of_fail rfl
    simp only [hfull, ↓reduceIte]
    by_cases hnl : newline (b.flash (FLASH_START + n)) = true
    · simp only [hnl, ↓reduceIte] at hnext ⊢
      cases hparse : (srec_parse text).1 with
      | none => exact Progress_of_fail rfl
      | some r =>
        rw [hparse] at hnext
        simp only [Option.map_some] at hnext
        have hcount : data_count rs < 2 ^ 32 := by
          have hlen := scan_length_le hscan
          have hfilter := List.length_filter_le is_data rs
          simp only [FLASH_END, FLASH_START] at hroom
          simp only [data_count]
          omega
        obtain ⟨width, values, hencodes⟩ := srec_parse_encodes hparse
        have hstored : ({ s with
            cache := cache, flash := flash, pos := pos, polls := polls
            stores := s.stores ++ (srec_parse text).2.map .data } : State).Contents b rs := by
          refine h.contents.keep rfl rfl rfl rfl rfl ?_
          rw [ram_history_append, ram_history_data, List.append_nil]
        simp only
        rcases process_cases hstored hcount ⟨width, hencodes.naddr⟩ with
          hfail | ⟨hstart, htype, hcontents, hsame⟩ | ⟨hdone, htype, hcontents, hchecked⟩
        · exact Progress_of_fail hfail
        · simp only [State.Progress, hstart]
          refine ⟨rs ++ [r], (hposition.keep ⟨rfl, rfl, rfl⟩).keep hsame, ?_, ?_, hcontents⟩
          · rw [hstart]
            exact hnext
          · intro q hq
            rcases List.mem_append.mp hq with hold | hnew
            · exact h.body q hold
            · rw [List.mem_singleton.mp hnew]
              exact htype
        · simp only [State.Progress, hdone]
          exact ⟨n + 1, rs, r, ⟨hnext, h.body, htype⟩, rfl, hcontents, hchecked⟩
    · simp only [hnl, Bool.false_eq_true, ↓reduceIte] at hnext ⊢
      simp only [State.Progress]
      refine ⟨rs, hposition.keep ⟨rfl, rfl, rfl⟩, hnext, h.body, h.contents.keep rfl rfl rfl rfl rfl ?_⟩
      simp [ram_history]

theorem load_step_done {b : Board} {s : State} {entry : Option Word} (h : s.control = .done entry) :
    load_step b s = s := by
  simp [load_step, h]

theorem load_step_progress {b : Board} {s : State} {n : Nat} (h : s.Progress b n) :
    (load_step b s).Progress b (n + 1) := by
  cases hcontrol : s.control with
  | start =>
    simp only [State.Progress, hcontrol] at h
    obtain ⟨rs, hloading⟩ := h
    exact load_step_start hloading hcontrol
  | line text =>
    simp only [State.Progress, hcontrol] at h
    obtain ⟨rs, hloading⟩ := h
    exact load_step_line hloading hcontrol
  | done entry =>
    rw [load_step_done hcontrol]
    cases entry with
    | none => exact Progress_of_fail hcontrol
    | some e => simpa only [State.Progress, hcontrol] using h

theorem init_loading (b : Board) : State.init.Loading b 0 [] where
  position := ⟨by simp [State.init], by simp [State.init], by simp [State.init, FLASH_START, FLASH_END], by
    intro i hi hlt
    simp only [State.init] at hi
    omega⟩
  scan := rfl
  body := by simp
  contents := {
    counts := by
      intro before r hprefix
      simp at hprefix
    records := rfl
    low := .inl rfl
    high := .inl rfl
    low_ge := by simp [State.init, RAM_START, RAM_END]
    high_le := by simp [State.init, RAM_START, RAM_END]
    vectors := fun a _ => rfl
    seen := fun a _ => rfl
    history := rfl
    read_back := by
      intro before a v hprefix
      simp [ram_history, State.init] at hprefix }

theorem load_succ (b : Board) (n : Nat) : load b (n + 1) = load_step b (load b n) :=
  Function.iterate_succ_apply' (load_step b) n State.init

theorem load_progress (b : Board) (n : Nat) : (load b n).Progress b n := by
  induction n with
  | zero => exact ⟨[], init_loading b⟩
  | succ n ih =>
    rw [load_succ]
    exact load_step_progress ih

/-- The window is finite, so enough passes always finish, whatever the flash
holds and the SPI and HyperRAM do. -/
theorem load_done (b : Board) {n : Nat} (hn : passes ≤ n) : ∃ entry, (load b n).control = .done entry := by
  have hprogress := load_progress b n
  have hbound {rs : List srec_record} (h : (load b n).Loading b n rs) : False := by
    have hconsumed := h.position.consumed
    have hflash := h.position.flash_le
    have hpos := h.position.pos_le
    simp only [passes, FLASH_END, FLASH_START] at hconsumed hflash hn
    omega
  cases hcontrol : (load b n).control with
  | start =>
    simp only [State.Progress, hcontrol] at hprogress
    obtain ⟨rs, h⟩ := hprogress
    exact absurd h hbound
  | line text =>
    simp only [State.Progress, hcontrol] at hprogress
    obtain ⟨rs, h⟩ := hprogress
    exact absurd h hbound
  | done entry => exact ⟨entry, rfl⟩

end scu35.bootloader
