import Scu35Miner.Software.Bootloader.Load

open fips180 storage

namespace scu35.bootloader

open srec

/-- The stores that `load` may make: to HyperRAM and to the loader's own
arrays. -/
def Store.InBounds : Store → Prop
  | .ram a _ => RAM_START ≤ a ∧ a < RAM_END
  | .live _ _ => False
  | .line i => i < line_size
  | .data i => i < 252
  | .vectors i => i < vectors_size
  | .seen i => i < vectors_size

/-- All stores so far were in bounds, and so is the next one to `line`. -/
structure State.Bounded (s : State) : Prop where
  stores : ∀ st ∈ s.stores, st.InBounds
  line : ∀ text, s.control = .line text → text.length ≤ line_size

theorem mem_vector_stores {a : Nat} {data : List Byte} {st : Store} (hbound : a + data.length ≤ vectors_size)
    (h : st ∈ vector_stores a data) : st.InBounds := by
  simp only [vector_stores, List.mem_flatMap, List.mem_cons, List.not_mem_nil, or_false] at h
  obtain ⟨w, hw, rfl | rfl⟩ := h <;>
  · have := mem_writes_from hw
    simp only [Store.InBounds]
    omega

theorem mem_ram_stores {a k : Nat} {data : List Byte} {st : Store} (hlow : RAM_START ≤ a)
    (hbound : a + data.length ≤ RAM_END) (h : st ∈ ram_stores ((writes_from a data).take k)) : st.InBounds := by
  simp only [ram_stores, List.mem_map] at h
  obtain ⟨w, hw, rfl⟩ := h
  have := mem_writes_from (List.mem_of_mem_take hw)
  simp only [Store.InBounds]
  omega

/-- A record's address range decides which array its bytes go to. -/
theorem process_bounded (b : Board) {s : State} (r : srec_record) (h : ∀ st ∈ s.stores, st.InBounds) :
    (process b s r).Bounded := by
  have hstay {s' : State} (hs : s'.stores = s.stores) (hline : s'.control.open_line = none) : s'.Bounded := by
    refine ⟨hs ▸ h, ?_⟩
    intro text htext
    rw [htext] at hline
    cases hline
  unfold process
  simp only
  split
  · exact hstay rfl rfl
  · split
    · split <;> exact hstay rfl rfl
    · split
      · split <;> exact hstay rfl rfl
      · split
        next hvec =>
          simp only [in_vectors, Bool.and_eq_true, decide_eq_true_eq] at hvec
          have hsize : r.data.length ≤ vectors_size - r.address.toNat := hvec.2
          rw [store_vectors_eq]
          constructor
          · intro st hst
            rcases List.mem_append.mp hst with hold | hnew
            · exact h st hold
            · exact mem_vector_stores (by omega) hnew
          · intro text htext
            cases htext
        · split
          next hram =>
            simp only [in_ram, Bool.and_eq_true, decide_eq_true_eq] at hram
            obtain ⟨⟨hstart, hend⟩, hsize⟩ := hram
            have hlen : r.data.length ≤ RAM_END - r.address.toNat := hsize
            obtain ⟨k, hstate, _⟩ := store_ram_cases b s r.address.toNat r.data
            have hstores : ∀ st ∈ (store_ram b s r.address.toNat r.data).2.stores, st.InBounds := by
              rw [hstate]
              intro st hst
              rcases List.mem_append.mp hst with hold | hnew
              · exact h st hold
              · exact mem_ram_stores hstart (by omega) hnew
            split
            · exact ⟨hstores, fun text htext => by cases htext⟩
            · exact ⟨hstores, fun text htext => by cases htext⟩
          · exact hstay rfl rfl

/-- `get_byte` makes no store of interest and leaves the control point. -/
theorem get_byte_frame (b : Board) (s : State) :
    (get_byte b s).2.stores = s.stores ∧ (get_byte b s).2.control = s.control := by
  unfold get_byte
  split
  · split
    · exact ⟨rfl, rfl⟩
    · simp only
      split <;> exact ⟨rfl, rfl⟩
  · exact ⟨rfl, rfl⟩

theorem load_step_bounded (b : Board) {s : State} (h : s.Bounded) : (load_step b s).Bounded := by
  obtain ⟨hstores, hcontrol⟩ := get_byte_frame b s
  have hfail {s' : State} (hs : ∀ st ∈ s'.stores, st.InBounds) : s'.fail.Bounded :=
    ⟨hs, fun text htext => by cases htext⟩
  rcases hbyte : get_byte b s with ⟨c, s'⟩
  rw [hbyte] at hstores hcontrol
  simp only at hstores hcontrol
  have hs' : ∀ st ∈ s'.stores, st.InBounds := hstores ▸ h.stores
  unfold load_step
  cases hpoint : s.control with
  | done entry => exact h
  | start =>
    cases c with
    | none =>
      simp only [hbyte]
      exact hfail hs'
    | some c =>
      simp only [hbyte]
      split
      · exact ⟨hs', fun text htext => by rw [hcontrol, hpoint] at htext; cases htext⟩
      · split
        · exact hfail hs'
        · constructor
          · intro st hst
            rcases List.mem_append.mp hst with hold | hnew
            · exact hs' st hold
            · rw [List.mem_singleton.mp hnew]
              simp [Store.InBounds, line_size]
          · intro text htext
            cases htext
            simp [line_size]
  | line text =>
    have hlen := h.line text hpoint
    cases c with
    | none =>
      simp only [hbyte]
      exact hfail hs'
    | some c =>
      simp only [hbyte]
      split
      · exact hfail hs'
      next hfull =>
        split
        · have hdata : ∀ st ∈ s'.stores ++ (srec_parse text).2.map .data, st.InBounds := by
            intro st hst
            rcases List.mem_append.mp hst with hold | hnew
            · exact hs' st hold
            · obtain ⟨i, hi, rfl⟩ := List.mem_map.mp hnew
              exact srec_parse_writes text i hi
          split
          · exact hfail hdata
          · exact process_bounded b _ hdata
        · constructor
          · intro st hst
            rcases List.mem_append.mp hst with hold | hnew
            · exact hs' st hold
            · rw [List.mem_singleton.mp hnew]
              simp only [Store.InBounds]
              omega
          · intro text' htext
            cases htext
            simp only [List.length_append, List.length_singleton]
            omega

theorem load_bounded (b : Board) (n : Nat) : (load b n).Bounded := by
  induction n with
  | zero => exact ⟨by simp [load, State.init], fun text htext => by cases htext⟩
  | succ n ih =>
    rw [load_succ]
    exact load_step_bounded b ih

/-- HyperRAM that returns what was stored last. -/
def FaithfulRam (b : Board) (initial : Nat → Byte) : Prop :=
  ∀ history a, b.read_back history a = (last_write history a).getD (initial a)

/-- What a transfer of control to `entry` should rest on. -/
structure Verified (b : Board) (entry : Word) (rs : List srec_record) (last : srec_record) : Prop where
  image : ∃ n, Image b.flash n rs last
  encodes : ∀ r ∈ rs ++ [last], ∃ line width values, r.Encodes line width values
  address : last.address = entry
  counts : CountsMatch rs
  supplied : ∀ a ∈ vector_bytes, Supplied rs a
  read_back : ReadBack b (ram_history (main b).stores)
  aligned : entry.toNat % 4 = 0
  in_span : InLoadedSpan rs entry.toNat
  vectors : ∀ a < vectors_size, (main b).vectors a = (effect rs a).getD 0
  ram : ∀ initial, FaithfulRam b initial → ∀ a, RAM_START ≤ a →
    b.read_back (ram_history (main b).stores) a = (effect rs a).getD (initial a)

/-- The loader terminates with all its stores in bounds, and touches the live
vectors and transfers control only on a verified image. -/
structure Safe (b : Board) : Prop where
  terminates : ∀ n, passes ≤ n → ∃ entry, (load b n).control = .done entry ∧ load b n = load b passes
  in_bounds : ∀ st ∈ (main b).stores, st.InBounds ∨ ∃ a ∈ vector_bytes, ∃ v, st = .live a v
  live : ∀ a v, .live a v ∈ (main b).stores → ∃ entry, (main b).jump = some entry
  verified : ∀ entry, (main b).jump = some entry → ∃ rs last, Verified b entry rs last

theorem load_stable (b : Board) {n m : Nat} {entry : Option Word} (h : (load b n).control = .done entry)
    (hle : n ≤ m) : load b m = load b n := by
  induction m, hle using Nat.le_induction with
  | base => rfl
  | succ m _ ih => rw [load_succ, load_step_done (ih ▸ h), ih]

/-- Control is transferred exactly if the loader accepted an image that
supplies all vectors. -/
theorem finish_jump_iff (s : State) (entry : Word) :
    (finish s).jump = some entry ↔ s.control = .done (some entry) ∧ vector_bytes.all s.seen = true := by
  unfold finish
  cases hcontrol : s.control with
  | start => simp
  | line text => simp
  | done e =>
    cases e with
    | none => simp
    | some e => cases hall : vector_bytes.all s.seen <;> simp

theorem finish_vectors (s : State) : (finish s).vectors = s.vectors := by
  unfold finish
  split
  · split <;> rfl
  · rfl

/-- The live vectors are stored to on the way to the jump only. -/
theorem finish_stores (s : State) :
    (finish s).stores = s.stores ∨
      ((∃ entry, (finish s).jump = some entry) ∧
        (finish s).stores = s.stores ++ vector_bytes.map fun a => .live a (s.vectors a)) := by
  unfold finish
  split
  next entry hcontrol =>
    split
    next hall => exact .inr ⟨⟨entry, rfl⟩, rfl⟩
    next => exact .inl rfl
  next => exact .inl rfl

theorem ram_history_live (vectors : Cells Byte) (addresses : List Nat) :
    ram_history (addresses.map fun a => .live a (vectors a)) = [] := by
  simp [ram_history, List.filterMap_map]

theorem finish_history (s : State) : ram_history (finish s).stores = ram_history s.stores := by
  rcases finish_stores s with heq | ⟨_, heq⟩
  · rw [heq]
  · rw [heq, ram_history_append, ram_history_live, List.append_nil]

theorem finish_in_bounds {s : State} (h : ∀ st ∈ s.stores, st.InBounds) :
    ∀ st ∈ (finish s).stores, st.InBounds ∨ ∃ a ∈ vector_bytes, ∃ v, st = .live a v := by
  intro st hst
  rcases finish_stores s with heq | ⟨_, heq⟩
  · rw [heq] at hst
    exact .inl (h st hst)
  · rw [heq] at hst
    rcases List.mem_append.mp hst with hold | hnew
    · exact .inl (h st hold)
    · obtain ⟨a, ha, rfl⟩ := List.mem_map.mp hnew
      exact .inr ⟨a, ha, _, rfl⟩

theorem finish_live {s : State} (h : ∀ st ∈ s.stores, st.InBounds) {a : Nat} {v : Byte}
    (hlive : .live a v ∈ (finish s).stores) : ∃ entry, (finish s).jump = some entry := by
  rcases finish_stores s with heq | ⟨hjump, _⟩
  · rw [heq] at hlive
    exact absurd (h _ hlive) id
  · exact hjump

theorem entry_aligned {entry : Word} (h : entry &&& 3 = 0) : entry.toNat % 4 = 0 := by
  have hnat := congrArg BitVec.toNat h
  rw [BitVec.toNat_and] at hnat
  exact (Nat.and_two_pow_sub_one_eq_mod entry.toNat 2).symm.trans hnat

/-- Every scanned record is the content of a line with a correct checksum. -/
theorem scan_encodes {flash : Nat → Byte} {n : Nat} {rs : List srec_record} {line : Option (List Byte)}
    (h : scan flash n = some (rs, line)) : ∀ r ∈ rs, ∃ line width values, r.Encodes line width values := by
  induction n generalizing rs line with
  | zero =>
    cases h
    simp
  | succ n ih =>
    rcases hprev : scan flash n with _ | ⟨qs, _ | text⟩
    · rw [scan, hprev] at h
      cases h
    · rw [scan_between hprev] at h
      split at h
      · cases h
        exact ih hprev
      · split at h
        · cases h
          exact ih hprev
        · cases h
    · rw [scan_inside hprev] at h
      split at h
      · obtain ⟨r, hr, heq⟩ := Option.map_eq_some_iff.mp h
        cases heq
        intro q hq
        rcases List.mem_append.mp hq with hold | hnew
        · exact ih hprev q hold
        · rw [List.mem_singleton.mp hnew]
          exact ⟨text, srec_parse_encodes hr⟩
      · cases h
        exact ih hprev

/-- Where an entry may lie: at or above the start of a RAM record, below the end
of one, and at a multiple of four. -/
structure EntryOk (rs : List srec_record) (entry : Word) : Prop where
  low : ∃ r ∈ rs, is_data r = true ∧ in_ram r = true ∧ r.address.toNat ≤ entry.toNat
  high : ∃ r ∈ rs, is_data r = true ∧ in_ram r = true ∧ entry.toNat < r.address.toNat + r.size
  aligned : entry &&& 3 = 0

section Entry

variable {b : Board} {s : State} {rs : List srec_record} {entry : Word}

/-- The entry check finds a RAM record that starts at or below the entry and one
that ends above it, empty ones included. -/
theorem State.EntryChecked.entry_ok (hc : s.Contents b rs) (he : s.EntryChecked entry) : EntryOk rs entry := by
  have hlow := he.low
  have hhigh := he.high
  have hge := hc.low_ge
  have hle := hc.high_le
  refine ⟨?_, ?_, he.aligned⟩
  · rcases hc.low with hend | ⟨r, hr, hdata, hram, haddr⟩
    · omega
    · exact ⟨r, hr, hdata, hram, by omega⟩
  · rcases hc.high with hstart | ⟨r, hr, hdata, hram, haddr⟩
    · omega
    · exact ⟨r, hr, hdata, hram, by omega⟩

theorem in_ram_start {r : srec_record} (h : in_ram r = true) : RAM_START ≤ r.address.toNat := by
  simp only [in_ram, Bool.and_eq_true, decide_eq_true_eq] at h
  exact h.1.1

/-- An entry that passes the check lies inside the loaded span unless an empty
record has stretched the checked one to it. -/
theorem EntryOk.inLoadedSpan_iff (h : EntryOk rs entry) :
    InLoadedSpan rs entry.toNat ↔ ¬ EmptyStretch rs entry.toNat := by
  obtain ⟨⟨r0, hr0, hdata0, hram0, hle⟩, ⟨r1, hr1, hdata1, hram1, hlt⟩, _⟩ := h
  constructor
  · rintro ⟨⟨a, ha, hstart, hbelow⟩, a', ha', hstart', habove⟩ ⟨r, _, _, _, _, ⟨_, hall⟩ | ⟨_, hall⟩⟩
    · have := hall a ha hstart
      omega
    · have := hall a' ha' hstart'
      omega
  · intro hno
    constructor
    · by_contra hnone
      have hall : ∀ a, Supplied rs a → RAM_START ≤ a → entry.toNat < a := by
        intro a ha hstart
        by_contra hle'
        exact hnone ⟨a, ha, hstart, by omega⟩
      have hempty : r0.data = [] := by
        rw [← List.length_eq_zero_iff]
        by_contra hpos
        have hsup := supplied_of_mem hr0 hdata0 (i := 0) (Nat.pos_of_ne_zero hpos)
        have := hall _ hsup (by have := in_ram_start hram0; omega)
        omega
      exact hno ⟨r0, hr0, hdata0, hram0, hempty, .inl ⟨hle, hall⟩⟩
    · by_contra hnone
      have hall : ∀ a, Supplied rs a → RAM_START ≤ a → a < entry.toNat := by
        intro a ha hstart
        by_contra hle'
        exact hnone ⟨a, ha, hstart, by omega⟩
      have hempty : r1.data = [] := by
        rw [← List.length_eq_zero_iff]
        by_contra hpos
        have hsize : r1.size ≠ 0 := hpos
        have hsup := supplied_of_mem hr1 hdata1 (i := r1.size - 1) (by omega)
        have := hall _ hsup (by have := in_ram_start hram1; omega)
        omega
      have hsize : r1.size = 0 := by rw [srec_record.size, hempty, List.length_nil]
      exact hno ⟨r1, hr1, hdata1, hram1, hempty, .inr ⟨by omega, hall⟩⟩

end Entry

/-- Loads from faithful RAM return the effect of the image. -/
theorem ram_effect {b : Board} {s : State} {rs : List srec_record} (hc : s.Contents b rs) {a : Nat}
    (ha : RAM_START ≤ a) : last_write (ram_history s.stores) a = effect rs a := by
  rw [hc.history, effect]
  induction image_writes rs using List.reverseRecOn with
  | nil => rfl
  | append_singleton ws w ih =>
    rw [List.filter_append, last_write_concat]
    by_cases hw : w.1 = a
    · have hram : RAM_START ≤ w.1 := hw ▸ ha
      simp only [List.filter_cons, hram, decide_true, ↓reduceIte, List.filter_nil]
      rw [last_write_concat]
      simp [hw]
    · by_cases hram : RAM_START ≤ w.1
      · simp only [List.filter_cons, hram, decide_true, ↓reduceIte, List.filter_nil, hw]
        rw [last_write_concat, if_neg hw, ih]
      · simp only [List.filter_cons, hram, decide_false, Bool.false_eq_true, ↓reduceIte, List.filter_nil,
          List.append_nil, hw, ih]

theorem vector_bytes_lt : ∀ a ∈ vector_bytes, a < vectors_size := by decide

/-- Everything that a transfer of control rests on except where the entry
lies. -/
theorem finish_verified {b : Board} {s : State} {entry : Word} {n : Nat} {rs : List srec_record}
    {last : srec_record} (hmain : main b = finish s) (hacc : s.Accepted b entry n rs last)
    (hseen : vector_bytes.all s.seen = true) (hspan : InLoadedSpan rs entry.toNat) : Verified b entry rs last where
  image := ⟨n, hacc.image⟩
  encodes := scan_encodes hacc.image.scan
  address := hacc.address
  counts := hacc.contents.counts
  supplied := by
    intro a ha
    have h := List.all_eq_true.mp hseen a ha
    rwa [hacc.contents.seen a (vector_bytes_lt a ha)] at h
  read_back := by
    rw [hmain, finish_history]
    exact hacc.contents.read_back
  aligned := entry_aligned hacc.checked.aligned
  in_span := hspan
  vectors := by
    intro a ha
    rw [hmain, finish_vectors, hacc.contents.vectors a ha]
  ram := by
    intro initial hfaithful a ha
    rw [hmain, finish_history, hfaithful, ram_effect hacc.contents ha]

theorem load_accepted {b : Board} {n : Nat} {entry : Word} (h : (load b n).control = .done (some entry)) :
    ∃ n' rs last, (load b n).Accepted b entry n' rs last := by
  have hprogress := load_progress b n
  simpa only [State.Progress, h] using hprogress

end scu35.bootloader
