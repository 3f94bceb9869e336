import Scu35Miner.Software.Settings
import Scu35Miner.Transition.Run

open fips180 storage transition

namespace scu35.settings

theorem u32_eq (b : Cells Byte) (off : Nat) :
    u32 b off = ofBytes (b (off + 3)) (b (off + 2)) (b (off + 1)) (b off) := by
  have h := sha256_sw.load_be32_eq [b (off + 3), b (off + 2), b (off + 1), b off]
  simp only [List.getD_cons_zero, List.getD_cons_succ] at h
  rw [← h, u32, sha256_sw.load_be32]
  simp only [List.getD_cons_zero, List.getD_cons_succ]
  generalize (b off).setWidth 32 = b0, (b (off + 1)).setWidth 32 <<< 8 = b1,
    (b (off + 2)).setWidth 32 <<< 16 = b2, (b (off + 3)).setWidth 32 <<< 24 = b3
  ac_rfl

theorem u32_put32 (b : Cells Byte) (off : Nat) (n : Word) : u32 (put32 b off n) off = n := by
  have hbyte (i : Nat) (hi : i < 4) : put32 b off n (off + i) = n.extractLsb' (8 * i) 8 := by
    rw [put32, copy_inside _ _ (by omega) (by omega), Nat.add_sub_cancel_left]
    apply BitVec.eq_of_getLsbD_eq
    intro j hj
    simp [hj]
  have h0 := hbyte 0 (by omega)
  rw [Nat.add_zero] at h0
  rw [u32_eq, h0, hbyte 1 (by omega), hbyte 2 (by omega), hbyte 3 (by omega)]
  exact ofBytes_wordBytes n

theorem u32_congr {a b : Cells Byte} (off : Nat) (h : ∀ i, off ≤ i → i < off + 4 → a i = b i) :
    u32 a off = u32 b off := by
  simp only [u32, h off (by omega) (by omega), h (off + 1) (by omega) (by omega),
    h (off + 2) (by omega) (by omega), h (off + 3) (by omega) (by omega)]

theorem crc_congr {a b : Cells Byte} {n : Nat} (h : ∀ i < n, a i = b i) : crc a n = crc b n := by
  unfold crc
  congr 1
  apply List.foldl_ext
  intro c i hi
  rw [h i (List.mem_range.mp hi)]

/-- The settings are the bytes from 16 to 311 of a record. -/
theorem unpack_congr_fields {a b : Cells Byte} (h : ∀ i, 16 ≤ i → i < 312 → a i = b i) : unpack a = unpack b := by
  have hfield (off n : Nat) (hlow : 16 ≤ off) (hn : off + n ≤ 312) :
      (Vector.ofFn fun i : Fin n => a (off + i)) = Vector.ofFn fun i : Fin n => b (off + i) := by
    congr 1
    funext i
    have hi := i.isLt
    exact h (off + i) (by omega) (by omega)
  simp only [unpack, h 22 (by omega) (by omega), h 23 (by omega) (by omega), hfield 16 6 (by omega) (by omega),
    hfield 24 96 (by omega) (by omega), hfield 120 128 (by omega) (by omega), hfield 248 64 (by omega) (by omega)]

theorem unpack_congr {a b : Cells Byte} (h : ∀ i < 512, a i = b i) : unpack a = unpack b :=
  unpack_congr_fields fun i _ hi => h i (Nat.lt_trans hi (by decide))

/-- Validity reads nothing outside the record. -/
theorem record_valid_congr {a b : Cells Byte} (h : ∀ i < 512, a i = b i) : record_valid a = record_valid b := by
  have hmagic : (List.range 4).all (fun i => a i == magic i) = (List.range 4).all (fun i => b i == magic i) := by
    simp [List.range_succ, h 0 (by omega), h 1 (by omega), h 2 (by omega), h 3 (by omega)]
  have hfield : u32 a 504 = u32 b 504 := u32_congr _ fun i _ hi => h i (by omega)
  have hcrc : crc a 504 = crc b 504 := crc_congr fun i hi => h i (Nat.lt_trans hi (by omega))
  rw [record_valid, record_valid, hmagic, h 4 (by omega), h 511 (by omega), unpack_congr h, hfield, hcrc]

/-- The record with its commit byte set. -/
def committed (b : Cells Byte) : Cells Byte := copy b 511 (fun _ => COMMIT) 1

section Record

variable (s : miner_settings) (seq : Word)

theorem unpack_record : unpack (committed (record s seq)) = s := by
  obtain ⟨mac, port, host, worker, password⟩ := s
  simp only [unpack, miner_settings.mk.injEq]
  refine ⟨?_, ?_, ?_, ?_, ?_⟩
  · apply Vector.ext
    intro i hi
    simp only [Vector.getElem_ofFn, committed, record, record_body, put32]
    simp (disch := omega) only [copy_outside, copy_inside]
    simp [hi]
  · simp only [committed, record, record_body, put32]
    simp (disch := omega) only [copy_outside, copy_inside]
    apply BitVec.eq_of_getLsbD_eq
    intro i hi
    by_cases h8 : i < 8
    · simp [h8, hi]
    · simp [h8, hi, show i - 8 < 8 by omega, show i - 8 < 16 by omega, show 8 + (i - 8) = i by omega]
  all_goals
    apply Vector.ext
    intro i hi
    simp only [Vector.getElem_ofFn, committed, record, record_body, put32]
    simp (disch := omega) only [copy_outside, copy_inside]
    simp [hi]

theorem record_seq : u32 (committed (record s seq)) 8 = seq := by
  refine Eq.trans (u32_congr 8 ?_) (u32_put32 (fun _ => 0) 8 seq)
  intro i hlo hhi
  simp only [committed, record, record_body]
  simp (disch := omega) only [put32, copy_outside, copy_inside]

theorem record_crc : u32 (committed (record s seq)) 504 = crc (committed (record s seq)) 504 := by
  have hfield : u32 (committed (record s seq)) 504 = u32 (record s seq) 504 := by
    apply u32_congr
    intro i _ hi
    exact copy_outside _ _ (by omega)
  rw [hfield, record, u32_put32]
  apply crc_congr
  intro i hi
  simp (disch := omega) only [committed, put32, copy_outside]

/-- A committed record of valid settings is valid. -/
theorem record_valid_record : record_valid (committed (record s seq)) = settings_valid s := by
  have hmagic : (List.range 4).all (fun i => committed (record s seq) i == magic i) = true := by
    rw [List.all_eq_true]
    intro i hi
    have hlt := List.mem_range.mp hi
    simp only [committed, record, record_body]
    simp (disch := omega) only [put32, copy_outside, copy_inside]
    simp
  have hversion : committed (record s seq) 4 = 1 := by
    simp only [committed, record, record_body]
    simp (disch := omega) only [put32, copy_outside, copy_inside]
  have hcommit : committed (record s seq) 511 = COMMIT := copy_inside _ _ (by omega) (by omega)
  rw [record_valid, hmagic, hversion, hcommit, record_crc, unpack_record]
  simp

end Record

/-- The bytes of the slot at `addr`. -/
def slot (m : Cells Byte) (addr : Nat) : Cells Byte := fun i => m (addr + i)

/-- The contents during a save: the commit byte cleared and `k` bytes of the
body written. -/
def staged (m : Cells Byte) (addr : Nat) (b : Cells Byte) (k : Nat) : Cells Byte :=
  copy (copy m (addr + 511) (fun _ => 0) 1) addr b k

/-- The contents after the commit byte. -/
def sealed (m : Cells Byte) (addr : Nat) (b : Cells Byte) : Cells Byte :=
  copy (staged m addr b 511) (addr + 511) (fun _ => COMMIT) 1

/-- All contents that an interrupted write of a record can leave. -/
inductive Cut (m : Cells Byte) (addr : Nat) (b : Cells Byte) : Cells Byte → Prop where
  | untouched : Cut m addr b m
  | staged (k : Nat) (h : k ≤ 511) : Cut m addr b (staged m addr b k)
  | sealed : Cut m addr b (sealed m addr b)

theorem cut_clear (m : Cells Byte) (addr : Nat) (b : Cells Byte) {k : Nat} (hk : k ≤ 1) :
    Cut m addr b (copy m (addr + 511) (fun _ => 0) k) := by
  rcases Nat.le_one_iff_eq_zero_or_eq_one.mp hk with rfl | rfl
  · rw [copy_zero]
    exact .untouched
  · have h : Cut m addr b (staged m addr b 0) := .staged 0 (by omega)
    rwa [staged, copy_zero] at h

theorem cut_commit (m : Cells Byte) (addr : Nat) (b : Cells Byte) {k : Nat} (hk : k ≤ 1) :
    Cut m addr b (copy (staged m addr b 511) (addr + 511) (fun _ => COMMIT) k) := by
  rcases Nat.le_one_iff_eq_zero_or_eq_one.mp hk with rfl | rfl
  · rw [copy_zero]
    exact .staged 511 (Nat.le_refl _)
  · exact .sealed

/-- However the writes are interrupted, one of the cuts is left, and success
means the sealed record. -/
theorem write_record_ends (addr : Nat) (b : Cells Byte) (d : Device Byte) :
    (write_record addr b d).Ends
      (fun rc d' => Cut d.cells addr b d'.cells ∧ (rc = 0 → d'.cells = sealed d.cells addr b))
      (Cut d.cells addr b) := by
  have hminus (c : Cells Byte) : ((-1 : Int) = 0 → c = sealed d.cells addr b) := fun h => absurd h (by decide)
  apply (d.write_ends _ _ _ fun k hk => cut_clear d.cells addr b hk).bind
  rintro ok d1 ⟨k, hk, hcells1, hfull1⟩
  cases ok with
  | false => exact ⟨hcells1 ▸ cut_clear _ _ _ hk, hminus _⟩
  | true =>
    obtain rfl := hfull1 rfl
    apply (d1.write_ends _ _ _ fun k hk => by rw [hcells1]; exact Cut.staged k hk).bind
    rintro ok d2 ⟨k, hk, hcells2, hfull2⟩
    rw [hcells1] at hcells2
    cases ok with
    | false => exact ⟨hcells2 ▸ .staged k hk, hminus _⟩
    | true =>
      obtain rfl := hfull2 rfl
      have hstaged : d2.cells = staged d.cells addr b 511 := hcells2
      have hcut2 : Cut d.cells addr b d2.cells := hstaged ▸ .staged 511 (Nat.le_refl _)
      apply (d2.read_ends addr hcut2).bind
      rintro verify d3 ⟨hcells3, _⟩
      have hcut3 : Cut d.cells addr b d3.cells := hcells3 ▸ hcut2
      cases verify with
      | none => exact ⟨hcut3, hminus _⟩
      | some verify =>
        dsimp only
        generalize same_record b verify = same
        cases same with
        | false => exact ⟨hcut3, hminus _⟩
        | true =>
          have hcells : d3.cells = staged d.cells addr b 511 := hcells3.trans hstaged
          apply (d3.write_ends _ _ _ fun k hk => by rw [hcells]; exact cut_commit _ _ _ hk).bind
          rintro ok d4 ⟨k, hk, hcells4, hfull4⟩
          rw [hcells] at hcells4
          have hcut4 : Cut d.cells addr b d4.cells := hcells4 ▸ cut_commit _ _ _ hk
          cases ok with
          | false => exact ⟨hcut4, hminus _⟩
          | true =>
            obtain rfl := hfull4 rfl
            apply (d4.read_ends addr hcut4).bind
            rintro verify d5 ⟨hcells5, _⟩
            have hcut5 : Cut d.cells addr b d5.cells := hcells5 ▸ hcut4
            cases verify with
            | none => exact ⟨hcut5, hminus _⟩
            | some verify =>
              dsimp only
              generalize record_valid verify = valid
              cases valid with
              | false => exact ⟨hcut5, hminus _⟩
              | true => exact ⟨hcut5, fun _ => hcells5.trans hcells4⟩

/-- A save touches nothing outside the slot it writes. -/
theorem Cut.outside {m m' b : Cells Byte} {addr i : Nat} (h : Cut m addr b m')
    (hi : i < addr ∨ addr + 512 ≤ i) : m' i = m i := by
  cases h with
  | untouched => rfl
  | staged k hk => simp (disch := omega) only [settings.staged, copy_outside]
  | sealed => simp (disch := omega) only [settings.sealed, settings.staged, copy_outside]

/-- Until the commit byte is written the slot has no valid record. -/
theorem staged_invalid (m b : Cells Byte) (addr : Nat) {k : Nat} (hk : k ≤ 511) :
    record_valid (slot (staged m addr b k) addr) = false := by
  have hbyte : slot (staged m addr b k) addr 511 = 0 := by
    simp (disch := omega) only [slot, staged, copy_outside, copy_inside]
  have hcommit : (slot (staged m addr b k) addr 511 == COMMIT) = false := by
    rw [hbyte]
    decide
  rw [record_valid, hcommit]
  simp

theorem sealed_slot (m b : Cells Byte) (addr : Nat) :
    ∀ i < 512, slot (sealed m addr b) addr i = committed b i := by
  intro i hi
  by_cases hlast : i = 511
  · subst hlast
    simp (disch := omega) only [slot, sealed, committed, copy_inside]
  · simp (disch := omega) only [slot, sealed, staged, committed, copy_inside, copy_outside, Nat.add_sub_cancel_left]

/-- What a fault-free load of these contents returns. -/
def loaded (m : Cells Byte) : miner_settings × Int :=
  match choose_slot (slot m SETTINGS_SLOT0) (slot m SETTINGS_SLOT1) with
  | .slot0 => (unpack (slot m SETTINGS_SLOT0), 1)
  | .slot1 => (unpack (slot m SETTINGS_SLOT1), 1)
  | _ => (settings_defaults, 0)

/-- The slot that a fault-free save finds active. -/
def active (m : Cells Byte) : Active := choose_slot (slot m SETTINGS_SLOT0) (slot m SETTINGS_SLOT1)

section Choice

variable {b0 b1 : Cells Byte}

theorem choose_slot0 (h0 : record_valid b0 = true) (h1 : record_valid b1 = false) : choose_slot b0 b1 = .slot0 := by
  simp [choose_slot, h0, h1]

theorem choose_slot1 (h0 : record_valid b0 = false) (h1 : record_valid b1 = true) : choose_slot b0 b1 = .slot1 := by
  simp [choose_slot, h0, h1]

theorem choose_none (h0 : record_valid b0 = false) (h1 : record_valid b1 = false) : choose_slot b0 b1 = .none := by
  simp [choose_slot, h0, h1]

theorem choose_both (h0 : record_valid b0 = true) (h1 : record_valid b1 = true) :
    choose_slot b0 b1 = if 0 < (u32 b1 8 - u32 b0 8).toInt then .slot1 else .slot0 := by
  simp only [choose_slot, h0, h1]
  rfl

/-- Of two valid records whose sequence numbers are neighbours, across the
wrap as well, the later one is chosen. -/
theorem choose_newer1 (h0 : record_valid b0 = true) (h1 : record_valid b1 = true)
    (hseq : u32 b1 8 = u32 b0 8 + 1) : choose_slot b0 b1 = .slot1 := by
  have hdiff : u32 b0 8 + 1 - u32 b0 8 = 1 := by
    rw [BitVec.add_comm, BitVec.add_sub_cancel]
  rw [choose_both h0 h1, hseq, hdiff]
  rfl

theorem choose_newer0 (h0 : record_valid b0 = true) (h1 : record_valid b1 = true)
    (hseq : u32 b0 8 = u32 b1 8 + 1) : choose_slot b0 b1 = .slot0 := by
  have hdiff : u32 b1 8 - (u32 b1 8 + 1) = -1 := by
    rw [BitVec.sub_eq_iff_eq_add, ← BitVec.add_assoc, BitVec.add_comm (-1), BitVec.add_assoc]
    simp
  rw [choose_both h0 h1, hseq, hdiff]
  rfl

/-- The choice names a valid slot whenever there is one. -/
theorem choose_slot_cases (b0 b1 : Cells Byte) :
    (choose_slot b0 b1 = .slot0 ∧ record_valid b0 = true) ∨
    (choose_slot b0 b1 = .slot1 ∧ record_valid b1 = true) ∨
    (choose_slot b0 b1 = .none ∧ record_valid b0 = false ∧ record_valid b1 = false) := by
  cases h0 : record_valid b0 <;> cases h1 : record_valid b1
  · exact .inr (.inr ⟨choose_none h0 h1, rfl, rfl⟩)
  · exact .inr (.inl ⟨choose_slot1 h0 h1, rfl⟩)
  · exact .inl ⟨choose_slot0 h0 h1, rfl⟩
  · by_cases hlater : 0 < (u32 b1 8 - u32 b0 8).toInt
    · exact .inr (.inl ⟨by rw [choose_both h0 h1, if_pos hlater], rfl⟩)
    · exact .inl ⟨by rw [choose_both h0 h1, if_neg hlater], rfl⟩

end Choice

theorem settings_load_fault_free (m : Cells Byte) : settings_load ⟨m, []⟩ = .value (loaded m) ⟨m, []⟩ := by
  have hslots : read_slots ⟨m, []⟩ = .value ⟨choose_slot (slot m SETTINGS_SLOT0) (slot m SETTINGS_SLOT1),
      slot m SETTINGS_SLOT0, slot m SETTINGS_SLOT1⟩ ⟨m, []⟩ := rfl
  rw [settings_load, hslots, Outcome.bind, loaded]
  rcases choose_slot_cases (slot m SETTINGS_SLOT0) (slot m SETTINGS_SLOT1) with ⟨hc, _⟩ | ⟨hc, _⟩ | ⟨hc, _, _⟩ <;>
    rw [hc]

/-- The slots as `read_slots` hands them to a save. -/
def slots_of (m : Cells Byte) : Slots := ⟨active m, slot m SETTINGS_SLOT0, slot m SETTINGS_SLOT1⟩

/-- A cut that does not reach the commit byte changes nothing for a later
load. -/
theorem loaded_staged (m b : Cells Byte) {k : Nat} (hk : k ≤ 511) :
    loaded (staged m (slots_of m).next_addr b k) = loaded m := by
  have hcut : Cut m (slots_of m).next_addr b (staged m (slots_of m).next_addr b k) := .staged k hk
  have hinvalid := staged_invalid m b (slots_of m).next_addr hk
  rcases choose_slot_cases (slot m SETTINGS_SLOT0) (slot m SETTINGS_SLOT1) with ⟨hc, hv⟩ | ⟨hc, hv⟩ | ⟨hc, h0, h1⟩
  all_goals
    simp only [slots_of, Slots.next_addr, active, hc, reduceCtorEq, ↓reduceIte] at hcut hinvalid ⊢
  · have hsame : ∀ i < 512, slot (staged m SETTINGS_SLOT1 b k) SETTINGS_SLOT0 i = slot m SETTINGS_SLOT0 i := by
      intro i hi
      exact hcut.outside (by simp only [SETTINGS_SLOT0, SETTINGS_SLOT1]; omega)
    have hvalid := (record_valid_congr hsame).trans hv
    simp only [loaded, hc, choose_slot0 hvalid hinvalid, unpack_congr hsame]
  · have hsame : ∀ i < 512, slot (staged m SETTINGS_SLOT0 b k) SETTINGS_SLOT1 i = slot m SETTINGS_SLOT1 i := by
      intro i hi
      exact hcut.outside (by simp only [SETTINGS_SLOT0, SETTINGS_SLOT1]; omega)
    have hvalid := (record_valid_congr hsame).trans hv
    simp only [loaded, hc, choose_slot1 hinvalid hvalid, unpack_congr hsame]
  · have hsame : ∀ i < 512, slot (staged m SETTINGS_SLOT0 b k) SETTINGS_SLOT1 i = slot m SETTINGS_SLOT1 i := by
      intro i hi
      exact hcut.outside (by simp only [SETTINGS_SLOT0, SETTINGS_SLOT1]; omega)
    have hvalid := (record_valid_congr hsame).trans h1
    simp only [loaded, hc, choose_none hinvalid hvalid]

/-- A sealed record is what the next load returns, whichever slot it is in and
wherever the sequence numbers stand. -/
theorem loaded_sealed (m : Cells Byte) {s : miner_settings} (hs : settings_valid s = true) :
    loaded (sealed m (slots_of m).next_addr (record s (slots_of m).next_seq)) = (s, 1) := by
  generalize hseq : (slots_of m).next_seq = seq
  have hcut : Cut m (slots_of m).next_addr (record s seq) (sealed m (slots_of m).next_addr (record s seq)) := .sealed
  have hnew := sealed_slot m (record s seq) (slots_of m).next_addr
  have hvalid := (record_valid_congr hnew).trans ((record_valid_record s seq).trans hs)
  have hunpack := (unpack_congr hnew).trans (unpack_record s seq)
  have hnewseq := (u32_congr 8 fun i _ hi => hnew i (by omega)).trans (record_seq s seq)
  rcases choose_slot_cases (slot m SETTINGS_SLOT0) (slot m SETTINGS_SLOT1) with ⟨hc, hv⟩ | ⟨hc, hv⟩ | ⟨hc, h0, h1⟩
  all_goals
    simp only [slots_of, Slots.next_addr, Slots.next_seq, active, hc, reduceCtorEq, ↓reduceIte]
      at hseq hcut hvalid hunpack hnewseq ⊢
  · have hsame : ∀ i < 512, slot (sealed m SETTINGS_SLOT1 (record s seq)) SETTINGS_SLOT0 i = slot m SETTINGS_SLOT0 i := by
      intro i hi
      exact hcut.outside (by simp only [SETTINGS_SLOT0, SETTINGS_SLOT1]; omega)
    have hold := (record_valid_congr hsame).trans hv
    have holdseq := u32_congr 8 fun i _ hi => hsame i (by omega)
    have hchoice := choose_newer1 hold hvalid (by rw [hnewseq, holdseq, hseq])
    simp only [loaded, hchoice, hunpack]
  · have hsame : ∀ i < 512, slot (sealed m SETTINGS_SLOT0 (record s seq)) SETTINGS_SLOT1 i = slot m SETTINGS_SLOT1 i := by
      intro i hi
      exact hcut.outside (by simp only [SETTINGS_SLOT0, SETTINGS_SLOT1]; omega)
    have hold := (record_valid_congr hsame).trans hv
    have holdseq := u32_congr 8 fun i _ hi => hsame i (by omega)
    have hchoice := choose_newer0 hvalid hold (by rw [hnewseq, holdseq, hseq])
    simp only [loaded, hchoice, hunpack]
  · have hsame : ∀ i < 512, slot (sealed m SETTINGS_SLOT0 (record s seq)) SETTINGS_SLOT1 i = slot m SETTINGS_SLOT1 i := by
      intro i hi
      exact hcut.outside (by simp only [SETTINGS_SLOT0, SETTINGS_SLOT1]; omega)
    have hinvalid := (record_valid_congr hsame).trans h1
    simp only [loaded, choose_slot0 hvalid hinvalid, hunpack]

theorem read_slots_ends (d : Device Byte) {crash : Cells Byte → Prop} (hcrash : crash d.cells) :
    (read_slots d).Ends
      (fun slots d' => d'.cells = d.cells ∧ (slots.active = .failed ∨ slots = slots_of d.cells)) crash := by
  apply (d.read_ends SETTINGS_SLOT0 hcrash).bind
  rintro r0 d1 ⟨hcells1, h0⟩
  cases r0 with
  | none => exact ⟨hcells1, .inl rfl⟩
  | some b0 =>
    obtain rfl : b0 = slot d.cells SETTINGS_SLOT0 := Option.some.inj (h0.resolve_left (by simp))
    apply (d1.read_ends SETTINGS_SLOT1 (hcells1 ▸ hcrash)).bind
    rintro r1 d2 ⟨hcells2, h1⟩
    cases r1 with
    | none => exact ⟨hcells2.trans hcells1, .inl rfl⟩
    | some b1 =>
      rw [hcells1] at h1
      obtain rfl : b1 = slot d.cells SETTINGS_SLOT1 := Option.some.inj (h1.resolve_left (by simp))
      exact ⟨hcells2.trans hcells1, .inr rfl⟩

/-- The contents that an interrupted save of `s` can leave. -/
def SaveCut (m : Cells Byte) (s : miner_settings) : Cells Byte → Prop :=
  Cut m (slots_of m).next_addr (record s (slots_of m).next_seq)

theorem settings_save_ends (s : miner_settings) (d : Device Byte) :
    (settings_save s d).Ends
      (fun rc d' => SaveCut d.cells s d'.cells ∧ (rc = 0 →
        d'.cells = sealed d.cells (slots_of d.cells).next_addr (record s (slots_of d.cells).next_seq)))
      (SaveCut d.cells s) := by
  unfold settings_save
  split
  · exact ⟨.untouched, fun h => absurd h (by decide)⟩
  · have hcrash : SaveCut d.cells s d.cells := .untouched
    apply (read_slots_ends d hcrash).bind
    rintro slots d' ⟨hcells, hslots⟩
    split
    · exact ⟨hcells ▸ .untouched, fun h => absurd h (by decide)⟩
    next hread =>
      obtain rfl := hslots.resolve_left hread
      rw [← hcells]
      exact write_record_ends _ _ d'

/-- A save of some settings under a plan of faults. -/
structure Attempt where
  s : miner_settings
  plan : List (Option Fault)

def attempt (m : Cells Byte) (a : Attempt) : Cells Byte := (settings_save a.s ⟨m, a.plan⟩).cells

/-- The first byte of the active slot. -/
def Active.addr : Active → Option Nat
  | .slot0 => some SETTINGS_SLOT0
  | .slot1 => some SETTINGS_SLOT1
  | _ => Option.none

theorem attempt_cut (m : Cells Byte) (a : Attempt) : SaveCut m a.s (attempt m a) :=
  ((settings_save_ends a.s ⟨m, a.plan⟩).mono (fun _ _ h => h.1) fun _ h => h).cells

theorem SaveCut.loaded {m m' : Cells Byte} {s : miner_settings} (h : SaveCut m s m')
    (hs : settings_valid s = true) : settings.loaded m' = settings.loaded m ∨ settings.loaded m' = (s, 1) := by
  cases h with
  | untouched => exact .inl rfl
  | staged k hk => exact .inl (loaded_staged m _ hk)
  | sealed => exact .inr (loaded_sealed m hs)

theorem SaveCut.outside {m m' : Cells Byte} {s : miner_settings} (h : SaveCut m s m') {i : Nat}
    (hi : i < SETTINGS_SLOT0 ∨ SETTINGS_SLOT1 + SETTINGS_SLOT_SIZE ≤ i) : m' i = m i := by
  apply Cut.outside h
  simp only [Slots.next_addr, SETTINGS_SLOT0, SETTINGS_SLOT1, SETTINGS_SLOT_SIZE] at hi ⊢
  split <;> omega

theorem SaveCut.active {m m' : Cells Byte} {s : miner_settings} (h : SaveCut m s m') {addr i : Nat}
    (haddr : (settings.active m).addr = some addr) (hi : i < SETTINGS_SLOT_SIZE) : m' (addr + i) = m (addr + i) := by
  apply Cut.outside h
  have hnext : (slots_of m).next_addr = if settings.active m = .slot0 then SETTINGS_SLOT1 else SETTINGS_SLOT0 := rfl
  rw [hnext]
  simp only [SETTINGS_SLOT_SIZE] at hi
  cases hactive : settings.active m <;>
    simp only [hactive, Active.addr, Option.some.injEq, reduceCtorEq, SETTINGS_SLOT0, SETTINGS_SLOT1,
      ↓reduceIte] at haddr ⊢ <;> omega

/-- An attempt that is not a save of valid settings changes nothing. -/
theorem attempt_invalid (m : Cells Byte) {a : Attempt} (h : settings_valid a.s = false) :
    attempt m a = m := by
  simp [attempt, settings_save, h, Outcome.cells]

/-- After any sequence of saves, interrupted or not, a load returns what it
returned at first or the settings of one of them. -/
theorem loaded_run (m : Cells Byte) (attempts : List Attempt) :
    loaded (run attempt m attempts) = loaded m ∨
      ∃ a ∈ attempts, loaded (run attempt m attempts) = (a.s, 1) := by
  induction attempts using List.reverseRecOn with
  | nil => exact .inl rfl
  | append_singleton before a ih =>
    rw [run_append, run_cons, run_nil]
    have hstep : loaded (attempt (run attempt m before) a) = loaded (run attempt m before) ∨
        loaded (attempt (run attempt m before) a) = (a.s, 1) := by
      cases hs : settings_valid a.s with
      | false => exact .inl (by rw [attempt_invalid _ hs])
      | true => exact (attempt_cut _ a).loaded hs
    rcases hstep with hkeep | hnew
    · rcases ih with hfirst | ⟨b, hb, hlater⟩
      · exact .inl (hkeep.trans hfirst)
      · exact .inr ⟨b, by simp [hb], hkeep.trans hlater⟩
    · exact .inr ⟨a, by simp, hnew⟩

/-- A fault-free load of these contents returns `r`. -/
def LoadsAs (m : Cells Byte) (r : miner_settings × Int) : Prop := settings_load ⟨m, []⟩ = .value r ⟨m, []⟩

theorem loadsAs_loaded (m : Cells Byte) : LoadsAs m (loaded m) := settings_load_fault_free m

/-- Whatever sequence of saves and interruptions came before, and however this
save of valid settings is interrupted: a later fault-free load returns what it
would have returned before the save, or exactly the new settings; success means
the new settings; nothing outside the slot that is being replaced changes. -/
theorem settings_save_crash_consistent (m0 : Cells Byte) (before : List Attempt) (s : miner_settings)
    (hs : settings_valid s = true) (plan : List (Option Fault)) :
    let m := run attempt m0 before
    let m' := (settings_save s ⟨m, plan⟩).cells
    ((∃ r, LoadsAs m r ∧ LoadsAs m' r) ∨ LoadsAs m' (s, 1)) ∧
      (∀ d', settings_save s ⟨m, plan⟩ = .value 0 d' → LoadsAs m' (s, 1)) ∧
      (∀ i, i < SETTINGS_SLOT0 ∨ SETTINGS_SLOT1 + SETTINGS_SLOT_SIZE ≤ i → m' i = m0 i) ∧
      (∀ addr, (active m).addr = some addr → ∀ i < SETTINGS_SLOT_SIZE, m' (addr + i) = m (addr + i)) ∧
      ((∃ r, LoadsAs m0 r ∧ LoadsAs m' r) ∨ ∃ a ∈ before ++ [⟨s, plan⟩], LoadsAs m' (a.s, 1)) := by
  intro m m'
  have hcut : SaveCut m s m' := attempt_cut m ⟨s, plan⟩
  have hrun : m' = run attempt m0 (before ++ [⟨s, plan⟩]) := by
    rw [run_append]
    rfl
  have hload := loadsAs_loaded m'
  refine ⟨?_, ?_, ?_, ?_, ?_⟩
  · rcases hcut.loaded hs with hkeep | hnew
    · exact .inl ⟨loaded m, loadsAs_loaded m, hkeep ▸ hload⟩
    · exact .inr (hnew ▸ hload)
  · intro d' hsave
    have hends := settings_save_ends s ⟨m, plan⟩
    have hm' : m' = d'.cells := by
      change (settings_save s ⟨m, plan⟩).cells = d'.cells
      rw [hsave]
      rfl
    rw [hsave] at hends
    have hnew := loaded_sealed m hs
    rw [← hends.2 rfl, ← hm'] at hnew
    exact hnew ▸ hload
  · intro i hi
    rw [hrun]
    exact run_invariant (P := fun c => c i = m0 i) (fun c a h => ((attempt_cut c a).outside hi).trans h) rfl _
  · intro addr haddr i hi
    exact hcut.active haddr hi
  · have hlast := loaded_run m0 (before ++ [⟨s, plan⟩])
    rw [← hrun] at hlast
    rcases hlast with hfirst | ⟨a, ha, hlater⟩
    · exact .inl ⟨loaded m0, loadsAs_loaded m0, hfirst ▸ hload⟩
    · exact .inr ⟨a, ha, hlater ▸ hload⟩

/-- The default settings over blank storage, with power lost in the middle of
the body. -/
theorem settings_save_defaults_cut :
    settings_valid settings_defaults = true ∧
      (let m : Cells Byte := fun _ => 0xff
       let m' := (settings_save settings_defaults ⟨m, [none, none, none, some (.power_loss 300)]⟩).cells
       (∃ r, LoadsAs m r ∧ LoadsAs m' r) ∨ LoadsAs m' (settings_defaults, 1)) :=
  ⟨by decide, (settings_save_crash_consistent (fun _ => 0xff) [] settings_defaults (by decide)
    [none, none, none, some (.power_loss 300)]).1⟩

end scu35.settings
