import Scu35Miner.Cyclic.Burst
import Scu35Miner.Software.Settings.Save

open fips180 storage Polynomial

namespace scu35.settings

open cyclic (poly generator shift message)

/-- The first `n` bytes. -/
def bytes (b : Cells Byte) (n : Nat) : List Byte := (List.range n).map b

/-- The generator of CRC-32. -/
noncomputable def crc32_generator : (ZMod 2)[X] :=
  X ^ 32 + X ^ 26 + X ^ 23 + X ^ 22 + X ^ 16 + X ^ 12 + X ^ 11 + X ^ 10 + X ^ 8 + X ^ 7 + X ^ 5 + X ^ 4 + X ^ 2 + X + 1

/-- All thirty-two coefficients one. -/
noncomputable def all_ones : (ZMod 2)[X] := poly (BitVec.allOnes 32)

/-- `0xedb88320` is the generator in reflected order. -/
theorem generator_reflected : generator (0xedb88320 : Word) = crc32_generator := by
  have hpowers : (Finset.range 32).filter (fun j => (0xedb88320 : Word).getMsbD j = true) =
      {26, 23, 22, 16, 12, 11, 10, 8, 7, 5, 4, 2, 1, 0} := by decide
  rw [generator, poly, ← Finset.sum_filter, hpowers, crc32_generator]
  simp [add_assoc]

theorem crc_bit_eq (c : Word) : crc_bit c = shift 0xedb88320 c := by
  have hlow : c &&& 1 = if c.getLsbD 0 then 1 else 0 := by
    rw [BitVec.ofNat_eq_ofNat, BitVec.and_one_eq_setWidth_ofBool_getLsbD]
    cases c.getLsbD 0 <;> rfl
  rw [crc_bit, shift, hlow]
  cases c.getLsbD 0 <;> simp

theorem crc_byte_eq : crc_byte = cyclic.absorb 0xedb88320 := by
  funext c b
  rw [crc_byte, cyclic.absorb]
  simp only [crc_bit_eq]
  rfl

theorem crc_eq (b : Cells Byte) (n : Nat) :
    crc b n = ~~~((bytes b n).foldl (cyclic.absorb 0xedb88320) (BitVec.allOnes 32)) := by
  rw [crc, bytes, List.foldl_map, crc_byte_eq]
  rfl

/-- The checksum is the remainder of the message by the generator, with the
first thirty-two bits and the result complemented. -/
theorem crc_remainder (b : Cells Byte) (n : Nat) :
    poly (crc b n) = (X ^ 32 * message (bytes b n) + X ^ (8 * n) * all_ones) %ₘ crc32_generator + all_ones := by
  have hlength : (bytes b n).length = n := by rw [bytes, List.length_map, List.length_range]
  rw [crc_eq, cyclic.poly_not, cyclic.register_remainder _ _ (by decide) (by decide), generator_reflected, hlength]
  rfl

/-- The four bytes of a little-endian word, first byte first. -/
theorem poly_u32 (b : Cells Byte) (off : Nat) :
    poly (u32 b off) = message [b off, b (off + 1), b (off + 2), b (off + 3)] := by
  have hmessage : message [b off, b (off + 1), b (off + 2), b (off + 3)] =
      X ^ 8 * (X ^ 8 * (X ^ 8 * (X ^ 8 * 0 + poly (b off)) + poly (b (off + 1))) + poly (b (off + 2))) +
        poly (b (off + 3)) := rfl
  rw [u32_eq, ofBytes, cyclic.poly_append, cyclic.poly_append, cyclic.poly_append, hmessage]
  simp only [mul_zero, zero_add, mul_add, ← mul_assoc, ← pow_add, add_assoc]

/-- The bytes from `a` on, `n` of them. -/
def segment (b : Cells Byte) (a n : Nat) : List Byte := (List.range' a n).map b

theorem bytes_split (b : Cells Byte) {w n m : Nat} (h : w + n ≤ m) :
    bytes b m = segment b 0 w ++ segment b w n ++ segment b (w + n) (m - (w + n)) := by
  rw [bytes, segment, segment, segment, ← List.map_append, ← List.map_append, List.range_eq_range']
  congr 1
  have hfirst := List.range'_append_1 (s := 0) (m := w) (n := n)
  have hsecond := List.range'_append_1 (s := 0) (m := w + n) (n := m - (w + n))
  rw [Nat.zero_add] at hfirst hsecond
  rw [hfirst, hsecond, Nat.add_sub_cancel' h]

theorem segment_congr {a b : Cells Byte} {k n : Nat} (h : ∀ i, k ≤ i → i < k + n → a i = b i) :
    segment a k n = segment b k n := by
  refine List.map_congr_left fun i hi => ?_
  obtain ⟨hlo, hhi⟩ := List.mem_range'_1.mp hi
  exact h i hlo hhi

theorem checksum_arrange {R : Type} [CommRing R] [CharP R 2] (m o i g q : R) :
    m + (m + i - g * q + o) - (i + o) = g * -q := by
  have hdouble := CharTwo.add_self_eq_zero m
  linear_combination hdouble

/-- What a message of `n` bytes and its checksum leave when they match. -/
noncomputable def residue (n : Nat) : (ZMod 2)[X] := X ^ (8 * n) * all_ones + all_ones

section Burst

variable {b b' : Cells Byte} {n w : Nat}

theorem bytes_add_four : bytes b (n + 4) = bytes b n ++ [b n, b (n + 1), b (n + 2), b (n + 3)] := by
  simp only [bytes, List.range_succ, List.map_append, List.append_assoc, List.map_cons, List.map_nil, List.cons_append,
    List.nil_append]

theorem checksum_dvd (h : u32 b n = crc b n) : crc32_generator ∣ message (bytes b (n + 4)) - residue n := by
  have hfield : message [b n, b (n + 1), b (n + 2), b (n + 3)] =
      (X ^ 32 * message (bytes b n) + X ^ (8 * n) * all_ones) %ₘ crc32_generator + all_ones := by
    rw [← poly_u32 b n, h, crc_remainder]
  have hlength : 8 * [b n, b (n + 1), b (n + 2), b (n + 3)].length = 32 := rfl
  rw [bytes_add_four, cyclic.message_append, hlength, hfield, residue, modByMonic_eq_sub_mul_div]
  exact ⟨_, checksum_arrange _ _ _ _ _⟩

/-- Bytes that change within four consecutive ones do not keep the checksum,
also when the change reaches into it. -/
theorem checksum_burst (hw : w ≤ n) (hsame : ∀ i < n + 4, i < w ∨ w + 4 ≤ i → b' i = b i) {i : Nat} (hlo : w ≤ i)
    (hhi : i < w + 4) (hne : b' i ≠ b i) (h : u32 b n = crc b n) : u32 b' n ≠ crc b' n := by
  intro h'
  have hdvd := dvd_sub (checksum_dvd h) (checksum_dvd h')
  have hlow : segment b' 0 w = segment b 0 w := segment_congr fun i _ hi => hsame i (by omega) (.inl (by omega))
  have hhigh : segment b' (w + 4) (n + 4 - (w + 4)) = segment b (w + 4) (n + 4 - (w + 4)) :=
    segment_congr fun i hlo hi => hsame i (by omega) (.inr hlo)
  have hle : w + 4 ≤ n + 4 := by omega
  rw [sub_sub_sub_cancel_right, bytes_split b hle, bytes_split b' hle, hlow, hhigh, ← generator_reflected] at hdvd
  refine cyclic.burst_detected (by decide) (by decide) ?_ ?_ ?_ hdvd
  · rw [segment, segment, List.length_map, List.length_map]
  · rw [segment, List.length_map, List.length_range']
  · intro heq
    have hmem : i ∈ List.range' w 4 := List.mem_range'_1.mpr ⟨hlo, hhi⟩
    exact hne (List.map_inj_left.mp heq i hmem).symm

end Burst

/-- The record checksum is CRC-32, and no change within four consecutive bytes
of the checked part of a valid record gives a valid one. -/
theorem record_checksum :
    (∀ b b' : Cells Byte, record_valid b = true →
      (∃ w ≤ 504, (∀ i < 512, i < w ∨ w + 4 ≤ i → b' i = b i) ∧ ∃ i, w ≤ i ∧ i < w + 4 ∧ b' i ≠ b i) →
      record_valid b' = false) ∧
    ∀ (b : Cells Byte) (n : Nat), poly (crc b n) =
      (X ^ 32 * message (bytes b n) + X ^ (8 * n) * all_ones) %ₘ crc32_generator + all_ones := by
  refine ⟨?_, crc_remainder⟩
  rintro b b' hvalid ⟨w, hw, hsame, i, hlo, hhi, hne⟩
  have hcrc : u32 b 504 = crc b 504 := by
    simp only [record_valid, Bool.and_eq_true, beq_iff_eq] at hvalid
    exact hvalid.1.2
  have hbroken := checksum_burst hw (fun i hi => hsame i (by omega)) hlo hhi hne hcrc
  rw [record_valid, beq_false_of_ne hbroken, Bool.and_false, Bool.false_and]

/-- A record of the default settings whose stored checksum has one bit
flipped. -/
def flipped : Cells Byte :=
  copy (committed (record settings_defaults 1)) 505 (fun _ => committed (record settings_defaults 1) 505 ^^^ 1) 1

theorem flipped_rejected : record_valid flipped = false := by
  have hvalid : record_valid (committed (record settings_defaults 1)) = true := by
    rw [record_valid_record]
    decide
  refine record_checksum.1 _ _ hvalid ⟨504, Nat.le_refl _, fun i _ hi => copy_outside _ _ (by omega), 505, by decide,
    by decide, ?_⟩
  rw [flipped, copy_inside _ _ (Nat.le_refl _) (by decide)]
  generalize committed (record settings_defaults 1) 505 = byte
  intro heq
  have hbit := congrArg (fun x : Byte => x ^^^ byte) heq
  simp only [BitVec.xor_self, BitVec.xor_comm byte 1, BitVec.xor_assoc, BitVec.xor_zero] at hbit
  exact absurd hbit (by decide)

end scu35.settings
