import Scu35Miner.Software.Sha256

open fips180

namespace scu35.sha256_sw

/-- The hash value and the buffered bytes of a context that has consumed
`message`. -/
structure sha256_ctx_t.Absorbed (ctx : sha256_ctx_t) (message : List Byte) : Prop where
  hash : ctx.h = absorb initialHash message
  buffer : ctx.buffer = message.drop (64 * (message.length / 64))

/-- A context that has consumed exactly `message`. -/
structure sha256_ctx_t.Represents (ctx : sha256_ctx_t) (message : List Byte) : Prop extends
    ctx.Absorbed message where
  bits : ctx.bit_count = BitVec.ofNat 64 (8 * message.length)

theorem sha256_init_represents : sha256_init.Represents [] where
  hash := (absorb_short _ (by simp)).symm
  buffer := rfl
  bits := rfl

theorem sha256_ctx_t.Absorbed.buffer_length {ctx : sha256_ctx_t} {message : List Byte}
    (h : ctx.Absorbed message) : ctx.buffer.length = message.length % 64 := by
  rw [h.buffer, List.length_drop]
  omega

/-- One pass of the update loop moves a nonempty prefix of the input into the
consumed message, whether or not it completes a block. -/
theorem update_chunk_spec {ctx : sha256_ctx_t} {message data : List Byte}
    (habs : ctx.Absorbed message) (hdata : 0 < data.length) :
    ∃ k, 0 < k ∧ k ≤ data.length ∧ (update_chunk ctx data).2 = data.drop k ∧
      (update_chunk ctx data).1.Absorbed (message ++ data.take k) := by
  have hlen := habs.buffer_length
  have hprefix : message.take (64 * (message.length / 64)) ++ ctx.buffer = message := by
    rw [habs.buffer, List.take_append_drop]
  let k := if data.length < 64 - ctx.buffer_len then data.length else 64 - ctx.buffer_len
  have hk : k = min data.length (64 - ctx.buffer.length) := by
    have hlen' : ctx.buffer_len = ctx.buffer.length := rfl
    rw [← hlen']
    by_cases hroom : data.length < 64 - ctx.buffer_len
    · rw [min_eq_left hroom.le]
      exact if_pos hroom
    · rw [min_eq_right (not_lt.mp hroom)]
      exact if_neg hroom
  have hfilled : (ctx.buffer ++ data.take k).length = ctx.buffer.length + k := by simp; omega
  have hmessage : message ++ data.take k =
      message.take (64 * (message.length / 64)) ++ (ctx.buffer ++ data.take k) := by
    rw [← List.append_assoc, hprefix]
  have habsorb := absorb_append initialHash _ (ctx.buffer ++ data.take k) ⟨_, take_blocks_length message⟩
  rw [← hmessage, absorb_take_blocks, ← habs.hash] at habsorb
  refine ⟨k, by omega, by omega, ?_, ?_⟩
  · simp only [update_chunk]
    rw [apply_ite Prod.snd, ite_self]
  · by_cases hfull : (ctx.buffer ++ data.take k).length = 64
    · have hstep : (update_chunk ctx data).1 =
          { ctx with h := sha256_compress ctx.h (ctx.buffer ++ data.take k), buffer := [] } := by
        simp only [update_chunk]
        rw [if_pos hfull]
      rw [hstep]
      constructor
      · have hblock := absorb_block ctx.h [] hfull
        rw [List.append_nil, absorb_nil] at hblock
        rw [habsorb, hblock, sha256_compress_eq]
      · symm
        apply List.drop_eq_nil_of_le
        simp only [List.length_append, List.length_take]
        omega
    · have hstep : (update_chunk ctx data).1 = { ctx with buffer := ctx.buffer ++ data.take k } := by
        simp only [update_chunk]
        rw [if_neg hfull]
      rw [hstep]
      constructor
      · rw [habsorb, absorb_short _ (by omega)]
      · have hdiv : (message ++ data.take k).length / 64 = message.length / 64 := by
          simp only [List.length_append, List.length_take]
          omega
        rw [hdiv, hmessage, List.drop_left' (take_blocks_length message)]

theorem update_loop_spec {ctx : sha256_ctx_t} {message data : List Byte} (fuel : Nat)
    (habs : ctx.Absorbed message) (hfuel : data.length ≤ fuel) :
    (update_loop fuel ctx data).Absorbed (message ++ data) := by
  induction fuel generalizing ctx message data with
  | zero =>
    have hnil : data = [] := List.length_eq_zero_iff.mp (by omega)
    simpa [hnil, update_loop] using habs
  | succ fuel ih =>
    rw [update_loop]
    split
    next hzero => simpa [List.length_eq_zero_iff.mp hzero] using habs
    next hne =>
      have hpos : 0 < data.length := Nat.pos_of_ne_zero hne
      obtain ⟨k, hk, hle, hrest, hnext⟩ := update_chunk_spec habs hpos
      have hshorter : (data.drop k).length ≤ fuel := by
        simp
        omega
      have h := ih hnext hshorter
      rw [List.append_assoc, List.take_append_drop] at h
      rwa [hrest]

private theorem update_chunk_bit_count (ctx : sha256_ctx_t) (data : List Byte) :
    (update_chunk ctx data).1.bit_count = ctx.bit_count := by
  simp only [update_chunk]
  generalize (if data.length < 64 - ctx.buffer_len then data.length else 64 - ctx.buffer_len) = take
  split <;> rfl

private theorem update_loop_bit_count (fuel : Nat) (ctx : sha256_ctx_t) (data : List Byte) :
    (update_loop fuel ctx data).bit_count = ctx.bit_count := by
  induction fuel generalizing ctx data with
  | zero => rfl
  | succ fuel ih =>
    rw [update_loop]
    split
    · rfl
    · rw [ih, update_chunk_bit_count]

/-- Updating appends: no split of the input across blocks is visible. -/
theorem sha256_update_represents {ctx : sha256_ctx_t} {message : List Byte}
    (h : ctx.Represents message) (data : List Byte) :
    (sha256_update ctx data).Represents (message ++ data) where
  toAbsorbed := update_loop_spec _ ⟨h.hash, h.buffer⟩ (Nat.le_refl _)
  bits := by
    rw [sha256_update, update_loop_bit_count]
    simp only [h.bits, List.length_append]
    apply BitVec.eq_of_toNat_eq
    simp only [BitVec.toNat_add, BitVec.toNat_mul, BitVec.toNat_ofNat, show (8 : BitVec 64).toNat = 8 from rfl]
    omega

private theorem length_field (bits : BitVec 64) :
    (List.range 8).map (fun i => (bits >>> (56 - i * 8)).setWidth 8) = lengthBytes bits := by
  apply List.map_congr_left
  intro i hi
  apply BitVec.eq_of_getLsbD_eq
  intro j hj
  simp [hj, Nat.mul_comm i 8]

/-- Finalization computes the digest of the consumed message, with the padding
in one block or spilling into a second one. -/
theorem sha256_final_spec {ctx : sha256_ctx_t} {message : List Byte} (h : ctx.Represents message) :
    sha256_final ctx = sha256 message := by
  have hlen := h.toAbsorbed.buffer_length
  have hdigest (hash : Vector Word 8) : hash.toList.flatMap store_be32 = digestBytes hash := by
    rw [digestBytes, funext store_be32_eq]
  rw [sha256_eq, ← h.hash, ← h.buffer, ← h.bits]
  simp only [sha256_final, sha256_ctx_t.buffer_len, length_field, hdigest]
  congr 1
  by_cases hspill : (ctx.buffer ++ [0x80#8]).length > 56
  · simp only [hspill, ↓reduceIte, List.nil_append, List.length_nil, Nat.sub_zero]
    have hfirst : (ctx.buffer ++ [0x80#8] ++
        List.replicate (64 - (ctx.buffer ++ [0x80#8]).length) 0#8).length = 64 := by
      simp at hspill ⊢
      omega
    have hsecond : (List.replicate 56 0#8 ++ lengthBytes ctx.bit_count).length = 64 := by
      simp [lengthBytes_length]
    have hfinal : finalBlocks ctx.buffer ctx.bit_count =
        (ctx.buffer ++ [0x80#8] ++ List.replicate (64 - (ctx.buffer ++ [0x80#8]).length) 0#8) ++
          ((List.replicate 56 0#8 ++ lengthBytes ctx.bit_count) ++ []) := by
      have hzeros : paddingZeros ctx.buffer.length = (64 - (ctx.buffer ++ [0x80#8]).length) + 56 := by
        simp [paddingZeros] at hspill ⊢
        omega
      rw [finalBlocks, hzeros, List.replicate_add]
      simp only [List.append_assoc, List.append_nil]
    rw [hfinal, absorb_block _ _ hfirst, absorb_block _ _ hsecond, absorb_nil,
      sha256_compress_eq, sha256_compress_eq]
  · simp only [hspill, ↓reduceIte]
    have hblock : (ctx.buffer ++ [0x80#8] ++ List.replicate (56 - (ctx.buffer ++ [0x80#8]).length) 0#8 ++
        lengthBytes ctx.bit_count).length = 64 := by
      simp [lengthBytes_length] at hspill ⊢
      omega
    have hfinal : finalBlocks ctx.buffer ctx.bit_count =
        (ctx.buffer ++ [0x80#8] ++ List.replicate (56 - (ctx.buffer ++ [0x80#8]).length) 0#8 ++
          lengthBytes ctx.bit_count) ++ [] := by
      have hzeros : paddingZeros ctx.buffer.length = 56 - (ctx.buffer ++ [0x80#8]).length := by
        simp [paddingZeros] at hspill ⊢
        omega
      rw [finalBlocks, hzeros, List.append_nil]
    rw [hfinal, absorb_block _ _ hblock, absorb_nil, sha256_compress_eq]

/-- The midstate is the hash value after the first header block. -/
theorem bitcoin_header_midstate_eq {header80 : List Byte} (hlen : 64 ≤ header80.length) :
    bitcoin_header_midstate header80 = compress initialHash (blockWords (header80.take 64)) := by
  have htake : (header80.take 64).length = 64 := by simp; omega
  have h := (sha256_update_represents sha256_init_represents (header80.take 64)).hash
  have hblock := absorb_block initialHash [] htake
  rw [List.append_nil, absorb_nil] at hblock
  rw [bitcoin_header_midstate, h, List.nil_append, hblock]

end scu35.sha256_sw
