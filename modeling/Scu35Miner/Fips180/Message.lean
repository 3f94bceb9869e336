import Scu35Miner.Fips180.Compression
import Scu35Miner.Radix.BigEndian

open radix

namespace fips180

/-- The sixteen message words of a block; bytes past the end of a short input
read as zero. -/
def blockWords (bytes : List Byte) : Vector Word 16 :=
  Vector.ofFn fun i => ofBytes (bytes.getD (4 * i) 0) (bytes.getD (4 * i + 1) 0)
    (bytes.getD (4 * i + 2) 0) (bytes.getD (4 * i + 3) 0)

/-- Compresses the leading whole blocks of a byte string. A final partial
block is left alone. -/
def absorb (hash : Vector Word 8) (bytes : List Byte) : Vector Word 8 :=
  if 64 ≤ bytes.length then absorb (compress hash (blockWords (bytes.take 64))) (bytes.drop 64)
  else hash
termination_by bytes.length
decreasing_by simp only [List.length_drop]; omega

/-- The sixty-four bit message length, most significant byte first. -/
def lengthBytes (n : BitVec 64) : List Byte :=
  (List.range 8).map fun i => n.extractLsb' (56 - 8 * i) 8

/-- The number of zero bytes between the delimiter and the length. -/
def paddingZeros (n : Nat) : Nat := (119 - n % 64) % 64

def pad (message : List Byte) : List Byte :=
  message ++ [0x80#8] ++ List.replicate (paddingZeros message.length) 0#8 ++
    lengthBytes (BitVec.ofNat 64 (8 * message.length))

def digestBytes (hash : Vector Word 8) : List Byte := hash.toList.flatMap wordBytes

/-- The SHA-256 digest of a byte string of fewer than `2 ^ 61` bytes. -/
def sha256 (message : List Byte) : List Byte := digestBytes (absorb initialHash (pad message))

theorem absorb_short (hash : Vector Word 8) {bytes : List Byte} (h : bytes.length < 64) :
    absorb hash bytes = hash := by
  rw [absorb, if_neg (by omega)]

theorem absorb_nil (hash : Vector Word 8) : absorb hash [] = hash := absorb_short hash (by simp)

theorem absorb_block (hash : Vector Word 8) {block : List Byte} (bytes : List Byte) (h : block.length = 64) :
    absorb hash (block ++ bytes) = absorb (compress hash (blockWords block)) bytes := by
  rw [absorb, if_pos (by simp [h]), List.take_left' h, List.drop_left' h]

/-- Absorbing whole blocks first and the remaining bytes afterwards is
absorbing everything. -/
theorem absorb_append (hash : Vector Word 8) (blocks bytes : List Byte) (h : 64 ∣ blocks.length) :
    absorb hash (blocks ++ bytes) = absorb (absorb hash blocks) bytes := by
  obtain ⟨n, hn⟩ := h
  induction n generalizing hash blocks with
  | zero =>
    have hnil : blocks = [] := List.length_eq_zero_iff.mp (by omega)
    subst hnil
    rw [absorb_nil, List.nil_append]
  | succ n ih =>
    have hsplit : blocks = blocks.take 64 ++ blocks.drop 64 := (List.take_append_drop 64 blocks).symm
    have htake : (blocks.take 64).length = 64 := by simp; omega
    rw [hsplit, List.append_assoc, absorb_block _ _ htake, absorb_block _ _ htake]
    exact ih _ _ (by simp; omega)

/-- The bytes that end a message whose last partial block is `tail`: the block
is finished in place when nine more bytes fit, and spills into a second block
otherwise. -/
def finalBlocks (tail : List Byte) (bits : BitVec 64) : List Byte :=
  tail ++ [0x80#8] ++ List.replicate (paddingZeros tail.length) 0#8 ++ lengthBytes bits

theorem pad_split (message : List Byte) :
    pad message = message.take (64 * (message.length / 64)) ++
      finalBlocks (message.drop (64 * (message.length / 64))) (BitVec.ofNat 64 (8 * message.length)) := by
  have hzeros : paddingZeros (message.length - 64 * (message.length / 64)) = paddingZeros message.length := by
    unfold paddingZeros
    omega
  simp only [finalBlocks, List.length_drop, hzeros, ← List.append_assoc, List.take_append_drop, pad]

theorem lengthBytes_length (n : BitVec 64) : (lengthBytes n).length = 8 := by simp [lengthBytes]

theorem take_blocks_length (message : List Byte) :
    (message.take (64 * (message.length / 64))).length = 64 * (message.length / 64) := by
  simp
  omega

/-- A partial last block does not enter the hash value. -/
theorem absorb_take_blocks (hash : Vector Word 8) (message : List Byte) :
    absorb hash (message.take (64 * (message.length / 64))) = absorb hash message := by
  have hshort : (message.drop (64 * (message.length / 64))).length < 64 := by
    simp
    omega
  conv_rhs => rw [← List.take_append_drop (64 * (message.length / 64)) message]
  rw [absorb_append _ _ _ ⟨_, take_blocks_length message⟩, absorb_short _ hshort]

theorem sha256_eq (message : List Byte) :
    sha256 message = digestBytes (absorb (absorb initialHash message)
      (finalBlocks (message.drop (64 * (message.length / 64))) (BitVec.ofNat 64 (8 * message.length)))) := by
  rw [sha256, pad_split, absorb_append _ _ _ ⟨_, take_blocks_length message⟩, absorb_take_blocks]

theorem digestBytes_length (hash : Vector Word 8) : (digestBytes hash).length = 32 := by
  simp [digestBytes, wordBytes_length, Function.const_def]

theorem sha256_length (message : List Byte) : (sha256 message).length = 32 := digestBytes_length _

theorem getD_flatMap_wordBytes (words : List Word) {i j : Nat} (hi : i < words.length) (hj : j < 4) :
    (words.flatMap wordBytes).getD (4 * i + j) 0 = (wordBytes words[i]).getD j 0 := by
  induction words generalizing i with
  | nil => simp at hi
  | cons w words ih =>
    have hlen : (wordBytes w).length = 4 := wordBytes_length w
    rw [List.flatMap_cons]
    cases i with
    | zero =>
      rw [List.getD_append _ _ _ _ (by omega)]
      simp
    | succ i =>
      rw [List.getD_append_right _ _ _ _ (by omega)]
      simp only [List.length_cons] at hi
      have h := ih (i := i) (by omega)
      simpa [hlen, show 4 * (i + 1) + j - 4 = 4 * i + j by omega] using h

/-- A block rebuilt from the bytes of its own words. -/
theorem blockWords_flatMap (m : Vector Word 16) : blockWords (m.toList.flatMap wordBytes) = m := by
  apply Vector.ext
  intro i hi
  have hlen : i < m.toList.length := by simpa using hi
  have h (j : Nat) (hj : j < 4) := getD_flatMap_wordBytes m.toList hlen hj
  have h0 := h 0 (by omega)
  simp only [Nat.add_zero] at h0
  simp only [blockWords, Vector.getElem_ofFn, h0, h 1 (by omega), h 2 (by omega), h 3 (by omega)]
  exact (ofBytes_wordBytes _).trans (by simp)

theorem ofBytes_toNat (b0 b1 b2 b3 : Byte) :
    (ofBytes b0 b1 b2 b3).toNat = ((b0.toNat * 256 + b1.toNat) * 256 + b2.toNat) * 256 + b3.toNat := by
  have happend {n : Nat} (x : BitVec n) (y : Byte) : (x ++ y).toNat = x.toNat * 256 + y.toNat := by
    rw [BitVec.toNat_append, ← Nat.shiftLeft_add_eq_or_of_lt y.isLt, Nat.shiftLeft_eq]
  simp only [ofBytes, happend]

theorem beValue_wordBytes (x : Word) : beValue (wordBytes x) = x.toNat := by
  conv_rhs => rw [← ofBytes_wordBytes x, ofBytes_toNat]
  simp only [wordBytes, beValue, List.foldl_cons, List.foldl_nil]
  omega

theorem beValue_words (words : List Word) : beValue (words.flatMap wordBytes) = beValue words :=
  beValue_flatMap wordBytes rfl wordBytes_length beValue_wordBytes words

end fips180
