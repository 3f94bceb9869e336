import Scu35Miner.Fips180.Message

open fips180

namespace scu35.sha256_sw

def k_sha256 : List Word := [
  0x428a2f98, 0x71374491, 0xb5c0fbcf, 0xe9b5dba5,
  0x3956c25b, 0x59f111f1, 0x923f82a4, 0xab1c5ed5,
  0xd807aa98, 0x12835b01, 0x243185be, 0x550c7dc3,
  0x72be5d74, 0x80deb1fe, 0x9bdc06a7, 0xc19bf174,
  0xe49b69c1, 0xefbe4786, 0x0fc19dc6, 0x240ca1cc,
  0x2de92c6f, 0x4a7484aa, 0x5cb0a9dc, 0x76f988da,
  0x983e5152, 0xa831c66d, 0xb00327c8, 0xbf597fc7,
  0xc6e00bf3, 0xd5a79147, 0x06ca6351, 0x14292967,
  0x27b70a85, 0x2e1b2138, 0x4d2c6dfc, 0x53380d13,
  0x650a7354, 0x766a0abb, 0x81c2c92e, 0x92722c85,
  0xa2bfe8a1, 0xa81a664b, 0xc24b8b70, 0xc76c51a3,
  0xd192e819, 0xd6990624, 0xf40e3585, 0x106aa070,
  0x19a4c116, 0x1e376c08, 0x2748774c, 0x34b0bcb5,
  0x391c0cb3, 0x4ed8aa4a, 0x5b9cca4f, 0x682e6ff3,
  0x748f82ee, 0x78a5636f, 0x84c87814, 0x8cc70208,
  0x90befffa, 0xa4506ceb, 0xbef9a3f7, 0xc67178f2]

def rotr32 (x : Word) (n : Nat) : Word := (x >>> n) ||| (x <<< (32 - n))

def load_be32 (p : List Byte) : Word :=
  ((p.getD 0 0).setWidth 32 <<< 24) ||| ((p.getD 1 0).setWidth 32 <<< 16) |||
    ((p.getD 2 0).setWidth 32 <<< 8) ||| (p.getD 3 0).setWidth 32

def store_be32 (x : Word) : List Byte :=
  [(x >>> 24).setWidth 8, (x >>> 16).setWidth 8, (x >>> 8).setWidth 8, x.setWidth 8]

/-- The first loop of `sha256_compress`: the message words `w[0..n)`. -/
def load_words (block : List Byte) : Nat → List Word
  | 0 => []
  | i + 1 => load_words block i ++ [load_be32 (block.drop (i * 4))]

/-- The body of the second loop, computing `w[i]` from the words before it. -/
def expand_word (w : List Word) (i : Nat) : Word :=
  let s0 := rotr32 (w.getD (i - 15) 0) 7 ^^^ rotr32 (w.getD (i - 15) 0) 18 ^^^ (w.getD (i - 15) 0 >>> 3)
  let s1 := rotr32 (w.getD (i - 2) 0) 17 ^^^ rotr32 (w.getD (i - 2) 0) 19 ^^^ (w.getD (i - 2) 0 >>> 10)
  w.getD (i - 16) 0 + s0 + w.getD (i - 7) 0 + s1

/-- The second loop of `sha256_compress`, `n` iterations from `i = 16`. -/
def expand_words (w : List Word) : Nat → List Word
  | 0 => w
  | n + 1 => expand_words w n ++ [expand_word (expand_words w n) (16 + n)]

/-- The body of the third loop. -/
def compress_round (w : List Word) (i : Nat) (v : Working) : Working :=
  let s1 := rotr32 v.e 6 ^^^ rotr32 v.e 11 ^^^ rotr32 v.e 25
  let ch := (v.e &&& v.f) ^^^ (~~~v.e &&& v.g)
  let temp1 := v.h + s1 + ch + k_sha256.getD i 0 + w.getD i 0
  let s0 := rotr32 v.a 2 ^^^ rotr32 v.a 13 ^^^ rotr32 v.a 22
  let maj := (v.a &&& v.b) ^^^ (v.a &&& v.c) ^^^ (v.b &&& v.c)
  let temp2 := s0 + maj
  { h := v.g, g := v.f, f := v.e, e := v.d + temp1, d := v.c, c := v.b, b := v.a, a := temp1 + temp2 }

def compress_rounds (w : List Word) (v : Working) : Nat → Working
  | 0 => v
  | i + 1 => compress_round w i (compress_rounds w v i)

def sha256_compress (state : Vector Word 8) (block : List Byte) : Vector Word 8 :=
  let w := expand_words (load_words block 16) 48
  let v := compress_rounds w ⟨state.get 0, state.get 1, state.get 2, state.get 3, state.get 4, state.get 5,
    state.get 6, state.get 7⟩ 64
  #v[state.get 0 + v.a, state.get 1 + v.b, state.get 2 + v.c, state.get 3 + v.d,
    state.get 4 + v.e, state.get 5 + v.f, state.get 6 + v.g, state.get 7 + v.h]

/-- The streaming context. `buffer` holds the first `buffer_len` bytes of the
C array; the bytes after them are dead until the next write. -/
structure sha256_ctx_t where
  h : Vector Word 8
  bit_count : BitVec 64
  buffer : List Byte
deriving DecidableEq, Repr

def sha256_ctx_t.buffer_len (ctx : sha256_ctx_t) : Nat := ctx.buffer.length

def sha256_init : sha256_ctx_t where
  h := #[0x6a09e667, 0xbb67ae85, 0x3c6ef372, 0xa54ff53a, 0x510e527f, 0x9b05688c, 0x1f83d9ab, 0x5be0cd19].toVector
  bit_count := 0
  buffer := []

/-- One pass of the `while` loop of `sha256_update` over nonempty `data`. -/
def update_chunk (ctx : sha256_ctx_t) (data : List Byte) : sha256_ctx_t × List Byte :=
  let room := 64 - ctx.buffer_len
  let take := if data.length < room then data.length else room
  let buffer := ctx.buffer ++ data.take take
  if buffer.length = 64 then
    ({ ctx with h := sha256_compress ctx.h buffer, buffer := [] }, data.drop take)
  else ({ ctx with buffer }, data.drop take)

/-- The `while` loop of `sha256_update`. Every pass consumes at least one byte
of a context that has room, so `data.length` passes are enough. -/
def update_loop : Nat → sha256_ctx_t → List Byte → sha256_ctx_t
  | 0, ctx, _ => ctx
  | fuel + 1, ctx, data =>
    if data.length = 0 then ctx
    else update_loop fuel (update_chunk ctx data).1 (update_chunk ctx data).2

def sha256_update (ctx : sha256_ctx_t) (data : List Byte) : sha256_ctx_t :=
  update_loop data.length { ctx with bit_count := ctx.bit_count + BitVec.ofNat 64 data.length * 8 } data

def sha256_final (ctx : sha256_ctx_t) : List Byte :=
  let bit_count := ctx.bit_count
  let ctx := { ctx with buffer := ctx.buffer ++ [0x80#8] }
  let ctx :=
    if ctx.buffer_len > 56 then
      let full := ctx.buffer ++ List.replicate (64 - ctx.buffer_len) 0#8
      { ctx with h := sha256_compress ctx.h full, buffer := [] }
    else ctx
  let buffer := ctx.buffer ++ List.replicate (56 - ctx.buffer_len) 0#8
  let buffer := buffer ++ (List.range 8).map fun i => (bit_count >>> (56 - i * 8)).setWidth 8
  (sha256_compress ctx.h buffer).toList.flatMap store_be32

def bitcoin_header_midstate (header80 : List Byte) : Vector Word 8 :=
  (sha256_update sha256_init (header80.take 64)).h

def bitcoin_header_tail_words (header80 : List Byte) : Vector Word 4 :=
  Vector.ofFn fun i => load_be32 (header80.drop (64 + i * 4))

theorem rotr32_eq (x : Word) {n : Nat} (hn : n < 32) : rotr32 x n = x.rotateRight n := by
  rw [BitVec.rotateRight_def, Nat.mod_eq_of_lt hn]
  rfl

theorem load_be32_eq (p : List Byte) :
    load_be32 p = ofBytes (p.getD 0 0) (p.getD 1 0) (p.getD 2 0) (p.getD 3 0) := by
  apply BitVec.eq_of_getLsbD_eq
  intro i hi
  rw [ofBytes_getLsbD]
  simp only [load_be32, BitVec.getLsbD_or, BitVec.getLsbD_shiftLeft, BitVec.getLsbD_setWidth, hi, decide_true,
    Bool.true_and]
  by_cases h8 : i < 8
  · simp [h8, show i < 16 by omega, show i < 24 by omega]
  · by_cases h16 : i < 16
    · simp [h8, h16, show i < 24 by omega, show i - 8 < 32 by omega, BitVec.getLsbD_of_ge, show 8 ≤ i by omega]
    · by_cases h24 : i < 24
      · simp [h8, h16, h24, show i - 16 < 32 by omega, BitVec.getLsbD_of_ge, show 8 ≤ i by omega,
          show 8 ≤ i - 8 by omega]
      · simp [h8, h16, h24, show i - 24 < 32 by omega, BitVec.getLsbD_of_ge, show 8 ≤ i by omega,
          show 8 ≤ i - 8 by omega, show 8 ≤ i - 16 by omega]

theorem store_be32_eq (x : Word) : store_be32 x = wordBytes x := by
  simp only [store_be32, wordBytes, List.cons.injEq, and_true]
  refine ⟨?_, ?_, ?_, ?_⟩ <;> apply BitVec.eq_of_getLsbD_eq <;> intro i hi <;> simp [hi]

theorem load_be32_drop (block : List Byte) (n : Nat) :
    load_be32 (block.drop n) = ofBytes (block.getD n 0) (block.getD (n + 1) 0)
      (block.getD (n + 2) 0) (block.getD (n + 3) 0) := by
  simp [load_be32_eq, List.getD_eq_getElem?_getD, List.getElem?_drop]

theorem load_words_eq (block : List Byte) {n : Nat} (hn : n ≤ 16) :
    load_words block n = (List.range n).map (schedule (blockWords block)) := by
  induction n with
  | zero => rfl
  | succ n ih =>
    rw [load_words, ih (by omega), List.range_succ, List.map_append, List.map_singleton,
      schedule_input _ (by omega), load_be32_drop]
    simp [blockWords, Nat.mul_comm n 4]

private theorem getD_schedule (m : Vector Word 16) {n i : Nat} (h : i < n) :
    ((List.range n).map (schedule m)).getD i 0 = schedule m i := by
  simp [List.getD_eq_getElem?_getD, h]

theorem expand_word_eq (m : Vector Word 16) {i : Nat} (hi : 16 ≤ i) :
    expand_word ((List.range i).map (schedule m)) i = schedule m i := by
  rw [schedule_recurrence m hi]
  simp only [expand_word]
  rw [getD_schedule m (show i - 15 < i by omega), getD_schedule m (show i - 2 < i by omega),
    getD_schedule m (show i - 16 < i by omega), getD_schedule m (show i - 7 < i by omega)]
  simp only [rotr32_eq _ (show 7 < 32 by omega), rotr32_eq _ (show 18 < 32 by omega),
    rotr32_eq _ (show 17 < 32 by omega), rotr32_eq _ (show 19 < 32 by omega)]
  change schedule m (i - 16) + smallSigma0 _ + schedule m (i - 7) + smallSigma1 _ = _
  ac_rfl

theorem expand_words_eq (m : Vector Word 16) (n : Nat) :
    expand_words ((List.range 16).map (schedule m)) n = (List.range (16 + n)).map (schedule m) := by
  induction n with
  | zero => rfl
  | succ n ih =>
    rw [expand_words, ih, expand_word_eq m (by omega), ← Nat.add_assoc, List.range_succ,
      List.map_append, List.map_singleton]

/-- The array holds the constants of the standard. -/
theorem k_sha256_eq : k_sha256 = roundConstants := rfl

theorem compress_round_eq (m : Vector Word 16) {i n : Nat} (hi : i < n) (v : Working) :
    compress_round ((List.range n).map (schedule m)) i v = v.round (roundConstant i) (schedule m i) := by
  simp only [compress_round, k_sha256_eq, getD_schedule m hi, rotr32_eq _ (show 6 < 32 by omega),
    rotr32_eq _ (show 11 < 32 by omega), rotr32_eq _ (show 25 < 32 by omega),
    rotr32_eq _ (show 2 < 32 by omega), rotr32_eq _ (show 13 < 32 by omega),
    rotr32_eq _ (show 22 < 32 by omega)]
  rfl

theorem compress_rounds_eq (m : Vector Word 16) (v : Working) {n i : Nat} (hi : i ≤ n) :
    compress_rounds ((List.range n).map (schedule m)) v i = rounds m v i := by
  induction i with
  | zero => rfl
  | succ i ih => rw [compress_rounds, ih (by omega), compress_round_eq m (by omega), rounds]

/-- The C compression is the standard's, on every state and every block. -/
theorem sha256_compress_eq (state : Vector Word 8) (block : List Byte) :
    sha256_compress state block = compress state (blockWords block) := by
  have hw : expand_words (load_words block 16) 48 = (List.range 64).map (schedule (blockWords block)) := by
    rw [load_words_eq block (Nat.le_refl 16)]
    exact expand_words_eq (blockWords block) 48
  have hv := compress_rounds_eq (blockWords block) (.ofHash state) (Nat.le_refl 64)
  calc sha256_compress state block
      = (compress_rounds (expand_words (load_words block 16) 48) (.ofHash state) 64).addHash state := rfl
    _ = (compress_rounds ((List.range 64).map (schedule (blockWords block))) (.ofHash state) 64).addHash state :=
        congrArg (fun w => (compress_rounds w (.ofHash state) 64).addHash state) hw
    _ = compress state (blockWords block) := congrArg (fun v => v.addHash state) hv

end scu35.sha256_sw
