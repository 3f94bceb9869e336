import Mathlib

namespace fips180

abbrev Byte := BitVec 8
abbrev Word := BitVec 32

/-- Bytes of a word in transmission order, most significant first. -/
def wordBytes (x : Word) : List Byte :=
  [x.extractLsb' 24 8, x.extractLsb' 16 8, x.extractLsb' 8 8, x.extractLsb' 0 8]

/-- The word whose transmission order is the four given bytes. -/
def ofBytes (b0 b1 b2 b3 : Byte) : Word := b0 ++ b1 ++ b2 ++ b3

def ch (x y z : Word) : Word := (x &&& y) ^^^ (~~~x &&& z)
def maj (x y z : Word) : Word := (x &&& y) ^^^ (x &&& z) ^^^ (y &&& z)
def bigSigma0 (x : Word) : Word := x.rotateRight 2 ^^^ x.rotateRight 13 ^^^ x.rotateRight 22
def bigSigma1 (x : Word) : Word := x.rotateRight 6 ^^^ x.rotateRight 11 ^^^ x.rotateRight 25
def smallSigma0 (x : Word) : Word := x.rotateRight 7 ^^^ x.rotateRight 18 ^^^ (x >>> 3)
def smallSigma1 (x : Word) : Word := x.rotateRight 17 ^^^ x.rotateRight 19 ^^^ (x >>> 10)

def roundConstants : List Word := [
  0x428a2f98, 0x71374491, 0xb5c0fbcf, 0xe9b5dba5, 0x3956c25b, 0x59f111f1, 0x923f82a4, 0xab1c5ed5,
  0xd807aa98, 0x12835b01, 0x243185be, 0x550c7dc3, 0x72be5d74, 0x80deb1fe, 0x9bdc06a7, 0xc19bf174,
  0xe49b69c1, 0xefbe4786, 0x0fc19dc6, 0x240ca1cc, 0x2de92c6f, 0x4a7484aa, 0x5cb0a9dc, 0x76f988da,
  0x983e5152, 0xa831c66d, 0xb00327c8, 0xbf597fc7, 0xc6e00bf3, 0xd5a79147, 0x06ca6351, 0x14292967,
  0x27b70a85, 0x2e1b2138, 0x4d2c6dfc, 0x53380d13, 0x650a7354, 0x766a0abb, 0x81c2c92e, 0x92722c85,
  0xa2bfe8a1, 0xa81a664b, 0xc24b8b70, 0xc76c51a3, 0xd192e819, 0xd6990624, 0xf40e3585, 0x106aa070,
  0x19a4c116, 0x1e376c08, 0x2748774c, 0x34b0bcb5, 0x391c0cb3, 0x4ed8aa4a, 0x5b9cca4f, 0x682e6ff3,
  0x748f82ee, 0x78a5636f, 0x84c87814, 0x8cc70208, 0x90befffa, 0xa4506ceb, 0xbef9a3f7, 0xc67178f2]

/-- The constant `K` of round `t`; zero outside the sixty-four rounds. -/
def roundConstant (t : Nat) : Word := roundConstants.getD t 0

def initialHash : Vector Word 8 := #v[
  0x6a09e667, 0xbb67ae85, 0x3c6ef372, 0xa54ff53a, 0x510e527f, 0x9b05688c, 0x1f83d9ab, 0x5be0cd19]

/-- Numerals index the words of a hash value. -/
scoped instance eight_neZero : NeZero 8 := ⟨Nat.succ_ne_zero 7⟩

/-- The eight working variables of a compression. -/
structure Working where
  a : Word
  b : Word
  c : Word
  d : Word
  e : Word
  f : Word
  g : Word
  h : Word
deriving DecidableEq, Repr

def Working.ofHash (v : Vector Word 8) : Working :=
  ⟨v[0], v[1], v[2], v[3], v[4], v[5], v[6], v[7]⟩

/-- The message schedule of a block: sixteen message words, extended by the
four-term recurrence. -/
def schedule (m : Vector Word 16) (t : Nat) : Word :=
  if h : t < 16 then m[t]
  else smallSigma1 (schedule m (t - 2)) + schedule m (t - 7) +
    smallSigma0 (schedule m (t - 15)) + schedule m (t - 16)
termination_by t

def Working.temp1 (v : Working) (k w : Word) : Word := v.h + bigSigma1 v.e + ch v.e v.f v.g + k + w
def Working.temp2 (v : Working) : Word := bigSigma0 v.a + maj v.a v.b v.c

def Working.round (v : Working) (k w : Word) : Working where
  a := v.temp1 k w + v.temp2
  b := v.a
  c := v.b
  d := v.c
  e := v.d + v.temp1 k w
  f := v.e
  g := v.f
  h := v.g

/-- The working variables after the first `t` rounds. -/
def rounds (m : Vector Word 16) (v : Working) : Nat → Working
  | 0 => v
  | t + 1 => (rounds m v t).round (roundConstant t) (schedule m t)

def Working.addHash (v : Working) (hash : Vector Word 8) : Vector Word 8 := #v[
  hash[0] + v.a, hash[1] + v.b, hash[2] + v.c, hash[3] + v.d,
  hash[4] + v.e, hash[5] + v.f, hash[6] + v.g, hash[7] + v.h]

/-- The SHA-256 compression of one sixteen-word block into a hash value. -/
def compress (hash : Vector Word 8) (m : Vector Word 16) : Vector Word 8 :=
  (rounds m (.ofHash hash) 64).addHash hash

theorem schedule_input (m : Vector Word 16) {t : Nat} (ht : t < 16) : schedule m t = m[t] := by
  rw [schedule, dif_pos ht]

theorem schedule_recurrence (m : Vector Word 16) {t : Nat} (ht : 16 ≤ t) :
    schedule m t = smallSigma1 (schedule m (t - 2)) + schedule m (t - 7) +
      (smallSigma0 (schedule m (t - 15)) + schedule m (t - 16)) := by
  rw [schedule, dif_neg (by omega), BitVec.add_assoc (_ + _)]

theorem wordBytes_length (x : Word) : (wordBytes x).length = 4 := rfl

theorem ofBytes_getLsbD (b0 b1 b2 b3 : Byte) (i : Nat) :
    (ofBytes b0 b1 b2 b3).getLsbD i =
      if i < 8 then b3.getLsbD i else if i < 16 then b2.getLsbD (i - 8)
      else if i < 24 then b1.getLsbD (i - 16) else b0.getLsbD (i - 24) := by
  simp only [ofBytes, BitVec.getLsbD_append]
  by_cases h8 : i < 8
  · simp [h8]
  · by_cases h16 : i < 16
    · simp [h8, h16, show i - 8 < 8 by omega]
    · by_cases h24 : i < 24
      · simp [h8, h16, h24, show ¬ i - 8 < 8 by omega, show i - 16 < 8 by omega, Nat.sub_sub]
      · simp [h8, h16, h24, show ¬ i - 8 < 8 by omega, show ¬ i - 16 < 8 by omega, Nat.sub_sub]

theorem ofBytes_wordBytes (x : Word) :
    ofBytes (x.extractLsb' 24 8) (x.extractLsb' 16 8) (x.extractLsb' 8 8) (x.extractLsb' 0 8) = x := by
  apply BitVec.eq_of_getLsbD_eq
  intro i hi
  rw [ofBytes_getLsbD]
  simp only [BitVec.getLsbD_extractLsb']
  split
  · simp [*]
  · split
    · simp [show i - 8 < 8 by omega, show 8 + (i - 8) = i by omega]
    · split
      · simp [show i - 16 < 8 by omega, show 16 + (i - 16) = i by omega]
      · simp [show i - 24 < 8 by omega, show 24 + (i - 24) = i by omega]

theorem wordBytes_ofBytes (b0 b1 b2 b3 : Byte) : wordBytes (ofBytes b0 b1 b2 b3) = [b0, b1, b2, b3] := by
  have hbyte (start : Nat) (b : Byte) (h : ∀ i < 8, (ofBytes b0 b1 b2 b3).getLsbD (start + i) = b.getLsbD i) :
      (ofBytes b0 b1 b2 b3).extractLsb' start 8 = b := by
    apply BitVec.eq_of_getLsbD_eq
    intro i hi
    rw [BitVec.getLsbD_extractLsb', h i hi]
    simp [hi]
  simp only [wordBytes, List.cons.injEq, and_true]
  refine ⟨hbyte _ _ ?_, hbyte _ _ ?_, hbyte _ _ ?_, hbyte _ _ ?_⟩ <;> intro i hi <;> rw [ofBytes_getLsbD]
  · rw [if_neg (by omega), if_neg (by omega), if_neg (by omega), show 24 + i - 24 = i by omega]
  · rw [if_neg (by omega), if_neg (by omega), if_pos (by omega), show 16 + i - 16 = i by omega]
  · rw [if_neg (by omega), if_pos (by omega), show 8 + i - 8 = i by omega]
  · rw [if_pos (by omega), show 0 + i = i by omega]

end fips180
