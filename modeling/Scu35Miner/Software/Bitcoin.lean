import Scu35Miner.Radix.BigEndian
import Scu35Miner.Software.Sha256.Streaming

open fips180 radix

namespace scu35.bitcoin

open sha256_sw

def hex_digit (c : Byte) : Option Byte :=
  if 0x30 ≤ c ∧ c ≤ 0x39 then some (c - 0x30)
  else if 0x61 ≤ c ∧ c ≤ 0x66 then some (c - 0x61 + 10)
  else if 0x41 ≤ c ∧ c ≤ 0x46 then some (c - 0x41 + 10)
  else none

/-- The loop of `hex_decode`, two characters at a time. -/
def hex_pairs : List Byte → Option (List Byte)
  | [] => some []
  | [_] => none
  | a :: b :: s =>
    match hex_digit a, hex_digit b, hex_pairs s with
    | some v, some w, some out => some (((v <<< 4) ||| w) :: out)
    | _, _, _ => none

def hex_decode (s : List Byte) (cap : Nat) : Option (List Byte) :=
  if s.length % 2 != 0 || s.length / 2 > cap then none else hex_pairs s

/-- The table `0123456789abcdef`. -/
def hex_char (v : Byte) : Byte := if v < 10 then 0x30 + v else 0x57 + v

def hex_encode (bytes : List Byte) : List Byte := bytes.flatMap fun b : Byte => [hex_char (b >>> 4), hex_char (b &&& 15)]

def sha256d (bytes : List Byte) : List Byte :=
  let out := sha256_final (sha256_update sha256_init bytes)
  sha256_final (sha256_update sha256_init out)

def bitcoin_swap32 (x : Word) : Word :=
  (x <<< 24) ||| ((x <<< 8) &&& 0xff0000) ||| ((x >>> 8) &&& 0xff00) ||| (x >>> 24)

/-- The merkle root loop of `bitcoin_build_header`. -/
def merkle_root (root : List Byte) (branches : List (List Byte)) : List Byte :=
  branches.foldl (fun root branch => sha256d (root ++ branch)) root

def coinbase_root (coin1 extra1 extra2 coin2 : List Byte) : List Byte :=
  let ctx := sha256_update sha256_init coin1
  let ctx := sha256_update ctx extra1
  let ctx := sha256_update ctx extra2
  let ctx := sha256_update ctx coin2
  let root := sha256_final ctx
  sha256_final (sha256_update sha256_init root)

/-- The eighty header bytes, in order. -/
def bitcoin_build_header (version prev bits time coin1 extra1 extra2 coin2 : List Byte)
    (branches : List (List Byte)) : List Byte :=
  let root := merkle_root (coinbase_root coin1 extra1 extra2 coin2) branches
  (List.range 4).map (fun i => version.getD (3 - i) 0) ++
    (List.range 32).map (fun i => prev.getD (i ^^^ 3) 0) ++ root ++
    (List.range 4).map (fun i => time.getD (3 - i) 0) ++
    (List.range 4).map (fun i => bits.getD (3 - i) 0) ++ List.replicate 4 0

/-- Thirty-two limbs, least significant first. -/
abbrev big := List Word

def big.zero : big := List.replicate 32 0

/-- The limb loop of `multiply10`, with the carry that is left. -/
def multiply10_limbs : big → Nat → big × Nat
  | [], carry => ([], carry)
  | a :: limbs, carry =>
    let carry := carry + a.toNat * 10
    let (rest, out) := multiply10_limbs limbs (carry / 2 ^ 32)
    (BitVec.ofNat 32 carry :: rest, out)

def multiply10 (a : big) (add : Nat) : Option big :=
  let (product, carry) := multiply10_limbs a add
  if carry = 0 then some product else none

/-- `compare` over limbs given most significant first. -/
def compare_limbs : List Word → List Word → Int
  | a :: as, b :: bs => if a != b then (if a > b then 1 else -1) else compare_limbs as bs
  | _, _ => 0

def compare (a b : big) : Int := compare_limbs a.reverse b.reverse

def subtract_limbs : big → big → Nat → big
  | a :: as, b :: bs, borrow =>
    let sub := b.toNat + borrow
    (a - BitVec.ofNat 32 sub) :: subtract_limbs as bs (if a.toNat < sub then 1 else 0)
  | as, _, _ => as

def subtract (a b : big) : big := subtract_limbs a b 0

/-- The shift loop of `bitcoin_target`. -/
def shift_limbs : big → Word → big
  | [], _ => []
  | a :: as, carry => ((a <<< 1) ||| carry) :: shift_limbs as (a >>> 31)

structure Division where
  remainder : big
  out : List Word
  overflow : Bool

/-- One pass of the division loop, for the given bit of the numerator. -/
def divide_bit (numerator denominator : big) (d : Division) (bit : Nat) : Division :=
  let carry := (numerator.getD (bit / 32) 0 >>> (bit % 32)) &&& 1
  let remainder := shift_limbs d.remainder carry
  if compare remainder denominator ≥ 0 then
    let d := { d with remainder := subtract remainder denominator }
    if bit ≥ 256 then { d with overflow := true }
    else { d with out := d.out.set (7 - bit / 32) (d.out.getD (7 - bit / 32) 0 ||| ((1 : Word) <<< (bit % 32))) }
  else { d with remainder }

/-- The division loop, from bit `n - 1` down to bit 0. -/
def divide (numerator denominator : big) : Nat → Division → Division
  | 0, d => d
  | bit + 1, d => divide numerator denominator bit (divide_bit numerator denominator d bit)

structure Mantissa where
  denominator : big
  digits : Nat
  fractional : Nat
  point : Bool
  nonzero : Bool

/-- The first loop of `bitcoin_target`, up to the end or an exponent mark. -/
def parse_mantissa : List Byte → Mantissa → Option (Mantissa × List Byte)
  | [], m => some (m, [])
  | c :: s, m =>
    if c = 0x65 ∨ c = 0x45 then some (m, c :: s)
    else if c = 0x2e then
      if m.point || m.digits == 0 then none else parse_mantissa s { m with point := true }
    else if c < 0x30 || c > 0x39 || m.digits + 1 > 64 then none
    else
      match multiply10 m.denominator (c.toNat - 0x30) with
      | none => none
      | some denominator =>
        parse_mantissa s { m with
          denominator
          digits := m.digits + 1
          fractional := if m.point then m.fractional + 1 else m.fractional
          nonzero := m.nonzero || c != 0x30 }

/-- The exponent digits. -/
def parse_exponent : List Byte → Int → Option Int
  | [], exponent => some exponent
  | c :: s, exponent =>
    if c < 0x30 || c > 0x39 || exponent > 128 then none
    else parse_exponent s (exponent * 10 + ((c.toNat : Int) - 0x30))

/-- What follows the mantissa: nothing, or a mark, a sign and digits. -/
def parse_scale : List Byte → Option Int
  | [] => some 0
  | _ :: s =>
    let (negative, s) :=
      match s with
      | c :: t => if c = 0x2d then (true, t) else if c = 0x2b then (false, t) else (false, s)
      | [] => (false, [])
    if s = [] then none
    else (parse_exponent s 0).map fun exponent => if negative then -exponent else exponent

def multiply10_times (a : big) : Nat → Option big
  | 0 => some a
  | n + 1 =>
    match multiply10 a 0 with
    | none => none
    | some a => multiply10_times a n

/-- `bitcoin_target`, with `none` for its `-1`, which leaves `out` alone. -/
def bitcoin_target (s : List Byte) : Option (Vector Word 8) :=
  if s.length = 0 || s.length > 80 then none
  else
    match parse_mantissa s ⟨big.zero, 0, 0, false, false⟩ with
    | none => none
    | some (m, rest) =>
      if !m.nonzero || (m.point && m.fractional == 0) then none
      else
        match parse_scale rest with
        | none => none
        | some scale =>
          let exponent := scale - m.fractional
          if exponent > 128 || exponent < -128 then none
          else
            match multiply10_times m.denominator exponent.toNat,
              multiply10_times (big.zero.set 6 0xffff0000) (-exponent).toNat with
            | some denominator, some numerator =>
              let d := divide numerator denominator 1024 ⟨big.zero, List.replicate 8 0, false⟩
              some (if d.overflow then Vector.replicate 8 0xffffffff else Vector.ofFn fun i => d.out.getD i 0)
            | _, _ => none

/-- Both digests of `sha256d` are those of the standard. -/
theorem sha256d_eq (bytes : List Byte) : sha256d bytes = sha256 (sha256 bytes) := by
  have h (data : List Byte) : sha256_final (sha256_update sha256_init data) = sha256 data :=
    sha256_final_spec (sha256_update_represents sha256_init_represents data)
  simp only [sha256d, h]

theorem coinbase_root_eq (coin1 extra1 extra2 coin2 : List Byte) :
    coinbase_root coin1 extra1 extra2 coin2 = sha256 (sha256 (coin1 ++ extra1 ++ extra2 ++ coin2)) := by
  have h1 := sha256_update_represents sha256_init_represents coin1
  have h4 := sha256_update_represents (sha256_update_represents (sha256_update_represents h1 extra1) extra2) coin2
  rw [List.nil_append] at h4
  have hroot := sha256_final_spec (sha256_update_represents sha256_init_represents
    (sha256 (coin1 ++ extra1 ++ extra2 ++ coin2)))
  simp only [coinbase_root, sha256_final_spec h4]
  exact hroot

theorem sha256d_length (bytes : List Byte) : (sha256d bytes).length = 32 := by rw [sha256d_eq, sha256_length]

theorem merkle_root_length {root : List Byte} (h : root.length = 32) (branches : List (List Byte)) :
    (merkle_root root branches).length = 32 := by
  induction branches generalizing root with
  | nil => exact h
  | cons branch branches ih => exact ih (sha256d_length _)

theorem bitcoin_build_header_length (version prev bits time coin1 extra1 extra2 coin2 : List Byte)
    (branches : List (List Byte)) :
    (bitcoin_build_header version prev bits time coin1 extra1 extra2 coin2 branches).length = 80 := by
  have hroot : (merkle_root (coinbase_root coin1 extra1 extra2 coin2) branches).length = 32 :=
    merkle_root_length (by rw [coinbase_root_eq, sha256_length]) branches
  simp [bitcoin_build_header, hroot]

theorem hex_digit_char {v : Byte} (h : v < 16) : hex_digit (hex_char v) = some v := by
  revert v
  decide

/-- Decoding inverts encoding. -/
theorem hex_pairs_encode (bytes : List Byte) : hex_pairs (hex_encode bytes) = some bytes := by
  have hjoin (b : Byte) : ((b >>> 4) <<< 4) ||| (b &&& 15) = b := by
    revert b
    decide
  have hhigh (b : Byte) : b >>> 4 < 16 := by
    revert b
    decide
  have hlow (b : Byte) : b &&& 15 < 16 := by
    revert b
    decide
  induction bytes with
  | nil => rfl
  | cons b bytes ih =>
    have hcons : hex_encode (b :: bytes) = hex_char (b >>> 4) :: hex_char (b &&& 15) :: hex_encode bytes := rfl
    rw [hcons, hex_pairs, hex_digit_char (hhigh b), hex_digit_char (hlow b), ih]
    simp only [hjoin]

theorem hex_pairs_length : ∀ {s out : List Byte}, hex_pairs s = some out → s.length = 2 * out.length
  | [], _, h => by
    cases h
    rfl
  | [_], _, h => by cases h
  | a :: b :: s, _, h => by
    rw [hex_pairs] at h
    split at h
    next v w out _ _ hout =>
      cases h
      have := hex_pairs_length hout
      simp only [List.length_cons]
      omega
    next => cases h

theorem hex_decode_eq_some {s out : List Byte} {cap : Nat} (h : hex_decode s cap = some out) :
    hex_pairs s = some out ∧ out.length ≤ cap := by
  unfold hex_decode at h
  split at h
  · cases h
  next hcap =>
    have := hex_pairs_length h
    simp only [Bool.or_eq_true, bne_iff_ne, ne_eq, decide_eq_true_eq, not_or, gt_iff_lt, not_lt] at hcap
    exact ⟨h, by omega⟩

theorem bitcoin_target_one : (bitcoin_target [0x31]).isSome = true := by decide

end scu35.bitcoin
