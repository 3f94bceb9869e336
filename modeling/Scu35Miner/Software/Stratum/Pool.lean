import Scu35Miner.Software.Stratum

open fips180 radix

namespace scu35.stratum

open sha256_sw bitcoin json_helpers

/-- A `mining.notify` as the pool sent it, in hexadecimal text. -/
structure Notify where
  id : List Byte
  prevhash : List Byte
  coinb1 : List Byte
  coinb2 : List Byte
  branches : List (List Byte)
  version : List Byte
  nbits : List Byte

/-- The merkle branches of a line, up to the first index without one. -/
def branch_slices (j : Json) (s : List Byte) : Nat → Nat → List (List Byte)
  | 0, _ => []
  | n + 1, i =>
    match j.search s (branch_query i) with
    | .success v _ => v :: branch_slices j s n (i + 1)
    | _ => []

def Notify.ofLine (j : Json) (s : List Byte) : Notify where
  id := j.slice s "params[0]"
  prevhash := j.slice s "params[1]"
  coinb1 := j.slice s "params[2]"
  coinb2 := j.slice s "params[3]"
  branches := branch_slices j s 33 0
  version := j.slice s "params[5]"
  nbits := j.slice s "params[6]"

/-- What the pool knows about the session: the extranonce and the difficulty in
force, and the last notify that was accepted with the difficulty before it. -/
structure PoolView where
  extranonce1 : List Byte
  difficulty : List Byte
  notify : Option (Notify × List Byte)

def PoolView.fresh : PoolView := ⟨[], ascii "1", none⟩

/-- The pool's view after a line of its own that the miner accepted. -/
def PoolView.line (j : Json) (v : PoolView) (s : List Byte) : PoolView :=
  if has_method j s then
    match parse_method (j.slice s "method") with
    | .set_difficulty => { v with difficulty := j.slice s "params[0]" }
    | .set_extranonce => { v with extranonce1 := j.slice s "params[0]" }
    | .notify => { v with notify := some (.ofLine j s, v.difficulty) }
    | .other => v
  else if json_u32 j s "id" = some 1 then { v with extranonce1 := j.slice s "result[1]" }
  else v

/-- A line is accepted if the session goes on after it. -/
def PoolView.step (j : Json) (v : PoolView) (st : State) (e : Event) : PoolView :=
  match e with
  | .connect _ _ _ => if st.connected then v else .fresh
  | .line text _ => if (stratum.step j st e).connected then v.line j text else v
  | _ => v

/-- Reverses the bytes of every four-byte word. -/
def swap_words : List Byte → List Byte
  | a :: b :: c :: d :: s => d :: c :: b :: a :: swap_words s
  | s => s

/-- SHA-256 applied twice. -/
def double_sha256 (bytes : List Byte) : List Byte := sha256 (sha256 bytes)

/-- All branches decoded. -/
def decode_all : List (List Byte) → Option (List (List Byte))
  | [] => some []
  | s :: rest =>
    match hex_pairs s, decode_all rest with
    | some v, some vs => some (v :: vs)
    | _, _ => none

/-- The block header that a pool rebuilds for a share: the coinbase transaction
around both extranonces, hashed up the merkle branches, between the fields of
the notify and the submitted time and nonce. -/
def pool_header (n : Notify) (extranonce1 extranonce2 ntime nonce : List Byte) : Option (List Byte) :=
  match hex_pairs n.coinb1, hex_pairs extranonce1, hex_pairs extranonce2, hex_pairs n.coinb2,
    decode_all n.branches, hex_pairs n.version, hex_pairs n.prevhash with
  | some coinb1, some extra1, some extra2, some coinb2, some branches, some version, some prevhash =>
    match hex_pairs ntime, hex_pairs n.nbits, hex_pairs nonce with
    | some time, some bits, some nonce =>
      let root := branches.foldl (fun root branch => double_sha256 (root ++ branch))
        (double_sha256 (coinb1 ++ extra1 ++ extra2 ++ coinb2))
      some (version.reverse ++ swap_words prevhash ++ root ++ time.reverse ++ bits.reverse ++ nonce.reverse)
    | _, _, _ => none
  | _, _, _, _, _, _, _ => none

/-- The hash of a header, read as a little-endian number, is at most the
target. -/
def MeetsTarget (header : List Byte) (target : Vector Word 8) : Prop :=
  beValue (double_sha256 header).reverse ≤ beValue target.toList

theorem xor_three_add_four (i : Nat) : (i + 4) ^^^ 3 = (i ^^^ 3) + 4 := by
  have hdiv (a : Nat) : (a ^^^ 3) / 4 = a / 4 := by
    have h := Nat.xor_div_two_pow (a := a) (b := 3) (n := 2)
    simpa using h
  have hmod (a : Nat) : (a ^^^ 3) % 4 = (a % 4) ^^^ 3 := by
    have h := Nat.xor_mod_two_pow (a := a) (b := 3) (n := 2)
    simpa using h
  have h1 := hdiv (i + 4)
  have h2 := hmod (i + 4)
  have h3 := hdiv i
  have h4 := hmod i
  rw [Nat.add_mod_right] at h2
  omega

theorem swap_words_eq {prev : List Byte} (k : Nat) (h : prev.length = 4 * k) :
    (List.range (4 * k)).map (fun i => prev.getD (i ^^^ 3) 0) = swap_words prev := by
  induction k generalizing prev with
  | zero =>
    obtain rfl : prev = [] := List.length_eq_zero_iff.mp (by omega)
    rfl
  | succ k ih =>
    match prev, h with
    | a :: b :: c :: d :: s, h =>
      have hs : s.length = 4 * k := by
        simp only [List.length_cons] at h
        omega
      have hrange : List.range (4 * (k + 1)) = [0, 1, 2, 3] ++ (List.range (4 * k)).map (4 + ·) := by
        rw [show 4 * (k + 1) = 4 + 4 * k by omega, List.range_add]
        rfl
      rw [hrange, List.map_append, List.map_map, swap_words, ← ih hs]
      simp only [List.map_cons, List.map_nil, List.cons_append, List.nil_append]
      congr 4
      apply List.map_congr_left
      intro i _
      simp only [Function.comp_apply, Nat.add_comm 4 i, xor_three_add_four]
      rfl

theorem reverse_four {bytes : List Byte} (h : bytes.length = 4) :
    (List.range 4).map (fun i => bytes.getD (3 - i) 0) = bytes.reverse := by
  match bytes, h with
  | [a, b, c, d], _ => rfl

theorem swap32_ofBytes (b0 b1 b2 b3 : Byte) : bitcoin_swap32 (ofBytes b0 b1 b2 b3) = ofBytes b3 b2 b1 b0 := by
  apply BitVec.eq_of_getLsbD_eq
  intro i hi
  simp only [bitcoin_swap32, BitVec.getLsbD_or, BitVec.getLsbD_and, BitVec.getLsbD_shiftLeft,
    BitVec.getLsbD_ushiftRight, ofBytes_getLsbD]
  interval_cases i <;> simp

theorem wordBytes_swap32 (x : Word) : wordBytes (bitcoin_swap32 x) = (wordBytes x).reverse := by
  have h := swap32_ofBytes (x.extractLsb' 24 8) (x.extractLsb' 16 8) (x.extractLsb' 8 8) (x.extractLsb' 0 8)
  rw [ofBytes_wordBytes] at h
  rw [h, wordBytes_ofBytes]
  rfl

theorem format_08lx_eq (v : Word) : format_08lx v = hex_encode (wordBytes v) := by
  have hhigh (k : Nat) (hk : k < 4) :
      (v >>> (28 - 8 * k)).setWidth 8 &&& (15 : Byte) = (v.extractLsb' (24 - 8 * k) 8) >>> 4 := by
    apply BitVec.eq_of_getLsbD_eq
    intro i hi
    simp only [BitVec.getLsbD_and, BitVec.getLsbD_setWidth, BitVec.getLsbD_ushiftRight, BitVec.getLsbD_extractLsb']
    interval_cases k <;> interval_cases i <;> simp
  have hlow (k : Nat) (hk : k < 4) :
      (v >>> (24 - 8 * k)).setWidth 8 &&& 15 = (v.extractLsb' (24 - 8 * k) 8) &&& 15 := by
    apply BitVec.eq_of_getLsbD_eq
    intro i hi
    simp only [BitVec.getLsbD_and, BitVec.getLsbD_setWidth, BitVec.getLsbD_ushiftRight, BitVec.getLsbD_extractLsb']
  have h0 := hhigh 0 (by omega)
  have h1 := hlow 0 (by omega)
  have h2 := hhigh 1 (by omega)
  have h3 := hlow 1 (by omega)
  have h4 := hhigh 2 (by omega)
  have h5 := hlow 2 (by omega)
  have h6 := hhigh 3 (by omega)
  have h7 := hlow 3 (by omega)
  simp only [Nat.mul_zero, Nat.mul_one, Nat.sub_zero, Nat.reduceMul, Nat.reduceSub] at h0 h1 h2 h3 h4 h5 h6 h7
  simp only [format_08lx, List.range_succ, List.range_zero, List.nil_append, List.cons_append, List.map_cons,
    List.map_nil, hex_encode, wordBytes, List.flatMap_cons, List.flatMap_nil, Nat.mul_zero, Nat.mul_one,
    Nat.sub_zero, Nat.reduceMul, Nat.reduceSub, h0, h1, h2, h3, h4, h5, h6, h7]

/-- The pool reads the submitted nonce text back as the header's own bytes. -/
theorem nonce_round_trip (nonce : Word) :
    hex_pairs (format_08lx (bitcoin_swap32 nonce)) = some (wordBytes nonce).reverse := by
  rw [format_08lx_eq, hex_pairs_encode, wordBytes_swap32]

end scu35.stratum
