import Scu35Miner.Clocked.Trace
import Scu35Miner.Fips180.Compression

open fips180

namespace scu35.dsp48e2_add32

/-- The vendor arithmetic slice in the configuration of `dsp48e2_add32`
(`OPMODE` selecting `X = A:B`, `Z = C`), with its documented sum. -/
structure Dsp48e2 where
  p : BitVec 30 → BitVec 18 → BitVec 48 → BitVec 48
  p_eq : ∀ A B C, p A B C = C + (A ++ B)

/-- A slice that behaves as documented. -/
def Dsp48e2.documented : Dsp48e2 := ⟨fun A B C => C + (A ++ B), fun _ _ _ => rfl⟩

def sum_o (dsp : Dsp48e2) (a_i b_i : Word) : Word :=
  (dsp.p (0#16 ++ b_i.extractLsb' 18 14) (b_i.extractLsb' 0 18) (0#16 ++ a_i)).extractLsb' 0 32

/-- The wrapped slice adds modulo `2 ^ 32`; the split of `b_i` into the `A` and
`B` ports loses nothing. -/
theorem sum_o_eq (dsp : Dsp48e2) (a_i b_i : Word) : sum_o dsp a_i b_i = a_i + b_i := by
  apply BitVec.eq_of_toNat_eq
  simp only [sum_o, dsp.p_eq, BitVec.extractLsb'_toNat, BitVec.toNat_add, BitVec.toNat_append,
    BitVec.toNat_ofNat, Nat.zero_mod, Nat.zero_shiftLeft, Nat.zero_or, Nat.shiftRight_zero]
  have ha := a_i.isLt
  have hb := b_i.isLt
  rw [Nat.shiftRight_eq_div_pow, ← Nat.shiftLeft_add_eq_or_of_lt (Nat.mod_lt _ (by decide)),
    Nat.shiftLeft_eq]
  omega

end scu35.dsp48e2_add32

namespace scu35.sha256_core_iterative

open dsp48e2_add32

structure Params where
  EXPLICIT_DSP_SCHEDULE : Bool
  FOUR_PHASE : Bool
  DSP_ROUND_STATE : Bool
  dsp : Dsp48e2

def rotr (x : Word) (n : Nat) : Word := (x >>> n) ||| (x <<< (32 - n))
def ch (x y z : Word) : Word := (x &&& y) ^^^ (~~~x &&& z)
def maj (x y z : Word) : Word := (x &&& y) ^^^ (x &&& z) ^^^ (y &&& z)
def big_sigma0 (x : Word) : Word := rotr x 2 ^^^ rotr x 13 ^^^ rotr x 22
def big_sigma1 (x : Word) : Word := rotr x 6 ^^^ rotr x 11 ^^^ rotr x 25
def small_sigma0 (x : Word) : Word := rotr x 7 ^^^ rotr x 18 ^^^ (x >>> 3)
def small_sigma1 (x : Word) : Word := rotr x 17 ^^^ rotr x 19 ^^^ (x >>> 10)

/-- The round constant table, with its `default` of zero. -/
def k (idx : BitVec 7) : Word :=
  match idx.toNat with
  | 0 => 0x428a2f98
  | 1 => 0x71374491
  | 2 => 0xb5c0fbcf
  | 3 => 0xe9b5dba5
  | 4 => 0x3956c25b
  | 5 => 0x59f111f1
  | 6 => 0x923f82a4
  | 7 => 0xab1c5ed5
  | 8 => 0xd807aa98
  | 9 => 0x12835b01
  | 10 => 0x243185be
  | 11 => 0x550c7dc3
  | 12 => 0x72be5d74
  | 13 => 0x80deb1fe
  | 14 => 0x9bdc06a7
  | 15 => 0xc19bf174
  | 16 => 0xe49b69c1
  | 17 => 0xefbe4786
  | 18 => 0x0fc19dc6
  | 19 => 0x240ca1cc
  | 20 => 0x2de92c6f
  | 21 => 0x4a7484aa
  | 22 => 0x5cb0a9dc
  | 23 => 0x76f988da
  | 24 => 0x983e5152
  | 25 => 0xa831c66d
  | 26 => 0xb00327c8
  | 27 => 0xbf597fc7
  | 28 => 0xc6e00bf3
  | 29 => 0xd5a79147
  | 30 => 0x06ca6351
  | 31 => 0x14292967
  | 32 => 0x27b70a85
  | 33 => 0x2e1b2138
  | 34 => 0x4d2c6dfc
  | 35 => 0x53380d13
  | 36 => 0x650a7354
  | 37 => 0x766a0abb
  | 38 => 0x81c2c92e
  | 39 => 0x92722c85
  | 40 => 0xa2bfe8a1
  | 41 => 0xa81a664b
  | 42 => 0xc24b8b70
  | 43 => 0xc76c51a3
  | 44 => 0xd192e819
  | 45 => 0xd6990624
  | 46 => 0xf40e3585
  | 47 => 0x106aa070
  | 48 => 0x19a4c116
  | 49 => 0x1e376c08
  | 50 => 0x2748774c
  | 51 => 0x34b0bcb5
  | 52 => 0x391c0cb3
  | 53 => 0x4ed8aa4a
  | 54 => 0x5b9cca4f
  | 55 => 0x682e6ff3
  | 56 => 0x748f82ee
  | 57 => 0x78a5636f
  | 58 => 0x84c87814
  | 59 => 0x8cc70208
  | 60 => 0x90befffa
  | 61 => 0xa4506ceb
  | 62 => 0xbef9a3f7
  | 63 => 0xc67178f2
  | _ => 0

structure State where
  w_mem : Vector Word 16
  h0_q : Word
  h1_q : Word
  h2_q : Word
  h3_q : Word
  h4_q : Word
  h5_q : Word
  h6_q : Word
  h7_q : Word
  a_q : Word
  b_q : Word
  c_q : Word
  d_q : Word
  e_q : Word
  f_q : Word
  g_q : Word
  h_q : Word
  round_q : BitVec 7
  phase_q : BitVec 3
  busy_q : Bool
  t1_a_q : Word
  t1_b_q : Word
  t1_c_q : Word
  t1_q : Word
  t2_q : Word
  w_new_q : Word
  w_s0_q : Word
  w_s1_q : Word
  w_m7_q : Word
  w_m16_q : Word
  w_ab_q : Word
  w_cd_q : Word
  t1_ab_q : Word
  done_o : Bool
  digest_o : Vector Word 8
deriving DecidableEq, Inhabited

/-- Wide buses are vectors of words, most significant word first. -/
structure Input where
  start_i : Bool
  block_i : Vector Word 16
  h_i : Vector Word 8

def State.busy_o (s : State) : Bool := s.busy_q

/-- Reset clears the control registers only. -/
def IsReset (s : State) : Prop := s.round_q = 0 ∧ s.phase_q = 0 ∧ s.busy_q = false ∧ s.done_o = false

def State.w_at (s : State) (idx : BitVec 4) : Word := s.w_mem.get ⟨idx.toNat, idx.isLt⟩

section Wires

variable (p : Params) (s : State)

def State.w_idx : BitVec 4 := s.round_q.extractLsb' 0 4
def State.w_idx_m2 : BitVec 4 := s.round_q.extractLsb' 0 4 - 2#4
def State.w_idx_m7 : BitVec 4 := s.round_q.extractLsb' 0 4 - 7#4
def State.w_idx_m15 : BitVec 4 := s.round_q.extractLsb' 0 4 - 15#4
def State.w_idx_m16 : BitVec 4 := s.round_q.extractLsb' 0 4 - 0#4

def round_add (a b : Word) : Word :=
  if p.EXPLICIT_DSP_SCHEDULE && p.DSP_ROUND_STATE then sum_o p.dsp a b else a + b

def schedule_add (a b : Word) : Word := if p.EXPLICIT_DSP_SCHEDULE then sum_o p.dsp a b else a + b

def t1_add (a b : Word) : Word :=
  if p.EXPLICIT_DSP_SCHEDULE && p.FOUR_PHASE then sum_o p.dsp a b else a + b

def State.round_t1_a : Word := round_add p s.h_q (big_sigma1 s.e_q)
def State.round_t1_b : Word := round_add p (ch s.e_q s.f_q s.g_q) (k s.round_q)
def State.round_t2 : Word := round_add p (big_sigma0 s.a_q) (maj s.a_q s.b_q s.c_q)
def State.a_next : Word := round_add p s.t1_q s.t2_q
def State.e_next : Word := round_add p s.d_q s.t1_q
def State.w_ab_add : Word := schedule_add p s.w_s1_q s.w_m7_q
def State.w_cd_add : Word := schedule_add p s.w_s0_q s.w_m16_q
def State.w_new_add : Word := schedule_add p s.w_ab_q s.w_cd_q
def State.t1_ab_add : Word := t1_add p s.t1_a_q s.t1_b_q
def State.t1_w_add : Word := if s.round_q < 16#7 then s.t1_c_q else s.w_new_add p
def State.t1_total_add : Word := t1_add p s.t1_ab_q (s.t1_w_add p)

/-- `{digest_h0, ..., digest_h7}`. -/
def State.digest : Vector Word 8 := #v[
  s.h0_q + s.a_next p, s.h1_q + s.a_q, s.h2_q + s.b_q, s.h3_q + s.c_q,
  s.h4_q + s.e_next p, s.h5_q + s.e_q, s.h6_q + s.f_q, s.h7_q + s.g_q]

end Wires

/-- Registers loaded when a start is accepted. -/
def State.load (s : State) (i : Input) : State :=
  { s with
    w_mem := i.block_i
    h0_q := i.h_i.get 0, h1_q := i.h_i.get 1, h2_q := i.h_i.get 2, h3_q := i.h_i.get 3
    h4_q := i.h_i.get 4, h5_q := i.h_i.get 5, h6_q := i.h_i.get 6, h7_q := i.h_i.get 7
    a_q := i.h_i.get 0, b_q := i.h_i.get 1, c_q := i.h_i.get 2, d_q := i.h_i.get 3
    e_q := i.h_i.get 4, f_q := i.h_i.get 5, g_q := i.h_i.get 6, h_q := i.h_i.get 7
    round_q := 0, phase_q := 0, busy_q := true, done_o := false }

/-- The last phase of a round, shared by both schedules: write the new message
word back, shift the working variables, and finish or go to the next round. -/
def State.finish_round (p : Params) (s : State) : State :=
  let next := { s with
    w_mem := if 16#7 ≤ s.round_q then s.w_mem.set s.w_idx.toNat s.w_new_q s.w_idx.isLt else s.w_mem
    a_q := s.a_next p, b_q := s.a_q, c_q := s.b_q, d_q := s.c_q
    e_q := s.e_next p, f_q := s.e_q, g_q := s.f_q, h_q := s.g_q
    phase_q := 0, done_o := false }
  if s.round_q = 63 then { next with digest_o := s.digest p, busy_q := false, done_o := true }
  else { next with round_q := s.round_q + 1 }

def step (p : Params) (s : State) (i : Input) : State :=
  if i.start_i && !s.busy_q then s.load i
  else if s.busy_q then
    if s.phase_q = 0 then
      { s with
        done_o := false
        t1_a_q := s.round_t1_a p, t1_b_q := s.round_t1_b p, t1_c_q := s.w_at s.w_idx
        t2_q := s.round_t2 p
        w_s1_q := small_sigma1 (s.w_at s.w_idx_m2), w_m7_q := s.w_at s.w_idx_m7
        w_s0_q := small_sigma0 (s.w_at s.w_idx_m15), w_m16_q := s.w_at s.w_idx_m16
        phase_q := 1 }
    else if s.phase_q = 1 then
      { s with
        done_o := false
        w_ab_q := s.w_ab_add p, w_cd_q := s.w_cd_add p
        t1_ab_q := if p.FOUR_PHASE then s.t1_ab_add p else s.t1_ab_q
        phase_q := 2 }
    else if s.phase_q = 2 then
      { s with
        done_o := false
        w_new_q := s.w_new_add p
        t1_q := if p.FOUR_PHASE then s.t1_total_add p else s.t1_q
        phase_q := 3 }
    else if s.phase_q = 3 then
      if p.FOUR_PHASE then s.finish_round p
      else { s with
        done_o := false
        t1_q := s.t1_a_q + s.t1_b_q + (if s.round_q < 16#7 then s.t1_c_q else s.w_new_q)
        phase_q := 4 }
    else s.finish_round p
  else { s with done_o := false }

end scu35.sha256_core_iterative
