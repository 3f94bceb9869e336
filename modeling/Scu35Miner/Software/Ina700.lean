import Scu35Miner.Fips180.Compression

open fips180

namespace scu35.ina700

def INA700_ADC_CONFIG : BitVec 16 := 0xfb6a

def be16 (p : List Byte) : BitVec 16 := (p.getD 0 0).setWidth 16 <<< 8 ||| (p.getD 1 0).setWidth 16

def signed16 (v : BitVec 16) : Int := if v &&& 0x8000 ≠ 0 then v.toNat - 65536 else v.toNat

structure ina700_sample where
  valid : Bool
  voltage_uv : Word
  power_uw : Word
  sampled_ms : Word
  errors : Word
  current_ua : Int
  temp_milli_c : Int
deriving DecidableEq, Repr

/-- The fields of a sample from the five registers that hold them. The products
fit their types, so that none of them overflows. -/
def convert (v i t p : List Byte) (out : ina700_sample) : ina700_sample :=
  { out with
    voltage_uv := (be16 v).setWidth 32 * 3125
    current_ua := signed16 (be16 i) * 480
    temp_milli_c := (signed16 (be16 t &&& 0xfff0)).tdiv 16 * 125
    power_uw := ((p.getD 0 0).setWidth 32 <<< 16 ||| (p.getD 1 0).setWidth 32 <<< 8 ||| (p.getD 2 0).setWidth 32) * 96
    valid := true }

/-- The sample after a read, and whether it succeeded; `read` answers with the
bytes of a register unless the bus fails. -/
def ina700_sample_read (read : Byte → Nat → Option (List Byte)) (out : ina700_sample) : ina700_sample × Bool :=
  let out := { out with valid := false }
  match read 1 2 with
  | none => (out, false)
  | some config =>
    if be16 config ≠ INA700_ADC_CONFIG then (out, false)
    else
      match read 0x0b 2 with
      | none => (out, false)
      | some diag =>
        if be16 diag &&& 0x203 ≠ 3 then (out, false)
        else
          match read 5 2, read 6 2, read 7 2, read 8 3 with
          | some v, some t, some i, some p => (convert v i t p out, true)
          | _, _, _, _ => (out, false)

/-- The ranges of a valid sample. -/
structure ina700_sample.InRange (s : ina700_sample) : Prop where
  voltage : s.voltage_uv.toNat ≤ 204796875
  current : -15728640 ≤ s.current_ua ∧ s.current_ua ≤ 15728160
  power : s.power_uw.toNat ≤ 1610612640
  temp : -256000 ≤ s.temp_milli_c ∧ s.temp_milli_c ≤ 255875

theorem signed16_range (v : BitVec 16) : -32768 ≤ signed16 v ∧ signed16 v ≤ 32767 := by
  have hlt := v.isLt
  have hbit : v &&& 0x8000 ≠ 0 ↔ 32768 ≤ v.toNat := by
    have hand : (v &&& 0x8000).toNat = (v.toNat.testBit 15).toNat * 2 ^ 15 := by
      rw [BitVec.toNat_and, ← Nat.and_two_pow]
      rfl
    have hzero : (0 : BitVec 16).toNat = 0 := rfl
    rw [Ne, ← BitVec.toNat_inj, hand, hzero, Nat.testBit_eq_decide_div_mod_eq]
    by_cases htop : v.toNat / 2 ^ 15 % 2 = 1
    · simp only [htop, decide_true, Bool.toNat_true]
      omega
    · simp only [htop, decide_false, Bool.toNat_false]
      omega
  unfold signed16
  split
  next hset =>
    have hhigh := hbit.mp hset
    omega
  next hclear =>
    have hlow := mt hbit.mpr hclear
    omega

theorem triple_le (p : List Byte) :
    ((p.getD 0 0).setWidth 32 <<< 16 ||| (p.getD 1 0).setWidth 32 <<< 8 ||| (p.getD 2 0).setWidth 32 : Word).toNat <
      2 ^ 24 := by
  have hshift (b : Byte) {k : Nat} (hk : k ≤ 16) : ((b.setWidth 32 : Word) <<< k).toNat < 2 ^ 24 := by
    have hb := b.isLt
    have hpow : 2 ^ k ≤ 2 ^ 16 := Nat.pow_le_pow_right (by decide) hk
    rw [BitVec.toNat_shiftLeft, Nat.shiftLeft_eq, BitVec.toNat_setWidth]
    calc b.toNat % 2 ^ 32 * 2 ^ k % 2 ^ 32 ≤ b.toNat % 2 ^ 32 * 2 ^ k := Nat.mod_le _ _
      _ ≤ b.toNat * 2 ^ 16 := Nat.mul_le_mul (Nat.mod_le _ _) hpow
      _ < 2 ^ 24 := by omega
  have hlast := hshift (p.getD 2 0) (k := 0) (by decide)
  rw [BitVec.shiftLeft_zero] at hlast
  rw [BitVec.toNat_or, BitVec.toNat_or]
  exact Nat.or_lt_two_pow (Nat.or_lt_two_pow (hshift _ (by decide)) (hshift _ (by decide))) hlast

theorem convert_inRange (v i t p : List Byte) (out : ina700_sample) : (convert v i t p out).InRange where
  voltage := by
    have hv := (be16 v).isLt
    change ((be16 v).setWidth 32 * 3125 : Word).toNat ≤ _
    rw [BitVec.toNat_mul, BitVec.toNat_setWidth]
    calc (be16 v).toNat % 2 ^ 32 * 3125 % 2 ^ 32 ≤ (be16 v).toNat % 2 ^ 32 * 3125 := Nat.mod_le _ _
      _ ≤ 204796875 := by omega
  current := by
    have hrange := signed16_range (be16 i)
    change -15728640 ≤ signed16 (be16 i) * 480 ∧ signed16 (be16 i) * 480 ≤ 15728160
    omega
  power := by
    have hp := triple_le p
    change (((p.getD 0 0).setWidth 32 <<< 16 ||| (p.getD 1 0).setWidth 32 <<< 8 ||| (p.getD 2 0).setWidth 32) *
      96 : Word).toNat ≤ _
    rw [BitVec.toNat_mul]
    generalize BitVec.toNat (_ ||| (p.getD 2 0).setWidth 32) = x at hp ⊢
    calc x * 96 % 2 ^ 32 ≤ x * 96 := Nat.mod_le _ _
      _ ≤ 1610612640 := by omega
  temp := by
    have hrange := signed16_range (be16 t &&& 0xfff0)
    change -256000 ≤ (signed16 (be16 t &&& 0xfff0)).tdiv 16 * 125 ∧ (signed16 (be16 t &&& 0xfff0)).tdiv 16 * 125 ≤ 255875
    generalize signed16 (be16 t &&& 0xfff0) = x at hrange ⊢
    obtain hx | hx := lt_or_ge x 0
    · have hneg : x.tdiv 16 = -(-x / 16) := by
        rw [← Int.tdiv_eq_ediv_of_nonneg (by omega), Int.neg_tdiv, Int.neg_neg]
      rw [hneg]
      omega
    · rw [Int.tdiv_eq_ediv_of_nonneg hx]
      omega

/-- A sample is marked valid only with measurements in range. -/
theorem ina700_sample_read_inRange (read : Byte → Nat → Option (List Byte)) (out : ina700_sample)
    (hvalid : (ina700_sample_read read out).1.valid = true) : (ina700_sample_read read out).1.InRange := by
  unfold ina700_sample_read at hvalid ⊢
  dsimp only at hvalid ⊢
  split at hvalid
  · cases hvalid
  · split at hvalid
    · cases hvalid
    next hconfig =>
      rw [if_neg hconfig]
      split at hvalid
      · cases hvalid
      · split at hvalid
        · cases hvalid
        next hdiag =>
          simp only [if_neg hdiag]
          split at hvalid
          · exact convert_inRange _ _ _ _ _
          · cases hvalid

end scu35.ina700
