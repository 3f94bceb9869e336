import Scu35Miner.Software.Stratum.Pool

open fips180 radix

namespace scu35.stratum

open sha256_sw bitcoin json_helpers

theorem target_byte_eq (target : Vector Word 8) {i : Nat} (hi : i < 32) :
    target_byte target i = (target.toList.flatMap wordBytes).getD i 0 := by
  have hq : i / 4 < target.toList.length := by
    simp
    omega
  have h := getD_flatMap_wordBytes target.toList hq (show i % 4 < 4 by omega)
  rw [Nat.div_add_mod] at h
  rw [h, target_byte, List.getD_eq_getElem _ _ hq]
  generalize target.toList[i / 4] = w
  have hbyte (k : Nat) (hk : k ≤ 24) : (w >>> k).setWidth 8 = w.extractLsb' k 8 := by
    apply BitVec.eq_of_getLsbD_eq
    intro j hj
    simp [hj]
  have hcases : i % 4 = 0 ∨ i % 4 = 1 ∨ i % 4 = 2 ∨ i % 4 = 3 := by omega
  rcases hcases with h | h | h | h <;> rw [h, hbyte _ (by omega)] <;> rfl

/-- The loop compares the remaining bytes as big-endian numbers. -/
theorem compare_loop_iff (digest : List Byte) (target : Vector Word 8) (n i : Nat) :
    compare_loop digest target n i = true ↔
      beValue ((List.range n).map fun k => digest.getD (31 - (i + k)) 0) ≤
        beValue ((List.range n).map fun k => target_byte target (i + k)) := by
  induction n generalizing i with
  | zero => simp [compare_loop]
  | succ n ih =>
    rw [List.range_succ_eq_map, List.map_cons, List.map_cons, List.map_map, List.map_map,
      cons_le_iff (by simp), compare_loop]
    have hshift (f : Nat → Byte) : (fun k => f (i + k)) ∘ Nat.succ = fun k => f (i + 1 + k) := by
      funext k
      simp only [Function.comp_apply]
      congr 1
      omega
    have hd := hshift fun k => digest.getD (31 - k) 0
    have ht := hshift (target_byte target)
    simp only [Nat.add_zero] at hd ht ⊢
    rw [hd, ht, ← ih (i + 1)]
    generalize digest.getD (31 - i) 0 = d
    generalize target_byte target i = t
    by_cases hlt : d < t
    · simp [hlt]
    · by_cases hgt : d > t
      · have hne : d ≠ t := by
          intro heq
          rw [heq] at hgt
          exact hlt (heq ▸ hgt)
        simp [hlt, hgt, hne]
      · have heq : d = t := by
          simp only [BitVec.lt_def, gt_iff_lt] at hlt hgt
          exact BitVec.eq_of_toNat_eq (by omega)
        simp [heq]

/-- The recheck of a result compares its hash with the target as numbers. -/
theorem share_valid_iff {digest : List Byte} (hlen : digest.length = 32) (target : Vector Word 8) :
    share_valid digest target = true ↔ beValue digest.reverse ≤ beValue target.toList := by
  have hdigest : (List.range 32).map (fun k => digest.getD (31 - (0 + k)) 0) = digest.reverse := by
    apply List.ext_getElem
    · simp [hlen]
    · intro k h1 h2
      simp only [List.length_map, List.length_range] at h1
      have hk : 31 - k < digest.length := by omega
      simp only [List.getElem_map, List.getElem_range, List.getElem_reverse, Nat.zero_add,
        List.getD_eq_getElem _ _ hk, hlen]
  have htarget : (List.range 32).map (fun k => target_byte target (0 + k)) = target.toList.flatMap wordBytes := by
    have hbytes : (target.toList.flatMap wordBytes).length = 32 := digestBytes_length target
    apply List.ext_getElem
    · simp [hbytes]
    · intro k h1 h2
      simp only [List.length_map, List.length_range] at h1
      simp only [List.getElem_map, List.getElem_range, Nat.zero_add]
      rw [target_byte_eq target h1, List.getD_eq_getElem _ _ h2]
  rw [share_valid, compare_loop_iff, hdigest, htarget, beValue_words]

/-- A result passes the recheck exactly if its header meets the target. -/
theorem share_valid_sha256d_iff (header : List Byte) (target : Vector Word 8) :
    share_valid (sha256d header) target = true ↔ MeetsTarget header target := by
  rw [share_valid_iff (sha256d_length header), sha256d_eq]
  rfl

theorem patch_nonce_eq (header : List Byte) (nonce : Word) :
    patch_nonce header nonce = header.take 76 ++ wordBytes nonce := by
  rw [patch_nonce, ← store_be32_eq]
  rfl

end scu35.stratum
