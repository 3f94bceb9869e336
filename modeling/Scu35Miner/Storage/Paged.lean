import Scu35Miner.Storage.Device

namespace storage

variable {α : Type}

/-- Where the `i`th cell of a write at `address` goes: the address wraps inside
its page. -/
def wrap (page address i : Nat) : Nat := address / page * page + (address + i) % page

/-- The cells after a write at `address` that began `i` cells earlier. -/
def programFrom (page address : Nat) : Nat → Cells α → List α → Cells α
  | _, cells, [] => cells
  | i, cells, a :: as => programFrom page address (i + 1) (Function.update cells (wrap page address i) a) as

/-- A write at `address` in storage of pages that writes wrap in. -/
def program (page address : Nat) (cells : Cells α) (as : List α) : Cells α := programFrom page address 0 cells as

theorem wrap_zero (page address : Nat) : wrap page address 0 = address := Nat.div_add_mod' address page

theorem wrap_fits {page address i : Nat} (h : address % page + i < page) : wrap page address i = address + i := by
  have hsplit := Nat.div_add_mod' address page
  have hmod : (address + i) % page = address % page + i := by
    rw [Nat.add_mod, Nat.mod_eq_of_lt (by omega : i < page), Nat.mod_eq_of_lt h]
  rw [wrap, hmod]
  omega

theorem programFrom_fits {page address : Nat} (as : List α) {src : Cells α} {i : Nat} (cells : Cells α)
    (hsrc : ∀ j (hj : j < as.length), as[j] = src (i + j)) (hfits : address % page + i + as.length ≤ page) :
    programFrom page address i (copy cells address src i) as = copy cells address src (i + as.length) := by
  induction as generalizing i with
  | nil => rfl
  | cons a as ih =>
    rw [List.length_cons] at hfits
    have hwrap : wrap page address i = address + i := wrap_fits (by omega)
    have hhead : a = src i := hsrc 0 (by simp)
    have hupdate : Function.update (copy cells address src i) (address + i) a = copy cells address src (i + 1) := by
      funext k
      by_cases hk : k = address + i
      · rw [hk, Function.update_self, copy_inside _ _ (by omega) (by omega), Nat.add_sub_cancel_left, hhead]
      · rw [Function.update_of_ne hk]
        simp only [copy]
        have hsame : (address ≤ k ∧ k < address + i) ↔ (address ≤ k ∧ k < address + (i + 1)) := by omega
        simp only [hsame]
    rw [programFrom, hwrap, hupdate, ih (fun j hj => ?_) (by omega), List.length_cons]
    · congr 1
      omega
    · have h := hsrc (j + 1) (by simpa using hj)
      rw [List.getElem_cons_succ] at h
      rw [h]
      congr 1
      omega

/-- A write that fits its page is a plain copy. -/
theorem program_fits {page address : Nat} {as : List α} {src : Cells α} (cells : Cells α)
    (hsrc : ∀ j (hj : j < as.length), as[j] = src j) (hfits : address % page + as.length ≤ page) :
    program page address cells as = copy cells address src as.length := by
  have hfrom : ∀ j (hj : j < as.length), as[j] = src (0 + j) := fun j hj => by rw [hsrc j hj, Nat.zero_add]
  have h := programFrom_fits as cells hfrom (by omega : address % page + 0 + as.length ≤ page)
  rwa [copy_zero, Nat.zero_add] at h

theorem update_eq_copy (cells : Cells α) (address : Nat) (src : Cells α) :
    Function.update cells address (src 0) = copy cells address src 1 := by
  funext i
  by_cases hi : i = address
  · rw [hi, Function.update_self, copy_inside _ _ (Nat.le_refl _) (Nat.lt_succ_self _), Nat.sub_self]
  · rw [Function.update_of_ne hi, copy_outside _ _ (by omega)]

/-- Writing a first part and then the rest. -/
theorem copy_append (cells : Cells α) (address : Nat) (src : Cells α) (n k : Nat) :
    copy (copy cells address src n) (address + n) (fun i => src (n + i)) k = copy cells address src (n + k) := by
  funext i
  by_cases hlow : address ≤ i ∧ i < address + n
  · rw [copy_outside _ _ (by omega), copy_inside _ _ hlow.1 hlow.2, copy_inside _ _ hlow.1 (by omega)]
  · by_cases hhigh : address + n ≤ i ∧ i < address + n + k
    · rw [copy_inside _ _ hhigh.1 hhigh.2, copy_inside _ _ (by omega) (by omega)]
      congr 1
      omega
    · rw [copy_outside _ _ (by omega), copy_outside _ _ (by omega), copy_outside _ _ (by omega)]

end storage
