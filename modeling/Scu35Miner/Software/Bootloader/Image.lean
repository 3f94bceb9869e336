import Scu35Miner.Software.Bootloader

open fips180 storage

namespace scu35.bootloader

open srec

/-- The lines of the first `n` bytes of the flash window, each an accepted
record, with the text of a line that is still open. -/
def scan (flash : Nat → Byte) : Nat → Option (List srec_record × Option (List Byte))
  | 0 => some ([], none)
  | n + 1 =>
    match scan flash n with
    | none => none
    | some (rs, none) =>
      let c := flash (FLASH_START + n)
      if newline c then some (rs, none) else if c = 0x53 then some (rs, some [c]) else none
    | some (rs, some text) =>
      let c := flash (FLASH_START + n)
      if newline c then
        match (srec_parse text).1 with
        | none => none
        | some r => some (rs ++ [r], none)
      else some (rs, some (text ++ [c]))

def is_data (r : srec_record) : Bool := r.type != 0 && r.type < 5

def is_count (r : srec_record) : Bool := r.type == 5 || r.type == 6

def data_count (rs : List srec_record) : Nat := (rs.filter is_data).length

/-- Byte writes at consecutive addresses. -/
def writes_from (a : Nat) : List Byte → List (Nat × Byte)
  | [] => []
  | v :: data => (a, v) :: writes_from (a + 1) data

/-- The writes that the data records of an image ask for, in order. -/
def image_writes (rs : List srec_record) : List (Nat × Byte) :=
  (rs.filter is_data).flatMap fun r => writes_from r.address.toNat r.data

/-- The value that the last of the given writes to an address leaves there. -/
def last_write (ws : List (Nat × Byte)) (a : Nat) : Option Byte :=
  ws.foldl (fun acc w => if w.1 = a then some w.2 else acc) none

/-- The in-order effect of all data records, the last write winning. -/
def effect (rs : List srec_record) (a : Nat) : Option Byte := last_write (image_writes rs) a

/-- Some data record supplies the byte at `a`. -/
def Supplied (rs : List srec_record) (a : Nat) : Prop := (effect rs a).isSome = true

/-- The records of an image up to its termination record `last`, which ends at
byte `n` of the window. -/
structure Image (flash : Nat → Byte) (n : Nat) (rs : List srec_record) (last : srec_record) : Prop where
  scan : scan flash n = some (rs ++ [last], none)
  body : ∀ r ∈ rs, r.type < 7
  last : 7 ≤ last.type

/-- Every count record states the number of data records before it. -/
def CountsMatch (rs : List srec_record) : Prop :=
  ∀ before r, before ++ [r] <+: rs → is_count r = true → r.address.toNat = data_count before

/-- Each of the given stores was followed by a read that returned its value. -/
def ReadBack (b : Board) (history : List (Nat × Byte)) : Prop :=
  ∀ before a v, before ++ [(a, v)] <+: history → b.read_back (before ++ [(a, v)]) a = v

/-- The entry lies between the lowest and the highest RAM byte that a data
record supplies. -/
def InLoadedSpan (rs : List srec_record) (entry : Nat) : Prop :=
  (∃ a, Supplied rs a ∧ RAM_START ≤ a ∧ a ≤ entry) ∧ ∃ a, Supplied rs a ∧ RAM_START ≤ a ∧ entry ≤ a

/-- An empty RAM record stands in for the loaded byte that the image lacks on
its side of the entry. -/
def EmptyStretch (rs : List srec_record) (entry : Nat) : Prop :=
  ∃ r ∈ rs, is_data r = true ∧ in_ram r = true ∧ r.data = [] ∧
    ((r.address.toNat ≤ entry ∧ ∀ a, Supplied rs a → RAM_START ≤ a → entry < a) ∨
      (entry < r.address.toNat ∧ ∀ a, Supplied rs a → RAM_START ≤ a → a < entry))

theorem last_write_concat (ws : List (Nat × Byte)) (w : Nat × Byte) (a : Nat) :
    last_write (ws ++ [w]) a = if w.1 = a then some w.2 else last_write ws a := by
  simp [last_write]

theorem last_write_append (xs ys : List (Nat × Byte)) (a : Nat) :
    last_write (xs ++ ys) a = (last_write ys a).or (last_write xs a) := by
  induction ys using List.reverseRecOn with
  | nil => simp [last_write]
  | append_singleton ys y ih =>
    rw [← List.append_assoc, last_write_concat, last_write_concat, ih]
    split <;> rfl

theorem image_writes_append (rs : List srec_record) (r : srec_record) :
    image_writes (rs ++ [r]) = image_writes rs ++ if is_data r then writes_from r.address.toNat r.data else [] := by
  unfold image_writes
  cases h : is_data r <;> simp [List.filter_append, h]

theorem data_count_append (rs : List srec_record) (r : srec_record) :
    data_count (rs ++ [r]) = data_count rs + if is_data r then 1 else 0 := by
  unfold data_count
  cases h : is_data r <;> simp [List.filter_append, h]

theorem mem_writes_from {a : Nat} {data : List Byte} {w : Nat × Byte} (h : w ∈ writes_from a data) :
    a ≤ w.1 ∧ w.1 < a + data.length := by
  induction data generalizing a with
  | nil => simp [writes_from] at h
  | cons v data ih =>
    simp only [writes_from, List.mem_cons] at h
    simp only [List.length_cons]
    rcases h with rfl | h
    · exact ⟨Nat.le_refl _, by omega⟩
    · have := ih h
      omega

/-- An address is written exactly if one of the writes names it. -/
theorem last_write_isSome (ws : List (Nat × Byte)) (a : Nat) :
    (last_write ws a).isSome = true ↔ ∃ w ∈ ws, w.1 = a := by
  induction ws using List.reverseRecOn with
  | nil => simp [last_write]
  | append_singleton ws w ih =>
    rw [last_write_concat]
    by_cases hw : w.1 = a
    · simp [hw]
    · simp [hw, ih]

theorem mem_image_writes {rs : List srec_record} {w : Nat × Byte} :
    w ∈ image_writes rs ↔ ∃ r ∈ rs, is_data r = true ∧ w ∈ writes_from r.address.toNat r.data := by
  simp [image_writes, and_assoc]

/-- The bytes of a data record are supplied. -/
theorem supplied_of_mem {rs : List srec_record} {r : srec_record} (hr : r ∈ rs) (hdata : is_data r = true)
    {i : Nat} (hi : i < r.size) : Supplied rs (r.address.toNat + i) := by
  have hindex (a : Nat) (data : List Byte) (j : Nat) (hj : j < data.length) :
      ∃ w ∈ writes_from a data, w.1 = a + j := by
    induction data generalizing a j with
    | nil => simp at hj
    | cons v data ih =>
      cases j with
      | zero => exact ⟨(a, v), by simp [writes_from], rfl⟩
      | succ j =>
        obtain ⟨w, hw, heq⟩ := ih (a + 1) j (by simpa using hj)
        exact ⟨w, by simp [writes_from, hw], by omega⟩
  obtain ⟨w, hw, heq⟩ := hindex r.address.toNat r.data i hi
  exact (last_write_isSome _ _).mpr ⟨w, mem_image_writes.mpr ⟨r, hr, hdata, hw⟩, heq⟩

theorem scan_between {flash : Nat → Byte} {n : Nat} {rs : List srec_record} (h : scan flash n = some (rs, none)) :
    scan flash (n + 1) =
      if newline (flash (FLASH_START + n)) then some (rs, none)
      else if flash (FLASH_START + n) = 0x53 then some (rs, some [flash (FLASH_START + n)]) else none := by
  rw [scan, h]

theorem scan_inside {flash : Nat → Byte} {n : Nat} {rs : List srec_record} {text : List Byte}
    (h : scan flash n = some (rs, some text)) :
    scan flash (n + 1) =
      if newline (flash (FLASH_START + n)) then (srec_parse text).1.map fun r => (rs ++ [r], none)
      else some (rs, some (text ++ [flash (FLASH_START + n)])) := by
  rw [scan, h]
  dsimp only
  cases (srec_parse text).1 <;> rfl

/-- Scanning further only adds records. -/
theorem scan_prefix {flash : Nat → Byte} {n m : Nat} (hle : n ≤ m) {rs rs' : List srec_record}
    {line line' : Option (List Byte)} (hn : scan flash n = some (rs, line)) (hm : scan flash m = some (rs', line')) :
    rs <+: rs' := by
  induction m, hle using Nat.le_induction generalizing rs' line' with
  | base =>
    rw [hn] at hm
    cases hm
    exact List.prefix_refl _
  | succ m _ ih =>
    rw [scan] at hm
    split at hm
    · cases hm
    next qs hq =>
      have hqs := ih hq
      simp only at hm
      split at hm
      · cases hm
        exact hqs
      · split at hm
        · cases hm
          exact hqs
        · cases hm
    next qs text hq =>
      have hqs := ih hq
      simp only at hm
      split at hm
      · split at hm
        · cases hm
        · cases hm
          exact hqs.trans (List.prefix_append _ _)
      · cases hm
        exact hqs

/-- A window holds at most one image. -/
theorem Image.unique {flash : Nat → Byte} {n m : Nat} {rs qs : List srec_record} {last last' : srec_record}
    (h : Image flash n rs last) (h' : Image flash m qs last') : rs = qs ∧ last = last' := by
  have hkey {n m : Nat} {rs qs : List srec_record} {last last' : srec_record} (h : Image flash n rs last)
      (h' : Image flash m qs last') (hle : n ≤ m) : rs ++ [last] = qs ++ [last'] := by
    obtain ⟨rest, hrest⟩ := scan_prefix hle h.scan h'.scan
    induction rest using List.reverseRecOn with
    | nil => simpa using hrest
    | append_singleton rest r _ =>
      rw [← List.append_assoc] at hrest
      have hqs : rs ++ [last] ++ rest = qs := (List.append_inj' hrest rfl).1
      have hmem : last ∈ qs := by simp [← hqs]
      have hbody := h'.body last hmem
      have hlast := h.last
      omega
  have heq : rs ++ [last] = qs ++ [last'] := by
    rcases Nat.le_total n m with hle | hle
    · exact hkey h h' hle
    · exact (hkey h' h hle).symm
  obtain ⟨hrs, hlast⟩ := List.append_inj' heq rfl
  exact ⟨hrs, by simpa using hlast⟩

end scu35.bootloader
