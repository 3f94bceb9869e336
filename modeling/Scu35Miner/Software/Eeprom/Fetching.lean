import Scu35Miner.Software.Eeprom.Page
import Scu35Miner.Software.Eeprom.Start

open fips180 storage transition

namespace scu35.eeprom

/-- The words of one read. -/
def read_words (address : BitVec 16) (n : Nat) : List TxWord :=
  header address ++ [⟨true, false, 0xa1⟩, ⟨false, true, BitVec.ofNat 8 n⟩]

/-- The EEPROM after `k` of the `n` bytes of a read. -/
def received (before : M24C64) (address n k : Nat) : M24C64 where
  cells := before.cells
  address := (address + k) % 8192
  phase := if k = n then .idle else .reading (n - k) true
  ended := before.ended ++ [⟨address, []⟩]

/-- The bytes of an interval in order. -/
def stored (cells : Cells Byte) (address n : Nat) : List Byte := bytes (fun i => cells (address + i)) n

theorem stored_succ (cells : Cells Byte) (address n : Nat) :
    stored cells address (n + 1) = stored cells address n ++ [cells (address + n)] := by
  rw [stored, bytes, List.range_succ, List.map_append]
  rfl

/-- How far a read has come in the EEPROM: some of its words have been sent, or
all of them and `k` bytes have come back. At most `w` more steps are needed. -/
inductive Progress (before : M24C64) (address : BitVec 16) (n w : Nat) (words : List TxWord) (popped : List Byte)
    (b : Bus) : Prop where
  | addressing (sent : List TxWord) (split : words = sent ++ b.queue) (unfinished : sent ≠ read_words address n)
      (chip : b.chip = run M24C64.send before sent) (rx : b.rx = []) (popped : popped = []) (work : b.work + n ≤ w)
  | receiving (k : Nat) (bound : k ≤ n) (words : words = read_words address n) (queue : b.queue = [])
      (chip : b.chip = received before address.toNat n k)
      (bytes : popped ++ b.rx = stored before.cells address.toNat k) (work : n - k ≤ w)

/-- A read without errors. -/
structure Fetching (before : M24C64) (address : BitVec 16) (n w : Nat) (words : List TxWord) (popped : List Byte)
    (b : Bus) : Prop where
  progress : Progress before address n w words popped b
  quiet : b.isr &&& 1 = 0
  enabled : b.cr = 1
  pirq : b.rx_pirq = 15
  awake : b.busy = false
  free : b.held = false

section read

variable {before : M24C64} {address : BitVec 16} {n w : Nat} {words : List TxWord} {popped : List Byte} {b : Bus}

/-- What has been sent before a word of a read. -/
theorem read_split {sent rest : List TxWord} {x : TxWord} (h : read_words address n = sent ++ x :: rest) :
    sent = [] ∧ x = ⟨true, false, 0xa0⟩ ∨
      sent = [⟨true, false, 0xa0⟩] ∧ x = ⟨false, false, address_high address⟩ ∨
      sent = [⟨true, false, 0xa0⟩, ⟨false, false, address_high address⟩] ∧ x = ⟨false, false, address_low address⟩ ∨
      sent = header address ∧ x = ⟨true, false, 0xa1⟩ ∨
      sent = header address ++ [⟨true, false, 0xa1⟩] ∧ x = ⟨false, true, BitVec.ofNat 8 n⟩ ∧ rest = [] := by
  obtain _ | ⟨y, sent⟩ := sent
  · exact .inl ⟨rfl, (List.cons.inj h).1.symm⟩
  obtain ⟨rfl, hsecond⟩ := List.cons.inj h
  obtain _ | ⟨y, sent⟩ := sent
  · exact .inr (.inl ⟨rfl, (List.cons.inj hsecond).1.symm⟩)
  obtain ⟨rfl, hthird⟩ := List.cons.inj hsecond
  obtain _ | ⟨y, sent⟩ := sent
  · exact .inr (.inr (.inl ⟨rfl, (List.cons.inj hthird).1.symm⟩))
  obtain ⟨rfl, hfourth⟩ := List.cons.inj hthird
  obtain _ | ⟨y, sent⟩ := sent
  · exact .inr (.inr (.inr (.inl ⟨rfl, (List.cons.inj hfourth).1.symm⟩)))
  obtain ⟨rfl, hfifth⟩ := List.cons.inj hfourth
  obtain _ | ⟨y, sent⟩ := sent
  · exact .inr (.inr (.inr (.inr ⟨rfl, (List.cons.inj hfifth).1.symm, (List.cons.inj hfifth).2.symm⟩)))
  · obtain ⟨-, hsixth⟩ := List.cons.inj hfifth
    exact absurd hsixth.symm (by simp)

/-- Before its last word a read does not receive, and a START is due only at
the start. -/
theorem read_phase (hidle : before.phase = .idle) {sent rest : List TxWord} {x : TxWord}
    (h : read_words address n = sent ++ x :: rest) :
    (run M24C64.send before sent).reads = false ∧ ((run M24C64.send before sent).phase = .idle → x.start = true) ∨
      (run M24C64.send before sent).phase = .counting := by
  obtain ⟨rfl, rfl⟩ | ⟨rfl, rfl⟩ | ⟨rfl, rfl⟩ | ⟨rfl, rfl⟩ | ⟨rfl, rfl, rfl⟩ := read_split h
  · left
    rw [run_nil, M24C64.reads, hidle]
    exact ⟨rfl, fun _ => rfl⟩
  · exact .inl ⟨rfl, fun hphase => by cases hphase⟩
  · exact .inl ⟨rfl, fun hphase => by cases hphase⟩
  · exact .inl ⟨rfl, fun hphase => by cases hphase⟩
  · exact .inr rfl

/-- The EEPROM acknowledges every word of a read, and none begins a write cycle. -/
theorem read_acknowledged (before : M24C64) {sent rest : List TxWord} {x : TxWord} (h : read_words address n = sent ++ x :: rest) :
    ¬(x.start = true ∧ x.byte >>> 1 ≠ 0x50) ∧
      (!x.start && x.stop && ((run M24C64.send before sent).latch x.byte).programs) = false := by
  obtain ⟨rfl, rfl⟩ | ⟨rfl, rfl⟩ | ⟨rfl, rfl⟩ | ⟨rfl, rfl⟩ | ⟨rfl, rfl, rfl⟩ := read_split h
  · exact ⟨by decide, rfl⟩
  · exact ⟨fun hstart => Bool.false_ne_true hstart.1, rfl⟩
  · exact ⟨fun hstart => Bool.false_ne_true hstart.1, rfl⟩
  · exact ⟨by decide, rfl⟩
  · exact ⟨fun hstart => Bool.false_ne_true hstart.1, rfl⟩

/-- All words of a read prepare the EEPROM for its bytes. -/
theorem run_read (hidle : before.phase = .idle) (haddress : address.toNat < 8192) (hn : 0 < n) (hmax : n ≤ 16) :
    run M24C64.send before (read_words address n) = received before address.toNat n 0 := by
  have hcount : (BitVec.ofNat 8 n).toNat = n := by
    rw [BitVec.toNat_ofNat]
    omega
  have hmod : address.toNat % 8192 = address.toNat := Nat.mod_eq_of_lt haddress
  have hzero : 0 ≠ n := by omega
  rw [read_words, run_append, run_header hidle haddress, received, if_neg hzero, Nat.add_zero, hmod, Nat.sub_zero]
  change ({ cells := before.cells, address := wrap 32 address.toNat 0,
            phase := .reading (BitVec.ofNat 8 n).toNat true, ended := before.ended ++ [⟨address.toNat, []⟩] } : M24C64) = _
  rw [wrap_zero, hcount]

theorem Progress.mono {w' : Nat} (h : Progress before address n w words popped b) (hw : w ≤ w') :
    Progress before address n w' words popped b := by
  cases h with
  | addressing sent hsplit hpart hchip hrx hpopped hwork =>
    exact .addressing sent hsplit hpart hchip hrx hpopped (hwork.trans hw)
  | receiving k hbound hwords hqueue hchip hbytes hwork =>
    exact .receiving k hbound hwords hqueue hchip hbytes (hwork.trans hw)

theorem Fetching.mono {w' : Nat} (h : Fetching before address n w words popped b) (hw : w ≤ w') :
    Fetching before address n w' words popped b :=
  ⟨h.progress.mono hw, h.quiet, h.enabled, h.pirq, h.awake, h.free⟩

theorem Fetching.settle (h : Fetching before address n w words popped b) :
    Fetching before address n w words popped (b.step .settle) := by
  refine ⟨?_, h.quiet, h.enabled, h.pirq, rfl, h.free⟩
  cases h.progress with
  | addressing sent hsplit hpart hchip hrx hpopped hwork =>
    exact .addressing sent hsplit hpart hchip hrx hpopped hwork
  | receiving k hbound hwords hqueue hchip hbytes hwork =>
    exact .receiving k hbound hwords hqueue hchip hbytes hwork

theorem read_rest (hwithin : words <+: read_words address n) {sent tail : List TxWord} {x : TxWord}
    (h : words = sent ++ x :: tail) : ∃ rest, read_words address n = sent ++ x :: rest := by
  obtain ⟨more, hmore⟩ := hwithin
  refine ⟨tail ++ more, ?_⟩
  rw [← hmore, h, List.append_assoc]
  rfl

/-- A word of the read has been sent. -/
theorem Fetching.complete (hidle : before.phase = .idle) (haddress : address.toNat < 8192) (hn : 0 < n) (hmax : n ≤ 16)
    (hwithin : words <+: read_words address n) (h : Fetching before address n w words popped b) {x : TxWord}
    (hshifting : b.shifting = some x) : Fetching before address n (w - 1) words popped (b.complete x) := by
  have hqueue : b.queue = x :: b.tx := by rw [Bus.queue, hshifting]; rfl
  cases h.progress with
  | receiving k hbound hwords hempty hchip hbytes hwork =>
    rw [hqueue] at hempty
    cases hempty
  | addressing sent hsplit hpart hchip hrx hpopped hwork =>
    rw [hqueue] at hsplit
    obtain ⟨rest, hrest⟩ := read_rest hwithin hsplit
    obtain ⟨hack, hprograms⟩ := read_acknowledged before hrest
    have hnack : ¬(x.start = true ∧ (b.busy = true ∨ x.byte >>> 1 ≠ 0x50)) := by
      rintro ⟨hstart, hbusy | hdevice⟩
      · rw [h.awake] at hbusy
        cases hbusy
      · exact hack ⟨hstart, hdevice⟩
    have hcomplete : b.complete x = { b with chip := b.chip.send x, shifting := none, busy := false } := by
      rw [Bus.complete, if_neg hnack, hchip, hprograms, h.awake]
      rfl
    have hsent : b.chip.send x = run M24C64.send before (sent ++ [x]) := by
      rw [run_append, ← hchip]
      rfl
    have hbefore : b.work = 2 * b.tx.length + 1 := by rw [Bus.work, hshifting]; rfl
    rw [hcomplete]
    refine ⟨?_, h.quiet, h.enabled, h.pirq, rfl, h.free⟩
    by_cases hall : sent ++ [x] = read_words address n
    · have hmore : b.tx = [] := by
        obtain ⟨more, hmore⟩ := hwithin
        have hlength := congrArg List.length hmore
        rw [← hall, hsplit] at hlength
        simp only [List.length_append, List.length_cons, List.length_nil] at hlength
        exact List.length_eq_zero_iff.mp (by omega)
      refine .receiving 0 (Nat.zero_le n) ?_ ?_ ?_ ?_ ?_
      · rw [hsplit, hmore, hall]
      · exact hmore
      · change b.chip.send x = _
        rw [hsent, hall, run_read hidle haddress hn hmax]
      · rw [hpopped]
        exact hrx
      · omega
    · refine .addressing (sent ++ [x]) ?_ hall hsent hrx hpopped ?_
      · rw [hsplit, List.append_assoc]
        rfl
      · change 2 * b.tx.length + 0 + n ≤ w - 1
        omega

/-- A byte has come back. -/
theorem received_next (before : M24C64) (address : Nat) {n k : Nat} (hk : k < n) :
    (received before address n k).receive = received before address n (k + 1) := by
  obtain ⟨left, hleft⟩ : ∃ left, n - k = left + 1 := ⟨n - k - 1, by omega⟩
  have hphase : (received before address n k).phase = .reading (left + 1) true := by
    rw [received, if_neg (by omega), hleft]
  have haddress : ((address + k) % 8192 + 1) % 8192 = (address + (k + 1)) % 8192 := by omega
  have hnext : (if left = 0 ∧ true = true then Phase.idle else .reading left true) =
      if k + 1 = n then .idle else .reading (n - (k + 1)) true := by
    by_cases hend : k + 1 = n
    · rw [if_pos ⟨by omega, rfl⟩, if_pos hend]
    · have hrest : n - (k + 1) = left := by omega
      rw [if_neg (fun hlast => hend (by omega)), if_neg hend, hrest]
  unfold M24C64.receive
  rw [hphase]
  change ({ cells := before.cells, address := ((address + k) % 8192 + 1) % 8192, phase := _,
            ended := before.ended ++ [⟨address, []⟩] } : M24C64) = _
  rw [haddress, hnext]
  rfl

theorem or_two_and_one {isr : Word} (h : isr &&& 1 = 0) : (isr ||| 2) &&& 1 = 0 := by
  rw [BitVec.and_or_distrib_right, h]
  decide

theorem not_reading {c : M24C64} (h : c.reads = false ∨ c.phase = .counting) (left : Nat) (stop : Bool) :
    c.phase ≠ .reading left stop := by
  intro hphase
  obtain h | h := h
  · rw [M24C64.reads, hphase] at h
    cases h
  · rw [hphase] at h
    cases h

/-- The bus moves a read on, by at least a step once all its words are there. -/
theorem Fetching.shift (hidle : before.phase = .idle) (haddress : address.toNat + n ≤ 8192) (hn : 0 < n) (hmax : n ≤ 16)
    (hwithin : words <+: read_words address n) (h : Fetching before address n w words popped b) :
    ∃ w', Fetching before address n w' words popped b.shift ∧ w' ≤ w ∧
      (words = read_words address n → w' ≤ w - 1) := by
  cases hshifting : b.shifting with
  | some x =>
    rw [Bus.shift, hshifting]
    exact ⟨w - 1, h.complete hidle (by omega) hn hmax hwithin hshifting, Nat.sub_le w 1, fun _ => Nat.le_refl _⟩
  | none =>
    cases h.progress with
    | addressing sent hsplit hpart hchip hrx hpopped hwork =>
      cases htx : b.tx with
      | nil =>
        have hqueue : b.queue = [] := by
          rw [Bus.queue, hshifting, htx]
          rfl
        rw [hqueue, List.append_nil] at hsplit
        obtain ⟨rest, hrest⟩ := hwithin
        have hsame : b.shift = b := by
          obtain _ | ⟨x, rest⟩ := rest
          · rw [List.append_nil, hsplit] at hrest
            exact absurd hrest hpart
          rw [hsplit] at hrest
          have hphase := not_reading ((read_phase hidle hrest.symm).imp_left And.left)
          rw [← hchip] at hphase
          simp only [Bus.shift, hshifting, htx]
          split
          next hreading => exact absurd hreading (hphase _ _)
          next => rfl
        rw [hsame]
        exact ⟨w, h, Nat.le_refl w, fun hall => absurd (hsplit.symm.trans hall) hpart⟩
      | cons x tx =>
        have hqueue : b.queue = x :: tx := by
          rw [Bus.queue, hshifting, htx]
          rfl
        obtain ⟨rest, hrest⟩ := read_rest hwithin (by rw [hsplit, hqueue])
        have hphase := read_phase hidle hrest
        rw [← hchip] at hphase
        have hreading := not_reading (hphase.imp_left And.left)
        have htakes : b.takes x = true := by
          unfold Bus.takes
          rw [h.enabled, h.free]
          cases hnow : b.chip.phase with
          | idle =>
            obtain ⟨-, hstart⟩ | hcounting := hphase
            · simp only [hstart hnow]
              decide
            · rw [hnow] at hcounting
              cases hcounting
          | selected high | writing bytes | counting => rfl
          | reading left stop => exact absurd hnow (hreading left stop)
        have hshift : b.shift = { b with shifting := some x, tx } := by
          simp only [Bus.shift, hshifting, htx]
          split
          next hnow => exact absurd hnow (hreading _ _)
          next => rw [if_pos htakes]
        have hwork' : ({ b with shifting := some x, tx } : Bus).work + 1 = b.work := by
          rw [Bus.work, Bus.work, hshifting, htx]
          simp only [Option.toList_none, Option.toList_some, List.length_nil, List.length_cons]
          omega
        rw [hshift]
        refine ⟨w - 1, ⟨.addressing sent ?_ hpart hchip hrx hpopped (by omega), h.quiet, h.enabled, h.pirq, h.awake,
          h.free⟩, Nat.sub_le w 1, fun _ => Nat.le_refl _⟩
        rw [hsplit, hqueue]
        rfl
    | receiving k hbound hwords hqueue hchip hbytes hwork =>
      have htx : b.tx = [] := (List.append_eq_nil_iff.mp hqueue).2
      have hlength := congrArg List.length hbytes
      rw [List.length_append, stored, length_bytes] at hlength
      refine ⟨w - 1, ?_, Nat.sub_le w 1, fun _ => Nat.le_refl _⟩
      obtain rfl | hmore := Nat.eq_or_lt_of_le hbound
      · have hphase : b.chip.phase = .idle := by rw [hchip, received, if_pos rfl]
        have hsame : b.shift = b := by simp only [Bus.shift, hshifting, hphase, htx]
        rw [hsame]
        exact ⟨.receiving k hbound hwords hqueue hchip hbytes (by omega), h.quiet, h.enabled, h.pirq, h.awake, h.free⟩
      · obtain ⟨left, hleft⟩ : ∃ left, n - k = left + 1 := ⟨n - k - 1, by omega⟩
        have hphase : b.chip.phase = .reading (left + 1) true := by
          rw [hchip, received, if_neg (by omega), hleft]
        have hroom : b.rx.length ≤ b.rx_pirq := by
          rw [h.pirq]
          omega
        have hshift : b.shift = { b with
            chip := b.chip.receive
            rx := b.rx ++ [b.chip.cells b.chip.address]
            isr := if left = 0 then b.isr ||| 2 else b.isr } := by
          simp only [Bus.shift, hshifting, hphase, if_pos hroom]
        have hbyte : b.chip.cells b.chip.address = before.cells (address.toNat + k) := by
          have hmod : (address.toNat + k) % 8192 = address.toNat + k := Nat.mod_eq_of_lt (by omega)
          rw [hchip]
          change before.cells ((address.toNat + k) % 8192) = _
          rw [hmod]
        rw [hshift]
        refine ⟨.receiving (k + 1) hmore hwords hqueue ?_ ?_ (by omega), ?_, h.enabled, h.pirq, h.awake, h.free⟩
        · change b.chip.receive = _
          rw [hchip, received_next before address.toNat hmore]
        · rw [stored_succ, ← hbytes, ← hbyte, List.append_assoc]
        · change (if left = 0 then b.isr ||| 2 else b.isr) &&& 1 = 0
          split
          · exact or_two_and_one h.quiet
          · exact h.quiet

theorem Fetching.step (hidle : before.phase = .idle) (haddress : address.toNat + n ≤ 8192) (hn : 0 < n) (hmax : n ≤ 16)
    (hwithin : words <+: read_words address n) (b : Bus) (e : Event) (he : e.Calm)
    (h : Fetching before address n w words popped b) : Fetching before address n w words popped (b.step e) := by
  obtain rfl | rfl := he
  · obtain ⟨w', hshift, hw, -⟩ := h.shift hidle haddress hn hmax hwithin
    exact hshift.mono hw
  · exact h.settle

theorem length_read_words (address : BitVec 16) (n : Nat) : (read_words address n).length = 5 := rfl

/-- The processor sends the next word of the read. -/
theorem Fetching.push (h : Fetching before address n w words popped b) {x : TxWord}
    (hwithin : words ++ [x] <+: read_words address n) :
    Fetching before address n (w + 2) (words ++ [x]) popped (b.push x) := by
  have hlength := hwithin.length_le
  rw [List.length_append, length_read_words, List.length_singleton] at hlength
  cases h.progress with
  | receiving k hbound hwords hqueue hchip hbytes hwork =>
    rw [hwords, length_read_words] at hlength
    omega
  | addressing sent hsplit hpart hchip hrx hpopped hwork =>
    have hroom : b.tx.length < 16 := by
      have hparts := congrArg List.length hsplit
      rw [Bus.queue, List.length_append, List.length_append] at hparts
      omega
    rw [Bus.push_eq h.enabled hroom]
    refine ⟨.addressing sent ?_ hpart hchip hrx hpopped ?_, h.quiet, h.enabled, h.pirq, h.awake, h.free⟩
    · rw [hsplit, List.append_assoc, Bus.queue, Bus.queue, List.append_assoc]
    · change 2 * (b.tx ++ [x]).length + b.shifting.toList.length + n ≤ w + 2
      rw [Bus.work] at hwork
      rw [List.length_append, List.length_singleton]
      omega

end read

end scu35.eeprom
