import Scu35Miner.Software.Eeprom.Unwritten
import Scu35Miner.Software.Eeprom.Write

open fips180 scu35.settings storage transition

namespace scu35.eeprom

/-- Nothing on the bus goes wrong: the EEPROM is ready, nobody else holds the
bus, and only the transfers themselves happen. -/
structure Machine.Errorless (m : Machine) : Prop where
  calm : Allows m.plan Event.Calm
  awake : m.bus.busy = false
  free : m.bus.held = false

/-- No errors and a bus that keeps up with the polls of the processor. -/
structure Machine.Quiet (m : Machine) : Prop where
  prompt : Prompt m.plan
  awake : m.bus.busy = false
  free : m.bus.held = false

/-- The loop of `eeprom_read`, whatever happens on the bus. -/
theorem read_chunks_kept (size : Nat) {m : Machine} (hidle : m.bus.Idle) (address : BitVec 16) (p : Nat)
    (buffer : Cells Byte) :
    Kept m.bus.chip.cells (read_chunks m address p size buffer).2.1.bus ∧
      ((read_chunks m address p size buffer).1 = 0 ∨ (read_chunks m address p size buffer).1 = -1) := by
  induction size using Nat.strong_induction_on generalizing m address p buffer with
  | _ size ih =>
    rw [read_chunks]
    split
    · exact ⟨⟨hidle, rfl⟩, .inl rfl⟩
    next hsize =>
      have hburst := burst_eq size
      obtain ⟨hkept, hresult⟩ := read_chunk_kept hidle address (n := burst size) (by omega) (by omega) p buffer
      dsimp only
      split
      · exact ⟨hkept, hresult⟩
      · obtain ⟨hrest, hend⟩ := ih (size - burst size) (by omega) hkept.idle
          (address + BitVec.ofNat 16 (burst size)) (p + burst size) (read_chunk m address (burst size) p buffer).2.2
        exact ⟨⟨hrest.idle, hrest.cells.trans hkept.cells⟩, hend⟩

/-- The loop of `eeprom_read` over a bus without errors. -/
theorem read_chunks_spec {prompt : Prop} (size : Nat) {core : Bus} {m : Machine}
    (h : Resting True True prompt core m) (hidle : core.Idle) (address : BitVec 16)
    (hbound : address.toNat + size ≤ 8192) (p : Nat) (buffer : Cells Byte) :
    (read_chunks m address p size buffer).1 = 0 ∧
        (∃ core', Resting True True prompt core' (read_chunks m address p size buffer).2.1) ∧
        (read_chunks m address p size buffer).2.2 =
          copy buffer p (fun i => core.chip.cells (address.toNat + i)) size ∨
      (read_chunks m address p size buffer).1 = -1 ∧ ¬prompt := by
  induction size using Nat.strong_induction_on generalizing core m address p buffer with
  | _ size ih =>
    rw [read_chunks]
    split
    next hzero =>
      rw [hzero, copy_zero]
      exact .inl ⟨rfl, ⟨core, h⟩, rfl⟩
    next hsize =>
      have hburst := burst_eq size
      have hinside : address.toNat + burst size ≤ 8192 := by omega
      dsimp only
      obtain ⟨hok, ⟨core', hafter, hidle', hcells⟩, hbuffer⟩ | ⟨hfail, hdead⟩ :=
        read_chunk_spec h hidle hinside (by omega) (by omega) p buffer
      swap
      · rw [hfail, if_pos (by decide)]
        exact .inr ⟨hfail, hdead⟩
      have hcontinue : ¬(0 : Int) ≠ 0 := by decide
      have hnext : (address + BitVec.ofNat 16 (burst size)).toNat = address.toNat + burst size :=
        next_address (by omega)
      rw [hok, if_neg hcontinue]
      obtain ⟨hend, hlast, hrest⟩ | hfail := ih (size - burst size) (by omega) hafter hidle'
        (address + BitVec.ofNat 16 (burst size)) (by omega) (p + burst size)
        (read_chunk m address (burst size) p buffer).2.2
      · refine .inl ⟨hend, hlast, ?_⟩
        have hsource : (fun i => core.chip.cells (address.toNat + burst size + i)) =
            fun i => core.chip.cells (address.toNat + (burst size + i)) := by
          funext i
          rw [Nat.add_assoc]
        have hlength : burst size + (size - burst size) = size := by omega
        rw [hrest, hnext, hcells, hbuffer, hsource,
          copy_append buffer p (fun i => core.chip.cells (address.toNat + i)), hlength]
      · exact .inr hfail

/-- What `eeprom_write` does: without bus errors it succeeds, its success means
that the EEPROM holds the data and is otherwise unchanged, and its failure that
it has stopped on some page. -/
structure WriteRespectsPages (m : Machine) (address : BitVec 16) (buffer : Buffer) : Prop where
  result : (eeprom_write m address buffer).1 = 0 ∨ (eeprom_write m address buffer).1 = -1
  no_error : m.Quiet → (eeprom_write m address buffer).1 = 0 ∧ (eeprom_write m address buffer).2.Quiet
  success : (eeprom_write m address buffer).1 = 0 →
    Written m.bus.chip (eeprom_write m address buffer).2.bus address.toNat buffer.bytes buffer.size.toNat
  failure : (eeprom_write m address buffer).1 = -1 →
    (eeprom_write m address buffer).2.bus.Idle ∧
      ∃ done, Interrupted m.bus.chip (eeprom_write m address buffer).2.bus.chip address.toNat buffer.bytes
          buffer.size.toNat done ∧
        ∀ i, (eeprom_write m address buffer).2.bus.chip.cells i ≠ m.bus.chip.cells i →
          i / 32 ≤ (address.toNat + done) / 32
  inside : ∀ i, (eeprom_write m address buffer).2.bus.chip.cells i ≠ m.bus.chip.cells i →
    address.toNat ≤ i ∧ i < address.toNat + buffer.size.toNat
  pages : ∃ sent, (eeprom_write m address buffer).2.bus.chip.ended = m.bus.chip.ended ++ sent ∧ ∀ t ∈ sent, t.Fits

/-- What `eeprom_read` does: it never writes, without bus errors it succeeds,
and then it returns the bytes that are stored. -/
structure ReadReturnsStored (m : Machine) (address : BitVec 16) (buffer : Buffer) : Prop where
  result : (eeprom_read m address buffer).1 = 0 ∨ (eeprom_read m address buffer).1 = -1
  kept : Kept m.bus.chip.cells (eeprom_read m address buffer).2.1.bus
  no_error : m.Quiet → (eeprom_read m address buffer).1 = 0 ∧ (eeprom_read m address buffer).2.1.Quiet
  success : m.Errorless → (eeprom_read m address buffer).1 = 0 → (eeprom_read m address buffer).2.2 =
    copy buffer.bytes 0 (fun i => m.bus.chip.cells (address.toNat + i)) buffer.size.toNat

section pages

variable {before after : M24C64} {address size done : Nat} {p : Cells Byte}

/-- A failed write has changed nothing outside its interval, and nothing on the
pages behind the one it failed on. -/
theorem Interrupted.frame (h : Interrupted before after address p size done) (i : Nat)
    (hi : after.cells i ≠ before.cells i) :
    address ≤ i ∧ i < address + size ∧ i / 32 ≤ (address + done) / 32 := by
  obtain ⟨k, hk, hcells⟩ := h.cells
  have hunfinished := h.unfinished
  rw [hcells] at hi
  have hinside : address ≤ i ∧ i < address + (done + k) := by
    by_contra houtside
    exact hi (copy_outside _ _ (by omega))
  omega

theorem Interrupted.fits (h : Interrupted before after address p size done) :
    ∃ sent, after.ended = before.ended ++ sent ∧ ∀ t ∈ sent, t.Fits := by
  obtain hsame | ⟨k, hk, hafter⟩ := h.ended
  · exact ⟨_, hsame, transactions_fit address p done⟩
  · refine ⟨_, hafter.trans (List.append_assoc _ _ _), fun t ht => ?_⟩
    obtain ht | ht := List.mem_append.mp ht
    · exact transactions_fit address p done t ht
    · rw [List.mem_singleton.mp ht, Transaction.Fits, length_bytes]
      change (address + done) % 32 + k ≤ 32
      omega

end pages

/-- The sum of the range checks does not wrap around. -/
theorem Buffer.end_toNat (buffer : Buffer) (address : BitVec 16) :
    (address.setWidth 32 + buffer.size).toNat = address.toNat + buffer.size.toNat := by
  have hobject := buffer.object
  have haddress := address.isLt
  rw [BitVec.toNat_add, BitVec.toNat_setWidth]
  omega

theorem eeprom_write_spec {m : Machine} (hidle : m.bus.Idle) {address : BitVec 16} {buffer : Buffer}
    (hlow : SETTINGS_SLOT0 ≤ address.toNat)
    (hhigh : address.setWidth 32 + buffer.size ≤ BitVec.ofNat 32 (SETTINGS_SLOT1 + SETTINGS_SLOT_SIZE)) :
    WriteRespectsPages m address buffer := by
  have hrange : address.toNat + buffer.size.toNat ≤ 0x1400 := by
    rw [← buffer.end_toNat]
    exact BitVec.le_def.mp hhigh
  have hwrite : eeprom_write m address buffer = write_chunks m address buffer.bytes buffer.size.toNat := by
    apply if_neg
    rintro (hsmall | hlarge)
    · exact absurd hlow (Nat.not_le.mpr hsmall)
    · exact absurd hhigh (BitVec.not_le.mpr hlarge)
  have hrest : Resting m.Quiet m.Quiet m.Quiet m.bus.core m :=
    ⟨rfl, fun h => h.awake, fun h => ⟨h.prompt.calm, h.free⟩, fun h => h.prompt⟩
  obtain ⟨hok, hwritten, hend⟩ | ⟨hfail, hafter, ⟨done, hinterrupted⟩, hdead⟩ :=
    write_chunks_spec id buffer.size.toNat hrest hidle.core address (by omega) buffer.bytes
  · rw [← hwrite] at hok hwritten hend
    refine ⟨.inl hok, fun hquiet => ⟨hok, hend.prompt hquiet, hend.awake (.inl hquiet), (hend.calm hquiet).2⟩,
      fun _ => hwritten, fun hfail => ?_, fun i hi => ?_,
      ⟨_, hwritten.ended, transactions_fit _ _ _⟩⟩
    · rw [hok] at hfail
      cases hfail
    · rw [hwritten.cells] at hi
      by_contra houtside
      exact hi (copy_outside _ _ (by omega))
  · rw [← hwrite] at hfail hafter hinterrupted
    refine ⟨.inr hfail, fun hquiet => absurd hquiet hdead, fun hok => ?_, fun _ =>
      ⟨hafter, done, hinterrupted, fun i hi => (hinterrupted.frame i hi).2.2⟩, fun i hi => ?_, hinterrupted.fits⟩
    · rw [hfail] at hok
      cases hok
    · obtain ⟨hlow, hhigh, -⟩ := hinterrupted.frame i hi
      exact ⟨hlow, hhigh⟩

/-- The driver is a device as the settings are stored on. -/
theorem eeprom_write_device {m : Machine} (hidle : m.bus.Idle) {address : BitVec 16} {buffer : Buffer}
    (hlow : SETTINGS_SLOT0 ≤ address.toNat)
    (hhigh : address.setWidth 32 + buffer.size ≤ BitVec.ofNat 32 (SETTINGS_SLOT1 + SETTINGS_SLOT_SIZE)) :
    ∃ fault, Device.write ⟨m.bus.chip.cells, [fault]⟩ address.toNat buffer.bytes buffer.size.toNat =
      .value (decide ((eeprom_write m address buffer).1 = 0)) ⟨(eeprom_write m address buffer).2.bus.chip.cells, []⟩ := by
  have hspec := eeprom_write_spec hidle hlow hhigh
  obtain hok | hfail := hspec.result
  · refine ⟨none, ?_⟩
    rw [(hspec.success hok).cells, hok]
    rfl
  · obtain ⟨-, done, hinterrupted, -⟩ := hspec.failure hfail
    obtain ⟨k, hk, hcells⟩ := hinterrupted.cells
    have hunfinished := hinterrupted.unfinished
    have hmin : min (done + k) buffer.size.toNat = done + k := by omega
    refine ⟨some (.error (done + k)), ?_⟩
    change Outcome.value false
      ⟨copy m.bus.chip.cells address.toNat buffer.bytes (min (done + k) buffer.size.toNat), []⟩ = _
    rw [hmin, hcells, hfail]
    rfl

theorem eeprom_read_spec {m : Machine} (hidle : m.bus.Idle) {address : BitVec 16} {buffer : Buffer}
    (hrange : address.toNat + buffer.size.toNat ≤ 8192) : ReadReturnsStored m address buffer := by
  have hread : eeprom_read m address buffer = read_chunks m address 0 buffer.size.toNat buffer.bytes := by
    apply if_neg
    rw [BitVec.not_lt, BitVec.le_def, buffer.end_toNat]
    exact hrange
  obtain ⟨hkept, hresult⟩ := read_chunks_kept buffer.size.toNat hidle address 0 buffer.bytes
  have hcase {prompt : Prop} (hrest : Resting True True prompt m.bus.core m) :=
    read_chunks_spec buffer.size.toNat hrest hidle.core address hrange 0 buffer.bytes
  rw [← hread] at hkept hresult hcase
  refine ⟨hresult, hkept, fun hquiet => ?_, fun herrorless hok => ?_⟩
  · obtain ⟨hok, ⟨core', hend⟩, -⟩ | ⟨-, hdead⟩ := hcase ⟨rfl, fun _ => hquiet.awake,
      fun _ => ⟨hquiet.prompt.calm, hquiet.free⟩, fun _ : True => hquiet.prompt⟩
    · exact ⟨hok, hend.prompt trivial, hend.awake trivial, (hend.calm trivial).2⟩
    · exact absurd trivial hdead
  · obtain ⟨-, -, hbuffer⟩ | ⟨hfail, -⟩ := hcase ⟨rfl, fun _ => herrorless.awake,
      fun _ => ⟨herrorless.calm, herrorless.free⟩, False.elim⟩
    · exact hbuffer
    · rw [hok] at hfail
      cases hfail

/-- A call of the driver. -/
inductive Transfer where
  | read (address : BitVec 16) (buffer : Buffer)
  | write (address : BitVec 16) (buffer : Buffer)

def transfer (m : Machine) (t : Transfer) : Machine :=
  match t with
  | .read address buffer => (eeprom_read m address buffer).2.1
  | .write address buffer => (eeprom_write m address buffer).2

/-- Between transfers the bus is at rest. -/
theorem transfer_idle (m : Machine) (t : Transfer) (hidle : m.bus.Idle) : (transfer m t).bus.Idle := by
  cases t with
  | read address buffer =>
    by_cases hrange : address.toNat + buffer.size.toNat ≤ 8192
    · exact (eeprom_read_spec hidle hrange).kept.idle
    · have hreject : eeprom_read m address buffer = (-1, m, buffer.bytes) := by
        apply if_pos
        rw [gt_iff_lt, BitVec.lt_def, buffer.end_toNat]
        exact Nat.not_le.mp hrange
      rw [transfer, hreject]
      exact hidle
  | write address buffer =>
    rw [transfer]
    by_cases haccepted : SETTINGS_SLOT0 ≤ address.toNat ∧
        address.setWidth 32 + buffer.size ≤ BitVec.ofNat 32 (SETTINGS_SLOT1 + SETTINGS_SLOT_SIZE)
    · have hspec := eeprom_write_spec hidle haccepted.1 haccepted.2
      obtain hok | hfail := hspec.result
      · exact (hspec.success hok).idle
      · exact (hspec.failure hfail).1
    · have hreject : eeprom_write m address buffer = (-1, m) := by
        apply if_pos
        rw [← Nat.not_le, gt_iff_lt, ← BitVec.not_le]
        exact not_and_or.mp haccepted
      rw [hreject]
      exact hidle

/-- After any transfers, a write stays inside its interval and its pages, and a
read returns what is stored. -/
theorem transfers_respect_pages (m : Machine) (hidle : m.bus.Idle) (calls : List Transfer) (address : BitVec 16)
    (buffer : Buffer) :
    (SETTINGS_SLOT0 ≤ address.toNat ∧
        address.setWidth 32 + buffer.size ≤ BitVec.ofNat 32 (SETTINGS_SLOT1 + SETTINGS_SLOT_SIZE) →
      WriteRespectsPages (run transfer m calls) address buffer) ∧
      (address.toNat + buffer.size.toNat ≤ 8192 → ReadReturnsStored (run transfer m calls) address buffer) := by
  have hrest := run_invariant transfer_idle hidle calls
  exact ⟨fun haccepted => eeprom_write_spec hrest haccepted.1 haccepted.2, eeprom_read_spec hrest⟩

/-- A machine with an erased EEPROM and a bus that sends a word at each poll. -/
def erased : Machine where
  bus := primed ⟨fun _ => 0xff, 0, .idle, []⟩
  plan _ := ⟨[.shift, .shift], false⟩

def six_bytes : Buffer := ⟨fun i => BitVec.ofNat 8 i, 6, by decide⟩

theorem erased_quiet : erased.Quiet where
  prompt :=
    { calm := by
        intro n e he
        simp only [erased, List.mem_cons, List.not_mem_nil, or_false, or_self] at he
        exact .inl he
      quick := by
        intro n
        have hcount : ∀ i, ((erased.plan (n + i)).events.count .shift) = 2 := fun _ => rfl
        simp only [hcount, Finset.sum_const, Finset.card_range]
        decide }
  awake := rfl
  free := rfl

/-- Six bytes over a page boundary, written and read back. -/
theorem six_written_and_read :
    (eeprom_write erased 0x101d six_bytes).1 = 0 ∧
      (transfer erased (.write 0x101d six_bytes)).bus.chip.cells = copy (fun _ => 0xff) 0x101d six_bytes.bytes 6 ∧
      (transfer erased (.write 0x101d six_bytes)).bus.chip.ended = [⟨0x101d, [0, 1, 2]⟩, ⟨0x1020, [3, 4, 5]⟩] ∧
      (eeprom_read (transfer erased (.write 0x101d six_bytes)) 0x101d six_bytes).1 = 0 ∧
      (eeprom_read (transfer erased (.write 0x101d six_bytes)) 0x101d six_bytes).2.2 =
        copy six_bytes.bytes 0 (fun i => copy (fun _ => 0xff) 0x101d six_bytes.bytes 6 (0x101d + i)) 6 := by
  have hidle : erased.bus.Idle := ⟨rfl, rfl, rfl⟩
  have hwritten := (transfers_respect_pages erased hidle [] 0x101d six_bytes).1 ⟨by decide, by decide⟩
  obtain ⟨hok, hquiet⟩ := hwritten.no_error erased_quiet
  obtain ⟨-, hcells, hended⟩ := hwritten.success hok
  have hreturned := (transfers_respect_pages erased hidle [.write 0x101d six_bytes] 0x101d six_bytes).2 (by decide)
  obtain ⟨hread, -⟩ := hreturned.no_error hquiet
  have hbytes := hreturned.success ⟨hquiet.prompt.calm, hquiet.awake, hquiet.free⟩ hread
  have htransactions : transactions 0x101d six_bytes.bytes 6 = [⟨0x101d, [0, 1, 2]⟩, ⟨0x1020, [3, 4, 5]⟩] := by
    simp [transactions, bytes, six_bytes, List.range_succ]
  refine ⟨hok, hcells, hended.trans htransactions, hread, hbytes.trans ?_⟩
  have hsame : (run transfer erased [.write 0x101d six_bytes]).bus.chip.cells =
      copy (fun _ => 0xff) 0x101d six_bytes.bytes 6 := hcells
  rw [hsame]
  rfl

end scu35.eeprom
