import Scu35Miner.Software.Eeprom.Page
import Scu35Miner.Software.Eeprom.Stage

open fips180 storage transition

namespace scu35.eeprom

section chunk

variable {live : Prop} {before : M24C64} {full : List TxWord}

/-- `write_bytes` sends the rest of the page or gives the page up. -/
theorem write_bytes_spec (hscript : Script before full) (n : Nat) (p : Cells Byte) {words : List TxWord} {m : Machine}
    (h : Stage live before words m) (hfull : words ++ data_words n p = full) :
    (write_bytes n m p).1 = 0 ∧ Stage live before full (write_bytes n m p).2 ∨
      (write_bytes n m p).1 = -1 ∧ Aborted before full (write_bytes n m p).2.bus ∧ ¬live := by
  induction n generalizing p words m with
  | zero =>
    left
    rw [data_words, List.append_nil] at hfull
    rw [← hfull]
    exact ⟨rfl, h⟩
  | succ n ih =>
    have hwithin : words <+: full := ⟨_, hfull⟩
    obtain ⟨hwait, -, hresult⟩ := h.wait_status hscript hwithin (Nat.le_refl _) 0x10 0
    rw [write_bytes]
    split
    next hfail =>
      refine .inr ⟨rfl, hwait.wr_reset hscript hwithin, fun hlive => hfail ?_⟩
      apply h.wait_returns hscript hwithin hlive
      intro b _ hqueue
      rw [status_full, tx_of_queue hqueue]
      exact Nat.zero_lt_succ 15
    next hok =>
      obtain ⟨-, hseen⟩ | hbad := hresult
      · rw [data_words, List.append_cons] at hfull
        have hroom := (status_full _).mp hseen
        exact ih _ (hwait.wr_word hscript hwithin (Nat.le_refl _) hroom rfl (of_data (p 0) n)).1 hfull
      · rw [hbad] at hok
        exact absurd (by decide) hok

theorem flowing_drained {b : Bus} (hscript : Script before full) (h : Flowing before full b) (hqueue : b.queue = []) :
    b.Idle := by
  obtain ⟨sent, hwords, hchip⟩ := h.sent
  rw [hqueue, List.append_nil] at hwords
  refine ⟨?_, tx_of_queue hqueue, ?_⟩
  · rw [hchip, ← hwords]
    exact hscript.closed
  · have hshifting := (List.append_eq_nil_iff.mp hqueue).1
    cases hword : b.shifting with
    | none => rfl
    | some w =>
      rw [hword] at hshifting
      cases hshifting

/-- `finish` ends well only after the whole page has been sent. -/
theorem finish_spec (hscript : Script before full) {m : Machine} (h : Stage live before full m) :
    (finish m).1 = 0 ∧ (finish m).2.bus.Idle ∧ (finish m).2.bus.chip = run M24C64.send before full ∧
        (live → Prompt (finish m).2.plan ∧ (finish m).2.bus.held = false) ∨
      (finish m).1 = -1 ∧ Aborted before full (finish m).2.bus ∧ ¬live := by
  have hwithin : full <+: full := List.prefix_refl full
  obtain ⟨hdrained, -, hempty⟩ := h.wait_status hscript hwithin (Nat.le_refl _) 0x80 0x80
  rw [finish]
  dsimp only
  split
  next hfail =>
    refine .inr ⟨rfl, hdrained.wr_reset hscript hwithin, fun hlive => hfail ?_⟩
    apply h.wait_returns hscript hwithin hlive
    intro b _ hqueue
    rw [status_drained]
    exact tx_of_queue hqueue
  next hok =>
    obtain ⟨-, hseen⟩ | hbad := hempty
    swap
    · rw [hbad] at hok
      exact absurd (by decide) hok
    have htx : (wait_status m 0x80 0x80).2.bus.tx.length ≤ 0 := by
      rw [(status_drained _).mp hseen]
      exact Nat.le_refl 0
    obtain ⟨hfree, hlength, hquiet⟩ := hdrained.wait_status hscript hwithin htx 4 0
    split
    next hfail =>
      refine .inr ⟨rfl, hfree.wr_reset hscript hwithin, fun hlive => hfail ?_⟩
      apply hdrained.wait_returns hscript hwithin hlive
      intro b hflowing hqueue
      rw [status_busy]
      exact bus_free (flowing_drained hscript hflowing hqueue) hflowing.free
    next hok =>
      obtain ⟨-, hseen⟩ | hbad := hquiet
      swap
      · rw [hbad] at hok
        exact absurd (by decide) hok
      have hidle := idle_of_free ((status_busy _).mp hseen) hlength
      obtain ⟨htick, -⟩ := hfree.tick hscript hwithin hlength
      split
      next hflagged =>
        refine .inr ⟨rfl, htick.wr_reset hscript hwithin, fun hlive => hflagged ?_⟩
        exact (htick.live hlive).2.quiet
      next hclear =>
        left
        obtain hsending | hfailed := htick.kept
        swap
        · exact absurd hfailed.flagged hclear
        have hrest := Bus.Idle.of_core (Machine.tick_core hidle) hidle.core
        refine ⟨rfl, hrest, ?_, fun hlive => ⟨(htick.live hlive).1, (htick.live hlive).2.free⟩⟩
        obtain ⟨sent, hwords, hchip⟩ := hsending.sent
        rw [Bus.queue, hrest.shifting, hrest.tx, Option.toList_none, List.append_nil, List.append_nil] at hwords
        rw [hwords]
        exact hchip

/-- After the delay no write cycle is going on. -/
theorem delay_rests {m : Machine} (hidle : m.bus.Idle) (hlive : live → Prompt m.plan ∧ m.bus.held = false) :
    Resting True live live m.bus.core (delay m) := by
  have hrest : Resting False live live m.bus.core m :=
    ⟨rfl, False.elim, fun hl => ⟨(hlive hl).1.calm, (hlive hl).2⟩, fun hl => (hlive hl).1⟩
  obtain ⟨hcore, -, hcalm, hprompt⟩ := hrest.tick hidle.core
  exact ⟨hcore, fun _ => rfl, hcalm, hprompt⟩

/-- One page is written, or given up. -/
theorem write_chunk_spec {core : Bus} {m : Machine} (h : Resting live live live core m)
    (hidle : core.Idle) {address : BitVec 16} (haddress : address.toNat < 8192) {n : Nat} (hn : 0 < n)
    (p : Cells Byte) :
    (write_chunk m address n p).1 = 0 ∧
        (∃ core', Resting True live live core' (write_chunk m address n p).2 ∧ core'.Idle ∧
          core'.chip = run M24C64.send core.chip (page_words address n p)) ∨
      (write_chunk m address n p).1 = -1 ∧
        Aborted core.chip (page_words address n p) (write_chunk m address n p).2.bus ∧ ¬live := by
  have hscript : Script core.chip (page_words address n p) := page_script hidle.phase haddress hn
  have hone : [⟨true, false, 0xa0⟩] <+: page_words address n p := ⟨_, rfl⟩
  have htwo : [⟨true, false, 0xa0⟩, ⟨false, false, address_high address⟩] <+: page_words address n p := ⟨_, rfl⟩
  rw [write_chunk]
  dsimp only
  obtain ⟨hfail, hrest, hdead⟩ | ⟨m', hprimed, hstart⟩ := start_spec h hidle address
  · rw [hfail, if_pos (by decide)]
    refine .inr ⟨rfl, ⟨Bus.Idle.of_core hrest.core hidle, [], false, List.nil_prefix, ?_⟩, fun hl => hdead ⟨hl, hl⟩⟩
    rw [run_nil, M24C64.finish_idle hidle.phase, ← hrest.core]
    rfl
  have hcontinue : ¬(0 : Int) ≠ 0 := by decide
  rw [hstart, if_neg hcontinue]
  obtain ⟨hfirst, hlength⟩ := stage_start hprimed hidle.phase
  obtain ⟨hsecond, hlength⟩ := hfirst.wr_word hscript hone hlength (by decide) rfl (of_high address)
  obtain ⟨hthird, -⟩ := hsecond.wr_word hscript htwo hlength (by decide) rfl (of_low address)
  obtain ⟨hok, hsent⟩ | ⟨hfail, haborted, hdead⟩ := write_bytes_spec hscript n p hthird rfl
  swap
  · rw [hfail, if_pos (by decide)]
    exact .inr ⟨rfl, haborted, hdead⟩
  rw [hok, if_neg hcontinue]
  obtain ⟨hok, hfinished, hchip, hlive⟩ | ⟨hfail, haborted, hdead⟩ := finish_spec hscript hsent
  swap
  · rw [hfail, if_pos (by decide)]
    exact .inr ⟨rfl, haborted, hdead⟩
  rw [hok, if_neg hcontinue]
  exact .inl ⟨rfl, _, delay_rests hfinished hlive, hfinished.core, hchip⟩

end chunk

/-- The transactions of a write, one for each page it touches. -/
def transactions (address : Nat) (p : Cells Byte) (size : Nat) : List Transaction :=
  if size = 0 then []
  else
    let n := min (32 - address % 32) size
    ⟨address, bytes p n⟩ :: transactions (address + n) (fun i => p (n + i)) (size - n)
termination_by size
decreasing_by omega

theorem transactions_fit (address : Nat) (p : Cells Byte) (size : Nat) :
    ∀ t ∈ transactions address p size, t.Fits := by
  induction address, p, size using transactions.induct with
  | case1 address p =>
    rw [transactions, if_pos rfl]
    exact fun t ht => absurd ht List.not_mem_nil
  | case2 address p size hsize n ih =>
    rw [transactions, if_neg hsize]
    intro t ht
    obtain rfl | ht := List.mem_cons.mp ht
    · have hlength := length_bytes p (min (32 - address % 32) size)
      change address % 32 + (bytes p (min (32 - address % 32) size)).length ≤ 32
      omega
    · exact ih t ht

/-- The transactions of a whole first page and of what follows it. -/
theorem transactions_add {address n : Nat} (p : Cells Byte) (hn : n = 32 - address % 32) (more : Nat) :
    transactions address p (n + more) =
      ⟨address, bytes p n⟩ :: transactions (address + n) (fun i => p (n + i)) more := by
  have hpos : n + more ≠ 0 := by omega
  have hmin : min (32 - address % 32) (n + more) = n := by omega
  rw [transactions, if_neg hpos]
  dsimp only
  rw [hmin, Nat.add_sub_cancel_left]

/-- A write that failed on the page of its byte `done`: the pages before are
complete, and of that page a first part may be written. -/
structure Interrupted (before after : M24C64) (address : Nat) (p : Cells Byte) (size done : Nat) : Prop where
  unfinished : done < size
  boundary : done = 0 ∨ (address + done) % 32 = 0
  cells : ∃ k ≤ min (32 - (address + done) % 32) (size - done),
    after.cells = copy before.cells address p (done + k)
  ended : after.ended = before.ended ++ transactions address p done ∨
    ∃ k ≤ min (32 - (address + done) % 32) (size - done),
      after.ended = before.ended ++ transactions address p done ++ [⟨address + done, bytes (fun i => p (done + i)) k⟩]

theorem Interrupted.of_aborted {before : M24C64} {address : BitVec 16} {p : Cells Byte} {size : Nat} {b : Bus}
    (hidle : before.phase = .idle) (haddress : address.toNat < 8192) (hsize : 0 < size)
    (h : Aborted before (page_words address (chunk address size) p) b) :
    Interrupted before b.chip address.toNat p size 0 := by
  have hchunk := chunk_eq address size
  obtain ⟨-, sent, stop, hsent, hchip⟩ := h
  obtain ⟨hcells, hended⟩ := page_interrupted hidle haddress (by omega) (by omega) hsent stop
  rw [← hchip, hchunk] at hcells hended
  have hnone : before.ended ++ transactions address.toNat p 0 = before.ended := by
    rw [transactions, if_pos rfl, List.append_nil]
  refine ⟨hsize, .inl rfl, ?_, ?_⟩
  · rw [Nat.add_zero, Nat.sub_zero]
    simp only [Nat.zero_add]
    exact hcells
  · rw [hnone, Nat.add_zero, Nat.sub_zero]
    simp only [Nat.zero_add]
    exact hended

/-- A failure behind a first page that has been written. -/
theorem Interrupted.behind {before middle after : M24C64} {address n size done : Nat} {p : Cells Byte}
    (hn : n = 32 - address % 32) (hcells : middle.cells = copy before.cells address p n)
    (hended : middle.ended = before.ended ++ [⟨address, bytes p n⟩])
    (h : Interrupted middle after (address + n) (fun i => p (n + i)) (size - n) done) :
    Interrupted before after address p size (n + done) := by
  have hunfinished := h.unfinished
  have hplace : address + n + done = address + (n + done) := Nat.add_assoc address n done
  have hleft : size - n - done = size - (n + done) := Nat.sub_sub size n done
  have hbefore : middle.ended ++ transactions (address + n) (fun i => p (n + i)) done =
      before.ended ++ transactions address p (n + done) := by
    rw [transactions_add p hn, hended, List.append_assoc]
    rfl
  have hsource : (fun i => p (n + (done + i))) = fun i => p (n + done + i) := by
    funext i
    rw [Nat.add_assoc]
  refine ⟨by omega, ?_, ?_, ?_⟩
  · right
    obtain hzero | hboundary := h.boundary
    · omega
    · rwa [← hplace]
  · obtain ⟨k, hk, hafter⟩ := h.cells
    rw [hplace, hleft] at hk
    refine ⟨k, hk, ?_⟩
    rw [hafter, hcells, copy_append, Nat.add_assoc]
  · rw [← hbefore, ← hplace, ← hleft]
    obtain hsame | ⟨k, hk, hafter⟩ := h.ended
    · exact .inl hsame
    · refine .inr ⟨k, hk, ?_⟩
      rw [hafter, hsource]

/-- A write that has succeeded. -/
structure Written (before : M24C64) (b : Bus) (address : Nat) (p : Cells Byte) (size : Nat) : Prop where
  idle : b.Idle
  cells : b.chip.cells = copy before.cells address p size
  ended : b.chip.ended = before.ended ++ transactions address p size

theorem next_address {address : BitVec 16} {n : Nat} (h : address.toNat + n ≤ 8192) :
    (address + BitVec.ofNat 16 n).toNat = address.toNat + n := by
  rw [BitVec.toNat_add, BitVec.toNat_ofNat]
  omega

/-- The loop of `eeprom_write` from a bus at rest. -/
theorem write_chunks_spec {awake live : Prop} (hawake : live → awake) (size : Nat) {core : Bus} {m : Machine}
    (h : Resting awake live live core m) (hidle : core.Idle) (address : BitVec 16)
    (hbound : address.toNat + size ≤ 8192) (p : Cells Byte) :
    (write_chunks m address p size).1 = 0 ∧
        Written core.chip (write_chunks m address p size).2.bus address.toNat p size ∧
        Resting (awake ∨ 0 < size) live live (write_chunks m address p size).2.bus.core
          (write_chunks m address p size).2 ∨
      (write_chunks m address p size).1 = -1 ∧ (write_chunks m address p size).2.bus.Idle ∧
        (∃ done, Interrupted core.chip (write_chunks m address p size).2.bus.chip address.toNat p size done) ∧ ¬live := by
  induction size using Nat.strong_induction_on generalizing awake core m address p with
  | _ size ih =>
    rw [write_chunks]
    split
    next hzero =>
      rw [hzero]
      refine .inl ⟨rfl, ⟨Bus.Idle.of_core h.core hidle, ?_, ?_⟩, rfl, fun hbusy => h.awake ?_, h.calm, h.prompt⟩
      · rw [copy_zero, ← h.core]
        rfl
      · rw [transactions, if_pos rfl, List.append_nil, ← h.core]
        rfl
      · exact hbusy.resolve_right (Nat.lt_irrefl 0)
    next hsize =>
      have hchunk := chunk_eq address size
      have haddress : address.toNat < 8192 := by omega
      have hpos : 0 < chunk address size := by omega
      have hrest : Resting live live live core m := ⟨h.core, fun hl => h.awake (hawake hl), h.calm, h.prompt⟩
      dsimp only
      obtain ⟨hok, core', hafter, hidle', hchip⟩ | ⟨hfail, haborted, hdead⟩ :=
        write_chunk_spec hrest hidle haddress hpos p
      swap
      · rw [hfail, if_pos (by decide)]
        exact .inr ⟨hfail, haborted.idle,
          ⟨0, Interrupted.of_aborted hidle.phase haddress (Nat.pos_of_ne_zero hsize) haborted⟩, hdead⟩
      have hcontinue : ¬(0 : Int) ≠ 0 := by decide
      rw [run_page hidle.phase haddress hpos (by omega)] at hchip
      have hcells : core'.chip.cells = copy core.chip.cells address.toNat p (chunk address size) := by rw [hchip]
      have hended : core'.chip.ended = core.chip.ended ++ [⟨address.toNat, bytes p (chunk address size)⟩] := by
        rw [hchip]
      have hnext : (address + BitVec.ofNat 16 (chunk address size)).toNat = address.toNat + chunk address size :=
        next_address (by omega)
      rw [hok, if_neg hcontinue]
      obtain ⟨hok, hwritten, hend⟩ | ⟨hfail, hlast, ⟨done, hinterrupted⟩, hdead⟩ :=
        ih (size - chunk address size) (by omega) (fun _ => trivial) hafter hidle'
          (address + BitVec.ofNat 16 (chunk address size)) (by omega) (fun i => p (chunk address size + i))
      · refine .inl ⟨hok, ⟨hwritten.idle, ?_, ?_⟩, rfl, fun _ => hend.awake (.inl trivial), hend.calm, hend.prompt⟩
        · rw [hwritten.cells, hnext, hcells, copy_append]
          congr 1
          omega
        · rw [hwritten.ended, hnext, hended, List.append_assoc]
          congr 1
          rw [transactions.eq_def address.toNat p size, if_neg hsize]
          dsimp only
          rw [← hchunk]
          rfl
      · refine .inr ⟨hfail, hlast, ⟨chunk address size + done, ?_⟩, hdead⟩
        rw [hnext] at hinterrupted
        have hunfinished := hinterrupted.unfinished
        exact hinterrupted.behind (by omega) hcells hended

end scu35.eeprom
