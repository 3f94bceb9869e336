import Scu35Miner.Radix.Decimal
import Scu35Miner.Software.Bitcoin.Target

open fips180 radix

namespace scu35.bitcoin

/-- What could overflow: the carry that `multiply10` leaves, the bit that a shift
of the remainder loses, and the value of a signed expression. -/
inductive Note where
  | carry_out (carry : Nat)
  | shifted_out (bit : Word)
  | signed (value : Int)

def Note.Safe : Note → Prop
  | .carry_out carry => carry = 0
  | .shifted_out bit => bit = 0
  | .signed value => -2 ^ 31 ≤ value ∧ value < 2 ^ 31

/-- The array of the caller, and what has been noted on the way. -/
structure Memory where
  out : List Word
  notes : List Note

/-- A part of `bitcoin_target`, with `none` for a `return -1`. -/
def Exec (α : Type) : Type := Memory → Option α × Memory

namespace Exec

variable {α β : Type}

def bind (x : Exec α) (f : α → Exec β) : Exec β := fun mem =>
  match x mem with
  | (some a, mem) => f a mem
  | (none, mem) => (none, mem)

instance : Monad Exec where
  pure a := fun mem => (some a, mem)
  bind := bind

def fail : Exec α := fun mem => (none, mem)

def note (n : Note) : Exec Unit := fun mem => (some (), { mem with notes := mem.notes ++ [n] })

def store (out : List Word) : Exec Unit := fun mem => (some (), { mem with out })

/-- It returns `r` and changes the array by `f`, and nothing overflows. -/
def Safely (x : Exec α) (r : Option α) (f : List Word → List Word) : Prop :=
  ∀ mem, ∃ notes, (∀ n ∈ notes, n.Safe) ∧ x mem = (r, ⟨f mem.out, mem.notes ++ notes⟩)

theorem safely_pure (a : α) : Safely (Pure.pure a) (some a) id := fun mem => ⟨[], by simp, by simp; rfl⟩

theorem safely_fail : Safely (fail : Exec α) none id := fun mem => ⟨[], by simp, by simp [fail]⟩

theorem safely_note {n : Note} (h : n.Safe) : Safely (note n) (some ()) id := fun mem => ⟨[n], by simpa using h, rfl⟩

theorem safely_store (out : List Word) : Safely (store out) (some ()) fun _ => out :=
  fun mem => ⟨[], by simp, by simp [store]⟩

theorem Safely.bind {x : Exec α} {k : α → Exec β} {a : α} {r : Option β} {f g : List Word → List Word}
    (hx : Safely x (some a) f) (hk : Safely (k a) r g) : Safely (x >>= k) r (g ∘ f) := by
  intro mem
  obtain ⟨before, hbefore, hxm⟩ := hx mem
  obtain ⟨after, hafter, hkm⟩ := hk ⟨f mem.out, mem.notes ++ before⟩
  refine ⟨before ++ after, ?_, ?_⟩
  · intro n hn
    obtain hn | hn := List.mem_append.mp hn
    · exact hbefore n hn
    · exact hafter n hn
  · change Exec.bind x k mem = _
    rw [Exec.bind, hxm]
    dsimp only
    rw [hkm, List.append_assoc]
    rfl

/-- A part that leaves the array alone comes first. -/
theorem Safely.quiet_bind {x : Exec α} {k : α → Exec β} {a : α} {r : Option β} {f : List Word → List Word}
    (hx : Safely x (some a) id) (hk : Safely (k a) r f) : Safely (x >>= k) r f := hx.bind hk

theorem Safely.bind_none {x : Exec α} {k : α → Exec β} {f : List Word → List Word} (hx : Safely x none f) :
    Safely (x >>= k) none f := by
  intro mem
  obtain ⟨notes, hnotes, hxm⟩ := hx mem
  refine ⟨notes, hnotes, ?_⟩
  change Exec.bind x k mem = _
  rw [Exec.bind, hxm]

end Exec

open Exec

def multiply10_call (a : big) (add : Nat) : Exec big := do
  let (product, carry) := multiply10_limbs a add
  note (.carry_out carry)
  if carry = 0 then pure product else fail

def mantissa_loop : List Byte → Mantissa → Exec (Mantissa × List Byte)
  | [], m => pure (m, [])
  | c :: s, m =>
    if c = 0x65 ∨ c = 0x45 then pure (m, c :: s)
    else if c = 0x2e then
      if m.point || m.digits == 0 then fail else mantissa_loop s { m with point := true }
    else if c < 0x30 || c > 0x39 || m.digits + 1 > 64 then fail
    else do
      let fractional := if m.point then m.fractional + 1 else m.fractional
      note (.signed fractional)
      let denominator ← multiply10_call m.denominator (c.toNat - 0x30)
      mantissa_loop s { m with
        denominator
        digits := m.digits + 1
        fractional
        nonzero := m.nonzero || c != 0x30 }

def exponent_loop : List Byte → Int → Exec Int
  | [], exponent => pure exponent
  | c :: s, exponent =>
    if c < 0x30 || c > 0x39 || exponent > 128 then fail
    else do
      note (.signed (exponent * 10))
      note (.signed (exponent * 10 + c.toNat))
      note (.signed (exponent * 10 + c.toNat - 0x30))
      exponent_loop s (exponent * 10 + ((c.toNat : Int) - 0x30))

def scale_part : List Byte → Exec Int
  | [] => pure 0
  | _ :: s =>
    let (negative, s) :=
      match s with
      | c :: t => if c = 0x2d then (true, t) else if c = 0x2b then (false, t) else (false, s)
      | [] => (false, [])
    if s = [] then fail
    else do
      let exponent ← exponent_loop s 0
      if negative then do
        note (.signed (-exponent))
        pure (-exponent)
      else pure exponent

def multiply10_loop (a : big) : Nat → Exec big
  | 0 => pure a
  | n + 1 => do
    let a ← multiply10_call a 0
    multiply10_loop a n

def divide_loop (numerator denominator : big) : Nat → Division → Exec Division
  | 0, d => pure d
  | bit + 1, d => do
    note (.shifted_out (shift_carry d.remainder (numerator_bit numerator bit)))
    divide_loop numerator denominator bit (divide_bit numerator denominator d bit)

def Division.start : Division := ⟨big.zero, List.replicate 8 0, false⟩

/-- The division, from the cleared array on. -/
def fill (numerator denominator : big) (bits : Nat) (start : Division) : Exec Unit := do
  store start.out
  let d ← divide_loop numerator denominator bits start
  store d.out
  if d.overflow then store (List.replicate 8 0xffffffff) else pure ()

/-- The scaling by a power of ten and the division. -/
def divide_part (denominator : big) (exponent : Int) : Exec Unit := do
  note (.signed exponent)
  if exponent > 128 || exponent < -128 then fail
  else do
    let denominator ← multiply10_loop denominator exponent.toNat
    note (.signed (-exponent))
    let numerator ← multiply10_loop (big.zero.set 6 0xffff0000) (-exponent).toNat
    fill numerator denominator 1024 Division.start

/-- The statements of `bitcoin_target` in their order; `out` is cleared only when
nothing can fail any more. -/
def bitcoin_target_body (s : List Byte) : Exec Unit :=
  if s.length = 0 || s.length > 80 then fail
  else do
    let r ← mantissa_loop s ⟨big.zero, 0, 0, false, false⟩
    if !r.1.nonzero || (r.1.point && r.1.fractional == 0) then fail
    else do
      let scale ← scale_part r.2
      divide_part r.1.denominator (scale - r.1.fractional)

/-- The value that a call returns, the array after it, and its notes. -/
structure Call where
  rc : Int
  out : List Word
  notes : List Note

def bitcoin_target_call (s : List Byte) (out : List Word) : Call :=
  match bitcoin_target_body s ⟨out, []⟩ with
  | (some _, mem) => ⟨0, mem.out, mem.notes⟩
  | (none, mem) => ⟨-1, mem.out, mem.notes⟩

/-- The digits `m` to `m'` read from a mantissa. -/
structure Feeds (m : Mantissa) (digits : List (Fin 10)) (m' : Mantissa) : Prop where
  value : leValue m'.denominator = leValue m.denominator * 10 ^ digits.length + decValue digits
  digits_eq : m'.digits = m.digits + digits.length
  fractional_eq : m'.fractional = m.fractional + if m.point then digits.length else 0
  point_eq : m'.point = m.point
  nonzero_eq : m'.nonzero = (m.nonzero || digits.any (· != 0))

/-- The digits read so far fit the limbs. -/
structure Bounded (m : Mantissa) : Prop where
  length : m.denominator.length = 32
  digits_le : m.digits ≤ 64
  fractional_le : m.fractional ≤ m.digits
  value_lt : leValue m.denominator < 10 ^ m.digits

theorem Feeds.refl (m : Mantissa) : Feeds m [] m := ⟨by simp, rfl, by simp, rfl, by simp⟩

theorem Feeds.cons {m m' m'' : Mantissa} {d : Fin 10} {digits : List (Fin 10)} (h : Feeds m [d] m')
    (hrest : Feeds m' digits m'') : Feeds m (d :: digits) m'' := by
  refine ⟨?_, ?_, ?_, hrest.point_eq.trans h.point_eq, ?_⟩
  · rw [hrest.value, h.value]
    simp only [decValue_cons, decValue_nil, List.length_cons, List.length_nil]
    ring
  · rw [hrest.digits_eq, h.digits_eq, List.length_singleton, List.length_cons]
    omega
  · rw [hrest.fractional_eq, h.fractional_eq, h.point_eq]
    split
    · simp
      omega
    · simp
  · rw [hrest.nonzero_eq, h.nonzero_eq]
    simp [Bool.or_assoc]

theorem ten_pow_le {n k : Nat} (h : 4 * n ≤ k) : 10 ^ n ≤ 2 ^ k := calc
  10 ^ n ≤ 16 ^ n := Nat.pow_le_pow_left (by decide) n
  _ = 2 ^ (4 * n) := by rw [Nat.pow_mul]
  _ ≤ 2 ^ k := Nat.pow_le_pow_right (by decide) h

/-- The mantissa after one more digit. -/
def Mantissa.push (m : Mantissa) (d : Fin 10) (denominator : big) : Mantissa where
  denominator := denominator
  digits := m.digits + 1
  fractional := if m.point then m.fractional + 1 else m.fractional
  point := m.point
  nonzero := m.nonzero || d.val != 0

theorem digit_nonzero (d : Fin 10) : (d.val != 0) = (d != 0) := by
  revert d
  decide

/-- A digit that is not one too many can be added. -/
theorem Bounded.push {m : Mantissa} (hm : Bounded m) (hdigits : m.digits < 64) (d : Fin 10) :
    ∃ product, multiply10_limbs m.denominator d = (product, 0) ∧ Bounded (m.push d product) ∧
      Feeds m [d] (m.push d product) := by
  have hten : leValue m.denominator * 10 + d < 10 ^ (m.digits + 1) := by
    have hlt := hm.value_lt
    rw [Nat.pow_succ]
    omega
  have hfits : leValue m.denominator * 10 + d < 2 ^ (32 * m.denominator.length) :=
    Nat.lt_of_lt_of_le hten (ten_pow_le (by rw [hm.length]; omega))
  have hvalue := multiply10_limbs_value m.denominator d
  have hcarry := multiply10_limbs_carry hfits
  rw [hcarry, Nat.mul_zero, Nat.add_zero] at hvalue
  refine ⟨(multiply10_limbs m.denominator d).1, Prod.ext rfl hcarry, ⟨?_, hdigits, ?_, ?_⟩, ⟨?_, rfl, ?_, rfl, ?_⟩⟩
  · exact (multiply10_limbs_length m.denominator d).trans hm.length
  · have hle := hm.fractional_le
    simp only [Mantissa.push]
    split <;> omega
  · exact hvalue ▸ hten
  · simp [Mantissa.push, hvalue, decValue]
  · simp only [Mantissa.push]
    split <;> simp
  · simp [Mantissa.push, digit_nonzero]

/-- A digit is not an exponent mark or a point. -/
theorem digitChar_plain (d : Fin 10) : ¬(digitChar d = 0x65 ∨ digitChar d = 0x45) ∧ ¬digitChar d = 0x2e ∧
    ¬digitChar d < 0x30 ∧ ¬digitChar d > 0x39 ∧ (digitChar d != 0x30) = (d.val != 0) := by
  revert d
  decide

/-- What `parse_mantissa` does with a character that is a digit. -/
theorem parse_mantissa_digit {m : Mantissa} (hm : Bounded m) (hdigits : m.digits < 64) (d : Fin 10) :
    ∃ m', Bounded m' ∧ Feeds m [d] m' ∧ ∀ s, parse_mantissa (digitChar d :: s) m = parse_mantissa s m' ∧
      ∀ r, Safely (mantissa_loop s m') r id → Safely (mantissa_loop (digitChar d :: s) m) r id := by
  obtain ⟨product, hproduct, hbounded, hfeeds⟩ := hm.push hdigits d
  obtain ⟨hmark, hpoint, hlow, hhigh, hzero⟩ := digitChar_plain d
  have hrange : ¬(digitChar d < 0x30 || digitChar d > 0x39 || m.digits + 1 > 64) = true := by
    simp only [Bool.or_eq_true, decide_eq_true_eq, not_or]
    exact ⟨⟨hlow, hhigh⟩, by omega⟩
  have hnat : (digitChar d).toNat - 0x30 = d := by rw [digitChar_toNat, Nat.add_sub_cancel_left]
  refine ⟨m.push d product, hbounded, hfeeds, fun s => ⟨?_, fun r hrest => ?_⟩⟩
  · have hten : multiply10 m.denominator d = some product := by
      rw [multiply10, hproduct]
      rfl
    rw [parse_mantissa, if_neg hmark, if_neg hpoint, if_neg hrange, hnat, hten, hzero]
    rfl
  · rw [mantissa_loop, if_neg hmark, if_neg hpoint, if_neg hrange, hnat, hzero]
    have hle := hbounded.fractional_le
    have hlast := hbounded.digits_le
    refine (safely_note ?_).quiet_bind ?_
    · change _ ∧ _
      change (if m.point then m.fractional + 1 else m.fractional) ≤ _ at hle
      omega
    · refine Safely.quiet_bind (a := product) ?_ hrest
      rw [multiply10_call, hproduct]
      refine (safely_note (n := .carry_out 0) rfl).quiet_bind ?_
      exact safely_pure product

theorem parse_mantissa_digits {m : Mantissa} (hm : Bounded m) (digits : List (Fin 10))
    (hdigits : m.digits + digits.length ≤ 64) (s : List Byte) :
    ∃ m', Bounded m' ∧ Feeds m digits m' ∧ parse_mantissa (digitText digits ++ s) m = parse_mantissa s m' := by
  induction digits generalizing m with
  | nil => exact ⟨m, hm, Feeds.refl m, rfl⟩
  | cons d digits ih =>
    rw [List.length_cons] at hdigits
    obtain ⟨next, hnext, hfirst, hparse⟩ := parse_mantissa_digit hm (by omega) d
    have hlen : next.digits = m.digits + 1 := hfirst.digits_eq
    obtain ⟨m', hm', hfeeds, hrest⟩ := ih hnext (by omega)
    exact ⟨m', hm', hfirst.cons hfeeds, (hparse _).1.trans hrest⟩

/-- The mantissa ends at the end of the text or at an exponent mark. -/
def AtMark (s : List Byte) : Prop := s = [] ∨ ∃ c t, s = c :: t ∧ (c = 0x65 ∨ c = 0x45)

theorem parse_mantissa_mark {s : List Byte} (h : AtMark s) (m : Mantissa) : parse_mantissa s m = some (m, s) := by
  obtain rfl | ⟨c, t, rfl, hc⟩ := h
  · rfl
  · rw [parse_mantissa, if_pos hc]

/-- A mantissa that is read to its end: digits, and after a point digits again. -/
def Reads (s : List Byte) (m : Mantissa) (m' : Mantissa) (rest : List Byte) : Prop :=
  ∃ digits, (s = digitText digits ++ rest ∧ Feeds m digits m') ∨
    ∃ middle places, s = digitText digits ++ 0x2e :: digitText places ++ rest ∧ Feeds m digits middle ∧
      middle.point = false ∧ middle.digits ≠ 0 ∧ Feeds { middle with point := true } places m'

/-- What `parse_mantissa` accepts, and that nothing overflows in it. -/
theorem parse_mantissa_reads (s : List Byte) {m : Mantissa} (hm : Bounded m) :
    Safely (mantissa_loop s m) (parse_mantissa s m) id ∧
      ∀ m' rest, parse_mantissa s m = some (m', rest) → Bounded m' ∧ AtMark rest ∧ Reads s m m' rest := by
  induction s generalizing m with
  | nil =>
    refine ⟨safely_pure _, ?_⟩
    rintro m' rest h
    cases h
    exact ⟨hm, .inl rfl, [], .inl ⟨rfl, Feeds.refl m⟩⟩
  | cons c s ih =>
    by_cases hmark : c = 0x65 ∨ c = 0x45
    · rw [parse_mantissa_mark (.inr ⟨c, s, rfl, hmark⟩), mantissa_loop, if_pos hmark]
      refine ⟨safely_pure _, ?_⟩
      rintro m' rest h
      cases h
      exact ⟨hm, .inr ⟨c, s, rfl, hmark⟩, [], .inl ⟨rfl, Feeds.refl m⟩⟩
    · by_cases hpoint : c = 0x2e
      · rw [parse_mantissa, if_neg hmark, if_pos hpoint, mantissa_loop, if_neg hmark, if_pos hpoint]
        split
        · refine ⟨safely_fail, ?_⟩
          rintro m' rest h
          cases h
        next hsecond =>
          simp only [Bool.or_eq_true, beq_iff_eq, not_or, Bool.not_eq_true] at hsecond
          have hm' : Bounded { m with point := true } := ⟨hm.length, hm.digits_le, hm.fractional_le, hm.value_lt⟩
          refine ⟨(ih hm').1, fun m' rest h => ?_⟩
          obtain ⟨hbounded, hrest, digits, ⟨hs, hfeeds⟩ | ⟨middle, places, hs, hfeeds, hnone, _⟩⟩ := (ih hm').2 m' rest h
          · refine ⟨hbounded, hrest, [], .inr ⟨m, digits, ?_, Feeds.refl m, hsecond.1, hsecond.2, hfeeds⟩⟩
            rw [hs, hpoint]
            rfl
          · have hset : middle.point = true := hfeeds.point_eq
            rw [hset] at hnone
            cases hnone
      · by_cases hrange : (c < 0x30 || c > 0x39 || m.digits + 1 > 64) = true
        · rw [parse_mantissa, if_neg hmark, if_neg hpoint, if_pos hrange, mantissa_loop, if_neg hmark, if_neg hpoint,
            if_pos hrange]
          refine ⟨safely_fail, ?_⟩
          rintro m' rest h
          cases h
        · simp only [Bool.or_eq_true, decide_eq_true_eq, not_or, BitVec.lt_def, gt_iff_lt] at hrange
          obtain ⟨d, rfl⟩ := exists_digitChar (c := c) (Nat.le_of_not_lt hrange.1.1) (Nat.le_of_not_lt hrange.1.2)
          obtain ⟨next, hnext, hfirst, hstep⟩ := parse_mantissa_digit hm (by omega) d
          rw [(hstep s).1]
          refine ⟨(hstep s).2 _ (ih hnext).1, fun m' rest h => ?_⟩
          obtain ⟨hbounded, hrest, digits, ⟨hs, hfeeds⟩ | ⟨middle, places, hs, hfeeds, hmiddle⟩⟩ :=
            (ih hnext).2 m' rest h
          · exact ⟨hbounded, hrest, d :: digits, .inl ⟨by rw [hs]; rfl, hfirst.cons hfeeds⟩⟩
          · exact ⟨hbounded, hrest, d :: digits, .inr ⟨middle, places, by rw [hs]; rfl, hfirst.cons hfeeds, hmiddle⟩⟩

/-- The exponent read before the last digit is at most 128. -/
def Short (exponent : Nat) (digits : List (Fin 10)) : Prop :=
  digits ≠ [] → exponent * 10 ^ (digits.length - 1) + decValue digits.dropLast ≤ 128

theorem short_cons (exponent : Nat) (d : Fin 10) (digits : List (Fin 10)) :
    Short exponent (d :: digits) ↔ exponent ≤ 128 ∧ Short (exponent * 10 + d) digits := by
  cases digits with
  | nil => simp [Short]
  | cons e digits =>
    have hvalue : exponent * 10 ^ (digits.length + 1) + decValue (d :: (e :: digits).dropLast) =
        (exponent * 10 + d) * 10 ^ digits.length + decValue (e :: digits).dropLast := by
      rw [decValue_cons, List.length_dropLast, List.length_cons, Nat.add_sub_cancel]
      ring
    simp only [Short, ne_eq, reduceCtorEq, not_false_eq_true, forall_const, List.length_cons, Nat.add_sub_cancel,
      List.dropLast_cons_cons, hvalue]
    have hle : exponent ≤ (exponent * 10 + d) * 10 ^ digits.length := calc
      exponent ≤ exponent * 10 + d := by omega
      _ ≤ (exponent * 10 + d) * 10 ^ digits.length := Nat.le_mul_of_pos_right _ (by positivity)
    constructor
    · intro h
      exact ⟨by omega, h⟩
    · exact fun h => h.2

/-- What `parse_exponent` accepts, and that nothing overflows in it. -/
theorem parse_exponent_reads (s : List Byte) (exponent : Nat) (he : exponent ≤ 1289) :
    Safely (exponent_loop s exponent) (parse_exponent s exponent) id ∧
      ∀ v, parse_exponent s exponent = some v ↔ ∃ digits, s = digitText digits ∧ Short exponent digits ∧
        v = (exponent * 10 ^ digits.length + decValue digits : Nat) := by
  induction s generalizing exponent with
  | nil =>
    refine ⟨safely_pure _, fun v => ⟨?_, ?_⟩⟩
    · intro h
      cases h
      exact ⟨[], rfl, fun h => absurd rfl h, by simp⟩
    · rintro ⟨digits, hs, _, rfl⟩
      obtain rfl : digits = [] := List.map_eq_nil_iff.mp hs.symm
      simp [parse_exponent]
  | cons c s ih =>
    by_cases hrange : (c < 0x30 || c > 0x39 || (exponent : Int) > 128) = true
    · rw [parse_exponent, if_pos hrange, exponent_loop, if_pos hrange]
      refine ⟨safely_fail, fun v => ⟨fun h => (by cases h), ?_⟩⟩
      rintro ⟨digits, hs, hshort, rfl⟩
      cases digits with
      | nil => cases hs
      | cons d digits =>
        cases hs
        obtain ⟨_, _, hlow, hhigh, _⟩ := digitChar_plain d
        have hle := ((short_cons exponent d digits).mp hshort).1
        simp only [Bool.or_eq_true, decide_eq_true_eq, hlow, hhigh, false_or] at hrange
        omega
    · have hstep := hrange
      simp only [Bool.or_eq_true, decide_eq_true_eq, not_or, BitVec.lt_def, gt_iff_lt] at hstep
      obtain ⟨d, rfl⟩ := exists_digitChar (c := c) (Nat.le_of_not_lt hstep.1.1) (Nat.le_of_not_lt hstep.1.2)
      have hdigit : ((digitChar d).toNat : Int) = 0x30 + d := by
        rw [digitChar_toNat]
        rfl
      have hnext : (exponent : Int) * 10 + ((digitChar d).toNat - 0x30) = (exponent * 10 + d : Nat) := by
        rw [hdigit]
        push_cast
        ring
      obtain ⟨hsafe, hreads⟩ := ih (exponent * 10 + d) (by omega)
      rw [parse_exponent, if_neg hrange, exponent_loop, if_neg hrange, hnext]
      refine ⟨?_, fun v => (hreads v).trans ⟨?_, ?_⟩⟩
      · refine (safely_note ?_).quiet_bind ((safely_note ?_).quiet_bind ((safely_note ?_).quiet_bind hsafe))
        all_goals
          change _ ∧ _
          omega
      · rintro ⟨digits, rfl, hshort, rfl⟩
        refine ⟨d :: digits, rfl, (short_cons exponent d digits).mpr ⟨by omega, hshort⟩, ?_⟩
        rw [decValue_cons, List.length_cons]
        push_cast
        ring
      · rintro ⟨digits, hs, hshort, rfl⟩
        cases digits with
        | nil => cases hs
        | cons d' digits =>
          obtain ⟨hd, rfl⟩ := List.cons.inj hs
          obtain rfl : d = d' := digitChar_injective hd
          refine ⟨digits, rfl, ((short_cons exponent d digits).mp hshort).2, ?_⟩
          rw [decValue_cons, List.length_cons]
          push_cast
          ring

/-- The value of an exponent by its sign. -/
def signed_value (negative : Bool) (digits : List (Fin 10)) : Int :=
  if negative then -decValue digits else decValue digits

theorem short_value {digits : List (Fin 10)} (hne : digits ≠ []) (hshort : Short 0 digits) : decValue digits ≤ 1289 := by
  have hle := hshort hne
  rw [Nat.zero_mul, Nat.zero_add] at hle
  have hvalue := decValue_concat digits.dropLast (digits.getLast hne)
  rw [List.dropLast_concat_getLast] at hvalue
  omega

/-- What follows the sign of an exponent. -/
theorem exponent_reads (negative : Bool) (s : List Byte) :
    Safely (if s = [] then fail else do
        let exponent ← exponent_loop s 0
        if negative then do
          note (.signed (-exponent))
          pure (-exponent)
        else pure exponent)
      (if s = [] then none else (parse_exponent s 0).map fun exponent => if negative then -exponent else exponent) id ∧
    ∀ v, (if s = [] then none else
        (parse_exponent s 0).map fun exponent => if negative then -exponent else exponent) = some v ↔
      ∃ digits, digits ≠ [] ∧ s = digitText digits ∧ Short 0 digits ∧ v = signed_value negative digits := by
  by_cases hnil : s = []
  · rw [if_pos hnil, if_pos hnil]
    refine ⟨safely_fail, fun v => ⟨fun h => (by cases h), ?_⟩⟩
    rintro ⟨digits, hne, rfl, _⟩
    exact absurd (List.map_eq_nil_iff.mp hnil) hne
  · obtain ⟨hsafe, hreads⟩ := parse_exponent_reads s 0 (by decide)
    rw [if_neg hnil, if_neg hnil]
    change Safely (exponent_loop s 0) (parse_exponent s 0) id at hsafe
    change ∀ v, parse_exponent s 0 = some v ↔ _ at hreads
    cases hparse : parse_exponent s 0 with
    | none =>
      rw [hparse] at hsafe hreads
      refine ⟨hsafe.bind_none, fun v => ⟨fun h => (by cases h), ?_⟩⟩
      rintro ⟨digits, _, hs, hshort, _⟩
      have hnone := (hreads _).mpr ⟨digits, hs, hshort, rfl⟩
      cases hnone
    | some exponent =>
      rw [hparse] at hsafe hreads
      obtain ⟨digits, hs, hshort, hvalue⟩ := (hreads exponent).mp rfl
      rw [Nat.zero_mul, Nat.zero_add] at hvalue
      have hne : digits ≠ [] := by
        rintro rfl
        exact hnil hs
      have hsmall := short_value hne hshort
      refine ⟨hsafe.quiet_bind ?_, fun v => ?_⟩
      · cases negative with
        | false => exact safely_pure exponent
        | true =>
          refine (safely_note ?_).quiet_bind (safely_pure (-exponent))
          change _ ∧ _
          omega
      · rw [Option.map_some, Option.some.injEq]
        constructor
        · rintro rfl
          refine ⟨digits, hne, hs, hshort, ?_⟩
          rw [hvalue, signed_value]
        · rintro ⟨digits', _, hs', hshort', rfl⟩
          have hsame := Option.some.inj ((hreads _).mpr ⟨digits', hs', hshort', rfl⟩)
          rw [Nat.zero_mul, Nat.zero_add] at hsame
          rw [hsame, signed_value]

/-- A sign is not a digit. -/
theorem sign_unique {sign other : Sign} {u : List Byte} {digits : List (Fin 10)}
    (h : sign.text ++ u = other.text ++ digitText digits) (hne : digits ≠ []) (hsign : sign ≠ .absent) :
    other = sign := by
  cases digits with
  | nil => exact absurd rfl hne
  | cons d digits =>
    obtain ⟨hplus, hminus⟩ : digitChar d ≠ 0x2b ∧ digitChar d ≠ 0x2d := by
      clear h hne
      revert d
      decide
    cases sign with
    | absent => exact absurd rfl hsign
    | plus =>
      cases other with
      | absent => exact absurd (List.cons.inj h).1.symm hplus
      | plus => rfl
      | minus => cases h
    | minus =>
      cases other with
      | absent => exact absurd (List.cons.inj h).1.symm hminus
      | plus => cases h
      | minus => rfl

/-- What `parse_scale` accepts after a mantissa, and that nothing overflows in
it. -/
theorem parse_scale_reads {s : List Byte} (h : AtMark s) :
    Safely (scale_part s) (parse_scale s) id ∧
      ∀ v, parse_scale s = some v ↔ (s = [] ∧ v = 0) ∨
        ∃ e : Exponent, s = e.text ∧ Short 0 e.digits ∧ v = e.value := by
  obtain rfl | ⟨c, t, rfl, hc⟩ := h
  · refine ⟨safely_pure 0, fun v => ⟨?_, ?_⟩⟩
    · intro h
      cases h
      exact .inl ⟨rfl, rfl⟩
    · rintro (⟨_, rfl⟩ | ⟨e, htext, _⟩)
      · rfl
      · cases htext
  · have hmark (e : Exponent) : (c :: t = e.text) → t = e.sign.text ++ digitText e.digits := by
      intro hs
      exact (List.cons.inj hs).2
    have hback {sign : Sign} {digits : List (Fin 10)} (hne : digits ≠ []) (ht : t = sign.text ++ digitText digits) :
        ∃ e : Exponent, c :: t = e.text ∧ e.sign = sign ∧ e.digits = digits := by
      refine ⟨⟨c == 0x45, sign, digits, hne⟩, ?_, rfl, rfl⟩
      rw [ht, Exponent.text, Exponent.mark]
      obtain rfl | rfl := hc <;> rfl
    have hiff (sign : Sign) (u : List Byte) (hu : t = sign.text ++ u)
        (honly : ∀ other digits, t = Sign.text other ++ digitText digits → digits ≠ [] → other = sign) (v : Int) :
        (∃ digits, digits ≠ [] ∧ u = digitText digits ∧ Short 0 digits ∧ v = signed_value (sign == .minus) digits) ↔
          (c :: t = [] ∧ v = 0) ∨ ∃ e : Exponent, c :: t = e.text ∧ Short 0 e.digits ∧ v = e.value := by
      constructor
      · rintro ⟨digits, hne, rfl, hshort, rfl⟩
        obtain ⟨e, htext, hsign, rfl⟩ := hback hne hu
        refine .inr ⟨e, htext, hshort, ?_⟩
        rw [Exponent.value, signed_value, hsign]
        simp
      · rintro (⟨hnil, _⟩ | ⟨e, htext, hshort, rfl⟩)
        · cases hnil
        · have ht := hmark e htext
          have hsign := honly e.sign e.digits ht e.nonempty
          rw [hu, hsign] at ht
          refine ⟨e.digits, e.nonempty, List.append_cancel_left ht, hshort, ?_⟩
          rw [Exponent.value, signed_value, hsign]
          simp
    by_cases hminus : ∃ u, t = 0x2d :: u
    · obtain ⟨u, rfl⟩ := hminus
      obtain ⟨hsafe, hreads⟩ := exponent_reads true u
      refine ⟨hsafe, fun v => (hreads v).trans (hiff .minus u rfl ?_ v)⟩
      exact fun other digits ht hne => sign_unique ht hne (by decide : Sign.minus ≠ .absent)
    · by_cases hplus : ∃ u, t = 0x2b :: u
      · obtain ⟨u, rfl⟩ := hplus
        obtain ⟨hsafe, hreads⟩ := exponent_reads false u
        refine ⟨hsafe, fun v => (hreads v).trans (hiff .plus u rfl ?_ v)⟩
        exact fun other digits ht hne => sign_unique ht hne (by decide : Sign.plus ≠ .absent)
      · obtain ⟨hsafe, hreads⟩ := exponent_reads false t
        have hscale : scale_part (c :: t) = (if t = [] then fail else do
            let exponent ← exponent_loop t 0
            if false = true then do
              note (.signed (-exponent))
              pure (-exponent)
            else pure exponent) ∧ parse_scale (c :: t) = (if t = [] then none else
              (parse_exponent t 0).map fun exponent => if false = true then -exponent else exponent) := by
          cases t with
          | nil => exact ⟨rfl, rfl⟩
          | cons x u =>
            have hx1 : ¬x = 0x2d := fun hx => hminus ⟨u, by rw [hx]⟩
            have hx2 : ¬x = 0x2b := fun hx => hplus ⟨u, by rw [hx]⟩
            constructor
            · rw [scale_part, if_neg hx1, if_neg hx2]
            · rw [parse_scale, if_neg hx1, if_neg hx2]
        rw [hscale.1, hscale.2]
        refine ⟨hsafe, fun v => (hreads v).trans (hiff .absent t rfl ?_ v)⟩
        intro other digits ht _
        cases other with
        | absent => rfl
        | plus => exact absurd ⟨_, ht⟩ hplus
        | minus => exact absurd ⟨_, ht⟩ hminus

/-- The limits that the firmware puts on a difficulty. -/
structure Accepted (n : Numeral) : Prop where
  length : n.text.length ≤ 80
  digits : n.mantissa.length ≤ 64
  nonzero : ∃ d ∈ n.mantissa, d ≠ 0
  exponent : ∀ e, n.exponent = some e → decValue e.digits.dropLast ≤ 128
  power : -128 ≤ n.power ∧ n.power ≤ 128

/-- The mantissa and the exponent that `bitcoin_target` reads from a numeral. -/
structure ReadAs (n : Numeral) (m : Mantissa) (scale : Int) : Prop where
  bounded : Bounded m
  value : leValue m.denominator = decValue n.mantissa
  digits_eq : m.digits = n.mantissa.length
  fractional_eq : m.fractional = n.places.length
  scale_eq : scale = n.scale
  nonzero : 0 < decValue n.mantissa
  exponent : ∀ e, n.exponent = some e → decValue e.digits.dropLast ≤ 128

def Mantissa.start : Mantissa := ⟨big.zero, 0, 0, false, false⟩

theorem start_bounded : Bounded Mantissa.start := by
  refine ⟨rfl, by decide, by decide, ?_⟩
  rw [Mantissa.start, big.zero, leValue_replicate_zero]
  decide

theorem start_value : leValue Mantissa.start.denominator = 0 := leValue_replicate_zero 32

theorem short_zero {digits : List (Fin 10)} (hne : digits ≠ []) : Short 0 digits ↔ decValue digits.dropLast ≤ 128 := by
  simp [Short, hne]

theorem any_nonzero (digits : List (Fin 10)) : digits.any (· != 0) = true ↔ 0 < decValue digits := by
  rw [decValue_pos_iff]
  simp

theorem scale_text_eq (n : Numeral) : n.scale_text = n.exponent.elim [] Exponent.text := by
  rw [Numeral.scale_text]
  cases n.exponent <;> rfl

theorem scale_eq_elim (n : Numeral) : n.scale = n.exponent.elim 0 Exponent.value := by
  rw [Numeral.scale]
  cases n.exponent <;> rfl

/-- A text that passes the checks is a numeral. -/
theorem reads_numeral {s rest : List Byte} {m : Mantissa} {scale : Int} (hm : Bounded m)
    (hreads : Reads s Mantissa.start m rest) (hrest : AtMark rest) (hnonzero : m.nonzero = true)
    (hpoint : ¬(m.point = true ∧ m.fractional = 0)) (hscale : parse_scale rest = some scale) :
    ∃ n : Numeral, n.text = s ∧ ReadAs n m scale := by
  have hexponent : ∃ exponent : Option Exponent, rest = exponent.elim [] Exponent.text ∧
      scale = exponent.elim 0 Exponent.value ∧
      ∀ e, exponent = some e → decValue e.digits.dropLast ≤ 128 := by
    obtain ⟨rfl, rfl⟩ | ⟨e, htext, hshort, rfl⟩ := ((parse_scale_reads hrest).2 scale).mp hscale
    · exact ⟨none, rfl, rfl, fun e he => by cases he⟩
    · refine ⟨some e, htext, rfl, fun e' he => ?_⟩
      cases he
      exact (short_zero e.nonempty).mp hshort
  obtain ⟨exponent, htext, hvalue, hshort⟩ := hexponent
  obtain ⟨whole, ⟨hs, hfeeds⟩ | ⟨middle, places, hs, hwhole, hnone, hdigits, hplaces⟩⟩ := hreads
  · have hpos : 0 < decValue whole := by
      rw [hfeeds.nonzero_eq] at hnonzero
      exact (any_nonzero whole).mp hnonzero
    have hne : whole ≠ [] := by
      rintro rfl
      exact absurd hpos (by decide)
    refine ⟨⟨whole, none, exponent, hne, fun _ h => by cases h⟩, ?_, hm, ?_, ?_, hfeeds.fractional_eq,
      ?_, ?_, hshort⟩
    · rw [hs, htext, Numeral.text, Numeral.fraction_text, List.append_nil, scale_text_eq]
    · rw [hfeeds.value, start_value, Nat.zero_mul, Nat.zero_add, Numeral.mantissa, Numeral.places, Option.getD_none,
        List.append_nil]
    · rw [hfeeds.digits_eq, Numeral.mantissa, Numeral.places, Option.getD_none, List.append_nil]
      exact Nat.zero_add _
    · rw [hvalue, scale_eq_elim]
    · rwa [Numeral.mantissa, Numeral.places, Option.getD_none, List.append_nil]
  · have hwlen : middle.digits = whole.length := by
      rw [hwhole.digits_eq]
      exact Nat.zero_add _
    have hne : whole ≠ [] := by
      rintro rfl
      exact hdigits hwlen
    have hfractional : m.fractional = places.length := by
      rw [hplaces.fractional_eq, hwhole.fractional_eq]
      simp [Mantissa.start]
    have hpne : places ≠ [] := by
      rintro rfl
      exact hpoint ⟨hplaces.point_eq, hfractional⟩
    have hmantissa : leValue m.denominator = decValue (whole ++ places) := by
      rw [hplaces.value, hwhole.value, start_value, decValue_append]
      ring
    refine ⟨⟨whole, some places, exponent, hne, fun _ h => by cases h; exact hpne⟩, ?_, hm, hmantissa, ?_, hfractional,
      ?_, ?_, hshort⟩
    · rw [hs, htext, Numeral.text, scale_text_eq]
      rfl
    · rw [hplaces.digits_eq, hwlen, Numeral.mantissa, List.length_append]
      rfl
    · rw [hvalue, scale_eq_elim]
    · rw [hplaces.nonzero_eq, hwhole.nonzero_eq] at hnonzero
      refine (any_nonzero (whole ++ places)).mp ?_
      rw [List.any_append]
      exact hnonzero

theorem scale_text_atMark (n : Numeral) : AtMark n.scale_text := by
  rw [Numeral.scale_text]
  cases n.exponent with
  | none => exact .inl rfl
  | some e =>
    refine .inr ⟨e.mark, _, rfl, ?_⟩
    rw [Exponent.mark]
    cases e.capital with
    | false => exact .inl rfl
    | true => exact .inr rfl

/-- A numeral within the limits passes the checks. -/
theorem numeral_reads {n : Numeral} (h : Accepted n) :
    ∃ m, parse_mantissa n.text Mantissa.start = some (m, n.scale_text) ∧ m.nonzero = true ∧
      ¬(m.point = true ∧ m.fractional = 0) ∧ parse_scale n.scale_text = some n.scale ∧ ReadAs n m n.scale := by
  have hscale : parse_scale n.scale_text = some n.scale := by
    refine ((parse_scale_reads (scale_text_atMark n)).2 n.scale).mpr ?_
    rw [Numeral.scale_text, Numeral.scale]
    cases he : n.exponent with
    | none => exact .inl ⟨rfl, rfl⟩
    | some e => exact .inr ⟨e, rfl, (short_zero e.nonempty).mpr (h.exponent e he), rfl⟩
  have hpos : 0 < decValue n.mantissa := (decValue_pos_iff n.mantissa).mpr h.nonzero
  have hlen := h.digits
  have hany := (any_nonzero n.mantissa).mpr hpos
  rw [Numeral.mantissa, List.length_append] at hlen
  rw [Numeral.mantissa, List.any_append] at hany
  obtain ⟨middle, hmiddle, hwhole, hparse⟩ := parse_mantissa_digits start_bounded n.whole
    (by change 0 + _ ≤ _; omega) (n.fraction_text ++ n.scale_text)
  have hwlen : middle.digits = n.whole.length := by
    rw [hwhole.digits_eq]
    exact Nat.zero_add _
  have hnone : middle.point = false := hwhole.point_eq
  have hfractional : middle.fractional = 0 := hwhole.fractional_eq
  rw [Numeral.text, List.append_assoc, hparse, Numeral.fraction_text]
  rw [Numeral.places] at hlen hany
  cases hf : n.fraction with
  | none =>
    rw [hf, Option.getD_none] at hany
    have hplaces : n.places = [] := by rw [Numeral.places, hf, Option.getD_none]
    refine ⟨middle, parse_mantissa_mark (scale_text_atMark n) middle, ?_, ?_, hscale, hmiddle, ?_, ?_, ?_, rfl, hpos,
      h.exponent⟩
    · rw [hwhole.nonzero_eq]
      simpa [Mantissa.start] using hany
    · rw [hnone]
      simp
    · rw [hwhole.value, start_value, Nat.zero_mul, Nat.zero_add, Numeral.mantissa, hplaces, List.append_nil]
    · rw [hwlen, Numeral.mantissa, hplaces, List.append_nil]
    · rw [hfractional, hplaces]
      rfl
  | some digits =>
    have hplaces : n.places = digits := by rw [Numeral.places, hf, Option.getD_some]
    rw [hf, Option.getD_some] at hlen hany
    have hpoint : Bounded { middle with point := true } :=
      ⟨hmiddle.length, hmiddle.digits_le, hmiddle.fractional_le, hmiddle.value_lt⟩
    obtain ⟨m, hm, hfeeds, hrest⟩ := parse_mantissa_digits hpoint digits
      (by change middle.digits + _ ≤ _; omega) n.scale_text
    have hcount : m.fractional = digits.length := by
      rw [hfeeds.fractional_eq]
      change middle.fractional + digits.length = _
      rw [hfractional, Nat.zero_add]
    have hfirst : ¬(middle.point || middle.digits == 0) = true := by
      have hne : ¬middle.digits = 0 := by
        rw [hwlen]
        exact fun hnil => n.whole_nonempty (List.length_eq_zero_iff.mp hnil)
      simp [hnone, hne]
    refine ⟨m, ?_, ?_, ?_, hscale, hm, ?_, ?_, ?_, rfl, hpos, h.exponent⟩
    · rw [← parse_mantissa_mark (scale_text_atMark n) m, ← hrest]
      change parse_mantissa (0x2e :: (digitText digits ++ n.scale_text)) middle = _
      rw [parse_mantissa, if_neg (by decide), if_pos rfl, if_neg hfirst]
    · rw [hfeeds.nonzero_eq, hwhole.nonzero_eq]
      simpa [Mantissa.start] using hany
    · rintro ⟨_, hzero⟩
      rw [hcount] at hzero
      exact n.fraction_nonempty digits hf (List.length_eq_zero_iff.mp hzero)
    · rw [hfeeds.value]
      change leValue middle.denominator * _ + _ = _
      rw [hwhole.value, start_value, Nat.zero_mul, Nat.zero_add, Numeral.mantissa, hplaces, decValue_append]
    · rw [hfeeds.digits_eq]
      change middle.digits + _ = _
      rw [hwlen, Numeral.mantissa, hplaces, List.length_append]
    · rw [hcount, hplaces]

theorem multiply10_call_safely {a : big} {add : Nat} (h : leValue a * 10 + add < 2 ^ (32 * a.length)) :
    Safely (multiply10_call a add) (multiply10 a add) id := by
  have hcarry := multiply10_limbs_carry h
  rw [multiply10_call, multiply10]
  generalize multiply10_limbs a add = r at *
  obtain ⟨product, carry⟩ := r
  obtain rfl : carry = 0 := hcarry
  exact (safely_note (n := .carry_out 0) rfl).quiet_bind (safely_pure product)

theorem multiply10_loop_safely {a : big} {n : Nat} (h : leValue a * 10 ^ n < 2 ^ (32 * a.length)) :
    Safely (multiply10_loop a n) (multiply10_times a n) id := by
  induction n generalizing a with
  | zero => exact safely_pure a
  | succ n ih =>
    have hpow : leValue a * 10 ^ (n + 1) = leValue a * 10 * 10 ^ n := by ring
    have hone : leValue a * 10 ≤ leValue a * 10 * 10 ^ n := Nat.le_mul_of_pos_right _ (by positivity)
    have hfits : leValue a * 10 + 0 < 2 ^ (32 * a.length) := by omega
    obtain ⟨next, hnext, hlen, hvalue⟩ := multiply10_spec hfits
    have hcall := multiply10_call_safely hfits
    rw [hnext] at hcall
    rw [multiply10_loop, multiply10_times, hnext]
    refine hcall.quiet_bind (ih ?_)
    rw [hlen, hvalue, Nat.add_zero, ← hpow]
    exact h

theorem divide_loop_safely {numerator denominator : big} (hdenominator : denominator.length = 32)
    (hpos : 0 < leValue denominator) (hfits : leValue denominator < 2 ^ 1023) {k : Nat} {d : Division}
    (h : Divided numerator denominator k d) :
    Safely (divide_loop numerator denominator k d) (some (divide numerator denominator k d)) id := by
  induction k generalizing d with
  | zero => exact safely_pure d
  | succ k ih =>
    refine (safely_note ?_).quiet_bind (ih (divide_bit_divided hdenominator hpos hfits h))
    exact (h.shift hpos hfits).1

/-- The target of difficulty one. -/
def difficulty_one : big := big.zero.set 6 0xffff0000

theorem difficulty_one_value : leValue difficulty_one = 0xffff * 2 ^ 208 := by decide

/-- The target of a difficulty: the quotient rounded down, at most 256 bits. -/
def target_of (value : ℚ) : Nat := min ⌊(0xffff * 2 ^ 208 : ℚ) / value⌋₊ (2 ^ 256 - 1)

theorem quotient_eq (mantissa : Nat) (power : Int) :
    leValue difficulty_one * 10 ^ (-power).toNat / (mantissa * 10 ^ power.toNat) =
      ⌊(0xffff * 2 ^ 208 : ℚ) / (mantissa * 10 ^ power)⌋₊ := by
  have hone : ((leValue difficulty_one : Nat) : ℚ) = 0xffff * 2 ^ 208 := by
    rw [difficulty_one_value]
    norm_num
  rw [← hone, ← Nat.floor_div_eq_div (K := ℚ)]
  generalize leValue difficulty_one = one
  congr 1
  push_cast
  obtain ⟨k, rfl | rfl⟩ := power.eq_nat_or_neg
  · simp
  · by_cases hm : (mantissa : ℚ) = 0
    · simp [hm]
    · simp only [neg_neg, Int.toNat_natCast, Int.toNat_neg_natCast, pow_zero, mul_one, zpow_neg, zpow_natCast]
      field_simp

/-- The division of `bitcoin_target` for a numeral that passed the checks. -/
structure Scaled (n : Numeral) (m : Mantissa) (denominator numerator : big) : Prop where
  denominator_eq : multiply10_times m.denominator n.power.toNat = some denominator
  numerator_eq : multiply10_times difficulty_one (-n.power).toNat = some numerator
  denominator_safely : Safely (multiply10_loop m.denominator n.power.toNat) (some denominator) id
  numerator_safely : Safely (multiply10_loop difficulty_one (-n.power).toNat) (some numerator) id
  numerator_length : numerator.length = 32
  denominator_length : denominator.length = 32
  denominator_pos : 0 < leValue denominator
  denominator_lt : leValue denominator < 2 ^ 1023
  quotient : leValue numerator / leValue denominator = ⌊(0xffff * 2 ^ 208 : ℚ) / n.value⌋₊

theorem ReadAs.scaled {n : Numeral} {m : Mantissa} {scale : Int} (h : ReadAs n m scale)
    (hlow : -128 ≤ n.power) (hhigh : n.power ≤ 128) : ∃ denominator numerator, Scaled n m denominator numerator := by
  have hden : leValue m.denominator * 10 ^ n.power.toNat < 2 ^ 768 := calc
    leValue m.denominator * 10 ^ n.power.toNat < 10 ^ m.digits * 10 ^ n.power.toNat :=
      Nat.mul_lt_mul_of_pos_right h.bounded.value_lt (by positivity)
    _ = 10 ^ (m.digits + n.power.toNat) := (Nat.pow_add _ _ _).symm
    _ ≤ 2 ^ 768 := ten_pow_le (by have := h.bounded.digits_le; omega)
  have hnum : leValue difficulty_one * 10 ^ (-n.power).toNat < 2 ^ (224 + 512) := calc
    leValue difficulty_one * 10 ^ (-n.power).toNat < 2 ^ 224 * 10 ^ (-n.power).toNat := by
      refine Nat.mul_lt_mul_of_pos_right ?_ (by positivity)
      rw [difficulty_one_value]
      decide
    _ ≤ 2 ^ 224 * 2 ^ 512 := Nat.mul_le_mul_left _ (ten_pow_le (by omega))
    _ = 2 ^ (224 + 512) := by rw [Nat.pow_add]
  have hdfits : leValue m.denominator * 10 ^ n.power.toNat < 2 ^ (32 * m.denominator.length) :=
    Nat.lt_of_lt_of_le hden (Nat.pow_le_pow_right (by decide) (by rw [h.bounded.length]; decide))
  have hnfits : leValue difficulty_one * 10 ^ (-n.power).toNat < 2 ^ (32 * difficulty_one.length) :=
    Nat.lt_of_lt_of_le hnum (Nat.pow_le_pow_right (by decide) (by decide))
  obtain ⟨denominator, hdtimes, hdlen, hdvalue⟩ := multiply10_times_spec hdfits
  obtain ⟨numerator, hntimes, hnlen, hnvalue⟩ := multiply10_times_spec hnfits
  refine ⟨denominator, numerator, hdtimes, hntimes, ?_, ?_, hnlen.trans (by decide), hdlen.trans h.bounded.length,
    ?_, ?_, ?_⟩
  · rw [← hdtimes]
    exact multiply10_loop_safely hdfits
  · rw [← hntimes]
    exact multiply10_loop_safely hnfits
  · rw [hdvalue, h.value]
    exact Nat.mul_pos h.nonzero (by positivity)
  · rw [hdvalue]
    exact Nat.lt_of_lt_of_le hden (Nat.pow_le_pow_right (by decide) (by decide))
  · rw [hdvalue, hnvalue, h.value, quotient_eq, Numeral.value]

/-- The array that the division leaves. -/
def Division.words (d : Division) : Vector Word 8 :=
  if d.overflow then Vector.replicate 8 0xffffffff else Vector.ofFn fun i => d.out.getD i 0

theorem fill_safely {numerator denominator : big} (hdenominator : denominator.length = 32)
    (hpos : 0 < leValue denominator) (hfits : leValue denominator < 2 ^ 1023) {bits : Nat} {start : Division}
    (h : Divided numerator denominator bits start) :
    Safely (fill numerator denominator bits start) (some ()) fun _ =>
      (divide numerator denominator bits start).words.toList := by
  have hloop := divide_loop_safely hdenominator hpos hfits h
  have hdivided := divide_divided hdenominator hpos hfits h
  generalize divide numerator denominator bits start = d at *
  have hlast : Safely (if d.overflow then store (List.replicate 8 0xffffffff) else pure ()) (some ())
      fun out => if d.overflow then List.replicate 8 0xffffffff else out := by
    cases d.overflow with
    | false => exact safely_pure ()
    | true => exact safely_store _
  have hlist : (if d.overflow then List.replicate 8 0xffffffff else d.out) = d.words.toList := by
    rw [Division.words]
    split
    · rfl
    · refine List.ext_getElem ?_ fun i hi _ => ?_
      · rw [hdivided.out_length, Vector.length_toList]
      · simp [hi]
  have hall : Safely (fill numerator denominator bits start) (some ()) _ :=
    (safely_store start.out).bind (hloop.bind ((safely_store d.out).bind hlast))
  intro mem
  obtain ⟨notes, hnotes, hmem⟩ := hall mem
  refine ⟨notes, hnotes, hmem.trans ?_⟩
  rw [← hlist]
  rfl

theorem Scaled.start {n : Numeral} {m : Mantissa} {denominator numerator : big}
    (h : Scaled n m denominator numerator) : Divided numerator denominator 1024 Division.start :=
  divided_start h.numerator_length

theorem Scaled.words {n : Numeral} {m : Mantissa} {denominator numerator : big} (h : Scaled n m denominator numerator)
    {d : Division} (hdivided : Divided numerator denominator 0 d) : d.words = target_words (target_of n.value) := by
  have hout := divided_out hdivided
  rw [h.quotient] at hout
  exact hout

/-- The limits on the power of ten. -/
theorem power_check (power : Int) : (power > 128 || power < -128) = true ↔ ¬(-128 ≤ power ∧ power ≤ 128) := by
  simp only [Bool.or_eq_true, decide_eq_true_eq]
  omega

/-- The part of `bitcoin_target` after its checks on the mantissa. -/
theorem bitcoin_target_checked {s rest : List Byte} {m : Mantissa} {scale : Int} {n : Numeral}
    (hlength : ¬(s.length = 0 || s.length > 80) = true) (hparse : parse_mantissa s Mantissa.start = some (m, rest))
    (hchecks : ¬(!m.nonzero || (m.point && m.fractional == 0)) = true) (hscale : parse_scale rest = some scale)
    (hread : ReadAs n m scale) :
    bitcoin_target s =
      if -128 ≤ n.power ∧ n.power ≤ 128 then some (target_words (target_of n.value)) else none := by
  have hpower : scale - m.fractional = n.power := by
    rw [hread.fractional_eq, hread.scale_eq]
    rfl
  rw [Mantissa.start] at hparse
  simp only [bitcoin_target, if_neg hlength, hparse, if_neg hchecks, hscale, hpower]
  by_cases hrange : -128 ≤ n.power ∧ n.power ≤ 128
  · obtain ⟨denominator, numerator, hscaled⟩ := hread.scaled hrange.1 hrange.2
    have hnumerator := hscaled.numerator_eq
    rw [difficulty_one] at hnumerator
    rw [if_neg fun h => (power_check n.power).mp h hrange, if_pos hrange, hscaled.denominator_eq, hnumerator]
    dsimp only
    have hdivided := divide_divided hscaled.denominator_length hscaled.denominator_pos hscaled.denominator_lt
      hscaled.start
    rw [Division.start] at hdivided
    generalize divide numerator denominator 1024 ⟨big.zero, List.replicate 8 0, false⟩ = d at *
    rw [← hscaled.words hdivided]
    rfl
  · rw [if_pos ((power_check n.power).mpr hrange), if_neg hrange]

theorem ReadAs.scale_bound {n : Numeral} {m : Mantissa} {scale : Int} (h : ReadAs n m scale) :
    -1289 ≤ scale ∧ scale ≤ 1289 := by
  rw [h.scale_eq, Numeral.scale]
  cases he : n.exponent with
  | none => decide
  | some e =>
    have hle := short_value e.nonempty ((short_zero e.nonempty).mpr (h.exponent e he))
    simp only [Exponent.value]
    split <;> omega

theorem safely_none {α : Type} {x : Exec Unit} {t : Option α} {f : α → List Word} (ht : t = none)
    (hx : Safely x none id) : Safely x (t.map fun _ => ()) fun out => (t.map f).getD out := by
  rw [ht]
  exact hx

theorem ReadAs.divide_part {n : Numeral} {m : Mantissa} {scale : Int} (h : ReadAs n m scale) :
    (-128 ≤ n.power ∧ n.power ≤ 128 → Safely (divide_part m.denominator (scale - m.fractional)) (some ()) fun _ =>
      (target_words (target_of n.value)).toList) ∧
    (¬(-128 ≤ n.power ∧ n.power ≤ 128) → Safely (divide_part m.denominator (scale - m.fractional)) none id) := by
  have hbound := h.scale_bound
  have hfractional : m.fractional ≤ 64 := Nat.le_trans h.bounded.fractional_le h.bounded.digits_le
  have hpower : scale - m.fractional = n.power := by
    rw [h.fractional_eq, h.scale_eq]
    rfl
  rw [hpower, bitcoin.divide_part]
  have hnote : (Note.signed n.power).Safe := by
    rw [← hpower]
    change _ ∧ _
    omega
  constructor
  · intro hrange
    obtain ⟨denominator, numerator, hscaled⟩ := h.scaled hrange.1 hrange.2
    refine (safely_note hnote).quiet_bind ?_
    rw [if_neg fun h => (power_check n.power).mp h hrange]
    refine hscaled.denominator_safely.quiet_bind ((safely_note ?_).quiet_bind ?_)
    · change _ ∧ _
      omega
    · refine hscaled.numerator_safely.quiet_bind ?_
      have hdivided := divide_divided hscaled.denominator_length hscaled.denominator_pos hscaled.denominator_lt
        hscaled.start
      rw [← hscaled.words hdivided]
      exact fill_safely hscaled.denominator_length hscaled.denominator_pos hscaled.denominator_lt hscaled.start
  · intro hrange
    refine (safely_note hnote).quiet_bind ?_
    rw [if_pos ((power_check n.power).mpr hrange)]
    exact safely_fail

/-- Nothing overflows, and the array is changed only by a call that succeeds,
which is given a numeral within the limits. -/
theorem bitcoin_target_body_safely (s : List Byte) :
    (Safely (bitcoin_target_body s) ((bitcoin_target s).map fun _ => ()) fun out =>
      ((bitcoin_target s).map Vector.toList).getD out) ∧
    (bitcoin_target s ≠ none → ∃ n : Numeral, n.text = s ∧ Accepted n) := by
  by_cases hlength : (s.length = 0 || s.length > 80) = true
  · have hnone : bitcoin_target s = none := by rw [bitcoin_target, if_pos hlength]
    rw [bitcoin_target_body, if_pos hlength]
    exact ⟨safely_none hnone safely_fail, fun h => absurd hnone h⟩
  obtain ⟨hsafe, hreads⟩ := parse_mantissa_reads s start_bounded
  rw [bitcoin_target_body, if_neg hlength]
  cases hparse : parse_mantissa s Mantissa.start with
  | none =>
    have hnone : bitcoin_target s = none := by
      rw [Mantissa.start] at hparse
      rw [bitcoin_target, if_neg hlength, hparse]
    rw [hparse] at hsafe
    exact ⟨safely_none hnone hsafe.bind_none, fun h => absurd hnone h⟩
  | some r =>
    obtain ⟨m, rest⟩ := r
    obtain ⟨hm, hrest, hread⟩ := hreads m rest hparse
    rw [hparse] at hsafe
    by_cases hchecks : (!m.nonzero || (m.point && m.fractional == 0)) = true
    · have hnone : bitcoin_target s = none := by
        rw [Mantissa.start] at hparse
        simp only [bitcoin_target, if_neg hlength, hparse, if_pos hchecks]
      refine ⟨safely_none hnone (hsafe.quiet_bind ?_), fun h => absurd hnone h⟩
      rw [if_pos hchecks]
      exact safely_fail
    obtain ⟨hscale_safe, _⟩ := parse_scale_reads hrest
    cases hscale : parse_scale rest with
    | none =>
      have hnone : bitcoin_target s = none := by
        rw [Mantissa.start] at hparse
        simp only [bitcoin_target, if_neg hlength, hparse, if_neg hchecks, hscale]
      rw [hscale] at hscale_safe
      refine ⟨safely_none hnone (hsafe.quiet_bind ?_), fun h => absurd hnone h⟩
      rw [if_neg hchecks]
      exact hscale_safe.bind_none
    | some scale =>
      rw [hscale] at hscale_safe
      have hchecked := hchecks
      simp only [Bool.or_eq_true, Bool.not_eq_true', Bool.and_eq_true, beq_iff_eq, not_or, Bool.not_eq_false]
        at hchecked
      obtain ⟨n, htext, hn⟩ := reads_numeral hm hread hrest hchecked.1 hchecked.2 hscale
      have htarget := bitcoin_target_checked hlength hparse hchecks hscale hn
      by_cases hrange : -128 ≤ n.power ∧ n.power ≤ 128
      · rw [if_pos hrange] at htarget
        refine ⟨?_, fun _ => ⟨n, htext, ?_⟩⟩
        · rw [htarget]
          refine hsafe.quiet_bind ?_
          rw [if_neg hchecks]
          exact hscale_safe.quiet_bind (hn.divide_part.1 hrange)
        · rw [← htext] at hlength
          simp only [Bool.or_eq_true, decide_eq_true_eq, not_or, Nat.not_lt] at hlength
          refine ⟨hlength.2, ?_, (decValue_pos_iff n.mantissa).mp hn.nonzero, hn.exponent, hrange⟩
          rw [← hn.digits_eq]
          exact hm.digits_le
      · rw [if_neg hrange] at htarget
        refine ⟨safely_none htarget (hsafe.quiet_bind ?_), fun h => absurd htarget h⟩
        rw [if_neg hchecks]
        exact hscale_safe.quiet_bind (hn.divide_part.2 hrange)

theorem bitcoin_target_numeral {n : Numeral} (h : Accepted n) :
    bitcoin_target n.text = some (target_words (target_of n.value)) := by
  obtain ⟨m, hparse, hnonzero, hpoint, hscale, hread⟩ := numeral_reads h
  have hlength : ¬(n.text.length = 0 || n.text.length > 80) = true := by
    have hne : n.text.length ≠ 0 := by
      have hwhole := List.length_pos_of_ne_nil n.whole_nonempty
      simp only [Numeral.text, List.length_append, digitText_length]
      omega
    have hle := h.length
    simp only [Bool.or_eq_true, decide_eq_true_eq, not_or, Nat.not_lt]
    exact ⟨hne, hle⟩
  have hchecks : ¬(!m.nonzero || (m.point && m.fractional == 0)) = true := by
    simpa [hnonzero] using hpoint
  rw [bitcoin_target_checked hlength hparse hchecks hscale hread, if_pos h.power]

/-- A call returns 0 exactly for the numerals within the limits; then the array
holds the target of their value, and otherwise it is unchanged. Nothing
overflows in any call. -/
theorem bitcoin_target_exact (s : List Byte) (out : List Word) :
    ((bitcoin_target_call s out).rc = 0 ↔ ∃ n : Numeral, n.text = s ∧ Accepted n) ∧
    (∀ n : Numeral, n.text = s → Accepted n →
      (bitcoin_target_call s out).out = (target_words (min ⌊(0xffff * 2 ^ 208 : ℚ) / n.value⌋₊ (2 ^ 256 - 1))).toList) ∧
    ((bitcoin_target_call s out).rc ≠ 0 → (bitcoin_target_call s out).out = out) ∧
    ∀ note ∈ (bitcoin_target_call s out).notes, note.Safe := by
  obtain ⟨hsafe, hnumeral⟩ := bitcoin_target_body_safely s
  obtain ⟨notes, hnotes, hbody⟩ := hsafe ⟨out, []⟩
  have haccepted (n : Numeral) (htext : n.text = s) (hn : Accepted n) :
      bitcoin_target s = some (target_words (target_of n.value)) := htext ▸ bitcoin_target_numeral hn
  cases htarget : bitcoin_target s with
  | none =>
    rw [htarget] at hbody
    have hcall : bitcoin_target_call s out = ⟨-1, out, notes⟩ := by
      rw [bitcoin_target_call, hbody]
      rfl
    have hrefused : ¬∃ n : Numeral, n.text = s ∧ Accepted n := by
      rintro ⟨n, htext, hn⟩
      rw [haccepted n htext hn] at htarget
      cases htarget
    rw [hcall]
    refine ⟨iff_of_false (fun h => by cases h) hrefused, ?_, fun _ => rfl, hnotes⟩
    exact fun n htext hn => absurd ⟨n, htext, hn⟩ hrefused
  | some words =>
    rw [htarget] at hbody
    have hcall : bitcoin_target_call s out = ⟨0, words.toList, notes⟩ := by
      rw [bitcoin_target_call, hbody]
      rfl
    rw [hcall]
    refine ⟨iff_of_true rfl (hnumeral (by rw [htarget]; simp)), ?_, fun h => absurd rfl h, hnotes⟩
    intro n htext hn
    rw [haccepted n htext hn, Option.some.injEq] at htarget
    rw [← htarget, target_of]

end scu35.bitcoin
