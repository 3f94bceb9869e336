import Scu35Miner.Rtl.Sha256Core.Rounds
import Scu35Miner.Software.Sha256

open fips180 clocked

namespace scu35.sha256_core_iterative

open dsp48e2_add32 sha256_sw

/-- Clock edges from the one that accepts a start to the one that raises
`done_o`. -/
def Params.latency (p : Params) : Nat := if p.FOUR_PHASE then 256 else 320

theorem Params.latency_eq (p : Params) : p.latency = 64 * p.phases := by
  cases h : p.FOUR_PHASE <;> simp [Params.latency, Params.phases, h]

/-- One edge of a compression before its last one, counting edges instead of
rounds and phases. No input is consulted. -/
theorem State.Computing.step_next {p : Params} {iv : Vector Word 8} {m : Vector Word 16} {s : State} {n : Nat}
    (h : s.Computing p iv m (n / p.phases) (n % p.phases)) (hn : n + 1 < p.latency) (i : Input) :
    (step p s i).Computing p iv m ((n + 1) / p.phases) ((n + 1) % p.phases) := by
  rw [p.latency_eq] at hn
  have hlt := h.phase_lt
  have hpos : 0 < p.phases := by omega
  have hsplit := Nat.div_add_mod n p.phases
  by_cases hlast : n % p.phases + 1 = p.phases
  · have hn1 : n + 1 = p.phases * (n / p.phases + 1) := by rw [Nat.mul_add]; omega
    have hdiv : (n + 1) / p.phases = n / p.phases + 1 := by rw [hn1, Nat.mul_div_cancel_left _ hpos]
    have hmod : (n + 1) % p.phases = 0 := by rw [hn1, Nat.mul_mod_right]
    have hround : n / p.phases + 1 < 64 := by
      apply Nat.lt_of_mul_lt_mul_left (a := p.phases)
      rw [← hn1]
      omega
    rw [hdiv, hmod]
    exact h.advance hlast hround i
  · have hn1 : n + 1 = n % p.phases + 1 + p.phases * (n / p.phases) := by omega
    have hsmall : n % p.phases + 1 < p.phases := by omega
    have hdiv : (n + 1) / p.phases = n / p.phases := by
      rw [hn1, Nat.add_mul_div_left _ _ hpos, Nat.div_eq_of_lt hsmall, Nat.zero_add]
    have hmod : (n + 1) % p.phases = n % p.phases + 1 := by
      rw [hn1, Nat.add_mul_mod_self_left, Nat.mod_eq_of_lt hsmall]
    rw [hdiv, hmod]
    exact h.next hsmall i

/-- The last edge of a compression. -/
theorem State.Computing.step_finish {p : Params} {iv : Vector Word 8} {m : Vector Word 16} {s : State} {n : Nat}
    (h : s.Computing p iv m (n / p.phases) (n % p.phases)) (hn : n + 1 = p.latency) (i : Input) :
    (step p s i).busy_q = false ∧ (step p s i).done_o = true ∧ (step p s i).digest_o = compress iv m := by
  rw [p.latency_eq] at hn
  have hpos : 0 < p.phases := Nat.zero_lt_of_lt h.phase_lt
  have hn63 : n = p.phases - 1 + p.phases * 63 := by omega
  have hdiv : n / p.phases = 63 := by
    rw [hn63, Nat.add_mul_div_left _ _ hpos, Nat.div_eq_of_lt (by omega)]
  have hmod : n % p.phases = p.phases - 1 := by
    rw [hn63, Nat.add_mul_mod_self_left, Nat.mod_eq_of_lt (by omega)]
  rw [hdiv, hmod] at h
  exact h.finish (by omega) i

theorem trace_computing (p : Params) {iv : Vector Word 8} {m : Vector Word 16} {s : State}
    (h : s.Computing p iv m 0 0) (ins : Nat → Input) {n : Nat} (hn : n < p.latency) :
    (trace (step p) s ins n).Computing p iv m (n / p.phases) (n % p.phases) := by
  induction n with
  | zero => simpa using h
  | succ n ih => exact (ih (by omega)).step_next hn _

theorem trace_finish (p : Params) {iv : Vector Word 8} {m : Vector Word 16} {s : State}
    (h : s.Computing p iv m 0 0) (ins : Nat → Input) :
    (trace (step p) s ins p.latency).busy_q = false ∧ (trace (step p) s ins p.latency).done_o = true ∧
      (trace (step p) s ins p.latency).digest_o = compress iv m := by
  obtain ⟨n, hn⟩ : ∃ n, p.latency = n + 1 := ⟨p.latency - 1, by unfold Params.latency; split <;> omega⟩
  rw [hn]
  exact (trace_computing p h ins (n := n) (by omega)).step_finish hn.symm _

/-- The big-endian bytes of a block of words are the block that the C
compression loads. -/
theorem sha256_compress_block (iv : Vector Word 8) (m : Vector Word 16) :
    sha256_compress iv (m.toList.flatMap store_be32) = compress iv m := by
  have hstore : store_be32 = wordBytes := funext store_be32_eq
  rw [sha256_compress_eq, hstore, blockWords_flatMap]

/-- With no accepted start the digest stays and `done_o` stays low. -/
theorem trace_idle (p : Params) {s : State} (hidle : s.busy_q = false) (ins : Nat → Input) (n : Nat)
    (hquiet : ∀ u, u ≤ n → (ins u).start_i = false) :
    (trace (step p) s ins (n + 1)).busy_q = false ∧ (trace (step p) s ins (n + 1)).done_o = false ∧
      (trace (step p) s ins (n + 1)).digest_o = s.digest_o := by
  induction n with
  | zero => simp [trace_succ, step, hidle, hquiet 0 (le_refl _)]
  | succ n ih =>
    obtain ⟨hbusy, _, hdigest⟩ := ih fun u hu => hquiet u (by omega)
    rw [trace_succ]
    simp [step, hbusy, hquiet (n + 1) (le_refl _), hdigest]

/-- A start accepted in any idle state delivers exactly one pulse, after 256
edges in the four-phase schedule and 320 in the five-phase one, together with
the C function's compression of the block and hash value presented with the
start. Neither the earlier register contents nor any later input matters. -/
theorem start_compresses (p : Params) (s : State) (ins : Nat → Input) (hidle : s.busy_o = false)
    (hstart : (ins 0).start_i = true) :
    (∀ t, 1 ≤ t → t ≤ p.latency →
      (trace (step p) s ins t).busy_o = true ∧ (trace (step p) s ins t).done_o = false) ∧
    (trace (step p) s ins (1 + p.latency)).busy_o = false ∧
    (trace (step p) s ins (1 + p.latency)).done_o = true ∧
    (trace (step p) s ins (1 + p.latency)).digest_o =
      sha256_compress (ins 0).h_i ((ins 0).block_i.toList.flatMap store_be32) ∧
    (trace (step p) s ins (2 + p.latency)).done_o = false ∧
    (∀ n, (∀ u, u ≤ n → (ins (1 + p.latency + u)).start_i = false) →
      (trace (step p) s ins (2 + p.latency + n)).done_o = false ∧
      (trace (step p) s ins (2 + p.latency + n)).digest_o =
        sha256_compress (ins 0).h_i ((ins 0).block_i.toList.flatMap store_be32)) := by
  have hload := load_computing p s (ins 0) hidle hstart
  have hshift (t : Nat) : trace (step p) s ins (1 + t) =
      trace (step p) (step p s (ins 0)) (fun u => ins (1 + u)) t := trace_add (step p) s ins 1 t
  obtain ⟨hbusy, hdone, hdigest⟩ := trace_finish p hload (fun u => ins (1 + u))
  rw [← hshift] at hbusy hdone hdigest
  refine ⟨?_, hbusy, hdone, ?_, ?_, ?_⟩
  · intro t hlo hhi
    have hcur := trace_computing p hload (fun u => ins (1 + u)) (n := t - 1) (by omega)
    rw [← hshift, show 1 + (t - 1) = t by omega] at hcur
    exact ⟨hcur.busy, hcur.done⟩
  · rw [hdigest, sha256_compress_block]
  · rw [show 2 + p.latency = 1 + p.latency + 1 by omega, trace_succ]
    cases hs : (ins (1 + p.latency)).start_i <;> simp [step, hbusy, hs, State.load]
  · intro n hquiet
    have hidle := trace_idle p hbusy (fun u => ins (1 + p.latency + u)) n hquiet
    rw [← trace_add, show 1 + p.latency + (n + 1) = 2 + p.latency + n by omega] at hidle
    exact ⟨hidle.2.1, by rw [hidle.2.2, hdigest, sha256_compress_block]⟩

/-- The deployed schedule, started with an all-zero block on the initial hash
value and with every later input held at start. -/
theorem start_compresses_zero_block :
    (trace (step ⟨true, true, true, .documented⟩) default
      (fun _ => ⟨true, Vector.replicate 16 0, initialHash⟩) 257).digest_o =
      sha256_compress initialHash ((Vector.replicate 16 (0 : Word)).toList.flatMap store_be32) :=
  (start_compresses ⟨true, true, true, .documented⟩ default
    (fun _ => ⟨true, Vector.replicate 16 0, initialHash⟩) rfl rfl).2.2.2.1

end scu35.sha256_core_iterative
