import Scu35Miner.Software.Bitcoin
import Scu35Miner.Storage.Device

open fips180 storage

namespace scu35.bitcoin

open sha256_sw

/-- The `n` bytes from `address` on. -/
def bytes_at (memory : Cells Byte) (address n : Nat) : List Byte := (List.range n).map fun i => memory (address + i)

/-- `sha256_final` into the 32 bytes from `address` on. -/
def final_at (ctx : sha256_ctx_t) (memory : Cells Byte) (address : Nat) : Cells Byte :=
  copy memory address (fun i => (sha256_final ctx).getD i 0) 32

/-- `sha256d` over one memory, in which its buffers may overlap. -/
def sha256d_at (memory : Cells Byte) (bytes n out : Nat) : Cells Byte :=
  let memory := final_at (sha256_update sha256_init (bytes_at memory bytes n)) memory out
  final_at (sha256_update sha256_init (bytes_at memory out 32)) memory out

theorem sha256_chunks_represents {ctx : sha256_ctx_t} {message : List Byte} (h : ctx.Represents message)
    (chunks : List (List Byte)) : (chunks.foldl sha256_update ctx).Represents (message ++ chunks.flatten) := by
  induction chunks generalizing ctx message with
  | nil => simpa using h
  | cons chunk chunks ih =>
    have hnext := ih (sha256_update_represents h chunk)
    rwa [List.append_assoc] at hnext

theorem sha256_chunks (chunks : List (List Byte)) :
    sha256_final (chunks.foldl sha256_update sha256_init) = sha256 chunks.flatten :=
  sha256_final_spec (sha256_chunks_represents sha256_init_represents chunks)

theorem bytes_at_copy (memory : Cells Byte) (address : Nat) {bytes : List Byte} (hlen : bytes.length = 32) :
    bytes_at (copy memory address (fun i => bytes.getD i 0) 32) address 32 = bytes := by
  refine List.ext_getElem (by simp [bytes_at, hlen]) fun i hi hi' => ?_
  have hlt : i < 32 := by simpa [bytes_at] using hi
  simp only [bytes_at, List.getElem_map, List.getElem_range]
  rw [copy_inside _ _ (by omega) (by omega), Nat.add_sub_cancel_left]
  simp [hi']

theorem final_at_eq (memory : Cells Byte) (message : List Byte) (address : Nat) :
    final_at (sha256_update sha256_init message) memory address =
      copy memory address (fun i => (sha256 message).getD i 0) 32 := by
  rw [final_at, sha256_final_spec (sha256_update_represents sha256_init_represents message), List.nil_append]

theorem copy_twice (memory : Cells Byte) (address n : Nat) (first second : Cells Byte) :
    copy (copy memory address first n) address second n = copy memory address second n := by
  funext i
  by_cases hi : address ≤ i ∧ i < address + n
  · rw [copy_inside _ _ hi.1 hi.2, copy_inside _ _ hi.1 hi.2]
  · rw [copy_outside _ _ (by omega), copy_outside _ _ (by omega), copy_outside _ _ (by omega)]

/-- The double hash is that of the input as it was, wherever the output is. -/
theorem sha256d_at_eq (memory : Cells Byte) (bytes n out : Nat) :
    sha256d_at memory bytes n out =
      copy memory out (fun i => (sha256 (sha256 (bytes_at memory bytes n))).getD i 0) 32 := by
  rw [sha256d_at, final_at_eq, final_at_eq, bytes_at_copy _ _ (sha256_length _), copy_twice]

theorem header_root (version prev bits time coin1 extra1 extra2 coin2 : List Byte) (branches : List (List Byte)) :
    ((bitcoin_build_header version prev bits time coin1 extra1 extra2 coin2 branches).drop 36).take 32 =
      merkle_root (coinbase_root coin1 extra1 extra2 coin2) branches := by
  have hlen : (merkle_root (coinbase_root coin1 extra1 extra2 coin2) branches).length = 32 := by
    apply merkle_root_length
    rw [coinbase_root_eq, sha256_length]
  have hfront : ((List.range 4).map (fun i => version.getD (3 - i) 0) ++
      (List.range 32).map (fun i => prev.getD (i ^^^ 3) 0)).length = 36 := by simp
  rw [bitcoin_build_header]
  simp only [List.append_assoc]
  rw [← List.append_assoc, List.drop_left' hfront, List.take_left' hlen]

/-- The hashes of the firmware are those of the standard: of a message in any
chunks, doubled in shared buffers, of the first header block, and up the
merkle branches. -/
theorem hashes_are_standard :
    (∀ chunks : List (List Byte),
      sha256_final (chunks.foldl sha256_update sha256_init) = sha256 chunks.flatten) ∧
    (∀ bytes, sha256d bytes = sha256 (sha256 bytes)) ∧
    (∀ (memory : Cells Byte) (bytes n out : Nat),
      bytes_at (sha256d_at memory bytes n out) out 32 = sha256 (sha256 (bytes_at memory bytes n)) ∧
        ∀ i, i < out ∨ out + 32 ≤ i → sha256d_at memory bytes n out i = memory i) ∧
    (∀ header80 : Vector Byte 80,
      bitcoin_header_midstate header80.toList = compress initialHash (blockWords (header80.toList.take 64))) ∧
    ∀ (version prev bits time coin1 extra1 extra2 coin2 : List Byte) (branches : List (List Byte)),
      ((bitcoin_build_header version prev bits time coin1 extra1 extra2 coin2 branches).drop 36).take 32 =
        branches.foldl (fun root branch => sha256d (root ++ branch)) (sha256d (coin1 ++ extra1 ++ extra2 ++ coin2)) := by
  refine ⟨sha256_chunks, sha256d_eq, ?_, ?_, ?_⟩
  · intro memory bytes n out
    rw [sha256d_at_eq]
    exact ⟨bytes_at_copy memory out (sha256_length _), fun i hi => copy_outside memory _ hi⟩
  · intro header80
    exact bitcoin_header_midstate_eq (by simp)
  · intro version prev bits time coin1 extra1 extra2 coin2 branches
    rw [header_root, merkle_root, coinbase_root_eq, sha256d_eq]

end scu35.bitcoin
