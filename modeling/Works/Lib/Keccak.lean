import Works.Lib.Chunks
import Works.Lib.Words

/-! # Hash functions from the Keccak sponge

The sponge over a permutation `f` of 25 words: the padded message is xored into the first words
of the state block by block, with `f` after each block, and the digest is read off the state.
Keccak-256 and SHAKE-256 are the sponge with blocks of 136 bytes and different padding bytes. -/

namespace Works.Lib

/-- The state of the permutation. -/
abbrev KeccakState := Fin 25 → Word

/-- The bytes of a block, for Keccak-256 and SHAKE-256. -/
def keccakRate : ℕ := 136

/-- The padding behind a message of `len` bytes: the byte `suffix`, zeros, and the highest bit of
the block's last byte. -/
def keccakPad (suffix : UInt8) (len : ℕ) : List UInt8 :=
  let room := keccakRate - len % keccakRate
  if room = 1 then [suffix ||| 0x80] else suffix :: List.replicate (room - 2) 0 ++ [0x80]

/-- A block goes into the first words of the state. -/
def xorBlock (s : KeccakState) (block : List UInt8) : KeccakState :=
  fun i => s i ^^^ wordAt block i

variable (f : KeccakState → KeccakState)

/-- The blocks go into the state one after the other. -/
def absorb (message : List UInt8) : KeccakState :=
  (chunks keccakRate message).foldl (fun s block => f (xorBlock s block)) fun _ => 0

/-- The first `n` blocks of the output. -/
def squeeze : ℕ → KeccakState → List UInt8
  | 0, _ => []
  | n + 1, s => (wordsBytes (List.ofFn s)).take keccakRate ++ squeeze n (f s)

/-- The sponge with the padding byte `suffix` and a digest of `len` bytes. -/
def sponge (suffix : UInt8) (message : List UInt8) (len : ℕ) : List UInt8 :=
  (squeeze f ((len + keccakRate - 1) / keccakRate)
    (absorb f (message ++ keccakPad suffix message.length))).take len

/-- Keccak-256, with the padding from before the SHA-3 standard. -/
def keccak256 (message : List UInt8) : List UInt8 := sponge f 0x01 message 32

/-- SHAKE-256 with a digest of `len` bytes. -/
def shake256 (message : List UInt8) (len : ℕ) : List UInt8 := sponge f 0x1F message len

variable {f}

theorem length_squeeze (n : ℕ) (s : KeccakState) : (squeeze f n s).length = keccakRate * n := by
  induction n generalizing s with
  | zero => rfl
  | succ n ih =>
      rw [squeeze, List.length_append, ih, List.length_take, length_wordsBytes, List.length_ofFn,
        keccakRate]
      omega

@[simp] theorem length_sponge (suffix : UInt8) (message : List UInt8) (len : ℕ) :
    (sponge f suffix message len).length = len := by
  rw [sponge, List.length_take, length_squeeze, keccakRate]
  omega

@[simp] theorem length_keccak256 (message : List UInt8) : (keccak256 f message).length = 32 :=
  length_sponge _ _ _

@[simp] theorem length_shake256 (message : List UInt8) (len : ℕ) :
    (shake256 f message len).length = len := length_sponge _ _ _

/-- A message that fits a block with its padding takes one permutation. -/
theorem absorb_block {block : List UInt8} (h : block.length = keccakRate) :
    absorb f block = f fun i => wordAt block i := by
  have hne : block ≠ [] := List.ne_nil_of_length_pos (by rw [h, keccakRate]; omega)
  have hchunks : chunks keccakRate block = [block] := by
    rw [chunks, if_neg (by simp [hne, keccakRate]), List.take_of_length_le h.le,
      List.drop_eq_nil_of_le h.le, chunks, if_pos (.inl rfl)]
  have hxor : xorBlock (fun _ => 0) block = fun i : Fin 25 => wordAt block i := by
    funext i
    simp [xorBlock]
  rw [absorb, hchunks, List.foldl_cons, List.foldl_nil, hxor]

/-- A digest of `8 * n` bytes that fits a block is the first `n` words of the state. -/
theorem sponge_block {suffix : UInt8} {message : List UInt8} {n : ℕ} (hn : 0 < n) (h17 : n ≤ 17)
    (hlen : (message ++ keccakPad suffix message.length).length = keccakRate) :
    sponge f suffix message (8 * n) = wordsBytes (List.ofFn fun i : Fin n =>
      f (fun k => wordAt (message ++ keccakPad suffix message.length) k) ⟨i, by omega⟩) := by
  have hblocks : (8 * n + keccakRate - 1) / keccakRate = 1 := by
    rw [keccakRate]
    omega
  rw [sponge, hblocks, absorb_block hlen]
  simp only [squeeze, List.append_nil]
  rw [List.take_take, Nat.min_eq_left (by rw [keccakRate]; omega), take_wordsBytes]
  congr 1
  apply List.ext_getElem
  · simp only [List.length_take, List.length_ofFn]
    omega
  · intro i hi hi'
    rw [List.getElem_take, List.getElem_ofFn, List.getElem_ofFn]

end Works.Lib
