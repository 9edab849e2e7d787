import Works.Lib.Chunks
import Works.Lib.Bytes

/-! # BLAKE3

The hash function over its compression function: a message of at most one chunk goes through the
blocks of the chunk, a longer one through a binary tree of chunks.  A chunk of whole blocks can
also be hashed by a loop that knows nothing of trees (`hash1`), as the kernels for many inputs at
once do; both give the same digest (`hash_eq_hash1`). -/

namespace Works.Lib.Blake3

/-- A chaining value. -/
abbrev Cv := Vector (BitVec 32) 8

/-- The first eight words that a compression leaves, from a chaining value, a block of 64 bytes,
the counter, the length of the block before padding and the flags. -/
abbrev Compression := Cv → List UInt8 → ℕ → ℕ → ℕ → Cv

def BLOCK_LEN : ℕ := 64
def CHUNK_LEN : ℕ := 1024

def CHUNK_START : ℕ := 1
def CHUNK_END : ℕ := 2
def PARENT : ℕ := 4
def ROOT : ℕ := 8

def IV : Cv := #v[0x6A09E667, 0xBB67AE85, 0x3C6EF372, 0xA54FF53A, 0x510E527F, 0x9B05688C,
  0x1F83D9AB, 0x5BE0CD19]

/-- The bytes of a chaining value. -/
def cvBytes (cv : Cv) : List UInt8 := cv.toList.flatMap fun w => leBytes 4 w.toNat

@[simp] theorem length_cvBytes (cv : Cv) : (cvBytes cv).length = 32 := by
  simp [cvBytes, List.length_flatMap, length_leBytes]

section Tree

variable (f : Compression)

/-- The blocks of a chunk.  `start` is for the first of them and `last` for the last. -/
def absorb (counter last : ℕ) : Cv → ℕ → List (List UInt8) → Cv
  | cv, _, [] => cv
  | cv, start, [block] =>
      f cv (block ++ List.replicate (BLOCK_LEN - block.length) 0) counter block.length
        (start ||| last)
  | cv, start, block :: blocks => absorb counter last (f cv block counter BLOCK_LEN start) 0 blocks

/-- A chunk; the empty one has one empty block. -/
def chunk (counter last : ℕ) (bytes : List UInt8) : Cv :=
  absorb f counter last IV CHUNK_START (if bytes = [] then [[]] else chunks BLOCK_LEN bytes)

/-- A parent node. -/
def parent (flags : ℕ) (left right : Cv) : Cv :=
  f IV (cvBytes left ++ cvBytes right) 0 BLOCK_LEN (PARENT ||| flags)

/-- The chunks in the left subtree over `n` bytes: the largest power of two that leaves at least
one byte for the right one. -/
def leftChunks (n : ℕ) : ℕ := 2 ^ Nat.log 2 ((n - 1) / CHUNK_LEN)

/-- A subtree that is not the root, over the chunks from `counter` on. -/
def subtree : ℕ → ℕ → List UInt8 → Cv
  | 0, counter, bytes => chunk f counter CHUNK_END bytes
  | height + 1, counter, bytes =>
      if bytes.length ≤ CHUNK_LEN then chunk f counter CHUNK_END bytes
      else
        let left := leftChunks bytes.length
        parent f 0 (subtree height counter (bytes.take (left * CHUNK_LEN)))
          (subtree height (counter + left) (bytes.drop (left * CHUNK_LEN)))

/-- The digest of a message. -/
def hash (bytes : List UInt8) : List UInt8 :=
  cvBytes <|
    if bytes.length ≤ CHUNK_LEN then chunk f 0 (CHUNK_END ||| ROOT) bytes
    else
      let left := leftChunks bytes.length
      parent f ROOT (subtree f bytes.length 0 (bytes.take (left * CHUNK_LEN)))
        (subtree f bytes.length left (bytes.drop (left * CHUNK_LEN)))

/-! ### Chunks of whole blocks -/

/-- The loop of `hash1`. -/
def hash1Loop (counter flags flagsEnd : ℕ) (cv : Cv) (blockFlags : ℕ) (bytes : List UInt8) : Cv :=
  if bytes.length < BLOCK_LEN then cv
  else
    let blockFlags := if bytes.length = BLOCK_LEN then blockFlags ||| flagsEnd else blockFlags
    hash1Loop counter flags flagsEnd (f cv (bytes.take BLOCK_LEN) counter BLOCK_LEN blockFlags)
      flags (bytes.drop BLOCK_LEN)
termination_by bytes.length
decreasing_by
  rw [List.length_drop, BLOCK_LEN]
  rename_i h
  rw [BLOCK_LEN] at h
  omega

/-- One of the inputs that a kernel hashes at once. -/
def hash1 (key : Cv) (counter flags flagsStart flagsEnd : ℕ) (bytes : List UInt8) : List UInt8 :=
  cvBytes (hash1Loop f counter flags flagsEnd key (flags ||| flagsStart) bytes)

variable {f}

theorem absorb_cons {counter last : ℕ} (cv : Cv) (start : ℕ) (block : List UInt8)
    {blocks : List (List UInt8)} (h : blocks ≠ []) :
    absorb f counter last cv start (block :: blocks) =
      absorb f counter last (f cv block counter BLOCK_LEN start) 0 blocks := by
  cases blocks with
  | nil => exact absurd rfl h
  | cons b blocks => rfl

/-- Over whole blocks the two loops agree. -/
theorem hash1Loop_eq_absorb (counter last : ℕ) (cv : Cv) (start : ℕ) (bytes : List UInt8)
    (hdvd : BLOCK_LEN ∣ bytes.length) :
    hash1Loop f counter 0 last cv start bytes =
      absorb f counter last cv start (chunks BLOCK_LEN bytes) := by
  induction hn : bytes.length using Nat.strong_induction_on generalizing cv start bytes with
  | _ n ih =>
      rw [hash1Loop]
      by_cases hlt : bytes.length < BLOCK_LEN
      · obtain rfl : bytes = [] :=
          List.length_eq_zero_iff.mp (Nat.eq_zero_of_dvd_of_lt hdvd hlt)
        rw [if_pos hlt, chunks, if_pos (.inl rfl)]
        rfl
      · have hne : bytes ≠ [] := by
          rintro rfl
          exact hlt (by decide)
        have hrest : BLOCK_LEN ∣ (bytes.drop BLOCK_LEN).length := by
          rw [List.length_drop]
          exact Nat.dvd_sub hdvd dvd_rfl
        have hless : (bytes.drop BLOCK_LEN).length < n := by
          rw [List.length_drop, hn, BLOCK_LEN]
          rw [BLOCK_LEN] at hlt
          omega
        have hchunks : chunks BLOCK_LEN bytes =
            bytes.take BLOCK_LEN :: chunks BLOCK_LEN (bytes.drop BLOCK_LEN) := by
          rw [chunks, if_neg (not_or.mpr ⟨hne, by decide⟩)]
        rw [if_neg hlt, hchunks, ih _ hless _ _ _ hrest rfl]
        by_cases heq : bytes.length = BLOCK_LEN
        · have hdrop : bytes.drop BLOCK_LEN = [] := List.drop_eq_nil_of_le heq.le
          have hlen : (bytes.take BLOCK_LEN).length = BLOCK_LEN := by
            rw [List.length_take, heq, Nat.min_self]
          rw [if_pos heq, hdrop, chunks, if_pos (.inl rfl), absorb, absorb, hlen, Nat.sub_self,
            List.replicate_zero, List.append_nil]
        · have hdrop : bytes.drop BLOCK_LEN ≠ [] := by
            intro h
            have hlong := List.drop_eq_nil_iff.mp h
            omega
          have hmore : chunks BLOCK_LEN (bytes.drop BLOCK_LEN) ≠ [] := by
            rw [chunks, if_neg (not_or.mpr ⟨hdrop, by decide⟩)]
            exact List.cons_ne_nil _ _
          rw [if_neg heq, absorb_cons _ _ _ hmore]

/-- **A chunk of whole blocks** has the digest of the message it is. -/
theorem hash_eq_hash1 {bytes : List UInt8} (hne : bytes ≠ []) (hdvd : BLOCK_LEN ∣ bytes.length)
    (hle : bytes.length ≤ CHUNK_LEN) :
    hash f bytes = hash1 f IV 0 0 CHUNK_START (CHUNK_END ||| ROOT) bytes := by
  rw [hash, if_pos hle, chunk, if_neg hne, hash1, Nat.zero_or,
    hash1Loop_eq_absorb _ _ _ _ _ hdvd]

end Tree

/-! ### The compression function -/

/-- The words of a block. -/
def blockWords (block : List UInt8) : Vector (BitVec 32) 16 :=
  Vector.ofFn fun i => BitVec.ofNat 32 (ofLeBytes ((block.drop (4 * i.val)).take 4))

/-- The quarter round on the words `a`, `b`, `c` and `d` of the state. -/
def mix (s : Vector (BitVec 32) 16) (a b c d : Fin 16) (x y : BitVec 32) :
    Vector (BitVec 32) 16 :=
  let s := s.set a (s[a] + s[b] + x)
  let s := s.set d ((s[d] ^^^ s[a]).rotateRight 16)
  let s := s.set c (s[c] + s[d])
  let s := s.set b ((s[b] ^^^ s[c]).rotateRight 12)
  let s := s.set a (s[a] + s[b] + y)
  let s := s.set d ((s[d] ^^^ s[a]).rotateRight 8)
  let s := s.set c (s[c] + s[d])
  s.set b ((s[b] ^^^ s[c]).rotateRight 7)

/-- One round: the columns, then the diagonals. -/
def round (s m : Vector (BitVec 32) 16) : Vector (BitVec 32) 16 :=
  let s := mix s 0 4 8 12 m[0] m[1]
  let s := mix s 1 5 9 13 m[2] m[3]
  let s := mix s 2 6 10 14 m[4] m[5]
  let s := mix s 3 7 11 15 m[6] m[7]
  let s := mix s 0 5 10 15 m[8] m[9]
  let s := mix s 1 6 11 12 m[10] m[11]
  let s := mix s 2 7 8 13 m[12] m[13]
  mix s 3 4 9 14 m[14] m[15]

/-- The words of the message for the next round. -/
def permute (m : Vector (BitVec 32) 16) : Vector (BitVec 32) 16 :=
  #v[m[2], m[6], m[3], m[10], m[7], m[0], m[4], m[13], m[1], m[11], m[12], m[5], m[9], m[14],
    m[15], m[8]]

/-- `n` rounds, with a permutation of the message between them. -/
def rounds : ℕ → Vector (BitVec 32) 16 → Vector (BitVec 32) 16 → Vector (BitVec 32) 16
  | 0, s, _ => s
  | n + 1, s, m => rounds n (round s m) (permute m)

/-- The compression function. -/
def compress : Compression := fun cv block counter len flags =>
  let s := rounds 7 #v[cv[0], cv[1], cv[2], cv[3], cv[4], cv[5], cv[6], cv[7],
    IV[0], IV[1], IV[2], IV[3], BitVec.ofNat 32 counter, BitVec.ofNat 32 (counter / 2 ^ 32),
    BitVec.ofNat 32 len, BitVec.ofNat 32 flags] (blockWords block)
  Vector.ofFn fun i => s.get ⟨i.val, by omega⟩ ^^^ s.get ⟨i.val + 8, by omega⟩

end Works.Lib.Blake3
