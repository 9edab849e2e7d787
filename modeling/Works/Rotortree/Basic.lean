import Works.Lib.FixedArray
import Works.Lib.LeanTree
import Mathlib.Data.Nat.Size

/-! # Hashes, errors and depths

The vocabulary of `hash.rs`, `error.rs` and the first lines of `tree.rs`.  A hash is a value
of an arbitrary type with decidable equality and a zero (`[0u8; 32]`); a hasher is its
`hash_children` together with the batch form `hash_many_into`, which the trait asks to
agree with it (`Hasher.Lawful`).

Integers of the source are natural numbers; the width of `u64` (and of `usize` on a 64-bit
target) shows up where the source tests for it: `checkedAdd`, `u64ToUsize`, `toU8`. -/

namespace Works.Rotortree

open Works.Lib

/-- `TreeError`. -/
inductive TreeError where
  | maxDepthExceeded (maxDepth : ℕ)
  | indexOutOfRange (index size : ℕ)
  | emptyBatch
  | capacityExceeded
  | mathError
  | invalidProofDepth (expected actual : ℕ)
  | noUpdateNeeded
deriving DecidableEq, Repr

/-- `Hasher`: the two entry points the tree uses. -/
structure Hasher (Hash : Type) where
  hashChildren : List Hash → Hash
  hashManyInto : List (List Hash) → List Hash

/-- The contract of `hash_many_into`: element `i` is `hash_children(groups[i])`. -/
def Hasher.Lawful {Hash : Type} (H : Hasher Hash) : Prop :=
  ∀ groups, H.hashManyInto groups = groups.map H.hashChildren

/-- The trait's default `hash_many_into`, a scalar loop. -/
def Hasher.scalar {Hash : Type} (hashChildren : List Hash → Hash) : Hasher Hash :=
  ⟨hashChildren, fun groups => groups.map hashChildren⟩

theorem Hasher.scalar_lawful {Hash : Type} (f : List Hash → Hash) : (Hasher.scalar f).Lawful :=
  fun _ => rfl

/-- One more than `u64::MAX`. -/
def U64_SIZE : ℕ := 2 ^ 64

/-- `u64::checked_add`, with the error the caller maps an overflow to. -/
def checkedAdd (a b : ℕ) (e : TreeError) : Outcome TreeError ℕ :=
  if a + b < U64_SIZE then .ok (a + b) else .fail e

/-- `u64_to_usize` on a 64-bit target. -/
def u64ToUsize (val : ℕ) : Outcome TreeError ℕ :=
  if val < U64_SIZE then .ok val else .fail .capacityExceeded

/-- `to_u8`. -/
def toU8 (v : ℕ) : Outcome TreeError UInt8 :=
  if v < 256 then .ok (UInt8.ofNat v) else .fail .mathError

theorem checkedAdd_of_lt {a b : ℕ} {e : TreeError} (h : a + b < U64_SIZE) :
    checkedAdd a b e = .ok (a + b) := if_pos h

theorem checkedAdd_of_ge {a b : ℕ} {e : TreeError} (h : U64_SIZE ≤ a + b) :
    checkedAdd a b e = .fail e := if_neg (by omega)

theorem u64ToUsize_of_lt {v : ℕ} (h : v < U64_SIZE) : u64ToUsize v = .ok v := if_pos h

theorem u64ToUsize_eq_ok {v w : ℕ} (h : u64ToUsize v = .ok w) : v < U64_SIZE ∧ w = v := by
  unfold u64ToUsize at h
  split_ifs at h with hv
  · cases h
    exact ⟨hv, rfl⟩
  · cases h

theorem toU8_of_lt {v : ℕ} (h : v < 256) : toU8 v = .ok (UInt8.ofNat v) := if_pos h

/-! ### `ceil_log_n` -/

/-- `u64::BITS - x.leading_zeros()`: the number of bits of `x`. -/
def spanBits (x : ℕ) : ℕ := Nat.size x

/-- `n.trailing_zeros()` of a power of two. -/
def radixBits (n : ℕ) : ℕ := Nat.log2 n

/-- `usize::is_power_of_two`. -/
def isPowerOfTwo (n : ℕ) : Bool := 2 ^ Nat.log2 n == n

/-- `ceil_log_n`: the number of hash layers above the leaf level. -/
def ceilLogN (size n : ℕ) : ℕ :=
  if size ≤ 1 then 0
  else if isPowerOfTwo n then spanBits (size - 1) ⌈/⌉ radixBits n
  else Nat.log n (size - 1) + 1

theorem isPowerOfTwo_iff {n : ℕ} : isPowerOfTwo n = true ↔ 2 ^ radixBits n = n := by
  simp [isPowerOfTwo, radixBits]

/-- Both paths of `ceil_log_n` compute the least `k` with `size ≤ n ^ k`. -/
theorem ceilLogN_eq_clog {size n : ℕ} (hn : 2 ≤ n) : ceilLogN size n = Nat.clog n size := by
  unfold ceilLogN
  split_ifs with h1 hp
  · exact (Nat.clog_of_right_le_one h1 n).symm
  · rw [isPowerOfTwo_iff] at hp
    have hb : 0 < radixBits n := by
      rcases Nat.eq_zero_or_pos (radixBits n) with h0 | h0
      · rw [h0] at hp; omega
      · exact h0
    apply eq_of_forall_ge_iff
    intro k
    rw [ceilDiv_le_iff_le_mul hb, Nat.clog_le_iff_le_pow (by omega), spanBits, Nat.size_le]
    nth_rewrite 2 [← hp]
    rw [← Nat.pow_mul]
    omega
  · apply eq_of_forall_ge_iff
    intro k
    rw [Nat.clog_le_iff_le_pow (by omega), Nat.add_one_le_iff,
      Nat.log_lt_iff_lt_pow (by omega) (by omega)]
    omega

end Works.Rotortree
