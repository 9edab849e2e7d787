import Works.Rotortree.Storage.ShardSpec
import Works.Rotortree.TreeSpec

/-! # What the level files hold

A checkpoint over `n` leaves counts `wholeChunks N n k` chunks of level `k` as done.  The last
node of such a chunk may be a node that later leaves still change: `Settled` says that it is
not, `Fresh` that no leaf came in since that changed it. -/

namespace Works.Rotortree

open Works.Lib ChunkedLevel

variable {Hash : Type} {N : ℕ}

/-- The chunks of level `k` that a checkpoint over `n` leaves counts as done. -/
def wholeChunks (N n k : ℕ) : ℕ := n ⌈/⌉ N ^ k / CHUNK_SIZE

/-- On the levels below `tiers` all nodes of the chunks counted over `n` leaves are complete. -/
def Settled (N tiers n : ℕ) : Prop := ∀ k < tiers, wholeChunks N n k * CHUNK_SIZE * N ^ k ≤ n

/-- No leaf came in since there were `c`, or those that did change no node of a chunk that is
counted over `c`. -/
def Fresh (N tiers c n : ℕ) : Prop := Settled N tiers c ∨ c = n

/-- The hash `x` is node `p` of the level, if the level has such a node. -/
def IsNode (l : List Hash) (p : ℕ) (x : Hash) : Prop := p < l.length → l[p]? = some x

/-! ### Nodes and chunks -/

section Nodes

variable {h : List Hash → Hash} {L : List Hash} {k p m : ℕ}

/-- A complete node of a level. -/
theorem complete_bounds (hN : 2 ≤ N) (hp : (p + 1) * N ^ k ≤ L.length) :
    k ≤ Nat.clog N L.length ∧ p < (storedLevel N h L k).length := by
  have hpos : 0 < N ^ k := Nat.pow_pos (by omega)
  have hk : k ≤ Nat.clog N L.length := by
    by_contra hlt
    have h0 := div_pow_eq_zero hN (show Nat.clog N L.length < k by omega)
    rw [Nat.div_eq_zero_iff] at h0
    have := Nat.mul_le_mul_right (N ^ k) (show 1 ≤ p + 1 by omega)
    omega
  refine ⟨hk, ?_⟩
  rw [storedLevel_of_le hk, LeanTree.lt_length_level (by omega)]
  rw [Nat.add_mul, Nat.one_mul] at hp
  omega

/-- Complete nodes do not change when leaves are added. -/
theorem storedLevel_take (hN : 2 ≤ N) (hm : m ≤ L.length) (hp : (p + 1) * N ^ k ≤ m) :
    (storedLevel N h (L.take m) k)[p]? = (storedLevel N h L k)[p]? := by
  have hlen : (L.take m).length = m := by rw [List.length_take]; omega
  have h1 := (complete_bounds (h := h) hN (by rw [hlen]; exact hp)).1
  have h2 := (complete_bounds (h := h) hN (hp.trans hm)).1
  rw [storedLevel_of_le h1, storedLevel_of_le h2, LeanTree.level_take (by omega) L hm hp]

theorem length_storedLevel_div (hN : 2 ≤ N) (L : List Hash) (k : ℕ) :
    (storedLevel N h L k).length / CHUNK_SIZE = wholeChunks N L.length k := by
  rcases Nat.lt_or_ge (Nat.clog N L.length) k with hk | hk
  · have hle : L.length ⌈/⌉ N ^ k ≤ 1 := by
      rw [ceilDiv_le_iff_le_mul (Nat.pow_pos (by omega)), Nat.mul_one]
      exact (Nat.le_pow_clog (by omega) _).trans (Nat.pow_le_pow_right (by omega) hk.le)
    rw [storedLevel_of_lt hk, wholeChunks, List.length_nil, Nat.zero_div,
      Nat.div_eq_of_lt (lt_of_le_of_lt hle (by decide))]
  · rw [storedLevel_of_le hk, LeanTree.length_level (by omega), wholeChunks]

/-- A node of a chunk that is counted as done. -/
theorem lt_length_of_whole (hN : 2 ≤ N) (hp : p < wholeChunks N L.length k * CHUNK_SIZE) :
    p < (storedLevel N h L k).length := by
  rw [← length_storedLevel_div (h := h) hN] at hp
  exact hp.trans_le (Nat.div_mul_le_self _ _)

theorem lt_chunks_of_lt {l : List Hash} (hp : p < l.length) :
    p < l.length ⌈/⌉ CHUNK_SIZE * CHUNK_SIZE :=
  hp.trans_le (by rw [Nat.mul_comm]; exact (ceilDiv_le_iff_le_mul CHUNK_SIZE_pos).mp le_rfl)

theorem wholeChunks_mono (hN : 2 ≤ N) {a b : ℕ} (hab : a ≤ b) (k : ℕ) :
    wholeChunks N a k ≤ wholeChunks N b k :=
  Nat.div_le_div_right (LeanTree.ceilDiv_mono (Nat.pow_pos (by omega)) hab)

theorem Settled.complete {tiers n : ℕ} (hs : Settled N tiers n) (hk : k < tiers)
    (hp : p < wholeChunks N n k * CHUNK_SIZE) : (p + 1) * N ^ k ≤ n :=
  (Nat.mul_le_mul_right _ hp).trans (hs k hk)

/-- The nodes of a chunk that is counted are those of the tree with the leaves that came since. -/
theorem Fresh.node {tiers : ℕ} (hf : Fresh N tiers m L.length) (hN : 2 ≤ N) (hm : m ≤ L.length)
    (hk : k < tiers) (hp : p < wholeChunks N m k * CHUNK_SIZE) :
    (storedLevel N h (L.take m) k)[p]? = (storedLevel N h L k)[p]? := by
  rcases hf with hs | rfl
  · exact storedLevel_take hN hm (hs.complete hk hp)
  · rw [List.take_length]

end Nodes

end Works.Rotortree
