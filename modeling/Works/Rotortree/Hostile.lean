import Works.Rotortree.Update

/-! # Proofs an adversary wrote

A proof that was deserialized has arbitrary fields.  Both verifiers check every count before they
use it, so no slice leaves its array (`NaryProof.verify_returns`).  One sum is not checked: where
the last group of the old tree reaches the end of `u64`, `group_start + N` overflows at the lowest
level, and there alone (`ConsistencyProof.verify_returns_iff`).

The update trusts the sibling counts of the proof it updates.  They are its only source of panics
beyond those of `verify`: an old group and the new nodes beside it have to fit a group
(`ConsistencyProof.updateInclusionProof_returns_iff`). -/

namespace Works.Rotortree

open Works.Lib Outcome

variable {Hash : Type} {N MAX_DEPTH : ℕ} {H : Hasher Hash}

/-! ### Inclusion proofs -/

theorem NaryProof.verifyLevels_returns (ls : List (ProofLevel Hash N)) :
    ∀ (index : ℕ) (y : Hash) (children : Fin N → Hash),
      Returns (NaryProof.verifyLevels H ls index y children) := by
  induction ls with
  | nil =>
      intro index y children
      exact returns_ok y
  | cons l ls ih =>
      intro index y children
      rw [NaryProof.verifyLevels, returns_bind]
      refine ⟨?_, fun step _ => ih _ _ _⟩
      by_cases h : l.position.toNat = index % N ∧ StepFits N l.step
      · obtain ⟨children', e⟩ := verifyLevel_of_fits (H := H) h.1 h.2 y children
        rw [e]
        exact returns_ok _
      · rw [verifyLevel_of_not_fits h]
        exact returns_fail _

theorem NaryProof.verify_returns [Zero Hash] [DecidableEq Hash] (p : NaryProof Hash N MAX_DEPTH) :
    Returns (p.verify H) := by
  unfold NaryProof.verify
  by_cases h1 : p.treeSize = 0 ∨ p.treeSize ≤ p.leafIndex
  · rw [if_pos h1]
    exact returns_fail _
  rw [if_neg h1]
  dsimp only
  split_ifs with h2
  · exact returns_fail _
  · rw [returns_bind]
    constructor
    · unfold u64ToUsize
      split_ifs
      · exact returns_ok _
      · exact returns_fail _
    · intro index _
      simp only [not_or, not_not, not_lt] at h2
      rw [FixedArray.slice_of_le _ (Nat.zero_le _) (by omega), ok_bind, returns_bind]
      exact ⟨NaryProof.verifyLevels_returns _ _ _ _, fun _ _ => returns_ok _⟩

/-- `ceil_log_n` of a `u64`. -/
theorem ceilLogN_le (hN : 2 ≤ N) {size : ℕ} (hs : size < U64_SIZE) : ceilLogN size N ≤ 64 := by
  rw [ceilLogN_eq_clog hN]
  calc Nat.clog N size ≤ Nat.clog 2 size := Nat.clog_anti_left (by omega) hN
    _ ≤ 64 := by
      rw [Nat.clog_le_iff_le_pow (by omega)]
      exact hs.le

namespace ConsistencyProof

/-! ### The depth loop -/

/-- The loop `while os > 1 || ns > 1` of `verify` ends after `d` rounds. -/
inductive Rounds (N : ℕ) : ℕ → ℕ → ℕ → Prop where
  | stop {os ns : ℕ} (h : ¬ (1 < os ∨ 1 < ns)) : Rounds N os ns 0
  | next {os ns d : ℕ} (h : 1 < os ∨ 1 < ns) (rest : Rounds N (os ⌈/⌉ N) (ns ⌈/⌉ N) d) :
      Rounds N os ns (d + 1)

theorem ceilDiv_lt (hN : 2 ≤ N) {x : ℕ} (hx : 1 < x) : x ⌈/⌉ N < x := by
  have h : x ⌈/⌉ N ≤ x - 1 := by
    rw [ceilDiv_le_iff_le_mul (by omega)]
    calc x ≤ 2 * (x - 1) := by omega
      _ ≤ N * (x - 1) := Nat.mul_le_mul_right _ hN
  omega

theorem ceilDiv_le_self (hN : 2 ≤ N) (x : ℕ) : x ⌈/⌉ N ≤ x := by
  rw [ceilDiv_le_iff_le_mul (by omega)]
  exact Nat.le_mul_of_pos_left _ (by omega)

/-- The sum of the sizes bounds the number of rounds, so the loop ends. -/
theorem layers_rounds (hN : 2 ≤ N) (fuel : ℕ) :
    ∀ os ns, os + ns ≤ fuel → Rounds N os ns (layers N fuel os ns) := by
  induction fuel with
  | zero =>
      intro os ns h
      exact .stop (by omega)
  | succ fuel ih =>
      intro os ns h
      rw [layers]
      split_ifs with hc
      · refine .next hc (ih _ _ ?_)
        have h1 := ceilDiv_le_self hN os
        have h2 := ceilDiv_le_self hN ns
        cases hc with
        | inl ho =>
            have := ceilDiv_lt hN ho
            omega
        | inr hn =>
            have := ceilDiv_lt hN hn
            omega
      · exact .stop hc

theorem expectedDepth_rounds (hN : 2 ≤ N) (os ns : ℕ) : Rounds N os ns (expectedDepth N os ns) :=
  layers_rounds hN _ os ns le_rfl

theorem Rounds.unique {os ns d : ℕ} (h : Rounds N os ns d) {d' : ℕ} (h' : Rounds N os ns d') :
    d = d' := by
  induction h generalizing d' with
  | stop hstop =>
      cases h' with
      | stop _ => rfl
      | next hc _ => exact absurd hc hstop
  | next hc _ ih =>
      cases h' with
      | stop hstop => exact absurd hc hstop
      | next _ rest => rw [ih rest]

/-- The loop of `generate_consistency_proof` counts its rounds. -/
theorem consistencyLevels_rounds [Zero Hash] (hN : 2 ≤ N) (fs : ShardFs Hash)
    (s : TreeSnapshot Hash N MAX_DEPTH) (fuel : ℕ) :
    ∀ {depth os ns : ℕ} {levels : Fin MAX_DEPTH → ConsistencyLevel Hash N}
      {res : ℕ × (Fin MAX_DEPTH → ConsistencyLevel Hash N)}, os + ns ≤ fuel →
      s.consistencyLevels fs fuel depth os ns levels = .ok res →
      ∃ d, Rounds N os ns d ∧ res.1 = depth + d := by
  induction fuel with
  | zero =>
      intro depth os ns levels res hfuel hres
      cases hres
      exact ⟨0, .stop (by omega), rfl⟩
  | succ fuel ih =>
      intro depth os ns levels res hfuel hres
      rw [TreeSnapshot.consistencyLevels] at hres
      split_ifs at hres with hc hdepth
      · cases hres
      · rw [bind_eq_ok] at hres
        obtain ⟨cl, -, hres⟩ := hres
        rw [bind_eq_ok] at hres
        obtain ⟨levels', -, hres⟩ := hres
        have hless : os ⌈/⌉ N + ns ⌈/⌉ N ≤ fuel := by
          have h1 := ceilDiv_le_self hN os
          have h2 := ceilDiv_le_self hN ns
          cases hc with
          | inl ho =>
              have := ceilDiv_lt hN ho
              omega
          | inr hn =>
              have := ceilDiv_lt hN hn
              omega
        obtain ⟨d, hd, heq⟩ := ih hless hres
        exact ⟨d + 1, .next hc hd, by omega⟩
      · cases hres
        exact ⟨0, .stop hc, rfl⟩

/-- **Three ways to the depth of a tree.**  `ceil_log_n` is the least height at which a group of
`n` spans all the leaves, and the loops of the prover and of the verifier take as many rounds,
from whatever older size they start. -/
theorem depths_agree {size n : ℕ} (hn : 2 ≤ n) :
    IsLeast {k | size ≤ n ^ k} (ceilLogN size n) ∧ (size ≤ 1 → ceilLogN size n = 0) ∧
      ∀ old, 1 ≤ old → old ≤ size →
        Rounds n old size (ceilLogN size n) ∧ expectedDepth n old size = ceilLogN size n ∧
        ∀ {Hash : Type} [Zero Hash] {MAX_DEPTH : ℕ} (fs : ShardFs Hash)
          (s : TreeSnapshot Hash n MAX_DEPTH) (levels : Fin MAX_DEPTH → ConsistencyLevel Hash n)
          (res : ℕ × (Fin MAX_DEPTH → ConsistencyLevel Hash n)),
          s.consistencyLevels fs (old + size) 0 old size levels = .ok res →
          res.1 = ceilLogN size n := by
  have hclog : ceilLogN size n = Nat.clog n size := ceilLogN_eq_clog hn
  refine ⟨⟨?_, fun k hk => ?_⟩, fun hsize => ?_, fun old _ hold => ?_⟩
  · rw [hclog]
    exact Nat.le_pow_clog (by omega) size
  · rw [hclog]
    exact (Nat.clog_le_iff_le_pow (by omega)).mpr hk
  · rw [hclog, Nat.clog_of_right_le_one hsize]
  · have hdepth : expectedDepth n old size = ceilLogN size n := by
      rw [hclog, expectedDepth_eq_clog hn hold]
    have hrounds := expectedDepth_rounds hn old size
    rw [hdepth] at hrounds
    refine ⟨hrounds, hdepth, fun fs s levels res hres => ?_⟩
    obtain ⟨d, hd, heq⟩ := consistencyLevels_rounds hn fs s _ le_rfl hres
    rw [heq, Nat.zero_add, hd.unique hrounds]

theorem depths_agree_ternary : IsLeast {k | 28 ≤ 3 ^ k} (ceilLogN 28 3) ∧
    Rounds 3 10 28 (ceilLogN 28 3) :=
  have h := @depths_agree 28 3 (by decide)
  ⟨h.1, (h.2.2 10 (by decide) (by decide)).1⟩

/-! ### Consistency proofs -/

section Verify

variable {m n i : ℕ} {level : ConsistencyLevel Hash N}

/-- Above the lowest level the boundary group ends far below `u64::MAX`. -/
theorem groupEnd_lt (hN : 2 ≤ N) (hm : m < U64_SIZE) (hNu : N < U64_SIZE) (hi : 0 < i) :
    boundary N m i / N * N + N < U64_SIZE := by
  have h1 := Nat.div_mul_le_self (boundary N m i) N
  rcases Nat.lt_or_ge (boundary N m i) N with h2 | h2
  · rw [Nat.div_eq_of_lt h2]
    omega
  · -- the group is not the first one, so twice the boundary node is a leaf's index
    have h3 : boundary N m i * 2 ≤ m - 1 := by
      calc boundary N m i * 2 ≤ boundary N m i * N ^ i :=
            Nat.mul_le_mul_left _ (hN.trans (Nat.le_self_pow hi.ne' N))
        _ ≤ m - 1 := Nat.div_mul_le_self _ _
    omega

/-- One level, by its checks. -/
theorem verifyLevel_of_not_fits (hN : 2 ≤ N) (hm : 0 < m) (hmn : m ≤ n)
    (hu : boundary N m i / N * N + N < U64_SIZE) (hfit : ¬ LevelFits N m n i level)
    {c : Cursor Hash N} (ho : c.oldLevelSize = m ⌈/⌉ N ^ i) (hn : c.newLevelSize = n ⌈/⌉ N ^ i) :
    verifyLevel H i level c = .fail .mathError := by
  unfold verifyLevel
  dsimp only
  rw [ho, hn, Outcome.require_pos (by rw [ceilDiv_eq_boundary hN hm]; omega), Outcome.ok_bind,
    ceilDiv_sub_one hN hm, boundary_sub_mod, expectedNewCount_eq hN hm hmn hu, Outcome.ok_bind,
    if_pos]
  by_contra hc
  simp only [not_or, not_not] at hc
  exact hfit ⟨hu, hc⟩

theorem verifyLevel_of_overflow (hN : 2 ≤ N) (hm : 0 < m)
    (hu : ¬ boundary N m i / N * N + N < U64_SIZE) {c : Cursor Hash N}
    (ho : c.oldLevelSize = m ⌈/⌉ N ^ i) : verifyLevel H i level c = .panic := by
  unfold verifyLevel
  dsimp only
  rw [ho, Outcome.require_pos (by rw [ceilDiv_eq_boundary hN hm]; omega), Outcome.ok_bind,
    ceilDiv_sub_one hN hm, boundary_sub_mod, expectedNewCount, Outcome.require, if_neg hu]
  rfl

variable [Zero Hash]

/-- A level returns if its boundary group ends within `u64`; if it returns a value, the sizes are
those of the level above. -/
theorem verifyLevel_returns (hN : 2 ≤ N) (hm : 0 < m) (hmn : m ≤ n)
    (hu : boundary N m i / N * N + N < U64_SIZE) {c : Cursor Hash N}
    (ho : c.oldLevelSize = m ⌈/⌉ N ^ i) (hn : c.newLevelSize = n ⌈/⌉ N ^ i) :
    Returns (verifyLevel H i level c) ∧ ∀ c', verifyLevel H i level c = .ok c' →
      c'.oldLevelSize = m ⌈/⌉ N ^ (i + 1) ∧ c'.newLevelSize = n ⌈/⌉ N ^ (i + 1) := by
  by_cases hfit : LevelFits N m n i level
  · obtain ⟨children, e⟩ := verifyLevel_of_fits (H := H) hN hm hmn hfit ho hn
    rw [e]
    refine ⟨returns_ok _, ?_⟩
    intro c' hc
    cases hc
    exact ⟨rfl, rfl⟩
  · rw [verifyLevel_of_not_fits hN hm hmn hu hfit ho hn]
    exact ⟨returns_fail _, fun c' hc => nomatch hc⟩

/-- From level one on, nothing can overflow. -/
theorem verifyLevels_returns (hN : 2 ≤ N) (hm : 0 < m) (hmn : m ≤ n) (hmu : m < U64_SIZE)
    (hNu : N < U64_SIZE) (ls : List (ConsistencyLevel Hash N)) :
    ∀ (i : ℕ) (c : Cursor Hash N), 0 < i → c.oldLevelSize = m ⌈/⌉ N ^ i →
      c.newLevelSize = n ⌈/⌉ N ^ i → Returns (verifyLevels H i ls c) := by
  induction ls with
  | nil =>
      intro i c _ _ _
      exact returns_ok c
  | cons l ls ih =>
      intro i c hi ho hn
      obtain ⟨h1, h2⟩ := (@verifyLevel_returns _ _ H _ _ _ l) hN hm hmn
        (groupEnd_lt hN hmu hNu hi) ho hn
      rw [verifyLevels, returns_bind]
      refine ⟨h1, ?_⟩
      intro c' hc
      obtain ⟨ho', hn'⟩ := h2 c' hc
      exact ih (i + 1) c' (by omega) ho' hn'

end Verify

/-- The sizes and the depth pass the checks before the loop, and the last group of the old tree
reaches beyond `u64::MAX`. -/
structure LastGroupOverflows (p : ConsistencyProof Hash N MAX_DEPTH) : Prop where
  notEmpty : 0 < p.oldSize
  grows : p.oldSize < p.newSize
  depth : p.levelCount = Nat.clog N p.newSize
  levels : p.levelCount ≤ MAX_DEPTH
  overflow : U64_SIZE ≤ (p.oldSize - 1) / N * N + N

variable [Zero Hash] [DecidableEq Hash]

/-- `verify` panics exactly where the last group of the old tree overflows. -/
theorem verify_returns_iff (hN : 2 ≤ N) (p : ConsistencyProof Hash N MAX_DEPTH)
    (hs : p.newSize < U64_SIZE) : Returns (p.verify H) ↔ ¬ p.LastGroupOverflows := by
  unfold verify
  split_ifs with h1 h2 h3
  · exact iff_of_true (returns_fail _) fun h => by
      have := h.notEmpty; have := h.grows; have := h.levels; omega
  · exact iff_of_true (returns_ok _) fun h => by have := h.grows; omega
  · refine iff_of_true (returns_ok _) fun h => ?_
    have h4 := h.depth
    have h5 := Nat.clog_pos (show 1 < N by omega) (show 2 ≤ p.newSize by
      have := h.notEmpty; have := h.grows; omega)
    omega
  · simp only [not_or] at h1
    have hpos : 0 < p.oldSize := by omega
    have hlt : p.oldSize < p.newSize := by omega
    rw [u64ToUsize_of_lt (by omega), ok_bind, u64ToUsize_of_lt hs, ok_bind,
      expectedDepth_eq_clog hN hlt.le]
    split_ifs with h4
    · exact iff_of_true (returns_fail _) fun h => h4 h.depth
    · rw [not_not] at h4
      have hdepth : 0 < Nat.clog N p.newSize := Nat.clog_pos (by omega) (by omega)
      rw [FixedArray.slice_of_le _ (Nat.zero_le _) (by omega), ok_bind, List.drop_zero]
      cases hls : (List.ofFn p.levels).take p.levelCount with
      | nil =>
          have := congrArg List.length hls
          rw [List.length_take, List.length_ofFn, List.length_nil] at this
          omega
      | cons l ls =>
          rw [verifyLevels, returns_bind, returns_bind]
          have hb : boundary N p.oldSize 0 = p.oldSize - 1 := by simp [boundary]
          by_cases hu : boundary N p.oldSize 0 / N * N + N < U64_SIZE
          · refine iff_of_true ⟨⟨?_, ?_⟩, fun _ _ => returns_ok _⟩ fun h => ?_
            · exact (verifyLevel_returns hN hpos hlt.le hu (by simp) (by simp)).1
            · intro c hc
              obtain ⟨ho, hn⟩ := (verifyLevel_returns hN hpos hlt.le hu (by simp) (by simp)).2 c hc
              exact verifyLevels_returns hN hpos hlt.le (by omega) (by omega) ls 1 c
                Nat.one_pos ho hn
            · have := h.overflow
              rw [hb] at hu
              omega
          · have hov : U64_SIZE ≤ (p.oldSize - 1) / N * N + N := by
              rw [hb] at hu
              omega
            refine iff_of_false ?_ (not_not_intro ⟨hpos, hlt, h4, by omega, hov⟩)
            rintro ⟨⟨hv, -⟩, -⟩
            rw [verifyLevel_of_overflow hN hpos hu (by simp)] at hv
            exact not_returns_panic hv

/-- **Verification is total up to one overflow.**  On arbitrary fields both verifiers return and
both depth computations end, unless the last group of the old tree overflows. -/
theorem verifiers_total_iff (hN : 2 ≤ N) (ip : NaryProof Hash N MAX_DEPTH)
    (cp : ConsistencyProof Hash N MAX_DEPTH) (hi : ip.treeSize < U64_SIZE)
    (hs : cp.newSize < U64_SIZE) :
    (Returns (ip.verify H) ∧ ceilLogN ip.treeSize N ≤ 64 ∧ Returns (cp.verify H) ∧
      Rounds N cp.oldSize cp.newSize (expectedDepth N cp.oldSize cp.newSize)) ↔
      ¬ cp.LastGroupOverflows := by
  rw [← verify_returns_iff (H := H) hN cp hs]
  constructor
  · rintro ⟨-, -, h, -⟩
    exact h
  · intro h
    exact ⟨ip.verify_returns, ceilLogN_le hN hi, h, expectedDepth_rounds hN _ _⟩

/-- The last group of `u64::MAX - 2` leaves, six to a group, ends beyond `u64::MAX`. -/
def hugeProof : ConsistencyProof ℕ 6 25 :=
  ⟨0, 0, U64_SIZE - 3, U64_SIZE - 1, 25, fun _ => ConsistencyLevel.EMPTY⟩

theorem hugeProof_overflows : hugeProof.LastGroupOverflows where
  notEmpty := by decide
  grows := by decide
  depth := Nat.le_antisymm
    ((Nat.lt_clog_iff_pow_lt (by decide)).mpr (by decide)) (Nat.clog_le_of_le_pow (by decide))
  levels := by decide
  overflow := by decide

theorem hugeProof_panics : ¬ Returns (hugeProof.verify (Hasher.scalar nodeHash)) :=
  fun h => (verify_returns_iff (by decide) hugeProof (by decide)).mp h hugeProof_overflows

theorem verifiers_total_iff_huge :
    ¬ (Returns ((⟨0, 0, 0, 1, 0, fun _ => ProofLevel.EMPTY⟩ : NaryProof ℕ 6 25).verify
        (Hasher.scalar nodeHash)) ∧ ceilLogN 1 6 ≤ 64 ∧
      Returns (hugeProof.verify (Hasher.scalar nodeHash)) ∧
      Rounds 6 hugeProof.oldSize hugeProof.newSize
        (expectedDepth 6 hugeProof.oldSize hugeProof.newSize)) := by
  intro h
  exact (verifiers_total_iff (by decide) ⟨0, 0, 0, 1, 0, fun _ => ProofLevel.EMPTY⟩ hugeProof
    (by decide) (by decide)).mp h hugeProof_overflows

end ConsistencyProof

/-! ### What an accepted consistency proof says -/

namespace ConsistencyProof

section Climbs

variable [Zero Hash]

/-- The level `i` of the proof. -/
def levelOf (p : ConsistencyProof Hash N MAX_DEPTH) (i : ℕ) : ConsistencyLevel Hash N :=
  if h : i < MAX_DEPTH then p.levels ⟨i, h⟩ else ConsistencyLevel.EMPTY

theorem levelOf_of_lt (p : ConsistencyProof Hash N MAX_DEPTH) {i : ℕ} (h : i < MAX_DEPTH) :
    p.levelOf i = p.levels ⟨i, h⟩ := dif_pos h

theorem take_levels (p : ConsistencyProof Hash N MAX_DEPTH) (h : p.levelCount ≤ MAX_DEPTH) :
    (List.ofFn p.levels).take p.levelCount = (List.range' 0 p.levelCount).map p.levelOf :=
  FixedArray.take_ofFn_eq_map h fun _ hk => p.levelOf_of_lt hk

/-- The boundary node of level `i` in the old tree, as the proof builds it. -/
def oldAt (H : Hasher Hash) (p : ConsistencyProof Hash N MAX_DEPTH) : ℕ → Hash
  | 0 => (p.levelOf 0).middle (boundary N p.oldSize 0 % N)
  | i + 1 => LeanTree.combine H.hashChildren
      ((p.levelOf i).left (boundary N p.oldSize i % N) ++ [oldAt H p i])

/-- The boundary node of level `i` in the new tree, as the proof builds it. -/
def newAt (H : Hasher Hash) (p : ConsistencyProof Hash N MAX_DEPTH) : ℕ → Hash
  | 0 => (p.levelOf 0).middle (boundary N p.oldSize 0 % N)
  | i + 1 => LeanTree.combine H.hashChildren
      ((p.levelOf i).left (boundary N p.oldSize i % N) ++ newAt H p i :: (p.levelOf i).new)

/-- The counts of every level are right and both climbs end at the roots. -/
structure Climbs (H : Hasher Hash) (p : ConsistencyProof Hash N MAX_DEPTH) : Prop where
  count : p.levelCount = Nat.clog N p.newSize
  depth : p.levelCount ≤ MAX_DEPTH
  size : p.newSize < U64_SIZE
  fits : ∀ i < p.levelCount, LevelFits N p.oldSize p.newSize i (p.levelOf i)
  old : p.oldAt H p.levelCount = p.oldRoot
  new : p.newAt H p.levelCount = p.newRoot

/-- One level of `verify` whose counts are right goes up to the next boundary nodes. -/
theorem verifyLevel_climb (hN : 2 ≤ N) (p : ConsistencyProof Hash N MAX_DEPTH) (hm : 0 < p.oldSize)
    (hmn : p.oldSize ≤ p.newSize) {i : ℕ} (hfit : LevelFits N p.oldSize p.newSize i (p.levelOf i))
    {c : Cursor Hash N} (ho : c.oldLevelSize = p.oldSize ⌈/⌉ N ^ i)
    (hn : c.newLevelSize = p.newSize ⌈/⌉ N ^ i)
    (hc : 0 < i → c.oldHash = p.oldAt H i ∧ c.newHash = p.newAt H i) :
    ∃ children, verifyLevel H i (p.levelOf i) c = .ok ⟨p.oldSize ⌈/⌉ N ^ (i + 1),
      p.newSize ⌈/⌉ N ^ (i + 1), p.oldAt H (i + 1), p.newAt H (i + 1), children⟩ := by
  obtain ⟨children, e⟩ := verifyLevel_of_fits (H := H) hN hm hmn hfit ho hn
  have hmids : midsAt (p.levelOf i) p.oldSize i c.oldHash c.newHash =
      (p.oldAt H i, p.newAt H i) := by
    unfold midsAt
    split_ifs with h0
    · subst h0
      rfl
    · obtain ⟨h1, h2⟩ := hc (by omega)
      rw [h1, h2]
  rw [hmids] at e
  exact ⟨children, e⟩

/-- The loop of `verify` from level `i` on, if it ends with a value. -/
theorem verifyLevels_climb (hN : 2 ≤ N) (p : ConsistencyProof Hash N MAX_DEPTH)
    (hm : 0 < p.oldSize) (hmn : p.oldSize ≤ p.newSize) (k : ℕ) :
    ∀ (i : ℕ) (c c' : Cursor Hash N), c.oldLevelSize = p.oldSize ⌈/⌉ N ^ i →
      c.newLevelSize = p.newSize ⌈/⌉ N ^ i →
      (0 < i → c.oldHash = p.oldAt H i ∧ c.newHash = p.newAt H i) →
      verifyLevels H i ((List.range' i k).map p.levelOf) c = .ok c' →
      (∀ j, i ≤ j → j < i + k → LevelFits N p.oldSize p.newSize j (p.levelOf j)) ∧
        (0 < i + k → c'.oldHash = p.oldAt H (i + k) ∧ c'.newHash = p.newAt H (i + k)) := by
  induction k with
  | zero =>
      intro i c c' _ _ hc hv
      cases hv
      exact ⟨fun j h1 h2 => by omega, hc⟩
  | succ k ih =>
      intro i c c' ho hn hc hv
      rw [List.range'_succ, List.map_cons, verifyLevels, Outcome.bind_eq_ok] at hv
      obtain ⟨c₁, hc₁, hv⟩ := hv
      have hfit := fits_of_verifyLevel hN hm hmn ho hn hc₁
      obtain ⟨children, e⟩ := verifyLevel_climb hN p hm hmn hfit ho hn hc
      rw [e, Except.ok.injEq] at hc₁
      subst hc₁
      obtain ⟨h1, h2⟩ := ih (i + 1) _ c' rfl rfl (fun _ => ⟨rfl, rfl⟩) hv
      rw [show i + (k + 1) = i + 1 + k by omega]
      refine ⟨?_, h2⟩
      intro j hj1 hj2
      rcases Nat.eq_or_lt_of_le hj1 with rfl | hj
      · exact hfit
      · exact h1 j hj (by omega)

/-- The loop of `verify` from level `i` on, where all counts are right. -/
theorem verifyLevels_of_fits (hN : 2 ≤ N) (p : ConsistencyProof Hash N MAX_DEPTH)
    (hm : 0 < p.oldSize) (hmn : p.oldSize ≤ p.newSize) (k : ℕ) :
    ∀ (i : ℕ) (c : Cursor Hash N), c.oldLevelSize = p.oldSize ⌈/⌉ N ^ i →
      c.newLevelSize = p.newSize ⌈/⌉ N ^ i →
      (0 < i → c.oldHash = p.oldAt H i ∧ c.newHash = p.newAt H i) →
      (∀ j, i ≤ j → j < i + k → LevelFits N p.oldSize p.newSize j (p.levelOf j)) →
      ∃ c', verifyLevels H i ((List.range' i k).map p.levelOf) c = .ok c' ∧
        (0 < i + k → c'.oldHash = p.oldAt H (i + k) ∧ c'.newHash = p.newAt H (i + k)) := by
  induction k with
  | zero =>
      intro i c _ _ hc _
      exact ⟨c, rfl, hc⟩
  | succ k ih =>
      intro i c ho hn hc hfits
      obtain ⟨children, e⟩ := verifyLevel_climb hN p hm hmn (hfits i le_rfl (by omega)) ho hn hc
      obtain ⟨c', h1, h2⟩ := ih (i + 1) ⟨p.oldSize ⌈/⌉ N ^ (i + 1), p.newSize ⌈/⌉ N ^ (i + 1),
        p.oldAt H (i + 1), p.newAt H (i + 1), children⟩ rfl rfl (fun _ => ⟨rfl, rfl⟩)
        fun j hj1 hj2 => hfits j (by omega) (by omega)
      refine ⟨c', ?_, by rwa [show i + (k + 1) = i + 1 + k by omega]⟩
      rw [List.range'_succ, List.map_cons, verifyLevels, e, Outcome.ok_bind]
      exact h1

/-- **An accepted consistency proof climbs.** -/
theorem climbs_of_verify [DecidableEq Hash] (hN : 2 ≤ N) {p : ConsistencyProof Hash N MAX_DEPTH}
    (hlt : p.oldSize ≠ p.newSize) (hv : p.verify H = .ok true) :
    p.Climbs H ∧ 0 < p.oldSize ∧ p.oldSize < p.newSize := by
  unfold verify at hv
  split_ifs at hv with h1 h3
  · cases hv
  · cases hv
  · simp only [not_or] at h1
    rw [Outcome.bind_eq_ok] at hv
    obtain ⟨os, hu, hv⟩ := hv
    rw [Outcome.bind_eq_ok] at hv
    obtain ⟨ns, hu', hv⟩ := hv
    obtain ⟨-, rfl⟩ := u64ToUsize_eq_ok hu
    obtain ⟨hs, rfl⟩ := u64ToUsize_eq_ok hu'
    rw [expectedDepth_eq_clog hN (by omega)] at hv
    split_ifs at hv with h4
    · cases hv
    · rw [not_not] at h4
      rw [FixedArray.slice_of_le _ (Nat.zero_le _) (by omega), Outcome.ok_bind, List.drop_zero,
        p.take_levels (by omega), Outcome.bind_eq_ok] at hv
      obtain ⟨c, hc, hv⟩ := hv
      simp only [Outcome.pure_eq_ok, Except.ok.injEq, Bool.and_eq_true, beq_iff_eq] at hv
      obtain ⟨hfits, hend⟩ := verifyLevels_climb hN p (by omega) (by omega) p.levelCount 0 _ c
        (by simp) (by simp) (fun h => absurd h (Nat.lt_irrefl 0)) hc
      rw [Nat.zero_add] at hend
      obtain ⟨ho, hn⟩ := hend (by omega)
      refine ⟨⟨h4, by omega, hs, ?_, ho ▸ hv.1, hn ▸ hv.2⟩, by omega, by omega⟩
      exact fun i hi => hfits i (Nat.zero_le i) (by omega)

/-- **A consistency proof that climbs is accepted.** -/
theorem verify_of_climbs [DecidableEq Hash] (hN : 2 ≤ N) {p : ConsistencyProof Hash N MAX_DEPTH}
    (hc : p.Climbs H) (hm : 0 < p.oldSize) (hmn : p.oldSize < p.newSize) :
    p.verify H = .ok true := by
  have hdepth := hc.depth
  have hsize := hc.size
  have hcount : 0 < p.levelCount := by
    rw [hc.count]
    exact Nat.clog_pos (by omega) (by omega)
  obtain ⟨c, e, hend⟩ := verifyLevels_of_fits (H := H) hN p hm hmn.le p.levelCount 0
    ⟨p.oldSize, p.newSize, 0, 0, fun _ => 0⟩ (by simp) (by simp)
    (fun h => absurd h (Nat.lt_irrefl 0)) fun j _ hj => hc.fits j (by omega)
  rw [Nat.zero_add] at hend
  obtain ⟨ho, hn⟩ := hend hcount
  unfold verify
  rw [if_neg (by omega), if_neg (by omega), if_neg (by omega), u64ToUsize_of_lt (by omega),
    Outcome.ok_bind, u64ToUsize_of_lt hsize, Outcome.ok_bind, expectedDepth_eq_clog hN hmn.le,
    if_neg (not_not_intro hc.count), FixedArray.slice_of_le _ (Nat.zero_le _) hdepth,
    Outcome.ok_bind, List.drop_zero, p.take_levels hdepth, e, Outcome.ok_bind, ho, hn, hc.old,
    hc.new, beq_self_eq_true, beq_self_eq_true]
  rfl

end Climbs

end ConsistencyProof

/-! ### The update -/

namespace ConsistencyProof

section Update

variable [Zero Hash] {old : NaryProof Hash N MAX_DEPTH} {level : ConsistencyLevel Hash N}

/-- The size the update takes the member's old group to have at level `k`. -/
def claimedSize (old : NaryProof Hash N MAX_DEPTH) (k : ℕ) : ℕ :=
  if h : k < old.levelCount ∧ k < MAX_DEPTH then (old.levels ⟨k, h.2⟩).siblingCount.toNat + 1 else 1

omit [Zero Hash] in
theorem claimedSize_pos (old : NaryProof Hash N MAX_DEPTH) (k : ℕ) : 1 ≤ claimedSize old k := by
  unfold claimedSize
  split_ifs <;> omega

/-- The old group is put back if it fits; else its siblings leave the array. -/
theorem oldGroup_returns {k p : ℕ} (hk : k < MAX_DEPTH) (hp : p < N) :
    (claimedSize old k ≤ N → ∃ group, oldGroup old k p = .ok (group, claimedSize old k)) ∧
      (N < claimedSize old k → oldGroup old k p = .panic) := by
  unfold oldGroup claimedSize
  by_cases hl : k < old.levelCount
  · rw [if_pos hl, dif_pos ⟨hl, hk⟩, FixedArray.index_of_lt _ hk, ok_bind]
    dsimp only
    generalize (old.levels ⟨k, hk⟩).siblingCount.toNat + 1 = size
    rw [FixedArray.slice_of_le _ (Nat.zero_le _) hp.le, ok_bind, FixedArray.copyFromSlice_of_le _
      (Nat.zero_le _) hp.le (FixedArray.length_slice _ hp.le), ok_bind]
    constructor
    · intro hsize
      split_ifs with h1
      · rw [FixedArray.slice_of_le _ (by omega) (by omega), ok_bind,
          FixedArray.copyFromSlice_of_le _ (by omega) hsize
            (by rw [FixedArray.length_slice _ (by omega)]; omega), ok_bind]
        exact ⟨_, rfl⟩
      · exact ⟨_, rfl⟩
    · intro hsize
      rw [if_pos (by omega)]
      unfold FixedArray.slice
      split_ifs with h2
      · rw [ok_bind, FixedArray.copyFromSlice, if_neg (by omega)]
        rfl
      · rfl
  · rw [if_neg hl, dif_neg (fun h => hl h.1)]
    refine ⟨fun _ => ⟨_, rfl⟩, fun h => ?_⟩
    omega

omit [Zero Hash] in
theorem refreshBoundary_returns {k p b : ℕ} (hb : b < N) (group : Fin N → Hash) (hash : Hash) :
    ∃ group', refreshBoundary group k p b hash = .ok group' := by
  unfold refreshBoundary
  split_ifs
  · exact ⟨_, FixedArray.setAt_of_lt _ _ hb⟩
  · exact ⟨group, rfl⟩

omit [Zero Hash] in
/-- The new nodes are appended if they fit; else they leave the array. -/
theorem appendNew_returns {size : ℕ} (hnew : level.newHashes = .ok level.new)
    (hlen : level.new.length = level.newCount.toNat) (hsize : size ≤ N) (group : Fin N → Hash) :
    (size + level.newCount.toNat ≤ N → ∃ group', appendNew group level size = .ok group') ∧
      (N < size + level.newCount.toNat → appendNew group level size = .panic) := by
  unfold appendNew
  constructor
  · intro hfit
    split_ifs
    · rw [hnew, ok_bind]
      exact ⟨_, FixedArray.copyFromSlice_of_le _ (by omega) hfit (by omega)⟩
    · exact ⟨group, rfl⟩
  · intro hfit
    rw [if_pos (by omega), hnew, ok_bind, FixedArray.copyFromSlice, if_neg (by omega)]

theorem siblingsOf_returns {p size : ℕ} (hp : p < N) (hsize : size ≤ N) (group : Fin N → Hash) :
    ∃ siblings, siblingsOf group p size = .ok siblings := by
  unfold siblingsOf
  rw [FixedArray.slice_of_le _ (Nat.zero_le _) hp.le, ok_bind, FixedArray.copyFromSlice_of_le _
    (Nat.zero_le _) hp.le (FixedArray.length_slice _ hp.le), ok_bind]
  split_ifs
  · rw [FixedArray.slice_of_le _ (by omega) hsize, ok_bind]
    exact ⟨_, FixedArray.copyFromSlice_of_le _ (by omega) (by omega)
      (by rw [FixedArray.length_slice _ hsize]; omega)⟩
  · exact ⟨_, rfl⟩

/-- The boundary level is written where its group fits and a byte counts it. -/
theorem boundaryLevel_ok {k p b : ℕ} (hk : k < MAX_DEPTH) (hp : p < N) (hp' : p < 256) (hb : b < N)
    (hnew : level.newHashes = .ok level.new) (hlen : level.new.length = level.newCount.toNat)
    (hash : Hash) (hroom : claimedSize old k + level.newCount.toNat ≤ N)
    (hbyte : claimedSize old k + level.newCount.toNat ≤ 256) :
    ∃ pl, boundaryLevel old level k p b hash = .ok pl := by
  have hpos := claimedSize_pos old k
  obtain ⟨group, e₁⟩ := ((@oldGroup_returns _ _ _ _ old) hk hp).1 (by omega)
  obtain ⟨group', e₂⟩ := refreshBoundary_returns (k := k) (p := p) hb group hash
  obtain ⟨group'', e₃⟩ := (appendNew_returns hnew hlen (by omega) group').1 hroom
  obtain ⟨siblings, e₄⟩ := siblingsOf_returns hp hroom group''
  unfold boundaryLevel
  rw [e₁, ok_bind]
  dsimp only
  rw [e₂, ok_bind, e₃, ok_bind, e₄, ok_bind, toU8_of_lt hp', ok_bind, toU8_of_lt (by omega), ok_bind]
  exact ⟨_, rfl⟩

/-- The boundary level of the new proof, by the size of its group. -/
theorem boundaryLevel_returns {k p b : ℕ} (hN' : N ≤ 255) (hk : k < MAX_DEPTH) (hp : p < N)
    (hb : b < N) (hnew : level.newHashes = .ok level.new)
    (hlen : level.new.length = level.newCount.toNat) (hash : Hash) :
    (claimedSize old k + level.newCount.toNat ≤ N →
        ∃ pl, boundaryLevel old level k p b hash = .ok pl) ∧
      (N < claimedSize old k + level.newCount.toNat →
        boundaryLevel old level k p b hash = .panic) := by
  refine ⟨fun hfit => boundaryLevel_ok hk hp (by omega) hb hnew hlen hash hfit (by omega), ?_⟩
  intro hfit
  obtain ⟨hold, hold'⟩ := (@oldGroup_returns _ _ _ _ old) hk hp
  unfold boundaryLevel
  rcases Nat.lt_or_ge N (claimedSize old k) with hbig | hsize
  · rw [hold' hbig, panic_bind]
  · obtain ⟨group, e₁⟩ := hold hsize
    obtain ⟨group', e₂⟩ := refreshBoundary_returns (k := k) (p := p) hb group hash
    rw [e₁, ok_bind]
    dsimp only
    rw [e₂, ok_bind, (appendNew_returns hnew hlen hsize group').2 hfit]
    rfl

/-- At level `k` a member of the boundary group has room for the new nodes. -/
def RoomAt (p : ConsistencyProof Hash N MAX_DEPTH) (old : NaryProof Hash N MAX_DEPTH) (k : ℕ) :
    Prop :=
  old.leafIndex / N ^ k / N = boundary N p.oldSize k / N →
    claimedSize old k + (p.levelOf k).newCount.toNat ≤ N

/-- One level of the update. -/
theorem updateLevel_returns {p : ConsistencyProof Hash N MAX_DEPTH} {k : ℕ} (hN : 2 ≤ N)
    (hN' : N ≤ 255) (hm : 0 < p.oldSize) (hmn : p.oldSize ≤ p.newSize) (hk : k < MAX_DEPTH)
    (hfit : LevelFits N p.oldSize p.newSize k (p.levelOf k)) (hash : Hash)
    (newLevels : Fin MAX_DEPTH → ProofLevel Hash N) :
    (p.RoomAt old k → ∃ newLevels', updateLevel old (p.levelOf k) k (boundary N p.oldSize k)
        (old.leafIndex / N ^ k) hash newLevels = .ok newLevels') ∧
      (¬ p.RoomAt old k → updateLevel old (p.levelOf k) k (boundary N p.oldSize k)
        (old.leafIndex / N ^ k) hash newLevels = .panic) := by
  unfold updateLevel RoomAt
  by_cases hsame : old.leafIndex / N ^ k / N = boundary N p.oldSize k / N
  · rw [if_neg (not_not_intro hsame)]
    obtain ⟨hok, hpanic⟩ := (@boundaryLevel_returns _ _ _ _ old) hN' hk
      (Nat.mod_lt (old.leafIndex / N ^ k) (show 0 < N by omega))
      (Nat.mod_lt (boundary N p.oldSize k) (show 0 < N by omega)) (hfit.newHashes hN hm hmn)
      ((hfit.new_length hN hm hmn).trans hfit.2.2.symm) hash
    constructor
    · intro hroom
      obtain ⟨pl, e⟩ := hok (hroom hsame)
      rw [e, ok_bind]
      exact ⟨_, FixedArray.setAt_of_lt _ _ hk⟩
    · intro hroom
      rw [hpanic (by by_contra hc; exact hroom fun _ => by omega), panic_bind]
  · rw [if_pos hsame]
    refine ⟨fun _ => ?_, fun h => absurd (fun hs => absurd hs hsame) h⟩
    split_ifs
    · rw [FixedArray.index_of_lt _ hk, ok_bind]
      exact ⟨_, FixedArray.setAt_of_lt _ _ hk⟩
    · exact ⟨newLevels, rfl⟩

/-- What the update carries at level `k` is the boundary node of the new tree. -/
theorem updateMid_climb {p : ConsistencyProof Hash N MAX_DEPTH} {k : ℕ} {hash : Hash} (hN : 2 ≤ N)
    (hhash : 0 < k → hash = p.newAt H k) :
    updateMid (p.levelOf k) k (boundary N p.oldSize k % N) hash = .ok (p.newAt H k) := by
  rw [updateMid_eq hN]
  unfold midsAt
  split_ifs with h0
  · subst h0
    rfl
  · rw [hhash (by omega)]

/-- One round of the loop, at a level whose counts are right: it goes on with the boundary node of
the new tree one level up. -/
theorem updateLevels_succ {p : ConsistencyProof Hash N MAX_DEPTH} (hN : 2 ≤ N) (hm : 0 < p.oldSize)
    (hmn : p.oldSize ≤ p.newSize) {k : ℕ}
    (hfit : LevelFits N p.oldSize p.newSize k (p.levelOf k)) {hash : Hash}
    (hhash : 0 < k → hash = p.newAt H k) (n : ℕ) (children : Fin N → Hash)
    (newLevels : Fin MAX_DEPTH → ProofLevel Hash N) :
    ∃ children', updateLevels H old k ((List.range' k (n + 1)).map p.levelOf)
        (p.oldSize ⌈/⌉ N ^ k) (old.leafIndex / N ^ k) hash children newLevels =
      updateLevel old (p.levelOf k) k (boundary N p.oldSize k) (old.leafIndex / N ^ k) hash
        newLevels >>= fun newLevels' =>
          updateLevels H old (k + 1) ((List.range' (k + 1) n).map p.levelOf)
            (p.oldSize ⌈/⌉ N ^ (k + 1)) (old.leafIndex / N ^ (k + 1)) (p.newAt H (k + 1)) children'
            newLevels' := by
  obtain ⟨children', enext⟩ := nextBoundaryHash_of_fits (H := H) hN hm hmn hfit (p.newAt H k)
    children
  refine ⟨children', ?_⟩
  rw [List.range'_succ, List.map_cons, updateLevels,
    require_pos (by rw [ceilDiv_eq_boundary hN hm]; omega), ok_bind]
  dsimp only
  rw [ceilDiv_sub_one hN hm, updateMid_climb hN hhash]
  congr 1
  funext newLevels'
  rw [ok_bind, enext, ok_bind, LeanTree.ceilDiv_ceilDiv (Nat.pow_pos (by omega)) (by omega),
    Nat.div_div_eq_div_mul, ← Nat.pow_succ]
  rfl

/-- The loop of the update, from level `k` on. -/
theorem updateLevels_returns {p : ConsistencyProof Hash N MAX_DEPTH} (hN : 2 ≤ N) (hN' : N ≤ 255)
    (hm : 0 < p.oldSize) (hmn : p.oldSize ≤ p.newSize) (n : ℕ) :
    ∀ (k : ℕ) (hash : Hash) (children : Fin N → Hash) (newLevels : Fin MAX_DEPTH → ProofLevel Hash N),
      k + n ≤ MAX_DEPTH → (0 < k → hash = p.newAt H k) →
      (∀ j, k ≤ j → j < k + n → LevelFits N p.oldSize p.newSize j (p.levelOf j)) →
      (Returns (updateLevels H old k ((List.range' k n).map p.levelOf) (p.oldSize ⌈/⌉ N ^ k)
        (old.leafIndex / N ^ k) hash children newLevels) ↔
        ∀ j, k ≤ j → j < k + n → p.RoomAt old j) := by
  induction n with
  | zero =>
      intro k hash children newLevels _ _ _
      exact iff_of_true (returns_ok _) fun j h1 h2 => by omega
  | succ n ih =>
      intro k hash children newLevels hk hhash hfits
      have hfit := hfits k le_rfl (by omega)
      obtain ⟨hroom, hpanic⟩ := (@updateLevel_returns _ _ _ _ old) hN hN' hm hmn (by omega) hfit hash
        newLevels
      obtain ⟨children', e⟩ := (@updateLevels_succ _ _ _ H _ old) hN hm hmn hfit hhash n children
        newLevels
      rw [e]
      by_cases hr : p.RoomAt old k
      · obtain ⟨newLevels', e₁⟩ := hroom hr
        rw [e₁, ok_bind]
        refine (ih (k + 1) _ children' newLevels' (by omega) (fun _ => rfl)
          fun j h1 h2 => hfits j (by omega) (by omega)).trans ?_
        constructor
        · intro h j hj1 hj2
          rcases Nat.eq_or_lt_of_le hj1 with rfl | hj
          · exact hr
          · exact h j hj (by omega)
        · exact fun h j hj1 hj2 => h j (by omega) (by omega)
      · rw [hpanic hr, panic_bind]
        exact iff_of_false not_returns_panic fun h => hr (h k le_rfl (by omega))

/-- Every level has room for the new nodes beside the member's old group. -/
def HasRoom (p : ConsistencyProof Hash N MAX_DEPTH) (old : NaryProof Hash N MAX_DEPTH) : Prop :=
  ∀ k < p.levelCount, p.RoomAt old k

/-- An accepted consistency proof leaves only the room in the groups to chance. -/
theorem updateInclusionProof_of_climbs [DecidableEq Hash] (hN : 2 ≤ N) (hN' : N ≤ 255)
    {p : ConsistencyProof Hash N MAX_DEPTH} (hroot : old.root = p.oldRoot)
    (hv : p.verify H = .ok true) (hlt : old.leafIndex < p.oldSize) (hne : p.oldSize ≠ p.newSize) :
    Returns (p.updateInclusionProof H old) ↔ p.HasRoom old := by
  obtain ⟨hc, hm, hmn⟩ := climbs_of_verify hN hne hv
  have hdepth := hc.depth
  have hsize := hc.size
  have hloop := (@updateLevels_returns _ _ _ H _ old) hN hN' hm hmn.le p.levelCount 0 0
    (fun _ => 0) (fun _ => ProofLevel.EMPTY) (by omega) (fun h => absurd h (Nat.lt_irrefl 0))
    fun j _ hj => hc.fits j (by omega)
  rw [Nat.pow_zero, ceilDiv_one, Nat.div_one] at hloop
  unfold updateInclusionProof
  rw [if_neg (not_not_intro hroot), hv, ok_bind, if_neg (by simp), if_neg (by omega), if_neg hne,
    u64ToUsize_of_lt (by omega), ok_bind, u64ToUsize_of_lt (by omega), ok_bind,
    FixedArray.slice_of_le _ (Nat.zero_le _) hdepth, ok_bind, List.drop_zero,
    p.take_levels hdepth, returns_bind, hloop]
  constructor
  · rintro ⟨h, -⟩
    exact fun k hk => h k (Nat.zero_le k) (by omega)
  · exact fun h => ⟨fun k _ hk => h k (by omega), fun _ _ => returns_ok _⟩

/-- **The update panics for two reasons.**  It verifies the consistency proof, which can overflow;
and the sibling counts of the old proof are taken as they are, so a group can have no room. -/
theorem updateInclusionProof_returns_iff [DecidableEq Hash] (hN : 2 ≤ N) (hN' : N ≤ 255)
    (p : ConsistencyProof Hash N MAX_DEPTH) (old : NaryProof Hash N MAX_DEPTH)
    (hs : p.newSize < U64_SIZE) :
    Returns (p.updateInclusionProof H old) ↔
      old.root ≠ p.oldRoot ∨ ¬ p.LastGroupOverflows ∧ (p.verify H = .ok true →
        old.leafIndex < p.oldSize → p.oldSize ≠ p.newSize → p.HasRoom old) := by
  by_cases hroot : old.root = p.oldRoot
  · rw [or_iff_right (not_not_intro hroot), ← verify_returns_iff (H := H) hN p hs]
    by_cases hgo : p.verify H = .ok true ∧ old.leafIndex < p.oldSize ∧ p.oldSize ≠ p.newSize
    · obtain ⟨hv, hlt, hne⟩ := hgo
      rw [updateInclusionProof_of_climbs hN hN' hroot hv hlt hne, hv]
      simp [hlt, hne]
    · have hskip : p.verify H = .ok true → old.leafIndex < p.oldSize → p.oldSize ≠ p.newSize →
          p.HasRoom old := fun h1 h2 h3 => absurd ⟨h1, h2, h3⟩ hgo
      rw [and_iff_left hskip]
      unfold updateInclusionProof
      rw [if_neg (not_not_intro hroot), returns_bind]
      refine and_iff_left ?_
      intro b hb
      cases b with
      | false => exact returns_fail _
      | true =>
          simp only [Bool.not_true, Bool.false_eq_true, if_false]
          split_ifs with h1 h2
          · exact returns_fail _
          · exact returns_fail _
          · exact absurd ⟨hb, by omega, h2⟩ hgo
  · unfold updateInclusionProof
    rw [if_pos hroot]
    exact iff_of_true (returns_fail _) (.inl hroot)

/-- Two leaves after one. -/
def pairProof : ConsistencyProof ℕ 2 1 :=
  ⟨0, nodeHash [0, 2], 1, 2, 1, fun _ => ⟨1, 1, fun k => 2 * k.val⟩⟩

/-- A proof of the first leaf that claims five siblings. -/
def crowdedProof : NaryProof ℕ 2 1 := ⟨0, 0, 0, 1, 1, fun _ => ⟨0, 5, fun _ => 0⟩⟩

theorem crowdedProof_panics :
    ¬ Returns (pairProof.updateInclusionProof (Hasher.scalar nodeHash) crowdedProof) :=
  fun h => h rfl

theorem pairProof_returns_iff :
    Returns (pairProof.updateInclusionProof (Hasher.scalar nodeHash) crowdedProof) ↔
      crowdedProof.root ≠ pairProof.oldRoot ∨ ¬ pairProof.LastGroupOverflows ∧
        (pairProof.verify (Hasher.scalar nodeHash) = .ok true →
          crowdedProof.leafIndex < pairProof.oldSize → pairProof.oldSize ≠ pairProof.newSize →
          pairProof.HasRoom crowdedProof) :=
  updateInclusionProof_returns_iff (by decide) (by decide) pairProof crowdedProof (by decide)

end Update

end ConsistencyProof

end Works.Rotortree
