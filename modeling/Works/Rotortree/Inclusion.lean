import Works.Rotortree.Calls
import Works.Rotortree.Proof

/-! # Inclusion proofs

`verify` in closed form: it accepts when its checks on the shape of the proof pass and the
hashes, combined upwards from the leaf (`ascend`), give the root (`verify_eq_true_iff`).
A proof generated from a snapshot passes (`generateProof_spec`). -/

namespace Works.Rotortree

open Works.Lib

variable {Hash : Type} {N MAX_DEPTH : ℕ}

/-! ### The verifier in closed form -/

namespace ProofLevel

/-- What the level says about its group: the position of the member and the siblings. -/
def step (l : ProofLevel Hash N) : UInt8 × UInt8 := (l.position, l.siblingCount)

/-- The group the level describes, around the member `y`. -/
def around (l : ProofLevel Hash N) (y : Hash) : List Hash :=
  (List.ofFn l.siblings).take l.position.toNat ++
    y :: ((List.ofFn l.siblings).take l.siblingCount.toNat).drop l.position.toNat

/-- The node above the member `y`. -/
def parentOf (H : Hasher Hash) (l : ProofLevel Hash N) (y : Hash) : Hash :=
  if l.siblingCount.toNat = 0 then y else H.hashChildren (l.around y)

end ProofLevel

/-- The checks of `verify` on a level: a group with siblings fits and has the position. -/
def StepFits (N : ℕ) (s : UInt8 × UInt8) : Prop :=
  0 < s.2.toNat → s.2.toNat + 1 ≤ N ∧ s.1.toNat < s.2.toNat + 1

/-- The checks of `verify` on all levels, from node `index` of the lowest one up. -/
def StepsFit (N : ℕ) : ℕ → List (UInt8 × UInt8) → Prop
  | _, [] => True
  | index, s :: rest => s.1.toNat = index % N ∧ StepFits N s ∧ StepsFit N (index / N) rest

instance decidableStepFits (s : UInt8 × UInt8) : Decidable (StepFits N s) :=
  inferInstanceAs (Decidable (0 < s.2.toNat → s.2.toNat + 1 ≤ N ∧ s.1.toNat < s.2.toNat + 1))

instance decidableStepsFit : (index : ℕ) → (ss : List (UInt8 × UInt8)) →
    Decidable (StepsFit N index ss)
  | _, [] => isTrue trivial
  | index, s :: rest =>
      haveI := decidableStepsFit (index / N) rest
      inferInstanceAs (Decidable (s.1.toNat = index % N ∧ StepFits N s ∧ StepsFit N (index / N) rest))

/-- The value at the top of the levels, over the value `y` at the bottom. -/
def ascend (H : Hasher Hash) : List (ProofLevel Hash N) → Hash → Hash
  | [], y => y
  | l :: rest, y => ascend H rest (l.parentOf H y)

section Verify

variable {H : Hasher Hash}

theorem ProofLevel.length_around {l : ProofLevel Hash N} (h : StepFits N l.step)
    (h0 : 0 < l.siblingCount.toNat) (y : Hash) :
    (l.around y).length = l.siblingCount.toNat + 1 := by
  obtain ⟨h1, h2⟩ := h h0
  simp only [ProofLevel.step] at h1 h2
  simp only [ProofLevel.around, List.length_append, List.length_cons, List.length_take,
    List.length_drop, List.length_ofFn]
  omega

theorem ProofLevel.getElem?_around {l : ProofLevel Hash N} (h : StepFits N l.step)
    (h0 : 0 < l.siblingCount.toNat) (y : Hash) :
    (l.around y)[l.position.toNat]? = some y := by
  obtain ⟨h1, h2⟩ := h h0
  simp only [ProofLevel.step] at h1 h2
  have hlen : ((List.ofFn l.siblings).take l.position.toNat).length = l.position.toNat := by
    rw [List.length_take, List.length_ofFn]; omega
  rw [ProofLevel.around, List.getElem?_append_right hlen.le, hlen, Nat.sub_self,
    List.getElem?_cons_zero]

/-- Taking the member out of a group and putting it back. -/
theorem ProofLevel.around_eraseIdx [Zero Hash] {g : List Hash} {y : Hash} {position count : UInt8}
    (hlen : g.length = count.toNat + 1) (hN : g.length ≤ N) (hy : g[position.toNat]? = some y) :
    (⟨position, count, FixedArray.padded (g.eraseIdx position.toNat)⟩ : ProofLevel Hash N).around y =
      g := by
  obtain ⟨hpos, hget⟩ := List.getElem?_eq_some_iff.mp hy
  have helen : (g.eraseIdx position.toNat).length = count.toNat := by
    rw [List.length_eraseIdx_of_lt hpos]; omega
  have hsw : FixedArray.StartsWith (FixedArray.padded (g.eraseIdx position.toNat) : Fin N → Hash)
      (g.eraseIdx position.toNat) := FixedArray.startsWith_padded (by omega)
  have htl : (g.take position.toNat).length = position.toNat := by rw [List.length_take]; omega
  unfold ProofLevel.around
  dsimp only
  rw [hsw.take (by omega), hsw.take (by omega), ← helen, List.take_length,
    List.eraseIdx_eq_take_drop_succ, List.take_append_of_le_length (by omega),
    List.take_of_length_le (by omega), List.drop_append_of_le_length (by omega),
    List.drop_of_length_le (by omega), List.nil_append, ← hget, ← List.drop_eq_getElem_cons hpos,
    List.take_append_drop]

theorem verifyLevel_of_fits {l : ProofLevel Hash N} {index : ℕ} (hpos : l.position.toNat = index % N)
    (hfit : StepFits N l.step) (y : Hash) (children : Fin N → Hash) :
    ∃ children', NaryProof.verifyLevel H l index y children = .ok (l.parentOf H y, children') := by
  unfold NaryProof.verifyLevel ProofLevel.parentOf
  rw [if_neg (by simpa using hpos)]
  by_cases h0 : 0 < l.siblingCount.toNat
  · obtain ⟨h1, h2⟩ := hfit h0
    simp only [ProofLevel.step] at h1 h2
    rw [if_pos h0, if_neg (show ¬ l.siblingCount.toNat = 0 by omega)]
    dsimp only
    have hleft : ((List.ofFn l.siblings).take l.position.toNat).length = l.position.toNat := by
      rw [List.length_take, List.length_ofFn]; omega
    have hright : (((List.ofFn l.siblings).take l.siblingCount.toNat).drop l.position.toNat).length =
        l.siblingCount.toNat - l.position.toNat := by
      rw [List.length_drop, List.length_take, List.length_ofFn]; omega
    obtain ⟨c₁, c₂, c₃, e₁, e₂, e₃, e₄⟩ := FixedArray.fill_around (ε := TreeError) children y
      l.position.toNat (l.siblingCount.toNat + 1) hleft.symm (by rw [hright]; omega) h1
    have hcount : l.position.toNat + (l.siblingCount.toNat + 1 - l.position.toNat - 1) =
        l.siblingCount.toNat := by omega
    refine ⟨c₃, ?_⟩
    rw [if_neg (by omega), FixedArray.slice_of_le _ (by omega) (by omega), Outcome.ok_bind,
      List.drop_zero, e₁, Outcome.ok_bind, e₂, Outcome.ok_bind, hcount,
      FixedArray.slice_of_le _ (by omega) (by omega), Outcome.ok_bind, e₃, Outcome.ok_bind, e₄,
      Outcome.ok_bind]
    rfl
  · rw [if_neg h0, if_pos (by omega)]
    exact ⟨children, rfl⟩

theorem verifyLevel_of_not_fits {l : ProofLevel Hash N} {index : ℕ}
    (h : ¬ (l.position.toNat = index % N ∧ StepFits N l.step)) (y : Hash) (children : Fin N → Hash) :
    NaryProof.verifyLevel H l index y children = .fail .mathError := by
  unfold NaryProof.verifyLevel
  by_cases hpos : l.position.toNat = index % N
  · rw [if_neg (by simpa using hpos)]
    have hfit : ¬ StepFits N l.step := fun hf => h ⟨hpos, hf⟩
    simp only [StepFits, ProofLevel.step, Classical.not_imp] at hfit
    rw [if_pos hfit.1]
    dsimp only
    rw [if_pos (by omega)]
  · rw [if_pos hpos]

theorem verifyLevels_eq_ok (ls : List (ProofLevel Hash N)) (index : ℕ) (y r : Hash)
    (children : Fin N → Hash) :
    NaryProof.verifyLevels H ls index y children = .ok r ↔
      StepsFit N index (ls.map ProofLevel.step) ∧ ascend H ls y = r := by
  induction ls generalizing index y children with
  | nil => simp [NaryProof.verifyLevels, StepsFit, ascend]
  | cons l ls ih =>
      rw [NaryProof.verifyLevels, List.map_cons, StepsFit, ascend]
      by_cases h : l.position.toNat = index % N ∧ StepFits N l.step
      · obtain ⟨c', e⟩ := verifyLevel_of_fits (H := H) h.1 h.2 y children
        rw [e, Outcome.ok_bind, ih]
        constructor
        · exact fun ⟨h1, h2⟩ => ⟨⟨h.1, h.2, h1⟩, h2⟩
        · exact fun ⟨⟨_, _, h1⟩, h2⟩ => ⟨h1, h2⟩
      · rw [verifyLevel_of_not_fits h, Outcome.fail_bind]
        constructor
        · intro h'; cases h'
        · exact fun ⟨⟨h1, h2, _⟩, _⟩ => absurd ⟨h1, h2⟩ h

/-- The levels a proof uses. -/
def NaryProof.used (p : NaryProof Hash N MAX_DEPTH) : List (ProofLevel Hash N) :=
  (List.ofFn p.levels).take p.levelCount

/-- **The verifier.**  `verify` accepts exactly when the shape of the proof passes its checks and
the hashes lead from the leaf to the root. -/
theorem verify_eq_true_iff [Zero Hash] [DecidableEq Hash] (hN : 2 ≤ N)
    (p : NaryProof Hash N MAX_DEPTH) :
    p.verify H = .ok true ↔
      (p.leafIndex < p.treeSize ∧ p.leafIndex < U64_SIZE ∧
        p.levelCount = Nat.clog N p.treeSize ∧ p.levelCount ≤ MAX_DEPTH ∧
        StepsFit N p.leafIndex (p.used.map ProofLevel.step)) ∧
      ascend H p.used p.leaf = p.root := by
  unfold NaryProof.verify
  rw [ceilLogN_eq_clog hN]
  by_cases h1 : p.treeSize = 0 ∨ p.treeSize ≤ p.leafIndex
  · rw [if_pos h1]
    constructor
    · intro h; cases h
    · rintro ⟨⟨h, -⟩, -⟩; omega
  rw [if_neg h1]
  dsimp only
  by_cases h2 : p.levelCount ≠ Nat.clog N p.treeSize ∨ MAX_DEPTH < Nat.clog N p.treeSize
  · rw [if_pos h2]
    constructor
    · intro h; cases h
    · rintro ⟨⟨-, -, h, h', -⟩, -⟩; omega
  rw [if_neg h2]
  rcases Nat.lt_or_ge p.leafIndex U64_SIZE with h3 | h3
  · rw [u64ToUsize_of_lt h3, Outcome.ok_bind, FixedArray.slice_of_le _ (Nat.zero_le _) (by omega),
      Outcome.ok_bind, List.drop_zero, Outcome.bind_eq_ok]
    constructor
    · rintro ⟨r, hr, heq⟩
      obtain ⟨hfit, hasc⟩ := (verifyLevels_eq_ok _ _ _ _ _).mp hr
      simp only [Outcome.pure_eq_ok, Except.ok.injEq, beq_iff_eq] at heq
      exact ⟨⟨by omega, h3, by omega, by omega, hfit⟩, hasc.trans heq⟩
    · rintro ⟨⟨-, -, -, -, hfit⟩, hasc⟩
      exact ⟨_, (verifyLevels_eq_ok _ _ _ _ _).mpr ⟨hfit, rfl⟩, by
        rw [Outcome.pure_eq_ok]; exact congrArg Except.ok (beq_iff_eq.mpr hasc)⟩
  · rw [u64ToUsize, if_neg (by omega), Outcome.fail_bind]
    constructor
    · intro h; cases h
    · rintro ⟨⟨-, h, -⟩, -⟩; omega

end Verify

/-! ### Generated proofs -/

/-- The leaves fit: `u64` counts them and `MAX_DEPTH` layers hold them. -/
structure Fits (N MAX_DEPTH : ℕ) (L : List Hash) : Prop where
  size : L.length < U64_SIZE
  depth : Nat.clog N L.length ≤ MAX_DEPTH

/-- The accepted leaves fit. -/
theorem accepted_fits (cs : List (Call Hash)) :
    Fits N MAX_DEPTH (accepted N MAX_DEPTH cs) := by
  induction cs using List.reverseRecOn with
  | nil =>
      refine ⟨show 0 < U64_SIZE by decide, ?_⟩
      rw [Nat.clog_of_right_le_one (by simp [accepted])]
      omega
  | append_singleton cs c ih =>
      rw [accepted_concat]
      split_ifs with hc
      · exact ih
      · simp only [Call.TurnedDown, not_or, not_le, not_lt] at hc
        exact ⟨by rw [List.length_append]; exact hc.2.1, by rw [List.length_append]; exact hc.2.2⟩

/-- The snapshot shows the reference tree over `L`. -/
structure TreeSnapshot.Refines (fs : ShardFs Hash) (H : Hasher Hash)
    (s : TreeSnapshot Hash N MAX_DEPTH) (L : List Hash) : Prop where
  size : s.size = L.length
  depth : s.depth = Nat.clog N L.length
  root : s.root = LeanTree.root N H.hashChildren L
  levels : ∀ k : Fin MAX_DEPTH,
    ChunkedLevel.Holds fs (s.levels k) (storedLevel N H.hashChildren L k)

section Generate

variable {fs : ShardFs Hash} {H : Hasher Hash} {L : List Hash}

theorem Refines.snapshot {t : TreeInner Hash N MAX_DEPTH} (h : Refines fs H t L) :
    t.snapshot.Refines fs H L where
  size := h.size
  depth := h.depth
  root := h.root
  levels := by
    intro k
    show ChunkedLevel.Holds fs (if k.val < min (t.depth + 1) MAX_DEPTH then t.levels k
      else ChunkedLevel.new) _
    have hk := k.isLt
    have hd := h.depth
    split_ifs with hlt
    · exact h.levels k
    · rw [storedLevel_of_lt (by omega)]
      exact ChunkedLevel.new_holds fs

/-- The group of the path of leaf `i` at level `k`. -/
def pathGroup (N : ℕ) (h : List Hash → Hash) (L : List Hash) (i k : ℕ) : List Hash :=
  LeanTree.group N (LeanTree.level N h L k) (i / N ^ k / N)

/-- The inclusion proof's level `k` for leaf `i`. -/
def inclusionLevel [Zero Hash] (N : ℕ) (h : List Hash → Hash) (L : List Hash) (i k : ℕ) :
    ProofLevel Hash N where
  position := UInt8.ofNat (i / N ^ k % N)
  siblingCount := UInt8.ofNat ((pathGroup N h L i k).length - 1)
  siblings := FixedArray.padded ((pathGroup N h L i k).eraseIdx (i / N ^ k % N))

/-- The inclusion proof for leaf `i`. -/
def inclusionProof [Zero Hash] (N MAX_DEPTH : ℕ) (h : List Hash → Hash) (L : List Hash) (i : ℕ)
    (root leaf : Hash) : NaryProof Hash N MAX_DEPTH where
  root := root
  leaf := leaf
  leafIndex := i
  treeSize := L.length
  levelCount := Nat.clog N L.length
  levels k := if k.val < Nat.clog N L.length then inclusionLevel N h L i k else ProofLevel.EMPTY

theorem path_lt_length (hN : 2 ≤ N) {i : ℕ} (hi : i < L.length) (k : ℕ) :
    i / N ^ k < (LeanTree.level N H.hashChildren L k).length := by
  rw [LeanTree.lt_length_level (by omega)]
  have := Nat.div_mul_le_self i (N ^ k)
  omega

theorem getElem?_pathGroup (hN : 2 ≤ N) (i k : ℕ) :
    (pathGroup N H.hashChildren L i k)[i / N ^ k % N]? =
      (LeanTree.level N H.hashChildren L k)[i / N ^ k]? := by
  rw [pathGroup, LeanTree.getElem?_group _ (Nat.mod_lt _ (by omega)), Nat.div_add_mod']

theorem length_pathGroup (i k : ℕ) : (pathGroup N H.hashChildren L i k).length =
    min N ((LeanTree.level N H.hashChildren L k).length - i / N ^ k / N * N) :=
  LeanTree.length_group _ _

theorem pos_lt_length_pathGroup (hN : 2 ≤ N) {i : ℕ} (hi : i < L.length) (k : ℕ) :
    i / N ^ k % N < (pathGroup N H.hashChildren L i k).length := by
  have h1 := path_lt_length (H := H) hN hi k
  have h2 := Nat.div_add_mod' (i / N ^ k) N
  have h3 := Nat.mod_lt (i / N ^ k) (show 0 < N by omega)
  rw [length_pathGroup, Nat.lt_min]
  omega

variable [Zero Hash]

theorem proofLevel_spec {s : TreeSnapshot Hash N MAX_DEPTH} (hs : s.Refines fs H L) (hN : 2 ≤ N)
    (hN' : N ≤ 256) {i k : ℕ} (hi : i < L.length) (hk : k < Nat.clog N L.length)
    (hkm : k < MAX_DEPTH) :
    s.proofLevel fs k (i / N ^ k) = .ok (inclusionLevel N H.hashChildren L i k) := by
  have hl := hs.levels ⟨k, hkm⟩
  rw [storedLevel_of_le hk.le] at hl
  have hidx := path_lt_length (H := H) hN hi k
  have hmod := Nat.div_add_mod' (i / N ^ k) N
  have hlt := Nat.mod_lt (i / N ^ k) (show 0 < N by omega)
  have hpos := pos_lt_length_pathGroup (H := H) hN hi k
  have hglen := length_pathGroup (N := N) (H := H) (L := L) i k
  have hstart : i / N ^ k - i / N ^ k % N = i / N ^ k / N * N := by omega
  have hsize : min (i / N ^ k / N * N + N) (LeanTree.level N H.hashChildren L k).length -
      i / N ^ k / N * N = (pathGroup N H.hashChildren L i k).length := by omega
  have hgroup : ((LeanTree.level N H.hashChildren L k).drop (i / N ^ k / N * N)).take
      (pathGroup N H.hashChildren L i k).length = pathGroup N H.hashChildren L i k := by
    rw [hglen, pathGroup, LeanTree.group, List.take_eq_take_iff, List.length_drop]
    omega
  unfold TreeSnapshot.proofLevel inclusionLevel
  rw [TreeSnapshot.level, FixedArray.index_of_lt _ hkm, Outcome.ok_bind, hl.len]
  dsimp only
  rw [hstart, Outcome.require_pos (by omega), Outcome.ok_bind, hsize, hl.getGroup (by omega),
    Outcome.ok_bind, hgroup]
  generalize pathGroup N H.hashChildren L i k = g at *
  have hsw : FixedArray.StartsWith (FixedArray.padded g : Fin N → Hash) g :=
    FixedArray.startsWith_padded (by omega)
  have hrest : i / N ^ k % N + (g.length - i / N ^ k % N - 1) = g.length - 1 := by omega
  rw [FixedArray.copyFromSlice_zero rfl (by omega), Outcome.ok_bind,
    hsw.slice (by omega) (by omega), Outcome.ok_bind, List.drop_zero,
    FixedArray.copyFromSlice_zero (by simp; omega) (by omega), Outcome.ok_bind,
    hsw.slice (by omega) le_rfl, Outcome.ok_bind, List.take_length, hrest,
    FixedArray.copyFromSlice_padded (by simp; omega) (by simp; omega) (by omega), Outcome.ok_bind,
    toU8_of_lt (by omega), Outcome.ok_bind, toU8_of_lt (by omega), Outcome.ok_bind,
    List.eraseIdx_eq_take_drop_succ]
  rfl

/-- The loop of `generate_proof`, from level `k` with the levels below written. -/
theorem proofLevels_spec {s : TreeSnapshot Hash N MAX_DEPTH} (hs : s.Refines fs H L) (hN : 2 ≤ N)
    (hN' : N ≤ 256) {i : ℕ} (hi : i < L.length) (hD : Nat.clog N L.length ≤ MAX_DEPTH) (n : ℕ) :
    ∀ k, k + n = Nat.clog N L.length →
      s.proofLevels fs n k (i / N ^ k) (fun j => if j.val < k then
        inclusionLevel N H.hashChildren L i j else ProofLevel.EMPTY) =
      .ok fun j => if j.val < Nat.clog N L.length then inclusionLevel N H.hashChildren L i j
        else ProofLevel.EMPTY := by
  induction n with
  | zero =>
      intro k hk
      rw [Nat.add_zero] at hk
      rw [hk]
      rfl
  | succ n ih =>
      intro k hk
      rw [TreeSnapshot.proofLevels, proofLevel_spec hs hN hN' hi (by omega) (by omega),
        Outcome.ok_bind, FixedArray.setAt_of_lt _ _ (by omega), Outcome.ok_bind,
        Nat.div_div_eq_div_mul, ← Nat.pow_succ, ← ih (k + 1) (by omega)]
      congr 1
      funext j
      rcases Nat.lt_trichotomy j.val k with h | h | h
      · rw [if_neg (by omega), if_pos h, if_pos (by omega)]
      · rw [if_pos h, if_pos (by omega), h]
      · rw [if_neg (by omega), if_neg (by omega), if_neg (by omega)]

/-- **`generate_proof`** returns the inclusion proof of the reference tree. -/
theorem generateProof_spec {s : TreeSnapshot Hash N MAX_DEPTH} (hs : s.Refines fs H L)
    (hN : 2 ≤ N) (hN' : N ≤ 256) (hD : 1 ≤ MAX_DEPTH) (hfit : Fits N MAX_DEPTH L) {i : ℕ}
    (hi : i < L.length) {r : Hash} (hr : LeanTree.root N H.hashChildren L = some r) :
    s.generateProof fs i = .ok (inclusionProof N MAX_DEPTH H.hashChildren L i r L[i]) := by
  have hsize := hfit.size
  have hl := hs.levels ⟨0, hD⟩
  rw [storedLevel_of_le (Nat.zero_le _), LeanTree.level_zero] at hl
  have hlevels := proofLevels_spec hs hN hN' hi hfit.depth (Nat.clog N L.length) 0 (by omega)
  simp only [Nat.not_lt_zero, if_false, Nat.pow_zero, Nat.div_one] at hlevels
  unfold TreeSnapshot.generateProof
  rw [if_neg (by rw [hs.size]; omega), u64ToUsize_of_lt (by omega), Outcome.ok_bind, hs.depth,
    hlevels, Outcome.ok_bind, hs.root, hr, Outcome.expect_some, Outcome.ok_bind, TreeSnapshot.level,
    FixedArray.index_of_lt _ hD, Outcome.ok_bind, hl.get hi, Outcome.ok_bind, hs.size]
  rfl

/-- A level of the inclusion proof describes the group of the path. -/
theorem inclusionLevel_spec (hN : 2 ≤ N) (hN' : N ≤ 256) {i k : ℕ} (hi : i < L.length) {y : Hash}
    (hy : (LeanTree.level N H.hashChildren L k)[i / N ^ k]? = some y) :
    (inclusionLevel N H.hashChildren L i k).position.toNat = i / N ^ k % N ∧
      StepFits N (inclusionLevel N H.hashChildren L i k).step ∧
      (inclusionLevel N H.hashChildren L i k).parentOf H y =
        LeanTree.combine H.hashChildren (pathGroup N H.hashChildren L i k) := by
  have hlt := Nat.mod_lt (i / N ^ k) (show 0 < N by omega)
  have hpos := pos_lt_length_pathGroup (H := H) hN hi k
  have hglen := length_pathGroup (N := N) (H := H) (L := L) i k
  have hy' := getElem?_pathGroup (H := H) (L := L) hN i k
  rw [hy] at hy'
  unfold StepFits ProofLevel.parentOf ProofLevel.step inclusionLevel
  dsimp only
  generalize pathGroup N H.hashChildren L i k = g at *
  have e₁ : (UInt8.ofNat (i / N ^ k % N)).toNat = i / N ^ k % N := by
    rw [UInt8.toNat_ofNat', Nat.mod_eq_of_lt (by omega)]
  have e₂ : (UInt8.ofNat (g.length - 1)).toNat = g.length - 1 := by
    rw [UInt8.toNat_ofNat', Nat.mod_eq_of_lt (by omega)]
  refine ⟨e₁, fun _ => by rw [e₁, e₂]; omega, ?_⟩
  rw [e₂]
  split_ifs with h0
  · obtain ⟨a, ha⟩ := List.length_eq_one_iff.mp (show g.length = 1 by omega)
    rw [ha, List.length_singleton] at hpos
    rw [ha, show i / N ^ k % N = 0 by omega, List.getElem?_cons_zero, Option.some.injEq] at hy'
    rw [ha, LeanTree.combine_singleton, hy']
  · have hlen : g.length = (UInt8.ofNat (g.length - 1)).toNat + 1 := by rw [e₂]; omega
    have hmember : g[(UInt8.ofNat (i / N ^ k % N)).toNat]? = some y := by
      rw [e₁]; exact hy'
    have har := ProofLevel.around_eraseIdx (N := N) hlen (by omega) hmember
    rw [e₁] at har
    rw [har, LeanTree.combine_of_two_le (by omega)]

/-- The path of leaf `i` from level `k` up, by induction on the number of levels. -/
theorem ascend_path (hN : 2 ≤ N) (hN' : N ≤ 256) {i : ℕ} (hi : i < L.length) (n : ℕ) :
    ∀ (k : ℕ) (y : Hash), (LeanTree.level N H.hashChildren L k)[i / N ^ k]? = some y →
      StepsFit N (i / N ^ k) (((List.range' k n).map
        (inclusionLevel N H.hashChildren L i)).map ProofLevel.step) ∧
      (LeanTree.level N H.hashChildren L (k + n))[i / N ^ (k + n)]? =
        some (ascend H ((List.range' k n).map (inclusionLevel N H.hashChildren L i)) y) := by
  induction n with
  | zero =>
      intro k y hy
      exact ⟨trivial, hy⟩
  | succ n ih =>
      intro k y hy
      obtain ⟨h1, h2, h3⟩ := inclusionLevel_spec hN hN' hi hy
      have hnode : (LeanTree.level N H.hashChildren L (k + 1))[i / N ^ (k + 1)]? =
          some ((inclusionLevel N H.hashChildren L i k).parentOf H y) := by
        rw [h3, LeanTree.getElem?_level_succ (by omega), pathGroup, Nat.div_div_eq_div_mul,
          ← Nat.pow_succ]
        have := Nat.div_mul_le_self i (N ^ (k + 1))
        omega
      obtain ⟨h4, h5⟩ := ih (k + 1) _ hnode
      rw [List.range'_succ, List.map_cons, List.map_cons, StepsFit, ascend,
        show k + (n + 1) = k + 1 + n by omega, Nat.div_div_eq_div_mul, ← Nat.pow_succ]
      exact ⟨⟨h1, h2, h4⟩, h5⟩

@[simp] theorem levelCount_inclusionProof (h : List Hash → Hash) (i : ℕ) (r y : Hash) :
    (inclusionProof N MAX_DEPTH h L i r y).levelCount = Nat.clog N L.length := rfl

@[simp] theorem leafIndex_inclusionProof (h : List Hash → Hash) (i : ℕ) (r y : Hash) :
    (inclusionProof N MAX_DEPTH h L i r y).leafIndex = i := rfl

theorem used_inclusionProof (h : List Hash → Hash) (hD : Nat.clog N L.length ≤ MAX_DEPTH) (i : ℕ)
    (r y : Hash) : (inclusionProof N MAX_DEPTH h L i r y).used =
      (List.range' 0 (Nat.clog N L.length)).map (inclusionLevel N h L i) :=
  FixedArray.take_ofFn_if hD (inclusionLevel N h L i) ProofLevel.EMPTY

/-- The inclusion proof of the reference tree verifies. -/
theorem inclusionProof_verify [DecidableEq Hash] (hN : 2 ≤ N) (hN' : N ≤ 256)
    (hfit : Fits N MAX_DEPTH L) {i : ℕ} (hi : i < L.length) {r : Hash}
    (hr : LeanTree.root N H.hashChildren L = some r) :
    (inclusionProof N MAX_DEPTH H.hashChildren L i r L[i]).verify H = .ok true := by
  have hsize := hfit.size
  have hne : L ≠ [] := List.length_pos_iff.mp (by omega)
  obtain ⟨r', hr', hlevel⟩ := LeanTree.root_eq_some (N := N) (h := H.hashChildren) (by omega) hne
  rw [hr, Option.some.injEq] at hr'
  obtain ⟨h1, h2⟩ := ascend_path (H := H) hN hN' hi (Nat.clog N L.length) 0 L[i] (by simp)
  rw [Nat.zero_add, hlevel _ le_rfl, ← hr'] at h2
  rw [Nat.pow_zero, Nat.div_one] at h1
  rw [verify_eq_true_iff hN, used_inclusionProof _ hfit.depth]
  refine ⟨⟨hi, hi.trans hsize, rfl, hfit.depth, h1⟩, ?_⟩
  have hzero : i / N ^ Nat.clog N L.length = 0 := by
    apply Nat.div_eq_of_lt
    have := Nat.le_pow_clog (b := N) (by omega) L.length
    omega
  rw [hzero, List.getElem?_cons_zero, Option.some.injEq] at h2
  exact h2.symm

/-- A snapshot that shows a tree proves its leaves. -/
theorem TreeSnapshot.Refines.proves [DecidableEq Hash] {s : TreeSnapshot Hash N MAX_DEPTH}
    (hs : s.Refines fs H L) (hN : 2 ≤ N) (hN' : N ≤ 256) (hD : 1 ≤ MAX_DEPTH)
    (hfit : Fits N MAX_DEPTH L) {i : ℕ} (hi : i < s.size) :
    ∃ p r, s.generateProof fs i = .ok p ∧ L[i]? = some p.leaf ∧ p.verify H = .ok true ∧
      s.root = some r ∧ p.verifyAgainst H r = .ok true := by
  rw [hs.size] at hi
  obtain ⟨r, hr, -⟩ := LeanTree.root_eq_some (N := N) (h := H.hashChildren) (by omega)
    (List.length_pos_iff.mp (Nat.zero_lt_of_lt hi))
  have hv := inclusionProof_verify hN hN' hfit hi hr
  refine ⟨_, r, generateProof_spec hs hN hN' hD hfit hi hr, List.getElem?_eq_getElem hi, hv,
    hs.root.trans hr, ?_⟩
  rw [NaryProof.verifyAgainst, if_neg (by simp [inclusionProof])]
  exact hv

/-- **Completeness.**  After any calls, a proof generated from the snapshot carries the leaf and
verifies, also against the root of the snapshot. -/
theorem generateProof_complete [DecidableEq Hash] (hH : H.Lawful) (hN : 2 ≤ N) (hN' : N ≤ 256)
    (hD : 1 ≤ MAX_DEPTH) (cs : List (Call Hash)) (i : ℕ)
    (hi : i < (after fs H cs : TreeInner Hash N MAX_DEPTH).snapshot.size) :
    ∃ p r, (after fs H cs : TreeInner Hash N MAX_DEPTH).snapshot.generateProof fs i = .ok p ∧
      (accepted N MAX_DEPTH cs)[i]? = some p.leaf ∧ p.verify H = .ok true ∧
      (after fs H cs : TreeInner Hash N MAX_DEPTH).snapshot.root = some r ∧
      p.verifyAgainst H r = .ok true :=
  (after_refines hH hN hD cs).snapshot.proves hN hN' hD (accepted_fits cs) hi

/-- The last of three leaves of a binary tree, which is lifted to the level below the root. -/
theorem generateProof_complete_lifted :
    ∃ p r, (after (fun _ _ _ => 0) (Hasher.scalar fun g => g.sum + 1)
        [.insert 5, .insertMany (fun _ _ => true) [6, 7]] : TreeInner ℕ 2 2).snapshot.generateProof
          (fun _ _ _ => 0) 2 = .ok p ∧
      p.leaf = 7 ∧ p.verifyAgainst (Hasher.scalar fun g => g.sum + 1) r = .ok true := by
  have hi : 2 < (after (fun _ _ _ => 0) (Hasher.scalar fun g => g.sum + 1)
      [.insert 5, .insertMany (fun _ _ => true) [6, 7]] : TreeInner ℕ 2 2).snapshot.size := by
    rw [(after_refines (Hasher.scalar_lawful _) (by decide) (by decide) _).snapshot.size]
    decide
  obtain ⟨p, r, h1, h2, -, -, h3⟩ := generateProof_complete (Hasher.scalar_lawful _) (by decide)
    (by decide) (by decide) _ 2 hi
  exact ⟨p, r, h1, (Option.some.inj h2).symm, h3⟩

end Generate

end Works.Rotortree
