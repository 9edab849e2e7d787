import Works.Rotortree.Consistency

/-! # Updating inclusion proofs

`update_inclusion_proof` climbs the old boundary like the verifier.  Left of the boundary group
the member's group is the same in both trees and its level is kept.  In the boundary group the
old siblings are put back around a hole at the member, the boundary node is replaced by the one of
the new tree, and the new nodes are appended: the group of the new tree with a hole at the member
(`boundaryLevel_spec`).  Level by level the result is the proof of the new tree. -/

namespace Works.Rotortree

open Works.Lib

variable {Hash : Type} {N MAX_DEPTH : ℕ}

namespace ConsistencyProof

variable [Zero Hash]

/-! ### Groups with a hole -/

theorem set_eq_hole {g : List Hash} {p : ℕ} (hp : p < g.length) :
    g.set p 0 = g.take p ++ [0] ++ g.drop (p + 1) := by
  rw [List.set_eq_take_append_cons_drop, if_pos hp, List.append_assoc, List.singleton_append]

/-- Siblings put back around a hole. -/
theorem oldGroup_of_siblings {g : List Hash} {oldProof : NaryProof Hash N MAX_DEPTH} {k p : ℕ}
    (hk : k < oldProof.levelCount) (hkm : k < MAX_DEPTH) (hp : p < g.length) (hN : g.length ≤ N)
    (hcount : (oldProof.levels ⟨k, hkm⟩).siblingCount.toNat + 1 = g.length)
    (hsw : FixedArray.StartsWith (oldProof.levels ⟨k, hkm⟩).siblings (g.eraseIdx p)) :
    oldGroup oldProof k p = .ok (FixedArray.padded (g.set p 0), g.length) := by
  have helen : (g.eraseIdx p).length = g.length - 1 := List.length_eraseIdx_of_lt hp
  have htl : (g.take p).length = p := by rw [List.length_take]; omega
  have hleft : (g.eraseIdx p).take p = g.take p := by
    rw [List.eraseIdx_eq_take_drop_succ, List.take_append_of_le_length (by omega),
      List.take_of_length_le (by omega)]
  have hright : (g.eraseIdx p).drop p = g.drop (p + 1) := by
    rw [List.eraseIdx_eq_take_drop_succ, List.drop_append_of_le_length (by omega),
      List.drop_of_length_le (by omega), List.nil_append]
  unfold oldGroup
  rw [if_pos hk, FixedArray.index_of_lt _ hkm, Outcome.ok_bind]
  dsimp only
  rw [hcount, hsw.slice (Nat.zero_le _) (by omega), Outcome.ok_bind, List.drop_zero, hleft,
    FixedArray.copyFromSlice_zero htl.symm (by omega), Outcome.ok_bind, set_eq_hole hp]
  split_ifs with h1
  · rw [hsw.slice (by omega) (by omega), Outcome.ok_bind, ← helen, List.take_length, hright,
      ← FixedArray.padded_concat_zero,
      FixedArray.copyFromSlice_padded (by simp; omega) (by simp; omega) hN, Outcome.ok_bind]
    rfl
  · rw [List.drop_of_length_le (by omega), List.append_nil, FixedArray.padded_concat_zero]
    rfl

/-- Above the root of the old tree the old group is the boundary node alone. -/
theorem oldGroup_above {oldProof : NaryProof Hash N MAX_DEPTH} {k : ℕ}
    (hk : oldProof.levelCount ≤ k) (x : Hash) :
    oldGroup oldProof k 0 = .ok (FixedArray.padded ([x].set 0 0), 1) := by
  unfold oldGroup
  rw [if_neg (by omega)]
  exact congrArg (fun a => Except.ok (a, 1)) (FixedArray.padded_concat_zero ([] : List Hash)).symm

/-- The siblings of a group with a hole. -/
theorem siblingsOf_hole {g : List Hash} {p : ℕ} (hp : p < g.length) (hN : g.length ≤ N) :
    siblingsOf (FixedArray.padded (g.set p 0) : Fin N → Hash) p g.length =
      .ok (FixedArray.padded (g.eraseIdx p)) := by
  have hsw : FixedArray.StartsWith (FixedArray.padded (g.set p 0) : Fin N → Hash) (g.set p 0) :=
    FixedArray.startsWith_padded (by rw [List.length_set]; exact hN)
  have htl : (g.take p).length = p := by rw [List.length_take]; omega
  have hlen : (g.set p 0).length = g.length := List.length_set
  unfold siblingsOf
  rw [hsw.slice (Nat.zero_le _) (by omega), Outcome.ok_bind, List.drop_zero, List.take_set_of_le le_rfl,
    FixedArray.copyFromSlice_zero htl.symm (by omega), Outcome.ok_bind,
    List.eraseIdx_eq_take_drop_succ]
  split_ifs with h1
  · rw [hsw.slice (by omega) hlen.ge, Outcome.ok_bind, ← hlen, List.take_length,
      List.drop_set_of_lt (by omega), hlen,
      FixedArray.copyFromSlice_padded htl.symm (by simp; omega) (by omega)]
  · rw [List.drop_of_length_le (by omega), List.append_nil]
    rfl

/-- The boundary node is brought up to date, unless the member is at the boundary itself. -/
theorem refreshBoundary_spec {left : List Hash} {x y hash : Hash} {k p : ℕ} (hp : p ≤ left.length)
    (hN : left.length + 1 ≤ N) (hk : 0 < k → hash = y) (h0 : k = 0 → x = y) :
    refreshBoundary (FixedArray.padded ((left ++ [x]).set p 0) : Fin N → Hash) k p left.length hash =
      .ok (FixedArray.padded ((left ++ [y]).set p 0)) := by
  have hset : ∀ z w : Hash, (left ++ [z]).set left.length w = left ++ [w] := by
    intro z w
    rw [List.set_append_right _ _ le_rfl, Nat.sub_self]
    rfl
  unfold refreshBoundary
  split_ifs with hc
  · rw [FixedArray.setAt_padded _ (by simp) (by simp; omega), List.set_comm _ _ (by omega), hset,
      hk hc.1]
  · rcases Nat.eq_zero_or_pos k with hk0 | hk0
    · rw [h0 hk0]
      rfl
    · have hpl : p = left.length := by omega
      rw [hpl, hset, hset]
      rfl

theorem appendNew_spec {level : ConsistencyLevel Hash N} {l : List Hash}
    (hnew : level.newHashes = .ok level.new) (hlen : level.new.length = level.newCount.toNat)
    (hN : l.length + level.new.length ≤ N) :
    appendNew (FixedArray.padded l) level l.length = .ok (FixedArray.padded (l ++ level.new)) := by
  unfold appendNew
  split_ifs with h0
  · rw [hnew, Outcome.ok_bind, FixedArray.copyFromSlice_padded rfl (by omega) (by omega)]
  · rw [List.length_eq_zero_iff.mp (show level.new.length = 0 by omega), List.append_nil]
    rfl

/-- In the boundary group the new level is the group of the new tree without the member, if its
counts fit a byte. -/
theorem boundaryLevel_of_group {oldProof : NaryProof Hash N MAX_DEPTH}
    {level : ConsistencyLevel Hash N} {left : List Hash} {x y hash : Hash} {k p : ℕ}
    (hold : oldGroup oldProof k p = .ok (FixedArray.padded ((left ++ [x]).set p 0), left.length + 1))
    (hp : p ≤ left.length) (hN : left.length + 1 + level.new.length ≤ N)
    (hnew : level.newHashes = .ok level.new) (hlen : level.new.length = level.newCount.toNat)
    (hk : 0 < k → hash = y) (h0 : k = 0 → x = y) :
    boundaryLevel oldProof level k p left.length hash = (do
      let position ← toU8 p
      let siblingCount ← toU8 (left.length + level.new.length)
      pure ⟨position, siblingCount, FixedArray.padded ((left ++ y :: level.new).eraseIdx p)⟩) := by
  have hholes : ((left ++ [y]).set p 0).length = left.length + 1 := by simp
  have hsize : left.length + 1 + level.newCount.toNat = (left ++ y :: level.new).length := by
    rw [List.length_append, List.length_cons, hlen]; omega
  have happend : (left ++ [y]).set p 0 ++ level.new = (left ++ y :: level.new).set p 0 := by
    rw [← List.set_append_left _ _ (by simp; omega), List.append_assoc, List.singleton_append]
  have hnew' := appendNew_spec (l := (left ++ [y]).set p 0) hnew hlen (by omega)
  rw [hholes] at hnew'
  have hcount : left.length + level.new.length = (left ++ y :: level.new).length - 1 := by
    rw [List.length_append, List.length_cons]; omega
  unfold boundaryLevel
  rw [hold, Outcome.ok_bind]
  dsimp only
  rw [refreshBoundary_spec hp (by omega) hk h0, Outcome.ok_bind, hnew', Outcome.ok_bind, happend,
    hsize, siblingsOf_hole (by simp; omega) (by rw [← hsize]; omega), Outcome.ok_bind, hcount]

/-! ### One level of the update -/

section Level

variable {H : Hasher Hash} {ys : List Hash} {m i k : ℕ}

omit [Zero Hash] in
theorem member_le_boundary (him : i < m) (k : ℕ) : i / N ^ k ≤ boundary N m k :=
  Nat.div_le_div_right (by omega)

/-- The old group with a hole at the member; above the old root it is the boundary node alone. -/
theorem oldGroup_spec (r leaf : Hash) (hN : 2 ≤ N) (hN' : N ≤ 255) (hm : 0 < m)
    (hmn : m ≤ ys.length) (hD : Nat.clog N m ≤ MAX_DEPTH) {x : Hash} {left : List Hash}
    (hleft : left.length = boundary N m k % N) (hpos : i / N ^ k % N ≤ left.length)
    (hg : pathGroup N H.hashChildren (ys.take m) i k = left ++ [x]) :
    oldGroup (inclusionProof N MAX_DEPTH H.hashChildren (ys.take m) i r leaf) k (i / N ^ k % N) =
      .ok (FixedArray.padded ((left ++ [x]).set (i / N ^ k % N) 0), left.length + 1) := by
  have htl : (ys.take m).length = m := by rw [List.length_take]; omega
  have hlt := Nat.mod_lt (boundary N m k) (show 0 < N by omega)
  have hlen : (left ++ [x]).length = left.length + 1 := by simp
  rcases Nat.lt_or_ge k (Nat.clog N m) with hk | hk
  · have hlevel : (inclusionProof N MAX_DEPTH H.hashChildren (ys.take m) i r leaf).levels
        ⟨k, by omega⟩ = inclusionLevel N H.hashChildren (ys.take m) i k :=
      if_pos (by rw [htl]; exact hk)
    rw [oldGroup_of_siblings (g := left ++ [x]) (by rw [levelCount_inclusionProof, htl]; exact hk) (by omega)
      (by omega) (by omega), hlen]
    · rw [hlevel, inclusionLevel, hg, hlen, UInt8.toNat_ofNat', Nat.mod_eq_of_lt (by omega)]
      omega
    · rw [hlevel, inclusionLevel, hg]
      exact FixedArray.startsWith_padded (by
        have := List.length_eraseIdx_le (left ++ [x]) (i / N ^ k % N)
        omega)
  · rw [boundary_of_clog_le hN hm hk, Nat.zero_mod] at hleft
    rw [List.length_eq_zero_iff.mp hleft, show i / N ^ k % N = 0 by omega]
    exact oldGroup_above (by rw [levelCount_inclusionProof, htl]; exact hk) x

/-- The member is in the boundary group: its level is the one of the new tree. -/
theorem boundaryLevel_spec (hN : 2 ≤ N) (hN' : N ≤ 255) (hmem : FitsMemory ys) (hm : 0 < m)
    (hmn : m ≤ ys.length) (him : i < m) (hD : Nat.clog N m ≤ MAX_DEPTH)
    (hsame : i / N ^ k / N = boundary N m k / N) {r leaf hash : Hash}
    (hhash : 0 < k → (LeanTree.level N H.hashChildren ys k)[boundary N m k]? = some hash) :
    boundaryLevel (inclusionProof N MAX_DEPTH H.hashChildren (ys.take m) i r leaf)
        (levelAt N H.hashChildren ys m k) k (i / N ^ k % N) (boundary N m k % N) hash =
      .ok (inclusionLevel N H.hashChildren ys i k) := by
  have htl : (ys.take m).length = m := by rw [List.length_take]; omega
  obtain ⟨hfit, hleft, hnew, -⟩ := levelAt_spec hN hN' hmem hm hmn H.hashChildren k
  have hnl := hfit.new_length hN hm hmn
  have hll := left_length hN (levelAt N H.hashChildren ys m k) m k
  have hnewHashes := hfit.newHashes hN hm hmn
  obtain ⟨-, -, hnc⟩ := hfit
  obtain ⟨-, hle, -⟩ := boundaryPos_add_newCountAt hN hm hmn k
  obtain ⟨x, hx⟩ := (@exists_boundary _ _ _ H.hashChildren (ys.take m)) hN hm htl.ge k
  obtain ⟨y, hy⟩ := exists_boundary (h := H.hashChildren) hN hm hmn k
  -- both groups, split at the boundary
  have hgX : pathGroup N H.hashChildren (ys.take m) i k =
      (levelAt N H.hashChildren ys m k).left (boundary N m k % N) ++ [x] := by
    rw [pathGroup, hsame, ← boundary_succ, group_boundary hN hx, htl, newCountAt_self hN hm,
      List.take_zero, left_take hN hm hmn, hleft]
  have hgY : pathGroup N H.hashChildren ys i k =
      (levelAt N H.hashChildren ys m k).left (boundary N m k % N) ++
        y :: (levelAt N H.hashChildren ys m k).new := by
    rw [pathGroup, hsame, ← boundary_succ, group_boundary hN hy, hleft, hnew]
  have hpos : i / N ^ k % N ≤ ((levelAt N H.hashChildren ys m k).left (boundary N m k % N)).length := by
    have h1 := Nat.div_add_mod' (i / N ^ k) N
    have h2 := Nat.div_add_mod' (boundary N m k) N
    have h3 := member_le_boundary (N := N) him k
    rw [hsame] at h1
    omega
  have hxy : k = 0 → x = y := by
    intro h0
    subst h0
    rw [LeanTree.level_zero, boundary, Nat.pow_zero, Nat.div_one] at hx hy
    rw [List.getElem?_take_of_lt (by omega), hy, Option.some.injEq] at hx
    exact hx.symm
  have hhash' : 0 < k → hash = y := by
    intro h0
    have := hhash h0
    rw [hy, Option.some.injEq] at this
    exact this.symm
  have hold := oldGroup_spec r leaf hN hN' hm hmn hD hll hpos hgX
  have hgroup := boundaryLevel_of_group hold hpos (by omega) hnewHashes (by omega) hhash' hxy
  rw [hll] at hgroup
  rw [hgroup, toU8_of_lt (by omega), Outcome.ok_bind, toU8_of_lt (by omega), Outcome.ok_bind,
    inclusionLevel, hgY]
  congr 3
  rw [List.length_append, List.length_cons]
  omega

/-- The member is left of the boundary group: its group is complete in both trees. -/
theorem inclusionLevel_take (hN : 2 ≤ N) (hm : 0 < m) (hmn : m ≤ ys.length) (him : i < m)
    (hne : i / N ^ k / N ≠ boundary N m k / N) (h : List Hash → Hash) :
    inclusionLevel N h (ys.take m) i k = inclusionLevel N h ys i k := by
  have hle := Nat.div_le_div_right (c := N) (member_le_boundary (N := N) him k)
  have hlt := boundary_mul_lt (N := N) hm k
  have hgroup : pathGroup N h (ys.take m) i k = pathGroup N h ys i k := by
    apply LeanTree.group_eq_of_agree
    intro c hc
    apply LeanTree.level_take (by omega) ys hmn
    have hnext : (i / N ^ k / N + 1) * N ≤ boundary N m k / N * N :=
      Nat.mul_le_mul_right _ (by omega)
    have hdiv := Nat.div_mul_le_self (boundary N m k) N
    rw [Nat.add_mul, Nat.one_mul] at hnext
    calc (i / N ^ k / N * N + c + 1) * N ^ k ≤ boundary N m k * N ^ k :=
          Nat.mul_le_mul_right _ (by omega)
      _ ≤ m := hlt.le
  unfold inclusionLevel
  rw [hgroup]

/-- One level of the update writes the level of the new tree's proof. -/
theorem updateLevel_spec (hN : 2 ≤ N) (hN' : N ≤ 255) (hmem : FitsMemory ys) (hm : 0 < m)
    (hmn : m ≤ ys.length) (him : i < m) (hD : Nat.clog N m ≤ MAX_DEPTH) (hk : k < MAX_DEPTH)
    {r leaf hash : Hash}
    (hhash : 0 < k → (LeanTree.level N H.hashChildren ys k)[boundary N m k]? = some hash)
    (newLevels : Fin MAX_DEPTH → ProofLevel Hash N) :
    updateLevel (inclusionProof N MAX_DEPTH H.hashChildren (ys.take m) i r leaf)
        (levelAt N H.hashChildren ys m k) k (boundary N m k) (i / N ^ k) hash newLevels =
      FixedArray.setAt newLevels k (inclusionLevel N H.hashChildren ys i k) := by
  have htl : (ys.take m).length = m := by rw [List.length_take]; omega
  unfold updateLevel
  by_cases hsame : i / N ^ k / N = boundary N m k / N
  · rw [if_neg (by simpa using hsame),
      boundaryLevel_spec hN hN' hmem hm hmn him hD hsame hhash, Outcome.ok_bind]
  · have hle := Nat.div_le_div_right (c := N) (member_le_boundary (N := N) him k)
    -- the boundary is not the first node, so the old tree has a level above
    have hkm : k < Nat.clog N m := by
      by_contra hc
      rw [boundary_of_clog_le hN hm (by omega), Nat.zero_div] at hle hsame
      exact hsame (Nat.le_zero.mp hle)
    have hkt : k < Nat.clog N (ys.take m).length := by rw [htl]; exact hkm
    have hlevel : (inclusionProof N MAX_DEPTH H.hashChildren (ys.take m) i r leaf).levels ⟨k, hk⟩ =
        inclusionLevel N H.hashChildren (ys.take m) i k := if_pos hkt
    rw [if_pos hsame, levelCount_inclusionProof, if_pos hkt, FixedArray.index_of_lt _ hk, Outcome.ok_bind, hlevel,
      inclusionLevel_take hN hm hmn him hsame]

omit [Zero Hash] in
/-- The node above the boundary group of the new tree, from a level with the right counts. -/
theorem nextBoundaryHash_of_fits {n : ℕ} {level : ConsistencyLevel Hash N} (hN : 2 ≤ N) (hm : 0 < m)
    (hmn : m ≤ n) (hfit : LevelFits N m n k level) (mid : Hash) (children : Fin N → Hash) :
    ∃ children', nextBoundaryHash H level (boundary N m k % N) mid children =
      .ok (LeanTree.combine H.hashChildren
        (level.left (boundary N m k % N) ++ mid :: level.new), children') := by
  have hnl := hfit.new_length hN hm hmn
  have hll := left_length hN level m k
  have hnewHashes := hfit.newHashes hN hm hmn
  obtain ⟨-, -, hnc⟩ := hfit
  obtain ⟨-, hle, -⟩ := boundaryPos_add_newCountAt hN hm hmn k
  unfold nextBoundaryHash
  dsimp only
  split_ifs with h1
  · refine ⟨children, ?_⟩
    rw [List.length_eq_zero_iff.mp (show level.new.length = 0 by omega),
      List.length_eq_zero_iff.mp (show (level.left (boundary N m k % N)).length = 0 by omega)]
    rfl
  · obtain ⟨a₁, a₂, a₃, e₁, e₂, e₃, e₄⟩ := FixedArray.fill_around (ε := TreeError) children mid
      (boundary N m k % N) (boundary N m k % N + 1 + level.newCount.toNat) hll.symm
      (show _ = _ + level.new.length by omega) (by omega)
    refine ⟨a₃, ?_⟩
    rw [FixedArray.slice_of_le _ (by omega) (by omega), Outcome.ok_bind, List.drop_zero]
    rw [show (List.ofFn level.hashes).take (boundary N m k % N) = level.left (boundary N m k % N)
      from rfl, e₁, Outcome.ok_bind, e₂, Outcome.ok_bind, hnewHashes, Outcome.ok_bind, e₃,
      Outcome.ok_bind, e₄, Outcome.ok_bind,
      LeanTree.combine_of_two_le (by rw [List.length_append, List.length_cons]; omega)]
    rfl

/-- The boundary node of the new tree, one level up. -/
theorem nextBoundaryHash_spec (hN : 2 ≤ N) (hN' : N ≤ 255) (hmem : FitsMemory ys) (hm : 0 < m)
    (hmn : m ≤ ys.length) {mid : Hash}
    (hmid : (LeanTree.level N H.hashChildren ys k)[boundary N m k]? = some mid)
    (children : Fin N → Hash) :
    ∃ hash children', nextBoundaryHash H (levelAt N H.hashChildren ys m k) (boundary N m k % N) mid
        children = .ok (hash, children') ∧
      (LeanTree.level N H.hashChildren ys (k + 1))[boundary N m (k + 1)]? = some hash := by
  obtain ⟨hfit, hleft, hnew, -⟩ := levelAt_spec hN hN' hmem hm hmn H.hashChildren k
  obtain ⟨children', e⟩ := nextBoundaryHash_of_fits (H := H) hN hm hmn hfit mid children
  refine ⟨_, children', e, ?_⟩
  rw [boundary_node hN hm hmn, group_boundary hN hmid, ← hleft, ← hnew]

/-- The boundary node of the new tree at level `k`, from below or from the level itself. -/
theorem updateMid_eq (hN : 2 ≤ N) (level : ConsistencyLevel Hash N) (m k : ℕ) (hash : Hash) :
    updateMid level k (boundary N m k % N) hash = .ok (midsAt level m k hash hash).2 := by
  have hlt := Nat.mod_lt (boundary N m k) (show 0 < N by omega)
  unfold updateMid midsAt
  split_ifs with h0
  · rw [FixedArray.index_of_lt _ hlt]
    simp [ConsistencyLevel.middle, hlt]
  · rfl

theorem updateMid_spec (hN : 2 ≤ N) (hN' : N ≤ 255) (hmem : FitsMemory ys) (hm : 0 < m)
    (hmn : m ≤ ys.length) {hash : Hash}
    (hhash : 0 < k → (LeanTree.level N H.hashChildren ys k)[boundary N m k]? = some hash) :
    ∃ mid, updateMid (levelAt N H.hashChildren ys m k) k (boundary N m k % N) hash = .ok mid ∧
      (LeanTree.level N H.hashChildren ys k)[boundary N m k]? = some mid := by
  obtain ⟨-, -, -, hmid⟩ := levelAt_spec hN hN' hmem hm hmn H.hashChildren k
  refine ⟨_, updateMid_eq hN _ m k hash, ?_⟩
  unfold midsAt
  split_ifs with h0
  · exact (hmid h0).symm
  · exact hhash (by omega)

/-- All levels of the update, from level `k` with the levels below written. -/
theorem updateLevels_spec (hN : 2 ≤ N) (hN' : N ≤ 255) (hmem : FitsMemory ys) (hm : 0 < m)
    (hmn : m ≤ ys.length) (him : i < m) (hD : Nat.clog N ys.length ≤ MAX_DEPTH) (r leaf : Hash)
    (n : ℕ) : ∀ (k : ℕ) (hash : Hash) (children : Fin N → Hash),
      k + n = Nat.clog N ys.length →
      (0 < k → (LeanTree.level N H.hashChildren ys k)[boundary N m k]? = some hash) →
      updateLevels H (inclusionProof N MAX_DEPTH H.hashChildren (ys.take m) i r leaf) k
        ((List.range' k n).map (levelAt N H.hashChildren ys m)) (m ⌈/⌉ N ^ k) (i / N ^ k) hash children
        (fun j => if j.val < k then inclusionLevel N H.hashChildren ys i j else ProofLevel.EMPTY) =
      .ok fun j => if j.val < Nat.clog N ys.length then inclusionLevel N H.hashChildren ys i j
        else ProofLevel.EMPTY := by
  have hDm : Nat.clog N m ≤ MAX_DEPTH := (Nat.clog_mono_right N hmn).trans hD
  induction n with
  | zero =>
      intro k hash children hk _
      rw [Nat.add_zero] at hk
      rw [hk]
      rfl
  | succ n ih =>
      intro k hash children hk hhash
      obtain ⟨mid, emid, hmid⟩ := updateMid_spec hN hN' hmem hm hmn hhash
      obtain ⟨next, children', enext, hnext⟩ := nextBoundaryHash_spec hN hN' hmem hm hmn hmid children
      rw [List.range'_succ, List.map_cons, updateLevels,
        Outcome.require_pos (by rw [ceilDiv_eq_boundary hN hm]; omega), Outcome.ok_bind]
      dsimp only
      rw [ceilDiv_sub_one hN hm, updateLevel_spec hN hN' hmem hm hmn him hDm (by omega) hhash,
        FixedArray.setAt_of_lt _ _ (by omega), Outcome.ok_bind, emid, Outcome.ok_bind, enext,
        Outcome.ok_bind, LeanTree.ceilDiv_ceilDiv (Nat.pow_pos (by omega)) (by omega),
        Nat.div_div_eq_div_mul, ← Nat.pow_succ, ← ih (k + 1) next children' (by omega) fun _ => hnext]
      congr 1
      funext j
      rcases Nat.lt_trichotomy j.val k with h | h | h
      · rw [if_neg (by omega), if_pos h, if_pos (by omega)]
      · rw [if_pos h, if_pos (by omega), h]
      · rw [if_neg (by omega), if_neg (by omega), if_neg (by omega)]

variable [DecidableEq Hash]

/-- **The update of the reference proofs.** -/
theorem updateInclusionProof_spec (hN : 2 ≤ N) (hN' : N ≤ 255) (hfit : Fits N MAX_DEPTH ys)
    (hmem : FitsMemory ys) (hm : 0 < m) (hmn : m < ys.length) (him : i < m)
    {oldRoot newRoot : Hash} (leaf : Hash)
    (hor : LeanTree.root N H.hashChildren (ys.take m) = some oldRoot)
    (hnr : LeanTree.root N H.hashChildren ys = some newRoot) :
    (proofFrom N MAX_DEPTH H.hashChildren ys m oldRoot newRoot).updateInclusionProof H
        (inclusionProof N MAX_DEPTH H.hashChildren (ys.take m) i oldRoot leaf) =
      .ok (inclusionProof N MAX_DEPTH H.hashChildren ys i newRoot leaf) := by
  have hsize := hfit.size
  have hv := proofFrom_verify hN hN' hfit hmem hm hmn oldRoot hor hnr
  have hlevels := FixedArray.take_ofFn_if hfit.depth (levelAt N H.hashChildren ys m)
    ConsistencyLevel.EMPTY
  have hup := updateLevels_spec (H := H) hN hN' hmem hm hmn.le him hfit.depth oldRoot leaf
    (Nat.clog N ys.length) 0 0 (fun _ => 0) (by omega) (fun h => absurd h (Nat.lt_irrefl 0))
  simp only [Nat.not_lt_zero, if_false, Nat.pow_zero, Nat.div_one, ceilDiv_one] at hup
  unfold updateInclusionProof
  rw [if_neg (by simp [inclusionProof, proofFrom]), hv, beq_self_eq_true, Outcome.ok_bind]
  simp only [Bool.not_true, Bool.false_eq_true, if_false]
  rw [leafIndex_inclusionProof]
  unfold proofFrom
  dsimp only
  rw [if_neg (by omega), if_neg (by omega), u64ToUsize_of_lt (by omega), Outcome.ok_bind,
    u64ToUsize_of_lt (by omega), Outcome.ok_bind, FixedArray.slice_of_le _ (Nat.zero_le _) hfit.depth,
    Outcome.ok_bind, hlevels, List.drop_zero, hup, Outcome.ok_bind]
  rfl

variable {fs : ShardFs Hash}

/-- **Updating equals regenerating.**  Take a tree and, from its own calls, the tree over its first
`m` leaves.  The inclusion proof of the small tree, updated along the consistency proof of the
large one, is the inclusion proof the large tree generates. -/
theorem update_eq_regenerate (hH : H.Lawful) (hN : 2 ≤ N) (hN' : N ≤ 255) (hD : 1 ≤ MAX_DEPTH)
    (cs cs₀ : List (Call Hash)) (hmem : FitsMemory (accepted N MAX_DEPTH cs)) (m i : ℕ)
    (hm : 1 ≤ m) (hmn : m < (after fs H cs : TreeInner Hash N MAX_DEPTH).snapshot.size)
    (him : i < m) (htake : accepted N MAX_DEPTH cs₀ = (accepted N MAX_DEPTH cs).take m) :
    ∃ ip cp q rootM,
      (after fs H cs₀ : TreeInner Hash N MAX_DEPTH).snapshot.generateProof fs i = .ok ip ∧
      (after fs H cs₀ : TreeInner Hash N MAX_DEPTH).snapshot.root = some rootM ∧
      (after fs H cs : TreeInner Hash N MAX_DEPTH).snapshot.generateConsistencyProof fs m rootM =
        .ok cp ∧
      (after fs H cs : TreeInner Hash N MAX_DEPTH).snapshot.generateProof fs i = .ok q ∧
      cp.updateInclusionProof H ip = .ok q := by
  have hs : (after fs H cs : TreeInner Hash N MAX_DEPTH).snapshot.Refines fs H
      (accepted N MAX_DEPTH cs) := (after_refines hH hN hD cs).snapshot
  have hs₀ : (after fs H cs₀ : TreeInner Hash N MAX_DEPTH).snapshot.Refines fs H
      ((accepted N MAX_DEPTH cs).take m) := htake ▸ (after_refines hH hN hD cs₀).snapshot
  have hfit : Fits N MAX_DEPTH (accepted N MAX_DEPTH cs) := accepted_fits cs
  have hfit₀ : Fits N MAX_DEPTH ((accepted N MAX_DEPTH cs).take m) := htake ▸ accepted_fits cs₀
  rw [hs.size] at hmn
  have htl : ((accepted N MAX_DEPTH cs).take m).length = m := by rw [List.length_take]; omega
  obtain ⟨newRoot, hnr, -⟩ := LeanTree.root_eq_some (N := N) (h := H.hashChildren) (by omega)
    (show accepted N MAX_DEPTH cs ≠ [] from List.length_pos_iff.mp (by omega))
  obtain ⟨rootM, hor, -⟩ := LeanTree.root_eq_some (N := N) (h := H.hashChildren) (by omega)
    (show (accepted N MAX_DEPTH cs).take m ≠ [] from List.length_pos_iff.mp (by omega))
  have hleaf : ((accepted N MAX_DEPTH cs).take m)[i] = (accepted N MAX_DEPTH cs)[i] :=
    List.getElem_take
  refine ⟨_, _, _, rootM, generateProof_spec hs₀ hN (by omega) hD hfit₀ (by omega) hor,
    hs₀.root.trans hor, generateConsistencyProof_spec hs hN hN' hfit hmem hm hmn rootM hnr,
    generateProof_spec hs hN (by omega) hD hfit (by omega) hnr, ?_⟩
  rw [hleaf]
  exact updateInclusionProof_spec hN hN' hfit hmem hm hmn him _ hor hnr

/-- Leaf `0` of a binary tree, from two leaves to three. -/
theorem update_eq_regenerate_binary :
    ∃ ip cp q rootM,
      (after (fun _ _ _ => 0) (Hasher.scalar nodeHash) [.insert 0, .insert 2] :
        TreeInner ℕ 2 2).snapshot.generateProof (fun _ _ _ => 0) 0 = .ok ip ∧
      (after (fun _ _ _ => 0) (Hasher.scalar nodeHash) [.insert 0, .insert 2, .insert 4] :
        TreeInner ℕ 2 2).snapshot.generateConsistencyProof (fun _ _ _ => 0) 2 rootM = .ok cp ∧
      cp.updateInclusionProof (Hasher.scalar nodeHash) ip = .ok q := by
  have hmn : 2 < (after (fun _ _ _ => 0) (Hasher.scalar nodeHash) [.insert 0, .insert 2, .insert 4] :
      TreeInner ℕ 2 2).snapshot.size := by
    rw [(after_refines (Hasher.scalar_lawful _) (by decide) (by decide) _).snapshot.size]
    decide
  have hmem : FitsMemory (accepted 2 2 [.insert 0, .insert 2, .insert 4]) := by
    unfold FitsMemory
    decide
  obtain ⟨ip, cp, q, r, h1, -, h3, -, h5⟩ := update_eq_regenerate (Hasher.scalar_lawful _) (by decide)
    (by decide) (by decide) _ [.insert 0, .insert 2] hmem 2 0 (by decide) hmn (by decide) (by decide)
  exact ⟨ip, cp, q, r, h1, h3, h5⟩

end Level

end ConsistencyProof

end Works.Rotortree
