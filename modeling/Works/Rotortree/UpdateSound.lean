import Works.Rotortree.Hostile

/-! # When an updated proof is valid

The update takes the member's old group from the proof it updates, with the sibling count that
proof claims.  `verify` does not compare that count with the old tree, so a proof can verify
against the old root and yet describe groups of the wrong size.  Where every count on the shared
part of the path is the one of the old tree (`CountsRightFrom`), the hashes of both proofs name the
same nodes, going down from the old root (`around_eq`), and going up again the updated proof
climbs to the new root (`nodeAt_updated`, `verify_of_countsRight`). -/

namespace Works.Rotortree

open Works.Lib Outcome

variable {Hash : Type} {N MAX_DEPTH : ℕ} {H : Hasher Hash} [Zero Hash]

/-! ### The inclusion verifier, level by level -/

namespace NaryProof

/-- The level `k` of the proof. -/
def levelOf (p : NaryProof Hash N MAX_DEPTH) (k : ℕ) : ProofLevel Hash N :=
  if h : k < MAX_DEPTH then p.levels ⟨k, h⟩ else ProofLevel.EMPTY

/-- The node at level `k` of the path, as the proof builds it. -/
def nodeAt (H : Hasher Hash) (p : NaryProof Hash N MAX_DEPTH) : ℕ → Hash
  | 0 => p.leaf
  | k + 1 => (p.levelOf k).parentOf H (nodeAt H p k)

/-- The checks of `verify` on level `k`. -/
def StepAt (p : NaryProof Hash N MAX_DEPTH) (k : ℕ) : Prop :=
  (p.levelOf k).position.toNat = p.leafIndex / N ^ k % N ∧ StepFits N (p.levelOf k).step

theorem levelOf_of_lt (p : NaryProof Hash N MAX_DEPTH) {k : ℕ} (h : k < MAX_DEPTH) :
    p.levelOf k = p.levels ⟨k, h⟩ := dif_pos h

theorem used_eq (p : NaryProof Hash N MAX_DEPTH) (h : p.levelCount ≤ MAX_DEPTH) :
    p.used = (List.range' 0 p.levelCount).map p.levelOf :=
  FixedArray.take_ofFn_eq_map h fun _ hk => p.levelOf_of_lt hk

theorem ascend_range' (p : NaryProof Hash N MAX_DEPTH) (n : ℕ) :
    ∀ k, ascend H ((List.range' k n).map p.levelOf) (p.nodeAt H k) = p.nodeAt H (k + n) := by
  induction n with
  | zero =>
      intro k
      rfl
  | succ n ih =>
      intro k
      rw [List.range'_succ, List.map_cons, ascend]
      exact (ih (k + 1)).trans (congrArg _ (by omega))

theorem stepsFit_range' (p : NaryProof Hash N MAX_DEPTH) (n : ℕ) :
    ∀ k, StepsFit N (p.leafIndex / N ^ k) (((List.range' k n).map p.levelOf).map ProofLevel.step) ↔
      ∀ j, k ≤ j → j < k + n → p.StepAt j := by
  induction n with
  | zero =>
      intro k
      exact iff_of_true trivial fun j h1 h2 => by omega
  | succ n ih =>
      intro k
      rw [List.range'_succ, List.map_cons, List.map_cons, StepsFit, Nat.div_div_eq_div_mul,
        ← Nat.pow_succ]
      constructor
      · rintro ⟨h1, h2, h3⟩ j hj1 hj2
        rcases Nat.eq_or_lt_of_le hj1 with rfl | hj
        · exact ⟨h1, h2⟩
        · exact (ih (k + 1)).mp h3 j hj (by omega)
      · intro h
        obtain ⟨h1, h2⟩ := h k le_rfl (by omega)
        exact ⟨h1, h2, (ih (k + 1)).mpr fun j hj1 hj2 => h j (by omega) (by omega)⟩

/-- `verify`, level by level. -/
theorem verify_eq_true_iff_nodeAt [DecidableEq Hash] (hN : 2 ≤ N) (p : NaryProof Hash N MAX_DEPTH) :
    p.verify H = .ok true ↔
      (p.leafIndex < p.treeSize ∧ p.leafIndex < U64_SIZE ∧ p.levelCount = Nat.clog N p.treeSize ∧
        p.levelCount ≤ MAX_DEPTH ∧ ∀ k < p.levelCount, p.StepAt k) ∧
      p.nodeAt H p.levelCount = p.root := by
  rw [verify_eq_true_iff hN]
  by_cases hD : p.levelCount ≤ MAX_DEPTH
  · have hsteps := p.stepsFit_range' p.levelCount 0
    have hascend := p.ascend_range' (H := H) p.levelCount 0
    rw [Nat.pow_zero, Nat.div_one] at hsteps
    rw [Nat.zero_add, nodeAt] at hascend
    rw [p.used_eq hD, hsteps, hascend]
    simp only [Nat.zero_add, Nat.zero_le, true_implies]
  · constructor
    · rintro ⟨⟨-, -, -, h, -⟩, -⟩
      exact absurd h hD
    · rintro ⟨⟨-, -, -, h, -⟩, -⟩
      exact absurd h hD

end NaryProof

omit [Zero Hash] in
/-- The siblings of a level are its group without the member. -/
theorem ProofLevel.startsWith_eraseIdx {l : ProofLevel Hash N} {g : List Hash} {y : Hash}
    (hpos : l.position.toNat < g.length) (hcount : l.siblingCount.toNat + 1 = g.length)
    (hN : g.length ≤ N) (hg : l.around y = g) :
    FixedArray.StartsWith l.siblings (g.eraseIdx l.position.toNat) := by
  have htake : ((List.ofFn l.siblings).take l.position.toNat).length = l.position.toNat := by
    rw [List.length_take, List.length_ofFn]; omega
  have hall : g.eraseIdx l.position.toNat = (List.ofFn l.siblings).take l.siblingCount.toNat := by
    rw [← hg, ProofLevel.around, List.eraseIdx_append_of_length_le htake.le, htake, Nat.sub_self,
      List.eraseIdx_cons_zero]
    have hmin : l.position.toNat = min l.position.toNat l.siblingCount.toNat := by omega
    conv_lhs => enter [1]; rw [hmin, ← List.take_take]
    exact List.take_append_drop _ _
  rw [hall]
  refine ⟨by rw [List.length_take, List.length_ofFn]; omega, ?_⟩
  intro k hk
  rw [List.length_take, List.length_ofFn] at hk
  rw [List.getElem?_take_of_lt (by omega), List.getElem?_ofFn, dif_pos k.isLt]

/-! ### Going down from the old root -/

namespace ConsistencyProof

/-- On the part of the path shared with the boundary, from level `s` on, the old proof claims the
sizes of the groups of the old tree. -/
def CountsRightFrom (s : ℕ) (p : ConsistencyProof Hash N MAX_DEPTH)
    (old : NaryProof Hash N MAX_DEPTH) : Prop :=
  ∀ k, s ≤ k → k < old.levelCount → old.leafIndex / N ^ k / N = boundary N p.oldSize k / N →
    (old.levelOf k).siblingCount.toNat = boundary N p.oldSize k % N

/-- Both proofs were accepted and speak of one old tree. -/
structure Matched (H : Hasher Hash) (p : ConsistencyProof Hash N MAX_DEPTH)
    (old : NaryProof Hash N MAX_DEPTH) : Prop where
  climbs : p.Climbs H
  notEmpty : 0 < p.oldSize
  grows : p.oldSize < p.newSize
  member : old.leafIndex < p.oldSize
  count : old.levelCount = Nat.clog N p.oldSize
  depth : old.levelCount ≤ MAX_DEPTH
  steps : ∀ k < old.levelCount, old.StepAt k
  root : old.nodeAt H old.levelCount = p.oldRoot

section Matched

variable {p : ConsistencyProof Hash N MAX_DEPTH} {old : NaryProof Hash N MAX_DEPTH} {s : ℕ}

theorem Matched.levelCount_le (hM : Matched H p old) : old.levelCount ≤ p.levelCount := by
  rw [hM.count, hM.climbs.count]
  exact Nat.clog_mono_right N hM.grows.le

/-- In the boundary group the member is not right of the boundary. -/
theorem Matched.pos_le (hM : Matched H p old) {k : ℕ}
    (hsame : old.leafIndex / N ^ k / N = boundary N p.oldSize k / N) :
    old.leafIndex / N ^ k % N ≤ boundary N p.oldSize k % N := by
  have h1 := Nat.div_add_mod' (old.leafIndex / N ^ k) N
  have h2 := Nat.div_add_mod' (boundary N p.oldSize k) N
  have h3 := member_le_boundary (N := N) hM.member k
  rw [hsame] at h1
  omega

/-- From the root level of the old tree on, the path runs along the boundary. -/
theorem Matched.index_eq_of_le (hM : Matched H p old) (hN : 2 ≤ N) {k : ℕ}
    (hk : old.levelCount ≤ k) : old.leafIndex / N ^ k = 0 ∧ boundary N p.oldSize k = 0 := by
  have hb := boundary_of_clog_le hN hM.notEmpty (hM.count ▸ hk)
  have hle := member_le_boundary (N := N) hM.member k
  rw [hb] at hle
  exact ⟨Nat.le_zero.mp hle, hb⟩

/-- Above the root of the old tree its boundary node is the root. -/
theorem oldAt_eq_root (hM : Matched H p old) (hN : 2 ≤ N) (d : ℕ) :
    p.oldAt H (old.levelCount + d) = p.oldAt H old.levelCount := by
  induction d with
  | zero => rfl
  | succ d ih =>
      obtain ⟨-, hb⟩ := hM.index_eq_of_le hN (Nat.le_add_right old.levelCount d)
      rw [← ih, ← Nat.add_assoc, oldAt, hb, Nat.zero_mod]
      rfl

/-- **Going down one level.**  If the member's node above the group is the boundary node, its group
is the boundary group of the old tree. -/
theorem around_eq (hN : 2 ≤ N) (hinj : LeanTree.InjectiveOn H.hashChildren N) (hM : Matched H p old)
    (hright : p.CountsRightFrom s old) {k : ℕ} (hsk : s ≤ k) (hk : k < old.levelCount)
    (hsame : old.leafIndex / N ^ k / N = boundary N p.oldSize k / N)
    (hnode : old.nodeAt H (k + 1) = p.oldAt H (k + 1)) :
    (old.levelOf k).around (old.nodeAt H k) =
      (p.levelOf k).left (boundary N p.oldSize k % N) ++ [p.oldAt H k] := by
  obtain ⟨hpos, hstep⟩ := hM.steps k hk
  have hcount := hright k hsk hk hsame
  have hle := hM.pos_le hsame
  have hll := left_length hN (p.levelOf k) p.oldSize k
  have hlt := Nat.mod_lt (boundary N p.oldSize k) (show 0 < N by omega)
  rw [NaryProof.nodeAt, oldAt, ProofLevel.parentOf] at hnode
  split_ifs at hnode with h0
  · -- no siblings: both groups are one node
    have hleft : (p.levelOf k).left (boundary N p.oldSize k % N) = [] :=
      List.length_eq_zero_iff.mp (by omega)
    rw [hleft, List.nil_append, LeanTree.combine_singleton] at hnode
    rw [hleft, ← hnode, ProofLevel.around, h0, show (old.levelOf k).position.toNat = 0 by omega]
    simp
  · have hlen := ProofLevel.length_around hstep (by omega) (old.nodeAt H k)
    rw [← LeanTree.combine_of_two_le (h := H.hashChildren) (by omega)] at hnode
    exact LeanTree.combine_inj hinj (by simp; omega) (by omega) (by omega) hnode

/-- The node of the path at a shared level is the boundary node of the old tree. -/
theorem nodeAt_eq_oldAt (hN : 2 ≤ N) (hinj : LeanTree.InjectiveOn H.hashChildren N)
    (hM : Matched H p old) (hright : p.CountsRightFrom s old) (d : ℕ) :
    ∀ k, s ≤ k → k + d = old.levelCount → old.leafIndex / N ^ k = boundary N p.oldSize k →
      old.nodeAt H k = p.oldAt H k := by
  induction d with
  | zero =>
      intro k _ hk _
      rw [Nat.add_zero] at hk
      have hroot := oldAt_eq_root hM hN (p.levelCount - old.levelCount)
      rw [Nat.add_sub_cancel' hM.levelCount_le, hM.climbs.old] at hroot
      rw [hk, hM.root, hroot]
  | succ d ih =>
      intro k hsk hk hidx
      have hsame : old.leafIndex / N ^ k / N = boundary N p.oldSize k / N := by rw [hidx]
      have hnode := ih (k + 1) (by omega) (by omega) (by
        rw [Nat.pow_succ, ← Nat.div_div_eq_div_mul, hsame, boundary_succ])
      have haround := around_eq hN hinj hM hright hsk (by omega) hsame hnode
      obtain ⟨hpos, -⟩ := hM.steps k (by omega)
      have hll := left_length hN (p.levelOf k) p.oldSize k
      have hlt := Nat.mod_lt (boundary N p.oldSize k) (show 0 < N by omega)
      have htl : ((List.ofFn (old.levelOf k).siblings).take (old.levelOf k).position.toNat).length =
          (old.levelOf k).position.toNat := by
        rw [List.length_take, List.length_ofFn, hpos, hidx]; omega
      exact (List.cons.inj (List.append_inj haround (by rw [htl, hll, hpos, hidx])).2).1

/-- The member's group in the boundary group of the old tree. -/
theorem around_shared (hN : 2 ≤ N) (hinj : LeanTree.InjectiveOn H.hashChildren N)
    (hM : Matched H p old) (hright : p.CountsRightFrom s old) {k : ℕ} (hsk : s ≤ k)
    (hk : k < old.levelCount) (hsame : old.leafIndex / N ^ k / N = boundary N p.oldSize k / N) :
    (old.levelOf k).around (old.nodeAt H k) =
      (p.levelOf k).left (boundary N p.oldSize k % N) ++ [p.oldAt H k] := by
  refine around_eq hN hinj hM hright hsk hk hsame ?_
  refine nodeAt_eq_oldAt hN hinj hM hright (old.levelCount - (k + 1)) (k + 1) (by omega)
    (by omega) ?_
  rw [Nat.pow_succ, ← Nat.div_div_eq_div_mul, hsame, boundary_succ]

/-! ### The levels of the updated proof -/

/-- What the loop of the update writes at level `k`. -/
def Writes (H : Hasher Hash) (p : ConsistencyProof Hash N MAX_DEPTH)
    (old : NaryProof Hash N MAX_DEPTH) (k : ℕ) (level : ProofLevel Hash N) : Prop :=
  (old.leafIndex / N ^ k / N ≠ boundary N p.oldSize k / N → level = old.levelOf k) ∧
  (old.leafIndex / N ^ k / N = boundary N p.oldSize k / N →
    ∃ hash, (0 < k → hash = p.newAt H k) ∧ boundaryLevel old (p.levelOf k) k
      (old.leafIndex / N ^ k % N) (boundary N p.oldSize k % N) hash = .ok level)

/-- One level of the update. -/
theorem updateLevel_writes (hN : 2 ≤ N) (hM : Matched H p old) {k : ℕ} (hk : k < p.levelCount)
    {hash : Hash} (hhash : 0 < k → hash = p.newAt H k)
    {newLevels newLevels' : Fin MAX_DEPTH → ProofLevel Hash N}
    (hup : updateLevel old (p.levelOf k) k (boundary N p.oldSize k) (old.leafIndex / N ^ k) hash
      newLevels = .ok newLevels') :
    ∃ level, p.Writes H old k level ∧
      newLevels' = fun j => if j.val = k then level else newLevels j := by
  have hdepth := hM.climbs.depth
  unfold updateLevel at hup
  by_cases hsame : old.leafIndex / N ^ k / N = boundary N p.oldSize k / N
  · rw [if_neg (not_not_intro hsame), bind_eq_ok] at hup
    obtain ⟨level, hlevel, hset⟩ := hup
    rw [FixedArray.setAt_of_lt _ _ (by omega), Except.ok.injEq] at hset
    exact ⟨level, ⟨fun hne => absurd hsame hne, fun _ => ⟨hash, hhash, hlevel⟩⟩, hset.symm⟩
  · -- left of the boundary group the old tree has a level above this one
    have hkm : k < old.levelCount := by
      by_contra hc
      obtain ⟨hi, hb⟩ := hM.index_eq_of_le hN (Nat.le_of_not_lt hc)
      exact hsame (by rw [hi, hb])
    rw [if_pos hsame, if_pos hkm, FixedArray.index_of_lt _ (by omega), ok_bind,
      FixedArray.setAt_of_lt _ _ (by omega), Except.ok.injEq] at hup
    exact ⟨_, ⟨fun _ => (old.levelOf_of_lt _).symm, fun h => absurd h hsame⟩, hup.symm⟩

/-- All levels of the update, from level `k` on. -/
theorem updateLevels_writes (hN : 2 ≤ N) (hM : Matched H p old) (n : ℕ) :
    ∀ (k : ℕ) (hash : Hash) (children : Fin N → Hash)
      (newLevels newLevels' : Fin MAX_DEPTH → ProofLevel Hash N),
      k + n = p.levelCount → (0 < k → hash = p.newAt H k) →
      updateLevels H old k ((List.range' k n).map p.levelOf) (p.oldSize ⌈/⌉ N ^ k)
        (old.leafIndex / N ^ k) hash children newLevels = .ok newLevels' →
      (∀ j : Fin MAX_DEPTH, k ≤ j.val → j.val < p.levelCount →
        p.Writes H old j.val (newLevels' j)) ∧
      ∀ j : Fin MAX_DEPTH, j.val < k → newLevels' j = newLevels j := by
  induction n with
  | zero =>
      intro k hash children newLevels newLevels' hk _ hup
      cases hup
      exact ⟨fun j h1 h2 => by omega, fun _ _ => rfl⟩
  | succ n ih =>
      intro k hash children newLevels newLevels' hk hhash hup
      obtain ⟨children', e⟩ := (@updateLevels_succ _ _ _ H _ old) hN hM.notEmpty hM.grows.le
        (hM.climbs.fits k (by omega)) hhash n children newLevels
      rw [e, bind_eq_ok] at hup
      obtain ⟨newLevels₁, hone, hup⟩ := hup
      obtain ⟨level, hlevel, rfl⟩ := updateLevel_writes hN hM (by omega) hhash hone
      obtain ⟨habove, hbelow⟩ := ih (k + 1) _ children' _ newLevels' (by omega) (fun _ => rfl) hup
      constructor
      · intro j hj1 hj2
        rcases Nat.eq_or_lt_of_le hj1 with hj | hj
        · rw [hbelow j (by omega), if_pos hj.symm, ← hj]
          exact hlevel
        · exact habove j hj hj2
      · intro j hj
        rw [hbelow j (by omega), if_neg (by omega)]

/-- The level `k` of a valid update: the old level left of the boundary group, and in it the
group of the new tree without the member. -/
def LevelUpdated (H : Hasher Hash) (p : ConsistencyProof Hash N MAX_DEPTH)
    (old : NaryProof Hash N MAX_DEPTH) (k : ℕ) (level : ProofLevel Hash N) : Prop :=
  (old.leafIndex / N ^ k / N ≠ boundary N p.oldSize k / N → level = old.levelOf k) ∧
  (old.leafIndex / N ^ k / N = boundary N p.oldSize k / N →
    level.position.toNat = old.leafIndex / N ^ k % N ∧
    level.siblingCount.toNat = boundary N p.oldSize k % N + (p.levelOf k).new.length ∧
    level.siblings = FixedArray.padded (((p.levelOf k).left (boundary N p.oldSize k % N) ++
      p.newAt H k :: (p.levelOf k).new).eraseIdx (old.leafIndex / N ^ k % N)))

omit [Zero Hash] in
theorem toU8_eq_ok {v : ℕ} {b : UInt8} (h : toU8 v = .ok b) : b.toNat = v := by
  unfold toU8 at h
  split_ifs at h with hv
  · cases h
    rw [UInt8.toNat_ofNat', Nat.mod_eq_of_lt hv]
  · cases h

/-- The old group around the member. -/
theorem oldGroup_shared (hN : 2 ≤ N) (hinj : LeanTree.InjectiveOn H.hashChildren N)
    (hM : Matched H p old) (hright : p.CountsRightFrom s old) {k : ℕ} (hsk : s ≤ k)
    (hsame : old.leafIndex / N ^ k / N = boundary N p.oldSize k / N) :
    oldGroup old k (old.leafIndex / N ^ k % N) =
      .ok (FixedArray.padded (((p.levelOf k).left (boundary N p.oldSize k % N) ++
        [p.oldAt H k]).set (old.leafIndex / N ^ k % N) 0), boundary N p.oldSize k % N + 1) := by
  have hll := left_length hN (p.levelOf k) p.oldSize k
  have hlt := Nat.mod_lt (boundary N p.oldSize k) (show 0 < N by omega)
  have hle := hM.pos_le hsame
  have hdepth := hM.depth
  rcases Nat.lt_or_ge k old.levelCount with hk | hk
  · have haround := around_shared hN hinj hM hright hsk hk hsame
    have hcount := hright k hsk hk hsame
    obtain ⟨hpos, -⟩ := hM.steps k hk
    have hlen : ((p.levelOf k).left (boundary N p.oldSize k % N) ++ [p.oldAt H k]).length =
        boundary N p.oldSize k % N + 1 := by simp [hll]
    have hsw := ProofLevel.startsWith_eraseIdx (by omega) (by omega) (by omega) haround
    rw [hpos] at hsw
    rw [old.levelOf_of_lt (by omega)] at hsw hcount
    rw [oldGroup_of_siblings hk (by omega) (by omega) (by omega) (by omega) hsw, hlen]
  · obtain ⟨hi, hb⟩ := hM.index_eq_of_le hN hk
    rw [hb, Nat.zero_mod] at hll ⊢
    rw [hi, Nat.zero_mod, List.length_eq_zero_iff.mp hll]
    exact oldGroup_above hk _

/-- Where the counts are right the level is the one of the new tree. -/
theorem Writes.updated (hN : 2 ≤ N) (hinj : LeanTree.InjectiveOn H.hashChildren N)
    (hM : Matched H p old) (hright : p.CountsRightFrom s old) {k : ℕ} (hsk : s ≤ k)
    (hk : k < p.levelCount) {level : ProofLevel Hash N} (hw : p.Writes H old k level) :
    p.LevelUpdated H old k level := by
  refine ⟨hw.1, fun hsame => ?_⟩
  obtain ⟨hash, hhash, hlevel⟩ := hw.2 hsame
  have hfit := hM.climbs.fits k hk
  have hnl := hfit.new_length hN hM.notEmpty hM.grows.le
  obtain ⟨-, hroom, -⟩ := boundaryPos_add_newCountAt hN hM.notEmpty hM.grows.le k
  have hll := left_length hN (p.levelOf k) p.oldSize k
  have hle := hM.pos_le hsame
  have hgroup := boundaryLevel_of_group (y := p.newAt H k)
    (by rw [oldGroup_shared hN hinj hM hright hsk hsame, hll]) (by omega) (by omega)
    (hfit.newHashes hN hM.notEmpty hM.grows.le) (hnl.trans hfit.2.2.symm) hhash
    (fun h0 => by subst h0; rfl)
  rw [hll] at hgroup
  rw [hgroup, bind_eq_ok] at hlevel
  obtain ⟨position, hposition, hlevel⟩ := hlevel
  obtain ⟨count, hcount, hlevel⟩ := bind_eq_ok.mp hlevel
  cases hlevel
  exact ⟨toU8_eq_ok hposition, toU8_eq_ok hcount, rfl⟩

/-- The group of the new level is as large as the old proof and the new nodes say. -/
theorem Writes.count {k : ℕ} (hk : k < MAX_DEPTH) {level : ProofLevel Hash N}
    (hN : 2 ≤ N) (hw : p.Writes H old k level)
    (hsame : old.leafIndex / N ^ k / N = boundary N p.oldSize k / N) :
    level.siblingCount.toNat + 1 = claimedSize old k + (p.levelOf k).newCount.toNat := by
  obtain ⟨hash, -, hlevel⟩ := hw.2 hsame
  have hpos := claimedSize_pos old k
  obtain ⟨hold, hold'⟩ := (@oldGroup_returns _ _ _ _ old) hk
    (Nat.mod_lt (old.leafIndex / N ^ k) (show 0 < N by omega))
  unfold boundaryLevel at hlevel
  rcases Nat.lt_or_ge N (claimedSize old k) with hbig | hsize
  · rw [hold' hbig] at hlevel
    cases hlevel
  · obtain ⟨group, e⟩ := hold hsize
    rw [e, ok_bind] at hlevel
    dsimp only at hlevel
    obtain ⟨_, -, hlevel⟩ := bind_eq_ok.mp hlevel
    obtain ⟨_, -, hlevel⟩ := bind_eq_ok.mp hlevel
    obtain ⟨_, -, hlevel⟩ := bind_eq_ok.mp hlevel
    obtain ⟨_, -, hlevel⟩ := bind_eq_ok.mp hlevel
    obtain ⟨count, hcount, hlevel⟩ := bind_eq_ok.mp hlevel
    cases hlevel
    have := toU8_eq_ok hcount
    dsimp only
    omega

/-! ### Going up to the new root -/

variable {q : NaryProof Hash N MAX_DEPTH}

/-- The updated proof keeps the member, names the new tree, and has the levels of the update. -/
structure Updated (H : Hasher Hash) (p : ConsistencyProof Hash N MAX_DEPTH)
    (old q : NaryProof Hash N MAX_DEPTH) : Prop where
  root : q.root = p.newRoot
  leaf : q.leaf = old.leaf
  leafIndex : q.leafIndex = old.leafIndex
  treeSize : q.treeSize = p.newSize
  levelCount : q.levelCount = p.levelCount
  levels : ∀ k < p.levelCount, p.Writes H old k (q.levelOf k)

/-- The updated level of a shared group describes the group of the new tree. -/
theorem Updated.around_shared (hN : 2 ≤ N) (hM : Matched H p old) {k : ℕ} (hk : k < p.levelCount)
    (hU : p.LevelUpdated H old k (q.levelOf k))
    (hsame : old.leafIndex / N ^ k / N = boundary N p.oldSize k / N) {y : Hash}
    (hy : ((p.levelOf k).left (boundary N p.oldSize k % N) ++
      p.newAt H k :: (p.levelOf k).new)[old.leafIndex / N ^ k % N]? = some y) :
    (q.levelOf k).around y = (p.levelOf k).left (boundary N p.oldSize k % N) ++
      p.newAt H k :: (p.levelOf k).new := by
  obtain ⟨hpos, hcount, hsib⟩ := hU.2 hsame
  have hnl := (hM.climbs.fits k hk).new_length hN hM.notEmpty hM.grows.le
  have hll := left_length hN (p.levelOf k) p.oldSize k
  obtain ⟨-, hroom, -⟩ := boundaryPos_add_newCountAt hN hM.notEmpty hM.grows.le k
  have hlen : ((p.levelOf k).left (boundary N p.oldSize k % N) ++
      p.newAt H k :: (p.levelOf k).new).length = (q.levelOf k).siblingCount.toNat + 1 := by
    rw [List.length_append, List.length_cons, hll, hcount]; omega
  have hgroup := (@ProofLevel.around_eraseIdx _ N _ _ _ (q.levelOf k).position (q.levelOf k).siblingCount) hlen (by omega) (by rw [hpos]; exact hy)
  rw [hpos] at hgroup
  rw [← hgroup]
  unfold ProofLevel.around
  rw [hsib]

/-- From level `s` on, every level of the updated proof passes the checks of `verify`. -/
theorem Updated.stepAt (hN : 2 ≤ N) (hinj : LeanTree.InjectiveOn H.hashChildren N)
    (hM : Matched H p old) (hright : p.CountsRightFrom s old) (hU : Updated H p old q) {k : ℕ}
    (hsk : s ≤ k) (hk : k < p.levelCount) : q.StepAt k := by
  obtain ⟨hleft, hshared⟩ := (hU.levels k hk).updated hN hinj hM hright hsk hk
  unfold NaryProof.StepAt
  rw [hU.leafIndex]
  by_cases hsame : old.leafIndex / N ^ k / N = boundary N p.oldSize k / N
  · obtain ⟨hpos, hcount, -⟩ := hshared hsame
    have hnl := (hM.climbs.fits k hk).new_length hN hM.notEmpty hM.grows.le
    obtain ⟨-, hroom, -⟩ := boundaryPos_add_newCountAt hN hM.notEmpty hM.grows.le k
    have hle := hM.pos_le hsame
    refine ⟨hpos, fun _ => ?_⟩
    simp only [ProofLevel.step]
    omega
  · rw [hleft hsame]
    refine hM.steps k ?_
    by_contra hc
    obtain ⟨hi, hb⟩ := hM.index_eq_of_le hN (Nat.le_of_not_lt hc)
    exact hsame (by rw [hi, hb])

/-- Left of the boundary the updated proof builds the nodes of the old path. -/
theorem Updated.nodeAt_left (hU : Updated H p old q) (k : ℕ) :
    k ≤ p.levelCount → old.leafIndex / N ^ k ≠ boundary N p.oldSize k →
      q.nodeAt H k = old.nodeAt H k := by
  induction k with
  | zero =>
      intro _ _
      exact hU.leaf
  | succ k ih =>
      intro hk hne
      have hne' : old.leafIndex / N ^ k / N ≠ boundary N p.oldSize k / N := by
        rwa [Nat.div_div_eq_div_mul, ← Nat.pow_succ, ← boundary_succ]
      rw [NaryProof.nodeAt, (hU.levels k hk).1 hne', ih (by omega) fun h => hne' (by rw [h])]
      rfl

/-- **Going up one level.**  Where the member is in its place in the group of the new tree, the
node over it is the boundary node of the new tree. -/
theorem Updated.parentOf_eq_newAt (hN : 2 ≤ N) (hM : Matched H p old) {k : ℕ}
    (hk : k < p.levelCount) (hlevel : p.LevelUpdated H old k (q.levelOf k))
    (hsame : old.leafIndex / N ^ k / N = boundary N p.oldSize k / N) {y : Hash}
    (hmem : ((p.levelOf k).left (boundary N p.oldSize k % N) ++
      p.newAt H k :: (p.levelOf k).new)[old.leafIndex / N ^ k % N]? = some y) :
    (q.levelOf k).parentOf H y = p.newAt H (k + 1) := by
  obtain ⟨hpos, hcount, -⟩ := hlevel.2 hsame
  have hll := left_length hN (p.levelOf k) p.oldSize k
  have haround := Updated.around_shared hN hM hk hlevel hsame hmem
  unfold ProofLevel.parentOf newAt
  split_ifs with h0
  · have hempty := List.length_eq_zero_iff.mp (show ((p.levelOf k).left
        (boundary N p.oldSize k % N)).length = 0 by omega)
    have hnone := List.length_eq_zero_iff.mp (show (p.levelOf k).new.length = 0 by omega)
    have hle := hM.pos_le hsame
    rw [hempty, hnone, show old.leafIndex / N ^ k % N = 0 by omega] at hmem
    rw [hempty, hnone]
    exact (Option.some.inj hmem).symm
  · rw [haround, LeanTree.combine_of_two_le
      (by rw [List.length_append, List.length_cons]; omega)]

/-- On the boundary it goes up from boundary node to boundary node. -/
theorem Updated.nodeAt_succ (hN : 2 ≤ N) (hinj : LeanTree.InjectiveOn H.hashChildren N)
    (hM : Matched H p old) (hright : p.CountsRightFrom s old) (hU : Updated H p old q) {k : ℕ}
    (hsk : s ≤ k) (hk : k < p.levelCount) (hidx : old.leafIndex / N ^ k = boundary N p.oldSize k)
    (hnode : q.nodeAt H k = p.newAt H k) : q.nodeAt H (k + 1) = p.newAt H (k + 1) := by
  have hll := left_length hN (p.levelOf k) p.oldSize k
  have hlevel := (hU.levels k hk).updated hN hinj hM hright hsk hk
  refine Updated.parentOf_eq_newAt hN hM hk hlevel (by rw [hidx]) ?_
  rw [hnode, hidx, List.getElem?_append_right hll.le, hll, Nat.sub_self, List.getElem?_cons_zero]

/-- **Going up.**  Where all counts are right, the updated proof builds the boundary nodes of the
new tree. -/
theorem nodeAt_updated (hN : 2 ≤ N) (hinj : LeanTree.InjectiveOn H.hashChildren N)
    (hM : Matched H p old) (hright : p.CountsRightFrom 0 old) (hU : Updated H p old q) (k : ℕ) :
    k ≤ p.levelCount → old.leafIndex / N ^ k = boundary N p.oldSize k →
      q.nodeAt H k = p.newAt H k := by
  induction k with
  | zero =>
      intro _ hidx
      have := nodeAt_eq_oldAt hN hinj hM hright old.levelCount 0 le_rfl (Nat.zero_add _) hidx
      exact hU.leaf.trans this
  | succ k ih =>
      intro hk hidx
      have hsame : old.leafIndex / N ^ k / N = boundary N p.oldSize k / N := by
        rwa [Nat.div_div_eq_div_mul, ← Nat.pow_succ, ← boundary_succ]
      by_cases hb : old.leafIndex / N ^ k = boundary N p.oldSize k
      · exact hU.nodeAt_succ hN hinj hM hright (Nat.zero_le k) hk hb (ih (by omega) hb)
      · -- the member is left of the boundary node, in the same group
        have hkm : k < old.levelCount := by
          by_contra hc
          obtain ⟨h1, h2⟩ := hM.index_eq_of_le hN (Nat.le_of_not_lt hc)
          exact hb (by rw [h1, h2])
        obtain ⟨hp, hstep⟩ := hM.steps k hkm
        have haround := around_shared hN hinj hM hright (Nat.zero_le k) hkm hsame
        have hll := left_length hN (p.levelOf k) p.oldSize k
        have hlt : old.leafIndex / N ^ k % N < boundary N p.oldSize k % N := by
          have h1 := Nat.div_add_mod' (old.leafIndex / N ^ k) N
          have h2 := Nat.div_add_mod' (boundary N p.oldSize k) N
          have h3 := hM.pos_le hsame
          rw [hsame] at h1
          omega
        have hcount := hright k (Nat.zero_le k) hkm hsame
        have hget := ProofLevel.getElem?_around hstep (by omega) (old.nodeAt H k)
        rw [haround, hp, List.getElem?_append_left (by omega)] at hget
        have hlevel := (hU.levels k hk).updated hN hinj hM hright (Nat.zero_le k) hk
        refine Updated.parentOf_eq_newAt hN hM hk hlevel hsame ?_
        rw [List.getElem?_append_left (by omega), hget, hU.nodeAt_left k (by omega) hb]

variable [DecidableEq Hash]

/-- What `update_inclusion_proof` returns for two accepted proofs. -/
theorem updated_of_eq_ok (hN : 2 ≤ N) (hv : old.verify H = .ok true)
    (hsize : old.treeSize = p.oldSize) (hq : p.updateInclusionProof H old = .ok q) : Matched H p old ∧ Updated H p old q := by
  obtain ⟨⟨hlt, -, hcount, hdepth, hsteps⟩, hnode⟩ :=
    (NaryProof.verify_eq_true_iff_nodeAt hN old).mp hv
  unfold updateInclusionProof at hq
  by_cases hroot : old.root ≠ p.oldRoot
  · rw [if_pos hroot] at hq
    cases hq
  rw [if_neg hroot, bind_eq_ok] at hq
  obtain ⟨b, hb, hq⟩ := hq
  cases b with
  | false => cases hq
  | true =>
      simp only [Bool.not_true, Bool.false_eq_true, if_false] at hq
      by_cases h1 : p.oldSize ≤ old.leafIndex
      · rw [if_pos h1] at hq
        cases hq
      by_cases h2 : p.oldSize = p.newSize
      · rw [if_neg h1, if_pos h2] at hq
        cases hq
      rw [if_neg h1, if_neg h2] at hq
      obtain ⟨hc, hm, hmn⟩ := climbs_of_verify hN h2 hb
      have hM : Matched H p old := ⟨hc, hm, hmn, by omega, hsize ▸ hcount, hdepth, hsteps,
        hnode.trans (not_not.mp hroot)⟩
      have hD := hc.depth
      have hs := hc.size
      rw [u64ToUsize_of_lt (by omega), ok_bind, u64ToUsize_of_lt (by omega), ok_bind,
        FixedArray.slice_of_le _ (Nat.zero_le _) hD, ok_bind, List.drop_zero, p.take_levels hD,
        bind_eq_ok] at hq
      obtain ⟨newLevels, hup, hq⟩ := hq
      cases hq
      obtain ⟨hlevels, -⟩ := updateLevels_writes hN hM p.levelCount 0 0 (fun _ => 0)
        (fun _ => ProofLevel.EMPTY) newLevels (Nat.zero_add _)
        (fun h => absurd h (Nat.lt_irrefl 0)) (by simpa using hup)
      refine ⟨hM, rfl, rfl, rfl, rfl, rfl, ?_⟩
      intro k hk
      rw [NaryProof.levelOf_of_lt _ (by omega)]
      exact hlevels ⟨k, by omega⟩ (Nat.zero_le k) hk

/-- Where the counts are right the updated proof is accepted. -/
theorem verify_of_countsRight (hN : 2 ≤ N) (hinj : LeanTree.InjectiveOn H.hashChildren N)
    (hM : Matched H p old) (hright : p.CountsRightFrom 0 old) (hU : Updated H p old q) :
    q.verify H = .ok true := by
  have hmem := hM.member
  have hgrows := hM.grows
  have hs := hM.climbs.size
  rw [NaryProof.verify_eq_true_iff_nodeAt hN, hU.leafIndex, hU.treeSize, hU.levelCount, hU.root]
  refine ⟨⟨by omega, by omega, hM.climbs.count, hM.climbs.depth,
    fun k hk => hU.stepAt hN hinj hM hright (Nat.zero_le k) hk⟩, ?_⟩
  obtain ⟨hi, hb⟩ := hM.index_eq_of_le hN hM.levelCount_le
  rw [nodeAt_updated hN hinj hM hright hU p.levelCount le_rfl (by rw [hi, hb]), hM.climbs.new]

omit [DecidableEq Hash] in
/-- Going down from an accepted updated proof, above the levels whose counts are wrong: its nodes on
the boundary are those of the new tree. -/
theorem nodeAt_eq_newAt (hN : 2 ≤ N) (hinj : LeanTree.InjectiveOn H.hashChildren N)
    (hM : Matched H p old) (hright : p.CountsRightFrom s old) (hU : Updated H p old q)
    (hsteps : ∀ k < p.levelCount, q.StepAt k)
    (hroot : q.nodeAt H p.levelCount = p.newAt H p.levelCount) (d : ℕ) :
    ∀ k, s ≤ k → k + d = p.levelCount → old.leafIndex / N ^ k = boundary N p.oldSize k →
      q.nodeAt H k = p.newAt H k := by
  induction d with
  | zero =>
      intro k _ hk _
      rw [Nat.add_zero] at hk
      rw [hk, hroot]
  | succ d ih =>
      intro k hsk hk hidx
      have hsame : old.leafIndex / N ^ k / N = boundary N p.oldSize k / N := by rw [hidx]
      have hnode := ih (k + 1) (by omega) (by omega) (by
        rw [Nat.pow_succ, ← Nat.div_div_eq_div_mul, hsame, boundary_succ])
      have hlevel := (hU.levels k (by omega)).updated hN hinj hM hright hsk (by omega)
      obtain ⟨hpos, hcount, -⟩ := hlevel.2 hsame
      obtain ⟨-, hstep⟩ := hsteps k (by omega)
      have hll := left_length hN (p.levelOf k) p.oldSize k
      have hnl := (hM.climbs.fits k (by omega)).new_length hN hM.notEmpty hM.grows.le
      obtain ⟨-, hroom, -⟩ := boundaryPos_add_newCountAt hN hM.notEmpty hM.grows.le k
      rw [NaryProof.nodeAt, newAt, ProofLevel.parentOf] at hnode
      split_ifs at hnode with h0
      · rw [List.length_eq_zero_iff.mp (show ((p.levelOf k).left
            (boundary N p.oldSize k % N)).length = 0 by omega),
          List.length_eq_zero_iff.mp (show (p.levelOf k).new.length = 0 by omega)] at hnode
        exact hnode
      · have hlen := ProofLevel.length_around hstep (by omega) (q.nodeAt H k)
        rw [← LeanTree.combine_of_two_le (h := H.hashChildren) (by omega)] at hnode
        have hgroup := LeanTree.combine_inj hinj (by simp; omega) (by omega) (by omega) hnode
        have hget := ProofLevel.getElem?_around hstep (by omega) (q.nodeAt H k)
        rw [hgroup, hpos, hidx, List.getElem?_append_right hll.le, hll, Nat.sub_self,
          List.getElem?_cons_zero, Option.some.injEq] at hget
        exact hget.symm

/-- Level `k` is the uppermost one with a wrong count. -/
structure UppermostWrong (p : ConsistencyProof Hash N MAX_DEPTH)
    (old : NaryProof Hash N MAX_DEPTH) (k : ℕ) : Prop where
  lt : k < old.levelCount
  shared : old.leafIndex / N ^ k / N = boundary N p.oldSize k / N
  wrong : (old.levelOf k).siblingCount.toNat ≠ boundary N p.oldSize k % N
  right : p.CountsRightFrom (k + 1) old

omit [DecidableEq Hash] in
/-- Where not all counts are right there is an uppermost wrong one. -/
theorem exists_uppermostWrong (h : ¬ p.CountsRightFrom 0 old) : ∃ k, p.UppermostWrong old k := by
  classical
  have hall : ∃ s, p.CountsRightFrom s old :=
    ⟨old.levelCount, fun k h1 h2 _ => absurd h2 (Nat.not_lt.mpr h1)⟩
  obtain ⟨k, hk⟩ : ∃ k, Nat.find hall = k + 1 := by
    apply Nat.exists_eq_succ_of_ne_zero
    intro h0
    have hfound := Nat.find_spec hall
    rw [h0] at hfound
    exact h hfound
  have hright := Nat.find_spec hall
  rw [hk] at hright
  have hwrong := Nat.find_min hall (show k < Nat.find hall by omega)
  unfold CountsRightFrom at hwrong
  push Not at hwrong
  obtain ⟨j, hkj, hj, hsame, hne⟩ := hwrong
  have hjk : j = k := by
    by_contra hc
    exact hne (hright j (by omega) hj hsame)
  subst hjk
  exact ⟨j, hj, hsame, hne, hright⟩

omit [Zero Hash] [DecidableEq Hash] in
/-- Above a group it shares with the boundary, the path is the boundary. -/
theorem index_eq_boundary {i m k : ℕ} (h : i / N ^ k / N = boundary N m k / N) {x : ℕ} (hx : k < x) :
    i / N ^ x = boundary N m x := by
  obtain ⟨d, rfl⟩ := Nat.exists_eq_add_of_le (show k + 1 ≤ x from hx)
  unfold boundary at h ⊢
  rw [Nat.pow_add, ← Nat.div_div_eq_div_mul, ← Nat.div_div_eq_div_mul, Nat.pow_succ,
    ← Nat.div_div_eq_div_mul, ← Nat.div_div_eq_div_mul, h]

/-- What an accepted updated proof shows: its steps pass, and above the levels whose counts are wrong
its nodes on the boundary are those of the new tree. -/
theorem Updated.of_verify (hN : 2 ≤ N) (hinj : LeanTree.InjectiveOn H.hashChildren N)
    (hM : Matched H p old) (hU : Updated H p old q) {k : ℕ} (hk : p.UppermostWrong old k)
    (hv : q.verify H = .ok true) :
    (∀ j < p.levelCount, q.StepAt j) ∧ q.nodeAt H (k + 1) = p.newAt H (k + 1) := by
  obtain ⟨⟨-, -, -, -, hsteps⟩, hroot⟩ := (NaryProof.verify_eq_true_iff_nodeAt hN q).mp hv
  rw [hU.levelCount] at hsteps hroot
  rw [hU.root, ← hM.climbs.new] at hroot
  have hkp : k < p.levelCount := lt_of_lt_of_le hk.lt hM.levelCount_le
  exact ⟨hsteps, nodeAt_eq_newAt hN hinj hM hk.right hU hsteps hroot (p.levelCount - (k + 1)) (k + 1)
    le_rfl (by omega) (index_eq_boundary hk.shared (Nat.lt_succ_self k))⟩

/-- A wrong count at a level that new nodes join is fatal. -/
theorem verify_ne_of_wrong_count (hN : 2 ≤ N) (hinj : LeanTree.InjectiveOn H.hashChildren N)
    (hM : Matched H p old) (hU : Updated H p old q) {k : ℕ} (hkw : p.UppermostWrong old k)
    (hnew : 0 < (p.levelOf k).newCount.toNat) : q.verify H ≠ .ok true := by
  intro hv
  obtain ⟨hsteps, hnode⟩ := hU.of_verify hN hinj hM hkw hv
  obtain ⟨hk, hsame, hwrong, -⟩ := hkw
  have hkp : k < p.levelCount := lt_of_lt_of_le hk hM.levelCount_le
  have hdepth := hM.depth
  have hcount := (hU.levels k hkp).count (by omega) hN hsame
  rw [claimedSize, dif_pos ⟨hk, by omega⟩, ← old.levelOf_of_lt] at hcount
  have hfit := hM.climbs.fits k hkp
  have hnl := hfit.new_length hN hM.notEmpty hM.grows.le
  have hnc := hfit.2.2
  have hll := left_length hN (p.levelOf k) p.oldSize k
  obtain ⟨-, hstep⟩ := hsteps k hkp
  have hlen := ProofLevel.length_around hstep (by omega) (q.nodeAt H k)
  obtain ⟨hfits, -⟩ := hstep (show 0 < (q.levelOf k).siblingCount.toNat by omega)
  simp only [ProofLevel.step] at hfits
  rw [NaryProof.nodeAt, newAt, ProofLevel.parentOf, if_neg (by omega),
    LeanTree.combine_of_two_le (by rw [List.length_append, List.length_cons]; omega)] at hnode
  obtain ⟨-, hroom, -⟩ := boundaryPos_add_newCountAt hN hM.notEmpty hM.grows.le k
  have hgroup := congrArg List.length (hinj _ _ (by omega) (by omega)
    (by rw [List.length_append, List.length_cons]; omega)
    (by rw [List.length_append, List.length_cons]; omega) hnode)
  rw [hlen, List.length_append, List.length_cons] at hgroup
  omega

end Matched

end ConsistencyProof

end Works.Rotortree
