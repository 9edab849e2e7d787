import Works.Rotortree.UpdateSound

/-! # Which updates stay valid

Whether the update of an accepted proof is accepted depends on the shapes of the two proofs alone:
the sizes, the leaf index and the sibling counts.  Read from the root down, the counts of the old
proof describe a path along the boundary of the old tree (`standingAt`), as they do in a whole tree
(`walk`); the nodes beside the boundary are values the consistency proof chose, so a path that
leaves the boundary is free.  An update of an accepted proof keeps it valid if, below every level
whose count is wrong, the two trees do not differ and the boundary node is not put into the group
anew (`KeepsValid`). -/

namespace Works.Rotortree

open Works.Lib Outcome

variable {Hash : Type} {N MAX_DEPTH : ℕ} {H : Hasher Hash} [Zero Hash]

/-! ### The members of a group -/

namespace ProofLevel

/-- The member of the group at index `i`, where that is not the proved one. -/
def other (l : ProofLevel Hash N) (i : ℕ) : Hash :=
  ((List.ofFn l.siblings)[if i < l.position.toNat then i else i - 1]?).getD 0

theorem other_of_lt {l : ProofLevel Hash N} {i : ℕ} (hi : i < l.position.toNat) (hN : i < N) :
    l.other i = l.siblings ⟨i, hN⟩ := by
  rw [other, if_pos hi, List.getElem?_ofFn, dif_pos hN]
  rfl

theorem other_of_gt {l : ProofLevel Hash N} {i : ℕ} (hi : l.position.toNat < i) (hN : i - 1 < N) :
    l.other i = l.siblings ⟨i - 1, hN⟩ := by
  rw [other, if_neg (by omega), List.getElem?_ofFn, dif_pos hN]
  rfl

theorem getElem?_around_of_ne {l : ProofLevel Hash N} (h : StepFits N l.step)
    (h0 : 0 < l.siblingCount.toNat) {i : ℕ} (hi : i ≤ l.siblingCount.toNat)
    (hne : i ≠ l.position.toNat) (y : Hash) : (l.around y)[i]? = some (l.other i) := by
  obtain ⟨h1, h2⟩ := h h0
  simp only [step] at h1 h2
  have hlen : ((List.ofFn l.siblings).take l.position.toNat).length = l.position.toNat := by
    rw [List.length_take, List.length_ofFn]; omega
  rcases Nat.lt_or_gt_of_ne hne with hlt | hgt
  · rw [other_of_lt hlt (by omega), around, List.getElem?_append_left (by omega),
      List.getElem?_take_of_lt hlt, List.getElem?_ofFn, dif_pos (by omega)]
  · obtain ⟨j, rfl⟩ : ∃ j, i = l.position.toNat + (j + 1) := ⟨i - l.position.toNat - 1, by omega⟩
    rw [other_of_gt hgt (by omega), around, List.getElem?_append_right (by omega), hlen,
      Nat.add_sub_cancel_left, List.getElem?_cons_succ, List.getElem?_drop,
      List.getElem?_take_of_lt (by omega), List.getElem?_ofFn, dif_pos (by omega)]
    rfl

theorem getElem?_around_eq {l : ProofLevel Hash N} (h : StepFits N l.step)
    (h0 : 0 < l.siblingCount.toNat) {i : ℕ} (hi : i ≤ l.siblingCount.toNat) (y : Hash) :
    (l.around y)[i]? = some (if i = l.position.toNat then y else l.other i) := by
  split_ifs with hpos
  · rw [hpos]
    exact getElem?_around h h0 y
  · exact getElem?_around_of_ne h h0 hi hpos y

/-- Two levels with the same step and the same members beside the proved one. -/
theorem parentOf_congr {l l' : ProofLevel Hash N} (hstep : l.step = l'.step)
    (hfit : StepFits N l.step)
    (hother : ∀ i ≤ l.siblingCount.toNat, i ≠ l.position.toNat → l.other i = l'.other i) (y : Hash) :
    l.parentOf H y = l'.parentOf H y := by
  obtain ⟨hpos, hcount⟩ := Prod.mk.inj hstep
  unfold parentOf
  rw [← hcount]
  split_ifs with h0
  · rfl
  · have hfit' : StepFits N l'.step := hstep ▸ hfit
    have h1 : 0 < l.siblingCount.toNat := Nat.pos_of_ne_zero h0
    have h1' : 0 < l'.siblingCount.toNat := by rwa [← hcount]
    have hlen := length_around hfit h1 y
    have hlen' := length_around hfit' h1' y
    congr 1
    apply List.ext_getElem?
    intro i
    rcases Nat.lt_or_ge l.siblingCount.toNat i with hi | hi
    · rw [List.getElem?_eq_none (by omega), List.getElem?_eq_none (by rw [hlen', ← hcount]; omega)]
    · rw [getElem?_around_eq hfit h1 hi, getElem?_around_eq hfit' h1' (by rwa [← hcount]), ← hpos]
      split_ifs with hne
      · rfl
      · rw [hother i hi hne]

end ProofLevel

/-! ### What one level of the update writes -/

namespace ConsistencyProof

variable {old : NaryProof Hash N MAX_DEPTH} {level : ConsistencyLevel Hash N} {k m b : ℕ}

/-- The old group as the old proof shows it. -/
theorem oldGroup_members (hk : k < MAX_DEPTH) (hm : m < N)
    (hpos : k < old.levelCount → (old.levelOf k).position.toNat = m)
    (habove : old.levelCount ≤ k → m = 0) {group : Fin N → Hash} {size : ℕ}
    (h : oldGroup old k m = .ok (group, size)) :
    size = claimedSize old k ∧ size ≤ N ∧
      ∀ j : Fin N, j.val < size → j.val ≠ m → group j = (old.levelOf k).other j.val := by
  obtain ⟨hok, hpanic⟩ := (@oldGroup_returns _ _ _ _ old) hk hm
  have hfit : claimedSize old k ≤ N := by
    by_contra hbig
    rw [hpanic (by omega)] at h
    cases h
  obtain ⟨group', e⟩ := hok hfit
  rw [e, Except.ok.injEq, Prod.mk.injEq] at h
  obtain ⟨rfl, rfl⟩ := h
  refine ⟨rfl, hfit, ?_⟩
  intro j hj hne
  by_cases hl : k < old.levelCount
  · have hp := hpos hl
    have hsize : claimedSize old k = (old.levelOf k).siblingCount.toNat + 1 := by
      rw [claimedSize, dif_pos ⟨hl, hk⟩, old.levelOf_of_lt hk]
    unfold oldGroup at e
    rw [if_pos hl, FixedArray.index_of_lt _ hk, ok_bind, ← old.levelOf_of_lt hk] at e
    dsimp only at e
    rw [← hsize, FixedArray.slice_of_le _ (Nat.zero_le _) hm.le, ok_bind,
      FixedArray.copyFromSlice_of_le _ (Nat.zero_le _) hm.le (FixedArray.length_slice _ hm.le),
      ok_bind] at e
    have hleft : j.val < m → FixedArray.overwrite (fun _ : Fin N => (0 : Hash)) 0
        (((List.ofFn (old.levelOf k).siblings).take m).drop 0) j = (old.levelOf k).other j.val := by
      intro hlt
      rw [FixedArray.overwrite_slice _ _ hm.le (Nat.zero_le _) (by omega),
        ProofLevel.other_of_lt (by omega) j.isLt]
      congr 1
      exact Fin.ext (by simp)
    split_ifs at e with h1
    · rw [FixedArray.slice_of_le _ (by omega) (by omega), ok_bind,
        FixedArray.copyFromSlice_of_le _ (by omega) hfit
          (by rw [FixedArray.length_slice _ (by omega)]; omega), ok_bind, pure_eq_ok,
        Except.ok.injEq, Prod.mk.injEq] at e
      rw [← e.1]
      rcases Nat.lt_or_gt_of_ne hne with hlt | hgt
      · rw [FixedArray.overwrite_of_lt _ (by omega), hleft hlt]
      · rw [FixedArray.overwrite_slice _ _ (by omega) (by omega) (by omega),
          ProofLevel.other_of_gt (by omega) (by omega)]
        congr 1
        exact Fin.ext (by simp; omega)
    · rw [pure_eq_ok, Except.ok.injEq, Prod.mk.injEq] at e
      rw [← e.1, hleft (by omega)]
  · rw [claimedSize, dif_neg fun h => hl h.1] at hj
    have := habove (by omega)
    omega

omit [Zero Hash] in
theorem refreshBoundary_members (hb : b < N) {group group' : Fin N → Hash} {hash : Hash}
    (h : refreshBoundary group k m b hash = .ok group') (j : Fin N) :
    group' j = if (0 < k ∧ m ≠ b) ∧ j.val = b then hash else group j := by
  unfold refreshBoundary at h
  split_ifs at h with hc
  · rw [FixedArray.setAt_of_lt _ _ hb, Except.ok.injEq] at h
    rw [← h]
    exact if_congr (and_iff_right hc).symm rfl rfl
  · cases h
    rw [if_neg fun h => hc h.1]

omit [Zero Hash] in
theorem appendNew_room {size : ℕ} (hnew : level.newHashes = .ok level.new)
    (hlen : level.new.length = level.newCount.toNat) (hsize : size ≤ N) {group group' : Fin N → Hash}
    (h : appendNew group level size = .ok group') : size + level.newCount.toNat ≤ N := by
  by_contra hbig
  rw [(appendNew_returns hnew hlen hsize group).2 (by omega)] at h
  cases h

theorem appendNew_members {size : ℕ} (hnew : level.newHashes = .ok level.new)
    (hlen : level.new.length = level.newCount.toNat) (hsize : size ≤ N) {group group' : Fin N → Hash}
    (h : appendNew group level size = .ok group') (j : Fin N)
    (hj : j.val < size + level.newCount.toNat) :
    group' j = if size ≤ j.val then (level.new[j.val - size]?).getD 0 else group j := by
  have hroom := appendNew_room hnew hlen hsize h
  unfold appendNew at h
  split_ifs at h with hc
  · rw [hnew, ok_bind, FixedArray.copyFromSlice_of_le _ (by omega) hroom (by omega),
      Except.ok.injEq] at h
    rw [← h]
    split_ifs with hge
    · rw [FixedArray.overwrite_of_mem _ hge (by omega), List.getElem?_eq_getElem (by omega),
        Option.getD_some]
    · rw [FixedArray.overwrite_of_lt _ (by omega)]
  · cases h
    rw [if_neg (by omega)]

/-- The siblings are the members of the group, in order. -/
theorem siblingsOf_members {size : ℕ} (hm : m < N) (hsize : size ≤ N) {group siblings : Fin N → Hash}
    (h : siblingsOf group m size = .ok siblings) {position : UInt8} (hposition : position.toNat = m)
    (count : UInt8) (j : Fin N) (hj : j.val < size) (hne : j.val ≠ m) :
    (⟨position, count, siblings⟩ : ProofLevel Hash N).other j.val = group j := by
  unfold siblingsOf at h
  rw [FixedArray.slice_of_le _ (Nat.zero_le _) hm.le, ok_bind,
    FixedArray.copyFromSlice_of_le _ (Nat.zero_le _) hm.le (FixedArray.length_slice _ hm.le),
    ok_bind] at h
  rcases Nat.lt_or_gt_of_ne hne with hlt | hgt
  · rw [ProofLevel.other_of_lt (l := ⟨position, count, siblings⟩) (hposition ▸ hlt) j.isLt]
    have hleft : FixedArray.overwrite (fun _ : Fin N => (0 : Hash)) 0
        (((List.ofFn group).take m).drop 0) j = group j := by
      rw [FixedArray.overwrite_slice _ _ hm.le (Nat.zero_le _) (by omega)]
      congr 1
      exact Fin.ext (by dsimp only; omega)
    split_ifs at h with hc
    · rw [FixedArray.slice_of_le _ (by omega) hsize, ok_bind, FixedArray.copyFromSlice_of_le _
        (by omega) (by omega) (by rw [FixedArray.length_slice _ hsize]; omega), Except.ok.injEq] at h
      dsimp only
      rw [← h, FixedArray.overwrite_of_lt _ hlt, hleft]
    · rw [pure_eq_ok, Except.ok.injEq] at h
      dsimp only
      rw [← h, hleft]
  · rw [ProofLevel.other_of_gt (l := ⟨position, count, siblings⟩) (hposition ▸ hgt) (by omega)]
    rw [if_pos (by omega), FixedArray.slice_of_le _ (by omega) hsize, ok_bind,
      FixedArray.copyFromSlice_of_le _ (by omega) (by omega)
        (by rw [FixedArray.length_slice _ hsize]; omega), Except.ok.injEq] at h
    dsimp only
    rw [← h, FixedArray.overwrite_slice _ _ hsize (by dsimp only; omega) (by dsimp only; omega)]
    congr 1
    exact Fin.ext (by dsimp only; omega)

/-- What the update writes at a level of the boundary group, whatever the counts of the old proof:
the old members, the boundary node of the new tree in its place, and the new nodes behind. -/
theorem boundaryLevel_members (hk : k < MAX_DEPTH) (hm : m < N) (hb : b < N)
    (hpos : k < old.levelCount → (old.levelOf k).position.toNat = m)
    (habove : old.levelCount ≤ k → m = 0) (hnew : level.newHashes = .ok level.new)
    (hlen : level.new.length = level.newCount.toNat) {hash : Hash} {l : ProofLevel Hash N}
    (h : boundaryLevel old level k m b hash = .ok l) :
    l.position.toNat = m ∧
      l.siblingCount.toNat + 1 = claimedSize old k + level.newCount.toNat ∧
      claimedSize old k + level.newCount.toNat ≤ N ∧
      ∀ i < claimedSize old k + level.newCount.toNat, i ≠ m → l.other i =
        if claimedSize old k ≤ i then (level.new[i - claimedSize old k]?).getD 0
        else if (0 < k ∧ m ≠ b) ∧ i = b then hash else (old.levelOf k).other i := by
  have hpositive := claimedSize_pos old k
  unfold boundaryLevel at h
  obtain ⟨⟨group, size⟩, hold, h⟩ := bind_eq_ok.mp h
  obtain ⟨rfl, hsize, hmembers⟩ := oldGroup_members hk hm hpos habove hold
  dsimp only at h
  obtain ⟨group₁, hrefresh, h⟩ := bind_eq_ok.mp h
  obtain ⟨group₂, happend, h⟩ := bind_eq_ok.mp h
  obtain ⟨siblings, hsiblings, h⟩ := bind_eq_ok.mp h
  obtain ⟨position, hposition, h⟩ := bind_eq_ok.mp h
  obtain ⟨count, hcount, h⟩ := bind_eq_ok.mp h
  cases h
  have hroom := appendNew_room hnew hlen hsize happend
  have hc := toU8_eq_ok hcount
  refine ⟨toU8_eq_ok hposition, by dsimp only; omega, hroom, ?_⟩
  intro i hi hne
  rw [siblingsOf_members hm hroom hsiblings (toU8_eq_ok hposition) count ⟨i, by omega⟩ hi hne,
    appendNew_members hnew hlen hsize happend ⟨i, by omega⟩ hi,
    refreshBoundary_members hb hrefresh ⟨i, by omega⟩]
  split_ifs with hge hcase
  · rfl
  · rfl
  · exact hmembers ⟨i, by omega⟩ (show i < claimedSize old k from Nat.lt_of_not_le hge) hne

end ConsistencyProof

/-! ### Shapes -/

/-- A consistency proof without its hashes. -/
structure ConsistencyShape (MAX_DEPTH : ℕ) where
  oldSize : ℕ
  newSize : ℕ
  levelCount : ℕ
  counts : Fin MAX_DEPTH → UInt8 × UInt8

omit [Zero Hash] in
/-- The shape of a consistency proof. -/
def ConsistencyProof.shape (p : ConsistencyProof Hash N MAX_DEPTH) : ConsistencyShape MAX_DEPTH :=
  ⟨p.oldSize, p.newSize, p.levelCount, fun k => ((p.levels k).sharedCount, (p.levels k).newCount)⟩

namespace ProofShape

/-- The step of level `k`. -/
def stepAt (σ : ProofShape MAX_DEPTH) (k : ℕ) : UInt8 × UInt8 :=
  if h : k < MAX_DEPTH then σ.steps ⟨k, h⟩ else (0, 0)

/-- At level `k` the member is in the boundary group. -/
def SharedAt (N : ℕ) (σ : ProofShape MAX_DEPTH) (k : ℕ) : Prop :=
  σ.leafIndex / N ^ k / N = ConsistencyProof.boundary N σ.treeSize k / N

instance (σ : ProofShape MAX_DEPTH) (k : ℕ) : Decidable (σ.SharedAt N k) :=
  inferInstanceAs (Decidable (_ = _))

end ProofShape

theorem NaryProof.step_levelOf (p : NaryProof Hash N MAX_DEPTH) (k : ℕ) :
    (p.levelOf k).step = p.shape.stepAt k := by
  unfold NaryProof.levelOf ProofShape.stepAt
  split_ifs
  · rfl
  · rfl

/-! ### The path a shape describes along the boundary -/

/-- Where a path stands in the old tree of a consistency proof: at the boundary node of level `k`,
at or below a node that the proof was free to choose, or nowhere. -/
inductive Standing where
  | boundary (k : ℕ)
  | free
  | nowhere
deriving DecidableEq, Repr

/-- The boundary node of level `k` over `m` leaves, followed down as long as it is lifted. -/
def settleBoundary (N m : ℕ) : ℕ → ℕ
  | 0 => 0
  | k + 1 => if ConsistencyProof.boundary N m k % N = 0 then settleBoundary N m k else k + 1

/-- One level down: the member at position `s.1` of a group with `s.2` siblings. -/
def Standing.down (N m : ℕ) (s : UInt8 × UInt8) : Standing → Standing
  | boundary 0 => if s.2.toNat = 0 then boundary 0 else free
  | boundary (k + 1) =>
      if s.2.toNat = 0 then boundary (k + 1)
      else if s.2.toNat = ConsistencyProof.boundary N m k % N then
        if s.1.toNat = ConsistencyProof.boundary N m k % N then boundary (settleBoundary N m k)
        else free
      else nowhere
  | free => free
  | nowhere => nowhere

/-- The path at level `k`, from `n` levels above. -/
def descend (N m : ℕ) (steps : ℕ → UInt8 × UInt8) (top : Standing) : ℕ → ℕ → Standing
  | 0, _ => top
  | n + 1, k => (descend N m steps top n (k + 1)).down N m (steps k)

namespace ProofShape

/-- Where the path of the shape stands at level `k`. -/
def standing (N : ℕ) (σ : ProofShape MAX_DEPTH) (k : ℕ) : Standing :=
  descend N σ.treeSize σ.stepAt (.boundary (settleBoundary N σ.treeSize σ.levelCount))
    (σ.levelCount - k) k

theorem standing_top (σ : ProofShape MAX_DEPTH) :
    σ.standing N σ.levelCount = .boundary (settleBoundary N σ.treeSize σ.levelCount) := by
  rw [standing, Nat.sub_self]
  rfl

theorem standing_of_lt {σ : ProofShape MAX_DEPTH} {k : ℕ} (hk : k < σ.levelCount) :
    σ.standing N k = (σ.standing N (k + 1)).down N σ.treeSize (σ.stepAt k) := by
  rw [standing, standing, show σ.levelCount - k = σ.levelCount - (k + 1) + 1 by omega]
  rfl

end ProofShape

/-- What does not change along a lifted boundary node is the same where it settles. -/
theorem settleBoundary_eq {α : Type} {m : ℕ} {f : ℕ → α}
    (hf : ∀ k, ConsistencyProof.boundary N m k % N = 0 → f (k + 1) = f k) (k : ℕ) :
    f (settleBoundary N m k) = f k := by
  induction k with
  | zero => rfl
  | succ k ih =>
      rw [settleBoundary]
      split_ifs with h
      · rw [ih, hf k h]
      · rfl

theorem settleBoundary_pos {m : ℕ} (k : ℕ) :
    ∀ y, settleBoundary N m k = y + 1 → 0 < ConsistencyProof.boundary N m y % N := by
  induction k with
  | zero =>
      intro y hy
      cases hy
  | succ k ih =>
      intro y hy
      rw [settleBoundary] at hy
      split_ifs at hy with h
      · exact ih y hy
      · cases hy
        exact Nat.pos_of_ne_zero h

/-- The values the hashes of an old proof may have where its path stands. -/
def Standing.Admits (H : Hasher Hash) (p : ConsistencyProof Hash N MAX_DEPTH) :
    Standing → Hash → Prop
  | boundary k, y => (∀ j, k = j + 1 → 0 < ConsistencyProof.boundary N p.oldSize j % N) ∧
      y = p.oldAt H k
  | free, _ => True
  | nowhere, _ => False

namespace ConsistencyProof

variable {p : ConsistencyProof Hash N MAX_DEPTH} {old q : NaryProof Hash N MAX_DEPTH}

/-- A boundary node that ends a group of one is lifted. -/
theorem oldAt_lift (hN : 2 ≤ N) {k : ℕ} (hb : boundary N p.oldSize k % N = 0) :
    p.oldAt H (k + 1) = p.oldAt H k := by
  have hll := left_length hN (p.levelOf k) p.oldSize k
  rw [oldAt, List.length_eq_zero_iff.mp (hll.trans hb)]
  rfl

theorem settle_admits (hN : 2 ≤ N) (k : ℕ) :
    (Standing.boundary (settleBoundary N p.oldSize k)).Admits H p (p.oldAt H k) :=
  ⟨fun j hj => settleBoundary_pos k j hj,
    (settleBoundary_eq (f := p.oldAt H) (fun _ hb => oldAt_lift hN hb) k).symm⟩

/-- One level down, the value below is one of the place below: here the hash is injective. -/
theorem admits_down (hN : 2 ≤ N) (hinj : LeanTree.InjectiveOn H.hashChildren N)
    {standing : Standing} {l : ProofLevel Hash N} (hfit : StepFits N l.step) {y : Hash}
    (hy : standing.Admits H p (l.parentOf H y)) :
    (standing.down N p.oldSize l.step).Admits H p y := by
  unfold ProofLevel.parentOf at hy
  cases standing with
  | boundary k =>
      by_cases h0 : l.siblingCount.toNat = 0
      · rw [if_pos h0] at hy
        cases k with
        | zero => rwa [Standing.down, if_pos (show l.step.2.toNat = 0 from h0)]
        | succ k => rwa [Standing.down, if_pos (show l.step.2.toNat = 0 from h0)]
      · rw [if_neg h0] at hy
        cases k with
        | zero =>
            rw [Standing.down, if_neg (show ¬ l.step.2.toNat = 0 from h0)]
            trivial
        | succ k =>
            have hsc : 0 < l.siblingCount.toNat := Nat.pos_of_ne_zero h0
            obtain ⟨hsettled, heq⟩ := hy
            obtain ⟨hle, hpos⟩ := hfit hsc
            have hb := hsettled k rfl
            have hlt := Nat.mod_lt (boundary N p.oldSize k) (show 0 < N by omega)
            have hal := ProofLevel.length_around hfit hsc y
            have hll := left_length hN (p.levelOf k) p.oldSize k
            have hgl : ((p.levelOf k).left (boundary N p.oldSize k % N) ++ [p.oldAt H k]).length =
                boundary N p.oldSize k % N + 1 := by
              rw [List.length_append, List.length_singleton, hll]
            rw [oldAt, LeanTree.combine_of_two_le (by omega)] at heq
            have hag := hinj _ _ (by omega) (by rw [hal]; exact hle) (by omega) (by omega) heq
            have hcount : l.step.2.toNat = boundary N p.oldSize k % N := by
              have := congrArg List.length hag
              rw [hal, hgl] at this
              exact Nat.succ.inj this
            rw [Standing.down, if_neg (show ¬ l.step.2.toNat = 0 from h0), if_pos hcount]
            split_ifs with hp
            · have hget := ProofLevel.getElem?_around hfit hsc y
              rw [hag, show l.position.toNat = boundary N p.oldSize k % N from hp,
                List.getElem?_append_right hll.le, hll, Nat.sub_self, List.getElem?_cons_zero,
                Option.some.injEq] at hget
              rw [← hget]
              exact settle_admits hN k
            · trivial
  | free => trivial
  | nowhere => exact hy.elim

/-- **The path follows the hashes.**  The node of an accepted proof is a value of the place where
its path stands. -/
theorem nodeAt_admits (hN : 2 ≤ N) (hinj : LeanTree.InjectiveOn H.hashChildren N)
    (hM : Matched H p old) (hsize : old.treeSize = p.oldSize) (d : ℕ) :
    ∀ k, k + d = old.levelCount → (old.shape.standing N k).Admits H p (old.nodeAt H k) := by
  induction d with
  | zero =>
      intro k hk
      rw [Nat.add_zero] at hk
      have hroot := oldAt_eq_root hM hN (p.levelCount - old.levelCount)
      rw [Nat.add_sub_cancel' hM.levelCount_le, hM.climbs.old] at hroot
      rw [hk, hM.root, hroot, show old.levelCount = old.shape.levelCount from rfl,
        old.shape.standing_top, show old.shape.treeSize = p.oldSize from hsize]
      exact settle_admits hN _
  | succ d ih =>
      intro k hk
      have habove := ih (k + 1) (by omega)
      rw [NaryProof.nodeAt] at habove
      have hbelow := admits_down hN hinj (hM.steps k (by omega)).2 habove
      rwa [old.step_levelOf, ← hsize, show old.treeSize = old.shape.treeSize from rfl,
        ← ProofShape.standing_of_lt (show k < old.shape.levelCount by show k < old.levelCount; omega)]
        at hbelow

/-! ### Wrong counts -/

/-- A level that the update leaves as it is: no node is new, and the boundary node is not put into
the group. -/
def Keeps (p : ConsistencyProof Hash N MAX_DEPTH) (old : NaryProof Hash N MAX_DEPTH) (k : ℕ) :
    Prop :=
  (p.levelOf k).newCount.toNat = 0 ∧
    (0 < k → old.leafIndex / N ^ k / N = boundary N p.oldSize k / N →
      old.leafIndex / N ^ k % N ≠ boundary N p.oldSize k % N →
      (old.levelOf k).siblingCount.toNat < boundary N p.oldSize k % N)

/-- The members of a level of the updated proof, in the boundary group. -/
theorem Updated.members (hN : 2 ≤ N) (hM : Matched H p old) (hU : Updated H p old q) {k : ℕ}
    (hk : k < p.levelCount) (hsame : old.leafIndex / N ^ k / N = boundary N p.oldSize k / N) :
    (q.levelOf k).position.toNat = old.leafIndex / N ^ k % N ∧
      (q.levelOf k).siblingCount.toNat + 1 = claimedSize old k + (p.levelOf k).newCount.toNat ∧
      claimedSize old k + (p.levelOf k).newCount.toNat ≤ N ∧
      ∀ i < claimedSize old k + (p.levelOf k).newCount.toNat, i ≠ old.leafIndex / N ^ k % N →
        (q.levelOf k).other i =
          if claimedSize old k ≤ i then ((p.levelOf k).new[i - claimedSize old k]?).getD 0
          else if (0 < k ∧ old.leafIndex / N ^ k % N ≠ boundary N p.oldSize k % N) ∧
            i = boundary N p.oldSize k % N then p.newAt H k else (old.levelOf k).other i := by
  have hdepth := hM.climbs.depth
  have hfit := hM.climbs.fits k hk
  obtain ⟨hash, hhash, hlevel⟩ := (hU.levels k hk).2 hsame
  obtain ⟨h1, h2, h3, h4⟩ := boundaryLevel_members (by omega)
    (Nat.mod_lt (old.leafIndex / N ^ k) (show 0 < N by omega))
    (Nat.mod_lt (boundary N p.oldSize k) (show 0 < N by omega)) (fun h => (hM.steps k h).1)
    (fun h => by rw [(hM.index_eq_of_le hN h).1, Nat.zero_mod])
    (hfit.newHashes hN hM.notEmpty hM.grows.le)
    ((hfit.new_length hN hM.notEmpty hM.grows.le).trans hfit.2.2.symm) hlevel
  refine ⟨h1, h2, h3, ?_⟩
  intro i hi hne
  rw [h4 i hi hne]
  split_ifs with hge hc
  · rfl
  · exact hhash hc.1.1
  · rfl

theorem claimedSize_of_lt {k : ℕ} (hk : k < old.levelCount) (hd : k < MAX_DEPTH) :
    claimedSize old k = (old.levelOf k).siblingCount.toNat + 1 := by
  rw [claimedSize, dif_pos ⟨hk, hd⟩, old.levelOf_of_lt hd]

/-- A kept level describes the group it did. -/
theorem Updated.kept (hN : 2 ≤ N) (hM : Matched H p old) (hU : Updated H p old q) {k : ℕ}
    (hk : k < old.levelCount) (hkeep : p.Keeps old k) :
    (q.levelOf k).step = (old.levelOf k).step ∧
      ∀ y, (q.levelOf k).parentOf H y = (old.levelOf k).parentOf H y := by
  have hkp : k < p.levelCount := lt_of_lt_of_le hk hM.levelCount_le
  by_cases hsame : old.leafIndex / N ^ k / N = boundary N p.oldSize k / N
  · obtain ⟨hpos, hcount, -, hothers⟩ := hU.members hN hM hkp hsame
    obtain ⟨hnew, hrefresh⟩ := hkeep
    obtain ⟨hp, hfit⟩ := hM.steps k hk
    rw [claimedSize_of_lt hk (lt_of_lt_of_le hk hM.depth), hnew] at hcount hothers
    have hstep : (q.levelOf k).step = (old.levelOf k).step :=
      Prod.ext (UInt8.toNat_inj.mp (hpos.trans hp.symm)) (UInt8.toNat_inj.mp (Nat.succ.inj hcount))
    refine ⟨hstep, ProofLevel.parentOf_congr hstep (hstep ▸ hfit) ?_⟩
    intro i hi hne
    rw [hothers i (by omega) (by rwa [← hpos]), if_neg (by omega), if_neg]
    rintro ⟨⟨h0, hpb⟩, hib⟩
    have := hrefresh h0 hsame hpb
    omega
  · rw [(hU.levels k hkp).1 hsame]
    exact ⟨rfl, fun _ => rfl⟩

/-- Without new nodes up to a level, both trees have the same boundary node there. -/
theorem newAt_eq_oldAt (hN : 2 ≤ N) (hM : Matched H p old) (k : ℕ) :
    k ≤ p.levelCount → (∀ j < k, (p.levelOf j).newCount.toNat = 0) → p.newAt H k = p.oldAt H k := by
  induction k with
  | zero =>
      intro _ _
      rfl
  | succ k ih =>
      intro hk hnone
      have hfit := hM.climbs.fits k hk
      have hnl := hfit.new_length hN hM.notEmpty hM.grows.le
      rw [← hfit.2.2, hnone k (Nat.lt_succ_self k)] at hnl
      rw [newAt, oldAt, ih (by omega) fun j hj => hnone j (by omega),
        List.length_eq_zero_iff.mp hnl]

/-- **Kept levels do no harm.**  If every level up to the uppermost wrong one is kept, the updated
proof is accepted. -/
theorem verify_of_keeps [DecidableEq Hash] (hN : 2 ≤ N)
    (hinj : LeanTree.InjectiveOn H.hashChildren N) (hM : Matched H p old) (hU : Updated H p old q)
    {k : ℕ} (hkw : p.UppermostWrong old k) (hkeep : ∀ j ≤ k, p.Keeps old j) :
    q.verify H = .ok true := by
  obtain ⟨hk, hsame, -, hright⟩ := hkw
  have hmem := hM.member
  have hgrows := hM.grows
  have hs := hM.climbs.size
  have hle := hM.levelCount_le
  have hidx : ∀ x, k + 1 ≤ x → old.leafIndex / N ^ x = boundary N p.oldSize x :=
    fun x hx => index_eq_boundary hsame hx
  -- up to the wrong level the two proofs build the same nodes
  have hbelow : ∀ x ≤ k + 1, q.nodeAt H x = old.nodeAt H x := by
    intro x
    induction x with
    | zero =>
        intro _
        exact hU.leaf
    | succ x ih =>
        intro hx
        rw [NaryProof.nodeAt, NaryProof.nodeAt, ih (by omega),
          (hU.kept hN hM (by omega) (hkeep x (by omega))).2]
  have hstart : q.nodeAt H (k + 1) = p.newAt H (k + 1) := by
    rw [hbelow (k + 1) le_rfl, newAt_eq_oldAt hN hM (k + 1) (by omega)
      fun j hj => (hkeep j (by omega)).1]
    exact nodeAt_eq_oldAt hN hinj hM hright (old.levelCount - (k + 1)) (k + 1) le_rfl (by omega)
      (hidx (k + 1) le_rfl)
  have habove : ∀ d, k + 1 + d ≤ p.levelCount →
      q.nodeAt H (k + 1 + d) = p.newAt H (k + 1 + d) := by
    intro d
    induction d with
    | zero =>
        intro _
        exact hstart
    | succ d ih =>
        intro hd
        exact hU.nodeAt_succ (k := k + 1 + d) hN hinj hM hright (by omega) (by omega)
          (hidx _ (by omega)) (ih (by omega))
  rw [NaryProof.verify_eq_true_iff_nodeAt hN, hU.leafIndex, hU.treeSize, hU.levelCount, hU.root]
  refine ⟨⟨by omega, by omega, hM.climbs.count, hM.climbs.depth, fun x hx => ?_⟩, ?_⟩
  · rcases Nat.lt_or_ge k x with hkx | hxk
    · exact hU.stepAt hN hinj hM hright hkx hx
    · obtain ⟨hp, hfit⟩ := hM.steps x (by omega)
      obtain ⟨hstep, -⟩ := hU.kept hN hM (by omega) (hkeep x hxk)
      unfold NaryProof.StepAt
      rw [hU.leafIndex, hstep, show (q.levelOf x).position = (old.levelOf x).position from
        congrArg Prod.fst hstep]
      exact ⟨hp, hfit⟩
  · rw [← hM.climbs.new, show p.levelCount = k + 1 + (p.levelCount - (k + 1)) by omega]
    exact habove _ (by omega)

end ConsistencyProof

/-! ### Shapes whose updates are valid -/

/-- The checks of `verify` on the shape of a consistency proof that grows the tree. -/
def ConsistencyShape.Accepted (N : ℕ) (τ : ConsistencyShape MAX_DEPTH) : Prop :=
  0 < τ.oldSize ∧ τ.oldSize < τ.newSize ∧ τ.newSize < U64_SIZE ∧
    τ.levelCount = Nat.clog N τ.newSize ∧ τ.levelCount ≤ MAX_DEPTH ∧
    ∀ k : Fin MAX_DEPTH, k.val < τ.levelCount →
      ConsistencyProof.boundary N τ.oldSize k / N * N + N < U64_SIZE ∧
      (τ.counts k).1.toNat = (if k.val = 0 then ConsistencyProof.boundary N τ.oldSize k % N + 1
        else ConsistencyProof.boundary N τ.oldSize k % N) ∧
      (τ.counts k).2.toNat = ConsistencyProof.newCountAt N τ.oldSize τ.newSize k

namespace ProofShape

/-- The update has room: in the boundary group the members the old proof claims and the new ones
fit a group, and a byte counts them. -/
def HasRoom (N : ℕ) (σ : ProofShape MAX_DEPTH) (τ : ConsistencyShape MAX_DEPTH) : Prop :=
  ∀ k : Fin MAX_DEPTH, k.val < τ.levelCount → σ.SharedAt N k →
    (if k.val < σ.levelCount then (σ.steps k).2.toNat else 0) + 1 + (τ.counts k).2.toNat ≤
      min N 256

/-- Both proofs can be accepted, with one old tree between them, and the update returns. -/
def Updatable (N : ℕ) (σ : ProofShape MAX_DEPTH) (τ : ConsistencyShape MAX_DEPTH) : Prop :=
  σ.Accepted N ∧ τ.Accepted N ∧ σ.treeSize = τ.oldSize ∧ σ.HasRoom N τ ∧
    σ.standing N 0 ≠ .nowhere

/-- Below every level with a wrong count, no node is new, and the boundary node is not put into a
group of the old proof. -/
def KeepsValid (N : ℕ) (σ : ProofShape MAX_DEPTH) (τ : ConsistencyShape MAX_DEPTH) : Prop :=
  ∀ k : Fin MAX_DEPTH, k.val < σ.levelCount → σ.SharedAt N k →
    (σ.steps k).2.toNat ≠ ConsistencyProof.boundary N σ.treeSize k % N →
    ∀ j : Fin MAX_DEPTH, j.val ≤ k.val → (τ.counts j).2.toNat = 0 ∧
      (0 < j.val → σ.SharedAt N j →
        σ.leafIndex / N ^ j.val % N ≠ ConsistencyProof.boundary N σ.treeSize j % N →
        (σ.steps j).2.toNat < ConsistencyProof.boundary N σ.treeSize j % N)

instance (τ : ConsistencyShape MAX_DEPTH) : Decidable (τ.Accepted N) :=
  inferInstanceAs (Decidable (_ ∧ _ ∧ _ ∧ _ ∧ _ ∧ ∀ _ : Fin MAX_DEPTH, _ → _ ∧ _ ∧ _))

instance (σ : ProofShape MAX_DEPTH) (τ : ConsistencyShape MAX_DEPTH) :
    Decidable (σ.HasRoom N τ) :=
  inferInstanceAs (Decidable (∀ k : Fin MAX_DEPTH, _ → σ.SharedAt N k → _))

instance (σ : ProofShape MAX_DEPTH) (τ : ConsistencyShape MAX_DEPTH) :
    Decidable (σ.Updatable N τ) :=
  inferInstanceAs (Decidable (_ ∧ _ ∧ _ ∧ _ ∧ _))

instance (σ : ProofShape MAX_DEPTH) (τ : ConsistencyShape MAX_DEPTH) :
    Decidable (σ.KeepsValid N τ) :=
  inferInstanceAs (Decidable (∀ k : Fin MAX_DEPTH, _ → σ.SharedAt N k → _ →
    ∀ j : Fin MAX_DEPTH, _ → _ ∧ (_ → σ.SharedAt N j → _ → _)))

end ProofShape

/-- The update claim for proofs of two shapes: over any type of hashes and any injective hasher, the
update of an accepted proof along an accepted consistency proof is an accepted proof of the same
leaf against the new root. -/
def UpdatesAt (N : ℕ) (σ : ProofShape MAX_DEPTH) (τ : ConsistencyShape MAX_DEPTH) : Prop :=
  ∀ (Hash : Type) [Zero Hash] [DecidableEq Hash] (H : Hasher Hash),
    LeanTree.InjectiveOn H.hashChildren N →
    ∀ (p : ConsistencyProof Hash N MAX_DEPTH) (old q : NaryProof Hash N MAX_DEPTH),
      p.shape = τ → old.shape = σ → old.verify H = .ok true → old.treeSize = p.oldSize →
      old.root = p.oldRoot → p.updateInclusionProof H old = .ok q →
      q.verify H = .ok true ∧ q.root = p.newRoot ∧ q.treeSize = p.newSize ∧ q.leaf = old.leaf ∧
        q.leafIndex = old.leafIndex

namespace ConsistencyProof

variable {p : ConsistencyProof Hash N MAX_DEPTH} {old q : NaryProof Hash N MAX_DEPTH}

/-- Two proofs whose update returned have shapes that can be updated. -/
theorem updatable_shape (hN : 2 ≤ N) (hinj : LeanTree.InjectiveOn H.hashChildren N)
    (hM : Matched H p old) (hU : Updated H p old q) (hsize : old.treeSize = p.oldSize) :
    old.shape.Updatable N p.shape := by
  have hc := hM.climbs
  have hgrows := hM.grows
  have hs := hc.size
  have hd := hc.depth
  have hmem := hM.member
  have hsteps : old.shape.Accepted N := by
    have hrange := old.stepsFit_range' old.levelCount 0
    rw [Nat.pow_zero, Nat.div_one] at hrange
    refine ⟨lt_of_lt_of_eq hmem hsize.symm, lt_of_eq_of_lt hsize (by omega),
      hM.count.trans (by rw [← hsize]; rfl), hM.depth, ?_⟩
    rw [old.used_shape, old.used_eq hM.depth]
    exact hrange.mpr fun k _ hk => hM.steps k (by omega)
  refine ⟨hsteps, ⟨hM.notEmpty, hgrows, hs, hc.count, hd, fun k hk => ?_⟩, hsize, fun k hk hsame => ?_,
    fun hno => ?_⟩
  · have hfit := hc.fits k.val hk
    rw [p.levelOf_of_lt k.isLt] at hfit
    exact hfit
  · have hsame' : old.leafIndex / N ^ k.val / N = boundary N p.oldSize k / N := by
      rw [← hsize]
      exact hsame
    obtain ⟨-, hcount, hroom, -⟩ := hU.members hN hM hk hsame'
    have hbyte := (q.levelOf k).siblingCount.toNat_lt
    have hclaimed : claimedSize old k.val =
        (if k.val < old.shape.levelCount then (old.shape.steps k).2.toNat else 0) + 1 := by
      unfold claimedSize
      by_cases hl : k.val < old.levelCount
      · rw [dif_pos ⟨hl, k.isLt⟩, if_pos (show k.val < old.shape.levelCount from hl)]
        rfl
      · rw [dif_neg fun h => hl h.1, if_neg (show ¬ k.val < old.shape.levelCount from hl)]
    have hnew : (p.levelOf k.val).newCount.toNat = (p.shape.counts k).2.toNat := by
      rw [p.levelOf_of_lt k.isLt]
      rfl
    rw [hclaimed, hnew] at hcount hroom
    rw [Nat.le_min]
    omega
  · have := nodeAt_admits hN hinj hM hsize old.levelCount 0 (Nat.zero_add _)
    rw [hno] at this
    exact this

/-- The condition on the shapes says which levels the update keeps. -/
theorem keeps_of_keepsValid (hM : Matched H p old) (hsize : old.treeSize = p.oldSize)
    (hvalid : old.shape.KeepsValid N p.shape) {k : ℕ} (hkw : p.UppermostWrong old k) :
    ∀ j ≤ k, p.Keeps old j := by
  intro j hj
  obtain ⟨hk, hsame, hwrong, -⟩ := hkw
  have hd := hM.depth
  rw [old.levelOf_of_lt (by omega), ← hsize] at hwrong
  rw [← hsize] at hsame
  have hkeep := hvalid ⟨k, by omega⟩ hk hsame hwrong ⟨j, by omega⟩ hj
  unfold Keeps
  rw [p.levelOf_of_lt (by omega), old.levelOf_of_lt (by omega), ← hsize]
  exact hkeep

end ConsistencyProof

/-- **Enough for a valid update.** -/
theorem updatesAt_of_keepsValid (hN : 2 ≤ N) {σ : ProofShape MAX_DEPTH}
    {τ : ConsistencyShape MAX_DEPTH} (hστ : σ.Updatable N τ → σ.KeepsValid N τ) :
    UpdatesAt N σ τ := by
  intro Hash _ _ H hinj p old q hp hold hv hsize _ hq
  subst hp
  subst hold
  obtain ⟨hM, hU⟩ := ConsistencyProof.updated_of_eq_ok hN hv hsize hq
  have hvalid := hστ (ConsistencyProof.updatable_shape hN hinj hM hU hsize)
  refine ⟨?_, hU.root, hU.treeSize, hU.leaf, hU.leafIndex⟩
  by_cases hright : p.CountsRightFrom 0 old
  · exact ConsistencyProof.verify_of_countsRight hN hinj hM hright hU
  · obtain ⟨k, hk⟩ := ConsistencyProof.exists_uppermostWrong hright
    exact ConsistencyProof.verify_of_keeps hN hinj hM hU hk
      (ConsistencyProof.keeps_of_keepsValid hM hsize hvalid hk)

end Works.Rotortree
