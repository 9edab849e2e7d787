import Works.Rotortree.InclusionSound

/-! # Consistency proofs

The verifier climbs both trees at once along the path above the last leaf of the old tree, the
*boundary*: node `(m - 1) / N ^ i` of level `i`, where `m` is the old size.  Left of the boundary
the two trees share their nodes.  In the old tree the boundary node ends its group; in the new
tree the group may go on.

Going up, a generated proof reproduces both roots (`generateConsistencyProof_exact`).  Going
down from two equal roots, an injective hash forces the shared nodes to be those of both trees,
and they cover every leaf before the boundary (`consistency_sound`). -/

namespace Works.Rotortree

open Works.Lib

variable {Hash : Type} {N MAX_DEPTH : ℕ}

namespace ConsistencyProof

/-! ### Sizes and boundaries -/

/-- The boundary node of level `i` over `m` old leaves. -/
def boundary (N m i : ℕ) : ℕ := (m - 1) / N ^ i

theorem ceilDiv_eq_boundary (hN : 2 ≤ N) {m : ℕ} (hm : 0 < m) (i : ℕ) :
    m ⌈/⌉ N ^ i = boundary N m i + 1 :=
  LeanTree.ceilDiv_eq_pred_div (Nat.pow_pos (by omega)) hm

theorem boundary_succ (m i : ℕ) : boundary N m (i + 1) = boundary N m i / N := by
  rw [boundary, boundary, Nat.div_div_eq_div_mul, Nat.pow_succ]

theorem boundary_lt (hN : 2 ≤ N) {m n : ℕ} (hm : 0 < m) (hmn : m ≤ n) (i : ℕ) :
    boundary N m i < n ⌈/⌉ N ^ i := by
  have h1 := ceilDiv_eq_boundary hN hm i
  have h2 := LeanTree.ceilDiv_mono (Nat.pow_pos (n := i) (show 0 < N by omega)) hmn
  omega

/-- From the root level of the old tree on, the boundary is the first node. -/
theorem boundary_of_clog_le (hN : 2 ≤ N) {m k : ℕ} (hm : 0 < m) (hk : Nat.clog N m ≤ k) :
    boundary N m k = 0 := by
  apply Nat.div_eq_of_lt
  calc m - 1 < m := by omega
    _ ≤ N ^ Nat.clog N m := Nat.le_pow_clog (by omega) m
    _ ≤ N ^ k := Nat.pow_le_pow_right (by omega) hk

theorem boundary_clog (hN : 2 ≤ N) {m n : ℕ} (hm : 0 < m) (hmn : m ≤ n) :
    boundary N m (Nat.clog N n) = 0 :=
  boundary_of_clog_le hN hm (Nat.clog_mono_right N hmn)

theorem layers_eq_clog (hN : 2 ≤ N) (fuel : ℕ) :
    ∀ os ns, os ≤ ns → ns ≤ fuel → layers N fuel os ns = Nat.clog N ns := by
  induction fuel with
  | zero =>
      intro os ns h1 h2
      rw [show ns = 0 by omega, Nat.clog_zero_right]
      rfl
  | succ fuel ih =>
      intro os ns h1 h2
      rw [layers]
      split_ifs with h
      · have hlt : ns ⌈/⌉ N ≤ fuel := by
          rw [ceilDiv_le_iff_le_mul (by omega)]
          calc ns ≤ 2 * fuel := by omega
            _ ≤ N * fuel := Nat.mul_le_mul_right _ hN
        rw [ih _ _ (LeanTree.ceilDiv_mono (by omega) h1) hlt, Nat.clog_of_two_le (n := ns) (by omega)
          (by omega), Nat.ceilDiv_eq_add_pred_div]
      · exact (Nat.clog_of_right_le_one (by omega) N).symm

theorem expectedDepth_eq_clog (hN : 2 ≤ N) {os ns : ℕ} (h : os ≤ ns) :
    expectedDepth N os ns = Nat.clog N ns := layers_eq_clog hN _ os ns h (by omega)

/-! ### The verifier in closed form -/

/-- The number of new nodes right of the boundary in its group. -/
def newCountAt (N m n i : ℕ) : ℕ :=
  min (n ⌈/⌉ N ^ i) (boundary N m i / N * N + N) - boundary N m i - 1

/-- The checks of `verify` on level `i`. -/
def LevelFits (N m n i : ℕ) (level : ConsistencyLevel Hash N) : Prop :=
  boundary N m i / N * N + N < U64_SIZE ∧
    level.sharedCount.toNat = (if i = 0 then boundary N m i % N + 1 else boundary N m i % N) ∧
    level.newCount.toNat = newCountAt N m n i

end ConsistencyProof

/-- The shared nodes left of the boundary. -/
def ConsistencyLevel.left (level : ConsistencyLevel Hash N) (boundaryPos : ℕ) : List Hash :=
  (List.ofFn level.hashes).take boundaryPos

/-- The new nodes. -/
def ConsistencyLevel.new (level : ConsistencyLevel Hash N) : List Hash :=
  ((List.ofFn level.hashes).take (level.sharedCount.toNat + level.newCount.toNat)).drop
    level.sharedCount.toNat

/-- The node at the boundary of the lowest level. -/
def ConsistencyLevel.middle [Zero Hash] (level : ConsistencyLevel Hash N) (boundaryPos : ℕ) : Hash :=
  ((List.ofFn level.hashes)[boundaryPos]?).getD 0

namespace ConsistencyProof

variable {H : Hasher Hash} {m n i : ℕ} {level : ConsistencyLevel Hash N}

theorem boundaryPos_add_newCountAt (hN : 2 ≤ N) (hm : 0 < m) (hmn : m ≤ n) (i : ℕ) :
    boundary N m i % N + 1 + newCountAt N m n i =
        min (n ⌈/⌉ N ^ i) (boundary N m i / N * N + N) - boundary N m i / N * N ∧
      boundary N m i % N + 1 + newCountAt N m n i ≤ N ∧
      boundary N m i + 1 ≤ min (n ⌈/⌉ N ^ i) (boundary N m i / N * N + N) := by
  have h1 := boundary_lt hN hm hmn i
  have h2 := Nat.div_add_mod' (boundary N m i) N
  have h3 := Nat.mod_lt (boundary N m i) (show 0 < N by omega)
  unfold newCountAt
  omega

/-- The middle nodes of level `i`: at the lowest level one shared leaf. -/
def midsAt [Zero Hash] (level : ConsistencyLevel Hash N) (m i : ℕ) (oldHash newHash : Hash) :
    Hash × Hash :=
  if i = 0 then (level.middle (boundary N m i % N), level.middle (boundary N m i % N))
  else (oldHash, newHash)

theorem mids_eq [Zero Hash] (hN : 2 ≤ N) (level : ConsistencyLevel Hash N) (m i : ℕ)
    (c : Cursor Hash N) :
    mids level i (boundary N m i % N) c = .ok (midsAt level m i c.oldHash c.newHash) := by
  have hlt := Nat.mod_lt (boundary N m i) (show 0 < N by omega)
  unfold mids midsAt
  split_ifs with h0
  · rw [FixedArray.index_of_lt _ hlt]
    simp [ConsistencyLevel.middle, hlt]
  · rfl

theorem hashFirst_eq {children : Fin N → Hash} {g : List Hash} {mid : Hash} {count : ℕ}
    (hs : FixedArray.StartsWith children g) (hcount : count = g.length) (h1 : 1 ≤ g.length)
    (hmid : g.length = 1 → g = [mid]) :
    hashFirst H children count mid = .ok (LeanTree.combine H.hashChildren g) := by
  unfold hashFirst
  split_ifs with h2
  · rw [hs.slice_all hcount, Outcome.ok_bind, LeanTree.combine_of_two_le (by omega)]
    rfl
  · rw [hmid (by omega), LeanTree.combine_singleton]
    rfl

theorem left_length (hN : 2 ≤ N) (level : ConsistencyLevel Hash N) (m i : ℕ) :
    (level.left (boundary N m i % N)).length = boundary N m i % N := by
  have := Nat.mod_lt (boundary N m i) (show 0 < N by omega)
  simp only [ConsistencyLevel.left, List.length_take, List.length_ofFn]
  omega

theorem LevelFits.le (hN : 2 ≤ N) (hm : 0 < m) (hmn : m ≤ n) (hfit : LevelFits N m n i level) :
    level.sharedCount.toNat + level.newCount.toNat ≤ N := by
  obtain ⟨-, h2, h3⟩ := hfit
  obtain ⟨-, h4, -⟩ := boundaryPos_add_newCountAt hN hm hmn i
  rw [h2, h3]
  split_ifs <;> omega

theorem LevelFits.new_length (hN : 2 ≤ N) (hm : 0 < m) (hmn : m ≤ n)
    (hfit : LevelFits N m n i level) : level.new.length = newCountAt N m n i := by
  have hle := hfit.le hN hm hmn
  obtain ⟨-, -, h3⟩ := hfit
  simp only [ConsistencyLevel.new, List.length_drop, List.length_take, List.length_ofFn]
  omega

theorem LevelFits.newHashes (hN : 2 ≤ N) (hm : 0 < m) (hmn : m ≤ n)
    (hfit : LevelFits N m n i level) : level.newHashes = .ok level.new :=
  FixedArray.slice_of_le _ (by omega) (hfit.le hN hm hmn)

theorem expectedNewCount_eq (hN : 2 ≤ N) (hm : 0 < m) (hmn : m ≤ n)
    (hu : boundary N m i / N * N + N < U64_SIZE) :
    expectedNewCount N (boundary N m i) (boundary N m i / N * N) (n ⌈/⌉ N ^ i) =
      .ok (newCountAt N m n i) := by
  obtain ⟨-, -, h⟩ := boundaryPos_add_newCountAt hN hm hmn i
  rw [expectedNewCount, Outcome.require_pos hu, Outcome.ok_bind, Outcome.require_pos h,
    Outcome.ok_bind]
  rfl

theorem ceilDiv_sub_one (hN : 2 ≤ N) (hm : 0 < m) (i : ℕ) : m ⌈/⌉ N ^ i - 1 = boundary N m i := by
  rw [ceilDiv_eq_boundary hN hm, Nat.add_sub_cancel]

theorem boundary_sub_mod (m i : ℕ) :
    boundary N m i - boundary N m i % N = boundary N m i / N * N := by
  have := Nat.div_add_mod' (boundary N m i) N
  omega

variable [Zero Hash]

/-- One level of `verify` whose counts are right combines both boundary groups. -/
theorem verifyLevel_of_fits (hN : 2 ≤ N) (hm : 0 < m) (hmn : m ≤ n)
    (hfit : LevelFits N m n i level) {c : Cursor Hash N} (ho : c.oldLevelSize = m ⌈/⌉ N ^ i)
    (hn : c.newLevelSize = n ⌈/⌉ N ^ i) :
    ∃ children, verifyLevel H i level c = .ok ⟨m ⌈/⌉ N ^ (i + 1), n ⌈/⌉ N ^ (i + 1),
      LeanTree.combine H.hashChildren
        (level.left (boundary N m i % N) ++ [(midsAt level m i c.oldHash c.newHash).1]),
      LeanTree.combine H.hashChildren
        (level.left (boundary N m i % N) ++ (midsAt level m i c.oldHash c.newHash).2 :: level.new),
      children⟩ := by
  have hlt := Nat.mod_lt (boundary N m i) (show 0 < N by omega)
  have hll := left_length hN level m i
  have hnl := hfit.new_length hN hm hmn
  obtain ⟨hu, hshared, hnew⟩ := hfit
  obtain ⟨-, hle, -⟩ := boundaryPos_add_newCountAt hN hm hmn i
  have hpos := ceilDiv_eq_boundary hN hm i
  obtain ⟨a₁, e₁, s₁⟩ := (FixedArray.startsWith_nil c.children).copy (ε := TreeError) 0
    (boundary N m i % N) (level.left (boundary N m i % N)) rfl (by omega) (by omega)
  rw [List.nil_append] at s₁
  obtain ⟨a₂, e₂, s₂⟩ := s₁.set (ε := TreeError) (boundary N m i % N)
    (midsAt level m i c.oldHash c.newHash).1 hll.symm hlt
  obtain ⟨a₃, e₃, s₃⟩ := s₂.of_append.set (ε := TreeError) (boundary N m i % N)
    (midsAt level m i c.oldHash c.newHash).2 hll.symm hlt
  obtain ⟨a₄, e₄, s₄⟩ := s₃.copy (ε := TreeError) (boundary N m i % N + 1)
    (boundary N m i % N + 1 + level.newCount.toNat) level.new (by simp [hll]) (by omega) (by omega)
  rw [List.append_assoc, List.singleton_append] at s₄
  refine ⟨a₄, ?_⟩
  unfold verifyLevel
  dsimp only
  rw [ho, hn, Outcome.require_pos (by omega), Outcome.ok_bind, ceilDiv_sub_one hN hm,
    boundary_sub_mod, expectedNewCount_eq hN hm hmn hu, Outcome.ok_bind,
    if_neg (by rw [hshared, hnew]; simp), mids_eq hN, Outcome.ok_bind,
    FixedArray.slice_of_le _ (by omega) (by omega), Outcome.ok_bind, List.drop_zero]
  rw [show (List.ofFn level.hashes).take (boundary N m i % N) = level.left (boundary N m i % N) from rfl,
    e₁, Outcome.ok_bind, e₂, Outcome.ok_bind, hashFirst_eq s₂ (by simp [hll]) (by simp) (by
      intro h1
      rw [List.length_append, List.length_singleton] at h1
      rw [List.length_eq_zero_iff.mp (show (level.left (boundary N m i % N)).length = 0 by omega)]
      rfl), Outcome.ok_bind, e₃, Outcome.ok_bind,
    LevelFits.newHashes hN hm hmn ⟨hu, hshared, hnew⟩, Outcome.ok_bind, e₄, Outcome.ok_bind,
    hashFirst_eq s₄ (by simp [hll, hnl, hnew]; omega) (by simp; omega) (by
      intro h1
      rw [List.length_append, List.length_cons] at h1
      rw [List.length_eq_zero_iff.mp (show (level.left (boundary N m i % N)).length = 0 by omega),
        List.length_eq_zero_iff.mp (show level.new.length = 0 by omega)]
      rfl), Outcome.ok_bind, LeanTree.ceilDiv_ceilDiv (Nat.pow_pos (by omega)) (by omega),
    LeanTree.ceilDiv_ceilDiv (Nat.pow_pos (by omega)) (by omega), ← Nat.pow_succ]
  rfl

omit [Zero Hash] in
/-- A level that passes has the right counts. -/
theorem fits_of_verifyLevel (hN : 2 ≤ N) (hm : 0 < m) (hmn : m ≤ n) {c c' : Cursor Hash N}
    (ho : c.oldLevelSize = m ⌈/⌉ N ^ i) (hn : c.newLevelSize = n ⌈/⌉ N ^ i)
    (h : verifyLevel H i level c = .ok c') : LevelFits N m n i level := by
  unfold verifyLevel at h
  dsimp only at h
  rw [ho, hn, Outcome.require_pos (by rw [ceilDiv_eq_boundary hN hm]; omega), Outcome.ok_bind,
    ceilDiv_sub_one hN hm, boundary_sub_mod, Outcome.bind_eq_ok] at h
  obtain ⟨nc, hnc, h⟩ := h
  have hu : boundary N m i / N * N + N < U64_SIZE := by
    rw [expectedNewCount, Outcome.bind_eq_ok] at hnc
    obtain ⟨_, h1, -⟩ := hnc
    exact Outcome.require_eq_ok.mp h1
  rw [expectedNewCount_eq hN hm hmn hu, Except.ok.injEq] at hnc
  subst hnc
  by_cases hbad : level.sharedCount.toNat ≠
      (if i = 0 then boundary N m i % N + 1 else boundary N m i % N) ∨
      level.newCount.toNat ≠ newCountAt N m n i
  · rw [if_pos hbad] at h
    cases h
  · simp only [not_or, not_not] at hbad
    exact ⟨hu, hbad⟩

/-! ### Boundary groups -/

section Groups

omit [Zero Hash]

variable {h : List Hash → Hash} {xs ys : List Hash}

theorem exists_boundary (hN : 2 ≤ N) (hm : 0 < m) (hmn : m ≤ ys.length) (i : ℕ) :
    ∃ y, (LeanTree.level N h ys i)[boundary N m i]? = some y := by
  have hlt := boundary_lt hN hm hmn i
  rw [← LeanTree.length_level (h := h) (by omega) ys i] at hlt
  exact ⟨_, List.getElem?_eq_getElem hlt⟩

/-- The group of the boundary node in the new tree. -/
theorem group_boundary (hN : 2 ≤ N) {y : Hash}
    (hy : (LeanTree.level N h ys i)[boundary N m i]? = some y) :
    LeanTree.group N (LeanTree.level N h ys i) (boundary N m (i + 1)) =
      ((LeanTree.level N h ys i).drop (boundary N m i / N * N)).take (boundary N m i % N) ++
        y :: ((LeanTree.level N h ys i).drop (boundary N m i + 1)).take
          (newCountAt N m ys.length i) := by
  rw [boundary_succ, LeanTree.group_split (by omega) hy, LeanTree.length_level (by omega), newCountAt]

/-- In the old tree the boundary node is the last one. -/
theorem newCountAt_self (hN : 2 ≤ N) (hm : 0 < m) (i : ℕ) : newCountAt N m m i = 0 := by
  have h1 := ceilDiv_eq_boundary hN hm i
  unfold newCountAt
  omega

theorem boundary_node (hN : 2 ≤ N) (hm : 0 < m) (hmn : m ≤ ys.length) (i : ℕ) :
    (LeanTree.level N h ys (i + 1))[boundary N m (i + 1)]? = some (LeanTree.combine h
      (LeanTree.group N (LeanTree.level N h ys i) (boundary N m (i + 1)))) := by
  apply LeanTree.getElem?_level_succ (by omega)
  have := Nat.div_mul_le_self (m - 1) (N ^ (i + 1))
  rw [boundary]
  omega

theorem boundary_mul_lt (hm : 0 < m) (i : ℕ) : boundary N m i * N ^ i < m := by
  have := Nat.div_mul_le_self (m - 1) (N ^ i)
  rw [boundary]
  omega

theorem length_boundaryGroup (hN : 2 ≤ N) (hm : 0 < m) (hmn : m ≤ ys.length) (i : ℕ) :
    (LeanTree.group N (LeanTree.level N h ys i) (boundary N m (i + 1))).length =
      boundary N m i % N + 1 + newCountAt N m ys.length i := by
  obtain ⟨h1, h2, -⟩ := boundaryPos_add_newCountAt hN hm hmn i
  rw [LeanTree.length_group, LeanTree.length_level (by omega), boundary_succ]
  omega

/-- Two groups that agree with the hashes of a proof level agree left of the boundary. -/
theorem split_eq {l : List Hash} {lo k : ℕ} {left : List Hash} {x y : Hash} {rest new : List Hash}
    (hlen : left.length = k) (hle : lo + k ≤ l.length)
    (heq : (l.drop lo).take k ++ x :: rest = left ++ y :: new) :
    (l.drop lo).take k = left ∧ x = y ∧ rest = new := by
  have h := List.append_inj heq (by rw [List.length_take, List.length_drop]; omega)
  exact ⟨h.1, (List.cons.inj h.2).1, (List.cons.inj h.2).2⟩

/-- **Going down one level.**  If both nodes above the boundary are the ones the verifier computed,
the boundary nodes are its middles and the nodes left of them are the same in both trees. -/
theorem descend (hN : 2 ≤ N) (hinj : LeanTree.InjectiveOn h N) (hm : 0 < m) (hx : xs.length = m)
    (hmn : m ≤ ys.length) {left new : List Hash} {a b : Hash}
    (hleft : left.length = boundary N m i % N) (hnew : new.length = newCountAt N m ys.length i)
    (hX : (LeanTree.level N h xs (i + 1))[boundary N m (i + 1)]? =
      some (LeanTree.combine h (left ++ [a])))
    (hY : (LeanTree.level N h ys (i + 1))[boundary N m (i + 1)]? =
      some (LeanTree.combine h (left ++ b :: new))) :
    (LeanTree.level N h xs i)[boundary N m i]? = some a ∧
      (LeanTree.level N h ys i)[boundary N m i]? = some b ∧
      ∀ j, boundary N m (i + 1) * N ≤ j → j < boundary N m i →
        (LeanTree.level N h xs i)[j]? = (LeanTree.level N h ys i)[j]? := by
  have hdiv := Nat.div_add_mod' (boundary N m i) N
  obtain ⟨-, hle, -⟩ := boundaryPos_add_newCountAt hN hm hmn i
  obtain ⟨x, hx'⟩ := (@exists_boundary _ _ _ h xs) hN hm (by omega) i
  obtain ⟨y, hy'⟩ := exists_boundary (h := h) hN hm hmn i
  have hlx := (@length_boundaryGroup _ _ _ h xs) hN hm (by omega) i
  have hly := length_boundaryGroup (h := h) hN hm hmn i
  rw [boundary_node hN hm (by omega), Option.some.injEq] at hX hY
  have hgx := LeanTree.combine_inj hinj (by
    rw [hlx, hx, newCountAt_self hN hm, List.length_append, hleft]; rfl) (by omega)
    (by rw [hlx, hx, newCountAt_self hN hm]; omega) hX
  have hgy := LeanTree.combine_inj hinj (by
    rw [hly, List.length_append, List.length_cons, hleft, hnew]; omega) (by omega) (by omega) hY
  rw [group_boundary hN hx'] at hgx
  rw [group_boundary hN hy'] at hgy
  have hbx := (List.getElem?_eq_some_iff.mp hx').1
  have hby := (List.getElem?_eq_some_iff.mp hy').1
  obtain ⟨h1, rfl, -⟩ := split_eq hleft (by omega) hgx
  obtain ⟨h2, rfl, -⟩ := split_eq hleft (by omega) hgy
  refine ⟨hx', hy', ?_⟩
  intro j hj1 hj2
  rw [boundary_succ] at hj1
  have hg := congrArg (fun l => l[j - boundary N m i / N * N]?) (h1.trans h2.symm)
  rw [List.getElem?_take_of_lt (by omega), List.getElem?_take_of_lt (by omega), List.getElem?_drop,
    List.getElem?_drop, Nat.add_sub_cancel' hj1] at hg
  exact hg

/-- Equal nodes left of the boundary have the same leaves: below them both trees are complete. -/
theorem leaves_left_of_boundary (hN : 2 ≤ N) (hinj : LeanTree.InjectiveOn h N) (hm : 0 < m)
    (hx : xs.length = m) (hmn : m ≤ ys.length)
    (hnodes : ∀ j, boundary N m (i + 1) * N ≤ j → j < boundary N m i →
      (LeanTree.level N h xs i)[j]? = (LeanTree.level N h ys i)[j]?) :
    ∀ t, boundary N m (i + 1) * N ^ (i + 1) ≤ t → t < boundary N m i * N ^ i → xs[t]? = ys[t]? := by
  intro t h1 h2
  have hpos : 0 < N ^ i := Nat.pow_pos (by omega)
  have hj1 : boundary N m (i + 1) * N ≤ t / N ^ i := by
    rw [Nat.le_div_iff_mul_le hpos, Nat.mul_assoc, ← Nat.pow_succ']
    exact h1
  have hj2 : t / N ^ i < boundary N m i := (Nat.div_lt_iff_lt_mul hpos).mpr h2
  have hcomplete : (t / N ^ i + 1) * N ^ i ≤ m := by
    have := Nat.mul_le_mul_right (N ^ i) (Nat.succ_le_of_lt hj2)
    have := boundary_mul_lt (N := N) hm i
    rw [← Nat.succ_eq_add_one]
    omega
  have hstart := Nat.div_mul_le_self t (N ^ i)
  apply LeanTree.leaves_eq_of_node_eq (by omega) hinj i (t / N ^ i) _ _ (hnodes _ hj1 hj2) t hstart
  · have := Nat.lt_div_mul_add (a := t) hpos
    rw [Nat.add_mul, Nat.one_mul]
    exact this
  · unfold LeanTree.SameShape
    omega
  · rw [Nat.add_mul, Nat.one_mul] at hcomplete
    omega

end Groups

/-! ### Soundness -/

section Sound

variable {xs ys : List Hash}

/-- **Going down all levels**, by induction on the levels above level `i`: if the verifier ends at
both roots, it carries the boundary nodes of both trees at level `i`, and the trees agree on the
leaves below all nodes left of the boundary there; at the lowest level also on the boundary leaf. -/
theorem verifyLevels_sound (hN : 2 ≤ N) (hinj : LeanTree.InjectiveOn H.hashChildren N) (hm : 0 < m)
    (hx : xs.length = m) (hmn : m ≤ ys.length) (ls : List (ConsistencyLevel Hash N)) :
    ∀ (i : ℕ) (c c' : Cursor Hash N), c.oldLevelSize = m ⌈/⌉ N ^ i →
      c.newLevelSize = ys.length ⌈/⌉ N ^ i → verifyLevels H i ls c = .ok c' →
      i + ls.length = Nat.clog N ys.length →
      (LeanTree.level N H.hashChildren xs (Nat.clog N ys.length))[0]? = some c'.oldHash →
      (LeanTree.level N H.hashChildren ys (Nat.clog N ys.length))[0]? = some c'.newHash →
      (0 < i → (LeanTree.level N H.hashChildren xs i)[boundary N m i]? = some c.oldHash ∧
        (LeanTree.level N H.hashChildren ys i)[boundary N m i]? = some c.newHash ∧
        ∀ t < boundary N m i * N ^ i, xs[t]? = ys[t]?) ∧
      (i = 0 → ls ≠ [] → ∀ t < m, xs[t]? = ys[t]?) := by
  induction ls with
  | nil =>
      intro i c c' _ _ hv hlen hX hY
      cases hv
      rw [List.length_nil, Nat.add_zero] at hlen
      have hb := boundary_clog hN hm hmn
      rw [hlen, hb]
      refine ⟨fun _ => ⟨hX, hY, ?_⟩, fun _ hne => absurd rfl hne⟩
      intro t ht
      omega
  | cons l ls ih =>
      intro i c c' ho hn hv hlen hX hY
      rw [verifyLevels, Outcome.bind_eq_ok] at hv
      obtain ⟨c₁, hc₁, hv⟩ := hv
      have hfit := fits_of_verifyLevel hN hm hmn ho hn hc₁
      obtain ⟨children, hc⟩ := verifyLevel_of_fits (H := H) hN hm hmn hfit ho hn
      rw [hc, Except.ok.injEq] at hc₁
      subst hc₁
      obtain ⟨hup, -⟩ := ih (i + 1) _ c' rfl rfl hv (by rw [List.length_cons] at hlen; omega) hX hY
      obtain ⟨hX₁, hY₁, hag⟩ := hup (Nat.succ_pos i)
      obtain ⟨hX₀, hY₀, hnodes⟩ := descend hN hinj hm hx hmn (left_length hN l m i)
        (hfit.new_length hN hm hmn) hX₁ hY₁
      have hleaves := leaves_left_of_boundary hN hinj hm hx hmn hnodes
      have hbelow : ∀ t < boundary N m i * N ^ i, xs[t]? = ys[t]? := by
        intro t ht
        rcases Nat.lt_or_ge t (boundary N m (i + 1) * N ^ (i + 1)) with h | h
        · exact hag t h
        · exact hleaves t h ht
      constructor
      · intro hi
        rw [midsAt, if_neg (by omega)] at hX₀ hY₀
        exact ⟨hX₀, hY₀, hbelow⟩
      · intro hi _ t ht
        subst hi
        rw [midsAt, if_pos rfl] at hX₀ hY₀
        rw [LeanTree.level_zero, boundary, Nat.pow_zero, Nat.div_one] at hX₀ hY₀
        rw [boundary, Nat.pow_zero, Nat.div_one, Nat.mul_one] at hbelow
        rcases Nat.lt_or_ge t (m - 1) with h | h
        · exact hbelow t h
        · rw [show t = m - 1 by omega, hX₀, hY₀]

omit [Zero Hash] in
theorem isPrefix_of_agree (hag : ∀ t < xs.length, xs[t]? = ys[t]?) :
    xs <+: ys := by
  rw [List.prefix_iff_getElem?]
  intro i hi
  rw [← hag i hi, List.getElem?_eq_getElem hi]

variable [DecidableEq Hash]

/-- What `verify` accepts between the roots of two trees. -/
theorem isPrefix_of_verify (hN : 2 ≤ N) (hinj : LeanTree.InjectiveOn H.hashChildren N)
    {xs ys : List Hash} (hxs : xs ≠ []) (p : ConsistencyProof Hash N MAX_DEPTH)
    (hos : p.oldSize = xs.length) (hns : p.newSize = ys.length)
    (hor : LeanTree.root N H.hashChildren xs = some p.oldRoot)
    (hnr : LeanTree.root N H.hashChildren ys = some p.newRoot) (hv : p.verify H = .ok true) :
    xs <+: ys := by
  have hpos : 0 < xs.length := List.length_pos_iff.mpr hxs
  unfold verify at hv
  split_ifs at hv with h1 h2 h3
  · cases hv
  · rw [Except.ok.injEq, beq_iff_eq] at hv
    rw [LeanTree.eq_of_root_eq (by omega) hinj (by omega) (hor.trans (hv ▸ hnr.symm))]
  · cases hv
  · simp only [not_or] at h1
    have hle : xs.length ≤ ys.length := by omega
    rw [Outcome.bind_eq_ok] at hv
    obtain ⟨os, hu, hv⟩ := hv
    rw [Outcome.bind_eq_ok] at hv
    obtain ⟨ns, hu', hv⟩ := hv
    rw [(u64ToUsize_eq_ok hu).2, (u64ToUsize_eq_ok hu').2, hos, hns,
      expectedDepth_eq_clog hN hle] at hv
    split_ifs at hv with h4
    · cases hv
    · rw [not_not] at h4
      rw [FixedArray.slice_of_le _ (Nat.zero_le _) (by omega), Outcome.ok_bind, List.drop_zero,
        Outcome.bind_eq_ok] at hv
      obtain ⟨c, hc, hv⟩ := hv
      simp only [Outcome.pure_eq_ok, Except.ok.injEq, Bool.and_eq_true, beq_iff_eq] at hv
      have hlen : ((List.ofFn p.levels).take p.levelCount).length = p.levelCount := by
        rw [List.length_take, List.length_ofFn]; omega
      obtain ⟨rx, hrx, hlx⟩ := LeanTree.root_eq_some (N := N) (h := H.hashChildren) (by omega) hxs
      obtain ⟨ry, hry, hly⟩ := LeanTree.root_eq_some (N := N) (h := H.hashChildren) (by omega)
        (show ys ≠ [] from List.length_pos_iff.mp (by omega))
      rw [hor, Option.some.injEq] at hrx
      rw [hnr, Option.some.injEq] at hry
      have hall := (verifyLevels_sound hN hinj hpos rfl hle _ 0 _ c (by simp) (by simp) hc (by omega)
        (by rw [hlx _ (Nat.clog_mono_right N hle), ← hrx, hv.1]; rfl)
        (by rw [hly _ le_rfl, ← hry, hv.2]; rfl)).2 rfl
          (List.length_pos_iff.mp (by omega))
      exact isPrefix_of_agree hall

/-- **Soundness.**  An accepted consistency proof between the roots of two trees shows that the
leaves of the old tree are the first leaves of the new one. -/
theorem consistency_sound (hN : 2 ≤ N) (hinj : LeanTree.InjectiveOn H.hashChildren N)
    {xs ys : List Hash} (hxs : xs ≠ []) (p : ConsistencyProof Hash N MAX_DEPTH)
    (hos : p.oldSize = xs.length) (hns : p.newSize = ys.length)
    (hor : LeanTree.root N H.hashChildren xs = some p.oldRoot)
    (hnr : LeanTree.root N H.hashChildren ys = some p.newRoot) (hv : p.verify H = .ok true) :
    xs <+: ys :=
  isPrefix_of_verify hN hinj hxs p hos hns hor hnr hv

/-- The proof from three leaves to four: the boundary leaf 4, lifted in the old tree, shares its
new parent with a new leaf, and the parent of the first two leaves is shared. -/
def sharedProof : ConsistencyProof ℕ 2 2 where
  oldRoot := nodeHash [nodeHash [0, 2], 4]
  newRoot := nodeHash [nodeHash [0, 2], nodeHash [4, 6]]
  oldSize := 3
  newSize := 4
  levelCount := 2
  levels k := if k.val = 0 then ⟨1, 1, fun i => if i.val = 0 then 4 else 6⟩
    else ⟨1, 0, fun i => if i.val = 0 then nodeHash [0, 2] else 0⟩

theorem consistency_sound_binary :
    sharedProof.verify (Hasher.scalar nodeHash) = .ok true ∧ [0, 2, 4] <+: [0, 2, 4, 6] := by
  have hv : sharedProof.verify (Hasher.scalar nodeHash) = .ok true := by decide +kernel
  exact ⟨hv, consistency_sound (by decide) nodeHash_injectiveOn (by decide) sharedProof rfl rfl rfl
    rfl hv⟩

/-- What a caller learns who knows both roots. -/
theorem verifyAgainst_isPrefix (hN : 2 ≤ N) (hinj : LeanTree.InjectiveOn H.hashChildren N)
    {xs ys : List Hash} (hxs : xs ≠ []) (p : ConsistencyProof Hash N MAX_DEPTH)
    (hos : p.oldSize = xs.length) (hns : p.newSize = ys.length) {oldRoot newRoot : Hash}
    (hor : LeanTree.root N H.hashChildren xs = some oldRoot)
    (hnr : LeanTree.root N H.hashChildren ys = some newRoot)
    (hv : p.verifyAgainst H oldRoot newRoot = .ok true) : xs <+: ys := by
  unfold verifyAgainst at hv
  split_ifs at hv with hroots
  · cases hv
  · simp only [not_or, not_not] at hroots
    obtain ⟨rfl, rfl⟩ := hroots
    exact isPrefix_of_verify hN hinj hxs p hos hns hor hnr hv

/-- What a caller learns who trusts the old root: every tree of the new size under the proof's new
root extends the old one. -/
theorem verifyTransition_isPrefix (hN : 2 ≤ N) (hinj : LeanTree.InjectiveOn H.hashChildren N)
    {xs ys : List Hash} (hxs : xs ≠ []) (p : ConsistencyProof Hash N MAX_DEPTH)
    (hos : p.oldSize = xs.length) (hns : p.newSize = ys.length) {oldRoot : Hash}
    (hor : LeanTree.root N H.hashChildren xs = some oldRoot)
    (hnr : LeanTree.root N H.hashChildren ys = some p.newRoot)
    (hv : p.verifyTransition H oldRoot = .ok true) : xs <+: ys :=
  verifyAgainst_isPrefix hN hinj hxs p hos hns hor hnr hv

end Sound

/-! ### Generated proofs -/

/-- Level `i` of the consistency proof from the first `m` leaves to `ys`. -/
def levelAt (N : ℕ) (h : List Hash → Hash) (ys : List Hash) (m i : ℕ) : ConsistencyLevel Hash N where
  sharedCount := UInt8.ofNat (if i = 0 then boundary N m i % N + 1 else boundary N m i % N)
  newCount := UInt8.ofNat (newCountAt N m ys.length i)
  hashes := FixedArray.padded
    (((LeanTree.level N h ys i).drop (boundary N m i / N * N)).take
        (if i = 0 then boundary N m i % N + 1 else boundary N m i % N) ++
      ((LeanTree.level N h ys i).drop (boundary N m i + 1)).take (newCountAt N m ys.length i))

/-- The consistency proof from the first `m` leaves, whose root is said to be `r`, to `ys`. -/
def proofFrom (N MAX_DEPTH : ℕ) (h : List Hash → Hash) (ys : List Hash) (m : ℕ) (r newRoot : Hash) :
    ConsistencyProof Hash N MAX_DEPTH where
  oldRoot := r
  newRoot := newRoot
  oldSize := m
  newSize := ys.length
  levelCount := Nat.clog N ys.length
  levels k := if k.val < Nat.clog N ys.length then levelAt N h ys m k else ConsistencyLevel.EMPTY

section Generate

variable {fs : ShardFs Hash} {ys : List Hash}

theorem consistencyLevel_spec {s : TreeSnapshot Hash N MAX_DEPTH} (hs : s.Refines fs H ys)
    (hN : 2 ≤ N) (hN' : N ≤ 255) (hm : 0 < m) (hmn : m ≤ ys.length)
    (hu : boundary N m i / N * N + N < U64_SIZE) (hi : i < Nat.clog N ys.length)
    (hik : i < MAX_DEPTH) :
    s.consistencyLevel fs i (m ⌈/⌉ N ^ i) (ys.length ⌈/⌉ N ^ i) =
      .ok (levelAt N H.hashChildren ys m i) := by
  have hl := hs.levels ⟨i, hik⟩
  rw [storedLevel_of_le hi.le] at hl
  have hlen : (LeanTree.level N H.hashChildren ys i).length = ys.length ⌈/⌉ N ^ i :=
    LeanTree.length_level (by omega) ys i
  have hlt := Nat.mod_lt (boundary N m i) (show 0 < N by omega)
  have hdiv := Nat.div_add_mod' (boundary N m i) N
  have hb := boundary_lt hN hm hmn i
  obtain ⟨h1, h2, h3⟩ := boundaryPos_add_newCountAt hN hm hmn i
  obtain ⟨shared, hsh⟩ : ∃ k, k = if i = 0 then boundary N m i % N + 1 else boundary N m i % N :=
    ⟨_, rfl⟩
  have hsle : shared ≤ boundary N m i % N + 1 := by rw [hsh]; split_ifs <;> omega
  unfold TreeSnapshot.consistencyLevel levelAt
  dsimp only
  rw [Outcome.require_pos (by rw [ceilDiv_eq_boundary hN hm]; omega), Outcome.ok_bind,
    ceilDiv_sub_one hN hm, boundary_sub_mod, expectedNewCount_eq hN hm hmn hu, Outcome.ok_bind,
    TreeSnapshot.level, FixedArray.index_of_lt _ hik, Outcome.ok_bind, ← hsh,
    hl.getGroup (by omega), Outcome.ok_bind,
    FixedArray.copyFromSlice_zero (by simp; omega) (by omega), Outcome.ok_bind,
    hl.getGroup (by omega), Outcome.ok_bind,
    FixedArray.copyFromSlice_padded (by simp; omega) (by simp; omega) (by omega), Outcome.ok_bind,
    toU8_of_lt (by omega), Outcome.ok_bind, toU8_of_lt (by omega), Outcome.ok_bind]
  rfl

/-- The sizes of a tree in memory: its leaves occupy 32 bytes each of one address space. -/
def FitsMemory (L : List Hash) : Prop := 32 * L.length ≤ U64_SIZE

omit [Zero Hash] in
theorem FitsMemory.boundary_lt (hmem : FitsMemory ys) (hN' : N ≤ 255) (hm : 0 < m)
    (hmn : m ≤ ys.length) (i : ℕ) : boundary N m i / N * N + N < U64_SIZE := by
  have h1 := Nat.div_mul_le_self (boundary N m i) N
  have h2 : boundary N m i ≤ m - 1 := Nat.div_le_self _ _
  have h3 : ∀ x n : ℕ, 32 * n ≤ 2 ^ 64 → x ≤ n → x + 255 < 2 ^ 64 := by omega
  have h4 := h3 (boundary N m i / N * N) ys.length hmem (by omega)
  exact lt_of_le_of_lt (Nat.add_le_add_left hN' _) h4

/-- The loop of `generate_consistency_proof`, from level `i` with the levels below written. -/
theorem consistencyLevels_spec {s : TreeSnapshot Hash N MAX_DEPTH} (hs : s.Refines fs H ys)
    (hN : 2 ≤ N) (hN' : N ≤ 255) (hmem : FitsMemory ys) (hm : 0 < m) (hmn : m ≤ ys.length)
    (hD : Nat.clog N ys.length ≤ MAX_DEPTH) (fuel : ℕ) :
    ∀ i, ys.length ⌈/⌉ N ^ i ≤ fuel → i ≤ Nat.clog N ys.length →
      s.consistencyLevels fs fuel i (m ⌈/⌉ N ^ i) (ys.length ⌈/⌉ N ^ i)
        (fun k => if k.val < i then levelAt N H.hashChildren ys m k else ConsistencyLevel.EMPTY) =
      .ok (Nat.clog N ys.length, fun k => if k.val < Nat.clog N ys.length then
        levelAt N H.hashChildren ys m k else ConsistencyLevel.EMPTY) := by
  have hone : ∀ i, 1 < ys.length ⌈/⌉ N ^ i ↔ i < Nat.clog N ys.length := by
    intro i
    rw [LeanTree.lt_ceilDiv_iff (Nat.pow_pos (by omega)), Nat.one_mul,
      Nat.lt_clog_iff_pow_lt (by omega)]
  induction fuel with
  | zero =>
      intro i hfuel _
      have := ConsistencyProof.boundary_lt hN hm hmn i
      omega
  | succ fuel ih =>
      intro i hfuel hi
      have hmono := LeanTree.ceilDiv_mono (Nat.pow_pos (n := i) (show 0 < N by omega)) hmn
      rw [TreeSnapshot.consistencyLevels]
      split_ifs with h1 h2
      · have := (hone i).mp (by omega)
        omega
      · have hlt := (hone i).mp (by omega)
        have hnext : ys.length ⌈/⌉ N ^ (i + 1) ≤ fuel := by
          rw [Nat.pow_succ, ← LeanTree.ceilDiv_ceilDiv (Nat.pow_pos (by omega)) (by omega),
            ceilDiv_le_iff_le_mul (by omega)]
          calc ys.length ⌈/⌉ N ^ i ≤ 2 * fuel := by omega
            _ ≤ N * fuel := Nat.mul_le_mul_right _ hN
        rw [consistencyLevel_spec hs hN hN' hm hmn (hmem.boundary_lt hN' hm hmn i) hlt (by omega),
          Outcome.ok_bind, FixedArray.setAt_of_lt _ _ (by omega), Outcome.ok_bind,
          LeanTree.ceilDiv_ceilDiv (Nat.pow_pos (by omega)) (by omega),
          LeanTree.ceilDiv_ceilDiv (Nat.pow_pos (by omega)) (by omega), ← Nat.pow_succ,
          ← ih (i + 1) hnext hlt]
        congr 1
        funext k
        rcases Nat.lt_trichotomy k.val i with h | h | h
        · rw [if_neg (by omega), if_pos h, if_pos (by omega)]
        · rw [if_pos h, if_pos (by omega), h]
        · rw [if_neg (by omega), if_neg (by omega), if_neg (by omega)]
      · have heq : i = Nat.clog N ys.length := by
          have := (hone i).not.mp (by omega)
          omega
        rw [heq]
        rfl

/-- **`generate_consistency_proof`** for a smaller size. -/
theorem generateConsistencyProof_spec {s : TreeSnapshot Hash N MAX_DEPTH} (hs : s.Refines fs H ys)
    (hN : 2 ≤ N) (hN' : N ≤ 255) (hfit : Fits N MAX_DEPTH ys) (hmem : FitsMemory ys) (hm : 0 < m)
    (hmn : m < ys.length) (r : Hash) {newRoot : Hash}
    (hr : LeanTree.root N H.hashChildren ys = some newRoot) :
    s.generateConsistencyProof fs m r =
      .ok (proofFrom N MAX_DEPTH H.hashChildren ys m r newRoot) := by
  have hsize := hfit.size
  have hlevels := consistencyLevels_spec hs hN hN' hmem hm hmn.le hfit.depth (m + ys.length) 0
    (by simp) (Nat.zero_le _)
  simp only [Nat.not_lt_zero, if_false, Nat.pow_zero, ceilDiv_one] at hlevels
  unfold TreeSnapshot.generateConsistencyProof
  rw [hs.size, if_neg (by omega), hs.root, hr, Outcome.expect_some, Outcome.ok_bind,
    if_neg (by omega), u64ToUsize_of_lt (by omega), Outcome.ok_bind, u64ToUsize_of_lt hsize,
    Outcome.ok_bind, hlevels, Outcome.ok_bind]
  rfl

/-- What a generated level carries: the right counts and the nodes of the boundary group. -/
theorem levelAt_spec (hN : 2 ≤ N) (hN' : N ≤ 255) (hmem : FitsMemory ys) (hm : 0 < m)
    (hmn : m ≤ ys.length) (h : List Hash → Hash) (i : ℕ) :
    LevelFits N m ys.length i (levelAt N h ys m i) ∧
      (levelAt N h ys m i).left (boundary N m i % N) =
        ((LeanTree.level N h ys i).drop (boundary N m i / N * N)).take (boundary N m i % N) ∧
      (levelAt N h ys m i).new =
        ((LeanTree.level N h ys i).drop (boundary N m i + 1)).take (newCountAt N m ys.length i) ∧
      (i = 0 → some ((levelAt N h ys m i).middle (boundary N m i % N)) =
        (LeanTree.level N h ys i)[boundary N m i]?) := by
  have hlen : (LeanTree.level N h ys i).length = ys.length ⌈/⌉ N ^ i :=
    LeanTree.length_level (by omega) ys i
  have hlt := Nat.mod_lt (boundary N m i) (show 0 < N by omega)
  have hdiv := Nat.div_add_mod' (boundary N m i) N
  have hb := ConsistencyProof.boundary_lt hN hm hmn i
  obtain ⟨h1, h2, h3⟩ := boundaryPos_add_newCountAt hN hm hmn i
  obtain ⟨shared, hsh⟩ : ∃ k, k = if i = 0 then boundary N m i % N + 1 else boundary N m i % N :=
    ⟨_, rfl⟩
  have hsle : shared ≤ boundary N m i % N + 1 ∧ boundary N m i % N ≤ shared := by
    rw [hsh]; split_ifs <;> omega
  obtain ⟨A, hA⟩ : ∃ A, A = ((LeanTree.level N h ys i).drop (boundary N m i / N * N)).take shared :=
    ⟨_, rfl⟩
  obtain ⟨B, hB⟩ : ∃ B, B = ((LeanTree.level N h ys i).drop (boundary N m i + 1)).take
    (newCountAt N m ys.length i) := ⟨_, rfl⟩
  have hAl : A.length = shared := by rw [hA, List.length_take, List.length_drop]; omega
  have hBl : B.length = newCountAt N m ys.length i := by
    rw [hB, List.length_take, List.length_drop]; omega
  have hsw : FixedArray.StartsWith (FixedArray.padded (A ++ B) : Fin N → Hash) (A ++ B) :=
    FixedArray.startsWith_padded (by rw [List.length_append]; omega)
  have e₁ : (UInt8.ofNat shared).toNat = shared := by
    rw [UInt8.toNat_ofNat', Nat.mod_eq_of_lt (by omega)]
  have e₂ : (UInt8.ofNat (newCountAt N m ys.length i)).toNat = newCountAt N m ys.length i := by
    rw [UInt8.toNat_ofNat', Nat.mod_eq_of_lt (by omega)]
  unfold LevelFits ConsistencyLevel.left ConsistencyLevel.new ConsistencyLevel.middle levelAt
  dsimp only
  rw [← hsh, ← hA, ← hB, e₁, e₂]
  refine ⟨⟨hmem.boundary_lt hN' hm hmn i, rfl, rfl⟩, ?_, ?_, ?_⟩
  · rw [hsw.take (by rw [List.length_append]; omega), List.take_append_of_le_length (by omega), hA,
      List.take_take, Nat.min_eq_left hsle.2]
  · rw [hsw.take (by rw [List.length_append]; omega), ← hAl, ← hBl, ← List.length_append,
      List.take_length, List.drop_left]
  · intro hi
    rw [if_pos hi] at hsh
    rw [hsw.getElem?_ofFn (by rw [List.length_append]; omega), List.getElem?_append_left (by omega),
      hA, List.getElem?_take_of_lt (by omega), List.getElem?_drop, hdiv,
      List.getElem?_eq_getElem (by omega), Option.getD_some]

omit [Zero Hash] in
/-- Left of the boundary the tree over the first `m` leaves has the nodes of the whole tree. -/
theorem left_take (hN : 2 ≤ N) (hm : 0 < m) (hmn : m ≤ ys.length) (h : List Hash → Hash) (i : ℕ) :
    ((LeanTree.level N h (ys.take m) i).drop (boundary N m i / N * N)).take (boundary N m i % N) =
      ((LeanTree.level N h ys i).drop (boundary N m i / N * N)).take (boundary N m i % N) := by
  have hdiv := Nat.div_add_mod' (boundary N m i) N
  have hlt := boundary_mul_lt (N := N) hm i
  apply List.ext_getElem?
  intro j
  rcases Nat.lt_or_ge j (boundary N m i % N) with hj | hj
  · rw [List.getElem?_take_of_lt hj, List.getElem?_take_of_lt hj, List.getElem?_drop,
      List.getElem?_drop]
    apply LeanTree.level_take (by omega) ys hmn
    calc (boundary N m i / N * N + j + 1) * N ^ i ≤ boundary N m i * N ^ i :=
          Nat.mul_le_mul_right _ (by omega)
      _ ≤ m := hlt.le
  · rw [List.getElem?_eq_none (by rw [List.length_take]; omega),
      List.getElem?_eq_none (by rw [List.length_take]; omega)]

/-- The cursor stands at the boundary nodes of both trees. -/
def AtBoundary (h : List Hash → Hash) (ys : List Hash) (m i : ℕ) (c : Cursor Hash N) : Prop :=
  c.oldLevelSize = m ⌈/⌉ N ^ i ∧ c.newLevelSize = ys.length ⌈/⌉ N ^ i ∧
    (0 < i → (LeanTree.level N h (ys.take m) i)[boundary N m i]? = some c.oldHash ∧
      (LeanTree.level N h ys i)[boundary N m i]? = some c.newHash)

/-- **Going up one level** with a generated level. -/
theorem verifyLevel_levelAt (hN : 2 ≤ N) (hN' : N ≤ 255) (hmem : FitsMemory ys) (hm : 0 < m)
    (hmn : m ≤ ys.length) {c : Cursor Hash N} (hc : AtBoundary H.hashChildren ys m i c) :
    ∃ c', verifyLevel H i (levelAt N H.hashChildren ys m i) c = .ok c' ∧
      AtBoundary H.hashChildren ys m (i + 1) c' := by
  obtain ⟨ho, hn, hnodes⟩ := hc
  obtain ⟨hfit, hleft, hnew, hmid⟩ := levelAt_spec hN hN' hmem hm hmn H.hashChildren i
  obtain ⟨children, e⟩ := verifyLevel_of_fits (H := H) hN hm hmn hfit ho hn
  have htl : (ys.take m).length = m := by rw [List.length_take]; omega
  obtain ⟨hX, hY⟩ : (LeanTree.level N H.hashChildren (ys.take m) i)[boundary N m i]? =
        some (midsAt (levelAt N H.hashChildren ys m i) m i c.oldHash c.newHash).1 ∧
      (LeanTree.level N H.hashChildren ys i)[boundary N m i]? =
        some (midsAt (levelAt N H.hashChildren ys m i) m i c.oldHash c.newHash).2 := by
    unfold midsAt
    by_cases h0 : i = 0
    · rw [if_pos h0, hmid h0]
      subst h0
      refine ⟨?_, rfl⟩
      rw [LeanTree.level_zero, LeanTree.level_zero, boundary, Nat.pow_zero, Nat.div_one,
        List.getElem?_take_of_lt (by omega)]
    · rw [if_neg h0]
      exact hnodes (by omega)
  refine ⟨_, e, rfl, rfl, fun _ => ⟨?_, ?_⟩⟩
  · rw [boundary_node hN hm (by omega), group_boundary hN hX, htl, newCountAt_self hN hm,
      left_take hN hm hmn, List.take_zero, hleft]
  · rw [boundary_node hN hm hmn, group_boundary hN hY, hleft, hnew]

theorem verifyLevels_levelAt (hN : 2 ≤ N) (hN' : N ≤ 255) (hmem : FitsMemory ys) (hm : 0 < m)
    (hmn : m ≤ ys.length) (k : ℕ) :
    ∀ (i : ℕ) (c : Cursor Hash N), AtBoundary H.hashChildren ys m i c →
      ∃ c', verifyLevels H i ((List.range' i k).map (levelAt N H.hashChildren ys m)) c = .ok c' ∧
        AtBoundary H.hashChildren ys m (i + k) c' := by
  induction k with
  | zero => intro i c hc; exact ⟨c, rfl, hc⟩
  | succ k ih =>
      intro i c hc
      obtain ⟨c₁, e₁, hc₁⟩ := verifyLevel_levelAt hN hN' hmem hm hmn hc
      obtain ⟨c₂, e₂, hc₂⟩ := ih (i + 1) c₁ hc₁
      refine ⟨c₂, ?_, by rwa [show i + (k + 1) = i + 1 + k by omega]⟩
      rw [List.range'_succ, List.map_cons, verifyLevels, e₁, Outcome.ok_bind, e₂]

variable [DecidableEq Hash]

/-- The consistency proof verifies exactly with the root of the first `m` leaves. -/
theorem proofFrom_verify (hN : 2 ≤ N) (hN' : N ≤ 255) (hfit : Fits N MAX_DEPTH ys)
    (hmem : FitsMemory ys) (hm : 0 < m) (hmn : m < ys.length) (r : Hash) {oldRoot newRoot : Hash}
    (hor : LeanTree.root N H.hashChildren (ys.take m) = some oldRoot)
    (hnr : LeanTree.root N H.hashChildren ys = some newRoot) :
    (proofFrom N MAX_DEPTH H.hashChildren ys m r newRoot).verify H = .ok (r == oldRoot) := by
  have hsize := hfit.size
  have hclog : 0 < Nat.clog N ys.length := Nat.clog_pos (by omega) (by omega)
  have htl : (ys.take m).length = m := by rw [List.length_take]; omega
  obtain ⟨c, hc, -, -, hnodes⟩ := verifyLevels_levelAt (H := H) hN hN' hmem hm hmn.le
    (Nat.clog N ys.length) 0 ⟨m, ys.length, 0, 0, fun _ => 0⟩
    ⟨by simp, by simp, fun h => absurd h (Nat.lt_irrefl 0)⟩
  rw [Nat.zero_add] at hnodes
  obtain ⟨hX, hY⟩ := hnodes hclog
  obtain ⟨rx, hrx, hlx⟩ := LeanTree.root_eq_some (N := N) (h := H.hashChildren) (by omega)
    (show ys.take m ≠ [] from List.length_pos_iff.mp (by omega))
  obtain ⟨ry, hry, hly⟩ := LeanTree.root_eq_some (N := N) (h := H.hashChildren) (by omega)
    (show ys ≠ [] from List.length_pos_iff.mp (by omega))
  rw [hor, Option.some.injEq] at hrx
  rw [hnr, Option.some.injEq] at hry
  rw [boundary_clog hN hm hmn.le, hlx _ (by rw [htl]; exact Nat.clog_mono_right N hmn.le),
    List.getElem?_cons_zero, Option.some.injEq] at hX
  rw [boundary_clog hN hm hmn.le, hly _ le_rfl, List.getElem?_cons_zero, Option.some.injEq] at hY
  have hlevels := FixedArray.take_ofFn_if hfit.depth (levelAt N H.hashChildren ys m)
    ConsistencyLevel.EMPTY
  have hdepth := hfit.depth
  unfold verify proofFrom
  dsimp only
  rw [if_neg (by omega), if_neg (by omega), if_neg (by omega), u64ToUsize_of_lt (by omega),
    Outcome.ok_bind, u64ToUsize_of_lt hsize, Outcome.ok_bind, expectedDepth_eq_clog hN hmn.le,
    if_neg (by simp), FixedArray.slice_of_le _ (Nat.zero_le _) hdepth, Outcome.ok_bind, hlevels,
    List.drop_zero, hc, Outcome.ok_bind, ← hX, ← hY, hrx, hry, beq_self_eq_true, Bool.and_true,
    Outcome.pure_eq_ok, BEq.comm]

/-- **Completeness and exactness.**  After any calls, a consistency proof from any smaller size is
generated, and it verifies exactly when the root it was asked for is the root of the first
leaves. -/
theorem generateConsistencyProof_exact (hH : H.Lawful) (hN : 2 ≤ N) (hN' : N ≤ 255)
    (hD : 1 ≤ MAX_DEPTH) (cs : List (Call Hash)) (hmem : FitsMemory (accepted N MAX_DEPTH cs))
    (oldSize : ℕ) (hm : 1 ≤ oldSize)
    (hmn : oldSize ≤ (after fs H cs : TreeInner Hash N MAX_DEPTH).snapshot.size) (r : Hash) :
    ∃ p oldRoot, (after fs H cs : TreeInner Hash N MAX_DEPTH).snapshot.generateConsistencyProof fs
        oldSize r = .ok p ∧
      LeanTree.root N H.hashChildren ((accepted N MAX_DEPTH cs).take oldSize) = some oldRoot ∧
      p.verify H = .ok (r == oldRoot) := by
  have hs : (after fs H cs : TreeInner Hash N MAX_DEPTH).snapshot.Refines fs H
      (accepted N MAX_DEPTH cs) := (after_refines hH hN hD cs).snapshot
  have hfit : Fits N MAX_DEPTH (accepted N MAX_DEPTH cs) := accepted_fits cs
  rw [hs.size] at hmn
  obtain ⟨newRoot, hnr, -⟩ := LeanTree.root_eq_some (N := N) (h := H.hashChildren) (by omega)
    (show accepted N MAX_DEPTH cs ≠ [] from List.length_pos_iff.mp (by omega))
  rcases Nat.lt_or_ge oldSize (accepted N MAX_DEPTH cs).length with hlt | hge
  · obtain ⟨oldRoot, hor, -⟩ := LeanTree.root_eq_some (N := N) (h := H.hashChildren) (by omega)
      (show (accepted N MAX_DEPTH cs).take oldSize ≠ [] from
        List.length_pos_iff.mp (by rw [List.length_take]; omega))
    exact ⟨_, oldRoot, generateConsistencyProof_spec hs hN hN' hfit hmem hm hlt r hnr, hor,
      proofFrom_verify hN hN' hfit hmem hm hlt r hor hnr⟩
  · have heq : oldSize = (accepted N MAX_DEPTH cs).length := by omega
    subst heq
    refine ⟨⟨r, newRoot, (accepted N MAX_DEPTH cs).length, (accepted N MAX_DEPTH cs).length, 0,
      fun _ => ConsistencyLevel.EMPTY⟩, newRoot, ?_, by rw [List.take_length]; exact hnr, ?_⟩
    · unfold TreeSnapshot.generateConsistencyProof
      rw [hs.size, if_neg (by omega), hs.root, hnr, Outcome.expect_some, Outcome.ok_bind, if_pos rfl]
      rfl
    · unfold verify
      dsimp only
      rw [if_neg (by omega), if_pos rfl]

/-- From two to three leaves of a binary tree: the wrong root is told from the right one. -/
theorem generateConsistencyProof_exact_binary :
    ∃ p, (after (fun _ _ _ => 0) (Hasher.scalar nodeHash) [.insert 0, .insert 2, .insert 4] :
        TreeInner ℕ 2 2).snapshot.generateConsistencyProof (fun _ _ _ => 0) 2 0 = .ok p ∧
      p.verify (Hasher.scalar nodeHash) = .ok false := by
  have hmn : 2 ≤ (after (fun _ _ _ => 0) (Hasher.scalar nodeHash) [.insert 0, .insert 2, .insert 4] :
      TreeInner ℕ 2 2).snapshot.size := by
    rw [(after_refines (Hasher.scalar_lawful _) (by decide) (by decide) _).snapshot.size]
    decide
  have hmem : FitsMemory (accepted 2 2 [.insert 0, .insert 2, .insert 4]) := by
    unfold FitsMemory
    decide
  obtain ⟨p, r, h1, h2, h3⟩ := generateConsistencyProof_exact (Hasher.scalar_lawful _) (by decide)
    (by decide) (by decide) _ hmem 2 (by decide) hmn 0
  have hr : nodeHash [0, 2] = r := Option.some.inj h2
  rw [← hr] at h3
  exact ⟨p, h1, h3⟩

end Generate

end ConsistencyProof

end Works.Rotortree
