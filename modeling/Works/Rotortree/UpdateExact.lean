import Works.Rotortree.UpdateForgery

/-! # Updates that do not stay valid

The converse of `updatesAt_of_keepsValid`.  If a level below a wrong count has new nodes, a forged
pair takes a number for them that is larger than every number of the old proof, and it is not found
where the new root needs it (`not_accepted_of_fresh`).  If there are none, but the boundary node is
put into a group, it would have to be there before (`not_accepted_of_refreshed`).  Together this is
the exact condition on the shapes of the two proofs (`updatesAt_iff`).

`shiftedProof` verifies against the root of five leaves by skipping a level, and its update does
not verify. -/

namespace Works.Rotortree

open Works.Lib Outcome

variable {N MAX_DEPTH : ℕ}

/-! ### Why the update is not accepted -/

namespace ProofLevel

variable {l : ProofLevel ℕ N}

/-- What an equation between the node of a level and that of a group says about the members. -/
theorem members_of_parentOf (hfit : StepFits N l.step) (h0 : 0 < l.siblingCount.toNat) {g : List ℕ}
    (h2 : 2 ≤ g.length) {y : ℕ} (h : l.parentOf terms y = LeanTree.combine nodeHash g) :
    l.siblingCount.toNat + 1 = g.length ∧
      ∀ i < g.length, g[i]? = some (if i = l.position.toNat then y else l.other i) := by
  rw [parentOf, if_neg (by omega), LeanTree.combine_of_two_le h2] at h
  have hg : l.around y = g := nodeHash_injective h
  have hlen := length_around hfit h0 y
  rw [hg] at hlen
  refine ⟨hlen.symm, ?_⟩
  intro i hi
  rw [← hg]
  exact getElem?_around_eq hfit h0 (by omega) y

/-- Two levels of one step with one node above them have the same members. -/
theorem members_eq {l' : ProofLevel ℕ N} (hstep : l.step = l'.step) (hfit : StepFits N l.step)
    {y y' : ℕ} (h : l.parentOf terms y = l'.parentOf terms y') :
    y = y' ∧ (0 < l.siblingCount.toNat → ∀ i ≤ l.siblingCount.toNat, i ≠ l.position.toNat →
      l.other i = l'.other i) := by
  obtain ⟨hpos, hcount⟩ := Prod.mk.inj hstep
  by_cases h0 : l.siblingCount.toNat = 0
  · rw [parentOf, parentOf, if_pos h0, if_pos (by rwa [← hcount])] at h
    exact ⟨h, fun hne => absurd h0 (by omega)⟩
  · have h1 : 0 < l.siblingCount.toNat := Nat.pos_of_ne_zero h0
    have h1' : 0 < l'.siblingCount.toNat := by rwa [← hcount]
    have hfit' : StepFits N l'.step := hstep ▸ hfit
    have hlen := length_around hfit' h1' y'
    have hgroup : l.parentOf terms y = LeanTree.combine nodeHash (l'.around y') := by
      rw [h, LeanTree.combine_of_two_le (by omega)]
      exact if_neg (by omega)
    have hall := (members_of_parentOf hfit h1 (by omega) hgroup).2
    rw [hlen, ← hcount] at hall
    constructor
    · have hself := hall _ (hfit h1).2
      rw [getElem?_around_eq hfit' h1' (by rw [← hcount]; exact Nat.le_of_lt_succ (hfit h1).2)] at hself
      simpa [step, hpos] using hself.symm
    · intro _ i hi hne
      have hother := hall i (by omega)
      rw [getElem?_around_eq hfit' h1' (by rwa [← hcount]), if_neg hne, if_neg (by rwa [← hpos]),
        Option.some.injEq] at hother
      exact hother.symm

/-- A node is below every node above it. -/
theorem le_parentOf (hfit : StepFits N l.step) (y : ℕ) : y ≤ l.parentOf terms y := by
  unfold parentOf
  split_ifs with h0
  · exact le_rfl
  · exact (lt_nodeHash
      (List.mem_of_getElem? (getElem?_around hfit (Nat.pos_of_ne_zero h0) y))).le

end ProofLevel

/-- Above a group with siblings, what is lifted comes from a group with siblings. -/
theorem exists_settled {m : ℕ} {f : ℕ → ℕ} {x y : ℕ} (hxy : x < y)
    (hb : 0 < ConsistencyProof.boundary N m x % N)
    (hf : ∀ i, x ≤ i → i < y → ConsistencyProof.boundary N m i % N = 0 → f (i + 1) = f i) :
    ∃ z, x ≤ z ∧ z < y ∧ 0 < ConsistencyProof.boundary N m z % N ∧ f y = f (z + 1) := by
  induction y with
  | zero => omega
  | succ y ih =>
      rcases Nat.eq_zero_or_pos (ConsistencyProof.boundary N m y % N) with h0 | hpos
      · have hlt : x < y := by
          rcases Nat.lt_or_ge x y with h | h
          · exact h
          · rw [show x = y by omega] at hb
            omega
        obtain ⟨z, h1, h2, h3, h4⟩ := ih hlt fun i hi1 hi2 => hf i hi1 (by omega)
        exact ⟨z, h1, by omega, h3, by rw [hf y (by omega) (Nat.lt_succ_self y) h0, h4]⟩
      · exact ⟨y, by omega, Nat.lt_succ_self y, hpos, rfl⟩

namespace ConsistencyProof

variable {p : ConsistencyProof ℕ N MAX_DEPTH} {old q : NaryProof ℕ N MAX_DEPTH} {k : ℕ}

theorem oldAt_mono {x y : ℕ} (h : x ≤ y) : p.oldAt terms x ≤ p.oldAt terms y :=
  monotone_nat_of_le_succ (fun _ => le_combine (by simp)) h

theorem oldAt_lt_succ (hN : 2 ≤ N) {x : ℕ} (hb : 0 < boundary N p.oldSize x % N) :
    p.oldAt terms x < p.oldAt terms (x + 1) := by
  have hll := left_length hN (p.levelOf x) p.oldSize x
  exact lt_combine (by simp) (by rw [List.length_append, List.length_singleton]; omega)

theorem newAt_mono {x y : ℕ} (h : x ≤ y) : p.newAt terms x ≤ p.newAt terms y :=
  monotone_nat_of_le_succ (fun _ => le_combine (by simp)) h

/-- A count that is wrong is none, or should be none. -/
theorem UppermostWrong.count (hN : 2 ≤ N) (hM : Matched terms p old)
    (hk : p.UppermostWrong old k) : old.nodeAt terms (k + 1) = p.oldAt terms (k + 1) ∧
      ((old.levelOf k).siblingCount.toNat = 0 ∨ boundary N p.oldSize k % N = 0) := by
  have hlt := hk.lt
  have hnode := nodeAt_eq_oldAt hN nodeHash_injectiveOn hM hk.right (old.levelCount - (k + 1))
    (k + 1) le_rfl (by omega) (index_eq_boundary hk.shared (Nat.lt_succ_self k))
  refine ⟨hnode, ?_⟩
  by_contra hboth
  rw [not_or] at hboth
  have hwrong := hk.wrong
  have hlen : ((p.levelOf k).left (boundary N p.oldSize k % N) ++ [p.oldAt terms k]).length =
      boundary N p.oldSize k % N + 1 := by
    rw [List.length_append, List.length_singleton, left_length hN]
  obtain ⟨hcount, -⟩ := ProofLevel.members_of_parentOf (hM.steps k hk.lt).2 (by omega)
    (by rw [hlen]; omega) hnode
  omega

/-! #### A boundary node put into a group -/

/-- At level `s` the update puts the boundary node into the group the old proof shows. -/
structure RefreshedAt (p : ConsistencyProof ℕ N MAX_DEPTH) (old : NaryProof ℕ N MAX_DEPTH) (s : ℕ) :
    Prop where
  pos : 0 < s
  shared : old.leafIndex / N ^ s / N = boundary N p.oldSize s / N
  beside : old.leafIndex / N ^ s % N ≠ boundary N p.oldSize s % N
  within : boundary N p.oldSize s % N ≤ (old.levelOf s).siblingCount.toNat

theorem RefreshedAt.lt (hM : Matched terms p old) {s : ℕ} (hs : p.RefreshedAt old s) :
    old.leafIndex / N ^ s % N < boundary N p.oldSize s % N :=
  lt_of_le_of_ne (hM.pos_le hs.shared) hs.beside

/-- Without new nodes, an accepted update finds the boundary node in the group already. -/
theorem RefreshedAt.member (hN : 2 ≤ N) (hM : Matched terms p old) (hU : Updated terms p old q)
    (hk : p.UppermostWrong old k) (hnone : ∀ x ≤ k, (p.levelOf x).newCount.toNat = 0) {s : ℕ}
    (hs : p.RefreshedAt old s) (hsk : s ≤ k) (hv : q.verify terms = .ok true) :
    (old.levelOf s).other (boundary N p.oldSize s % N) = p.oldAt terms s := by
  have hlt := hk.lt
  have hle := hM.levelCount_le
  have hd := hM.depth
  have hshared : ∀ x, s ≤ x → old.leafIndex / N ^ x / N = boundary N p.oldSize x / N := by
    intro x hx
    rcases Nat.eq_or_lt_of_le hx with rfl | hx
    · exact hs.shared
    · rw [index_eq_boundary hs.shared hx]
  -- the levels from `s` on keep their steps
  have hstep : ∀ x, s ≤ x → x ≤ k → (q.levelOf x).step = (old.levelOf x).step := by
    intro x hx1 hx2
    obtain ⟨hpos, hcount, -⟩ := hU.members hN hM (by omega) (hshared x hx1)
    rw [claimedSize_of_lt (by omega) (by omega), hnone x hx2] at hcount
    exact Prod.ext (UInt8.toNat_inj.mp (hpos.trans (hM.steps x (by omega)).1.symm))
      (UInt8.toNat_inj.mp (Nat.succ.inj hcount))
  have hfit : ∀ x, s ≤ x → x ≤ k → StepFits N (q.levelOf x).step := by
    intro x hx1 hx2
    rw [hstep x hx1 hx2]
    exact (hM.steps x (by omega)).2
  -- and from the wrong level down they have the old nodes
  have hnode : ∀ d x, x + d = k + 1 → s ≤ x → q.nodeAt terms x = old.nodeAt terms x := by
    intro d
    induction d with
    | zero =>
        intro x hx _
        rw [Nat.add_zero] at hx
        rw [hx, (hU.of_verify hN nodeHash_injectiveOn hM hk hv).2, (hk.count hN hM).1]
        exact newAt_eq_oldAt hN hM (k + 1) (by omega) fun j hj => hnone j (by omega)
    | succ d ih =>
        intro x hx hsx
        exact (ProofLevel.members_eq (hstep x hsx (by omega)) (hfit x hsx (by omega))
          (ih (x + 1) (by omega) (by omega))).1
  have hbelow := hs.lt hM
  have hwithin := hs.within
  obtain ⟨hpos, hcount, -, hothers⟩ := hU.members hN hM (by omega) hs.shared
  rw [claimedSize_of_lt (by omega) (by omega), hnone s hsk] at hcount hothers
  have hsame := (ProofLevel.members_eq (hstep s le_rfl hsk) (hfit s le_rfl hsk)
    (hnode (k - s) (s + 1) (by omega) (by omega))).2 (by omega) (boundary N p.oldSize s % N)
    (by omega) (by omega)
  rw [← hsame, hothers _ (by omega) hs.beside.symm, if_neg (by omega),
    if_pos ⟨⟨hs.pos, hs.beside⟩, rfl⟩]
  exact newAt_eq_oldAt hN hM s (by omega) fun j hj => hnone j (by omega)

/-- Below the wrong level, down to a level with the member left of the boundary, the path runs above
its level, or is below a node left of the boundary. -/
theorem RefreshedAt.above (hN : 2 ≤ N) (hM : Matched terms p old) (hk : p.UppermostWrong old k)
    (hleft : ∀ x < p.levelCount, ∀ a ∈ (p.levelOf x).left (boundary N p.oldSize x % N),
      a < p.oldAt terms 0) {s : ℕ} (hs : p.RefreshedAt old s) (hsk : s < k) (d : ℕ) :
    ∀ x, x + d = k → s < x →
      (∃ y, x ≤ y ∧ y ≤ k ∧ 0 < boundary N p.oldSize y % N ∧
        old.nodeAt terms x = p.oldAt terms (y + 1)) ∨ old.nodeAt terms x ≤ p.oldAt terms 0 := by
  have hlt := hk.lt
  have hle := hM.levelCount_le
  have hlift : ∀ i, boundary N p.oldSize i % N = 0 → p.oldAt terms (i + 1) = p.oldAt terms i :=
    fun i hi => oldAt_lift hN hi
  have hlen : ∀ y, ((p.levelOf y).left (boundary N p.oldSize y % N) ++ [p.oldAt terms y]).length =
      boundary N p.oldSize y % N + 1 := by
    intro y
    rw [List.length_append, List.length_singleton, left_length hN]
  -- a member of a boundary group is left of the boundary or the boundary node
  have hmember : ∀ y < p.levelCount, ∀ i a,
      ((p.levelOf y).left (boundary N p.oldSize y % N) ++ [p.oldAt terms y])[i]? = some a →
      i < boundary N p.oldSize y % N ∧ a < p.oldAt terms 0 ∨ i = boundary N p.oldSize y % N ∧ a = p.oldAt terms y := by
    intro y hy i a ha
    have hll := left_length hN (p.levelOf y) p.oldSize y
    rcases Nat.lt_or_ge i (boundary N p.oldSize y % N) with hi | hi
    · rw [List.getElem?_append_left (by omega)] at ha
      exact .inl ⟨hi, hleft y hy a (List.mem_of_getElem? ha)⟩
    · have hi' := (List.getElem?_eq_some_iff.mp ha).1
      rw [hlen] at hi'
      rw [show i = boundary N p.oldSize y % N by omega, List.getElem?_append_right hll.le, hll,
        Nat.sub_self, List.getElem?_cons_zero, Option.some.injEq] at ha
      exact .inr ⟨by omega, ha.symm⟩
  induction d with
  | zero =>
      intro x hx hsx
      rw [Nat.add_zero] at hx
      subst hx
      obtain ⟨hnode, hzero⟩ := hk.count hN hM
      have hwrong := hk.wrong
      have hfit := (hM.steps x hlt).2
      by_cases hc : (old.levelOf x).siblingCount.toNat = 0
      · rw [NaryProof.nodeAt, ProofLevel.parentOf, if_pos hc] at hnode
        exact .inl ⟨x, le_rfl, le_rfl, by omega, hnode⟩
      · -- the group stands for a lifted node, and the member is its first
        have hb : boundary N p.oldSize x % N = 0 := by omega
        have hpos := hM.pos_le hk.shared
        rw [← (hM.steps x hlt).1] at hpos
        obtain ⟨z, hz1, hz2, hz3, hz4⟩ := exists_settled (f := p.oldAt terms) hsk
          (Nat.zero_lt_of_lt (hs.lt hM)) fun i _ _ hi => hlift i hi
        rw [hlift x hb, hz4] at hnode
        obtain ⟨-, hall⟩ := ProofLevel.members_of_parentOf hfit (Nat.pos_of_ne_zero hc)
          (by rw [hlen]; omega) hnode
        have hfirst := hall 0 (by rw [hlen]; omega)
        rw [if_pos (by omega)] at hfirst
        rcases hmember z (by omega) 0 _ hfirst with h | h
        · exact .inr h.2.le
        · omega
  | succ d ih =>
      intro x hx hsx
      obtain ⟨hposition, hfit⟩ := hM.steps x (by omega)
      rcases ih (x + 1) (by omega) (by omega) with ⟨y, hy1, hy2, hy3, hy4⟩ | hfree
      · by_cases hc : (old.levelOf x).siblingCount.toNat = 0
        · rw [NaryProof.nodeAt, ProofLevel.parentOf, if_pos hc] at hy4
          exact .inl ⟨y, by omega, hy2, hy3, hy4⟩
        · obtain ⟨hcount, hall⟩ := ProofLevel.members_of_parentOf hfit (Nat.pos_of_ne_zero hc)
            (by rw [hlen]; omega) hy4
          have hself := hall (old.levelOf x).position.toNat (by
            rw [← hcount]; exact (hfit (Nat.pos_of_ne_zero hc)).2)
          rw [if_pos rfl] at hself
          rcases hmember y (by omega) _ _ hself with h | h
          · exact .inr h.2.le
          · -- the member is the boundary node of level `y`, and not the first of its group
            have hpos := hM.pos_le (k := x) (by rw [index_eq_boundary hs.shared hsx])
            obtain ⟨z, hz1, hz2, hz3, hz4⟩ := exists_settled (f := p.oldAt terms)
              (show x < y by omega) (show 0 < boundary N p.oldSize x % N by omega)
              fun i _ _ hi => hlift i hi
            exact .inl ⟨z, hz1, by omega, hz3, by rw [h.2, hz4]⟩
      · exact .inr ((ProofLevel.le_parentOf hfit _).trans hfree)

/-- **The boundary node is not there already**, if every node left of the boundary comes before the
boundary leaf. -/
theorem not_accepted_of_refreshed (hN : 2 ≤ N) (hM : Matched terms p old)
    (hU : Updated terms p old q) (hk : p.UppermostWrong old k)
    (hnone : ∀ x ≤ k, (p.levelOf x).newCount.toNat = 0)
    (hleft : ∀ x < p.levelCount, ∀ a ∈ (p.levelOf x).left (boundary N p.oldSize x % N),
      a < p.oldAt terms 0) {s : ℕ} (hs : p.RefreshedAt old s) (hsk : s ≤ k) :
    q.verify terms ≠ .ok true := by
  intro hv
  have hmember := hs.member hN hM hU hk hnone hsk hv
  have hbelow := hs.lt hM
  have hwithin := hs.within
  have hlt := hk.lt
  have hle := hM.levelCount_le
  have hsk' : s < k := by
    rcases Nat.eq_or_lt_of_le hsk with rfl | h
    · have := (hk.count hN hM).2
      omega
    · exact h
  obtain ⟨hposition, hfit⟩ := hM.steps s (by omega)
  have hc : 0 < (old.levelOf s).siblingCount.toNat := by omega
  -- the boundary node of level `s` is a member of the group
  have hget := ProofLevel.getElem?_around_of_ne hfit hc hwithin (by omega) (old.nodeAt terms s)
  rw [hmember] at hget
  rcases hs.above hN hM hk hleft hsk' (k - (s + 1)) (s + 1) (by omega) (Nat.lt_succ_self s) with
    ⟨y, hy1, hy2, hy3, hy4⟩ | hfree
  · rw [NaryProof.nodeAt, ProofLevel.parentOf, if_neg (by omega), oldAt,
      LeanTree.combine_of_two_le (by rw [List.length_append, left_length hN, List.length_singleton]; omega)] at hy4
    rw [show (old.levelOf s).around (old.nodeAt terms s) = _ from nodeHash_injective hy4] at hget
    have hless : p.oldAt terms s < p.oldAt terms y :=
      (oldAt_lt_succ hN (by omega)).trans_le (oldAt_mono hy1)
    rcases List.mem_append.mp (List.mem_of_getElem? hget) with h | h
    · have h1 := hleft y (by omega) _ h
      have h2 := (@oldAt_mono _ _ p) (Nat.zero_le s)
      omega
    · rw [List.mem_singleton] at h
      omega
  · rw [NaryProof.nodeAt, ProofLevel.parentOf, if_neg (by omega)] at hfree
    have h1 : p.oldAt terms s < terms.hashChildren _ := lt_nodeHash (List.mem_of_getElem? hget)
    have h2 := (@oldAt_mono _ _ p) (Nat.zero_le s)
    omega

/-! #### New nodes below a wrong count -/

/-- New nodes at level `j`, below level `k` and none between: all of them the number `M`, larger than
any number the two proofs have below it. -/
structure FreshAt (p : ConsistencyProof ℕ N MAX_DEPTH) (old q : NaryProof ℕ N MAX_DEPTH) (k j M : ℕ) :
    Prop where
  below : j < k
  added : 0 < (p.levelOf j).newCount.toNat
  last : ∀ x, j < x → x ≤ k → (p.levelOf x).newCount.toNat = 0
  fresh : ∀ a ∈ (p.levelOf j).new, a = M
  siblings : ∀ x < old.levelCount, ∀ i, (old.levelOf x).other i < M
  nodes : ∀ x < old.levelCount, old.nodeAt terms x < M
  updated : q.nodeAt terms j < M

section Fresh

variable {j M : ℕ}

theorem newAt_succ_of_none (hN : 2 ≤ N) (hM : Matched terms p old) {x : ℕ} (hx : x < p.levelCount)
    (hnone : (p.levelOf x).newCount.toNat = 0) : p.newAt terms (x + 1) =
      LeanTree.combine nodeHash
        ((p.levelOf x).left (boundary N p.oldSize x % N) ++ [p.newAt terms x]) := by
  have hfit := hM.climbs.fits x hx
  have hnl := hfit.new_length hN hM.notEmpty hM.grows.le
  rw [← hfit.2.2, hnone] at hnl
  rw [newAt, List.length_eq_zero_iff.mp hnl]
  rfl

/-- Above the new nodes, the boundary nodes of the new tree are larger, and groups end with a node
that is not smaller. -/
theorem FreshAt.newAt_last (hN : 2 ≤ N) (hM : Matched terms p old) (hkp : k < p.levelCount)
    (hF : p.FreshAt old q k j M) (d : ℕ) :
    j + 1 + d ≤ k + 1 → M < p.newAt terms (j + 1 + d) ∧
      ∃ g w, 2 ≤ g.length ∧ p.newAt terms (j + 1 + d) = LeanTree.combine nodeHash g ∧
        g[g.length - 1]? = some w ∧ M ≤ w := by
  have hjk := hF.below
  induction d with
  | zero =>
      intro _
      have hfit := hM.climbs.fits j (by omega)
      have hnl := hfit.new_length hN hM.notEmpty hM.grows.le
      have hadded := hF.added
      have hll := left_length hN (p.levelOf j) p.oldSize j
      rw [← hfit.2.2] at hnl
      have hlen : ((p.levelOf j).left (boundary N p.oldSize j % N) ++
          p.newAt terms j :: (p.levelOf j).new).length =
          boundary N p.oldSize j % N + 1 + (p.levelOf j).newCount.toNat := by
        rw [List.length_append, List.length_cons]
        omega
      obtain ⟨w, hw⟩ : ∃ w, (p.levelOf j).new[(p.levelOf j).newCount.toNat - 1]? = some w :=
        ⟨_, List.getElem?_eq_getElem (by omega)⟩
      have hwM := hF.fresh w (List.mem_of_getElem? hw)
      have hget : ((p.levelOf j).left (boundary N p.oldSize j % N) ++
          p.newAt terms j :: (p.levelOf j).new)[boundary N p.oldSize j % N + 1 +
            (p.levelOf j).newCount.toNat - 1]? = some w := by
        rw [List.getElem?_append_right (by omega), hll, ← hw,
          show boundary N p.oldSize j % N + 1 + (p.levelOf j).newCount.toNat - 1 -
            boundary N p.oldSize j % N = (p.levelOf j).newCount.toNat - 1 + 1 by omega,
          List.getElem?_cons_succ]
      refine ⟨?_, _, w, by rw [hlen]; omega, rfl, by rw [hlen]; exact hget, hwM.ge⟩
      rw [← hwM]
      exact lt_combine (List.mem_of_getElem? hget) (by rw [hlen]; omega)
  | succ d ih =>
      intro hd
      obtain ⟨hbig, g, w, h2, hg, hw, hwM⟩ := ih (by omega)
      have hsucc := newAt_succ_of_none hN hM (show j + 1 + d < p.levelCount by omega)
        (hF.last _ (by omega) (by omega))
      have hll := left_length hN (p.levelOf (j + 1 + d)) p.oldSize (j + 1 + d)
      refine ⟨hbig.trans_le (newAt_mono (Nat.le_succ _)), ?_⟩
      rcases Nat.eq_zero_or_pos (boundary N p.oldSize (j + 1 + d) % N) with hb | hb
      · refine ⟨g, w, h2, ?_, hw, hwM⟩
        rw [← hg]
        rw [List.length_eq_zero_iff.mp (hll.trans hb)] at hsucc
        exact hsucc
      · refine ⟨_, p.newAt terms (j + 1 + d), ?_, hsucc, ?_, hbig.le⟩
        · rw [List.length_append, hll, List.length_singleton]
          omega
        · rw [List.length_append, hll, List.length_singleton, Nat.add_sub_cancel,
            List.getElem?_append_right hll.le, hll, Nat.sub_self, List.getElem?_cons_zero]

theorem FreshAt.lt_newAt (hN : 2 ≤ N) (hM : Matched terms p old) (hkp : k < p.levelCount)
    (hF : p.FreshAt old q k j M) {x : ℕ} (hjx : j < x) (hxk : x ≤ k + 1) :
    M < p.newAt terms x := by
  obtain ⟨d, rfl⟩ := Nat.exists_eq_add_of_le (show j + 1 ≤ x from hjx)
  exact (hF.newAt_last hN hM hkp d hxk).1

/-- The last member of a group of the updated proof, if it is not the proved one, is smaller than the
boundary node above. -/
theorem FreshAt.other_lt (hN : 2 ≤ N) (hM : Matched terms p old) (hU : Updated terms p old q)
    (hkd : k < old.levelCount) (hF : p.FreshAt old q k j M) {x : ℕ} (hjx : j ≤ x) (hxk : x < k)
    (hcount : 0 < (q.levelOf x).siblingCount.toNat)
    (hne : (q.levelOf x).siblingCount.toNat ≠ (q.levelOf x).position.toNat) :
    (q.levelOf x).other (q.levelOf x).siblingCount.toNat < p.newAt terms (x + 1) := by
  have hle := hM.levelCount_le
  have hd := hM.depth
  have hbig := hF.lt_newAt hN hM (by omega) (show j < x + 1 by omega) (by omega)
  by_cases hsame : old.leafIndex / N ^ x / N = boundary N p.oldSize x / N
  · obtain ⟨hpos, hsize, -, hothers⟩ := hU.members hN hM (by omega) hsame
    have hnl := (hM.climbs.fits x (by omega)).new_length hN hM.notEmpty hM.grows.le
    rw [← (hM.climbs.fits x (by omega)).2.2] at hnl
    rw [hothers _ (by omega) (by omega)]
    split_ifs with hnew hrefresh
    · -- a new node, at level `j`
      have hxj : x = j := by
        by_contra hc
        have := hF.last x (by omega) hxk.le
        omega
      subst hxj
      rw [List.getElem?_eq_getElem (by omega), Option.getD_some,
        hF.fresh _ (List.getElem_mem _)]
      exact hbig
    · have hll := left_length hN (p.levelOf x) p.oldSize x
      refine lt_combine (by simp) ?_
      rw [List.length_append, List.length_cons]
      omega
    · exact (hF.siblings x (by omega) _).trans hbig
  · rw [(hU.levels x (by omega)).1 hsame]
    exact (hF.siblings x (by omega) _).trans hbig

/-- One level down, from a boundary node of the new tree above the new nodes. -/
theorem FreshAt.down (hN : 2 ≤ N) (hM : Matched terms p old) (hU : Updated terms p old q)
    (hkd : k < old.levelCount) (hF : p.FreshAt old q k j M) {x y : ℕ} (hfit : StepFits N (q.levelOf x).step)
    (hjx : j ≤ x) (hxy : x < y) (hyk : y ≤ k) (hb : 0 < boundary N p.oldSize y % N)
    (hnode : q.nodeAt terms (x + 1) = p.newAt terms (y + 1)) :
    q.nodeAt terms x = p.newAt terms (y + 1) ∨
      q.nodeAt terms x = p.newAt terms y ∧ 0 < (q.levelOf x).position.toNat := by
  have hle := hM.levelCount_le
  by_cases hc : (q.levelOf x).siblingCount.toNat = 0
  · rw [NaryProof.nodeAt, ProofLevel.parentOf, if_pos hc] at hnode
    exact .inl hnode
  · rw [newAt_succ_of_none hN hM (by omega) (hF.last y (by omega) hyk)] at hnode
    have hll := left_length hN (p.levelOf y) p.oldSize y
    have hlen : ((p.levelOf y).left (boundary N p.oldSize y % N) ++ [p.newAt terms y]).length =
        boundary N p.oldSize y % N + 1 := by
      rw [List.length_append, List.length_singleton, hll]
    obtain ⟨hcount, hall⟩ := ProofLevel.members_of_parentOf hfit (Nat.pos_of_ne_zero hc)
      (by rw [hlen]; omega) hnode
    have hlast := hall (boundary N p.oldSize y % N) (by omega)
    rw [List.getElem?_append_right hll.le, hll, Nat.sub_self, List.getElem?_cons_zero,
      Option.some.injEq] at hlast
    have hcb : (q.levelOf x).siblingCount.toNat = boundary N p.oldSize y % N := by omega
    by_cases hpos : boundary N p.oldSize y % N = (q.levelOf x).position.toNat
    · rw [if_pos hpos] at hlast
      exact .inr ⟨hlast.symm, by omega⟩
    · rw [if_neg hpos, ← hcb] at hlast
      have h1 := hF.other_lt hN hM hU hkd hjx (by omega) (Nat.pos_of_ne_zero hc) (by omega)
      have h2 := (@newAt_mono _ _ p) (show x + 1 ≤ y from hxy)
      omega

/-- Below the wrong level, down to the new nodes, the updated proof has the boundary nodes of the new
tree one level too low. -/
theorem FreshAt.above (hN : 2 ≤ N) (hM : Matched terms p old) (hU : Updated terms p old q)
    (hk : p.UppermostWrong old k) (hF : p.FreshAt old q k j M) (hv : q.verify terms = .ok true)
    (d : ℕ) : ∀ x, x + d = k → j < x → ∃ y, x ≤ y ∧ y ≤ k ∧ 0 < boundary N p.oldSize y % N ∧
      q.nodeAt terms x = p.newAt terms (y + 1) := by
  have hkd := hk.lt
  have hle := hM.levelCount_le
  have hd := hM.depth
  have hjk := hF.below
  obtain ⟨hsteps, htop⟩ := hU.of_verify hN nodeHash_injectiveOn hM hk hv
  induction d with
  | zero =>
      intro x hx _
      rw [Nat.add_zero] at hx
      subst hx
      have hwrong := hk.wrong
      have hzero := (hk.count hN hM).2
      obtain ⟨hposition, hfit⟩ := hsteps x (by omega)
      obtain ⟨-, hsize, -, hothers⟩ := hU.members hN hM (by omega) hk.shared
      rw [claimedSize_of_lt hkd (by omega), hF.last x hjk le_rfl] at hsize hothers
      by_cases hc : (q.levelOf x).siblingCount.toNat = 0
      · rw [NaryProof.nodeAt, ProofLevel.parentOf, if_pos hc] at htop
        exact ⟨x, le_rfl, le_rfl, by omega, htop⟩
      · -- the last member is an old sibling, but should be as large as the new nodes
        have hpos := hM.pos_le hk.shared
        have hb : boundary N p.oldSize x % N = 0 := by omega
        obtain ⟨-, g, w, h2, hg, hw, hwM⟩ := hF.newAt_last hN hM (by omega) (x - j) (by omega)
        rw [show j + 1 + (x - j) = x + 1 by omega] at hg
        rw [hU.leafIndex] at hposition
        obtain ⟨hlen, hall⟩ := ProofLevel.members_of_parentOf hfit (Nat.pos_of_ne_zero hc) h2
          (htop.trans hg)
        rw [hall _ (by omega), if_neg (by omega), hothers _ (by omega) (by omega), if_neg (by omega),
          if_neg (by omega), Option.some.injEq] at hw
        have := hF.siblings x hkd (g.length - 1)
        omega
  | succ d ih =>
      intro x hx hjx
      obtain ⟨y, hy1, hy2, hy3, hy4⟩ := ih (x + 1) (by omega) (by omega)
      obtain ⟨hposition, hfit⟩ := hsteps x (by omega)
      rcases hF.down hN hM hU hkd hfit hjx.le hy1 hy2 hy3 hy4 with h | ⟨h, hpos⟩
      · exact ⟨y, by omega, hy2, hy3, h⟩
      · have hbig := hF.lt_newAt hN hM (by omega) (show j < y by omega) (by omega)
        by_cases hsame : old.leafIndex / N ^ x / N = boundary N p.oldSize x / N
        · -- the member is not the first of its group, so the boundary node is not either
          have hle' := hM.pos_le hsame
          rw [hU.leafIndex] at hposition
          obtain ⟨z, hz1, hz2, hz3, hz4⟩ := exists_settled (f := p.newAt terms)
            (show x < y by omega) (show 0 < boundary N p.oldSize x % N by omega) (by
              intro i hi1 hi2 hi3
              rw [newAt_succ_of_none hN hM (by omega) (hF.last i (by omega) (by omega)),
                List.length_eq_zero_iff.mp ((left_length hN (p.levelOf i) p.oldSize i).trans hi3)]
              rfl)
          exact ⟨z, hz1, by omega, hz3, by rw [h, hz4]⟩
        · rw [hU.nodeAt_left x (by omega) fun hc => hsame (by rw [hc])] at h
          have := hF.nodes x (by omega)
          omega

/-- **New nodes are not found where the new root needs them.** -/
theorem not_accepted_of_fresh (hN : 2 ≤ N) (hM : Matched terms p old) (hU : Updated terms p old q)
    (hk : p.UppermostWrong old k) (hF : p.FreshAt old q k j M) : q.verify terms ≠ .ok true := by
  intro hv
  have hkd := hk.lt
  have hle := hM.levelCount_le
  have hjk := hF.below
  obtain ⟨hsteps, -⟩ := hU.of_verify hN nodeHash_injectiveOn hM hk hv
  obtain ⟨y, hy1, hy2, hy3, hy4⟩ := hF.above hN hM hU hk hv (k - (j + 1)) (j + 1) (by omega)
    (Nat.lt_succ_self j)
  have hsmall := hF.updated
  rcases hF.down hN hM hU hkd (hsteps j (by omega)).2 le_rfl hy1 hy2 hy3 hy4 with h | ⟨h, -⟩
  · have := hF.lt_newAt hN hM (by omega) (show j < y + 1 by omega) (by omega)
    omega
  · have := hF.lt_newAt hN hM (by omega) (show j < y by omega) (by omega)
    omega

end Fresh

/-! #### Nodes that do not depend on the new ones -/

/-- The level of the leaves does not use the boundary node of the new tree. -/
theorem boundaryLevel_zero (old : NaryProof ℕ N MAX_DEPTH) (level : ConsistencyLevel ℕ N)
    (m b hash hash' : ℕ) :
    boundaryLevel old level 0 m b hash = boundaryLevel old level 0 m b hash' := by
  unfold boundaryLevel refreshBoundary
  simp only [Nat.lt_irrefl, false_and, if_false]

/-- Two updates of one proof along levels that agree below level `j` have the same node there. -/
theorem Updated.nodeAt_eq {p' : ConsistencyProof ℕ N MAX_DEPTH} {q' : NaryProof ℕ N MAX_DEPTH}
    (hU : Updated terms p old q) (hU' : Updated terms p' old q') (hsize : p.oldSize = p'.oldSize)
    {j : ℕ} (hj : j ≤ p.levelCount) (hj' : j ≤ p'.levelCount)
    (hlevels : ∀ x < j, p.levelOf x = p'.levelOf x) : q.nodeAt terms j = q'.nodeAt terms j := by
  have hnew : ∀ x < j, p.newAt terms x = p'.newAt terms x := by
    intro x
    induction x with
    | zero =>
        intro hx
        rw [newAt, newAt, hlevels 0 hx, hsize]
    | succ x ih =>
        intro hx
        rw [newAt, newAt, hlevels x (by omega), ih (by omega), hsize]
  have hlevel : ∀ x < j, q.levelOf x = q'.levelOf x := by
    intro x hx
    have hw := hU.levels x (by omega)
    have hw' := hU'.levels x (by omega)
    unfold Writes at hw hw'
    rw [hsize, hlevels x hx] at hw
    by_cases hsame : old.leafIndex / N ^ x / N = boundary N p'.oldSize x / N
    · obtain ⟨hash, hhash, h⟩ := hw.2 hsame
      obtain ⟨hash', hhash', h'⟩ := hw'.2 hsame
      rcases Nat.eq_zero_or_pos x with rfl | hpos
      · rw [boundaryLevel_zero old _ _ _ hash hash', h'] at h
        exact (Except.ok.inj h).symm
      · rw [hhash hpos, hnew x hx, ← hhash' hpos, h'] at h
        exact (Except.ok.inj h).symm
    · rw [hw.1 hsame, hw'.1 hsame]
  have hnode : ∀ x ≤ j, q.nodeAt terms x = q'.nodeAt terms x := by
    intro x
    induction x with
    | zero =>
        intro _
        exact hU.leaf.trans hU'.leaf.symm
    | succ x ih =>
        intro hx
        rw [NaryProof.nodeAt, NaryProof.nodeAt, hlevel x (by omega), ih (by omega)]
  exact hnode j le_rfl

/-- The numbers of a proof are bounded. -/
theorem exists_bound (old : NaryProof ℕ N MAX_DEPTH) :
    ∃ B, ∀ x < old.levelCount, old.nodeAt terms x ≤ B ∧ ∀ i, (old.levelOf x).other i ≤ B := by
  have hother : ∀ x i, (old.levelOf x).other i ≤ (List.ofFn (old.levelOf x).siblings).sum := by
    intro x i
    unfold ProofLevel.other
    cases hget : (List.ofFn (old.levelOf x).siblings)[if i < (old.levelOf x).position.toNat then i
      else i - 1]? with
    | none => exact Nat.zero_le _
    | some a => exact List.single_le_sum (fun _ _ => Nat.zero_le _) a (List.mem_of_getElem? hget)
  refine ⟨(Finset.range old.levelCount).sup fun x => old.nodeAt terms x +
    (List.ofFn (old.levelOf x).siblings).sum, fun x hx => ?_⟩
  have hle := Finset.le_sup (f := fun x => old.nodeAt terms x +
    (List.ofFn (old.levelOf x).siblings).sum) (Finset.mem_range.mpr hx)
  refine ⟨by omega, fun i => ?_⟩
  have := hother x i
  omega

end ConsistencyProof

namespace ConsistencyShape

variable {τ : ConsistencyShape MAX_DEPTH} {v e : ℕ} {new : ℕ → ℕ}

theorem newCount_forge (k : ℕ) :
    ((τ.forge N v e new).levelOf k).newCount.toNat = τ.newCountAt k := by
  unfold ConsistencyProof.levelOf newCountAt
  split_ifs
  · rfl
  · rfl

theorem levelOf_forge_congr {new' : ℕ → ℕ} {k : ℕ} (h : new k = new' k) :
    (τ.forge N v e new).levelOf k = (τ.forge N v e new').levelOf k := by
  unfold ConsistencyProof.levelOf
  split_ifs
  · exact congrArg (fun w => forgedLevel _ v e w _) h
  · rfl

end ConsistencyShape

/-! ### The exact condition -/

/-- The last place up to `K` where a function is not zero. -/
theorem exists_last_pos {f : ℕ → ℕ} {K : ℕ} (h : ¬ ∀ x ≤ K, f x = 0) :
    ∃ J ≤ K, 0 < f J ∧ ∀ y, J < y → y ≤ K → f y = 0 := by
  push Not at h
  obtain ⟨x, hxK, hx⟩ := h
  refine ⟨Nat.findGreatest (fun x => 0 < f x) K, Nat.findGreatest_le K, ?_, ?_⟩
  · exact Nat.findGreatest_spec (P := fun x => 0 < f x) hxK (Nat.pos_of_ne_zero hx)
  · intro y hy hyK
    have := Nat.findGreatest_is_greatest hy hyK
    omega

/-- **Needed for a valid update.**  If a level below a wrong count is not kept, there is a pair of
accepted proofs whose update is not accepted. -/
theorem keepsValid_of_updatesAt (hN : 2 ≤ N) {σ : ProofShape MAX_DEPTH}
    {τ : ConsistencyShape MAX_DEPTH} (hupdates : UpdatesAt N σ τ) (hστ : σ.Updatable N τ) :
    σ.KeepsValid N τ := by
  obtain ⟨v, e, hve, hv, hpair⟩ := exists_forged_pair hN hστ
  obtain ⟨hσ, hτ, hsize, -⟩ := hστ
  -- whatever the new nodes, the update of the forged pair is accepted
  have hall : ∀ new, ∃ q, ConsistencyProof.Matched terms (τ.forge N v e new) (σ.follow N v e) ∧
      ConsistencyProof.Updated terms (τ.forge N v e new) (σ.follow N v e) q ∧
      q.verify terms = .ok true := by
    intro new
    obtain ⟨hroot, q, hq⟩ := hpair new
    have hsize' : (σ.follow N v e).treeSize = (τ.forge N v e new).oldSize := hsize
    obtain ⟨hM, hU⟩ := ConsistencyProof.updated_of_eq_ok hN hv hsize' hq
    exact ⟨q, hM, hU, (hupdates ℕ terms nodeHash_injectiveOn _ _ q rfl rfl hv hsize' hroot hq).1⟩
  obtain ⟨q₀, hM₀, hU₀, hq₀⟩ := hall fun _ => 0
  intro k hk hsame hwrong j hj
  by_contra hbad
  unfold ProofShape.SharedAt at hsame
  rw [hsize] at hsame hwrong
  have hlevel : ∀ x (hx : x < MAX_DEPTH), ((σ.follow N v e).levelOf x).siblingCount.toNat =
      (σ.steps ⟨x, hx⟩).2.toNat := by
    intro x hx
    rw [NaryProof.levelOf_of_lt _ hx]
    rfl
  have hnot : ¬ (τ.forge N v e fun _ => 0).CountsRightFrom 0 (σ.follow N v e) := by
    intro hright
    exact hwrong (by rw [← hlevel k.val k.isLt]; exact hright k.val (Nat.zero_le _) hk hsame)
  obtain ⟨K, hK⟩ := ConsistencyProof.exists_uppermostWrong hnot
  have hKs : ∀ new, (τ.forge N v e new).UppermostWrong (σ.follow N v e) K :=
    fun new => ⟨hK.lt, hK.shared, hK.wrong, hK.right⟩
  have hkK : k.val ≤ K := by
    by_contra hc
    exact hwrong (by
      rw [← hlevel k.val k.isLt]
      exact hK.right k.val (by omega) hk hsame)
  have hKτ : K < τ.levelCount := lt_of_lt_of_le hK.lt hM₀.levelCount_le
  by_cases hnone : ∀ x ≤ K, τ.newCountAt x = 0
  · -- no new nodes: the boundary node is put into a group
    refine ConsistencyProof.not_accepted_of_refreshed hN hM₀ hU₀ hK
      (fun x hx => (ConsistencyShape.newCount_forge x).trans (hnone x hx)) ?_ (s := j.val) ?_
      (by omega) hq₀
    · intro x hx a ha
      have hleft := ((@ConsistencyShape.levelOf_forge _ _ τ v e fun _ => 0) hN hτ hx).2.1
      rw [List.eq_of_mem_replicate (hleft ▸ ha : a ∈ List.replicate _ v),
        ConsistencyShape.oldAt_forge hN hτ 0 (Nat.zero_le _)]
      exact hve
    · have hnew : (τ.counts j).2.toNat = 0 := by
        have := hnone j.val (by omega)
        rwa [ConsistencyShape.newCountAt, dif_pos j.isLt] at this
      rw [not_and] at hbad
      have hrefreshed := hbad hnew
      push Not at hrefreshed
      obtain ⟨h1, h2, h3, h4⟩ := hrefreshed
      unfold ProofShape.SharedAt at h2
      rw [hsize] at h2 h3 h4
      exact ⟨h1, h2, h3, by rw [hlevel j.val j.isLt]; exact h4⟩
  · obtain ⟨J, hJK, hadded, hlast⟩ := exists_last_pos hnone
    rcases Nat.eq_or_lt_of_le hJK with hJK | hJK
    · refine ConsistencyProof.verify_ne_of_wrong_count hN nodeHash_injectiveOn hM₀ hU₀ hK ?_ hq₀
      rw [ConsistencyShape.newCount_forge, ← hJK]
      exact hadded
    · obtain ⟨B, hB⟩ := ConsistencyProof.exists_bound (σ.follow N v e)
      obtain ⟨M, hMdef⟩ : ∃ M, M = B + q₀.nodeAt terms J + 1 := ⟨_, rfl⟩
      obtain ⟨q, hM, hU, hq⟩ := hall fun x => if x = J then M else 0
      have hnode := hU.nodeAt_eq hU₀ rfl (j := J) (by
        show J ≤ τ.levelCount; omega) (by show J ≤ τ.levelCount; omega) fun x hx =>
          ConsistencyShape.levelOf_forge_congr (if_neg hx.ne)
      refine ConsistencyProof.not_accepted_of_fresh (M := M) hN hM hU (hKs _) ⟨hJK, ?_, ?_, ?_, ?_, ?_,
        by omega⟩ hq
      · rw [ConsistencyShape.newCount_forge]
        exact hadded
      · intro y hy hyK
        rw [ConsistencyShape.newCount_forge]
        exact hlast y hy hyK
      · intro a ha
        rw [(ConsistencyShape.levelOf_forge hN hτ (by omega)).2.2.1] at ha
        rw [List.eq_of_mem_replicate ha, if_pos rfl]
      · intro y hy i
        have := (hB y hy).2 i
        omega
      · intro y hy
        have := (hB y hy).1
        omega

/-- **When an updated proof is valid.**  For proofs of two shapes the update of an accepted pair is
always accepted exactly when the shapes cannot be updated, or every level up to a wrong count is
kept: no node is new there, and the boundary node is not put into a group. -/
theorem updatesAt_iff (hN : 2 ≤ N) (σ : ProofShape MAX_DEPTH) (τ : ConsistencyShape MAX_DEPTH) :
    UpdatesAt N σ τ ↔ (σ.Updatable N τ → σ.KeepsValid N τ) :=
  ⟨fun h hστ => keepsValid_of_updatesAt hN h hστ, updatesAt_of_keepsValid hN⟩

namespace ConsistencyProof

/-- The node over the first three leaves. -/
def firstGroup : ℕ := nodeHash [0, 2, 4]

/-- Five leaves `0, 2, …`, three to a group, grow to seven. -/
def growProof : ConsistencyProof ℕ 3 2 where
  oldRoot := nodeHash [firstGroup, nodeHash [6, 8]]
  newRoot := nodeHash [firstGroup, nodeHash [6, 8, 10], 12]
  oldSize := 5
  newSize := 7
  levelCount := 2
  levels k := if k.val = 0 then ⟨2, 1, fun j => 6 + 2 * j.val⟩
    else ⟨1, 1, fun j => if j.val = 0 then firstGroup else 12⟩

/-- A proof that takes the first group for a leaf: the upper level moves down by one. -/
def shiftedProof : NaryProof ℕ 3 2 where
  root := growProof.oldRoot
  leaf := firstGroup
  leafIndex := 0
  treeSize := 5
  levelCount := 2
  levels k := if k.val = 0 then ⟨0, 1, fun _ => nodeHash [6, 8]⟩ else ⟨0, 0, fun _ => 0⟩

/-- The shifted proof is accepted, its update is not. -/
theorem shiftedProof_update :
    LeanTree.InjectiveOn (Hasher.scalar nodeHash).hashChildren 3 ∧
      shiftedProof.verify (Hasher.scalar nodeHash) = .ok true ∧
      shiftedProof.treeSize = growProof.oldSize ∧ shiftedProof.root = growProof.oldRoot ∧
      ∃ q, growProof.updateInclusionProof (Hasher.scalar nodeHash) shiftedProof = .ok q ∧
        q.verify (Hasher.scalar nodeHash) = .ok false :=
  ⟨nodeHash_injectiveOn, by decide +kernel, rfl, rfl, _, rfl, by decide +kernel⟩

end ConsistencyProof

/-- The root of two leaves passed off as the first one stays valid when a third leaf comes; the
shifted proof does not stay valid. -/
theorem updatesAt_iff_shapes :
    UpdatesAt 2 (⟨0, 2, 1, fun _ => (0, 0)⟩ : ProofShape 2)
        ⟨2, 3, 2, fun k => if k.val = 0 then (2, 0) else (0, 1)⟩ ∧
      ¬ UpdatesAt 3 ConsistencyProof.shiftedProof.shape ConsistencyProof.growProof.shape :=
  ⟨(updatesAt_iff (by decide) _ _).mpr (by decide),
    fun h => absurd ((updatesAt_iff (by decide) _ _).mp h) (by decide)⟩

end Works.Rotortree
