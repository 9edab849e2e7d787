import Works.Rotortree.UpdateShape

/-! # Forged pairs of proofs

Of two shapes that can be updated there are an accepted old proof and an accepted consistency proof,
with natural numbers as hashes.  The consistency proof is made from two numbers, the nodes left of
the boundary and the boundary leaf, and one for the new nodes of each level
(`ConsistencyShape.forge`); the old proof follows its path along the boundary, and below it takes
its hashes from a chain of blank levels (`ProofShape.follow`).  Whatever the new nodes are, both are
accepted and the update returns (`exists_forged_pair`). -/

namespace Works.Rotortree

open Works.Lib Outcome

variable {N MAX_DEPTH : ℕ}

/-! ### Terms contain their children -/

/-- Natural numbers, hashed as terms. -/
abbrev terms : Hasher ℕ := Hasher.scalar nodeHash

theorem lt_nodeHash {a : ℕ} {g : List ℕ} (h : a ∈ g) : a < nodeHash g := by
  have hencode : a ≤ Encodable.encode g := by
    induction g with
    | nil => cases h
    | cons b g ih =>
        rw [Encodable.encode_list_cons, Encodable.encode_nat]
        rcases List.mem_cons.mp h with rfl | h
        · exact (Nat.left_le_pair _ _).trans (Nat.le_succ _)
        · exact ((ih h).trans (Nat.right_le_pair _ _)).trans (Nat.le_succ _)
  unfold nodeHash
  omega

theorem lt_combine {a : ℕ} {g : List ℕ} (h : a ∈ g) (h2 : 2 ≤ g.length) :
    a < LeanTree.combine nodeHash g := by
  rw [LeanTree.combine_of_two_le h2]
  exact lt_nodeHash h

theorem le_combine {a : ℕ} {g : List ℕ} (h : a ∈ g) : a ≤ LeanTree.combine nodeHash g := by
  rcases Nat.lt_or_ge g.length 2 with h2 | h2
  · have hpos := List.length_pos_of_mem h
    obtain ⟨b, rfl⟩ := List.length_eq_one_iff.mp (show g.length = 1 by omega)
    rw [List.mem_singleton.mp h]
    rfl
  · exact (lt_combine h h2).le

/-! ### A consistency proof of a given shape -/

namespace ConsistencyProof

/-- The boundary node of level `k` over the leaf `e`, with `v` left of the boundary. -/
def oldNode (N m v e : ℕ) : ℕ → ℕ
  | 0 => e
  | k + 1 => LeanTree.combine nodeHash
      (List.replicate (boundary N m k % N) v ++ [oldNode N m v e k])

/-- The same in the new tree, with `count k` nodes `new k` right of it. -/
def newNode (N m v e : ℕ) (count new : ℕ → ℕ) : ℕ → ℕ
  | 0 => e
  | k + 1 => LeanTree.combine nodeHash (List.replicate (boundary N m k % N) v ++
      newNode N m v e count new k :: List.replicate (count k) (new k))

end ConsistencyProof

/-- A level with given counts: `v` left of the boundary at `b`, at the leaves then `e`, then the new
node `w`. -/
def forgedLevel (b v e w : ℕ) (s : UInt8 × UInt8) : ConsistencyLevel ℕ N :=
  ⟨s.1, s.2, FixedArray.padded
    (List.replicate b v ++ List.replicate (s.1.toNat - b) e ++ List.replicate s.2.toNat w)⟩

section Level

variable {b v e w : ℕ} {s : UInt8 × UInt8}

theorem forgedLevel_startsWith (hb : b ≤ s.1.toNat) (hN : s.1.toNat + s.2.toNat ≤ N) :
    FixedArray.StartsWith (forgedLevel b v e w s : ConsistencyLevel ℕ N).hashes
      (List.replicate b v ++ List.replicate (s.1.toNat - b) e ++ List.replicate s.2.toNat w) := by
  refine FixedArray.startsWith_padded ?_
  simp only [List.length_append, List.length_replicate]
  omega

theorem left_forgedLevel (hb : b ≤ s.1.toNat) (hN : s.1.toNat + s.2.toNat ≤ N) :
    (forgedLevel b v e w s : ConsistencyLevel ℕ N).left b = List.replicate b v := by
  have hsw := (@forgedLevel_startsWith N b v e w s) hb hN
  rw [ConsistencyLevel.left, hsw.take (by simp only [List.length_append, List.length_replicate]; omega),
    List.append_assoc, List.take_append_of_le_length (by simp), List.take_replicate, Nat.min_self]

theorem new_forgedLevel (hb : b ≤ s.1.toNat) (hN : s.1.toNat + s.2.toNat ≤ N) :
    (forgedLevel b v e w s : ConsistencyLevel ℕ N).new = List.replicate s.2.toNat w := by
  have hsw := (@forgedLevel_startsWith N b v e w s) hb hN
  have hlen : (List.replicate b v ++ List.replicate (s.1.toNat - b) e).length = s.1.toNat := by
    simp only [List.length_append, List.length_replicate]
    omega
  rw [ConsistencyLevel.new, show (forgedLevel b v e w s : ConsistencyLevel ℕ N).sharedCount = s.1 from
    rfl, show (forgedLevel b v e w s : ConsistencyLevel ℕ N).newCount = s.2 from rfl,
    hsw.take (by rw [List.length_append, hlen, List.length_replicate]),
    List.take_of_length_le (by rw [List.length_append, hlen, List.length_replicate]),
    List.drop_append_of_le_length hlen.ge, List.drop_of_length_le hlen.le, List.nil_append]

theorem middle_forgedLevel (hb : s.1.toNat = b + 1) (hN : s.1.toNat + s.2.toNat ≤ N) :
    (forgedLevel b v e w s : ConsistencyLevel ℕ N).middle b = e := by
  have hsw := (@forgedLevel_startsWith N b v e w s) (by omega) hN
  rw [ConsistencyLevel.middle, hsw.getElem?_ofFn (by simp; omega), List.append_assoc,
    List.getElem?_append_right (by simp), hb, Nat.add_sub_cancel_left, List.length_replicate,
    Nat.sub_self]
  rfl

end Level

namespace ConsistencyShape

/-- The number of new nodes of level `k`. -/
def newCountAt (τ : ConsistencyShape MAX_DEPTH) (k : ℕ) : ℕ :=
  if h : k < MAX_DEPTH then (τ.counts ⟨k, h⟩).2.toNat else 0

/-- A consistency proof of the shape, from the values `v`, `e` and `new`. -/
def forge (N : ℕ) (τ : ConsistencyShape MAX_DEPTH) (v e : ℕ) (new : ℕ → ℕ) :
    ConsistencyProof ℕ N MAX_DEPTH where
  oldRoot := ConsistencyProof.oldNode N τ.oldSize v e τ.levelCount
  newRoot := ConsistencyProof.newNode N τ.oldSize v e τ.newCountAt new τ.levelCount
  oldSize := τ.oldSize
  newSize := τ.newSize
  levelCount := τ.levelCount
  levels k := forgedLevel (ConsistencyProof.boundary N τ.oldSize k % N) v e (new k) (τ.counts k)

variable {τ : ConsistencyShape MAX_DEPTH} {v e : ℕ} {new : ℕ → ℕ}

/-- What the levels of a forged proof hold. -/
theorem levelOf_forge (hN : 2 ≤ N) (hτ : τ.Accepted N) {k : ℕ} (hk : k < τ.levelCount) :
    ConsistencyProof.LevelFits N τ.oldSize τ.newSize k ((τ.forge N v e new).levelOf k) ∧
      ((τ.forge N v e new).levelOf k).left (ConsistencyProof.boundary N τ.oldSize k % N) =
        List.replicate (ConsistencyProof.boundary N τ.oldSize k % N) v ∧
      ((τ.forge N v e new).levelOf k).new = List.replicate (τ.newCountAt k) (new k) ∧
      (k = 0 → ((τ.forge N v e new).levelOf k).middle
        (ConsistencyProof.boundary N τ.oldSize k % N) = e) := by
  obtain ⟨hm, hmn, -, -, hdepth, hcounts⟩ := hτ
  have hkd : k < MAX_DEPTH := lt_of_lt_of_le hk hdepth
  obtain ⟨hend, hshared, hnew⟩ := hcounts ⟨k, hkd⟩ hk
  dsimp only at hend hshared hnew
  obtain ⟨-, hroom, -⟩ := ConsistencyProof.boundaryPos_add_newCountAt hN hm hmn.le k
  have hb : ConsistencyProof.boundary N τ.oldSize k % N ≤ (τ.counts ⟨k, hkd⟩).1.toNat := by
    rw [hshared]
    split_ifs <;> omega
  have hfit : (τ.counts ⟨k, hkd⟩).1.toNat + (τ.counts ⟨k, hkd⟩).2.toNat ≤ N := by
    rw [hshared, hnew]
    split_ifs <;> omega
  rw [(τ.forge N v e new).levelOf_of_lt hkd, newCountAt, dif_pos hkd]
  refine ⟨⟨hend, hshared, hnew⟩, left_forgedLevel hb hfit, new_forgedLevel hb hfit, ?_⟩
  intro h0
  rw [if_pos h0] at hshared
  exact middle_forgedLevel hshared hfit

theorem oldAt_forge (hN : 2 ≤ N) (hτ : τ.Accepted N) (k : ℕ) :
    k ≤ τ.levelCount → (τ.forge N v e new).oldAt terms k =
      ConsistencyProof.oldNode N τ.oldSize v e k := by
  induction k with
  | zero =>
      intro _
      have hcount : 0 < τ.levelCount := by
        obtain ⟨hm, hmn, -, hc, -⟩ := hτ
        rw [hc]
        exact Nat.clog_pos (by omega) (by omega)
      exact (levelOf_forge hN hτ hcount).2.2.2 rfl
  | succ k ih =>
      intro hk
      obtain ⟨-, hleft, -⟩ := (@levelOf_forge _ _ _ v e new) hN hτ hk
      rw [ConsistencyProof.oldAt, ConsistencyProof.oldNode, ih (by omega), ← hleft]
      rfl

theorem newAt_forge (hN : 2 ≤ N) (hτ : τ.Accepted N) (k : ℕ) :
    k ≤ τ.levelCount → (τ.forge N v e new).newAt terms k =
      ConsistencyProof.newNode N τ.oldSize v e τ.newCountAt new k := by
  induction k with
  | zero =>
      intro _
      exact (@oldAt_forge _ _ _ v e new) hN hτ 0 (Nat.zero_le _)
  | succ k ih =>
      intro hk
      obtain ⟨-, hleft, hnew, -⟩ := (@levelOf_forge _ _ _ v e new) hN hτ hk
      rw [ConsistencyProof.newAt, ConsistencyProof.newNode, ih (by omega), hnew, ← hleft]
      rfl

/-- A forged consistency proof climbs to both of its roots. -/
theorem climbs_forge (hN : 2 ≤ N) (hτ : τ.Accepted N) :
    (τ.forge N v e new).Climbs terms where
  count := hτ.2.2.2.1
  depth := hτ.2.2.2.2.1
  size := hτ.2.2.1
  fits _ hk := (levelOf_forge hN hτ hk).1
  old := oldAt_forge hN hτ τ.levelCount le_rfl
  new := newAt_forge hN hτ τ.levelCount le_rfl

end ConsistencyShape

/-! ### An old proof of a given shape -/

theorem ConsistencyProof.oldNode_lift {m v e k : ℕ} (hb : ConsistencyProof.boundary N m k % N = 0) :
    ConsistencyProof.oldNode N m v e (k + 1) = ConsistencyProof.oldNode N m v e k := by
  rw [ConsistencyProof.oldNode, hb]
  rfl

theorem ConsistencyProof.oldNode_top (hN : 2 ≤ N) {m : ℕ} (hm : 0 < m) (v e d : ℕ) :
    ConsistencyProof.oldNode N m v e (Nat.clog N m + d) =
      ConsistencyProof.oldNode N m v e (Nat.clog N m) := by
  induction d with
  | zero => rfl
  | succ d ih =>
      have hb := boundary_of_clog_le hN hm (Nat.le_add_right (Nat.clog N m) d)
      rw [← Nat.add_assoc, ConsistencyProof.oldNode_lift (by rw [hb, Nat.zero_mod]), ih]

/-- The siblings of a level whose group is at the given place. -/
def Standing.siblings (N m v e : ℕ) (position : ℕ) : Standing → Fin N → ℕ
  | boundary (k + 1) => FixedArray.padded ((List.replicate (ConsistencyProof.boundary N m k % N) v ++
      [ConsistencyProof.oldNode N m v e k]).eraseIdx position)
  | boundary 0 => fun _ => 0
  | free => fun _ => 0
  | nowhere => fun _ => 0

/-- The node at the given place: on the boundary that of the old tree, else the blank one. -/
def Standing.node (N m v e blank : ℕ) : Standing → ℕ
  | boundary k => ConsistencyProof.oldNode N m v e k
  | free => blank
  | nowhere => blank

namespace ProofShape

/-- The node of level `k` over a leaf `0` whose siblings are all `0`. -/
def blank (N : ℕ) (σ : ProofShape MAX_DEPTH) : ℕ → ℕ
  | 0 => 0
  | k + 1 => (blankLevel (σ.stepAt k) : ProofLevel ℕ N).parentOf terms
      (blank N σ k)

/-- The node of level `k` of the forged proof. -/
def nodeAt (N : ℕ) (σ : ProofShape MAX_DEPTH) (v e k : ℕ) : ℕ :=
  (σ.standing N k).node N σ.treeSize v e (σ.blank N k)

/-- An inclusion proof of the shape that follows its path. -/
def follow (N : ℕ) (σ : ProofShape MAX_DEPTH) (v e : ℕ) : NaryProof ℕ N MAX_DEPTH where
  root := ConsistencyProof.oldNode N σ.treeSize v e σ.levelCount
  leaf := σ.nodeAt N v e 0
  leafIndex := σ.leafIndex
  treeSize := σ.treeSize
  levelCount := σ.levelCount
  levels k := ⟨(σ.steps k).1, (σ.steps k).2,
    (σ.standing N (k.val + 1)).siblings N σ.treeSize v e (σ.steps k).1.toNat⟩

/-- Where the path leaves the boundary, the chain of blank levels ends at the value it enters. -/
def Enters (N : ℕ) (σ : ProofShape MAX_DEPTH) (v e : ℕ) : Prop :=
  ∀ k < σ.levelCount, σ.standing N k = .free →
    (σ.standing N (k + 1) = .boundary 0 → e = σ.blank N (k + 1)) ∧
    ∀ y, σ.standing N (k + 1) = .boundary (y + 1) → v = σ.blank N k

variable {σ : ProofShape MAX_DEPTH} {v e : ℕ}

/-- A place without a way down is never left. -/
theorem standing_of_stuck {place : Standing} (hstuck : ∀ s, place.down N σ.treeSize s = place)
    {k : ℕ} (hk : k ≤ σ.levelCount) (hplace : σ.standing N k = place) {j : ℕ} (hj : j ≤ k) :
    σ.standing N j = place := by
  induction hj using Nat.decreasingInduction with
  | self => exact hplace
  | of_succ j hj ih => rw [standing_of_lt (by omega), ih, hstuck]

theorem standing_ne_nowhere (hno : σ.standing N 0 ≠ .nowhere) {k : ℕ} (hk : k ≤ σ.levelCount) :
    σ.standing N k ≠ .nowhere := by
  intro h
  exact hno (standing_of_stuck (fun _ => rfl) hk h (Nat.zero_le k))

/-- The path leaves the boundary at one level at most, so the values can be chosen. -/
theorem exists_enters (hno : σ.standing N 0 ≠ .nowhere) :
    ∃ v e, v < e ∧ σ.Enters N v e := by
  by_cases hleaves : ∃ k < σ.levelCount, σ.standing N k = .free ∧ σ.standing N (k + 1) ≠ .free
  · obtain ⟨k, hk, hfree, hne⟩ := hleaves
    have hunique : ∀ j < σ.levelCount, σ.standing N j = .free → σ.standing N (j + 1) ≠ .free →
        j = k := by
      intro j hj hj1 hj2
      rcases Nat.lt_trichotomy j k with h | h | h
      · exact absurd (standing_of_stuck (fun _ => rfl) hk.le hfree h) hj2
      · exact h
      · exact absurd (standing_of_stuck (fun _ => rfl) hj.le hj1 h) hne
    cases hup : σ.standing N (k + 1) with
    | boundary y =>
        cases y with
        | zero =>
            have hcount : (σ.stepAt k).2.toNat ≠ 0 := by
              intro h0
              rw [standing_of_lt hk, hup, Standing.down, if_pos h0] at hfree
              cases hfree
            refine ⟨0, σ.blank N (k + 1), ?_, ?_⟩
            · obtain ⟨g, hg⟩ := parentOf_blankLevel (N := N) hcount (σ.blank N k)
              rw [blank, hg]
              exact Nat.succ_pos _
            · intro j hj hj1
              refine ⟨fun hj2 => ?_, fun y hj2 => ?_⟩
              · rw [hunique j hj hj1 (by simp [hj2])]
              · have := hunique j hj hj1 (by simp [hj2])
                subst this
                rw [hup] at hj2
                cases hj2
        | succ y =>
            refine ⟨σ.blank N k, σ.blank N k + 1, Nat.lt_succ_self _, ?_⟩
            intro j hj hj1
            refine ⟨fun hj2 => ?_, fun y hj2 => ?_⟩
            · have := hunique j hj hj1 (by simp [hj2])
              subst this
              rw [hup] at hj2
              cases hj2
            · rw [hunique j hj hj1 (by simp [hj2])]
    | free => exact absurd hup hne
    | nowhere => exact absurd hup (standing_ne_nowhere hno hk)
  · push Not at hleaves
    refine ⟨0, 1, Nat.one_pos, ?_⟩
    intro j hj hj1
    rw [hleaves j hj hj1]
    constructor
    · intro hj2
      cases hj2
    · intro y hj2
      cases hj2

/-- **Going up one level** of the forged proof. -/
theorem parentOf_follow (hN : 2 ≤ N) (hno : σ.standing N 0 ≠ .nowhere) (henters : σ.Enters N v e)
    {k : ℕ} (hk : k < σ.levelCount) {s : UInt8 × UInt8} (hs : s = σ.stepAt k) (hfit : StepFits N s) :
    (⟨s.1, s.2, (σ.standing N (k + 1)).siblings N σ.treeSize v e s.1.toNat⟩ :
      ProofLevel ℕ N).parentOf terms (σ.nodeAt N v e k) =
        σ.nodeAt N v e (k + 1) := by
  have hdown := standing_of_lt (N := N) hk
  have henter := henters k hk
  have hbelow := standing_ne_nowhere hno hk.le
  rw [← hs] at hdown
  unfold nodeAt
  cases hup : σ.standing N (k + 1) with
  | boundary y =>
      rw [hup] at hdown henter
      by_cases h0 : s.2.toNat = 0
      · -- no siblings: the path stays
        have hstay : σ.standing N k = .boundary y := by
          cases y with
          | zero => rw [hdown, Standing.down, if_pos h0]
          | succ y => rw [hdown, Standing.down, if_pos h0]
        rw [hstay, ProofLevel.parentOf, if_pos h0]
        rfl
      · cases y with
        | zero =>
            -- into the boundary leaf
            rw [Standing.down, if_neg h0] at hdown
            rw [hdown, Standing.node, Standing.node, ConsistencyProof.oldNode,
              (henter hdown).1 rfl, blank, ← hs]
            rfl
        | succ y =>
            rw [Standing.down, if_neg h0] at hdown
            have hlt := Nat.mod_lt (ConsistencyProof.boundary N σ.treeSize y) (show 0 < N by omega)
            obtain ⟨-, hpos⟩ := hfit (Nat.pos_of_ne_zero h0)
            split_ifs at hdown with hcount hposition
            · -- the member is the boundary node below
              have hnode := settleBoundary_eq (m := σ.treeSize)
                (f := ConsistencyProof.oldNode N σ.treeSize v e)
                (fun _ hb => ConsistencyProof.oldNode_lift hb) y
              rw [hdown, Standing.node, Standing.node, Standing.siblings, hnode, ProofLevel.parentOf,
                if_neg h0, ProofLevel.around_eraseIdx (by simp [hcount]) (by simp; omega)
                (by rw [hposition, List.getElem?_append_right (by simp), List.length_replicate,
                  Nat.sub_self, List.getElem?_cons_zero]), ConsistencyProof.oldNode,
                LeanTree.combine_of_two_le (by simp; omega)]
              rfl
            · -- the member is left of it
              rw [hdown, Standing.node, Standing.node, Standing.siblings, ← (henter hdown).2 y rfl,
                ProofLevel.parentOf, if_neg h0, ProofLevel.around_eraseIdx (by simp [hcount])
                (by simp; omega) (by rw [List.getElem?_append_left (by simp; omega),
                  List.getElem?_replicate, if_pos (by omega)]), ConsistencyProof.oldNode,
                LeanTree.combine_of_two_le (by simp; omega)]
              rfl
            · exact absurd hdown hbelow
  | free =>
      rw [hup] at hdown
      rw [show σ.standing N k = .free from hdown, Standing.node, Standing.node, blank, ← hs]
      rfl
  | nowhere => exact absurd hup (standing_ne_nowhere hno hk)

theorem levelOf_follow {k : ℕ} (hk : k < MAX_DEPTH) :
    (σ.follow N v e).levelOf k = ⟨(σ.stepAt k).1, (σ.stepAt k).2,
      (σ.standing N (k + 1)).siblings N σ.treeSize v e (σ.stepAt k).1.toNat⟩ := by
  rw [(σ.follow N v e).levelOf_of_lt hk, stepAt, dif_pos hk]
  rfl

/-- The checks of `verify`, level by level. -/
theorem stepAt_follow (hσ : σ.Accepted N) {k : ℕ} (hk : k < σ.levelCount) :
    (σ.follow N v e).StepAt k := by
  obtain ⟨-, -, -, hdepth, hfit⟩ := hσ
  have hused := (σ.follow N v e).used_shape
  have hrange := (σ.follow N v e).stepsFit_range' σ.levelCount 0
  rw [Nat.pow_zero, Nat.div_one] at hrange
  rw [(σ.follow N v e).used_eq hdepth] at hused
  rw [show σ.used = (σ.follow N v e).shape.used from rfl, hused] at hfit
  exact hrange.mp hfit k (Nat.zero_le k) (by omega)

theorem nodeAt_follow (hN : 2 ≤ N) (hσ : σ.Accepted N) (hno : σ.standing N 0 ≠ .nowhere)
    (henters : σ.Enters N v e) (k : ℕ) :
    k ≤ σ.levelCount →
      (σ.follow N v e).nodeAt terms k = σ.nodeAt N v e k := by
  induction k with
  | zero =>
      intro _
      rfl
  | succ k ih =>
      intro hk
      have hdepth := hσ.2.2.2.1
      obtain ⟨-, hfit⟩ := (@stepAt_follow _ _ _ v e) hσ hk
      rw [NaryProof.step_levelOf] at hfit
      rw [NaryProof.nodeAt, ih (by omega), levelOf_follow (by omega)]
      exact parentOf_follow hN hno henters hk rfl hfit

/-- A proof that follows its path is accepted. -/
theorem verify_follow (hN : 2 ≤ N) (hσ : σ.Accepted N) (hno : σ.standing N 0 ≠ .nowhere)
    (henters : σ.Enters N v e) :
    (σ.follow N v e).verify terms = .ok true := by
  have hsettle := settleBoundary_eq (m := σ.treeSize)
    (f := ConsistencyProof.oldNode N σ.treeSize v e)
    (fun _ hb => ConsistencyProof.oldNode_lift hb) σ.levelCount
  refine (NaryProof.verify_eq_true_iff_nodeAt hN _).mpr ⟨⟨hσ.1, hσ.1.trans hσ.2.1, hσ.2.2.1,
    hσ.2.2.2.1, fun k hk => stepAt_follow hσ hk⟩, ?_⟩
  refine (nodeAt_follow hN hσ hno henters _ le_rfl).trans ?_
  rw [nodeAt, σ.standing_top]
  exact hsettle

end ProofShape

/-! ### The update of a forged pair -/

namespace ConsistencyProof

variable {Hash : Type} [Zero Hash] {H : Hasher Hash} {p : ConsistencyProof Hash N MAX_DEPTH}
  {old : NaryProof Hash N MAX_DEPTH}

/-- At level `k` the group of the update fits, and bytes hold its numbers. -/
def WritableAt (p : ConsistencyProof Hash N MAX_DEPTH) (old : NaryProof Hash N MAX_DEPTH) (k : ℕ) :
    Prop :=
  old.leafIndex / N ^ k / N = boundary N p.oldSize k / N → old.leafIndex / N ^ k % N < 256 ∧
    claimedSize old k + (p.levelOf k).newCount.toNat ≤ min N 256

theorem updateLevel_ok (hN : 2 ≤ N) (hm : 0 < p.oldSize) (hmn : p.oldSize ≤ p.newSize) {k : ℕ}
    (hk : k < MAX_DEPTH) (hfit : LevelFits N p.oldSize p.newSize k (p.levelOf k))
    (hw : p.WritableAt old k) (hash : Hash) (newLevels : Fin MAX_DEPTH → ProofLevel Hash N) :
    ∃ newLevels', updateLevel old (p.levelOf k) k (boundary N p.oldSize k) (old.leafIndex / N ^ k)
      hash newLevels = .ok newLevels' := by
  unfold updateLevel
  by_cases hsame : old.leafIndex / N ^ k / N = boundary N p.oldSize k / N
  · obtain ⟨hposition, hroom⟩ := hw hsame
    rw [Nat.le_min] at hroom
    obtain ⟨pl, e⟩ := boundaryLevel_ok hk (Nat.mod_lt _ (show 0 < N by omega)) hposition
      (Nat.mod_lt (boundary N p.oldSize k) (show 0 < N by omega)) (hfit.newHashes hN hm hmn)
      ((hfit.new_length hN hm hmn).trans hfit.2.2.symm) hash hroom.1 hroom.2
    rw [if_neg (not_not_intro hsame), e, ok_bind]
    exact ⟨_, FixedArray.setAt_of_lt _ _ hk⟩
  · rw [if_pos hsame]
    split_ifs
    · rw [FixedArray.index_of_lt _ hk, ok_bind]
      exact ⟨_, FixedArray.setAt_of_lt _ _ hk⟩
    · exact ⟨newLevels, rfl⟩

theorem updateLevels_ok (hN : 2 ≤ N) (hm : 0 < p.oldSize) (hmn : p.oldSize ≤ p.newSize) (n : ℕ) :
    ∀ (k : ℕ) (hash : Hash) (children : Fin N → Hash) (newLevels : Fin MAX_DEPTH → ProofLevel Hash N),
      k + n ≤ MAX_DEPTH → (0 < k → hash = p.newAt H k) →
      (∀ j, k ≤ j → j < k + n → LevelFits N p.oldSize p.newSize j (p.levelOf j) ∧
        p.WritableAt old j) →
      ∃ newLevels', updateLevels H old k ((List.range' k n).map p.levelOf) (p.oldSize ⌈/⌉ N ^ k)
        (old.leafIndex / N ^ k) hash children newLevels = .ok newLevels' := by
  induction n with
  | zero =>
      intro k hash children newLevels _ _ _
      exact ⟨newLevels, rfl⟩
  | succ n ih =>
      intro k hash children newLevels hk hhash hall
      obtain ⟨hfit, hw⟩ := hall k le_rfl (by omega)
      obtain ⟨newLevels₁, e₁⟩ := updateLevel_ok hN hm hmn (by omega) hfit hw hash newLevels
      obtain ⟨children', e⟩ := (@updateLevels_succ _ _ _ H _ old) hN hm hmn hfit hhash n children
        newLevels
      rw [e, e₁, ok_bind]
      exact ih (k + 1) _ children' newLevels₁ (by omega) (fun _ => rfl)
        fun j h1 h2 => hall j (by omega) (by omega)

/-- The update returns a proof where all groups can be written. -/
theorem updateInclusionProof_ok [DecidableEq Hash] (hN : 2 ≤ N) (hc : p.Climbs H)
    (hm : 0 < p.oldSize) (hmn : p.oldSize < p.newSize) (hroot : old.root = p.oldRoot)
    (hlt : old.leafIndex < p.oldSize) (hw : ∀ k < p.levelCount, p.WritableAt old k) :
    ∃ q, p.updateInclusionProof H old = .ok q := by
  have hdepth := hc.depth
  have hsize := hc.size
  obtain ⟨newLevels, e⟩ := (@updateLevels_ok _ _ _ _ H p old) hN hm hmn.le p.levelCount 0 0
    (fun _ => 0) (fun _ => ProofLevel.EMPTY) (by omega) (fun h => absurd h (Nat.lt_irrefl 0))
    fun j _ hj => ⟨hc.fits j (by omega), hw j (by omega)⟩
  rw [Nat.pow_zero, ceilDiv_one, Nat.div_one] at e
  unfold updateInclusionProof
  rw [if_neg (not_not_intro hroot), verify_of_climbs hN hc hm hmn, ok_bind, if_neg (by simp),
    if_neg (by omega), if_neg (by omega), u64ToUsize_of_lt (by omega), ok_bind,
    u64ToUsize_of_lt (by omega), ok_bind, FixedArray.slice_of_le _ (Nat.zero_le _) hdepth, ok_bind,
    List.drop_zero, p.take_levels hdepth, e, ok_bind]
  exact ⟨_, rfl⟩

end ConsistencyProof

/-- **Forgery.**  Two shapes that can be updated are those of an accepted proof and an accepted
consistency proof, whatever the new nodes, and the update returns. -/
theorem exists_forged_pair (hN : 2 ≤ N) {σ : ProofShape MAX_DEPTH} {τ : ConsistencyShape MAX_DEPTH}
    (hστ : σ.Updatable N τ) :
    ∃ v e, v < e ∧ (σ.follow N v e).verify terms = .ok true ∧
      ∀ new, (σ.follow N v e).root = (τ.forge N v e new).oldRoot ∧
        ∃ q, (τ.forge N v e new).updateInclusionProof terms (σ.follow N v e) =
          .ok q := by
  obtain ⟨hσ, hτ, hsize, hroom, hno⟩ := hστ
  obtain ⟨v, e, hve, henters⟩ := ProofShape.exists_enters hno
  refine ⟨v, e, hve, ProofShape.verify_follow hN hσ hno henters, fun new => ?_⟩
  have hclog : σ.levelCount + (τ.levelCount - σ.levelCount) = τ.levelCount := by
    have hle := Nat.clog_mono_right N hτ.2.1.le
    rw [hσ.2.2.1, hτ.2.2.2.1, hsize]
    omega
  have hroot : (σ.follow N v e).root = (τ.forge N v e new).oldRoot := by
    have htop := ConsistencyProof.oldNode_top hN (hsize ▸ hτ.1) v e (τ.levelCount - σ.levelCount)
    rw [← hσ.2.2.1, hclog] at htop
    show ConsistencyProof.oldNode N σ.treeSize v e σ.levelCount =
      ConsistencyProof.oldNode N τ.oldSize v e τ.levelCount
    rw [← hsize, htop]
  refine ⟨hroot, ConsistencyProof.updateInclusionProof_ok hN (ConsistencyShape.climbs_forge hN hτ)
    hτ.1 hτ.2.1 hroot (lt_of_lt_of_eq hσ.1 hsize) ?_⟩
  intro k hk hsame
  have hk' : k < τ.levelCount := hk
  have hkd : k < MAX_DEPTH := lt_of_lt_of_le hk' hτ.2.2.2.2.1
  have hfits := hroom ⟨k, hkd⟩ hk' (by
    unfold ProofShape.SharedAt
    rw [hsize]
    exact hsame)
  constructor
  · by_cases hl : k < σ.levelCount
    · rw [← show _ = (σ.follow N v e).leafIndex / N ^ k % N from (ProofShape.stepAt_follow hσ hl).1]
      exact ((σ.follow N v e).levelOf k).position.toNat_lt
    · have hi : σ.leafIndex / N ^ k = 0 := by
        apply Nat.div_eq_of_lt
        calc σ.leafIndex < σ.treeSize := hσ.1
          _ ≤ N ^ Nat.clog N σ.treeSize := Nat.le_pow_clog (by omega) _
          _ ≤ N ^ k := Nat.pow_le_pow_right (by omega) (by rw [← hσ.2.2.1]; omega)
      rw [show (σ.follow N v e).leafIndex = σ.leafIndex from rfl, hi, Nat.zero_mod]
      omega
  · have hnew : ((τ.forge N v e new).levelOf k).newCount.toNat = (τ.counts ⟨k, hkd⟩).2.toNat := by
      rw [(τ.forge N v e new).levelOf_of_lt hkd]
      rfl
    have hclaimed : ConsistencyProof.claimedSize (σ.follow N v e) k =
        (if k < σ.levelCount then (σ.steps ⟨k, hkd⟩).2.toNat else 0) + 1 := by
      unfold ConsistencyProof.claimedSize
      by_cases hl : k < σ.levelCount
      · rw [if_pos hl, dif_pos ⟨hl, hkd⟩]
        rfl
      · rw [if_neg hl, dif_neg fun h => hl h.1]
    rw [hnew, hclaimed]
    exact hfits

end Works.Rotortree
