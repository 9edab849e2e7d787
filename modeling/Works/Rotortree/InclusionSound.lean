import Works.Rotortree.Inclusion
import Mathlib.Logic.Encodable.Basic

/-! # What an accepted inclusion proof shows

`verify` fixes the position of the member at every level by `leaf_index`, and the number of
levels by `tree_size`, but it takes the size of every group from the proof itself.  Which proofs
are sound is therefore a property of their shape: the positions and sibling counts, read from the
root down, describe a path through the tree (`walk`).  A level without siblings stays where it
is, a level whose group has as many members as the proof says leads to the member, and any other
level cannot be matched by an injective hash.  If the path ends at leaf `leaf_index`, or cannot
be matched, an accepted proof carries the right leaf; if it ends at another leaf, at an inner
node, or inside the value of a leaf, there is a tree with an accepted proof of a wrong leaf. -/

namespace Works.Rotortree

open Works.Lib

variable {Hash : Type} {N MAX_DEPTH : ℕ}

/-! ### The path a shape describes -/

/-- Where a path stands: at a leaf, at node `j` of level `k + 1` with two or more children, inside
the value of a leaf, or nowhere. -/
inductive Spot where
  | leaf (j : ℕ)
  | node (k j : ℕ)
  | inside
  | nowhere
deriving DecidableEq, Repr

/-- The number of children of node `j` of level `k + 1` over `n` leaves. -/
def childCount (N n k j : ℕ) : ℕ := min N (n ⌈/⌉ N ^ k - j * N)

/-- Node `j` of level `k`, followed down as long as it is lifted. -/
def settle (N n : ℕ) : ℕ → ℕ → Spot
  | 0, j => .leaf j
  | k + 1, j => if childCount N n k j = 1 then settle N n k (j * N) else .node k j

/-- One level down: the member at position `s.1` of a group with `s.2` siblings. -/
def Spot.down (N n : ℕ) (s : UInt8 × UInt8) : Spot → Spot
  | leaf j => if s.2.toNat = 0 then leaf j else inside
  | node k j =>
      if s.2.toNat = 0 then node k j
      else if s.2.toNat + 1 = childCount N n k j then settle N n k (j * N + s.1.toNat)
      else nowhere
  | inside => inside
  | nowhere => nowhere

/-- The path through the tree over `n` leaves, from the root down to the first step. -/
def walk (N n : ℕ) : List (UInt8 × UInt8) → Spot
  | [] => settle N n (Nat.clog N n) 0
  | s :: rest => (walk N n rest).down N n s

/-- The values the hashes of a proof may have at a spot of the tree over `L`. -/
def Spot.Admits (N : ℕ) (h : List Hash → Hash) (L : List Hash) : Spot → Hash → Prop
  | leaf j, y => L[j]? = some y
  | node k j, y => 2 ≤ childCount N L.length k j ∧
      y = h (LeanTree.group N (LeanTree.level N h L k) j)
  | inside, _ => True
  | nowhere, _ => False

section Walk

variable {h : List Hash → Hash} {L : List Hash}

theorem length_group_level (hN : 2 ≤ N) (k j : ℕ) :
    (LeanTree.group N (LeanTree.level N h L k) j).length = childCount N L.length k j := by
  rw [LeanTree.length_group, LeanTree.length_level (by omega), childCount]

theorem childCount_pos (hN : 2 ≤ N) {n k j : ℕ} (hj : j * N ^ (k + 1) < n) :
    1 ≤ childCount N n k j := by
  have h1 : j * N < n ⌈/⌉ N ^ k := by
    rw [LeanTree.lt_ceilDiv_iff (Nat.pow_pos (by omega)), Nat.mul_assoc, ← Nat.pow_succ']
    exact hj
  rw [childCount, Nat.le_min]
  omega

/-- The value of a node is a value of the spot it settles at, and the only one. -/
theorem settle_admits (hN : 2 ≤ N) (k : ℕ) :
    ∀ (j : ℕ) (y : Hash), j * N ^ k < L.length →
      ((settle N L.length k j).Admits N h L y ↔ (LeanTree.level N h L k)[j]? = some y) := by
  induction k with
  | zero => intro j y _; rfl
  | succ k ih =>
      intro j y hj
      have hlen := length_group_level (h := h) (L := L) hN k j
      have hpos := childCount_pos hN hj
      rw [LeanTree.getElem?_level_succ (by omega) _ hj, settle]
      split_ifs with h1
      · obtain ⟨a, ha⟩ := List.length_eq_one_iff.mp (hlen.trans h1)
        have h0 := LeanTree.getElem?_group (LeanTree.level N h L k) (j := j) (show 0 < N by omega)
        rw [ha, List.getElem?_cons_zero, Nat.add_zero] at h0
        have hj' : j * N * N ^ k < L.length := by rwa [Nat.mul_assoc, ← Nat.pow_succ']
        rw [ih (j * N) y hj', ha, LeanTree.combine_singleton, ← h0]
      · rw [LeanTree.combine_of_two_le (by omega), Option.some.injEq]
        exact ⟨fun hy => hy.2.symm, fun hy => ⟨by omega, hy.symm⟩⟩

theorem member_lt (hN : 2 ≤ N) {n k j pos : ℕ} (hpos : pos < childCount N n k j) :
    (j * N + pos) * N ^ k < n := by
  rw [childCount, Nat.lt_min] at hpos
  exact (LeanTree.lt_ceilDiv_iff (Nat.pow_pos (by omega))).mp (by omega)

theorem settle_ne (n k : ℕ) :
    ∀ j, settle N n k j ≠ .inside ∧ settle N n k j ≠ .nowhere := by
  induction k with
  | zero => intro j; exact ⟨nofun, nofun⟩
  | succ k ih =>
      intro j
      rw [settle]
      split_ifs with h1
      · exact ih (j * N)
      · exact ⟨nofun, nofun⟩

/-- One level down, the value below is one of the spot below: here the hash is injective. -/
theorem Spot.Admits.down {H : Hasher Hash} (hN : 2 ≤ N)
    (hinj : LeanTree.InjectiveOn H.hashChildren N) {spot : Spot} {l : ProofLevel Hash N}
    (hfit : StepFits N l.step) {y : Hash}
    (hy : spot.Admits N H.hashChildren L (l.parentOf H y)) :
    (spot.down N L.length l.step).Admits N H.hashChildren L y := by
  unfold ProofLevel.parentOf at hy
  cases spot with
  | leaf j =>
      unfold Spot.down
      split_ifs with h0
      · rwa [if_pos (show l.siblingCount.toNat = 0 from h0)] at hy
      · trivial
  | node k j =>
      rw [Spot.down]
      by_cases h0 : l.step.2.toNat = 0
      · rw [if_pos h0]
        rwa [if_pos (show l.siblingCount.toNat = 0 from h0)] at hy
      · rw [if_neg h0]
        rw [if_neg (show ¬ l.siblingCount.toNat = 0 from h0)] at hy
        have hsc : 0 < l.siblingCount.toNat := Nat.pos_of_ne_zero h0
        obtain ⟨h2, heq⟩ := hy
        obtain ⟨hle, hpos⟩ := hfit hsc
        have hal := ProofLevel.length_around hfit hsc y
        have hgl := length_group_level (h := H.hashChildren) (L := L) hN k j
        have hcc : childCount N L.length k j ≤ N := min_le_left _ _
        have hag := hinj _ _ (by omega) (by rw [hal]; exact hle) (by omega) (by omega) heq
        have hcount : l.step.2.toNat + 1 = childCount N L.length k j := by
          rw [← hgl, ← hag, hal]
          rfl
        rw [if_pos hcount, settle_admits hN k _ y (member_lt hN (by omega)),
          ← LeanTree.getElem?_group _ (by omega), ← hag]
        exact ProofLevel.getElem?_around hfit hsc y
  | inside => trivial
  | nowhere => exact hy.elim

/-- **Soundness of the walk.**  If the hashes of a proof lead from `y` to the root, then `y` is a
value of the spot the walk ends at. -/
theorem walk_admits {H : Hasher Hash} (hN : 2 ≤ N)
    (hinj : LeanTree.InjectiveOn H.hashChildren N) (hL : L ≠ []) (ls : List (ProofLevel Hash N)) :
    ∀ y, (∀ l ∈ ls, StepFits N l.step) →
      LeanTree.root N H.hashChildren L = some (ascend H ls y) →
      (walk N L.length (ls.map ProofLevel.step)).Admits N H.hashChildren L y := by
  induction ls with
  | nil =>
      intro y _ hr
      have hpos : 0 * N ^ Nat.clog N L.length < L.length := by
        rw [Nat.zero_mul]; exact List.length_pos_iff.mpr hL
      rw [LeanTree.root, List.head?_eq_getElem?] at hr
      exact (settle_admits hN _ 0 y hpos).mpr hr
  | cons l ls ih =>
      intro y hfit hr
      exact Spot.Admits.down hN hinj (hfit l (by simp))
        (ih (l.parentOf H y) (fun l' hl' => hfit l' (by simp [hl'])) hr)

/-! ### Forging along a walk -/

/-- A walk that can be matched ends where there is a value. -/
theorem exists_admits (hN : 2 ≤ N) (hL : L ≠ []) (ss : List (UInt8 × UInt8)) :
    (∀ s ∈ ss, StepFits N s) → walk N L.length ss ≠ .nowhere →
      ∃ y, (walk N L.length ss).Admits N h L y := by
  have hsettle : ∀ k j, j * N ^ k < L.length → ∃ y, (settle N L.length k j).Admits N h L y := by
    intro k j hj
    have hlt := (LeanTree.lt_length_level (h := h) (by omega) L k j).mpr hj
    exact ⟨_, (settle_admits hN k j _ hj).mpr (List.getElem?_eq_getElem hlt)⟩
  induction ss with
  | nil =>
      intro _ _
      exact hsettle _ 0 (by rw [Nat.zero_mul]; exact List.length_pos_iff.mpr hL)
  | cons s ss ih =>
      intro hfit hne
      rw [walk] at hne ⊢
      have ih' := ih fun s' hs' => hfit s' (by simp [hs'])
      cases hw : walk N L.length ss with
      | leaf j =>
          rw [hw] at ih'
          obtain ⟨y, hy⟩ := ih' nofun
          rw [Spot.down]
          split_ifs with h0
          · exact ⟨y, hy⟩
          · exact ⟨y, trivial⟩
      | node k j =>
          rw [hw] at ih' hne
          rw [Spot.down] at hne ⊢
          split_ifs at hne ⊢ with h0 h1
          · exact ih' nofun
          · have hpos := (hfit s (by simp) (Nat.pos_of_ne_zero h0)).2
            exact hsettle k _ (member_lt hN (by omega))
          · exact absurd rfl hne
      | inside =>
          rw [hw] at ih'
          exact ih' nofun
      | nowhere => rw [hw] at hne; exact absurd rfl hne

/-- One level up: a value of the spot below is the member of a group that gives one above. -/
theorem Spot.Admits.up [Zero Hash] {H : Hasher Hash} (hN : 2 ≤ N) {spot : Spot} {s : UInt8 × UInt8}
    (hfit : StepFits N s) {y : Hash} (hin : spot.down N L.length s ≠ .inside)
    (hy : (spot.down N L.length s).Admits N H.hashChildren L y) :
    ∃ l : ProofLevel Hash N, l.step = s ∧ spot.Admits N H.hashChildren L (l.parentOf H y) := by
  cases spot with
  | leaf j =>
      rw [Spot.down] at hy hin
      split_ifs at hy hin with h0
      · refine ⟨⟨s.1, s.2, fun _ => 0⟩, rfl, ?_⟩
        rw [ProofLevel.parentOf, if_pos h0]
        exact hy
      · exact absurd rfl hin
  | node k j =>
      rw [Spot.down] at hy
      split_ifs at hy with h0 h1
      · refine ⟨⟨s.1, s.2, fun _ => 0⟩, rfl, ?_⟩
        rw [ProofLevel.parentOf, if_pos h0]
        exact hy
      · obtain ⟨hle, hpos⟩ := hfit (Nat.pos_of_ne_zero h0)
        have hgl := length_group_level (h := H.hashChildren) (L := L) hN k j
        rw [settle_admits hN k _ y (member_lt hN (by omega)),
          ← LeanTree.getElem?_group _ (show s.1.toNat < N by omega)] at hy
        refine ⟨⟨s.1, s.2, FixedArray.padded
          ((LeanTree.group N (LeanTree.level N H.hashChildren L k) j).eraseIdx s.1.toNat)⟩, rfl, ?_⟩
        rw [ProofLevel.parentOf, if_neg h0, ProofLevel.around_eraseIdx (by omega) (by omega) hy]
        exact ⟨by omega, rfl⟩
      · exact hy.elim
  | inside => exact absurd rfl hin
  | nowhere => exact hy.elim

/-- Along a walk that stays in the tree, a value of its end leads to the root. -/
theorem exists_ascend [Zero Hash] {H : Hasher Hash} (hN : 2 ≤ N) (hL : L ≠ [])
    (ss : List (UInt8 × UInt8)) :
    ∀ y, (∀ s ∈ ss, StepFits N s) → walk N L.length ss ≠ .inside →
      (walk N L.length ss).Admits N H.hashChildren L y →
      ∃ ls : List (ProofLevel Hash N), ls.map ProofLevel.step = ss ∧
        LeanTree.root N H.hashChildren L = some (ascend H ls y) := by
  induction ss with
  | nil =>
      intro y _ _ hy
      have hpos : 0 * N ^ Nat.clog N L.length < L.length := by
        rw [Nat.zero_mul]; exact List.length_pos_iff.mpr hL
      refine ⟨[], rfl, ?_⟩
      rw [LeanTree.root, List.head?_eq_getElem?]
      exact (settle_admits hN _ 0 y hpos).mp hy
  | cons s ss ih =>
      intro y hfit hin hy
      obtain ⟨l, hl, hy'⟩ := Spot.Admits.up hN (hfit s (by simp)) hin hy
      have hin' : walk N L.length ss ≠ .inside := by
        intro h
        rw [walk, h] at hin
        exact hin rfl
      obtain ⟨ls, hls, hr⟩ := ih _ (fun s' hs' => hfit s' (by simp [hs'])) hin' hy'
      exact ⟨l :: ls, by rw [List.map_cons, hl, hls], hr⟩

/-- A walk that ends inside a leaf reached that leaf, and then met a level with siblings. -/
theorem walk_inside {n : ℕ} (ss : List (UInt8 × UInt8)) (hw : walk N n ss = .inside) :
    ∃ inner s outer j, ss = inner ++ s :: outer ∧ walk N n outer = .leaf j ∧ s.2.toNat ≠ 0 := by
  induction ss with
  | nil => exact absurd hw (settle_ne n _ 0).1
  | cons s ss ih =>
      rw [walk] at hw
      cases hws : walk N n ss with
      | leaf j =>
          rw [hws, Spot.down] at hw
          split_ifs at hw with h0
          exact ⟨[], s, ss, j, rfl, hws, h0⟩
      | node k j =>
          rw [hws, Spot.down] at hw
          split_ifs at hw with h0 h1
          exact absurd hw (settle_ne n k _).1
      | inside =>
          obtain ⟨inner, s', outer, j, hss, hout, hs'⟩ := ih hws
          exact ⟨s :: inner, s', outer, j, by rw [hss]; rfl, hout, hs'⟩
      | nowhere => rw [hws] at hw; cases hw

theorem ascend_append (H : Hasher Hash) (ls ls' : List (ProofLevel Hash N)) (y : Hash) :
    ascend H (ls ++ ls') y = ascend H ls' (ascend H ls y) := by
  induction ls generalizing y with
  | nil => rfl
  | cons l ls ih => exact ih _

end Walk

/-! ### A tree of terms

Natural numbers as hashes: even numbers are the leaves, and a node is the odd number that
encodes its children. -/

/-- An injective hash: the code of the list, made odd. -/
def nodeHash (children : List ℕ) : ℕ := 2 * Encodable.encode children + 1

theorem nodeHash_injective : Function.Injective nodeHash := by
  intro a b hab
  unfold nodeHash at hab
  exact Encodable.encode_injective (show Encodable.encode a = Encodable.encode b by omega)

theorem nodeHash_injectiveOn : LeanTree.InjectiveOn nodeHash N :=
  fun _ _ _ _ _ _ hab => nodeHash_injective hab

theorem nodeHash_ne_even (children : List ℕ) (m : ℕ) : nodeHash children ≠ 2 * m := by
  unfold nodeHash; omega

/-- The leaves `0, 2, 4, …`. -/
def evens (n : ℕ) : List ℕ := (List.range n).map (2 * ·)

theorem getElem?_evens {n i : ℕ} (hi : i < n) : (evens n)[i]? = some (2 * i) := by
  simp [evens, hi]

@[simp] theorem length_evens (n : ℕ) : (evens n).length = n := by simp [evens]

/-- A level with the given step and no hashes in it. -/
def blankLevel (s : UInt8 × UInt8) : ProofLevel ℕ N := ⟨s.1, s.2, fun _ => 0⟩

theorem map_step_blankLevel (ss : List (UInt8 × UInt8)) :
    (ss.map (blankLevel : _ → ProofLevel ℕ N)).map ProofLevel.step = ss := by
  rw [List.map_map]
  exact List.map_id ss

theorem parentOf_blankLevel {s : UInt8 × UInt8} (hs : s.2.toNat ≠ 0) (y : ℕ) :
    ∃ g, (blankLevel s : ProofLevel ℕ N).parentOf (Hasher.scalar nodeHash) y = nodeHash g :=
  ⟨(blankLevel s : ProofLevel ℕ N).around y, if_neg hs⟩

/-- **Forgery.**  A walk that ends anywhere else than at leaf `i` is the shape of a proof that
leads from a wrong leaf to the root. -/
theorem exists_forgery (hN : 2 ≤ N) {n i : ℕ} (hi : i < n) {ss : List (UInt8 × UInt8)}
    (hfit : ∀ s ∈ ss, StepFits N s) (hnow : walk N n ss ≠ .nowhere)
    (hleaf : walk N n ss ≠ .leaf i) :
    ∃ (L : List ℕ) (ls : List (ProofLevel ℕ N)) (y : ℕ), L.length = n ∧
      ls.map ProofLevel.step = ss ∧
      LeanTree.root N nodeHash L = some (ascend (Hasher.scalar nodeHash) ls y) ∧
      L[i]? ≠ some y := by
  have hlen := length_evens n
  have hne : evens n ≠ [] := List.length_pos_iff.mp (by omega)
  by_cases hin : walk N n ss = .inside
  · obtain ⟨inner, s, outer, j, hss, hout, hs⟩ := walk_inside ss hin
    have hfit' : ∀ s ∈ outer, StepFits N s := fun s' hs' => hfit s' (by rw [hss]; simp [hs'])
    obtain ⟨z, hz⟩ := exists_admits (h := nodeHash) (L := evens n) hN hne outer hfit'
      (by rw [hlen, hout]; nofun)
    rw [hlen, hout] at hz
    have hj : j < n := by
      have := (List.getElem?_eq_some_iff.mp hz).1
      omega
    obtain ⟨C, hC⟩ : ∃ C, C = ascend (Hasher.scalar nodeHash)
      ((inner ++ [s]).map (blankLevel : _ → ProofLevel ℕ N)) (2 * n) := ⟨_, rfl⟩
    obtain ⟨ls, hls, hr⟩ := exists_ascend (H := Hasher.scalar nodeHash) (L := (evens n).set j C) hN
      (by rw [← List.length_pos_iff, List.length_set]; omega) outer C hfit'
      (by rw [List.length_set, hlen, hout]; nofun)
      (by rw [List.length_set, hlen, hout]; exact List.getElem?_set_self (by omega))
    refine ⟨(evens n).set j C, (inner ++ [s]).map blankLevel ++ ls, 2 * n, by simp, ?_, ?_, ?_⟩
    · rw [List.map_append, map_step_blankLevel, hls, hss]
      simp
    · rw [ascend_append, ← hC]
      exact hr
    · rcases eq_or_ne j i with hji | hji
      · rw [hji, List.getElem?_set_self (by omega), hC, List.map_append, ascend_append]
        intro h
        obtain ⟨g, hg⟩ := parentOf_blankLevel (N := N) hs
          (ascend (Hasher.scalar nodeHash) (inner.map blankLevel) (2 * n))
        exact nodeHash_ne_even g n (hg.symm.trans (Option.some.inj h))
      · rw [List.getElem?_set_ne hji, getElem?_evens hi]
        intro h
        have := Option.some.inj h
        omega
  · obtain ⟨y, hy⟩ := exists_admits (h := nodeHash) (L := evens n) hN hne ss hfit
      (by rw [hlen]; exact hnow)
    obtain ⟨ls, hls, hr⟩ := exists_ascend (H := Hasher.scalar nodeHash) hN hne ss y hfit
      (by rw [hlen]; exact hin) hy
    refine ⟨evens n, ls, y, hlen, hls, hr, ?_⟩
    rw [getElem?_evens hi]
    intro h
    rw [hlen] at hy
    cases hw : walk N n ss with
    | leaf j =>
        rw [hw] at hy hleaf
        have hj : j < n := by
          have := (List.getElem?_eq_some_iff.mp hy).1
          omega
        have : (evens n)[j]? = some y := hy
        rw [getElem?_evens hj, ← h, Option.some.injEq] at this
        exact hleaf (by rw [show j = i by omega])
    | node k j =>
        rw [hw] at hy
        exact nodeHash_ne_even _ _ (hy.2.symm.trans (Option.some.inj h).symm)
    | inside => exact hin hw
    | nowhere => exact hnow hw

/-! ### Shapes -/

/-- A proof without its hashes. -/
structure ProofShape (MAX_DEPTH : ℕ) where
  leafIndex : ℕ
  treeSize : ℕ
  levelCount : ℕ
  steps : Fin MAX_DEPTH → UInt8 × UInt8

namespace ProofShape

/-- The steps of the levels a proof uses. -/
def used (σ : ProofShape MAX_DEPTH) : List (UInt8 × UInt8) :=
  (List.ofFn σ.steps).take σ.levelCount

/-- The checks of `verify` on the shape. -/
def Accepted (N : ℕ) (σ : ProofShape MAX_DEPTH) : Prop :=
  σ.leafIndex < σ.treeSize ∧ σ.treeSize < U64_SIZE ∧ σ.levelCount = Nat.clog N σ.treeSize ∧
    σ.levelCount ≤ MAX_DEPTH ∧ StepsFit N σ.leafIndex σ.used

/-- The path of the shape cannot be matched, or ends at leaf `leaf_index`. -/
def WalksToLeaf (N : ℕ) (σ : ProofShape MAX_DEPTH) : Prop :=
  walk N σ.treeSize σ.used = .nowhere ∨ walk N σ.treeSize σ.used = .leaf σ.leafIndex

instance (σ : ProofShape MAX_DEPTH) : Decidable (σ.Accepted N) :=
  inferInstanceAs (Decidable (_ ∧ _ ∧ _ ∧ _ ∧ _))

instance (σ : ProofShape MAX_DEPTH) : Decidable (σ.WalksToLeaf N) :=
  inferInstanceAs (Decidable (_ ∨ _))

end ProofShape

/-- The shape of a proof. -/
def NaryProof.shape (p : NaryProof Hash N MAX_DEPTH) : ProofShape MAX_DEPTH :=
  ⟨p.leafIndex, p.treeSize, p.levelCount, fun k => (p.levels k).step⟩

theorem NaryProof.used_shape (p : NaryProof Hash N MAX_DEPTH) :
    p.shape.used = p.used.map ProofLevel.step := by
  unfold ProofShape.used NaryProof.shape NaryProof.used
  rw [List.map_take, List.map_ofFn]
  rfl

theorem StepsFit.all {index : ℕ} {ss : List (UInt8 × UInt8)} (h : StepsFit N index ss) :
    ∀ s ∈ ss, StepFits N s := by
  induction ss generalizing index with
  | nil => intro s hs; cases hs
  | cons a ss ih =>
      intro s hs
      obtain ⟨-, h2, h3⟩ := h
      rcases List.mem_cons.mp hs with rfl | hs
      · exact h2
      · exact ih h3 s hs

/-- The inclusion claim for proofs of one shape: over any type of hashes, any injective hasher and
any tree with the size and the root of the proof, an accepted proof carries the leaf. -/
def SoundAt (N : ℕ) (σ : ProofShape MAX_DEPTH) : Prop :=
  ∀ (Hash : Type) [Zero Hash] [DecidableEq Hash] (fs : ShardFs Hash) (H : Hasher Hash),
    H.Lawful → LeanTree.InjectiveOn H.hashChildren N →
    ∀ (cs : List (Call Hash)) (p : NaryProof Hash N MAX_DEPTH), p.shape = σ →
      (after fs H cs : TreeInner Hash N MAX_DEPTH).root = some p.root →
      (accepted N MAX_DEPTH cs).length = p.treeSize →
      p.verify H = .ok true → (accepted N MAX_DEPTH cs)[p.leafIndex]? = some p.leaf

theorem soundAt_of_walksToLeaf (hN : 2 ≤ N) (hD : 1 ≤ MAX_DEPTH) {σ : ProofShape MAX_DEPTH}
    (hσ : σ.Accepted N → σ.WalksToLeaf N) : SoundAt N σ := by
  intro Hash _ _ fs H hH hinj cs p hp hroot hsize hv
  subst hp
  obtain ⟨⟨h1, -, h3, h4, h5⟩, hasc⟩ := (verify_eq_true_iff hN p).mp hv
  have hne : accepted N MAX_DEPTH cs ≠ [] := List.length_pos_iff.mp (by omega)
  rw [(after_refines hH hN hD cs).root, ← hasc] at hroot
  have hadm := walk_admits hN hinj hne p.used p.leaf
    (fun l hl => h5.all l.step (List.mem_map_of_mem hl)) hroot
  have hacc : p.shape.Accepted N := ⟨h1, by
    rw [← show _ = p.shape.treeSize from hsize]
    exact (accepted_fits cs).size, h3, h4, by rw [p.used_shape]; exact h5⟩
  rw [hsize, ← p.used_shape] at hadm
  rcases hσ hacc with hw | hw
  · rw [show walk N p.treeSize p.shape.used = .nowhere from hw] at hadm
    exact hadm.elim
  · rw [show walk N p.treeSize p.shape.used = .leaf p.leafIndex from hw] at hadm
    exact hadm

/-- One batch builds the tree over any leaves that fit. -/
theorem accepted_batch {L : List Hash} (hne : L ≠ []) (hfit : Fits N MAX_DEPTH L) :
    accepted N MAX_DEPTH [.insertMany (fun _ _ => false) L] = L := by
  have hc : ¬ (Call.insertMany (fun _ _ => false) L).TurnedDown N MAX_DEPTH 0 := by
    simp only [Call.TurnedDown, Call.leaves, not_or, not_le, not_lt, Nat.zero_add]
    exact ⟨hne, hfit.size, hfit.depth⟩
  exact if_neg hc

/-- A proof with the given shape and, where it is used, the given levels. -/
def forge (σ : ProofShape MAX_DEPTH) (root leaf : ℕ) (ls : List (ProofLevel ℕ N)) :
    NaryProof ℕ N MAX_DEPTH where
  root := root
  leaf := leaf
  leafIndex := σ.leafIndex
  treeSize := σ.treeSize
  levelCount := σ.levelCount
  levels k := ⟨(σ.steps k).1, (σ.steps k).2, ((ls[k.val]?).map ProofLevel.siblings).getD fun _ => 0⟩

theorem used_forge {σ : ProofShape MAX_DEPTH} (root leaf : ℕ) {ls : List (ProofLevel ℕ N)}
    (hls : ls.map ProofLevel.step = σ.used) : (forge σ root leaf ls).used = ls := by
  have hlen : ls.length = σ.used.length := by rw [← hls, List.length_map]
  apply List.ext_getElem?
  intro k
  have hstep : (ls.map ProofLevel.step)[k]? = σ.used[k]? := by rw [hls]
  unfold ProofShape.used at hstep hlen
  rw [List.length_take, List.length_ofFn] at hlen
  unfold NaryProof.used forge
  dsimp only
  rcases Nat.lt_or_ge k ls.length with hk | hk
  · rw [List.getElem?_take_of_lt (by omega), List.getElem?_ofFn, dif_pos (by omega), List.getElem?_map,
      List.getElem?_eq_getElem hk, Option.map_some, Option.some.injEq] at hstep
    rw [List.getElem?_take_of_lt (by omega), List.getElem?_ofFn, dif_pos (by omega),
      List.getElem?_eq_getElem hk, Option.map_some, Option.getD_some, ← hstep]
    rfl
  · rw [List.getElem?_eq_none hk, List.getElem?_eq_none (by simp; omega)]

/-- **When an accepted inclusion proof shows its leaf.**  For the proofs of one shape this holds
exactly when the shape fails a check, cannot be matched, or leads to leaf `leaf_index`. -/
theorem soundAt_iff (hN : 2 ≤ N) (hD : 1 ≤ MAX_DEPTH) (σ : ProofShape MAX_DEPTH) :
    SoundAt N σ ↔ (σ.Accepted N → σ.WalksToLeaf N) := by
  refine ⟨?_, soundAt_of_walksToLeaf hN hD⟩
  intro hsound hacc
  by_contra hw
  obtain ⟨hi, hsize, hcount, hdepth, hfit⟩ := hacc
  obtain ⟨hnow, hleaf⟩ := not_or.mp hw
  obtain ⟨L, ls, y, hlen, hls, hr, hne⟩ := exists_forgery hN hi hfit.all hnow hleaf
  have hL : L ≠ [] := List.length_pos_iff.mp (by omega)
  have hacc := accepted_batch hL (⟨by omega, by rw [hlen]; omega⟩ : Fits N MAX_DEPTH L)
  have hused := used_forge (ascend (Hasher.scalar nodeHash) ls y) y hls
  have hroot : (after (fun _ _ _ => 0) (Hasher.scalar nodeHash)
      [.insertMany (fun _ _ => false) L] : TreeInner ℕ N MAX_DEPTH).root =
      some (ascend (Hasher.scalar nodeHash) ls y) := by
    rw [(after_refines (Hasher.scalar_lawful _) hN hD _).root, hacc]
    exact hr
  have := hsound ℕ (fun _ _ _ => 0) (Hasher.scalar nodeHash) (Hasher.scalar_lawful _)
    nodeHash_injectiveOn [.insertMany (fun _ _ => false) L]
    (forge σ (ascend (Hasher.scalar nodeHash) ls y) y ls) rfl hroot (by rw [hacc, hlen]; rfl)
    ((verify_eq_true_iff hN _).mpr ⟨⟨hi, hi.trans hsize, hcount, hdepth, by
      rw [hused, hls]; exact hfit⟩, by rw [hused]; rfl⟩)
  rw [hacc] at this
  exact hne this

/-- In a binary tree of two leaves, a proof of leaf `0` is sound with one sibling and is not with
none. -/
theorem soundAt_iff_binary :
    SoundAt 2 (⟨0, 2, 1, fun _ => (0, 1)⟩ : ProofShape 1) ∧
      ¬ SoundAt 2 (⟨0, 2, 1, fun _ => (0, 0)⟩ : ProofShape 1) :=
  ⟨(soundAt_iff (by decide) (by decide) _).mpr (by decide),
    fun h => absurd ((soundAt_iff (by decide) (by decide) _).mp h) (by decide)⟩

/-- The root of the tree over `0` and `2`, passed off as leaf `0` by a level without siblings. -/
def rootAsLeaf : NaryProof ℕ 2 1 :=
  ⟨nodeHash [0, 2], nodeHash [0, 2], 0, 2, 1, fun _ => ⟨0, 0, fun _ => 0⟩⟩

theorem verify_rootAsLeaf :
    LeanTree.InjectiveOn (Hasher.scalar nodeHash).hashChildren 2 ∧
    (after (fun _ _ _ => 0) (Hasher.scalar nodeHash) [.insert 0, .insert 2] : TreeInner ℕ 2 1).root =
      some rootAsLeaf.root ∧
    (accepted 2 1 [.insert 0, .insert 2]).length = rootAsLeaf.treeSize ∧
    rootAsLeaf.verify (Hasher.scalar nodeHash) = .ok true ∧
    (accepted 2 1 [.insert 0, .insert 2])[rootAsLeaf.leafIndex]? ≠ some rootAsLeaf.leaf := by
  refine ⟨nodeHash_injectiveOn, ?_, by decide, ?_, by decide⟩
  · rw [(after_refines (Hasher.scalar_lawful _) (by decide) (by decide) _).root]
    rfl
  · rw [verify_eq_true_iff (by decide)]
    decide

end Works.Rotortree
