import Works.Rotortree.TreeSpec

/-! # Sequences of calls

A tree is used through calls of `insert` and `insert_many`; some fail.  `after` is the tree a
sequence of calls leads to from the empty tree, and `accepted` the leaves of the calls that did
not fail, in order.  One call from any tree that refines a list either is turned down, with
the tree as it was, or leads to the tree that refines the longer list (`Call.run_spec`);
over a whole sequence the tree is the reference tree over the accepted leaves. -/

namespace Works.Rotortree

open Works.Lib

variable {Hash : Type} {N MAX_DEPTH : ℕ}

/-- A call on the tree; a batch comes with the path its levels take. -/
inductive Call (Hash : Type) where
  | insert (leaf : Hash)
  | insertMany (par : ℕ → ℕ → Bool) (leaves : List Hash)

namespace Call

/-- The leaves a call brings. -/
def leaves : Call Hash → List Hash
  | insert leaf => [leaf]
  | insertMany _ leaves => leaves

/-- The code of a call. -/
def run [Zero Hash] (fs : ShardFs Hash) (H : Hasher Hash) : Call Hash → TreeM Hash N MAX_DEPTH Hash
  | insert leaf => Works.Rotortree.insert fs H leaf
  | insertMany par leaves => Works.Rotortree.insertMany fs H par leaves

/-- A call on a tree of `n` leaves brings nothing, or more than fits. -/
def TurnedDown (N MAX_DEPTH n : ℕ) (c : Call Hash) : Prop :=
  c.leaves = [] ∨ U64_SIZE ≤ n + c.leaves.length ∨ MAX_DEPTH < Nat.clog N (n + c.leaves.length)

instance (n : ℕ) (c : Call Hash) : Decidable (TurnedDown N MAX_DEPTH n c) :=
  haveI : Decidable (c.leaves = []) := decidable_of_iff (c.leaves.isEmpty = true) List.isEmpty_iff
  inferInstanceAs (Decidable (_ ∨ _ ∨ _))

end Call

/-- The tree after a sequence of calls. -/
def after [Zero Hash] (fs : ShardFs Hash) (H : Hasher Hash) (cs : List (Call Hash)) :
    TreeInner Hash N MAX_DEPTH :=
  cs.foldl (fun t c => (c.run fs H t).2) TreeInner.new

/-- The leaves of the calls that are not turned down. -/
def accepted (N MAX_DEPTH : ℕ) (cs : List (Call Hash)) : List Hash :=
  cs.foldl (fun L c => if c.TurnedDown N MAX_DEPTH L.length then L else L ++ c.leaves) []

variable [Zero Hash] {fs : ShardFs Hash} {H : Hasher Hash} {L : List Hash}
variable {t : TreeInner Hash N MAX_DEPTH}

theorem after_concat (cs : List (Call Hash)) (c : Call Hash) :
    (after fs H (cs ++ [c]) : TreeInner Hash N MAX_DEPTH) = (c.run fs H (after fs H cs)).2 := by
  simp [after]

omit [Zero Hash] in
theorem accepted_concat (cs : List (Call Hash)) (c : Call Hash) :
    accepted N MAX_DEPTH (cs ++ [c]) =
      if c.TurnedDown N MAX_DEPTH (accepted N MAX_DEPTH cs).length then accepted N MAX_DEPTH cs
      else accepted N MAX_DEPTH cs ++ c.leaves := by
  unfold accepted
  rw [List.foldl_append]
  rfl

theorem insert_of_turnedDown (hN : 2 ≤ N) (x : Hash)
    (hc : U64_SIZE ≤ t.size + 1 ∨ MAX_DEPTH < Nat.clog N (t.size + 1)) :
    ∃ e, insert fs H x t = (.fail e, t) := by
  unfold insert
  rw [Exec.bind_of_ok (Exec.get_apply t)]
  rcases Nat.lt_or_ge (t.size + 1) U64_SIZE with hsize | hsize
  · rw [Exec.bind_of_ok (by rw [Exec.lift_apply, checkedAdd_of_lt hsize]), ceilLogN_eq_clog hN,
      if_pos (by omega)]
    exact ⟨_, rfl⟩
  · rw [checkedAdd_of_ge hsize]
    exact ⟨_, rfl⟩

theorem insertMany_of_turnedDown (hN : 2 ≤ N) (par : ℕ → ℕ → Bool) (xs : List Hash)
    (hc : xs = [] ∨ U64_SIZE ≤ t.size + xs.length ∨ MAX_DEPTH < Nat.clog N (t.size + xs.length)) :
    ∃ e, insertMany fs H par xs t = (.fail e, t) := by
  unfold insertMany
  split_ifs with hne
  · exact ⟨_, rfl⟩
  · rw [List.isEmpty_iff] at hne
    rw [Exec.bind_of_ok (Exec.get_apply t)]
    rcases Nat.lt_or_ge (t.size + xs.length) U64_SIZE with hsize | hsize
    · rw [Exec.bind_of_ok (by rw [Exec.lift_apply, checkedAdd_of_lt hsize]), ceilLogN_eq_clog hN,
        if_pos (by rcases hc with hc | hc | hc <;> first | contradiction | omega)]
      exact ⟨_, rfl⟩
    · rw [checkedAdd_of_ge hsize]
      exact ⟨_, rfl⟩

/-- A call that is turned down returns an error and leaves the tree as it was. -/
theorem Call.run_of_turnedDown (hN : 2 ≤ N) {c : Call Hash}
    (hc : c.TurnedDown N MAX_DEPTH t.size) : ∃ e, c.run fs H t = (.fail e, t) := by
  cases c with
  | insert leaf =>
      apply insert_of_turnedDown hN leaf
      rcases hc with hc | hc
      · cases hc
      · exact hc
  | insertMany par leaves => exact insertMany_of_turnedDown hN par leaves hc

/-- **One call.**  It is turned down, or leads to the tree over the leaves it adds. -/
theorem Call.run_spec (hH : H.Lawful) (hN : 2 ≤ N) (hD : 1 ≤ MAX_DEPTH) (ht : Near fs H t L)
    {c : Call Hash} (hc : ¬ c.TurnedDown N MAX_DEPTH L.length) :
    ∃ r t', c.run fs H t = (.ok r, t') ∧
      LeanTree.root N H.hashChildren (L ++ c.leaves) = some r ∧ Refines fs H t' (L ++ c.leaves) ∧
      t.Derived t' := by
  simp only [Call.TurnedDown, not_or, not_le, not_lt] at hc
  obtain ⟨hne, hsize, hdepth⟩ := hc
  cases c with
  | insert leaf => exact insert_spec hN ht leaf hsize hdepth
  | insertMany par leaves =>
      exact insertMany_spec hH hN hD ht hne (by rw [List.length_append]; exact hsize)
        (by rw [List.length_append]; exact hdepth) par

/-- After any calls the tree is the reference tree over the accepted leaves. -/
theorem after_refines (hH : H.Lawful) (hN : 2 ≤ N) (hD : 1 ≤ MAX_DEPTH) (cs : List (Call Hash)) :
    Refines fs H (after fs H cs : TreeInner Hash N MAX_DEPTH) (accepted N MAX_DEPTH cs) := by
  induction cs using List.reverseRecOn with
  | nil => exact refines_new hN
  | append_singleton cs c ih =>
      rw [after_concat, accepted_concat]
      split_ifs with hc
      · obtain ⟨e, he⟩ : ∃ e, c.run fs H (after fs H cs : TreeInner Hash N MAX_DEPTH) =
            (.fail e, after fs H cs) := Call.run_of_turnedDown hN (ih.size ▸ hc)
        rw [he]
        exact ih
      · obtain ⟨r, t', e, -, href, -⟩ := Call.run_spec hH hN hD (ih.near hN) hc
        rw [e]
        exact href

/-- Trees over the same leaves are the same tree to a reader. -/
structure SameTree (fs : ShardFs Hash) (t t' : TreeInner Hash N MAX_DEPTH) : Prop where
  size : t.size = t'.size
  depth : t.depth = t'.depth
  root : t.root = t'.root
  nodes : ∀ k i, (t.levels k).get fs i = (t'.levels k).get fs i

omit [Zero Hash] in
theorem Refines.sameTree {t' : TreeInner Hash N MAX_DEPTH} (h : Refines fs H t L)
    (h' : Refines fs H t' L) : SameTree fs t t' where
  size := h.size.trans h'.size.symm
  depth := h.depth.trans h'.depth.symm
  root := h.root.trans h'.root.symm
  nodes := fun k i => (h.levels k).get_eq (h'.levels k) i

/-- **Refinement over all call sequences.**  After any sequence of calls the tree is the
reference tree over the accepted leaves, whatever the calls that brought them, and its depth is
the least that suffices.  The next call is turned down with the tree unchanged, exactly when
its batch is empty or does not fit, or returns the root of the tree over all the leaves. -/
theorem calls_refine (hH : H.Lawful) (hN : 2 ≤ N) (hD : 1 ≤ MAX_DEPTH) (cs : List (Call Hash)) :
    Refines fs H (after fs H cs : TreeInner Hash N MAX_DEPTH) (accepted N MAX_DEPTH cs) ∧
    IsLeast {d | (accepted N MAX_DEPTH cs).length ≤ N ^ d}
      (after fs H cs : TreeInner Hash N MAX_DEPTH).depth ∧
    (∀ cs' : List (Call Hash), accepted N MAX_DEPTH cs' = accepted N MAX_DEPTH cs →
      SameTree fs (after fs H cs' : TreeInner Hash N MAX_DEPTH) (after fs H cs)) ∧
    ∀ c : Call Hash,
      (c.TurnedDown N MAX_DEPTH (accepted N MAX_DEPTH cs).length →
        ∃ e, c.run fs H (after fs H cs : TreeInner Hash N MAX_DEPTH) =
          (.fail e, after fs H cs)) ∧
      (¬ c.TurnedDown N MAX_DEPTH (accepted N MAX_DEPTH cs).length →
        ∃ r, c.run fs H (after fs H cs : TreeInner Hash N MAX_DEPTH) =
            (.ok r, after fs H (cs ++ [c])) ∧
          accepted N MAX_DEPTH (cs ++ [c]) = accepted N MAX_DEPTH cs ++ c.leaves ∧
          LeanTree.root N H.hashChildren (accepted N MAX_DEPTH cs ++ c.leaves) = some r) := by
  have href : Refines fs H (after fs H cs : TreeInner Hash N MAX_DEPTH) (accepted N MAX_DEPTH cs) :=
    after_refines hH hN hD cs
  refine ⟨href, ?_, ?_, fun c => ⟨?_, ?_⟩⟩
  · rw [href.depth]
    exact ⟨Nat.le_pow_clog (by omega) _, fun d hd => (Nat.clog_le_iff_le_pow (by omega)).mpr hd⟩
  · intro cs' hcs'
    exact (hcs' ▸ after_refines hH hN hD cs').sameTree href
  · intro hc
    exact Call.run_of_turnedDown hN (href.size ▸ hc)
  · intro hc
    obtain ⟨r, t', e, hr, -, -⟩ := Call.run_spec hH hN hD (href.near hN) hc
    refine ⟨r, ?_, by rw [accepted_concat, if_neg hc], hr⟩
    rw [after_concat, e]

/-- Three leaves in two calls on a binary tree of depth two, the batch on the parallel path. -/
theorem calls_refine_binary :
    Refines (fun _ _ _ => 0) (Hasher.scalar fun g => g.sum + 1)
      (after (fun _ _ _ => 0) (Hasher.scalar fun g => g.sum + 1)
        [.insert 5, .insertMany (fun _ _ => true) [6, 7]] : TreeInner ℕ 2 2) [5, 6, 7] :=
  (calls_refine (Hasher.scalar_lawful _) (by decide) (by decide)
    [.insert 5, .insertMany (fun _ _ => true) [6, 7]]).1

end Works.Rotortree
