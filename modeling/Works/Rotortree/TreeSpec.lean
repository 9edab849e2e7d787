import Works.Rotortree.LevelSpec
import Works.Rotortree.Tree

/-! # The tree refines the reference tree

`Refines fs H t L`: the stored tree is the lean incremental tree over the leaves `L`: its
levels up to the root level are the levels of `LeanTree`, the ones above are empty.  The
insertions need less of the tree they start from: `Near` asks only that every *complete* node
is right, which is also what a tree read back from disk satisfies.  From `Near` over `L` both
insertions lead to `Refines` over `L` and the new leaves, level by level (`Upto`). -/

namespace Works.Rotortree

open Works.Lib ChunkedLevel

variable {Hash : Type} {N MAX_DEPTH : ℕ}

/-! ### Parents of one level -/

section Parents

variable {fs : ShardFs Hash} {H : Hasher Hash} {child : ChunkedLevel Hash} {l : List Hash}

theorem hashWindows_eq (hH : H.Lawful) (gs refs : List (List Hash)) (out : List Hash) :
    hashWindows H gs refs out = out ++ (refs ++ gs).map H.hashChildren := by
  induction gs generalizing refs out with
  | nil =>
      unfold hashWindows
      split_ifs with h
      · rw [List.isEmpty_iff.mp h]; simp
      · rw [hH, List.append_nil]
  | cons g gs ih =>
      unfold hashWindows
      split_ifs with h
      · rw [ih, hH]; simp
      · rw [ih]; simp

theorem chunksExact_eq (l : List Hash) :
    chunksExact N l = (List.range (l.length / N)).map (LeanTree.group N l) := rfl

theorem chunksExact_append (hN : 0 < N) {a b : List Hash} (ha : N ∣ a.length) :
    chunksExact N (a ++ b) = chunksExact N a ++ chunksExact N b := by
  obtain ⟨q, hq⟩ := ha
  have hlen : (a ++ b).length / N = q + b.length / N := by
    rw [List.length_append, hq, Nat.mul_add_div hN]
  have hqa : a.length / N = q := by rw [hq, Nat.mul_div_cancel_left _ hN]
  rw [chunksExact_eq, chunksExact_eq, chunksExact_eq, hlen, hqa, List.range_add, List.map_append,
    List.map_map]
  congr 1
  · apply List.map_congr_left
    intro j hj
    rw [List.mem_range] at hj
    apply LeanTree.group_eq_of_agree
    intro i hi
    rw [List.getElem?_append_left]
    calc j * N + i < j * N + N := by omega
      _ = (j + 1) * N := by rw [Nat.add_mul, Nat.one_mul]
      _ ≤ q * N := Nat.mul_le_mul_right _ hj
      _ = a.length := by rw [hq, Nat.mul_comm]
  · apply List.map_congr_left
    intro j _
    have e : (q + j) * N = a.length + j * N := by rw [hq, Nat.add_mul, Nat.mul_comm q]
    show ((a ++ b).drop ((q + j) * N)).take N = _
    rw [e, List.drop_append, Nat.add_sub_cancel_left, List.drop_of_length_le (by omega),
      List.nil_append]
    rfl

theorem flatMap_chunksExact (hN : 0 < N) {rs : List (List Hash)} (h : ∀ r ∈ rs, N ∣ r.length) :
    rs.flatMap (chunksExact N) = chunksExact N rs.flatten := by
  induction rs with
  | nil => simp [chunksExact]
  | cons r rs ih =>
      rw [List.flatMap_cons, List.flatten_cons, chunksExact_append hN (h r (by simp)),
        ih fun x hx => h x (by simp [hx])]

theorem computeParent_spec [Zero Hash] (hN : 0 < N) (hc : Holds fs child l) {j : ℕ}
    (hj : j * N < l.length) : computeParent fs H N child j l.length =
      .ok (LeanTree.combine H.hashChildren (LeanTree.group N l j)) := by
  have hlen := LeanTree.length_group (N := N) l j
  unfold computeParent
  dsimp only
  rw [Outcome.require_pos (by omega), Outcome.ok_bind]
  split_ifs with h1
  · have hg : LeanTree.group N l j = [l[j * N]] := by
      obtain ⟨a, ha⟩ := List.length_eq_one_iff.mp (show (LeanTree.group N l j).length = 1 by omega)
      have h0 := LeanTree.getElem?_group l (j := j) (i := 0) hN
      rw [ha, Nat.add_zero, List.getElem?_eq_getElem hj] at h0
      simp only [List.length_cons, List.length_nil, Nat.zero_add, Nat.lt_add_one,
        List.getElem?_eq_getElem, List.getElem_cons_zero, Option.some.injEq] at h0
      rw [ha, h0]
    rw [hc.get hj, hg, LeanTree.combine_singleton]
  · have htake : (l.drop (j * N)).take (min (j * N + N) l.length - j * N) = LeanTree.group N l j := by
      rw [LeanTree.group, List.take_eq_take_iff, List.length_drop]
      omega
    rw [hc.getGroup (by omega), Outcome.ok_bind, htake,
      FixedArray.copyFromSlice_of_le _ (by omega) (by omega) (by omega), Outcome.ok_bind,
      FixedArray.slice_of_le _ (by omega) (by omega), Outcome.ok_bind]
    have e : min (j * N + N) l.length - j * N = (LeanTree.group N l j).length := by omega
    rw [e, FixedArray.take_overwrite_zero _ (by omega), LeanTree.combine_of_two_le (by omega)]
    rfl

/-- The full groups that `_compute_parents_batched` hashes in windows. -/
theorem hashWindows_runs (hH : H.Lawful) (hN : 2 ≤ N) {rs : List (List Hash)} {start full : ℕ}
    (hfit : (start + full) * N ≤ l.length)
    (hrs : rs.flatten = (l.drop (start * N)).take (full * N)) (hdvd : ∀ r ∈ rs, N ∣ r.length) :
    hashWindows H (rs.flatMap (chunksExact N)) [] [] =
      (List.range full).map fun i =>
        LeanTree.combine H.hashChildren (LeanTree.group N l (start + i)) := by
  have hlen : rs.flatten.length = full * N := by
    rw [hrs, List.length_take, List.length_drop]
    rw [Nat.add_mul] at hfit
    omega
  rw [hashWindows_eq hH, flatMap_chunksExact (by omega) hdvd, List.nil_append, List.nil_append,
    chunksExact_eq, hlen, Nat.mul_div_cancel _ (by omega), List.map_map]
  apply List.map_congr_left
  intro i hi
  rw [List.mem_range] at hi
  have hin : (i + 1) * N ≤ full * N := Nat.mul_le_mul_right _ hi
  have hg : LeanTree.group N rs.flatten i = LeanTree.group N l (start + i) := by
    apply List.ext_getElem?
    intro c
    rcases Nat.lt_or_ge c N with hcN | hcN
    · rw [LeanTree.getElem?_group _ hcN, LeanTree.getElem?_group _ hcN, hrs,
        List.getElem?_take_of_lt (by rw [Nat.add_mul] at hin; omega), List.getElem?_drop,
        Nat.add_mul, Nat.add_assoc]
    · rw [List.getElem?_eq_none (by rw [LeanTree.length_group]; omega),
        List.getElem?_eq_none (by rw [LeanTree.length_group]; omega)]
  have hfull : (LeanTree.group N l (start + i)).length = N := by
    rw [LeanTree.length_group]
    rw [Nat.add_mul] at hfit hin ⊢
    omega
  rw [Function.comp_apply, hg, LeanTree.combine_of_two_le (by omega)]

theorem computeParentsBatched_spec [Zero Hash] (hH : H.Lawful) (hN : 2 ≤ N)
    (hc : Holds fs child l) {start n : ℕ} (hpos : 0 < n) (hfit : start + n ≤ l.length ⌈/⌉ N) :
    computeParentsBatched fs H N child start l.length n = .ok ((List.range n).map fun i =>
      LeanTree.combine H.hashChildren (LeanTree.group N l (start + i))) := by
  have hin : ∀ i < n, (start + i) * N < l.length := fun i hi =>
    (LeanTree.lt_ceilDiv_iff (by omega)).mp (by omega)
  unfold computeParentsBatched
  dsimp only
  obtain ⟨full, hfull⟩ : ∃ full, full =
    (if CHUNK_SIZE % N = 0 then min (l.length / N - start) n else 0) := ⟨_, rfl⟩
  rw [← hfull]
  have hle : full ≤ n := by rw [hfull]; split_ifs <;> omega
  have hgroups : (start + full) * N ≤ l.length := by
    rcases Nat.eq_zero_or_pos full with h0 | h0
    · rw [h0]; exact (hin 0 hpos).le
    · have : start + full ≤ l.length / N := by
        rw [hfull] at h0 ⊢
        split_ifs at h0 ⊢ <;> omega
      exact (Nat.le_div_iff_mul_le (by omega)).mp this
  obtain ⟨rs, hrs, hflat, hdvd⟩ :=
    hc.runs (show start * N + full * N ≤ l.length by rw [← Nat.add_mul]; exact hgroups)
  have hrun : ∀ r ∈ rs, N ∣ r.length := by
    rcases Nat.eq_zero_or_pos full with h0 | h0
    · intro r hr
      rw [h0, Nat.zero_mul, List.take_zero, List.flatten_eq_nil_iff] at hflat
      rw [hflat r hr]
      simp
    · apply hdvd N _ (Nat.dvd_mul_left _ _) (Nat.dvd_mul_left _ _)
      rw [hfull] at h0
      split_ifs at h0 with h128
      · exact Nat.dvd_of_mod_eq_zero h128
      · omega
  rw [hrs, Outcome.ok_bind, hashWindows_runs hH hN hgroups hflat hrun, List.length_map,
    List.length_range, Outcome.require_pos hle, Outcome.ok_bind,
    Outcome.mapM_ok (g := fun i =>
      LeanTree.combine H.hashChildren (LeanTree.group N l (start + full + i)))]
  · rw [Outcome.ok_bind, Outcome.pure_eq_ok]
    have e : n = full + (n - full) := by omega
    conv_rhs => rw [e, List.range_add, List.map_append, List.map_map]
    congr 2
    apply List.map_congr_left
    intro i _
    rw [Function.comp_apply, Nat.add_assoc]
  · intro i hi
    rw [List.mem_range] at hi
    rw [computeParent_spec (by omega) hc (by rw [Nat.add_assoc]; exact hin _ (by omega))]
    rfl

/-- The batched parents fill the level above from `start` on. -/
theorem computeParentsBatched_fills [Zero Hash] (hH : H.Lawful) (hN : 2 ≤ N)
    (hc : Holds fs child l) (start : ℕ) :
    Fills (fun off n => computeParentsBatched fs H N child (start + off) l.length n)
      ((LeanTree.parents N H.hashChildren l).drop start) := by
  intro d n hn hfit
  rw [List.length_drop, LeanTree.length_parents] at hfit
  dsimp only
  rw [computeParentsBatched_spec hH hN hc hn (by omega), List.drop_drop]
  congr 1
  apply List.ext_getElem?
  intro i
  rcases Nat.lt_or_ge i n with hi | hi
  · rw [List.getElem?_map, List.getElem?_range hi, Option.map_some, List.getElem?_take_of_lt hi,
      List.getElem?_drop, LeanTree.getElem?_parents _ (by omega)]
  · rw [List.getElem?_eq_none (by simpa using hi), List.getElem?_eq_none (by simp; omega)]

end Parents

/-! ### The stored levels -/

/-- What `levels[k]` holds over the leaves `L`: nothing above the root level. -/
def storedLevel (N : ℕ) (h : List Hash → Hash) (L : List Hash) (k : ℕ) : List Hash :=
  if k ≤ Nat.clog N L.length then LeanTree.level N h L k else []

/-- `levels[k]` as an insertion may find it: the right length, and every complete node. -/
def LevelNear (fs : ShardFs Hash) (N : ℕ) (H : Hasher Hash) (L : List Hash) (k : ℕ)
    (lvl : ChunkedLevel Hash) : Prop :=
  ∃ l, Holds fs lvl l ∧ l.length = (storedLevel N H.hashChildren L k).length ∧
    ∀ j < L.length / N ^ k, l[j]? = (LeanTree.level N H.hashChildren L k)[j]?

/-- The complete nodes of the tree over `L` are in place. -/
structure Near (fs : ShardFs Hash) (H : Hasher Hash) (t : TreeInner Hash N MAX_DEPTH)
    (L : List Hash) : Prop where
  size : t.size = L.length
  levels : ∀ k : Fin MAX_DEPTH, LevelNear fs N H L k (t.levels k)

/-- **Refinement.**  `t` is the reference tree over `L`. -/
structure Refines (fs : ShardFs Hash) (H : Hasher Hash) (t : TreeInner Hash N MAX_DEPTH)
    (L : List Hash) : Prop where
  size : t.size = L.length
  depth : t.depth = Nat.clog N L.length
  root : t.root = LeanTree.root N H.hashChildren L
  levels : ∀ k : Fin MAX_DEPTH, Holds fs (t.levels k) (storedLevel N H.hashChildren L k)

/-- Every window onto a file in `t'` is one of `t`. -/
def TreeInner.Derived (t t' : TreeInner Hash N MAX_DEPTH) : Prop :=
  ∀ k, ChunkedLevel.Derived (t.levels k) (t'.levels k)

section Near

variable {fs : ShardFs Hash} {H : Hasher Hash} {L : List Hash}

theorem storedLevel_of_le {h : List Hash → Hash} {k : ℕ} (hk : k ≤ Nat.clog N L.length) :
    storedLevel N h L k = LeanTree.level N h L k := if_pos hk

theorem storedLevel_of_lt {h : List Hash → Hash} {k : ℕ} (hk : Nat.clog N L.length < k) :
    storedLevel N h L k = [] := if_neg (by omega)

theorem div_pow_eq_zero (hN : 2 ≤ N) {n k : ℕ} (hk : Nat.clog N n < k) : n / N ^ k = 0 := by
  apply Nat.div_eq_of_lt
  calc n ≤ N ^ Nat.clog N n := Nat.le_pow_clog (by omega) n
    _ < N ^ k := Nat.pow_lt_pow_right (by omega) hk

theorem Refines.near (hN : 2 ≤ N) {t : TreeInner Hash N MAX_DEPTH} (h : Refines fs H t L) :
    Near fs H t L where
  size := h.size
  levels := by
    intro k
    refine ⟨_, h.levels k, rfl, ?_⟩
    intro j hj
    rcases Nat.lt_or_ge (Nat.clog N L.length) k with hk | hk
    · rw [div_pow_eq_zero hN hk] at hj
      omega
    · rw [storedLevel_of_le hk]

/-- A tree is the reference tree of one list of leaves only. -/
theorem Refines.unique (hD : 1 ≤ MAX_DEPTH) {t : TreeInner Hash N MAX_DEPTH} {L' : List Hash}
    (h : Refines fs H t L) (h' : Refines fs H t L') : L = L' := by
  have hlevel := (h.levels ⟨0, hD⟩).unique (h'.levels ⟨0, hD⟩)
  rwa [storedLevel_of_le (Nat.zero_le _), storedLevel_of_le (Nat.zero_le _)] at hlevel

theorem refines_new (hN : 2 ≤ N) : Refines fs H (TreeInner.new : TreeInner Hash N MAX_DEPTH) [] where
  size := rfl
  depth := (Nat.clog_of_right_le_one (by simp) N).symm
  root := (LeanTree.root_nil (by omega)).symm
  levels := by
    intro k
    have e : storedLevel N H.hashChildren [] k = [] := by
      unfold storedLevel
      rw [LeanTree.level_nil (by omega), ite_self]
    rw [e]
    exact new_holds fs

/-- What an insertion finds at a level: the complete nodes, and at most one node more. -/
theorem LevelNear.exists_holds (hN : 2 ≤ N) {k : ℕ} {lvl : ChunkedLevel Hash}
    (h : LevelNear fs N H L k lvl) (xs : List Hash) :
    ∃ l, Holds fs lvl l ∧ L.length / N ^ k ≤ l.length ∧ l.length ≤ L.length / N ^ k + 1 ∧
      l.take (L.length / N ^ k) =
        (LeanTree.level N H.hashChildren (L ++ xs) k).take (L.length / N ^ k) := by
  obtain ⟨l, hl, hlen, hag⟩ := h
  refine ⟨l, hl, ?_⟩
  have hpos : 0 < N ^ k := Nat.pow_pos (by omega)
  have hbounds : L.length / N ^ k ≤ l.length ∧ l.length ≤ L.length / N ^ k + 1 := by
    rcases Nat.lt_or_ge (Nat.clog N L.length) k with hk | hk
    · rw [hlen, storedLevel_of_lt hk, div_pow_eq_zero hN hk]
      simp
    · rw [hlen, storedLevel_of_le hk, LeanTree.length_level (by omega),
        Nat.ceilDiv_eq_add_pred_div]
      constructor
      · exact Nat.div_le_div_right (by omega)
      · calc (L.length + N ^ k - 1) / N ^ k ≤ (L.length + N ^ k) / N ^ k :=
              Nat.div_le_div_right (by omega)
          _ = L.length / N ^ k + 1 := Nat.add_div_right _ hpos
  refine ⟨hbounds.1, hbounds.2, ?_⟩
  apply List.ext_getElem?
  intro j
  rcases Nat.lt_or_ge j (L.length / N ^ k) with hj | hj
  · rw [List.getElem?_take_of_lt hj, List.getElem?_take_of_lt hj, hag j hj,
      LeanTree.level_append (by omega)]
    exact (Nat.le_div_iff_mul_le hpos).mp hj
  · rw [List.getElem?_eq_none (by rw [List.length_take]; omega),
      List.getElem?_eq_none (by rw [List.length_take]; omega)]

/-- The leaf level is complete. -/
theorem LevelNear.leaves {lvl : ChunkedLevel Hash} (h : LevelNear fs N H L 0 lvl) :
    Holds fs lvl L := by
  obtain ⟨l, hl, hlen, hag⟩ := h
  rw [storedLevel_of_le (Nat.zero_le _), LeanTree.level_zero] at hlen
  rw [Nat.pow_zero, Nat.div_one, LeanTree.level_zero] at hag
  have e : l = L := by
    apply List.ext_getElem?
    intro j
    rcases Nat.lt_or_ge j L.length with hj | hj
    · exact hag j hj
    · rw [List.getElem?_eq_none hj, List.getElem?_eq_none (by omega)]
  rw [← e]
  exact hl

/-- Overwriting from `lo` on with the rest of `P`. -/
theorem splice_drop {l z P : List Hash} {lo : ℕ} (h : l.take lo = P.take lo) (hlo : lo ≤ l.length)
    (hlen : l.length + z.length = P.length) : FixedArray.splice (l ++ z) lo (P.drop lo) = P := by
  unfold FixedArray.splice
  rw [List.take_append_of_le_length hlo, h, List.take_append_drop,
    List.drop_of_length_le (by rw [List.length_append, List.length_drop]; omega), List.append_nil]

end Near

/-! ### One level of an insertion -/

/-- An insertion of the leaves that `L'` has beyond `L`, after its first `n` levels. -/
structure Upto (fs : ShardFs Hash) (H : Hasher Hash) (L L' : List Hash)
    (t₀ : TreeInner Hash N MAX_DEPTH) (n : ℕ) (t : TreeInner Hash N MAX_DEPTH) : Prop where
  done : ∀ k : Fin MAX_DEPTH, k.val < n → Holds fs (t.levels k) (storedLevel N H.hashChildren L' k)
  todo : ∀ k : Fin MAX_DEPTH, n ≤ k.val → LevelNear fs N H L k (t.levels k)
  derived : t₀.Derived t

section Upto

variable {fs : ShardFs Hash} {H : Hasher Hash} {L L' : List Hash}
variable {t₀ t : TreeInner Hash N MAX_DEPTH} {n : ℕ}

theorem readLevel_apply (t : TreeInner Hash N MAX_DEPTH) {k : ℕ} (hk : k < MAX_DEPTH) :
    readLevel k t = (.ok (t.levels ⟨k, hk⟩), t) := by
  unfold readLevel
  rw [Exec.bind_of_ok (Exec.get_apply t), Exec.lift_apply, TreeInner.level,
    FixedArray.index_of_lt _ hk]

theorem updateLevel_apply {t : TreeInner Hash N MAX_DEPTH} {k : ℕ} (hk : k < MAX_DEPTH)
    {f : ChunkedLevel Hash → Outcome TreeError (ChunkedLevel Hash)} {lvl : ChunkedLevel Hash}
    (hf : f (t.levels ⟨k, hk⟩) = .ok lvl) : updateLevel k f t = (.ok (), t.setLevel k lvl) := by
  unfold updateLevel
  rw [Exec.bind_of_ok (readLevel_apply t hk), Exec.bind_of_ok (by rw [Exec.lift_apply, hf]),
    Exec.modify_apply]

theorem setLevel_self (t : TreeInner Hash N MAX_DEPTH) {k : ℕ} (hk : k < MAX_DEPTH)
    (lvl : ChunkedLevel Hash) : (t.setLevel k lvl).levels ⟨k, hk⟩ = lvl := if_pos rfl

theorem setLevel_of_ne (t : TreeInner Hash N MAX_DEPTH) {k : ℕ} {i : Fin MAX_DEPTH}
    (hi : i.val ≠ k) (lvl : ChunkedLevel Hash) : (t.setLevel k lvl).levels i = t.levels i :=
  if_neg hi

theorem Near.upto (h : Near fs H t L) : Upto fs H L L' t 0 t where
  done := by intro k hk; omega
  todo := fun k _ => h.levels k
  derived := fun k => Derived.refl _

/-- What is found at level `n`. -/
theorem Upto.exists_holds {xs : List Hash} (hN : 2 ≤ N) (h : Upto fs H L (L ++ xs) t₀ n t)
    (hn : n < MAX_DEPTH) :
    ∃ l, Holds fs (t.levels ⟨n, hn⟩) l ∧ L.length / N ^ n ≤ l.length ∧
      l.length ≤ L.length / N ^ n + 1 ∧
      l.take (L.length / N ^ n) =
        (LeanTree.level N H.hashChildren (L ++ xs) n).take (L.length / N ^ n) :=
  (h.todo ⟨n, hn⟩ le_rfl).exists_holds hN xs

/-- Level `n` is rewritten. -/
theorem Upto.step (h : Upto fs H L L' t₀ n t) (hn : n < MAX_DEPTH) {lvl : ChunkedLevel Hash}
    (hl : Holds fs lvl (storedLevel N H.hashChildren L' n))
    (hd : Derived (t.levels ⟨n, hn⟩) lvl) : Upto fs H L L' t₀ (n + 1) (t.setLevel n lvl) where
  done := by
    intro k hk
    rcases Nat.lt_or_ge k.val n with hlt | hge
    · rw [setLevel_of_ne t (by omega)]
      exact h.done k hlt
    · have e : k = ⟨n, hn⟩ := Fin.ext (show k.val = n by omega)
      rw [e, setLevel_self t hn]
      exact hl
  todo := by
    intro k hk
    rw [setLevel_of_ne t (by omega)]
    exact h.todo k (by omega)
  derived := by
    intro k
    rcases eq_or_ne k.val n with hk | hk
    · have e : k = ⟨n, hn⟩ := Fin.ext hk
      rw [e, setLevel_self t hn]
      exact (h.derived _).trans hd
    · rw [setLevel_of_ne t hk]
      exact h.derived k

/-- There is no level `n`. -/
theorem Upto.skip (h : Upto fs H L L' t₀ n t) (hn : MAX_DEPTH ≤ n) :
    Upto fs H L L' t₀ (n + 1) t where
  done := fun k _ => h.done k (by omega)
  todo := fun k hk => h.todo k (by omega)
  derived := h.derived

/-- Above the new root level nothing is stored, before and after. -/
theorem Upto.levels (h : Upto fs H L L' t₀ n t) (hn : Nat.clog N L'.length < n)
    (hle : L.length ≤ L'.length) (k : Fin MAX_DEPTH) :
    Holds fs (t.levels k) (storedLevel N H.hashChildren L' k) := by
  rcases Nat.lt_or_ge k.val n with hk | hk
  · exact h.done k hk
  · have hmono := Nat.clog_mono_right N hle
    obtain ⟨l, hl, hlen, -⟩ := h.todo k hk
    rw [storedLevel_of_lt (by omega), List.length_nil, List.length_eq_zero_iff] at hlen
    rw [storedLevel_of_lt (by omega), ← hlen]
    exact hl

end Upto

/-! ### `insert` -/

section Insert

variable [Zero Hash] {fs : ShardFs Hash} {H : Hasher Hash} {L : List Hash}
variable {t₀ t : TreeInner Hash N MAX_DEPTH}

omit [Zero Hash] in
theorem length_level_concat (hN : 2 ≤ N) (L : List Hash) (x : Hash) (k : ℕ) :
    (LeanTree.level N H.hashChildren (L ++ [x]) k).length = L.length / N ^ k + 1 := by
  rw [LeanTree.length_level (by omega), LeanTree.ceilDiv_eq_pred_div (Nat.pow_pos (by omega))
    (by simp)]
  simp

/-- The last node of a level, written over or after the nodes of the level. -/
theorem set_last {l P : List Hash} {i : ℕ} {x : Hash} (htake : l.take i = P.take i)
    (hle : i ≤ l.length) (hlen : l.length ≤ i + 1) (hP : P.length = i + 1) (hx : P[i]? = some x) :
    (l ++ List.replicate (i + 1 - l.length) 0).set i x = P := by
  have hlt : i < (l ++ List.replicate (i + 1 - l.length) 0).length := by simp; omega
  have hdrop : P.drop i = [x] := by
    obtain ⟨h1, h2⟩ := List.getElem?_eq_some_iff.mp hx
    rw [List.drop_eq_getElem_cons h1, h2, List.drop_of_length_le (by omega)]
  rw [List.set_eq_take_append_cons_drop, if_pos hlt, List.take_append_of_le_length hle, htake,
    List.drop_of_length_le (by simp; omega), ← hdrop, List.take_append_drop]

/-- The node above the last node of a level. -/
theorem climb_spec (hN : 2 ≤ N) {lvl : ChunkedLevel Hash} {l : List Hash} (hl : Holds fs lvl l)
    {locus : ℕ} {rung : Hash} (hlen : l.length = locus + 1) (hr : l[locus]? = some rung) :
    climb fs H N lvl rung locus =
      .ok (LeanTree.combine H.hashChildren (LeanTree.group N l (locus / N))) := by
  have hmod : locus % N < N := Nat.mod_lt _ (by omega)
  have hdiv : locus / N * N + locus % N = locus := Nat.div_add_mod' locus N
  have hg : LeanTree.group N l (locus / N) = (l.drop (locus - locus % N)).take (locus % N) ++ [rung] := by
    have e : locus - locus % N = locus / N * N := by omega
    obtain ⟨h1, h2⟩ := List.getElem?_eq_some_iff.mp hr
    rw [LeanTree.group, e, List.take_of_length_le (by rw [List.length_drop]; omega)]
    have hsplit := List.take_append_drop (locus % N) (l.drop (locus / N * N))
    rw [List.drop_drop, hdiv, List.drop_eq_getElem_cons h1, h2,
      List.drop_of_length_le (show l.length ≤ locus + 1 by omega)] at hsplit
    exact hsplit.symm
  have hglen : ((l.drop (locus - locus % N)).take (locus % N)).length = locus % N := by
    rw [List.length_take, List.length_drop]; omega
  unfold climb
  dsimp only
  split_ifs with h0
  · have htwo : 2 ≤ (LeanTree.group N l (locus / N)).length := by
      rw [hg, List.length_append, hglen, List.length_singleton]; omega
    rw [hl.getGroup (by omega), Outcome.ok_bind,
      FixedArray.copyFromSlice_of_le _ (by omega) (by omega) (by rw [hglen]; omega), Outcome.ok_bind,
      FixedArray.setAt_of_lt _ _ hmod, Outcome.ok_bind,
      FixedArray.slice_of_le _ (by omega) (by omega), Outcome.ok_bind, Outcome.pure_eq_ok,
      LeanTree.combine_of_two_le htwo, hg]
    congr 2
    apply List.ext_getElem?
    intro i
    rcases Nat.lt_or_ge i (locus % N + 1) with hi | hi
    · rw [FixedArray.getElem?_slice _ (by omega) (by omega)]
      simp only [Nat.zero_add]
      rcases Nat.lt_or_ge i (locus % N) with hi' | hi'
      · rw [if_neg (by omega), FixedArray.overwrite_of_mem _ (by omega) (by simp [hglen]; omega),
          List.getElem?_append_left (by omega), List.getElem?_eq_getElem (by omega)]
        rfl
      · have e : i = locus % N := by omega
        rw [if_pos e, List.getElem?_append_right (by omega), hglen, e, Nat.sub_self]
        rfl
    · rw [List.getElem?_eq_none (by rw [FixedArray.length_slice _ (by omega)]; omega),
        List.getElem?_eq_none (by rw [List.length_append, hglen, List.length_singleton]; omega)]
  · rw [Outcome.pure_eq_ok, hg, show locus % N = 0 by omega, List.take_zero, List.nil_append,
      LeanTree.combine_singleton]

/-- The path of the new leaf, level by level. -/
theorem insertPath_spec (hN : 2 ≤ N) {x : Hash} (hsize : L.length + 1 < U64_SIZE)
    (hdepth : Nat.clog N (L.length + 1) ≤ MAX_DEPTH) (n : ℕ) :
    ∀ (k : ℕ) (rung : Hash) (t : TreeInner Hash N MAX_DEPTH),
      k + n = Nat.clog N (L.length + 1) → Upto fs H L (L ++ [x]) t₀ k t →
      (LeanTree.level N H.hashChildren (L ++ [x]) k)[L.length / N ^ k]? = some rung →
      ∃ r t', insertPath fs H n k rung (L.length / N ^ k) t = (.ok r, t') ∧
        Upto fs H L (L ++ [x]) t₀ (k + n) t' ∧
        (LeanTree.level N H.hashChildren (L ++ [x]) (k + n))[L.length / N ^ (k + n)]? = some r := by
  induction n with
  | zero =>
      intro k rung t _ ht hr
      exact ⟨rung, t, rfl, ht, hr⟩
  | succ n ih =>
      intro k rung t hk ht hr
      have hkm : k < MAX_DEPTH := by omega
      have hlen := length_level_concat (H := H) hN L x k
      obtain ⟨l, hl, h1, h2, htake⟩ := ht.exists_holds hN hkm
      have hfit : L.length / N ^ k + 1 < U64_SIZE := by
        have := Nat.div_le_self L.length (N ^ k)
        omega
      obtain ⟨lvl, e, hlvl, hd⟩ := hl.set hfit rung
      rw [set_last htake h1 h2 hlen hr] at hlvl
      have hstored : storedLevel N H.hashChildren (L ++ [x]) k =
          LeanTree.level N H.hashChildren (L ++ [x]) k :=
        storedLevel_of_le (by rw [List.length_append, List.length_singleton]; omega)
      have ht' := ht.step hkm (by rw [hstored]; exact hlvl) hd
      have hnode : (LeanTree.level N H.hashChildren (L ++ [x]) (k + 1))[L.length / N ^ (k + 1)]? =
          some (LeanTree.combine H.hashChildren (LeanTree.group N
            (LeanTree.level N H.hashChildren (L ++ [x]) k) (L.length / N ^ k / N))) := by
        rw [LeanTree.getElem?_level_succ (by omega), Nat.pow_succ, Nat.div_div_eq_div_mul]
        rw [List.length_append, List.length_singleton]
        have := Nat.div_mul_le_self L.length (N ^ (k + 1))
        omega
      obtain ⟨r, t', e', hu, hroot⟩ := ih (k + 1) _ _ (by omega) ht' hnode
      refine ⟨r, t', ?_, by rwa [show k + (n + 1) = k + 1 + n by omega],
        by rwa [show k + (n + 1) = k + 1 + n by omega]⟩
      unfold insertPath
      rw [Exec.bind_of_ok (updateLevel_apply hkm e), Exec.bind_of_ok (readLevel_apply _ hkm),
        setLevel_self t hkm, Exec.bind_of_ok (by rw [Exec.lift_apply, climb_spec hN hlvl hlen hr]),
        Nat.div_div_eq_div_mul, ← Nat.pow_succ]
      rw [Nat.div_div_eq_div_mul, ← Nat.pow_succ] at e'
      exact e'

theorem storeRoot_spec (hN : 2 ≤ N) {x r : Hash} (ht : Upto fs H L (L ++ [x]) t₀
      (Nat.clog N (L.length + 1)) t)
    (hr : LeanTree.level N H.hashChildren (L ++ [x]) (Nat.clog N (L.length + 1)) = [r]) :
    ∃ t', storeRoot fs (Nat.clog N (L.length + 1)) r t = (.ok (), t') ∧
      Upto fs H L (L ++ [x]) t₀ (Nat.clog N (L.length + 1) + 1) t' := by
  unfold storeRoot
  split_ifs with hkm
  · obtain ⟨l, hl, h1, h2, htake⟩ := ht.exists_holds hN hkm
    have hzero : L.length / N ^ Nat.clog N (L.length + 1) = 0 := by
      apply Nat.div_eq_of_lt
      have := Nat.le_pow_clog (b := N) (by omega) (L.length + 1)
      omega
    rw [hzero] at h1 h2 htake
    obtain ⟨lvl, e, hlvl, hd⟩ := hl.set (i := 0) (by decide) r
    rw [set_last htake h1 h2 (by rw [hr]; rfl) (by rw [hr]; rfl)] at hlvl
    refine ⟨_, updateLevel_apply hkm e, ht.step hkm ?_ hd⟩
    rw [storedLevel_of_le (by simp)]
    exact hlvl
  · exact ⟨t, rfl, ht.skip (by omega)⟩

/-- **`insert`.**  From a tree whose complete nodes over `L` are right, the reference tree over
`L` and the leaf. -/
theorem insert_spec (hN : 2 ≤ N) (ht : Near fs H t L) (x : Hash) (hsize : L.length + 1 < U64_SIZE)
    (hdepth : Nat.clog N (L.length + 1) ≤ MAX_DEPTH) :
    ∃ r t', insert fs H x t = (.ok r, t') ∧
      LeanTree.root N H.hashChildren (L ++ [x]) = some r ∧ Refines fs H t' (L ++ [x]) ∧
      t.Derived t' := by
  obtain ⟨r, hroot, hlevel⟩ := LeanTree.root_eq_some (N := N) (h := H.hashChildren) (by omega)
    (show L ++ [x] ≠ [] by simp)
  have hlen : (L ++ [x]).length = L.length + 1 := by simp
  rw [hlen] at hlevel
  obtain ⟨r', t₁, e₁, hu₁, hr₁⟩ := insertPath_spec (x := x) hN hsize hdepth
    (Nat.clog N (L.length + 1)) 0 x t (by omega) ht.upto (by simp)
  rw [Nat.zero_add, hlevel _ le_rfl] at hr₁
  have hzero : L.length / N ^ Nat.clog N (L.length + 1) = 0 := by
    apply Nat.div_eq_of_lt
    have := Nat.le_pow_clog (b := N) (by omega) (L.length + 1)
    omega
  rw [hzero, List.getElem?_cons_zero, Option.some.injEq] at hr₁
  subst hr₁
  rw [Nat.zero_add] at hu₁
  rw [Nat.pow_zero, Nat.div_one] at e₁
  obtain ⟨t₂, e₂, hu₂⟩ := storeRoot_spec hN hu₁ (hlevel _ le_rfl)
  refine ⟨r, { t₂ with root := some r, size := L.length + 1, depth := Nat.clog N (L.length + 1) },
    ?_, hroot, ⟨hlen.symm, by rw [hlen], hroot.symm, ?_⟩, hu₂.derived⟩
  · unfold insert
    rw [Exec.bind_of_ok (Exec.get_apply t), ht.size,
      Exec.bind_of_ok (by rw [Exec.lift_apply, checkedAdd_of_lt hsize]), ceilLogN_eq_clog hN, if_neg (by omega),
      Exec.bind_of_ok (by rw [Exec.lift_apply, u64ToUsize_of_lt (by omega)]), Exec.bind_of_ok e₁,
      Exec.bind_of_ok e₂]
    rfl
  · intro k
    exact hu₂.levels (by rw [hlen]; omega) (by simp) k

end Insert

/-! ### `insert_many` -/

section InsertMany

variable [Zero Hash] {fs : ShardFs Hash} {H : Hasher Hash} {L xs : List Hash}
variable {t₀ t : TreeInner Hash N MAX_DEPTH} {k : ℕ}

omit [Zero Hash] in
theorem setLevel_setLevel (t : TreeInner Hash N MAX_DEPTH) (k : ℕ) (a b : ChunkedLevel Hash) :
    (t.setLevel k a).setLevel k b = t.setLevel k b := by
  unfold TreeInner.setLevel
  congr 1
  funext i
  dsimp only
  split_ifs <;> rfl

omit [Zero Hash] in
/-- The first parent to compute exists, whether or not it was there before. -/
theorem startParent_lt (hN : 2 ≤ N) (hxs : xs ≠ []) (k : ℕ) :
    L.length / N ^ k < (LeanTree.level N H.hashChildren (L ++ xs) k).length := by
  have hpos := List.length_pos_iff.mpr hxs
  rw [LeanTree.lt_length_level (by omega), List.length_append]
  have := Nat.div_mul_le_self L.length (N ^ k)
  omega

omit [Zero Hash] in
theorem length_level_lt (hN : 2 ≤ N) (hsize : (L ++ xs).length < U64_SIZE) (k : ℕ) :
    (LeanTree.level N H.hashChildren (L ++ xs) k).length < U64_SIZE := by
  apply lt_of_le_of_lt _ hsize
  rw [LeanTree.length_level (by omega), ceilDiv_le_iff_le_mul (Nat.pow_pos (by omega))]
  exact Nat.le_mul_of_pos_left _ (Nat.pow_pos (by omega))

/-- What one level of `insert_many` is to do with the level above: level `k` holds its nodes,
and level `k + 1` gets them. -/
def LevelDone (fs : ShardFs Hash) (H : Hasher Hash) (L xs : List Hash)
    (t₀ : TreeInner Hash N MAX_DEPTH) (k : ℕ) (isRootLevel : Bool) (root : Hash)
    (res : Outcome TreeError Hash × TreeInner Hash N MAX_DEPTH) : Prop :=
  ∃ r t', res = (.ok r, t') ∧ Upto fs H L (L ++ xs) t₀ (k + 2) t' ∧
    some r = if isRootLevel then (LeanTree.level N H.hashChildren (L ++ xs) (k + 1)).getLast?
      else some root

omit [Zero Hash] in
/-- The root is read back from the level that was just written. -/
theorem readRoot_spec {lvl : ChunkedLevel Hash} {P : List Hash} (hP : Holds fs lvl P)
    (hne : 0 < P.length) (isRootLevel : Bool) (root : Hash) (t : TreeInner Hash N MAX_DEPTH) :
    ∃ r, (if isRootLevel then Exec.lift (lvl.get fs (P.length - 1)) else pure root :
        TreeM Hash N MAX_DEPTH Hash) t = (.ok r, t) ∧
      some r = if isRootLevel then P.getLast? else some root := by
  cases isRootLevel with
  | false => exact ⟨root, rfl, rfl⟩
  | true =>
      refine ⟨P[P.length - 1], ?_, ?_⟩
      · rw [if_pos rfl, Exec.lift_apply, hP.get (by omega)]
      · rw [if_pos rfl, List.getLast?_eq_getElem?, List.getElem?_eq_getElem]

theorem insertManyLevelSeq_spec (hH : H.Lawful) (hN : 2 ≤ N) (hxs : xs ≠ [])
    (hsize : (L ++ xs).length < U64_SIZE) (hk : k < Nat.clog N (L ++ xs).length)
    (hkm : k < MAX_DEPTH) (hu : Upto fs H L (L ++ xs) t₀ (k + 1) t) (isRootLevel : Bool)
    (hroot : isRootLevel = true → Nat.clog N (L ++ xs).length = k + 1) (root : Hash) :
    LevelDone fs H L xs t₀ k isRootLevel root (insertManyLevelSeq fs H k
      (L.length / N ^ (k + 1)) (LeanTree.level N H.hashChildren (L ++ xs) (k + 1)).length
      (LeanTree.level N H.hashChildren (L ++ xs) k).length isRootLevel root t) := by
  have hchild := hu.done ⟨k, hkm⟩ (Nat.lt_succ_self k)
  rw [storedLevel_of_le hk.le] at hchild
  have hlt := startParent_lt (L := L) (H := H) hN hxs (k + 1)
  have hu64 := length_level_lt (H := H) hN hsize (k + 1)
  have hfills := computeParentsBatched_fills hH hN hchild (L.length / N ^ (k + 1))
  rw [← LeanTree.level_succ] at hfills
  unfold insertManyLevelSeq
  rw [Exec.bind_of_ok (by rw [Exec.lift_apply, Outcome.require_pos hlt.le])]
  by_cases hk1 : k + 1 < MAX_DEPTH
  · obtain ⟨pl, hpl, h1, h2, htake⟩ := hu.exists_holds hN hk1
    obtain ⟨lvl₁, e₁, hl₁, hd₁⟩ := hpl.ensureLen hu64
    obtain ⟨lvl₂, e₂, hl₂, hd₂⟩ := hl₁.writeWith hfills (L.length / N ^ (k + 1))
      (by rw [List.length_append, List.length_replicate, List.length_drop]; omega)
    have hz : pl.length + (List.replicate ((LeanTree.level N H.hashChildren (L ++ xs) (k + 1)).length -
        pl.length) (0 : Hash)).length = (LeanTree.level N H.hashChildren (L ++ xs) (k + 1)).length := by
      rw [List.length_replicate]; omega
    rw [splice_drop htake h1 hz] at hl₂
    rw [List.length_drop] at e₂
    obtain ⟨r, er, hr⟩ := readRoot_spec hl₂ (Nat.zero_lt_of_lt hlt) isRootLevel root (t.setLevel (k + 1) lvl₂)
    refine ⟨r, t.setLevel (k + 1) lvl₂, ?_, hu.step hk1 ?_ (hd₁.trans hd₂), hr⟩
    · rw [if_pos hk1, Exec.bind_of_ok (updateLevel_apply hk1 e₁),
        Exec.bind_of_ok (readLevel_apply _ hkm), setLevel_of_ne t (by simp),
        Exec.bind_of_ok (updateLevel_apply hk1 (by rw [setLevel_self t hk1, e₂])), setLevel_setLevel,
        Exec.bind_of_ok (readLevel_apply _ hk1), setLevel_self t hk1]
      exact er
    · rw [storedLevel_of_le hk]
      exact hl₂
  · -- no parent level to write into: `k + 1` is `MAX_DEPTH`, and its one node is the root
    have hin : ∀ i < (LeanTree.level N H.hashChildren (L ++ xs) (k + 1)).length -
        L.length / N ^ (k + 1), (L.length / N ^ (k + 1) + i) * N <
          (LeanTree.level N H.hashChildren (L ++ xs) k).length := by
      intro i hi
      rw [LeanTree.level_succ, LeanTree.length_parents] at hi
      exact (LeanTree.lt_ceilDiv_iff (by omega)).mp (by omega)
    have hps := Outcome.mapM_ok (f := fun i => computeParent fs H N (t.levels ⟨k, hkm⟩)
        (L.length / N ^ (k + 1) + i) (LeanTree.level N H.hashChildren (L ++ xs) k).length)
      (List.range ((LeanTree.level N H.hashChildren (L ++ xs) (k + 1)).length -
        L.length / N ^ (k + 1)))
      fun i hi => computeParent_spec (by omega) hchild (hin i (List.mem_range.mp hi))
    rw [if_neg hk1, Exec.bind_of_ok (readLevel_apply t hkm),
      Exec.bind_of_ok (by rw [Exec.lift_apply, hps])]
    cases isRootLevel with
    | false => exact ⟨root, t, rfl, hu.skip (by omega), rfl⟩
    | true =>
        have hone := LeanTree.length_level_eq_one (N := N) (h := H.hashChildren) (by omega)
          (show L ++ xs ≠ [] by simp [hxs]) (hroot rfl).le
        have hzero : L.length / N ^ (k + 1) = 0 := by
          rw [hone] at hlt
          exact Nat.lt_one_iff.mp hlt
        refine ⟨_, t, rfl, hu.skip (by omega), ?_⟩
        rw [hone, hzero]
        simp only [Nat.sub_zero, List.range_one, List.map_cons, List.map_nil, Nat.zero_add,
          List.getLast?_singleton, Option.getD_some, if_pos]
        rw [List.getLast?_eq_getElem?, hone, Nat.sub_self,
          LeanTree.getElem?_level_succ (by omega) _ (by
            rw [Nat.zero_mul, List.length_append]
            have := List.length_pos_iff.mpr hxs
            omega)]

omit [Zero Hash] in
/-- The parent that the parallel path overwrites, when there is one. -/
theorem overlap_spec {lvl : ChunkedLevel Hash} {pl P : List Hash} {sp : ℕ} {fill : Fill Hash}
    (hpl : Holds fs lvl pl) (h1 : sp ≤ pl.length) (h2 : pl.length ≤ sp + 1) (hsp : sp < P.length)
    (htake : pl.take sp = P.take sp) (hfill : Fills fill (P.drop sp)) :
    ∃ lvl', (if (if sp < lvl.len then 1 else 0) = 1 then lvl.writeWith fs sp 1 fun _ n => fill 0 n
        else pure lvl) = .ok lvl' ∧
      Holds fs lvl' (P.take (sp + if sp < lvl.len then 1 else 0)) ∧ Derived lvl lvl' := by
  rw [hpl.len]
  by_cases hlt : sp < pl.length
  · have hone : Fills (fun _ n => fill 0 n) [P[sp]] := by
      intro d n hn hdn
      rw [List.length_singleton] at hdn
      have hd : d = 0 := by omega
      have hn1 : n = 1 := by omega
      subst hd hn1
      have := hfill 0 1 hn (by rw [List.length_drop]; omega)
      rw [List.drop_zero, List.drop_eq_getElem_cons hsp] at this
      exact this
    obtain ⟨lvl', e, hl, hd⟩ := hpl.writeWith hone sp (by simpa using hlt)
    refine ⟨lvl', ?_, ?_, hd⟩
    · rw [if_pos hlt, if_pos rfl]
      exact e
    · have hsplice : FixedArray.splice pl sp [P[sp]] = P.take (sp + 1) := by
        unfold FixedArray.splice
        rw [htake, List.drop_of_length_le (by simpa using h2), List.append_nil,
          List.take_append_getElem]
      rw [if_pos hlt, ← hsplice]
      exact hl
  · refine ⟨lvl, by rw [if_neg hlt, if_neg (by omega)]; rfl, ?_, Derived.refl lvl⟩
    rw [if_neg hlt, Nat.add_zero, ← htake, List.take_of_length_le (by omega)]
    exact hpl

theorem insertManyLevelPar_spec (hH : H.Lawful) (hN : 2 ≤ N) (hxs : xs ≠ [])
    (hsize : (L ++ xs).length < U64_SIZE) (hk : k < Nat.clog N (L ++ xs).length)
    (hkm : k + 1 < MAX_DEPTH) (hu : Upto fs H L (L ++ xs) t₀ (k + 1) t) (isRootLevel : Bool)
    (root : Hash) :
    LevelDone fs H L xs t₀ k isRootLevel root (insertManyLevelPar fs H k
      (L.length / N ^ (k + 1)) (LeanTree.level N H.hashChildren (L ++ xs) (k + 1)).length
      (LeanTree.level N H.hashChildren (L ++ xs) k).length isRootLevel root t) := by
  have hkm' : k < MAX_DEPTH := by omega
  have hchild := hu.done ⟨k, hkm'⟩ (Nat.lt_succ_self k)
  rw [storedLevel_of_le hk.le] at hchild
  have hlt := startParent_lt (L := L) (H := H) hN hxs (k + 1)
  have hu64 := length_level_lt (H := H) hN hsize (k + 1)
  have hfills := computeParentsBatched_fills hH hN hchild
  rw [← LeanTree.level_succ] at hfills
  obtain ⟨pl, hpl, h1, h2, htake⟩ := hu.exists_holds hN hkm
  obtain ⟨lvl₁, e₁, hl₁, hd₁⟩ := overlap_spec hpl h1 h2 hlt htake (hfills _)
  obtain ⟨overlap, hov⟩ : ∃ o, o =
    if L.length / N ^ (k + 1) < (t.levels ⟨k + 1, hkm⟩).len then 1 else 0 := ⟨_, rfl⟩
  rw [← hov] at e₁ hl₁
  have hov1 : overlap ≤ 1 := by rw [hov]; split_ifs <;> omega
  obtain ⟨lvl₂, e₂, hl₂, hd₂⟩ := hl₁.extendWith (hfills (L.length / N ^ (k + 1) + overlap))
    (by rw [← List.length_append, List.take_append_drop]; exact hu64)
  rw [List.take_append_drop] at hl₂
  rw [List.length_drop, ← Nat.sub_sub] at e₂
  obtain ⟨r, er, hr⟩ := readRoot_spec hl₂ (Nat.zero_lt_of_lt hlt) isRootLevel root
    (t.setLevel (k + 1) lvl₂)
  refine ⟨r, t.setLevel (k + 1) lvl₂, ?_, hu.step hkm ?_ (hd₁.trans hd₂), hr⟩
  · unfold insertManyLevelPar
    rw [Exec.bind_of_ok (by rw [Exec.lift_apply, Outcome.require_pos hlt.le]),
      Exec.bind_of_ok (readLevel_apply t hkm'), Exec.bind_of_ok (readLevel_apply t hkm), ← hov,
      Exec.bind_of_ok (updateLevel_apply hkm e₁),
      Exec.bind_of_ok (by rw [Exec.lift_apply, Outcome.require_pos (by omega)]),
      Exec.bind_of_ok (updateLevel_apply hkm (by rw [setLevel_self t hkm, e₂])), setLevel_setLevel,
      Exec.bind_of_ok (readLevel_apply _ hkm), setLevel_self t hkm]
    exact er
  · rw [storedLevel_of_le hk]
    exact hl₂

/-- One level of `insert_many`, by either path. -/
theorem insertManyLevel_spec (hH : H.Lawful) (hN : 2 ≤ N) (hxs : xs ≠ [])
    (hsize : (L ++ xs).length < U64_SIZE) (hk : k < Nat.clog N (L ++ xs).length)
    (hkm : k < MAX_DEPTH) (hu : Upto fs H L (L ++ xs) t₀ (k + 1) t) (par : ℕ → ℕ → Bool)
    (isRootLevel : Bool) (hroot : isRootLevel = true → Nat.clog N (L ++ xs).length = k + 1)
    (root : Hash) :
    LevelDone fs H L xs t₀ k isRootLevel root (insertManyLevel fs H par k
      (L.length / N ^ (k + 1)) (LeanTree.level N H.hashChildren (L ++ xs) (k + 1)).length
      (LeanTree.level N H.hashChildren (L ++ xs) k).length isRootLevel root t) := by
  unfold insertManyLevel
  split_ifs with hpar
  · rw [Bool.and_eq_true, decide_eq_true_iff] at hpar
    exact insertManyLevelPar_spec hH hN hxs hsize hk hpar.2 hu isRootLevel root
  · exact insertManyLevelSeq_spec hH hN hxs hsize hk hkm hu isRootLevel hroot root

/-- The levels of `insert_many` above the leaves, by induction on how many are left. -/
theorem insertManyLevels_spec (hH : H.Lawful) (hN : 2 ≤ N) (hxs : xs ≠ [])
    (hsize : (L ++ xs).length < U64_SIZE) (hdepth : Nat.clog N (L ++ xs).length ≤ MAX_DEPTH)
    (par : ℕ → ℕ → Bool) (n : ℕ) :
    ∀ (k : ℕ) (root : Hash) (t : TreeInner Hash N MAX_DEPTH),
      k + n = Nat.clog N (L ++ xs).length → Upto fs H L (L ++ xs) t₀ (k + 1) t →
      (n = 0 → (LeanTree.level N H.hashChildren (L ++ xs) k).getLast? = some root) →
      ∃ r t', insertManyLevels fs H par n k (L.length / N ^ (k + 1)) root t = (.ok r, t') ∧
        Upto fs H L (L ++ xs) t₀ (k + n + 1) t' ∧
        (LeanTree.level N H.hashChildren (L ++ xs) (k + n)).getLast? = some r := by
  induction n with
  | zero =>
      intro k root t _ hu hr
      exact ⟨root, t, rfl, hu, hr rfl⟩
  | succ n ih =>
      intro k root t hkn hu _
      have hkm : k < MAX_DEPTH := by omega
      have hk : k < Nat.clog N (L ++ xs).length := by omega
      have hchild := hu.done ⟨k, hkm⟩ (Nat.lt_succ_self k)
      rw [storedLevel_of_le hk.le] at hchild
      obtain ⟨r₁, t₁, e₁, hu₁, hr₁⟩ := insertManyLevel_spec hH hN hxs hsize hk hkm hu par (n == 0)
        (by intro h; rw [beq_iff_eq] at h; omega) root
      obtain ⟨r, t', e, hu', hr⟩ := ih (k + 1) r₁ t₁ (by omega) hu₁ (by
        intro h
        rw [h, beq_self_eq_true, if_pos rfl] at hr₁
        exact hr₁.symm)
      refine ⟨r, t', ?_, by rwa [show k + (n + 1) = k + 1 + n by omega],
        by rwa [show k + (n + 1) = k + 1 + n by omega]⟩
      rw [LeanTree.level_succ, LeanTree.length_parents] at e₁
      unfold insertManyLevels
      rw [Exec.bind_of_ok (readLevel_apply t hkm), hchild.len, Exec.bind_of_ok e₁,
        Nat.div_div_eq_div_mul, ← Nat.pow_succ]
      exact e

/-- **`insert_many`.** -/
theorem insertMany_spec (hH : H.Lawful) (hN : 2 ≤ N) (hD : 1 ≤ MAX_DEPTH) (ht : Near fs H t L)
    (hxs : xs ≠ []) (hsize : (L ++ xs).length < U64_SIZE)
    (hdepth : Nat.clog N (L ++ xs).length ≤ MAX_DEPTH) (par : ℕ → ℕ → Bool) :
    ∃ r t', insertMany fs H par xs t = (.ok r, t') ∧
      LeanTree.root N H.hashChildren (L ++ xs) = some r ∧ Refines fs H t' (L ++ xs) ∧
      t.Derived t' := by
  obtain ⟨r, hroot, hlevel⟩ := LeanTree.root_eq_some (N := N) (h := H.hashChildren) (by omega)
    (show L ++ xs ≠ [] by simp [hxs])
  have hlen : L.length + xs.length = (L ++ xs).length := by simp
  have hpos : 0 < (L ++ xs).length := List.length_pos_iff.mpr (by simp [hxs])
  have hL : Holds fs (t.levels ⟨0, hD⟩) L := (ht.levels ⟨0, hD⟩).leaves
  obtain ⟨lvl, e₀, hl₀, hd₀⟩ := hL.extend (by rw [hlen]; exact hsize)
  have hu : Upto fs H L (L ++ xs) t 1 (t.setLevel 0 lvl) :=
    ht.upto.step hD (by rw [storedLevel_of_le (Nat.zero_le _)]; exact hl₀) hd₀
  obtain ⟨root₀, er₀, hr₀⟩ : ∃ root₀, (if Nat.clog N (L ++ xs).length = 0 then lvl.get fs 0
      else pure 0 : Outcome TreeError Hash) = .ok root₀ ∧
      (Nat.clog N (L ++ xs).length = 0 →
        (LeanTree.level N H.hashChildren (L ++ xs) 0).getLast? = some root₀) := by
    by_cases h0 : Nat.clog N (L ++ xs).length = 0
    · refine ⟨(L ++ xs)[0], by rw [if_pos h0, hl₀.get hpos], fun _ => ?_⟩
      have hlvl := hlevel 0 h0.le
      rw [LeanTree.level_zero] at hlvl ⊢
      simp [hlvl]
    · exact ⟨0, by rw [if_neg h0]; rfl, fun h => absurd h h0⟩
  obtain ⟨r', t₁, e₁, hu₁, hr₁⟩ := insertManyLevels_spec hH hN hxs hsize hdepth par
    (Nat.clog N (L ++ xs).length) 0 root₀ (t.setLevel 0 lvl) (by omega) hu hr₀
  rw [Nat.zero_add, hlevel _ le_rfl, List.getLast?_singleton, Option.some.injEq] at hr₁
  subst hr₁
  rw [Nat.zero_add] at hu₁
  rw [Nat.zero_add, Nat.pow_one] at e₁
  refine ⟨r, ⟨t₁.levels, some r, (L ++ xs).length, Nat.clog N (L ++ xs).length⟩, ?_, hroot,
    ⟨rfl, rfl, hroot.symm, ?_⟩, hu₁.derived⟩
  · unfold insertMany
    rw [if_neg (by simpa using hxs), Exec.bind_of_ok (Exec.get_apply t), ht.size,
      Exec.bind_of_ok (by rw [Exec.lift_apply, checkedAdd_of_lt (by rw [hlen]; exact hsize)]), hlen,
      ceilLogN_eq_clog hN, if_neg (by omega), Exec.bind_of_ok (updateLevel_apply hD e₀),
      Exec.bind_of_ok (by rw [Exec.lift_apply, u64ToUsize_of_lt (by omega)]),
      Exec.bind_of_ok (readLevel_apply _ hD), setLevel_self t hD,
      Exec.bind_of_ok (by rw [Exec.lift_apply, er₀]), Exec.bind_of_ok e₁]
    rfl
  · intro k
    exact hu₁.levels (by omega) (by rw [← hlen]; omega) k

end InsertMany

end Works.Rotortree
