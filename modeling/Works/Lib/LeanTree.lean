import Mathlib.Data.Nat.Log
import Mathlib.Algebra.Order.Floor.Div
import Mathlib.Tactic

/-! # N-ary lean incremental trees

The tree over a list of leaves, level by level: level `0` is the list itself, and level
`k + 1` combines consecutive groups of `N` nodes of level `k`, where a lone trailing node
is lifted unchanged (`combine`).  Level `k` over `n` leaves has `n ⌈/⌉ N ^ k` nodes
(`length_level`), so the first level with a single node is `Nat.clog N n`, and that node
is the root.

Two facts carry the applications.  Node `j` of level `k` depends only on the leaves
`j * N ^ k ≤ i < (j + 1) * N ^ k`, so a node whose leaves are all there never changes when
leaves are appended (`level_agree`).  Conversely, when the combining function is injective
on groups of `2` to `N` nodes, a node determines the leaves below it, provided both trees
have the same shape there (`leaves_eq_of_node_eq`). -/

namespace Works.Lib.LeanTree

variable {α : Type*}

/-! ### Rounding up -/

theorem lt_ceilDiv_iff {a b j : ℕ} (hb : 0 < b) : j < a ⌈/⌉ b ↔ j * b < a := by
  rw [← not_le, ceilDiv_le_iff_le_mul hb, not_le, Nat.mul_comm]

theorem ceilDiv_ceilDiv {a b c : ℕ} (hb : 0 < b) (hc : 0 < c) :
    (a ⌈/⌉ b) ⌈/⌉ c = a ⌈/⌉ (b * c) := by
  apply eq_of_forall_ge_iff
  intro d
  rw [ceilDiv_le_iff_le_mul hc, ceilDiv_le_iff_le_mul hb,
    ceilDiv_le_iff_le_mul (Nat.mul_pos hb hc), Nat.mul_assoc]

theorem ceilDiv_mono {a a' b : ℕ} (hb : 0 < b) (h : a ≤ a') : a ⌈/⌉ b ≤ a' ⌈/⌉ b := by
  rw [ceilDiv_le_iff_le_mul hb]
  exact h.trans ((ceilDiv_le_iff_le_mul hb).mp le_rfl)

theorem ceilDiv_eq_pred_div {a b : ℕ} (hb : 0 < b) (ha : 0 < a) :
    a ⌈/⌉ b = (a - 1) / b + 1 := by
  rw [Nat.ceilDiv_eq_add_pred_div]
  have e : a + b - 1 = (a - 1) + b := by omega
  rw [e, Nat.add_div_right _ hb]

/-! ### Levels -/

/-- The node over a group of children: a lone child is lifted, more are combined. -/
def combine (h : List α → α) : List α → α
  | [a] => a
  | g => h g

/-- Group `j` of a level: the children of node `j` of the level above. -/
def group (N : ℕ) (l : List α) (j : ℕ) : List α := (l.drop (j * N)).take N

/-- The level above `l`. -/
def parents (N : ℕ) (h : List α → α) (l : List α) : List α :=
  (List.range (l.length ⌈/⌉ N)).map fun j => combine h (group N l j)

/-- Level `k` of the tree over `l`. -/
def level (N : ℕ) (h : List α → α) (l : List α) : ℕ → List α
  | 0 => l
  | k + 1 => parents N h (level N h l k)

/-- The root of the tree over `l`, `none` when there are no leaves. -/
def root (N : ℕ) (h : List α → α) (l : List α) : Option α :=
  (level N h l (Nat.clog N l.length)).head?

variable {N : ℕ} {h : List α → α}

@[simp] theorem combine_singleton (a : α) : combine h [a] = a := rfl

theorem combine_of_two_le {g : List α} (hg : 2 ≤ g.length) : combine h g = h g := by
  match g, hg with
  | _ :: _ :: _, _ => rfl

theorem length_group (l : List α) (j : ℕ) :
    (group N l j).length = min N (l.length - j * N) := by
  simp [group]

theorem getElem?_group (l : List α) {j i : ℕ} (hi : i < N) :
    (group N l j)[i]? = l[j * N + i]? := by
  rw [group, List.getElem?_take_of_lt hi, List.getElem?_drop]

@[simp] theorem length_parents (l : List α) : (parents N h l).length = l.length ⌈/⌉ N := by
  simp [parents]

theorem getElem?_parents (l : List α) {j : ℕ} (hj : j < l.length ⌈/⌉ N) :
    (parents N h l)[j]? = some (combine h (group N l j)) := by
  simp [parents, List.getElem?_range hj]

@[simp] theorem level_zero (l : List α) : level N h l 0 = l := rfl

theorem level_succ (l : List α) (k : ℕ) : level N h l (k + 1) = parents N h (level N h l k) := rfl

theorem length_level (hN : 0 < N) (l : List α) (k : ℕ) :
    (level N h l k).length = l.length ⌈/⌉ N ^ k := by
  induction k with
  | zero => simp
  | succ k ih =>
      rw [level_succ, length_parents, ih, ceilDiv_ceilDiv (Nat.pow_pos hN) hN, Nat.pow_succ]

theorem lt_length_level (hN : 0 < N) (l : List α) (k j : ℕ) :
    j < (level N h l k).length ↔ j * N ^ k < l.length := by
  rw [length_level hN, lt_ceilDiv_iff (Nat.pow_pos hN)]

theorem getElem?_level_succ (hN : 0 < N) (l : List α) {k j : ℕ} (hj : j * N ^ (k + 1) < l.length) :
    (level N h l (k + 1))[j]? = some (combine h (group N (level N h l k) j)) := by
  rw [level_succ, getElem?_parents]
  have := (lt_length_level (h := h) hN l (k + 1) j).mpr hj
  rwa [level_succ, length_parents] at this

/-- The group of position `b`, split at that position. -/
theorem group_split {l : List α} {b : ℕ} {y : α} (hN : 0 < N) (hy : l[b]? = some y) :
    group N l (b / N) = (l.drop (b / N * N)).take (b % N) ++
      y :: (l.drop (b + 1)).take (min l.length (b / N * N + N) - b - 1) := by
  have hmod := Nat.mod_lt b hN
  have hdiv := Nat.div_add_mod' b N
  obtain ⟨hb, hget⟩ := List.getElem?_eq_some_iff.mp hy
  have hsplit := List.take_append_drop (b % N) (group N l (b / N))
  have hleft : (group N l (b / N)).take (b % N) = (l.drop (b / N * N)).take (b % N) := by
    rw [group, List.take_take, Nat.min_eq_left (by omega)]
  have hright : (group N l (b / N)).drop (b % N) =
      y :: (l.drop (b + 1)).take (min l.length (b / N * N + N) - b - 1) := by
    rw [group, List.drop_take, List.drop_drop, hdiv, List.drop_eq_getElem_cons hb, hget,
      show N - b % N = (N - b % N - 1) + 1 by omega, List.take_succ_cons, List.cons.injEq]
    refine ⟨rfl, ?_⟩
    rw [List.take_eq_take_iff, List.length_drop]
    omega
  rw [← hsplit, hleft, hright]

/-- Level `k` over no leaves is empty. -/
@[simp] theorem level_nil (hN : 0 < N) (k : ℕ) : level N h ([] : List α) k = [] := by
  apply List.eq_nil_of_length_eq_zero
  rw [length_level hN]
  simp

/-! ### Locality -/

/-- The groups of two levels agree where their nodes do and both are full. -/
theorem group_eq_of_agree {l l' : List α} {j : ℕ}
    (hag : ∀ i < N, l[j * N + i]? = l'[j * N + i]?) : group N l j = group N l' j := by
  apply List.ext_getElem?
  intro i
  rcases Nat.lt_or_ge i N with hi | hi
  · rw [getElem?_group _ hi, getElem?_group _ hi, hag i hi]
  · rw [List.getElem?_eq_none (by rw [length_group]; omega),
      List.getElem?_eq_none (by rw [length_group]; omega)]

theorem child_mul_le {j i k m : ℕ} (hi : i < N) (hm : (j + 1) * N ^ (k + 1) ≤ m) :
    (j * N + i + 1) * N ^ k ≤ m := by
  have h1 : j * N + i + 1 ≤ (j + 1) * N := by
    rw [Nat.add_mul, Nat.one_mul]; omega
  calc (j * N + i + 1) * N ^ k ≤ (j + 1) * N * N ^ k := Nat.mul_le_mul_right _ h1
    _ = (j + 1) * N ^ (k + 1) := by rw [Nat.mul_assoc, Nat.pow_succ, Nat.mul_comm N]
    _ ≤ m := hm

/-- **Locality.**  A node all of whose leaves are among the first `m` is the same in any two
trees that agree on the first `m` leaves. -/
theorem level_agree (hN : 0 < N) {xs ys : List α} {m : ℕ} (hx : m ≤ xs.length)
    (hy : m ≤ ys.length) (hag : ∀ i < m, xs[i]? = ys[i]?) (k j : ℕ)
    (hj : (j + 1) * N ^ k ≤ m) : (level N h xs k)[j]? = (level N h ys k)[j]? := by
  induction k generalizing j with
  | zero =>
      rw [Nat.pow_zero, Nat.mul_one] at hj
      exact hag j (by omega)
  | succ k ih =>
      have hlt : j * N ^ (k + 1) < m := by
        have := Nat.pow_pos (n := k + 1) hN
        rw [Nat.add_mul, Nat.one_mul] at hj
        omega
      rw [getElem?_level_succ hN xs (by omega), getElem?_level_succ hN ys (by omega)]
      rw [group_eq_of_agree fun i hi => ih (j * N + i) (child_mul_le hi hj)]

/-- Nodes over the first leaves are unchanged by appending. -/
theorem level_append (hN : 0 < N) (xs ys : List α) (k j : ℕ)
    (hj : (j + 1) * N ^ k ≤ xs.length) :
    (level N h (xs ++ ys) k)[j]? = (level N h xs k)[j]? := by
  apply level_agree hN (m := xs.length) (by simp) le_rfl _ k j hj
  intro i hi
  rw [List.getElem?_append_left hi]

/-- Nodes over the first `m` leaves are those of the tree over these leaves alone. -/
theorem level_take (hN : 0 < N) (xs : List α) {m k j : ℕ} (hm : m ≤ xs.length)
    (hj : (j + 1) * N ^ k ≤ m) :
    (level N h (xs.take m) k)[j]? = (level N h xs k)[j]? := by
  apply level_agree hN (m := m) (by simpa using hm) hm _ k j hj
  intro i hi
  rw [List.getElem?_take_of_lt hi]

/-! ### The root -/

theorem length_level_eq_one (hN : 1 < N) {l : List α} (hl : l ≠ []) {k : ℕ}
    (hk : Nat.clog N l.length ≤ k) : (level N h l k).length = 1 := by
  have hpos : 0 < l.length := List.length_pos_iff.mpr hl
  rw [length_level (by omega)]
  apply le_antisymm
  · rw [ceilDiv_le_iff_le_mul (Nat.pow_pos (by omega)), Nat.mul_one]
    exact (Nat.clog_le_iff_le_pow hN).mp hk
  · rw [Nat.one_le_iff_ne_zero, ← Nat.pos_iff_ne_zero, lt_ceilDiv_iff (Nat.pow_pos (by omega))]
    omega

/-- The root of a non-empty tree. -/
theorem root_eq_some (hN : 1 < N) {l : List α} (hl : l ≠ []) :
    ∃ r, root N h l = some r ∧ ∀ k, Nat.clog N l.length ≤ k → level N h l k = [r] := by
  obtain ⟨r, hr⟩ := List.length_eq_one_iff.mp (length_level_eq_one (h := h) hN hl le_rfl)
  refine ⟨r, by rw [root, hr]; rfl, ?_⟩
  intro k hk
  induction k, hk using Nat.le_induction with
  | base => exact hr
  | succ k _ ih =>
      rw [level_succ, ih]
      have e : ([r] : List α).length ⌈/⌉ N = 1 := by
        rw [List.length_singleton, ceilDiv_eq_pred_div (by omega) (by omega)]
        simp
      have hg : group N [r] 0 = [r] := by
        unfold group
        rw [Nat.zero_mul, List.drop_zero, List.take_of_length_le (by simp; omega)]
      rw [parents, e]
      simp [hg]

theorem root_nil (hN : 0 < N) : root N h ([] : List α) = none := by
  rw [root, level_nil hN]; rfl

/-! ### Binding -/

/-- `h` separates groups of two to `N` nodes. -/
def InjectiveOn (h : List α → α) (N : ℕ) : Prop :=
  ∀ a b : List α, 2 ≤ a.length → a.length ≤ N → 2 ≤ b.length → b.length ≤ N → h a = h b → a = b

theorem combine_inj (hinj : InjectiveOn h N) {a b : List α} (hlen : a.length = b.length)
    (h1 : 1 ≤ a.length) (hle : a.length ≤ N) (heq : combine h a = combine h b) : a = b := by
  rcases Nat.lt_or_ge a.length 2 with h2 | h2
  · obtain ⟨x, rfl⟩ := List.length_eq_one_iff.mp (show a.length = 1 by omega)
    obtain ⟨y, rfl⟩ := List.length_eq_one_iff.mp (show b.length = 1 by omega)
    rw [combine_singleton, combine_singleton] at heq
    rw [heq]
  · rw [combine_of_two_le h2, combine_of_two_le (by omega)] at heq
    exact hinj a b h2 hle (by omega) (by omega) heq

/-- Two trees have the same number of leaves below node `j` of level `k`. -/
def SameShape (N : ℕ) (n n' k j : ℕ) : Prop :=
  min ((j + 1) * N ^ k) n = min ((j + 1) * N ^ k) n'

theorem SameShape.child {n n' k j i : ℕ} (hs : SameShape N n n' (k + 1) j) (hi : i < N) :
    SameShape N n n' k (j * N + i) := by
  unfold SameShape at hs ⊢
  rcases Nat.lt_or_ge n ((j + 1) * N ^ (k + 1)) with hlt | hge
  · have : n = n' := by omega
    rw [this]
  · have h1 := child_mul_le hi hge
    have h2 : (j * N + i + 1) * N ^ k ≤ n' := child_mul_le hi (by omega)
    omega

theorem SameShape.length_group (hN : 0 < N) {xs ys : List α} {k j : ℕ}
    (hs : SameShape N xs.length ys.length (k + 1) j) :
    (group N (level N h xs k) j).length = (group N (level N h ys k) j).length := by
  rw [LeanTree.length_group, LeanTree.length_group, length_level hN, length_level hN]
  unfold SameShape at hs
  rcases Nat.lt_or_ge xs.length ((j + 1) * N ^ (k + 1)) with hlt | hge
  · have e : xs.length = ys.length := by omega
    rw [e]
  · have hfull : ∀ n, (j + 1) * N ^ (k + 1) ≤ n → N ≤ n ⌈/⌉ N ^ k - j * N := by
      intro n hn
      have h1 : (j + 1) * N ≤ n ⌈/⌉ N ^ k := by
        by_contra hc
        rw [not_le, ← Nat.succ_le_iff, Nat.succ_eq_add_one] at hc
        have hlast := child_mul_le (i := N - 1) (by omega) hn
        have h3 : j * N + (N - 1) < n ⌈/⌉ N ^ k := by
          rw [lt_ceilDiv_iff (Nat.pow_pos hN)]
          have := Nat.pow_pos (n := k) hN
          rw [Nat.add_mul, Nat.one_mul] at hlast
          omega
        rw [Nat.add_mul, Nat.one_mul] at hc
        omega
      rw [Nat.add_mul, Nat.one_mul] at h1
      omega
    have h1 := hfull _ hge
    have h2 := hfull ys.length (by omega)
    omega

/-- **Binding.**  If two trees have the same shape below node `j` of level `k` and the same
value there, they have the same leaves there. -/
theorem leaves_eq_of_node_eq (hN : 0 < N) (hinj : InjectiveOn h N) {xs ys : List α} (k j : ℕ)
    (hs : SameShape N xs.length ys.length k j) (hj : j * N ^ k < xs.length)
    (heq : (level N h xs k)[j]? = (level N h ys k)[j]?) :
    ∀ i, j * N ^ k ≤ i → i < (j + 1) * N ^ k → xs[i]? = ys[i]? := by
  induction k generalizing j with
  | zero =>
      intro i h1 h2
      rw [Nat.pow_zero, Nat.mul_one] at h1 h2
      have : i = j := by omega
      rw [this]
      exact heq
  | succ k ih =>
      intro i h1 h2
      have hpos := Nat.pow_pos (n := k) hN
      have hj' : j * N ^ (k + 1) < ys.length := by
        have hlt : j * N ^ (k + 1) < (j + 1) * N ^ (k + 1) :=
          Nat.mul_lt_mul_of_pos_right (Nat.lt_succ_self j) (Nat.pow_pos hN)
        unfold SameShape at hs
        omega
      rw [getElem?_level_succ hN xs hj, getElem?_level_succ hN ys hj', Option.some.injEq] at heq
      have hlen := hs.length_group (h := h) hN
      have hjN : j * N < (level N h xs k).length := by
        rw [lt_length_level hN, Nat.mul_assoc, ← Nat.pow_succ']
        exact hj
      have hg := combine_inj hinj hlen (by rw [length_group]; omega)
        (by rw [length_group]; omega) heq
      -- the child of node `j` above leaf `i`
      have hc1 : j * N ≤ i / N ^ k := by
        rw [Nat.le_div_iff_mul_le hpos, Nat.mul_assoc, ← Nat.pow_succ']
        exact h1
      have hc2 : i / N ^ k < (j + 1) * N := by
        rw [Nat.div_lt_iff_lt_mul hpos, Nat.mul_assoc, ← Nat.pow_succ']
        exact h2
      obtain ⟨c, hc⟩ : ∃ c, i / N ^ k = j * N + c := ⟨i / N ^ k - j * N, by omega⟩
      have hcN : c < N := by
        rw [Nat.add_mul, Nat.one_mul] at hc2
        omega
      have hb1 : (j * N + c) * N ^ k ≤ i := by
        rw [← hc]; exact Nat.div_mul_le_self i _
      have hb2 : i < (j * N + c + 1) * N ^ k := by
        rw [← hc, Nat.mul_comm]
        exact Nat.lt_mul_div_succ i hpos
      rcases Nat.lt_or_ge ((j * N + c) * N ^ k) xs.length with hin | hout
      · apply ih (j * N + c) (hs.child hcN) hin _ i hb1 hb2
        rw [← getElem?_group _ hcN, ← getElem?_group _ hcN, hg]
      · have hx : xs.length ≤ i := by omega
        have hy : ys.length ≤ i := by
          unfold SameShape at hs
          omega
        rw [List.getElem?_eq_none hx, List.getElem?_eq_none hy]

/-- Trees with as many leaves and the same root have the same leaves. -/
theorem eq_of_root_eq (hN : 1 < N) (hinj : InjectiveOn h N) {xs ys : List α}
    (hlen : xs.length = ys.length) (heq : root N h xs = root N h ys) : xs = ys := by
  rcases List.eq_nil_or_concat xs with rfl | ⟨_, _, hx⟩
  · exact (List.length_eq_zero_iff.mp hlen.symm).symm
  · have hne : xs ≠ [] := by rw [hx]; simp
    have hpos : 0 < xs.length := List.length_pos_iff.mpr hne
    have hle : xs.length ≤ N ^ Nat.clog N xs.length := Nat.le_pow_clog hN _
    apply List.ext_getElem?
    intro i
    rcases Nat.lt_or_ge i xs.length with hi | hi
    · apply leaves_eq_of_node_eq (by omega) hinj (Nat.clog N xs.length) 0 _ (by omega) _ i
        (by omega) (by omega)
      · unfold SameShape; rw [hlen]
      · unfold root at heq
        rw [List.head?_eq_getElem?, List.head?_eq_getElem?, ← hlen] at heq
        exact heq
    · rw [List.getElem?_eq_none hi, List.getElem?_eq_none (by omega)]

end Works.Lib.LeanTree
