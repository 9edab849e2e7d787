import Works.Lib.Outcome

/-! # Fixed-size arrays with checked accesses

An array of `n` elements is a function on `Fin n`.  Indexing, taking a slice and copying
into a range panic outside the bounds; the lemmas say what they return inside them.  A
sequence kept as a list of arrays of `B` elements each is read through the block and the
position in it (`getElem?_blocks`). -/

namespace Works.Lib.FixedArray

variable {α ε : Type} {n : ℕ}

/-- The element at `i`. -/
def index (a : Fin n → α) (i : ℕ) : Outcome ε α :=
  if h : i < n then .ok (a ⟨i, h⟩) else .panic

/-- The elements `lo ≤ i < hi`. -/
def slice (a : Fin n → α) (lo hi : ℕ) : Outcome ε (List α) :=
  if lo ≤ hi ∧ hi ≤ n then .ok (((List.ofFn a).take hi).drop lo) else .panic

/-- Overwrite the element at `i`. -/
def setAt (a : Fin n → α) (i : ℕ) (x : α) : Outcome ε (Fin n → α) :=
  if i < n then .ok (fun k => if k.val = i then x else a k) else .panic

/-- Overwrite the elements from `lo` on with `xs`. -/
def overwrite (a : Fin n → α) (lo : ℕ) (xs : List α) : Fin n → α :=
  fun k => if lo ≤ k.val then (xs[k.val - lo]?).getD (a k) else a k

/-- Copy `xs` into the range `lo ≤ i < hi`, which must have its length. -/
def copyFromSlice (a : Fin n → α) (lo hi : ℕ) (xs : List α) : Outcome ε (Fin n → α) :=
  if lo ≤ hi ∧ hi ≤ n ∧ xs.length = hi - lo then .ok (overwrite a lo xs) else .panic

theorem index_of_lt (a : Fin n → α) {i : ℕ} (h : i < n) :
    (index a i : Outcome ε α) = .ok (a ⟨i, h⟩) := dif_pos h

theorem slice_of_le (a : Fin n → α) {lo hi : ℕ} (h1 : lo ≤ hi) (h2 : hi ≤ n) :
    (slice a lo hi : Outcome ε (List α)) = .ok (((List.ofFn a).take hi).drop lo) :=
  if_pos ⟨h1, h2⟩

theorem setAt_of_lt (a : Fin n → α) {i : ℕ} (x : α) (h : i < n) :
    (setAt a i x : Outcome ε (Fin n → α)) = .ok (fun k => if k.val = i then x else a k) :=
  if_pos h

theorem copyFromSlice_of_le (a : Fin n → α) {lo hi : ℕ} {xs : List α} (h1 : lo ≤ hi)
    (h2 : hi ≤ n) (h3 : xs.length = hi - lo) :
    (copyFromSlice a lo hi xs : Outcome ε (Fin n → α)) = .ok (overwrite a lo xs) :=
  if_pos ⟨h1, h2, h3⟩

theorem getElem?_slice (a : Fin n → α) {lo hi i : ℕ} (h : lo + i < hi) (hn : hi ≤ n) :
    (((List.ofFn a).take hi).drop lo)[i]? = some (a ⟨lo + i, by omega⟩) := by
  rw [List.getElem?_drop, List.getElem?_take_of_lt h, List.getElem?_ofFn, dif_pos (by omega)]

theorem length_slice (a : Fin n → α) {lo hi : ℕ} (hn : hi ≤ n) :
    (((List.ofFn a).take hi).drop lo).length = hi - lo := by
  simp [hn]

theorem overwrite_of_lt (a : Fin n → α) {lo : ℕ} {xs : List α} {k : Fin n} (h : k.val < lo) :
    overwrite a lo xs k = a k := if_neg (by omega)

theorem overwrite_of_mem (a : Fin n → α) {lo : ℕ} {xs : List α} {k : Fin n} (h1 : lo ≤ k.val)
    (h2 : k.val - lo < xs.length) : overwrite a lo xs k = xs[k.val - lo] := by
  rw [overwrite, if_pos h1, List.getElem?_eq_getElem h2, Option.getD_some]

theorem overwrite_of_ge (a : Fin n → α) {lo : ℕ} {xs : List α} {k : Fin n}
    (h : lo + xs.length ≤ k.val) : overwrite a lo xs k = a k := by
  rw [overwrite, if_pos (by omega), List.getElem?_eq_none (by omega), Option.getD_none]

/-- Reading back what was copied from another array. -/
theorem overwrite_slice {m : ℕ} (a : Fin n → α) (b : Fin m → α) {lo first last : ℕ} {k : Fin n}
    (hlast : last ≤ m) (h1 : lo ≤ k.val) (h2 : first + (k.val - lo) < last) :
    overwrite a lo (((List.ofFn b).take last).drop first) k = b ⟨first + (k.val - lo), by omega⟩ := by
  rw [overwrite, if_pos h1, getElem?_slice b h2 hlast, Option.getD_some]

/-- Reading back what was copied to the front. -/
theorem take_overwrite_zero (a : Fin n → α) {xs : List α} (h : xs.length ≤ n) :
    ((List.ofFn (overwrite a 0 xs)).take xs.length).drop 0 = xs := by
  apply List.ext_getElem?
  intro i
  rcases Nat.lt_or_ge i xs.length with hi | hi
  · rw [getElem?_slice _ (by omega) h, overwrite_of_mem _ (by simp) (by simpa using hi)]
    simp [List.getElem?_eq_getElem hi]
  · rw [List.getElem?_eq_none (by rw [length_slice _ h]; omega), List.getElem?_eq_none hi]

/-! ### Arrays that start with a list -/

/-- The first elements of `a` are the list `l`. -/
structure StartsWith (a : Fin n → α) (l : List α) : Prop where
  fits : l.length ≤ n
  reads : ∀ k : Fin n, k.val < l.length → l[k.val]? = some (a k)

theorem startsWith_nil (a : Fin n → α) : StartsWith a [] :=
  ⟨Nat.zero_le _, fun _ h => absurd h (Nat.not_lt_zero _)⟩

theorem StartsWith.of_append {a : Fin n → α} {l m : List α} (h : StartsWith a (l ++ m)) :
    StartsWith a l where
  fits := by
    have := h.fits
    rw [List.length_append] at this
    omega
  reads := by
    intro k hk
    rw [← h.reads k (by rw [List.length_append]; omega), List.getElem?_append_left hk]

theorem StartsWith.take {a : Fin n → α} {l : List α} (h : StartsWith a l) {m : ℕ}
    (hm : m ≤ l.length) : (List.ofFn a).take m = l.take m := by
  have hfits := h.fits
  apply List.ext_getElem?
  intro i
  rcases Nat.lt_or_ge i m with hi | hi
  · rw [List.getElem?_take_of_lt hi, List.getElem?_take_of_lt hi, List.getElem?_ofFn,
      dif_pos (show i < n by omega), h.reads ⟨i, by omega⟩ (show i < l.length by omega)]
  · rw [List.getElem?_eq_none (by simp; omega), List.getElem?_eq_none (by simp; omega)]

theorem StartsWith.getElem?_ofFn {a : Fin n → α} {l : List α} (h : StartsWith a l) {i : ℕ}
    (hi : i < l.length) : (List.ofFn a)[i]? = l[i]? := by
  have hfits := h.fits
  rw [List.getElem?_ofFn, dif_pos (show i < n by omega), h.reads ⟨i, by omega⟩ hi]

theorem StartsWith.slice {a : Fin n → α} {l : List α} (h : StartsWith a l) {lo hi : ℕ}
    (hlo : lo ≤ hi) (hhi : hi ≤ l.length) :
    (FixedArray.slice a lo hi : Outcome ε (List α)) = .ok ((l.take hi).drop lo) := by
  rw [slice_of_le a hlo (hhi.trans h.fits), h.take hhi]

theorem StartsWith.slice_all {a : Fin n → α} {l : List α} (h : StartsWith a l) {hi : ℕ}
    (hhi : hi = l.length) : (FixedArray.slice a 0 hi : Outcome ε (List α)) = .ok l := by
  rw [h.slice (Nat.zero_le _) hhi.le, hhi, List.take_length, List.drop_zero]

theorem StartsWith.map {β : Type} {a : Fin n → α} {l : List α} (h : StartsWith a l) (f : α → β) :
    StartsWith (fun k => f (a k)) (l.map f) where
  fits := by rw [List.length_map]; exact h.fits
  reads := by
    intro k hk
    rw [List.length_map] at hk
    rw [List.getElem?_map, h.reads k hk]
    rfl

theorem StartsWith.overwrite {a : Fin n → α} {l ys : List α} (h : StartsWith a l)
    (hfit : l.length + ys.length ≤ n) : StartsWith (overwrite a l.length ys) (l ++ ys) where
  fits := by rw [List.length_append]; exact hfit
  reads := by
    intro k hk
    rw [List.length_append] at hk
    rcases Nat.lt_or_ge k.val l.length with hlt | hge
    · rw [overwrite_of_lt a hlt, List.getElem?_append_left hlt, h.reads k hlt]
    · rw [overwrite_of_mem a hge (by omega), List.getElem?_append_right hge,
        List.getElem?_eq_getElem]

theorem StartsWith.copy {a : Fin n → α} {l : List α} (h : StartsWith a l) (lo hi : ℕ)
    (ys : List α) (hlo : lo = l.length) (hhi : hi = lo + ys.length) (hn : hi ≤ n) :
    ∃ a', (copyFromSlice a lo hi ys : Outcome ε (Fin n → α)) = .ok a' ∧ StartsWith a' (l ++ ys) := by
  subst hlo hhi
  exact ⟨_, copyFromSlice_of_le a (by omega) hn (by omega), h.overwrite hn⟩

theorem StartsWith.set {a : Fin n → α} {l : List α} (h : StartsWith a l) (i : ℕ) (x : α)
    (hi : i = l.length) (hn : i < n) :
    ∃ a', (setAt a i x : Outcome ε (Fin n → α)) = .ok a' ∧ StartsWith a' (l ++ [x]) := by
  refine ⟨_, setAt_of_lt a x hn, ?_, ?_⟩
  · rw [List.length_append, List.length_singleton]; omega
  · intro k hk
    rw [List.length_append, List.length_singleton] at hk
    split_ifs with hki
    · rw [hki, hi, List.getElem?_append_right le_rfl, Nat.sub_self]
      rfl
    · rw [List.getElem?_append_left (by omega), h.reads k (by omega)]

/-- A group is put together in an array: the elements left of `x`, `x`, and those right of it. -/
theorem fill_around (a : Fin n → α) {left right : List α} (x : α) (pos total : ℕ)
    (hpos : pos = left.length) (htotal : total = pos + 1 + right.length) (hn : total ≤ n) :
    ∃ a₁ a₂ a₃, (copyFromSlice a 0 pos left : Outcome ε (Fin n → α)) = .ok a₁ ∧
      (setAt a₁ pos x : Outcome ε (Fin n → α)) = .ok a₂ ∧
      (copyFromSlice a₂ (pos + 1) total right : Outcome ε (Fin n → α)) = .ok a₃ ∧
      (FixedArray.slice a₃ 0 total : Outcome ε (List α)) = .ok (left ++ x :: right) := by
  obtain ⟨a₁, e₁, s₁⟩ := (startsWith_nil a).copy (ε := ε) 0 pos left rfl (by omega) (by omega)
  obtain ⟨a₂, e₂, s₂⟩ := s₁.set (ε := ε) pos x (by simpa using hpos) (by omega)
  obtain ⟨a₃, e₃, s₃⟩ := s₂.copy (ε := ε) (pos + 1) total right (by simp [hpos]) htotal hn
  refine ⟨a₁, a₂, a₃, e₁, e₂, e₃, ?_⟩
  rw [s₃.slice_all (by simp [hpos, htotal]; omega)]
  simp

/-- The first `d` elements of an array that was filled up to there. -/
theorem take_ofFn_if {d : ℕ} (hd : d ≤ n) (f : ℕ → α) (e : α) :
    (List.ofFn fun k : Fin n => if k.val < d then f k.val else e).take d =
      (List.range' 0 d).map f := by
  apply List.ext_getElem?
  intro k
  rcases Nat.lt_or_ge k d with hk | hk
  · rw [List.getElem?_take_of_lt hk, List.getElem?_ofFn, dif_pos (by omega), List.getElem?_map,
      List.getElem?_range' hk, Option.map_some]
    simp [hk]
  · rw [List.getElem?_eq_none (by simp; omega), List.getElem?_eq_none (by simp; omega)]

/-- The first `d` elements of an array, read through a function on all indices. -/
theorem take_ofFn_eq_map {d : ℕ} (hd : d ≤ n) {a : Fin n → α} {f : ℕ → α}
    (hf : ∀ k (hk : k < n), f k = a ⟨k, hk⟩) :
    (List.ofFn a).take d = (List.range' 0 d).map f := by
  apply List.ext_getElem?
  intro k
  rcases Nat.lt_or_ge k d with hk | hk
  · rw [List.getElem?_take_of_lt hk, List.getElem?_ofFn, dif_pos (by omega), List.getElem?_map,
      List.getElem?_range' hk, Option.map_some, Nat.zero_add, Nat.one_mul, hf k (by omega)]
  · rw [List.getElem?_eq_none (by simp; omega), List.getElem?_eq_none (by simp; omega)]

/-! ### Lists padded with zeros -/

section Padded

variable [Zero α]

/-- The list `l` followed by zeros. -/
def padded (l : List α) : Fin n → α := fun k => (l[k.val]?).getD 0

theorem startsWith_padded {l : List α} (h : l.length ≤ n) : StartsWith (padded l : Fin n → α) l where
  fits := h
  reads := by
    intro k hk
    rw [padded, List.getElem?_eq_getElem hk, Option.getD_some]

/-- A zero at the end is padding. -/
theorem padded_concat_zero (l : List α) : (padded (l ++ [0]) : Fin n → α) = padded l := by
  funext k
  unfold padded
  rcases Nat.lt_trichotomy k.val l.length with h | h | h
  · rw [List.getElem?_append_left h]
  · rw [h, List.getElem?_append_right le_rfl, Nat.sub_self, List.getElem?_eq_none le_rfl]
    rfl
  · rw [List.getElem?_eq_none (by simp; omega), List.getElem?_eq_none (by omega)]

theorem copyFromSlice_padded {l ys : List α} {lo hi : ℕ} (hlo : lo = l.length)
    (hhi : hi = lo + ys.length) (hn : hi ≤ n) :
    (copyFromSlice (padded l) lo hi ys : Outcome ε (Fin n → α)) = .ok (padded (l ++ ys)) := by
  subst hlo hhi
  rw [copyFromSlice_of_le _ (by omega) hn (by omega)]
  congr 1
  funext k
  unfold padded
  rcases Nat.lt_or_ge k.val l.length with h | h
  · rw [overwrite_of_lt _ h, List.getElem?_append_left h]
  · rw [overwrite, if_pos h, List.getElem?_append_right h, List.getElem?_eq_none h,
      Option.getD_none]

theorem copyFromSlice_zero {ys : List α} {hi : ℕ} (hhi : hi = ys.length) (hn : hi ≤ n) :
    (copyFromSlice (fun _ => 0) 0 hi ys : Outcome ε (Fin n → α)) = .ok (padded ys) := by
  have := copyFromSlice_padded (ε := ε) (l := []) rfl (hhi.trans (Nat.zero_add _).symm) hn
  rwa [List.nil_append] at this

theorem setAt_padded {l : List α} {i : ℕ} (x : α) (hi : i < l.length) (hn : l.length ≤ n) :
    (setAt (padded l) i x : Outcome ε (Fin n → α)) = .ok (padded (l.set i x)) := by
  rw [setAt_of_lt _ x (by omega)]
  congr 1
  funext k
  unfold padded
  rcases eq_or_ne k.val i with h | h
  · rw [if_pos h, h, List.getElem?_set_self hi, Option.getD_some]
  · rw [if_neg h, List.getElem?_set_ne (Ne.symm h)]

end Padded

/-! ### Overwriting part of a list -/

/-- `l` with the elements from `lo` on overwritten by `ys`. -/
def splice (l : List α) (lo : ℕ) (ys : List α) : List α :=
  l.take lo ++ ys ++ l.drop (lo + ys.length)

theorem length_splice {l : List α} {lo : ℕ} {ys : List α} (h : lo + ys.length ≤ l.length) :
    (splice l lo ys).length = l.length := by
  simp only [splice, List.length_append, List.length_take, List.length_drop]
  omega

theorem getElem?_splice_of_le {l : List α} {lo : ℕ} {ys : List α} (h : lo ≤ l.length)
    (i : ℕ) : (splice l lo ys)[i]? =
      if lo ≤ i ∧ i < lo + ys.length then ys[i - lo]? else l[i]? := by
  unfold splice
  have hlo : (l.take lo).length = lo := by rw [List.length_take]; omega
  have hlen : (l.take lo ++ ys).length = lo + ys.length := by rw [List.length_append, hlo]
  rcases Nat.lt_or_ge i lo with h1 | h1
  · rw [List.append_assoc, List.getElem?_append_left (by omega), List.getElem?_take_of_lt h1,
      if_neg (by omega)]
  · rcases Nat.lt_or_ge i (lo + ys.length) with h2 | h2
    · rw [List.getElem?_append_left (by omega), List.getElem?_append_right (by omega), hlo,
        if_pos ⟨h1, h2⟩]
    · rw [List.getElem?_append_right (by omega), hlen, List.getElem?_drop, if_neg (by omega)]
      congr 1
      omega

theorem getElem?_splice {l : List α} {lo : ℕ} {ys : List α} (h : lo + ys.length ≤ l.length)
    (i : ℕ) : (splice l lo ys)[i]? =
      if lo ≤ i ∧ i < lo + ys.length then ys[i - lo]? else l[i]? :=
  getElem?_splice_of_le (by omega) i

/-- Elements that are put in one after the other, also behind the end. -/
theorem splice_cons {l : List α} {lo : ℕ} (h : lo ≤ l.length) (y : α) (ys : List α) :
    splice l lo (y :: ys) = splice (splice l lo [y]) (lo + 1) ys := by
  have hlen : lo + 1 ≤ (splice l lo [y]).length := by
    simp only [splice, List.length_append, List.length_take, List.length_singleton]
    omega
  apply List.ext_getElem?
  intro i
  rw [getElem?_splice_of_le h, getElem?_splice_of_le hlen, getElem?_splice_of_le h,
    List.length_cons, List.length_singleton]
  rcases Nat.lt_trichotomy i lo with hi | hi | hi
  · rw [if_neg (by omega), if_neg (by omega), if_neg (by omega)]
  · rw [if_pos (by omega), if_neg (by omega), if_pos (by omega), hi, Nat.sub_self]
    rfl
  · rw [if_neg (show ¬ (lo ≤ i ∧ i < lo + 1) by omega)]
    by_cases hend : i < lo + (ys.length + 1)
    · rw [if_pos (by omega), if_pos (by omega), show i - lo = i - (lo + 1) + 1 by omega,
        List.getElem?_cons_succ]
    · rw [if_neg (by omega), if_neg (by omega)]

theorem splice_nil (l : List α) (lo : ℕ) : splice l lo [] = l := by simp [splice]

/-- Overwriting in two consecutive pieces. -/
theorem splice_splice {l : List α} {lo d t : ℕ} {ys : List α} (h : lo + ys.length ≤ l.length)
    (hd : d + t ≤ ys.length) :
    splice (splice l lo (ys.take d)) (lo + d) ((ys.drop d).take t) = splice l lo (ys.take (d + t)) := by
  have h1 : (ys.take d).length = d := by rw [List.length_take]; omega
  have h2 : ((ys.drop d).take t).length = t := by rw [List.length_take, List.length_drop]; omega
  have h3 : (ys.take (d + t)).length = d + t := by rw [List.length_take]; omega
  apply List.ext_getElem?
  intro i
  rw [getElem?_splice (by rw [length_splice (by omega)]; omega), getElem?_splice (by omega),
    getElem?_splice (by omega), h1, h2, h3]
  by_cases hi1 : lo + d ≤ i ∧ i < lo + d + t
  · rw [if_pos hi1, if_pos (by omega), List.getElem?_take_of_lt (by omega), List.getElem?_drop,
      List.getElem?_take_of_lt (by omega)]
    congr 1
    omega
  · rw [if_neg hi1]
    by_cases hi2 : lo ≤ i ∧ i < lo + d
    · rw [if_pos hi2, if_pos (by omega), List.getElem?_take_of_lt (by omega),
        List.getElem?_take_of_lt (by omega)]
    · rw [if_neg hi2, if_neg (by omega)]

/-! ### Sequences of blocks -/

/-- Element `i` of a sequence of blocks of `B` elements is element `i % B` of block `i / B`. -/
theorem getElem?_blocks (hn : 0 < n) (bs : List (Fin n → α)) (i : ℕ) :
    (bs.flatMap List.ofFn)[i]? = (bs[i / n]?).map fun b => b ⟨i % n, Nat.mod_lt _ hn⟩ := by
  induction bs generalizing i with
  | nil => simp
  | cons b bs ih =>
      rw [List.flatMap_cons]
      rcases Nat.lt_or_ge i n with h | h
      · rw [List.getElem?_append_left (by simpa using h), Nat.div_eq_of_lt h]
        simp [h, Nat.mod_eq_of_lt h]
      · rw [List.getElem?_append_right (by simpa using h), List.length_ofFn, ih,
          Nat.div_eq_sub_div hn h, List.getElem?_cons_succ]
        simp only [Nat.mod_eq_sub_mod h]

theorem length_blocks (bs : List (Fin n → α)) :
    (bs.flatMap List.ofFn).length = bs.length * n := by
  induction bs with
  | nil => simp
  | cons b bs ih =>
      rw [List.flatMap_cons, List.length_append, ih, List.length_ofFn, List.length_cons]
      ring

/-- The blocks from one on. -/
theorem drop_blocks (bs : List (Fin n → α)) (k : ℕ) :
    (bs.drop k).flatMap List.ofFn = (bs.flatMap List.ofFn).drop (k * n) := by
  induction bs generalizing k with
  | nil => simp
  | cons b bs ih =>
      cases k with
      | zero => simp
      | succ k =>
          have hfirst : (List.ofFn b).drop ((k + 1) * n) = [] := by
            apply List.drop_eq_nil_of_le
            rw [List.length_ofFn, Nat.succ_mul]
            omega
          rw [List.drop_succ_cons, ih, List.flatMap_cons, List.drop_append, hfirst,
            List.length_ofFn, Nat.succ_mul, Nat.add_sub_cancel, List.nil_append]

/-- Overwriting one element of one block overwrites that element of the sequence. -/
theorem blocks_set (hn : 0 < n) {bs : List (Fin n → α)} {i : ℕ} {b : Fin n → α}
    (hb : bs[i / n]? = some b) (x : α) :
    (bs.set (i / n) fun k => if k.val = i % n then x else b k).flatMap List.ofFn =
      (bs.flatMap List.ofFn).set i x := by
  obtain ⟨hlt, hget⟩ := List.getElem?_eq_some_iff.mp hb
  have hi : i < bs.length * n := (Nat.div_lt_iff_lt_mul hn).mp hlt
  apply List.ext_getElem?
  intro j
  rw [getElem?_blocks hn, List.getElem?_set, List.getElem?_set, getElem?_blocks hn]
  by_cases hd : i / n = j / n
  · rw [if_pos hd, if_pos hlt, ← hd, hb]
    by_cases hij : i = j
    · subst hij
      simp [hi]
    · have hm : ¬ j % n = i % n := by
        intro hm
        apply hij
        rw [← Nat.div_add_mod i n, ← Nat.div_add_mod j n, hd, hm]
      simp [hij, hm]
  · have hij : ¬ i = j := fun e => hd (by rw [e])
    rw [if_neg hd, if_neg hij]

end Works.Lib.FixedArray
