import Works.Lib.Circular
import Works.Chainfold.Basic

/-! # The ring of observed blocks

`BlockRing` of `ring.rs`: two lanes of one power-of-two length, the place of the oldest entry
and the number of entries.  The entries oldest first (`iter`) are what the rest of the engine
sees of the ring: every operation is described by what it does to that list, so that two
rings with the same entries behave alike wherever these stand in the lanes.  The searches
rely on the numbers being strictly ascending. -/

namespace Works.Chainfold

open Works.Lib Works.Lib.Circular

/-- `BlockRing`. -/
structure BlockRing where
  numbers : List ℕ
  hashes : List Hash
  head : ℕ
  len : ℕ
  lanes : hashes.length = numbers.length
  pow : numbers.length.isPowerOfTwo
  head_lt : head < numbers.length
  len_le : len ≤ numbers.length

namespace BlockRing

/-- `BlockRing::with_capacity`. -/
def withCapacity (capacity : ℕ) (h : capacity.isPowerOfTwo) : BlockRing where
  numbers := List.replicate capacity 0
  hashes := List.replicate capacity (Vector.replicate 32 0)
  head := 0
  len := 0
  lanes := by simp
  pow := by simpa using h
  head_lt := by simpa using Nat.pos_of_isPowerOfTwo h
  len_le := by simp

/-- `BlockRing::capacity`. -/
def capacity (r : BlockRing) : ℕ := r.numbers.length

theorem capacity_pos (r : BlockRing) : 0 < r.capacity := Nat.pos_of_isPowerOfTwo r.pow

/-- `BlockRing::physical`. -/
def physical (r : BlockRing) (logical : ℕ) : ℕ := (r.head + logical) &&& (r.capacity - 1)

theorem and_capacity (r : BlockRing) (n : ℕ) : n &&& (r.capacity - 1) = n % r.capacity := by
  obtain ⟨k, hk⟩ := r.pow
  rw [capacity, hk, Nat.and_two_pow_sub_one_eq_mod]

theorem physical_eq (r : BlockRing) (i : ℕ) : r.physical i = (r.head + i) % r.capacity :=
  r.and_capacity _

theorem physical_lt (r : BlockRing) (i : ℕ) : r.physical i < r.numbers.length := by
  rw [physical_eq]
  exact Nat.mod_lt _ r.capacity_pos

/-- The number at a logical index. -/
def numberAt (r : BlockRing) (i : ℕ) : ℕ := r.numbers.get ⟨r.physical i, r.physical_lt i⟩

/-- The hash at a logical index. -/
def hashOf (r : BlockRing) (i : ℕ) : Hash :=
  r.hashes.get ⟨r.physical i, by rw [r.lanes]; exact r.physical_lt i⟩

/-- `BlockRing::get`. -/
def get (r : BlockRing) (index : ℕ) : BlockRef := ⟨r.numberAt index, r.hashOf index⟩

/-- `BlockRing::push`. -/
def push (r : BlockRing) (block : BlockRef) : BlockRing :=
  if h : r.len < r.capacity then
    { r with
      numbers := r.numbers.set (r.physical r.len) block.number
      hashes := r.hashes.set (r.physical r.len) block.hash
      len := r.len + 1
      lanes := by simp [r.lanes]
      pow := by simpa using r.pow
      head_lt := by simpa using r.head_lt
      len_le := by
        rw [List.length_set]
        exact h }
  else
    { r with
      numbers := r.numbers.set r.head block.number
      hashes := r.hashes.set r.head block.hash
      head := (r.head + 1) &&& (r.capacity - 1)
      lanes := by simp [r.lanes]
      pow := by simpa using r.pow
      head_lt := by
        rw [and_capacity, List.length_set]
        exact Nat.mod_lt _ r.capacity_pos
      len_le := by simpa using r.len_le }

/-- `BlockRing::newest_number`. -/
def newestNumber (r : BlockRing) : Option ℕ :=
  if r.len = 0 then none else some (r.numberAt (r.len - 1))

/-- The loop of `BlockRing::index_at_or_below`; each round shrinks `high - low`, which is the
`fuel` it starts with. -/
def search (r : BlockRing) (number : ℕ) : ℕ → ℕ → ℕ → ℕ
  | 0, low, _ => low
  | fuel + 1, low, high =>
      if low < high then
        let mid := low + (high - low + 1) / 2
        if r.numberAt mid ≤ number then r.search number fuel mid high
        else r.search number fuel low (mid - 1)
      else low

/-- `BlockRing::index_at_or_below`. -/
def indexAtOrBelow (r : BlockRing) (number : ℕ) : Option ℕ :=
  if r.len = 0 then none
  else
    let newest := r.len - 1
    if r.numberAt newest ≤ number then some newest
    else
      let low := r.search number newest 0 newest
      if r.numberAt low ≤ number then some low else none

theorem search_le (r : BlockRing) (n : ℕ) : ∀ (fuel low high : ℕ), low ≤ high →
    r.search n fuel low high ≤ high
  | 0, _, _, h => h
  | fuel + 1, low, high, h => by
      rw [search]
      split_ifs with hlow
      · dsimp only
        split_ifs with hmid
        · exact search_le r n fuel _ high (by omega)
        · exact (search_le r n fuel low _ (by omega)).trans (by omega)
      · exact h

theorem indexAtOrBelow_lt {r : BlockRing} {number logical : ℕ}
    (h : r.indexAtOrBelow number = some logical) : logical < r.len := by
  unfold indexAtOrBelow at h
  have hle := r.search_le number (r.len - 1) 0 (r.len - 1) (Nat.zero_le _)
  dsimp only at h
  split_ifs at h with h1 h2 h3
  · cases h
    omega
  · cases h
    omega

/-- `BlockRing::index_of`. -/
def indexOf (r : BlockRing) (number : ℕ) : Option ℕ :=
  if r.len = 0 then none
  else
    let newest := r.len - 1
    if r.numberAt newest < number then none
    else
      let behind := r.numberAt newest - number
      -- `checked_sub(..).unwrap_or(0)`
      let guess := newest - behind
      if r.numberAt guess = number then some guess
      else match r.indexAtOrBelow number with
        | none => none
        | some logical => if r.numberAt logical = number then some logical else none

/-- `BlockRing::hash_at`. -/
def hashAt (r : BlockRing) (number : ℕ) : Option Hash := (r.indexOf number).map r.hashOf

/-- `BlockRing::observes`. -/
def observes (r : BlockRing) (number : ℕ) : Bool := (r.indexOf number).isSome

/-- `BlockRing::clear`. -/
def clear (r : BlockRing) : BlockRing :=
  { r with
    head := 0
    len := 0
    head_lt := r.capacity_pos
    len_le := Nat.zero_le _ }

/-- `BlockRing::truncate_above`. -/
def truncateAbove (r : BlockRing) (number : ℕ) : BlockRing :=
  match h : r.indexAtOrBelow number with
  | some logical =>
      { r with
        len := logical + 1
        len_le := (Nat.succ_le_of_lt (indexAtOrBelow_lt h)).trans r.len_le }
  | none => r.clear

/-- `BlockRing::iter`, collected. -/
def iter (r : BlockRing) : List BlockRef := (List.range r.len).map r.get

/-- `BlockRing::iter_at_or_below`, collected. -/
def iterAtOrBelow (r : BlockRing) (number : ℕ) : List BlockRef :=
  (List.range (match r.indexAtOrBelow number with | none => 0 | some logical => logical + 1)).map
    r.get

/-- The entries are strictly ascending by number. -/
def Ascending (l : List BlockRef) : Prop := l.Pairwise fun a b => a.number < b.number

/-! ### The entries -/

@[simp] theorem length_iter (r : BlockRing) : r.iter.length = r.len := by simp [iter]

theorem getElem?_iter {r : BlockRing} {i : ℕ} (h : i < r.len) : r.iter[i]? = some (r.get i) := by
  simp [iter, h]

theorem getElem_iter {r : BlockRing} {i : ℕ} (h : i < r.iter.length) : r.iter[i] = r.get i := by
  simp [iter]

theorem iter_eq_window (r : BlockRing) :
    r.iter = List.zipWith BlockRef.mk (window r.numbers r.head r.len)
      (window r.hashes r.head r.len) := by
  apply List.ext_getElem?
  intro i
  rcases Nat.lt_or_ge i r.len with hi | hi
  · have hh : r.len ≤ r.hashes.length := by rw [r.lanes]; exact r.len_le
    have hcap : (r.head + i) % r.capacity < r.numbers.length := Nat.mod_lt _ r.capacity_pos
    rw [getElem?_iter hi, List.getElem?_zipWith, getElem?_window hi r.len_le,
      getElem?_window hi hh, r.lanes, ← capacity,
      List.getElem?_eq_getElem hcap, List.getElem?_eq_getElem (by rw [r.lanes]; exact hcap)]
    simp only [get, numberAt, hashOf, List.get_eq_getElem, physical_eq]
  · rw [List.getElem?_eq_none (by simpa using hi), List.getElem?_eq_none]
    rw [List.length_zipWith, length_window r.len_le]
    omega

@[simp] theorem iter_withCapacity (capacity : ℕ) (h : capacity.isPowerOfTwo) :
    (withCapacity capacity h).iter = [] := rfl

@[simp] theorem iter_clear (r : BlockRing) : r.clear.iter = [] := rfl

@[simp] theorem capacity_withCapacity (n : ℕ) (h : n.isPowerOfTwo) :
    (withCapacity n h).capacity = n := by
  simp [capacity, withCapacity]

@[simp] theorem capacity_clear (r : BlockRing) : r.clear.capacity = r.capacity := rfl

@[simp] theorem capacity_push (r : BlockRing) (b : BlockRef) :
    (r.push b).capacity = r.capacity := by
  unfold push capacity
  split_ifs <;> simp

theorem length_iter_le (r : BlockRing) : r.iter.length ≤ r.capacity := by
  rw [length_iter]
  exact r.len_le

/-- `push` of a block to a list of at most `cap` entries. -/
def pushed (cap : ℕ) (l : List BlockRef) (b : BlockRef) : List BlockRef :=
  if l.length < cap then l ++ [b] else l.tail ++ [b]

theorem iter_push (r : BlockRing) (b : BlockRef) :
    (r.push b).iter = pushed r.capacity r.iter b := by
  have hh : r.len ≤ r.hashes.length := by rw [r.lanes]; exact r.len_le
  have hlen : (window r.numbers r.head r.len).length = (window r.hashes r.head r.len).length := by
    rw [length_window r.len_le, length_window hh]
  rw [iter_eq_window, iter_eq_window, pushed, List.length_zipWith, length_window r.len_le,
    length_window hh, Nat.min_self]
  by_cases h : r.len < r.capacity
  · rw [if_pos h, push, dif_pos h]
    dsimp only
    rw [physical_eq, capacity, window_set_end h]
    conv_lhs => rw [← r.lanes]
    rw [window_set_end (by rw [r.lanes]; exact h), List.zipWith_append hlen]
    rfl
  · have hfull : r.len = r.numbers.length := by
      have := r.len_le
      unfold capacity at h
      omega
    rw [if_neg h, push, dif_neg h]
    dsimp only
    rw [and_capacity, capacity, hfull, window_set_head r.head_lt]
    conv_lhs => rw [← r.lanes]
    rw [window_set_head (by rw [r.lanes]; exact r.head_lt), r.lanes, List.zipWith_append, ← hfull]
    · congr 1
      rw [← List.drop_one, ← List.drop_one, ← List.drop_one, List.drop_zipWith]
    · rw [List.length_tail, List.length_tail, ← hfull, hlen]

theorem newestNumber_eq (r : BlockRing) : r.newestNumber = r.iter.getLast?.map (·.number) := by
  unfold newestNumber
  rw [List.getLast?_eq_getElem?, length_iter]
  split_ifs with h
  · simp [iter, h]
  · rw [getElem?_iter (by omega)]
    rfl

/-! ### Searching -/

section Search

variable {r : BlockRing} {n : ℕ}

theorem numberAt_eq {i : ℕ} (h : i < r.iter.length) : r.numberAt i = r.iter[i].number := by
  rw [getElem_iter h]
  rfl

theorem numberAt_lt (hr : Ascending r.iter) {i j : ℕ} (hij : i < j) (hj : j < r.len) :
    r.numberAt i < r.numberAt j := by
  rw [← length_iter] at hj
  rw [numberAt_eq (by omega), numberAt_eq hj]
  exact List.pairwise_iff_getElem.mp hr i j (by omega) hj hij

/-- How many of the entries are at or below `n`. -/
def countAtOrBelow (l : List BlockRef) (n : ℕ) : ℕ := l.countP fun b => decide (b.number ≤ n)

/-- In a sorted list the entries at or below `n` come first. -/
theorem filter_eq_take {l : List BlockRef} (h : Ascending l) (n : ℕ) :
    l.filter (fun b => decide (b.number ≤ n)) = l.take (countAtOrBelow l n) := by
  induction l with
  | nil => rfl
  | cons b l ih =>
      obtain ⟨hb, hl⟩ := List.pairwise_cons.mp h
      by_cases hn : b.number ≤ n
      · rw [List.filter_cons_of_pos (by simpa using hn), countAtOrBelow,
          List.countP_cons_of_pos (by simpa using hn), List.take_succ_cons, ih hl]
        rfl
      · have hnone : ∀ c ∈ b :: l, ¬ (decide (c.number ≤ n) = true) := by
          intro c hc
          rw [decide_eq_true_eq]
          rcases List.mem_cons.mp hc with rfl | hc
          · exact hn
          · have := hb c hc
            omega
        rw [List.filter_eq_nil_iff.mpr hnone, countAtOrBelow, List.countP_eq_zero.mpr hnone]
        rfl

theorem lt_countAtOrBelow_iff {l : List BlockRef} (h : Ascending l) {n i : ℕ}
    (hi : i < l.length) : i < countAtOrBelow l n ↔ l[i].number ≤ n := by
  induction l generalizing i with
  | nil => simp at hi
  | cons b l ih =>
      obtain ⟨hb, hl⟩ := List.pairwise_cons.mp h
      by_cases hn : b.number ≤ n
      · rw [countAtOrBelow, List.countP_cons_of_pos (by simpa using hn)]
        cases i with
        | zero => simpa using hn
        | succ i =>
            have := ih hl (i := i) (by simpa using hi)
            rw [countAtOrBelow] at this
            simpa using this
      · have hlt : n < (b :: l)[i].number := by
          rcases List.mem_cons.mp (List.getElem_mem hi) with he | hm
          · rw [he]
            omega
          · have := hb _ hm
            omega
        have hzero : countAtOrBelow (b :: l) n = 0 := by
          rw [countAtOrBelow, List.countP_eq_zero]
          intro c hc
          rw [decide_eq_true_eq]
          rcases List.mem_cons.mp hc with rfl | hc
          · exact hn
          · have := hb c hc
            omega
        rw [hzero]
        omega

/-- The binary search closes in on the last entry at or below `n`. -/
theorem search_spec (hr : Ascending r.iter) : ∀ (fuel low high : ℕ), high - low ≤ fuel →
    low ≤ high → high < r.len → (∀ i, high < i → i < r.len → n < r.numberAt i) →
    low ≤ r.search n fuel low high ∧ r.search n fuel low high < r.len ∧
    (r.search n fuel low high = low ∨ r.numberAt (r.search n fuel low high) ≤ n) ∧
    ∀ i, r.search n fuel low high < i → i < r.len → n < r.numberAt i
  | 0, low, high, hf, hle, hlt, habove => by
      have : low = high := by omega
      subst this
      exact ⟨le_rfl, hlt, Or.inl rfl, habove⟩
  | fuel + 1, low, high, hf, hle, hlt, habove => by
      rw [search]
      split_ifs with hlow
      · dsimp only
        split_ifs with hmid
        · obtain ⟨h1, h2, h3, h4⟩ := search_spec hr fuel (low + (high - low + 1) / 2) high
            (by omega) (by omega) hlt habove
          refine ⟨by omega, h2, Or.inr ?_, h4⟩
          rcases h3 with h3 | h3
          · rw [h3]
            exact hmid
          · exact h3
        · refine search_spec hr fuel low _ (by omega) (by omega) (by omega) ?_
          intro i hi hi'
          rcases Nat.lt_or_ge (low + (high - low + 1) / 2) i with hgt | hge
          · have := numberAt_lt hr hgt hi'
            omega
          · have : i = low + (high - low + 1) / 2 := by omega
            subst this
            omega
      · have : low = high := by omega
        subst this
        exact ⟨le_rfl, hlt, Or.inl rfl, habove⟩

theorem indexAtOrBelow_eq (hr : Ascending r.iter) (n : ℕ) :
    r.indexAtOrBelow n =
      if countAtOrBelow r.iter n = 0 then none else some (countAtOrBelow r.iter n - 1) := by
  have hle : countAtOrBelow r.iter n ≤ r.len := by
    rw [← length_iter]
    exact List.countP_le_length
  have hiff : ∀ i, i < r.len → (i < countAtOrBelow r.iter n ↔ r.numberAt i ≤ n) := by
    intro i hi
    rw [← length_iter] at hi
    rw [lt_countAtOrBelow_iff hr hi, numberAt_eq hi]
  unfold indexAtOrBelow
  split_ifs with h1 h2 h2
  · rfl
  · omega
  · dsimp only
    have h0 := hiff 0 (by omega)
    have hnew := hiff (r.len - 1) (by omega)
    obtain ⟨-, hs2, hs3, hs4⟩ := search_spec (n := n) hr (r.len - 1) 0 (r.len - 1) (by omega)
      (by omega) (by omega) (by intro i hi hi'; omega)
    have hs := hiff _ hs2
    have : ¬ r.numberAt (r.search n (r.len - 1) 0 (r.len - 1)) ≤ n := by omega
    rw [if_neg (by omega), if_neg this]
  · dsimp only
    have hnew := hiff (r.len - 1) (by omega)
    obtain ⟨-, hs2, hs3, hs4⟩ := search_spec (n := n) hr (r.len - 1) 0 (r.len - 1) (by omega)
      (by omega) (by omega) (by intro i hi hi'; omega)
    have hs := hiff _ hs2
    have h0 := hiff 0 (by omega)
    have hk : r.numberAt (r.search n (r.len - 1) 0 (r.len - 1)) ≤ n := by
      rcases hs3 with hs3 | hs3
      · rw [hs3] at hs ⊢
        omega
      · exact hs3
    have hlast : countAtOrBelow r.iter n - 1 ≤ r.search n (r.len - 1) 0 (r.len - 1) := by
      by_contra hcon
      have h5 := hs4 (countAtOrBelow r.iter n - 1) (by omega) (by omega)
      have h6 := hiff (countAtOrBelow r.iter n - 1) (by omega)
      omega
    by_cases hnl : r.numberAt (r.len - 1) ≤ n
    · rw [if_pos hnl]
      congr 1
      omega
    · rw [if_neg hnl, if_pos hk]
      congr 1
      omega

theorem iterAtOrBelow_eq (hr : Ascending r.iter) (n : ℕ) :
    r.iterAtOrBelow n = r.iter.filter fun b => decide (b.number ≤ n) := by
  have hle : countAtOrBelow r.iter n ≤ r.len := by
    rw [← length_iter]
    exact List.countP_le_length
  rw [filter_eq_take hr, iterAtOrBelow, indexAtOrBelow_eq hr, iter, ← List.map_take,
    List.take_range]
  congr 2
  rw [← iter]
  by_cases h : countAtOrBelow r.iter n = 0
  · rw [if_pos h, h]
    simp
  · rw [if_neg h]
    dsimp only
    omega

@[simp] theorem capacity_truncateAbove (r : BlockRing) (n : ℕ) :
    (r.truncateAbove n).capacity = r.capacity := by
  unfold truncateAbove
  split <;> rfl

theorem iter_truncateAbove (hr : Ascending r.iter) (n : ℕ) :
    (r.truncateAbove n).iter = r.iter.filter fun b => decide (b.number ≤ n) := by
  rw [← iterAtOrBelow_eq hr, iterAtOrBelow, truncateAbove]
  split
  · rename_i logical h
    simp only [h]
    rfl
  · rename_i h
    simp only [h]
    rfl

/-- An entry with the number `n` is found, and nothing else. -/
theorem indexOf_eq_some_iff (hr : Ascending r.iter) {n i : ℕ} :
    r.indexOf n = some i ↔ i < r.len ∧ r.numberAt i = n := by
  have hinj : ∀ i j, i < r.len → j < r.len → r.numberAt i = r.numberAt j → i = j := by
    intro i j hi hj hij
    rcases Nat.lt_trichotomy i j with h | h | h
    · have := numberAt_lt hr h hj
      omega
    · exact h
    · have := numberAt_lt hr h hi
      omega
  have hiff : ∀ i, i < r.len → (i < countAtOrBelow r.iter n ↔ r.numberAt i ≤ n) := by
    intro i hi
    rw [← length_iter] at hi
    rw [lt_countAtOrBelow_iff hr hi, numberAt_eq hi]
  have hle : countAtOrBelow r.iter n ≤ r.len := by
    rw [← length_iter]
    exact List.countP_le_length
  -- every branch returns an index with the number `n`, so only completeness is left
  have hsound : ∀ {j}, r.indexOf n = some j → j < r.len ∧ r.numberAt j = n := by
    intro j hj
    unfold indexOf at hj
    dsimp only at hj
    split_ifs at hj with h1 h2 h3
    · cases hj
      exact ⟨by omega, h3⟩
    · rw [indexAtOrBelow_eq hr] at hj
      by_cases h4 : countAtOrBelow r.iter n = 0
      · simp [h4] at hj
      · rw [if_neg h4] at hj
        dsimp only at hj
        split_ifs at hj with h5
        cases hj
        exact ⟨by omega, h5⟩
  refine ⟨hsound, ?_⟩
  rintro ⟨hi, hn⟩
  have hfound : (r.indexOf n).isSome := by
    unfold indexOf
    have hnew : r.numberAt i ≤ r.numberAt (r.len - 1) := by
      rcases Nat.lt_or_ge i (r.len - 1) with h | h
      · exact (numberAt_lt hr h (by omega)).le
      · rw [show i = r.len - 1 by omega]
    rw [if_neg (by omega), if_neg (by omega)]
    dsimp only
    split_ifs with h3
    · rfl
    · have hcount := hiff i hi
      rw [indexAtOrBelow_eq hr, if_neg (by omega)]
      dsimp only
      have hlast := hiff (countAtOrBelow r.iter n - 1) (by omega)
      have hile : i = countAtOrBelow r.iter n - 1 := by
        rcases Nat.lt_or_ge i (countAtOrBelow r.iter n - 1) with h | h
        · have := numberAt_lt hr h (by omega)
          omega
        · omega
      rw [← hile, if_pos hn]
      rfl
  obtain ⟨j, hj⟩ := Option.isSome_iff_exists.mp hfound
  obtain ⟨hj1, hj2⟩ := hsound hj
  rw [hj, hinj j i hj1 hi (by omega)]

/-- Looking a number up in a list of entries. -/
def lookup (l : List BlockRef) (n : ℕ) : Option Hash :=
  (l.find? fun b => decide (b.number = n)).map (·.hash)

theorem lookup_of_mem {l : List BlockRef} (h : Ascending l) {b : BlockRef} (hb : b ∈ l) :
    lookup l b.number = some b.hash := by
  induction l with
  | nil => simp at hb
  | cons a l ih =>
      obtain ⟨ha, hl⟩ := List.pairwise_cons.mp h
      unfold lookup
      rcases List.mem_cons.mp hb with rfl | hb
      · rw [List.find?_cons_of_pos (by simp)]
        rfl
      · have := ha b hb
        rw [List.find?_cons_of_neg (by simp; omega)]
        exact ih hl hb

theorem mem_of_lookup {l : List BlockRef} {n : ℕ} {hash : Hash} (h : lookup l n = some hash) :
    ⟨n, hash⟩ ∈ l := by
  rw [lookup, Option.map_eq_some_iff] at h
  obtain ⟨b, hb, rfl⟩ := h
  have hn : b.number = n := by simpa using List.find?_some hb
  rw [← hn]
  exact List.mem_of_find?_eq_some hb

theorem hashAt_eq (hr : Ascending r.iter) (n : ℕ) : r.hashAt n = lookup r.iter n := by
  unfold hashAt lookup
  cases h : r.indexOf n with
  | none =>
      have hnone : ∀ b ∈ r.iter, ¬ (decide (b.number = n) = true) := by
        intro b hb hbn
        obtain ⟨i, hi, rfl⟩ := List.getElem_of_mem hb
        rw [decide_eq_true_eq] at hbn
        have := (indexOf_eq_some_iff hr (n := n) (i := i)).mpr
          ⟨by simpa using hi, by rw [numberAt_eq hi, hbn]⟩
        rw [h] at this
        cases this
      rw [List.find?_eq_none.mpr hnone]
      rfl
  | some i =>
      obtain ⟨hi, hn⟩ := (indexOf_eq_some_iff hr).mp h
      have hi' : i < r.iter.length := by simpa using hi
      have hfind : r.iter.find? (fun b => decide (b.number = n)) = some r.iter[i] := by
        rw [List.find?_eq_some_iff_getElem]
        refine ⟨by rw [decide_eq_true_eq, ← numberAt_eq hi', hn], i, hi', rfl, ?_⟩
        intro j hj
        have := numberAt_lt hr hj hi
        rw [← numberAt_eq (by omega)]
        simp only [Bool.not_eq_eq_eq_not, Bool.not_true, decide_eq_false_iff_not]
        omega
      rw [hfind, getElem_iter]
      rfl

theorem observes_iff (hr : Ascending r.iter) (n : ℕ) :
    r.observes n = true ↔ ∃ b ∈ r.iter, b.number = n := by
  unfold observes
  rw [Option.isSome_iff_exists]
  constructor
  · rintro ⟨i, h⟩
    obtain ⟨hi, hn⟩ := (indexOf_eq_some_iff hr).mp h
    have hi' : i < r.iter.length := by simpa using hi
    exact ⟨r.iter[i], List.getElem_mem hi', by rw [← numberAt_eq hi', hn]⟩
  · rintro ⟨b, hb, hn⟩
    obtain ⟨i, hi, rfl⟩ := List.getElem_of_mem hb
    exact ⟨i, (indexOf_eq_some_iff hr).mpr ⟨by simpa using hi, by rw [numberAt_eq hi, hn]⟩⟩

end Search

end BlockRing

end Works.Chainfold
