import Works.Rotortree.ChunkedLevel

/-! # Chunked levels are lists

`Holds fs lvl l` says that the level stores the list `l`; every operation of
`ChunkedLevel.lean` has one lemma that says what it does to `l`.  `Derived lvl lvl'` records
the other half of copy-on-write: whatever is mapped in `lvl'` was already mapped, by the same
window, in `lvl`. -/

namespace Works.Rotortree

open Works.Lib

namespace ChunkedLevel

variable {Hash : Type} (fs : ShardFs Hash)

/-! ### What a level holds -/

/-- The hash stored at position `i`. -/
def cell (lvl : ChunkedLevel Hash) (i : ℕ) : Option Hash :=
  (lvl.chunks[i / CHUNK_SIZE]?).map fun c => c.asSlice fs ⟨i % CHUNK_SIZE, Nat.mod_lt _ CHUNK_SIZE_pos⟩

/-- The chunks of the level begin with the list `l` and end with the chunk it ends in. -/
structure Stores (lvl : ChunkedLevel Hash) (l : List Hash) : Prop where
  count : lvl.chunks.length = l.length ⌈/⌉ CHUNK_SIZE
  pending : lvl.pending.length < CHUNKS_PER_SEGMENT
  cells : ∀ i < l.length, lvl.cell fs i = l[i]?

/-- The level is the list `l`. -/
structure Holds (lvl : ChunkedLevel Hash) (l : List Hash) : Prop extends Stores fs lvl l where
  len : lvl.len = l.length

/-- Every window onto a file in `lvl'` is one of `lvl`, at the same place. -/
def Derived (lvl lvl' : ChunkedLevel Hash) : Prop :=
  ∀ (i : ℕ) (c : Chunk Hash), lvl'.chunks[i]? = some c → c.IsMapped → lvl.chunks[i]? = some c

theorem Derived.refl (lvl : ChunkedLevel Hash) : Derived lvl lvl := fun _ _ h _ => h

theorem Derived.trans {a b c : ChunkedLevel Hash} (h₁ : Derived a b) (h₂ : Derived b c) :
    Derived a c := fun i x h hm => h₁ i x (h₂ i x h hm) hm

theorem Derived.of_set {lvl lvl' : ChunkedLevel Hash} {i : ℕ} {data : Fin CHUNK_SIZE → Hash}
    (h : lvl'.chunks = lvl.chunks.set i (.memory data)) : Derived lvl lvl' := by
  intro j c hc hm
  rw [h, List.getElem?_set] at hc
  split_ifs at hc with h1 h2
  · cases hc; cases hm
  · exact hc

theorem new_holds : Holds fs (new : ChunkedLevel Hash) [] where
  len := rfl
  count := by simp [new, chunks]
  pending := CHUNKS_PER_SEGMENT_pos
  cells := by intro i hi; simp at hi

section Holds

variable {fs} {lvl : ChunkedLevel Hash} {l : List Hash}

theorem Stores.exists_chunk (hl : Stores fs lvl l) {i : ℕ} (hi : i < l.length) :
    ∃ c, lvl.chunks[i / CHUNK_SIZE]? = some c := by
  have hlt : i / CHUNK_SIZE < lvl.chunks.length := by
    rw [hl.count, LeanTree.lt_ceilDiv_iff CHUNK_SIZE_pos]
    have := Nat.div_mul_le_self i CHUNK_SIZE
    omega
  exact ⟨_, List.getElem?_eq_getElem hlt⟩

/-- The hash at `i`, through the chunk it lies in. -/
theorem Stores.asSlice (hl : Stores fs lvl l) {i : ℕ} (hi : i < l.length) {c : Chunk Hash}
    (hc : lvl.chunks[i / CHUNK_SIZE]? = some c) :
    l[i]? = some (c.asSlice fs ⟨i % CHUNK_SIZE, Nat.mod_lt _ CHUNK_SIZE_pos⟩) := by
  rw [← hl.cells i hi, cell, hc]
  rfl

theorem Holds.get (hl : Holds fs lvl l) {i : ℕ} (hi : i < l.length) :
    lvl.get fs i = .ok l[i] := by
  obtain ⟨c, hc⟩ := hl.exists_chunk hi
  have hcell := hl.asSlice hi hc
  rw [List.getElem?_eq_getElem hi, Option.some.injEq] at hcell
  rw [ChunkedLevel.get, if_neg (by rw [hl.len]; omega), chunkSlice, chunk_eq, hc,
    Outcome.expect_some, Outcome.ok_bind, Outcome.pure_eq_ok, Outcome.ok_bind,
    FixedArray.index_of_lt _ (Nat.mod_lt _ CHUNK_SIZE_pos), hcell]

/-- Two levels that hold the same list read the same, in and out of range. -/
theorem Holds.get_eq {lvl' : ChunkedLevel Hash} (hl : Holds fs lvl l) (hl' : Holds fs lvl' l)
    (i : ℕ) : lvl.get fs i = lvl'.get fs i := by
  rcases Nat.lt_or_ge i l.length with hi | hi
  · rw [hl.get hi, hl'.get hi]
  · rw [ChunkedLevel.get, ChunkedLevel.get, if_pos (by rw [hl.len]; exact hi),
      if_pos (by rw [hl'.len]; exact hi), hl.len, hl'.len]

/-- A level is one list only. -/
theorem Holds.unique {l' : List Hash} (hl : Holds fs lvl l) (hl' : Holds fs lvl l') : l = l' := by
  have hlen : l.length = l'.length := hl.len.symm.trans hl'.len
  apply List.ext_getElem?
  intro i
  rcases Nat.lt_or_ge i l.length with hi | hi
  · rw [← hl.cells i hi, hl'.cells i (hlen ▸ hi)]
  · rw [List.getElem?_eq_none hi, List.getElem?_eq_none (hlen ▸ hi)]

/-- Positions of one chunk, counted from `idx`. -/
theorem div_mod_add {idx i : ℕ} (h : idx % CHUNK_SIZE + i < CHUNK_SIZE) :
    (idx + i) / CHUNK_SIZE = idx / CHUNK_SIZE ∧
      (idx + i) % CHUNK_SIZE = idx % CHUNK_SIZE + i := by
  have : ∀ idx i : ℕ, idx % 128 + i < 128 →
      (idx + i) / 128 = idx / 128 ∧ (idx + i) % 128 = idx % 128 + i := by omega
  exact this idx i h

/-- A position in a chunk and the room left in it. -/
theorem mod_add_min_le (idx r : ℕ) :
    idx % CHUNK_SIZE + min (CHUNK_SIZE - idx % CHUNK_SIZE) r ≤ CHUNK_SIZE ∧
      (0 < r → 0 < min (CHUNK_SIZE - idx % CHUNK_SIZE) r) := by
  have := Nat.mod_lt idx CHUNK_SIZE_pos
  omega

/-- The runs of a list: what is read of each chunk. -/
def listRuns (l : List Hash) : ℕ → ℕ → ℕ → List (List Hash)
  | 0, _, _ => []
  | fuel + 1, idx, remaining =>
      if remaining = 0 then []
      else
        let take := min (CHUNK_SIZE - idx % CHUNK_SIZE) remaining
        (l.drop idx).take take :: listRuns l fuel (idx + take) (remaining - take)

theorem Holds.runsFrom (hl : Holds fs lvl l) (fuel : ℕ) :
    ∀ idx remaining, remaining ≤ fuel → idx + remaining ≤ l.length →
      lvl.runsFrom fs fuel idx remaining = .ok (listRuns l fuel idx remaining) := by
  induction fuel with
  | zero =>
      intro idx remaining h1 h2
      rfl
  | succ fuel ih =>
      intro idx remaining h1 h2
      rw [ChunkedLevel.runsFrom, listRuns]
      split_ifs with hzero
      · rfl
      · obtain ⟨c, hc⟩ := hl.exists_chunk (i := idx) (by omega)
        have hoff : idx % CHUNK_SIZE < CHUNK_SIZE := Nat.mod_lt _ CHUNK_SIZE_pos
        dsimp only
        generalize ht : min (CHUNK_SIZE - idx % CHUNK_SIZE) remaining = take
        have hrun : ((List.ofFn (c.asSlice fs)).take (idx % CHUNK_SIZE + take)).drop
            (idx % CHUNK_SIZE) = (l.drop idx).take take := by
          apply List.ext_getElem?
          intro i
          rcases Nat.lt_or_ge i take with hi | hi
          · obtain ⟨hd, hm⟩ := div_mod_add (show idx % CHUNK_SIZE + i < CHUNK_SIZE by omega)
            rw [FixedArray.getElem?_slice _ (by omega) (by omega), List.getElem?_take_of_lt hi,
              List.getElem?_drop, hl.asSlice (i := idx + i) (by omega) (by rw [hd]; exact hc)]
            simp only [hm]
          · rw [List.getElem?_eq_none (by rw [FixedArray.length_slice _ (by omega)]; omega),
              List.getElem?_eq_none (by rw [List.length_take]; omega)]
        rw [chunkSlice, chunk_eq, hc, Outcome.expect_some, Outcome.ok_bind, Outcome.pure_eq_ok,
          Outcome.ok_bind, FixedArray.slice_of_le _ (by omega) (by omega), Outcome.ok_bind,
          ih _ _ (by omega) (by omega), hrun]
        rfl

theorem flatten_listRuns (l : List Hash) (fuel : ℕ) :
    ∀ idx remaining, remaining ≤ fuel →
      (listRuns l fuel idx remaining).flatten = (l.drop idx).take remaining := by
  induction fuel with
  | zero =>
      intro idx remaining h
      rw [Nat.le_zero.mp h, List.take_zero]
      rfl
  | succ fuel ih =>
      intro idx remaining h
      have hpos := (mod_add_min_le idx remaining).2
      rw [listRuns]
      split_ifs with hzero
      · rw [hzero, List.take_zero]
        rfl
      · dsimp only
        generalize ht : min (CHUNK_SIZE - idx % CHUNK_SIZE) remaining = take at hpos ⊢
        have htake := hpos (by omega)
        rw [List.flatten_cons, ih _ _ (by omega)]
        have e : remaining = take + (remaining - take) := by omega
        conv_rhs => rw [e, List.take_add, List.drop_drop]

theorem dvd_listRuns {m : ℕ} (hm : m ∣ CHUNK_SIZE) (fuel : ℕ) :
    ∀ idx remaining, idx + remaining ≤ l.length → m ∣ idx → m ∣ remaining →
      ∀ r ∈ listRuns l fuel idx remaining, m ∣ r.length := by
  induction fuel with
  | zero =>
      intro idx remaining _ _ _ r hr
      simp [listRuns] at hr
  | succ fuel ih =>
      intro idx remaining hin hidx hrem r hr
      rw [listRuns] at hr
      split_ifs at hr with hzero
      · simp at hr
      · have ht : m ∣ min (CHUNK_SIZE - idx % CHUNK_SIZE) remaining := by
          cases min_choice (CHUNK_SIZE - idx % CHUNK_SIZE) remaining with
          | inl e =>
              rw [e]
              exact Nat.dvd_sub hm ((Nat.dvd_mod_iff hm).mpr hidx)
          | inr e =>
              rw [e]
              exact hrem
        cases List.mem_cons.mp hr with
        | inl hr =>
            rw [hr, List.length_take, List.length_drop, Nat.min_eq_left (by omega)]
            exact ht
        | inr hr =>
            exact ih _ _ (by omega) (Nat.dvd_add hidx ht) (Nat.dvd_sub hrem ht) r hr

/-- The runs of a range make it up, and keep the alignment of the range to divisors of the
chunk size. -/
theorem Holds.runs (hl : Holds fs lvl l) {start count : ℕ} (h : start + count ≤ l.length) :
    ∃ rs, lvl.runs fs start count = .ok rs ∧ rs.flatten = (l.drop start).take count ∧
      ∀ m, m ∣ CHUNK_SIZE → m ∣ start → m ∣ count → ∀ r ∈ rs, m ∣ r.length := by
  have hrs := hl.runsFrom count start count le_rfl h
  refine ⟨_, ?_, flatten_listRuns l count start count le_rfl,
    fun m h₁ h₂ h₃ => dvd_listRuns h₁ count start count h h₂ h₃⟩
  rw [ChunkedLevel.runs, Outcome.require_pos (by rw [hl.len]; exact h), Outcome.ok_bind, hrs]

theorem Holds.getGroup (hl : Holds fs lvl l) {start count : ℕ} (h : start + count ≤ l.length) :
    lvl.getGroup fs start count = .ok ((l.drop start).take count) := by
  obtain ⟨rs, hrs, hf, -⟩ := hl.runs h
  rw [ChunkedLevel.getGroup, hrs, Outcome.ok_bind, hf]
  rfl

/-- Rewriting one chunk changes the list at the positions of that chunk only. -/
theorem Stores.of_set (hl : Stores fs lvl l) {lvl' : ChunkedLevel Hash} {l' : List Hash} {k : ℕ}
    {data : Fin CHUNK_SIZE → Hash} (hch : lvl'.chunks = lvl.chunks.set k (.memory data))
    (hp : lvl'.pending.length = lvl.pending.length)
    (hl' : l'.length = l.length)
    (hother : ∀ i < l.length, i / CHUNK_SIZE ≠ k → l'[i]? = l[i]?)
    (hhere : ∀ i < l.length, i / CHUNK_SIZE = k →
      l'[i]? = some (data ⟨i % CHUNK_SIZE, Nat.mod_lt _ CHUNK_SIZE_pos⟩)) :
    Stores fs lvl' l' where
  count := by rw [hch, List.length_set, hl.count, hl']
  pending := by rw [hp]; exact hl.pending
  cells := by
    intro i hi
    rw [hl'] at hi
    rw [cell, hch, List.getElem?_set]
    by_cases hk : k = i / CHUNK_SIZE
    · obtain ⟨c, hc⟩ := hl.exists_chunk hi
      have hlt := (List.getElem?_eq_some_iff.mp hc).1
      rw [if_pos hk, if_pos (by rw [hk]; exact hlt), hhere i hi hk.symm]
      rfl
    · rw [if_neg hk, hother i hi (fun e => hk e.symm), ← hl.cells i hi]
      rfl

/-- A slice of chunk `(start + d) / CHUNK_SIZE` rewritten with `xs`. -/
theorem Stores.write_slice (hl : Stores fs lvl l) (idx take : ℕ) {xs : List Hash}
    {fill : Outcome TreeError (List Hash)} (hfill : fill = .ok xs) (hxs : xs.length = take)
    (hpos : 0 < take) (hfit : idx % CHUNK_SIZE + take ≤ CHUNK_SIZE)
    (hin : idx + take ≤ l.length) :
    ∃ lvl', (lvl.chunkSliceMut fs (idx / CHUNK_SIZE) fun data => do
        let ys ← fill
        FixedArray.copyFromSlice data (idx % CHUNK_SIZE) (idx % CHUNK_SIZE + take) ys) = .ok lvl' ∧
      Stores fs lvl' (FixedArray.splice l idx xs) ∧ lvl'.len = lvl.len ∧ Derived lvl lvl' := by
  obtain ⟨c, hc⟩ := hl.exists_chunk (i := idx) (by omega)
  obtain ⟨lvl', h1, h2, h3, h4⟩ := chunkSliceMut_spec fs (fun data => do
        let ys ← fill
        FixedArray.copyFromSlice data (idx % CHUNK_SIZE) (idx % CHUNK_SIZE + take) ys) hc (by
      rw [hfill, Outcome.ok_bind, FixedArray.copyFromSlice_of_le _ (by omega) hfit (by omega)])
  refine ⟨lvl', h1, ?_, h3, Derived.of_set h2⟩
  have hsp := FixedArray.getElem?_splice (show idx + xs.length ≤ l.length by omega)
  apply hl.of_set h2 h4 (FixedArray.length_splice (by omega))
  · intro i hi hne
    rw [hsp, if_neg]
    rintro ⟨ha, hb⟩
    apply hne
    have := (div_mod_add (show idx % CHUNK_SIZE + (i - idx) < CHUNK_SIZE by omega)).1
    rwa [Nat.add_sub_cancel' ha] at this
  · intro i hi heq
    have hcell := hl.asSlice hi (by rw [heq]; exact hc)
    rw [hsp]
    have hdm := Nat.div_add_mod i CHUNK_SIZE
    have hdm' := Nat.div_add_mod idx CHUNK_SIZE
    rw [heq] at hdm
    split_ifs with hin'
    · have hm : i % CHUNK_SIZE - idx % CHUNK_SIZE = i - idx := by omega
      rw [FixedArray.overwrite_of_mem _ (by dsimp only; omega) (by dsimp only; omega)]
      simp only [hm]
      rw [List.getElem?_eq_getElem (by omega)]
    · rw [hcell]
      rcases Nat.lt_or_ge i idx with hlt | hge
      · rw [FixedArray.overwrite_of_lt _ (by dsimp only; omega)]
      · rw [FixedArray.overwrite_of_ge _ (by dsimp only; omega)]

/-- The closure writes the list `ys`, whichever way it is asked for it in pieces. -/
def Fills (fill : Fill Hash) (ys : List Hash) : Prop :=
  ∀ d n, 0 < n → d + n ≤ ys.length → fill d n = .ok ((ys.drop d).take n)

theorem Fills.length {ys : List Hash} {d n : ℕ} (h : d + n ≤ ys.length) :
    ((ys.drop d).take n).length = n := by
  rw [List.length_take, List.length_drop]; omega

theorem Stores.writeFrom {fill : Fill Hash} {ys : List Hash} (hfill : Fills fill ys) {start : ℕ}
    (hin : start + ys.length ≤ l.length) (fuel : ℕ) :
    ∀ (done : ℕ) (lvl : ChunkedLevel Hash), ys.length - done ≤ fuel → done ≤ ys.length →
      Stores fs lvl (FixedArray.splice l start (ys.take done)) →
      ∃ lvl', lvl.writeFrom fs start ys.length fill fuel done = .ok lvl' ∧
        Stores fs lvl' (FixedArray.splice l start ys) ∧ lvl'.len = lvl.len ∧ Derived lvl lvl' := by
  induction fuel with
  | zero =>
      intro done lvl h1 h2 hh
      have : done = ys.length := by omega
      subst this
      exact ⟨lvl, rfl, by simpa using hh, rfl, Derived.refl lvl⟩
  | succ fuel ih =>
      intro done lvl h1 h2 hh
      rw [ChunkedLevel.writeFrom]
      split_ifs with hd
      · have : done = ys.length := by omega
        subst this
        exact ⟨lvl, rfl, by simpa using hh, rfl, Derived.refl lvl⟩
      · obtain ⟨hfit, hpos⟩ := mod_add_min_le (start + done) (ys.length - done)
        have hle := min_le_right (CHUNK_SIZE - (start + done) % CHUNK_SIZE) (ys.length - done)
        dsimp only
        generalize min (CHUNK_SIZE - (start + done) % CHUNK_SIZE) (ys.length - done) = take at *
        have hsplit : (FixedArray.splice l start (ys.take done)).length = l.length :=
          FixedArray.length_splice (by rw [List.length_take]; omega)
        obtain ⟨lvl₁, e₁, hh₁, hlen₁, hd₁⟩ := hh.write_slice (start + done) take
          (hfill done take (hpos (by omega)) (by omega)) (Fills.length (by omega)) (hpos (by omega))
          hfit (by omega)
        rw [FixedArray.splice_splice hin (by omega)] at hh₁
        obtain ⟨lvl₂, e₂, hh₂, hlen₂, hd₂⟩ := ih (done + take) lvl₁
          (by have := hpos (by omega); omega) (by omega) hh₁
        refine ⟨lvl₂, ?_, hh₂, hlen₂.trans hlen₁, hd₁.trans hd₂⟩
        rw [e₁, Outcome.ok_bind, e₂]

theorem Stores.writeWith (hl : Stores fs lvl l) {fill : Fill Hash} {ys : List Hash}
    (hfill : Fills fill ys) (start : ℕ) (hin : start + ys.length ≤ l.length)
    (hlen : start + ys.length ≤ lvl.len) :
    ∃ lvl', lvl.writeWith fs start ys.length fill = .ok lvl' ∧
      Stores fs lvl' (FixedArray.splice l start ys) ∧ lvl'.len = lvl.len ∧ Derived lvl lvl' := by
  rw [ChunkedLevel.writeWith, Outcome.require_pos hlen, Outcome.ok_bind]
  apply Stores.writeFrom hfill hin _ _ _ (by omega) (by omega)
  rw [List.take_zero, FixedArray.splice_nil]
  exact hl

theorem Holds.writeWith (hl : Holds fs lvl l) {fill : Fill Hash} {ys : List Hash}
    (hfill : Fills fill ys) (start : ℕ) (hin : start + ys.length ≤ l.length) :
    ∃ lvl', lvl.writeWith fs start ys.length fill = .ok lvl' ∧
      Holds fs lvl' (FixedArray.splice l start ys) ∧ Derived lvl lvl' := by
  obtain ⟨lvl', e, hst, hlen, hd⟩ := hl.toStores.writeWith hfill start hin (by rw [hl.len]; exact hin)
  exact ⟨lvl', e, ⟨hst, by rw [hlen, hl.len, FixedArray.length_splice hin]⟩, hd⟩

theorem Stores.setPreallocated (hl : Stores fs lvl l) {i : ℕ} (hi : i < l.length)
    (hlen : i < lvl.len) (x : Hash) :
    ∃ lvl', lvl.setPreallocated fs i x = .ok lvl' ∧ Stores fs lvl' (l.set i x) ∧
      lvl'.len = lvl.len ∧ Derived lvl lvl' := by
  obtain ⟨c, hc⟩ := hl.exists_chunk hi
  obtain ⟨lvl', h1, h2, h3, h4⟩ := chunkSliceMut_spec fs
    (fun data => FixedArray.setAt data (i % CHUNK_SIZE) x) hc
    (FixedArray.setAt_of_lt _ x (Nat.mod_lt i CHUNK_SIZE_pos))
  refine ⟨lvl', ?_, ?_, h3, Derived.of_set h2⟩
  · rw [ChunkedLevel.setPreallocated, Outcome.require_pos hlen, Outcome.ok_bind, h1]
  · apply hl.of_set h2 h4 (by simp)
    · intro j _ hne
      rw [List.getElem?_set_ne]
      intro e
      exact hne (by rw [e])
    · intro j hj heq
      have hcell := hl.asSlice hj (by rw [heq]; exact hc)
      have hdm := Nat.div_add_mod i CHUNK_SIZE
      have hdm' := Nat.div_add_mod j CHUNK_SIZE
      rw [heq] at hdm'
      dsimp only
      split_ifs with hm
      · have : i = j := by omega
        rw [this, List.getElem?_set_self hj]
      · rw [List.getElem?_set_ne (by rintro rfl; exact hm rfl), hcell]

theorem Holds.setPreallocated (hl : Holds fs lvl l) {i : ℕ} (hi : i < l.length) (x : Hash) :
    ∃ lvl', lvl.setPreallocated fs i x = .ok lvl' ∧ Holds fs lvl' (l.set i x) ∧
      Derived lvl lvl' := by
  obtain ⟨lvl', e, hst, hlen, hd⟩ := hl.toStores.setPreallocated hi (by rw [hl.len]; exact hi) x
  exact ⟨lvl', e, ⟨hst, by rw [hlen, hl.len, List.length_set]⟩, hd⟩

/-! ### Growing -/

variable [Zero Hash]

theorem buildChunk_spec {fill : Fill Hash} {ys : List Hash} (hfill : Fills fill ys) {done ci : ℕ}
    (hci : done + ci * CHUNK_SIZE < ys.length) :
    buildChunk fill ys.length done ci = .ok (.memory (FixedArray.overwrite (fun _ => 0) 0
      ((ys.drop (done + ci * CHUNK_SIZE)).take CHUNK_SIZE))) := by
  unfold buildChunk
  dsimp only
  have hmin : min (ys.length - (done + ci * CHUNK_SIZE)) CHUNK_SIZE ≤ CHUNK_SIZE := min_le_right _ _
  have htake : (ys.drop (done + ci * CHUNK_SIZE)).take
      (min (ys.length - (done + ci * CHUNK_SIZE)) CHUNK_SIZE) =
        (ys.drop (done + ci * CHUNK_SIZE)).take CHUNK_SIZE := by
    rw [Nat.min_comm, ← List.take_take, List.take_of_length_le (l := ys.drop _)]
    rw [List.length_drop]
  have hpos := CHUNK_SIZE_pos
  rw [hfill _ _ (by omega) (by omega), Outcome.ok_bind, htake,
    FixedArray.copyFromSlice_of_le _ (by omega) hmin
      (by rw [List.length_take, List.length_drop]; omega)]
  rfl

omit [Zero Hash] in
/-- All hashes in the chunks of a level, used or not. -/
theorem getElem?_hashes (fs : ShardFs Hash) (lvl : ChunkedLevel Hash) (i : ℕ) :
    ((lvl.chunks.map (Chunk.asSlice fs)).flatMap List.ofFn)[i]? = lvl.cell fs i := by
  rw [FixedArray.getElem?_blocks CHUNK_SIZE_pos, List.getElem?_map, cell, Option.map_map]
  rfl

omit [Zero Hash] in
theorem length_hashes (fs : ShardFs Hash) (lvl : ChunkedLevel Hash) :
    ((lvl.chunks.map (Chunk.asSlice fs)).flatMap List.ofFn).length =
      lvl.chunks.length * CHUNK_SIZE := by
  rw [FixedArray.length_blocks, List.length_map]

omit [Zero Hash] in
/-- The unused rest of the last chunk, made part of the list. -/
theorem Stores.padded (hl : Stores fs lvl l) :
    ∃ pad, Stores fs lvl (l ++ pad) ∧ (l ++ pad).length = lvl.chunks.length * CHUNK_SIZE := by
  have hcell := getElem?_hashes fs lvl
  have hlen := length_hashes fs lvl
  generalize hall : (lvl.chunks.map (Chunk.asSlice fs)).flatMap List.ofFn = all at hcell hlen
  have hle : l.length ≤ all.length := by
    rw [hlen, hl.count, Nat.mul_comm]
    exact (ceilDiv_le_iff_le_mul CHUNK_SIZE_pos).mp le_rfl
  have htake : all.take l.length = l := by
    apply List.ext_getElem?
    intro i
    rcases Nat.lt_or_ge i l.length with hi | hi
    · rw [List.getElem?_take_of_lt hi, hcell, hl.cells i hi]
    · rw [List.getElem?_eq_none (by rw [List.length_take]; omega), List.getElem?_eq_none hi]
  have happ : l ++ all.drop l.length = all := by
    conv_lhs => rw [← htake]
    rw [List.length_take, Nat.min_eq_left hle, List.take_append_drop]
  refine ⟨all.drop l.length, ?_, by rw [happ, hlen]⟩
  rw [happ]
  refine ⟨?_, hl.pending, fun i _ => (hcell i).symm⟩
  have : ∀ c : ℕ, c = (c * 128) ⌈/⌉ 128 := by
    intro c
    rw [Nat.ceilDiv_eq_add_pred_div]
    omega
  rw [hlen]
  exact this lvl.chunks.length

omit [Zero Hash] in
theorem Stores.of_append {t : List Hash} (hl : Stores fs lvl (l ++ t))
    (hc : lvl.chunks.length = l.length ⌈/⌉ CHUNK_SIZE) : Stores fs lvl l where
  count := hc
  pending := hl.pending
  cells := by
    intro i hi
    rw [hl.cells i (by rw [List.length_append]; omega), List.getElem?_append_left hi]

omit [Zero Hash] in
/-- The room in the last of the chunks that `n` hashes take. -/
theorem ceilDiv_mul_sub (n : ℕ) : n ≤ n ⌈/⌉ CHUNK_SIZE * CHUNK_SIZE ∧
    n ⌈/⌉ CHUNK_SIZE * CHUNK_SIZE - n < CHUNK_SIZE := by
  have : ∀ n : ℕ, n ≤ n ⌈/⌉ 128 * 128 ∧ n ⌈/⌉ 128 * 128 - n < 128 := by
    intro n
    rw [Nat.ceilDiv_eq_add_pred_div]
    omega
  exact this n

/-- A list followed by zeros. -/
theorem getElem?_append_zeros {zs : List Hash} {z i : ℕ} (h : i < zs.length + z) :
    (zs ++ List.replicate z 0)[i]? = some ((zs[i]?).getD 0) := by
  rcases Nat.lt_or_ge i zs.length with hlt | hge
  · rw [List.getElem?_append_left hlt, List.getElem?_eq_getElem hlt]
    rfl
  · rw [List.getElem?_append_right hge, List.getElem?_replicate, if_pos (by omega),
      List.getElem?_eq_none hge]
    rfl

/-- Fresh chunks for `zs`, pushed onto a level whose last chunk is full; the last one is filled
up with zeros. -/
theorem Stores.push_chunks (hl : Stores fs lvl l) (hal : l.length = lvl.chunks.length * CHUNK_SIZE)
    (zs : List Hash) :
    Stores fs (((List.range (zs.length ⌈/⌉ CHUNK_SIZE)).map fun ci =>
      Chunk.memory (FixedArray.overwrite (fun _ => (0 : Hash)) 0
        ((zs.drop (ci * CHUNK_SIZE)).take CHUNK_SIZE))).foldl pushChunk lvl)
      (l ++ (zs ++ List.replicate (zs.length ⌈/⌉ CHUNK_SIZE * CHUNK_SIZE - zs.length) 0)) := by
  have hfull := (ceilDiv_mul_sub zs.length).1
  refine ⟨?_, pending_foldl_pushChunk _ hl.pending, ?_⟩
  · rw [chunks_foldl_pushChunk, List.length_append, List.length_map, List.length_range,
      List.length_append, List.length_append, List.length_replicate, Nat.add_sub_cancel' hfull, hal]
    have : ∀ c d : ℕ, c + d = (c * 128 + d * 128) ⌈/⌉ 128 := by
      intro c d
      rw [Nat.ceilDiv_eq_add_pred_div]
      omega
    exact this _ _
  · intro i hi
    rw [List.length_append, List.length_append, List.length_replicate,
      Nat.add_sub_cancel' hfull] at hi
    rw [cell, chunks_foldl_pushChunk]
    have hdm := Nat.div_add_mod i CHUNK_SIZE
    have hml := Nat.mod_lt i CHUNK_SIZE_pos
    rcases Nat.lt_or_ge i l.length with hlt | hge
    · have hc : i / CHUNK_SIZE < lvl.chunks.length := by
        rw [Nat.div_lt_iff_lt_mul CHUNK_SIZE_pos]; omega
      rw [List.getElem?_append_left hc, List.getElem?_append_left hlt, ← hl.cells i hlt]
      rfl
    · have hc : lvl.chunks.length ≤ i / CHUNK_SIZE := by
        rw [Nat.le_div_iff_mul_le CHUNK_SIZE_pos]; omega
      obtain ⟨ci, hci⟩ : ∃ ci, i / CHUNK_SIZE = lvl.chunks.length + ci :=
        ⟨i / CHUNK_SIZE - lvl.chunks.length, by omega⟩
      have hpos : i - l.length = ci * CHUNK_SIZE + i % CHUNK_SIZE := by
        rw [hci, Nat.mul_add, Nat.mul_comm, ← hal, Nat.mul_comm CHUNK_SIZE ci] at hdm
        omega
      have hr : ci < zs.length ⌈/⌉ CHUNK_SIZE := by
        by_contra hcon
        have := Nat.mul_le_mul_right CHUNK_SIZE (Nat.le_of_not_lt hcon)
        omega
      rw [List.getElem?_append_right hc, List.getElem?_append_right hge, hci,
        Nat.add_sub_cancel_left, List.getElem?_map, List.getElem?_range hr, hpos,
        getElem?_append_zeros (by omega)]
      simp only [Option.map_some, Chunk.asSlice, FixedArray.overwrite, Nat.zero_le, if_true,
        Nat.sub_zero]
      rw [List.getElem?_take_of_lt hml, List.getElem?_drop]

/-- The level stores `l`, and `pad` fills up its last chunk. -/
structure Whole (fs : ShardFs Hash) (lvl : ChunkedLevel Hash) (l pad : List Hash) : Prop where
  stores : Stores fs lvl (l ++ pad)
  full : (l ++ pad).length = lvl.chunks.length * CHUNK_SIZE
  room : pad.length < CHUNK_SIZE
  len : lvl.len = l.length

variable {pad : List Hash}

omit [Zero Hash] in
theorem Whole.count (hl : Whole fs lvl l pad) :
    lvl.chunks.length = l.length ⌈/⌉ CHUNK_SIZE := by
  have : ∀ n p c : ℕ, n + p = c * 128 → p < 128 → c = n ⌈/⌉ 128 := by
    intro n p c
    rw [Nat.ceilDiv_eq_add_pred_div]
    omega
  exact this _ _ _ (List.length_append.symm.trans hl.full) hl.room

omit [Zero Hash] in
theorem Whole.holds (hl : Whole fs lvl l pad) : Holds fs lvl l :=
  ⟨hl.stores.of_append hl.count, hl.len⟩

omit [Zero Hash] in
theorem Holds.whole (hl : Holds fs lvl l) : ∃ pad, Whole fs lvl l pad := by
  obtain ⟨pad, hst, hfull⟩ := hl.padded
  refine ⟨pad, hst, hfull, ?_, hl.len⟩
  have : ∀ n p c : ℕ, n + p = c * 128 → c = n ⌈/⌉ 128 → p < 128 := by
    intro n p c
    rw [Nat.ceilDiv_eq_add_pred_div]
    omega
  exact this _ _ _ (List.length_append.symm.trans hfull) hl.count

omit [Zero Hash] in
/-- The room in the last chunk. -/
theorem Whole.pad_length (hl : Whole fs lvl l pad) : pad.length =
    if 0 < l.length % CHUNK_SIZE then CHUNK_SIZE - l.length % CHUNK_SIZE else 0 := by
  have : ∀ n p c : ℕ, n + p = c * 128 → p < 128 → p = if 0 < n % 128 then 128 - n % 128 else 0 := by
    intro n p c h1 h2
    split_ifs <;> omega
  exact this _ _ _ (List.length_append.symm.trans hl.full) hl.room

omit [Zero Hash] in
/-- The first part of `extend_with` takes the room in the last chunk. -/
theorem Whole.fillLast (hl : Whole fs lvl l pad) {fill : Fill Hash} {ys : List Hash}
    (hfill : Fills fill ys) (hne : 0 < ys.length) :
    ∃ lvl₁, lvl.fillLast fs (min (CHUNK_SIZE - l.length % CHUNK_SIZE) ys.length) fill = .ok lvl₁ ∧
      Stores fs lvl₁ (l ++ ys.take pad.length ++ pad.drop ys.length) ∧ Derived lvl lvl₁ := by
  have hpad := hl.pad_length
  unfold ChunkedLevel.fillLast
  rw [hl.len]
  dsimp only
  split_ifs at hpad ⊢ with hoff
  · rw [← hpad]
    generalize htake : min pad.length ys.length = take
    have hmod := Nat.mod_lt l.length CHUNK_SIZE_pos
    have hxs : (ys.take take).length = take := by rw [List.length_take]; omega
    obtain ⟨lvl₁, h1, h2, -, h4⟩ := hl.stores.write_slice l.length take
      (hfill 0 take (by omega) (by omega)) (by rw [List.drop_zero]; exact hxs) (by omega) (by omega)
      (by rw [List.length_append]; omega)
    refine ⟨lvl₁, h1, ?_, h4⟩
    have hsp : FixedArray.splice (l ++ pad) l.length ((ys.drop 0).take take) =
        l ++ ys.take pad.length ++ pad.drop ys.length := by
      have htaken : ys.take take = ys.take pad.length := by
        rw [← htake, ← List.take_take, List.take_of_length_le (le_refl ys.length)]
      have hleft : pad.drop take = pad.drop ys.length := by
        rcases Nat.lt_or_ge pad.length ys.length with hlt | hge
        · rw [List.drop_eq_nil_of_le (by omega), List.drop_eq_nil_of_le hlt.le]
        · rw [show take = ys.length by omega]
      unfold FixedArray.splice
      rw [List.drop_zero, hxs, List.take_left, List.drop_append, List.drop_eq_nil_of_le (by omega),
        Nat.add_sub_cancel_left, List.nil_append, htaken, hleft]
    rwa [hsp] at h2
  · have hnil : pad = [] := List.length_eq_zero_iff.mp hpad
    refine ⟨lvl, rfl, ?_, Derived.refl lvl⟩
    have hst := hl.stores
    rw [hnil] at hst ⊢
    rwa [List.length_nil, List.take_zero, List.append_nil, List.drop_nil]

omit [Zero Hash] in
theorem chunks_with_len (lvl : ChunkedLevel Hash) (n : ℕ) :
    ChunkedLevel.chunks { lvl with len := n } = lvl.chunks := rfl

omit [Zero Hash] in
/-- Levels that grow by chunks in memory have no new windows. -/
theorem derived_push (lvl : ChunkedLevel Hash) (n : ℕ) (g : ℕ → Fin CHUNK_SIZE → Hash) :
    Derived lvl (((List.range n).map fun ci => Chunk.memory (g ci)).foldl pushChunk lvl) := by
  intro i c hc hm
  rw [chunks_foldl_pushChunk] at hc
  rcases Nat.lt_or_ge i lvl.chunks.length with hi | hi
  · rwa [List.getElem?_append_left hi] at hc
  · rw [List.getElem?_append_right hi, List.getElem?_map] at hc
    obtain ⟨_, -, rfl⟩ := Option.map_eq_some_iff.mp hc
    cases hm

theorem Whole.extendWith (hl : Whole fs lvl l pad) {fill : Fill Hash} {ys : List Hash}
    (hfill : Fills fill ys) (hfit : l.length + ys.length < U64_SIZE) :
    ∃ lvl' pad', lvl.extendWith fs ys.length fill = .ok lvl' ∧ Whole fs lvl' (l ++ ys) pad' ∧
      Derived lvl lvl' ∧ ((∀ x ∈ pad, x = 0) → ∀ x ∈ pad', x = 0) := by
  unfold ChunkedLevel.extendWith
  split_ifs with h0
  · refine ⟨lvl, pad, rfl, ?_, Derived.refl lvl, id⟩
    rw [List.length_eq_zero_iff.mp h0, List.append_nil]
    exact hl
  · obtain ⟨lvl₁, e₁, hst, hd₁⟩ := hl.fillLast hfill (by omega)
    have hpad := hl.pad_length
    have hmod := Nat.mod_lt l.length CHUNK_SIZE_pos
    have hfull := hl.full
    rw [List.length_append] at hfull
    have hroom := hl.room
    have hdone : (if 0 < l.length % CHUNK_SIZE then
        min (CHUNK_SIZE - l.length % CHUNK_SIZE) ys.length else 0) = min pad.length ys.length := by
      split_ifs at hpad ⊢ <;> omega
    have hcount : lvl₁.chunks.length * CHUNK_SIZE =
        (l ++ ys.take pad.length ++ pad.drop ys.length).length := by
      have hlen : (l ++ ys.take pad.length ++ pad.drop ys.length).length = (l ++ pad).length := by
        simp only [List.length_append, List.length_take, List.length_drop]
        omega
      rw [hst.count, hlen, ← hl.stores.count, hl.full]
    rw [hl.len, checkedAdd_of_lt hfit, Outcome.ok_bind]
    dsimp only
    rw [e₁, Outcome.ok_bind, hdone, Outcome.mapM_ok (g := fun ci => Chunk.memory
      (FixedArray.overwrite (fun _ => (0 : Hash)) 0
        (((ys.drop (min pad.length ys.length)).drop (ci * CHUNK_SIZE)).take CHUNK_SIZE)))]
    · rw [Outcome.ok_bind, ← List.length_drop]
      rcases Nat.lt_or_ge pad.length ys.length with hlt | hge
      · -- the rest starts at a chunk boundary
        rw [Nat.min_eq_left hlt.le]
        rw [List.drop_eq_nil_of_le hlt.le, List.append_nil] at hst hcount
        have hpush := hst.push_chunks hcount.symm (ys.drop pad.length)
        rw [← List.append_assoc, List.append_assoc l, List.take_append_drop] at hpush
        obtain ⟨hfits, hrest⟩ := ceilDiv_mul_sub (ys.drop pad.length).length
        refine ⟨_, List.replicate _ 0, rfl,
          ⟨⟨hpush.count, hpush.pending, hpush.cells⟩, ?_, ?_, List.length_append.symm⟩,
          hd₁.trans (derived_push lvl₁ _ _), fun _ x hx => List.eq_of_mem_replicate hx⟩
        · rw [chunks_with_len, chunks_foldl_pushChunk, List.length_append, List.length_append,
            List.length_replicate, List.length_append, List.length_map, List.length_range,
            Nat.add_mul, hcount, List.length_append, List.length_take]
          rw [List.length_drop] at hfits ⊢
          omega
        · rw [List.length_replicate]
          exact hrest
      · have hzero : (ys.drop (min pad.length ys.length)).length = 0 := by
          rw [List.length_drop]
          omega
        rw [List.take_of_length_le hge] at hst hcount
        rw [hzero, zero_ceilDiv, List.range_zero, List.map_nil, List.foldl_nil]
        refine ⟨_, pad.drop ys.length, rfl,
          ⟨⟨hst.count, hst.pending, hst.cells⟩, ?_, ?_, List.length_append.symm⟩, hd₁,
          fun h x hx => h x (List.mem_of_mem_drop hx)⟩
        · exact hcount.symm
        · rw [List.length_drop]
          omega
    · intro ci hci
      rw [List.mem_range, LeanTree.lt_ceilDiv_iff CHUNK_SIZE_pos] at hci
      rw [buildChunk_spec hfill (by omega), List.drop_drop]

theorem Holds.extendWith (hl : Holds fs lvl l) {fill : Fill Hash} {ys : List Hash}
    (hfill : Fills fill ys) (hfit : l.length + ys.length < U64_SIZE) :
    ∃ lvl', lvl.extendWith fs ys.length fill = .ok lvl' ∧ Holds fs lvl' (l ++ ys) ∧
      Derived lvl lvl' := by
  obtain ⟨pad, hw⟩ := hl.whole
  obtain ⟨lvl', pad', e, hw', hd, -⟩ := hw.extendWith hfill hfit
  exact ⟨lvl', e, hw'.holds, hd⟩

theorem Holds.extend (hl : Holds fs lvl l) {ys : List Hash}
    (hfit : l.length + ys.length < U64_SIZE) :
    ∃ lvl', lvl.extend fs ys = .ok lvl' ∧ Holds fs lvl' (l ++ ys) ∧ Derived lvl lvl' :=
  hl.extendWith (fun _ _ _ _ => rfl) hfit

theorem Holds.ensureLen (hl : Holds fs lvl l) {target : ℕ} (hfit : target < U64_SIZE) :
    ∃ lvl', lvl.ensureLen fs target = .ok lvl' ∧
      Holds fs lvl' (l ++ List.replicate (target - l.length) 0) ∧ Derived lvl lvl' := by
  unfold ChunkedLevel.ensureLen
  split_ifs with h
  · refine ⟨lvl, rfl, ?_, Derived.refl lvl⟩
    have e : target - l.length = 0 := by have := hl.len; omega
    rw [e, List.replicate_zero, List.append_nil]
    exact hl
  · have hlen := hl.len
    have hfill : Fills (fun _ n => pure (List.replicate n 0))
        (List.replicate (target - l.length) (0 : Hash)) := by
      intro d n _ hdn
      rw [List.length_replicate] at hdn
      rw [List.drop_replicate, List.take_replicate, Nat.min_eq_left (by omega)]
      rfl
    have := hl.extendWith hfill (by rw [List.length_replicate]; omega)
    rwa [List.length_replicate, ← hlen] at *

theorem Holds.set (hl : Holds fs lvl l) {i : ℕ} (hfit : i + 1 < U64_SIZE) (x : Hash) :
    ∃ lvl', lvl.set fs i x = .ok lvl' ∧
      Holds fs lvl' ((l ++ List.replicate (i + 1 - l.length) 0).set i x) ∧ Derived lvl lvl' := by
  obtain ⟨lvl₁, e₁, h₁, hd₁⟩ := hl.ensureLen hfit
  obtain ⟨lvl₂, e₂, h₂, hd₂⟩ := h₁.setPreallocated (i := i)
    (by rw [List.length_append, List.length_replicate]; omega) x
  have hstep : (if lvl.len ≤ i then lvl.ensureLen fs (i + 1) else pure lvl) = .ok lvl₁ := by
    split_ifs with h
    · exact e₁
    · rw [← e₁, ChunkedLevel.ensureLen, if_pos (by omega)]
  refine ⟨lvl₂, ?_, h₂, hd₁.trans hd₂⟩
  rw [ChunkedLevel.set]
  split_ifs at hstep ⊢ with h
  · rw [hstep, Outcome.ok_bind]
    exact e₂
  · rw [hstep, Outcome.ok_bind]
    exact e₂

end Holds

end ChunkedLevel

end Works.Rotortree
