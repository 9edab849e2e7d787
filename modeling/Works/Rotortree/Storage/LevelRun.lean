import Works.Lib.Chunks
import Works.Rotortree.Storage.ShardSpec

/-! # Chunked levels refine lists

Handles onto chunked levels and lists of hashes, under the same operations: a handle grows, is
written to or is cloned.  A closure given to `extend_with` or `write_with` is called for the
part in each chunk on its own, so that what it writes depends on the chunk boundaries
(`Fill.written`).  Every handle reads like its list, whatever was done to the other ones
(`levels_refine_lists`). -/

namespace Works.Rotortree

open Works.Lib

namespace ChunkedLevel

variable {Hash : Type} {fs : ShardFs Hash} {lvl : ChunkedLevel Hash} {l pad : List Hash}

/-! ### What a closure writes -/

/-- The closure writes every slot of the parts of `count` slots that it is given. -/
def Fill.Total (fill : Fill Hash) (count : ℕ) : Prop :=
  ∀ off n, 0 < n → off + n ≤ count → ∃ xs, fill off n = .ok xs ∧ xs.length = n

/-- The part of `count` slots from `start` on that begins at slot `d` and lies in one chunk. -/
structure Piece (start count d n : ℕ) : Prop where
  lt : d < count
  aligned : d = 0 ∨ (start + d) % CHUNK_SIZE = 0
  size : n = min (CHUNK_SIZE - (start + d) % CHUNK_SIZE) (count - d)

theorem Piece.pos {start count d n : ℕ} (h : Piece start count d n) : 0 < n := by
  rw [h.size]
  have := h.lt
  exact (mod_add_min_le (start + d) (count - d)).2 (by omega)

theorem Piece.le {start count d n : ℕ} (h : Piece start count d n) : d + n ≤ count := by
  have := h.size
  have := h.lt
  omega

/-- What follows a piece starts at a chunk boundary. -/
theorem Piece.next {start count d n : ℕ} (h : Piece start count d n) (hlt : d + n < count) :
    (start + (d + n)) % CHUNK_SIZE = 0 := by
  have hsize := h.size
  have hmod := Nat.mod_lt (start + d) CHUNK_SIZE_pos
  have hdiv : ∀ x n : ℕ, n = 128 - x % 128 → (x + n) % 128 = 0 := by omega
  rw [← Nat.add_assoc]
  exact hdiv _ _ (show n = CHUNK_SIZE - (start + d) % CHUNK_SIZE by omega)

/-- Closures that write the same into every piece overwrite a level alike. -/
theorem writeFrom_congr {start count : ℕ} {fill fill' : Fill Hash}
    (h : ∀ d n, Piece start count d n → fill d n = fill' d n) (fuel : ℕ) :
    ∀ (done : ℕ) (lvl : ChunkedLevel Hash),
      (done < count → done = 0 ∨ (start + done) % CHUNK_SIZE = 0) →
      lvl.writeFrom fs start count fill fuel done = lvl.writeFrom fs start count fill' fuel done := by
  induction fuel with
  | zero => intro done lvl _; rfl
  | succ fuel ih =>
      intro done lvl hdone
      rw [ChunkedLevel.writeFrom, ChunkedLevel.writeFrom]
      split_ifs with hle
      · rfl
      · have hpiece : Piece start count done
            (min (CHUNK_SIZE - (start + done) % CHUNK_SIZE) (count - done)) :=
          ⟨by omega, hdone (by omega), rfl⟩
        dsimp only
        rw [h _ _ hpiece]
        congr 1
        funext lvl'
        exact ih _ lvl' fun hlt => Or.inr (hpiece.next hlt)

variable [Zero Hash]

/-- Slot `j` of `count` slots from `start` on: the closure is called for the part that lies in
the chunk of the slot. -/
def Fill.slot (fill : Fill Hash) (start count j : ℕ) : Hash :=
  let off := (start + j) / CHUNK_SIZE * CHUNK_SIZE - start
  let n := min (CHUNK_SIZE - (start + off) % CHUNK_SIZE) (count - off)
  match fill off n with
  | .ok xs => xs.getD (j - off) 0
  | .error _ => 0

/-- What the closure writes into `count` slots from `start` on. -/
def Fill.written (fill : Fill Hash) (start count : ℕ) : List Hash :=
  (List.range count).map (fill.slot start count)

@[simp] theorem length_written (fill : Fill Hash) (start count : ℕ) :
    (fill.written start count).length = count := by
  rw [Fill.written, List.length_map, List.length_range]

/-- The first slot of the part that slot `d + i` of a piece lies in. -/
theorem Piece.start_eq {start count d n i : ℕ} (h : Piece start count d n) (hi : i < n) :
    (start + (d + i)) / CHUNK_SIZE * CHUNK_SIZE - start = d := by
  have hsize := h.size
  have hmod := Nat.mod_lt (start + d) CHUNK_SIZE_pos
  have hdiv : (start + (d + i)) / CHUNK_SIZE = (start + d) / CHUNK_SIZE := by
    rw [← Nat.add_assoc]
    exact (div_mod_add (show (start + d) % CHUNK_SIZE + i < CHUNK_SIZE by omega)).1
  have hdm := Nat.div_add_mod' (start + d) CHUNK_SIZE
  rw [hdiv]
  cases h.aligned with
  | inl hzero => omega
  | inr haligned => omega

/-- The closure writes its part of the list into every piece. -/
theorem Fill.Total.piece {fill : Fill Hash} {start count d n : ℕ} (hfill : fill.Total count)
    (h : Piece start count d n) :
    fill d n = .ok (((fill.written start count).drop d).take n) := by
  obtain ⟨xs, hxs, hlen⟩ := hfill d n h.pos h.le
  have hsize := h.size
  rw [hxs]
  congr 1
  apply List.ext_getElem?
  intro i
  rcases Nat.lt_or_ge i n with hi | hi
  · have hslot : fill.slot start count (d + i) = xs.getD i 0 := by
      unfold Fill.slot
      dsimp only
      rw [h.start_eq hi, ← hsize, hxs, Nat.add_sub_cancel_left]
    rw [List.getElem?_take_of_lt hi, List.getElem?_drop, Fill.written, List.getElem?_map,
      List.getElem?_range (by omega), Option.map_some, hslot, List.getD_eq_getElem?_getD,
      List.getElem?_eq_getElem (by omega), Option.getD_some]
  · rw [List.getElem?_eq_none (by omega), List.getElem?_eq_none (by
      rw [List.length_take]; omega)]

omit [Zero Hash] in
/-- The closure that copies a list. -/
theorem fills_copy (ys : List Hash) : Fills (fun d n => pure ((ys.drop d).take n)) ys :=
  fun _ _ _ _ => rfl

/-- Closures that write the same into every piece extend a level alike. -/
theorem extendWith_congr {count : ℕ} {fill fill' : Fill Hash}
    (h : ∀ d n, Piece lvl.len count d n → fill d n = fill' d n) :
    lvl.extendWith fs count fill = lvl.extendWith fs count fill' := by
  unfold ChunkedLevel.extendWith
  split_ifs with h0
  · rfl
  · congr 1
    funext newLen
    dsimp only
    have hmod := Nat.mod_lt lvl.len CHUNK_SIZE_pos
    have hfirst : lvl.fillLast fs (min (CHUNK_SIZE - lvl.len % CHUNK_SIZE) count) fill =
        lvl.fillLast fs (min (CHUNK_SIZE - lvl.len % CHUNK_SIZE) count) fill' := by
      unfold ChunkedLevel.fillLast
      dsimp only
      rw [h 0 _ ⟨by omega, Or.inl rfl, by rw [Nat.add_zero, Nat.sub_zero]⟩]
    rw [hfirst]
    congr 1
    funext lvl₁
    congr 1
    apply mapM_congr
    intro ci hci
    rw [List.mem_range, LeanTree.lt_ceilDiv_iff CHUNK_SIZE_pos] at hci
    generalize hdone : (if 0 < lvl.len % CHUNK_SIZE then
      min (CHUNK_SIZE - lvl.len % CHUNK_SIZE) count else 0) = done at hci ⊢
    have haligned : (lvl.len + (done + ci * CHUNK_SIZE)) % CHUNK_SIZE = 0 := by
      have hfull : ∀ n d c : ℕ, (n + d) % 128 = 0 → (n + (d + c * 128)) % 128 = 0 := by omega
      have hoff : (lvl.len + done) % CHUNK_SIZE = 0 := by
        have hdiv : ∀ n : ℕ, (n + (128 - n % 128)) % 128 = 0 := by omega
        split_ifs at hdone with hpos
        · rw [show done = CHUNK_SIZE - lvl.len % CHUNK_SIZE by omega]
          exact hdiv lvl.len
        · rw [← hdone, Nat.add_zero]
          omega
      exact hfull _ _ _ hoff
    unfold buildChunk
    dsimp only
    rw [h _ _ ⟨by omega, Or.inr haligned, by rw [haligned, Nat.sub_zero, Nat.min_comm]⟩]

/-! ### Levels with zeros past their end -/

/-- The level is the list `l`, and what follows `l` in the last chunk is zero. -/
structure Clean (fs : ShardFs Hash) (lvl : ChunkedLevel Hash) (l : List Hash) : Prop where
  fits : l.length < U64_SIZE
  zeros : ∃ pad, Whole fs lvl l pad ∧ ∀ x ∈ pad, x = 0

omit [Zero Hash] in
/-- A level whose chunks were rewritten in the part that the list takes. -/
theorem Whole.rewritten {lvl' : ChunkedLevel Hash} {l' : List Hash} (hl : Whole fs lvl l pad)
    (hst : Stores fs lvl' (l' ++ pad)) (hlen : lvl'.len = lvl.len) (hl' : l'.length = l.length) :
    Whole fs lvl' l' pad where
  stores := hst
  full := by
    have hsame : (l' ++ pad).length = (l ++ pad).length := by
      rw [List.length_append, List.length_append, hl']
    rw [hst.count, hsame, ← hl.stores.count, ← hl.full]
  room := hl.room
  len := by rw [hlen, hl.len, hl']

omit [Zero Hash] in
theorem Whole.writeWith (hl : Whole fs lvl l pad) {fill : Fill Hash} {ys : List Hash}
    (hfill : Fills fill ys) (start : ℕ) (hin : start + ys.length ≤ l.length) :
    ∃ lvl', lvl.writeWith fs start ys.length fill = .ok lvl' ∧
      Whole fs lvl' (FixedArray.splice l start ys) pad := by
  obtain ⟨lvl', e, hst, hlen, -⟩ := hl.stores.writeWith hfill start
    (by rw [List.length_append]; omega) (by rw [hl.len]; exact hin)
  have hsplice : FixedArray.splice (l ++ pad) start ys = FixedArray.splice l start ys ++ pad := by
    unfold FixedArray.splice
    rw [List.take_append_of_le_length (by omega), List.drop_append_of_le_length hin,
      List.append_assoc, List.append_assoc, List.append_assoc]
  rw [hsplice] at hst
  exact ⟨lvl', e, hl.rewritten hst hlen (FixedArray.length_splice hin)⟩

omit [Zero Hash] in
theorem Whole.setPreallocated (hl : Whole fs lvl l pad) {i : ℕ} (hi : i < l.length) (x : Hash) :
    ∃ lvl', lvl.setPreallocated fs i x = .ok lvl' ∧ Whole fs lvl' (l.set i x) pad := by
  obtain ⟨lvl', e, hst, hlen, -⟩ := hl.stores.setPreallocated (i := i)
    (by rw [List.length_append]; omega) (by rw [hl.len]; exact hi) x
  rw [List.set_append_left _ _ hi] at hst
  exact ⟨lvl', e, hl.rewritten hst hlen (by rw [List.length_set])⟩

theorem new_clean (fs : ShardFs Hash) : Clean fs (new : ChunkedLevel Hash) [] := by
  have hpos : 0 < U64_SIZE := by decide
  exact ⟨hpos, [], ⟨(new_holds fs).toStores, rfl, CHUNK_SIZE_pos, rfl⟩, by simp⟩

/-! ### Operations on a level and on a list -/

/-- What is done to one level. -/
inductive LevelOp (Hash : Type) where
  | extend (values : List Hash)
  | extendWith (count : ℕ) (fill : Fill Hash)
  | ensureLen (target : ℕ)
  | set (index : ℕ) (value : Hash)
  | writeWith (start count : ℕ) (fill : Fill Hash)

/-- The operation on a level. -/
def LevelOp.onLevel (fs : ShardFs Hash) (lvl : ChunkedLevel Hash) :
    LevelOp Hash → Outcome TreeError (ChunkedLevel Hash)
  | .extend values => lvl.extend fs values
  | .extendWith count fill => lvl.extendWith fs count fill
  | .ensureLen target => lvl.ensureLen fs target
  | .set index value => lvl.set fs index value
  | .writeWith start count fill => lvl.writeWith fs start count fill

/-- A list grows by `ys`, if its length still is a machine word then. -/
def grow (l ys : List Hash) : Outcome TreeError (List Hash) :=
  if l.length + ys.length < U64_SIZE then .ok (l ++ ys) else Outcome.fail .mathError

/-- A list grows to `target`, by zeros. -/
def growTo (l : List Hash) (target : ℕ) : Outcome TreeError (List Hash) :=
  grow l (List.replicate (target - l.length) 0)

/-- The operation on a list. -/
def LevelOp.onList (l : List Hash) : LevelOp Hash → Outcome TreeError (List Hash)
  | .extend values => grow l values
  | .extendWith count fill => grow l (fill.written l.length count)
  | .ensureLen target => growTo l target
  | .set index value => do
      let l' ← growTo l (index + 1)
      pure (l'.set index value)
  | .writeWith start count fill => .ok (FixedArray.splice l start (fill.written start count))

omit [Zero Hash] in
/-- What the caller of the operation promises. -/
def LevelOp.Admissible (l : List Hash) : LevelOp Hash → Prop
  | .extend _ => True
  | .extendWith count fill => fill.Total count
  | .ensureLen _ => True
  | .set _ _ => True
  | .writeWith start count fill => fill.Total count ∧ start + count ≤ l.length

/-- A level and a list came out alike: both grew or were written, or both failed. -/
def Alike (fs : ShardFs Hash) :
    Outcome TreeError (ChunkedLevel Hash) → Outcome TreeError (List Hash) → Prop
  | .ok lvl, .ok l => Clean fs lvl l
  | .error e, .error e' => e = e'
  | _, _ => False

theorem Clean.grow (hl : Clean fs lvl l) {fill : Fill Hash} {ys : List Hash}
    (hfill : Fills fill ys) : Alike fs (lvl.extendWith fs ys.length fill) (grow l ys) := by
  obtain ⟨pad, hwhole, hzero⟩ := hl.zeros
  unfold ChunkedLevel.grow
  split_ifs with hfit
  · obtain ⟨lvl', pad', e, hwhole', -, hzero'⟩ := hwhole.extendWith hfill hfit
    rw [e]
    exact ⟨by rwa [List.length_append], pad', hwhole', hzero' hzero⟩
  · have hfits := hl.fits
    have hfail : checkedAdd lvl.len ys.length TreeError.mathError = Outcome.fail .mathError := by
      unfold checkedAdd
      rw [hwhole.len, if_neg hfit]
    rw [ChunkedLevel.extendWith, if_neg (by omega), hfail]
    rfl

theorem Clean.growTo (hl : Clean fs lvl l) (target : ℕ) :
    Alike fs (lvl.ensureLen fs target) (growTo l target) := by
  obtain ⟨pad, hwhole, -⟩ := hl.zeros
  have hfill : Fills (fun _ n => pure (List.replicate n 0))
      (List.replicate (target - l.length) (0 : Hash)) := by
    intro d n _ hdn
    rw [List.length_replicate] at hdn
    rw [List.drop_replicate, List.take_replicate, Nat.min_eq_left (by omega)]
    rfl
  have hgrow := hl.grow hfill
  rw [List.length_replicate] at hgrow
  unfold ChunkedLevel.ensureLen ChunkedLevel.growTo
  rw [hwhole.len]
  split_ifs with hle
  · rw [Nat.sub_eq_zero_of_le hle] at hgrow ⊢
    rw [ChunkedLevel.extendWith, if_pos rfl] at hgrow
    exact hgrow
  · exact hgrow

theorem Clean.set (hl : Clean fs lvl l) (index : ℕ) (value : Hash) :
    Alike fs (lvl.set fs index value) ((LevelOp.set index value).onList l) := by
  obtain ⟨pad, hwhole, -⟩ := hl.zeros
  have hgrow := hl.growTo (index + 1)
  have hfirst : lvl.set fs index value =
      lvl.ensureLen fs (index + 1) >>= fun lvl' => lvl'.setPreallocated fs index value := by
    unfold ChunkedLevel.set
    dsimp only
    split_ifs with hle
    · rfl
    · rw [ChunkedLevel.ensureLen, if_pos (by omega)]
  have hlength : ∀ l', ChunkedLevel.growTo l (index + 1) = .ok l' → index < l'.length := by
    intro l' h
    unfold ChunkedLevel.growTo ChunkedLevel.grow at h
    split_ifs at h
    · cases h
      rw [List.length_append, List.length_replicate]
      omega
    · cases h
  rw [hfirst, LevelOp.onList]
  cases hlevel : lvl.ensureLen fs (index + 1) with
  | error e =>
      cases hlist : ChunkedLevel.growTo l (index + 1) with
      | error e' =>
          rw [hlevel, hlist] at hgrow
          exact hgrow
      | ok l' =>
          rw [hlevel, hlist] at hgrow
          exact hgrow.elim
  | ok lvl' =>
      cases hlist : ChunkedLevel.growTo l (index + 1) with
      | error e' =>
          rw [hlevel, hlist] at hgrow
          exact hgrow.elim
      | ok l' =>
          rw [hlevel, hlist] at hgrow
          obtain ⟨hfits, pad', hwhole', hzero'⟩ := hgrow
          obtain ⟨lvl₂, e, hset⟩ := hwhole'.setPreallocated (hlength l' hlist) value
          rw [Outcome.ok_bind, e, Outcome.ok_bind]
          exact ⟨by rwa [List.length_set], pad', hset, hzero'⟩

/-- An operation does to a level what it does to its list. -/
theorem Clean.step (hl : Clean fs lvl l) (op : LevelOp Hash) (hop : op.Admissible l) :
    Alike fs (op.onLevel fs lvl) (op.onList l) := by
  cases op with
  | extend values => exact hl.grow (fills_copy values)
  | extendWith count fill =>
      obtain ⟨pad, hwhole, -⟩ := hl.zeros
      have hcopy := hl.grow (fills_copy (fill.written l.length count))
      rw [length_written] at hcopy
      rw [LevelOp.onLevel, LevelOp.onList, extendWith_congr (fun d n hpiece => hop.piece hpiece),
        hwhole.len]
      exact hcopy
  | ensureLen target => exact hl.growTo target
  | set index value => exact hl.set index value
  | writeWith start count fill =>
      obtain ⟨hfill, hin⟩ := hop
      obtain ⟨pad, hwhole, hzero⟩ := hl.zeros
      obtain ⟨lvl', e, hwhole'⟩ := hwhole.writeWith (fills_copy (fill.written start count)) start
        (by rw [length_written]; exact hin)
      rw [length_written] at e
      have hsame : lvl.writeWith fs start count fill = .ok lvl' := by
        rw [← e, ChunkedLevel.writeWith, ChunkedLevel.writeWith]
        rw [writeFrom_congr (fun d n hpiece => hfill.piece hpiece) _ _ _ fun _ => Or.inl rfl]
        rfl
      rw [LevelOp.onLevel, hsame]
      exact ⟨by rw [FixedArray.length_splice (by rw [length_written]; exact hin)]; exact hl.fits,
        pad, hwhole', hzero⟩

/-! ### Handles -/

/-- What is done to the handles: one of them is cloned, or changed. -/
inductive HandleOp (Hash : Type) where
  | clone (handle : ℕ)
  | change (handle : ℕ) (op : LevelOp Hash)

/-- The handles after an operation; one that failed leaves its handle as it was. -/
def HandleOp.run {α : Type} (apply : α → LevelOp Hash → Outcome TreeError α) (handles : List α) :
    HandleOp Hash → List α
  | .clone i =>
      match handles[i]? with
      | some a => handles ++ [a]
      | none => handles
  | .change i op =>
      match handles[i]? with
      | some a =>
          match apply a op with
          | .ok a' => handles.set i a'
          | .error _ => handles
      | none => handles

/-- The levels after the operations, from one empty level. -/
def levelsAfter (fs : ShardFs Hash) (ops : List (HandleOp Hash)) : List (ChunkedLevel Hash) :=
  ops.foldl (HandleOp.run (LevelOp.onLevel fs)) [new]

/-- The lists after the operations, from one empty list. -/
def listsAfter (ops : List (HandleOp Hash)) : List (List Hash) :=
  ops.foldl (HandleOp.run LevelOp.onList) [[]]

omit [Zero Hash] in
/-- What the caller of an operation on a handle promises. -/
def HandleOp.Admissible (lists : List (List Hash)) : HandleOp Hash → Prop
  | .clone _ => True
  | .change i op => ∀ l, lists[i]? = some l → op.Admissible l

/-- What the caller promises of a sequence of operations. -/
def AdmissibleFrom : List (List Hash) → List (HandleOp Hash) → Prop
  | _, [] => True
  | lists, op :: ops => op.Admissible lists ∧
      AdmissibleFrom (HandleOp.run LevelOp.onList lists op) ops

/-- Levels and lists stay alike in a step. -/
theorem handles_step {levels : List (ChunkedLevel Hash)} {lists : List (List Hash)}
    (h : List.Forall₂ (Clean fs) levels lists) (op : HandleOp Hash) (hop : op.Admissible lists) :
    List.Forall₂ (Clean fs) (HandleOp.run (LevelOp.onLevel fs) levels op)
      (HandleOp.run LevelOp.onList lists op) := by
  obtain ⟨hlen, hget⟩ := List.forall₂_iff_get.mp h
  have hnone : ∀ i : ℕ, levels[i]? = none → lists[i]? = none := by
    intro i hi
    rw [List.getElem?_eq_none_iff] at hi ⊢
    omega
  have hsome : ∀ (i : ℕ) lvl, levels[i]? = some lvl →
      ∃ l, lists[i]? = some l ∧ Clean fs lvl l := by
    intro i lvl hi
    obtain ⟨hlt, rfl⟩ := List.getElem?_eq_some_iff.mp hi
    exact ⟨_, List.getElem?_eq_getElem (hlen ▸ hlt), hget i hlt (hlen ▸ hlt)⟩
  cases op with
  | clone i =>
      rw [HandleOp.run, HandleOp.run]
      cases hi : levels[i]? with
      | none =>
          rw [hnone i hi]
          exact h
      | some lvl =>
          obtain ⟨l, hl, hclean⟩ := hsome i lvl hi
          rw [hl]
          exact List.rel_append h (List.Forall₂.cons hclean List.Forall₂.nil)
  | change i op =>
      rw [HandleOp.run, HandleOp.run]
      cases hi : levels[i]? with
      | none =>
          rw [hnone i hi]
          exact h
      | some lvl =>
          obtain ⟨l, hl, hclean⟩ := hsome i lvl hi
          have halike := hclean.step op (hop l hl)
          rw [hl]
          dsimp only
          cases hlevel : op.onLevel fs lvl with
          | error e =>
              cases hlist : op.onList l with
              | error e' => exact h
              | ok l' =>
                  rw [hlevel, hlist] at halike
                  exact halike.elim
          | ok lvl' =>
              cases hlist : op.onList l with
              | error e' =>
                  rw [hlevel, hlist] at halike
                  exact halike.elim
              | ok l' =>
                  rw [hlevel, hlist] at halike
                  exact forall₂_set h halike i

/-- Levels and lists stay alike in a run. -/
theorem handles_run (ops : List (HandleOp Hash)) :
    ∀ {levels : List (ChunkedLevel Hash)} {lists : List (List Hash)},
      List.Forall₂ (Clean fs) levels lists → AdmissibleFrom lists ops →
      List.Forall₂ (Clean fs) (ops.foldl (HandleOp.run (LevelOp.onLevel fs)) levels)
        (ops.foldl (HandleOp.run LevelOp.onList) lists) := by
  induction ops with
  | nil => intro levels lists h _; exact h
  | cons op ops ih =>
      intro levels lists h hops
      rw [List.foldl_cons, List.foldl_cons]
      exact ih (handles_step h op hops.1) hops.2

/-! ### Reading -/

omit [Zero Hash] in
/-- One hash of a list. -/
def listGet (l : List Hash) (i : ℕ) : Outcome TreeError Hash :=
  match l[i]? with
  | some x => .ok x
  | none => Outcome.fail (.indexOutOfRange i l.length)

/-- The level reads like the list `l`, and its chunks are those that the list takes. -/
structure ReadsAs (fs : ShardFs Hash) (lvl : ChunkedLevel Hash) (l : List Hash) : Prop where
  len : lvl.len = l.length
  get : ∀ i, lvl.get fs i = listGet l i
  getGroup : ∀ start count, start + count ≤ l.length →
    lvl.getGroup fs start count = .ok ((l.drop start).take count)
  runs : ∀ start count, start + count ≤ l.length →
    lvl.runs fs start count = .ok (listRuns l count start count) ∧
      (listRuns l count start count).flatten = (l.drop start).take count
  chunksSince : ∀ already, ∃ cs, lvl.chunksSince already = .ok cs ∧
    (cs.map (Chunk.asSlice fs)).flatMap List.ofFn =
      (l ++ List.replicate (lvl.chunkCount * CHUNK_SIZE - l.length) 0).drop (already * CHUNK_SIZE)
  chunkCount : lvl.chunkCount = l.length ⌈/⌉ CHUNK_SIZE
  pending : lvl.pending.length < CHUNKS_PER_SEGMENT
  unused : ∀ i, l.length ≤ i → i < lvl.chunkCount * CHUNK_SIZE → lvl.cell fs i = some 0
  fails : ∀ op : LevelOp Hash, op.Admissible l →
    ∀ e, op.onLevel fs lvl = .error e ↔ op.onList l = .error e

/-- All hashes in the chunks of a level with zeros past its end. -/
theorem Clean.hashes (hl : Clean fs lvl l) :
    (lvl.chunks.map (Chunk.asSlice fs)).flatMap List.ofFn =
      l ++ List.replicate (lvl.chunkCount * CHUNK_SIZE - l.length) 0 := by
  obtain ⟨pad, hwhole, hzero⟩ := hl.zeros
  have hfull := hwhole.full
  rw [length_chunks] at hfull
  have hpad : pad = List.replicate (lvl.chunkCount * CHUNK_SIZE - l.length) 0 := by
    rw [List.eq_replicate_iff]
    refine ⟨?_, hzero⟩
    rw [List.length_append] at hfull
    omega
  rw [← hpad]
  apply List.ext_getElem?
  intro i
  rw [getElem?_hashes]
  rcases Nat.lt_or_ge i (l ++ pad).length with hi | hi
  · exact hwhole.stores.cells i hi
  · rw [List.getElem?_eq_none hi, cell, List.getElem?_eq_none]
    · rfl
    · rw [length_chunks, Nat.le_div_iff_mul_le CHUNK_SIZE_pos, ← hfull]
      exact hi

theorem Clean.reads (hl : Clean fs lvl l) : ReadsAs fs lvl l := by
  obtain ⟨pad, hwhole, hzero⟩ := hl.zeros
  have hholds := hwhole.holds
  refine ⟨hholds.len, ?_, fun start count => hholds.getGroup, ?_, ?_, ?_, hholds.pending, ?_, ?_⟩
  · intro i
    unfold listGet
    rcases Nat.lt_or_ge i l.length with hi | hi
    · rw [hholds.get hi, List.getElem?_eq_getElem hi]
    · rw [ChunkedLevel.get, if_pos (by rw [hholds.len]; exact hi), List.getElem?_eq_none hi,
        hholds.len]
  · intro start count h
    refine ⟨?_, flatten_listRuns l count start count le_rfl⟩
    rw [ChunkedLevel.runs, Outcome.require_pos (by rw [hholds.len]; exact h), Outcome.ok_bind,
      hholds.runsFrom count start count le_rfl h]
  · intro already
    refine ⟨_, chunksSince_eq lvl already, ?_⟩
    rw [← hl.hashes, List.map_drop, FixedArray.drop_blocks]
  · rw [← length_chunks, hholds.count]
  · intro i hge hlt
    rw [← getElem?_hashes, hl.hashes, List.getElem?_append_right hge, List.getElem?_replicate,
      if_pos (by omega)]
  · intro op hop e
    have halike := hl.step op hop
    cases hlevel : op.onLevel fs lvl with
    | error e₁ =>
        cases hlist : op.onList l with
        | error e₂ =>
            rw [hlevel, hlist] at halike
            have heq : e₁ = e₂ := halike
            subst heq
            rw [Except.error.injEq, Except.error.injEq]
        | ok l' =>
            rw [hlevel, hlist] at halike
            exact halike.elim
    | ok lvl' =>
        cases hlist : op.onList l with
        | error e₂ =>
            rw [hlevel, hlist] at halike
            exact halike.elim
        | ok l' =>
            constructor
            · intro h
              cases h
            · intro h
              cases h

/-- **Chunked levels refine lists.**  Whatever is done to a level and to its clones, each of
them reads like the list that the same operations made of the empty list: what is done to one
does not show in another, and the slots past the end are zero. -/
theorem levels_refine_lists (fs : ShardFs Hash) (ops : List (HandleOp Hash))
    (hops : AdmissibleFrom [[]] ops) :
    List.Forall₂ (ReadsAs fs) (levelsAfter fs ops) (listsAfter ops) := by
  have hnew : List.Forall₂ (Clean fs) [ChunkedLevel.new] [[]] :=
    List.Forall₂.cons (new_clean fs) List.Forall₂.nil
  have hrun := handles_run ops hnew hops
  exact hrun.imp fun _ _ hl => hl.reads

/-- A level is cloned, then grown, while its clone is written to by a closure. -/
def twoHandles : List (HandleOp ℕ) :=
  [.change 0 (.extend [1, 2]), .clone 0, .change 0 (.set 3 9),
    .change 1 (.writeWith 1 1 fun _ n => .ok (List.replicate n 5))]

theorem twoHandles_read :
    listsAfter twoHandles = [[1, 2, 0, 9], [1, 5]] ∧
      List.Forall₂ (ReadsAs fun _ _ _ => 0) (levelsAfter (fun _ _ _ => 0) twoHandles)
        (listsAfter twoHandles) := by
  refine ⟨by decide +kernel, levels_refine_lists _ twoHandles ⟨?_, ?_, ?_, ?_, trivial⟩⟩
  · intro l _
    trivial
  · trivial
  · intro l _
    trivial
  · intro l hl
    have hlist : l = [1, 2] := by
      have hsome : some l = some [1, 2] := by
        rw [← hl]
        decide +kernel
      exact Option.some.inj hsome
    refine ⟨fun off n _ _ => ⟨_, rfl, List.length_replicate⟩, ?_⟩
    rw [hlist]
    decide

end ChunkedLevel

end Works.Rotortree
