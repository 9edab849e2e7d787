import Works.Chainfold.Engine

/-! # One event at a time

`apply_batch` works span by span: it drops what the cursor already covers, folds the rest of
the span, and only then moves the cursor and records the block.  `consume` is the same work
done event by event, with the cursor moved after each one.  The two agree (`applySpan_eq`,
`applySpans_eq`), whatever the fold returns, because the block is recorded only when the
cursor first enters it.  Everything that does not depend on how the events came in batches is
proved about `consume`. -/

namespace Works.Chainfold

open BlockRing

variable {σ E ε : Type}

/-- An event of a block. -/
structure ChainEvent (E : Type) where
  block : BlockRef
  logIndex : ℕ
  event : E

/-- The position of an event. -/
def ChainEvent.pos (x : ChainEvent E) : Position := ⟨x.block.number, x.logIndex⟩

/-- The events of a span. -/
def SpanView.chainEvents (s : SpanView E) : List (ChainEvent E) :=
  s.items.map fun item => ⟨s.block, item.1, item.2⟩

/-- The events of a batch. -/
def Batch.chainEvents (b : Batch E) : List (ChainEvent E) := b.spans.flatMap SpanView.chainEvents

namespace Engine

/-! ### The ring and the cursor -/

/-- The ring ascends and its newest entry is the cursor block. -/
structure RingOk (e : Engine σ) : Prop where
  ascending : Ascending e.ring.iter
  newest : e.ring.newestNumber = Cursor.block e.cursor

theorem ascending_pushed {cap : ℕ} {l : List BlockRef} (h : Ascending l) {b : BlockRef}
    (hb : ∀ a ∈ l, a.number < b.number) : Ascending (pushed cap l b) := by
  unfold pushed
  split_ifs
  · exact List.pairwise_append.mpr ⟨h, List.pairwise_singleton _ _, by simpa using hb⟩
  · refine List.pairwise_append.mpr ⟨h.sublist (List.tail_sublist l), List.pairwise_singleton _ _, ?_⟩
    intro a ha
    simpa using hb a (List.mem_of_mem_tail ha)

theorem getLast?_pushed (cap : ℕ) (l : List BlockRef) (b : BlockRef) :
    (pushed cap l b).getLast? = some b := by
  unfold pushed
  split_ifs <;> simp

/-- Every entry of a sorted list is at or below the last. -/
theorem number_le_of_getLast? {l : List BlockRef} (h : Ascending l) {b : BlockRef}
    (hb : l.getLast? = some b) : ∀ a ∈ l, a.number ≤ b.number := by
  obtain ⟨l', rfl⟩ := List.getLast?_eq_some_iff.mp hb
  intro a ha
  rcases List.mem_append.mp ha with ha | ha
  · exact ((List.pairwise_append.mp h).2.2 a ha b (by simp)).le
  · rw [List.mem_singleton.mp ha]

/-- The cursor block of a good engine is the newest of the observed blocks. -/
theorem RingOk.getLast? {e : Engine σ} (h : e.RingOk) {c : Position} (hc : e.cursor = some c) :
    ∃ b, e.ring.iter.getLast? = some b ∧ b.number = c.block := by
  have := h.newest
  rw [newestNumber_eq, hc, Cursor.block_some, Option.map_eq_some_iff] at this
  exact this

theorem RingOk.iter_eq_nil_iff {e : Engine σ} (h : e.RingOk) :
    e.cursor = none ↔ e.ring.iter = [] := by
  have := h.newest
  rw [newestNumber_eq] at this
  constructor
  · intro hc
    rw [hc, Cursor.block_none, Option.map_eq_none_iff, List.getLast?_eq_none_iff] at this
    exact this
  · intro hnil
    rw [hnil] at this
    cases hc : e.cursor with
    | none => rfl
    | some c => rw [hc] at this; simp at this

theorem RingOk.number_le {e : Engine σ} (h : e.RingOk) {c : Position} (hc : e.cursor = some c) :
    ∀ a ∈ e.ring.iter, a.number ≤ c.block := by
  obtain ⟨b, hb, hn⟩ := h.getLast? hc
  intro a ha
  rw [← hn]
  exact number_le_of_getLast? h.ascending hb a ha

/-! ### Advancing -/

section Advance

variable (e : Engine σ) (number : ℕ) (hash : Hash) (pos : Position)

@[simp] theorem cursor_advance : (e.advance number hash pos).cursor = some pos := by
  unfold advance
  split_ifs <;> rfl

@[simp] theorem fold_advance : (e.advance number hash pos).fold = e.fold := by
  unfold advance
  split_ifs <;> rfl

@[simp] theorem checkpoints_advance :
    (e.advance number hash pos).checkpoints = e.checkpoints := by
  unfold advance
  split_ifs <;> rfl

@[simp] theorem status_advance : (e.advance number hash pos).status = e.status := by
  unfold advance
  split_ifs <;> rfl

@[simp] theorem skips_advance : (e.advance number hash pos).skips = e.skips := by
  unfold advance
  split_ifs <;> rfl

@[simp] theorem resets_advance : (e.advance number hash pos).resets = e.resets := by
  unfold advance
  split_ifs <;> rfl

@[simp] theorem capacity_advance :
    (e.advance number hash pos).ring.capacity = e.ring.capacity := by
  unfold advance
  split_ifs
  · exact capacity_push _ _
  · rfl

theorem ring_advance : (e.advance number hash pos).ring =
    if e.ring.newestNumber.all fun newest => decide (newest < number)
    then e.ring.push ⟨number, hash⟩ else e.ring := by
  unfold advance
  split_ifs <;> rfl

/-- The state of the fold and the counters do not matter to `advance`. -/
theorem advance_with (fold : σ) (skips : ℕ) :
    ({ e with fold := fold, skips := skips }).advance number hash pos =
      { e.advance number hash pos with fold := fold, skips := skips } := by
  unfold advance
  dsimp only
  split_ifs <;> rfl

theorem newestNumber_push (r : BlockRing) (b : BlockRef) :
    (r.push b).newestNumber = some b.number := by
  rw [newestNumber_eq, iter_push, getLast?_pushed]
  rfl

/-- The block is recorded once: moving on inside it only moves the cursor. -/
theorem advance_advance (pos' : Position) :
    (e.advance number hash pos).advance number hash pos' = e.advance number hash pos' := by
  by_cases h : (e.ring.newestNumber.all fun newest => decide (newest < number)) = true
  · have h' : ¬ ((some number : Option ℕ).all fun newest => decide (newest < number)) = true := by
      simp
    rw [advance, ring_advance, if_pos h, newestNumber_push, if_neg h']
    simp only [advance, if_pos h]
  · rw [advance, ring_advance, if_neg h, if_neg h]
    simp only [advance, if_neg h]

theorem RingOk.advance {e : Engine σ} (h : e.RingOk) {number : ℕ} {pos : Position}
    (hpos : pos.block = number) (hle : e.cursor ≤ some pos) (hash : Hash) :
    (e.advance number hash pos).RingOk := by
  subst hpos
  by_cases hn : (e.ring.newestNumber.all fun newest => decide (newest < pos.block)) = true
  · have hring : (e.advance pos.block hash pos).ring = e.ring.push ⟨pos.block, hash⟩ := by
      rw [ring_advance, if_pos hn]
    constructor
    · rw [hring, iter_push]
      apply ascending_pushed h.ascending
      intro a ha
      cases hc : e.cursor with
      | none => rw [h.iter_eq_nil_iff.mp hc] at ha; simp at ha
      | some c =>
          have h1 := h.number_le hc a ha
          rw [h.newest, hc] at hn
          simp only [Cursor.block_some, Option.all_some, decide_eq_true_eq] at hn
          exact lt_of_le_of_lt h1 hn
    · rw [hring, newestNumber_push, cursor_advance]
      rfl
  · have hring : (e.advance pos.block hash pos).ring = e.ring := by
      rw [ring_advance, if_neg hn]
    constructor
    · rw [hring]
      exact h.ascending
    · rw [hring, cursor_advance, h.newest]
      cases hc : e.cursor with
      | none => rw [h.newest, hc] at hn; simp at hn
      | some c =>
          rw [h.newest, hc] at hn
          rw [hc] at hle
          have := Position.block_le (Option.some_le_some.mp hle)
          simp only [Cursor.block_some, Option.all_some, decide_eq_true_eq] at hn
          rw [Cursor.block_some, Cursor.block_some, show c.block = pos.block by omega]

end Advance

/-! ### Consuming events -/

/-- Folds the events one by one, moving the cursor after each. -/
def consume (A : Fold σ E ε) : List (ChainEvent E) → Engine σ → ApplySummary →
    Engine σ × Except (ApplyError ε) ApplySummary
  | [], e, summary => (e, .ok summary)
  | x :: xs, e, summary =>
      match A.apply e.fold x.pos x.event with
      | (fold, .ok ()) =>
          consume A xs (({ e with fold := fold }).advance x.block.number x.block.hash x.pos)
            { summary with applied := summary.applied + 1 }
      | (fold, .error (.skip _)) =>
          consume A xs (({ e with fold := fold, skips := e.skips + 1 }).advance x.block.number
            x.block.hash x.pos) { summary with skipped := summary.skipped + 1 }
      | (fold, .error (.halt error)) =>
          ({ e with fold := fold, status := .halted x.pos }, .error (.halted x.pos error))
      | (fold, .error (.poison error)) =>
          ({ e with fold := fold, status := .poisoned x.pos }, .error (.poisoned x.pos error))

theorem consume_append (A : Fold σ E ε) (xs ys : List (ChainEvent E)) (e : Engine σ)
    (s : ApplySummary) :
    consume A (xs ++ ys) e s =
      match consume A xs e s with
      | (e', .ok s') => consume A ys e' s'
      | (e', .error err) => (e', .error err) := by
  induction xs generalizing e s with
  | nil => rfl
  | cons x xs ih =>
      rw [List.cons_append, consume, consume]
      rcases A.apply e.fold x.pos x.event with ⟨fold, _ | _⟩
      · rename_i err
        cases err with
        | skip _ => exact ih _ _
        | halt _ => rfl
        | poison _ => rfl
      · exact ih _ _

/-! ### Spans -/

section Spans

variable (A : Fold σ E ε)

theorem consumedThrough_with (e : Engine σ) (span : SpanView E) (indices : List ℕ) (offset : ℕ)
    (fold : σ) (skips : ℕ) :
    consumedThrough { e with fold := fold, skips := skips } span indices offset =
      { e.consumedThrough span indices offset with fold := fold, skips := skips } := by
  unfold consumedThrough
  cases (if offset = 0 then none else indices[offset - 1]?) with
  | none => rfl
  | some logIndex => exact advance_with _ _ _ _ _ _

@[simp] theorem fold_consumedThrough (e : Engine σ) (span : SpanView E) (indices : List ℕ)
    (offset : ℕ) : (e.consumedThrough span indices offset).fold = e.fold := by
  unfold consumedThrough
  split
  · exact fold_advance _ _ _ _
  · rfl

@[simp] theorem skips_consumedThrough (e : Engine σ) (span : SpanView E) (indices : List ℕ)
    (offset : ℕ) : (e.consumedThrough span indices offset).skips = e.skips := by
  unfold consumedThrough
  split
  · exact skips_advance _ _ _ _
  · rfl

theorem consumedThrough_succ (e : Engine σ) (span : SpanView E) {indices : List ℕ} {offset i : ℕ}
    (h : indices[offset]? = some i) :
    e.consumedThrough span indices (offset + 1) =
      (e.consumedThrough span indices offset).advance span.number span.hash ⟨span.number, i⟩ := by
  have hsucc : e.consumedThrough span indices (offset + 1) =
      e.advance span.number span.hash ⟨span.number, i⟩ := by
    simp [consumedThrough, h]
  rw [hsucc]
  unfold consumedThrough
  split
  · rw [advance_advance]
  · rfl

/-- Folding a span and moving the cursor at its end, or at the event that stopped it, is
consuming its events. -/
theorem applyEvents_eq (span : SpanView E) (indices : List ℕ) :
    ∀ (rest : List (ℕ × E)) (offset : ℕ) (e : Engine σ) (s : ApplySummary),
      offset ≤ indices.length → indices.drop offset = rest.map (·.1) →
      (match applyEvents A span indices offset rest e s with
        | (e', .ok s') => (e'.consumedThrough span indices indices.length, .ok s')
        | (e', .error err) => (e', .error err)) =
      consume A (rest.map fun item => ⟨span.block, item.1, item.2⟩)
        (e.consumedThrough span indices offset) s
  | [], offset, e, s, hle, h => by
      have hge : indices.length ≤ offset := by simpa using h
      rw [Nat.le_antisymm hle hge]
      rfl
  | (logIndex, event) :: rest, offset, e, s, hle, h => by
      have hi : indices[offset]? = some logIndex := by
        have := congrArg (·[0]?) h
        simpa using this
      have hle' : offset + 1 ≤ indices.length := (List.getElem?_eq_some_iff.mp hi).1
      have hrest : indices.drop (offset + 1) = rest.map (·.1) := by
        rw [← List.drop_drop, h]
        rfl
      rw [applyEvents, List.map_cons, consume, fold_consumedThrough, skips_consumedThrough]
      have hpos : (⟨span.block, logIndex, event⟩ : ChainEvent E).pos = ⟨span.number, logIndex⟩ := rfl
      rw [hpos]
      rcases A.apply e.fold ⟨span.number, logIndex⟩ event with ⟨fold, err | _⟩
      · cases err with
        | skip _ =>
            dsimp only
            rw [applyEvents_eq span indices rest (offset + 1) _ _ hle' hrest, consumedThrough_succ _ _ hi,
              consumedThrough_with]
            rfl
        | halt error =>
            dsimp only
            rw [consumedThrough_with e span indices offset fold e.skips]
        | poison error =>
            dsimp only
            rw [consumedThrough_with e span indices offset fold e.skips]
      · dsimp only
        rw [applyEvents_eq span indices rest (offset + 1) _ _ hle' hrest, consumedThrough_succ _ _ hi,
          consumedThrough_with e span indices offset fold e.skips]
        rfl

theorem length_chainEvents (span : SpanView E) (h : span.logIndices.length = span.events.length) :
    span.chainEvents.length = span.logIndices.length := by
  simp [SpanView.chainEvents, SpanView.items, h]

/-- `apply_span` drops what is deduped and consumes the rest. -/
theorem applySpan_eq (e : Engine σ) {span : SpanView E}
    (hlen : span.logIndices.length = span.events.length) (s : ApplySummary) :
    applySpan A e span s =
      consume A (span.chainEvents.drop (dedupCount e.cursor span)) e
        { s with deduped := s.deduped + dedupCount e.cursor span } := by
  set d := dedupCount e.cursor span with hd
  set s' : ApplySummary := { s with deduped := s.deduped + d }
  have hdrop : span.chainEvents.drop d =
      ((span.logIndices.drop d).zip (span.events.drop d)).map
        fun item => ⟨span.block, item.1, item.2⟩ := by
    rw [SpanView.chainEvents, ← List.map_drop, SpanView.items, List.zip_eq_zipWith,
      List.drop_zipWith, ← List.zip_eq_zipWith]
  have hfst : ((span.logIndices.drop d).zip (span.events.drop d)).map (·.1) =
      span.logIndices.drop d := by
    rw [← List.unzip_fst, List.unzip_zip]
    simp [hlen]
  have key := applyEvents_eq A span (span.logIndices.drop d) _ 0 e s' (Nat.zero_le _)
    (by rw [hfst, List.drop_zero])
  rw [← hdrop] at key
  have hzero : e.consumedThrough span (span.logIndices.drop d) 0 = e := rfl
  rw [hzero] at key
  rw [← key, applySpan, ← hd]
  cases hlast : (span.logIndices.drop d).getLast? with
  | none =>
      rw [List.getLast?_eq_none_iff] at hlast
      simp [hlast, applyEvents, consumedThrough, s']
  | some last =>
      have hpos : (span.logIndices.drop d).length ≠ 0 := by
        intro h0
        rw [List.length_eq_zero_iff] at h0
        simp [h0] at hlast
      have hthrough : ∀ e' : Engine σ,
          e'.consumedThrough span (span.logIndices.drop d) (span.logIndices.drop d).length =
            e'.advance span.number span.hash ⟨span.number, last⟩ := by
        intro e'
        rw [List.getLast?_eq_getElem?] at hlast
        simp only [consumedThrough, if_neg hpos, hlast]
      dsimp only
      rcases applyEvents A span (span.logIndices.drop d) 0
        ((span.logIndices.drop d).zip (span.events.drop d)) e s' with ⟨e', err | s''⟩
      · rfl
      · simp only [hthrough]

theorem drop_length_takeWhile {α : Type} (p : α → Bool) :
    ∀ l : List α, l.drop (l.takeWhile p).length = l.dropWhile p
  | [] => rfl
  | a :: l => by
      by_cases ha : p a = true
      · rw [List.takeWhile_cons_of_pos ha, List.dropWhile_cons_of_pos ha, List.length_cons,
          List.drop_succ_cons, drop_length_takeWhile p l]
      · rw [List.takeWhile_cons_of_neg ha, List.dropWhile_cons_of_neg ha]
        rfl

/-- In a sorted list what is at most `n` comes first. -/
theorem dropWhile_eq_filter {α : Type} (f : α → ℕ) (n : ℕ) {l : List α}
    (h : l.Pairwise fun a b => f a < f b) :
    l.dropWhile (fun a => decide (f a ≤ n)) = l.filter fun a => !decide (f a ≤ n) := by
  induction l with
  | nil => rfl
  | cons x xs ih =>
      obtain ⟨hx, hxs⟩ := List.pairwise_cons.mp h
      by_cases hc : f x ≤ n
      · rw [List.dropWhile_cons_of_pos (by simpa using hc),
          List.filter_cons_of_neg (by simpa using hc), ih hxs]
      · rw [List.dropWhile_cons_of_neg (by simpa using hc), List.filter_eq_self.mpr]
        intro y hy
        rcases List.mem_cons.mp hy with rfl | hy
        · simpa using hc
        · have := hx y hy
          simp
          omega

/-- On sorted log indices, what is dropped is what the cursor covers. -/
theorem drop_dedupCount {span : SpanView E}
    (hlen : span.logIndices.length = span.events.length)
    (hsorted : span.logIndices.Pairwise (· < ·)) (c : Cursor) :
    span.chainEvents.drop (dedupCount c span) =
      span.chainEvents.filter fun x => decide (c < some x.pos) := by
  have hpos : ∀ x ∈ span.chainEvents, x.pos.block = span.number := by
    intro x hx
    obtain ⟨item, -, rfl⟩ := List.mem_map.mp hx
    rfl
  cases c with
  | none =>
      rw [List.filter_eq_self.mpr (by intro x _; simp)]
      rfl
  | some c =>
      rcases Nat.lt_trichotomy c.block span.number with h | h | h
      · rw [List.filter_eq_self.mpr, dedupCount, if_pos h, List.drop_zero]
        intro x hx
        rw [decide_eq_true_eq, Option.some_lt_some, Position.lt_def, hpos x hx]
        exact Or.inl h
      · have hmap : span.chainEvents.map (·.logIndex) = span.logIndices := by
          rw [SpanView.chainEvents, List.map_map]
          show span.items.map (·.1) = _
          rw [SpanView.items, ← List.unzip_fst, List.unzip_zip]
          simpa using hlen
        have hlt : ∀ x ∈ span.chainEvents,
            (decide (some c < some x.pos) : Bool) = !decide (x.logIndex ≤ c.logIndex) := by
          intro x hx
          rw [← decide_not, decide_eq_decide, Option.some_lt_some, Position.lt_def, hpos x hx]
          show _ ∨ _ ∧ c.logIndex < x.logIndex ↔ _
          omega
        rw [dedupCount, if_neg (by omega), if_neg (by omega), ← hmap, List.takeWhile_map,
          List.length_map, drop_length_takeWhile, List.filter_congr hlt]
        rw [← hmap, List.pairwise_map] at hsorted
        exact dropWhile_eq_filter _ _ hsorted
      · rw [List.filter_eq_nil_iff.mpr, dedupCount, if_neg (by omega), if_pos h,
          ← length_chainEvents span hlen, List.drop_length]
        intro x hx
        rw [decide_eq_true_eq, Option.some_lt_some, Position.lt_def, hpos x hx]
        omega

end Spans

/-! ### What applying a batch can change -/

/-- Rings reached by pushing blocks above the newest. -/
def Pushes (cap : ℕ) : List BlockRef → List BlockRef → Prop :=
  Relation.ReflTransGen fun l l' => ∃ b, (∀ a ∈ l, a.number < b.number) ∧ l' = pushed cap l b

/-- `e'` is reached from `e` by consuming events after its cursor. -/
structure Moved (e e' : Engine σ) : Prop where
  ringOk : e'.RingOk
  cursor_le : e.cursor ≤ e'.cursor
  pushes : Pushes e.ring.capacity e.ring.iter e'.ring.iter
  capacity : e'.ring.capacity = e.ring.capacity
  checkpoints : e'.checkpoints = e.checkpoints
  resets : e'.resets = e.resets

theorem Moved.refl {e : Engine σ} (h : e.RingOk) : e.Moved e :=
  ⟨h, le_rfl, Relation.ReflTransGen.refl, rfl, rfl, rfl⟩

theorem Moved.trans {e₁ e₂ e₃ : Engine σ} (h : e₁.Moved e₂) (h' : e₂.Moved e₃) : e₁.Moved e₃ where
  ringOk := h'.ringOk
  cursor_le := h.cursor_le.trans h'.cursor_le
  pushes := by
    have := h'.pushes
    rw [h.capacity] at this
    exact h.pushes.trans this
  capacity := h'.capacity.trans h.capacity
  checkpoints := h'.checkpoints.trans h.checkpoints
  resets := h'.resets.trans h.resets

/-- Status, fold and the last two counters do not matter. -/
theorem Moved.of_eq {e e' e'' : Engine σ} (h : e.Moved e') (hc : e''.cursor = e'.cursor)
    (hr : e''.ring = e'.ring) (hk : e''.checkpoints = e'.checkpoints)
    (hs : e''.resets = e'.resets) : e.Moved e'' where
  ringOk := ⟨by rw [hr]; exact h.ringOk.ascending, by rw [hr, hc]; exact h.ringOk.newest⟩
  cursor_le := by rw [hc]; exact h.cursor_le
  pushes := by rw [hr]; exact h.pushes
  capacity := by rw [hr]; exact h.capacity
  checkpoints := hk.trans h.checkpoints
  resets := hs.trans h.resets

theorem Moved.advance {e : Engine σ} (h : e.RingOk) {number : ℕ} {pos : Position}
    (hpos : pos.block = number) (hle : e.cursor ≤ some pos) (hash : Hash) :
    e.Moved (e.advance number hash pos) where
  ringOk := h.advance hpos hle hash
  cursor_le := by rw [cursor_advance]; exact hle
  pushes := by
    rw [ring_advance]
    split_ifs with hn
    · rw [iter_push]
      refine Relation.ReflTransGen.single ⟨_, ?_, rfl⟩
      intro a ha
      cases hc : e.cursor with
      | none => rw [h.iter_eq_nil_iff.mp hc] at ha; simp at ha
      | some c =>
          rw [h.newest, hc] at hn
          simp only [Cursor.block_some, Option.all_some, decide_eq_true_eq] at hn
          exact lt_of_le_of_lt (h.number_le hc a ha) hn
    · exact Relation.ReflTransGen.refl
  capacity := capacity_advance _ _ _ _
  checkpoints := checkpoints_advance _ _ _ _
  resets := resets_advance _ _ _ _

/-- Events in order, all after the cursor. -/
structure After (c : Cursor) (xs : List (ChainEvent E)) : Prop where
  sorted : xs.Pairwise fun a b => a.pos < b.pos
  above : ∀ x ∈ xs, c < some x.pos

theorem After.tail {c : Cursor} {x : ChainEvent E} {xs : List (ChainEvent E)}
    (h : After c (x :: xs)) : After (some x.pos) xs where
  sorted := (List.pairwise_cons.mp h.sorted).2
  above := fun y hy => Option.some_lt_some.mpr ((List.pairwise_cons.mp h.sorted).1 y hy)

theorem consume_moved (A : Fold σ E ε) : ∀ {xs : List (ChainEvent E)} {e : Engine σ}
    (s : ApplySummary), e.RingOk → After e.cursor xs → e.Moved (consume A xs e s).1
  | [], e, s, h, _ => Moved.refl h
  | x :: xs, e, s, h, hx => by
      have hle : e.cursor ≤ some x.pos := (hx.above x List.mem_cons_self).le
      -- the step moves the cursor to `x`, whatever the fold did to its state
      have hstep : ∀ (fold : σ) (skips : ℕ), e.Moved
          (({ e with fold := fold, skips := skips }).advance x.block.number x.block.hash x.pos) :=
        fun fold skips => (Moved.advance h rfl hle x.block.hash).of_eq (by simp)
          (by rw [advance_with]; rfl) (by simp) (by simp)
      have hrun : ∀ (fold : σ) (skips : ℕ) (s' : ApplySummary), e.Moved (consume A xs
          (({ e with fold := fold, skips := skips }).advance x.block.number x.block.hash x.pos)
          s').1 := by
        intro fold skips s'
        refine (hstep fold skips).trans (consume_moved A s' (hstep fold skips).ringOk ?_)
        rw [cursor_advance]
        exact hx.tail
      rw [consume]
      rcases A.apply e.fold x.pos x.event with ⟨fold, err | _⟩
      · cases err with
        | skip _ => exact hrun fold (e.skips + 1) _
        | halt _ => exact (Moved.refl h).of_eq rfl rfl rfl rfl
        | poison _ => exact (Moved.refl h).of_eq rfl rfl rfl rfl
      · exact hrun fold e.skips _

/-- After a run without error the cursor is at the last event. -/
theorem cursor_consume (A : Fold σ E ε) : ∀ {xs : List (ChainEvent E)} {e e' : Engine σ}
    {s s' : ApplySummary}, consume A xs e s = (e', .ok s') →
      e'.cursor = (xs.getLast?.map (·.pos)).or e.cursor
  | [], e, e', s, s', h => by
      simp only [consume, Prod.mk.injEq] at h
      rw [← h.1]
      rfl
  | x :: xs, e, e', s, s', h => by
      rw [consume] at h
      have hlast : ((x :: xs).getLast?.map (·.pos)).or e.cursor =
          (xs.getLast?.map (·.pos)).or (some x.pos) := by
        rw [List.getLast?_cons]
        cases xs.getLast? <;> rfl
      rw [hlast]
      rcases hap : A.apply e.fold x.pos x.event with ⟨fold, err | _⟩
      · rw [hap] at h
        cases err with
        | skip _ =>
            have := cursor_consume A h
            rwa [cursor_advance] at this
        | halt _ => simp at h
        | poison _ => simp at h
      · rw [hap] at h
        have := cursor_consume A h
        rwa [cursor_advance] at this

/-- Consuming only fails where the fold does. -/
theorem consume_error (A : Fold σ E ε) : ∀ {xs : List (ChainEvent E)} {e e' : Engine σ}
    {s : ApplySummary} {err : ApplyError ε}, consume A xs e s = (e', .error err) →
      ∃ pos error, err = .halted pos error ∧ e'.status = .halted pos ∨
        err = .poisoned pos error ∧ e'.status = .poisoned pos
  | [], e, e', s, err, h => by simp [consume] at h
  | x :: xs, e, e', s, err, h => by
      rw [consume] at h
      rcases hap : A.apply e.fold x.pos x.event with ⟨fold, ferr | _⟩
      · rw [hap] at h
        cases ferr with
        | skip _ => exact consume_error A h
        | halt error =>
            simp only [Prod.mk.injEq, Except.error.injEq] at h
            exact ⟨x.pos, error, Or.inl ⟨h.2.symm, by rw [← h.1]⟩⟩
        | poison error =>
            simp only [Prod.mk.injEq, Except.error.injEq] at h
            exact ⟨x.pos, error, Or.inr ⟨h.2.symm, by rw [← h.1]⟩⟩
      · rw [hap] at h
        exact consume_error A h

section Batches

variable (A : Fold σ E ε)

theorem sorted_chainEvents {span : SpanView E} (hlen : span.logIndices.length = span.events.length)
    (hsorted : span.logIndices.Pairwise (· < ·)) :
    span.chainEvents.Pairwise fun a b => a.pos < b.pos := by
  have hitems : span.items.Pairwise fun a b => a.1 < b.1 := by
    have : span.items.map (·.1) = span.logIndices := by
      rw [SpanView.items, ← List.unzip_fst, List.unzip_zip]
      simpa using hlen
    rwa [← this, List.pairwise_map] at hsorted
  rw [SpanView.chainEvents, List.pairwise_map]
  exact hitems.imp fun h => Or.inr ⟨rfl, h⟩

theorem After.filter {c : Cursor} {xs : List (ChainEvent E)}
    (h : xs.Pairwise fun a b => a.pos < b.pos) :
    After c (xs.filter fun x => decide (c < some x.pos)) where
  sorted := h.filter _
  above := fun x hx => by simpa using (List.mem_filter.mp hx).2

theorem applySpan_moved {e : Engine σ} (h : e.RingOk) {span : SpanView E}
    (hlen : span.logIndices.length = span.events.length)
    (hsorted : span.logIndices.Pairwise (· < ·)) (s : ApplySummary) :
    e.Moved (applySpan A e span s).1 := by
  rw [applySpan_eq A e hlen, drop_dedupCount hlen hsorted]
  exact consume_moved A _ h (After.filter (sorted_chainEvents hlen hsorted))

theorem applySpans_moved : ∀ {spans : List (SpanView E)} {e : Engine σ} (s : ApplySummary),
    e.RingOk → (∀ span ∈ spans, span.logIndices.length = span.events.length) →
    Batch.ValidSpans spans → e.Moved (applySpans A spans e s).1
  | [], e, s, h, _, _ => (Moved.refl h).of_eq rfl rfl rfl rfl
  | span :: spans, e, s, h, hlen, hv => by
      rw [applySpans]
      cases (e.observedHash span).filter (fun x => !decide (x = span.hash)) with
      | some hash => exact (Moved.refl h).of_eq rfl rfl rfl rfl
      | none =>
          have hspan := applySpan_moved A h (hlen span List.mem_cons_self)
            (hv.sorted span List.mem_cons_self) s
          rcases hap : applySpan A e span s with ⟨e', err | s'⟩
          · rw [hap] at hspan
            exact hspan
          · rw [hap] at hspan
            refine hspan.trans (applySpans_moved s' hspan.ringOk
              (fun sp hsp => hlen sp (List.mem_cons_of_mem _ hsp)) ?_)
            exact hv.tail

/-- The spans fail where the fold does or where a fork shows. -/
theorem applySpans_error : ∀ {spans : List (SpanView E)} {e e' : Engine σ} {s : ApplySummary}
    {err : ApplyError ε}, (∀ span ∈ spans, span.logIndices.length = span.events.length) →
    applySpans A spans e s = (e', .error err) →
    (∃ observed refetched, err = .forkSuspected observed refetched ∧ e'.status = .active) ∨
      ∃ pos error, err = .halted pos error ∧ e'.status = .halted pos ∨
        err = .poisoned pos error ∧ e'.status = .poisoned pos
  | [], e, e', s, err, _, h => by simp [applySpans] at h
  | span :: spans, e, e', s, err, hlen, h => by
      rw [applySpans] at h
      cases hf : (e.observedHash span).filter (fun x => !decide (x = span.hash)) with
      | some hash =>
          simp only [hf, Prod.mk.injEq, Except.error.injEq] at h
          exact Or.inl ⟨_, _, h.2.symm, by rw [← h.1]⟩
      | none =>
          rw [hf] at h
          rcases hap : applySpan A e span s with ⟨e₁, err₁ | s₁⟩
          · simp only [hap, Prod.mk.injEq, Except.error.injEq] at h
            rw [applySpan_eq A e (hlen span List.mem_cons_self)] at hap
            obtain ⟨rfl, rfl⟩ := h
            exact Or.inr (consume_error A hap)
          · simp only [hap] at h
            exact applySpans_error (fun sp hsp => hlen sp (List.mem_cons_of_mem _ hsp)) h

/-- The boundary check finds the cursor block. -/
theorem RingOk.hashAt_cursor {e : Engine σ} (h : e.RingOk) {c : Position}
    (hc : e.cursor = some c) : ∃ hash, e.ring.hashAt c.block = some hash ∧
      e.ring.iter.getLast? = some ⟨c.block, hash⟩ := by
  obtain ⟨b, hb, hn⟩ := h.getLast? hc
  refine ⟨b.hash, ?_, by rw [hb, ← hn]⟩
  rw [hashAt_eq h.ascending, ← hn]
  exact lookup_of_mem h.ascending (List.mem_of_getLast? hb)

/-- **What a batch can change**, whatever it holds and however it ends. -/
theorem applyBatch_moved {e : Engine σ} (h : e.RingOk) (b : Batch E) :
    e.Moved (applyBatch A e b).1 := by
  unfold applyBatch
  split_ifs with hactive
  · cases hv : b.validate with
    | error err => exact Moved.refl h
    | ok u =>
        cases u
        dsimp only
        cases e.checkBoundary b.boundary with
        | error err => exact Moved.refl h
        | ok verified =>
            have hmark : e.Moved { e with
                lastVerified := verified.or e.lastVerified
                status := .poisoned (e.cursor.getD ⟨0, 0⟩) } :=
              (Moved.refl h).of_eq rfl rfl rfl rfl
            exact hmark.trans (applySpans_moved A _ hmark.ringOk
              (fun s hs => Batch.length_eq_of_mem_spans hs) (b.validate_ok_iff.mp hv))
  · exact Moved.refl h

end Batches

end Engine

end Works.Chainfold
