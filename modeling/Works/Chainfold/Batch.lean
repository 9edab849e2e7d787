import Works.Chainfold.Basic

/-! # Batches

`Batch` of `batch.rs` is flat: the log indices and events of all spans stand in two lanes, and
`ends` says where each span ends.  Batches are only built by `new`, `clear` and `push_block`,
which keep the lanes parallel; the structure carries that as fields.  `spans` cuts the lanes
into spans, and a batch passes `validate` exactly when its spans ascend, none is empty and the
log indices in each ascend (`validate_ok_iff`). -/

namespace Works.Chainfold

variable {E : Type}

/-- `SpanView`: the events of one block in a batch. -/
structure SpanView (E : Type) where
  number : ℕ
  hash : Hash
  logIndices : List ℕ
  events : List E

namespace SpanView

/-- `SpanView::block`. -/
def block (s : SpanView E) : BlockRef := ⟨s.number, s.hash⟩

/-- The events of the span with their log indices. -/
def items (s : SpanView E) : List (ℕ × E) := s.logIndices.zip s.events

end SpanView

/-- `Batch`. -/
structure Batch (E : Type) where
  boundary : Option BlockRef
  blocks : List ℕ
  hashes : List Hash
  ends : List ℕ
  logIndices : List ℕ
  events : List E
  blocks_len : blocks.length = ends.length
  hashes_len : hashes.length = ends.length
  lanes : logIndices.length = events.length
  ends_le : ∀ e ∈ ends, e ≤ events.length
  ends_last : ends.getLast?.getD 0 = events.length

/-! ### The order of a lane -/

/-- `locate_descent`. -/
def locateDescent (values : List ℕ) : Option ℕ :=
  ((values.zip values.tail).findIdx? fun pair => decide (pair.2 ≤ pair.1)).map (· + 1)

/-- `first_descent`. -/
def firstDescent (values : List ℕ) : Option ℕ :=
  let ascending := (values.zip values.tail).foldl (fun acc pair => acc && decide (pair.1 < pair.2)) true
  if ascending then none else locateDescent values

theorem foldl_and_eq_all {α : Type} (p : α → Bool) (l : List α) (b : Bool) :
    l.foldl (fun acc x => acc && p x) b = (b && l.all p) := by
  induction l generalizing b with
  | nil => simp
  | cons a l ih => rw [List.foldl_cons, ih, List.all_cons, Bool.and_assoc]

theorem all_zip_tail_iff (l : List ℕ) :
    (l.zip l.tail).all (fun pair => decide (pair.1 < pair.2)) = true ↔ l.Pairwise (· < ·) := by
  induction l with
  | nil => simp
  | cons a l ih =>
      cases l with
      | nil => simp
      | cons b l =>
          rw [List.tail_cons, List.zip_cons_cons, List.all_cons, Bool.and_eq_true,
            decide_eq_true_eq, List.pairwise_cons]
          rw [List.tail_cons] at ih
          rw [ih]
          constructor
          · rintro ⟨hab, hl⟩
            refine ⟨?_, hl⟩
            intro c hc
            rcases List.mem_cons.mp hc with rfl | hc
            · exact hab
            · exact hab.trans (List.rel_of_pairwise_cons hl hc)
          · rintro ⟨ha, hl⟩
            exact ⟨ha b List.mem_cons_self, hl⟩

theorem firstDescent_eq_none_iff (l : List ℕ) : firstDescent l = none ↔ l.Pairwise (· < ·) := by
  rw [firstDescent, foldl_and_eq_all, Bool.true_and, ← all_zip_tail_iff]
  constructor
  · intro h
    by_contra hcon
    rw [if_neg hcon, locateDescent, Option.map_eq_none_iff, List.findIdx?_eq_none_iff] at h
    apply hcon
    rw [List.all_eq_true]
    intro pair hp
    have := h pair hp
    rw [decide_eq_false_iff_not] at this
    exact decide_eq_true (by omega)
  · intro h
    rw [if_pos h]

namespace Batch

/-! ### Building -/

/-- `Batch::new`, also what `clear` leaves. -/
def new : Batch E where
  boundary := none
  blocks := []
  hashes := []
  ends := []
  logIndices := []
  events := []
  blocks_len := rfl
  hashes_len := rfl
  lanes := rfl
  ends_le := by simp
  ends_last := rfl

/-- The batch with another boundary. -/
def withBoundary (b : Batch E) (boundary : Option BlockRef) : Batch E :=
  { b with boundary := boundary }

/-- `Batch::push_block`. -/
def pushBlock (b : Batch E) (block : BlockRef) (events : List (ℕ × E)) : Batch E where
  boundary := b.boundary
  blocks := b.blocks ++ [block.number]
  hashes := b.hashes ++ [block.hash]
  ends := b.ends ++ [(b.events ++ events.map (·.2)).length]
  logIndices := b.logIndices ++ events.map (·.1)
  events := b.events ++ events.map (·.2)
  blocks_len := by simp [b.blocks_len]
  hashes_len := by simp [b.hashes_len]
  lanes := by simp [b.lanes]
  ends_le := by
    intro e he
    rcases List.mem_append.mp he with he | he
    · have := b.ends_le e he
      simp
      omega
    · simp at he
      simp [he]
  ends_last := by simp

/-- `Batch::is_empty`. -/
def isEmpty (b : Batch E) : Bool := b.ends.isEmpty

/-- Cutting the lanes at `ends`: the iterator `Spans`. -/
def spansFrom (logIndices : List ℕ) (events : List E) :
    List ℕ → List Hash → List ℕ → ℕ → List (SpanView E)
  | number :: blocks, hash :: hashes, end_ :: ends, start =>
      ⟨number, hash, (logIndices.take end_).drop start, (events.take end_).drop start⟩ ::
        spansFrom logIndices events blocks hashes ends end_
  | _, _, _, _ => []

/-- `Batch::spans`, collected. -/
def spans (b : Batch E) : List (SpanView E) :=
  spansFrom b.logIndices b.events b.blocks b.hashes b.ends 0

/-- The loop of `Batch::validate`. -/
def validateSpans (logIndices : List ℕ) : ℕ → ℕ → List ℕ → Except BatchShapeError Unit
  | _, _, [] => .ok ()
  | span, start, end_ :: ends =>
      if end_ ≤ start then .error (.spanEmpty span)
      else match firstDescent ((logIndices.take end_).drop start) with
        | some offset => .error (.logIndexNotAscending span (start + offset))
        | none => validateSpans logIndices (span + 1) end_ ends

/-- `Batch::validate`. -/
def validate (b : Batch E) : Except BatchShapeError Unit :=
  match firstDescent b.blocks with
  | some span => .error (.blocksNotAscending span)
  | none => validateSpans b.logIndices 0 0 b.ends

/-! ### Spans -/

@[simp] theorem spans_new : (new : Batch E).spans = [] := rfl

@[simp] theorem spans_withBoundary (b : Batch E) (boundary : Option BlockRef) :
    (b.withBoundary boundary).spans = b.spans := rfl

@[simp] theorem boundary_pushBlock (b : Batch E) (block : BlockRef) (events : List (ℕ × E)) :
    (b.pushBlock block events).boundary = b.boundary := rfl

/-- Lanes that grow at the end do not change the spans cut before. -/
theorem spansFrom_append {logIndices moreIndices : List ℕ} {events moreEvents : List E} :
    ∀ {blocks : List ℕ} {hashes : List Hash} {ends : List ℕ} {start : ℕ}
      (number : ℕ) (hash : Hash),
      blocks.length = ends.length → hashes.length = ends.length →
      logIndices.length = events.length → (∀ e ∈ ends, e ≤ events.length) →
      ends.getLast?.getD start = events.length →
      spansFrom (logIndices ++ moreIndices) (events ++ moreEvents) (blocks ++ [number])
        (hashes ++ [hash]) (ends ++ [(events ++ moreEvents).length]) start =
      spansFrom logIndices events blocks hashes ends start ++
        [⟨number, hash, moreIndices.take moreEvents.length, moreEvents⟩]
  | [], [], [], start, number, hash, _, _, hlanes, _, hlast => by
      simp only [List.getLast?_nil, Option.getD_none] at hlast
      subst hlast
      simp [spansFrom, List.take_append, hlanes]
  | block :: blocks, h :: hashes, e :: ends, start, number, hash, hb, hh, hlanes, hle, hlast => by
      have he := hle e List.mem_cons_self
      simp only [List.cons_append, spansFrom]
      rw [spansFrom_append number hash (by simpa using hb) (by simpa using hh) hlanes
        (fun e' he' => hle e' (List.mem_cons_of_mem _ he')) (by
          rw [List.getLast?_cons] at hlast
          simpa using hlast),
        List.take_append_of_le_length (by omega), List.take_append_of_le_length he]
  | _ :: _, [], _, _, _, _, hb, hh, _, _, _ => by simp at hb hh; omega
  | [], _ :: _, _, _, _, _, hb, hh, _, _, _ => by simp at hb hh; omega
  | [], [], _ :: _, _, _, _, hb, _, _, _, _ => by simp at hb
  | _ :: _, _ :: _, [], _, _, _, hb, _, _, _, _ => by simp at hb

@[simp] theorem spans_pushBlock (b : Batch E) (block : BlockRef) (events : List (ℕ × E)) :
    (b.pushBlock block events).spans =
      b.spans ++ [⟨block.number, block.hash, events.map (·.1), events.map (·.2)⟩] := by
  unfold spans pushBlock
  rw [spansFrom_append block.number block.hash b.blocks_len b.hashes_len b.lanes b.ends_le
    b.ends_last]
  simp

theorem length_spansFrom {logIndices : List ℕ} {events : List E} :
    ∀ {blocks : List ℕ} {hashes : List Hash} {ends : List ℕ} {start : ℕ},
      blocks.length = ends.length → hashes.length = ends.length →
      (spansFrom logIndices events blocks hashes ends start).length = ends.length
  | [], [], [], _, _, _ => rfl
  | _ :: _, _ :: _, _ :: _, _, hb, hh => by
      simp only [spansFrom, List.length_cons]
      rw [length_spansFrom (by simpa using hb) (by simpa using hh)]
  | _ :: _, [], _, _, hb, hh => by simp at hb hh; omega
  | [], _ :: _, _, _, hb, hh => by simp at hb hh; omega
  | [], [], _ :: _, _, hb, _ => by simp at hb
  | _ :: _, _ :: _, [], _, hb, _ => by simp at hb

theorem isEmpty_iff (b : Batch E) : b.isEmpty = true ↔ b.spans = [] := by
  rw [isEmpty, List.isEmpty_iff, ← List.length_eq_zero_iff, ← List.length_eq_zero_iff, spans,
    length_spansFrom b.blocks_len b.hashes_len]

/-- The two lanes of a span are parallel. -/
theorem length_events_of_mem {logIndices : List ℕ} {events : List E}
    (hlanes : logIndices.length = events.length) :
    ∀ {blocks : List ℕ} {hashes : List Hash} {ends : List ℕ} {start : ℕ} {s : SpanView E},
      s ∈ spansFrom logIndices events blocks hashes ends start →
      s.logIndices.length = s.events.length
  | number :: blocks, hash :: hashes, e :: ends, start, s, hs => by
      simp only [spansFrom, List.mem_cons] at hs
      rcases hs with rfl | hs
      · simp [hlanes]
      · exact length_events_of_mem hlanes hs
  | [], _, _, _, _, hs => by simp [spansFrom] at hs
  | _ :: _, [], _, _, _, hs => by simp [spansFrom] at hs
  | _ :: _, _ :: _, [], _, _, hs => by simp [spansFrom] at hs

theorem length_eq_of_mem_spans {b : Batch E} {s : SpanView E} (hs : s ∈ b.spans) :
    s.logIndices.length = s.events.length := length_events_of_mem b.lanes hs

/-! ### Validation -/

/-- What `validate` asks of the spans. -/
structure ValidSpans (l : List (SpanView E)) : Prop where
  ascending : l.Pairwise fun a b => a.number < b.number
  nonempty : ∀ s ∈ l, s.logIndices ≠ []
  sorted : ∀ s ∈ l, s.logIndices.Pairwise (· < ·)

theorem ValidSpans.tail {s : SpanView E} {l : List (SpanView E)} (h : ValidSpans (s :: l)) :
    ValidSpans l where
  ascending := (List.pairwise_cons.mp h.ascending).2
  nonempty := fun t ht => h.nonempty t (List.mem_cons_of_mem _ ht)
  sorted := fun t ht => h.sorted t (List.mem_cons_of_mem _ ht)

theorem map_number_spansFrom (logIndices : List ℕ) (events : List E) :
    ∀ {blocks : List ℕ} {hashes : List Hash} {ends : List ℕ} (start : ℕ),
      blocks.length = ends.length → hashes.length = ends.length →
      (spansFrom logIndices events blocks hashes ends start).map (·.number) = blocks
  | [], [], [], _, _, _ => rfl
  | _ :: _, _ :: _, _ :: _, _, hb, hh => by
      simp only [spansFrom, List.map_cons]
      rw [map_number_spansFrom _ _ _ (by simpa using hb) (by simpa using hh)]
  | _ :: _, [], _, _, hb, hh => by simp at hb hh; omega
  | [], _ :: _, _, _, hb, hh => by simp at hb hh; omega
  | [], [], _ :: _, _, hb, _ => by simp at hb
  | _ :: _, _ :: _, [], _, hb, _ => by simp at hb

theorem validateSpans_ok_iff {logIndices : List ℕ} {events : List E}
    (hlanes : logIndices.length = events.length) :
    ∀ {blocks : List ℕ} {hashes : List Hash} {ends : List ℕ} (span start : ℕ),
      blocks.length = ends.length → hashes.length = ends.length →
      (∀ e ∈ ends, e ≤ events.length) →
      (validateSpans logIndices span start ends = .ok () ↔
        ∀ s ∈ spansFrom logIndices events blocks hashes ends start,
          s.logIndices ≠ [] ∧ s.logIndices.Pairwise (· < ·))
  | [], [], [], _, _, _, _, _ => by simp [spansFrom, validateSpans]
  | _ :: _, _ :: _, e :: ends, span, start, hb, hh, hle => by
      have he := hle e List.mem_cons_self
      have ih := validateSpans_ok_iff hlanes (span + 1) e (by simpa using hb)
        (by simpa using hh) (fun e' he' => hle e' (List.mem_cons_of_mem _ he'))
      simp only [spansFrom, validateSpans, List.forall_mem_cons]
      have hlen : ((logIndices.take e).drop start).length = e - start := by
        simp
        omega
      have hempty : (logIndices.take e).drop start ≠ [] ↔ ¬ e ≤ start := by
        rw [← List.length_pos_iff, hlen]
        omega
      rw [hempty]
      by_cases hes : e ≤ start
      · simp [hes]
      · rw [if_neg hes]
        cases hd : firstDescent ((logIndices.take e).drop start) with
        | some offset =>
            have : ¬ ((logIndices.take e).drop start).Pairwise (· < ·) := by
              rw [← firstDescent_eq_none_iff, hd]
              simp
            simp [this]
        | none =>
            rw [firstDescent_eq_none_iff] at hd
            simp only [hes, hd, ih, not_false_eq_true, and_self, true_and]
  | _ :: _, [], _, _, _, hb, hh, _ => by simp at hb hh; omega
  | [], _ :: _, _, _, _, hb, hh, _ => by simp at hb hh; omega
  | [], [], _ :: _, _, _, hb, _, _ => by simp at hb
  | _ :: _, _ :: _, [], _, _, hb, _, _ => by simp at hb

/-- `validate` accepts exactly the batches with valid spans. -/
theorem validate_ok_iff (b : Batch E) : b.validate = .ok () ↔ ValidSpans b.spans := by
  have hv := validateSpans_ok_iff b.lanes 0 0 b.blocks_len b.hashes_len
    b.ends_le
  have hblocks : b.blocks.Pairwise (· < ·) ↔ b.spans.Pairwise fun a b => a.number < b.number := by
    rw [← map_number_spansFrom b.logIndices b.events 0 b.blocks_len b.hashes_len,
      List.pairwise_map]
    rfl
  unfold validate
  cases hd : firstDescent b.blocks with
  | some span =>
      have : ¬ b.blocks.Pairwise (· < ·) := by
        rw [← firstDescent_eq_none_iff, hd]
        simp
      rw [hblocks] at this
      simp only [reduceCtorEq, false_iff]
      exact fun h => this h.ascending
  | none =>
      rw [firstDescent_eq_none_iff, hblocks] at hd
      simp only [hv]
      constructor
      · intro h
        exact ⟨hd, fun s hs => (h s hs).1, fun s hs => (h s hs).2⟩
      · intro h s hs
        exact ⟨h.nonempty s hs, h.sorted s hs⟩

end Batch

end Works.Chainfold
