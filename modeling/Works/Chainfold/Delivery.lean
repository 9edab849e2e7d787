import Works.Chainfold.EngineRun
import Works.Chainfold.EngineSim

/-! # Delivering one chain in batches

A stream of events of one chain may reach the engine in any batches that skip nothing: they
may overlap and deliver blocks again.  On such batches no fork check fails, so a batch is the
consumption of its events above the cursor (`applyBatch_eq`), and the events above the cursor
are exactly those that the stream has not delivered before.  Whatever the batches, the engine
ends as if the stream had come in one, and `Fold::apply` was called in order and once for each
event. -/

namespace Works.Chainfold

open BlockRing

variable {σ E ε : Type}

/-- The error of a result. -/
def errorOf {α : Type} : Except ε α → Option ε
  | .ok _ => none
  | .error error => some error

namespace Engine

section Counting

variable (A : Fold σ E ε)

/-- Each consumed event is applied or skipped. -/
theorem consume_count {xs : List (ChainEvent E)} {e e' : Engine σ} {s s' : ApplySummary}
    (h : consume A xs e s = (e', .ok s')) :
    s'.applied + s'.skipped = s.applied + s.skipped + xs.length ∧ s'.deduped = s.deduped := by
  induction xs generalizing e s with
  | nil =>
      simp only [consume, Prod.mk.injEq, Except.ok.injEq] at h
      rw [← h.2]
      exact ⟨rfl, rfl⟩
  | cons x xs ih =>
      rw [consume] at h
      rcases hap : A.apply e.fold x.pos x.event with ⟨fold, err | _⟩
      · rw [hap] at h
        cases err with
        | skip _ =>
            obtain ⟨hc, hd⟩ := ih h
            refine ⟨?_, hd⟩
            rw [hc, List.length_cons]
            show s.applied + (s.skipped + 1) + _ = _
            omega
        | halt _ => simp at h
        | poison _ => simp at h
      · rw [hap] at h
        obtain ⟨hc, hd⟩ := ih h
        refine ⟨?_, hd⟩
        rw [hc, List.length_cons]
        show s.applied + 1 + s.skipped + _ = _
        omega

theorem dedupCount_le (c : Cursor) (span : SpanView E) :
    dedupCount c span ≤ span.logIndices.length := by
  unfold dedupCount
  split
  · exact Nat.zero_le _
  · split_ifs
    · exact Nat.zero_le _
    · exact le_rfl
    · exact (List.takeWhile_sublist _).length_le

theorem applySpans_count : ∀ {spans : List (SpanView E)} {e e' : Engine σ} {s s' : ApplySummary},
    (∀ span ∈ spans, span.logIndices.length = span.events.length) →
    applySpans A spans e s = (e', .ok s') →
    s'.applied + s'.deduped + s'.skipped =
      s.applied + s.deduped + s.skipped + (spans.flatMap SpanView.chainEvents).length
  | [], e, e', s, s', _, h => by
      simp only [applySpans, Prod.mk.injEq, Except.ok.injEq] at h
      rw [← h.2]
      rfl
  | span :: spans, e, e', s, s', hlen, h => by
      have hspan := hlen span List.mem_cons_self
      rw [applySpans] at h
      cases hf : (e.observedHash span).filter (fun x => !decide (x = span.hash)) with
      | some hash => simp [hf] at h
      | none =>
          rw [hf] at h
          rcases hap : applySpan A e span s with ⟨e₁, err | s₁⟩
          · simp [hap] at h
          · simp only [hap] at h
            have ih := applySpans_count (fun sp hsp => hlen sp (List.mem_cons_of_mem _ hsp)) h
            rw [applySpan_eq A e hspan] at hap
            obtain ⟨hc, hd⟩ := consume_count A hap
            have hle := dedupCount_le e.cursor span
            rw [List.length_drop, length_chainEvents span hspan] at hc
            rw [List.flatMap_cons, List.length_append, length_chainEvents span hspan, ih]
            dsimp only at hc hd
            omega

/-- **Every event of a batch is counted once**: applied, deduped or skipped. -/
theorem applyBatch_count {e e' : Engine σ} {b : Batch E} {s : ApplySummary}
    (h : e.applyBatch A b = (e', .ok s)) :
    s.applied + s.deduped + s.skipped = b.chainEvents.length := by
  unfold applyBatch at h
  split_ifs at h
  · cases hv : b.validate with
    | error err => simp [hv] at h
    | ok u =>
        cases u
        simp only [hv] at h
        cases hb : (e.checkBoundary b.boundary : Except (ApplyError ε) _) with
        | error err => simp [hb] at h
        | ok verified =>
            simp only [hb] at h
            have := applySpans_count A (fun s hs => Batch.length_eq_of_mem_spans hs) h
            rw [this]
            exact Nat.zero_add _
  · simp at h

end Counting

/-! ### Engines that consume alike -/

/-- `B` does what `A` does to the part `f` of its state. -/
def Projects {τ : Type} (f : τ → σ) (B : Fold τ E ε) (A : Fold σ E ε) : Prop :=
  ∀ t pos x, A.apply (f t) pos x = (f (B.apply t pos x).1, (B.apply t pos x).2)

theorem Projects.id (A : Fold σ E ε) : Projects id A A := fun _ _ _ => rfl

/-- The same fold, cursor, ring and number of skipped events. -/
structure Alike {τ : Type} (f : τ → σ) (e₁ : Engine τ) (e₂ : Engine σ) : Prop where
  fold : f e₁.fold = e₂.fold
  cursor : e₁.cursor = e₂.cursor
  ring : e₁.ring = e₂.ring
  skips : e₁.skips = e₂.skips

section Alike

variable {τ : Type} {f : τ → σ} {A : Fold σ E ε} {B : Fold τ E ε}

theorem Alike.refl (e : Engine σ) : Alike id e e := ⟨rfl, rfl, rfl, rfl⟩

theorem Alike.advance {e₁ : Engine τ} {e₂ : Engine σ} (h : Alike f e₁ e₂) (number : ℕ)
    (hash : Hash) (pos : Position) :
    Alike f (e₁.advance number hash pos) (e₂.advance number hash pos) where
  fold := by simpa using h.fold
  cursor := by simp
  ring := by rw [ring_advance, ring_advance, h.ring]
  skips := by simpa using h.skips

/-- Results with alike engines and the same error. -/
structure Agree {τ : Type} (f : τ → σ) (r₁ : Engine τ × Except (ApplyError ε) ApplySummary)
    (r₂ : Engine σ × Except (ApplyError ε) ApplySummary) : Prop where
  alike : Alike f r₁.1 r₂.1
  error : errorOf r₁.2 = errorOf r₂.2

theorem Alike.consume (hB : Projects f B A) : ∀ (xs : List (ChainEvent E)) {e₁ : Engine τ}
    {e₂ : Engine σ} (s t : ApplySummary), Alike f e₁ e₂ →
    Agree f (consume B xs e₁ s) (consume A xs e₂ t)
  | [], _, _, _, _, h => ⟨h, rfl⟩
  | x :: xs, e₁, e₂, s, t, h => by
      rw [Engine.consume, Engine.consume, ← h.fold, hB e₁.fold x.pos x.event]
      rcases B.apply e₁.fold x.pos x.event with ⟨fold, err | _⟩
      · cases err with
        | skip _ =>
            have hskip : Alike f { e₁ with fold := fold, skips := e₁.skips + 1 }
                { e₂ with fold := f fold, skips := e₂.skips + 1 } :=
              ⟨rfl, h.cursor, h.ring, congrArg (· + 1) h.skips⟩
            exact Alike.consume hB xs _ _ (hskip.advance _ _ _)
        | halt _ => exact ⟨⟨rfl, h.cursor, h.ring, h.skips⟩, rfl⟩
        | poison _ => exact ⟨⟨rfl, h.cursor, h.ring, h.skips⟩, rfl⟩
      · have hok : Alike f { e₁ with fold := fold } { e₂ with fold := f fold } :=
          ⟨rfl, h.cursor, h.ring, h.skips⟩
        exact Alike.consume hB xs _ _ (hok.advance _ _ _)

end Alike

/-- The status an engine is left with. -/
def statusAfter (status : EngineStatus) : Option (ApplyError ε) → EngineStatus
  | some (.halted pos _) => .halted pos
  | some (.poisoned pos _) => .poisoned pos
  | _ => status

theorem status_consume (A : Fold σ E ε) (xs : List (ChainEvent E)) (e : Engine σ)
    (s : ApplySummary) :
    (consume A xs e s).1.status = statusAfter e.status (errorOf (consume A xs e s).2) := by
  induction xs generalizing e s with
  | nil => rfl
  | cons x xs ih =>
      rw [consume]
      rcases A.apply e.fold x.pos x.event with ⟨fold, err | _⟩
      · cases err with
        | skip _ =>
            have := ih (({ e with fold := fold, skips := e.skips + 1 }).advance x.block.number
              x.block.hash x.pos) { s with skipped := s.skipped + 1 }
            rwa [status_advance] at this
        | halt _ => rfl
        | poison _ => rfl
      · have := ih (({ e with fold := fold }).advance x.block.number x.block.hash x.pos)
          { s with applied := s.applied + 1 }
        rwa [status_advance] at this

/-! ### On one chain -/

/-- The observed blocks have the hashes of the chain. -/
def OnChain (chain : ℕ → Hash) (e : Engine σ) : Prop := ∀ b ∈ e.observed, b.hash = chain b.number

section OnChain

variable {chain : ℕ → Hash} {e : Engine σ}

theorem mem_of_mem_pushed {cap : ℕ} {l : List BlockRef} {a b : BlockRef}
    (h : a ∈ pushed cap l b) : a ∈ l ∨ a = b := by
  unfold pushed at h
  split_ifs at h
  · simpa using h
  · rcases List.mem_append.mp h with h | h
    · exact Or.inl (List.mem_of_mem_tail h)
    · exact Or.inr (by simpa using h)

/-- What holds of the observed blocks and of the new block holds after `advance`. -/
theorem forall_observed_advance {P : BlockRef → Prop} (h : ∀ b ∈ e.observed, P b) {number : ℕ}
    {hash : Hash} (hnew : P ⟨number, hash⟩) (pos : Position) :
    ∀ b ∈ (e.advance number hash pos).observed, P b := by
  intro b hb
  rw [observed, ring_advance] at hb
  split_ifs at hb
  · rw [iter_push] at hb
    rcases mem_of_mem_pushed hb with hb | rfl
    · exact h b hb
    · exact hnew
  · exact h b hb

/-- What holds of the observed blocks and of the events' blocks holds after them. -/
theorem forall_observed_consume (A : Fold σ E ε) {P : BlockRef → Prop} :
    ∀ {xs : List (ChainEvent E)} {e : Engine σ} (s : ApplySummary),
    (∀ b ∈ e.observed, P b) → (∀ x ∈ xs, P x.block) →
      ∀ b ∈ (consume A xs e s).1.observed, P b
  | [], _, _, h, _ => h
  | x :: xs, e, s, h, hxs => by
      have hx := hxs x List.mem_cons_self
      have hrest : ∀ y ∈ xs, P y.block := fun y hy => hxs y (List.mem_cons_of_mem _ hy)
      rw [Engine.consume]
      rcases A.apply e.fold x.pos x.event with ⟨fold, err | _⟩
      · have hfold : ∀ b ∈ ({ e with fold := fold, skips := e.skips + 1 } : Engine σ).observed,
            P b := h
        cases err with
        | skip _ => exact forall_observed_consume A _ (forall_observed_advance hfold hx _) hrest
        | halt _ => exact h
        | poison _ => exact h
      · have hfold : ∀ b ∈ ({ e with fold := fold } : Engine σ).observed, P b := h
        exact forall_observed_consume A _ (forall_observed_advance hfold hx _) hrest

theorem OnChain.consume (A : Fold σ E ε) {xs : List (ChainEvent E)} {e : Engine σ}
    (s : ApplySummary) (h : OnChain chain e)
    (hxs : ∀ x ∈ xs, x.block.hash = chain x.block.number) :
    OnChain chain (consume A xs e s).1 := forall_observed_consume A s h hxs

/-- No fork shows in a span of the chain. -/
theorem OnChain.observedHash (h : OnChain chain e) (hr : e.RingOk) {span : SpanView E}
    (hspan : span.hash = chain span.number) :
    (e.observedHash span).filter (fun x => !decide (x = span.hash)) = none := by
  rw [Option.filter_eq_none_iff]
  intro hash hh
  unfold Engine.observedHash at hh
  split_ifs at hh
  · rw [hashAt_eq hr.ascending] at hh
    have : hash = chain span.number := h _ (mem_of_lookup hh)
    simp [this, hspan]

/-- Events of later blocks are above the cursor that a span leaves if they were above it
before. -/
theorem filter_cursor_consume (A : Fold σ E ε) {xs ys : List (ChainEvent E)} {e e' : Engine σ}
    {s s' : ApplySummary} (h : Engine.consume A xs e s = (e', .ok s')) (hx : After e.cursor xs)
    (hlt : ∀ x ∈ xs, ∀ y ∈ ys, x.pos < y.pos) :
    ys.filter (fun y => decide (e'.cursor < some y.pos)) =
      ys.filter fun y => decide (e.cursor < some y.pos) := by
  apply List.filter_congr
  intro y hy
  rw [cursor_consume A h]
  cases hl : xs.getLast? with
  | none => rfl
  | some x =>
      have hmem := List.mem_of_getLast? hl
      have hxy := Option.some_lt_some.mpr (hlt x hmem y hy)
      have h1 : e.cursor < some y.pos := (hx.above x hmem).trans hxy
      simp only [Option.map_some, Option.some_or, hxy, h1]

/-- The spans of one chain are consumed from the cursor on. -/
theorem applySpans_eq (A : Fold σ E ε) : ∀ {spans : List (SpanView E)} {e₁ e₂ : Engine σ}
    (s t : ApplySummary), Alike id e₁ e₂ → e₁.RingOk → OnChain chain e₁ →
    (∀ span ∈ spans, span.logIndices.length = span.events.length) → Batch.ValidSpans spans →
    (∀ span ∈ spans, span.hash = chain span.number) →
    Agree id (applySpans A spans e₁ s) (Engine.consume A ((spans.flatMap
      SpanView.chainEvents).filter fun x => decide (e₁.cursor < some x.pos)) e₂ t)
  | [], e₁, e₂, s, t, h, _, _, _, _, _ => ⟨⟨h.fold, h.cursor, h.ring, h.skips⟩, rfl⟩
  | span :: spans, e₁, e₂, s, t, h, hr, hon, hlen, hv, hspans => by
      have hl := hlen span List.mem_cons_self
      have hsorted := hv.sorted span List.mem_cons_self
      have hhash := hspans span List.mem_cons_self
      rw [applySpans, hon.observedHash hr hhash]
      dsimp only
      rw [applySpan_eq A e₁ hl, drop_dedupCount hl hsorted, List.flatMap_cons,
        List.filter_append, consume_append]
      set xs := span.chainEvents.filter fun x => decide (e₁.cursor < some x.pos) with hxs
      set s₁ : ApplySummary := { s with deduped := s.deduped + dedupCount e₁.cursor span }
      have hafter : After e₁.cursor xs := After.filter (sorted_chainEvents hl hsorted)
      have hblock : ∀ x ∈ xs, x.block = span.block := by
        intro x hx
        obtain ⟨item, -, rfl⟩ := List.mem_map.mp (List.mem_of_mem_filter hx)
        rfl
      have hagree := Alike.consume (Projects.id A) xs s₁ t h
      have hmoved := consume_moved A s₁ hr hafter
      have hon' := hon.consume A s₁ fun x hx => by rw [hblock x hx]; exact hhash
      rcases h₁ : Engine.consume A xs e₁ s₁ with ⟨e₁', err | s'⟩
      · rcases h₂ : Engine.consume A xs e₂ t with ⟨e₂', err' | t'⟩
        · rw [h₁, h₂] at hagree
          exact hagree
        · rw [h₁, h₂] at hagree
          exact absurd hagree.error (by simp [errorOf])
      · rcases h₂ : Engine.consume A xs e₂ t with ⟨e₂', err' | t'⟩
        · rw [h₁, h₂] at hagree
          exact absurd hagree.error (by simp [errorOf])
        · rw [h₁, h₂] at hagree
          rw [h₁] at hmoved hon'
          have hlater : ∀ x ∈ xs, ∀ y ∈ spans.flatMap SpanView.chainEvents, x.pos < y.pos := by
            intro x hx y hy
            obtain ⟨sp, hsp, hy⟩ := List.mem_flatMap.mp hy
            obtain ⟨item, -, rfl⟩ := List.mem_map.mp hy
            refine Or.inl ?_
            show x.block.number < sp.number
            rw [hblock x hx]
            exact (List.pairwise_cons.mp hv.ascending).1 sp hsp
          rw [← filter_cursor_consume A h₁ hafter hlater]
          exact applySpans_eq A s' t' hagree.alike hmoved.ringOk hon'
            (fun sp hsp => hlen sp (List.mem_cons_of_mem _ hsp))
            hv.tail
            fun sp hsp => hspans sp (List.mem_cons_of_mem _ hsp)

/-- The status a batch leaves. -/
theorem status_applySpans (A : Fold σ E ε) : ∀ (spans : List (SpanView E)) (e : Engine σ)
    (s : ApplySummary), (∀ span ∈ spans, span.logIndices.length = span.events.length) →
    (applySpans A spans e s).1.status = statusAfter .active (errorOf (applySpans A spans e s).2)
  | [], _, _, _ => rfl
  | span :: spans, e, s, hlen => by
      rw [applySpans]
      cases (e.observedHash span).filter (fun x => !decide (x = span.hash)) with
      | some hash => rfl
      | none =>
          have hst := status_consume A (span.chainEvents.drop (dedupCount e.cursor span)) e
            { s with deduped := s.deduped + dedupCount e.cursor span }
          rw [← applySpan_eq A e (hlen span List.mem_cons_self)] at hst
          rcases hap : applySpan A e span s with ⟨e', err | s'⟩
          · have herr := hap
            rw [applySpan_eq A e (hlen span List.mem_cons_self)] at herr
            rw [hap] at hst
            obtain ⟨pos, error, ⟨rfl, -⟩ | ⟨rfl, -⟩⟩ := consume_error A herr
            · exact hst
            · exact hst
          · exact status_applySpans A spans e' s'
              fun sp hsp => hlen sp (List.mem_cons_of_mem _ hsp)

/-- The boundary that a correct source sends along: the header of the cursor block. -/
def Boundary (chain : ℕ → Hash) (e : Engine σ) (b : Batch E) : Prop :=
  ∀ c, e.cursor = some c → b.boundary = some ⟨c.block, chain c.block⟩

theorem checkBoundary_onChain (hr : e.RingOk) (hon : OnChain chain e) {b : Batch E}
    (hb : Boundary chain e b) :
    ∃ verified, (e.checkBoundary b.boundary : Except (ApplyError ε) _) = .ok verified := by
  unfold checkBoundary
  cases hc : e.cursor with
  | none => exact ⟨none, rfl⟩
  | some c =>
      obtain ⟨hash, hhash, hlast⟩ := hr.hashAt_cursor hc
      have : hash = chain c.block := hon _ (List.mem_of_getLast? hlast)
      rw [hb c hc]
      simp [hhash, this]

theorem hash_span_of_events {b : Batch E} (hv : Batch.ValidSpans b.spans)
    (h : ∀ x ∈ b.chainEvents, x.block.hash = chain x.block.number) :
    ∀ span ∈ b.spans, span.hash = chain span.number := by
  intro span hspan
  have hlen := length_chainEvents span (Batch.length_eq_of_mem_spans hspan)
  have hne : span.chainEvents ≠ [] := by
    intro hnil
    rw [hnil] at hlen
    exact hv.nonempty span hspan (List.length_eq_zero_iff.mp hlen.symm)
  obtain ⟨x, hx⟩ := List.exists_mem_of_ne_nil _ hne
  have hblock : x.block = span.block := by
    obtain ⟨item, -, rfl⟩ := List.mem_map.mp hx
    rfl
  have := h x (List.mem_flatMap.mpr ⟨span, hspan, hx⟩)
  rwa [hblock] at this

/-- **A batch of the chain** is the consumption of its events above the cursor. -/
theorem applyBatch_eq (A : Fold σ E ε) (hactive : e.status = .active) (hr : e.RingOk)
    (hon : OnChain chain e) {b : Batch E} (hv : b.validate = .ok ()) (hb : Boundary chain e b)
    (hevents : ∀ x ∈ b.chainEvents, x.block.hash = chain x.block.number) (t : ApplySummary) :
    Agree id (e.applyBatch A b) (Engine.consume A
        (b.chainEvents.filter fun x => decide (e.cursor < some x.pos)) e t) ∧
      (e.applyBatch A b).1.status = (Engine.consume A
        (b.chainEvents.filter fun x => decide (e.cursor < some x.pos)) e t).1.status := by
  obtain ⟨verified, hverified⟩ := checkBoundary_onChain (ε := ε) hr hon hb
  have hspans := b.validate_ok_iff.mp hv
  set e₁ : Engine σ :=
    { e with
      lastVerified := verified.or e.lastVerified
      status := .poisoned (e.cursor.getD ⟨0, 0⟩) } with he₁
  have heq : e.applyBatch A b = applySpans A b.spans e₁ ApplySummary.zero := by
    unfold applyBatch
    rw [if_pos (EngineStatus.isActive_iff.mpr hactive), hv]
    simp only [hverified]
    rfl
  have hagree : Agree id (applySpans A b.spans e₁ ApplySummary.zero) (Engine.consume A
      (b.chainEvents.filter fun x => decide (e.cursor < some x.pos)) e t) :=
    applySpans_eq A ApplySummary.zero t ⟨rfl, rfl, rfl, rfl⟩ ⟨hr.ascending, hr.newest⟩ hon
      (fun s hs => Batch.length_eq_of_mem_spans hs) hspans (hash_span_of_events hspans hevents)
  rw [heq]
  refine ⟨hagree, ?_⟩
  rw [status_applySpans A _ _ _ fun s hs => Batch.length_eq_of_mem_spans hs, hagree.error,
    status_consume, hactive]

end OnChain

/-! ### Deliveries -/

/-- A stream of events of the chain, in order. -/
structure Stream (chain : ℕ → Hash) (stream : List (ChainEvent E)) : Prop where
  sorted : stream.Pairwise fun a b => a.pos < b.pos
  hash : ∀ x ∈ stream, x.block.hash = chain x.block.number

/-- The batches deliver the stream from its `d`-th event on: each is valid, comes with the
boundary header of the chain, and holds some events delivered before and then the next ones. -/
def Delivers (A : Fold σ E ε) (chain : ℕ → Hash) (stream : List (ChainEvent E)) :
    Engine σ → ℕ → List (Batch E) → Prop
  | _, d, [] => d = stream.length
  | e, d, b :: bs => b.validate = .ok () ∧ Boundary chain e b ∧
      ∃ again next, List.Sublist again (stream.take d) ∧ next <+: stream.drop d ∧
        b.chainEvents = again ++ next ∧
        Delivers A chain stream (e.applyBatch A b).1 (d + next.length) bs

/-- Those of the first `d` events that lie above a cursor. -/
def upTo (stream : List (ChainEvent E)) (c : Cursor) (d : ℕ) : List (ChainEvent E) :=
  (stream.take d).filter fun x => decide (c < some x.pos)

/-- `e` is `e₀` after consuming the first `d` events of the stream. -/
structure Delivered (A : Fold σ E ε) (stream : List (ChainEvent E)) (e₀ : Engine σ) (d : ℕ)
    (e : Engine σ) : Prop where
  alike : Alike id e (consume A (upTo stream e₀.cursor d) e₀ ApplySummary.zero).1
  status : e.status = (consume A (upTo stream e₀.cursor d) e₀ ApplySummary.zero).1.status

theorem Delivered.zero (A : Fold σ E ε) (stream : List (ChainEvent E)) (e : Engine σ) :
    Delivered A stream e 0 e := ⟨Alike.refl e, rfl⟩

theorem Alike.trans {e₁ e₂ e₃ : Engine σ} (h : Alike id e₁ e₂) (h' : Alike id e₂ e₃) :
    Alike id e₁ e₃ :=
  ⟨h.fold.trans h'.fold, h.cursor.trans h'.cursor, h.ring.trans h'.ring, h.skips.trans h'.skips⟩

theorem applyBatch_of_not_active (A : Fold σ E ε) {e : Engine σ} (h : e.status ≠ .active)
    (b : Batch E) : (e.applyBatch A b).1 = e := by
  rw [← EngineStatus.isActive_iff.ne] at h
  simp [applyBatch, h]

/-- Everything consumed is at or below the cursor. -/
theorem le_cursor_consume (A : Fold σ E ε) {xs : List (ChainEvent E)} {e e' : Engine σ}
    {s s' : ApplySummary} (h : consume A xs e s = (e', .ok s')) (hx : After e.cursor xs) :
    ∀ x ∈ xs, some x.pos ≤ e'.cursor := by
  intro x hmem
  rw [cursor_consume A h]
  cases hl : xs.getLast? with
  | none => simp [List.getLast?_eq_none_iff.mp hl] at hmem
  | some y =>
      obtain ⟨ys, rfl⟩ := List.getLast?_eq_some_iff.mp hl
      rcases List.mem_append.mp hmem with hmem | hmem
      · exact Option.some_le_some.mpr
          ((List.pairwise_append.mp hx.sorted).2.2 x hmem y (by simp)).le
      · rw [List.mem_singleton.mp hmem]
        exact le_rfl

section Step

variable {A : Fold σ E ε} {chain : ℕ → Hash} {stream : List (ChainEvent E)} {e₀ e : Engine σ}

theorem After.upTo (hS : Stream chain stream) (c : Cursor) (d : ℕ) :
    After c (upTo stream c d) :=
  After.filter (hS.sorted.sublist (List.take_sublist _ _))

theorem upTo_add {c : Cursor} {d : ℕ} {next : List (ChainEvent E)} (h : next <+: stream.drop d) :
    upTo stream c (d + next.length) =
      upTo stream c d ++ next.filter fun x => decide (c < some x.pos) := by
  have htake : (stream.drop d).take next.length = next := (List.prefix_iff_eq_take.mp h).symm
  rw [upTo, upTo, List.take_add, htake, List.filter_append]

/-- One batch of a delivery. -/
theorem Delivered.step (hS : Stream chain stream) (hr : e₀.RingOk) (hon : OnChain chain e₀)
    (hactive : e₀.status = .active) {d : ℕ} (h : Delivered A stream e₀ d e) {b : Batch E}
    (hv : b.validate = .ok ()) (hb : Boundary chain e b) {again next : List (ChainEvent E)}
    (hagain : List.Sublist again (stream.take d)) (hnext : next <+: stream.drop d)
    (hevents : b.chainEvents = again ++ next) :
    Delivered A stream e₀ (d + next.length) (e.applyBatch A b).1 := by
  have hafter : After e₀.cursor (upTo stream e₀.cursor d) := After.upTo hS _ d
  have hmoved := consume_moved A ApplySummary.zero hr hafter
  have honc : OnChain chain (consume A (upTo stream e₀.cursor d) e₀ ApplySummary.zero).1 :=
    hon.consume A _ fun x hx => hS.hash x (List.mem_of_mem_take (List.mem_of_mem_filter hx))
  rcases hc : consume A (upTo stream e₀.cursor d) e₀ ApplySummary.zero with ⟨e', err | s'⟩
  · have hstop := h.status
    rw [hc] at hstop
    have hne : e.status ≠ .active := by
      obtain ⟨pos, error, ⟨-, hst⟩ | ⟨-, hst⟩⟩ := consume_error A hc
      · rw [hstop, hst]
        simp
      · rw [hstop, hst]
        simp
    rw [applyBatch_of_not_active A hne]
    constructor
    · rw [upTo_add hnext, consume_append, hc]
      have := h.alike
      rwa [hc] at this
    · rw [upTo_add hnext, consume_append, hc, hstop]
  · have halike := h.alike
    have hstatus := h.status
    rw [hc] at halike hstatus hmoved honc
    have hst := status_consume A (upTo stream e₀.cursor d) e₀ ApplySummary.zero
    rw [hc] at hst
    have hact : e.status = .active := by
      rw [hstatus]
      exact hst.trans hactive
    have her : e.RingOk := ⟨by rw [halike.ring]; exact hmoved.ringOk.ascending,
      by rw [halike.ring, halike.cursor]; exact hmoved.ringOk.newest⟩
    have heon : OnChain chain e := by
      intro a ha
      rw [observed, halike.ring] at ha
      exact honc a ha
    have hold : ∀ x ∈ stream.take d, some x.pos ≤ e.cursor := by
      intro x hx
      rw [halike.cursor]
      by_cases hxc : e₀.cursor < some x.pos
      · exact le_cursor_consume A hc hafter x (List.mem_filter.mpr ⟨hx, by simpa using hxc⟩)
      · exact (not_lt.mp hxc).trans hmoved.cursor_le
    have hmem : ∀ x ∈ b.chainEvents, x ∈ stream := by
      intro x hx
      rw [hevents] at hx
      rcases List.mem_append.mp hx with hx | hx
      · exact List.mem_of_mem_take (hagain.subset hx)
      · exact List.mem_of_mem_drop (hnext.subset hx)
    have hfilter : b.chainEvents.filter (fun x => decide (e.cursor < some x.pos)) =
        next.filter fun x => decide (e₀.cursor < some x.pos) := by
      have hnil : again.filter (fun x => decide (e.cursor < some x.pos)) = [] := by
        rw [List.filter_eq_nil_iff]
        intro x hx
        simpa using hold x (hagain.subset hx)
      rw [hevents, List.filter_append, hnil, List.nil_append, halike.cursor]
      refine filter_cursor_consume A hc hafter ?_
      intro x hx y hy
      have hsplit := hS.sorted
      rw [← List.take_append_drop d stream, List.pairwise_append] at hsplit
      exact hsplit.2.2 x (List.mem_of_mem_filter hx) y (hnext.subset hy)
    obtain ⟨hagree, hstat⟩ := applyBatch_eq A hact her heon hv hb
      (fun x hx => hS.hash x (hmem x hx)) ApplySummary.zero
    rw [hfilter] at hagree hstat
    have hrest := Alike.consume (Projects.id A)
      (next.filter fun x => decide (e₀.cursor < some x.pos)) ApplySummary.zero s' halike
    constructor
    · rw [upTo_add hnext, consume_append, hc]
      exact hagree.alike.trans hrest.alike
    · rw [upTo_add hnext, consume_append, hc, hstat]
      dsimp only
      rw [status_consume, status_consume, hrest.error, hstatus]

end Step

/-! ### What the fold has seen -/

/-- The fold applied to events in order, whatever it answers. -/
def foldOver (A : Fold σ E ε) (s : σ) (xs : List (ChainEvent E)) : σ :=
  xs.foldl (fun s x => (A.apply s x.pos x.event).1) s

/-- A fold that leaves its state unchanged when it skips or halts. -/
structure CleanFold (A : Fold σ E ε) : Prop where
  skip : ∀ {s pos x error}, (A.apply s pos x).2 = .error (.skip error) → (A.apply s pos x).1 = s
  halt : ∀ {s pos x error}, (A.apply s pos x).2 = .error (.halt error) → (A.apply s pos x).1 = s

/-- The fold has seen exactly what the cursor covers, unless it stopped with its state changed. -/
theorem fold_consume {A : Fold σ E ε} : ∀ {xs : List (ChainEvent E)} {e : Engine σ}
    (s : ApplySummary), e.RingOk → After e.cursor xs →
    (∀ err, errorOf (consume A xs e s).2 = some err →
      CleanFold A ∧ ∃ pos error, err = .halted pos error) →
    (consume A xs e s).1.fold = foldOver A e.fold
      (xs.filter fun x => decide (some x.pos ≤ (consume A xs e s).1.cursor))
  | [], _, _, _, _, _ => rfl
  | x :: xs, e, s, hr, hx, hp => by
      have hle : e.cursor ≤ some x.pos := (hx.above x List.mem_cons_self).le
      -- the engine after `x`, from which the rest is consumed
      have hrest : ∀ (e₁ : Engine σ) (s₁ : ApplySummary), e₁.RingOk → e₁.cursor = some x.pos →
          e₁.fold = (A.apply e.fold x.pos x.event).1 →
          (∀ err, errorOf (consume A xs e₁ s₁).2 = some err →
            CleanFold A ∧ ∃ pos error, err = .halted pos error) →
          (consume A xs e₁ s₁).1.fold = foldOver A e.fold ((x :: xs).filter fun y =>
            decide (some y.pos ≤ (consume A xs e₁ s₁).1.cursor)) := by
        intro e₁ s₁ hr₁ hc₁ hf₁ hp₁
        have hx₁ : After e₁.cursor xs := by
          rw [hc₁]
          exact hx.tail
        have hmoved := consume_moved A s₁ hr₁ hx₁
        have hcov : some x.pos ≤ (consume A xs e₁ s₁).1.cursor := by
          rw [← hc₁]
          exact hmoved.cursor_le
        rw [fold_consume s₁ hr₁ hx₁ hp₁, List.filter_cons_of_pos (by simpa using hcov), hf₁]
        rfl
      have hadv : ∀ (fold : σ) (skips : ℕ), (({ e with fold := fold, skips := skips }).advance
          x.block.number x.block.hash x.pos).RingOk := by
        intro fold skips
        have hr' : ({ e with fold := fold, skips := skips } : Engine σ).RingOk :=
          ⟨hr.ascending, hr.newest⟩
        exact hr'.advance rfl hle _
      rw [Engine.consume] at hp ⊢
      rcases hap : A.apply e.fold x.pos x.event with ⟨fold, err | _⟩
      · rw [hap] at hp
        cases err with
        | skip error => exact hrest _ _ (hadv fold _) (by simp) (by simp [hap]) hp
        | halt error =>
            have hfold : fold = e.fold := by
              have := (hp _ rfl).1.halt (s := e.fold) (by rw [hap])
              rwa [hap] at this
            dsimp only
            rw [List.filter_eq_nil_iff.mpr, hfold]
            · rfl
            · intro y hy
              simpa using hx.above y hy
        | poison error =>
            obtain ⟨-, pos, error', heq⟩ := hp _ rfl
            cases heq
      · rw [hap] at hp
        exact hrest _ _ (hadv fold _) (by simp) (by simp [hap]) hp

/-! ### The calls of a fold -/

/-- The fold with a record of the calls of `apply`. -/
def traced (A : Fold σ E ε) : Fold (σ × List (Position × E)) E ε where
  apply s pos x := (((A.apply s.1 pos x).1, s.2 ++ [(pos, x)]), (A.apply s.1 pos x).2)

/-- The engine with an empty record. -/
def trace (e : Engine σ) : Engine (σ × List (Position × E)) where
  fold := (e.fold, [])
  cursor := e.cursor
  ring := e.ring
  checkpoints := e.checkpoints.map fun s => (s, [])
  status := e.status
  lastVerified := e.lastVerified
  skips := e.skips
  resets := e.resets

/-- The calls of `Fold::apply` along a sequence of batches. -/
def calls (A : Fold σ E ε) (e : Engine σ) (bs : List (Batch E)) : List (Position × E) :=
  (e.trace.after (traced A) bs).fold.2

/-- What `Fold::apply` is given of an event. -/
def call (x : ChainEvent E) : Position × E := (x.pos, x.event)

theorem projects_traced (A : Fold σ E ε) : Projects Prod.fst (traced A) A := fun _ _ _ => rfl

/-- The fold is called at the events in order, at all of them unless one stops the run. -/
theorem calls_consume (A : Fold σ E ε) : ∀ (xs : List (ChainEvent E))
    (e : Engine (σ × List (Position × E))) (s : ApplySummary),
    ∃ l, l <+: xs ∧ (consume (traced A) xs e s).1.fold.2 = e.fold.2 ++ l.map call ∧
      (errorOf (consume (traced A) xs e s).2 = none → l = xs)
  | [], e, s => ⟨[], List.prefix_refl _, by simp [consume], fun _ => rfl⟩
  | x :: xs, e, s => by
      have hrest : ∀ (e₁ : Engine (σ × List (Position × E))) (s₁ : ApplySummary),
          e₁.fold.2 = e.fold.2 ++ [call x] →
          ∃ l, l <+: x :: xs ∧
            (consume (traced A) xs e₁ s₁).1.fold.2 = e.fold.2 ++ l.map call ∧
            (errorOf (consume (traced A) xs e₁ s₁).2 = none → l = x :: xs) := by
        intro e₁ s₁ h₁
        obtain ⟨l, hl, hf, hall⟩ := calls_consume A xs e₁ s₁
        refine ⟨x :: l, ?_, ?_, ?_⟩
        · exact List.cons_prefix_cons.mpr ⟨rfl, hl⟩
        · rw [hf, h₁, List.append_assoc]
          rfl
        · intro hnone
          rw [hall hnone]
      rw [Engine.consume]
      rcases hap : (traced A).apply e.fold x.pos x.event with ⟨fold, err | _⟩
      · have hfold : fold.2 = e.fold.2 ++ [call x] := by
          have := congrArg (fun r => r.1.2) hap
          exact this.symm
        cases err with
        | skip error =>
            refine hrest _ _ ?_
            rw [fold_advance]
            exact hfold
        | halt error => exact ⟨[x], by simp, hfold, by simp [errorOf]⟩
        | poison error => exact ⟨[x], by simp, hfold, by simp [errorOf]⟩
      · refine hrest _ _ ?_
        rw [fold_advance]
        have := congrArg (fun r => r.1.2) hap
        exact this.symm

/-! ### The run -/

section Run

variable {A : Fold σ E ε} {chain : ℕ → Hash} {stream : List (ChainEvent E)} {e₀ : Engine σ}

theorem alike_trace (e : Engine σ) : Alike Prod.fst (e.trace (E := E)) e := ⟨rfl, rfl, rfl, rfl⟩

/-- A whole delivery, also with the calls recorded. -/
theorem Delivered.run (hS : Stream chain stream) (hr : e₀.RingOk) (hon : OnChain chain e₀)
    (hactive : e₀.status = .active) : ∀ (bs : List (Batch E)) {d : ℕ} {e : Engine σ}
    {r : Engine (σ × List (Position × E))}, Delivered A stream e₀ d e →
    Delivered (traced A) stream e₀.trace d r → Delivers A chain stream e d bs →
    Delivered A stream e₀ stream.length (e.after A bs) ∧
      Delivered (traced A) stream e₀.trace stream.length (r.after (traced A) bs)
  | [], d, e, r, he, hrec, hd => by
      have hd : d = stream.length := hd
      subst hd
      exact ⟨he, hrec⟩
  | b :: bs, d, e, r, he, hrec, ⟨hv, hb, again, next, hagain, hnext, hevents, hd⟩ => by
      have hsame := Alike.consume (projects_traced A) (upTo stream e₀.cursor d) ApplySummary.zero
        ApplySummary.zero (alike_trace e₀)
      have hcursor : r.cursor = e.cursor := by
        rw [hrec.alike.cursor, he.alike.cursor]
        exact hsame.alike.cursor
      have hb' : Boundary chain r b := by
        intro c hc
        rw [hcursor] at hc
        exact hb c hc
      have hr' : (e₀.trace (E := E)).RingOk := ⟨hr.ascending, hr.newest⟩
      have hon' : OnChain chain (e₀.trace (E := E)) := hon
      have hrec' := hrec.step hS hr' hon' hactive hv hb' hagain hnext hevents
      exact Delivered.run hS hr hon hactive bs
        (he.step hS hr hon hactive hv hb hagain hnext hevents) hrec' hd

theorem after_of_not_active (A : Fold σ E ε) {e : Engine σ} (h : e.status ≠ .active)
    (bs : List (Batch E)) : e.after A bs = e := by
  induction bs with
  | nil => rfl
  | cons b bs ih =>
      rw [after, List.foldl_cons, applyBatch_of_not_active A h]
      exact ih

variable {π : Type} {P : Persist σ π} {W : Wincode} {crc : Crc}

/-- **Exactly-once ordered folding.**  However the batches cut and repeat the stream, a
reachable engine ends as after one batch with the whole stream; the fold was called in order,
at the events above the cursor and once at each, unless it stopped the run; every batch counts
its events; and unless the fold poisoned its state, the state reflects what the cursor
covers. -/
theorem delivery_exactly_once (A : Fold σ E ε) {config : EngineConfig} {e₀ e : Engine σ}
    (hstart : Started P W crc config e₀) (ops : List (Op σ E))
    (he : e = ((Tracked.start e₀).run A ops).engine) {chain : ℕ → Hash} (hon : OnChain chain e)
    {stream : List (ChainEvent E)} (hS : Stream chain stream) {bs : List (Batch E)}
    (hd : Delivers A chain stream e 0 bs) :
    (∀ whole, Delivers A chain stream e 0 [whole] →
      (e.after A bs).fold = (e.applyBatch A whole).1.fold ∧
      (e.after A bs).cursor = (e.applyBatch A whole).1.cursor ∧
      (e.after A bs).ring = (e.applyBatch A whole).1.ring ∧
      (e.after A bs).skips = (e.applyBatch A whole).1.skips) ∧
    (calls A e bs).Pairwise (fun a b => a.1 < b.1) ∧
    calls A e bs <+: (upTo stream e.cursor stream.length).map call ∧
    ((e.after A bs).status = .active →
      calls A e bs = (upTo stream e.cursor stream.length).map call) ∧
    (∀ pre b post s, bs = pre ++ b :: post → ((e.after A pre).applyBatch A b).2 = .ok s →
      s.applied + s.deduped + s.skipped = b.chainEvents.length) ∧
    (CleanFold A → (∀ pos, (e.after A bs).status ≠ .poisoned pos) →
      (e.after A bs).fold = foldOver A e.fold ((upTo stream e.cursor stream.length).filter
        fun x => decide (some x.pos ≤ (e.after A bs).cursor))) := by
  have hr : e.RingOk := by
    rw [he]
    exact (hstart.inv.run A ops).ringOk
  have hcount : ∀ pre b post s, bs = pre ++ b :: post →
      ((e.after A pre).applyBatch A b).2 = .ok s →
      s.applied + s.deduped + s.skipped = b.chainEvents.length := by
    intro pre b post s _ hs
    rcases hap : (e.after A pre).applyBatch A b with ⟨e', r⟩
    rw [hap] at hs
    dsimp only at hs
    subst hs
    exact applyBatch_count A hap
  have hafter := After.upTo hS e.cursor stream.length
  by_cases hactive : e.status = .active
  · obtain ⟨hrun, hrec⟩ := Delivered.run hS hr hon hactive bs (Delivered.zero A stream e)
      (Delivered.zero (traced A) stream e.trace) hd
    have hsame := Alike.consume (projects_traced A) (upTo stream e.cursor stream.length)
      ApplySummary.zero ApplySummary.zero (alike_trace e)
    obtain ⟨l, hl, hcalls, hall⟩ := calls_consume A (upTo stream e.cursor stream.length) e.trace
      ApplySummary.zero
    have hl' : calls A e bs = l.map call := by
      have := congrArg Prod.snd hrec.alike.fold
      exact this.trans hcalls
    have hstatus := hrun.status
    rw [status_consume, hactive] at hstatus
    refine ⟨?_, ?_, ?_, ?_, hcount, ?_⟩
    · intro whole hwhole
      obtain ⟨hone, -⟩ := Delivered.run hS hr hon hactive [whole] (Delivered.zero A stream e)
        (Delivered.zero (traced A) stream e.trace) hwhole
      exact ⟨hrun.alike.fold.trans hone.alike.fold.symm,
        hrun.alike.cursor.trans hone.alike.cursor.symm,
        hrun.alike.ring.trans hone.alike.ring.symm,
        hrun.alike.skips.trans hone.alike.skips.symm⟩
    · rw [hl', List.pairwise_map]
      exact hafter.sorted.sublist hl.sublist
    · rw [hl']
      exact hl.map call
    · intro hact
      rw [hl', hall]
      rw [hsame.error]
      rcases hc : consume A (upTo stream e.cursor stream.length) e ApplySummary.zero with
        ⟨e', err | s'⟩
      · rw [hc] at hstatus
        obtain ⟨pos, error, ⟨rfl, -⟩ | ⟨rfl, -⟩⟩ := consume_error A hc
        · rw [hact] at hstatus
          cases hstatus
        · rw [hact] at hstatus
          cases hstatus
      · rfl
    · intro hA hp
      have hstop : ∀ err, errorOf (consume A (upTo stream e.cursor stream.length) e
          ApplySummary.zero).2 = some err → CleanFold A ∧ ∃ pos error, err = .halted pos error := by
        intro err herr
        rcases hc : consume A (upTo stream e.cursor stream.length) e ApplySummary.zero with
          ⟨e', err' | s'⟩
        · rw [hc] at herr hstatus
          obtain rfl : err' = err := Option.some.inj herr
          obtain ⟨pos, error, ⟨rfl, -⟩ | ⟨rfl, -⟩⟩ := consume_error A hc
          · exact ⟨hA, pos, error, rfl⟩
          · exact absurd hstatus (hp pos)
        · rw [hc] at herr
          cases herr
      have := fold_consume ApplySummary.zero hr hafter hstop
      rw [← hrun.alike.cursor] at this
      exact hrun.alike.fold.trans this
  · have hstay := after_of_not_active A hactive
    have hactive' : (e.trace (E := E)).status ≠ .active := hactive
    have hnil : calls A e bs = [] := by
      rw [calls, after_of_not_active (traced A) hactive']
      rfl
    rw [hnil, hstay]
    refine ⟨?_, List.Pairwise.nil, List.nil_prefix, fun h => absurd h hactive, hcount, ?_⟩
    · intro whole _
      rw [applyBatch_of_not_active A hactive]
      exact ⟨rfl, rfl, rfl, rfl⟩
    · intro _ _
      rw [List.filter_eq_nil_iff.mpr]
      · rfl
      · intro x hx
        simpa using hafter.above x hx

end Run

/-- The events of the small chain. -/
def sampleStream : List (ChainEvent ℕ) :=
  [⟨sampleBlock 1, 0, 10⟩, ⟨sampleBlock 1, 2, 11⟩, ⟨sampleBlock 3, 1, 12⟩, ⟨sampleBlock 4, 0, 13⟩]

/-- Two batches that overlap in block 3 deliver them. -/
theorem sample_delivers : Delivers recordingFold (fun n => (sampleBlock n).hash) sampleStream
    sampleEngine 0 [sampleBatch, laterBatch] := by
  refine ⟨rfl, ?_, [], sampleBatch.chainEvents, by simp, ?_, rfl,
    rfl, ?_, [⟨sampleBlock 3, 1, 12⟩], [⟨sampleBlock 4, 0, 13⟩], ?_, ?_, rfl, rfl⟩
  · intro c hc
    cases hc
  · exact ⟨[⟨sampleBlock 4, 0, 13⟩], rfl⟩
  · rintro c hc
    have hcur : some c = some ⟨3, 1⟩ := hc.symm.trans rfl
    rw [Option.some.inj hcur]
    rfl
  · exact ((List.Sublist.refl _).cons _).cons _
  · exact List.prefix_refl _

/-- The whole chain in one batch. -/
def wholeBatch : Batch ℕ := sampleBatch.pushBlock (sampleBlock 4) [(0, 13)]

theorem whole_delivers : Delivers recordingFold (fun n => (sampleBlock n).hash) sampleStream
    sampleEngine 0 [wholeBatch] := by
  refine ⟨rfl, ?_, [], sampleStream, by simp, List.prefix_refl _, rfl, rfl⟩
  intro c hc
  cases hc

theorem sample_exactly_once :
    (sampleEngine.after recordingFold [sampleBatch, laterBatch]).fold =
        (sampleEngine.applyBatch recordingFold wholeBatch).1.fold ∧
      (sampleEngine.after recordingFold [sampleBatch, laterBatch]).cursor =
        (sampleEngine.applyBatch recordingFold wholeBatch).1.cursor ∧
      (calls recordingFold sampleEngine [sampleBatch, laterBatch]).Pairwise
        (fun a b => a.1 < b.1) ∧
      calls recordingFold sampleEngine [sampleBatch, laterBatch] =
        (upTo sampleStream none sampleStream.length).map call := by
  have hS : Stream (fun n => (sampleBlock n).hash) sampleStream :=
    ⟨by decide, by decide⟩
  obtain ⟨hwhole, hsorted, -, hcalls, -, -⟩ := delivery_exactly_once recordingFold
    sampleEngine_started [] rfl (fun b hb => by cases hb) hS sample_delivers
  obtain ⟨hfold, hcursor, -, -⟩ := hwhole wholeBatch whole_delivers
  exact ⟨hfold, hcursor, hsorted, hcalls rfl⟩

end Engine

end Works.Chainfold
