import Works.Chainfold.EngineSpec

/-! # Engines that answer alike

Two engines with the same state, cursor and status, whose rings differ only in that the first
still holds some older entries, give the same results on the same batches and stay in that
relation, as long as no fork check asks for one of the extra entries.  A rolled-back engine
stands in this relation to the engine at the time of its checkpoint, and a restored engine
to the engine that was saved. -/

namespace Works.Chainfold

open BlockRing

variable {σ E ε : Type}

namespace Engine

/-- The block numbers whose observed hash `apply_batch` asks for, span by span. -/
def spanChecks (A : Fold σ E ε) : List (SpanView E) → Engine σ → ApplySummary → List ℕ
  | [], _, _ => []
  | span :: spans, e, summary =>
      (if e.cursor.any fun c => decide (span.number ≤ c.block) then [span.number] else []) ++
        match (e.observedHash span).filter fun h => !decide (h = span.hash) with
        | some _ => []
        | none => match applySpan A e span summary with
            | (e, .ok summary) => spanChecks A spans e summary
            | (_, .error _) => []

/-- The blocks that the fork checks of `apply_batch` look at. -/
def forkChecks (A : Fold σ E ε) (e : Engine σ) (batch : Batch E) : List ℕ :=
  if e.status.isActive then
    match batch.validate with
    | .error _ => []
    | .ok () => match (e.checkBoundary batch.boundary : Except (ApplyError ε) _) with
        | .error _ => []
        | .ok verified =>
            spanChecks A batch.spans
              { e with
                lastVerified := verified.or e.lastVerified
                status := .poisoned (e.cursor.getD ⟨0, 0⟩) }
              ApplySummary.zero
  else []

/-- `e₁` still observes what `e₂` does and perhaps older blocks, with numbers in `D`. -/
structure Sim (D : Set ℕ) (e₁ e₂ : Engine σ) : Prop where
  fold : e₁.fold = e₂.fold
  cursor : e₁.cursor = e₂.cursor
  status : e₁.status = e₂.status
  ringOk₁ : e₁.RingOk
  ringOk₂ : e₂.RingOk
  capacity : e₁.ring.capacity = e₂.ring.capacity
  older : ∃ l, e₁.ring.iter = l ++ e₂.ring.iter ∧ ∀ a ∈ l, a.number ∈ D

variable {D : Set ℕ} {e₁ e₂ : Engine σ}

theorem lookup_append_of_ne {l r : List BlockRef} {n : ℕ} (h : ∀ a ∈ l, a.number ≠ n) :
    lookup (l ++ r) n = lookup r n := by
  have hnone : l.find? (fun b => decide (b.number = n)) = none := by
    rw [List.find?_eq_none]
    intro a ha
    simpa using h a ha
  rw [lookup, lookup, List.find?_append, hnone, Option.none_or]

theorem Sim.hashAt (h : Sim D e₁ e₂) {n : ℕ} (hn : n ∉ D) :
    e₁.ring.hashAt n = e₂.ring.hashAt n := by
  obtain ⟨l, hl, hD⟩ := h.older
  rw [hashAt_eq h.ringOk₁.ascending, hashAt_eq h.ringOk₂.ascending, hl]
  apply lookup_append_of_ne
  rintro a ha rfl
  exact hn (hD a ha)

/-- The newest entry is the same. -/
theorem Sim.hashAt_cursor (h : Sim D e₁ e₂) {c : Position} (hc : e₂.cursor = some c) :
    e₁.ring.hashAt c.block = e₂.ring.hashAt c.block := by
  obtain ⟨hash, hhash, hlast⟩ := h.ringOk₂.hashAt_cursor hc
  obtain ⟨l, hl, -⟩ := h.older
  have hmem : ⟨c.block, hash⟩ ∈ e₁.ring.iter := by
    rw [hl]
    exact List.mem_append_right _ (List.mem_of_getLast? hlast)
  rw [hhash, hashAt_eq h.ringOk₁.ascending]
  exact lookup_of_mem h.ringOk₁.ascending hmem

theorem Sim.newestNumber (h : Sim D e₁ e₂) : e₁.ring.newestNumber = e₂.ring.newestNumber := by
  rw [h.ringOk₁.newest, h.ringOk₂.newest, h.cursor]

/-- Pushing the same block keeps the older entries or drops one of them. -/
theorem pushed_append (cap : ℕ) (l r : List BlockRef) (b : BlockRef)
    (hcap : (l ++ r).length ≤ cap) :
    ∃ l', l' <:+ l ∧ pushed cap (l ++ r) b = l' ++ pushed cap r b := by
  rw [List.length_append] at hcap
  unfold pushed
  cases l with
  | nil => exact ⟨[], List.suffix_refl _, rfl⟩
  | cons a l =>
      rw [List.length_cons] at hcap
      rw [if_pos (show r.length < cap by omega)]
      split_ifs
      · exact ⟨a :: l, List.suffix_refl _, by simp⟩
      · exact ⟨l, List.suffix_cons _ _, by simp⟩

theorem Sim.advance (h : Sim D e₁ e₂) {number : ℕ} {pos : Position} (hpos : pos.block = number)
    (hle : e₁.cursor ≤ some pos) (hash : Hash) :
    Sim D (e₁.advance number hash pos) (e₂.advance number hash pos) where
  fold := by simp [h.fold]
  cursor := by simp
  status := by simp [h.status]
  ringOk₁ := h.ringOk₁.advance hpos hle hash
  ringOk₂ := h.ringOk₂.advance hpos (h.cursor ▸ hle) hash
  capacity := by simp [h.capacity]
  older := by
    obtain ⟨l, hl, hD⟩ := h.older
    rw [ring_advance, ring_advance, h.newestNumber]
    split_ifs
    · have hcap : (l ++ e₂.ring.iter).length ≤ e₂.ring.capacity := by
        rw [← hl, ← h.capacity]
        exact length_iter_le _
      obtain ⟨l', hl', hpush⟩ := pushed_append e₂.ring.capacity l e₂.ring.iter ⟨number, hash⟩ hcap
      refine ⟨l', ?_, fun a ha => hD a (hl'.subset ha)⟩
      rw [iter_push, iter_push, hl, h.capacity, hpush]
    · exact ⟨l, hl, hD⟩

/-- Fields that the relation does not mention may differ. -/
theorem Sim.of_eq {e₁' e₂' : Engine σ} (h : Sim D e₁ e₂) (hf : e₁'.fold = e₂'.fold)
    (hs : e₁'.status = e₂'.status) (hc₁ : e₁'.cursor = e₁.cursor) (hc₂ : e₂'.cursor = e₂.cursor)
    (hr₁ : e₁'.ring = e₁.ring) (hr₂ : e₂'.ring = e₂.ring) : Sim D e₁' e₂' where
  fold := hf
  cursor := by rw [hc₁, hc₂, h.cursor]
  status := hs
  ringOk₁ := ⟨by rw [hr₁]; exact h.ringOk₁.ascending, by rw [hr₁, hc₁]; exact h.ringOk₁.newest⟩
  ringOk₂ := ⟨by rw [hr₂]; exact h.ringOk₂.ascending, by rw [hr₂, hc₂]; exact h.ringOk₂.newest⟩
  capacity := by rw [hr₁, hr₂]; exact h.capacity
  older := by rw [hr₁, hr₂]; exact h.older

theorem Sim.consume (A : Fold σ E ε) : ∀ {xs : List (ChainEvent E)} {e₁ e₂ : Engine σ}
    (s : ApplySummary), Sim D e₁ e₂ → After e₁.cursor xs →
    (consume A xs e₁ s).2 = (consume A xs e₂ s).2 ∧
      Sim D (consume A xs e₁ s).1 (consume A xs e₂ s).1
  | [], _, _, _, h, _ => ⟨rfl, h⟩
  | x :: xs, e₁, e₂, s, h, hx => by
      have hle : e₁.cursor ≤ some x.pos := (hx.above x List.mem_cons_self).le
      have hrun : ∀ (fold : σ) (k₁ k₂ : ℕ) (s' : ApplySummary),
          (Engine.consume A xs (({ e₁ with fold := fold, skips := k₁ }).advance x.block.number
            x.block.hash x.pos) s').2 =
          (Engine.consume A xs (({ e₂ with fold := fold, skips := k₂ }).advance x.block.number
            x.block.hash x.pos) s').2 ∧
          Sim D (Engine.consume A xs (({ e₁ with fold := fold, skips := k₁ }).advance
            x.block.number x.block.hash x.pos) s').1
          (Engine.consume A xs (({ e₂ with fold := fold, skips := k₂ }).advance x.block.number
            x.block.hash x.pos) s').1 := by
        intro fold k₁ k₂ s'
        have hsim : Sim D { e₁ with fold := fold, skips := k₁ }
            { e₂ with fold := fold, skips := k₂ } := h.of_eq rfl h.status rfl rfl rfl rfl
        refine Sim.consume A s' (hsim.advance rfl hle x.block.hash) ?_
        rw [cursor_advance]
        exact hx.tail
      rw [Engine.consume, Engine.consume, h.fold]
      rcases A.apply e₂.fold x.pos x.event with ⟨fold, err | _⟩
      · cases err with
        | skip _ => exact hrun fold _ _ _
        | halt _ => exact ⟨rfl, h.of_eq rfl rfl rfl rfl rfl rfl⟩
        | poison _ => exact ⟨rfl, h.of_eq rfl rfl rfl rfl rfl rfl⟩
      · exact hrun fold _ _ _

variable (A : Fold σ E ε)

theorem Sim.applySpan (h : Sim D e₁ e₂) {span : SpanView E}
    (hlen : span.logIndices.length = span.events.length)
    (hsorted : span.logIndices.Pairwise (· < ·)) (s : ApplySummary) :
    (applySpan A e₁ span s).2 = (applySpan A e₂ span s).2 ∧
      Sim D (applySpan A e₁ span s).1 (applySpan A e₂ span s).1 := by
  rw [applySpan_eq A e₁ hlen, applySpan_eq A e₂ hlen, ← h.cursor]
  refine Sim.consume A _ h ?_
  rw [drop_dedupCount hlen hsorted]
  exact After.filter (sorted_chainEvents hlen hsorted)

theorem Sim.applySpans : ∀ {spans : List (SpanView E)} {e₁ e₂ : Engine σ} (s : ApplySummary),
    Sim D e₁ e₂ → (∀ span ∈ spans, span.logIndices.length = span.events.length) →
    Batch.ValidSpans spans → (∀ n ∈ spanChecks A spans e₁ s, n ∉ D) →
    (applySpans A spans e₁ s).2 = (applySpans A spans e₂ s).2 ∧
      Sim D (applySpans A spans e₁ s).1 (applySpans A spans e₂ s).1
  | [], _, _, _, h, _, _, _ => ⟨rfl, h.of_eq h.fold rfl rfl rfl rfl rfl⟩
  | span :: spans, e₁, e₂, s, h, hlen, hv, hD => by
      rw [spanChecks] at hD
      have hobs : e₁.observedHash span = e₂.observedHash span := by
        unfold observedHash
        rw [← h.cursor]
        split_ifs with hr
        · refine h.hashAt (hD _ (List.mem_append_left _ ?_))
          rw [if_pos hr]
          exact List.mem_singleton_self _
        · rfl
      rw [Engine.applySpans, Engine.applySpans, ← hobs]
      cases hf : (e₁.observedHash span).filter (fun x => !decide (x = span.hash)) with
      | some hash => exact ⟨rfl, h.of_eq h.fold rfl rfl rfl rfl rfl⟩
      | none =>
          obtain ⟨hres, hsim⟩ := h.applySpan A (hlen span List.mem_cons_self)
            (hv.sorted span List.mem_cons_self) s
          rw [hf] at hD
          rcases h₁ : Engine.applySpan A e₁ span s with ⟨e₁', r₁⟩
          rcases h₂ : Engine.applySpan A e₂ span s with ⟨e₂', r₂⟩
          rw [h₁, h₂] at hres hsim
          dsimp only at hres hsim
          subst hres
          cases r₁ with
          | error err => exact ⟨rfl, hsim⟩
          | ok s' =>
              refine Sim.applySpans s' hsim (fun sp hsp => hlen sp (List.mem_cons_of_mem _ hsp))
                hv.tail ?_
              intro n hn
              refine hD n (List.mem_append_right _ ?_)
              rw [h₁]
              exact hn

theorem Sim.checkBoundary (h : Sim D e₁ e₂) (boundary : Option BlockRef) :
    (e₁.checkBoundary boundary : Except (ApplyError ε) _) = e₂.checkBoundary boundary := by
  unfold Engine.checkBoundary
  rw [h.cursor]
  cases hc : e₂.cursor with
  | none => rfl
  | some c => simp only [h.hashAt_cursor hc]

/-- **Engines that answer alike stay so** over a batch whose fork checks look at no older
entry. -/
theorem Sim.applyBatch (h : Sim D e₁ e₂) (b : Batch E)
    (hD : ∀ n ∈ forkChecks A e₁ b, n ∉ D) :
    (e₁.applyBatch A b).2 = (e₂.applyBatch A b).2 ∧
      Sim D (e₁.applyBatch A b).1 (e₂.applyBatch A b).1 := by
  unfold Engine.applyBatch
  unfold forkChecks at hD
  rw [← h.status]
  split_ifs with ha
  · rw [if_pos ha] at hD
    cases hv : b.validate with
    | error err => exact ⟨rfl, h⟩
    | ok u =>
        cases u
        rw [hv] at hD
        dsimp only at hD ⊢
        rw [← h.checkBoundary]
        cases hb : (e₁.checkBoundary b.boundary : Except (ApplyError ε) _) with
        | error err => exact ⟨rfl, h⟩
        | ok verified =>
            rw [hb] at hD
            refine Sim.applySpans A _ (h.of_eq h.fold ?_ rfl rfl rfl rfl)
              (fun s hs => Batch.length_eq_of_mem_spans hs) (b.validate_ok_iff.mp hv) hD
            dsimp only
            rw [h.cursor]
  · exact ⟨rfl, h⟩

/-! ### Sequences of batches -/

/-- The results of a sequence of batches, each with the state and the cursor it leaves. -/
def applyAll (e : Engine σ) :
    List (Batch E) → List (Except (ApplyError ε) ApplySummary × σ × Cursor)
  | [] => []
  | b :: bs => ((e.applyBatch A b).2, (e.applyBatch A b).1.fold, (e.applyBatch A b).1.cursor) ::
      applyAll (e.applyBatch A b).1 bs

/-- The engine after a sequence of batches. -/
def after (e : Engine σ) (bs : List (Batch E)) : Engine σ :=
  bs.foldl (fun e b => (e.applyBatch A b).1) e

/-- The blocks that the fork checks look at along a sequence of batches. -/
def forkChecksAll (e : Engine σ) : List (Batch E) → List ℕ
  | [] => []
  | b :: bs => forkChecks A e b ++ forkChecksAll (e.applyBatch A b).1 bs

theorem Sim.applyAll : ∀ (bs : List (Batch E)) {e₁ e₂ : Engine σ}, Sim D e₁ e₂ →
    (∀ n ∈ forkChecksAll A e₁ bs, n ∉ D) → e₁.applyAll A bs = e₂.applyAll A bs
  | [], _, _, _, _ => rfl
  | b :: bs, e₁, e₂, h, hD => by
      rw [forkChecksAll] at hD
      obtain ⟨hres, hsim⟩ := h.applyBatch A b fun n hn => hD n (List.mem_append_left _ hn)
      rw [Engine.applyAll, Engine.applyAll, hres, hsim.fold, hsim.cursor,
        Sim.applyAll bs hsim fun n hn => hD n (List.mem_append_right _ hn)]

end Engine

end Works.Chainfold
