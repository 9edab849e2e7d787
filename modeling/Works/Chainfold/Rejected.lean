import Works.Chainfold.EngineRun

/-! # Batches that are refused

A fork may show at any span of a batch, after earlier spans have been through the loop that
folds events.  These spans have folded nothing: block numbers ascend, so once a span moves the
cursor no later span is at or below it, and nothing above the cursor is compared.  A batch that
is refused therefore leaves the engine as it was, up to the boundary it confirmed. -/

namespace Works.Chainfold

variable {σ E ε : Type}

/-- The batch is refused; the fold did not stop on an event of it. -/
def ApplyError.Refuses : ApplyError ε → Prop
  | .halted .. | .poisoned .. => False
  | _ => True

namespace Engine

variable (A : Fold σ E ε) {e e' : Engine σ} {s s' : ApplySummary} {err : ApplyError ε}

/-- A span that goes through leaves the engine alone or moves the cursor into its block. -/
theorem applySpan_ok {span : SpanView E} (h : applySpan A e span s = (e', .ok s')) :
    e' = e ∨ Cursor.block e'.cursor = some span.number := by
  unfold applySpan at h
  dsimp only at h
  cases hlast : (span.logIndices.drop (dedupCount e.cursor span)).getLast? with
  | none =>
      simp only [hlast, Prod.mk.injEq] at h
      exact .inl h.1.symm
  | some last =>
      simp only [hlast] at h
      split at h
      · simp only [Prod.mk.injEq] at h
        refine .inr ?_
        rw [← h.1, cursor_advance]
        rfl
      · simp at h

theorem applySpan_error {span : SpanView E} (hlen : span.logIndices.length = span.events.length)
    (h : applySpan A e span s = (e', .error err)) : ¬ err.Refuses := by
  rw [applySpan_eq A e hlen] at h
  obtain ⟨pos, error, ⟨rfl, -⟩ | ⟨rfl, -⟩⟩ := consume_error A h
  · exact id
  · exact id

/-- Above the cursor no fork shows. -/
theorem applySpans_above : ∀ {spans : List (SpanView E)} {e : Engine σ} {s : ApplySummary},
    (∀ span ∈ spans, span.logIndices.length = span.events.length) → Batch.ValidSpans spans →
    (∀ span ∈ spans, ∀ c, e.cursor = some c → c.block < span.number) →
    applySpans A spans e s = (e', .error err) → ¬ err.Refuses
  | [], _, _, _, _, _, h => by simp [applySpans] at h
  | span :: spans, e, s, hlen, hv, habove, h => by
      have hnone : e.observedHash span = none := by
        unfold observedHash
        cases hc : e.cursor with
        | none => simp
        | some c =>
            have := habove span List.mem_cons_self c hc
            simp [this]
      rw [applySpans, hnone] at h
      simp only [Option.filter_none] at h
      cases hap : applySpan A e span s with
      | mk e₁ r =>
          rw [hap] at h
          cases r with
          | error err₁ =>
              simp only [Prod.mk.injEq, Except.error.injEq] at h
              rw [← h.2]
              exact applySpan_error A (hlen span List.mem_cons_self) hap
          | ok s₁ =>
              refine applySpans_above (fun sp hsp => hlen sp (List.mem_cons_of_mem _ hsp)) hv.tail
                (fun sp hsp c hc => ?_) h
              cases applySpan_ok A hap with
              | inl heq => exact habove sp (List.mem_cons_of_mem _ hsp) c (heq ▸ hc)
              | inr hblock =>
                  rw [hc, Cursor.block_some, Option.some.injEq] at hblock
                  rw [hblock]
                  exact List.rel_of_pairwise_cons hv.ascending hsp

/-- A fork shows before anything is folded. -/
theorem applySpans_refused : ∀ {spans : List (SpanView E)} {e : Engine σ} {s : ApplySummary},
    (∀ span ∈ spans, span.logIndices.length = span.events.length) → Batch.ValidSpans spans →
    applySpans A spans e s = (e', .error err) → err.Refuses → e' = { e with status := .active }
  | [], _, _, _, _, h, _ => by simp [applySpans] at h
  | span :: spans, e, s, hlen, hv, h, href => by
      rw [applySpans] at h
      cases hf : (e.observedHash span).filter (fun x => !decide (x = span.hash)) with
      | some hash =>
          simp only [hf, Prod.mk.injEq] at h
          exact h.1.symm
      | none =>
          rw [hf] at h
          have hlen' := fun sp hsp => hlen sp (List.mem_cons_of_mem span hsp)
          cases hap : applySpan A e span s with
          | mk e₁ r =>
              simp only [hap] at h
              cases r with
              | error err₁ =>
                  simp only [Prod.mk.injEq, Except.error.injEq] at h
                  rw [← h.2] at href
                  exact absurd href (applySpan_error A (hlen span List.mem_cons_self) hap)
              | ok s₁ =>
                  cases applySpan_ok A hap with
                  | inl heq =>
                      rw [heq] at h
                      exact applySpans_refused hlen' hv.tail h href
                  | inr hblock =>
                      refine absurd href (applySpans_above A hlen' hv.tail (fun sp hsp c hc => ?_) h)
                      rw [hc, Cursor.block_some, Option.some.injEq] at hblock
                      rw [hblock]
                      exact List.rel_of_pairwise_cons hv.ascending hsp

/-- The boundary that the check confirms. -/
theorem checkBoundary_ok {boundary verified : Option BlockRef}
    (h : (e.checkBoundary boundary : Except (ApplyError ε) _) = .ok verified) :
    verified = none ∨ ∃ c b, e.cursor = some c ∧ boundary = some b ∧ b.number = c.block ∧
      e.ring.hashAt c.block = some b.hash ∧ verified = some b := by
  unfold checkBoundary at h
  cases hc : e.cursor with
  | none =>
      simp only [hc, Except.ok.injEq] at h
      exact .inl h.symm
  | some c =>
      cases boundary with
      | none => simp [hc] at h
      | some b =>
          simp only [hc] at h
          split_ifs at h with hnumber
          cases hhash : e.ring.hashAt c.block with
          | none => simp [hhash] at h
          | some hash =>
              simp only [hhash] at h
              split_ifs at h with hne
              simp only [Except.ok.injEq] at h
              exact .inr ⟨c, b, rfl, rfl, not_not.mp hnumber, by rw [hhash, not_not.mp hne],
                h.symm⟩

end Engine

open Engine

/-- **All or nothing.**  A batch that is refused changes nothing but the block that is last
verified, and that only to a boundary that agrees with the ring at the cursor. -/
theorem refused_batch_changes_nothing (A : Fold σ E ε) {e e' : Engine σ} {batch : Batch E}
    {err : ApplyError ε} (h : e.applyBatch A batch = (e', .error err)) (href : err.Refuses) :
    e' = { e with lastVerified := e'.lastVerified } ∧
      (e'.lastVerified = e.lastVerified ∨ ∃ c b, e.cursor = some c ∧ batch.boundary = some b ∧
        b.number = c.block ∧ e.ring.hashAt c.block = some b.hash ∧ e'.lastVerified = some b) := by
  unfold applyBatch at h
  split_ifs at h with hactive
  · have hstatus := EngineStatus.isActive_iff.mp hactive
    cases hv : batch.validate with
    | error err' =>
        simp only [hv, Prod.mk.injEq] at h
        exact ⟨by rw [← h.1], .inl (by rw [h.1])⟩
    | ok u =>
        simp only [hv] at h
        cases hb : (e.checkBoundary batch.boundary : Except (ApplyError ε) _) with
        | error err' =>
            simp only [hb, Prod.mk.injEq] at h
            exact ⟨by rw [← h.1], .inl (by rw [h.1])⟩
        | ok verified =>
            simp only [hb] at h
            have heq := applySpans_refused A (fun s hs => Batch.length_eq_of_mem_spans hs)
              (batch.validate_ok_iff.mp hv) h href
            refine ⟨by rw [heq, ← hstatus], ?_⟩
            rw [heq]
            cases checkBoundary_ok hb with
            | inl hnone => exact .inl (by rw [hnone]; rfl)
            | inr hsome =>
                obtain ⟨c, b, hc, hbd, hn, hhash, rfl⟩ := hsome
                exact .inr ⟨c, b, hc, hbd, hn, hhash, rfl⟩
  · simp only [Prod.mk.injEq] at h
    exact ⟨by rw [← h.1], .inl (by rw [h.1])⟩

/-- Blocks 1 and 3 again, block 3 with another hash. -/
def forkedBatch : Batch ℕ :=
  ((Batch.new.withBoundary (some (sampleBlock 3))).pushBlock (sampleBlock 1)
    [(0, 10), (2, 11)]).pushBlock ⟨3, (sampleBlock 4).hash⟩ [(1, 12), (2, 13)]

theorem sample_refused :
    (((sampleEngine.applyBatch recordingFold sampleBatch).1.applyBatch recordingFold
      forkedBatch).1.fold = (sampleEngine.applyBatch recordingFold sampleBatch).1.fold) := by
  have herr : (((sampleEngine.applyBatch recordingFold sampleBatch).1.applyBatch recordingFold
      forkedBatch).2) = .error (forkSuspected 3 (sampleBlock 3).hash
        ⟨3, (sampleBlock 4).hash⟩) := by
    rfl
  have h := (refused_batch_changes_nothing recordingFold (Prod.ext rfl herr) trivial).1
  exact congrArg Engine.fold h

end Works.Chainfold
