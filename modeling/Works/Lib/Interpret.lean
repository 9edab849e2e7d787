import Works.Lib.Outcome
import Works.Lib.Prog

/-! # Programs against one responder

A responder answers a query from a state that it keeps, or stops.  `interpret` runs a program
against it, and what stops the responder stops the program: that the run returns says that no
answer was missing.  `Asks` says what a program asks whatever the answers are, so that a responder
need only be right about those queries. -/

namespace Works.Lib

namespace Prog

variable {Q : Type} {R : Q → Type} {σ ε α β : Type}

/-- Runs the program against the responder. -/
def interpret (respond : (q : Q) → σ → Outcome ε (R q × σ)) :
    Prog Q R α → σ → Outcome ε (α × σ)
  | ret a, s => .ok (a, s)
  | ask q k, s => respond q s >>= fun x => interpret respond (k x.1) x.2

/-- Whatever the answers, the queries are in `P`, and `post` holds of the result. -/
def Asks (P : Q → Prop) (post : α → Prop) : Prog Q R α → Prop
  | ret a => post a
  | ask q k => P q ∧ ∀ r, Asks P post (k r)

/-! ### What a program asks -/

section Asks

variable {P : Q → Prop} {post : α → Prop} {p : Prog Q R α}

@[simp] theorem asks_pure {a : α} : Asks P post (pure a : Prog Q R α) ↔ post a := Iff.rfl

/-- More queries may be allowed. -/
theorem Asks.allow {P' : Q → Prop} (h : Asks P post p) (hP : ∀ q, P q → P' q) :
    Asks P' post p := by
  induction p with
  | ret a => exact h
  | ask q k ih =>
      obtain ⟨hq, hk⟩ := h
      exact ⟨hP q hq, fun r => ih r (hk r)⟩

theorem Asks.mono {post' : α → Prop} (h : Asks P post p) (hpost : ∀ a, post a → post' a) :
    Asks P post' p := by
  induction p with
  | ret a => exact hpost a h
  | ask q k ih =>
      obtain ⟨hq, hk⟩ := h
      exact ⟨hq, fun r => ih r (hk r)⟩

/-- One program after another. -/
theorem Asks.bind {f : α → Prog Q R β} {post : β → Prop}
    (h : Asks P (fun a => Asks P post (f a)) p) : Asks P post (p >>= f) := by
  show Asks P post (Prog.bind p f)
  induction p with
  | ret a => exact h
  | ask q k ih =>
      obtain ⟨hq, hk⟩ := h
      exact ⟨hq, fun r => ih r (hk r)⟩

/-- A single query and what follows. -/
theorem asks_query_bind {q : Q} {f : R q → Prog Q R β} {post : β → Prop} (hq : P q)
    (hf : ∀ r, Asks P post (f r)) : Asks P post (query q >>= f) :=
  ⟨hq, hf⟩

/-- What holds of every result may be added to the postcondition. -/
theorem Asks.and_runs {post' : α → Prop} (h : Asks P post p)
    (hruns : ∀ τ a, Runs p τ a → post' a) : Asks P (fun a => post a ∧ post' a) p := by
  induction p with
  | ret a => exact ⟨h, hruns [] a (.ret a)⟩
  | ask q k ih =>
      obtain ⟨hq, hk⟩ := h
      exact ⟨hq, fun r => ih r (hk r) fun τ a hr => hruns _ a (.ask r hr)⟩

end Asks

/-! ### Runs against a responder -/

section Interpret

variable {respond : (q : Q) → σ → Outcome ε (R q × σ)} {I : σ → Prop} {p : Prog Q R α} {s s' : σ}
  {a : α}

theorem interpret_ask {q : Q} {k : R q → Prog Q R α} {r : R q} (h : respond q s = .ok (r, s')) :
    interpret respond (ask q k) s = interpret respond (k r) s' := by
  rw [interpret, h, Outcome.ok_bind]

/-- A program returns when every query is answered in every state that the answers lead to. -/
theorem exists_interpret (hrespond : ∀ q s, I s → ∃ r s', respond q s = .ok (r, s') ∧ I s')
    (hs : I s) : ∃ a s', interpret respond p s = .ok (a, s') ∧ I s' := by
  induction p generalizing s with
  | ret a => exact ⟨a, s, rfl, hs⟩
  | ask q k ih =>
      obtain ⟨r, s₁, h, hs₁⟩ := hrespond q s hs
      rw [interpret_ask h]
      exact ih r hs₁

/-- The transcript of a run, with what is known of the answers to the queries that are asked. -/
theorem exists_runs_of_interpret {P : Q → Prop} {post : α → Prop} {T : Exchange R → Prop}
    (hasks : Asks P post p)
    (hrespond : ∀ q s r s', P q → I s → respond q s = .ok (r, s') → T ⟨q, r⟩ ∧ I s')
    (hs : I s) (h : interpret respond p s = .ok (a, s')) :
    ∃ τ, Runs p τ a ∧ (∀ x ∈ τ, T x) ∧ I s' ∧ post a := by
  induction p generalizing s with
  | ret a' =>
      cases h
      exact ⟨[], .ret a, by simp, hs, hasks⟩
  | ask q k ih =>
      obtain ⟨hq, hk⟩ := hasks
      obtain ⟨⟨r, s₁⟩, hr, hrest⟩ := Outcome.bind_eq_ok.mp h
      obtain ⟨hT, hs₁⟩ := hrespond q s r s₁ hq hs hr
      obtain ⟨τ, hrun, hall, hs', hpost⟩ := ih r (hk r) hs₁ hrest
      exact ⟨_, .ask r hrun, List.forall_mem_cons.mpr ⟨hT, hall⟩, hs', hpost⟩

/-- A transcript that the responder gives in every state is that of a run. -/
theorem Runs.interpret {P : Q → Prop} {post : α → Prop} {τ : List (Exchange R)} (h : Runs p τ a)
    (hasks : Asks P post p) (hrespond : ∀ x ∈ τ, P x.query → ∀ s, I s →
      ∃ s', respond x.query s = .ok (x.answer, s') ∧ I s') (hs : I s) :
    ∃ s', interpret respond p s = .ok (a, s') ∧ I s' := by
  induction h generalizing s with
  | ret a => exact ⟨s, rfl, hs⟩
  | @ask q k r τ a _ ih =>
      obtain ⟨hq, hk⟩ := hasks
      obtain ⟨s₁, h₁, hs₁⟩ := hrespond ⟨q, r⟩ List.mem_cons_self hq s hs
      rw [interpret_ask h₁]
      exact ih (hk r) (fun x hx => hrespond x (List.mem_cons_of_mem _ hx)) hs₁

end Interpret

end Prog

end Works.Lib
