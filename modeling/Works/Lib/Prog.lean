import Mathlib.Tactic

/-! # Programs that ask

A program that talks to its surroundings is a tree: it either returns or asks a query and goes
on with the answer.  A run of a program is told by its transcript, the queries in order with the
answers they got; `Runs p τ a` says that `p` returns `a` on the transcript `τ`.  Nothing is
said here about where answers come from, so a statement about all transcripts of some kind is
a statement about every surrounding that answers in that way. -/

namespace Works.Lib

/-- A program with queries in `Q`, answered in `R q`. -/
inductive Prog (Q : Type) (R : Q → Type) (α : Type) where
  | ret (a : α)
  | ask (q : Q) (k : R q → Prog Q R α)

/-- A query with its answer. -/
structure Exchange {Q : Type} (R : Q → Type) where
  query : Q
  answer : R query

namespace Prog

variable {Q : Type} {R : Q → Type} {α β : Type}

/-- One program after another. -/
def bind : Prog Q R α → (α → Prog Q R β) → Prog Q R β
  | ret a, f => f a
  | ask q k, f => ask q fun r => bind (k r) f

instance : Monad (Prog Q R) where
  pure := ret
  bind := bind

theorem bind_assoc {γ : Type} (p : Prog Q R α) (f : α → Prog Q R β) (g : β → Prog Q R γ) :
    bind (bind p f) g = bind p fun a => bind (f a) g := by
  induction p with
  | ret a => rfl
  | ask q k ih =>
      simp only [bind]
      congr 1
      funext r
      exact ih r

theorem bind_ret (p : Prog Q R α) : bind p ret = p := by
  induction p with
  | ret a => rfl
  | ask q k ih =>
      simp only [bind]
      congr 1
      funext r
      exact ih r

instance : LawfulMonad (Prog Q R) :=
  LawfulMonad.mk' (Prog Q R) bind_ret (fun _ _ => rfl) bind_assoc

/-- The program that asks once. -/
def query (q : Q) : Prog Q R (R q) := ask q ret

/-! ### Transcripts -/

/-- The program returns `a` on the transcript. -/
inductive Runs : Prog Q R α → List (Exchange R) → α → Prop
  | ret (a : α) : Runs (ret a) [] a
  | ask {q : Q} {k : R q → Prog Q R α} (r : R q) {τ : List (Exchange R)} {a : α}
      (h : Runs (k r) τ a) : Runs (ask q k) (⟨q, r⟩ :: τ) a

@[simp] theorem runs_pure_iff {a b : α} {τ : List (Exchange R)} :
    Runs (pure a : Prog Q R α) τ b ↔ τ = [] ∧ b = a := by
  constructor
  · intro h
    cases h
    exact ⟨rfl, rfl⟩
  · rintro ⟨rfl, rfl⟩
    exact Runs.ret b

theorem runs_ask_iff {q : Q} {k : R q → Prog Q R α} {τ : List (Exchange R)} {a : α} :
    Runs (ask q k) τ a ↔ ∃ r τ', τ = ⟨q, r⟩ :: τ' ∧ Runs (k r) τ' a := by
  constructor
  · intro h
    cases h with
    | ask r h => exact ⟨r, _, rfl, h⟩
  · rintro ⟨r, τ', rfl, h⟩
    exact Runs.ask r h

/-- The transcript of a sequence splits at the first result. -/
theorem runs_bind_iff {p : Prog Q R α} {f : α → Prog Q R β} {τ : List (Exchange R)} {b : β} :
    Runs (p >>= f) τ b ↔ ∃ τ₁ a τ₂, τ = τ₁ ++ τ₂ ∧ Runs p τ₁ a ∧ Runs (f a) τ₂ b := by
  show Runs (bind p f) τ b ↔ _
  induction p generalizing τ with
  | ret a =>
      constructor
      · intro h
        exact ⟨[], a, τ, rfl, Runs.ret a, h⟩
      · rintro ⟨τ₁, a', τ₂, rfl, ha, hf⟩
        cases ha
        exact hf
  | ask q k ih =>
      rw [bind, runs_ask_iff]
      constructor
      · rintro ⟨r, τ', rfl, h⟩
        obtain ⟨τ₁, a, τ₂, rfl, ha, hf⟩ := (ih r).mp h
        exact ⟨⟨q, r⟩ :: τ₁, a, τ₂, rfl, Runs.ask r ha, hf⟩
      · rintro ⟨τ₁, a, τ₂, rfl, ha, hf⟩
        obtain ⟨r, τ', rfl, hk⟩ := runs_ask_iff.mp ha
        exact ⟨r, τ' ++ τ₂, rfl, (ih r).mpr ⟨τ', a, τ₂, rfl, hk, hf⟩⟩

/-- A single query and what follows. -/
theorem runs_query_bind_iff {q : Q} {f : R q → Prog Q R β} {τ : List (Exchange R)} {b : β} :
    Runs (query q >>= f) τ b ↔ ∃ r τ', τ = ⟨q, r⟩ :: τ' ∧ Runs (f r) τ' b := by
  show Runs (bind (ask q ret) f) τ b ↔ _
  rw [bind, runs_ask_iff]
  rfl

/-! ### Annotated transcripts -/

section Annotated

variable {ρ : Type}

/-- The program returns `a` on a transcript whose exchanges carry a note. -/
def RunsOn (p : Prog Q R α) (τ : List (Exchange R × ρ)) (a : α) : Prop :=
  Runs p (τ.map Prod.fst) a

/-- A transcript whose exchanges all carry one note. -/
theorem Runs.on {p : Prog Q R α} {τ : List (Exchange R)} {a : α} (h : Runs p τ a) (note : ρ) :
    RunsOn p (τ.map fun x => (x, note)) a := by
  rw [RunsOn, List.map_map]
  simpa [Function.comp_def] using h

theorem runsOn_pure_iff {a b : α} {τ : List (Exchange R × ρ)} :
    RunsOn (pure a : Prog Q R α) τ b ↔ τ = [] ∧ b = a := by
  rw [RunsOn, runs_pure_iff, List.map_eq_nil_iff]

theorem runsOn_bind_iff {p : Prog Q R α} {f : α → Prog Q R β} {τ : List (Exchange R × ρ)}
    {b : β} : RunsOn (p >>= f) τ b ↔
      ∃ τ₁ a τ₂, τ = τ₁ ++ τ₂ ∧ RunsOn p τ₁ a ∧ RunsOn (f a) τ₂ b := by
  unfold RunsOn
  rw [runs_bind_iff]
  constructor
  · rintro ⟨l₁, a, l₂, hl, hp, hf⟩
    obtain ⟨τ₁, τ₂, rfl, rfl, rfl⟩ := List.map_eq_append_iff.mp hl
    exact ⟨τ₁, a, τ₂, rfl, hp, hf⟩
  · rintro ⟨τ₁, a, τ₂, rfl, hp, hf⟩
    exact ⟨_, a, _, List.map_append, hp, hf⟩

theorem runsOn_query_bind_iff {q : Q} {f : R q → Prog Q R β} {τ : List (Exchange R × ρ)}
    {b : β} : RunsOn (query q >>= f) τ b ↔
      ∃ r note τ', τ = (⟨q, r⟩, note) :: τ' ∧ RunsOn (f r) τ' b := by
  unfold RunsOn
  rw [runs_query_bind_iff]
  constructor
  · rintro ⟨r, l, hl, hf⟩
    obtain ⟨⟨x, note⟩, τ', rfl, hx, rfl⟩ := List.map_eq_cons_iff.mp hl
    dsimp only at hx
    subst hx
    exact ⟨r, note, τ', rfl, hf⟩
  · rintro ⟨r, note, τ', rfl, hf⟩
    exact ⟨r, _, rfl, hf⟩

end Annotated

/-! ### Playing -/

/-- Runs a program against responders, one for each query in turn: the transcript, and the
result unless the responders run out. -/
def play {ρ : Type} (respond : ρ → ∀ q, R q) :
    List ρ → Prog Q R α → List (Exchange R × ρ) × Option α
  | _, ret a => ([], some a)
  | [], ask _ _ => ([], none)
  | x :: xs, ask q k =>
      ((⟨q, respond x q⟩, x) :: (play respond xs (k (respond x q))).1,
        (play respond xs (k (respond x q))).2)

theorem play_ret {ρ : Type} (respond : ρ → ∀ q, R q) (xs : List ρ) (a : α) :
    play respond xs (ret a : Prog Q R α) = ([], some a) := by
  cases xs <;> rfl

/-- What is played is a run, with the answers of the responders. -/
theorem runs_play {ρ : Type} (respond : ρ → ∀ q, R q) : ∀ {p : Prog Q R α} {xs : List ρ} {a : α},
    (play respond xs p).2 = some a →
      RunsOn p (play respond xs p).1 a ∧
      ∀ y ∈ (play respond xs p).1, y.2 ∈ xs ∧ y.1.answer = respond y.2 y.1.query
  | ret a, xs, a', h => by
      rw [play_ret, Option.some.injEq] at h
      subst h
      rw [play_ret]
      exact ⟨Runs.ret a, by simp⟩
  | ask q k, [], a, h => by simp [play] at h
  | ask q k, x :: xs, a, h => by
      obtain ⟨hrun, hall⟩ := runs_play respond (p := k (respond x q)) h
      refine ⟨Runs.ask _ hrun, ?_⟩
      intro y hy
      rcases List.mem_cons.mp hy with rfl | hy
      · exact ⟨List.mem_cons_self, rfl⟩
      · exact ⟨List.mem_cons_of_mem _ (hall y hy).1, (hall y hy).2⟩

/-- Every program has a run against any responder. -/
theorem exists_runs (respond : ∀ q, R q) (p : Prog Q R α) :
    ∃ τ a, Runs p τ a ∧ ∀ x ∈ τ, x.answer = respond x.query := by
  induction p with
  | ret a => exact ⟨[], a, Runs.ret a, by simp⟩
  | ask q k ih =>
      obtain ⟨τ, a, hrun, hall⟩ := ih (respond q)
      exact ⟨_, a, Runs.ask _ hrun, by simpa using hall⟩

end Prog

end Works.Lib
