import Works.Lib.Prog

/-! # Programs that are cut short

A program of queries runs against a state: `exec q s r s'` says that the query `q` may be
answered with `r` and lead from `s` to `s'`.  A run may be cut short before any query and at the
end, so what a program does is told by the states it passes through as much as by its result
(`Reaches`).  `Ensures` is the triple for this: an invariant of all the states in which the run
may be cut, and a postcondition. -/

namespace Works.Lib

namespace Prog

variable {Q : Type} {R : Q → Type} {σ α β : Type}

/-- The program, started in one state, is in another: it has returned, or it is cut short. -/
inductive Reaches (exec : (q : Q) → σ → R q → σ → Prop) :
    Prog Q R α → σ → Option α → σ → Prop
  | cut (p : Prog Q R α) (s : σ) : Reaches exec p s none s
  | ret (a : α) (s : σ) : Reaches exec (ret a) s (some a) s
  | ask {q : Q} {k : R q → Prog Q R α} {s s' s'' : σ} {r : R q} {o : Option α}
      (h : exec q s r s') (hk : Reaches exec (k r) s' o s'') : Reaches exec (ask q k) s o s''

/-- Wherever the program is cut short `I` holds, and `post` when it returns. -/
def Ensures (exec : (q : Q) → σ → R q → σ → Prop) (p : Prog Q R α) (s : σ) (I : σ → Prop)
    (post : α → σ → Prop) : Prop :=
  (∀ s', Reaches exec p s none s' → I s') ∧ ∀ a s', Reaches exec p s (some a) s' → post a s'

variable {exec : (q : Q) → σ → R q → σ → Prop} {I J : σ → Prop} {s : σ}

theorem Ensures.start {p : Prog Q R α} {post : α → σ → Prop} (h : Ensures exec p s I post) : I s :=
  h.1 s (.cut p s)

theorem ensures_ret {a : α} {post : α → σ → Prop} (hI : I s) (hpost : post a s) :
    Ensures exec (ret a) s I post := by
  constructor
  · intro s' h
    cases h
    exact hI
  · intro b s' h
    cases h
    exact hpost

theorem ensures_ask {q : Q} {k : R q → Prog Q R α} {post : α → σ → Prop} (hI : I s)
    (hk : ∀ r s', exec q s r s' → Ensures exec (k r) s' I post) :
    Ensures exec (ask q k) s I post := by
  constructor
  · intro s' h
    cases h with
    | cut => exact hI
    | ask hq h => exact (hk _ _ hq).1 _ h
  · intro a s' h
    cases h with
    | ask hq h => exact (hk _ _ hq).2 _ _ h

theorem Ensures.of_ask {q : Q} {k : R q → Prog Q R α} {post : α → σ → Prop}
    (h : Ensures exec (ask q k) s I post) {r : R q} {s' : σ} (hq : exec q s r s') :
    Ensures exec (k r) s' I post :=
  ⟨fun s'' hk => h.1 s'' (.ask hq hk), fun a s'' hk => h.2 a s'' (.ask hq hk)⟩

theorem Ensures.of_ret {a : α} {post : α → σ → Prop} (h : Ensures exec (ret a) s I post) :
    post a s :=
  h.2 a s (.ret a s)

theorem Ensures.mono {p : Prog Q R α} {post post' : α → σ → Prop} (h : Ensures exec p s I post)
    (hI : ∀ s', I s' → J s') (hpost : ∀ a s', post a s' → post' a s') :
    Ensures exec p s J post' :=
  ⟨fun s' hr => hI s' (h.1 s' hr), fun a s' hr => hpost a s' (h.2 a s' hr)⟩

/-- One program after another. -/
theorem Ensures.bind {p : Prog Q R α} {f : α → Prog Q R β} {post : β → σ → Prop}
    (h : Ensures exec p s I fun a s' => Ensures exec (f a) s' I post) :
    Ensures exec (p >>= f) s I post := by
  show Ensures exec (Prog.bind p f) s I post
  induction p generalizing s with
  | ret a => exact h.of_ret
  | ask q k ih => exact ensures_ask h.start fun r s' hq => ih r (h.of_ask hq)

/-- When every query has an answer, the program has a run to its end. -/
theorem exists_reaches (hexec : ∀ q s, ∃ r s', exec q s r s') (p : Prog Q R α) (s : σ) :
    ∃ a s', Reaches exec p s (some a) s' := by
  induction p generalizing s with
  | ret a => exact ⟨a, s, .ret a s⟩
  | ask q k ih =>
      obtain ⟨r, s', hq⟩ := hexec q s
      obtain ⟨a, s'', hk⟩ := ih r s'
      exact ⟨a, s'', .ask hq hk⟩

/-- The program comes to its end, and `post` holds then. -/
def Ends (exec : (q : Q) → σ → R q → σ → Prop) (p : Prog Q R α) (s : σ)
    (post : α → σ → Prop) : Prop :=
  (∃ a s', Reaches exec p s (some a) s') ∧ ∀ a s', Reaches exec p s (some a) s' → post a s'

theorem Ensures.ends {p : Prog Q R α} {post : α → σ → Prop} (h : Ensures exec p s I post)
    (hexec : ∀ q s, ∃ r s', exec q s r s') : Ends exec p s post :=
  ⟨exists_reaches hexec p s, h.2⟩

theorem Ends.mono {p : Prog Q R α} {post post' : α → σ → Prop} (h : Ends exec p s post)
    (hpost : ∀ a s', post a s' → post' a s') : Ends exec p s post' :=
  ⟨h.1, fun a s' hr => hpost a s' (h.2 a s' hr)⟩

/-- A program that ends has a result that satisfies `post`. -/
theorem Ends.exists {p : Prog Q R α} {post : α → σ → Prop} (h : Ends exec p s post) :
    ∃ a s', Reaches exec p s (some a) s' ∧ post a s' := by
  obtain ⟨⟨a, s', hr⟩, hall⟩ := h
  exact ⟨a, s', hr, hall a s' hr⟩

/-- Runs the program against a function, for so many queries. -/
def runFor (respond : (q : Q) → σ → R q × σ) : ℕ → Prog Q R α → σ → Option α × σ
  | _, ret a, s => (some a, s)
  | 0, ask _ _, s => (none, s)
  | n + 1, ask q k, s => runFor respond n (k (respond q s).1) (respond q s).2

theorem reaches_runFor {respond : (q : Q) → σ → R q × σ}
    (hexec : ∀ q s, exec q s (respond q s).1 (respond q s).2) (n : ℕ) (p : Prog Q R α) (s : σ) :
    Reaches exec p s (runFor respond n p s).1 (runFor respond n p s).2 := by
  induction n generalizing p s with
  | zero =>
      cases p with
      | ret a => exact .ret a s
      | ask q k => exact .cut _ s
  | succ n ih =>
      cases p with
      | ret a => exact .ret a s
      | ask q k => exact .ask (hexec q s) (ih _ _)

end Prog

end Works.Lib
