import Mathlib.Tactic

/-! # Outcomes of checked programs

A fallible computation either returns a value, returns an error of type `ε`, or panics
(an index out of bounds, an arithmetic overflow, a failed assertion).  `Outcome ε α` is
the pure form; `Exec σ ε α` threads a state `σ` that keeps whatever was written before
the computation stopped, so that "the state is unchanged on error" is a statement and not
a convention. -/

namespace Works.Lib

/-- Why a computation did not return a value. -/
inductive Fault (ε : Type) where
  | err (e : ε)
  | panic
deriving DecidableEq, Repr

/-- The result of a fallible computation. -/
abbrev Outcome (ε α : Type) := Except (Fault ε) α

theorem eq_ok_of_toOption {α error : Type} {x : Except error α} {a : α}
    (h : x.toOption = some a) : x = .ok a := by
  cases x with
  | error err => cases h
  | ok b =>
      cases h
      rfl

namespace Outcome

variable {ε α β : Type}

/-- Return the error `e`. -/
def fail (e : ε) : Outcome ε α := .error (.err e)

/-- Stop with a panic. -/
def panic : Outcome ε α := .error .panic

/-- A value that must be there: panics on `none`. -/
def expect : Option α → Outcome ε α
  | some a => .ok a
  | none => panic

/-- Panics unless `p` holds. -/
def require (p : Prop) [Decidable p] : Outcome ε Unit := if p then .ok () else panic

/-- `map_err`; a panic stays a panic. -/
def mapErr {ε' : Type} (f : ε → ε') : Outcome ε α → Outcome ε' α
  | .ok a => .ok a
  | .error (.err e) => fail (f e)
  | .error .panic => panic

@[simp] theorem ok_bind (a : α) (f : α → Outcome ε β) :
    ((.ok a : Outcome ε α) >>= f) = f a := rfl

@[simp] theorem pure_eq_ok (a : α) : (pure a : Outcome ε α) = .ok a := rfl

@[simp] theorem fail_bind (e : ε) (f : α → Outcome ε β) :
    ((fail e : Outcome ε α) >>= f) = fail e := rfl

@[simp] theorem panic_bind (f : α → Outcome ε β) :
    ((panic : Outcome ε α) >>= f) = panic := rfl

@[simp] theorem expect_some (a : α) : (expect (some a) : Outcome ε α) = .ok a := rfl

@[simp] theorem expect_none : (expect none : Outcome ε α) = panic := rfl

@[simp] theorem mapErr_ok {ε' : Type} (f : ε → ε') (a : α) :
    mapErr f (.ok a : Outcome ε α) = .ok a := rfl

theorem require_pos {p : Prop} [Decidable p] (h : p) : (require p : Outcome ε Unit) = .ok () :=
  if_pos h

/-- A bound computation returns a value exactly through a value of its first part. -/
theorem bind_eq_ok {x : Outcome ε α} {f : α → Outcome ε β} {b : β} :
    x >>= f = .ok b ↔ ∃ a, x = .ok a ∧ f a = .ok b := by
  cases x with
  | error e => simp [bind, Except.bind]
  | ok a => simp

theorem require_eq_ok {p : Prop} [Decidable p] {u : Unit} :
    (require p : Outcome ε Unit) = .ok u ↔ p := by
  unfold require
  split_ifs with h <;> simp [h, panic]

/-- The computation returns, with a value or an error: it does not panic. -/
def Returns (x : Outcome ε α) : Prop := x ≠ panic

@[simp] theorem returns_ok (a : α) : Returns (.ok a : Outcome ε α) := by simp [Returns, panic]

@[simp] theorem returns_fail (e : ε) : Returns (fail e : Outcome ε α) := by
  simp [Returns, panic, fail]

@[simp] theorem not_returns_panic : ¬ Returns (panic : Outcome ε α) := by simp [Returns]

/-- A bound computation returns if its first part does and what follows its value does. -/
theorem returns_bind {x : Outcome ε α} {f : α → Outcome ε β} :
    Returns (x >>= f) ↔ Returns x ∧ ∀ a, x = .ok a → Returns (f a) := by
  cases x with
  | error e =>
      cases e with
      | err e => exact ⟨fun _ => ⟨returns_fail e, fun _ h => nomatch h⟩, fun _ => returns_fail e⟩
      | panic => exact ⟨fun h => absurd h not_returns_panic, fun h => absurd h.1 not_returns_panic⟩
  | ok a => simp

theorem mapM_ok {f : α → Outcome ε β} {g : α → β} (l : List α)
    (h : ∀ a ∈ l, f a = .ok (g a)) : l.mapM f = .ok (l.map g) := by
  induction l with
  | nil => rfl
  | cons a l ih =>
      rw [List.mapM_cons, h a (by simp), ok_bind, ih fun b hb => h b (by simp [hb])]
      rfl

end Outcome

/-- A computation over a state: the state survives errors and panics. -/
def Exec (σ ε α : Type) := σ → Outcome ε α × σ

namespace Exec

variable {σ ε α β : Type}

instance : Monad (Exec σ ε) where
  pure a := fun s => (.ok a, s)
  bind x f := fun s => match x s with
    | (.ok a, s') => f a s'
    | (.error e, s') => (.error e, s')

/-- Read the state. -/
def get : Exec σ ε σ := fun s => (.ok s, s)

/-- Change the state. -/
def modify (f : σ → σ) : Exec σ ε Unit := fun s => (.ok (), f s)

/-- Run a computation that does not touch the state. -/
def lift (x : Outcome ε α) : Exec σ ε α := fun s => (x, s)

/-- Return the error `e`. -/
def fail (e : ε) : Exec σ ε α := lift (Outcome.fail e)

@[simp] theorem pure_apply (a : α) (s : σ) : (pure a : Exec σ ε α) s = (.ok a, s) := rfl

@[simp] theorem get_apply (s : σ) : (get : Exec σ ε σ) s = (.ok s, s) := rfl

@[simp] theorem modify_apply (f : σ → σ) (s : σ) :
    (modify f : Exec σ ε Unit) s = (.ok (), f s) := rfl

@[simp] theorem lift_apply (x : Outcome ε α) (s : σ) : (lift x : Exec σ ε α) s = (x, s) := rfl

@[simp] theorem fail_apply (e : ε) (s : σ) :
    (fail e : Exec σ ε α) s = (Outcome.fail e, s) := rfl

theorem bind_of_ok {x : Exec σ ε α} {f : α → Exec σ ε β} {s s' : σ} {a : α}
    (h : x s = (.ok a, s')) : (x >>= f) s = f a s' := by
  simp only [bind, h]

theorem bind_of_error {x : Exec σ ε α} {f : α → Exec σ ε β} {s s' : σ} {e : Fault ε}
    (h : x s = (.error e, s')) : (x >>= f) s = (.error e, s') := by
  simp only [bind, h]

end Exec

end Works.Lib
