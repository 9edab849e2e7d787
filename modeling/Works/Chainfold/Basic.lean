import Mathlib.Tactic

/-! # Positions, blocks and errors

The small types of `position.rs`, `error.rs` and `fold.rs`.  Block numbers and log indices are
natural numbers; where the width of a word matters (saturating additions, encodings) the
definition that needs it says so.  A cursor is an optional position, and as in the source no
position stands before every position. -/

namespace Works.Chainfold

/-- `u64::MAX`. -/
def U64_MAX : ℕ := 2 ^ 64 - 1

/-- `[u8; 32]`, a block hash. -/
abbrev Hash := Vector UInt8 32

/-- `Position`: a block number and the index of a log in the block. -/
structure Position where
  block : ℕ
  logIndex : ℕ
deriving DecidableEq, Repr

namespace Position

instance : LE Position where
  le p q := p.block < q.block ∨ (p.block = q.block ∧ p.logIndex ≤ q.logIndex)

instance : LT Position where
  lt p q := p.block < q.block ∨ (p.block = q.block ∧ p.logIndex < q.logIndex)

theorem le_def {p q : Position} :
    p ≤ q ↔ p.block < q.block ∨ (p.block = q.block ∧ p.logIndex ≤ q.logIndex) := Iff.rfl

theorem lt_def {p q : Position} :
    p < q ↔ p.block < q.block ∨ (p.block = q.block ∧ p.logIndex < q.logIndex) := Iff.rfl

instance (p q : Position) : Decidable (p ≤ q) := decidable_of_iff _ le_def.symm

instance (p q : Position) : Decidable (p < q) := decidable_of_iff _ lt_def.symm

instance : LinearOrder Position where
  le_refl p := by simp [le_def]
  le_trans p q r hpq hqr := by
    simp only [le_def] at *
    omega
  lt_iff_le_not_ge p q := by
    simp only [le_def, lt_def]
    omega
  le_antisymm p q hpq hqp := by
    cases p
    cases q
    simp only [le_def, mk.injEq] at *
    omega
  le_total p q := by
    simp only [le_def]
    omega
  toDecidableLE := inferInstance
  toDecidableEq := inferInstance
  toDecidableLT := inferInstance

theorem block_le {p q : Position} (h : p ≤ q) : p.block ≤ q.block := by
  rw [le_def] at h
  omega

end Position

/-! ### Cursors -/

/-- `Option<Position>`, ordered with `None` first. -/
abbrev Cursor := Option Position

namespace Cursor

instance decidableLE : ∀ a b : Cursor, Decidable (a ≤ b)
  | none, _ => isTrue Option.none_le
  | some _, none => isFalse Option.not_some_le_none
  | some _, some _ => decidable_of_iff _ Option.some_le_some.symm

instance decidableLT : ∀ a b : Cursor, Decidable (a < b)
  | _, none => isFalse Option.not_lt_none
  | none, some _ => isTrue Option.none_lt_some
  | some _, some _ => decidable_of_iff _ Option.some_lt_some.symm

instance : LinearOrder Cursor where
  le_refl a := by cases a <;> simp
  le_trans a b c hab hbc := by
    cases a with
    | none => exact Option.none_le
    | some p =>
        cases b with
        | none => simp at hab
        | some q =>
            cases c with
            | none => simp at hbc
            | some r =>
                have hpr := le_trans (Option.some_le_some.mp hab) (Option.some_le_some.mp hbc)
                exact Option.some_le_some.mpr hpr
  lt_iff_le_not_ge a b := by
    cases a with
    | none => cases b <;> simp
    | some p => cases b with
        | none => simp
        | some q => simpa using le_of_lt
  le_antisymm a b hab hba := by
    cases a with
    | none => cases b with
        | none => rfl
        | some q => simp at hba
    | some p => cases b with
        | none => simp at hab
        | some q => rw [le_antisymm (Option.some_le_some.mp hab) (Option.some_le_some.mp hba)]
  le_total a b := by
    cases a <;> cases b <;> simp [le_total]
  min a b := if a ≤ b then a else b
  max a b := if a ≤ b then b else a
  min_def _ _ := rfl
  max_def _ _ := rfl
  compare a b := compareOfLessAndEq a b
  compare_eq_compareOfLessAndEq _ _ := rfl
  toDecidableLE := decidableLE
  toDecidableEq := inferInstance
  toDecidableLT := decidableLT

/-- The block of the cursor. -/
def block (c : Cursor) : Option ℕ := Option.map Position.block c

@[simp] theorem block_none : block none = none := rfl

@[simp] theorem block_some (p : Position) : block (some p) = some p.block := rfl

end Cursor

/-- `BlockRef`: a block by its number and its hash. -/
structure BlockRef where
  number : ℕ
  hash : Hash
deriving DecidableEq, Repr

/-! ### Folds -/

/-- `FoldError`. -/
inductive FoldError (ε : Type) where
  | skip (error : ε)
  | halt (error : ε)
  | poison (error : ε)
deriving DecidableEq, Repr

/-- A consumer of events: `Fold::apply`, with the state it leaves. -/
structure Fold (σ E ε : Type) where
  apply : σ → Position → E → σ × Except (FoldError ε) Unit

/-! ### Errors and status -/

/-- `DivergenceCause`. -/
inductive DivergenceCause where
  | horizonExceeded (needed horizon : ℕ)
deriving DecidableEq, Repr

/-- `EngineStatus`. -/
inductive EngineStatus where
  | active
  | halted (at_ : Position)
  | poisoned (at_ : Position)
  | unrecoverable (cause : DivergenceCause)
deriving DecidableEq, Repr

/-- `EngineStatus::is_active`. -/
def EngineStatus.isActive : EngineStatus → Bool
  | active => true
  | _ => false

theorem EngineStatus.isActive_iff {s : EngineStatus} : s.isActive = true ↔ s = active := by
  cases s <;> simp [isActive]

/-- `ConfigError`. -/
inductive ConfigError where
  | ringCapacityNotPowerOfTwo (got : ℕ)
  | ringCapacityOutOfRange (got : ℕ)
  | checkpointSlotsOutOfRange (got : ℕ)
  | horizonExceedsStart (start horizon : ℕ)
deriving DecidableEq, Repr

/-- `BatchShapeError`. -/
inductive BatchShapeError where
  | spanEmpty (span : ℕ)
  | blocksNotAscending (span : ℕ)
  | logIndexNotAscending (span index : ℕ)
deriving DecidableEq, Repr

/-- `ApplyError`. -/
inductive ApplyError (ε : Type) where
  | notActive (status : EngineStatus)
  | shape (error : BatchShapeError)
  | missingBoundary
  | boundaryNumberMismatch (expected got : ℕ)
  | forkSuspected (observed refetched : BlockRef)
  | cursorBlockUnobserved (block : ℕ)
  | halted (at_ : Position) (error : ε)
  | poisoned (at_ : Position) (error : ε)
deriving DecidableEq, Repr

/-- `RollbackError`. -/
inductive RollbackError where
  | noCheckpointAtOrBelow (block : ℕ)
  | unrecoverable (cause : DivergenceCause)
deriving DecidableEq, Repr

end Works.Chainfold
