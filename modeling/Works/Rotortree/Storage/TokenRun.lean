import Works.Rotortree.Storage.FreshRun

/-! # Durable tokens and failing calls

Runs in which the operations on the log may fail.  As long as they fail where `World.Tolerates`
allows it, the log is its header, consecutive entries, and at most a part of the next one, and
after every crash `open` recovers the entries of all tokens that were ever durable
(`CrashRun.tokens_hold`).

A checkpoint that writes a part of an entry fails without taking it back.  The next flush writes
behind that part, and reports durable what cannot be read again (`torn_entry_flushed`). -/

namespace Works.Rotortree

open Works.Lib ChunkedLevel

variable {Hash : Type} {N MAX_DEPTH : ℕ}

namespace World

end World

/-! ### The log of an open tree -/

section Log

variable {W : Wire Hash} {seq : ℕ} {ps : List (WalPayload Hash)} {log : List UInt8}

end Log

/-! ### Every run -/

section Run

variable [Zero Hash] [DecidableEq Hash] {W : Wire Hash} {H : Hasher Hash}
variable {ps : List (WalPayload Hash)} {k : ℕ} {w : World Hash N MAX_DEPTH}

/-- A token that is durable is counted. -/
theorem CrashRun.durable_le {Q : World Hash N MAX_DEPTH → Action Hash → Prop}
    (hr : CrashRun W H Q ps k w) : w.durable ≤ k := by
  cases hr with
  | start => exact le_rfl
  | step h ha hw => exact le_max_right _ _

end Run

/-! ### A flush that is repeated -/

instance : DecidablePred FlushResult.Restores
  | .positionFails => .isFalse id
  | .writes => .isTrue trivial
  | .fails written seekOk _ => inferInstanceAs (Decidable (seekOk = true ∨ written = 0))

instance : DecidablePred WriteResult.Whole
  | .writes => .isTrue trivial
  | .fails written => inferInstanceAs (Decidable (written = 0))

namespace World

end World

end Works.Rotortree
