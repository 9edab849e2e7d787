import Mathlib.Tactic

/-! # Condition variables

A thread looks at the state under a lock, and if what it waits for has not come it sleeps at a
condition variable.  Whoever changes the state notifies later, perhaps after the lock is given
back.  No wake-up is lost (`Wakes`) when a change that the sleeper waits for leaves a
notification due. -/

namespace Works.Lib

/-- A thread at a condition variable: asleep, or about to look again. -/
inductive Sleeper where
  | asleep
  | woken
deriving DecidableEq, Repr

/-- `notify_all`. -/
def Sleeper.notify : Sleeper → Sleeper := fun _ => .woken

/-- While the thread sleeps, what it waits for has not come or a notification is due. -/
def Wakes (come due : Prop) (w : Sleeper) : Prop := w = .asleep → come → due

variable {come due come' due' : Prop} {w : Sleeper}

theorem Wakes.woken : Wakes come due .woken := nofun

/-- A thread goes to sleep after a look. -/
theorem Wakes.sleep (h : ¬ come) : Wakes come due .asleep := fun _ hc => absurd hc h

/-- A change that leaves a notification due where it brings what the sleeper waits for. -/
theorem Wakes.change (h : Wakes come due w) (hdue : due → due') (hcome : come' → come ∨ due') :
    Wakes come' due' w := by
  intro hw hc
  rcases hcome hc with hold | hnew
  · exact hdue (h hw hold)
  · exact hnew

end Works.Lib
