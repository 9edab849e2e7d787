import Mathlib.Data.List.Basic
import Mathlib.Order.Nat

/-! # Bounded deques

A deque of at most `cap` elements, the oldest first.  A push onto a full deque drops the oldest
element; elements also go by a filter.  Along a deque whose pushes keep a relation to
everything that is there, the relation holds between any two elements, the older first. -/

namespace Works.Lib

/-- A deque of at most `cap` elements. -/
structure BoundedDeque (α : Type) (cap : ℕ) where
  items : List α
  length_le : items.length ≤ cap

namespace BoundedDeque

variable {α : Type} {cap : ℕ} {R : α → α → Prop}

/-- The empty deque. -/
def empty : BoundedDeque α cap := ⟨[], Nat.zero_le _⟩

/-- Adds an element at the end; with no place left the oldest goes. -/
def push (d : BoundedDeque α cap) (a : α) : BoundedDeque α cap where
  items := if d.items.length < cap then d.items ++ [a] else (d.items ++ [a]).tail
  length_le := by
    have := d.length_le
    split_ifs with h
    · rw [List.length_append, List.length_singleton]
      exact h
    · simpa using this

/-- Keeps the elements with a property. -/
def keep (d : BoundedDeque α cap) (p : α → Bool) : BoundedDeque α cap where
  items := d.items.filter p
  length_le := (List.length_filter_le p d.items).trans d.length_le

@[simp] theorem items_empty : (empty : BoundedDeque α cap).items = [] := rfl

@[simp] theorem items_keep (d : BoundedDeque α cap) (p : α → Bool) :
    (d.keep p).items = d.items.filter p := rfl

theorem items_push_of_lt {d : BoundedDeque α cap} (h : d.items.length < cap) (a : α) :
    (d.push a).items = d.items ++ [a] := if_pos h

theorem items_push_of_full {d : BoundedDeque α cap} (h : d.items.length = cap) (a : α) :
    (d.push a).items = (d.items ++ [a]).tail := if_neg h.not_lt

/-- What a push leaves is a part of the deque and the element. -/
theorem items_push_sublist (d : BoundedDeque α cap) (a : α) :
    (d.push a).items.Sublist (d.items ++ [a]) := by
  rw [push]
  dsimp only
  split_ifs
  · exact List.Sublist.refl _
  · exact List.tail_sublist _

theorem pairwise_push {d : BoundedDeque α cap} {a : α} (h : d.items.Pairwise R)
    (ha : ∀ b ∈ d.items, R b a) : (d.push a).items.Pairwise R := by
  apply List.Pairwise.sublist (d.items_push_sublist a)
  rw [List.pairwise_append]
  refine ⟨h, List.pairwise_singleton R a, ?_⟩
  intro b hb c hc
  rw [List.mem_singleton.mp hc]
  exact ha b hb

end BoundedDeque

end Works.Lib
