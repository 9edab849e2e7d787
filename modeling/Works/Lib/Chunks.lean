import Works.Lib.Outcome

/-! # Work cut into chunks

A list is cut into chunks of at most `n` elements.  A computation that treats the parts of a list
one after the other and joins their results (`Joins`) gives the same result whether it runs on the
whole list or on its chunks. -/

namespace Works.Lib

variable {α β ε : Type}

/-- `par_chunks(n)`: chunks of `n` elements, the last one maybe shorter. -/
def chunks (n : ℕ) (xs : List α) : List (List α) :=
  if xs = [] ∨ n = 0 then []
  else xs.take n :: chunks n (xs.drop n)
termination_by xs.length
decreasing_by
  rename_i h
  simp only [not_or] at h
  have := List.length_pos_iff.mpr h.1
  rw [List.length_drop]
  omega

theorem flatten_chunks {n : ℕ} (hn : 0 < n) (xs : List α) : (chunks n xs).flatten = xs := by
  fun_induction chunks n xs with
  | case1 xs h =>
      cases h with
      | inl h => simp [h]
      | inr h => omega
  | case2 xs h ih => rw [List.flatten_cons, ih, List.take_append_drop]

theorem length_le_of_mem_chunks {n : ℕ} (xs : List α) : ∀ c ∈ chunks n xs, c.length ≤ n := by
  fun_induction chunks n xs with
  | case1 xs h => simp
  | case2 xs h ih =>
      intro c hc
      cases List.mem_cons.mp hc with
      | inl h => rw [h, List.length_take]; omega
      | inr h => exact ih c h

theorem chunks_map {γ : Type} (g : α → γ) (n : ℕ) (xs : List α) :
    chunks n (xs.map g) = (chunks n xs).map (List.map g) := by
  fun_induction chunks n xs with
  | case1 xs h =>
      rw [chunks, if_pos (by simpa using h)]
      rfl
  | case2 xs h ih =>
      rw [chunks, if_neg (by simpa using h), ← List.map_drop, ih, List.map_cons, List.map_take]

/-- A list can be told from its parts laid end to end when these have one length. -/
theorem flatMap_injective {g : α → List β} {n : ℕ} (hn : 0 < n) (hlen : ∀ a, (g a).length = n)
    (hg : Function.Injective g) : Function.Injective (List.flatMap g) := by
  intro xs
  induction xs with
  | nil =>
      intro ys h
      cases ys with
      | nil => rfl
      | cons y ys =>
          have hzero := congrArg List.length h
          rw [List.flatMap_nil, List.flatMap_cons, List.length_append, hlen, List.length_nil] at hzero
          omega
  | cons x xs ih =>
      intro ys h
      cases ys with
      | nil =>
          have hzero := congrArg List.length h
          rw [List.flatMap_nil, List.flatMap_cons, List.length_append, hlen, List.length_nil] at hzero
          omega
      | cons y ys =>
          rw [List.flatMap_cons, List.flatMap_cons] at h
          obtain ⟨hhead, hrest⟩ := List.append_inj h ((hlen x).trans (hlen y).symm)
          rw [hg hhead, ih hrest]

/-- Lists that are related element by element stay so when one pair of elements is replaced. -/
theorem forall₂_set {R : α → β → Prop} {as : List α} {bs : List β} (h : List.Forall₂ R as bs)
    {a : α} {b : β} (hab : R a b) (i : ℕ) : List.Forall₂ R (as.set i a) (bs.set i b) := by
  induction h generalizing i with
  | nil => exact List.Forall₂.nil
  | cons hhead htail ih =>
      cases i with
      | zero => exact List.Forall₂.cons hab htail
      | succ i => exact List.Forall₂.cons hhead (ih i)

/-- Computations that agree on every element of a list agree on the list. -/
theorem mapM_congr {γ : Type} {f g : α → Outcome ε γ} (xs : List α)
    (h : ∀ x ∈ xs, f x = g x) : xs.mapM f = xs.mapM g := by
  induction xs with
  | nil => rfl
  | cons x xs ih =>
      rw [List.mapM_cons, List.mapM_cons, h x (by simp), ih fun y hy => h y (by simp [hy])]

/-- The computation on a list joins the results of its parts. -/
structure Joins (f : List α → Outcome ε (List β)) : Prop where
  nil : f [] = .ok []
  append : ∀ xs ys, f (xs ++ ys) = (do
    let a ← f xs
    let b ← f ys
    pure (a ++ b))

theorem Joins.mapM {f : List α → Outcome ε (List β)} (hf : Joins f) (cs : List (List α)) :
    (do
      let parts ← cs.mapM f
      pure parts.flatten) = f cs.flatten := by
  induction cs with
  | nil => exact hf.nil.symm
  | cons c cs ih =>
      rw [List.flatten_cons, hf.append, ← ih, List.mapM_cons]
      cases f c with
      | error e => rfl
      | ok a =>
          rw [Outcome.ok_bind, Outcome.ok_bind]
          cases cs.mapM f with
          | error e => rfl
          | ok b => rfl

/-- The result on the chunks of a list is the result on the list. -/
theorem Joins.chunks {f : List α → Outcome ε (List β)} (hf : Joins f) {n : ℕ} (hn : 0 < n)
    (xs : List α) : (do
      let parts ← (Lib.chunks n xs).mapM f
      pure parts.flatten) = f xs := by
  rw [hf.mapM, flatten_chunks hn]

end Works.Lib
