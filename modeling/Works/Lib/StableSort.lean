import Mathlib.Data.List.Sort
import Mathlib.Order.Basic

/-! # Stable sorting

A list sorted by a key, in which the elements of one key keep their order, is determined by the
list it was made from; an insertion sort makes it. -/

namespace Works.Lib

variable {α κ : Type} [LinearOrder κ] {key : α → κ} {xs ys zs : List α}

/-- `ys` is `xs` sorted by `key`, and the elements of one key stand in the order of `xs`. -/
structure StablySorted (key : α → κ) (xs ys : List α) : Prop where
  perm : ys.Perm xs
  sorted : ys.Pairwise fun a b => key a ≤ key b
  stable : ∀ k, ys.filter (fun a => decide (key a = k)) = xs.filter fun a => decide (key a = k)

theorem stablySorted_insertionSort (key : α → κ) (xs : List α) :
    StablySorted key xs (xs.insertionSort fun a b => key a ≤ key b) := by
  have htotal : Std.Total fun a b : α => key a ≤ key b := ⟨fun a b => le_total _ _⟩
  have htrans : IsTrans α fun a b => key a ≤ key b := ⟨fun _ _ _ => le_trans⟩
  have hperm := List.perm_insertionSort (fun a b : α => key a ≤ key b) xs
  refine ⟨hperm, List.pairwise_insertionSort _ xs, fun k => ?_⟩
  -- the elements of one key are a sorted part of `xs`, and such a part keeps its order
  have hone : (xs.filter fun a => decide (key a = k)).Pairwise fun a b => key a ≤ key b := by
    refine List.pairwise_iff_forall_sublist.mpr fun {a b} hab => ?_
    have ha := hab.subset (List.mem_cons_self)
    have hb := hab.subset (List.mem_cons_of_mem _ List.mem_cons_self)
    simp only [List.mem_filter, decide_eq_true_eq] at ha hb
    rw [ha.2, hb.2]
  have hsub := (List.sublist_insertionSort hone List.filter_sublist).filter fun a =>
    decide (key a = k)
  rw [List.filter_filter] at hsub
  simp only [Bool.and_self] at hsub
  exact (hsub.eq_of_length (hperm.filter _).length_eq.symm).symm

/-- Sorted lists with the same elements of every key, in the same order, are equal. -/
theorem eq_of_filter_eq (hys : ys.Pairwise fun a b => key a ≤ key b)
    (hzs : zs.Pairwise fun a b => key a ≤ key b)
    (h : ∀ k, ys.filter (fun a => decide (key a = k)) = zs.filter fun a => decide (key a = k)) :
    ys = zs := by
  have hmem : ∀ a, a ∈ ys ↔ a ∈ zs := by
    intro a
    have := congrArg (a ∈ ·) (h (key a))
    simpa using this
  induction ys generalizing zs with
  | nil =>
      refine (List.eq_nil_iff_forall_not_mem.mpr fun a ha => ?_).symm
      exact List.not_mem_nil ((hmem a).mpr ha)
  | cons a ys ih =>
      cases zs with
      | nil => exact absurd ((hmem a).mp List.mem_cons_self) List.not_mem_nil
      | cons b zs =>
          obtain ⟨ha, hys⟩ := List.pairwise_cons.mp hys
          obtain ⟨hb, hzs⟩ := List.pairwise_cons.mp hzs
          have hkey : key a = key b := by
            apply le_antisymm
            · cases List.mem_cons.mp ((hmem b).mpr List.mem_cons_self) with
              | inl hba => rw [hba]
              | inr hmem => exact ha b hmem
            · cases List.mem_cons.mp ((hmem a).mp List.mem_cons_self) with
              | inl hab => rw [hab]
              | inr hmem => exact hb a hmem
          have hhead := h (key a)
          rw [List.filter_cons_of_pos (by simp), List.filter_cons_of_pos (by simp [hkey]),
            List.cons.injEq] at hhead
          have hrest : ∀ k, ys.filter (fun a => decide (key a = k)) =
              zs.filter fun a => decide (key a = k) := by
            intro k
            by_cases hk : key a = k
            · rw [← hk]
              exact hhead.2
            · have := h k
              rwa [List.filter_cons_of_neg (by simpa using hk),
                List.filter_cons_of_neg (by simpa [← hkey] using hk)] at this
          rw [hhead.1, ih hys hzs hrest fun c => ?_]
          have := congrArg (c ∈ ·) (hrest (key c))
          simpa using this

/-- There is one way to sort a list stably. -/
theorem stablySorted_iff :
    StablySorted key xs ys ↔ (xs.insertionSort fun a b => key a ≤ key b) = ys := by
  have hsort := stablySorted_insertionSort key xs
  constructor
  · intro h
    exact eq_of_filter_eq hsort.sorted h.sorted fun k => (hsort.stable k).trans (h.stable k).symm
  · rintro rfl
    exact hsort

end Works.Lib
