import Mathlib.RingTheory.AdjoinRoot
import Mathlib.Tactic

/-! # Coefficients modulo a polynomial

The elements of `R[X]` modulo `f` that a vector of coefficients stands for.  When `f` is monic
with as many coefficients below its leading one, different vectors stand for different elements;
multiplication by the root shifts a vector and folds the coefficient that falls off back in. -/

namespace Works.Lib

open Polynomial

variable {R : Type} [CommRing R] (f : R[X]) {n : ℕ}

/-- The element with the coefficients `a`. -/
noncomputable def ofCoeffs (a : Fin n → R) : AdjoinRoot f :=
  ∑ i, AdjoinRoot.of f (a i) * AdjoinRoot.root f ^ i.val

theorem ofCoeffs_zero : ofCoeffs f (0 : Fin n → R) = 0 := by
  unfold ofCoeffs
  simp

theorem ofCoeffs_add (a b : Fin n → R) : ofCoeffs f (a + b) = ofCoeffs f a + ofCoeffs f b := by
  unfold ofCoeffs
  rw [← Finset.sum_add_distrib]
  refine Finset.sum_congr rfl fun i _ => ?_
  rw [Pi.add_apply, map_add, add_mul]

theorem ofCoeffs_smul (c : R) (a : Fin n → R) :
    ofCoeffs f (fun i => c * a i) = AdjoinRoot.of f c * ofCoeffs f a := by
  unfold ofCoeffs
  rw [Finset.mul_sum]
  refine Finset.sum_congr rfl fun i _ => ?_
  rw [map_mul, mul_assoc]

theorem ofCoeffs_single (i : Fin n) (c : R) :
    ofCoeffs f (Pi.single i c) = AdjoinRoot.of f c * AdjoinRoot.root f ^ i.val := by
  unfold ofCoeffs
  rw [Finset.sum_eq_single i]
  · rw [Pi.single_eq_same]
  · intro j _ hne
    rw [Pi.single_eq_of_ne hne, map_zero, zero_mul]
  · exact fun h => absurd (Finset.mem_univ i) h

/-- **Multiplication by the root.**  The vector is shifted by one, and the coefficient that falls
off comes back with what the root's power is there. -/
theorem ofCoeffs_shift {tail : Fin (n + 1) → R}
    (hroot : AdjoinRoot.root f ^ (n + 1) = ofCoeffs f tail) (a : Fin (n + 1) → R) :
    ofCoeffs f (Fin.cons 0 (fun i : Fin n => a i.castSucc) + fun i => a (Fin.last n) * tail i) =
      AdjoinRoot.root f * ofCoeffs f a := by
  rw [ofCoeffs_add, ofCoeffs_smul, ← hroot]
  have hshift : ofCoeffs f (Fin.cons 0 fun i : Fin n => a i.castSucc) =
      ∑ i : Fin n, AdjoinRoot.of f (a i.castSucc) * AdjoinRoot.root f ^ (i.val + 1) := by
    unfold ofCoeffs
    rw [Fin.sum_univ_succ, Fin.cons_zero, map_zero, zero_mul, zero_add]
    refine Finset.sum_congr rfl fun i _ => ?_
    rw [Fin.cons_succ, Fin.val_succ]
  have hall : AdjoinRoot.root f * ofCoeffs f a =
      ∑ i : Fin n, AdjoinRoot.of f (a i.castSucc) * AdjoinRoot.root f ^ (i.val + 1) +
        AdjoinRoot.of f (a (Fin.last n)) * AdjoinRoot.root f ^ (n + 1) := by
    unfold ofCoeffs
    rw [Fin.sum_univ_castSucc, mul_add, Finset.mul_sum]
    congr 1
    · refine Finset.sum_congr rfl fun i _ => ?_
      rw [Fin.val_castSucc, pow_succ]
      ring
    · rw [Fin.val_last, pow_succ]
      ring
  rw [hshift, hall]

/-- The polynomial with the coefficients `a`. -/
noncomputable def polyOf (a : Fin n → R) : R[X] := ∑ i, C (a i) * X ^ i.val

theorem mk_polyOf (a : Fin n → R) : AdjoinRoot.mk f (polyOf a) = ofCoeffs f a := by
  unfold polyOf ofCoeffs
  rw [map_sum]
  refine Finset.sum_congr rfl fun i _ => ?_
  rw [map_mul, map_pow, AdjoinRoot.mk_C, AdjoinRoot.mk_X]

theorem coeff_polyOf (a : Fin n → R) (i : Fin n) : (polyOf a).coeff i = a i := by
  unfold polyOf
  rw [finsetSum_coeff, Finset.sum_eq_single i]
  · rw [coeff_C_mul, coeff_X_pow, if_pos rfl, mul_one]
  · intro j _ hne
    rw [coeff_C_mul, coeff_X_pow, if_neg (fun h => hne (Fin.ext h.symm)), mul_zero]
  · exact fun h => absurd (Finset.mem_univ i) h

theorem degree_polyOf (a : Fin n → R) : (polyOf a).degree < n :=
  degree_sum_fin_lt a

/-- **Different coefficients are different elements.** -/
theorem ofCoeffs_injective (hf : f.Monic) (hdeg : f.natDegree = n) :
    Function.Injective (ofCoeffs f : (Fin n → R) → AdjoinRoot f) := by
  intro a b h
  have hpoly : polyOf a = polyOf b := by
    by_contra hne
    have hdiff : polyOf a - polyOf b ≠ 0 := sub_ne_zero.mpr hne
    have hnontrivial : Nontrivial R := by
      by_contra htriv
      rw [not_nontrivial_iff_subsingleton] at htriv
      exact hdiff (Subsingleton.elim _ _)
    have hlt : (polyOf a - polyOf b).degree < f.degree := by
      rw [degree_eq_natDegree hf.ne_zero, hdeg]
      exact (degree_sub_le _ _).trans_lt (max_lt (degree_polyOf a) (degree_polyOf b))
    refine hf.not_dvd_of_degree_lt hdiff hlt ?_
    rw [← AdjoinRoot.mk_eq_mk, mk_polyOf, mk_polyOf, h]
  funext i
  rw [← coeff_polyOf a i, hpoly, coeff_polyOf]

end Works.Lib
