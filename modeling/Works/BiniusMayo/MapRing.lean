import Works.BiniusMayo.Whipping
import Works.Lib.PolyQuotient

/-! # The public map as algebra

GF(16) as `GF(2)[x]` modulo `x⁴ + x + 1`, vectors of `M` elements as `GF(16)[z]` modulo
`z^64 + 8z³ + 2z² + 8`, the key as a block matrix over that ring and the rows of the signature as
vectors: what the circuit computes from planes is a sum of quadratic forms, weighted by powers
of `z`. -/

namespace Works.BiniusMayo

open Lib Lib.Circuit Polynomial Matrix

/-! ### GF(16) -/

/-- `x⁴ + x + 1`. -/
noncomputable def gf16Modulus : (ZMod 2)[X] := X ^ 4 + X + 1

/-- `GF(2)[x]/(x⁴ + x + 1)`. -/
abbrev QuotientGf16 := AdjoinRoot gf16Modulus

/-- The class of `x`, the element 2. -/
noncomputable def gfX : QuotientGf16 := AdjoinRoot.root gf16Modulus

/-- A bit as an element of GF(2). -/
def bitCoeff (c : Bool) : ZMod 2 := if c then 1 else 0

/-- The element that four bits stand for. -/
noncomputable def decode (a : Gf16) : QuotientGf16 :=
  ofCoeffs gf16Modulus fun b : Fin 4 => bitCoeff (a.coeff b)

theorem gf16Modulus_monic : gf16Modulus.Monic := by
  unfold gf16Modulus
  monicity!

theorem gf16Modulus_natDegree : gf16Modulus.natDegree = 4 := by
  unfold gf16Modulus
  compute_degree!

/-- Two is zero, also in the quotients. -/
theorem two_eq_zero : (2 : QuotientGf16) = 0 := by
  rw [← map_ofNat (AdjoinRoot.of gf16Modulus) 2, show (2 : ZMod 2) = 0 from rfl, map_zero]

theorem gfX_pow_four : gfX ^ 4 = gfX + 1 := by
  have hroot : AdjoinRoot.mk gf16Modulus (X ^ 4 + X + 1) = 0 := AdjoinRoot.mk_self
  rw [map_add, map_add, map_pow, map_one, AdjoinRoot.mk_X] at hroot
  have htwo := two_eq_zero
  unfold gfX
  linear_combination hroot - (AdjoinRoot.root gf16Modulus + 1) * htwo

/-- A bit in the field. -/
noncomputable def bitOf (c : Bool) : QuotientGf16 := AdjoinRoot.of gf16Modulus (bitCoeff c)

theorem bitOf_xor (c d : Bool) : bitOf (c ^^ d) = bitOf c + bitOf d := by
  have h : bitCoeff (c ^^ d) = bitCoeff c + bitCoeff d := by
    cases c <;> cases d <;> decide
  unfold bitOf
  rw [h, map_add]

theorem bitOf_and (c d : Bool) : bitOf (c && d) = bitOf c * bitOf d := by
  have h : bitCoeff (c && d) = bitCoeff c * bitCoeff d := by
    cases c <;> cases d <;> decide
  unfold bitOf
  rw [h, map_mul]

theorem bitOf_false : bitOf false = 0 := map_zero (AdjoinRoot.of gf16Modulus)

theorem bitOf_true : bitOf true = 1 := map_one (AdjoinRoot.of gf16Modulus)

theorem decode_eq (a : Gf16) :
    decode a = bitOf a.b0 + bitOf a.b1 * gfX + bitOf a.b2 * gfX ^ 2 + bitOf a.b3 * gfX ^ 3 := by
  unfold decode ofCoeffs
  rw [Fin.sum_univ_four]
  simp only [Fin.val_zero, Fin.val_one, Fin.val_two, pow_zero, mul_one, pow_one]
  rfl

/-- **Decoding respects the arithmetic.** -/
noncomputable def decodeHom : Gf16 →+* QuotientGf16 where
  toFun := decode
  map_zero' := by
    rw [decode_eq]
    change bitOf false + bitOf false * gfX + bitOf false * gfX ^ 2 + bitOf false * gfX ^ 3 = 0
    rw [bitOf_false]
    ring
  map_one' := by
    rw [decode_eq]
    change bitOf true + bitOf false * gfX + bitOf false * gfX ^ 2 + bitOf false * gfX ^ 3 = 1
    rw [bitOf_false, bitOf_true]
    ring
  map_add' a b := by
    rw [decode_eq, decode_eq, decode_eq]
    change bitOf (a.b0 ^^ b.b0) + bitOf (a.b1 ^^ b.b1) * gfX + bitOf (a.b2 ^^ b.b2) * gfX ^ 2 +
      bitOf (a.b3 ^^ b.b3) * gfX ^ 3 = _
    rw [bitOf_xor, bitOf_xor, bitOf_xor, bitOf_xor]
    ring
  map_mul' a b := by
    have hx := gfX_pow_four
    have hreduce : ∀ p0 p1 p2 p3 p4 p5 p6 : Bool,
        decode (Gf16.reduce p0 p1 p2 p3 p4 p5 p6) = bitOf p0 + bitOf p1 * gfX + bitOf p2 * gfX ^ 2 +
          bitOf p3 * gfX ^ 3 + bitOf p4 * gfX ^ 4 + bitOf p5 * gfX ^ 5 + bitOf p6 * gfX ^ 6 := by
      intro p0 p1 p2 p3 p4 p5 p6
      rw [decode_eq]
      simp only [Gf16.reduce, bitOf_xor]
      linear_combination -(bitOf p4 + bitOf p5 * gfX + bitOf p6 * gfX ^ 2) * hx
    change decode (Gf16.reduce _ _ _ _ _ _ _) = _
    rw [hreduce, decode_eq a, decode_eq b]
    simp only [bitOf_xor, bitOf_and]
    ring

theorem decode_injective : Function.Injective decode := by
  intro a b h
  apply Gf16.ext_coeff
  intro i
  have hinjective : Function.Injective (ofCoeffs gf16Modulus : (Fin 4 → ZMod 2) → QuotientGf16) :=
    ofCoeffs_injective gf16Modulus gf16Modulus_monic gf16Modulus_natDegree
  unfold decode at h
  have hbit := congrFun (hinjective h) i
  have hinj : ∀ c d : Bool, bitCoeff c = bitCoeff d → c = d := by decide
  exact hinj _ _ hbit

/-! ### The ring of the vectors -/

/-- `z^64 + 8z³ + 2z² + 8`. -/
noncomputable def mapModulus : QuotientGf16[X] :=
  X ^ 64 + C (gfX ^ 3) * X ^ 3 + C gfX * X ^ 2 + C (gfX ^ 3)

/-- `GF(16)[z]/(z^64 + 8z³ + 2z² + 8)`. -/
abbrev MapRing := AdjoinRoot mapModulus

/-- The class of `z`. -/
noncomputable def mapZ : MapRing := AdjoinRoot.root mapModulus

/-- The scalar `c`. -/
noncomputable def scalarElem : Gf16 →+* MapRing := (AdjoinRoot.of mapModulus).comp decodeHom

/-- The vector whose lane `ℓ` is the coefficient of `z^ℓ`. -/
noncomputable def vectorElem (a : Lanes) : MapRing :=
  ofCoeffs mapModulus fun ℓ => decodeHom (a ℓ)

theorem mapModulus_monic : mapModulus.Monic := by
  unfold mapModulus
  have hlow : (C (gfX ^ 3) * X ^ 3 + C gfX * X ^ 2 + C (gfX ^ 3)).degree < ((64 : ℕ) : WithBot ℕ) := by
    compute_degree!
  rw [add_assoc, add_assoc, ← add_assoc (C (gfX ^ 3) * X ^ 3)]
  exact monic_X_pow_add hlow

theorem mapModulus_natDegree : mapModulus.natDegree = M := by
  have hne : (1 : QuotientGf16) ≠ 0 := by
    intro h
    have hdecode : decode 1 = decode 0 :=
      ((map_one decodeHom).trans h).trans (map_zero decodeHom).symm
    exact absurd (decode_injective hdecode) (by decide)
  unfold mapModulus
  compute_degree!

/-- Different vectors are different elements. -/
theorem vectorElem_injective : Function.Injective vectorElem := by
  intro a b h
  have hinjective : Function.Injective (ofCoeffs mapModulus : (Fin M → QuotientGf16) → MapRing) :=
    ofCoeffs_injective mapModulus mapModulus_monic mapModulus_natDegree
  unfold vectorElem at h
  funext ℓ
  exact decode_injective (congrFun (hinjective h) ℓ)

theorem vectorElem_zero : vectorElem 0 = 0 := by
  have h : (fun ℓ : Fin M => decodeHom ((0 : Lanes) ℓ)) = 0 := by
    funext ℓ
    exact map_zero decodeHom
  unfold vectorElem
  rw [h, ofCoeffs_zero]

theorem vectorElem_add (a b : Lanes) : vectorElem (a + b) = vectorElem a + vectorElem b := by
  have h : (fun ℓ : Fin M => decodeHom ((a + b) ℓ)) =
      (fun ℓ => decodeHom (a ℓ)) + fun ℓ => decodeHom (b ℓ) := by
    funext ℓ
    exact map_add decodeHom _ _
  unfold vectorElem
  rw [h, ofCoeffs_add]

theorem vectorElem_smul (c : Gf16) (a : Lanes) :
    vectorElem (c • a) = scalarElem c * vectorElem a := by
  have h : (fun ℓ : Fin M => decodeHom ((c • a) ℓ)) = fun ℓ => decodeHom c * decodeHom (a ℓ) := by
    funext ℓ
    exact map_mul decodeHom _ _
  unfold vectorElem
  rw [h, ofCoeffs_smul]
  rfl

theorem vectorElem_sum {ι : Type} (t : Finset ι) (a : ι → Lanes) :
    vectorElem (∑ i ∈ t, a i) = ∑ i ∈ t, vectorElem (a i) :=
  map_sum (⟨⟨vectorElem, vectorElem_zero⟩, vectorElem_add⟩ : Lanes →+ MapRing) a t

/-- The nibble 8 is `x³`, and the nibble 2 is `x`. -/
theorem decodeHom_eight : decodeHom ⟨false, false, false, true⟩ = gfX ^ 3 := by
  change decode _ = _
  rw [decode_eq, bitOf_false, bitOf_true]
  ring

theorem decodeHom_two : decodeHom ⟨false, true, false, false⟩ = gfX := by
  change decode _ = _
  rw [decode_eq, bitOf_false, bitOf_true]
  ring

/-- What `z^64` is. -/
theorem root_pow_eq : AdjoinRoot.root mapModulus ^ (63 + 1) =
    ofCoeffs mapModulus fun ℓ : Fin (63 + 1) => decodeHom (fTail ℓ) := by
  have hroot : AdjoinRoot.mk mapModulus mapModulus = 0 := AdjoinRoot.mk_self
  have htwo : (2 : MapRing) = 0 := by
    rw [← map_ofNat (AdjoinRoot.of mapModulus) 2, two_eq_zero, map_zero]
  have htail : (fun ℓ : Fin (63 + 1) => decodeHom (fTail ℓ)) =
      Pi.single (⟨0, by decide⟩ : Fin (63 + 1)) (gfX ^ 3) +
        Pi.single (⟨2, by decide⟩ : Fin (63 + 1)) gfX +
        Pi.single (⟨3, by decide⟩ : Fin (63 + 1)) (gfX ^ 3) := by
    funext ℓ
    rw [Pi.add_apply, Pi.add_apply, Pi.single_apply, Pi.single_apply, Pi.single_apply]
    unfold fTail
    simp only [Fin.ext_iff]
    split_ifs <;> first | omega | simp [decodeHom_eight, decodeHom_two]
  rw [htail, ofCoeffs_add, ofCoeffs_add, ofCoeffs_single, ofCoeffs_single, ofCoeffs_single]
  conv at hroot =>
    lhs
    arg 2
    unfold mapModulus
  simp only [map_add, map_mul, map_pow, AdjoinRoot.mk_C, AdjoinRoot.mk_X] at hroot
  simp only [map_pow]
  linear_combination hroot -
    (AdjoinRoot.of mapModulus gfX ^ 3 * AdjoinRoot.root mapModulus ^ 3 +
      AdjoinRoot.of mapModulus gfX * AdjoinRoot.root mapModulus ^ 2 +
      AdjoinRoot.of mapModulus gfX ^ 3) * htwo

/-- **Shifting the planes and folding the top lane back in multiplies by `z`.** -/
theorem vectorElem_timesZ (a : Lanes) : vectorElem (timesZ a) = mapZ * vectorElem a := by
  have hshift := ofCoeffs_shift mapModulus root_pow_eq fun ℓ => decodeHom (a ℓ)
  have hlanes : (fun ℓ : Fin M => decodeHom (timesZ a ℓ)) =
      (Fin.cons 0 (fun i : Fin 63 => decodeHom (a i.castSucc)) +
        fun ℓ : Fin (63 + 1) => decodeHom (a (Fin.last 63)) * decodeHom (fTail ℓ)) := by
    funext ℓ
    obtain ⟨i, hi⟩ := ℓ
    rw [Pi.add_apply, timesZ, map_add, map_mul]
    cases i with
    | zero =>
        rw [dif_pos rfl, map_zero]
        rfl
    | succ i =>
        rw [dif_neg (Nat.succ_ne_zero i)]
        rfl
  unfold vectorElem
  rw [hlanes]
  exact hshift

end Works.BiniusMayo
