import Mathlib.Algebra.Ring.BooleanRing
import Mathlib.Tactic

/-! # The field with sixteen elements

GF(16) as the polynomials over GF(2) modulo `x⁴ + x + 1`: an element is its four coefficients,
addition is `xor` of the coefficients, and a product is multiplied out and then reduced by
`x⁴ = x + 1`. -/

namespace Works.Lib

/-- One proof for all the numerals of `Fin 4`. -/
instance neZero_four : NeZero 4 := ⟨by decide⟩

/-- `b₃x³ + b₂x² + b₁x + b₀` modulo `x⁴ + x + 1`. -/
structure Gf16 where
  b0 : Bool
  b1 : Bool
  b2 : Bool
  b3 : Bool
deriving DecidableEq, Repr, Fintype

namespace Gf16

/-- The coefficient of `x^b`. -/
def coeff (a : Gf16) : Fin 4 → Bool := ![a.b0, a.b1, a.b2, a.b3]

/-- The element with given coefficients. -/
def ofCoeff (c : Fin 4 → Bool) : Gf16 := ⟨c 0, c 1, c 2, c 3⟩

@[simp] theorem coeff_ofCoeff (c : Fin 4 → Bool) (b : Fin 4) : (ofCoeff c).coeff b = c b := by
  fin_cases b <;> rfl

theorem ext_coeff {a b : Gf16} (h : ∀ i, a.coeff i = b.coeff i) : a = b := by
  cases a
  cases b
  simpa [coeff, Fin.forall_fin_succ] using h

/-- The element as a nibble. -/
def toU8 (a : Gf16) : UInt8 :=
  UInt8.ofNat (a.b0.toNat + 2 * a.b1.toNat + 4 * a.b2.toNat + 8 * a.b3.toNat)

theorem toU8_injective : Function.Injective toU8 := by
  rintro ⟨a0, a1, a2, a3⟩ ⟨b0, b1, b2, b3⟩
  revert a0 a1 a2 a3 b0 b1 b2 b3
  decide

instance : Zero Gf16 := ⟨⟨false, false, false, false⟩⟩

theorem coeff_zero (b : Fin 4) : (0 : Gf16).coeff b = false := by
  fin_cases b <;> rfl

instance : One Gf16 := ⟨⟨true, false, false, false⟩⟩

instance : Add Gf16 := ⟨fun a b => ⟨a.b0 ^^ b.b0, a.b1 ^^ b.b1, a.b2 ^^ b.b2, a.b3 ^^ b.b3⟩⟩

instance : Neg Gf16 := ⟨id⟩

theorem coeff_add (a b : Gf16) (i : Fin 4) : (a + b).coeff i = (a.coeff i ^^ b.coeff i) := by
  fin_cases i <;> rfl

/-- The element with the coefficients of `p₆x⁶ + … + p₀`. -/
def reduce (p0 p1 p2 p3 p4 p5 p6 : Bool) : Gf16 :=
  ⟨p0 ^^ p4, p1 ^^ p4 ^^ p5, p2 ^^ p5 ^^ p6, p3 ^^ p6⟩

instance : Mul Gf16 := ⟨fun a b => reduce
  (a.b0 && b.b0)
  ((a.b0 && b.b1) ^^ (a.b1 && b.b0))
  ((a.b0 && b.b2) ^^ (a.b1 && b.b1) ^^ (a.b2 && b.b0))
  ((a.b0 && b.b3) ^^ (a.b1 && b.b2) ^^ (a.b2 && b.b1) ^^ (a.b3 && b.b0))
  ((a.b1 && b.b3) ^^ (a.b2 && b.b2) ^^ (a.b3 && b.b1))
  ((a.b2 && b.b3) ^^ (a.b3 && b.b2))
  (a.b3 && b.b3)⟩

/-! ### Ring laws, coefficient by coefficient in the ring GF(2) -/

theorem add_def (a b : Gf16) :
    a + b = ⟨a.b0 + b.b0, a.b1 + b.b1, a.b2 + b.b2, a.b3 + b.b3⟩ := rfl

theorem mul_def (a b : Gf16) :
    a * b =
      ⟨a.b0 * b.b0 + (a.b1 * b.b3 + a.b2 * b.b2 + a.b3 * b.b1),
        (a.b0 * b.b1 + a.b1 * b.b0) + (a.b1 * b.b3 + a.b2 * b.b2 + a.b3 * b.b1) +
          (a.b2 * b.b3 + a.b3 * b.b2),
        (a.b0 * b.b2 + a.b1 * b.b1 + a.b2 * b.b0) + (a.b2 * b.b3 + a.b3 * b.b2) + a.b3 * b.b3,
        (a.b0 * b.b3 + a.b1 * b.b2 + a.b2 * b.b1 + a.b3 * b.b0) + a.b3 * b.b3⟩ := rfl

protected theorem mul_comm (a b : Gf16) : a * b = b * a := by
  simp only [mul_def, mk.injEq]
  refine ⟨?_, ?_, ?_, ?_⟩ <;> ring

protected theorem mul_assoc (a b c : Gf16) : a * b * c = a * (b * c) := by
  simp only [mul_def, mk.injEq]
  refine ⟨?_, ?_, ?_, ?_⟩ <;> ring

protected theorem mul_add (a b c : Gf16) : a * (b + c) = a * b + a * c := by
  simp only [mul_def, add_def, mk.injEq]
  refine ⟨?_, ?_, ?_, ?_⟩ <;> ring

protected theorem add_assoc (a b c : Gf16) : a + b + c = a + (b + c) := by
  simp only [add_def, add_assoc]

protected theorem add_comm (a b : Gf16) : a + b = b + a := by
  simp only [add_def, add_comm]

instance : CommRing Gf16 where
  add_assoc := Gf16.add_assoc
  zero_add := by decide
  add_zero := by decide
  add_comm := Gf16.add_comm
  neg_add_cancel := by decide
  mul_assoc := Gf16.mul_assoc
  mul_comm := Gf16.mul_comm
  one_mul := by decide
  mul_one := by decide
  left_distrib := Gf16.mul_add
  right_distrib := fun a b c => by
    rw [Gf16.mul_comm, Gf16.mul_add, Gf16.mul_comm c a, Gf16.mul_comm c b]
  zero_mul := by decide
  mul_zero := by decide
  nsmul := nsmulRec
  zsmul := zsmulRec

end Gf16

end Works.Lib
