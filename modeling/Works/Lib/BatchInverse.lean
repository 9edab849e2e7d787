import Works.Lib.Outcome
import Mathlib.Algebra.BigOperators.Group.List.Basic

/-! # One inversion for many

The inverses of a list of elements of a field from one inversion.  On the way up each slot gets
the product of the elements before its own; the inverse of the product of all is then taken
apart from the last element on. -/

namespace Works.Lib

variable {F : Type} [Field F]

/-- The way up: the slots, and the product of all elements. -/
def multiplyUp : F → List F → List F → List F × F
  | running, z :: zs, _ :: slots =>
      let (before, total) := multiplyUp (running * z) zs slots
      (running :: before, total)
  | running, _, slots => (slots, running)

/-- The way down: each element is replaced by its inverse. -/
def divideDown (inverse : F) (zs before : List F) : List F :=
  ((zs.zip before).foldr (fun (z, b) (out, inverse) => (inverse * b :: out, inverse * z))
    ([], inverse)).1

theorem multiplyUp_total (zs : List F) :
    ∀ (running : F) (slots : List F), slots.length = zs.length →
      (multiplyUp running zs slots).2 = running * zs.prod := by
  induction zs with
  | nil =>
      intro running slots _
      rw [multiplyUp, List.prod_nil, mul_one]
      · intro z zs slot slots h
        cases h
  | cons z zs ih =>
      intro running slots h
      cases slots with
      | nil => cases h
      | cons slot slots =>
          rw [multiplyUp]
          dsimp only
          rw [ih (running * z) slots (Nat.succ.inj h), List.prod_cons, mul_assoc]

/-- The way down from the inverse of what the way up ends in, with what is left of the inverse. -/
theorem foldr_multiplyUp (zs : List F) :
    ∀ (running : F) (slots : List F), running ≠ 0 → (∀ z ∈ zs, z ≠ 0) →
      slots.length = zs.length →
      (zs.zip (multiplyUp running zs slots).1).foldr
        (fun (z, b) (out, inverse) => (inverse * b :: out, inverse * z))
        ([], (running * zs.prod)⁻¹) = (zs.map fun z => z⁻¹, running⁻¹) := by
  induction zs with
  | nil =>
      intro running slots _ _ _
      rw [List.zip_nil_left, List.foldr_nil, List.prod_nil, mul_one]
      rfl
  | cons z zs ih =>
      intro running slots hrunning hzs h
      cases slots with
      | nil => cases h
      | cons slot slots =>
          have hz : z ≠ 0 := hzs z List.mem_cons_self
          have hrest := ih (running * z) slots (mul_ne_zero hrunning hz)
            (fun y hy => hzs y (List.mem_cons_of_mem z hy)) (Nat.succ.inj h)
          have hinv : (running * z)⁻¹ * running = z⁻¹ := by
            rw [mul_inv, mul_comm running⁻¹, mul_assoc, inv_mul_cancel₀ hrunning, mul_one]
          have hleft : (running * z)⁻¹ * z = running⁻¹ := by
            rw [mul_inv, mul_assoc, inv_mul_cancel₀ hz, mul_one]
          rw [multiplyUp]
          dsimp only
          rw [List.zip_cons_cons, List.foldr_cons, List.prod_cons, ← mul_assoc, hrest,
            List.map_cons, hinv, hleft]

/-- **One inversion for many.**  The way down from the inverse of the product leaves the
inverses. -/
theorem divideDown_multiplyUp {zs slots : List F} (hzs : ∀ z ∈ zs, z ≠ 0)
    (h : slots.length = zs.length) :
    divideDown (multiplyUp 1 zs slots).2⁻¹ zs (multiplyUp 1 zs slots).1 =
      zs.map fun z => z⁻¹ := by
  rw [multiplyUp_total zs 1 slots h, divideDown, foldr_multiplyUp zs 1 slots one_ne_zero hzs h]

/-- The product of the elements can be inverted when each of them can. -/
theorem multiplyUp_ne_zero {zs slots : List F} (hzs : ∀ z ∈ zs, z ≠ 0)
    (h : slots.length = zs.length) : (multiplyUp 1 zs slots).2 ≠ 0 := by
  rw [multiplyUp_total zs 1 slots h, one_mul]
  exact List.prod_ne_zero fun hmem => hzs 0 hmem rfl

end Works.Lib
