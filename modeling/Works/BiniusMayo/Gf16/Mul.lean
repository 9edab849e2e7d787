import Works.BiniusMayo.Gf16.Mvec

/-! # Multiplication of bit-sliced vectors

The product of two vectors over GF(16), lane by lane, with nine `and` gates: two levels of
Karatsuba on the coefficients and the reduction modulo `x⁴ + x + 1` on whole planes.  A scalar is
multiplied after its four low bits have been spread over all lanes; the other bits of the word
that carries it do not matter. -/

namespace Works.BiniusMayo

open Lib Lib.Circuit

/-- `(a₁x + a₀)(b₁x + b₀)`: the coefficients of `x²`, `x` and `1`. -/
def mul2 (a0 a1 b0 b1 : Wire) : CircuitBuilder (Wire × Wire × Wire) := do
  let y0 ← band a0 b0
  let y2 ← band a1 b1
  let laneA ← bxor a0 a1
  let laneB ← bxor b0 b1
  let yBridge ← bxor y0 y2
  let y1 ← fax laneA laneB yBridge
  pure (y2, y1, y0)

/-- The product of two vectors, lane by lane. -/
def mulKaratsuba (a b : BitslicedGf16Mvec) : CircuitBuilder BitslicedGf16Mvec := do
  let sA0 ← bxor (a.bits 0) (a.bits 2)
  let sA1 ← bxor (a.bits 1) (a.bits 3)
  let sB0 ← bxor (b.bits 0) (b.bits 2)
  let sB1 ← bxor (b.bits 1) (b.bits 3)
  let (z0_2, z0_1, z0_0) ← mul2 (a.bits 0) (a.bits 1) (b.bits 0) (b.bits 1)
  let (z2_2, z2_1, z2_0) ← mul2 (a.bits 2) (a.bits 3) (b.bits 2) (b.bits 3)
  let (z1m_2, z1m_1, z1m_0) ← mul2 sA0 sA1 sB0 sB1
  -- The unreduced product `z2·x⁴ + middle·x² + z0`, where `middle = z1m + z2 + z0`.
  let p0 := z0_0
  let p1 := z0_1
  let p2 ← bxorMulti [z0_2, z1m_0, z2_0, z0_0]
  let p3 ← bxorMulti [z1m_1, z2_1, z0_1]
  let p4 ← bxorMulti [z1m_2, z2_2, z0_2, z2_0]
  let p5 := z2_1
  let p6 := z2_2
  let r0 ← bxor p0 p4
  let r1 ← bxorMulti [p1, p4, p5]
  let r2 ← bxorMulti [p2, p5, p6]
  let r3 ← bxor p3 p6
  pure ⟨![r0, r1, r2, r3]⟩

/-- The scalar in the low four bits of a word, in every lane. -/
def broadcastScalar (nibbleWord : Wire) : CircuitBuilder BitslicedGf16Mvec := do
  let one ← addConstant 1
  let bits ← fromFn 4 fun bitIdx => do
    let shifted ← shrUnless0 nibbleWord bitIdx
    let bit0 ← band shifted one
    let atMsb ← shl bit0 63
    sar atMsb 63
  pure ⟨bits⟩

/-- `acc + scalar * vec`. -/
def mulIntoAcc (scalar vec acc : BitslicedGf16Mvec) : CircuitBuilder BitslicedGf16Mvec := do
  let prod ← mulKaratsuba scalar vec
  acc.add prod

/-! ### What they compute -/

/-- The element in the low four bits of a word. -/
def lowNibble (w : Word) : Gf16 := Gf16.ofCoeff fun b => w.getLsbD b

variable {f : KeccakState → KeccakState} {v : Wire → Word}

theorem mul2_yields (a0 a1 b0 b1 : Wire) : Yields f v (mul2 a0 a1 b0 b1) fun y =>
    v y.2.2 = v a0 &&& v b0 ∧ v y.1 = v a1 &&& v b1 ∧
      v y.2.1 = (v a0 &&& v b1) ^^^ (v a1 &&& v b0) := by
  refine band_bind fun y0 h0 => band_bind fun y2 h2 => bxor_bind fun laneA hA =>
    bxor_bind fun laneB hB => bxor_bind fun yBridge hbr => fax_bind fun y1 h1 =>
    Computes.pure ⟨h0, h2, ?_⟩
  rw [h1, hA, hB, hbr, h0, h2]
  apply BitVec.eq_of_getLsbD_eq
  intro i _
  simp only [BitVec.getLsbD_xor, BitVec.getLsbD_and]
  cases (v a0).getLsbD i <;> cases (v a1).getLsbD i <;> cases (v b0).getLsbD i <;>
    cases (v b1).getLsbD i <;> rfl

/-- The coefficients of a product, as Karatsuba puts them together. -/
theorem karatsuba_coeff (a b : Gf16) : a * b = Gf16.reduce
    (a.b0 && b.b0)
    ((a.b0 && b.b1) ^^ (a.b1 && b.b0))
    ((a.b1 && b.b1) ^^ ((a.b0 ^^ a.b2) && (b.b0 ^^ b.b2)) ^^ (a.b2 && b.b2) ^^ (a.b0 && b.b0))
    ((((a.b0 ^^ a.b2) && (b.b1 ^^ b.b3)) ^^ ((a.b1 ^^ a.b3) && (b.b0 ^^ b.b2))) ^^
      ((a.b2 && b.b3) ^^ (a.b3 && b.b2)) ^^ ((a.b0 && b.b1) ^^ (a.b1 && b.b0)))
    (((a.b1 ^^ a.b3) && (b.b1 ^^ b.b3)) ^^ (a.b3 && b.b3) ^^ (a.b1 && b.b1) ^^ (a.b2 && b.b2))
    ((a.b2 && b.b3) ^^ (a.b3 && b.b2))
    (a.b3 && b.b3) := by
  obtain ⟨a0, a1, a2, a3⟩ := a
  obtain ⟨b0, b1, b2, b3⟩ := b
  revert a0 a1 a2 a3 b0 b1 b2 b3
  decide

/-- **The circuit multiplies lane by lane.** -/
theorem mulKaratsuba_yields (a b : BitslicedGf16Mvec) :
    Yields f v (mulKaratsuba a b) fun c => c.lanes v = a.lanes v * b.lanes v := by
  refine bxor_bind fun sA0 hA0 => bxor_bind fun sA1 hA1 => bxor_bind fun sB0 hB0 =>
    bxor_bind fun sB1 hB1 => Computes.bind (mul2_yields _ _ _ _) ?_
  rintro ⟨z0_2, z0_1, z0_0⟩ ⟨h00, h02, h01⟩
  refine Computes.bind (mul2_yields _ _ _ _) ?_
  rintro ⟨z2_2, z2_1, z2_0⟩ ⟨h20, h22, h21⟩
  refine Computes.bind (mul2_yields _ _ _ _) ?_
  rintro ⟨z1m_2, z1m_1, z1m_0⟩ ⟨h10, h12, h11⟩
  refine bxorMulti_bind fun p2 hp2 => bxorMulti_bind fun p3 hp3 => bxorMulti_bind fun p4 hp4 =>
    bxor_bind fun r0 hr0 => bxorMulti_bind fun r1 hr1 => bxorMulti_bind fun r2 hr2 =>
    bxor_bind fun r3 hr3 => Computes.pure ?_
  funext ℓ
  rw [Pi.mul_apply, karatsuba_coeff]
  simp only [BitslicedGf16Mvec.lanes, lanesOf, Gf16.ofCoeff, Gf16.reduce, Gf16.mk.injEq,
    Matrix.cons_val]
  simp only [hr0, hr1, hr2, hr3, hp2, hp3, hp4, h00, h01, h02, h10, h11, h12, h20, h21, h22,
    hA0, hA1, hB0, hB1, List.map_cons, List.map_nil, List.foldl_cons, List.foldl_nil,
    BitVec.getLsbD_xor, BitVec.getLsbD_and]
  simp

/-- A bit shifted to the top and back fills the word. -/
theorem getLsbD_splat (c : Bool) (ℓ : Fin M) :
    (((bif c then 1 else 0 : Word) <<< 63).sshiftRight 63).getLsbD ℓ = c := by
  revert ℓ
  cases c <;> decide

/-- **Broadcasting reads the low four bits and nothing else.** -/
theorem broadcastScalar_yields (nibbleWord : Wire) : Yields f v (broadcastScalar nibbleWord)
    fun c => c.lanes v = fun _ => lowNibble (v nibbleWord) := by
  refine addConstant_bind fun one hone => ?_
  refine Computes.bind (fromFn_computes (Q := fun b w =>
    ∀ ℓ : Fin M, (v w).getLsbD ℓ = (v nibbleWord).getLsbD b) fun bitIdx => ?_)
    fun bits hbits => Computes.pure ?_
  · refine Computes.bind (shrUnless0_yields _ _) fun shifted hsh => ?_
    refine band_bind fun bit0 hbit => shl_bind fun atMsb hmsb => ?_
    refine Computes.mono (sar_yields atMsb 63) fun w hw => ?_
    intro ℓ
    rw [hw, hmsb, hbit, hsh, hone, shiftRight_and_one, getLsbD_splat]
  · funext ℓ
    apply Gf16.ext_coeff
    intro b
    rw [BitslicedGf16Mvec.coeff_lanes, hbits b ℓ, lowNibble, Gf16.coeff_ofCoeff]

theorem mulIntoAcc_yields (scalar vec acc : BitslicedGf16Mvec) :
    Yields f v (mulIntoAcc scalar vec acc) fun c =>
      c.lanes v = acc.lanes v + scalar.lanes v * vec.lanes v := by
  refine Computes.bind (mulKaratsuba_yields scalar vec) fun prod hprod => ?_
  rw [← hprod]
  exact BitslicedGf16Mvec.add_yields acc prod

end Works.BiniusMayo
