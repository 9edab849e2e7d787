import Works.BiniusMayo.Gates
import Works.BiniusMayo.Params
import Works.Lib.Gf16

/-! # Bit-sliced vectors over GF(16)

A vector of `M = 64` elements of GF(16), the lanes, is kept as four words, the planes: bit `ℓ` of
plane `b` is the coefficient of `x^b` in lane `ℓ`.  Outside the circuit the lanes are bytes below
16. -/

namespace Works.BiniusMayo

open Lib Lib.Circuit

/-- The lanes that four planes hold. -/
def lanesOf (planes : Fin 4 → Word) : Fin M → Gf16 :=
  fun ℓ => Gf16.ofCoeff fun b => (planes b).getLsbD ℓ

theorem coeff_lanesOf (planes : Fin 4 → Word) (ℓ : Fin M) (b : Fin 4) :
    (lanesOf planes ℓ).coeff b = (planes b).getLsbD ℓ := Gf16.coeff_ofCoeff _ _

theorem lanesOf_injective : Function.Injective lanesOf := by
  intro p q h
  funext b
  apply BitVec.eq_of_getLsbD_eq
  intro ℓ hℓ
  rw [← coeff_lanesOf p ⟨ℓ, hℓ⟩, h, coeff_lanesOf]

/-! ### Lanes as bytes -/

/-- `u8 as u64`. -/
def asWord (x : UInt8) : Word := x.toBitVec.setWidth 64

/-- `u64 as u8`. -/
def asByte (w : Word) : UInt8 := UInt8.ofBitVec (w.setWidth 8)

/-- Four planes from 64 lanes. -/
def lanesToBitsliced (lanes : Fin M → UInt8) : Fin 4 → Word :=
  (List.finRange M).foldl (fun planes i b =>
    planes b ||| (asWord ((lanes i >>> UInt8.ofNat b) &&& 1) <<< i.val)) fun _ => 0

/-- 64 lanes from four planes. -/
def bitslicedToLanes (planes : Fin 4 → Word) : Fin M → UInt8 := fun i =>
  (List.finRange 4).foldl (fun x b =>
    x ||| (asByte ((planes b >>> i.val) &&& 1) <<< UInt8.ofNat b)) 0

/-- The packed layout: nibble `k` of word `w` is lane `16 * w + k`. -/
def packLanes (lanes : Fin M → UInt8) : Fin 4 → Word :=
  (List.finRange M).foldl (fun out i =>
    let w : Fin 4 := ⟨i.val / 16, Nat.div_lt_of_lt_mul i.isLt⟩
    Function.update out w (out w ||| (asWord (lanes i &&& 0x0F) <<< (i.val % 16 * 4)))) fun _ => 0

/-- The bits of words that are or-ed into the places of a table. -/
theorem getLsbD_foldl_or {ι κ : Type} (l : List ι) (g : ι → κ → Word) (t : κ → Word) (b : κ)
    (j : ℕ) : (l.foldl (fun t i b => t b ||| g i b) t b).getLsbD j =
      ((t b).getLsbD j || l.any fun i => (g i b).getLsbD j) := by
  induction l generalizing t with
  | nil => simp
  | cons i l ih => rw [List.foldl_cons, ih, BitVec.getLsbD_or, List.any_cons, Bool.or_assoc]

/-- The coefficients of an element are the bits of its nibble. -/
theorem getLsbD_toU8 (a : Gf16) (b : Fin 4) : a.toU8.toBitVec.getLsbD b = a.coeff b := by
  obtain ⟨a0, a1, a2, a3⟩ := a
  revert a0 a1 a2 a3 b
  decide

theorem getLsbD_toU8_of_le (a : Gf16) {j : ℕ} (h : 4 ≤ j) : a.toU8.toBitVec.getLsbD j = false := by
  by_cases h8 : j < 8
  · obtain ⟨a0, a1, a2, a3⟩ := a
    interval_cases j <;> revert a0 a1 a2 a3 <;> decide
  · exact BitVec.getLsbD_of_ge _ _ (by omega)

theorem toU8_and_15 (a : Gf16) : a.toU8 &&& 0x0F = a.toU8 := by
  obtain ⟨a0, a1, a2, a3⟩ := a
  revert a0 a1 a2 a3
  decide

theorem shiftRight_and_one (w : Word) (i : ℕ) :
    (w >>> i) &&& 1 = bif w.getLsbD i then 1 else 0 := by
  have h := @BitVec.and_one_eq_setWidth_ofBool_getLsbD 64 (w >>> i)
  rw [BitVec.getLsbD_ushiftRight, Nat.add_zero] at h
  refine h.trans ?_
  cases w.getLsbD i <;> rfl

/-- A nibble is put together from its bits. -/
theorem foldl_or_bits : ∀ c : Fin 4 → Bool,
    (List.finRange 4).foldl (fun x b =>
      x ||| (asByte (bif c b then 1 else 0) <<< UInt8.ofNat b)) 0 = (Gf16.ofCoeff c).toU8 := by
  decide +kernel

/-- **The bytes hold the lanes of the planes.** -/
theorem bitslicedToLanes_apply (planes : Fin 4 → Word) (i : Fin M) :
    bitslicedToLanes planes i = (lanesOf planes i).toU8 := by
  unfold bitslicedToLanes
  simp only [shiftRight_and_one]
  exact foldl_or_bits fun b => (planes b).getLsbD i

theorem getLsbD_bit_shiftLeft (a : Gf16) (b : Fin 4) (i j : ℕ) (hj : j < 64) :
    (asWord ((a.toU8 >>> UInt8.ofNat b) &&& 1) <<< i).getLsbD j = (decide (i = j) && a.coeff b) := by
  have hword : asWord ((a.toU8 >>> UInt8.ofNat b) &&& 1) = bif a.coeff b then 1 else 0 := by
    obtain ⟨a0, a1, a2, a3⟩ := a
    revert a0 a1 a2 a3 b
    decide
  rw [hword, BitVec.getLsbD_shiftLeft]
  cases a.coeff b with
  | false => simp
  | true =>
      have hone : ∀ n, (1 : Word).getLsbD n = decide (n = 0) := by
        intro n
        simp [show (1 : Word) = 1#64 from rfl, BitVec.getLsbD_one]
      rw [cond_true, hone, Bool.and_true, Bool.eq_iff_iff]
      simp only [Bool.and_eq_true, decide_eq_true_eq, Bool.not_eq_true', decide_eq_false_iff_not]
      omega

/-- **Planes hold the lanes they are made from.** -/
theorem lanesOf_lanesToBitsliced (g : Fin M → Gf16) :
    lanesOf (lanesToBitsliced fun i => (g i).toU8) = g := by
  funext ℓ
  apply Gf16.ext_coeff
  intro b
  rw [coeff_lanesOf, lanesToBitsliced, getLsbD_foldl_or]
  simp only [getLsbD_bit_shiftLeft _ _ _ _ ℓ.isLt]
  rw [Bool.eq_iff_iff]
  simp [Fin.val_inj]

/-- Lane `16 * w + k`. -/
def laneIx (w : Fin 4) (k : Fin 16) : Fin M := ⟨16 * w + k, by have := w.isLt; simp only [M]; omega⟩

theorem getLsbD_nibble_shiftLeft (a : Gf16) (k k' : Fin 16) (b : Fin 4) :
    (asWord (a.toU8 &&& 0x0F) <<< (k'.val * 4)).getLsbD (4 * k + b) =
      (decide (k' = k) && a.coeff b) := by
  have hbit : ∀ j, (asWord a.toU8).getLsbD j = a.toU8.toBitVec.getLsbD j := by
    intro j
    rw [asWord, BitVec.getLsbD_setWidth]
    by_cases hj : j < 64
    · simp [hj]
    · simp [hj, BitVec.getLsbD_of_ge a.toU8.toBitVec j (by omega)]
  rw [toU8_and_15, BitVec.getLsbD_shiftLeft, hbit]
  rcases Nat.lt_trichotomy k'.val k.val with h | h | h
  · rw [getLsbD_toU8_of_le a (by omega)]
    simp [Fin.ext_iff, h.ne]
  · have hk : k' = k := Fin.ext h
    subst hk
    rw [show 4 * k'.val + b.val - k'.val * 4 = b.val by omega, getLsbD_toU8]
    have h1 : 4 * k'.val + b.val < 64 := by omega
    have h2 : ¬ 4 * k'.val + b.val < k'.val * 4 := by omega
    simp [h1, h2]
  · have h2 : 4 * k.val + b.val < k'.val * 4 := by omega
    simp [h2, Fin.ext_iff, h.ne']

/-- **The packed words hold the lanes they are made from.** -/
theorem getLsbD_packLanes (g : Fin M → Gf16) (w : Fin 4) (k : Fin 16) (b : Fin 4) :
    (packLanes (fun i => (g i).toU8) w).getLsbD (4 * k + b) = (g (laneIx w k)).coeff b := by
  have hstep : (fun (out : Fin 4 → Word) (i : Fin M) =>
      let w : Fin 4 := ⟨i.val / 16, Nat.div_lt_of_lt_mul i.isLt⟩
      Function.update out w
        (out w ||| (asWord ((g i).toU8 &&& 0x0F) <<< (i.val % 16 * 4)))) =
      fun out i w => out w ||| (if i.val / 16 = w.val then
        asWord ((g i).toU8 &&& 0x0F) <<< (i.val % 16 * 4) else 0) := by
    funext out i w
    by_cases hw : i.val / 16 = w.val
    · have hw' : w = ⟨i.val / 16, Nat.div_lt_of_lt_mul i.isLt⟩ := Fin.ext hw.symm
      simp [hw', Function.update_self]
    · rw [if_neg hw, Function.update_of_ne (fun h => hw (by rw [h]))]
      simp
  rw [packLanes, hstep, getLsbD_foldl_or, Bool.eq_iff_iff]
  rw [show ((0 : Word).getLsbD (4 * k + b)) = false from BitVec.getLsbD_zero, Bool.false_or,
    List.any_eq_true]
  constructor
  · rintro ⟨i, -, hi⟩
    by_cases hw : i.val / 16 = w.val
    · rw [if_pos hw, getLsbD_nibble_shiftLeft _ k ⟨i.val % 16, Nat.mod_lt _ (by omega)⟩,
        Bool.and_eq_true, decide_eq_true_eq, Fin.ext_iff] at hi
      have hix : i = laneIx w k := Fin.ext (by simp only [laneIx] at *; omega)
      rw [← hix]
      exact hi.2
    · rw [if_neg hw] at hi
      simp at hi
  · intro h
    refine ⟨laneIx w k, List.mem_finRange _, ?_⟩
    have hdiv : (laneIx w k).val / 16 = w.val := by simp only [laneIx]; omega
    have hmod : (⟨(laneIx w k).val % 16, Nat.mod_lt _ (by omega)⟩ : Fin 16) = k :=
      Fin.ext (by simp only [laneIx]; omega)
    rw [if_pos hdiv, getLsbD_nibble_shiftLeft _ k ⟨(laneIx w k).val % 16, Nat.mod_lt _ (by omega)⟩,
      hmod, h]
    simp

/-! ### Vectors of wires -/

/-- The wires of four planes. -/
structure BitslicedGf16Mvec where
  bits : Fin 4 → Wire

namespace BitslicedGf16Mvec

instance : Inhabited BitslicedGf16Mvec := ⟨⟨fun _ => default⟩⟩

/-- The lanes that an assignment gives to the wires. -/
def lanes (v : Wire → Word) (a : BitslicedGf16Mvec) : Fin M → Gf16 := lanesOf fun b => v (a.bits b)

/-- Four private wires. -/
def newWitness : CircuitBuilder BitslicedGf16Mvec := do
  let bits ← fromFn 4 fun _ => addWitness
  pure ⟨bits⟩

/-- Lane by lane addition: a `bxor` for each plane. -/
def add (a b : BitslicedGf16Mvec) : CircuitBuilder BitslicedGf16Mvec := do
  let bits ← fromFn 4 fun i => bxor (a.bits i) (b.bits i)
  pure ⟨bits⟩

/-- Assert that the planes are the same. -/
def assertEq (a b : BitslicedGf16Mvec) : CircuitBuilder Unit := do
  let _ ← fromFn 4 fun i => Circuit.assertEq s!"plane[{i}]" (a.bits i) (b.bits i)
  pure ()

/-- Write 64 lanes to the four wires. -/
def populate (a : BitslicedGf16Mvec) (w : WitnessFiller) (lanes : Fin M → UInt8) : WitnessFiller :=
  let planes := lanesToBitsliced lanes
  (List.finRange 4).foldl (fun w b => w.set (a.bits b) (planes b)) w

variable {f : KeccakState → KeccakState} {v : Wire → Word}

theorem coeff_lanes (a : BitslicedGf16Mvec) (ℓ : Fin M) (b : Fin 4) :
    (a.lanes v ℓ).coeff b = (v (a.bits b)).getLsbD ℓ := coeff_lanesOf _ _ _

/-- Planes that are given bit by bit give the lanes coefficient by coefficient. -/
theorem lanes_eq {a : BitslicedGf16Mvec} {g : Fin M → Gf16}
    (h : ∀ (ℓ : Fin M) (b : Fin 4), (v (a.bits b)).getLsbD ℓ = (g ℓ).coeff b) : a.lanes v = g := by
  funext ℓ
  apply Gf16.ext_coeff
  intro b
  rw [coeff_lanes, h]

theorem newWitness_yields : Yields f v newWitness fun a => ∀ b, (a.bits b).IsInput :=
  Computes.bind (fromFn_computes fun _ => addWitness_spec) fun _ h => Computes.pure h

theorem add_yields (a b : BitslicedGf16Mvec) :
    Yields f v (a.add b) fun c => c.lanes v = a.lanes v + b.lanes v := by
  refine Computes.bind (fromFn_computes fun i => addGate_spec _ _) fun bits h => Computes.pure ?_
  apply lanes_eq
  intro ℓ i
  rw [h i]
  refine (BitVec.getLsbD_xor).trans ?_
  rw [← coeff_lanes, ← coeff_lanes]
  exact (Gf16.coeff_add _ _ _).symm

/-- Equal planes are equal lanes. -/
theorem assertEq_emits (a b : BitslicedGf16Mvec) :
    Emits f v (a.assertEq b) (fun _ => a.lanes v = b.lanes v) fun _ => True := by
  refine Spec.mono (Spec.bind (fromFn_spec fun i => assertEq_spec _ (a.bits i) (b.bits i))
    fun _ _ => Computes.pure (Q := fun _ => True) trivial) fun _ _ => ⟨trivial, ?_⟩
  rw [and_true]
  constructor
  · intro h
    exact congrArg lanesOf (funext h)
  · intro h i
    exact congrFun (lanesOf_injective h) i

end BitslicedGf16Mvec

end Works.BiniusMayo
