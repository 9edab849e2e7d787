import Works.BiniusMayo.Verify

/-! # The packing of the key

The two transposes undo each other on all words, and on lanes below 16 they are the packing and
the slicing outside the circuit (`transposes_inverse`).  So the bytes that are hashed into
`pk_id` determine every plane of the key (`pkPreimage_injective`). -/

namespace Works.BiniusMayo

open Lib Lib.Circuit

/-! ### Words bit by bit -/

/-- Words with the same bits in every nibble are equal. -/
theorem eq_of_nibbles {x y : Word}
    (h : ∀ (k : Fin 16) (b : Fin 4), x.getLsbD (4 * k + b) = y.getLsbD (4 * k + b)) : x = y := by
  apply BitVec.eq_of_getLsbD_eq
  intro i hi
  have hsplit : i = 4 * (⟨i / 4, by omega⟩ : Fin 16).val + (⟨i % 4, by omega⟩ : Fin 4).val := by
    simp only
    omega
  rw [hsplit, h]

/-- Words with the same bits in every quarter are equal. -/
theorem eq_of_quarters {x y : Word}
    (h : ∀ (w : Fin 4) (k : Fin 16), x.getLsbD (16 * w + k) = y.getLsbD (16 * w + k)) : x = y := by
  apply BitVec.eq_of_getLsbD_eq
  intro i hi
  have hsplit : i = 16 * (⟨i / 16, by omega⟩ : Fin 4).val + (⟨i % 16, by omega⟩ : Fin 16).val := by
    simp only
    omega
  rw [hsplit, h]

/-- A byte below 16 is a nibble. -/
theorem eq_toU8_of_lt {x : UInt8} (h : x < 16) : x = (nibbleElem x 0).toU8 := by
  rw [← nibbleOf_eq, nibbleOf, if_pos (Nat.zero_mod 2)]
  apply UInt8.toNat_inj.mp
  have hlt : x.toNat < 2 ^ 4 := UInt8.lt_iff_toNat_lt.mp h
  rw [UInt8.toNat_and]
  exact ((Nat.and_two_pow_sub_one_eq_mod x.toNat 4).trans (Nat.mod_eq_of_lt hlt)).symm

/-- The bits of the packed words, outside the circuit. -/
theorem getLsbD_packLanes_lt {lanes : Fin M → UInt8} (h : ∀ ℓ, lanes ℓ < 16) (w : Fin 4)
    (k : Fin 16) (b : Fin 4) : (packLanes lanes w).getLsbD (4 * k + b) =
      (nibbleElem (lanes (laneIx w k)) 0).coeff b := by
  have hlanes : lanes = fun ℓ => (nibbleElem (lanes ℓ) 0).toU8 := funext fun ℓ => eq_toU8_of_lt (h ℓ)
  conv_lhs => rw [hlanes]
  exact getLsbD_packLanes _ w k b

/-- The bits of the planes, outside the circuit. -/
theorem getLsbD_lanesToBitsliced {lanes : Fin M → UInt8} (h : ∀ ℓ, lanes ℓ < 16) (w : Fin 4)
    (k : Fin 16) (b : Fin 4) : (lanesToBitsliced lanes b).getLsbD (16 * w + k) =
      (nibbleElem (lanes (laneIx w k)) 0).coeff b := by
  have hlanes : lanes = fun ℓ => (nibbleElem (lanes ℓ) 0).toU8 := funext fun ℓ => eq_toU8_of_lt (h ℓ)
  have hlane := congrFun (lanesOf_lanesToBitsliced fun ℓ => nibbleElem (lanes ℓ) 0) (laneIx w k)
  conv_lhs => rw [hlanes]
  refine Eq.trans ?_ (congrArg (Gf16.coeff · b) hlane)
  rw [coeff_lanesOf]
  rfl

section Transposes

variable {f : KeccakState → KeccakState} {v : Wire → Word}

/-- The planes bit by bit. -/
theorem packedToBitsliced_planes (packed : Fin 4 → Wire) :
    Yields f v (packedToBitsliced packed) fun a => ∀ (b w : Fin 4) (k : Fin 16),
      (v (a.bits b)).getLsbD (16 * w + k) = (v (packed w)).getLsbD (4 * k + b) := by
  refine Computes.mono (packedToBitsliced_yields packed) fun a h b w k => ?_
  rw [← h w k b, BitslicedGf16Mvec.coeff_lanes]
  rfl

/-- The words bit by bit. -/
theorem bitslicedToPacked_bits (bv : BitslicedGf16Mvec) :
    Yields f v (bitslicedToPacked bv) fun words => ∀ (b w : Fin 4) (k : Fin 16),
      (v (words w)).getLsbD (4 * k + b) = (v (bv.bits b)).getLsbD (16 * w + k) := by
  refine Computes.mono (bitslicedToPacked_yields bv) fun words h b w k => ?_
  rw [h w k b, BitslicedGf16Mvec.coeff_lanes]
  rfl

theorem packed_round_trip (packed : Fin 4 → Wire) :
    Yields f v (do let bv ← packedToBitsliced packed; bitslicedToPacked bv) fun words =>
      ∀ w, v (words w) = v (packed w) := by
  refine Computes.bind (packedToBitsliced_planes packed) fun bv hbv => ?_
  refine Computes.mono (bitslicedToPacked_bits bv) fun words hwords w => ?_
  apply eq_of_nibbles
  intro k b
  rw [hwords, hbv]

theorem bitsliced_round_trip (bv : BitslicedGf16Mvec) :
    Yields f v (do let words ← bitslicedToPacked bv; packedToBitsliced words) fun a =>
      ∀ b, v (a.bits b) = v (bv.bits b) := by
  refine Computes.bind (bitslicedToPacked_bits bv) fun words hwords => ?_
  refine Computes.mono (packedToBitsliced_planes words) fun a ha b => ?_
  apply eq_of_quarters
  intro w k
  rw [ha, hwords]

theorem packedToBitsliced_packLanes {lanes : Fin M → UInt8} (hlt : ∀ ℓ, lanes ℓ < 16)
    {packed : Fin 4 → Wire} (h : ∀ w, v (packed w) = packLanes lanes w) :
    Yields f v (packedToBitsliced packed) fun a => ∀ b, v (a.bits b) = lanesToBitsliced lanes b := by
  refine Computes.mono (packedToBitsliced_planes packed) fun a ha b => ?_
  apply eq_of_quarters
  intro w k
  rw [ha, h, getLsbD_packLanes_lt hlt, getLsbD_lanesToBitsliced hlt]

theorem bitslicedToPacked_lanesToBitsliced {lanes : Fin M → UInt8} (hlt : ∀ ℓ, lanes ℓ < 16)
    {bv : BitslicedGf16Mvec} (h : ∀ b, v (bv.bits b) = lanesToBitsliced lanes b) :
    Yields f v (bitslicedToPacked bv) fun words => ∀ w, v (words w) = packLanes lanes w := by
  refine Computes.mono (bitslicedToPacked_bits bv) fun words hwords w => ?_
  apply eq_of_nibbles
  intro k b
  rw [hwords, h, getLsbD_packLanes_lt hlt, getLsbD_lanesToBitsliced hlt]

end Transposes

/-! ### What is hashed into `pk_id` -/

/-- The bytes hashed into `pk_id`, from the planes of the entries. -/
def pkPreimage (key : List (Fin 4 → Word)) : List UInt8 :=
  domainTagPk ++ key.flatMap fun planes => packedBytes (bitslicedToLanes planes)

theorem getLsbD_packLanes_planes (planes : Fin 4 → Word) (w : Fin 4) (k : Fin 16) (b : Fin 4) :
    (packLanes (bitslicedToLanes planes) w).getLsbD (4 * k + b) =
      (planes b).getLsbD (16 * w + k) := by
  rw [funext (bitslicedToLanes_apply planes), getLsbD_packLanes, coeff_lanesOf]
  rfl

theorem packedBytes_injective {p q : Fin 4 → Word}
    (h : packedBytes (bitslicedToLanes p) = packedBytes (bitslicedToLanes q)) : p = q := by
  have hword : ∀ w : Fin 4,
      packLanes (bitslicedToLanes p) w = packLanes (bitslicedToLanes q) w := by
    intro w
    have hw := congrArg (wordAt · w) h
    simpa only [packedBytes, wordAt_wordsBytes, List.length_ofFn, w.isLt, List.getElem_ofFn] using hw
  funext b
  apply eq_of_quarters
  intro w k
  rw [← getLsbD_packLanes_planes, hword, getLsbD_packLanes_planes]

theorem length_packedBytes (lanes : Row) : (packedBytes lanes).length = 32 := by
  rw [packedBytes, length_wordsBytes, List.length_ofFn]

/-- Every plane of the key can be read off the bytes. -/
theorem pkPreimage_injective : Function.Injective pkPreimage := by
  intro p q h
  exact flatMap_injective (by decide) (fun planes => length_packedBytes (bitslicedToLanes planes))
    (fun _ _ => packedBytes_injective) (List.append_cancel_left h)

section Main

variable (f : KeccakState → KeccakState) (v : Wire → Word)

/-- **The transposes undo each other** on all words, they are the packing and the slicing outside
the circuit on lanes below 16, and what the circuit hashes into `pk_id` determines the planes of
the key. -/
theorem transposes_inverse :
    (∀ packed : Fin 4 → Wire, Yields f v (packedToBitsliced packed) fun a =>
      ∀ (b w : Fin 4) (k : Fin 16),
        (v (a.bits b)).getLsbD (16 * w + k) = (v (packed w)).getLsbD (4 * k + b)) ∧
    (∀ packed : Fin 4 → Wire,
      Yields f v (do let bv ← packedToBitsliced packed; bitslicedToPacked bv) fun words =>
        ∀ w, v (words w) = v (packed w)) ∧
    (∀ bv : BitslicedGf16Mvec,
      Yields f v (do let words ← bitslicedToPacked bv; packedToBitsliced words) fun a =>
        ∀ b, v (a.bits b) = v (bv.bits b)) ∧
    (∀ lanes : Fin M → UInt8, (∀ ℓ, lanes ℓ < 16) →
      (∀ packed : Fin 4 → Wire, (∀ w, v (packed w) = packLanes lanes w) →
        Yields f v (packedToBitsliced packed) fun a =>
          ∀ b, v (a.bits b) = lanesToBitsliced lanes b) ∧
      ∀ bv : BitslicedGf16Mvec, (∀ b, v (bv.bits b) = lanesToBitsliced lanes b) →
        Yields f v (bitslicedToPacked bv) fun words => ∀ w, v (words w) = packLanes lanes w) ∧
    (∀ (pkId : Fin 4 → Wire) (pk : ExpandedPkWires), pk.Sized →
      Emits f v (Mayo2Verify.hashPk pkId pk)
        (fun _ => Mayo2Verify.bytesOn v pkId = Lib.keccak256 f
          (pkPreimage ((pk.p1 ++ pk.p2 ++ pk.p3).map fun a b => v (a.bits b)))) fun _ => True) ∧
    Function.Injective pkPreimage := by
  refine ⟨packedToBitsliced_planes, packed_round_trip, bitsliced_round_trip, fun lanes hlt =>
    ⟨fun packed h => packedToBitsliced_packLanes hlt h,
      fun bv h => bitslicedToPacked_lanesToBitsliced hlt h⟩, fun pkId pk hpk => ?_,
    pkPreimage_injective⟩
  have hpre : pkPreimage ((pk.p1 ++ pk.p2 ++ pk.p3).map fun a b => v (a.bits b)) =
      domainTagPk ++ (pk.p1 ++ pk.p2 ++ pk.p3).flatMap
        fun a => packedBytes (bitslicedToLanes fun b => v (a.bits b)) := by
    rw [pkPreimage, List.flatMap_map]
  rw [hpre]
  exact Mayo2Verify.hashPk_emits hpk

end Main

/-- Words of fives on the private wires. -/
def fives : Wire → Word := WitnessFiller.get ⟨fun _ => 0, fun _ => 0x5555555555555555⟩

theorem fives_sliced :
    (fun b => evaluate (Gate.eval id) fives
      (((packedToBitsliced fun w => .witness w).run ⟨0, 4, 0⟩).val.bits b)) =
        lanesToBitsliced fun _ => 5 := by
  have hpacked : ∀ w : Fin 4, evaluate (Gate.eval id) fives (.witness w) =
      packLanes (fun _ => 5) w := by
    intro w
    refine (sameInputs_evaluate (.witness w) trivial).trans ?_
    revert w
    decide +kernel
  funext b
  have h := transposes_inverse id (evaluate (Gate.eval id) fives)
  exact ((h.2.2.2.1 (fun _ => 5) (fun _ => by decide)).1 (fun w => .witness w) hpacked ⟨0, 4, 0⟩
    driven_evaluate).1 b

end Works.BiniusMayo
