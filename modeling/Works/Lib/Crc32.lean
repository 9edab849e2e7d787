import Mathlib.Logic.Function.Basic
import Mathlib.Tactic.Common

/-! # CRC-32C

The cyclic redundancy check with the Castagnoli polynomial, bit by bit.  Every step of it is
injective in the register (`crcBit_injective`), so that a change of one byte always changes the
result (`crc32c_set_ne`). -/

namespace Works.Lib

/-- One bit of the reflected Castagnoli polynomial. -/
def crcBit (crc : UInt32) : UInt32 :=
  if crc &&& 1 = 1 then (crc >>> 1) ^^^ 0x82F63B78 else crc >>> 1

/-- One byte. -/
def crcByte (crc : UInt32) (b : UInt8) : UInt32 := Nat.repeat crcBit 8 (crc ^^^ b.toUInt32)

/-- `crc32c`. -/
def crc32c (bytes : List UInt8) : UInt32 := bytes.foldl crcByte 0xFFFFFFFF ^^^ 0xFFFFFFFF

/-! ### Injectivity -/

theorem and_one_eq_one (c : UInt32) : c &&& 1 = 1 ↔ c.toNat % 2 = 1 := by
  rw [← UInt32.toNat_inj, UInt32.toNat_and]
  show c.toNat &&& 1 = 1 ↔ _
  rw [Nat.and_one_is_mod]

theorem toNat_shiftRight_one (c : UInt32) : (c >>> 1).toNat = c.toNat / 2 := by
  rw [UInt32.toNat_shiftRight]
  exact Nat.shiftRight_eq_div_pow _ 1

/-- The register is what the shift leaves of it and the bit that is shifted out. -/
theorem eq_of_shiftRight_one {a b : UInt32} (h : a >>> 1 = b >>> 1)
    (hbit : a.toNat % 2 = b.toNat % 2) : a = b := by
  have hdiv := congrArg UInt32.toNat h
  rw [toNat_shiftRight_one, toNat_shiftRight_one] at hdiv
  apply UInt32.toNat_inj.mp
  omega

/-- The top bit of the result is the bit that is shifted out. -/
theorem testBit_crcBit (c : UInt32) : (crcBit c).toNat.testBit 31 = decide (c.toNat % 2 = 1) := by
  have hc := c.toNat_lt
  have htop : (c >>> 1).toNat.testBit 31 = false := by
    rw [toNat_shiftRight_one]
    exact Nat.testBit_lt_two_pow (by omega)
  unfold crcBit
  by_cases h : c &&& 1 = 1
  · rw [if_pos h, UInt32.toNat_xor, Nat.testBit_xor, htop, decide_eq_true ((and_one_eq_one c).mp h)]
    decide
  · rw [if_neg h, htop, decide_eq_false fun hodd => h ((and_one_eq_one c).mpr hodd)]

theorem crcBit_injective : Function.Injective crcBit := by
  intro a b h
  have hbit : decide (a.toNat % 2 = 1) = decide (b.toNat % 2 = 1) := by
    rw [← testBit_crcBit, ← testBit_crcBit, h]
  rw [decide_eq_decide, ← and_one_eq_one, ← and_one_eq_one] at hbit
  have hparity := hbit
  rw [and_one_eq_one, and_one_eq_one] at hparity
  apply eq_of_shiftRight_one _ (by omega)
  unfold crcBit at h
  by_cases ha : a &&& 1 = 1
  · rw [if_pos ha, if_pos (hbit.mp ha)] at h
    exact UInt32.xor_left_inj _ |>.mp h
  · rw [if_neg ha, if_neg (fun hb => ha (hbit.mpr hb))] at h
    exact h

theorem repeat_injective {α : Type} {f : α → α} (hf : Function.Injective f) (n : ℕ) :
    Function.Injective (Nat.repeat f n) := by
  induction n with
  | zero => exact fun _ _ h => h
  | succ n ih => exact fun _ _ h => ih (hf h)

/-- A byte moves different registers to different ones, -/
theorem crcByte_left_injective (b : UInt8) : Function.Injective fun crc => crcByte crc b := by
  intro x y h
  exact UInt32.xor_left_inj _ |>.mp (repeat_injective crcBit_injective 8 h)

/-- and different bytes move a register to different ones. -/
theorem crcByte_right_injective (crc : UInt32) : Function.Injective (crcByte crc) := by
  intro a b h
  have h := UInt32.xor_right_inj _ |>.mp (repeat_injective crcBit_injective 8 h)
  exact UInt8.toUInt32_inj.mp h

theorem foldl_crcByte_injective (bytes : List UInt8) :
    Function.Injective fun crc => bytes.foldl crcByte crc := by
  induction bytes with
  | nil => exact fun _ _ h => h
  | cons b bytes ih => exact fun _ _ h => crcByte_left_injective b (ih h)

/-- **A change of one byte is detected.** -/
theorem crc32c_set_ne {bytes : List UInt8} {j : ℕ} {b : UInt8} (hj : j < bytes.length)
    (hb : bytes[j]? ≠ some b) : crc32c (bytes.set j b) ≠ crc32c bytes := by
  intro h
  unfold crc32c at h
  have h := UInt32.xor_left_inj _ |>.mp h
  rw [List.set_eq_take_append_cons_drop, if_pos hj] at h
  conv_rhs at h => rw [← List.take_append_drop j bytes, List.drop_eq_getElem_cons hj]
  rw [List.foldl_append, List.foldl_append, List.foldl_cons, List.foldl_cons] at h
  have hbyte := crcByte_right_injective _ (foldl_crcByte_injective _ h)
  rw [List.getElem?_eq_getElem hj] at hb
  exact hb (congrArg some hbyte.symm)

end Works.Lib
