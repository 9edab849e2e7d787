import Mathlib.Tactic

/-! # MAYO-2 parameters -/

namespace Works.BiniusMayo

/-- Total number of variables of the quadratic system. -/
abbrev N : ℕ := 81

/-- Number of equations. -/
abbrev M : ℕ := 64

/-- Oil variables. -/
abbrev O : ℕ := 17

/-- Vinegar variables. -/
abbrev V : ℕ := N - O

/-- Signature blocks. -/
abbrev K : ℕ := 4

abbrev saltBytes : ℕ := 24

abbrev pkSeedBytes : ℕ := 16

/-- The scalars of a signature, two to a byte. -/
abbrev sBytes : ℕ := K * N / 2

abbrev sigBytes : ℕ := sBytes + saltBytes

/-- The entries of a public key are vectors of `M` elements of GF(16), two to a byte. -/
abbrev mVecBytes : ℕ := M / 2

/-- `P^(1)` is upper-triangular over the vinegar variables. -/
abbrev p1Entries : ℕ := V * (V + 1) / 2

/-- `P^(2)` is rectangular. -/
abbrev p2Entries : ℕ := V * O

/-- `P^(3)` is upper-triangular over the oil variables. -/
abbrev p3Entries : ℕ := O * (O + 1) / 2

abbrev p1Bytes : ℕ := p1Entries * mVecBytes

abbrev p2Bytes : ℕ := p2Entries * mVecBytes

abbrev p3Bytes : ℕ := p3Entries * mVecBytes

/-- A compact public key: the seed of `P^(1)` and `P^(2)`, then `P^(3)`. -/
abbrev cpkBytes : ℕ := pkSeedBytes + p3Bytes

abbrev expandedPkBytes : ℕ := p1Bytes + p2Bytes + p3Bytes

example : sigBytes = 186 ∧ cpkBytes = 4912 ∧ expandedPkBytes = 106272 := by decide

end Works.BiniusMayo
