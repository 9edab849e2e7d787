import Mathlib.Tactic

/-! # Words and fields in byte strings

The bytes of an unsigned word of `k` bytes, least significant first, and the word that bytes
spell.  A field behind its length, most significant byte first, can be told from what follows it,
so a sequence of such fields has one reading (`framed_append_inj`). -/

namespace Works.Lib

/-- `to_le_bytes` of a word of `k` bytes. -/
def leBytes : ℕ → ℕ → List UInt8
  | 0, _ => []
  | k + 1, n => UInt8.ofNat n :: leBytes k (n / 256)

/-- `from_le_bytes`. -/
def ofLeBytes : List UInt8 → ℕ
  | [] => 0
  | b :: bs => b.toNat + 256 * ofLeBytes bs

@[simp] theorem length_leBytes (k n : ℕ) : (leBytes k n).length = k := by
  induction k generalizing n with
  | zero => rfl
  | succ k ih => rw [leBytes, List.length_cons, ih]

theorem ofLeBytes_leBytes (k n : ℕ) : ofLeBytes (leBytes k n) = n % 256 ^ k := by
  induction k generalizing n with
  | zero => simp [leBytes, ofLeBytes, Nat.mod_one]
  | succ k ih =>
      have hbyte : (UInt8.ofNat n).toNat = n % 256 := UInt8.toNat_ofNat'
      rw [leBytes, ofLeBytes, ih, hbyte, Nat.pow_succ', Nat.mod_mul]

/-- A word in range reads back. -/
theorem ofLeBytes_leBytes_of_lt {k n : ℕ} (h : n < 256 ^ k) : ofLeBytes (leBytes k n) = n := by
  rw [ofLeBytes_leBytes, Nat.mod_eq_of_lt h]

/-- A byte string is what its number is written as. -/
theorem leBytes_ofLeBytes (bs : List UInt8) : leBytes bs.length (ofLeBytes bs) = bs := by
  induction bs with
  | nil => rfl
  | cons b bs ih =>
      have hb := b.toNat_lt
      have hlow : UInt8.ofNat (b.toNat + 256 * ofLeBytes bs) = b := by
        rw [← UInt8.toNat_inj, UInt8.toNat_ofNat']
        omega
      have hrest : (b.toNat + 256 * ofLeBytes bs) / 256 = ofLeBytes bs := by omega
      rw [List.length_cons, leBytes, ofLeBytes, hlow, hrest, ih]

theorem ofLeBytes_lt (bs : List UInt8) : ofLeBytes bs < 256 ^ bs.length := by
  induction bs with
  | nil => simp [ofLeBytes]
  | cons b bs ih =>
      have hb := b.toNat_lt
      rw [ofLeBytes, List.length_cons, Nat.pow_succ]
      omega

theorem getElem_leBytes {k n i : ℕ} (h : i < (leBytes k n).length) :
    (leBytes k n)[i] = UInt8.ofNat (n / 256 ^ i) := by
  induction k generalizing n i with
  | zero => simp at h
  | succ k ih =>
      cases i with
      | zero => simp [leBytes]
      | succ i =>
          have hi : i < (leBytes k (n / 256)).length := by simpa using h
          simp only [leBytes, List.getElem_cons_succ]
          rw [ih hi, Nat.div_div_eq_div_mul, Nat.pow_succ']

/-! ### Reading from the front -/

/-- The first `n` bytes and the rest. -/
def getBytes (n : ℕ) (bytes : List UInt8) : Option (List UInt8 × List UInt8) :=
  if bytes.length < n then none else some (bytes.take n, bytes.drop n)

/-- A word of `k` bytes and the rest. -/
def getWord (k : ℕ) (bytes : List UInt8) : Option (ℕ × List UInt8) :=
  (getBytes k bytes).map fun r => (ofLeBytes r.1, r.2)

section Reading

variable (rest : List UInt8)

theorem getBytes_append {n : ℕ} {bytes : List UInt8} (h : bytes.length = n) :
    getBytes n (bytes ++ rest) = some (bytes, rest) := by
  subst h
  simp [getBytes]

theorem getWord_append {k n : ℕ} (h : n < 256 ^ k) :
    getWord k (leBytes k n ++ rest) = some (n, rest) := by
  rw [getWord, getBytes_append rest (length_leBytes k n), Option.map_some,
    ofLeBytes_leBytes_of_lt h]

end Reading

/-! ### Fields behind their length -/

/-- `to_be_bytes` of a word of `k` bytes. -/
def beBytes (k n : ℕ) : List UInt8 := (leBytes k n).reverse

/-- The field `field` behind its length, a big-endian word of `k` bytes. -/
def framed (k : ℕ) (field : List UInt8) : List UInt8 := beBytes k field.length ++ field

@[simp] theorem length_beBytes (k n : ℕ) : (beBytes k n).length = k := by simp [beBytes]

theorem beBytes_inj {k m n : ℕ} (hm : m < 256 ^ k) (hn : n < 256 ^ k)
    (h : beBytes k m = beBytes k n) : m = n := by
  have hle := congrArg ofLeBytes (List.reverse_injective h)
  rwa [ofLeBytes_leBytes_of_lt hm, ofLeBytes_leBytes_of_lt hn] at hle

/-- A framed field ends where its length says. -/
theorem framed_append_inj {k : ℕ} {a b s t : List UInt8} (ha : a.length < 256 ^ k)
    (hb : b.length < 256 ^ k) (h : framed k a ++ s = framed k b ++ t) : a = b ∧ s = t := by
  unfold framed at h
  rw [List.append_assoc, List.append_assoc] at h
  obtain ⟨hlen, hrest⟩ := List.append_inj h (by simp)
  exact List.append_inj hrest (beBytes_inj ha hb hlen)

end Works.Lib
