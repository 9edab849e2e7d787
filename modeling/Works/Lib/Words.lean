import Works.Lib.Bytes

/-! # Machine words and their bytes

A word of 64 bits and its eight bytes, least significant first, are the same thing
(`wordOf_wordBytes`, `wordBytes_wordOf`), so a string of words and the string of its bytes
determine each other. -/

namespace Works.Lib

/-- A machine word. -/
abbrev Word := BitVec 64

/-- `to_le_bytes` of a word. -/
def wordBytes (w : Word) : List UInt8 := leBytes 8 w.toNat

/-- `from_le_bytes` of a word. -/
def wordOf (bs : List UInt8) : Word := BitVec.ofNat 64 (ofLeBytes bs)

/-- The bytes of a string of words. -/
def wordsBytes (ws : List Word) : List UInt8 := ws.flatMap wordBytes

@[simp] theorem length_wordBytes (w : Word) : (wordBytes w).length = 8 := length_leBytes 8 w.toNat

@[simp] theorem wordOf_wordBytes (w : Word) : wordOf (wordBytes w) = w := by
  rw [wordOf, wordBytes, ofLeBytes_leBytes_of_lt w.isLt, BitVec.ofNat_toNat, BitVec.setWidth_eq]

theorem wordBytes_wordOf {bs : List UInt8} (h : bs.length = 8) : wordBytes (wordOf bs) = bs := by
  have hlt : ofLeBytes bs < 2 ^ 64 := by
    have := ofLeBytes_lt bs
    rw [h] at this
    exact this
  rw [wordOf, wordBytes, BitVec.toNat_ofNat, Nat.mod_eq_of_lt hlt]
  conv_lhs => rw [← h]
  exact leBytes_ofLeBytes bs

@[simp] theorem wordsBytes_nil : wordsBytes [] = [] := rfl

@[simp] theorem wordsBytes_cons (w : Word) (ws : List Word) :
    wordsBytes (w :: ws) = wordBytes w ++ wordsBytes ws := rfl

@[simp] theorem wordsBytes_append (ws us : List Word) :
    wordsBytes (ws ++ us) = wordsBytes ws ++ wordsBytes us := List.flatMap_append

@[simp] theorem length_wordsBytes (ws : List Word) : (wordsBytes ws).length = 8 * ws.length := by
  induction ws with
  | nil => rfl
  | cons w ws ih => rw [wordsBytes_cons, List.length_append, ih, length_wordBytes, List.length_cons]; ring

theorem take_wordsBytes (ws : List Word) (n : ℕ) :
    (wordsBytes ws).take (8 * n) = wordsBytes (ws.take n) := by
  induction ws generalizing n with
  | nil => simp
  | cons w ws ih =>
      cases n with
      | zero => rfl
      | succ n =>
          rw [wordsBytes_cons, Nat.mul_succ, List.take_append, length_wordBytes,
            List.take_of_length_le (by rw [length_wordBytes]; omega), Nat.add_sub_cancel, ih,
            List.take_succ_cons, wordsBytes_cons]

/-- The word at place `i` of a byte string. -/
def wordAt (bs : List UInt8) (i : ℕ) : Word := wordOf ((bs.drop (8 * i)).take 8)

theorem wordAt_wordsBytes {ws : List Word} {i : ℕ} (h : i < ws.length) :
    wordAt (wordsBytes ws) i = ws[i] := by
  induction ws generalizing i with
  | nil => simp at h
  | cons w ws ih =>
      cases i with
      | zero =>
          have htake : (wordBytes w ++ wordsBytes ws).take 8 = wordBytes w := by
            exact List.take_left' (length_wordBytes w)
          rw [wordAt, Nat.mul_zero, List.drop_zero, wordsBytes_cons, htake, wordOf_wordBytes]
          rfl
      | succ i =>
          have hdrop : (wordBytes w ++ wordsBytes ws).drop (8 * (i + 1)) =
              (wordsBytes ws).drop (8 * i) := by
            rw [Nat.mul_succ, Nat.add_comm, ← List.drop_drop,
              List.drop_left' (length_wordBytes w)]
          rw [wordAt, wordsBytes_cons, hdrop]
          exact ih (by simpa using h)

theorem wordAt_of_le {bs : List UInt8} {i : ℕ} (h : bs.length ≤ 8 * i) : wordAt bs i = 0 := by
  rw [wordAt, List.drop_eq_nil_of_le h]
  rfl

/-- The words of a byte string of whole words. -/
theorem wordsBytes_ofFn_wordAt {bs : List UInt8} {n : ℕ} (h : bs.length = 8 * n) :
    wordsBytes (List.ofFn fun i : Fin n => wordAt bs i) = bs := by
  induction n generalizing bs with
  | zero => simpa using (List.length_eq_zero_iff.mp h).symm
  | succ n ih =>
      have hrest : (bs.drop 8).length = 8 * n := by rw [List.length_drop]; omega
      have hword : ∀ i : Fin n, wordAt bs i.succ = wordAt (bs.drop 8) i := by
        intro i
        rw [wordAt, wordAt, List.drop_drop, Fin.val_succ, Nat.mul_succ, Nat.add_comm]
      rw [List.ofFn_succ, wordsBytes_cons, funext hword, ih hrest]
      have hfirst : wordAt bs (0 : Fin (n + 1)) = wordOf (bs.take 8) := rfl
      rw [hfirst, wordBytes_wordOf (by rw [List.length_take]; omega), List.take_append_drop]

end Works.Lib
