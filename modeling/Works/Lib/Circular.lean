import Mathlib.Tactic
import Mathlib.Data.List.Rotate

/-! # Circular buffers

A circular buffer keeps a list of a fixed length and the place `head` where its oldest element
stands.  `window` is what it holds, the oldest first: the next `len` places from `head` on,
going around at the end.  Writing at the first place after the window adds an element at its
end; writing at `head` of a full window and moving `head` on drops the oldest one. -/

namespace Works.Lib.Circular

variable {α : Type}

/-- The `len` elements from `head` on, around the end. -/
def window (xs : List α) (head len : ℕ) : List α := (xs.rotate head).take len

theorem length_window {xs : List α} {head len : ℕ} (h : len ≤ xs.length) :
    (window xs head len).length = len := by
  simp [window, h]

theorem getElem?_rotate {xs : List α} {head i : ℕ} (h : i < xs.length) :
    (xs.rotate head)[i]? = xs[(head + i) % xs.length]? := by
  have hmod : (i + head) % xs.length < xs.length := Nat.mod_lt _ (by omega)
  rw [List.getElem?_eq_getElem (by rwa [List.length_rotate]), List.getElem_rotate, Nat.add_comm,
    List.getElem?_eq_getElem (by rwa [Nat.add_comm])]

theorem getElem?_window {xs : List α} {head len i : ℕ} (hi : i < len) (h : len ≤ xs.length) :
    (window xs head len)[i]? = xs[(head + i) % xs.length]? := by
  rw [window, List.getElem?_take_of_lt hi, getElem?_rotate (by omega)]

@[simp] theorem window_zero (xs : List α) (head : ℕ) : window xs head 0 = [] := by
  simp [window]

/-- Two places of one window are different places of the buffer. -/
theorem place_inj {n head i j : ℕ} (hi : i < n) (hj : j < n)
    (h : (head + i) % n = (head + j) % n) : i = j := by
  have hmod : i ≡ j [MOD n] := Nat.ModEq.add_left_cancel' head h
  exact Nat.ModEq.eq_of_lt_of_lt hmod hi hj

/-- Writing right after the window adds to its end. -/
theorem window_set_end {xs : List α} {head len : ℕ} (h : len < xs.length) (x : α) :
    window (xs.set ((head + len) % xs.length) x) head (len + 1) = window xs head len ++ [x] := by
  have hmod : (head + len) % xs.length < xs.length := Nat.mod_lt _ (by omega)
  apply List.ext_getElem?
  intro i
  rcases Nat.lt_trichotomy i len with hi | hi | hi
  · rw [getElem?_window (by omega) (by simpa using h), List.length_set,
      List.getElem?_append_left (by rwa [length_window (by omega)]),
      getElem?_window hi (by omega), List.getElem?_set_ne]
    intro hcon
    have := place_inj (by omega) (by omega) hcon
    omega
  · subst hi
    rw [getElem?_window (by omega) (by simpa using h), List.length_set,
      List.getElem?_append_right (by rw [length_window (by omega)]), length_window (by omega),
      List.getElem?_set_self hmod]
    simp
  · rw [List.getElem?_eq_none, List.getElem?_eq_none]
    · simp [length_window (show len ≤ xs.length by omega)]
      omega
    · rw [length_window (by simpa using h)]
      omega

/-- Writing over the oldest element of a full window. -/
theorem window_set_head {xs : List α} {head : ℕ} (h : head < xs.length) (x : α) :
    window (xs.set head x) ((head + 1) % xs.length) xs.length =
      (window xs head xs.length).tail ++ [x] := by
  have hpos : 0 < xs.length := by omega
  have hlen : (window xs head xs.length).tail.length = xs.length - 1 := by
    rw [List.length_tail, length_window le_rfl]
  have hplace : ∀ i, ((head + 1) % xs.length + i) % xs.length = (head + (i + 1)) % xs.length := by
    intro i
    rw [Nat.mod_add_mod]
    congr 1
    omega
  apply List.ext_getElem?
  intro i
  rcases Nat.lt_trichotomy (i + 1) xs.length with hi | hi | hi
  · rw [getElem?_window (by omega) (by simp), List.length_set, hplace,
      List.getElem?_append_left (by omega), List.getElem?_tail, getElem?_window hi le_rfl,
      List.getElem?_set_ne]
    intro hcon
    have hzero : (head + 0) % xs.length = (head + (i + 1)) % xs.length := by
      simpa [Nat.mod_eq_of_lt h] using hcon
    have := place_inj hpos hi hzero
    omega
  · rw [getElem?_window (by omega) (by simp), List.length_set, hplace,
      List.getElem?_append_right (by omega), hlen]
    have hself : (head + (i + 1)) % xs.length = head := by
      rw [hi, Nat.add_mod_right, Nat.mod_eq_of_lt h]
    rw [hself, List.getElem?_set_self h]
    simp [show i - (xs.length - 1) = 0 by omega]
  · rw [List.getElem?_eq_none, List.getElem?_eq_none]
    · rw [List.length_append, hlen, List.length_singleton]
      omega
    · rw [length_window (by simp)]
      omega

end Works.Lib.Circular
