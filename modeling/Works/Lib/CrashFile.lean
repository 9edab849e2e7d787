import Mathlib.Data.UInt
import Works.Lib.FixedArray

/-! # Files across a crash

A file is a list of elements: bytes, or records of one size.  Writing to it and changing its
length show at once to everyone who reads the file, but are safe from a crash only once the
file is synced: `contents` are the states it has been in since then.

After a crash (`Survives`) every element is one that the file held at that place in one of
these states, chosen place by place: a write survives, is lost or is torn.  Where the synced
file did not reach, the file may also have been extended without its data.  A file that
was growing may be found at any length in between; a cut takes effect as a whole or not
at all. -/

namespace Works.Lib

/-- A file: what it holds now, and what it held before since it was last synced, the latest
first. -/
structure CrashFile (α : Type) where
  now : List α
  past : List (List α)

namespace CrashFile

variable {α : Type}

/-- The file right after `l` was synced. -/
def synced (l : List α) : CrashFile α := ⟨l, []⟩

/-- All the states since the last sync. -/
def contents (f : CrashFile α) : List (List α) := f.now :: f.past

/-- What the last sync wrote. -/
def durable (f : CrashFile α) : List α := f.past.getLast?.getD f.now

/-- `sync_data`. -/
def sync (f : CrashFile α) : CrashFile α := synced f.now

/-- The file changes to `l`. -/
def become (f : CrashFile α) (l : List α) : CrashFile α := ⟨l, f.now :: f.past⟩

/-- The list with `xs` written at `off`; a gap before `off` is filled with zeros. -/
def writeAt [Zero α] (l : List α) (off : ℕ) (xs : List α) : List α :=
  if xs.isEmpty then l
  else FixedArray.splice (l ++ List.replicate (off - l.length) 0) off xs

/-- `write_all` at position `off`. -/
def write [Zero α] (f : CrashFile α) (off : ℕ) (xs : List α) : CrashFile α :=
  f.become (writeAt f.now off xs)

/-- `set_len`. -/
def setLen [Zero α] (f : CrashFile α) (n : ℕ) : CrashFile α :=
  f.become (f.now.take n ++ List.replicate (n - f.now.length) 0)

/-- A crash may leave the file as `s`. -/
structure Survives [Zero α] (f : CrashFile α) (s : List α) : Prop where
  length : ∃ v ∈ f.contents, s.length = v.length ∨
    f.durable.length ≤ s.length ∧ s.length ≤ v.length
  elems : ∀ (i : ℕ) (x : α), s[i]? = some x →
    (∃ v ∈ f.contents, v[i]? = some x) ∨ (f.durable[i]? = none ∧ x = 0)

@[simp] theorem contents_synced (l : List α) : (synced l).contents = [l] := rfl

@[simp] theorem now_synced (l : List α) : (synced l).now = l := rfl

@[simp] theorem durable_synced (l : List α) : (synced l).durable = l := rfl

@[simp] theorem contents_sync (f : CrashFile α) : f.sync.contents = [f.now] := rfl

@[simp] theorem now_become (f : CrashFile α) (l : List α) : (f.become l).now = l := rfl

@[simp] theorem contents_become (f : CrashFile α) (l : List α) :
    (f.become l).contents = l :: f.contents := rfl

theorem now_mem_contents (f : CrashFile α) : f.now ∈ f.contents := List.mem_cons_self

theorem durable_mem_contents (f : CrashFile α) : f.durable ∈ f.contents := by
  unfold durable contents
  cases h : f.past.getLast? with
  | none => exact List.mem_cons_self
  | some v => exact List.mem_cons_of_mem _ (List.mem_of_getLast? h)

@[simp] theorem durable_become (f : CrashFile α) (l : List α) :
    (f.become l).durable = f.durable := by
  unfold durable become
  cases f.past with
  | nil => rfl
  | cons v vs => simp [List.getLast?_cons]

/-! ### Writing -/

section Write

variable [Zero α]

theorem length_writeAt {l : List α} {off : ℕ} {xs : List α} (h : xs ≠ []) :
    (writeAt l off xs).length = max l.length (off + xs.length) := by
  rw [writeAt, if_neg (by simpa using h), FixedArray.splice]
  simp only [List.length_append, List.length_take, List.length_drop, List.length_replicate]
  omega

/-- The written elements. -/
theorem getElem?_writeAt_of_mem {l : List α} {off i : ℕ} {xs : List α} (h1 : off ≤ i)
    (h2 : i < off + xs.length) : (writeAt l off xs)[i]? = xs[i - off]? := by
  have hne : xs ≠ [] := by
    rintro rfl
    simp at h2
    omega
  rw [writeAt, if_neg (by simpa using hne), FixedArray.splice, List.append_assoc]
  have hlen : ((l ++ List.replicate (off - l.length) 0).take off).length = off := by
    simp only [List.length_take, List.length_append, List.length_replicate]
    omega
  rw [List.getElem?_append_right (by omega), hlen, List.getElem?_append_left (by omega)]

/-- Elsewhere the file is as before. -/
theorem getElem?_writeAt_of_lt {l : List α} {off i : ℕ} {xs : List α} (hi : i < l.length)
    (h : i < off ∨ off + xs.length ≤ i) : (writeAt l off xs)[i]? = l[i]? := by
  unfold writeAt
  split_ifs with hxs
  · rfl
  · rw [FixedArray.splice, List.append_assoc]
    have hlen : ((l ++ List.replicate (off - l.length) 0).take off).length = off := by
      simp only [List.length_take, List.length_append, List.length_replicate]
      omega
    rcases h with h | h
    · rw [List.getElem?_append_left (by omega), List.getElem?_take_of_lt h,
        List.getElem?_append_left hi]
    · rw [List.getElem?_append_right (by omega), hlen, List.getElem?_append_right (by omega),
        List.getElem?_drop, List.getElem?_append_left (by omega)]
      congr 1
      omega

/-- Reading with zeros after the end. -/
theorem getD_writeAt_of_not_mem {l : List α} {off i : ℕ} {xs : List α}
    (h : i < off ∨ off + xs.length ≤ i) : (writeAt l off xs).getD i 0 = l.getD i 0 := by
  rcases Nat.lt_or_ge i l.length with hi | hi
  · rw [List.getD_eq_getElem?_getD, getElem?_writeAt_of_lt hi h, List.getD_eq_getElem?_getD]
  · have h0 : l.getD i 0 = 0 := by
      rw [List.getD_eq_getElem?_getD, List.getElem?_eq_none hi, Option.getD_none]
    unfold writeAt
    split_ifs with hxs
    · rfl
    · rw [h0, FixedArray.splice, List.append_assoc, List.getD_eq_getElem?_getD]
      rcases h with h | h
      · have hlen : ((l ++ List.replicate (off - l.length) 0).take off).length = off := by
          simp only [List.length_take, List.length_append, List.length_replicate]
          omega
        rw [List.getElem?_append_left (by omega), List.getElem?_take_of_lt h,
          List.getElem?_append_right hi, List.getElem?_replicate]
        split_ifs <;> rfl
      · rw [List.getElem?_eq_none, Option.getD_none]
        simp only [List.length_append, List.length_take, List.length_drop, List.length_replicate]
        omega

/-- What stood after the place of the write is overwritten as far as the write reaches. -/
theorem writeAt_append (a junk xs : List α) :
    writeAt (a ++ junk) a.length xs = a ++ xs ++ junk.drop xs.length := by
  unfold writeAt
  split_ifs with h
  · rw [List.isEmpty_iff] at h
    simp [h]
  · rw [Nat.sub_eq_zero_of_le (by simp), List.replicate_zero, List.append_nil, FixedArray.splice,
      List.take_left, List.drop_append, List.drop_of_length_le (by omega), Nat.add_sub_cancel_left,
      List.nil_append]

@[simp] theorem length_setLen (f : CrashFile α) (n : ℕ) : (f.setLen n).now.length = n := by
  simp only [setLen, now_become, List.length_append, List.length_take, List.length_replicate]
  omega

end Write

/-! ### What survives -/

section Survives

variable [Zero α] {f : CrashFile α} {s : List α}

/-- Every state since the last sync may survive. -/
theorem survives_of_mem {v : List α} (hv : v ∈ f.contents) : f.Survives v where
  length := ⟨v, hv, Or.inl rfl⟩
  elems := fun _ _ h => Or.inl ⟨v, hv, h⟩

theorem survives_now (f : CrashFile α) : f.Survives f.now := survives_of_mem f.now_mem_contents

/-- An element on which all states agree is safe. -/
theorem Survives.getElem? (h : f.Survives s) {i : ℕ} {P : α → Prop}
    (hi : ∀ v ∈ f.contents, ∃ x, v[i]? = some x ∧ P x) : ∃ x, s[i]? = some x ∧ P x := by
  have hlt : ∀ v ∈ f.contents, i < v.length := by
    intro v hv
    obtain ⟨x, hx, -⟩ := hi v hv
    exact (List.getElem?_eq_some_iff.mp hx).1
  have hdur := hlt _ f.durable_mem_contents
  have hs : i < s.length := by
    obtain ⟨v, hv, h1 | h1⟩ := h.length
    · have := hlt v hv
      omega
    · omega
  refine ⟨s[i], List.getElem?_eq_getElem hs, ?_⟩
  rcases h.elems i s[i] (List.getElem?_eq_getElem hs) with ⟨v, hv, hx⟩ | ⟨hd, -⟩
  · obtain ⟨x, hx', hP⟩ := hi v hv
    rw [hx, Option.some.injEq] at hx'
    rw [hx']
    exact hP
  · rw [List.getElem?_eq_getElem hdur] at hd
    cases hd

/-- A beginning that all states share is safe. -/
theorem Survives.common_start (h : f.Survives s) {p : List α} (hp : ∀ v ∈ f.contents, p <+: v) :
    p <+: s := by
  rw [List.prefix_iff_getElem?]
  intro i hi
  obtain ⟨x, hx, rfl⟩ := h.getElem? (P := fun x => x = p[i]) (i := i) (by
    intro v hv
    exact ⟨p[i], List.prefix_iff_getElem?.mp (hp v hv) i hi, rfl⟩)
  exact hx

/-- What holds of all elements of all states, and of zeros, holds of what survives. -/
theorem Survives.all (h : f.Survives s) {P : ℕ → α → Prop} (h0 : ∀ i, P i 0)
    (hv : ∀ v ∈ f.contents, ∀ i x, v[i]? = some x → P i x) {i : ℕ} {x : α} (hx : s[i]? = some x) :
    P i x := by
  rcases h.elems i x hx with ⟨v, hmem, hvx⟩ | ⟨-, rfl⟩
  · exact hv v hmem i x hvx
  · exact h0 i

/-- A file with one state only survives as it is. -/
theorem Survives.eq_of_forall {l : List α} (h : f.Survives s) (hl : ∀ v ∈ f.contents, v = l) :
    s = l := by
  obtain ⟨v, hv, hlen⟩ := h.length
  rw [hl v hv, hl _ f.durable_mem_contents] at hlen
  obtain ⟨t, ht⟩ := h.common_start fun v hv => (hl v hv ▸ List.prefix_rfl : l <+: v)
  have : t = [] := by
    rw [← List.length_eq_zero_iff]
    have := congrArg List.length ht
    rw [List.length_append] at this
    omega
  rw [← ht, this, List.append_nil]

/-- Every element of the first list is that of the second or of the third at its place. -/
def mixes [DecidableEq α] : List α → List α → List α → Bool
  | [], [], [] => true
  | x :: s, y :: v, z :: w => (decide (x = y) || decide (x = z)) && mixes s v w
  | _, _, _ => false

omit [Zero α] in
theorem mixes_spec [DecidableEq α] : ∀ {s v w : List α}, mixes s v w = true →
    s.length = v.length ∧ ∀ (i : ℕ) (x : α), s[i]? = some x → v[i]? = some x ∨ w[i]? = some x
  | [], [], [], _ => ⟨rfl, by simp⟩
  | x :: s, y :: v, z :: w, h => by
      simp only [mixes, Bool.and_eq_true, Bool.or_eq_true, decide_eq_true_eq] at h
      obtain ⟨hlen, hget⟩ := mixes_spec h.2
      refine ⟨congrArg (· + 1) hlen, fun i => ?_⟩
      cases i with
      | zero =>
          rintro a ⟨⟩
          exact h.1.imp (fun hy => congrArg some hy.symm) fun hz => congrArg some hz.symm
      | succ i => exact hget i

/-- A mixture of two states may survive. -/
theorem survives_of_mixes [DecidableEq α] {v w : List α} (hv : v ∈ f.contents)
    (hw : w ∈ f.contents) (h : mixes s v w = true) : f.Survives s where
  length := ⟨v, hv, .inl (mixes_spec h).1⟩
  elems := by
    intro i x hx
    rcases (mixes_spec h).2 i x hx with hvx | hwx
    · exact .inl ⟨v, hv, hvx⟩
    · exact .inl ⟨w, hw, hwx⟩

/-- A write may be torn at any length, and onto any of the states before it. -/
theorem survives_torn (f : CrashFile α) {v : List α} (hv : v ∈ f.contents) {off : ℕ} (n : ℕ)
    {xs : List α} (hlen : off + xs.length ≤ v.length) :
    (f.write off xs).Survives (writeAt v off (xs.take n)) := by
  by_cases hxs : xs.take n = []
  · rw [hxs]
    exact survives_of_mem (List.mem_cons_of_mem _ hv)
  have htake : (xs.take n).length ≤ xs.length := List.length_take_le' n xs
  have hsame : (writeAt v off (xs.take n)).length = v.length := by
    rw [length_writeAt hxs]
    omega
  constructor
  · exact ⟨v, List.mem_cons_of_mem _ hv, .inl hsame⟩
  · intro i x hx
    left
    have hi := (List.getElem?_eq_some_iff.mp hx).1
    rw [hsame] at hi
    by_cases hin : off ≤ i ∧ i < off + (xs.take n).length
    · refine ⟨_, List.mem_cons_self, ?_⟩
      show (writeAt f.now off xs)[i]? = some x
      rw [getElem?_writeAt_of_mem hin.1 hin.2, List.getElem?_take_of_lt (by
        rw [List.length_take] at hin
        omega)] at hx
      rw [getElem?_writeAt_of_mem hin.1 (by omega), hx]
    · refine ⟨v, List.mem_cons_of_mem _ hv, ?_⟩
      rwa [getElem?_writeAt_of_lt hi (by omega)] at hx

/-- A file that was added to may be cut behind what is durable. -/
theorem survives_take {n : ℕ} (hn : f.durable.length ≤ n) (hn' : n ≤ f.now.length) :
    f.Survives (f.now.take n) where
  length := ⟨f.now, f.now_mem_contents, .inr (by rw [List.length_take]; omega)⟩
  elems := by
    intro i x hx
    rw [List.getElem?_take] at hx
    split_ifs at hx
    exact .inl ⟨f.now, f.now_mem_contents, hx⟩

end Survives

end CrashFile

end Works.Lib
