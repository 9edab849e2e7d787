import Mathlib.Tactic

/-! # Loops over a range

`for i in lo..hi` with a state, as a function (`loop`) and in a monad (`loopM`).  Two loops over
one range stay related when their bodies keep the relation (`loop_sim`); a loop that adds to its
state adds the sum (`loop_add`). -/

namespace Works.Lib

variable {σ τ : Type}

/-- `for i in lo..hi { s = body(i, s) }`. -/
def loop (lo hi : ℕ) (body : ℕ → σ → σ) (s : σ) : σ :=
  (List.range' lo (hi - lo)).foldl (fun s i => body i s) s

/-- `for i in lo..hi { s = body(i, s) }` with effects. -/
def loopM {m : Type → Type} [Monad m] (lo hi : ℕ) (body : ℕ → σ → m σ) (s : σ) : m σ :=
  (List.range' lo (hi - lo)).foldlM (fun s i => body i s) s

theorem range'_cons {lo hi : ℕ} (h : lo < hi) :
    List.range' lo (hi - lo) = lo :: List.range' (lo + 1) (hi - (lo + 1)) := by
  rw [show hi - lo = (hi - (lo + 1)) + 1 by omega, List.range'_succ]

@[simp] theorem loop_self (lo : ℕ) (body : ℕ → σ → σ) (s : σ) : loop lo lo body s = s := by
  simp [loop]

theorem loop_cons {lo hi : ℕ} (h : lo < hi) (body : ℕ → σ → σ) (s : σ) :
    loop lo hi body s = loop (lo + 1) hi body (body lo s) := by
  rw [loop, range'_cons h, List.foldl_cons, loop]

theorem loop_snoc {lo hi : ℕ} (h : lo ≤ hi) (body : ℕ → σ → σ) (s : σ) :
    loop lo (hi + 1) body s = body hi (loop lo hi body s) := by
  rw [loop, loop, Nat.succ_sub h, List.range'_1_concat, List.foldl_append, Nat.add_sub_cancel' h]
  rfl

@[simp] theorem loopM_self {m : Type → Type} [Monad m] (lo : ℕ) (body : ℕ → σ → m σ) (s : σ) :
    loopM lo lo body s = pure s := by
  simp [loopM]

theorem loopM_cons {m : Type → Type} [Monad m] {lo hi : ℕ} (h : lo < hi) (body : ℕ → σ → m σ)
    (s : σ) : loopM lo hi body s = body lo s >>= loopM (lo + 1) hi body := by
  rw [loopM, range'_cons h, List.foldlM_cons]
  rfl

/-- Two loops over a range stay related. -/
theorem loop_sim {R : ℕ → σ → τ → Prop} {f : ℕ → σ → σ} {g : ℕ → τ → τ} {lo hi : ℕ}
    (hle : lo ≤ hi)
    (hstep : ∀ i s t, lo ≤ i → i < hi → R i s t → R (i + 1) (f i s) (g i t)) {s : σ} {t : τ}
    (h : R lo s t) : R hi (loop lo hi f s) (loop lo hi g t) := by
  induction hle using Nat.decreasingInduction generalizing s t with
  | self => simpa using h
  | of_succ lo hlt ih =>
      rw [loop_cons hlt, loop_cons hlt]
      exact ih (fun i s t hi => hstep i s t (by omega)) (hstep lo s t le_rfl hlt h)

/-- A loop that adds to its state adds the sum. -/
theorem loop_add {G : Type} [AddCommMonoid G] (lo hi : ℕ) (c : ℕ → G) (g : G) :
    loop lo hi (fun i g => g + c i) g = g + ∑ i ∈ Finset.Ico lo hi, c i := by
  rcases Nat.lt_or_ge hi lo with hlt | hle
  · rw [Finset.Ico_eq_empty (by omega), Finset.sum_empty, add_zero, loop,
      Nat.sub_eq_zero_of_le hlt.le]
    rfl
  · induction hle using Nat.decreasingInduction generalizing g with
    | self => simp
    | of_succ lo hlt ih =>
        rw [loop_cons hlt, ih, Finset.sum_eq_sum_Ico_succ_bot hlt, add_assoc]

/-- A loop whose body adds `c i` to what its state stands for adds the sum. -/
theorem loop_adds {G : Type} [AddCommMonoid G] {R : ℕ → σ → G → Prop} {f : ℕ → σ → σ}
    {lo hi : ℕ} (c : ℕ → G) (hle : lo ≤ hi)
    (hstep : ∀ i s g, lo ≤ i → i < hi → R i s g → R (i + 1) (f i s) (g + c i)) {s : σ} {g : G}
    (h : R lo s g) : R hi (loop lo hi f s) (g + ∑ i ∈ Finset.Ico lo hi, c i) := by
  rw [← loop_add]
  exact loop_sim hle hstep h

/-- What every step keeps holds where a run of steps ends. -/
theorem foldlM_invariant {α : Type} {f : σ → α → Option σ} {P : σ → Prop}
    (hf : ∀ s a s', P s → f s a = some s' → P s') {as : List α} {s s' : σ} (hs : P s)
    (h : as.foldlM f s = some s') : P s' := by
  induction as generalizing s with
  | nil =>
      cases h
      exact hs
  | cons a as ih =>
      rw [List.foldlM_cons] at h
      obtain ⟨s₁, h₁, h₂⟩ := Option.bind_eq_some_iff.mp h
      exact ih (hf s a s₁ hs h₁) h₂

end Works.Lib
