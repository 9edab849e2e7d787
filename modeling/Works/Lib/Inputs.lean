import Works.Lib.Circuit

/-! # The inputs of a circuit

A builder never hands out an input twice.  Followed from bind to bind (`Allocates`), the inputs of
a program are a list without repetitions, so what is written to one of them stays there while
others are written. -/

namespace Works.Lib.Circuit

variable {Op α β : Type}

/-- An input that is handed out after the wires `n` are taken and before the wires `n'` are. -/
def Wire.Between (n n' : Counts) : Wire Op → Prop
  | .inout i => n.inouts ≤ i ∧ i < n'.inouts
  | .witness i => n.witnesses ≤ i ∧ i < n'.witnesses
  | .gate .. => False

/-- Inputs that are handed out between `n` and `n'`, each of them once. -/
structure Fresh (ws : List (Wire Op)) (n n' : Counts) : Prop where
  inouts_le : n.inouts ≤ n'.inouts
  witnesses_le : n.witnesses ≤ n'.witnesses
  nodup : ws.Nodup
  between : ∀ w ∈ ws, w.Between n n'

theorem Wire.Between.mono {n₁ n₂ n₃ n₄ : Counts} {w : Wire Op} (h : w.Between n₂ n₃)
    (hi : n₁.inouts ≤ n₂.inouts) (hw : n₁.witnesses ≤ n₂.witnesses) (hi' : n₃.inouts ≤ n₄.inouts)
    (hw' : n₃.witnesses ≤ n₄.witnesses) : w.Between n₁ n₄ := by
  cases w with
  | inout i => exact ⟨hi.trans h.1, h.2.trans_le hi'⟩
  | witness i => exact ⟨hw.trans h.1, h.2.trans_le hw'⟩
  | gate i op args => exact h

theorem Fresh.isInput {ws : List (Wire Op)} {n n' : Counts} (h : Fresh ws n n') {w : Wire Op}
    (hw : w ∈ ws) : w.IsInput := by
  have hbetween := h.between w hw
  cases w with
  | inout i => trivial
  | witness i => trivial
  | gate i op args => exact hbetween

theorem Fresh.nil (n : Counts) : Fresh ([] : List (Wire Op)) n n :=
  ⟨le_rfl, le_rfl, List.nodup_nil, fun _ h => nomatch h⟩

/-- What is handed out later is new. -/
theorem Fresh.append {ws us : List (Wire Op)} {n n' n'' : Counts} (h : Fresh ws n n')
    (h' : Fresh us n' n'') : Fresh (ws ++ us) n n'' := by
  refine ⟨h.inouts_le.trans h'.inouts_le, h.witnesses_le.trans h'.witnesses_le, ?_, ?_⟩
  · refine List.nodup_append.mpr ⟨h.nodup, h'.nodup, fun w hw u hu heq => ?_⟩
    subst heq
    have hbefore := h.between w hw
    have hafter := h'.between w hu
    cases w with
    | inout i => exact absurd hbefore.2 (Nat.not_lt.mpr hafter.1)
    | witness i => exact absurd hbefore.2 (Nat.not_lt.mpr hafter.1)
    | gate i op args => exact hbefore
  · intro w hw
    cases List.mem_append.mp hw with
    | inl hw => exact (h.between w hw).mono le_rfl le_rfl h'.inouts_le h'.witnesses_le
    | inr hw => exact (h'.between w hw).mono h.inouts_le h.witnesses_le le_rfl le_rfl

/-- The inputs that a program hands out, against its result. -/
def Allocates (p : Build Op α) (Q : α → List (Wire Op) → Prop) : Prop :=
  ∀ n, ∃ ws, Fresh ws n (p.run n).counts ∧ Q (p.run n).val ws

theorem Allocates.fresh {p : Build Op α} {g : α → List (Wire Op)}
    (h : Allocates p fun a ws => ws = g a) (n : Counts) :
    Fresh (g (p.run n).val) n (p.run n).counts := by
  obtain ⟨ws, hws, heq⟩ := h n
  subst heq
  exact hws

/-- A program that hands out no inputs. -/
abbrev NoInputs (p : Build Op α) : Prop := Allocates p fun _ ws => ws = []

section Rules

variable {p : Build Op α} {f : α → Build Op β} {P : α → List (Wire Op) → Prop}
  {Q : β → List (Wire Op) → Prop}

theorem Allocates.pure {a : α} {P : α → List (Wire Op) → Prop} (h : P a []) :
    Allocates (pure a : Build Op α) P := fun n => ⟨[], Fresh.nil n, h⟩

theorem addInout_allocates : Allocates (addInout : Build Op (Wire Op)) fun w ws => ws = [w] := by
  intro n
  refine ⟨_, ⟨Nat.le_succ _, le_rfl, List.nodup_singleton _, fun w hw => ?_⟩, rfl⟩
  rw [List.mem_singleton.mp hw]
  exact ⟨le_rfl, Nat.lt_succ_self _⟩

theorem addWitness_allocates :
    Allocates (addWitness : Build Op (Wire Op)) fun w ws => ws = [w] := by
  intro n
  refine ⟨_, ⟨le_rfl, Nat.le_succ _, List.nodup_singleton _, fun w hw => ?_⟩, rfl⟩
  rw [List.mem_singleton.mp hw]
  exact ⟨le_rfl, Nat.lt_succ_self _⟩

theorem addGate_noInputs (op : Op) (args : List (Wire Op)) : NoInputs (addGate op args) :=
  fun _ => ⟨[], ⟨le_rfl, le_rfl, List.nodup_nil, fun _ h => nomatch h⟩, rfl⟩

/-- What comes after the bind hands out other inputs. -/
theorem Allocates.bind (hp : Allocates p P)
    (hf : ∀ a ws, P a ws → Allocates (f a) fun b us => Q b (ws ++ us)) :
    Allocates (p >>= f) Q := by
  intro n
  obtain ⟨ws, hws, hP⟩ := hp n
  obtain ⟨us, hus, hQ⟩ := hf _ ws hP (p.run n).counts
  exact ⟨ws ++ us, hws.append hus, hQ⟩

theorem NoInputs.bind (hp : NoInputs p) (hf : ∀ a, Allocates (f a) Q) : Allocates (p >>= f) Q :=
  Allocates.bind hp fun a ws hws => by
    subst hws
    exact hf a

theorem Allocates.mono {P' : α → List (Wire Op) → Prop} (hp : Allocates p P)
    (h : ∀ a ws, P a ws → P' a ws) : Allocates p P' := by
  intro n
  obtain ⟨ws, hws, hP⟩ := hp n
  exact ⟨ws, hws, h _ ws hP⟩

/-- An action for each place, each with its own inputs. -/
theorem fromFn_allocates {n : ℕ} {f : Fin n → Build Op α} {g : α → List (Wire Op)}
    (h : ∀ i, Allocates (f i) fun a ws => ws = g a) :
    Allocates (fromFn n f) fun as ws => ws = (List.ofFn fun i => g (as i)).flatten := by
  induction n with
  | zero => exact Allocates.pure rfl
  | succ n ih =>
      refine Allocates.bind (h 0) fun a ws hws => Allocates.bind (ih fun i => h i.succ)
        fun as us hus => Allocates.pure ?_
      rw [hws, hus, List.append_nil, List.ofFn_succ]
      rfl

theorem fromFn_noInputs {n : ℕ} {f : Fin n → Build Op α} (h : ∀ i, NoInputs (f i)) :
    NoInputs (fromFn n f) :=
  Allocates.mono (fromFn_allocates (g := fun _ => []) h) fun as ws hws => by simpa using hws

theorem mapM_allocates {γ : Type} {f : γ → Build Op α} {g : α → List (Wire Op)}
    (h : ∀ c, Allocates (f c) fun a ws => ws = g a) :
    ∀ l : List γ, Allocates (l.mapM f) fun as ws => ws = as.flatMap g
  | [] => Allocates.pure rfl
  | c :: l => by
      rw [List.mapM_cons]
      refine Allocates.bind (h c) fun a ws hws => Allocates.bind (mapM_allocates h l)
        fun as us hus => Allocates.pure ?_
      rw [hws, hus, List.append_nil, List.flatMap_cons]

end Rules

end Works.Lib.Circuit
