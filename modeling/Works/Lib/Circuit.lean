import Works.Lib.Loops

/-! # Circuits from a builder

A builder hands out wires and emits constraints on them: a gate fixes the word on its output wire
by the words on its arguments, an assertion asks two wires to carry the same word.  The inputs of
the circuit are free.  The gates alone never stand in the way of an assignment (`evaluate`), so a
circuit is satisfiable for given inputs exactly if its assertions hold once every wire carries
what its gate computes (`satisfiable_iff`), and what the assertions say is found by following the
builder program from bind to bind (`Spec`). -/

namespace Works.Lib.Circuit

variable {Op W α β : Type}

/-- A wire: an input of the circuit, by its place among the inputs of its kind, or the output of
a gate. -/
inductive Wire (Op : Type) where
  | inout (index : ℕ)
  | witness (index : ℕ)
  | gate (index : ℕ) (op : Op) (args : List (Wire Op))

instance : Inhabited (Wire Op) := ⟨.inout 0⟩

/-- A wire that no gate drives. -/
def Wire.IsInput : Wire Op → Prop
  | .inout _ | .witness _ => True
  | .gate .. => False

/-- What a builder emits: that a gate's output carries what the gate computes, or that two wires
carry the same word. -/
inductive Constraint (Op : Type) where
  | gate (index : ℕ) (op : Op) (args : List (Wire Op))
  | assertEq (name : String) (a b : Wire Op)

/-- How many wires of each kind are taken. -/
structure Counts where
  inouts : ℕ
  witnesses : ℕ
  gates : ℕ

/-- What an action of the builder leaves behind. -/
structure Emission (Op α : Type) where
  val : α
  counts : Counts
  constraints : List (Constraint Op)

/-- An action of the builder, from the wires that are taken already. -/
structure Build (Op α : Type) where
  run : Counts → Emission Op α

/-! ### Actions -/

instance : Monad (Build Op) where
  pure a := ⟨fun n => ⟨a, n, []⟩⟩
  bind p f := ⟨fun n =>
    let e := p.run n
    let e' := (f e.val).run e.counts
    ⟨e'.val, e'.counts, e.constraints ++ e'.constraints⟩⟩

/-- A public input. -/
def addInout : Build Op (Wire Op) :=
  ⟨fun n => ⟨.inout n.inouts, { n with inouts := n.inouts + 1 }, []⟩⟩

/-- A private input. -/
def addWitness : Build Op (Wire Op) :=
  ⟨fun n => ⟨.witness n.witnesses, { n with witnesses := n.witnesses + 1 }, []⟩⟩

/-- The output of a new gate. -/
def addGate (op : Op) (args : List (Wire Op)) : Build Op (Wire Op) :=
  ⟨fun n => ⟨.gate n.gates op args, { n with gates := n.gates + 1 }, [.gate n.gates op args]⟩⟩

/-- Ask two wires to carry the same word. -/
def assertEq (name : String) (a b : Wire Op) : Build Op Unit :=
  ⟨fun n => ⟨(), n, [.assertEq name a b]⟩⟩

/-- `array::from_fn`, with an action for each place. -/
def fromFn : (n : ℕ) → (Fin n → Build Op α) → Build Op (Fin n → α)
  | 0, _ => pure Fin.elim0
  | n + 1, f => do
      let a ← f 0
      let as ← fromFn n fun i => f i.succ
      pure (Fin.cons a as)

@[simp] theorem pure_run (a : α) (n : Counts) : (pure a : Build Op α).run n = ⟨a, n, []⟩ := rfl

@[simp] theorem bind_val (p : Build Op α) (f : α → Build Op β) (n : Counts) :
    ((p >>= f).run n).val = ((f (p.run n).val).run (p.run n).counts).val := rfl

@[simp] theorem bind_counts (p : Build Op α) (f : α → Build Op β) (n : Counts) :
    ((p >>= f).run n).counts = ((f (p.run n).val).run (p.run n).counts).counts := rfl

@[simp] theorem bind_constraints (p : Build Op α) (f : α → Build Op β) (n : Counts) :
    ((p >>= f).run n).constraints =
      (p.run n).constraints ++ ((f (p.run n).val).run (p.run n).counts).constraints := rfl

instance : LawfulMonad (Build Op) := LawfulMonad.mk' _
  (fun p => by simp [Functor.map])
  (fun a f => by simp [bind, pure])
  (fun p f g => by simp [bind])

/-! ### Assignments -/

/-- The word on a gate's output when each wire carries what its gate computes, from the words on
the inputs. -/
def evaluate (sem : Op → List W → W) (x : Wire Op → W) : Wire Op → W
  | .gate _ op args => sem op (args.map (evaluate sem x))
  | w => x w

variable (sem : Op → List W → W)

/-- The assignment `v` meets the constraint. -/
def Constraint.Holds (v : Wire Op → W) : Constraint Op → Prop
  | .gate i op args => v (.gate i op args) = sem op (args.map v)
  | .assertEq _ a b => v a = v b

/-- The assignment `v` meets all constraints. -/
def Satisfies (v : Wire Op → W) (cs : List (Constraint Op)) : Prop := ∀ c ∈ cs, c.Holds sem v

/-- The assignments `x` and `v` agree on the inputs. -/
def SameInputs (x v : Wire Op → W) : Prop := ∀ w : Wire Op, w.IsInput → v w = x w

/-- The wires that are not inputs can be given words such that all constraints hold. -/
def Satisfiable (x : Wire Op → W) (cs : List (Constraint Op)) : Prop :=
  ∃ v, SameInputs x v ∧ Satisfies sem v cs

/-- Every gate's output carries what the gate computes. -/
def Driven (v : Wire Op → W) (cs : List (Constraint Op)) : Prop :=
  ∀ i op args, Constraint.gate i op args ∈ cs → v (.gate i op args) = sem op (args.map v)

/-- The two sides of every assertion carry the same word. -/
def Asserted (v : Wire Op → W) (cs : List (Constraint Op)) : Prop :=
  ∀ name a b, Constraint.assertEq name a b ∈ cs → v a = v b

variable {sem} {v x : Wire Op → W} {cs ds : List (Constraint Op)}

theorem satisfies_iff : Satisfies sem v cs ↔ Driven sem v cs ∧ Asserted v cs := by
  constructor
  · intro h
    exact ⟨fun i op args hc => h _ hc, fun name a b hc => h _ hc⟩
  · rintro ⟨hd, ha⟩ c hc
    cases c with
    | gate i op args => exact hd i op args hc
    | assertEq name a b => exact ha name a b hc

theorem Driven.of_append (h : Driven sem v (cs ++ ds)) : Driven sem v cs ∧ Driven sem v ds :=
  ⟨fun i op args hc => h i op args (List.mem_append_left _ hc),
    fun i op args hc => h i op args (List.mem_append_right _ hc)⟩

theorem asserted_append : Asserted v (cs ++ ds) ↔ Asserted v cs ∧ Asserted v ds := by
  simp only [Asserted, List.mem_append]
  constructor
  · intro h
    exact ⟨fun name a b hc => h name a b (.inl hc), fun name a b hc => h name a b (.inr hc)⟩
  · rintro ⟨hc, hd⟩ name a b h
    exact h.elim (hc name a b) (hd name a b)

@[simp] theorem evaluate_gate (i : ℕ) (op : Op) (args : List (Wire Op)) :
    evaluate sem x (.gate i op args) = sem op (args.map (evaluate sem x)) := by
  simp [evaluate]

theorem sameInputs_evaluate : SameInputs x (evaluate sem x) := by
  intro w hw
  cases w with
  | inout i => simp [evaluate]
  | witness i => simp [evaluate]
  | gate i op args => exact absurd hw id

/-- Gates never conflict: letting each of them compute its output meets them all. -/
theorem driven_evaluate : Driven sem (evaluate sem x) cs := fun i op args _ => evaluate_gate i op args

/-! ### What a builder program asserts -/

/-- On every assignment that the gates of `p` drive, `Q` holds of the result of `p`, and the
assertions that `p` emits say `A` of it. -/
def Spec (sem : Op → List W → W) (v : Wire Op → W) (p : Build Op α) (A Q : α → Prop) : Prop :=
  ∀ n, Driven sem v (p.run n).constraints →
    Q (p.run n).val ∧ (Asserted v (p.run n).constraints ↔ A (p.run n).val)

/-- A program that asserts nothing. -/
abbrev Computes (sem : Op → List W → W) (v : Wire Op → W) (p : Build Op α) (Q : α → Prop) : Prop :=
  Spec sem v p (fun _ => True) Q

section Rules

variable {p : Build Op α} {f : α → Build Op β} {A Q : α → Prop} {B R : β → Prop}

theorem asserted_nil : Asserted v ([] : List (Constraint Op)) := fun _ _ _ h => nomatch h

theorem Computes.pure {a : α} (h : Q a) : Computes sem v (pure a : Build Op α) Q :=
  fun _ _ => ⟨h, iff_of_true asserted_nil trivial⟩

/-- What is asserted before the bind and after it comes together. -/
theorem Spec.bind {A : Prop} (hp : Spec sem v p (fun _ => A) Q)
    (hf : ∀ a, Q a → Spec sem v (f a) B R) : Spec sem v (p >>= f) (fun b => A ∧ B b) R := by
  intro n hd
  obtain ⟨hd₁, hd₂⟩ := hd.of_append
  obtain ⟨hq, ha⟩ := hp n hd₁
  obtain ⟨hr, hb⟩ := hf _ hq _ hd₂
  exact ⟨hr, by rw [bind_constraints, asserted_append, ha, hb, bind_val]⟩

theorem Computes.bind (hp : Computes sem v p Q) (hf : ∀ a, Q a → Spec sem v (f a) B R) :
    Spec sem v (p >>= f) B R := by
  intro n hd
  obtain ⟨hr, hb⟩ := Spec.bind hp hf n hd
  exact ⟨hr, hb.trans (and_iff_right trivial)⟩

theorem Spec.mono {A' Q' : α → Prop} (hp : Spec sem v p A Q)
    (h : ∀ a, Q a → Q' a ∧ (A a ↔ A' a)) : Spec sem v p A' Q' := by
  intro n hd
  obtain ⟨hq, ha⟩ := hp n hd
  obtain ⟨hq', haa⟩ := h _ hq
  exact ⟨hq', ha.trans haa⟩

theorem Computes.mono {Q' : α → Prop} (hp : Computes sem v p Q) (h : ∀ a, Q a → Q' a) :
    Computes sem v p Q' :=
  Spec.mono hp fun a ha => ⟨h a ha, Iff.rfl⟩

theorem addInout_spec : Computes sem v addInout Wire.IsInput :=
  fun _ _ => ⟨trivial, iff_of_true asserted_nil trivial⟩

theorem addWitness_spec : Computes sem v addWitness Wire.IsInput :=
  fun _ _ => ⟨trivial, iff_of_true asserted_nil trivial⟩

theorem addGate_spec (op : Op) (args : List (Wire Op)) :
    Computes sem v (addGate op args) fun w => v w = sem op (args.map v) := by
  intro n hd
  refine ⟨hd n.gates op args (List.mem_singleton.mpr rfl), iff_of_true ?_ trivial⟩
  intro name a b h
  cases List.mem_singleton.mp h

theorem assertEq_spec (name : String) (a b : Wire Op) :
    Spec sem v (assertEq name a b) (fun _ => v a = v b) fun _ => True := by
  intro n _
  refine ⟨trivial, fun h => h name a b (List.mem_singleton.mpr rfl), fun h name' a' b' hmem => ?_⟩
  cases List.mem_singleton.mp hmem
  exact h

/-- A gate's output goes into what follows it. -/
theorem gate_bind {op : Op} {args : List (Wire Op)} {f : Wire Op → Build Op β}
    (hf : ∀ w, v w = sem op (args.map v) → Spec sem v (f w) B R) :
    Spec sem v (addGate op args >>= f) B R :=
  Computes.bind (addGate_spec op args) hf

/-! ### Loops -/

theorem fromFn_spec {n : ℕ} {f : Fin n → Build Op α} {A : Fin n → Prop} {Q : Fin n → α → Prop}
    (h : ∀ i, Spec sem v (f i) (fun _ => A i) (Q i)) :
    Spec sem v (fromFn n f) (fun _ => ∀ i, A i) fun as => ∀ i, Q i (as i) := by
  induction n with
  | zero =>
      exact Spec.mono (Computes.pure (Q := fun _ => True) trivial)
        fun _ _ => ⟨fun i => i.elim0, iff_of_true trivial fun i => i.elim0⟩
  | succ n ih =>
      refine Spec.mono (Spec.bind (h 0) fun a ha => Spec.bind (ih fun i => h i.succ)
        fun as has => Computes.pure (Q := fun bs : Fin (n + 1) → α => ∀ i, Q i (bs i)) ?_) ?_
      · exact Fin.cases ha has
      · intro as has
        refine ⟨has, ?_⟩
        rw [Fin.forall_fin_succ, and_true]

theorem fromFn_computes {n : ℕ} {f : Fin n → Build Op α} {Q : Fin n → α → Prop}
    (h : ∀ i, Computes sem v (f i) (Q i)) :
    Computes sem v (fromFn n f) fun as => ∀ i, Q i (as i) :=
  Spec.mono (fromFn_spec h) fun _ has => ⟨has, by simp⟩

/-- A loop of the builder stays related to a loop on what its state stands for. -/
theorem loopM_computes {σ τ : Type} {R : ℕ → σ → τ → Prop} {f : ℕ → σ → Build Op σ}
    {g : ℕ → τ → τ} {lo hi : ℕ} (hle : lo ≤ hi)
    (hstep : ∀ i s t, lo ≤ i → i < hi → R i s t →
      Computes sem v (f i s) fun s' => R (i + 1) s' (g i t)) {s : σ} {t : τ} (h : R lo s t) :
    Computes sem v (loopM lo hi f s) fun s' => R hi s' (loop lo hi g t) := by
  induction hle using Nat.decreasingInduction generalizing s t with
  | self =>
      rw [loopM_self, loop_self]
      exact Computes.pure h
  | of_succ lo hlt ih =>
      rw [loopM_cons hlt, loop_cons hlt]
      exact Computes.bind (hstep lo s t le_rfl hlt h) fun s' hs' =>
        ih (fun i s t hi => hstep i s t (by omega)) hs'

/-- A loop of the builder whose body adds `c i` to what its state stands for adds the sum. -/
theorem loopM_adds {σ G : Type} [AddCommMonoid G] {R : ℕ → σ → G → Prop}
    {f : ℕ → σ → Build Op σ} {lo hi : ℕ} (c : ℕ → G) (hle : lo ≤ hi)
    (hstep : ∀ i s g, lo ≤ i → i < hi → R i s g →
      Computes sem v (f i s) fun s' => R (i + 1) s' (g + c i)) {s : σ} {g : G} (h : R lo s g) :
    Computes sem v (loopM lo hi f s) fun s' => R hi s' (g + ∑ i ∈ Finset.Ico lo hi, c i) := by
  rw [← loop_add]
  exact loopM_computes hle hstep h

/-- A loop over a list keeps an invariant on the part that is done. -/
theorem foldlM_computes {σ : Type} {f : σ → α → Build Op σ} {Inv : List α → σ → Prop}
    (hf : ∀ done s a, Inv done s → Computes sem v (f s a) fun s' => Inv (done ++ [a]) s') :
    ∀ (l done : List α) (s : σ), Inv done s →
      Computes sem v (l.foldlM f s) fun s' => Inv (done ++ l) s'
  | [], done, _, h => Computes.pure (by simpa using h)
  | a :: l, done, s, h => by
      rw [List.foldlM_cons]
      refine Computes.bind (hf done s a h) fun s' hs' => ?_
      have := foldlM_computes hf l (done ++ [a]) s' hs'
      rwa [List.append_assoc] at this

theorem mapM_computes {f : α → Build Op β} {Q : α → β → Prop} (hf : ∀ a, Computes sem v (f a) (Q a)) :
    ∀ l : List α, Computes sem v (l.mapM f) fun bs => List.Forall₂ Q l bs
  | [] => Computes.pure .nil
  | a :: l => by
      rw [List.mapM_cons]
      exact Computes.bind (hf a) fun b hb => Computes.bind (mapM_computes hf l) fun bs hbs =>
        Computes.pure (.cons hb hbs)

end Rules

/-! ### Satisfiability -/

/-- **What a circuit says of its inputs.**  If the assertions of a program say `P` of every
assignment that its gates drive from the inputs, its constraints can be met from these inputs
exactly if `P` holds. -/
theorem satisfiable_iff {p : Build Op α} {n : Counts} {P : Prop}
    (h : ∀ v, SameInputs x v → Driven sem v (p.run n).constraints →
      (Asserted v (p.run n).constraints ↔ P)) :
    Satisfiable sem x (p.run n).constraints ↔ P := by
  constructor
  · rintro ⟨v, hx, hv⟩
    obtain ⟨hd, ha⟩ := satisfies_iff.mp hv
    exact (h v hx hd).mp ha
  · intro hP
    refine ⟨evaluate sem x, sameInputs_evaluate, satisfies_iff.mpr ⟨driven_evaluate, ?_⟩⟩
    exact (h _ sameInputs_evaluate driven_evaluate).mpr hP

/-- The constraints can be met exactly if letting every gate compute its output meets them. -/
theorem satisfies_evaluate_iff {p : Build Op α} {n : Counts} {P : Prop}
    (h : ∀ v, SameInputs x v → Driven sem v (p.run n).constraints →
      (Asserted v (p.run n).constraints ↔ P)) :
    Satisfies sem (evaluate sem x) (p.run n).constraints ↔ P := by
  rw [satisfies_iff, h _ sameInputs_evaluate driven_evaluate]
  exact and_iff_right driven_evaluate

end Works.Lib.Circuit
