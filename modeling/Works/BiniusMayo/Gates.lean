import Works.Lib.Circuit
import Works.Lib.Keccak

/-! # The gates of the circuit frontend

The operations that the circuit builder offers on words of 64 bits, and its two hash gadgets,
with what they compute.  The Keccak permutation is a parameter. -/

namespace Works.BiniusMayo

open Lib Lib.Circuit

/-- An operation on words; a gadget with several outputs has an operation for each of them. -/
inductive Gate where
  | constant (w : Word)
  | band
  | bxor
  | bxorMulti
  | fax
  | shl (n : ℕ)
  | shr (n : ℕ)
  | sar (n : ℕ)
  | keccak256 (lenBytes : ℕ) (word : Fin 4)
  | keccakF1600 (lane : Fin 25)

abbrev Wire := Circuit.Wire Gate

abbrev CircuitBuilder := Build Gate

/-- What an operation computes. -/
def Gate.eval (f : KeccakState → KeccakState) : Gate → List Word → Word
  | .constant w, _ => w
  | .band, [x, y] => x &&& y
  | .bxor, [x, y] => x ^^^ y
  | .bxorMulti, xs => xs.foldl (· ^^^ ·) 0
  | .fax, [x, y, w] => (x &&& y) ^^^ w
  | .shl n, [x] => x <<< n
  | .shr n, [x] => x >>> n
  | .sar n, [x] => x.sshiftRight n
  | .keccak256 lenBytes word, xs =>
      wordAt (Lib.keccak256 f ((wordsBytes xs).take lenBytes)) word
  | .keccakF1600 lane, xs => f (fun i => xs.getD i 0) lane
  | _, _ => 0

/-! ### The builder's methods -/

def addConstant (w : Word) : CircuitBuilder Wire := addGate (.constant w) []

def band (x y : Wire) : CircuitBuilder Wire := addGate .band [x, y]

def bxor (x y : Wire) : CircuitBuilder Wire := addGate .bxor [x, y]

def bxorMulti (xs : List Wire) : CircuitBuilder Wire := addGate .bxorMulti xs

/-- Fused and-xor: `(x & y) ^ w`. -/
def fax (x y w : Wire) : CircuitBuilder Wire := addGate .fax [x, y, w]

def shl (x : Wire) (n : ℕ) : CircuitBuilder Wire := addGate (.shl n) [x]

def shr (x : Wire) (n : ℕ) : CircuitBuilder Wire := addGate (.shr n) [x]

def sar (x : Wire) (n : ℕ) : CircuitBuilder Wire := addGate (.sar n) [x]

/-- `if n == 0 { x } else { b.shl(x, n) }`: no gate where nothing is shifted. -/
def shlUnless0 (x : Wire) (n : ℕ) : CircuitBuilder Wire := if n = 0 then pure x else shl x n

/-- `if n == 0 { x } else { b.shr(x, n) }`. -/
def shrUnless0 (x : Wire) (n : ℕ) : CircuitBuilder Wire := if n = 0 then pure x else shr x n

/-- `keccak::fixed_length::keccak256`: the digest of the first `lenBytes` bytes of the message. -/
def keccak256 (message : List Wire) (lenBytes : ℕ) : CircuitBuilder (Fin 4 → Wire) :=
  fromFn 4 fun i => addGate (.keccak256 lenBytes i) message

/-- `Permutation::keccak_f1600`. -/
def keccakF1600 (state : Fin 25 → Wire) : CircuitBuilder (Fin 25 → Wire) :=
  fromFn 25 fun i => addGate (.keccakF1600 i) (List.ofFn state)

/-! ### Witnesses -/

/-- The words written to the input wires of a circuit. -/
structure WitnessFiller where
  inout : ℕ → Word
  witness : ℕ → Word

/-- `new_witness_filler`. -/
def WitnessFiller.empty : WitnessFiller := ⟨fun _ => 0, fun _ => 0⟩

/-- `w[wire] = word`; what gates compute is filled in later. -/
def WitnessFiller.set (w : WitnessFiller) : Wire → Word → WitnessFiller
  | .inout i, x => { w with inout := Function.update w.inout i x }
  | .witness i, x => { w with witness := Function.update w.witness i x }
  | .gate .., _ => w

/-- The word on an input wire. -/
def WitnessFiller.get (w : WitnessFiller) : Wire → Word
  | .inout i => w.inout i
  | .witness i => w.witness i
  | .gate .. => 0

/-- `write_le_words`: eight bytes to a wire. -/
def writeLeWords (w : WitnessFiller) (wires : List Wire) (bytes : List UInt8) : WitnessFiller :=
  (wires.zip (List.ofFn fun i : Fin wires.length => wordAt bytes i)).foldl
    (fun w wire => w.set wire.1 wire.2) w

/-! ### What they compute -/

variable {f : KeccakState → KeccakState} {v : Wire → Word} {β : Type} {A Q : β → Prop}

/-- A builder program that asserts `A` and whose result has `Q`, on every assignment that its
gates drive. -/
abbrev Emits (f : KeccakState → KeccakState) (v : Wire → Word) (p : CircuitBuilder β)
    (A Q : β → Prop) : Prop := Spec (Gate.eval f) v p A Q

/-- A builder program that asserts nothing. -/
abbrev Yields (f : KeccakState → KeccakState) (v : Wire → Word) (p : CircuitBuilder β)
    (Q : β → Prop) : Prop := Computes (Gate.eval f) v p Q

section Rules

variable {k : Wire → CircuitBuilder β} {x y w : Wire} {n : ℕ}

theorem addConstant_bind {c : Word} (h : ∀ w, v w = c → Emits f v (k w) A Q) :
    Emits f v (addConstant c >>= k) A Q := gate_bind h

theorem band_bind (h : ∀ w, v w = v x &&& v y → Emits f v (k w) A Q) :
    Emits f v (band x y >>= k) A Q := gate_bind h

theorem bxor_bind (h : ∀ w, v w = v x ^^^ v y → Emits f v (k w) A Q) :
    Emits f v (bxor x y >>= k) A Q := gate_bind h

theorem bxorMulti_bind {xs : List Wire}
    (h : ∀ w, v w = (xs.map v).foldl (· ^^^ ·) 0 → Emits f v (k w) A Q) :
    Emits f v (bxorMulti xs >>= k) A Q := gate_bind h

theorem fax_bind {z : Wire} (h : ∀ w, v w = (v x &&& v y) ^^^ v z → Emits f v (k w) A Q) :
    Emits f v (fax x y z >>= k) A Q := gate_bind h

theorem shl_bind (h : ∀ w, v w = v x <<< n → Emits f v (k w) A Q) :
    Emits f v (shl x n >>= k) A Q := gate_bind h

theorem shr_bind (h : ∀ w, v w = v x >>> n → Emits f v (k w) A Q) :
    Emits f v (shr x n >>= k) A Q := gate_bind h

end Rules

theorem shlUnless0_yields (x : Wire) (n : ℕ) :
    Yields f v (shlUnless0 x n) fun w => v w = v x <<< n := by
  unfold shlUnless0
  by_cases h : n = 0
  · subst h
    exact Computes.pure (by simp)
  · rw [if_neg h]
    exact addGate_spec _ _

theorem shrUnless0_yields (x : Wire) (n : ℕ) :
    Yields f v (shrUnless0 x n) fun w => v w = v x >>> n := by
  unfold shrUnless0
  by_cases h : n = 0
  · subst h
    exact Computes.pure (by simp)
  · rw [if_neg h]
    exact addGate_spec _ _

theorem band_yields (x y : Wire) : Yields f v (band x y) fun w => v w = v x &&& v y :=
  addGate_spec _ _

theorem bxorMulti_yields (xs : List Wire) :
    Yields f v (bxorMulti xs) fun w => v w = (xs.map v).foldl (· ^^^ ·) 0 := addGate_spec _ _

theorem sar_yields (x : Wire) (n : ℕ) : Yields f v (sar x n) fun w => v w = (v x).sshiftRight n :=
  addGate_spec _ _

theorem keccak256_yields (message : List Wire) (lenBytes : ℕ) :
    Yields f v (keccak256 message lenBytes) fun digest => ∀ i, v (digest i) =
      wordAt (Lib.keccak256 f ((wordsBytes (message.map v)).take lenBytes)) i :=
  fromFn_computes fun i => addGate_spec (.keccak256 lenBytes i) message

theorem keccakF1600_yields (state : Fin 25 → Wire) :
    Yields f v (keccakF1600 state) fun state' => ∀ i, v (state' i) = f (fun k => v (state k)) i := by
  refine Computes.mono (fromFn_computes fun i => addGate_spec (.keccakF1600 i) (List.ofFn state))
    fun state' h i => (h i).trans ?_
  have hargs : (fun k : Fin 25 => ((List.ofFn state).map v).getD k 0) = fun k => v (state k) := by
    funext k
    rw [List.map_ofFn, List.getD_eq_getElem?_getD, List.getElem?_ofFn, dif_pos k.isLt]
    rfl
  exact congrFun (congrArg f hargs) i

end Works.BiniusMayo
