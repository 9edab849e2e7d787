import Works.Lib.CrashFile

/-! # Directories across a crash

A directory leads from names to files.  A change of names shows at once, but is safe from a crash
only once the directory is synced: `past` are the names it held since then.  A file keeps its own
states (`CrashFile`), whatever it is called.

After a crash (`Survives`) every name leads where it led in one of these states, chosen name by
name, so that a rename may be found done, undone, under both names or under neither.

`Away` says that a step stays away from some watched names and the files behind them.  It may do
what it likes with one scratch name, as long as no watched name leads to the same file
(`Watch`). -/

namespace Works.Lib

/-- Names with the files they lead to. -/
structure Names (ν : Type) where
  entries : List (ν × ℕ)

namespace Names

variable {ν : Type} [DecidableEq ν] {n n' : ν} {i : ℕ}

/-- The file behind a name. -/
def find (m : Names ν) (n : ν) : Option ℕ := (m.entries.find? fun e => e.1 = n).map (·.2)

/-- The names without one of them. -/
def erase (m : Names ν) (n : ν) : Names ν := ⟨m.entries.filter fun e => e.1 ≠ n⟩

/-- The names with one of them leading to `i`. -/
def insert (m : Names ν) (n : ν) (i : ℕ) : Names ν := ⟨(n, i) :: (m.erase n).entries⟩

@[simp] theorem find_erase_self (m : Names ν) (n : ν) : (m.erase n).find n = none := by
  simp [find, erase]

theorem find_erase_of_ne (m : Names ν) (h : n' ≠ n) : (m.erase n).find n' = m.find n' := by
  unfold find erase
  rw [List.find?_filter]
  congr 2
  funext e
  by_cases he : e.1 = n'
  · simp [he, h]
  · simp [he]

@[simp] theorem find_insert_self (m : Names ν) (n : ν) (i : ℕ) : (m.insert n i).find n = some i := by
  simp [find, insert]

theorem find_insert_of_ne (m : Names ν) (h : n' ≠ n) : (m.insert n i).find n' = m.find n' := by
  rw [← find_erase_of_ne m h]
  unfold find insert
  rw [List.find?_cons_of_neg (by simpa using Ne.symm h)]

end Names

/-- A directory: its names, the names it held before since it was last synced, and its files. -/
structure CrashDir (ν α : Type) where
  names : Names ν
  past : List (Names ν)
  files : ℕ → CrashFile α
  next : ℕ

namespace CrashDir

variable {ν α : Type} [DecidableEq ν]

/-- All the states of the names since the last sync. -/
def states (d : CrashDir ν α) : List (Names ν) := d.names :: d.past

/-- An empty directory. -/
def empty : CrashDir ν α := ⟨⟨[]⟩, [], fun _ => .synced [], 0⟩

/-- The names change to `m`. -/
def become (d : CrashDir ν α) (m : Names ν) : CrashDir ν α :=
  { d with names := m, past := d.names :: d.past }

/-- The file `i` changes to `f`. -/
def setFile (d : CrashDir ν α) (i : ℕ) (f : CrashFile α) : CrashDir ν α :=
  { d with files := Function.update d.files i f }

/-- A new file. -/
def create (d : CrashDir ν α) (n : ν) (f : CrashFile α) : CrashDir ν α where
  names := d.names.insert n d.next
  past := d.names :: d.past
  files := Function.update d.files d.next f
  next := d.next + 1

@[simp] theorem files_create (d : CrashDir ν α) (n : ν) (f : CrashFile α) :
    (d.create n f).files d.next = f := Function.update_self _ _ _

@[simp] theorem setFile_create (d : CrashDir ν α) (n : ν) (f g : CrashFile α) :
    (d.create n f).setFile d.next g = d.create n g := by
  simp [create, setFile]

/-! ### Calls -/

section Calls

variable [Zero α]

/-- The file behind a name, which is created if it is missing. -/
def target (d : CrashDir ν α) (n : ν) : ℕ × CrashDir ν α :=
  match d.names.find n with
  | some i => (i, d)
  | none => (d.next, d.create n (.synced []))

/-- The whole file. -/
def read (d : CrashDir ν α) (n : ν) : Option (List α) :=
  (d.names.find n).map fun i => (d.files i).now

/-- Truncate the file and write. -/
def write (d : CrashDir ν α) (n : ν) (xs : List α) : CrashDir ν α :=
  let (i, d) := d.target n
  d.setFile i (((d.files i).setLen 0).write 0 xs)

/-- Write at an offset. -/
def writeAt (d : CrashDir ν α) (n : ν) (off : ℕ) (xs : List α) : CrashDir ν α :=
  let (i, d) := d.target n
  d.setFile i ((d.files i).write off xs)

/-- Sync a file. -/
def fsyncFile (d : CrashDir ν α) (n : ν) : Option (CrashDir ν α) :=
  (d.names.find n).map fun i => d.setFile i (d.files i).sync

/-- Move a file to another name. -/
def rename (d : CrashDir ν α) (old new : ν) : Option (CrashDir ν α) :=
  (d.names.find old).map fun i => d.become ((d.names.erase old).insert new i)

/-- Remove a name. -/
def remove (d : CrashDir ν α) (n : ν) : Option (CrashDir ν α) :=
  (d.names.find n).map fun _ => d.become (d.names.erase n)

/-- The names. -/
def list (d : CrashDir ν α) : List ν := d.names.entries.map Prod.fst

/-- Sync the names. -/
def fsyncDir (d : CrashDir ν α) : CrashDir ν α := { d with past := [] }

/-- A crash may leave the directory as `d'`. -/
structure Survives (d d' : CrashDir ν α) : Prop where
  names : ∀ n, ∃ m ∈ d.states, d'.names.find n = m.find n
  nodup : d'.list.Nodup
  past : d'.past = []
  files : ∀ i, ∃ s, (d.files i).Survives s ∧ d'.files i = .synced s
  next : d'.next = d.next

end Calls

/-! ### What is safe -/

/-- The name leads to `i`, also after a crash. -/
def Named (d : CrashDir ν α) (n : ν) (i : ℕ) : Prop := ∀ m ∈ d.states, m.find n = some i

/-- Every file behind a name has been created. -/
def Fresh (d : CrashDir ν α) : Prop := ∀ m ∈ d.states, ∀ n i, m.find n = some i → i < d.next

/-- No watched name leads to a file of the scratch name. -/
structure Watch (K : ν → Prop) (scratch : ν) (d : CrashDir ν α) : Prop where
  fresh : d.Fresh
  apart : ∀ m ∈ d.states, ∀ m' ∈ d.states, ∀ n, K n → ∀ i, m.find n = some i →
    m'.find scratch ≠ some i

/-- A step from `d` to `d'` leaves the watched names and the files behind them alone; the scratch
name leads where it did or to a new file. -/
structure Away (K : ν → Prop) (scratch : ν) (d d' : CrashDir ν α) : Prop where
  now : ∀ n, K n → d'.names.find n = d.names.find n
  names : ∀ m' ∈ d'.states, ∃ m ∈ d.states, ∀ n, K n → m'.find n = m.find n
  scratch : ∀ m' ∈ d'.states, ∀ i, m'.find scratch = some i →
    (∃ m ∈ d.states, m.find scratch = some i) ∨ d.next ≤ i
  files : ∀ m ∈ d.states, ∀ n, K n → ∀ i, m.find n = some i → d'.files i = d.files i
  fresh : d'.Fresh

section Watch

variable {K : ν → Prop} {scratch n : ν} {d d' : CrashDir ν α} {i : ℕ}

theorem Away.refl (h : d.Fresh) : Away K scratch d d where
  now := fun _ _ => rfl
  names := fun m hm => ⟨m, hm, fun _ _ => rfl⟩
  scratch := fun m hm _ hi => .inl ⟨m, hm, hi⟩
  files := fun _ _ _ _ _ _ => rfl
  fresh := h

/-- The watch goes on. -/
theorem Watch.away (h : Watch K scratch d) (ha : Away K scratch d d') : Watch K scratch d' where
  fresh := ha.fresh
  apart := by
    intro m hm m' hm' n hn i hi hs
    obtain ⟨m₁, hm₁, hsame⟩ := ha.names m hm
    rw [hsame n hn] at hi
    rcases ha.scratch m' hm' i hs with ⟨m₂, hm₂, hs₂⟩ | hnew
    · exact h.apart m₁ hm₁ m₂ hm₂ n hn i hi hs₂
    · have := h.fresh m₁ hm₁ n i hi
      omega

theorem Named.away (h : d.Named n i) (hn : K n) (ha : Away K scratch d d') : d'.Named n i := by
  intro m hm
  obtain ⟨m₁, hm₁, hsame⟩ := ha.names m hm
  rw [hsame n hn]
  exact h m₁ hm₁

/-- A watched file reads as before. -/
theorem Away.read (ha : Away K scratch d d') (hn : K n) : d'.read n = d.read n := by
  unfold CrashDir.read
  rw [ha.now n hn]
  cases hi : d.names.find n with
  | none => rfl
  | some i =>
      rw [Option.map_some, Option.map_some, ha.files d.names List.mem_cons_self n hn i hi]

/-- The file behind a watched name. -/
theorem Named.files_away (h : d.Named n i) (hn : K n) (ha : Away K scratch d d') :
    d'.files i = d.files i :=
  ha.files d.names List.mem_cons_self n hn i (h _ List.mem_cons_self)

/-- Calls that change a file of the scratch name. -/
theorem Watch.setFile (h : Watch K scratch d) (hi : ∃ m ∈ d.states, m.find scratch = some i)
    (f : CrashFile α) : Away K scratch d (d.setFile i f) where
  now := fun _ _ => rfl
  names := fun m hm => ⟨m, hm, fun _ _ => rfl⟩
  scratch := fun m hm _ hi => .inl ⟨m, hm, hi⟩
  files := by
    intro m hm n hn j hj
    obtain ⟨m', hm', hs⟩ := hi
    refine Function.update_of_ne ?_ _ _
    rintro rfl
    exact h.apart m hm m' hm' n hn j hj hs
  fresh := h.fresh

/-- Calls that change names which are not watched. -/
theorem Watch.become (h : Watch K scratch d) {m : Names ν}
    (hK : ∀ n, K n → m.find n = d.names.find n)
    (hscratch : m.find scratch = none ∨ m.find scratch = d.names.find scratch)
    (hfresh : ∀ n i, m.find n = some i → i < d.next) : Away K scratch d (d.become m) where
  now := hK
  names := by
    intro m' hm'
    cases List.mem_cons.mp hm' with
    | inl h1 =>
        subst h1
        exact ⟨d.names, List.mem_cons_self, hK⟩
    | inr h1 => exact ⟨m', h1, fun _ _ => rfl⟩
  scratch := by
    intro m' hm' i hi
    cases List.mem_cons.mp hm' with
    | inl h1 =>
        subst h1
        rcases hscratch with h1 | h1
        · rw [h1] at hi
          cases hi
        · rw [h1] at hi
          exact .inl ⟨d.names, List.mem_cons_self, hi⟩
    | inr h1 => exact .inl ⟨m', h1, hi⟩
  files := fun _ _ _ _ _ _ => rfl
  fresh := by
    intro m' hm' n i hi
    cases List.mem_cons.mp hm' with
    | inl h1 =>
        subst h1
        exact hfresh n i hi
    | inr h1 => exact h.fresh m' h1 n i hi

theorem Fresh.create (h : d.Fresh) (n : ν) (f : CrashFile α) : (d.create n f).Fresh := by
  intro m hm n' i hi
  show i < d.next + 1
  cases List.mem_cons.mp hm with
  | inl h1 =>
      rw [h1] at hi
      change (d.names.insert n d.next).find n' = some i at hi
      by_cases hn : n' = n
      · subst hn
        rw [Names.find_insert_self] at hi
        cases hi
        omega
      · rw [Names.find_insert_of_ne _ hn] at hi
        have := h d.names List.mem_cons_self n' i hi
        omega
  | inr h1 =>
      have := h m h1 n' i hi
      omega

/-- The scratch name is created. -/
theorem Watch.create (h : Watch K scratch d) (hK : ¬ K scratch) (f : CrashFile α) :
    Away K scratch d (d.create scratch f) where
  now := by
    intro n hn
    refine Names.find_insert_of_ne _ ?_
    rintro rfl
    exact hK hn
  names := by
    intro m' hm'
    cases List.mem_cons.mp hm' with
    | inl h1 =>
        rw [h1]
        refine ⟨d.names, List.mem_cons_self, fun n hn => Names.find_insert_of_ne _ ?_⟩
        rintro rfl
        exact hK hn
    | inr h1 => exact ⟨m', h1, fun _ _ => rfl⟩
  scratch := by
    intro m' hm' i hi
    cases List.mem_cons.mp hm' with
    | inl h1 =>
        rw [h1] at hi
        change (d.names.insert scratch d.next).find scratch = some i at hi
        rw [Names.find_insert_self] at hi
        cases hi
        exact .inr le_rfl
    | inr h1 => exact .inl ⟨m', h1, hi⟩
  files := by
    intro m hm n hn j hj
    refine Function.update_of_ne ?_ _ _
    have := h.fresh m hm n j hj
    omega
  fresh := h.fresh.create scratch f

/-- `write` to the scratch name. -/
theorem Watch.write [Zero α] (h : Watch K scratch d) (hK : ¬ K scratch) (xs : List α) :
    Away K scratch d (d.write scratch xs) := by
  unfold CrashDir.write target
  cases hs : d.names.find scratch with
  | some i => exact h.setFile ⟨d.names, List.mem_cons_self, hs⟩ _
  | none =>
      simp only [files_create, setFile_create]
      exact h.create hK _

theorem Watch.fsyncFile (h : Watch K scratch d) (hd : d.fsyncFile scratch = some d') :
    Away K scratch d d' := by
  obtain ⟨i, hi, rfl⟩ := Option.map_eq_some_iff.mp hd
  exact h.setFile ⟨d.names, List.mem_cons_self, hi⟩ _

/-- `rename` from the scratch name. -/
theorem Watch.rename {new : ν} (h : Watch K scratch d) (hK : ¬ K scratch) (hnew : ¬ K new)
    (hne : new ≠ scratch) (hd : d.rename scratch new = some d') : Away K scratch d d' := by
  obtain ⟨i, hi, rfl⟩ := Option.map_eq_some_iff.mp hd
  refine h.become ?_ (.inl ?_) ?_
  · intro n hn
    rw [Names.find_insert_of_ne, Names.find_erase_of_ne]
    · rintro rfl
      exact hK hn
    · rintro rfl
      exact hnew hn
  · rw [Names.find_insert_of_ne _ hne.symm, Names.find_erase_self]
  · intro n j hj
    by_cases hn : n = new
    · subst hn
      rw [Names.find_insert_self] at hj
      cases hj
      exact h.fresh d.names List.mem_cons_self scratch i hi
    · rw [Names.find_insert_of_ne _ hn] at hj
      by_cases hs : n = scratch
      · subst hs
        rw [Names.find_erase_self] at hj
        cases hj
      · rw [Names.find_erase_of_ne _ hs] at hj
        exact h.fresh d.names List.mem_cons_self n j hj

/-- `remove`, of a name that is not watched. -/
theorem Watch.remove (h : Watch K scratch d) (hn : ¬ K n) (hd : d.remove n = some d') :
    Away K scratch d d' := by
  obtain ⟨i, -, rfl⟩ := Option.map_eq_some_iff.mp hd
  refine h.become ?_ ?_ ?_
  · intro n' hn'
    refine Names.find_erase_of_ne _ ?_
    rintro rfl
    exact hn hn'
  · by_cases hs : scratch = n
    · subst hs
      exact .inl (Names.find_erase_self _ _)
    · exact .inr (Names.find_erase_of_ne _ hs)
  · intro n' j hj
    by_cases hs : n' = n
    · subst hs
      rw [Names.find_erase_self] at hj
      cases hj
    · rw [Names.find_erase_of_ne _ hs] at hj
      exact h.fresh d.names List.mem_cons_self n' j hj

theorem Watch.fsyncDir (h : Watch K scratch d) : Away K scratch d d.fsyncDir where
  now := fun _ _ => rfl
  names := by
    intro m hm
    rw [List.mem_singleton.mp hm]
    exact ⟨d.names, List.mem_cons_self, fun _ _ => rfl⟩
  scratch := by
    intro m hm i hi
    rw [List.mem_singleton.mp hm] at hi
    exact .inl ⟨d.names, List.mem_cons_self, hi⟩
  files := fun _ _ _ _ _ _ => rfl
  fresh := by
    intro m hm
    rw [List.mem_singleton.mp hm]
    exact h.fresh d.names List.mem_cons_self

end Watch

/-! ### What calls do to the names -/

section Names

variable {n n' : ν} {d d' : CrashDir ν α} {i : ℕ}

omit [DecidableEq ν] in
@[simp] theorem setFile_files_self (d : CrashDir ν α) (i : ℕ) (f : CrashFile α) :
    (d.setFile i f).files i = f := Function.update_self _ _ _

omit [DecidableEq ν] in
theorem setFile_files_of_ne (d : CrashDir ν α) (f : CrashFile α) {j : ℕ} (h : j ≠ i) :
    (d.setFile i f).files j = d.files j := Function.update_of_ne h _ _

theorem fsyncFile_eq (h : d.names.find n = some i) :
    d.fsyncFile n = some (d.setFile i (d.files i).sync) := by
  rw [fsyncFile, h, Option.map_some]

theorem rename_eq (n' : ν) (h : d.names.find n = some i) :
    d.rename n n' = some (d.become ((d.names.erase n).insert n' i)) := by
  rw [rename, h, Option.map_some]

/-- Names that were just synced are safe. -/
theorem named_of_past_nil (hpast : d.past = []) (h : d.names.find n = some i) : d.Named n i := by
  intro m hm
  unfold states at hm
  rw [hpast] at hm
  rw [List.mem_singleton.mp hm]
  exact h

variable [Zero α]

theorem writeAt_eq (h : d.names.find n = some i) (off : ℕ) (xs : List α) :
    d.writeAt n off xs = d.setFile i ((d.files i).write off xs) := by
  rw [writeAt, target, h]

/-- What `write` leaves. -/
theorem write_spec (d : CrashDir ν α) (n : ν) (xs : List α) :
    ∃ i, (d.write n xs).names.find n = some i ∧ ((d.write n xs).files i).now = xs := by
  have hnow : ∀ f : CrashFile α, ((f.setLen 0).write 0 xs).now = xs := by
    intro f
    have := CrashFile.writeAt_append [] [] xs
    simpa [CrashFile.setLen, CrashFile.write] using this
  unfold write target
  cases h : d.names.find n with
  | some i => exact ⟨i, h, by rw [setFile_files_self, hnow]⟩
  | none =>
      refine ⟨d.next, ?_, by rw [setFile_files_self, hnow]⟩
      exact Names.find_insert_self _ _ _

end Names

/-! ### Crashes -/

section Crash

variable [Zero α] {K : ν → Prop} {scratch n : ν} {d d' : CrashDir ν α} {i : ℕ}

theorem Survives.mem_states (h : d.Survives d') {m : Names ν} (hm : m ∈ d'.states) :
    m = d'.names := by
  unfold states at hm
  rw [h.past] at hm
  exact List.mem_singleton.mp hm

theorem Named.survives (h : d.Named n i) (hs : d.Survives d') : d'.Named n i := by
  intro m hm
  obtain ⟨m₁, hm₁, hsame⟩ := hs.names n
  rw [hs.mem_states hm, hsame]
  exact h m₁ hm₁

theorem Watch.survives (h : Watch K scratch d) (hs : d.Survives d') : Watch K scratch d' where
  fresh := by
    intro m hm n i hi
    obtain ⟨m₁, hm₁, hsame⟩ := hs.names n
    rw [hs.mem_states hm, hsame] at hi
    rw [hs.next]
    exact h.fresh m₁ hm₁ n i hi
  apart := by
    intro m hm m' hm' n hn i hi hi'
    obtain ⟨m₁, hm₁, hsame⟩ := hs.names n
    obtain ⟨m₂, hm₂, hsame'⟩ := hs.names scratch
    rw [hs.mem_states hm, hsame] at hi
    rw [hs.mem_states hm', hsame'] at hi'
    exact h.apart m₁ hm₁ m₂ hm₂ n hn i hi hi'

end Crash

end CrashDir

end Works.Lib
