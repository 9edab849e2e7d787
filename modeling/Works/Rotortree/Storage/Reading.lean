import Works.Rotortree.Storage.Recovery
import Works.Rotortree.Calls

/-! # What a log reads as

`read_frame` finds a frame exactly where the bytes of one begin (`readFrame_eq_some`).  `Reads W last u es v`: the
bytes `u` read as the entries `es`, after an entry with number `last`, up to an end of the
log, from which on `v` is left.  The loop of `replay_wal_entries` returns exactly on bytes that
read as entries whose leaves fit the tree (`replayLoop_spec`). -/

namespace Works.Rotortree

open Works.Lib

variable {Hash : Type}

/-! ### Frames -/

theorem toLeBytes_fromLeBytes {bs : List UInt8} (h : bs.length = 4) :
    toLeBytes (fromLeBytes bs) = bs := by
  match bs, h with
  | [a, b, c, d], _ =>
    have ha := a.toNat_lt
    have hb := b.toNat_lt
    have hc := c.toNat_lt
    have hd := d.toNat_lt
    simp only [toLeBytes, fromLeBytes, List.cons.injEq, and_true, ← UInt8.toNat_inj,
      UInt8.toNat_ofNat']
    omega

section Frame

variable {crc : Crc}

/-- The three outcomes of reading a frame. -/
theorem readFrame_cases (crc : Crc) (pre u : List UInt8) :
    (Torn crc u ∧ readFrame crc (pre ++ u) pre.length = .ok none) ∨
    (∃ p post, p.length ≤ MAX_FRAME_PAYLOAD ∧ u = frameOf crc p ++ post ∧
      readFrame crc (pre ++ u) pre.length = .ok (some (p, (frameOf crc p).length))) ∨
    (¬ Torn crc u ∧ ∃ expected actual, readFrame crc (pre ++ u) pre.length =
      .fail (.crcMismatch pre.length expected actual)) := by
  by_cases ht : Torn crc u
  · exact .inl ⟨ht, readFrame_torn ht pre⟩
  · unfold Torn at ht
    push Not at ht
    obtain ⟨h4, hmax, hlen, hcrc⟩ := ht
    set len := fromLeBytes (u.take 4) with hlendef
    have htake : (u.take 4).length = 4 := by rw [List.length_take]; omega
    by_cases hsum : fromLeBytes ((u.drop (4 + len)).take 4) = (crc (u.take (4 + len))).toNat
    · -- the parts of `u` are those of a frame
      right; left
      set p := (u.drop 4).take len with hp
      have hplen : p.length = len := by
        rw [hp, List.length_take, List.length_drop]
        omega
      have hhead : toLeBytes p.length = u.take 4 := by
        rw [hplen, hlendef, toLeBytes_fromLeBytes htake]
      have hfront : toLeBytes p.length ++ p = u.take (4 + len) := by
        rw [hhead, hp, ← List.take_add]
      have htail : toLeBytes (crc (toLeBytes p.length ++ p)).toNat =
          (u.drop (4 + len)).take 4 := by
        rw [hfront, ← hsum, toLeBytes_fromLeBytes]
        rw [List.length_take, List.length_drop]
        omega
      have hu : u = frameOf crc p ++ u.drop (4 + len + 4) := by
        conv_lhs => rw [← List.take_append_drop (4 + len + 4) u, List.take_add]
        rw [frameOf, htail, hfront]
      refine ⟨p, u.drop (4 + len + 4), by omega, hu, ?_⟩
      conv_lhs => rw [hu]
      exact readFrame_frameOf crc (by omega) pre _
    · right; right
      refine ⟨?_, fromLeBytes ((u.drop (4 + len)).take 4), (crc (u.take (4 + len))).toNat, ?_⟩
      · unfold Torn
        push Not
        exact ⟨h4, hmax, hlen, hcrc⟩
      · have hne : u.length ≠ len + 8 := fun h => hsum (hcrc h)
        unfold readFrame
        dsimp only
        rw [List.drop_left' rfl, List.length_append, Nat.add_sub_cancel_left, if_neg (by omega),
          if_neg (by omega), if_neg (by omega), if_pos hsum, if_neg (by omega)]

/-- A frame is read exactly where the bytes of one begin. -/
theorem readFrame_eq_some {pre u p : List UInt8} {size : ℕ} :
    readFrame crc (pre ++ u) pre.length = .ok (some (p, size)) ↔
      p.length ≤ MAX_FRAME_PAYLOAD ∧ size = (frameOf crc p).length ∧
        ∃ post, u = frameOf crc p ++ post := by
  constructor
  · intro h
    rcases readFrame_cases crc pre u with ⟨-, hr⟩ | ⟨p', post, hp, hu, hr⟩ | ⟨-, _, _, hr⟩
    · rw [hr] at h
      cases h
    · rw [hr] at h
      cases h
      exact ⟨hp, rfl, post, hu⟩
    · rw [hr] at h
      cases h
  · rintro ⟨hp, rfl, post, rfl⟩
    exact readFrame_frameOf crc hp pre post

end Frame

/-! ### Entries -/

section Entries

variable (W : Wire Hash)

/-- An entry with number `seq` continues a log whose last entry has number `last`. -/
def Follows (last : Option ℕ) (seq : ℕ) : Prop := ∀ l, last = some l → l + 1 < U64_SIZE ∧ seq = l + 1

/-- The log ends with `u`: the bytes are torn, or the next entry is out of sequence. -/
inductive Ends (last : Option ℕ) (u : List UInt8) : Prop where
  | torn (h : Torn W.crc u)
  | gap {l : ℕ} {p post : List UInt8} {e : WalEntry Hash} (hlast : last = some l)
      (hp : p.length ≤ MAX_FRAME_PAYLOAD) (hu : u = frameOf W.crc p ++ post)
      (he : W.walEntry.deserialize p = some e) (hl : l + 1 < U64_SIZE) (hgap : e.seq ≠ l + 1)

/-- The bytes read as the entries, up to an end of the log. -/
inductive Reads : Option ℕ → List UInt8 → List (WalEntry Hash) → List UInt8 → Prop where
  | ends {last : Option ℕ} {u : List UInt8} (h : Ends W last u) : Reads last u [] u
  | entry {last : Option ℕ} {p u v : List UInt8} {e : WalEntry Hash} {es : List (WalEntry Hash)}
      (hp : p.length ≤ MAX_FRAME_PAYLOAD) (he : W.walEntry.deserialize p = some e)
      (hseq : Follows last e.seq) (h : Reads (some e.seq) u es v) :
      Reads last (frameOf W.crc p ++ u) (e :: es) v

variable {W}

theorem deserializeEntry_eq_none {pre u : List UInt8} {last : Option ℕ} :
    deserializeEntry W (pre ++ u) pre.length last = .ok none ↔ Ends W last u := by
  unfold deserializeEntry
  rcases readFrame_cases W.crc pre u with ⟨ht, hr⟩ | ⟨p, post, hp, rfl, hr⟩ | ⟨ht, _, _, hr⟩
  · rw [hr]
    exact ⟨fun _ => .torn ht, fun _ => rfl⟩
  · have hnt : ¬ Torn W.crc (frameOf W.crc p ++ post) := not_torn_frameOf hp post
    rw [hr, Outcome.ok_bind]
    dsimp only
    cases he : W.walEntry.deserialize p with
    | none =>
        constructor
        · intro h
          cases h
        · intro h
          cases h with
          | torn h => exact absurd h hnt
          | gap _ hp' hu he' =>
              obtain ⟨rfl, -⟩ := frameOf_inj hp hp' hu
              rw [he] at he'
              cases he'
    | some e =>
        cases last with
        | none =>
            constructor
            · intro h
              cases h
            · intro h
              cases h with
              | torn h => exact absurd h hnt
              | gap hlast => cases hlast
        | some l =>
            dsimp only
            split_ifs with hover hgap
            · constructor
              · intro h
                cases h
              · intro h
                cases h with
                | torn h => exact absurd h hnt
                | gap hlast _ _ _ hl =>
                    cases hlast
                    omega
            · exact ⟨fun _ => .gap rfl hp rfl he (by omega) hgap, fun _ => rfl⟩
            · constructor
              · intro h
                cases h
              · intro h
                cases h with
                | torn h => exact absurd h hnt
                | gap hlast hp' hu he' _ hgap' =>
                    cases hlast
                    obtain ⟨rfl, -⟩ := frameOf_inj hp hp' hu
                    rw [he, Option.some.injEq] at he'
                    subst he'
                    exact absurd hgap' hgap
  · rw [hr]
    constructor
    · intro h
      cases h
    · intro h
      cases h with
      | torn h => exact absurd h ht
      | gap _ hp' hu => exact absurd (hu ▸ readFrame_frameOf W.crc hp' pre _) (by rw [hr]; rintro ⟨⟩)

theorem deserializeEntry_eq_some {pre u : List UInt8} {last : Option ℕ} {e : WalEntry Hash}
    {consumed : ℕ} :
    deserializeEntry W (pre ++ u) pre.length last = .ok (some (e, consumed)) ↔
      ∃ p post, p.length ≤ MAX_FRAME_PAYLOAD ∧ u = frameOf W.crc p ++ post ∧
        W.walEntry.deserialize p = some e ∧ consumed = (frameOf W.crc p).length ∧
        Follows last e.seq := by
  unfold deserializeEntry
  rw [Outcome.bind_eq_ok]
  constructor
  · rintro ⟨r, hr, h⟩
    cases r with
    | none => cases h
    | some r =>
        obtain ⟨p, size⟩ := r
        obtain ⟨hp, rfl, post, rfl⟩ := readFrame_eq_some.mp hr
        dsimp only at h
        cases he : W.walEntry.deserialize p with
        | none => simp [he, Outcome.fail] at h
        | some e' =>
            simp only [he] at h
            cases last with
            | none =>
                simp only [Outcome.pure_eq_ok, Except.ok.injEq, Option.some.injEq,
                  Prod.mk.injEq] at h
                obtain ⟨rfl, rfl⟩ := h
                exact ⟨p, post, hp, rfl, he, rfl, by rintro l ⟨⟩⟩
            | some l =>
                dsimp only at h
                split_ifs at h with hover hgap
                · cases h
                · simp only [Outcome.pure_eq_ok, Except.ok.injEq, reduceCtorEq] at h
                · simp only [Outcome.pure_eq_ok, Except.ok.injEq, Option.some.injEq,
                    Prod.mk.injEq] at h
                  obtain ⟨rfl, rfl⟩ := h
                  refine ⟨p, post, hp, rfl, he, rfl, ?_⟩
                  rintro l' ⟨⟩
                  exact ⟨by omega, not_not.mp hgap⟩
  · rintro ⟨p, post, hp, rfl, he, rfl, hseq⟩
    refine ⟨_, readFrame_frameOf W.crc hp pre post, ?_⟩
    simp only [he]
    cases last with
    | none => rfl
    | some l =>
        obtain ⟨hl, hnext⟩ := hseq l rfl
        dsimp only
        rw [if_neg (by omega), if_neg (not_not.mpr hnext)]
        rfl

/-- The rest is at the end of what was read. -/
theorem Reads.exists_append {last : Option ℕ} {u v : List UInt8} {es : List (WalEntry Hash)}
    (h : Reads W last u es v) : ∃ w, u = w ++ v := by
  induction h with
  | ends => exact ⟨[], rfl⟩
  | @entry last p u v e es hp he hseq h ih =>
      obtain ⟨w, rfl⟩ := ih
      exact ⟨frameOf W.crc p ++ w, by rw [List.append_assoc]⟩

/-- The number of the last entry. -/
def lastSeqOf (last : Option ℕ) (es : List (WalEntry Hash)) : Option ℕ :=
  (es.getLast?.map (·.seq)).or last

@[simp] theorem lastSeqOf_nil (last : Option ℕ) :
    lastSeqOf last ([] : List (WalEntry Hash)) = last := rfl

theorem lastSeqOf_cons (last : Option ℕ) (e : WalEntry Hash) (es : List (WalEntry Hash)) :
    lastSeqOf last (e :: es) = lastSeqOf (some e.seq) es := by
  unfold lastSeqOf
  rw [List.getLast?_cons]
  cases es.getLast? <;> rfl

/-- What was read stays readable when other bytes follow it. -/
theorem Reads.append {last : Option ℕ} {w v : List UInt8} {es : List (WalEntry Hash)}
    (h : Reads W last (w ++ v) es v) {v' v'' : List UInt8} {es' : List (WalEntry Hash)}
    (h' : Reads W (lastSeqOf last es) v' es' v'') :
    Reads W last (w ++ v') (es ++ es') v'' := by
  generalize hu : w ++ v = u at h
  induction h generalizing w with
  | ends =>
      have hw : w = [] := by simpa using hu
      rw [hw]
      exact h'
  | @entry last p u v e es hp he hseq h ih =>
      obtain ⟨w', rfl⟩ := h.exists_append
      rw [← List.append_assoc] at hu
      have hw := List.append_cancel_right hu
      subst hw
      rw [List.append_assoc, List.cons_append]
      rw [lastSeqOf_cons] at h'
      exact .entry hp he hseq (ih h' rfl)

/-- An entry that continues the sequence is read where its frame stands. -/
theorem Reads.of_frame {last : Option ℕ} {p u v : List UInt8} {e : WalEntry Hash}
    {es : List (WalEntry Hash)} (h : Reads W last (frameOf W.crc p ++ u) es v)
    (hp : p.length ≤ MAX_FRAME_PAYLOAD) (he : W.walEntry.deserialize p = some e)
    (hseq : Follows last e.seq) : ∃ es', es = e :: es' ∧ Reads W (some e.seq) u es' v := by
  generalize hw : frameOf W.crc p ++ u = w at h
  cases h with
  | ends hends =>
      have h1 := (@deserializeEntry_eq_none _ _ []) |>.mpr hends
      have h2 := (@deserializeEntry_eq_some _ _ []) |>.mpr ⟨p, u, hp, rfl, he, rfl, hseq⟩
      rw [hw, h1] at h2
      cases h2
  | entry hp' he' _ h' =>
      obtain ⟨rfl, rfl⟩ := frameOf_inj hp hp' hw
      rw [he, Option.some.injEq] at he'
      subst he'
      exact ⟨_, rfl, h'⟩

/-- The bytes read in one way only. -/
theorem Reads.unique {last : Option ℕ} {u v v' : List UInt8} {es es' : List (WalEntry Hash)}
    (h : Reads W last u es v) (h' : Reads W last u es' v') : es = es' ∧ v = v' := by
  induction h generalizing es' v' with
  | @ends last u hends =>
      cases h' with
      | ends => exact ⟨rfl, rfl⟩
      | @entry _ p u _ e _ hp he hseq _ =>
          have h1 := (@deserializeEntry_eq_none _ _ []) |>.mpr hends
          have h2 := (@deserializeEntry_eq_some _ _ []) |>.mpr
            ⟨p, u, hp, rfl, he, rfl, hseq⟩
          rw [h1] at h2
          cases h2
  | @entry last p u v e es hp he hseq h ih =>
      obtain ⟨es₁, rfl, h₁⟩ := h'.of_frame hp he hseq
      obtain ⟨rfl, rfl⟩ := ih h₁
      exact ⟨rfl, rfl⟩

end Entries

/-! ### Leaves -/

/-- The leaves `xs` fit on a tree of `n` leaves. -/
def CanAdd (N MAX_DEPTH n : ℕ) (xs : List Hash) : Prop :=
  xs = [] ∨ n + xs.length < U64_SIZE ∧ Nat.clog N (n + xs.length) ≤ MAX_DEPTH

/-- The leaves of the entries that are replayed. -/
def replayed (skip : Option ℕ) (es : List (WalEntry Hash)) : List Hash :=
  (es.filter fun e => shouldReplay skip e.seq).flatMap (·.payload.leaves)

/-- An entry that is replayed brings leaves. -/
def BringsLeaves (skip : Option ℕ) (e : WalEntry Hash) : Prop :=
  shouldReplay skip e.seq = true → e.payload.leaves ≠ []

/-- The replayed entries bring leaves, and these fit on a tree of `n` leaves. -/
structure ReplayOk (N MAX_DEPTH n : ℕ) (skip : Option ℕ) (es : List (WalEntry Hash)) : Prop where
  brings : ∀ e ∈ es, BringsLeaves skip e
  fits : CanAdd N MAX_DEPTH n (replayed skip es)

section Leaves

variable {N MAX_DEPTH n : ℕ}

theorem canAdd_append {xs ys : List Hash} :
    CanAdd N MAX_DEPTH n (xs ++ ys) ↔
      CanAdd N MAX_DEPTH n xs ∧ CanAdd N MAX_DEPTH (n + xs.length) ys := by
  unfold CanAdd
  rw [List.length_append, ← Nat.add_assoc]
  constructor
  · rintro (h | ⟨h1, h2⟩)
    · obtain ⟨rfl, rfl⟩ := List.append_eq_nil_iff.mp h
      exact ⟨.inl rfl, .inl rfl⟩
    · exact ⟨.inr ⟨by omega, (Nat.clog_mono_right N (by omega)).trans h2⟩, .inr ⟨h1, h2⟩⟩
  · rintro ⟨hx, rfl | hy⟩
    · simpa using hx
    · exact .inr hy

theorem canAdd_iff {xs : List Hash} {par : ℕ → ℕ → Bool} (hne : xs ≠ []) :
    CanAdd N MAX_DEPTH n xs ↔ ¬ (Call.insertMany par xs).TurnedDown N MAX_DEPTH n := by
  simp only [CanAdd, Call.TurnedDown, Call.leaves, hne, false_or, not_or, not_le, not_lt]

@[simp] theorem replayed_nil (skip : Option ℕ) : replayed skip ([] : List (WalEntry Hash)) = [] := rfl

theorem replayed_cons (skip : Option ℕ) (e : WalEntry Hash) (es : List (WalEntry Hash)) :
    replayed skip (e :: es) =
      (if shouldReplay skip e.seq then e.payload.leaves else []) ++ replayed skip es := by
  unfold replayed
  by_cases h : shouldReplay skip e.seq = true
  · rw [if_pos h, List.filter_cons_of_pos (p := fun e : WalEntry Hash => shouldReplay skip e.seq) h,
      List.flatMap_cons]
  · rw [if_neg h, List.filter_cons_of_neg (p := fun e : WalEntry Hash => shouldReplay skip e.seq) h,
      List.nil_append]

theorem replayed_append (skip : Option ℕ) (es es' : List (WalEntry Hash)) :
    replayed skip (es ++ es') = replayed skip es ++ replayed skip es' := by
  unfold replayed
  rw [List.filter_append, List.flatMap_append]

end Leaves

/-! ### Replay -/

section Replay

variable [Zero Hash] {N MAX_DEPTH : ℕ} {W : Wire Hash} {H : Hasher Hash} {par : ℕ → ℕ → Bool}
variable {fs : ShardFs Hash} {L : List Hash} {inner : TreeInner Hash N MAX_DEPTH}
variable {R : TreeInner Hash N MAX_DEPTH → List Hash → Prop}

/-- What replay knows of the tree it works on: the complete nodes are right, and the tree that
an insertion leads to is known again. -/
structure Replayable (fs : ShardFs Hash) (H : Hasher Hash)
    (R : TreeInner Hash N MAX_DEPTH → List Hash → Prop) : Prop where
  near : ∀ {t : TreeInner Hash N MAX_DEPTH} {L : List Hash}, R t L → Near fs H t L
  grows : ∀ {t t' : TreeInner Hash N MAX_DEPTH} {L xs : List Hash}, R t L → xs ≠ [] →
    Refines fs H t' (L ++ xs) → t.Derived t' → R t' (L ++ xs)

omit [Zero Hash] in
theorem replayable_refines (hN : 2 ≤ N) :
    Replayable fs H (Refines fs H : TreeInner Hash N MAX_DEPTH → List Hash → Prop) :=
  ⟨fun h => h.near hN, fun _ _ h _ => h⟩

/-- `_insert_many` goes through exactly when there are leaves and they fit. -/
theorem insertManyInto_spec (hH : H.Lawful) (hN : 2 ≤ N) (hD : 1 ≤ MAX_DEPTH)
    (hR : Replayable fs H R) (ht : R inner L) (xs : List Hash) :
    (xs ≠ [] ∧ CanAdd N MAX_DEPTH L.length xs ∧ ∃ inner',
      insertManyInto H par fs xs inner = .ok inner' ∧ R inner' (L ++ xs)) ∨
    (¬ (xs ≠ [] ∧ CanAdd N MAX_DEPTH L.length xs) ∧
      ∃ e, insertManyInto H par fs xs inner = .fail e) := by
  unfold insertManyInto
  by_cases hdown : (Call.insertMany par xs).TurnedDown N MAX_DEPTH L.length
  · right
    obtain ⟨e, he⟩ := (@Call.run_of_turnedDown _ _ _ _ fs H inner) hN
      (by rw [(hR.near ht).size]; exact hdown)
    rw [show insertMany fs H par xs inner = (.fail e, inner) from he]
    refine ⟨?_, _, rfl⟩
    rintro ⟨hne, hfit⟩
    exact (canAdd_iff hne).mp hfit hdown
  · left
    obtain ⟨r, t', hrun, -, href, hd⟩ := Call.run_spec hH hN hD (hR.near ht) hdown
    have hne : xs ≠ [] := fun h => hdown (.inl h)
    rw [show insertMany fs H par xs inner = (.ok r, t') from hrun]
    exact ⟨hne, (canAdd_iff hne).mpr hdown, t', rfl, hR.grows ht hne href hd⟩

/-- `flush_pending` goes through exactly when the waiting leaves fit. -/
theorem flushPending_spec (hH : H.Lawful) (hN : 2 ≤ N) (hD : 1 ≤ MAX_DEPTH)
    (hR : Replayable fs H R) (ht : R inner L) (pending : List Hash) :
    (CanAdd N MAX_DEPTH L.length pending ∧ ∃ inner',
      flushPending H par fs inner pending = .ok inner' ∧ R inner' (L ++ pending)) ∨
    (¬ CanAdd N MAX_DEPTH L.length pending ∧ ∃ e, flushPending H par fs inner pending = .fail e) := by
  unfold flushPending
  by_cases hp : pending = []
  · left
    subst hp
    exact ⟨.inl rfl, inner, rfl, by rw [List.append_nil]; exact ht⟩
  · rw [if_neg (by simpa using hp)]
    cases (@insertManyInto_spec _ _ _ _ _ par) hH hN hD hR ht pending with
    | inl h => exact .inl ⟨h.2.1, h.2.2⟩
    | inr h => exact .inr ⟨fun hfit => h.1 ⟨hp, hfit⟩, h.2⟩

/-- One entry on a tree over `L`, with leaves waiting. -/
theorem replayEntry_spec (hH : H.Lawful) (hN : 2 ≤ N) (hD : 1 ≤ MAX_DEPTH)
    (hR : Replayable fs H R) (ht : R inner L) (skip : Option ℕ) (e : WalEntry Hash) (pending : List Hash) :
    (BringsLeaves skip e ∧ ∃ pending' inner' L',
      replayEntry H par fs skip e pending inner = .ok (pending', inner') ∧
      R inner' L' ∧ L' ++ pending' = L ++ pending ++ replayed skip [e] ∧
      ∀ xs, CanAdd N MAX_DEPTH L.length (pending ++ (replayed skip [e] ++ xs)) ↔
        CanAdd N MAX_DEPTH L'.length (pending' ++ xs)) ∨
    ((∃ err, replayEntry H par fs skip e pending inner = .fail err) ∧
      ¬ (BringsLeaves skip e ∧ CanAdd N MAX_DEPTH L.length (pending ++ replayed skip [e]))) := by
  unfold replayEntry BringsLeaves
  by_cases hrep : shouldReplay skip e.seq = true
  · rw [replayed_cons, if_pos hrep, replayed_nil, List.append_nil, if_pos hrep]
    cases hpay : e.payload with
    | single leaf =>
        left
        refine ⟨by simp [WalPayload.leaves], pending ++ [leaf], inner, L, rfl, ht, ?_, ?_⟩
        · simp [WalPayload.leaves]
        · intro xs
          simp [WalPayload.leaves]
    | batch leaves =>
        simp only [WalPayload.leaves]
        rcases (@flushPending_spec _ _ _ _ _ par) hH hN hD hR ht pending with
          ⟨hfit, inner₁, h₁, href₁⟩ | ⟨hno, err, h₁⟩
        · rcases (@insertManyInto_spec _ _ _ _ _ par) hH hN hD hR href₁ leaves with
            ⟨hne, hfit₂, inner₂, h₂, href₂⟩ | ⟨hno, err, h₂⟩
          · left
            refine ⟨fun _ => hne, [], inner₂, L ++ pending ++ leaves, ?_, href₂, by simp, ?_⟩
            · rw [h₁, Outcome.ok_bind, h₂]
              rfl
            · intro xs
              rw [canAdd_append, canAdd_append, ← List.length_append, ← List.length_append,
                List.nil_append]
              exact ⟨fun h => h.2.2, fun h => ⟨hfit, hfit₂, h⟩⟩
          · right
            refine ⟨⟨err, by rw [h₁, Outcome.ok_bind, h₂]; rfl⟩, ?_⟩
            rintro ⟨hne, hall⟩
            refine hno ⟨hne hrep, ?_⟩
            rw [List.length_append]
            exact (canAdd_append.mp hall).2
        · right
          refine ⟨⟨err, by rw [h₁]; rfl⟩, ?_⟩
          rintro ⟨-, hall⟩
          exact hno (canAdd_append.mp hall).1
  · left
    rw [replayed_cons, if_neg hrep, replayed_nil, if_neg hrep]
    exact ⟨fun h => absurd h hrep, pending, inner, L, rfl, ht, by simp, by simp⟩

/-- **The loop of `replay_wal_entries`.**  It returns exactly when the bytes read as entries
that bring leaves and fit, and then the tree holds their leaves too. -/
theorem replayLoop_spec (hH : H.Lawful) (hN : 2 ≤ N) (hD : 1 ≤ MAX_DEPTH)
    (hR : Replayable fs H R) (skip : Option ℕ) (fuel : ℕ) : ∀ (pre u : List UInt8) (last : Option ℕ) (pending : List Hash)
      (inner : TreeInner Hash N MAX_DEPTH) (L : List Hash), u.length < fuel →
      R inner L →
      (∃ es v inner', Reads W last u es v ∧ (∀ e ∈ es, BringsLeaves skip e) ∧
        CanAdd N MAX_DEPTH L.length (pending ++ replayed skip es) ∧
        replayLoop W H par fs (pre ++ u) skip fuel pre.length last pending inner =
          .ok (inner', lastSeqOf last es, pre.length + (u.length - v.length)) ∧
        R inner' (L ++ pending ++ replayed skip es)) ∨
      ((∃ err, replayLoop W H par fs (pre ++ u) skip fuel pre.length last pending inner =
          .error err) ∧
        ∀ es v, Reads W last u es v → ¬ ((∀ e ∈ es, BringsLeaves skip e) ∧
          CanAdd N MAX_DEPTH L.length (pending ++ replayed skip es))) := by
  induction fuel with
  | zero => intro _ _ _ _ _ _ h; omega
  | succ fuel ih =>
      intro pre u last pending inner L hfuel ht
      rw [replayLoop]
      cases hd : deserializeEntry W (pre ++ u) pre.length last with
      | error err =>
          right
          refine ⟨⟨err, rfl⟩, ?_⟩
          intro es v hreads
          exfalso
          cases hreads with
          | ends hends =>
              rw [deserializeEntry_eq_none.mpr hends] at hd
              cases hd
          | entry hp he hseq _ =>
              rw [deserializeEntry_eq_some.mpr ⟨_, _, hp, rfl, he, rfl, hseq⟩] at hd
              cases hd
      | ok r =>
          rw [Outcome.ok_bind]
          cases r with
          | none =>
              have hends := deserializeEntry_eq_none.mp hd
              have huniq : ∀ es v, Reads W last u es v → es = [] := fun es v h =>
                ((Reads.ends hends).unique h).1.symm
              dsimp only
              rcases (@flushPending_spec _ _ _ _ _ par) hH hN hD hR ht pending with
                ⟨hfit, inner₁, h₁, href₁⟩ | ⟨hno, err, h₁⟩
              · left
                refine ⟨[], u, inner₁, .ends hends, by simp, by simpa using hfit, ?_, ?_⟩
                · rw [h₁, Nat.sub_self]
                  rfl
                · rw [replayed_nil, List.append_nil]
                  exact href₁
              · right
                refine ⟨⟨.err err, by rw [h₁]; rfl⟩, ?_⟩
                rintro es v hreads ⟨-, hfit⟩
                rw [huniq es v hreads, replayed_nil, List.append_nil] at hfit
                exact hno hfit
          | some r =>
              obtain ⟨e, consumed⟩ := r
              obtain ⟨p, post, hp, rfl, he, rfl, hseq⟩ := deserializeEntry_eq_some.mp hd
              have hsplit : ∀ es', replayed skip (e :: es') =
                  replayed skip [e] ++ replayed skip es' := fun es' =>
                replayed_append skip [e] es'
              dsimp only
              rcases (@replayEntry_spec _ _ _ _ _ par) hH hN hD hR ht skip e pending with
                ⟨hbring, pending', inner₁, L₁, h₁, href₁, hleaves, hfits⟩ | ⟨⟨err, h₁⟩, hno⟩
              · rw [h₁, Outcome.ok_bind]
                dsimp only
                have hlen : (pre ++ frameOf W.crc p).length =
                    pre.length + (frameOf W.crc p).length := List.length_append
                have hpos := length_frameOf W.crc p
                rw [← List.append_assoc, ← hlen]
                rcases ih (pre ++ frameOf W.crc p) post (some e.seq) pending' inner₁ L₁
                    (by rw [List.length_append] at hfuel; omega) href₁ with
                  ⟨es, v, inner', hreads, hall, hfit, hloop, href⟩ | ⟨⟨err, hloop⟩, hno⟩
                · left
                  obtain ⟨w, hw⟩ := hreads.exists_append
                  refine ⟨e :: es, v, inner', .entry hp he hseq hreads, ?_, ?_, ?_, ?_⟩
                  · intro x hx
                    cases List.mem_cons.mp hx with
                    | inl h => rw [h]; exact hbring
                    | inr h => exact hall x h
                  · rw [hsplit, hfits]
                    exact hfit
                  · have hstop : (pre ++ frameOf W.crc p).length + (post.length - v.length) =
                        pre.length + ((frameOf W.crc p ++ post).length - v.length) := by
                      rw [hw]
                      simp only [List.length_append]
                      omega
                    rw [hloop, lastSeqOf_cons, hstop]
                  · rw [hsplit, ← List.append_assoc, ← hleaves]
                    exact href
                · right
                  refine ⟨⟨err, hloop⟩, ?_⟩
                  rintro es v hreads ⟨hall, hfit⟩
                  obtain ⟨es', rfl, hreads'⟩ := hreads.of_frame hp he hseq
                  rw [hsplit, hfits] at hfit
                  exact hno es' v hreads' ⟨fun x hx => hall x (List.mem_cons_of_mem e hx), hfit⟩
              · right
                refine ⟨⟨.err err, by rw [h₁]; rfl⟩, ?_⟩
                rintro es v hreads ⟨hall, hfit⟩
                obtain ⟨es', rfl, -⟩ := hreads.of_frame hp he hseq
                rw [hsplit, ← List.append_assoc] at hfit
                exact hno ⟨hall e List.mem_cons_self, (canAdd_append.mp hfit).1⟩

end Replay

end Works.Rotortree
