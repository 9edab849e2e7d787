import Works.Rotortree.Storage.Resume
import Works.Rotortree.Storage.RotorTree

/-! # The tree and its log

`insert` and `insert_many` change the tree first and write the log entry after that.  A call that
is turned down changes nothing; a batch that does not fit into a frame, or a sequence number that
runs out, panics between the two (`insertCall_cases`).  `CallFits` excludes these, and then,
over any sequence of calls, the calls that fail leave everything as it was and the tree is the
replay of the entries that are logged (`calls_agree_with_log_iff`). -/

namespace Works.Rotortree

open Works.Lib

variable {Hash : Type} {N MAX_DEPTH : ℕ}

theorem Call.leaves_payload (c : Call Hash) : c.payload.leaves = c.leaves := by
  cases c <;> rfl

namespace Shared

variable [Zero Hash] (W : Wire Hash) (H : Hasher Hash)

/-- `insert` and `insert_many`. -/
def call (fs : ShardFs Hash) (c : Call Hash) : Exec (Shared Hash N MAX_DEPTH) StorageError (Hash × ℕ) :=
  fun h => match h.checkClosed with
    | .error e => (.error e, h)
    | .ok _ => h.insertCall W H fs c

/-- The tree after a sequence of calls. -/
def calls (fs : ShardFs Hash) (cs : List (Call Hash)) (h : Shared Hash N MAX_DEPTH) :
    Shared Hash N MAX_DEPTH :=
  cs.foldl (fun h c => (call W H fs c h).2) h

omit [Zero Hash] in
/-- The tree, the buffer and the next sequence number are as they were. -/
structure Kept (h h' : Shared Hash N MAX_DEPTH) : Prop where
  inner : h'.inner = h.inner
  buffer : h'.buffer = h.buffer
  nextSeq : h'.nextSeq = h.nextSeq

omit [Zero Hash] in
/-- The call is turned down, or its entry fits into a frame and there is a number after it. -/
def CallFits (h : Shared Hash N MAX_DEPTH) (c : Call Hash) : Prop :=
  h.checkClosed.isOk = false ∨ c.TurnedDown N MAX_DEPTH h.inner.size ∨
    c.payload.Fits W h.nextSeq ∧ h.nextSeq + 1 < U64_SIZE

end Shared

open Shared

section Call

variable [Zero Hash] {W : Wire Hash} {H : Hasher Hash} {fs : ShardFs Hash}
variable {h : Shared Hash N MAX_DEPTH} {L : List Hash}

/-- **The outcomes of a call** that is let in. -/
theorem insertCall_cases (hH : H.Lawful) (hN : 2 ≤ N) (hD : 1 ≤ MAX_DEPTH)
    (ht : Refines fs H h.inner L) (c : Call Hash) :
    (c.TurnedDown N MAX_DEPTH L.length ∧ ∃ e, insertCall W H fs c h = (.error e, h)) ∨
    (¬ c.TurnedDown N MAX_DEPTH L.length ∧ ∃ root inner, Refines fs H inner (L ++ c.leaves) ∧
      ((c.payload.Fits W h.nextSeq ∧ h.nextSeq + 1 < U64_SIZE ∧
        insertCall W H fs c h = (.ok (root, h.nextSeq), { h with
          inner := inner
          buffer := h.buffer ++ entryBytes W h.nextSeq c.payload
          nextSeq := h.nextSeq + 1
          snapshot := inner.snapshot })) ∨
      (¬ (c.payload.Fits W h.nextSeq ∧ h.nextSeq + 1 < U64_SIZE) ∧
        (insertCall W H fs c h).1 = .panic ∧ (insertCall W H fs c h).2.inner = inner ∧
        (insertCall W H fs c h).2.nextSeq = h.nextSeq ∧
        (¬ c.payload.Fits W h.nextSeq ∧ (insertCall W H fs c h).2.buffer = h.buffer ∨
          c.payload.Fits W h.nextSeq ∧ U64_SIZE ≤ h.nextSeq + 1 ∧
            (insertCall W H fs c h).2.buffer = h.buffer ++ entryBytes W h.nextSeq c.payload)))) := by
  unfold insertCall
  by_cases hc : c.TurnedDown N MAX_DEPTH L.length
  · left
    obtain ⟨e, he⟩ := (@Call.run_of_turnedDown _ _ _ _ fs H h.inner) hN (ht.size ▸ hc)
    rw [he]
    exact ⟨hc, _, rfl⟩
  · right
    obtain ⟨root, inner, he, -, href, -⟩ := Call.run_spec hH hN hD (ht.near hN) hc
    refine ⟨hc, root, inner, href, ?_⟩
    rw [he]
    dsimp only
    unfold serializeEntry
    by_cases hfit : c.payload.Fits W h.nextSeq
    · rw [writeFrame_eq hfit]
      dsimp only
      by_cases hseq : h.nextSeq + 1 < U64_SIZE
      · left
        rw [if_pos hseq]
        exact ⟨hfit, hseq, rfl⟩
      · right
        rw [if_neg hseq]
        exact ⟨fun h => hseq h.2, rfl, rfl, rfl, .inr ⟨hfit, Nat.le_of_not_lt hseq, rfl⟩⟩
    · right
      refine ⟨fun h => hfit h.1, ?_⟩
      have hpanic : writeFrame W.crc W.walEntry h.buffer ⟨h.nextSeq, c.payload⟩ = .panic := by
        unfold writeFrame
        dsimp only
        rw [show (Outcome.require ((W.walEntry.serialize ⟨h.nextSeq, c.payload⟩).length ≤
          MAX_FRAME_PAYLOAD) : Outcome StorageError Unit) = .panic from if_neg hfit]
        rfl
      rw [hpanic]
      exact ⟨rfl, rfl, rfl, .inl ⟨hfit, rfl⟩⟩

end Call

/-! ### Runs of calls -/

/-- The tree is the replay, onto `base` over `L`, of the entries `ps` from number `s` on, and
these are what the buffer holds. -/
structure Logged [Zero Hash] (W : Wire Hash) (H : Hasher Hash) (fs : ShardFs Hash)
    (base : TreeInner Hash N MAX_DEPTH) (L : List Hash) (s : ℕ) (h : Shared Hash N MAX_DEPTH)
    (ps : List (WalPayload Hash)) : Prop where
  base : Refines fs H base L
  buffer : h.buffer = framesFrom W s ps
  nextSeq : h.nextSeq = s + ps.length
  appendable : Appendable W N MAX_DEPTH s L.length ps
  tree : Refines fs H h.inner (L ++ ps.flatMap (·.leaves))

section Run

variable [Zero Hash] {W : Wire Hash} {H : Hasher Hash} {fs : ShardFs Hash}
variable {base : TreeInner Hash N MAX_DEPTH} {h : Shared Hash N MAX_DEPTH} {L : List Hash} {s : ℕ}
variable {ps : List (WalPayload Hash)}

omit [Zero Hash] in
theorem Appendable.concat {next n : ℕ} (hps : Appendable W N MAX_DEPTH next n ps)
    {p : WalPayload Hash} (hfit : p.Fits W (next + ps.length)) (hne : p.leaves ≠ [])
    (hseq : next + ps.length + 1 < U64_SIZE)
    (hroom : CanAdd N MAX_DEPTH (n + (ps.flatMap (·.leaves)).length) p.leaves) :
    Appendable W N MAX_DEPTH next n (ps ++ [p]) where
  fit := allFit_append.mpr ⟨hps.fit, hfit, trivial⟩
  brings := by
    intro q hq
    cases List.mem_append.mp hq with
    | inl hq => exact hps.brings q hq
    | inr hq => rw [List.mem_singleton.mp hq]; exact hne
  seqs := by
    rw [List.length_append, List.length_singleton]
    omega
  room := by
    rw [List.flatMap_append, List.flatMap_singleton]
    exact canAdd_append.mpr ⟨hps.room, hroom⟩

/-- **One call.**  It leaves everything as it was when it fails exactly when it fits; and then
the tree and the log agree again. -/
theorem Logged.call (hH : H.Lawful) (hN : 2 ≤ N) (hD : 1 ≤ MAX_DEPTH)
    (hlog : Logged W H fs base L s h ps) (c : Call Hash) :
    ((∀ e, (Shared.call W H fs c h).1 = .error e → Kept h (Shared.call W H fs c h).2) ↔
      CallFits W h c) ∧
    (CallFits W h c → ∃ ps', Logged W H fs base L s (Shared.call W H fs c h).2 (ps ++ ps')) := by
  unfold Shared.call CallFits
  cases hopen : h.checkClosed with
  | error e =>
      dsimp only
      refine ⟨iff_of_true (fun _ _ => ⟨rfl, rfl, rfl⟩) (.inl rfl), fun _ => ⟨[], ?_⟩⟩
      rw [List.append_nil]
      exact hlog
  | ok u =>
      dsimp only
      rw [hlog.tree.size]
      rcases insertCall_cases (W := W) hH hN hD hlog.tree c with
        ⟨hc, e, he⟩ | ⟨hc, root, inner, href, ⟨hfit, hseq, he⟩ | ⟨hno, hpanic, hinner, -⟩⟩
      · rw [he]
        refine ⟨iff_of_true (fun _ _ => ⟨rfl, rfl, rfl⟩) (.inr (.inl hc)), fun _ => ⟨[], ?_⟩⟩
        rw [List.append_nil]
        exact hlog
      · rw [he]
        refine ⟨iff_of_true (by rintro e ⟨⟩) (.inr (.inr ⟨hfit, hseq⟩)), fun _ => ⟨[c.payload], ?_⟩⟩
        have hne : c.leaves ≠ [] := fun h0 => hc (.inl h0)
        have hroom : CanAdd N MAX_DEPTH (L.length + (ps.flatMap (·.leaves)).length)
            c.payload.leaves := by
          simp only [Call.TurnedDown, not_or, not_le, not_lt, List.length_append] at hc
          rw [Call.leaves_payload]
          exact .inr ⟨hc.2.1, hc.2.2⟩
        rw [hlog.nextSeq] at hfit hseq
        refine ⟨hlog.base, ?_, ?_, hlog.appendable.concat hfit (by
          rw [Call.leaves_payload]; exact hne) hseq hroom, ?_⟩
        · show h.buffer ++ entryBytes W h.nextSeq c.payload = _
          rw [framesFrom_append, framesFrom, framesFrom, List.append_nil, hlog.buffer, hlog.nextSeq]
        · show h.nextSeq + 1 = _
          rw [hlog.nextSeq, List.length_append, List.length_singleton, Nat.add_assoc]
        · rw [List.flatMap_append, List.flatMap_singleton, Call.leaves_payload, ← List.append_assoc]
          exact href
      · have hkeep : ¬ (∀ e, (insertCall W H fs c h).1 = .error e →
            Kept h (insertCall W H fs c h).2) := by
          intro hkeep
          have hsame := (hkeep _ hpanic).inner
          rw [hinner] at hsame
          have hsize := href.size
          have hlen : (L ++ ps.flatMap (·.leaves) ++ c.leaves).length =
              (L ++ ps.flatMap (·.leaves)).length + c.leaves.length := List.length_append
          rw [hsame, hlog.tree.size, hlen] at hsize
          exact hc (.inl (List.length_eq_zero_iff.mp (by omega)))
        have hfits : ¬ (Except.isOk (Except.ok u : Outcome StorageError Unit) = false ∨
            c.TurnedDown N MAX_DEPTH (L ++ ps.flatMap (·.leaves)).length ∨
            c.payload.Fits W h.nextSeq ∧ h.nextSeq + 1 < U64_SIZE) := by
          rintro (h0 | h0 | h0)
          · cases h0
          · exact hc h0
          · exact hno h0
        exact ⟨iff_of_false hkeep hfits, fun h0 => absurd h0 hfits⟩

/-- Up to any call of a run whose calls fit, the tree and the log agree. -/
theorem Logged.calls (hH : H.Lawful) (hN : 2 ≤ N) (hD : 1 ≤ MAX_DEPTH)
    (hlog : Logged W H fs base L s h ps) (cs : List (Call Hash))
    (hcs : ∀ a c b, cs = a ++ c :: b → CallFits W (Shared.calls W H fs a h) c) :
    ∃ ps', Logged W H fs base L s (Shared.calls W H fs cs h) (ps ++ ps') := by
  induction cs using List.reverseRecOn with
  | nil =>
      refine ⟨[], ?_⟩
      rw [List.append_nil]
      exact hlog
  | append_singleton cs c ih =>
      obtain ⟨ps₁, h₁⟩ := ih fun a c' b hab =>
        hcs a c' (b ++ [c]) (by rw [hab, List.append_assoc, List.cons_append])
      obtain ⟨ps₂, h₂⟩ := (h₁.call hH hN hD c).2 (hcs cs c [] rfl)
      refine ⟨ps₁ ++ ps₂, ?_⟩
      rw [← List.append_assoc, Shared.calls, List.foldl_append]
      exact h₂

/-- The entries of the buffer, read from the beginning of any of them. -/
theorem Logged.readFrame (hlog : Logged W H fs base L s h ps) {a b : List (WalPayload Hash)}
    {p : WalPayload Hash} (hps : ps = a ++ p :: b) :
    Rotortree.readFrame W.crc h.buffer (framesFrom W s a).length =
      .ok (some (W.walEntry.serialize ⟨s + a.length, p⟩,
        (entryBytes W (s + a.length) p).length)) := by
  have hfit := hlog.appendable.fit
  rw [hps, allFit_append] at hfit
  rw [hlog.buffer, hps, framesFrom_append, framesFrom]
  exact readFrame_frameOf W.crc hfit.2.1 _ _

/-- Replaying the buffer gives the tree. -/
theorem Logged.replay (hW : W.Lawful) (hH : H.Lawful) (hN : 2 ≤ N) (hD : 1 ≤ MAX_DEPTH)
    (hlog : Logged W H fs base L s h ps) (par : ℕ → ℕ → Bool) :
    ∃ t, replayWalEntries W H par fs h.buffer base none =
        .ok (t, lastSeqOf none (entriesFrom s ps), h.buffer.length) ∧
      SameTree fs t h.inner := by
  have happ := hlog.appendable
  have hreads : Reads W none (framesFrom W s ps ++ []) (entriesFrom s ps) [] :=
    reads_framesFrom hW happ.fit happ.seqs.le (by rintro l ⟨⟩) (by rintro l ⟨⟩)
      (.torn (torn_nil _))
  rw [List.append_nil, ← hlog.buffer] at hreads
  have hleaves : replayed none (entriesFrom s ps) = ps.flatMap (·.leaves) :=
    replayed_entriesFrom (by rintro l ⟨⟩)
  unfold replayWalEntries
  rcases (@replayLoop_spec _ _ _ _ W _ par) hH hN hD (replayable_refines hN) none (h.buffer.length + 1) [] h.buffer none
      [] base L (Nat.lt_succ_self _) hlog.base with
    ⟨es, v, t, hr, -, -, hloop, href⟩ | ⟨-, hno⟩
  · obtain ⟨rfl, rfl⟩ := hr.unique hreads
    rw [List.append_nil, hleaves] at href
    refine ⟨t, ?_, href.sameTree hlog.tree⟩
    rw [List.nil_append] at hloop
    rw [show (0 : ℕ) = ([] : List UInt8).length from rfl, hloop, List.length_nil, Nat.zero_add,
      Nat.sub_zero]
  · refine absurd ⟨fun e he _ => happ.brings _ (mem_entriesFrom he).1, ?_⟩ (hno _ _ hreads)
    rw [List.nil_append, hleaves]
    exact happ.room

/-- **The tree and the log never diverge** exactly when every call fits.  A run of calls starts
from a tree that is the replay of what is logged: no call that fails changes anything, and at
every moment the tree is the replay of the buffer and each frame of the buffer is accepted. -/
theorem calls_agree_with_log_iff (hW : W.Lawful) (hH : H.Lawful) (hN : 2 ≤ N) (hD : 1 ≤ MAX_DEPTH)
    (hlog : Logged W H fs base L s h ps) (cs : List (Call Hash)) :
    ((∀ a c b, cs = a ++ c :: b → ∀ e, (Shared.call W H fs c (Shared.calls W H fs a h)).1 = .error e →
        Kept (Shared.calls W H fs a h) (Shared.calls W H fs (a ++ [c]) h)) ∧
      ∀ a, a <+: cs → ∃ ps',
        (Shared.calls W H fs a h).buffer = framesFrom W s (ps ++ ps') ∧
        (Shared.calls W H fs a h).nextSeq = s + (ps ++ ps').length ∧
        Refines fs H (Shared.calls W H fs a h).inner (L ++ (ps ++ ps').flatMap (·.leaves)) ∧
        (∀ a' p b', ps ++ ps' = a' ++ p :: b' →
          Rotortree.readFrame W.crc (Shared.calls W H fs a h).buffer (framesFrom W s a').length =
            .ok (some (W.walEntry.serialize ⟨s + a'.length, p⟩,
              (entryBytes W (s + a'.length) p).length))) ∧
        ∀ par, ∃ t, replayWalEntries W H par fs (Shared.calls W H fs a h).buffer base none =
            .ok (t, lastSeqOf none (entriesFrom s (ps ++ ps')),
              (Shared.calls W H fs a h).buffer.length) ∧
          SameTree fs t (Shared.calls W H fs a h).inner) ↔
    ∀ a c b, cs = a ++ c :: b → CallFits W (Shared.calls W H fs a h) c := by
  have hconcat : ∀ a c, Shared.calls W H fs (a ++ [c]) h =
      (Shared.call W H fs c (Shared.calls W H fs a h)).2 := by
    intro a c
    rw [Shared.calls, List.foldl_append]
    rfl
  constructor
  · rintro ⟨hkeep, -⟩
    -- a call that keeps the state when it fails fits, and leads to the next state of the run
    have hstep : ∀ a c b ps', cs = a ++ c :: b →
        Logged W H fs base L s (Shared.calls W H fs a h) ps' →
        CallFits W (Shared.calls W H fs a h) c := by
      intro a c b ps' hcs h'
      refine (h'.call hH hN hD c).1.mp fun e he => ?_
      rw [← hconcat]
      exact hkeep a c b hcs e he
    have hreach : ∀ a b, cs = a ++ b →
        ∃ ps', Logged W H fs base L s (Shared.calls W H fs a h) ps' := by
      intro a
      induction a using List.reverseRecOn with
      | nil => exact fun _ _ => ⟨ps, hlog⟩
      | append_singleton a c ih =>
          intro b hcs
          rw [List.append_assoc, List.singleton_append] at hcs
          obtain ⟨ps', h'⟩ := ih (c :: b) hcs
          obtain ⟨ps'', h''⟩ := (h'.call hH hN hD c).2 (hstep a c b ps' hcs h')
          rw [hconcat]
          exact ⟨_, h''⟩
    intro a c b hcs
    obtain ⟨ps', h'⟩ := hreach a (c :: b) hcs
    exact hstep a c b ps' hcs h'
  · intro hfits
    refine ⟨?_, ?_⟩
    · intro a c b hcs e he
      obtain ⟨ps', h'⟩ := hlog.calls hH hN hD a fun a' c' b' hab =>
        hfits a' c' (b' ++ c :: b) (by rw [hcs, hab, List.append_assoc, List.cons_append])
      rw [hconcat]
      exact (h'.call hH hN hD c).1.mpr (hfits a c b hcs) e he
    · rintro a ⟨t, rfl⟩
      obtain ⟨ps', h'⟩ := hlog.calls hH hN hD a fun a' c' b' hab =>
        hfits a' c' (b' ++ t) (by rw [hab, List.append_assoc, List.cons_append])
      exact ⟨ps', h'.buffer, h'.nextSeq, h'.tree, fun a' p b' => h'.readFrame,
        fun par => h'.replay hW hH hN hD par⟩

end Run

/-! ### A batch that is too large -/

/-- The tree that `open` returns on an empty directory. -/
def opened (W : Wire Hash) (N MAX_DEPTH pinAboveLevel : ℕ) : Shared Hash N MAX_DEPTH where
  inner := TreeInner.new
  buffer := []
  nextSeq := 0
  checkpointedChunks := []
  cursor := (headerBytes W N MAX_DEPTH).length
  snapshot := TreeInner.new.snapshot
  flushed := none
  closed := false
  bgError := none
  pinAboveLevel := pinAboveLevel
  holder := .free

theorem openTree_empty [Zero Hash] [DecidableEq Hash] {W : Wire Hash} (hW : W.Lawful)
    (H : Hasher Hash) (pinAboveLevel : ℕ) (verify : Bool) (par : ℕ → ℕ → Bool) :
    ∃ disk, openTree W H pinAboveLevel verify par (World.empty : World Hash N MAX_DEPTH).disk =
      .ok (opened W N MAX_DEPTH pinAboveLevel, disk) := by
  unfold openTree
  rw [if_neg (by simp [World.empty]), recover, if_pos (by simp [World.empty]),
    serializeHeader_eq hW]
  exact ⟨_, rfl⟩

theorem opened_logged [Zero Hash] {W : Wire Hash} {H : Hasher Hash} {fs : ShardFs Hash}
    (hN : 2 ≤ N) (pinAboveLevel : ℕ) :
    Logged W H fs TreeInner.new [] 0 (opened W N MAX_DEPTH pinAboveLevel) [] where
  base := refines_new hN
  buffer := rfl
  nextSeq := rfl
  appendable := ⟨trivial, by simp, show 0 < U64_SIZE by decide, .inl rfl⟩
  tree := refines_new hN

/-- A run of two calls on a new tree, the second of them with an empty batch. -/
theorem two_calls_agree : ∃ ps : List (WalPayload Hash32),
    (Shared.calls wincode xorHasher (fun _ _ _ => 0)
      [.insert (testLeaf 1), .insertMany (fun _ _ => false) []] (opened wincode 2 10 0)).buffer =
        framesFrom wincode 0 ps ∧
    (Shared.calls wincode xorHasher (fun _ _ _ => 0)
      [.insert (testLeaf 1), .insertMany (fun _ _ => false) []] (opened wincode 2 10 0)).nextSeq =
        ps.length := by
  have hfits : ∀ a c b, [Call.insert (testLeaf 1), .insertMany (fun _ _ => false) []] =
      a ++ c :: b → CallFits wincode (Shared.calls wincode xorHasher (fun _ _ _ => 0) a
        (opened wincode 2 10 0)) c := by
    intro a c b hcs
    match a, hcs with
    | [], hcs =>
        cases hcs
        exact .inr (.inr ⟨wincode_lawful.single _ _, by decide⟩)
    | [_], hcs =>
        cases hcs
        exact .inr (.inl (.inl rfl))
    | _ :: _ :: a, hcs => simp at hcs
  obtain ⟨ps, hbuffer, hseq, -⟩ := ((calls_agree_with_log_iff wincode_lawful
    (Hasher.scalar_lawful _) (by decide) (by decide) (opened_logged (by decide) 0) _).mpr hfits).2
    _ List.prefix_rfl
  rw [Nat.zero_add] at hseq
  exact ⟨ps, hbuffer, hseq⟩

/-- The entry of `2 ^ 22` leaves does not fit into a frame; its batch panics with the leaves in
the tree. -/
theorem opened_call_oversized {leaves : List Hash32} (hlen : leaves.length = 2 ^ 22) :
    (Shared.call wincode xorHasher (fun _ _ _ => 0) (.insertMany (fun _ _ => false) leaves)
      (opened wincode 2 32 0)).1 = .panic ∧
    (Shared.call wincode xorHasher (fun _ _ _ => 0) (.insertMany (fun _ _ => false) leaves)
      (opened wincode 2 32 0)).2.inner.size = 2 ^ 22 ∧
    (Shared.call wincode xorHasher (fun _ _ _ => 0) (.insertMany (fun _ _ => false) leaves)
      (opened wincode 2 32 0)).2.nextSeq = 0 := by
  have htree : Refines (fun _ _ _ => (0 : Hash32)) xorHasher (opened wincode 2 32 0).inner [] :=
    refines_new (by decide)
  have hfit : leaves.length < 256 ^ 8 := by rw [hlen]; decide
  have hsize : (wincode.walEntry.serialize ⟨0, .batch leaves⟩).length = 28 + 2 ^ 22 * 32 := by
    simp only [wincode, walEntryCodec, putPayload]
    rw [if_pos hfit]
    simp only [List.length_append, length_leBytes, length_putHashes, hlen]
    omega
  have hlarge : ¬ (Call.insertMany (fun _ _ => false) leaves).payload.Fits wincode 0 := by
    show ¬ (wincode.walEntry.serialize ⟨0, .batch leaves⟩).length ≤ MAX_FRAME_PAYLOAD
    rw [hsize]
    decide
  have hlawful : xorHasher.Lawful := Hasher.scalar_lawful _
  rcases insertCall_cases (W := wincode) hlawful (by decide) (by decide) htree
      (.insertMany (fun _ _ => false) leaves) with
    ⟨hc, -⟩ | ⟨-, root, inner, href, ⟨hfits, -⟩ | ⟨-, hpanic, hinner, hnext, -⟩⟩
  · simp only [Call.TurnedDown, Call.leaves, List.length_nil, Nat.zero_add, hlen] at hc
    rcases hc with hc | hc | hc
    · rw [hc, List.length_nil] at hlen
      exact absurd hlen (by decide)
    · exact absurd hc (by decide)
    · rw [Nat.clog_pow _ _ (by decide)] at hc
      exact absurd hc (by decide)
  · exact absurd hfits hlarge
  · refine ⟨hpanic, ?_, hnext⟩
    show (insertCall wincode xorHasher (fun _ _ _ => 0) _ (opened wincode 2 32 0)).2.inner.size = _
    rw [hinner, href.size, List.nil_append]
    exact hlen

/-- After such a batch on a new tree the log is behind the tree. -/
theorem oversized_batch_diverges :
    (∃ disk, openTree wincode xorHasher 0 false (fun _ _ => false)
      (World.empty : World Hash32 2 32).disk = .ok (opened wincode 2 32 0, disk)) ∧
    (opened wincode 2 32 0 : Shared Hash32 2 32).inner.size = 0 ∧
    (Shared.call wincode xorHasher (fun _ _ _ => 0) (.insertMany (fun _ _ => false)
      (List.replicate (2 ^ 22) 0)) (opened wincode 2 32 0)).1 = .panic ∧
    (Shared.call wincode xorHasher (fun _ _ _ => 0) (.insertMany (fun _ _ => false)
      (List.replicate (2 ^ 22) 0)) (opened wincode 2 32 0)).2.inner.size = 2 ^ 22 ∧
    (Shared.call wincode xorHasher (fun _ _ _ => 0) (.insertMany (fun _ _ => false)
      (List.replicate (2 ^ 22) 0)) (opened wincode 2 32 0)).2.nextSeq = 0 :=
  ⟨openTree_empty wincode_lawful _ _ _ _, rfl, opened_call_oversized List.length_replicate⟩

end Works.Rotortree
