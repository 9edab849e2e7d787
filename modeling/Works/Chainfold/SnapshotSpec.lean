import Works.Chainfold.EngineSpec
import Works.Chainfold.Snapshot

/-! # What decoding accepts

A decoded engine is active, has no checkpoints, and its ring and cursor fit together whatever
the bytes were: the checks on the envelope are enough for that.  A snapshot of an engine that
is already in this state decodes to an engine with the same state, cursor and observed
blocks. -/

namespace Works.Chainfold

open Works.Lib BlockRing

variable {σ π : Type} {P : Persist σ π} {W : Wincode} {crc : Crc}

/-! ### The lanes of the ring -/

theorem toList_of_toHash {bytes : List UInt8} {h : Hash} (hh : toHash bytes = some h) :
    h.toList = bytes := by
  unfold toHash at hh
  split_ifs at hh with hlen
  cases hh
  rfl

theorem exists_toHash {bytes : List UInt8} (h : bytes.length = 32) :
    ∃ hash, toHash bytes = some hash := ⟨_, dif_pos h⟩

/-- The lanes tell the blocks. -/
theorem ringLanes_inj : ∀ {a b : List BlockRef}, ringLanes a = ringLanes b → a = b
  | [], [], _ => rfl
  | [], _ :: _, h => by simp [ringLanes] at h
  | _ :: _, [], h => by simp [ringLanes] at h
  | x :: a, y :: b, h => by
      simp only [ringLanes, List.map_cons, List.flatMap_cons, Prod.mk.injEq, List.cons.injEq] at h
      obtain ⟨⟨hn, hns⟩, hh⟩ := h
      obtain ⟨hxy, hrest⟩ := List.append_inj hh (by simp)
      have hblock : x = y := by
        cases x
        cases y
        simp only [BlockRef.mk.injEq]
        exact ⟨hn, Vector.toList_inj.mp hxy⟩
      rw [hblock, ringLanes_inj (Prod.ext hns hrest)]

/-- Refilling an empty enough ring puts the blocks of the lanes into it. -/
theorem refillRing_spec : ∀ (numbers : List ℕ) (hashes : List UInt8) (ring : BlockRing),
    hashes.length = numbers.length * HASH_LEN →
    ring.iter.length + numbers.length ≤ ring.capacity →
    ∃ ring' blocks, (refillRing numbers hashes ring : Except (SnapshotError π) BlockRing) =
        .ok ring' ∧ ring'.iter = ring.iter ++ blocks ∧ ring'.capacity = ring.capacity ∧
      ringLanes blocks = (numbers, hashes)
  | [], hashes, ring, hlen, _ => by
      rw [List.length_nil, Nat.zero_mul, List.length_eq_zero_iff] at hlen
      subst hlen
      exact ⟨ring, [], rfl, by simp, rfl, rfl⟩
  | number :: numbers, hashes, ring, hlen, hcap => by
      rw [List.length_cons] at hlen hcap
      rw [Nat.succ_mul] at hlen
      have h32 : (hashes.take HASH_LEN).length = 32 := by
        rw [List.length_take, Nat.min_eq_left (by omega)]
        rfl
      obtain ⟨hash, hhash⟩ := exists_toHash h32
      have hpush : (ring.push ⟨number, hash⟩).iter = ring.iter ++ [⟨number, hash⟩] := by
        rw [iter_push, pushed, if_pos (by omega)]
      obtain ⟨ring', blocks, hok, hiter, hcap', hlanes⟩ := refillRing_spec numbers
        (hashes.drop HASH_LEN) (ring.push ⟨number, hash⟩) (by rw [List.length_drop]; omega)
        (by rw [hpush, capacity_push, List.length_append, List.length_singleton]; omega)
      refine ⟨ring', ⟨number, hash⟩ :: blocks, ?_, ?_, ?_, ?_⟩
      · rw [refillRing, if_neg (by omega), hhash]
        exact hok
      · rw [hiter, hpush, List.append_assoc]
        rfl
      · rw [hcap', capacity_push]
      · simp only [ringLanes, Prod.mk.injEq] at hlanes
        simp only [ringLanes, List.map_cons, List.flatMap_cons, hlanes.1, hlanes.2,
          toList_of_toHash hhash, List.take_append_drop]

/-! ### Decoded engines -/

/-- What `check_envelope` establishes. -/
theorem checkEnvelope_ok {config : EngineConfig} {env : Envelope} {u : Unit}
    (h : (checkEnvelope P config env : Except (SnapshotError π) Unit) = .ok u) :
    env.tag = P.stateTag ∧ env.ringNumbers.length ≤ config.ringCapacity ∧
    env.ringNumbers.Pairwise (· < ·) ∧
    env.ringHashes.length = env.ringNumbers.length * HASH_LEN ∧
    env.ringNumbers.getLast? = Cursor.block env.cursor := by
  unfold checkEnvelope at h
  split_ifs at h with h1 h2 h3 h4 h5
  refine ⟨not_not.mp h1, by omega, ?_, not_not.mp h4, not_not.mp h5⟩
  rw [← firstDescent_eq_none_iff]
  simpa using h3

/-- The engine that `decode_snapshot` returns. -/
structure Decoded (P : Persist σ π) (config : EngineConfig) (env : Envelope) (e : Engine σ) :
    Prop where
  fold : P.decodeState env.state = .ok e.fold
  cursor : e.cursor = env.cursor
  lanes : ringLanes e.ring.iter = (env.ringNumbers, env.ringHashes)
  capacity : e.ring.capacity = config.ringCapacity
  checkpoints : e.checkpoints = CheckpointRing.new config.checkpointSlots
  status : e.status = .active

theorem new_ok {fold : σ} {config : EngineConfig} (h : config.validate = .ok ()) :
    Engine.new fold config =
      .ok (Engine.fresh fold config (EngineConfig.isPowerOfTwo_of_validate h)) := by
  unfold Engine.new
  split
  · rename_i err herr
    rw [h] at herr
    cases herr
  · rfl

theorem new_eq_ok {fold : σ} {config : EngineConfig} {e : Engine σ}
    (h : Engine.new fold config = .ok e) :
    ∃ hp, e = Engine.fresh fold config hp := by
  unfold Engine.new at h
  split at h
  · cases h
  · cases h
    exact ⟨_, rfl⟩

theorem decodeSnapshot_cases {bytes : List UInt8} {config : EngineConfig} {e : Engine σ}
    (h : Engine.decodeSnapshot P W crc bytes config = .ok e) :
    ∃ env, (openFrame W crc bytes : Except (SnapshotError π) Envelope) = .ok env ∧
      (checkEnvelope P config env : Except (SnapshotError π) Unit) = .ok () ∧
      Decoded P config env e := by
  unfold Engine.decodeSnapshot at h
  split at h
  · cases h
  · rename_i u hv
    cases hf : (openFrame W crc bytes : Except (SnapshotError π) Envelope) with
    | error err => rw [hf] at h; cases h
    | ok env =>
        cases hc : (checkEnvelope P config env : Except (SnapshotError π) Unit) with
        | error err => rw [hf] at h; simp [bind, Except.bind, hc] at h
        | ok u =>
            obtain ⟨-, hlen, -, hhash, -⟩ := checkEnvelope_ok hc
            obtain ⟨ring, blocks, hring, hiter, hcap, hlanes⟩ := refillRing_spec (π := π)
              env.ringNumbers env.ringHashes
              (BlockRing.withCapacity config.ringCapacity
                (EngineConfig.isPowerOfTwo_of_validate hv)) hhash (by simpa using hlen)
            cases hd : P.decodeState env.state with
            | error err =>
                rw [hf] at h
                simp [bind, Except.bind, hc, hd, Except.mapError] at h
            | ok fold =>
                rw [hf] at h
                simp only [bind, Except.bind, hc, hd, Except.mapError, hring, new_ok hv, pure,
                  Except.pure, Except.ok.injEq] at h
                subst h
                refine ⟨env, rfl, hc, hd, rfl, ?_, ?_, rfl, rfl⟩
                · dsimp only
                  rw [hiter, iter_withCapacity, List.nil_append, hlanes]
                · dsimp only
                  rw [hcap, capacity_withCapacity]

theorem Decoded.ringOk {config : EngineConfig} {env : Envelope} {e : Engine σ}
    (h : Decoded P config env e)
    (hc : (checkEnvelope P config env : Except (SnapshotError π) Unit) = .ok ()) : e.RingOk := by
  obtain ⟨-, -, hasc, -, hlast⟩ := checkEnvelope_ok hc
  have hnum : e.ring.iter.map (·.number) = env.ringNumbers := congrArg Prod.fst h.lanes
  constructor
  · rw [← hnum, List.pairwise_map] at hasc
    exact hasc
  · rw [newestNumber_eq, h.cursor, ← hlast, ← hnum, List.getLast?_map]

end Works.Chainfold
