import Works.Rotortree.Storage.Replay

/-! # A damaged byte in the log

One byte of an entry that others follow is changed.  Behind the length field the checksum finds
it, and recovery returns an error (`damaged_mismatch`).  In the length field the change moves the
place where the checksum is looked for: recovery returns an error exactly when what the bytes
now are, from the damaged entry on, is not a log again (`damage_detected_iff`).  A length beyond
the end of the file, or beyond what a frame can have, looks like an interrupted write, and the
entry is cut off with all that follow it. -/

namespace Works.Rotortree

open Works.Lib

variable {Hash : Type} {N MAX_DEPTH : ℕ}

/-- A change of one byte changes the checksum. -/
def DetectsByte (crc : Crc) : Prop :=
  ∀ (bytes : List UInt8) (j : ℕ) (b : UInt8), j < bytes.length → bytes[j]? ≠ some b →
    crc (bytes.set j b) ≠ crc bytes

/-- The checksum, at the place where the length in front says it is, does not match. -/
def Mismatch (crc : Crc) (u : List UInt8) : Prop :=
  fromLeBytes ((u.drop (4 + fromLeBytes (u.take 4))).take 4) ≠
    (crc (u.take (4 + fromLeBytes (u.take 4)))).toNat

/-! ### Damaged frames -/

section Frame

variable {crc : Crc} {p u : List UInt8} {j : ℕ} {b : UInt8}

theorem Mismatch.not_frame (h : Mismatch crc u) (hp : p.length ≤ MAX_FRAME_PAYLOAD)
    (post : List UInt8) : u ≠ frameOf crc p ++ post := by
  rintro rfl
  obtain ⟨h1, h2, h3, -⟩ := frameOf_parts crc hp post
  refine h ?_
  rw [h1, h2, h3, fromLeBytes_toLeBytes (UInt32.toNat_lt _)]

/-- Without a frame, only a length that does not fit is torn. -/
theorem torn_iff_of_mismatch (h : Mismatch crc u) (hlen : 4 ≤ u.length) :
    Torn crc u ↔ MAX_FRAME_PAYLOAD < fromLeBytes (u.take 4) ∨
      u.length ≤ fromLeBytes (u.take 4) + 8 := by
  unfold Mismatch at h
  unfold Torn
  omega

/-- A change behind the length field is found by the checksum. -/
theorem damaged_mismatch (hcrc : DetectsByte crc) (hp : p.length ≤ MAX_FRAME_PAYLOAD) (h4 : 4 ≤ j)
    (hj : j < (frameOf crc p).length) (hb : (frameOf crc p)[j]? ≠ some b) (post : List UInt8) :
    fromLeBytes (((frameOf crc p).set j b ++ post).take 4) = p.length ∧
      Mismatch crc ((frameOf crc p).set j b ++ post) := by
  set head := toLeBytes p.length ++ p with hhead
  have hlen : head.length = 4 + p.length := by simp [hhead]
  have hframe : frameOf crc p = head ++ toLeBytes (crc head).toNat := rfl
  rw [length_frameOf] at hj
  rw [hframe] at hb ⊢
  have hmax : p.length < 4294967296 := by
    have : MAX_FRAME_PAYLOAD = 134217728 := rfl
    omega
  by_cases hin : j < head.length
  · -- in the payload: the stored checksum stands, the computed one changes
    rw [List.getElem?_append_left hin] at hb
    have hset : head.set j b = toLeBytes p.length ++ p.set (j - 4) b := by
      rw [hhead, List.set_append_right _ _ (by simpa using h4), length_toLeBytes]
    have h1 : fromLeBytes (((head ++ toLeBytes (crc head).toNat).set j b ++ post).take 4) =
        p.length := by
      rw [List.set_append_left _ _ hin, hset, List.append_assoc, List.append_assoc,
        List.take_left' (length_toLeBytes _), fromLeBytes_toLeBytes hmax]
    refine ⟨h1, ?_⟩
    unfold Mismatch
    rw [h1, List.set_append_left _ _ hin, List.append_assoc, ← hlen,
      List.drop_left' (List.length_set ..), List.take_left' (List.length_set ..),
      List.take_left' (length_toLeBytes _), fromLeBytes_toLeBytes (UInt32.toNat_lt _)]
    exact fun h => hcrc head j b hin hb (UInt32.toNat_inj.mp h).symm
  · -- in the checksum itself
    rw [List.getElem?_append_right (by omega)] at hb
    have hset : (head ++ toLeBytes (crc head).toNat).set j b =
        head ++ (toLeBytes (crc head).toNat).set (j - head.length) b :=
      List.set_append_right _ _ (by omega)
    have h1 : fromLeBytes (((head ++ toLeBytes (crc head).toNat).set j b ++ post).take 4) =
        p.length := by
      rw [hset, hhead, List.append_assoc, List.append_assoc,
        List.take_left' (length_toLeBytes _), fromLeBytes_toLeBytes hmax]
    refine ⟨h1, ?_⟩
    unfold Mismatch
    rw [h1, hset, List.append_assoc, ← hlen, List.drop_left' rfl, List.take_left' rfl,
      List.take_left' (by simp)]
    intro h
    have hback := congrArg toLeBytes h
    rw [toLeBytes_fromLeBytes (by simp)] at hback
    refine hb ?_
    rw [← hback, List.getElem?_set_self (by simp; omega)]

end Frame

/-! ### Reading up to the damage -/

section Reads

variable {W : Wire Hash} {u v hdr log kept : List UInt8} {start : ℕ} {last : Option ℕ}
variable {es : List (WalEntry Hash)} {ps : List (WalPayload Hash)}

/-- Where neither a torn end nor a frame stands, nothing reads. -/
theorem not_reads (ht : ¬ Torn W.crc u) (hf : Mismatch W.crc u) : ¬ Reads W last u es v := by
  intro h
  cases h with
  | ends h =>
      cases h with
      | torn h => exact ht h
      | gap _ hp hu => exact hf.not_frame hp _ hu
  | entry hp => exact hf.not_frame hp _ rfl

/-- Where no frame stands, only a torn end reads. -/
theorem reads_iff_torn (hf : Mismatch W.crc u) :
    Reads W last u es v ↔ Torn W.crc u ∧ es = [] ∧ v = u := by
  constructor
  · intro h
    by_cases ht : Torn W.crc u
    · obtain ⟨rfl, rfl⟩ := h.unique (.ends (.torn ht))
      exact ⟨ht, rfl, rfl⟩
    · exact absurd h (not_reads ht hf)
  · rintro ⟨ht, rfl, rfl⟩
    exact .ends (.torn ht)

/-- Behind complete entries the reading goes on with what follows them. -/
theorem reads_behind (hW : W.Lawful) (hfit : AllFit W start ps) (hseq : start + ps.length ≤ U64_SIZE)
    (hlast : ∀ l, last = some l → l + 1 = start ∧ l + 1 < U64_SIZE)
    (h : Reads W last (framesFrom W start ps ++ u) es v) :
    ∃ es', es = entriesFrom start ps ++ es' ∧
      Reads W (lastSeqOf last (entriesFrom start ps)) u es' v := by
  induction ps generalizing start last es with
  | nil => exact ⟨es, rfl, h⟩
  | cons p ps ih =>
      rw [List.length_cons] at hseq
      rw [framesFrom, List.append_assoc, entryBytes] at h
      obtain ⟨es₁, rfl, h₁⟩ := h.of_frame hfit.1 (hW.walEntry ⟨start, p⟩ (by
        show start < U64_SIZE
        omega)) fun l hl => ⟨(hlast l hl).2, ((hlast l hl).1).symm⟩
      cases ps with
      | nil => exact ⟨es₁, rfl, h₁⟩
      | cons q ps =>
          rw [List.length_cons] at hseq
          obtain ⟨es', rfl, h'⟩ := ih hfit.2 (by rw [List.length_cons]; omega) (by
            rintro l ⟨⟩
            exact ⟨rfl, by show start + 1 < U64_SIZE; omega⟩) h₁
          refine ⟨es', rfl, ?_⟩
          rw [entriesFrom, lastSeqOf_cons]
          exact h'

/-- What a log with complete entries and other bytes behind them reads as. -/
theorem scans_behind_iff (hW : W.Lawful) (hhdr : IsHeader W N MAX_DEPTH hdr)
    (hfit : AllFit W start ps) (hseq : start + ps.length ≤ U64_SIZE)
    (hlog : log = hdr ++ (framesFrom W start ps ++ u)) :
    (∃ kept, Scans W N MAX_DEPTH log kept es) ↔ ∃ es' v, es = entriesFrom start ps ++ es' ∧
      Reads W (lastSeqOf none (entriesFrom start ps)) u es' v := by
  constructor
  · rintro ⟨kept, hdr', w, v, ⟨p', hp', rfl, -⟩, hlog', hreads, -⟩
    obtain ⟨p, hp, rfl, -⟩ := hhdr
    rw [hlog] at hlog'
    obtain ⟨-, hrest⟩ := frameOf_inj hp hp' hlog'
    rw [← hrest] at hreads
    obtain ⟨es', rfl, h⟩ := reads_behind hW hfit hseq (by rintro l ⟨⟩) hreads
    exact ⟨es', v, rfl, h⟩
  · rintro ⟨es', v, rfl, hreads⟩
    obtain ⟨w, rfl⟩ := hreads.exists_append
    have hentries : Reads W none (framesFrom W start ps ++ []) (entriesFrom start ps) [] :=
      reads_framesFrom hW hfit hseq (by rintro l ⟨⟩) (by rintro l ⟨⟩) (.torn (torn_nil _))
    refine ⟨_, hdr, framesFrom W start ps ++ w, v, hhdr, ?_, ?_, rfl⟩
    · rw [hlog, List.append_assoc]
    · rw [List.append_assoc]
      exact hentries.append hreads

end Reads

/-! ### Recovery from a damaged log -/

/-- Behind the entries `es₀` the bytes `u` read as entries, and the tree takes them all. -/
def ReadsOn (W : Wire Hash) (N MAX_DEPTH n : ℕ) (skip : Option ℕ) (es₀ : List (WalEntry Hash))
    (u : List UInt8) : Prop :=
  ∃ es v, Reads W (lastSeqOf none es₀) u es v ∧ ReplayOk N MAX_DEPTH n skip (es₀ ++ es) ∧
    nextOf skip (es₀ ++ es) < U64_SIZE

/-- The bytes of the entries `p :: after`, with byte `j` of `p` changed to `b`. -/
def damagedAt (W : Wire Hash) (seq : ℕ) (p : WalPayload Hash) (after : List (WalPayload Hash))
    (j : ℕ) (b : UInt8) : List UInt8 :=
  (entryBytes W seq p).set j b ++ framesFrom W (seq + 1) after

section Damage

variable [Zero Hash] [DecidableEq Hash] {W : Wire Hash} {H : Hasher Hash}
variable {disk : Disk Hash} {L : List Hash} {skip : Option ℕ} {start j : ℕ} {b : UInt8}
variable {before after : List (WalPayload Hash)} {p : WalPayload Hash}

omit [Zero Hash] [DecidableEq Hash] in
/-- A change behind the length field of an entry that others follow leaves nothing to read. -/
theorem not_reads_damagedAt (hcrc : DetectsByte W.crc) {seq : ℕ} (hfit : p.Fits W seq)
    (hafter : after ≠ []) (h4 : 4 ≤ j) (hj : j < (entryBytes W seq p).length)
    (hb : (entryBytes W seq p)[j]? ≠ some b) {last : Option ℕ} {es : List (WalEntry Hash)}
    {v : List UInt8} : ¬ Reads W last (damagedAt W seq p after j b) es v := by
  obtain ⟨hlen, hmis⟩ : fromLeBytes ((damagedAt W seq p after j b).take 4) =
      (W.walEntry.serialize ⟨seq, p⟩).length ∧ Mismatch W.crc (damagedAt W seq p after j b) :=
    damaged_mismatch hcrc hfit h4 hj hb (framesFrom W (seq + 1) after)
  obtain ⟨q, qs, rfl⟩ := List.exists_cons_of_ne_nil hafter
  have hq := length_entryBytes_pos (W := W) (seq + 1) q
  have hsize : (damagedAt W seq p (q :: qs) j b).length =
      (W.walEntry.serialize ⟨seq, p⟩).length + 8 + ((entryBytes W (seq + 1) q).length +
        (framesFrom W (seq + 1 + 1) qs).length) := by
    rw [damagedAt, List.length_append, List.length_set, entryBytes, length_frameOf, framesFrom,
      List.length_append]
  refine not_reads ?_ hmis
  rw [torn_iff_of_mismatch hmis (by rw [hsize]; omega), hlen, hsize]
  unfold WalPayload.Fits at hfit
  omega

/-- **A damaged byte in the log.**  Recovery returns an error exactly when the byte is behind the
length field, or what the bytes now are is not a log that the tree takes.  When no frame ends
where the changed length says, it is the changed length that decides: recovery returns an error
exactly when the length is that of a frame which ends before the end of the file.  Otherwise
the entry is cut off, with all that follow it. -/
theorem damage_detected_iff (hW : W.Lawful) (hH : H.Lawful) (hN : 2 ≤ N) (hD : 1 ≤ MAX_DEPTH)
    (hcrc : DetectsByte W.crc) (hbase : Base W H N MAX_DEPTH disk L skip)
    (hfit : AllFit W start (before ++ p :: after)) (hafter : after ≠ [])
    (hseq : start + (before ++ p :: after).length ≤ U64_SIZE)
    (hj : j < (entryBytes W (start + before.length) p).length)
    (hb : (entryBytes W (start + before.length) p)[j]? ≠ some b)
    (hwal : disk.wal.now = headerBytes W N MAX_DEPTH ++ (framesFrom W start before ++
      damagedAt W (start + before.length) p after j b))
    (verify : Bool) (par : ℕ → ℕ → Bool) :
    ((∃ err, (recoverWithCheckpoint W H par disk verify :
        Outcome StorageError (RecoveryResult Hash N MAX_DEPTH)) = .error err) ↔
      4 ≤ j ∨ ¬ ReadsOn W N MAX_DEPTH L.length skip (entriesFrom start before)
        (damagedAt W (start + before.length) p after j b)) ∧
    (LogOk W N MAX_DEPTH L skip start before →
      Mismatch W.crc (damagedAt W (start + before.length) p after j b) →
      ((∃ err, (recoverWithCheckpoint W H par disk verify :
          Outcome StorageError (RecoveryResult Hash N MAX_DEPTH)) = .error err) ↔
        fromLeBytes ((damagedAt W (start + before.length) p after j b).take 4) ≤
          MAX_FRAME_PAYLOAD ∧
        fromLeBytes ((damagedAt W (start + before.length) p after j b).take 4) + 8 <
          (damagedAt W (start + before.length) p after j b).length)) ∧
    (LogOk W N MAX_DEPTH L skip start before →
      Torn W.crc (damagedAt W (start + before.length) p after j b) →
      ∃ r : RecoveryResult Hash N MAX_DEPTH, recoverWithCheckpoint W H par disk verify = .ok r ∧
        Recovered disk.shards.fs H (L ++ replayed skip (entriesFrom start before))
          (nextOf skip (entriesFrom start before))
          (headerBytes W N MAX_DEPTH ++ framesFrom W start before) r) := by
  set u := damagedAt W (start + before.length) p after j b with hu
  obtain ⟨hfit₁, hfit₂⟩ := allFit_append.mp hfit
  rw [List.length_append] at hseq
  have hscans := fun es => (@scans_behind_iff _ _ _ _ _ _ _ _ es) hW
    ((@isHeader_headerBytes _ N MAX_DEPTH) hW) hfit₁
    (show start + before.length ≤ U64_SIZE by omega) hwal
  have hne : disk.wal.now ≠ [] := by
    rw [hwal]
    simp [(isHeader_headerBytes hW).ne_nil]
  have hmain : (∃ err, (recoverWithCheckpoint W H par disk verify :
        Outcome StorageError (RecoveryResult Hash N MAX_DEPTH)) = .error err) ↔
      ¬ ReadsOn W N MAX_DEPTH L.length skip (entriesFrom start before) u := by
    rcases (@recoverWithCheckpoint_spec _ _ _ _ _ _ _ par) hH hN hD hbase hne verify with
      ⟨es, kept, r, hs, hok, hnext, hrec, -⟩ | ⟨herr, hno⟩
    · constructor
      · rintro ⟨err, herr⟩
        rw [herr] at hrec
        cases hrec
      · intro hnot
        obtain ⟨es', v, rfl, hreads⟩ := (hscans es).mp ⟨kept, hs⟩
        exact absurd ⟨es', v, hreads, hok, hnext⟩ hnot
    · refine iff_of_true herr ?_
      rintro ⟨es', v, hreads, hok, hnext⟩
      obtain ⟨kept, hs⟩ := (hscans _).mpr ⟨es', v, rfl, hreads⟩
      exact hno _ _ hs ⟨hok, hnext⟩
  refine ⟨hmain.trans ?_, ?_, ?_⟩
  · constructor
    · exact .inr
    · rintro (h4 | hnot)
      · rintro ⟨es, v, hreads, -⟩
        exact not_reads_damagedAt hcrc hfit₂.1 hafter h4 hj hb hreads
      · exact hnot
  · intro hlog hmis
    have hlen : 4 ≤ u.length := by
      have := length_entryBytes_pos (W := W) (start + before.length) p
      rw [hu, damagedAt, List.length_append, List.length_set]
      omega
    have htorn := torn_iff_of_mismatch hmis hlen
    have hreads : ReadsOn W N MAX_DEPTH L.length skip (entriesFrom start before) u ↔
        Torn W.crc u := by
      constructor
      · rintro ⟨es, v, hreads, -⟩
        exact ((reads_iff_torn hmis).mp hreads).1
      · intro ht
        refine ⟨[], u, (reads_iff_torn hmis).mpr ⟨ht, rfl, rfl⟩, ?_, ?_⟩
        · rw [List.append_nil]
          exact hlog.replayOk
        · rw [List.append_nil]
          exact hlog.next_lt
    rw [hmain, hreads, htorn]
    omega
  · intro hlog ht
    exact hlog.recovers hW hH hN hD hbase ht hwal verify par

end Damage

theorem wincode_detectsByte : DetectsByte wincode.crc :=
  fun _ _ _ hj hb => crc32c_set_ne hj hb

/-- A byte of a leaf is changed. -/
theorem damaged_leaf_detected :
    ∃ err, (recoverWithCheckpoint wincode xorHasher (fun _ _ => false)
      ⟨.synced (headerBytes wincode 2 10 ++ damagedAt wincode 0 (.single (testLeaf 1))
        [.single (testLeaf 2)] 20 7), true, none, none, fun _ _ => none⟩ true :
      Outcome StorageError (RecoveryResult Hash32 2 10)) = .error err := by
  have hfit : AllFit wincode 0 [.single (testLeaf 1), .single (testLeaf 2)] :=
    ⟨wincode_lawful.single _ _, wincode_lawful.single _ _, trivial⟩
  have hj : 20 < (entryBytes wincode 0 (.single (testLeaf 1))).length := by decide +kernel
  have hb : (entryBytes wincode 0 (.single (testLeaf 1)))[20]? ≠ some 7 := by decide +kernel
  exact ((@damage_detected_iff _ _ _ _ _ _ _ _ [] none _ _ _ []) wincode_lawful
    (Hasher.scalar_lawful _) (by decide) (by decide) wincode_detectsByte (.none (.noMeta rfl)) hfit
    (by simp) (by decide) hj hb rfl true _).1.mpr (.inl (by decide))

/-- The highest byte of the length is set. -/
theorem torn_damagedAt (W : Wire Hash) (seq : ℕ) (p : WalPayload Hash)
    (after : List (WalPayload Hash)) : Torn W.crc (damagedAt W seq p after 3 255) := by
  refine .inr (.inl ?_)
  unfold damagedAt entryBytes frameOf
  rw [List.append_assoc, List.set_append_left _ _ (by simp), List.append_assoc,
    List.take_left' (by simp)]
  simp only [toLeBytes, List.set_cons_succ, List.set_cons_zero, fromLeBytes]
  have : MAX_FRAME_PAYLOAD = 134217728 := rfl
  have : (255 : UInt8).toNat = 255 := rfl
  omega

/-- With the highest byte of a length set, recovery cuts off the entry and the one behind it. -/
theorem damaged_length_cuts_log :
    (entryBytes wincode 0 (.single (testLeaf 1)))[3]? ≠ some 255 ∧
    ∃ r : RecoveryResult Hash32 2 10, recoverWithCheckpoint wincode xorHasher (fun _ _ => false)
      ⟨.synced (headerBytes wincode 2 10 ++ damagedAt wincode 0 (.single (testLeaf 1))
        [.single (testLeaf 2)] 3 255), true, none, none, fun _ _ => none⟩ true = .ok r ∧
      r.inner.size = 0 ∧ r.nextSeq = 0 ∧ r.wal.now = headerBytes wincode 2 10 := by
  have hlog : LogOk wincode 2 10 ([] : List Hash32) none 0 [] :=
    ⟨trivial, by simp, by decide, by decide, .inl rfl⟩
  obtain ⟨r, hrec, hr⟩ := (@LogOk.recovers _ _ _ _ _ _ _ ⟨.synced (headerBytes wincode 2 10 ++
      damagedAt wincode 0 (.single (testLeaf 1)) [.single (testLeaf 2)] 3 255), true, none, none,
      fun _ _ => none⟩) wincode_lawful (Hasher.scalar_lawful _) (by decide) (by decide)
    (.none (.noMeta rfl)) hlog
    (torn_damagedAt wincode 0 (.single (testLeaf 1)) [.single (testLeaf 2)]) rfl true (fun _ _ => false)
  refine ⟨by decide +kernel, r, hrec, hr.tree.size, hr.nextSeq, ?_⟩
  rw [hr.wal, framesFrom, List.append_nil]

end Works.Rotortree
