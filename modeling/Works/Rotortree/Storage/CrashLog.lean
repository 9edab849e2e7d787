import Works.Rotortree.Storage.RotorTree

/-! # The log across a crash

Every entry of the tree is in one of five places: only in the checkpoint, safe in the log,
written to it and not yet synced, taken by a flush, or in the buffer.  `LogPart` follows the
entries through flushes and checkpoints.  Behind its cursor the log may have what a failed write
left there, which is a beginning of what is written there next.

A crash leaves a beginning of the entries that contains the safe ones, and a torn end
(`Remains`).  `TearsShow` and `EntriesShow` are what the checksum is there for: where a frame did
not survive whole, reading stops. -/

namespace Works.Rotortree

open Works.Lib

variable {Hash : Type} {N MAX_DEPTH : ℕ}

/-! ### Logs -/

/-- A log: the header, and entries from number `seq` on. -/
def logBytes (W : Wire Hash) (N MAX_DEPTH seq : ℕ) (ps : List (WalPayload Hash)) : List UInt8 :=
  headerBytes W N MAX_DEPTH ++ framesFrom W seq ps

section LogBytes

variable {W : Wire Hash} {seq : ℕ} {ps qs : List (WalPayload Hash)}

theorem logBytes_nil : logBytes W N MAX_DEPTH seq [] = headerBytes W N MAX_DEPTH :=
  List.append_nil _

theorem logBytes_append : logBytes W N MAX_DEPTH seq (ps ++ qs) =
    logBytes W N MAX_DEPTH seq ps ++ framesFrom W (seq + ps.length) qs := by
  rw [logBytes, framesFrom_append, logBytes, List.append_assoc]

theorem logBytes_concat {p : WalPayload Hash} : logBytes W N MAX_DEPTH seq (ps ++ [p]) =
    logBytes W N MAX_DEPTH seq ps ++ entryBytes W (seq + ps.length) p := by
  rw [logBytes_append, framesFrom, framesFrom, List.append_nil]

theorem logBytes_mono (h : ps <+: qs) :
    logBytes W N MAX_DEPTH seq ps <+: logBytes W N MAX_DEPTH seq qs := by
  obtain ⟨r, rfl⟩ := h
  rw [logBytes_append]
  exact List.prefix_append _ _

theorem AllFit.last {p : WalPayload Hash} (h : AllFit W seq ps) (hp : qs ++ [p] <+: ps) :
    p.Fits W (seq + qs.length) := by
  obtain ⟨r, rfl⟩ := hp
  exact (allFit_append.mp (allFit_append.mp h).1).2.1

theorem framesFrom_eq_nil : framesFrom W seq ps = [] ↔ ps = [] := by
  constructor
  · intro h
    cases ps with
    | nil => rfl
    | cons p ps =>
        have hlen := length_entryBytes_pos (W := W) seq p
        rw [framesFrom, List.append_eq_nil_iff] at h
        rw [h.1, List.length_nil] at hlen
        omega
  · rintro rfl
    rfl

end LogBytes

/-! ### What a crash leaves -/

/-- Where `s` has the log up to a frame and not the whole frame, it ends torn. -/
def TearsShow (crc : Crc) (log s : List UInt8) : Prop :=
  ∀ pre p post, p.length ≤ MAX_FRAME_PAYLOAD → log = pre ++ (frameOf crc p ++ post) → pre <+: s →
    ¬ pre ++ frameOf crc p <+: s → Torn crc (s.drop pre.length)

/-- A log that was cut at some byte ends torn. -/
theorem tearsShow_take (crc : Crc) (log : List UInt8) (n : ℕ) : TearsShow crc log (log.take n) := by
  rintro pre p post hp rfl hpre hno
  have hle : pre.length ≤ n := by
    have := hpre.length_le
    rw [List.length_take] at this
    omega
  rw [List.take_append, List.take_of_length_le hle, List.prefix_append_right_inj] at hno
  rw [List.take_append, List.take_of_length_le hle, List.drop_left]
  have hlt : n - pre.length < (frameOf crc p).length := by
    by_contra hge
    apply hno
    rw [List.take_append, List.take_of_length_le (Nat.le_of_not_lt hge)]
    exact List.prefix_append _ _
  rw [List.take_append_of_le_length hlt.le]
  refine torn_of_shorter hp (List.take_prefix _ _) ?_
  rw [List.length_take]
  exact (Nat.min_le_left _ _).trans_lt hlt

/-- Where a state of the log since its last sync goes on with an entry, or with a part of it, `s`
has the whole entry or ends torn. -/
def EntriesShow (W : Wire Hash) (N MAX_DEPTH : ℕ) (wal : CrashFile UInt8) (s : List UInt8) : Prop :=
  ∀ v ∈ wal.contents, s.length ≤ v.length → ∀ seq qs p, p.Fits W (seq + qs.length) →
    logBytes W N MAX_DEPTH seq qs <+: v →
    (logBytes W N MAX_DEPTH seq (qs ++ [p]) <+: v ∨ v <+: logBytes W N MAX_DEPTH seq (qs ++ [p])) →
    logBytes W N MAX_DEPTH seq qs <+: s → ¬ logBytes W N MAX_DEPTH seq (qs ++ [p]) <+: s →
    Torn W.crc (s.drop (logBytes W N MAX_DEPTH seq qs).length)

/-- What is left of the log: a header, entries that begin no later than the checkpoint and hold
all of `lo` and nothing behind `hi`, and a torn end. -/
def Remains (W : Wire Hash) (N MAX_DEPTH : ℕ) (pc lo hi : List (WalPayload Hash))
    (s : List UInt8) : Prop :=
  ∃ q0 ql v, q0 <+: pc ∧ lo <+: q0 ++ ql ∧ q0 ++ ql <+: hi ∧ Torn W.crc v ∧
    s = logBytes W N MAX_DEPTH q0.length ql ++ v

/-- A write at the end of a log. -/
theorem write_end {wal : CrashFile UInt8} {cursor : ℕ} (hcursor : cursor = wal.now.length)
    (xs : List UInt8) : (wal.write cursor xs).now = wal.now ++ xs := by
  rw [CrashFile.write, CrashFile.now_become, hcursor]
  have h := CrashFile.writeAt_append wal.now [] xs
  rwa [List.append_nil, List.drop_nil, List.append_nil] at h

section Remains

variable {W : Wire Hash} {wal : CrashFile UInt8} {s : List UInt8}
variable {pc lo hi p0 pd pu pe : List (WalPayload Hash)}

theorem Remains.mono (h : Remains W N MAX_DEPTH pc lo hi s) {hi' : List (WalPayload Hash)}
    (hhi : hi <+: hi') : Remains W N MAX_DEPTH pc lo hi' s := by
  obtain ⟨q0, ql, v, h0, h1, h2, hv, he⟩ := h
  exact ⟨q0, ql, v, h0, h1, h2.trans hhi, hv, he⟩

/-- Entries behind the safe ones are there one by one, up to the first that is torn. -/
theorem exists_whole_entries {seq : ℕ}
    (htorn : ∀ qs p, qs ++ [p] <+: pd ++ pe → logBytes W N MAX_DEPTH seq qs <+: s →
      ¬ logBytes W N MAX_DEPTH seq (qs ++ [p]) <+: s →
      Torn W.crc (s.drop (logBytes W N MAX_DEPTH seq qs).length))
    (hlen : s.length ≤ (logBytes W N MAX_DEPTH seq (pd ++ pe)).length)
    (hs : logBytes W N MAX_DEPTH seq pd <+: s) :
    ∃ qe v, qe <+: pe ∧ Torn W.crc v ∧ s = logBytes W N MAX_DEPTH seq (pd ++ qe) ++ v := by
  induction pe generalizing pd with
  | nil =>
      rw [List.append_nil] at hlen
      refine ⟨[], [], List.prefix_rfl, torn_nil _, ?_⟩
      rw [List.append_nil, List.append_nil]
      exact (hs.eq_of_length_le hlen).symm
  | cons p pe ih =>
      have hsplit : pd ++ p :: pe = pd ++ [p] ++ pe := by simp
      rw [hsplit] at htorn hlen
      by_cases hp : logBytes W N MAX_DEPTH seq (pd ++ [p]) <+: s
      · obtain ⟨qe, v, hq, hv, he⟩ := ih htorn hlen hp
        refine ⟨p :: qe, v, List.cons_prefix_cons.mpr ⟨rfl, hq⟩, hv, ?_⟩
        rw [he, List.append_assoc pd]
        rfl
      · refine ⟨[], _, List.nil_prefix, htorn pd p (List.prefix_append _ _) hs hp, ?_⟩
        obtain ⟨v, rfl⟩ := hs
        rw [List.drop_left, List.append_nil]

/-- A log that may have beginnings of the entries to come. -/
theorem remains_between (hfit : AllFit W p0.length (pd ++ pe)) (hstart : p0 <+: pc)
    (hbetween : ∀ v ∈ wal.contents, logBytes W N MAX_DEPTH p0.length pd <+: v ∧
      v <+: logBytes W N MAX_DEPTH p0.length (pd ++ pe))
    (hs : wal.Survives s) (hshow : EntriesShow W N MAX_DEPTH wal s) :
    Remains W N MAX_DEPTH pc (p0 ++ pd) (p0 ++ (pd ++ pe)) s := by
  obtain ⟨v, hv, hle⟩ := hs.length
  have hlen : s.length ≤ v.length := hle.elim Eq.le And.right
  have htorn : ∀ qs p, qs ++ [p] <+: pd ++ pe → logBytes W N MAX_DEPTH p0.length qs <+: s →
      ¬ logBytes W N MAX_DEPTH p0.length (qs ++ [p]) <+: s →
      Torn W.crc (s.drop (logBytes W N MAX_DEPTH p0.length qs).length) := by
    intro qs p hp hqs hno
    have hnext : logBytes W N MAX_DEPTH p0.length (qs ++ [p]) <+:
        logBytes W N MAX_DEPTH p0.length (pd ++ pe) := logBytes_mono hp
    have hbegin := (logBytes_mono (List.prefix_append qs [p])).trans hnext
    exact hshow v hv hlen _ qs p (hfit.last hp)
      (List.prefix_of_prefix_length_le hbegin (hbetween v hv).2 (hqs.length_le.trans hlen))
      (List.prefix_or_prefix_of_prefix hnext (hbetween v hv).2) hqs hno
  obtain ⟨qe, u, hq, hu, he⟩ := exists_whole_entries htorn
    (hlen.trans (hbetween v hv).2.length_le) (hs.common_start fun v hv => (hbetween v hv).1)
  refine ⟨p0, pd ++ qe, u, hstart, ?_, ?_, hu, he⟩
  · rw [← List.append_assoc]
    exact List.prefix_append _ _
  · rw [List.prefix_append_right_inj, List.prefix_append_right_inj]
    exact hq

/-- A log that was only added to since it was synced. -/
theorem remains_grown (hfit : AllFit W p0.length (pd ++ pu)) (hstart : p0 <+: pc)
    (hnow : wal.now = logBytes W N MAX_DEPTH p0.length (pd ++ pu))
    (hgrown : ∀ v ∈ wal.contents, logBytes W N MAX_DEPTH p0.length pd <+: v ∧ v <+: wal.now)
    (hs : wal.Survives s) (ht : TearsShow W.crc wal.now s) :
    Remains W N MAX_DEPTH pc (p0 ++ pd) (p0 ++ (pd ++ pu)) s := by
  obtain ⟨v, hv, hle⟩ := hs.length
  have hlen : s.length ≤ wal.now.length :=
    (hle.elim Eq.le And.right).trans (hgrown v hv).2.length_le
  have htorn : ∀ qs p, qs ++ [p] <+: pd ++ pu → logBytes W N MAX_DEPTH p0.length qs <+: s →
      ¬ logBytes W N MAX_DEPTH p0.length (qs ++ [p]) <+: s →
      Torn W.crc (s.drop (logBytes W N MAX_DEPTH p0.length qs).length) := by
    intro qs p hp hqs hno
    rw [logBytes_concat] at hno
    obtain ⟨r, hr⟩ := hp
    refine ht _ _ (framesFrom W (p0.length + (qs ++ [p]).length) r)
      (hfit.last ⟨r, hr⟩) ?_ hqs hno
    rw [hnow, ← hr, logBytes_append, logBytes_concat, List.append_assoc]
    rfl
  obtain ⟨qu, u, hq, hu, he⟩ := exists_whole_entries htorn (hnow ▸ hlen)
    (hs.common_start fun v hv => (hgrown v hv).1)
  refine ⟨p0, pd ++ qu, u, hstart, ?_, ?_, hu, he⟩
  · rw [← List.append_assoc]
    exact List.prefix_append _ _
  · rw [List.prefix_append_right_inj, List.prefix_append_right_inj]
    exact hq

/-- A log that is cut to its header, and not yet synced: the cut is there or not. -/
theorem remains_cut (hnow : wal.now = logBytes W N MAX_DEPTH p0.length pd) (hpast : wal.past = []) :
    ((wal.write 0 (headerBytes W N MAX_DEPTH)).setLen (headerBytes W N MAX_DEPTH).length).now =
      headerBytes W N MAX_DEPTH ∧
    ∀ s, ((wal.write 0 (headerBytes W N MAX_DEPTH)).setLen
      (headerBytes W N MAX_DEPTH).length).Survives s →
        Remains W N MAX_DEPTH (p0 ++ pd) (p0 ++ pd) (p0 ++ pd) s := by
  rw [logBytes] at hnow
  have hsame : CrashFile.writeAt wal.now 0 (headerBytes W N MAX_DEPTH) = wal.now := by
    have h := CrashFile.writeAt_append [] wal.now (headerBytes W N MAX_DEPTH)
    rw [List.nil_append, List.nil_append, List.length_nil] at h
    rw [h, hnow, List.drop_left]
  have hcut : ((wal.write 0 (headerBytes W N MAX_DEPTH)).setLen
      (headerBytes W N MAX_DEPTH).length).now = headerBytes W N MAX_DEPTH := by
    rw [CrashFile.setLen, CrashFile.now_become, CrashFile.write, CrashFile.now_become, hsame, hnow,
      List.take_left, List.length_append, Nat.sub_eq_zero_of_le (Nat.le_add_right _ _),
      List.replicate_zero, List.append_nil]
  refine ⟨hcut, ?_⟩
  intro s hs
  -- the states since the last sync: the header, the old log twice
  have hcontents : ((wal.write 0 (headerBytes W N MAX_DEPTH)).setLen
      (headerBytes W N MAX_DEPTH).length).contents =
      [headerBytes W N MAX_DEPTH, wal.now, wal.now] := by
    rw [CrashFile.contents, hcut]
    unfold CrashFile.setLen CrashFile.write CrashFile.become
    rw [hsame, hpast]
  have hdurable : ((wal.write 0 (headerBytes W N MAX_DEPTH)).setLen
      (headerBytes W N MAX_DEPTH).length).durable = wal.now := by
    rw [CrashFile.setLen, CrashFile.durable_become, CrashFile.write, CrashFile.durable_become,
      CrashFile.durable, hpast]
    rfl
  have hprefix : headerBytes W N MAX_DEPTH <+: wal.now := hnow ▸ List.prefix_append _ _
  have hlen : s.length = (headerBytes W N MAX_DEPTH).length ∨ s.length = wal.now.length := by
    obtain ⟨v, hv, h1⟩ := hs.length
    rw [hdurable] at h1
    have hle := hprefix.length_le
    rw [hcontents] at hv
    simp only [List.mem_cons, List.not_mem_nil, or_false, or_self] at hv
    rcases hv with rfl | rfl <;> omega
  have hget : s <+: wal.now := by
    rw [List.prefix_iff_getElem?]
    intro i hi
    have hlt : i < wal.now.length := by
      have := hprefix.length_le
      omega
    rcases hs.elems i s[i] (List.getElem?_eq_getElem hi) with ⟨v, hv, hx⟩ | ⟨hnone, -⟩
    · rw [hcontents] at hv
      simp only [List.mem_cons, List.not_mem_nil, or_false, or_self] at hv
      rcases hv with rfl | rfl
      · have hih := (List.getElem?_eq_some_iff.mp hx).1
        rw [List.prefix_iff_getElem?.mp hprefix i hih, ← hx, List.getElem?_eq_getElem hih]
      · exact hx
    · rw [hdurable, List.getElem?_eq_getElem hlt] at hnone
      cases hnone
  rcases hlen with hlen | hlen
  · refine ⟨p0 ++ pd, [], [], List.prefix_rfl, by simp, by simp, torn_nil _, ?_⟩
    rw [logBytes_nil, List.append_nil]
    exact (List.prefix_of_prefix_length_le hget hprefix hlen.le).eq_of_length hlen
  · refine ⟨p0, pd, [], List.prefix_append _ _, List.prefix_rfl, List.prefix_rfl, torn_nil _, ?_⟩
    rw [List.append_nil, logBytes, ← hnow]
    exact hget.eq_of_length hlen

end Remains

/-! ### Entries on their way -/

/-- The log is cut and not yet synced. -/
def Holder.cuts : Holder Hash → Bool
  | .checkpoint _ .truncate => true
  | _ => false

/-- Where the entries behind the first `k` are: `pu` in the log and not synced, `pf` taken by a
flush, `pb` in the buffer.  A buffer that a checkpoint writes keeps its entries until they are
synced.  From the capture to the cut the log is synced. -/
def Pending (W : Wire Hash) (wal : CrashFile UInt8) (cursor : ℕ) (buffer : List UInt8) (k : ℕ)
    (pu pf pb : List (WalPayload Hash)) : Holder Hash → Prop
  | .free => pf = [] ∧ buffer = framesFrom W (k + pu.length) pb
  | .flush buf lastSeq false => buf = framesFrom W (k + pu.length) pf ∧
      lastSeq + 1 = k + pu.length + pf.length ∧
      buffer = framesFrom W (k + pu.length + pf.length) pb
  | .flush _ lastSeq true => pf = [] ∧ lastSeq + 1 = k + pu.length ∧
      buffer = framesFrom W (k + pu.length) pb
  | .checkpoint _ .flush => pf = [] ∧ pb = [] ∧
      ∃ pa pw, pu = pa ++ pw ∧ buffer = framesFrom W (k + pa.length) pw
  | .checkpoint _ .tail => pf = [] ∧ pb = [] ∧ buffer ≠ [] ∧
      ∃ pa pw, pu = pa ++ pw ∧ buffer = framesFrom W (k + pa.length) pw
  | .checkpoint _ .truncate => wal.now.length = cursor ∧ pu = [] ∧ pf = [] ∧
      buffer = framesFrom W k pb
  | _ => (wal.past = [] ∧ wal.now.length = cursor) ∧ pu = [] ∧ pf = [] ∧ buffer = framesFrom W k pb

/-- The log of an open tree with the entries `ps`, of which the checkpoint has `pc`. -/
structure LogPart (W : Wire Hash) (wal : CrashFile UInt8) (h : Shared Hash N MAX_DEPTH)
    (pc ps p0 pd pu pf pb : List (WalPayload Hash)) : Prop where
  parts : ps = p0 ++ pd ++ pu ++ pf ++ pb
  start : p0 <+: pc
  reach : pc <+: p0 ++ pd
  now : logBytes W N MAX_DEPTH p0.length (pd ++ pu) <+: wal.now
  cursor : h.cursor = (logBytes W N MAX_DEPTH p0.length (pd ++ pu)).length
  flushed : ∀ f, h.flushed = some f → f < (p0 ++ pd).length
  pending : Pending W wal h.cursor h.buffer (p0 ++ pd).length pu pf pb h.holder
  between : h.holder.cuts = false → ∀ v ∈ wal.contents,
    logBytes W N MAX_DEPTH p0.length pd <+: v ∧
      v <+: logBytes W N MAX_DEPTH p0.length (pd ++ pu ++ pf ++ pb)
  cut : h.holder.cuts = true → ∀ s, wal.Survives s → Remains W N MAX_DEPTH pc (p0 ++ pd) ps s

/-- The write of `flush_inner` fails, if at all, so that it is taken back: not with the seek after
a part was written. -/
def FlushResult.Restores : FlushResult → Prop
  | .positionFails => False
  | .writes => True
  | .fails written seekOk _ => seekOk = true ∨ written = 0

/-- A write of all or of nothing. -/
def WriteResult.Whole : WriteResult → Prop
  | .writes => True
  | .fails written => written = 0

section LogPart

variable {W : Wire Hash} {wal wal' : CrashFile UInt8} {h h' : Shared Hash N MAX_DEPTH}
variable {pc ps p0 pd pu pf pb pu' pf' pb' : List (WalPayload Hash)}

/-- A beginning `xs` of `b` that is written over a beginning of `b`. -/
theorem overlay_prefix {α : Type} {t xs b : List α} (ht : t <+: b) (hxs : xs <+: b) :
    xs ++ t.drop xs.length <+: b := by
  rcases Nat.le_total t.length xs.length with hle | hle
  · rw [List.drop_of_length_le hle, List.append_nil]
    exact hxs
  · obtain ⟨r, rfl⟩ := List.prefix_of_prefix_length_le hxs ht hle
    rw [List.drop_left]
    exact ht

theorem Holder.eq_truncate {holder : Holder Hash} (h : holder.cuts = true) :
    ∃ background, holder = .checkpoint background .truncate := by
  cases holder with
  | checkpoint background stage => cases stage <;> first | exact ⟨_, rfl⟩ | cases h
  | _ => cases h

theorem LogPart.allFit (hi : LogPart W wal h pc ps p0 pd pu pf pb) (hfit : AllFit W 0 ps) :
    AllFit W p0.length (pd ++ pu ++ pf ++ pb) := by
  have hparts : ps = p0 ++ (pd ++ pu ++ pf ++ pb) := by
    rw [hi.parts]
    simp
  rw [hparts, allFit_append, Nat.zero_add] at hfit
  exact hfit.2

/-- The log has nothing but what comes next behind its entries. -/
theorem LogPart.now_le (hi : LogPart W wal h pc ps p0 pd pu pf pb) :
    wal.now <+: logBytes W N MAX_DEPTH p0.length (pd ++ pu ++ pf ++ pb) := by
  cases hcut : h.holder.cuts with
  | false => exact (hi.between hcut _ wal.now_mem_contents).2
  | true =>
      obtain ⟨background, hst⟩ := Holder.eq_truncate hcut
      have hpending := hi.pending
      rw [hst] at hpending
      rw [← hi.now.eq_of_length (hi.cursor.symm.trans hpending.1.symm), List.append_assoc]
      exact logBytes_mono (List.prefix_append _ _)

theorem LogPart.now_eq (hi : LogPart W wal h pc ps p0 pd pu pf pb)
    (hlen : wal.now.length = h.cursor) :
    wal.now = logBytes W N MAX_DEPTH p0.length (pd ++ pu) :=
  (hi.now.eq_of_length (hi.cursor.symm.trans hlen.symm)).symm

/-- **A crash.** -/
theorem LogPart.remains (hi : LogPart W wal h pc ps p0 pd pu pf pb) (hfit : AllFit W 0 ps)
    {s : List UInt8} (hs : wal.Survives s) (hshow : EntriesShow W N MAX_DEPTH wal s) :
    Remains W N MAX_DEPTH pc (p0 ++ pd) ps s := by
  cases hcut : h.holder.cuts with
  | true => exact hi.cut hcut s hs
  | false =>
      have hparts : pd ++ pu ++ pf ++ pb = pd ++ (pu ++ pf ++ pb) := by simp
      have hfit' := hi.allFit hfit
      have hbetween := hi.between hcut
      rw [hparts] at hfit' hbetween
      have hrem := remains_between hfit' hi.start hbetween hs hshow
      have hps : ps = p0 ++ (pd ++ (pu ++ pf ++ pb)) := by
        rw [hi.parts]
        simp
      rwa [← hps] at hrem

/-- A step with the same entries in the synced part of the log. -/
theorem LogPart.move (hi : LogPart W wal h pc ps p0 pd pu pf pb)
    (hsame : pu' ++ pf' ++ pb' = pu ++ pf ++ pb) (hcut : h'.holder.cuts = false)
    (hnow : logBytes W N MAX_DEPTH p0.length (pd ++ pu') <+: wal'.now)
    (hcursor : h'.cursor = (logBytes W N MAX_DEPTH p0.length (pd ++ pu')).length)
    (hflushed : h'.flushed = h.flushed)
    (hpending : Pending W wal' h'.cursor h'.buffer (p0 ++ pd).length pu' pf' pb' h'.holder)
    (hbetween : ∀ v ∈ wal'.contents, logBytes W N MAX_DEPTH p0.length pd <+: v ∧
      v <+: logBytes W N MAX_DEPTH p0.length (pd ++ pu ++ pf ++ pb)) :
    LogPart W wal' h' pc ps p0 pd pu' pf' pb' := by
  have hall : pd ++ pu' ++ pf' ++ pb' = pd ++ pu ++ pf ++ pb := by
    simp only [List.append_assoc] at hsame ⊢
    rw [hsame]
  refine ⟨?_, hi.start, hi.reach, hnow, hcursor, by rw [hflushed]; exact hi.flushed, hpending, ?_,
    by rw [hcut]; rintro ⟨⟩⟩
  · rw [hi.parts]
    simp only [List.append_assoc] at hall ⊢
    rw [hall]
  · intro _
    rw [hall]
    exact hbetween

/-- A step that leaves the log alone. -/
theorem LogPart.keep (hi : LogPart W wal h pc ps p0 pd pu pf pb) (hold : h.holder.cuts = false)
    (hsame : pf' ++ pb' = pf ++ pb) (hcut : h'.holder.cuts = false) (hcursor : h'.cursor = h.cursor)
    (hflushed : h'.flushed = h.flushed)
    (hpending : Pending W wal h'.cursor h'.buffer (p0 ++ pd).length pu pf' pb' h'.holder) :
    LogPart W wal h' pc ps p0 pd pu pf' pb' :=
  hi.move (by rw [List.append_assoc, hsame, List.append_assoc]) hcut hi.now (hcursor.trans hi.cursor)
    hflushed hpending (hi.between hold)

/-- A log that is synced, with all entries. -/
theorem LogPart.of_synced (hparts : ps = p0 ++ pd) (hstart : p0 <+: pc) (hreach : pc <+: ps)
    (hnow : wal.now = logBytes W N MAX_DEPTH p0.length pd) (hpast : wal.past = [])
    (hcursor : h.cursor = wal.now.length) (hflushed : ∀ f, h.flushed = some f → f < ps.length)
    (hst : h.holder = .free) (hbuffer : h.buffer = []) :
    LogPart W wal h pc ps p0 pd [] [] [] := by
  have hcut : h.holder.cuts = false := by
    rw [hst]
    rfl
  refine ⟨?_, hstart, hparts ▸ hreach, ?_, ?_, hparts ▸ hflushed, ?_, ?_,
    by rw [hcut]; rintro ⟨⟩⟩
  · rw [hparts]
    simp
  · rw [List.append_nil, hnow]
  · rw [List.append_nil, hcursor, hnow]
  · rw [hst]
    exact ⟨rfl, hbuffer⟩
  · intro _ v hv
    rw [CrashFile.contents, hpast, List.mem_singleton] at hv
    simp only [List.append_nil]
    rw [hv, hnow]
    exact ⟨List.prefix_rfl, List.prefix_rfl⟩

/-- A beginning of what comes next is written. -/
theorem LogPart.write (hi : LogPart W wal h pc ps p0 pd pu pf pb) (hcut : h.holder.cuts = false)
    {xs : List UInt8} (hxs : xs <+: framesFrom W ((p0 ++ pd).length + pu.length) (pf ++ pb)) :
    logBytes W N MAX_DEPTH p0.length (pd ++ pu) ++ xs <+: (wal.write h.cursor xs).now ∧
      ∀ v ∈ (wal.write h.cursor xs).contents, logBytes W N MAX_DEPTH p0.length pd <+: v ∧
        v <+: logBytes W N MAX_DEPTH p0.length (pd ++ pu ++ pf ++ pb) := by
  have hall : logBytes W N MAX_DEPTH p0.length (pd ++ pu ++ pf ++ pb) =
      logBytes W N MAX_DEPTH p0.length (pd ++ pu) ++
        framesFrom W ((p0 ++ pd).length + pu.length) (pf ++ pb) := by
    rw [List.append_assoc (pd ++ pu), logBytes_append, List.length_append, List.length_append,
      Nat.add_assoc]
  have hle := hi.now_le
  obtain ⟨junk, hjunk⟩ := hi.now
  have hnow : (wal.write h.cursor xs).now =
      logBytes W N MAX_DEPTH p0.length (pd ++ pu) ++ (xs ++ junk.drop xs.length) := by
    rw [CrashFile.write, CrashFile.now_become, hi.cursor, ← hjunk, CrashFile.writeAt_append,
      List.append_assoc]
  rw [← hjunk, hall, List.prefix_append_right_inj] at hle
  refine ⟨?_, ?_⟩
  · rw [hnow, ← List.append_assoc]
    exact List.prefix_append _ _
  · intro v hv
    rw [CrashFile.write, CrashFile.contents_become, List.mem_cons] at hv
    rcases hv with rfl | hv
    · have h1 : CrashFile.writeAt wal.now h.cursor xs = (wal.write h.cursor xs).now := rfl
      rw [h1, hnow, hall, List.prefix_append_right_inj]
      refine ⟨?_, overlay_prefix hle hxs⟩
      rw [logBytes_append, List.append_assoc]
      exact List.prefix_append _ _
    · exact hi.between hcut v hv

/-- The log is synced. -/
theorem LogPart.synced (hi : LogPart W wal h pc ps p0 pd pu pf pb)
    (hsame : pf' ++ pb' = pf ++ pb) (hcut : h'.holder.cuts = false) (hcursor : h'.cursor = h.cursor)
    (hflushed : ∀ f, h'.flushed = some f → f < (p0 ++ pd ++ pu).length)
    (hpending : Pending W wal.sync h'.cursor h'.buffer (p0 ++ (pd ++ pu)).length [] pf' pb'
      h'.holder) : LogPart W wal.sync h' pc ps p0 (pd ++ pu) [] pf' pb' := by
  have hall : pd ++ pu ++ [] ++ pf' ++ pb' = pd ++ pu ++ pf ++ pb := by
    rw [List.append_nil, List.append_assoc, hsame, List.append_assoc (pd ++ pu)]
  refine ⟨?_, hi.start, ?_, ?_, ?_, ?_, hpending, ?_, by rw [hcut]; rintro ⟨⟩⟩
  · rw [hi.parts]
    simp only [List.append_assoc, List.nil_append] at hall ⊢
    rw [hall]
  · refine hi.reach.trans ?_
    rw [← List.append_assoc]
    exact List.prefix_append _ _
  · rw [List.append_nil]
    exact hi.now
  · rw [List.append_nil, hcursor]
    exact hi.cursor
  · rw [← List.append_assoc]
    exact hflushed
  · intro _ v hv
    rw [CrashFile.contents_sync, List.mem_singleton] at hv
    rw [hv, hall]
    exact ⟨hi.now, hi.now_le⟩

/-- The entry of a call goes into the buffer. -/
theorem Pending.append {cursor : ℕ} {buffer : List UInt8} {k : ℕ} {holder : Holder Hash}
    (hi : Pending W wal cursor buffer k pu pf pb holder) (hlock : holder.locksState = false)
    (p : WalPayload Hash) :
    Pending W wal cursor
      (buffer ++ entryBytes W (k + pu.length + pf.length + pb.length) p) k pu pf (pb ++ [p])
      holder := by
  have hlast : ∀ {j}, j + pb.length = k + pu.length + pf.length + pb.length →
      framesFrom W j pb ++ entryBytes W (k + pu.length + pf.length + pb.length) p =
        framesFrom W j (pb ++ [p]) := by
    intro j hj
    rw [framesFrom_append, framesFrom, framesFrom, List.append_nil, hj]
  cases holder with
  | free =>
      obtain ⟨rfl, rfl⟩ := hi
      exact ⟨rfl, hlast (by simp)⟩
  | flush buf lastSeq written =>
      cases written with
      | false =>
          obtain ⟨h2, h3, rfl⟩ := hi
          exact ⟨h2, h3, hlast rfl⟩
      | true =>
          obtain ⟨rfl, h2, rfl⟩ := hi
          exact ⟨rfl, h2, hlast (by simp)⟩
  | checkpoint background stage =>
      cases stage with
      | flush => cases hlock
      | truncate => cases hlock
      | tail => cases hlock
      | header snap =>
          obtain ⟨h1, rfl, rfl, rfl⟩ := hi
          exact ⟨h1, rfl, rfl, hlast (by simp)⟩
      | write snap ws =>
          obtain ⟨h1, rfl, rfl, rfl⟩ := hi
          exact ⟨h1, rfl, rfl, hlast (by simp)⟩
      | sync snap fl =>
          obtain ⟨h1, rfl, rfl, rfl⟩ := hi
          exact ⟨h1, rfl, rfl, hlast (by simp)⟩
      | remap snap =>
          obtain ⟨h1, rfl, rfl, rfl⟩ := hi
          exact ⟨h1, rfl, rfl, hlast (by simp)⟩

/-- **A call.** -/
theorem LogPart.append (hi : LogPart W wal h pc ps p0 pd pu pf pb)
    (hlock : h.holder.locksState = false) (hnext : h.nextSeq = ps.length) (p : WalPayload Hash)
    (hholder : h'.holder = h.holder) (hcursor : h'.cursor = h.cursor)
    (hflushed : h'.flushed = h.flushed) (hbuffer : h'.buffer = h.buffer ++ entryBytes W h.nextSeq p) :
    LogPart W wal h' pc (ps ++ [p]) p0 pd pu pf (pb ++ [p]) := by
  have hcut : h.holder.cuts = false := by
    cases hc : h.holder.cuts with
    | false => rfl
    | true =>
        obtain ⟨background, hst⟩ := Holder.eq_truncate hc
        rw [hst] at hlock
        cases hlock
  have hlen : h.nextSeq = (p0 ++ pd).length + pu.length + pf.length + pb.length := by
    rw [hnext, hi.parts]
    simp only [List.length_append]
  refine ⟨?_, hi.start, hi.reach, hi.now, hcursor.trans hi.cursor, by rw [hflushed]; exact hi.flushed,
    ?_, ?_, by rw [hholder, hcut]; rintro ⟨⟩⟩
  · rw [hi.parts]
    simp
  · rw [hholder, hcursor, hbuffer, hlen]
    exact hi.pending.append hlock p
  · intro _ v hv
    have h1 := hi.between hcut v hv
    refine ⟨h1.1, h1.2.trans (logBytes_mono ?_)⟩
    rw [← List.append_assoc]
    exact List.prefix_append _ _

/-! ### Flushes and checkpoints -/

section Flush

variable {buf : List UInt8} {lastSeq : ℕ} {background : Bool} {stage : CheckpointStage Hash}

theorem markFlushed_eq_some {flushed : Option ℕ} {seq f : ℕ}
    (h : markFlushed flushed seq = some f) : flushed = some f ∨ f = seq := by
  unfold markFlushed at h
  cases flushed with
  | none => exact .inr (Option.some.inj h).symm
  | some prev =>
      dsimp only at h
      split_ifs at h
      · exact .inl h
      · exact .inr (Option.some.inj h).symm

/-- `flush_inner` takes the buffer. -/
theorem LogPart.flushTake (hi : LogPart W wal h pc ps p0 pd pu pf pb) (hst : h.holder = .free)
    (hnext : h.nextSeq = ps.length) :
    ∃ pf' pb', LogPart W wal h.flushTake pc ps p0 pd pu pf' pb' := by
  have hpending := hi.pending
  rw [hst] at hpending
  obtain ⟨rfl, hbuffer⟩ := hpending
  unfold Shared.flushTake
  split_ifs with hempty
  · exact ⟨[], pb, hi⟩
  · have hpos : 0 < pb.length := List.length_pos_iff.mpr fun h0 =>
      hempty (by rw [hbuffer, h0]; rfl)
    have hlen : h.nextSeq = (p0 ++ pd).length + pu.length + pb.length := by
      rw [hnext, hi.parts]
      simp only [List.length_append, List.length_nil, Nat.add_zero]
    refine ⟨pb, [], hi.keep (by rw [hst]; rfl) (List.append_nil _) rfl rfl rfl ⟨hbuffer, ?_, rfl⟩⟩
    rw [hlen]
    omega

/-- It writes what it took, or takes the write back. -/
theorem LogPart.flushWrite (hi : LogPart W wal h pc ps p0 pd pu pf pb)
    (hst : h.holder = .flush buf lastSeq false) {res : FlushResult} (hres : res.Restores) :
    ∃ pu' pf' pb', LogPart W (h.flushWrite buf lastSeq res wal).1
      (h.flushWrite buf lastSeq res wal).2 pc ps p0 pd pu' pf' pb' := by
  have hpending := hi.pending
  have hcut : h.holder.cuts = false := by rw [hst]; rfl
  rw [hst] at hpending
  obtain ⟨rfl, hlast, hbuffer⟩ := hpending
  have hnum : p0.length + (pd ++ pu).length = (p0 ++ pd).length + pu.length := by
    simp only [List.length_append, Nat.add_assoc]
  have hbuf : framesFrom W ((p0 ++ pd).length + pu.length) pf <+:
      framesFrom W ((p0 ++ pd).length + pu.length) (pf ++ pb) := by
    rw [framesFrom_append]
    exact List.prefix_append _ _
  cases res with
  | positionFails => exact hres.elim
  | writes =>
      obtain ⟨hnow, hbetween⟩ := hi.write hcut hbuf
      have hlog : logBytes W N MAX_DEPTH p0.length (pd ++ (pu ++ pf)) =
          logBytes W N MAX_DEPTH p0.length (pd ++ pu) ++
            framesFrom W ((p0 ++ pd).length + pu.length) pf := by
        rw [← List.append_assoc, logBytes_append, hnum]
      have hlen : (pu ++ pf).length = pu.length + pf.length := List.length_append
      refine ⟨pu ++ pf, [], pb, hi.move (by rw [List.append_nil]) rfl (by rw [hlog]; exact hnow) ?_
        rfl ⟨rfl, ?_, ?_⟩ hbetween⟩
      · show h.cursor + _ = _
        rw [hi.cursor, hlog, ← List.length_append]
      · rw [hlast, hlen, Nat.add_assoc]
      · rw [hlen, ← Nat.add_assoc]
        exact hbuffer
  | fails written seekOk setLenOk =>
      have htaken := (List.take_prefix written _).trans hbuf
      obtain ⟨hnow, hbetween⟩ := hi.write hcut htaken
      have hback : (h.flushWrite (framesFrom W ((p0 ++ pd).length + pu.length) pf) lastSeq
          (.fails written seekOk setLenOk) wal).2.cursor = h.cursor := by
        simp only [Shared.flushWrite]
        rcases hres with rfl | rfl
        · rfl
        · split_ifs <;> rfl
      have hlog := (List.prefix_append _ _).trans hnow
      refine ⟨pu, [], pf ++ pb, hi.move (by simp) rfl ?_ (hback.trans hi.cursor) rfl ⟨rfl, ?_⟩ ?_⟩
      · simp only [Shared.flushWrite]
        split_ifs
        · obtain ⟨junk, hjunk⟩ := hlog
          rw [CrashFile.setLen, CrashFile.now_become, ← hjunk, hi.cursor, List.take_left]
          exact List.prefix_append _ _
        · exact hlog
      · rw [framesFrom_append]
        show _ ++ h.buffer = _
        rw [hbuffer]
      · simp only [Shared.flushWrite]
        split_ifs
        · intro v hv
          rw [CrashFile.setLen, CrashFile.contents_become, List.mem_cons] at hv
          rcases hv with rfl | hv
          · -- the log is cut where the write began
            obtain ⟨junk, hjunk⟩ := hlog
            rw [← hjunk, hi.cursor, List.take_left, List.length_append,
              Nat.sub_eq_zero_of_le (Nat.le_add_right _ _), List.replicate_zero, List.append_nil]
            refine ⟨logBytes_mono (List.prefix_append _ _), ?_⟩
            rw [List.append_assoc (pd ++ pu)]
            exact logBytes_mono (List.prefix_append _ _)
          · exact hbetween v hv
        · exact hbetween

/-- It syncs and marks. -/
theorem LogPart.flushSync (hi : LogPart W wal h pc ps p0 pd pu pf pb)
    (hst : h.holder = .flush buf lastSeq true) :
    LogPart W (h.flushSync lastSeq true wal).1 (h.flushSync lastSeq true wal).2
      pc ps p0 (pd ++ pu) [] [] pb := by
  have hpending := hi.pending
  rw [hst] at hpending
  obtain ⟨rfl, hlast, hbuffer⟩ := hpending
  refine hi.synced rfl rfl rfl ?_ ⟨rfl, ?_⟩
  · intro f hf
    rw [List.length_append]
    rcases markFlushed_eq_some hf with h1 | rfl
    · exact (hi.flushed f h1).trans_le (Nat.le_add_right _ _)
    · omega
  · show h.buffer = _
    rw [hbuffer]
    simp only [List.length_append, List.length_nil, Nat.add_assoc, Nat.add_zero]

/-- The sync fails. -/
theorem LogPart.flushUnsynced (hi : LogPart W wal h pc ps p0 pd pu pf pb)
    (hst : h.holder = .flush buf lastSeq true) :
    LogPart W (h.flushSync lastSeq false wal).1 (h.flushSync lastSeq false wal).2
      pc ps p0 pd pu [] pb := by
  have hpending := hi.pending
  rw [hst] at hpending
  obtain ⟨rfl, hlast, hbuffer⟩ := hpending
  exact hi.keep (by rw [hst]; rfl) rfl rfl rfl rfl ⟨rfl, hbuffer⟩

/-- The write of `flush_buffer_locked`. -/
theorem LogPart.lockedWrite (hi : LogPart W wal h pc ps p0 pd pu [] pb)
    (hcut : h.holder.cuts = false)
    (hbuffer : h.buffer = framesFrom W ((p0 ++ pd).length + pu.length) pb)
    (hstage : stage = .flush ∨ stage = .tail ∧ h.buffer ≠ []) {res : WriteResult}
    (hres : h.buffer = [] ∨ res.Whole) :
    ∃ pu' pb', LogPart W (h.lockedWrite background stage res wal).1
      (h.lockedWrite background stage res wal).2 pc ps p0 pd pu' [] pb' := by
  have hstays : (Holder.checkpoint background stage).cuts = false := by
    rcases hstage with rfl | ⟨rfl, -⟩ <;> rfl
  have hlocked : ∀ {wal' : CrashFile UInt8} {cursor : ℕ} (pa pw), h.buffer =
      framesFrom W ((p0 ++ pd).length + pa.length) pw → Pending W wal' cursor h.buffer
        (p0 ++ pd).length (pa ++ pw) [] [] (.checkpoint background stage) := by
    intro wal' cursor pa pw hb
    rcases hstage with rfl | ⟨rfl, hne⟩
    · exact ⟨rfl, rfl, pa, pw, rfl, hb⟩
    · exact ⟨rfl, rfl, hne, pa, pw, rfl, hb⟩
  unfold Shared.lockedWrite
  split_ifs with hempty
  · have hb := List.isEmpty_iff.mp hempty
    rw [hbuffer, framesFrom_eq_nil] at hb
    subst hb
    refine ⟨pu, [], hi.keep hcut rfl hstays rfl rfl ?_⟩
    rw [show pu = pu ++ [] from (List.append_nil _).symm]
    exact hlocked pu [] hbuffer
  · have hwhole := hres.resolve_left fun h0 => hempty (List.isEmpty_iff.mpr h0)
    cases res with
    | writes =>
        have hbuf : h.buffer <+: framesFrom W ((p0 ++ pd).length + pu.length) ([] ++ pb) := by
          rw [List.nil_append, ← hbuffer]
        obtain ⟨hnow, hbetween⟩ := hi.write hcut hbuf
        have hlog : logBytes W N MAX_DEPTH p0.length (pd ++ (pu ++ pb)) =
            logBytes W N MAX_DEPTH p0.length (pd ++ pu) ++ h.buffer := by
          rw [hbuffer, ← List.append_assoc, logBytes_append, List.length_append,
            List.length_append, Nat.add_assoc]
        refine ⟨pu ++ pb, [], hi.move (by simp) hstays (by rw [hlog]; exact hnow) ?_ rfl
          (hlocked pu pb hbuffer) hbetween⟩
        rw [hlog, List.length_append, ← hi.cursor]
    | fails written =>
        obtain rfl : written = 0 := hwhole
        obtain ⟨hnow, hbetween⟩ := hi.write hcut List.nil_prefix
        rw [List.append_nil] at hnow
        exact ⟨pu, pb, hi.move rfl rfl hnow hi.cursor rfl ⟨rfl, hbuffer⟩ hbetween⟩

/-- Its sync: now all entries are safe. -/
theorem LogPart.lockedSync (hi : LogPart W wal h pc ps p0 pd pu pf pb)
    (hst : h.holder = .checkpoint background stage)
    (hstage : stage = .flush ∨ stage = .tail ∧ h.buffer ≠ []) (hnext : h.nextSeq = ps.length)
    {ok : Bool} (hsynced : h.buffer = [] → wal.past = []) (hok : h.buffer ≠ [] → ok = true) :
    ∃ flushed, h.lockedSync ok wal =
        some (wal.sync, { h with flushed := flushed, buffer := [] }) ∧
      LogPart W wal.sync { h with flushed := flushed, buffer := [], holder := .free } pc ps p0
        (pd ++ pu) [] [] [] := by
  obtain ⟨rfl, rfl, pa, pw, rfl, hbuffer⟩ : pf = [] ∧ pb = [] ∧
      ∃ pa pw, pu = pa ++ pw ∧ h.buffer = framesFrom W ((p0 ++ pd).length + pa.length) pw := by
    have hp := hi.pending
    rw [hst] at hp
    rcases hstage with rfl | ⟨rfl, -⟩
    · exact hp
    · exact ⟨hp.1, hp.2.1, hp.2.2.2⟩
  have hparts : ps = p0 ++ pd ++ (pa ++ pw) := by
    have := hi.parts
    rwa [List.append_nil, List.append_nil] at this
  unfold Shared.lockedSync
  split_ifs with hempty hsync
  · have hb := List.isEmpty_iff.mp hempty
    refine ⟨h.flushed, ?_, hi.synced rfl rfl rfl ?_ ⟨rfl, rfl⟩⟩
    · rw [show wal.sync = wal from congrArg (CrashFile.mk wal.now) (hsynced hb).symm, ← hb]
    · intro f hf
      rw [List.length_append]
      exact (hi.flushed f hf).trans_le (Nat.le_add_right _ _)
  · refine ⟨_, rfl, hi.synced rfl rfl rfl ?_ ⟨rfl, rfl⟩⟩
    intro f hf
    have hpos : 0 < pw.length := List.length_pos_iff.mpr fun h0 => hempty (by rw [hbuffer, h0]; rfl)
    have hlen : h.nextSeq = (p0 ++ pd).length + (pa ++ pw).length := by
      rw [hnext, hparts, List.length_append]
    rw [List.length_append] at hlen ⊢
    rcases markFlushed_eq_some hf with h1 | rfl
    · exact (hi.flushed f h1).trans_le (Nat.le_add_right _ _)
    · simp only [List.length_append] at hlen ⊢
      omega
  · exact absurd (hok fun h0 => hempty (List.isEmpty_iff.mpr h0)) hsync

/-- The log is cut: its entries are in the checkpoint. -/
theorem LogPart.truncate {snap : CheckpointSnap Hash} (hi : LogPart W wal h pc ps p0 pd pu pf pb)
    (hst : h.holder = .checkpoint background (.remap snap)) (hpc : pc = p0 ++ pd)
    (hbuffer : h'.buffer = h.buffer) (hflushed : h'.flushed = h.flushed)
    (hcursor : h'.cursor = (headerBytes W N MAX_DEPTH).length)
    (hholder : h'.holder = .checkpoint background .truncate) :
    LogPart W ((wal.write 0 (headerBytes W N MAX_DEPTH)).setLen (headerBytes W N MAX_DEPTH).length)
      h' pc ps (p0 ++ pd) [] [] [] pb := by
  have hpending := hi.pending
  rw [hst] at hpending
  obtain ⟨⟨hpast, hlen⟩, rfl, rfl, hb⟩ := hpending
  have hnow := hi.now_eq hlen
  rw [List.append_nil] at hnow
  have hparts := hi.parts
  rw [List.append_nil, List.append_nil] at hparts
  obtain ⟨hcut, hremains⟩ := remains_cut hnow hpast
  refine ⟨?_, ?_, ?_, ?_, ?_, ?_, ?_, by rw [hholder]; rintro ⟨⟩, ?_⟩
  · rw [hparts]
    simp
  · rw [hpc]
  · rw [List.append_nil, hpc]
  · rw [hcut, List.append_nil, logBytes_nil]
  · rw [hcursor, List.append_nil, logBytes_nil]
  · rw [List.append_nil, hflushed]
    exact hi.flushed
  · rw [hholder, List.append_nil, hbuffer]
    exact ⟨by rw [hcut, hcursor], rfl, rfl, hb⟩
  · intro _ s hs
    rw [List.append_nil, hpc]
    refine (hremains s hs).mono ?_
    rw [hparts]
    exact List.prefix_append _ _

/-- The cut log is synced. -/
theorem LogPart.truncated (hi : LogPart W wal h pc ps p0 pd pu pf pb)
    (hst : h.holder = .checkpoint background .truncate) :
    h.buffer = framesFrom W (p0 ++ pd).length pb ∧
      LogPart W wal.sync { h with holder := .free } pc ps p0 pd [] [] pb := by
  have hpending := hi.pending
  rw [hst] at hpending
  obtain ⟨-, rfl, rfl, hb⟩ := hpending
  have hs : LogPart W wal.sync { h with holder := .free } pc ps p0 (pd ++ []) [] [] pb :=
    hi.synced rfl rfl rfl (by rw [List.append_nil]; exact hi.flushed)
      ⟨rfl, by rw [List.append_nil]; exact hb⟩
  rw [List.append_nil] at hs
  exact ⟨hb, hs⟩

end Flush

end LogPart

end Works.Rotortree
