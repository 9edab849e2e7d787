import Works.Lib.Chunks
import Works.Sealring.TestUtil
import Mathlib.Algebra.Order.Floor.Div

/-! # Scanning

`scan.rs`.  The scanner has its own path through derivation, commitment check and decryption, over
buffers it reuses: slots for the decapsulated secrets, the info string and the plaintext.  It takes
the envelopes in chunks of 64; the parallel variant takes windows of chunks and joins what the
tasks of a window found.

Whatever the buffers held, a chunk finds what opening its envelopes one by one finds
(`scanChunk_eq`).  That computation joins the results of parts (`openAll_joins`), so neither the
chunks nor the windows nor the split into tasks can be seen in the result
(`scan_eq_openAll`). -/

namespace Works.Sealring

open Works.Lib Outcome

def SCAN_CHUNK : ℕ := 64

def CHUNKS_PER_THREAD : ℕ := 8

/-- What a scan yields for an envelope: its index and the note or the reason. -/
abbrev Hit (D : Domain) := ℕ × Except Malformed D.Note

/-- `ScanBuffers`. -/
structure ScanBuffers (K : Kem) where
  out : List (Option K.SharedSecret)
  info : List UInt8
  scratch : List UInt8
  out_len : out.length = SCAN_CHUNK

/-- `ScanBuffers::new`. -/
def ScanBuffers.new {K : Kem} : ScanBuffers K where
  out := List.replicate SCAN_CHUNK none
  info := []
  scratch := []
  out_len := List.length_replicate

/-- `Scanner`. -/
structure Scanner (K : Kem) where
  recipient : Recipient K
  buffers : ScanBuffers K

/-- `Scanner::new`. -/
def Scanner.new {K : Kem} (recipient : Recipient K) : Scanner K := ⟨recipient, ScanBuffers.new⟩

variable (C : Crypto) (K : Kem) (D : Domain)

/-- `process_envelope`: the outcome of a commitment that matches, and the info and scratch buffers
after the call. -/
def processEnvelope (shared pkR : List UInt8) (envelope : SealedNote K) (aad scratch : List UInt8) :
    Outcome Empty (Option (Except Malformed D.Note) × List UInt8 × List UInt8) := do
  let info ← writeKdfInfo [] VERSION K.KEM_ID D.DOMAIN_TAG envelope.epk pkR
  let derived := expand C shared info
  if derived.commit.toList ≠ envelope.commit then pure (none, info, scratch)
  else
    let decrypted := C.decryptInPlace derived.key derived.nonce aad envelope.ct
    let outcome :=
      if decrypted.1 then
        match D.decodeNote decrypted.2 with
        | .error _ => .error ⟨.noteDecode⟩
        | .ok note => if D.verify note aad then .ok note else .error ⟨.verify⟩
      else .error ⟨.aead⟩
    pure (some outcome, info, [])

/-- The loop of `scan_chunk` over the envelopes and their slots. -/
def processSlots (pkR aad : List UInt8) :
    List (Option (ℕ × SealedNote K) × Option K.SharedSecret) → List UInt8 → List UInt8 →
      List (Hit D) → Outcome Empty (List (Hit D) × List UInt8 × List UInt8)
  | [], info, scratch, hits => pure (hits, info, scratch)
  | (item, slot) :: rest, info, scratch, hits => do
      let (index, envelope) ← Outcome.expect item
      match slot with
      | none => processSlots pkR aad rest info scratch hits
      | some shared => do
          let (outcome, info, scratch) ←
            processEnvelope C K D (K.sharedBytes shared) pkR envelope aad scratch
          match outcome with
          | none => processSlots pkR aad rest info scratch hits
          | some outcome => processSlots pkR aad rest info scratch (hits ++ [(index, outcome)])

/-- The keys of a chunk whose slots the caller filled. -/
def chunkEpks (chunk : List (Option (ℕ × SealedNote K))) : Outcome Empty (List (List UInt8)) :=
  chunk.mapM fun item => do
    let (_, envelope) ← Outcome.expect item
    pure envelope.epk

/-- `scan_chunk`: the hits appended to `hits`, and the buffers after the call. -/
def scanChunk (sk : K.SecretKey) (pkR aad : List UInt8) (chunk : List (Option (ℕ × SealedNote K)))
    (buffers : ScanBuffers K) (hits : List (Hit D)) :
    Outcome Empty (List (Hit D) × ScanBuffers K) := do
  let len := chunk.length
  Outcome.require (len ≤ SCAN_CHUNK)
  let epks ← chunkEpks K chunk
  let front := K.decapBatch sk epks (buffers.out.take len)
  let (hits, info, scratch) ←
    processSlots C K D pkR aad (chunk.zip front) buffers.info buffers.scratch hits
  -- the secrets are wiped and their slots emptied
  pure (hits, {
    out := List.replicate (min len SCAN_CHUNK) none ++ buffers.out.drop len
    info := info
    scratch := scratch
    out_len := by
      rw [List.length_append, List.length_replicate, List.length_drop, buffers.out_len]
      omega })

/-- `enumerate`. -/
def enumerate {α : Type} (xs : List α) : List (ℕ × α) := xs.zipIdx.map fun p => (p.2, p.1)

/-- The loop of `scan`: a chunk of at most 64 envelopes, until one is not full. -/
def scanLoop (recipient : Recipient K) (aad : List UInt8) (items : List (ℕ × SealedNote K))
    (buffers : ScanBuffers K) (results : List (Hit D)) :
    Outcome Empty (List (Hit D) × ScanBuffers K) :=
  let chunk := (items.take SCAN_CHUNK).map some
  if _h0 : chunk.length = 0 then pure (results, buffers)
  else do
    let (results, buffers) ← scanChunk C K D recipient.sk (K.epkBytes recipient.pkEncoded) aad chunk
      buffers results
    if chunk.length < SCAN_CHUNK then pure (results, buffers)
    else scanLoop recipient aad (items.drop SCAN_CHUNK) buffers results
termination_by items.length
decreasing_by
  simp only [chunk, List.length_map, List.length_take, SCAN_CHUNK] at _h0
  rw [List.length_drop, SCAN_CHUNK]
  omega

/-- `Scanner::scan`: the results, and the scanner after the call. -/
def Scanner.scan (s : Scanner K) (envelopes : List (SealedNote K)) (aad : List UInt8) :
    Outcome Empty (List (Hit D) × Scanner K) := do
  let (results, buffers) ← scanLoop C K D s.recipient aad (enumerate envelopes) s.buffers []
  pure (results, { s with buffers := buffers })

/-- A task of `scan_parallel`, with buffers of its own. -/
def scanTask (recipient : Recipient K) (aad : List UInt8)
    (chunk : List (Option (ℕ × SealedNote K))) : Outcome Empty (List (Hit D)) := do
  let (found, _) ← scanChunk C K D recipient.sk (K.epkBytes recipient.pkEncoded) aad chunk
    ScanBuffers.new []
  pure found

/-- The loop of `scan_parallel`: windows of `windowLen` envelopes, each split into tasks of
`taskLen len` envelopes.  The hits of the tasks are joined in their order. -/
def scanWindows (recipient : Recipient K) (aad : List UInt8) (windowLen : ℕ) (taskLen : ℕ → ℕ)
    (items : List (ℕ × SealedNote K)) (results : List (Hit D)) : Outcome Empty (List (Hit D)) :=
  let window := (items.take windowLen).map some
  let len := window.length
  if _h0 : len = 0 then pure results
  else do
    let perChunk ← (chunks (taskLen len) window).mapM (scanTask C K D recipient aad)
    let results := results ++ perChunk.flatten
    if len < windowLen then pure results
    else scanWindows recipient aad windowLen taskLen (items.drop windowLen) results
termination_by items.length
decreasing_by
  simp only [len, window, List.length_map, List.length_take] at _h0
  rw [List.length_drop]
  omega

/-- `Scanner::scan_parallel` on a pool of `threads`. -/
def Scanner.scanParallel (s : Scanner K) (threads : ℕ) (envelopes : List (SealedNote K))
    (aad : List UInt8) : Outcome Empty (List (Hit D)) :=
  let tasksPerRound := max threads 1 * CHUNKS_PER_THREAD
  scanWindows C K D s.recipient aad (SCAN_CHUNK * tasksPerRound)
    (fun len => min (max (len ⌈/⌉ tasksPerRound) 1) SCAN_CHUNK) (enumerate envelopes) []

/-! ### Opening one by one -/

/-- What a scan makes of the result of `open`: nothing of an envelope that is not one's own, and an
error as a reason; a panic goes through. -/
def outcomeOf : Outcome OpenError (Option D.Note) → Outcome Empty (Option (Except Malformed D.Note))
  | .ok none => .ok none
  | .ok (some note) => .ok (some (.ok note))
  | .error (.err e) => .ok (some (.error ⟨e⟩))
  | .error .panic => .panic

/-- Open the envelopes one by one and keep what is one's own, under its index. -/
def openAll (recipient : Recipient K) (aad : List UInt8) :
    List (ℕ × SealedNote K) → Outcome Empty (List (Hit D))
  | [] => pure []
  | (index, envelope) :: rest => do
      let outcome ← outcomeOf D (openNote C K D recipient envelope aad)
      let hits ← openAll recipient aad rest
      pure ((outcome.map fun o => (index, o)).toList ++ hits)

variable {C K D} {recipient : Recipient K} {aad : List UInt8}

theorem openAll_joins : Joins (openAll C K D recipient aad) where
  nil := rfl
  append := by
    intro xs ys
    induction xs with
    | nil =>
        rw [List.nil_append, openAll, pure_eq_ok, ok_bind]
        cases openAll C K D recipient aad ys with
        | error e => rfl
        | ok hits => rfl
    | cons x xs ih =>
        rw [List.cons_append, openAll, openAll, ih]
        cases outcomeOf D (openNote C K D recipient x.2 aad) with
        | error e => rfl
        | ok outcome =>
            rw [ok_bind, ok_bind]
            cases openAll C K D recipient aad xs with
            | error e => rfl
            | ok hits =>
                rw [ok_bind, ok_bind]
                cases openAll C K D recipient aad ys with
                | error e => rfl
                | ok hits' => exact congrArg Except.ok (List.append_assoc _ _ _).symm

/-! ### The scanner's path -/

/-- The scanner's path through one envelope is that of `open`. -/
theorem processEnvelope_eq (hagree : C.InPlaceAgrees) {envelope : SealedNote K}
    {shared : K.SharedSecret} (hshared : K.decap recipient.sk envelope.epk = some shared)
    (scratch : List UInt8) :
    ∃ info scratch', processEnvelope C K D (K.sharedBytes shared) (K.epkBytes recipient.pkEncoded)
        envelope aad scratch = (do
      let outcome ← outcomeOf D (openNote C K D recipient envelope aad)
      pure (outcome, info, scratch')) := by
  unfold processEnvelope openNote derive
  rw [hshared]
  dsimp only
  by_cases hle : (asBytes D.DOMAIN_TAG).length ≤ U16_MAX ∧ envelope.epk.length ≤ U16_MAX ∧
      (K.epkBytes recipient.pkEncoded).length ≤ U16_MAX
  · rw [writeKdfInfo_eq_ok.mpr ⟨hle, rfl⟩, writeKdfInfo_eq_ok.mpr ⟨hle, rfl⟩, ok_bind, ok_bind]
    simp only [pure_eq_ok, ok_bind]
    generalize [] ++ kdfInfo VERSION K.KEM_ID D.DOMAIN_TAG envelope.epk
      (K.epkBytes recipient.pkEncoded) = info
    generalize expand C (K.sharedBytes shared) info = derived
    by_cases hcommit : derived.commit.toList ≠ envelope.commit
    · rw [if_pos hcommit, if_pos hcommit]
      exact ⟨info, scratch, rfl⟩
    · rw [if_neg hcommit, if_neg hcommit]
      refine ⟨info, [], ?_⟩
      obtain ⟨hsome, hnone⟩ := hagree derived.key derived.nonce aad envelope.ct
      cases hdec : C.decrypt derived.key derived.nonce envelope.ct aad with
      | none =>
          dsimp only
          rw [hnone hdec]
          rfl
      | some plaintext =>
          rw [hsome plaintext hdec]
          dsimp only
          cases D.decodeNote plaintext with
          | error e => rfl
          | ok note =>
              dsimp only
              cases D.verify note aad with
              | false => rfl
              | true => rfl
  · rw [writeKdfInfo_of_gt hle, writeKdfInfo_of_gt hle]
    exact ⟨[], [], rfl⟩

/-- The loop over a chunk whose slots hold the decapsulated secrets. -/
theorem processSlots_eq (hagree : C.InPlaceAgrees) (xs : List (ℕ × SealedNote K)) :
    ∀ info scratch hits, ∃ info' scratch',
      processSlots C K D (K.epkBytes recipient.pkEncoded) aad
        ((xs.map some).zip (xs.map fun x => K.decap recipient.sk x.2.epk)) info scratch hits = (do
      let found ← openAll C K D recipient aad xs
      pure (hits ++ found, info', scratch')) := by
  induction xs with
  | nil =>
      intro info scratch hits
      exact ⟨info, scratch, by simp [processSlots, openAll]⟩
  | cons x xs ih =>
      intro info scratch hits
      rw [List.map_cons, List.map_cons, List.zip_cons_cons, processSlots, expect_some, ok_bind, openAll]
      dsimp only
      cases hslot : K.decap recipient.sk x.2.epk with
      | none =>
          obtain ⟨info', scratch', e⟩ := ih info scratch hits
          refine ⟨info', scratch', ?_⟩
          dsimp only
          rw [e, show openNote C K D recipient x.2 aad = .ok none by unfold openNote; rw [hslot]]
          cases openAll C K D recipient aad xs with
          | error e => rfl
          | ok found => rfl
      | some shared =>
          dsimp only
          obtain ⟨info₁, scratch₁, e₁⟩ := @processEnvelope_eq C K D recipient aad hagree x.2 shared hslot scratch
          rw [e₁]
          cases outcomeOf D (openNote C K D recipient x.2 aad) with
          | error e => exact ⟨[], [], rfl⟩
          | ok outcome =>
              rw [ok_bind, ok_bind, pure_eq_ok, ok_bind]
              cases outcome with
              | none =>
                  obtain ⟨info', scratch', e⟩ := ih info₁ scratch₁ hits
                  refine ⟨info', scratch', ?_⟩
                  dsimp only
                  rw [e]
                  cases openAll C K D recipient aad xs with
                  | error e => rfl
                  | ok found => rfl
              | some o =>
                  obtain ⟨info', scratch', e⟩ := ih info₁ scratch₁ (hits ++ [(x.1, o)])
                  refine ⟨info', scratch', ?_⟩
                  dsimp only
                  rw [e]
                  cases openAll C K D recipient aad xs with
                  | error e => rfl
                  | ok found => simp

theorem chunkEpks_eq (xs : List (ℕ × SealedNote K)) :
    chunkEpks K (xs.map some) = .ok (xs.map fun x => x.2.epk) := by
  unfold chunkEpks
  rw [List.mapM_map]
  exact mapM_ok xs fun x _ => rfl

/-- **One chunk.**  A chunk finds what opening its envelopes one by one finds, whatever the buffers
held. -/
theorem scanChunk_eq (hbatch : K.BatchPointwise) (hagree : C.InPlaceAgrees)
    (xs : List (ℕ × SealedNote K)) (hlen : xs.length ≤ SCAN_CHUNK) (buffers : ScanBuffers K)
    (hits : List (Hit D)) :
    ∃ buffers', scanChunk C K D recipient.sk (K.epkBytes recipient.pkEncoded) aad (xs.map some)
        buffers hits = (do
      let found ← openAll C K D recipient aad xs
      pure (hits ++ found, buffers')) := by
  unfold scanChunk
  dsimp only
  rw [require_pos (by simpa using hlen), ok_bind, chunkEpks_eq, ok_bind,
    hbatch recipient.sk (xs.map fun x => x.2.epk) (buffers.out.take (xs.map some).length)
      (by rw [List.length_take, buffers.out_len, List.length_map, List.length_map]; omega),
    List.map_map]
  obtain ⟨info', scratch', e⟩ := @processSlots_eq C K D recipient aad hagree xs buffers.info
    buffers.scratch hits
  rw [show (K.decap recipient.sk ∘ fun x : ℕ × SealedNote K => x.2.epk) =
    fun x => K.decap recipient.sk x.2.epk from rfl, e]
  cases openAll C K D recipient aad xs with
  | error e => exact ⟨ScanBuffers.new, rfl⟩
  | ok found => exact ⟨_, rfl⟩

theorem map_some_take {α : Type} (n : ℕ) (xs : List α) :
    ((xs.take n).map some).length = min n xs.length := by
  rw [List.length_map, List.length_take]

/-- The chunks of 64 find what opening one by one finds. -/
theorem scanLoop_eq (hbatch : K.BatchPointwise) (hagree : C.InPlaceAgrees) (n : ℕ) :
    ∀ (items : List (ℕ × SealedNote K)) (buffers : ScanBuffers K) (results : List (Hit D)),
      items.length ≤ n → ∃ buffers', scanLoop C K D recipient aad items buffers results = (do
        let found ← openAll C K D recipient aad items
        pure (results ++ found, buffers')) := by
  have hpos : 0 < SCAN_CHUNK := by decide
  induction n with
  | zero =>
      intro items buffers results hn
      cases List.length_eq_zero_iff.mp (Nat.le_zero.mp hn)
      refine ⟨buffers, ?_⟩
      rw [scanLoop, openAll]
      simp
  | succ n ih =>
      intro items buffers results hn
      by_cases hempty : items = []
      · cases hempty
        exact ih [] buffers results (Nat.zero_le n)
      · have hlen := List.length_pos_iff.mpr hempty
        obtain ⟨buffers₁, e₁⟩ := @scanChunk_eq C K D recipient aad hbatch hagree
          (items.take SCAN_CHUNK) (List.length_take_le _ _) buffers results
        rw [scanLoop]
        dsimp only
        rw [dif_neg (by rw [map_some_take]; omega), e₁, map_some_take,
          ← List.take_append_drop SCAN_CHUNK items, openAll_joins.append,
          List.take_append_drop SCAN_CHUNK items]
        cases openAll C K D recipient aad (items.take SCAN_CHUNK) with
        | error e => exact ⟨buffers₁, rfl⟩
        | ok found =>
            rw [ok_bind, pure_eq_ok, ok_bind]
            dsimp only
            by_cases hlast : min SCAN_CHUNK items.length < SCAN_CHUNK
            · -- a chunk that is not full is the last
              refine ⟨buffers₁, ?_⟩
              rw [if_pos hlast, List.drop_eq_nil_of_le (by omega), openAll_joins.nil]
              simp
            · obtain ⟨buffers', e'⟩ := ih (items.drop SCAN_CHUNK) buffers₁ (results ++ found)
                (by rw [List.length_drop]; omega)
              refine ⟨buffers', ?_⟩
              rw [if_neg hlast, e', ok_bind]
              cases openAll C K D recipient aad (items.drop SCAN_CHUNK) with
              | error e => rfl
              | ok found' => simp

/-- The tasks of a window find together what opening its envelopes one by one finds. -/
theorem window_eq (hbatch : K.BatchPointwise) (hagree : C.InPlaceAgrees) {taskLen : ℕ}
    (hpos : 0 < taskLen) (hle : taskLen ≤ SCAN_CHUNK) (items : List (ℕ × SealedNote K)) :
    (do
      let perChunk ← (chunks taskLen (items.map some)).mapM (scanTask C K D recipient aad)
      pure perChunk.flatten) = openAll C K D recipient aad items := by
  rw [chunks_map, List.mapM_map, ← openAll_joins.chunks hpos items]
  congr 1
  refine mapM_congr _ fun c hc => ?_
  obtain ⟨buffers', e⟩ := @scanChunk_eq C K D recipient aad hbatch hagree c
    ((length_le_of_mem_chunks items c hc).trans hle) ScanBuffers.new []
  rw [Function.comp_apply, scanTask, e]
  cases openAll C K D recipient aad c with
  | error e => rfl
  | ok found => rfl

/-- The windows find what opening one by one finds, however they are split. -/
theorem scanWindows_eq (hbatch : K.BatchPointwise) (hagree : C.InPlaceAgrees) {windowLen : ℕ}
    {taskLen : ℕ → ℕ} (hw : 0 < windowLen)
    (htask : ∀ len, 0 < len → len ≤ windowLen → 0 < taskLen len ∧ taskLen len ≤ SCAN_CHUNK) (n : ℕ) :
    ∀ (items : List (ℕ × SealedNote K)) (results : List (Hit D)), items.length ≤ n →
      scanWindows C K D recipient aad windowLen taskLen items results = (do
        let found ← openAll C K D recipient aad items
        pure (results ++ found)) := by
  induction n with
  | zero =>
      intro items results hn
      cases List.length_eq_zero_iff.mp (Nat.le_zero.mp hn)
      rw [scanWindows, openAll]
      simp
  | succ n ih =>
      intro items results hn
      by_cases hempty : items = []
      · cases hempty
        exact ih [] results (Nat.zero_le n)
      · have hlen := List.length_pos_iff.mpr hempty
        obtain ⟨hpos, hle⟩ := htask (min windowLen items.length) (by omega) (Nat.min_le_left _ _)
        have hwindow := @window_eq C K D recipient aad hbatch hagree _ hpos hle
          (items.take windowLen)
        rw [← List.take_append_drop windowLen items, openAll_joins.append,
          List.take_append_drop windowLen items, ← hwindow, scanWindows]
        dsimp only
        rw [dif_neg (by rw [map_some_take]; omega), map_some_take]
        cases (chunks (taskLen (min windowLen items.length)) ((items.take windowLen).map some)).mapM
            (scanTask C K D recipient aad) with
        | error e => rfl
        | ok perChunk =>
            simp only [ok_bind, pure_eq_ok]
            by_cases hlast : min windowLen items.length < windowLen
            · rw [if_pos hlast, List.drop_eq_nil_of_le (by omega), openAll_joins.nil]
              simp
            · rw [if_neg hlast, ih _ _ (by rw [List.length_drop]; omega)]
              cases openAll C K D recipient aad (items.drop windowLen) with
              | error e => rfl
              | ok found' => simp

/-- What a scan yields for one envelope, where opening it returns. -/
def hitOf (C : Crypto) (K : Kem) (D : Domain) (recipient : Recipient K) (aad : List UInt8) :
    ℕ × SealedNote K → Option (Hit D)
  | (index, envelope) =>
      match openNote C K D recipient envelope aad with
      | .ok (some note) => some (index, .ok note)
      | .error (.err e) => some (index, .error ⟨e⟩)
      | _ => none

theorem openAll_of_returns (items : List (ℕ × SealedNote K))
    (h : ∀ item ∈ items, Returns (openNote C K D recipient item.2 aad)) :
    openAll C K D recipient aad items = .ok (items.filterMap (hitOf C K D recipient aad)) := by
  induction items with
  | nil => rfl
  | cons item items ih =>
      have hitem := h item (by simp)
      rw [openAll, ih fun x hx => h x (by simp [hx]), List.filterMap_cons, hitOf]
      cases hopen : openNote C K D recipient item.2 aad with
      | ok res =>
          cases res with
          | none => rfl
          | some note => rfl
      | error e =>
          cases e with
          | err e => rfl
          | panic =>
              rw [hopen] at hitem
              exact absurd hitem not_returns_panic

/-- A scan, whatever its buffers hold, is opening one by one. -/
theorem scan_openAll (hbatch : K.BatchPointwise) (hagree : C.InPlaceAgrees) (s : Scanner K)
    (envelopes : List (SealedNote K)) (aad : List UInt8) :
    ∃ buffers, s.scan C K D envelopes aad = (do
      let found ← openAll C K D s.recipient aad (enumerate envelopes)
      pure (found, { s with buffers := buffers })) := by
  obtain ⟨buffers, e⟩ := @scanLoop_eq C K D s.recipient aad hbatch hagree _ (enumerate envelopes)
    s.buffers [] le_rfl
  refine ⟨buffers, ?_⟩
  rw [Scanner.scan, e]
  cases openAll C K D s.recipient aad (enumerate envelopes) with
  | error e => rfl
  | ok found => rfl

/-- **Scanning is opening one by one.**  For a Kem whose batch is pointwise and an AEAD that
decrypts in place as it does into a new buffer: a scan, with whatever its buffers hold from earlier
scans, yields what opening the envelopes in order yields, and keeps the recipient for the next one.
So does a parallel scan, on any pool and however the windows and tasks are cut. -/
theorem scan_eq_openAll (hbatch : K.BatchPointwise) (hagree : C.InPlaceAgrees) (s : Scanner K)
    (envelopes : List (SealedNote K)) (aad : List UInt8) :
    (∃ buffers, s.scan C K D envelopes aad = (do
      let found ← openAll C K D s.recipient aad (enumerate envelopes)
      pure (found, { s with buffers := buffers }))) ∧
    (∀ threads, s.scanParallel C K D threads envelopes aad =
      openAll C K D s.recipient aad (enumerate envelopes)) ∧
    (∀ windowLen taskLen, 0 < windowLen →
      (∀ len, 0 < len → len ≤ windowLen → 0 < taskLen len ∧ taskLen len ≤ SCAN_CHUNK) →
      scanWindows C K D s.recipient aad windowLen taskLen (enumerate envelopes) [] =
        openAll C K D s.recipient aad (enumerate envelopes)) ∧
    ((∀ e ∈ envelopes, Returns (openNote C K D s.recipient e aad)) →
      openAll C K D s.recipient aad (enumerate envelopes) =
        .ok ((enumerate envelopes).filterMap (hitOf C K D s.recipient aad))) := by
  have hwindows : ∀ windowLen taskLen, 0 < windowLen →
      (∀ len, 0 < len → len ≤ windowLen → 0 < taskLen len ∧ taskLen len ≤ SCAN_CHUNK) →
      scanWindows C K D s.recipient aad windowLen taskLen (enumerate envelopes) [] =
        openAll C K D s.recipient aad (enumerate envelopes) := by
    intro windowLen taskLen hw htask
    rw [scanWindows_eq hbatch hagree hw htask _ _ _ le_rfl]
    cases openAll C K D s.recipient aad (enumerate envelopes) with
    | error e => rfl
    | ok found => rfl
  refine ⟨scan_openAll hbatch hagree s envelopes aad, ?_, hwindows, ?_⟩
  · intro threads
    have hchunk : 0 < SCAN_CHUNK := by decide
    refine hwindows _ _ ?_ fun len _ _ => ⟨by omega, Nat.min_le_right _ _⟩
    have : 0 < max threads 1 := by omega
    exact Nat.mul_pos hchunk (Nat.mul_pos this (by decide))
  · intro h
    refine openAll_of_returns _ fun item hitem => ?_
    obtain ⟨p, hp, rfl⟩ := List.mem_map.mp hitem
    exact h p.1 (List.fst_mem_of_mem_zipIdx hp)

/-- Two chunks: the frozen envelope ends the first one, and the second one holds a broken envelope, one
of somebody else and the frozen one again. -/
def twoChunks : List (SealedNote MockKem) :=
  List.replicate 63 foreignEnvelope ++
    [goldenEnvelope, brokenEnvelope, foreignEnvelope, goldenEnvelope]

/-- Their hits. -/
def twoChunksHits : List (Hit TestDomain) :=
  [(63, .ok goldenNote), (64, .error ⟨.aead⟩), (66, .ok goldenNote)]

set_option maxRecDepth 4000 in
theorem openAll_twoChunks : openAll goldenCrypto MockKem TestDomain goldenRecipient goldenAad
    (enumerate twoChunks) = .ok twoChunksHits := by
  rfl

theorem scan_eq_openAll_golden :
    (∃ buffers, (Scanner.new goldenRecipient).scan goldenCrypto MockKem TestDomain twoChunks
        goldenAad = .ok (twoChunksHits, ⟨goldenRecipient, buffers⟩)) ∧
      (Scanner.new goldenRecipient).scanParallel goldenCrypto MockKem TestDomain 4 twoChunks
        goldenAad = .ok twoChunksHits := by
  obtain ⟨⟨buffers, hscan⟩, hparallel, -, -⟩ := @scan_eq_openAll goldenCrypto MockKem TestDomain
    mockKem_batchPointwise goldenCrypto_inPlaceAgrees (Scanner.new goldenRecipient) twoChunks
    goldenAad
  have hopen := openAll_twoChunks
  refine ⟨⟨buffers, ?_⟩, (hparallel 4).trans hopen⟩
  rw [hscan]
  show (openAll goldenCrypto MockKem TestDomain goldenRecipient goldenAad (enumerate twoChunks) >>=
    fun found => pure (found, (⟨goldenRecipient, buffers⟩ : Scanner MockKem))) = _
  rw [hopen]
  rfl

end Works.Sealring
