import Works.Chainfold.Storage.CrashVfs

/-! # What stands in the directory

`Layout crc b n d` says what the store has put into the directory `d`: `b` is the snapshot that
stands safe from a crash, `n` a newer one whose slot is written but not yet synced.  Without `b`
no commit has ever come to its end.  Steps that stay away from the manifest and from the files of
these snapshots keep the layout (`Layout.away`), and a crash leaves one of the two standing
(`Layout.crash`). -/

namespace Works.Chainfold

open Works.Lib CrashDir

/-! ### File names -/

theorem snapshotFileName_inj {i j : ℕ} (h : snapshotFileName i = snapshotFileName j) : i = j := by
  have h' := congrArg String.toList h
  simp only [snapshotFileName, String.toList_append, List.append_assoc,
    List.append_cancel_left_eq, List.append_cancel_right_eq, Nat.toString_eq_ofList_toDigits,
    String.toList_ofList] at h'
  have hdigits := congrArg (fun ds => Nat.ofDigitChars 10 ds 0) h'
  simpa only [Nat.ofDigitChars_ten_toDigits] using hdigits

theorem snapshotFileName_toList (i : ℕ) :
    (snapshotFileName i).toList = "snap-".toList ++ ((toString i).toList ++ ".bin".toList) := by
  simp only [snapshotFileName, String.toList_append, List.append_assoc]
  rfl

theorem snapshotFileName_ne_temp (i : ℕ) : snapshotFileName i ≠ TEMP_FILE := by
  intro h
  have h' := congrArg (fun s => s.toList[4]?) h
  rw [snapshotFileName_toList] at h'
  rw [List.getElem?_append_left (by decide)] at h'
  exact absurd h' (by decide)

theorem snapshotFileName_ne_manifest (i : ℕ) : snapshotFileName i ≠ MANIFEST_FILE := by
  intro h
  have h' := congrArg (fun s => s.toList[0]?) h
  rw [snapshotFileName_toList] at h'
  rw [List.getElem?_append_left (by decide)] at h'
  exact absurd h' (by decide)

/-! ### Slots -/

section Slots

variable {crc : Crc} {v w : List UInt8} {i : Fin 2}

theorem length_of_decodeSlot {sb : List UInt8} {record : SlotRecord}
    (h : decodeSlot crc sb = some record) : sb.length = SLOT_SIZE := by
  by_contra hne
  rw [decodeSlot, if_pos hne] at h
  cases h

theorem getElem?_slotBytes {k : ℕ} (hk : k < SLOT_SIZE) :
    (slotBytes i v)[k]? = v[i.val * SLOT_STRIDE + k]? := by
  rw [slotBytes, List.getElem?_take_of_lt hk, List.getElem?_drop]

/-- Slots of the full size are equal when their bytes are. -/
theorem slotBytes_eq_of_getElem? {sb : List UInt8} (hsb : sb.length = SLOT_SIZE)
    (h : ∀ k < SLOT_SIZE, v[i.val * SLOT_STRIDE + k]? = sb[k]?) : slotBytes i v = sb := by
  refine List.ext_getElem? fun k => ?_
  by_cases hk : k < SLOT_SIZE
  · rw [getElem?_slotBytes hk, h k hk]
  · have hlen : (slotBytes i v).length ≤ SLOT_SIZE := List.length_take_le _ _
    rw [List.getElem?_eq_none (by omega), List.getElem?_eq_none (by omega)]

/-- Zeros fail the checksum. -/
theorem decodeSlot_zeros (hzero : crc (List.replicate CRC_COVERED_LEN 0) ≠ 0) {sb : List UInt8}
    (h : ∀ b ∈ sb, b = 0) : decodeSlot crc sb = none := by
  by_cases hlen : sb.length = SLOT_SIZE
  · have hsb : sb = List.replicate SLOT_SIZE 0 := by
      rw [← hlen]
      exact List.eq_replicate_of_mem h
    have htake : sb.take CRC_COVERED_LEN = List.replicate CRC_COVERED_LEN 0 := by
      rw [hsb, List.take_replicate]
      rfl
    have hdrop : UInt32.ofNat (ofLeBytes ((sb.drop CRC_COVERED_LEN).take CRC_LEN)) = 0 := by
      rw [hsb]
      decide +kernel
    rw [decodeSlot, if_neg (not_not.mpr hlen), htake, hdrop, if_pos hzero]
  · rw [decodeSlot, if_pos hlen]

/-- A write to the other slot leaves a slot alone. -/
theorem slotBytes_writeAt_of_ne {xs : List UInt8} (hxs : xs.length ≤ SLOT_SIZE)
    (hlen : (slotBytes i v).length = SLOT_SIZE) :
    slotBytes i (CrashFile.writeAt v ((1 - i).val * SLOT_STRIDE) xs) = slotBytes i v := by
  refine slotBytes_eq_of_getElem? hlen fun k hk => ?_
  rw [getElem?_slotBytes hk]
  refine CrashFile.getElem?_writeAt_of_lt ?_ ?_
  · have := hlen
    simp only [slotBytes, List.length_take, List.length_drop] at this
    omega
  · unfold SLOT_SIZE CRC_COVERED_LEN CRC_LEN at hxs hk
    unfold SLOT_STRIDE
    fin_cases i
    · simp only [Fin.zero_eta, sub_zero, Fin.val_one]
      omega
    · simp only [Fin.mk_one, sub_self, Fin.val_zero]
      omega

/-- The slot that is written. -/
theorem slotBytes_writeAt_self {xs : List UInt8} (hxs : xs.length = SLOT_SIZE) :
    slotBytes i (CrashFile.writeAt v (i.val * SLOT_STRIDE) xs) = xs := by
  refine slotBytes_eq_of_getElem? hxs fun k hk => ?_
  rw [CrashFile.getElem?_writeAt_of_mem (by omega) (by omega), Nat.add_sub_cancel_left]

end Slots

/-! ### Snapshots that are stored -/

/-- A snapshot with the slot that names it. -/
structure Stored where
  slot : Fin 2
  version : ℕ
  snapshot : List UInt8
  cursor : Cursor

namespace Stored

/-- What is in the slot. -/
def record (c : Stored) : SlotRecord := ⟨c.version, c.cursor, c.version⟩

/-- What `open` recovers. -/
def recovered (c : Stored) : Recovered := ⟨c.snapshot, c.cursor⟩

/-- The slot of the snapshot that stands. -/
def active (b : Option Stored) : Fin 2 := b.elim 0 (·.slot)

/-- The version of the snapshot that stands. -/
def currentVersion (b : Option Stored) : ℕ := b.elim 0 (·.version)

/-- What a commit stores after `b`. -/
def next (b : Option Stored) (x : Recovered) : Stored :=
  ⟨1 - active b, currentVersion b + 1, x.snapshot, x.cursor⟩

end Stored

open Stored

/-- The slot that is not written to: it names `b` in every state, or was never written, and then
there is nothing in the manifest outside the other slot. -/
def Quiet (crc : Crc) (b : Option Stored) (f : CrashFile UInt8) : Prop :=
  match b with
  | some c => ∃ sb, decodeSlot crc sb = some c.record ∧ ∀ v ∈ f.contents, slotBytes c.slot v = sb
  | none => ∀ v ∈ f.contents, ∀ (k : ℕ) (x : UInt8), v[k]? = some x →
      x = 0 ∨ SLOT_STRIDE ≤ k ∧ k < MANIFEST_SIZE

/-- The manifest in all its states: beside the quiet slot it names nothing, or something older
than `b`, or `n`; and `n` in the latest state. -/
structure ManifestOk (crc : Crc) (b n : Option Stored) (f : CrashFile UInt8) : Prop where
  quiet : Quiet crc b f
  moving : ∀ v ∈ f.contents, ∀ record, decodeSlot crc (slotBytes (1 - active b) v) = some record →
    record.version < currentVersion b ∨ ∃ c, n = some c ∧ record = c.record
  latest : ∀ c, n = some c → decodeSlot crc (slotBytes (1 - active b) f.now) = some c.record

/-- The names of the manifest and of the files of the snapshots. -/
def SafeName (b n : Option Stored) (name : String) : Prop :=
  name = MANIFEST_FILE ∨ ∃ c, (b = some c ∨ n = some c) ∧ name = snapshotFileName c.version

/-- The directory holds `b`, safe from a crash, and perhaps `n`. -/
structure Layout (crc : Crc) (b n : Option Stored) (d : Vfs) : Prop where
  watch : Watch (SafeName b n) TEMP_FILE d
  manifest : ∀ m ∈ d.states, ∀ i, m.find MANIFEST_FILE = some i → ManifestOk crc b n (d.files i)
  named : ∀ c, b = some c ∨ n = some c → ∃ i, d.Named MANIFEST_FILE i
  snapshot : ∀ c, b = some c ∨ n = some c → ∃ i, d.Named (snapshotFileName c.version) i ∧
    (∀ v ∈ (d.files i).contents, v = c.snapshot) ∧ ∀ m ∈ d.states, m.find MANIFEST_FILE ≠ some i
  newer : ∀ c, n = some c → c.slot = 1 - active b ∧ currentVersion b < c.version

section Layout

variable {crc : Crc} {b n : Option Stored} {d d' : Vfs} {c : Stored}

theorem not_safeName_temp : ¬ SafeName b n TEMP_FILE := by
  rintro (h | ⟨c, -, h⟩)
  · exact absurd h (by decide)
  · exact snapshotFileName_ne_temp _ h.symm

theorem safeName_manifest : SafeName b n MANIFEST_FILE := .inl rfl

theorem safeName_snapshot (h : b = some c ∨ n = some c) :
    SafeName b n (snapshotFileName c.version) := .inr ⟨c, h, rfl⟩

/-- A step that stays away from the manifest and from the snapshots. -/
theorem Layout.away (h : Layout crc b n d) (ha : Away (SafeName b n) TEMP_FILE d d') :
    Layout crc b n d' where
  watch := h.watch.away ha
  manifest := by
    intro m hm i hi
    obtain ⟨m₁, hm₁, hsame⟩ := ha.names m hm
    rw [hsame _ safeName_manifest] at hi
    rw [ha.files m₁ hm₁ _ safeName_manifest i hi]
    exact h.manifest m₁ hm₁ i hi
  named := by
    intro c hc
    obtain ⟨i, hi⟩ := h.named c hc
    exact ⟨i, hi.away safeName_manifest ha⟩
  snapshot := by
    intro c hc
    obtain ⟨i, hi, hfile, hne⟩ := h.snapshot c hc
    refine ⟨i, hi.away (safeName_snapshot hc) ha, ?_, ?_⟩
    · rw [hi.files_away (safeName_snapshot hc) ha]
      exact hfile
    · intro m hm
      obtain ⟨m₁, hm₁, hsame⟩ := ha.names m hm
      rw [hsame _ safeName_manifest]
      exact hne m₁ hm₁
  newer := h.newer

/-- The empty directory. -/
theorem layout_empty (crc : Crc) : Layout crc none none (CrashDir.empty : Vfs) where
  watch := by
    constructor
    · intro m hm n i hi
      rw [List.mem_singleton.mp hm] at hi
      cases hi
    · intro m hm m' hm' n hn i hi
      rw [List.mem_singleton.mp hm] at hi
      cases hi
  manifest := by
    intro m hm i hi
    rw [List.mem_singleton.mp hm] at hi
    cases hi
  named := by rintro c (h | h) <;> cases h
  snapshot := by rintro c (h | h) <;> cases h
  newer := by rintro c ⟨⟩

/-! ### Crashes -/

/-- Without a snapshot the other slot is not there. -/
theorem Quiet.decode_none (hzero : crc (List.replicate CRC_COVERED_LEN 0) ≠ 0)
    {f : CrashFile UInt8} (h : Quiet crc none f) {v : List UInt8} (hv : v ∈ f.contents) :
    decodeSlot crc (slotBytes 0 v) = none := by
  refine decodeSlot_zeros hzero fun x hx => ?_
  obtain ⟨k, hk, hx⟩ := List.getElem_of_mem hx
  have hlt : k < SLOT_SIZE := lt_of_lt_of_le hk (List.length_take_le _ _)
  have hget : v[(0 : Fin 2).val * SLOT_STRIDE + k]? = some x := by
    rw [← getElem?_slotBytes hlt, List.getElem?_eq_getElem hk, hx]
  rcases h v hv _ x hget with h0 | ⟨h1, -⟩
  · exact h0
  · unfold SLOT_STRIDE SLOT_SIZE CRC_COVERED_LEN CRC_LEN at *
    simp at h1
    omega

/-- The quiet slot of what survives. -/
theorem Quiet.survives {f : CrashFile UInt8} (h : Quiet crc b f) {v : List UInt8}
    (hv : f.Survives v) : Quiet crc b (.synced v) := by
  cases b with
  | none =>
      intro w hw k x hx
      rw [CrashFile.contents_synced, List.mem_singleton] at hw
      subst hw
      exact hv.all (fun _ => .inl rfl) h hx
  | some c =>
      obtain ⟨sb, hsb, hall⟩ := h
      refine ⟨sb, hsb, ?_⟩
      intro w hw
      rw [CrashFile.contents_synced, List.mem_singleton] at hw
      subst hw
      have hlen := length_of_decodeSlot hsb
      refine slotBytes_eq_of_getElem? hlen fun k hk => ?_
      have hstates : ∀ u ∈ f.contents, ∃ x, u[c.slot.val * SLOT_STRIDE + k]? = some x ∧
          sb[k]? = some x := by
        intro u hu
        refine ⟨sb[k], ?_, List.getElem?_eq_getElem _⟩
        rw [← getElem?_slotBytes hk, hall u hu]
        exact List.getElem?_eq_getElem _
      obtain ⟨x, hx, hsx⟩ := hv.getElem? hstates
      rw [hx, hsx]

/-- A newer snapshot whose slot is the same in all states stands. -/
theorem ManifestOk.settle (hzero : crc (List.replicate CRC_COVERED_LEN 0) ≠ 0)
    {f : CrashFile UInt8} (hquiet : Quiet crc b f) (hslot : c.slot = 1 - active b)
    (hnewer : currentVersion b < c.version)
    (hdecode : decodeSlot crc (slotBytes c.slot f.now) = some c.record)
    (hsame : ∀ v ∈ f.contents, slotBytes c.slot v = slotBytes c.slot f.now) :
    ManifestOk crc (some c) none f where
  quiet := ⟨slotBytes c.slot f.now, hdecode, hsame⟩
  moving := by
    intro v hv record hrecord
    left
    have hother : (1 - active (some c) : Fin 2) = active b := by
      show 1 - c.slot = active b
      rw [hslot]
      omega
    rw [hother] at hrecord
    cases b with
    | none =>
        rw [show active none = 0 from rfl, hquiet.decode_none hzero hv] at hrecord
        cases hrecord
    | some c' =>
        obtain ⟨sb, hsb, hall⟩ := hquiet
        rw [show active (some c') = c'.slot from rfl, hall v hv, hsb] at hrecord
        cases hrecord
        exact hnewer
  latest := by rintro c ⟨⟩

/-- **A crash** leaves the snapshot that stood, or the newer one. -/
theorem Layout.crash (hzero : crc (List.replicate CRC_COVERED_LEN 0) ≠ 0)
    (h : Layout crc b n d) (hc : Crash crc d d') :
    Layout crc b none d' ∨ ∃ c, n = some c ∧ Layout crc (some c) none d' := by
  have hsurv := hc.survives
  -- a manifest behind any name that survives has been there before
  have hfile : ∀ m ∈ d'.states, ∀ i, m.find MANIFEST_FILE = some i →
      ManifestOk crc b n (d.files i) ∧ (d'.files i) = .synced (d'.files i).now ∧
      (d.files i).Survives (d'.files i).now ∧ TornFails crc (d.files i) (d'.files i).now := by
    intro m hm i hi
    obtain ⟨m₁, hm₁, hsame⟩ := hsurv.names MANIFEST_FILE
    rw [hsurv.mem_states hm, hsame] at hi
    obtain ⟨s, hs, heq⟩ := hsurv.files i
    refine ⟨h.manifest m₁ hm₁ i hi, by rw [heq]; rfl, by rw [heq]; exact hs, hc.torn m₁ hm₁ i hi⟩
  have hsnapshot : ∀ c, b = some c ∨ n = some c → ∃ i, d'.Named (snapshotFileName c.version) i ∧
      (∀ v ∈ (d'.files i).contents, v = c.snapshot) ∧
      ∀ m ∈ d'.states, m.find MANIFEST_FILE ≠ some i := by
    intro c hcs
    obtain ⟨i, hi, hcont, hne⟩ := h.snapshot c hcs
    obtain ⟨s, hs, heq⟩ := hsurv.files i
    refine ⟨i, hi.survives hsurv, ?_, ?_⟩
    · intro v hv
      rw [heq, CrashFile.contents_synced, List.mem_singleton] at hv
      rw [hv]
      exact hs.eq_of_forall hcont
    · intro m hm
      obtain ⟨m₁, hm₁, hsame⟩ := hsurv.names MANIFEST_FILE
      rw [hsurv.mem_states hm, hsame]
      exact hne m₁ hm₁
  have hnamed : ∀ c, b = some c ∨ n = some c → ∃ i, d'.Named MANIFEST_FILE i := by
    intro c hcs
    obtain ⟨i, hi⟩ := h.named c hcs
    exact ⟨i, hi.survives hsurv⟩
  -- the newer snapshot stands when its slot has survived
  by_cases hnew : ∃ c i, n = some c ∧ d'.names.find MANIFEST_FILE = some i ∧
      decodeSlot crc (slotBytes c.slot (d'.files i).now) = some c.record
  · obtain ⟨c, i, hn, hi, hdecode⟩ := hnew
    right
    have hmem : d'.names ∈ d'.states := List.mem_cons_self
    have hsafe : ∀ name, SafeName (some c) none name → SafeName b n name := by
      rintro name (rfl | ⟨c', hc', rfl⟩)
      · exact safeName_manifest
      · rcases hc' with hc' | hc'
        · cases hc'
          exact safeName_snapshot (.inr hn)
        · cases hc'
    refine ⟨c, hn, ⟨(h.watch.survives hsurv).1, ?_⟩, ?_, ?_, ?_, by rintro c ⟨⟩⟩
    · intro m hm m' hm' name hname
      exact (h.watch.survives hsurv).2 m hm m' hm' name (hsafe name hname)
    · intro m hm j hj
      rw [hsurv.mem_states hm, hi, Option.some.injEq] at hj
      subst hj
      obtain ⟨hok, heq, hs, -⟩ := hfile _ hmem i hi
      rw [heq]
      exact ManifestOk.settle hzero (hok.quiet.survives hs) (h.newer c hn).1 (h.newer c hn).2
        hdecode (by simp)
    · intro c' hc'
      exact hnamed c (.inr hn)
    · rintro c' (hc' | hc')
      · cases hc'
        exact hsnapshot c (.inr hn)
      · cases hc'
  · left
    have hsafe : ∀ name, SafeName b none name → SafeName b n name := by
      rintro name (rfl | ⟨c', hc' | hc', rfl⟩)
      · exact safeName_manifest
      · exact safeName_snapshot (.inl hc')
      · cases hc'
    refine ⟨⟨(h.watch.survives hsurv).1, ?_⟩, ?_, ?_, ?_, by rintro c ⟨⟩⟩
    · intro m hm m' hm' name hname
      exact (h.watch.survives hsurv).2 m hm m' hm' name (hsafe name hname)
    · intro m hm i hi
      obtain ⟨hok, heq, hs, htorn⟩ := hfile m hm i hi
      rw [heq]
      refine ⟨hok.quiet.survives hs, ?_, by rintro c ⟨⟩⟩
      intro v hv record hrecord
      rw [CrashFile.contents_synced, List.mem_singleton] at hv
      subst hv
      rcases htorn (1 - active b) with hnone | ⟨v, hv, hsame⟩
      · rw [hnone] at hrecord
        cases hrecord
      · rcases hok.moving v hv record (hsame ▸ hrecord) with hold | ⟨c, hn, rfl⟩
        · exact .inl hold
        · refine absurd ⟨c, i, hn, ?_, ?_⟩ hnew
          · rw [← hsurv.mem_states hm]
            exact hi
          · rw [(h.newer c hn).1]
            exact hrecord
    · rintro c (hc' | hc')
      · exact hnamed c (.inl hc')
      · cases hc'
    · rintro c (hc' | hc')
      · exact hsnapshot c (.inl hc')
      · cases hc'

/-! ### What the manifest says -/

/-- The slot with the higher version. -/
theorem newest_of_older {slots : Fin 2 → Option SlotRecord} {i : Fin 2} {record : SlotRecord}
    (h : slots i = some record)
    (hother : ∀ r, slots (1 - i) = some r → r.version < record.version) :
    SnapshotStore.newest slots = i := by
  unfold SnapshotStore.newest
  fin_cases i
  · change slots 0 = some record at h
    change ∀ r, slots 1 = some r → r.version < record.version at hother
    cases h1 : slots 1 with
    | none => simp [h]
    | some r =>
        have := hother r h1
        simp only [h]
        rw [if_neg (by omega)]
        rfl
  · change slots 1 = some record at h
    change ∀ r, slots 0 = some r → r.version < record.version at hother
    cases h0 : slots 0 with
    | none => simp [h]
    | some r =>
        have := hother r h0
        simp only [h]
        rw [if_pos this]
        rfl

/-- The slots of the snapshots. -/
theorem Layout.slot (h : Layout crc b n d) {i : ℕ} (hi : d.names.find MANIFEST_FILE = some i)
    (hc : b = some c ∨ n = some c) :
    SnapshotStore.slotsOf crc (d.files i).now c.slot = some c.record := by
  have hok := h.manifest d.names List.mem_cons_self i hi
  rw [slotsOf_eq]
  rcases hc with rfl | hc
  · obtain ⟨sb, hsb, hall⟩ := hok.quiet
    rw [hall _ (CrashFile.now_mem_contents _), hsb]
  · rw [(h.newer c hc).1]
    exact hok.latest c hc

/-- The newest slot is that of the newest snapshot. -/
theorem Layout.newest (hzero : crc (List.replicate CRC_COVERED_LEN 0) ≠ 0)
    (h : Layout crc b n d) {i : ℕ} (hi : d.names.find MANIFEST_FILE = some i) :
    SnapshotStore.newest (SnapshotStore.slotsOf crc (d.files i).now) = active (n.or b) ∧
    SnapshotStore.slotsOf crc (d.files i).now (active (n.or b)) = (n.or b).map record := by
  have hok := h.manifest d.names List.mem_cons_self i hi
  have hmem := CrashFile.now_mem_contents (d.files i)
  have hback : (1 - (1 - active b) : Fin 2) = active b := by omega
  cases hn : n with
  | some c =>
      have hslot := h.slot hi (.inr hn)
      refine ⟨newest_of_older hslot ?_, hslot⟩
      intro r hr
      rw [show active ((some c).or b) = c.slot from rfl, (h.newer c hn).1, hback,
        slotsOf_eq] at hr
      cases hb : b with
      | none =>
          rw [hb] at hr hok
          rw [show active none = 0 from rfl, hok.quiet.decode_none hzero hmem] at hr
          cases hr
      | some c' =>
          have hslot' := h.slot hi (.inl hb)
          rw [hb, ← slotsOf_eq, show active (some c') = c'.slot from rfl, hslot'] at hr
          cases hr
          have := (h.newer c hn).2
          rw [hb] at this
          exact this
  | none =>
      have hmoving : ∀ r, SnapshotStore.slotsOf crc (d.files i).now (1 - active b) = some r →
          r.version < currentVersion b := by
        intro r hr
        rw [slotsOf_eq] at hr
        rcases hok.moving _ hmem r hr with hlt | ⟨c, hc, -⟩
        · exact hlt
        · rw [hn] at hc
          cases hc
      cases hb : b with
      | none =>
          rw [hb] at hmoving hok
          have h0 : SnapshotStore.slotsOf crc (d.files i).now 0 = none := by
            rw [slotsOf_eq]
            exact hok.quiet.decode_none hzero hmem
          have h1 : SnapshotStore.slotsOf crc (d.files i).now 1 = none := by
            cases h1 : SnapshotStore.slotsOf crc (d.files i).now 1 with
            | none => rfl
            | some r => exact absurd (hmoving r h1) (Nat.not_lt_zero _)
          refine ⟨?_, h0⟩
          simp [SnapshotStore.newest, h0, h1, active]
      | some c =>
          have hslot := h.slot hi (.inl hb)
          rw [hb] at hmoving
          exact ⟨newest_of_older hslot hmoving, hslot⟩

/-- A manifest is made. -/
theorem Layout.create (h : Layout crc b n d) (hzero : crc (List.replicate CRC_COVERED_LEN 0) ≠ 0)
    (hnone : d.names.find MANIFEST_FILE = none) {xs : List UInt8} (hxs : ∀ x ∈ xs, x = 0) :
    b = none ∧ n = none ∧ Layout crc b n (d.write MANIFEST_FILE xs) := by
  have hno : ∀ c, ¬ (b = some c ∨ n = some c) := by
    intro c hc
    obtain ⟨i, hi⟩ := h.named c hc
    rw [hi d.names List.mem_cons_self] at hnone
    cases hnone
  have hb : b = none := Option.eq_none_iff_forall_ne_some.mpr fun c hc => hno c (.inl hc)
  have hn : n = none := Option.eq_none_iff_forall_ne_some.mpr fun c hc => hno c (.inr hc)
  subst hb hn
  refine ⟨rfl, rfl, ?_⟩
  have hwrite : d.write MANIFEST_FILE xs = d.create MANIFEST_FILE
      (((CrashFile.synced []).setLen 0).write 0 xs) := by
    unfold CrashDir.write CrashDir.target
    rw [hnone]
    simp only [files_create, setFile_create]
  have hcontents : ∀ v ∈ (((CrashFile.synced ([] : List UInt8)).setLen 0).write 0 xs).contents,
      ∀ x ∈ v, x = 0 := by
    intro v hv
    simp only [CrashFile.write, CrashFile.setLen, CrashFile.contents_become, CrashFile.now_become,
      CrashFile.now_synced, CrashFile.contents_synced, List.take_nil, List.nil_append,
      List.length_nil, Nat.sub_self, List.replicate_zero, List.mem_cons, List.not_mem_nil,
      or_false] at hv
    rcases hv with rfl | rfl | rfl
    · have := CrashFile.writeAt_append [] [] xs
      rw [List.nil_append, List.length_nil, List.drop_nil, List.nil_append, List.append_nil] at this
      rw [this]
      exact hxs
    · simp
    · simp
  have hsafe : ∀ name, SafeName none none name → name = MANIFEST_FILE := by
    rintro name (h | ⟨c, hc, -⟩)
    · exact h
    · exact absurd hc (hno c)
  rw [hwrite]
  have hstates : ∀ m ∈ (d.create MANIFEST_FILE
      (((CrashFile.synced []).setLen 0).write 0 xs)).states,
      m = d.names.insert MANIFEST_FILE d.next ∨ m ∈ d.states := fun m hm => List.mem_cons.mp hm
  refine ⟨⟨h.watch.fresh.create _ _, ?_⟩, ?_, fun c hc => absurd hc (hno c),
    fun c hc => absurd hc (hno c), by rintro c ⟨⟩⟩
  · intro m hm m' hm' name hname i hi
    obtain rfl := hsafe name hname
    have htemp : ∃ m₁ ∈ d.states, m'.find TEMP_FILE = m₁.find TEMP_FILE := by
      rcases hstates m' hm' with rfl | hm'
      · exact ⟨d.names, List.mem_cons_self, Names.find_insert_of_ne _ (by decide)⟩
      · exact ⟨m', hm', rfl⟩
    obtain ⟨m₁, hm₁, hsame⟩ := htemp
    rw [hsame]
    rcases hstates m hm with rfl | hm
    · rw [Names.find_insert_self] at hi
      cases hi
      intro ht
      exact absurd (h.watch.fresh m₁ hm₁ _ _ ht) (lt_irrefl _)
    · exact h.watch.apart m hm m₁ hm₁ _ safeName_manifest i hi
  · intro m hm i hi
    rcases hstates m hm with rfl | hm
    · rw [Names.find_insert_self] at hi
      cases hi
      rw [files_create]
      refine ⟨fun v hv k x hx => .inl (hcontents v hv x (List.mem_of_getElem? hx)), ?_,
        by rintro c ⟨⟩⟩
      intro v hv record hrecord
      rw [decodeSlot_zeros hzero] at hrecord
      · cases hrecord
      · intro x hx
        exact hcontents v hv x (List.mem_of_mem_drop (List.mem_of_mem_take hx))
    · have hlt := h.watch.fresh m hm _ i hi
      rw [show (d.create MANIFEST_FILE _).files i = d.files i from
        Function.update_of_ne (by omega) _ _]
      exact h.manifest m hm i hi

/-! ### Writing a slot -/

/-- The other slot is written to. -/
theorem Quiet.write {f : CrashFile UInt8} (h : Quiet crc b f) {xs : List UInt8}
    (hxs : xs.length ≤ SLOT_SIZE) : Quiet crc b (f.write ((1 - active b).val * SLOT_STRIDE) xs) := by
  cases b with
  | none =>
      intro v hv k x hx
      cases List.mem_cons.mp hv with
      | inr hv => exact h v hv k x hx
      | inl hv =>
          subst hv
          have hoff : ((1 - active none : Fin 2)).val * SLOT_STRIDE = SLOT_STRIDE := by decide
          rw [hoff] at hx
          change (CrashFile.writeAt f.now SLOT_STRIDE xs)[k]? = some x at hx
          have hlen : (k : ℕ) < (CrashFile.writeAt f.now SLOT_STRIDE xs).length :=
            (List.getElem?_eq_some_iff.mp hx).1
          by_cases hin : SLOT_STRIDE ≤ k ∧ k < SLOT_STRIDE + xs.length
          · right
            unfold MANIFEST_SIZE
            omega
          · have hold : (CrashFile.writeAt f.now SLOT_STRIDE xs).getD k 0 = f.now.getD k 0 :=
              CrashFile.getD_writeAt_of_not_mem (by omega)
            rw [List.getD_eq_getElem?_getD, hx, Option.getD_some, List.getD_eq_getElem?_getD] at hold
            cases hk : f.now[k]? with
            | none =>
                rw [hk] at hold
                exact .inl hold
            | some y =>
                rw [hk] at hold
                have := h f.now f.now_mem_contents k y hk
                rwa [hold, Option.getD_some]
  | some c =>
      obtain ⟨sb, hsb, hall⟩ := h
      refine ⟨sb, hsb, fun v hv => ?_⟩
      cases List.mem_cons.mp hv with
      | inr hv => exact hall v hv
      | inl hv =>
          subst hv
          have hnow := hall f.now f.now_mem_contents
          rw [show (f.write ((1 - active (some c)).val * SLOT_STRIDE) xs).now =
            CrashFile.writeAt f.now ((1 - c.slot).val * SLOT_STRIDE) xs from rfl,
            slotBytes_writeAt_of_ne hxs (by rw [hnow, length_of_decodeSlot hsb]), hnow]

/-- The slot of a newer snapshot is written. -/
theorem ManifestOk.write {f : CrashFile UInt8} (h : ManifestOk crc b none f)
    (hslot : c.slot = 1 - active b) (hfits : c.record.Fits) :
    ManifestOk crc b (some c) (f.write (c.slot.val * SLOT_STRIDE) (encodeSlot crc c.record)) where
  quiet := by
    rw [hslot]
    exact h.quiet.write (length_encodeSlot crc _).le
  moving := by
    intro v hv record hrecord
    cases List.mem_cons.mp hv with
    | inl hv =>
        subst hv
        rw [show (f.write (c.slot.val * SLOT_STRIDE) (encodeSlot crc c.record)).now =
          CrashFile.writeAt f.now (c.slot.val * SLOT_STRIDE) (encodeSlot crc c.record) from rfl,
          ← hslot, slotBytes_writeAt_self (length_encodeSlot crc _),
          decodeSlot_encodeSlot crc hfits] at hrecord
        exact .inr ⟨c, rfl, (Option.some.inj hrecord).symm⟩
    | inr hv =>
        rcases h.moving v hv record hrecord with hlt | ⟨c', hc', -⟩
        · exact .inl hlt
        · cases hc'
  latest := by
    rintro c' ⟨⟩
    rw [← hslot, show (f.write (c.slot.val * SLOT_STRIDE) (encodeSlot crc c.record)).now =
      CrashFile.writeAt f.now (c.slot.val * SLOT_STRIDE) (encodeSlot crc c.record) from rfl,
      slotBytes_writeAt_self (length_encodeSlot crc _), decodeSlot_encodeSlot crc hfits]

/-- The slot of a newer snapshot is torn: it is there, or it is not. -/
theorem ManifestOk.torn {f : CrashFile UInt8} (h : ManifestOk crc b none f)
    (hslot : c.slot = 1 - active b) (hfits : c.record.Fits) (k : ℕ)
    (htorn : TornFails crc (f.write (c.slot.val * SLOT_STRIDE) (encodeSlot crc c.record))
      (f.write (c.slot.val * SLOT_STRIDE) ((encodeSlot crc c.record).take k)).now) :
    ManifestOk crc b none
        (f.write (c.slot.val * SLOT_STRIDE) ((encodeSlot crc c.record).take k)) ∨
      ManifestOk crc b (some c)
        (f.write (c.slot.val * SLOT_STRIDE) ((encodeSlot crc c.record).take k)) := by
  have hwhole := h.write hslot hfits
  have hquiet : Quiet crc b
      (f.write (c.slot.val * SLOT_STRIDE) ((encodeSlot crc c.record).take k)) := by
    rw [hslot]
    refine h.quiet.write ?_
    rw [List.length_take, length_encodeSlot]
    exact min_le_right _ _
  have hmoving : ∀ v ∈
      (f.write (c.slot.val * SLOT_STRIDE) ((encodeSlot crc c.record).take k)).contents,
      ∀ record, decodeSlot crc (slotBytes (1 - active b) v) = some record →
        record.version < currentVersion b ∨ record = c.record := by
    intro v hv record hrecord
    cases List.mem_cons.mp hv with
    | inl hv =>
        subst hv
        rcases htorn (1 - active b) with hnone | ⟨u, hu, hsame⟩
        · rw [hnone] at hrecord
          cases hrecord
        · rcases hwhole.moving u hu record (hsame ▸ hrecord) with hlt | ⟨c', hc', heq⟩
          · exact .inl hlt
          · cases hc'
            exact .inr heq
    | inr hv =>
        rcases h.moving v hv record hrecord with hlt | ⟨c', hc', -⟩
        · exact .inl hlt
        · cases hc'
  have hold : ∀ v ∈ f.contents, ∀ record,
      decodeSlot crc (slotBytes (1 - active b) v) = some record →
      record.version < currentVersion b := by
    intro v hv record hrecord
    rcases h.moving v hv record hrecord with hlt | ⟨c', hc', -⟩
    · exact hlt
    · cases hc'
  by_cases hthere : decodeSlot crc (slotBytes (1 - active b)
      (f.write (c.slot.val * SLOT_STRIDE) ((encodeSlot crc c.record).take k)).now) = some c.record
  · refine .inr ⟨hquiet, fun v hv record hrecord => ?_, by rintro c' ⟨⟩; exact hthere⟩
    rcases hmoving v hv record hrecord with hlt | heq
    · exact .inl hlt
    · exact .inr ⟨c, rfl, heq⟩
  · refine .inl ⟨hquiet, fun v hv record hrecord => .inl ?_, by rintro c' ⟨⟩⟩
    cases List.mem_cons.mp hv with
    | inr hv => exact hold v hv record hrecord
    | inl hv =>
        subst hv
        rcases hmoving _ List.mem_cons_self record hrecord with hlt | heq
        · exact hlt
        · rw [heq] at hrecord
          exact absurd hrecord hthere

/-- The directory is synced, and the file of the newer snapshot lies in it under its name. -/
structure ReadyFor (c : Stored) (mi : ℕ) (b : Option Stored) (d : Vfs) : Prop where
  past : d.past = []
  manifest : d.names.find MANIFEST_FILE = some mi
  temp : d.names.find TEMP_FILE = none
  file : ∃ j, d.names.find (snapshotFileName c.version) = some j ∧
    (∀ v ∈ (d.files j).contents, v = c.snapshot) ∧ j ≠ mi
  slot : c.slot = 1 - active b
  newer : currentVersion b < c.version

/-- The manifest changes. -/
theorem Layout.setManifest (h : Layout crc b none d) {mi : ℕ} (hr : ReadyFor c mi b d)
    (hn : ∀ c', n = some c' → c' = c) {f : CrashFile UInt8} (hf : ManifestOk crc b n f) :
    Layout crc b n (d.setFile mi f) := by
  have hstates : ∀ m ∈ d.states, m = d.names := by
    intro m hm
    unfold CrashDir.states at hm
    rw [hr.past] at hm
    exact List.mem_singleton.mp hm
  refine ⟨⟨h.watch.fresh, ?_⟩, ?_, ?_, ?_, ?_⟩
  · intro m hm m' hm' name _ i _ ht
    rw [hstates m' hm', hr.temp] at ht
    cases ht
  · intro m hm i hi
    rw [hstates m hm, hr.manifest] at hi
    cases hi
    rw [setFile_files_self]
    exact hf
  · exact fun c' _ => ⟨mi, named_of_past_nil (d := d.setFile mi f) hr.past hr.manifest⟩
  · intro c' hc'
    have hfile : ∃ j, d.Named (snapshotFileName c'.version) j ∧
        (∀ v ∈ (d.files j).contents, v = c'.snapshot) ∧ j ≠ mi := by
      rcases hc' with hc' | hc'
      · obtain ⟨j, hj, hcont, hne⟩ := h.snapshot c' (.inl hc')
        refine ⟨j, hj, hcont, ?_⟩
        rintro rfl
        exact hne d.names List.mem_cons_self hr.manifest
      · obtain rfl := hn c' hc'
        obtain ⟨j, hj, hcont, hne⟩ := hr.file
        exact ⟨j, named_of_past_nil hr.past hj, hcont, hne⟩
    obtain ⟨j, hj, hcont, hne⟩ := hfile
    refine ⟨j, hj, ?_, ?_⟩
    · rw [setFile_files_of_ne _ _ hne]
      exact hcont
    · intro m hm
      rw [hstates m hm, hr.manifest]
      rintro ⟨⟩
      exact hne rfl
  · intro c' hc'
    rw [hn c' hc']
    exact ⟨hr.slot, hr.newer⟩

/-- A newer snapshot whose slot is the same in all states of the manifest stands. -/
theorem Layout.settle (hzero : crc (List.replicate CRC_COVERED_LEN 0) ≠ 0)
    (h : Layout crc b (some c) d) {i : ℕ} (hi : d.names.find MANIFEST_FILE = some i)
    (hsame : ∀ v ∈ (d.files i).contents,
      slotBytes c.slot v = slotBytes c.slot (d.files i).now) :
    Layout crc (some c) none d := by
  have hsafe : ∀ name, SafeName (some c) none name → SafeName b (some c) name := by
    rintro name (h | ⟨c', hc' | hc', h⟩)
    · exact .inl h
    · cases hc'
      exact .inr ⟨c, .inr rfl, h⟩
    · cases hc'
  have honly : ∀ c', some c = some c' ∨ none = some c' → b = some c' ∨ some c = some c' := by
    rintro c' (hc' | hc')
    · exact .inr hc'
    · cases hc'
  refine ⟨⟨h.watch.fresh, fun m hm m' hm' name hname =>
    h.watch.apart m hm m' hm' name (hsafe name hname)⟩, ?_, fun c' hc' => h.named c' (honly c' hc'),
    fun c' hc' => h.snapshot c' (honly c' hc'), by rintro c' ⟨⟩⟩
  intro m hm k hk
  obtain ⟨j, hj⟩ := h.named c (.inr rfl)
  obtain rfl : i = k := by
    have hi' := hj d.names List.mem_cons_self
    have hk' := hj m hm
    rw [hi] at hi'
    rw [hk] at hk'
    rw [Option.some.inj hi', Option.some.inj hk']
  have hok := h.manifest m hm i hk
  refine ManifestOk.settle hzero hok.quiet (h.newer c rfl).1 (h.newer c rfl).2 ?_ hsame
  rw [(h.newer c rfl).1]
  exact hok.latest c rfl

/-- The manifest is synced. -/
theorem Layout.syncManifest (h : Layout crc b n d) {i : ℕ}
    (hi : d.names.find MANIFEST_FILE = some i) :
    Layout crc b n (d.setFile i (d.files i).sync) := by
  have hquiet : Quiet crc b (d.files i) → Quiet crc b (d.files i).sync := by
    intro hq
    have hmem := CrashFile.now_mem_contents (d.files i)
    cases b with
    | none =>
        intro v hv
        rw [CrashFile.contents_sync, List.mem_singleton] at hv
        rw [hv]
        exact hq _ hmem
    | some c =>
        obtain ⟨sb, hsb, hall⟩ := hq
        refine ⟨sb, hsb, fun v hv => ?_⟩
        rw [CrashFile.contents_sync, List.mem_singleton] at hv
        rw [hv]
        exact hall _ hmem
  have hfile : ∀ {j : ℕ}, j ≠ i → (d.setFile i (d.files i).sync).files j = d.files j :=
    fun hne => setFile_files_of_ne d _ hne
  refine ⟨⟨h.watch.fresh, h.watch.apart⟩, ?_, h.named, ?_, h.newer⟩
  · intro m hm j hj
    have hok := h.manifest m hm j hj
    by_cases hji : j = i
    · subst hji
      rw [setFile_files_self]
      refine ⟨hquiet hok.quiet, fun v hv => ?_, hok.latest⟩
      rw [CrashFile.contents_sync, List.mem_singleton] at hv
      rw [hv]
      exact hok.moving _ (CrashFile.now_mem_contents _)
    · rw [hfile hji]
      exact hok
  · intro c hc
    obtain ⟨j, hj, hcont, hne⟩ := h.snapshot c hc
    refine ⟨j, hj, ?_, hne⟩
    rw [hfile]
    · exact hcont
    · rintro rfl
      exact hne d.names List.mem_cons_self hi

end Layout

end Works.Chainfold
