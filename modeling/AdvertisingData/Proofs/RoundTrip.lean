import AdvertisingData.Proofs.Framing
import AdvertisingData.Proofs.Decode
import AdvertisingData.Proofs.Encode
/-!
# Writing and reading back

A payload that encoding produced decodes to the field set as written (`FieldSet.normalize`) as
long as every value is at most 29 bytes; encoding holds a value only to its length byte, so the
first longer record is the fault (`FieldSet.decode_encodeInto_eq`).  Re-encoding a decoded payload
writes each slot's last record in slot order: the result is `Canonical`, and a canonical payload
that fits is written back unchanged (`FieldSet.encodeInto_decode_canonical`).
-/

namespace AdvertisingData

namespace FieldSet

/-- A field set as it reads back once written: flags left to the discovery mode or with no bit
set, and empty lists, names and byte strings are dropped, and a transmit power level left to the
source is the given level. -/
def normalize (s : FieldSet) (level : Int8) : FieldSet :=
  { s with
    flags :=
      match s.flags with
      | some (.value f) => if f.isEmpty then none else some (.value f)
      | _ => none
    uuids16 := s.uuids16.filter fun l => !l.uuids.isEmpty
    uuids32 := s.uuids32.filter fun l => !l.uuids.isEmpty
    uuids128 := s.uuids128.filter fun l => !l.bytes.isEmpty
    name := s.name.filter fun n => !n.bytes.isEmpty
    txPowerLevel :=
      s.txPowerLevel.map fun
        | .auto => .level level
        | .level v => .level v
    serviceData16 := s.serviceData16.filter fun d => !d.isEmpty
    publicTargets := s.publicTargets.filter fun d => !d.isEmpty
    serviceData32 := s.serviceData32.filter fun d => !d.isEmpty
    serviceData128 := s.serviceData128.filter fun d => !d.isEmpty
    uri := s.uri.filter fun d => !d.isEmpty
    manufacturerData := s.manufacturerData.filter fun d => !d.isEmpty }

/-- The field set holding the entries encoding writes is the field set as it reads back. -/
theorem ofEntries_written (s : FieldSet) (level : Int8) :
    ofEntries (fun k => (s.entry level k).filter Field.isWritten) = s.normalize level := by
  obtain ⟨flags, uuids16, uuids32, uuids128, name, txPowerLevel, deviceClass, connIntervalRange,
    serviceData16, publicTargets, appearance, advInterval, leAddress, leRole, serviceData32,
    serviceData128, uri, manufacturerData⟩ := s
  simp only [ofEntries, normalize, entry, FieldSet.mk.injEq]
  -- one conjunct per field, each settled by the cases of that field alone
  and_intros
  · rcases flags with _ | _ | f
    · rfl
    · rfl
    · by_cases hf : f.isEmpty <;> simp [hf, Field.isWritten, Option.filter_some]
  · rcases uuids16 with _ | l
    · rfl
    · by_cases hl : l.uuids.isEmpty <;> simp [hl, Field.isWritten, Option.filter_some]
  · rcases uuids32 with _ | l
    · rfl
    · by_cases hl : l.uuids.isEmpty <;> simp [hl, Field.isWritten, Option.filter_some]
  · rcases uuids128 with _ | l
    · rfl
    · by_cases hl : l.bytes.isEmpty <;> simp [hl, Field.isWritten, Option.filter_some]
  · rcases name with _ | n
    · rfl
    · by_cases hn : n.bytes.isEmpty <;> simp [hn, Field.isWritten, Option.filter_some]
  · rcases txPowerLevel with _ | _ | v <;> rfl
  · cases deviceClass <;> rfl
  · cases connIntervalRange <;> rfl
  · rcases serviceData16 with _ | d
    · rfl
    · by_cases hd : d.isEmpty <;> simp [hd, Field.isWritten, Option.filter_some]
  · rcases publicTargets with _ | d
    · rfl
    · by_cases hd : d.isEmpty <;> simp [hd, Field.isWritten, Option.filter_some]
  · cases appearance <;> rfl
  · cases advInterval <;> rfl
  · cases leAddress <;> rfl
  · cases leRole <;> rfl
  · rcases serviceData32 with _ | d
    · rfl
    · by_cases hd : d.isEmpty <;> simp [hd, Field.isWritten, Option.filter_some]
  · rcases serviceData128 with _ | d
    · rfl
    · by_cases hd : d.isEmpty <;> simp [hd, Field.isWritten, Option.filter_some]
  · rcases uri with _ | d
    · rfl
    · by_cases hd : d.isEmpty <;> simp [hd, Field.isWritten, Option.filter_some]
  · rcases manufacturerData with _ | d
    · rfl
    · by_cases hd : d.isEmpty <;> simp [hd, Field.isWritten, Option.filter_some]

theorem filter_filterMap_all (w : Slot → Option Field)
    (hw : ∀ k fld, w k = some fld → fld.slot = k) (k : Slot) :
    (Slot.all.filterMap w).filter (·.slot = k) = (w k).toList := by
  -- over any list of distinct slots, the slot `k` contributes its entry once if it is listed
  have hlist : ∀ l : List Slot, l.Nodup →
      (l.filterMap w).filter (·.slot = k) = if k ∈ l then (w k).toList else [] := by
    intro l hl
    induction l with
    | nil => simp
    | cons a l ih =>
        obtain ⟨ha, hl⟩ := List.nodup_cons.1 hl
        by_cases hak : a = k
        · subst hak
          cases hwa : w a with
          | none => simp [hwa, ih hl, ha]
          | some fld => simp [hwa, hw a fld hwa, ih hl, ha]
        · have hka : k ≠ a := Ne.symm hak
          cases hwa : w a with
          | none => simp [hwa, ih hl, hka]
          | some fld => simp [hwa, hw a fld hwa, hak, ih hl, hka]
  rw [hlist _ Slot.nodup_all, if_pos (Slot.mem_all k)]

theorem lastIn_records (s : FieldSet) (level : Int8) (k : Slot) :
    lastIn k (s.records level) = ((s.entry level k).filter Field.isWritten).map Field.record := by
  have hw : ∀ k fld, (s.entry level k).filter Field.isWritten = some fld → fld.slot = k :=
    fun k fld h => slot_of_entry (Option.filter_eq_some_iff.1 h).1
  have hslot : ((fun r : Record => decide (r.type.slot = some k)) ∘ Field.record) =
      fun fld => decide (fld.slot = k) := by
    funext fld
    simp [Field.slot_record_type]
  rw [lastIn, records, writtenEntries, List.filter_map, hslot, filter_filterMap_all _ hw]
  cases (s.entry level k).filter Field.isWritten <;> rfl

theorem ofRecords_records (s : FieldSet) (level : Int8) :
    ofRecords (s.records level) = s.normalize level := by
  rw [ofRecords, ← ofEntries_written]
  congr 1
  funext k
  rw [lastIn_records]
  cases (s.entry level k).filter Field.isWritten with
  | none => rfl
  | some fld => simp [Field.ofValue_record]

theorem ofCode_code_of_mem_records {s : FieldSet} {level : Int8} {r : Record}
    (hr : r ∈ s.records level) : AdType.ofCode r.type.code = r.type := by
  obtain ⟨fld, -, rfl⟩ := List.mem_map.1 hr
  exact AdType.ofCode_code (Field.slot_record_type fld)

theorem readable_of_mem_records {s : FieldSet} {level : Int8} {r : Record}
    (hr : r ∈ s.records level) (hshort : ¬Record.maxValueLen < r.value.length) : r.Readable :=
  ⟨Nat.le_of_not_lt hshort, ofCode_code_of_mem_records hr⟩

theorem records_eq_of_source {s : FieldSet} {tx : TxPowerSource} {level level' : Int8}
    (hl : s.txPowerLevel = some .auto → tx.read = .ok level)
    (hl' : s.txPowerLevel = some .auto → tx.read = .ok level') :
    s.records level = s.records level' := by
  by_cases hauto : s.txPowerLevel = some .auto
  · have hsame : level = level' := by simpa using (hl hauto).symm.trans (hl' hauto)
    rw [hsame]
  · simp only [records, writtenEntries, entry_eq_of_ne_auto hauto level level']

/-- A payload that encoding produced decodes to the field set as written, unless one of its
records holds more than 29 value bytes: then the first such record is the fault, with its type
code and value length. -/
theorem decode_encodeInto_eq {s : FieldSet} {tx : TxPowerSource} {capacity maxLen : Nat}
    {bs : List UInt8} {level : Int8} (henc : s.encodeInto capacity maxLen tx = .ok bs)
    (hl : s.txPowerLevel = some .auto → tx.read = .ok level) :
    decode bs =
      match (s.records level).find? (fun r => Record.maxValueLen < r.value.length) with
      | some r => .error (.badLength r.type.code r.value.length)
      | none => .ok (s.normalize level) := by
  obtain ⟨level', hl', hvalid, hbyte, -, rfl⟩ := (encodeInto_eq_ok_iff s tx _ _ _).1 henc
  rw [records_eq_of_source hl' hl] at hbyte ⊢
  have hadm := (lengthsValid_iff_records s level).1 hvalid
  rw [decode_eq_decodeSpec, decodeSpec]
  cases hfind : (s.records level).find? (fun r => Record.maxValueLen < r.value.length) with
  | none =>
      -- every value is short enough: the records are read back as they are
      have hshort : ∀ r ∈ s.records level, r.Readable := fun r hr =>
        readable_of_mem_records hr (by simpa using List.find?_eq_none.1 hfind r hr)
      simp only [readRecords_flatMap_wire _ hshort, ofRecords_records]
      rw [List.find?_eq_none.2 (by simpa using hadm)]
  | some r =>
      -- the first long record stops the reading; the records before it are all admitted
      obtain ⟨hlong, pre, post, hsplit, hpre⟩ := List.find?_eq_some_iff_append.1 hfind
      have hmem : ∀ p ∈ pre, p ∈ s.records level := fun p hp => by
        rw [hsplit]
        exact List.mem_append_left _ hp
      have hpre' : ∀ p ∈ pre, p.Readable := fun p hp =>
        readable_of_mem_records (hmem p hp) (by simpa using hpre p hp)
      have hr : r.value.length + 1 ≤ 255 := by
        have := hbyte r (by simp [hsplit])
        omega
      rw [hsplit, readRecords_flatMap_wire_of_long pre post r hpre' (by simpa using hlong) hr]
      simp only
      rw [List.find?_eq_none.2 (fun p hp => by simpa using hadm p (hmem p hp))]

/-- A complete name of 30 bytes is written into a 255-byte payload, and the payload is refused on
reading: the name's record is one byte over what decoding admits. -/
theorem decode_encodeInto_longName :
    ({ name := some ⟨List.replicate 30 0x41, true⟩ } : FieldSet).encodeInto 255 255 .unavailable =
        .ok (0x1F :: 0x09 :: List.replicate 30 0x41) ∧
      decode (0x1F :: 0x09 :: List.replicate 30 0x41) = .error (.badLength 0x09 30) := by
  have henc : ({ name := some ⟨List.replicate 30 0x41, true⟩ } : FieldSet).encodeInto 255 255
      .unavailable = .ok (0x1F :: 0x09 :: List.replicate 30 0x41) := by rfl
  -- the name is not a transmit power entry, so the source is never read
  have hl : ({ name := some ⟨List.replicate 30 0x41, true⟩ } : FieldSet).txPowerLevel =
      some .auto → TxPowerSource.unavailable.read = .ok (0 : Int8) := fun h => by cases h
  refine ⟨henc, ?_⟩
  rw [decode_encodeInto_eq henc hl]
  rfl

end FieldSet

namespace Record

/-- Whether encoding skips the entry the record reads as: flags with no bit set, or an empty
value of one of the variable-length kinds. -/
def isSkipped (r : Record) : Bool :=
  match r.type.slot with
  | some .flags => r.value == [0]
  | some .txPowerLevel | some .deviceClass | some .connIntervalRange | some .appearance
  | some .advInterval | some .leAddress | some .leRole | none => false
  | some _ => r.value.isEmpty

end Record

theorem Field.isWritten_of_ofValue {r : Record} {fld : Field}
    (h : ofValue r.type r.value = some fld) (hadm : r.type.lengthRule.admits r.value.length) :
    fld.isWritten = !r.isSkipped := by
  obtain ⟨t, v⟩ := r
  cases t <;> simp only [AdType.lengthRule, LengthRule.admits, beq_iff_eq,
    decide_eq_true_eq] at hadm <;> simp only [ofValue, Option.some.injEq] at h
  case flags =>
    obtain ⟨b, rfl⟩ := List.length_eq_one_iff.1 hadm
    subst h
    simp [isWritten, Record.isSkipped, AdType.slot, AdFlags.isEmpty]
  case incompleteUuids16 | completeUuids16 =>
    subst h
    simp [isWritten, Record.isSkipped, AdType.slot, Bytes.isEmpty_chunks (by decide : 0 < 2) hadm]
  case incompleteUuids32 | completeUuids32 =>
    subst h
    simp [isWritten, Record.isSkipped, AdType.slot, Bytes.isEmpty_chunks (by decide : 0 < 4) hadm]
  case deviceClass | connIntervalRange | leAddress =>
    obtain ⟨b, -, rfl⟩ := Option.map_eq_some_iff.1 h
    rfl
  case unknown => cases h
  all_goals
    subst h
    rfl

namespace FieldSet

/-- The records the field set read from `rs` is written as: the last record of each slot, in slot
order, unless encoding skips it. -/
theorem records_ofRecords {rs : List Record}
    (hadm : ∀ r ∈ rs, r.type.lengthRule.admits r.value.length) (level : Int8) :
    (ofRecords rs).records level =
      Slot.all.filterMap fun k => (lastIn k rs).filter fun r => !r.isSkipped := by
  rw [records, writtenEntries, List.map_filterMap]
  apply List.filterMap_congr
  intro k _
  rw [entry_ofRecords]
  cases hlast : lastIn k rs with
  | none => rfl
  | some r =>
      obtain ⟨hr, hk⟩ := lastIn_eq_some hlast
      obtain ⟨fld, hfld⟩ := Option.isSome_iff_exists.1 (isSome_ofValue hk (hadm r hr))
      have hrec := Field.record_of_ofValue hfld (hadm r hr)
      have hwr := Field.isWritten_of_ofValue hfld (hadm r hr)
      simp only [Option.bind_some, hfld, Option.filter_some, hwr]
      cases r.isSkipped <;> simp [hrec]

/-- A payload that re-encoding leaves as it is: it frames without a fault, and its records are of
known types, meet their length rules, are not skipped by encoding, and fill distinct slots in
increasing order of type code. -/
structure Canonical (b : List UInt8) : Prop where
  framed : (readRecords b).fault = none
  known : ∀ r ∈ (readRecords b).records, r.type.slot.isSome
  admitted : ∀ r ∈ (readRecords b).records, r.type.lengthRule.admits r.value.length
  kept : ∀ r ∈ (readRecords b).records, r.isSkipped = false
  ordered : ((readRecords b).records.map (·.type.code.toNat)).Pairwise (· < ·)
  distinct : ((readRecords b).records.map (·.type.slot)).Pairwise (· ≠ ·)

theorem lastIn_eq_none {k : Slot} {rs : List Record} (h : ∀ r ∈ rs, r.type.slot ≠ some k) :
    lastIn k rs = none := by
  simpa [lastIn, List.filter_eq_nil_iff] using h

theorem lastIn_cons_of_ne {k : Slot} {r : Record} (rs : List Record) (h : r.type.slot ≠ some k) :
    lastIn k (r :: rs) = lastIn k rs := by
  simp [lastIn, h]

theorem lastIn_cons_of_eq {k : Slot} {r : Record} {rs : List Record} (h : r.type.slot = some k)
    (hrest : ∀ r' ∈ rs, r'.type.slot ≠ some k) : lastIn k (r :: rs) = some r := by
  have hnil : rs.filter (·.type.slot = some k) = [] := by
    simpa [List.filter_eq_nil_iff] using hrest
  simp [lastIn, h, hnil]

theorem filterMap_lastIn_eq {rs : List Record} (hknown : ∀ r ∈ rs, r.type.slot.isSome)
    (hordered : (rs.map (·.type.code.toNat)).Pairwise (· < ·))
    (hdistinct : (rs.map (·.type.slot)).Pairwise (· ≠ ·)) :
    Slot.all.filterMap (lastIn · rs) = rs := by
  -- Induction on the slots in payload order, with the records whose slots are still to come.
  suffices h : ∀ ks : List Slot, ks.Pairwise (fun k k' => k.codeRange.2 < k'.codeRange.1) →
      ∀ rs : List Record, (∀ r ∈ rs, ∃ k ∈ ks, r.type.slot = some k) →
      (rs.map (·.type.code.toNat)).Pairwise (· < ·) → (rs.map (·.type.slot)).Pairwise (· ≠ ·) →
      ks.filterMap (lastIn · rs) = rs by
    refine h Slot.all Slot.pairwise_all_codeRange rs (fun r hr => ?_) hordered hdistinct
    obtain ⟨k, hk⟩ := Option.isSome_iff_exists.1 (hknown r hr)
    exact ⟨k, Slot.mem_all k, hk⟩
  intro ks hks
  induction ks with
  | nil =>
      intro rs hin _ _
      cases rs with
      | nil => rfl
      | cons r _ =>
          obtain ⟨k, hk, -⟩ := hin r List.mem_cons_self
          cases hk
  | cons k ks ih =>
      obtain ⟨hlt, hlater_ks⟩ := List.pairwise_cons.1 hks
      intro rs hin hord hdis
      -- once no record fills `k`, the records all fill later slots
      have hlater : ∀ rs' : List Record, (∀ r ∈ rs', r.type.slot ≠ some k) → rs' ⊆ rs →
          ∀ r ∈ rs', ∃ k' ∈ ks, r.type.slot = some k' := by
        intro rs' hnone hsub r hr
        obtain ⟨k', hk', hslot⟩ := hin r (hsub hr)
        rcases List.mem_cons.1 hk' with rfl | hk'
        · exact absurd hslot (hnone r hr)
        · exact ⟨k', hk', hslot⟩
      cases rs with
      | nil => simp [lastIn]
      | cons r rs =>
          obtain ⟨k0, hk0, hr⟩ := hin r List.mem_cons_self
          obtain ⟨hordr, hord'⟩ := List.pairwise_cons.1 (List.pairwise_map.1 hord)
          obtain ⟨hdisr, hdis'⟩ := List.pairwise_cons.1 (List.pairwise_map.1 hdis)
          rw [List.filterMap_cons]
          by_cases hkk : k0 = k
          · subst hkk
            have hrest : ∀ r' ∈ rs, r'.type.slot ≠ some k0 :=
              fun r' hr' h' => hdisr r' hr' (hr.trans h'.symm)
            -- the slot ranges are disjoint, so no later slot is `k0` again
            have hne : ∀ k' ∈ ks, r.type.slot ≠ some k' := by
              intro k' hk' h'
              have hrange := hlt k' hk'
              rw [hr, Option.some.injEq] at h'
              subst h'
              have := AdType.code_mem_codeRange hr
              omega
            rw [lastIn_cons_of_eq hr hrest, List.filterMap_congr fun k' hk' =>
              lastIn_cons_of_ne rs (hne k' hk')]
            dsimp only
            congr 1
            exact ih hlater_ks rs (hlater rs hrest (List.subset_cons_self r rs)) (List.pairwise_map.2 hord')
              (List.pairwise_map.2 hdis')
          · have hk0' : k0 ∈ ks := (List.mem_cons.1 hk0).resolve_left hkk
            -- a record of slot `k` would come before `r` in code order, yet after it in the list
            have hnone : ∀ r' ∈ r :: rs, r'.type.slot ≠ some k := by
              intro r' hr' h'
              rcases List.mem_cons.1 hr' with rfl | hr'
              · exact hkk (Option.some.inj (hr.symm.trans h'))
              · have h1 := hordr r' hr'
                have h2 := AdType.code_mem_codeRange h'
                have h3 := AdType.code_mem_codeRange hr
                have h4 := hlt k0 hk0'
                omega
            rw [lastIn_eq_none hnone]
            exact ih hlater_ks (r :: rs) (hlater (r :: rs) hnone (List.Subset.refl _)) hord hdis

theorem txPowerLevel_ofRecords (rs : List Record) : (ofRecords rs).txPowerLevel ≠ some .auto := by
  simp only [ofRecords, ofEntries]
  split <;> simp

theorem mem_records_ofRecords {rs : List Record}
    (hadm : ∀ r ∈ rs, r.type.lengthRule.admits r.value.length) {level : Int8} {r : Record}
    (hr : r ∈ (ofRecords rs).records level) :
    r ∈ rs ∧ r.type.slot.isSome ∧ r.isSkipped = false := by
  rw [records_ofRecords hadm, List.mem_filterMap] at hr
  obtain ⟨k, -, hk⟩ := hr
  obtain ⟨hlast, hkept⟩ := Option.filter_eq_some_iff.1 hk
  obtain ⟨hmem, hslot⟩ := lastIn_eq_some hlast
  exact ⟨hmem, by simp [hslot], by simpa using hkept⟩

/-- Re-encoding the field set read from the records of a payload writes a canonical payload,
which frames as exactly the records written. -/
theorem canonical_records_ofRecords {b : List UInt8}
    (hadm : ∀ r ∈ (readRecords b).records, r.type.lengthRule.admits r.value.length)
    (level : Int8) :
    let rs := (ofRecords (readRecords b).records).records level
    readRecords (rs.flatMap Record.wire) = ⟨rs, none⟩ ∧ Canonical (rs.flatMap Record.wire) := by
  intro rs
  have hmem : ∀ r ∈ rs, r ∈ (readRecords b).records ∧ r.type.slot.isSome ∧ r.isSkipped = false :=
    fun r hr => mem_records_ofRecords hadm hr
  have hread : readRecords (rs.flatMap Record.wire) = ⟨rs, none⟩ :=
    readRecords_flatMap_wire rs fun r hr => readable_of_mem_readRecords (hmem r hr).1
  refine ⟨hread, ?_⟩
  -- distinct slots: each slot contributes at most one record, and fills its own slot
  have hdistinct : (rs.map (·.type.slot)).Pairwise (· ≠ ·) := by
    simp only [rs, records_ofRecords hadm, List.pairwise_map]
    refine List.Pairwise.filterMap _ ?_ Slot.nodup_all
    intro k k' hne r hr r' hr'
    rw [(lastIn_eq_some (Option.filter_eq_some_iff.1 hr).1).2,
      (lastIn_eq_some (Option.filter_eq_some_iff.1 hr').1).2]
    simpa using hne
  -- the payload frames as `rs` with no fault, which leaves the five conditions on `rs`
  constructor <;> simp only [hread]
  case known => exact fun r hr => (hmem r hr).2.1
  case admitted => exact fun r hr => hadm r (hmem r hr).1
  case kept => exact fun r hr => (hmem r hr).2.2
  case ordered => exact codes_records_pairwise_lt _ level
  case distinct => exact hdistinct

theorem records_ofRecords_of_canonical {b : List UInt8} (hb : Canonical b) (level : Int8) :
    (ofRecords (readRecords b).records).records level = (readRecords b).records := by
  rw [records_ofRecords hb.admitted]
  -- no record of a canonical payload is skipped, so the filter keeps each slot's last record
  have hkept : ∀ k, ((lastIn k (readRecords b).records).filter fun r => !r.isSkipped) =
      lastIn k (readRecords b).records := by
    intro k
    cases hlast : lastIn k (readRecords b).records with
    | none => rfl
    | some r => simp [Option.filter_some, hb.kept r (lastIn_eq_some hlast).1]
  simp only [hkept]
  exact filterMap_lastIn_eq hb.known hb.ordered hb.distinct

/-- A canonical payload of at most 255 bytes decodes, and the field set it decodes to encodes
back to the payload itself, whatever the transmit power source. -/
theorem encodeInto_ofRecords_of_canonical {b : List UInt8} (hb : Canonical b)
    (hlen : b.length ≤ 255) (tx : TxPowerSource) :
    decode b = .ok (ofRecords (readRecords b).records) ∧
      (ofRecords (readRecords b).records).encodeInto 255 255 tx = .ok b := by
  have hsame := records_ofRecords_of_canonical hb 0
  have hwire := flatMap_wire_readRecords hb.framed
  refine ⟨decode_eq_ok_iff.2 ⟨hb.framed, hb.admitted, rfl⟩, ?_⟩
  refine (encodeInto_eq_ok_iff _ tx 255 255 b).2 ⟨0, ?_, ?_, ?_, ?_, ?_⟩
  · intro hauto
    exact absurd hauto (txPowerLevel_ofRecords _)
  · -- the records written are the payload's, so they meet their length rules
    rw [lengthsValid_iff_records _ 0, hsame]
    exact hb.admitted
  · intro r hr
    rw [hsame] at hr
    have := (readable_of_mem_readRecords hr).1
    simp only [Record.maxValueLen] at this
    omega
  · rw [hsame, ← length_flatMap_wire, hwire]
    simpa using hlen
  · rw [hsame, hwire]

/-- Re-encoding a decoded payload canonicalises it.  When a payload decodes and its field set
encodes into 255 bytes, what comes out is canonical; it is the payload itself exactly when the
payload was canonical; and it decodes to a field set that encodes back to it. -/
theorem encodeInto_decode_canonical {b c : List UInt8} {f : FieldSet} (hdec : decode b = .ok f)
    (henc : f.encodeInto 255 255 .unavailable = .ok c) :
    Canonical c ∧ (c = b ↔ Canonical b) ∧
      ∃ f', decode c = .ok f' ∧ f'.encodeInto 255 255 .unavailable = .ok c := by
  obtain ⟨-, hadm, rfl⟩ := decode_eq_ok_iff.1 hdec
  obtain ⟨level, -, -, -, hfit, rfl⟩ := (encodeInto_eq_ok_iff _ _ _ _ _).1 henc
  obtain ⟨-, hcanon⟩ := canonical_records_ofRecords hadm level
  have hlen : (((ofRecords (readRecords b).records).records level).flatMap Record.wire).length ≤
      255 := by
    rw [length_flatMap_wire]
    simpa using hfit
  refine ⟨hcanon, ⟨fun h => h ▸ hcanon, fun hb => ?_⟩,
    ⟨_, encodeInto_ofRecords_of_canonical hcanon hlen .unavailable⟩⟩
  -- a canonical payload is re-encoded as its own records, which are the payload
  rw [records_ofRecords_of_canonical hb, flatMap_wire_readRecords hb.framed]

/-- A payload that gives its transmit power level before its flags is re-encoded with the flags
first, so it is not canonical. -/
theorem encodeInto_decode_txPowerFirst :
    decode [0x02, 0x0A, 0x00, 0x02, 0x01, 0x06] =
        .ok (ofRecords [⟨.txPowerLevel, [0x00]⟩, ⟨.flags, [0x06]⟩]) ∧
      (ofRecords [⟨.txPowerLevel, [0x00]⟩, ⟨.flags, [0x06]⟩]).encodeInto 255 255 .unavailable =
        .ok [0x02, 0x01, 0x06, 0x02, 0x0A, 0x00] ∧
      Canonical [0x02, 0x01, 0x06, 0x02, 0x0A, 0x00] ∧
      ¬Canonical [0x02, 0x0A, 0x00, 0x02, 0x01, 0x06] := by
  have hread : readRecords [0x02, 0x0A, 0x00, 0x02, 0x01, 0x06] =
      ⟨[⟨.txPowerLevel, [0x00]⟩, ⟨.flags, [0x06]⟩], none⟩ := by
    have hwire : [0x02, 0x0A, 0x00, 0x02, 0x01, 0x06] =
        ([⟨.txPowerLevel, [0x00]⟩, ⟨.flags, [0x06]⟩] : List Record).flatMap Record.wire := rfl
    rw [hwire]
    refine readRecords_flatMap_wire _ fun r hr => ?_
    simp only [List.mem_cons, List.not_mem_nil, or_false] at hr
    rcases hr with rfl | rfl <;> exact ⟨by decide, rfl⟩
  have hdec : decode [0x02, 0x0A, 0x00, 0x02, 0x01, 0x06] =
      .ok (ofRecords [⟨.txPowerLevel, [0x00]⟩, ⟨.flags, [0x06]⟩]) := by
    refine decode_eq_ok_iff.2 ⟨by rw [hread], fun r hr => ?_, by rw [hread]⟩
    simp only [hread, List.mem_cons, List.not_mem_nil, or_false] at hr
    rcases hr with rfl | rfl <;> rfl
  have henc : (ofRecords [⟨.txPowerLevel, [0x00]⟩, ⟨.flags, [0x06]⟩]).encodeInto 255 255
      .unavailable = .ok [0x02, 0x01, 0x06, 0x02, 0x0A, 0x00] := by rfl
  obtain ⟨hcanon, hsame, -⟩ := encodeInto_decode_canonical hdec henc
  exact ⟨hdec, henc, hcanon, fun hb => absurd (hsame.2 hb) (by decide)⟩

end FieldSet

end AdvertisingData
