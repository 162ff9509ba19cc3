import AdvertisingData.Reader
import AdvertisingData.Proofs.Framing
import AdvertisingData.Proofs.Decode
/-!
# What the reader yields

The reader, run call by call, yields exactly the framing `readRecords` gives, so a payload of `n`
bytes yields at most `n / 2 + 1` items, a fault only last (`Reader.items_bounded_and_exact`).
Since no record read holds more than 29 value bytes, a decoded 16-bit UUID list holds at most 14
UUIDs and a 32-bit one at most 7 (`FieldSet.uuidLists_fit_scratch`).
-/

namespace AdvertisingData

namespace Reader

theorem nextRecord_cons (l : UInt8) (tail : List UInt8) (hne : 0 < (l :: tail).length) :
    nextRecord (l :: tail) hne =
      if tail.length + 1 < l.toNat + 1 then .error (.tooLarge (l.toNat + 1) (tail.length + 1))
      else if l.toNat = 0 then .error (.badLength 0 0)
      else if Record.maxValueLen < l.toNat - 1 then
        .error (.badLength (tail.headD 0) (l.toNat - 1))
      else .ok (⟨AdType.ofCode (tail.headD 0), (tail.drop 1).take (l.toNat - 1)⟩,
        tail.drop l.toNat) := by
  unfold nextRecord
  dsimp only
  by_cases hshort : tail.length + 1 < l.toNat + 1
  · simp [hshort]
  · by_cases hzero : l.toNat = 0
    · simp [hzero]
    · cases tail with
      | nil =>
          simp only [List.length_nil] at hshort
          omega
      | cons t rest =>
          simp only [List.length_cons] at hshort
          -- the record fits, so its value is `L - 1` bytes long, not cut short by the payload
          have hfit : l.toNat - 1 ≤ rest.length := by omega
          by_cases hlong : Record.maxValueLen < l.toNat - 1
          · simp [hshort, hzero, hlong, List.extract, AdType.code_ofCode,
              Nat.min_eq_left hfit]
          · simp [hshort, hzero, hlong, List.extract]

theorem items_eq (src : List UInt8) : items src =
    match next? src with
    | none => []
    | some (item, rest) => item :: items rest := by
  rw [items]
  split <;> simp_all

@[simp] theorem next?_nil : next? [] = none := rfl

@[simp] theorem items_nil : items [] = [] := by
  rw [items_eq, next?_nil]

theorem items_cons (l : UInt8) (tail : List UInt8) :
    items (l :: tail) =
      if tail.length + 1 < l.toNat + 1 then [.error (.tooLarge (l.toNat + 1) (tail.length + 1))]
      else if l.toNat = 0 then [.error (.badLength 0 0)]
      else if Record.maxValueLen < l.toNat - 1 then
        [.error (.badLength (tail.headD 0) (l.toNat - 1))]
      else .ok ⟨AdType.ofCode (tail.headD 0), (tail.drop 1).take (l.toNat - 1)⟩ ::
        items (tail.drop l.toNat) := by
  rw [items_eq, next?, dif_pos (by simp), nextRecord_cons]
  split_ifs <;> simp

/-- The reader yields the framing of the payload: its records, then the fault that stopped it. -/
theorem items_eq_framing (src : List UInt8) :
    items src = (readRecords src).records.map .ok ++ (readRecords src).fault.toList.map .error := by
  fun_induction readRecords src with
  | case1 => simp
  | case2 l hl => simp [items_cons, hl]
  | case3 l hl => simp [items_cons, hl]
  | case4 l t rest hshort => simp [items_cons, hshort]
  | case5 l t rest hshort hzero => simp [items_cons, hzero]
  | case6 l t rest hshort hzero hlong =>
      rw [items_cons, if_neg (by simp only [List.length_cons]; omega), if_neg hzero, if_pos hlong]
      simp
  | case7 l t rest hshort hzero hlong next ih =>
      have hdrop : (t :: rest).drop l.toNat = rest.drop (l.toNat - 1) := by
        obtain ⟨k, hk⟩ : ∃ k, l.toNat = k + 1 := ⟨l.toNat - 1, by omega⟩
        rw [hk, List.drop_succ_cons, Nat.add_sub_cancel]
      rw [items_cons, if_neg (by simp only [List.length_cons]; omega), if_neg hzero,
        if_neg hlong, hdrop, ih]
      simp [next]

theorem length_records_le (src : List UInt8) :
    2 * (readRecords src).records.length + (readRecords src).fault.toList.length ≤
      src.length := by
  fun_induction readRecords src with
  | case1 => simp
  | case7 l t rest hshort hzero hlong next ih =>
      simp only [next, List.length_cons, List.length_drop] at ih ⊢
      omega
  | _ => simp

theorem eq_of_getElem?_eq_error {rs : List Record} {fault : Option Fault} {i : Nat} {e : Fault}
    (h : (rs.map Except.ok ++ fault.toList.map Except.error)[i]? = some (.error e)) :
    i = rs.length ∧ fault = some e := by
  by_cases hi : i < rs.length
  · rw [List.getElem?_append_left (by simpa using hi), List.getElem?_map] at h
    simp [List.getElem?_eq_getElem hi] at h
  · rw [List.getElem?_append_right (by simpa using hi), List.length_map] at h
    cases fault with
    | none => simp at h
    | some f =>
        simp only [Option.toList_some, List.map_cons, List.map_nil, List.getElem?_singleton] at h
        split at h
        · simp only [Option.some.injEq, Except.error.injEq] at h
          exact ⟨by omega, congrArg some h⟩
        · cases h

theorem filterMap_toOption_items (src : List UInt8) :
    (items src).filterMap Except.toOption = (readRecords src).records := by
  rw [items_eq_framing, List.filterMap_append, List.filterMap_map, List.filterMap_map]
  simp [Function.comp_def, Except.toOption]

/-- Reading a payload of `n` bytes ends after at most `n / 2 + 1` items, which are its framing;
a fault is only ever the last of them; the records read are the first bytes of the payload, one
after the other; and at each position the reader checks the record's size, then its length byte,
then the length of its value, before it reads the record and goes on after it. -/
theorem items_bounded_and_exact (src : List UInt8) :
    items src = (readRecords src).records.map .ok ++ (readRecords src).fault.toList.map .error ∧
    (items src).length ≤ src.length / 2 + 1 ∧
    (∀ i e, (items src)[i]? = some (.error e) → i + 1 = (items src).length) ∧
    ((items src).filterMap Except.toOption).flatMap Record.wire <+: src ∧
    ∀ l tail, src = l :: tail → items src =
      if tail.length + 1 < l.toNat + 1 then [.error (.tooLarge (l.toNat + 1) (tail.length + 1))]
      else if l.toNat = 0 then [.error (.badLength 0 0)]
      else if Record.maxValueLen < l.toNat - 1 then
        [.error (.badLength (tail.headD 0) (l.toNat - 1))]
      else .ok ⟨AdType.ofCode (tail.headD 0), (tail.drop 1).take (l.toNat - 1)⟩ ::
        items (tail.drop l.toNat) := by
  have hframing := items_eq_framing src
  have hlen : (items src).length =
      (readRecords src).records.length + (readRecords src).fault.toList.length := by
    simp [hframing]
  refine ⟨hframing, ?_, ?_, ?_, ?_⟩
  · have hbound := length_records_le src
    have hone : (readRecords src).fault.toList.length ≤ 1 := by
      cases (readRecords src).fault <;> simp
    omega
  · intro i e hi
    rw [hframing] at hi
    obtain ⟨rfl, hf⟩ := eq_of_getElem?_eq_error hi
    simp [hlen, hf]
  · obtain ⟨rest, hsrc, -⟩ := readRecords_split src
    rw [filterMap_toOption_items]
    exact ⟨rest, hsrc.symm⟩
  · rintro l tail rfl
    exact items_cons l tail

/-- A flags record and then a record whose length byte asks for six bytes where two are left: the
reader yields the flags, then the size fault, and stops there. -/
theorem items_bounded_and_exact_truncated :
    items [2, 1, 6, 5, 3] = [.ok ⟨.flags, [6]⟩, .error (.tooLarge 6 2)] ∧
      1 + 1 = (items [2, 1, 6, 5, 3]).length := by
  have hitems : items [2, 1, 6, 5, 3] = [.ok ⟨.flags, [6]⟩, .error (.tooLarge 6 2)] := by
    simp [items_cons, AdType.ofCode, Record.maxValueLen]
  exact ⟨hitems, (items_bounded_and_exact [2, 1, 6, 5, 3]).2.2.1 1 (.tooLarge 6 2)
    (by rw [hitems]; rfl)⟩

end Reader

theorem length_value_le_of_mem_readRecords {src : List UInt8} {r : Record}
    (hr : r ∈ (readRecords src).records) : r.value.length ≤ 29 :=
  (readable_of_mem_readRecords hr).1

theorem AdType.lengthRule_of_slot_uuids16 {t : AdType} (h : t.slot = some .uuids16) :
    t.lengthRule = .multipleOf 2 := by
  cases t <;> simp_all [AdType.slot, AdType.lengthRule]

theorem AdType.lengthRule_of_slot_uuids32 {t : AdType} (h : t.slot = some .uuids32) :
    t.lengthRule = .multipleOf 4 := by
  cases t <;> simp_all [AdType.slot, AdType.lengthRule]

namespace Field

theorem length_uuids_of_ofValue16 {t : AdType} {v : List UInt8} {l : ServiceUuids UInt16}
    (h : ofValue t v = some (.uuids16 l)) : l.uuids.length = v.length / 2 := by
  cases t <;> simp [ofValue] at h
  all_goals
    subst h
    simp [Bytes.length_chunks]

theorem length_uuids_of_ofValue32 {t : AdType} {v : List UInt8} {l : ServiceUuids UInt32}
    (h : ofValue t v = some (.uuids32 l)) : l.uuids.length = v.length / 4 := by
  cases t <;> simp [ofValue] at h
  all_goals
    subst h
    simp [Bytes.length_chunks]

end Field

namespace FieldSet

/-- Each entry of a decoded field set is read from one of the payload's records, of the entry's
slot. -/
theorem exists_record_of_decode {src : List UInt8} {f : FieldSet} {level : Int8} {k : Slot}
    {fld : Field} (hdec : decode src = .ok f) (h : f.entry level k = some fld) :
    ∃ r ∈ (readRecords src).records,
      r.type.slot = some k ∧ Field.ofValue r.type r.value = some fld := by
  obtain ⟨-, -, rfl⟩ := decode_eq_ok_iff.1 hdec
  rw [entry_ofRecords] at h
  obtain ⟨r, hr, hfld⟩ := Option.bind_eq_some_iff.1 h
  obtain ⟨hmem, hslot⟩ := lastIn_eq_some hr
  exact ⟨r, hmem, hslot, hfld⟩

/-- Decoding never needs more than 14 entries for the 16-bit UUIDs of a record, nor more than 7
for the 32-bit ones: a list record that meets its length rule is a whole number of UUIDs of at
most 29 bytes, and so is every list a decoded field set holds. -/
theorem uuidLists_fit_scratch (src : List UInt8) :
    (∀ r ∈ (readRecords src).records, r.type.lengthRule.admits r.value.length = true →
      (r.type.slot = some .uuids16 →
        r.value.length = 2 * (r.value.length / 2) ∧ r.value.length / 2 ≤ 14) ∧
      (r.type.slot = some .uuids32 →
        r.value.length = 4 * (r.value.length / 4) ∧ r.value.length / 4 ≤ 7)) ∧
    ∀ f, decode src = .ok f →
      (∀ l, f.uuids16 = some l → l.uuids.length ≤ 14) ∧
      (∀ l, f.uuids32 = some l → l.uuids.length ≤ 7) := by
  refine ⟨fun r hr hadm => ⟨fun hslot => ?_, fun hslot => ?_⟩,
    fun f hdec => ⟨fun l hl => ?_, fun l hl => ?_⟩⟩
  · have hlen := length_value_le_of_mem_readRecords hr
    rw [AdType.lengthRule_of_slot_uuids16 hslot] at hadm
    simp only [LengthRule.admits, beq_iff_eq] at hadm
    omega
  · have hlen := length_value_le_of_mem_readRecords hr
    rw [AdType.lengthRule_of_slot_uuids32 hslot] at hadm
    simp only [LengthRule.admits, beq_iff_eq] at hadm
    omega
  · obtain ⟨r, hr, -, hfld⟩ :=
      exists_record_of_decode hdec (show f.entry 0 .uuids16 = some (.uuids16 l) by simp [entry, hl])
    have hlen := length_value_le_of_mem_readRecords hr
    rw [Field.length_uuids_of_ofValue16 hfld]
    omega
  · obtain ⟨r, hr, -, hfld⟩ :=
      exists_record_of_decode hdec (show f.entry 0 .uuids32 = some (.uuids32 l) by simp [entry, hl])
    have hlen := length_value_le_of_mem_readRecords hr
    rw [Field.length_uuids_of_ofValue32 hfld]
    omega

/-- A complete 16-bit UUID list of 28 bytes, the longest a record can hold, is fourteen whole
UUIDs: it fills the fourteen entries exactly. -/
theorem uuidLists_fit_scratch_full :
    (⟨.completeUuids16, List.replicate 28 0x18⟩ : Record) ∈
        (readRecords (29 :: 3 :: List.replicate 28 0x18)).records ∧
      28 = 2 * (28 / 2) ∧ 28 / 2 ≤ 14 := by
  have hmem : (⟨.completeUuids16, List.replicate 28 0x18⟩ : Record) ∈
      (readRecords (29 :: 3 :: List.replicate 28 0x18)).records := by
    simp [readRecords, AdType.ofCode, Record.maxValueLen]
  exact ⟨hmem, ((uuidLists_fit_scratch _).1 _ hmem (by decide)).1 rfl⟩

end FieldSet

end AdvertisingData
