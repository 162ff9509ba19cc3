import AdvertisingData.Proofs.Entries
import Mathlib.Data.List.Induction
/-!
# Decoding, read the simple way

`FieldSet.decodeSpec` says what `FieldSet.decode` amounts to without its fold: the fault of the
first record, in payload order, that breaks its type's length rule, failing that the framing's
fault, and otherwise each entry read from the last record of its slot (`FieldSet.ofRecords`).
`FieldSet.decode_eq_decodeSpec` proves the two equal on every payload, through the last-entry law
of `FieldSet.foldl_insert_ofEntries`.
-/

namespace AdvertisingData

theorem List.getLast?_filter_filterMap {α β : Type} (f : α → Option β) (p : α → Bool)
    (q : β → Bool) (hq : ∀ a b, f a = some b → q b = p a) (l : List α)
    (hsome : ∀ a ∈ l, p a → (f a).isSome) :
    ((l.filterMap f).filter q).getLast? = ((l.filter p).getLast?).bind f := by
  induction l using List.reverseRecOn with
  | nil => rfl
  | append_singleton l a ih =>
      have ih' := ih fun a' ha' => hsome a' (List.mem_append_left _ ha')
      cases hfa : f a with
      | none =>
          have hpa : p a = false := by
            by_contra hp
            have := hsome a (by simp) (by simpa using hp)
            simp [hfa] at this
          simp [List.filterMap_append, hfa, List.filter_append, hpa, ih']
      | some b =>
          cases hpa : p a with
          | false =>
              simp [List.filterMap_append, hfa, List.filter_append, hpa, hq a b hfa, ih']
          | true => simp [List.filterMap_append, hfa, List.filter_append, hpa, hq a b hfa]

namespace Field

/-- Reading records one by one stops at the first that breaks its length rule; otherwise every
record gives its reading. -/
theorem mapM_ofRecord (rs : List Record) :
    rs.mapM ofRecord =
      match rs.find? (fun r => !r.type.lengthRule.admits r.value.length) with
      | some r => .error (.badLength r.type.code r.value.length)
      | none => .ok (rs.map fun r => ofValue r.type r.value) := by
  induction rs with
  | nil => rfl
  | cons r rs ih =>
      rw [List.mapM_cons, List.find?_cons]
      by_cases hadm : r.type.lengthRule.admits r.value.length
      · simp only [ofRecord, hadm, if_true, Bool.not_true, ih]
        cases rs.find? fun r => !r.type.lengthRule.admits r.value.length <;> rfl
      · simp only [ofRecord, hadm, Bool.false_eq_true, if_false, Bool.not_false]
        rfl

end Field

namespace FieldSet

def lastIn (k : Slot) (rs : List Record) : Option Record :=
  (rs.filter (·.type.slot = some k)).getLast?

/-- The field set records describe, each entry read from the last record that fills its slot. -/
def ofRecords (rs : List Record) : FieldSet :=
  ofEntries fun k => (lastIn k rs).bind fun r => Field.ofValue r.type r.value

/-- Decoding as the format describes it: the first record that breaks its length rule is the
fault; failing that, the framing fault; failing that, the field set the records describe. -/
def decodeSpec (src : List UInt8) : Except Fault FieldSet :=
  let framing := readRecords src
  match framing.records.find? (fun r => !r.type.lengthRule.admits r.value.length) with
  | some r => .error (.badLength r.type.code r.value.length)
  | none =>
    match framing.fault with
    | some f => .error f
    | none => .ok (ofRecords framing.records)

theorem isSome_ofValue {r : Record} {k : Slot} (hk : r.type.slot = some k)
    (hadm : r.type.lengthRule.admits r.value.length) : (Field.ofValue r.type r.value).isSome := by
  obtain ⟨t, v⟩ := r
  cases t <;> simp_all [Field.ofValue, AdType.slot, AdType.lengthRule, LengthRule.admits,
    FixedBytes.ofList?]

theorem admits_of_find?_eq_none {rs : List Record}
    (h : rs.find? (fun r => !r.type.lengthRule.admits r.value.length) = none) :
    ∀ r ∈ rs, r.type.lengthRule.admits r.value.length := by
  intro r hr
  simpa using List.find?_eq_none.1 h r hr

/-- Folding the readings of records that all meet their length rules gives the field set the
records describe. -/
theorem foldl_insert_readings (rs : List Record)
    (hadm : ∀ r ∈ rs, r.type.lengthRule.admits r.value.length) :
    (rs.filterMap fun r => Field.ofValue r.type r.value).foldl insert {} = ofRecords rs := by
  rw [empty_eq_ofEntries, foldl_insert_ofEntries, ofRecords]
  congr 1
  funext k
  rw [Option.or_none, lastIn]
  apply List.getLast?_filter_filterMap
  · intro r fld h
    simp [Field.slot_of_ofValue h]
  · intro r hr hk
    exact isSome_ofValue (by simpa using hk) (hadm r hr)

/-- Decoding a payload is decoding it the simple way: the first record, in payload order, that
breaks its length rule or its framing is the fault, and otherwise each entry comes from the last
record of its slot. -/
theorem decode_eq_decodeSpec (src : List UInt8) : decode src = decodeSpec src := by
  unfold decode decodeSpec
  dsimp only
  rw [Field.mapM_ofRecord]
  rcases hfind : (readRecords src).records.find?
      (fun r => !r.type.lengthRule.admits r.value.length) with _ | r
  · have hadm := admits_of_find?_eq_none hfind
    simp only [hfind]
    cases (readRecords src).fault with
    | some f => rfl
    | none =>
        dsimp only
        rw [List.filterMap_map, Function.id_comp, foldl_insert_readings _ hadm]
  · simp only [hfind]

theorem lastIn_eq_some {k : Slot} {rs : List Record} {r : Record} (h : lastIn k rs = some r) :
    r ∈ rs ∧ r.type.slot = some k := by
  simpa using List.mem_filter.1 (List.mem_of_getLast? h)

/-- The entries of the field set records describe are the readings of the last record of each
slot. -/
theorem entry_ofRecords (rs : List Record) (level : Int8) (k : Slot) :
    (ofRecords rs).entry level k = (lastIn k rs).bind fun r => Field.ofValue r.type r.value := by
  apply entry_ofEntries
  intro k fld h
  obtain ⟨r, hr, hfld⟩ := Option.bind_eq_some_iff.1 h
  have hslot := (lastIn_eq_some hr).2
  rw [Field.slot_of_ofValue hfld, Option.some.injEq] at hslot
  exact hslot

/-- A payload decodes exactly when it frames without a fault and all its records meet their
length rules, and it then decodes to the field set its records describe. -/
theorem decode_eq_ok_iff {src : List UInt8} {f : FieldSet} :
    decode src = .ok f ↔ (readRecords src).fault = none ∧
      (∀ r ∈ (readRecords src).records, r.type.lengthRule.admits r.value.length) ∧
      f = ofRecords (readRecords src).records := by
  rw [decode_eq_decodeSpec, decodeSpec]
  rcases hfind : (readRecords src).records.find?
      (fun r => !r.type.lengthRule.admits r.value.length) with _ | r
  · have hadm := admits_of_find?_eq_none hfind
    simp only [hfind]
    cases (readRecords src).fault with
    | some e => simp
    | none =>
        simp only [Except.ok.injEq, true_and]
        exact ⟨fun h => ⟨hadm, h.symm⟩, fun h => h.2.symm⟩
  · obtain ⟨hbad, pre, post, hsplit, -⟩ := List.find?_eq_some_iff_append.1 hfind
    have hmem : r ∈ (readRecords src).records := by simp [hsplit]
    simp only [hfind, reduceCtorEq, false_iff, not_and]
    intro _ hadm
    simp [hadm r hmem] at hbad

end FieldSet

end AdvertisingData
