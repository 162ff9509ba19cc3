import AdvertisingData.Proofs.Entries
import AdvertisingData.Fields.Encode
import Mathlib
/-!
# What encoding writes, and when it succeeds

Encoding writes one record for each entry it writes, in slot order, with strictly increasing
type codes (`FieldSet.codes_records_pairwise_lt`).  `FieldSet.encodeInto_eq_ok_iff` says when it
succeeds: the values pass its checks, the source gives a level when one is needed, every value
fits the length byte and the records together fit the room.  The writer's side is
`Writer.build_of_fits`, the field set's side `FieldSet.plan_results`.
-/

namespace AdvertisingData

namespace Writer

/-- Steps that all give records, each fitting the length byte and all together the room left,
are all written: the build ends without a fault, the records after the bytes already there. -/
theorem build_of_fits {w : Writer} {steps : List PlanStep} {rs : List Record}
    (hres : steps.map (·.result) = rs.map .ok) (hbyte : ∀ r ∈ rs, r.value.length + 1 ≤ 255)
    (hfit : w.len + (rs.map fun r => r.value.length + 2).sum ≤ w.limit) :
    (w.build steps).fault = none ∧
      (w.build steps).writer.bytes = w.bytes ++ rs.flatMap Record.wire := by
  induction steps generalizing w rs with
  | nil =>
      obtain rfl : rs = [] := by simpa [eq_comm] using hres
      simp [build]
  | cons st steps ih =>
      obtain ⟨r, rs, rfl⟩ : ∃ r rs', rs = r :: rs' := by
        cases rs with
        | nil => simp at hres
        | cons r rs => exact ⟨r, rs, rfl⟩
      simp only [List.map_cons, List.cons.injEq] at hres
      obtain ⟨hst, hres⟩ := hres
      simp only [List.map_cons, List.sum_cons] at hfit
      have hfits : r.value.length + 1 ≤ 255 ∧ w.required r.value.length ≤ w.limit := by
        refine ⟨hbyte r List.mem_cons_self, ?_⟩
        simp only [required]
        omega
      have ih' := ih (w := { w with bytes := w.bytes ++ r.wire }) hres
        (fun r' hr' => hbyte r' (List.mem_cons_of_mem r hr'))
        (by simp only [len, List.length_append, Record.length_wire] at hfit ⊢; omega)
      simp only [build, hst, writeRecord_of_fits hfits]
      simpa using ih'

/-- A build from a writer within its limit that ends without a fault had a record at every
step, each fitting the length byte and all together the room left. -/
theorem exists_records_of_build {w : Writer} {steps : List PlanStep} (hw : w.len ≤ w.limit)
    (h : (w.build steps).fault = none) :
    ∃ rs : List Record, steps.map (·.result) = rs.map .ok ∧
      (∀ r ∈ rs, r.value.length + 1 ≤ 255) ∧
      w.len + (rs.map fun r => r.value.length + 2).sum ≤ w.limit := by
  induction steps generalizing w with
  | nil => exact ⟨[], rfl, by simp, by simpa using hw⟩
  | cons st steps ih =>
      cases hst : st.result with
      | error f => simp [build, hst] at h
      | ok r =>
          by_cases hfits : r.value.length + 1 ≤ 255 ∧ w.required r.value.length ≤ w.limit
          · simp only [build, hst, writeRecord_of_fits hfits] at h
            have hw' : ({ w with bytes := w.bytes ++ r.wire } : Writer).len ≤ w.limit := by
              simp only [len, required, List.length_append, Record.length_wire] at hfits ⊢
              omega
            obtain ⟨rs, hres, hbyte, hfit⟩ := ih hw' h
            refine ⟨r :: rs, by simp [hst, hres], List.forall_mem_cons.2 ⟨hfits.1, hbyte⟩, ?_⟩
            simp only [len, List.length_append, Record.length_wire] at hfit
            simp only [len, List.map_cons, List.sum_cons]
            omega
          · simp [build, hst, writeRecord_of_not_fits hfits] at h

end Writer

namespace Field

/-- The record an entry is written as, or the fault encoding reports for it: a value that breaks
its type's length rule is refused with the type code and the value length. -/
def check (fld : Field) : Except Fault Record :=
  if fld.record.type.lengthRule.admits fld.record.value.length then .ok fld.record
  else .error (.badLength fld.record.type.code fld.record.value.length)

theorem map_check_eq_map_ok {flds : List Field} {rs : List Record} :
    flds.map check = rs.map .ok ↔
      rs = flds.map record ∧ ∀ fld ∈ flds, fld.record.type.lengthRule.admits fld.record.value.length := by
  induction flds generalizing rs with
  | nil => cases rs <;> simp
  | cons fld flds ih =>
      cases rs with
      | nil => simp
      | cons r rs =>
          by_cases hadm : fld.record.type.lengthRule.admits fld.record.value.length
          · simp only [List.map_cons, List.cons.injEq, check, hadm, if_true, Except.ok.injEq, ih,
              List.forall_mem_cons, true_and]
            constructor
            · rintro ⟨hr, hrs, hall⟩
              exact ⟨⟨hr.symm, hrs⟩, hall⟩
            · rintro ⟨⟨hr, hrs⟩, hall⟩
              exact ⟨hr.symm, hrs, hall⟩
          · simp [check, hadm]

end Field

namespace PlanStep

@[simp] theorem result_write (type : AdType) (value : List UInt8) :
    (write type value).result = .ok ⟨type, value⟩ := rfl

@[simp] theorem result_checked (type : AdType) (value : List UInt8) (ok : Bool) :
    (checked type value ok).result =
      if ok then .ok ⟨type, value⟩ else .error (.badLength type.code value.length) := by
  unfold checked
  split <;> rfl

end PlanStep

namespace FieldSet

def writtenEntries (s : FieldSet) (level : Int8) : List Field :=
  Slot.all.filterMap fun k => (s.entry level k).filter Field.isWritten

/-- The records a field set is written as, in order: one for each entry encoding writes, with a
transmit power level left to the source read as `level`. -/
def records (s : FieldSet) (level : Int8) : List Record :=
  (s.writtenEntries level).map Field.record

/-- The checks encoding makes on the values it writes: 128-bit UUIDs and public target addresses
come whole, and service data holds at least its UUID.  Empty values are not written, and pass. -/
def LengthsValid (s : FieldSet) : Prop :=
  (∀ l, s.uuids128 = some l → l.bytes ≠ [] → l.bytes.length % 16 = 0) ∧
  (∀ d, s.publicTargets = some d → d ≠ [] → d.length % 6 = 0) ∧
  (∀ d, s.serviceData16 = some d → d ≠ [] → 2 ≤ d.length) ∧
  (∀ d, s.serviceData32 = some d → d ≠ [] → 4 ≤ d.length) ∧
  (∀ d, s.serviceData128 = some d → d ≠ [] → 16 ≤ d.length)

/-- The step encoding takes for an entry it writes: the entry's check, except that a transmit
power level left to the source is the source's answer, and reading it consults the source. -/
def stepOf (s : FieldSet) (tx : TxPowerSource) (fld : Field) : PlanStep :=
  if fld.slot = .txPowerLevel ∧ s.txPowerLevel = some .auto then
    ⟨match tx.read with
      | .ok l => .ok ⟨.txPowerLevel, [l.toUInt8]⟩
      | .error f => .error (.txPower f), true⟩
  else ⟨fld.check, false⟩

theorem stepOf_of_ne {s : FieldSet} (tx : TxPowerSource) {fld : Field}
    (h : fld.slot ≠ .txPowerLevel) : s.stepOf tx fld = ⟨fld.check, false⟩ := by
  simp [stepOf, h]

theorem planBytes_eq_map (s : FieldSet) (tx : TxPowerSource) (type : AdType) (chk : Nat → Bool)
    (C : List UInt8 → Field) (o : Option (List UInt8))
    (hrec : ∀ d, (C d).record = ⟨type, d⟩) (hwr : ∀ d, (C d).isWritten = !d.isEmpty)
    (hchk : ∀ n, chk n = type.lengthRule.admits n) (hslot : ∀ d, (C d).slot ≠ .txPowerLevel) :
    planBytes type chk o = ((o.map C).filter Field.isWritten).toList.map (s.stepOf tx) := by
  rcases o with _ | _ | ⟨b, bs⟩
  · rfl
  · simp [planBytes, hwr, Option.filter_some]
  · simp only [planBytes, Option.map_some, Option.filter_some, hwr, List.isEmpty_cons,
      Bool.not_false, if_true, Option.toList_some, List.map_cons, List.map_nil,
      stepOf_of_ne tx (hslot _), Field.check, hrec, hchk, PlanStep.checked]
    split <;> rfl

theorem planFixed_eq_map {β : Type} (s : FieldSet) (tx : TxPowerSource) (type : AdType)
    (f : β → List UInt8) (C : β → Field) (o : Option β)
    (hrec : ∀ b, (C b).record = ⟨type, f b⟩) (hwr : ∀ b, (C b).isWritten = true)
    (hadm : ∀ b, type.lengthRule.admits (f b).length) (hslot : ∀ b, (C b).slot ≠ .txPowerLevel) :
    (o.map fun b => PlanStep.write type (f b)).toList =
      ((o.map C).filter Field.isWritten).toList.map (s.stepOf tx) := by
  rcases o with _ | b
  · rfl
  · simp [hwr, hrec, hadm, Field.check, Option.filter_some, stepOf_of_ne tx (hslot b),
      PlanStep.write]

/-- The plan is one step for each entry encoding writes, in order: its check, or the source's
answer for a transmit power level left to the source. -/
theorem plan_eq_map (s : FieldSet) (tx : TxPowerSource) (level : Int8) :
    s.plan tx = (s.writtenEntries level).map (s.stepOf tx) := by
  rw [writtenEntries, List.filterMap_eq_flatMap_toList, List.map_flatMap]
  obtain ⟨flags, uuids16, uuids32, uuids128, name, txPowerLevel, deviceClass, connIntervalRange,
    serviceData16, publicTargets, appearance, advInterval, leAddress, leRole, serviceData32,
    serviceData128, uri, manufacturerData⟩ := s
  unfold plan
  simp only [Slot.all, List.flatMap_cons, List.flatMap_nil, List.append_nil, List.append_assoc]
  -- one goal per slot, in the order of `Slot.all`
  repeat' apply congrArg₂ (· ++ ·)
  · rcases flags with _ | _ | f
    · rfl
    · rfl
    · by_cases hf : f.isEmpty <;>
        simp [entry, planFlags, hf, stepOf, Field.check, Field.record, Field.isWritten, Field.slot,
          AdType.lengthRule, LengthRule.admits, Option.filter_some, PlanStep.write]
  · rcases uuids16 with _ | ⟨_ | ⟨u, us⟩, c⟩ <;>
      simp [entry, stepOf, Field.check, Field.record, Field.isWritten, Field.slot,
        LengthRule.admits, Option.filter_some, PlanStep.write]
  · rcases uuids32 with _ | ⟨_ | ⟨u, us⟩, c⟩ <;>
      simp [entry, stepOf, Field.check, Field.record, Field.isWritten, Field.slot,
        LengthRule.admits, Option.filter_some, PlanStep.write]
  · rcases uuids128 with _ | ⟨bytes, c⟩
    · rfl
    · exact planBytes_eq_map _ tx _ _ (fun b => .uuids128 ⟨b, c⟩) (some bytes) (fun _ => rfl)
        (fun _ => rfl) (fun _ => by simp [LengthRule.admits]) (fun _ => by simp [Field.slot])
  · rcases name with _ | ⟨bytes, c⟩
    · rfl
    · exact planBytes_eq_map _ tx _ _ (fun b => .name ⟨b, c⟩) (some bytes) (fun _ => rfl)
        (fun _ => rfl) (fun _ => by simp [LengthRule.admits]) (fun _ => by simp [Field.slot])
  · rcases txPowerLevel with _ | _ | v
    · rfl
    · simp only [planTxPower, entry, Option.map_some, Option.filter_some, Field.isWritten,
        if_true, Option.toList_some, List.map_cons, List.map_nil, stepOf, Field.slot, and_self]
      rcases htx : tx.read with f | l <;> rfl
    · simp [entry, planTxPower, stepOf, Field.check, Field.record, Field.isWritten, Field.slot,
        AdType.lengthRule, LengthRule.admits, Option.filter_some, PlanStep.write]
  · exact planFixed_eq_map _ tx _ _ Field.deviceClass _ (fun _ => rfl) (fun _ => rfl)
      (fun b => by simp [AdType.lengthRule, LengthRule.admits, b.length_toList])
      (fun _ => by simp [Field.slot])
  · exact planFixed_eq_map _ tx _ _ Field.connIntervalRange _ (fun _ => rfl) (fun _ => rfl)
      (fun b => by simp [AdType.lengthRule, LengthRule.admits, b.length_toList])
      (fun _ => by simp [Field.slot])
  · exact planBytes_eq_map _ tx _ _ _ _ (fun _ => rfl) (fun _ => rfl) (fun _ => rfl)
      (fun _ => by simp [Field.slot])
  · exact planBytes_eq_map _ tx _ _ _ _ (fun _ => rfl) (fun _ => rfl) (fun _ => rfl)
      (fun _ => by simp [Field.slot])
  · exact planFixed_eq_map _ tx _ _ Field.appearance _ (fun _ => rfl) (fun _ => rfl)
      (fun _ => by simp [AdType.lengthRule, LengthRule.admits]) (fun _ => by simp [Field.slot])
  · exact planFixed_eq_map _ tx _ _ Field.advInterval _ (fun _ => rfl) (fun _ => rfl)
      (fun _ => by simp [AdType.lengthRule, LengthRule.admits]) (fun _ => by simp [Field.slot])
  · exact planFixed_eq_map _ tx _ _ Field.leAddress _ (fun _ => rfl) (fun _ => rfl)
      (fun b => by simp [AdType.lengthRule, LengthRule.admits, b.length_toList])
      (fun _ => by simp [Field.slot])
  · exact planFixed_eq_map _ tx _ (fun v => [v]) Field.leRole _ (fun _ => rfl) (fun _ => rfl)
      (fun _ => rfl) (fun _ => by simp [Field.slot])
  · exact planBytes_eq_map _ tx _ _ _ _ (fun _ => rfl) (fun _ => rfl) (fun _ => rfl)
      (fun _ => by simp [Field.slot])
  · exact planBytes_eq_map _ tx _ _ _ _ (fun _ => rfl) (fun _ => rfl) (fun _ => rfl)
      (fun _ => by simp [Field.slot])
  · exact planBytes_eq_map _ tx _ _ _ _ (fun _ => rfl) (fun _ => rfl) (fun _ => rfl)
      (fun _ => by simp [Field.slot])
  · exact planBytes_eq_map _ tx _ _ _ _ (fun _ => rfl) (fun _ => rfl) (fun _ => rfl)
      (fun _ => by simp [Field.slot])

theorem entry_slot_of_mem {s : FieldSet} {level : Int8} {fld : Field}
    (h : fld ∈ s.writtenEntries level) : s.entry level fld.slot = some fld := by
  obtain ⟨k, -, hk⟩ := List.mem_filterMap.mp h
  obtain ⟨hk, -⟩ := Option.filter_eq_some_iff.mp hk
  rw [slot_of_entry hk]
  exact hk

theorem eq_txPowerLevel_of_mem {s : FieldSet} {level : Int8} {fld : Field}
    (hmem : fld ∈ s.writtenEntries level) (hslot : fld.slot = .txPowerLevel)
    (hauto : s.txPowerLevel = some .auto) : fld = .txPowerLevel level := by
  have he := entry_slot_of_mem hmem
  rw [hslot] at he
  simpa [entry, hauto] using he.symm

theorem plan_results (s : FieldSet) (tx : TxPowerSource) (level : Int8)
    (hl : s.txPowerLevel = some .auto → tx.read = .ok level) :
    (s.plan tx).map (·.result) = (s.writtenEntries level).map Field.check := by
  rw [plan_eq_map s tx level, List.map_map]
  refine List.map_congr_left fun fld hmem => ?_
  simp only [Function.comp_apply, stepOf]
  split
  · -- the level left to the source, which gives `level`
    rename_i htx
    obtain rfl := eq_txPowerLevel_of_mem hmem htx.1 htx.2
    simp [hl htx.2, Field.check, Field.record, AdType.lengthRule, LengthRule.admits]
  · rfl

/-- The checks encoding makes are the length rules of the records it writes. -/
theorem lengthsValid_iff (s : FieldSet) (level : Int8) :
    s.LengthsValid ↔
      ∀ fld ∈ s.writtenEntries level, fld.record.type.lengthRule.admits fld.record.value.length := by
  simp only [writtenEntries, List.mem_filterMap, forall_exists_index, and_imp]
  constructor
  · rintro ⟨h128, hpt, h16, h32, h128'⟩ fld k - hk
    cases k <;> simp only [entry, Option.filter_eq_some_iff, Option.map_eq_some_iff] at hk
    case flags =>
      obtain ⟨hf, -⟩ := hk
      split at hf <;> cases hf
      rfl
    case txPowerLevel =>
      obtain ⟨⟨t, -, rfl⟩, -⟩ := hk
      cases t <;> rfl
    case uuids128 =>
      obtain ⟨⟨l, hl, rfl⟩, hw⟩ := hk
      simpa [Field.record, LengthRule.admits] using h128 l hl (by simpa [Field.isWritten] using hw)
    case publicTargets =>
      obtain ⟨⟨d, hd, rfl⟩, hw⟩ := hk
      simpa [Field.record, AdType.lengthRule, LengthRule.admits] using
        hpt d hd (by simpa [Field.isWritten] using hw)
    case serviceData16 =>
      obtain ⟨⟨d, hd, rfl⟩, hw⟩ := hk
      simpa [Field.record, AdType.lengthRule, LengthRule.admits] using
        h16 d hd (by simpa [Field.isWritten] using hw)
    case serviceData32 =>
      obtain ⟨⟨d, hd, rfl⟩, hw⟩ := hk
      simpa [Field.record, AdType.lengthRule, LengthRule.admits] using
        h32 d hd (by simpa [Field.isWritten] using hw)
    case serviceData128 =>
      obtain ⟨⟨d, hd, rfl⟩, hw⟩ := hk
      simpa [Field.record, AdType.lengthRule, LengthRule.admits] using
        h128' d hd (by simpa [Field.isWritten] using hw)
    case uuids16 | uuids32 | name =>
      obtain ⟨⟨a, -, rfl⟩, -⟩ := hk
      simp [Field.record, LengthRule.admits]
    all_goals
      obtain ⟨⟨a, -, rfl⟩, -⟩ := hk
      simp [Field.record, AdType.lengthRule, LengthRule.admits, FixedBytes.length_toList]
  · intro h
    have hslot : ∀ k fld, s.entry level k = some fld → fld.isWritten →
        fld.record.type.lengthRule.admits fld.record.value.length := fun k fld he hw =>
      h fld k (Slot.mem_all k) (by simp [he, Option.filter_some, hw])
    refine ⟨?_, ?_, ?_, ?_, ?_⟩
    · intro l hl hne
      simpa [Field.record, LengthRule.admits] using
        hslot .uuids128 (.uuids128 l) (by simp [entry, hl]) (by simpa [Field.isWritten] using hne)
    · intro d hd hne
      simpa [Field.record, AdType.lengthRule, LengthRule.admits] using
        hslot .publicTargets (.publicTargets d) (by simp [entry, hd]) (by simpa [Field.isWritten] using hne)
    · intro d hd hne
      simpa [Field.record, AdType.lengthRule, LengthRule.admits] using
        hslot .serviceData16 (.serviceData16 d) (by simp [entry, hd]) (by simpa [Field.isWritten] using hne)
    · intro d hd hne
      simpa [Field.record, AdType.lengthRule, LengthRule.admits] using
        hslot .serviceData32 (.serviceData32 d) (by simp [entry, hd]) (by simpa [Field.isWritten] using hne)
    · intro d hd hne
      simpa [Field.record, AdType.lengthRule, LengthRule.admits] using
        hslot .serviceData128 (.serviceData128 d) (by simp [entry, hd]) (by simpa [Field.isWritten] using hne)
theorem lengthsValid_iff_records (s : FieldSet) (level : Int8) :
    s.LengthsValid ↔ ∀ r ∈ s.records level, r.type.lengthRule.admits r.value.length := by
  rw [lengthsValid_iff s level, records, List.forall_mem_map]

theorem txPower_error_mem_plan {s : FieldSet} {tx : TxPowerSource} {f : TxPowerFault}
    (hauto : s.txPowerLevel = some .auto) (hread : tx.read = .error f) :
    .error (.txPower f) ∈ (s.plan tx).map (·.result) := by
  unfold plan
  simp [planTxPower, hauto, hread]

theorem entry_eq_of_ne_auto {s : FieldSet} (h : s.txPowerLevel ≠ some .auto) (level level' : Int8)
    (k : Slot) : s.entry level k = s.entry level' k := by
  cases k
  case txPowerLevel =>
    rcases htx : s.txPowerLevel with _ | _ | v
    · simp [entry, htx]
    · exact absurd htx h
    · simp [entry, htx]
  all_goals rfl

/-- The written records come in strictly increasing order of type code. -/
theorem codes_records_pairwise_lt (s : FieldSet) (level : Int8) :
    ((s.records level).map (·.type.code.toNat)).Pairwise (· < ·) := by
  rw [records, List.map_map, List.pairwise_map, writtenEntries]
  apply Slot.pairwise_all_codeRange.filterMap
  intro k k' hlt fld hfld fld' hfld'
  have hk : fld.slot = k := slot_of_entry (Option.filter_eq_some_iff.1 hfld).1
  have hk' : fld'.slot = k' := slot_of_entry (Option.filter_eq_some_iff.1 hfld').1
  have h1 := AdType.code_mem_codeRange (Field.slot_record_type fld)
  have h2 := AdType.code_mem_codeRange (Field.slot_record_type fld')
  rw [hk] at h1
  rw [hk'] at h2
  simp only [Function.comp_apply]
  omega

/-- Encoding into a buffer of `capacity` bytes limited to `maxLen` succeeds exactly when the
values pass encoding's checks, the source gives a level if one is needed, every value fits the
length byte and all records fit in the smaller of the limit and the buffer; the payload is then
the written records one after the other. -/
theorem encodeInto_eq_ok_iff (s : FieldSet) (tx : TxPowerSource) (capacity maxLen : Nat)
    (bs : List UInt8) :
    s.encodeInto capacity maxLen tx = .ok bs ↔
      ∃ level, (s.txPowerLevel = some .auto → tx.read = .ok level) ∧ s.LengthsValid ∧
        (∀ r ∈ s.records level, r.value.length ≤ 254) ∧
        ((s.records level).map fun r => r.value.length + 2).sum ≤ min maxLen capacity ∧
        bs = (s.records level).flatMap Record.wire := by
  have hw : (Writer.create capacity (some maxLen)).len ≤
      (Writer.create capacity (some maxLen)).limit := by simp
  have hok : s.encodeInto capacity maxLen tx = .ok bs ↔
      (s.encode (Writer.create capacity (some maxLen)) tx).fault = none ∧
        (s.encode (Writer.create capacity (some maxLen)) tx).writer.bytes = bs := by
    unfold encodeInto
    rcases h : (s.encode (Writer.create capacity (some maxLen)) tx).fault with _ | f <;> simp [h]
  rw [hok, encode]
  constructor
  · rintro ⟨hfault, hbs⟩
    obtain ⟨rs, hres, hbyte, hsum⟩ := Writer.exists_records_of_build hw hfault
    -- the level the source gives, when the plan asks it for one
    obtain ⟨level, hl⟩ : ∃ level, s.txPowerLevel = some .auto → tx.read = .ok level := by
      by_cases hauto : s.txPowerLevel = some .auto
      · cases hread : tx.read with
        | error f =>
            have hmem := txPower_error_mem_plan hauto hread
            rw [hres] at hmem
            simp at hmem
        | ok l => exact ⟨l, fun _ => rfl⟩
      · exact ⟨0, fun h => absurd h hauto⟩
    have hres' := hres
    rw [plan_results s tx level hl, Field.map_check_eq_map_ok] at hres'
    obtain ⟨rfl, hadm⟩ := hres'
    refine ⟨level, hl, (lengthsValid_iff s level).2 hadm, ?_, ?_, ?_⟩
    · intro r hr
      have := hbyte r hr
      omega
    · simpa [Writer.create, Writer.len, records] using hsum
    · rw [← hbs, (Writer.build_of_fits hres hbyte hsum).2]
      simp [Writer.create, records]
  · rintro ⟨level, hl, hvalid, hbyte, hsum, rfl⟩
    have hres : (s.plan tx).map (·.result) = (s.records level).map .ok := by
      rw [plan_results s tx level hl]
      exact Field.map_check_eq_map_ok.2 ⟨rfl, (lengthsValid_iff s level).1 hvalid⟩
    have hbuild := Writer.build_of_fits (w := Writer.create capacity (some maxLen)) hres
      (fun r hr => by have := hbyte r hr; omega)
      (by simpa [Writer.create, Writer.len] using hsum)
    exact ⟨hbuild.1, by simpa [Writer.create] using hbuild.2⟩

/-- Encoding succeeds exactly when the values pass encoding's checks, the source gives a level
when one is needed, every value fits the length byte and the records fit in the smaller of the
limit and the buffer; the payload is then the written records, in strictly increasing order of
type code, and the same whatever the limit and the buffer. -/
theorem encodeInto_eq_ok_iff_records_fit (s : FieldSet) (tx : TxPowerSource) :
    (∀ capacity maxLen bs, s.encodeInto capacity maxLen tx = .ok bs ↔
      ∃ level, (s.txPowerLevel = some .auto → tx.read = .ok level) ∧ s.LengthsValid ∧
        (∀ r ∈ s.records level, r.value.length ≤ 254) ∧
        ((s.records level).map fun r => r.value.length + 2).sum ≤ min maxLen capacity ∧
        bs = (s.records level).flatMap Record.wire) ∧
    (∀ level, ((s.records level).map (·.type.code.toNat)).Pairwise (· < ·)) ∧
    (∀ capacity maxLen bs capacity' maxLen' bs', s.encodeInto capacity maxLen tx = .ok bs →
      s.encodeInto capacity' maxLen' tx = .ok bs' → bs = bs') := by
  refine ⟨encodeInto_eq_ok_iff s tx, codes_records_pairwise_lt s, ?_⟩
  intro capacity maxLen bs capacity' maxLen' bs' h h'
  obtain ⟨level, hl, -, -, -, rfl⟩ := (encodeInto_eq_ok_iff s tx _ _ _).1 h
  obtain ⟨level', hl', -, -, -, rfl⟩ := (encodeInto_eq_ok_iff s tx _ _ _).1 h'
  -- the two levels agree when the entry is left to the source, and do not matter otherwise
  by_cases hauto : s.txPowerLevel = some .auto
  · have hsame : level = level' := by
      have := (hl hauto).symm.trans (hl' hauto)
      simpa using this
    rw [hsame]
  · simp only [records, writtenEntries, entry_eq_of_ne_auto hauto level level']

end FieldSet

end AdvertisingData
