import AdvertisingData.Proofs.Reader
/-!
# Decoding on a scratch

`FieldSet.parse` keeps the words of the 16- and 32-bit UUID lists at the front of two tables and
reads the lists out only after the last record.  Whatever the tables held before, a list written
at the front of one reads back as itself (`Table.front_writeFront`), so at every point of the run
the state read out is the field set the scratch-free decoder has built from the same records
(`ParseState.foldlM_step`).  Hence decoding on any scratch is `FieldSet.decode`, and both are the
simple reading `FieldSet.decodeSpec` (`FieldSet.parse_eq_decodeSpec`).
-/

namespace AdvertisingData

namespace Table

variable {α : Type} {n : Nat} {t t' : Table α n} {words : List α}

theorem exists_writeFront_of_le (t : Table α n) (h : words.length ≤ n) :
    ∃ t', t.writeFront words = some t' := by
  rw [writeFront, dif_pos h]
  exact ⟨_, rfl⟩

/-- Words written at the front of a table read back as themselves, whatever the table held. -/
theorem front_writeFront (h : t.writeFront words = some t') : t'.front words.length = words := by
  unfold writeFront at h
  split at h
  · rw [Option.some.injEq] at h
    subst h
    exact List.take_left' rfl
  · cases h

end Table

namespace ParseState

variable {st : ParseState}

@[simp] theorem finish_init (scratch : ParseScratch) : (init scratch).finish = {} := rfl

theorem put_eq_ok {fld : Field}
    (h16 : ∀ l, fld = .uuids16 l → l.uuids.length ≤ Record.maxValueLen / 2)
    (h32 : ∀ l, fld = .uuids32 l → l.uuids.length ≤ Record.maxValueLen / 4) :
    ∃ st', st.put fld = .ok st' ∧ st'.finish = st.finish.insert fld := by
  cases fld with
  | uuids16 l =>
      obtain ⟨_, hw⟩ := st.scratch.uuids16.exists_writeFront_of_le (h16 l rfl)
      refine ⟨_, by rw [put, hw], ?_⟩
      have hfront := Table.front_writeFront hw
      simp only [finish, Option.map_some, hfront, FieldSet.insert]
  | uuids32 l =>
      obtain ⟨_, hw⟩ := st.scratch.uuids32.exists_writeFront_of_le (h32 l rfl)
      refine ⟨_, by rw [put, hw], ?_⟩
      have hfront := Table.front_writeFront hw
      simp only [finish, Option.map_some, hfront, FieldSet.insert]
  | flags | uuids128 | name | txPowerLevel | deviceClass | connIntervalRange | serviceData16
    | publicTargets | appearance | advInterval | leAddress | leRole | serviceData32
    | serviceData128 | uri | manufacturerData => exact ⟨_, rfl, rfl⟩

/-- **The step lemma.**  A record of at most 29 value bytes is taken in as the scratch-free
decoder takes it: its fault, nothing for an unknown type, or its entry inserted. -/
theorem step_eq {r : Record} (hr : r.value.length ≤ Record.maxValueLen) :
    match Field.ofRecord r with
    | .error f => st.step r = .error (.fault f)
    | .ok none => st.step r = .ok st
    | .ok (some fld) => ∃ st', st.step r = .ok st' ∧ st'.finish = st.finish.insert fld := by
  unfold step
  cases hf : Field.ofRecord r with
  | error f => rfl
  | ok e =>
      cases e with
      | none => rfl
      | some fld =>
          -- a list read from a record of at most 29 bytes fits its table
          have hval : Field.ofValue r.type r.value = some fld := by
            unfold Field.ofRecord at hf
            split at hf
            · simpa using hf
            · cases hf
          apply put_eq_ok
          · rintro l rfl
            rw [Field.length_uuids_of_ofValue16 hval]
            exact Nat.div_le_div_right hr
          · rintro l rfl
            rw [Field.length_uuids_of_ofValue32 hval]
            exact Nat.div_le_div_right hr

/-- **The run lemma**, the scratch-prefix invariant carried along the records: over records of at
most 29 value bytes, the decoding stops with the fault of the first record that breaks its length
rule, and otherwise its state reads out, lists from the front of their tables, as the field set
the scratch-free fold builds from the entries, whatever the scratch held at the start. -/
theorem foldlM_step {rs : List Record} (hrs : ∀ r ∈ rs, r.value.length ≤ Record.maxValueLen)
    (st : ParseState) :
    (rs.foldlM step st).map finish =
      match rs.mapM Field.ofRecord with
      | .ok entries => .ok ((entries.filterMap id).foldl FieldSet.insert st.finish)
      | .error f => .error (.fault f) := by
  induction rs generalizing st with
  | nil => rfl
  | cons r rs ih =>
      have ih' := ih fun r' hr' => hrs r' (List.mem_cons_of_mem r hr')
      have hstep := @step_eq st r (hrs r List.mem_cons_self)
      rw [List.foldlM_cons, List.mapM_cons]
      cases hf : Field.ofRecord r with
      | error f =>
          rw [hf] at hstep
          simp only [hstep]
          rfl
      | ok e =>
          cases e with
          | none =>
              simp only [hf] at hstep
              rw [hstep]
              show Except.map finish (rs.foldlM step st) = _
              rw [ih' st]
              cases rs.mapM Field.ofRecord <;> rfl
          | some fld =>
              simp only [hf] at hstep
              obtain ⟨st', hst', hfin⟩ := hstep
              rw [hst']
              show Except.map finish (rs.foldlM step st') = _
              rw [ih' st', hfin]
              cases rs.mapM Field.ofRecord <;> rfl

end ParseState

namespace FieldSet

/-- Decoding on any scratch is the scratch-free decoding, with the same faults. -/
theorem parse_eq_decode (src : List UInt8) (scratch : ParseScratch) :
    parse src scratch = (decode src).mapError .fault := by
  have hrun := @ParseState.foldlM_step (readRecords src).records
    (fun _ hr => length_value_le_of_mem_readRecords hr) (ParseState.init scratch)
  rw [ParseState.finish_init] at hrun
  unfold parse decode
  dsimp only
  cases hm : (readRecords src).records.mapM Field.ofRecord with
  | error f =>
      rw [hm] at hrun
      cases hfold : (readRecords src).records.foldlM ParseState.step (ParseState.init scratch) with
      | error e =>
          rw [hfold] at hrun
          cases hrun
          rfl
      | ok st =>
          rw [hfold] at hrun
          cases hrun
  | ok entries =>
      rw [hm] at hrun
      cases hfold : (readRecords src).records.foldlM ParseState.step (ParseState.init scratch) with
      | error e =>
          rw [hfold] at hrun
          cases hrun
      | ok st =>
          rw [hfold] at hrun
          injection hrun with hfin
          cases (readRecords src).fault with
          | some f => rfl
          | none => exact congrArg Except.ok hfin

theorem mapError_eq_ok_iff {ε ε' α : Type} {g : ε → ε'} {x : Except ε α} {a : α} :
    x.mapError g = .ok a ↔ x = .ok a := by
  cases x <;> simp [Except.mapError]

/-- Decoding on a scratch, whatever the scratch holds, is the simple reading of the payload: the
fault of the first record, in payload order, that breaks its length rule or the framing, and
otherwise each entry read from the last record of its slot; the 16- and 32-bit UUID lists are the
little-endian words of the last such record, whatever an earlier list left in the scratch.  So it
succeeds exactly when the payload frames and every record meets its length rule. -/
theorem parse_eq_decodeSpec (src : List UInt8) (scratch : ParseScratch) :
    parse src scratch = (decodeSpec src).mapError .fault ∧
    ∀ f, parse src scratch = .ok f ↔ (readRecords src).fault = none ∧
      (∀ r ∈ (readRecords src).records, r.type.lengthRule.admits r.value.length) ∧
      f = ofRecords (readRecords src).records := by
  refine ⟨by rw [parse_eq_decode, decode_eq_decodeSpec], fun f => ?_⟩
  rw [parse_eq_decode, mapError_eq_ok_iff, decode_eq_ok_iff]

end FieldSet

end AdvertisingData
