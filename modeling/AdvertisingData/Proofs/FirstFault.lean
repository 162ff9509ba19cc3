import AdvertisingData.Proofs.Cursor
import AdvertisingData.Proofs.Encode
import Mathlib
/-!
# Encoding stops at its first fault

Every list of steps is a run of steps whose records fit one after the other, then nothing or a
step that meets a fault (`Cursor.exists_first_fault`).  A build writes the run whole and stops at
that step, storing nothing more.  For a field set the run is its first entries, each written as
its own record, and the transmit power source is consulted once if its entry is reached and
never otherwise (`Cursor.encode_stops_at_first_fault`).
-/

namespace AdvertisingData

namespace PlanStep

/-- The fault a step meets with `len` bytes written under `limit`, if it meets one: its own when it
gives no record, the writer's when its record does not fit. -/
def faultAt (st : PlanStep) (len limit : Nat) : Option Fault :=
  match st.result with
  | .error f => some f
  | .ok r =>
    if r.value.length + 1 ≤ 255 ∧ len + 2 + r.value.length ≤ limit then none
    else some (.tooLarge (len + 2 + r.value.length) limit)

theorem faultAt_eq_none {st : PlanStep} {len limit : Nat} :
    st.faultAt len limit = none ↔
      ∃ r, st.result = .ok r ∧ r.value.length + 1 ≤ 255 ∧ len + 2 + r.value.length ≤ limit := by
  unfold faultAt
  split
  · simp_all
  · split <;> simp_all

end PlanStep

namespace Cursor

variable {c : Cursor}

theorem put_nil (c : Cursor) : c.put [] = c := by
  simp [put, Bytes.writeAt]

theorem build_cons_of_faultAt {st : PlanStep} {steps : List PlanStep} {f : Fault}
    (h : st.faultAt c.len c.limit = some f) :
    c.build (st :: steps) = ⟨c, some f, if st.readsSource then 1 else 0⟩ := by
  unfold PlanStep.faultAt at h
  split at h
  · cases h
    exact build_cons_of_error ‹_›
  · split at h
    · cases h
    · cases h
      exact build_cons_of_not_fits ‹_› ‹_›

theorem build_append_of_fits (hc : c.Valid) {pre rest : List PlanStep} {rs : List Record}
    (hres : pre.map (·.result) = rs.map .ok) (hbyte : ∀ r ∈ rs, r.value.length + 1 ≤ 255)
    (hfit : c.len + (rs.flatMap Record.wire).length ≤ c.limit) :
    c.build (pre ++ rest) =
      { (c.put (rs.flatMap Record.wire)).build rest with
        sourceReads := (pre.filter (·.readsSource)).length +
          ((c.put (rs.flatMap Record.wire)).build rest).sourceReads } := by
  induction pre generalizing c rs with
  | nil =>
    cases rs with
    | nil => simp [put_nil]
    | cons r rs => simp at hres
  | cons st pre ih =>
    cases rs with
    | nil => simp at hres
    | cons r rs =>
      simp only [List.map_cons, List.cons.injEq] at hres
      simp only [List.flatMap_cons, List.length_append, Record.length_wire] at hfit
      have hr : r.value.length + 1 ≤ 255 ∧ c.len + 2 + r.value.length ≤ c.limit :=
        ⟨hbyte r List.mem_cons_self, by omega⟩
      have hc' : (c.put r.wire).Valid :=
        (advance_put hc (by simp only [Record.length_wire]; omega)).valid hc
      rw [List.cons_append, build_cons_of_fits hres.1 hc.len_le_length hr,
        ih hc' hres.2 (fun r' h => hbyte r' (List.mem_cons_of_mem r h))
          (by simp only [len_put, limit_put, Record.length_wire]; omega),
        put_put _ _ hc.len_le_length, ← List.flatMap_cons]
      simp only [List.filter_cons]
      split
      · simp
        omega
      · simp

/-- Every list of steps is a run of steps giving records that fit one after the other, then either
nothing or a step that meets a fault right after them. -/
theorem exists_first_fault (len limit : Nat) (hlen : len ≤ limit) (steps : List PlanStep) :
    ∃ (pre rest : List PlanStep) (rs : List Record),
      steps = pre ++ rest ∧ pre.map (·.result) = rs.map .ok ∧
      (∀ r ∈ rs, r.value.length + 1 ≤ 255) ∧ len + (rs.flatMap Record.wire).length ≤ limit ∧
      (rest = [] ∨ ∃ st post f, rest = st :: post ∧
        st.faultAt (len + (rs.flatMap Record.wire).length) limit = some f) := by
  induction steps generalizing len with
  | nil => exact ⟨[], [], [], rfl, rfl, by simp, by simpa using hlen, .inl rfl⟩
  | cons st steps ih =>
    cases hf : st.faultAt len limit with
    | some f => exact ⟨[], st :: steps, [], rfl, rfl, by simp, by simpa using hlen,
        .inr ⟨st, steps, f, rfl, by simpa using hf⟩⟩
    | none =>
      -- the step gives a record that fits: it joins the run
      obtain ⟨r, hr, hbyte, hfit⟩ := PlanStep.faultAt_eq_none.mp hf
      obtain ⟨pre, rest, rs, hsplit, hres, hbytes, hfits, hrest⟩ :=
        ih (len + r.wire.length) (by simp only [Record.length_wire]; omega)
      have hlen' : len + r.wire.length + (rs.flatMap Record.wire).length =
          len + ((r :: rs).flatMap Record.wire).length := by
        simp only [List.flatMap_cons, List.length_append]
        omega
      refine ⟨st :: pre, rest, r :: rs, by rw [hsplit, List.cons_append], ?_, ?_, ?_, ?_⟩
      · simp only [List.map_cons, hr, hres]
      · exact List.forall_mem_cons.mpr ⟨hbyte, hbytes⟩
      · rwa [← hlen']
      · rwa [← hlen']

/-- A build writes the records of its first `k` steps, which give records fitting one after the
other, and stops with the fault the next step meets right after them, if there is a next step. -/
theorem build_eq_put_take (hc : c.Valid) (steps : List PlanStep) :
    ∃ k ≤ steps.length, ∃ rs : List Record,
      (steps.take k).map (·.result) = rs.map .ok ∧ (∀ r ∈ rs, r.value.length + 1 ≤ 255) ∧
      c.len + (rs.flatMap Record.wire).length ≤ c.limit ∧
      (k < steps.length →
        steps[k]?.bind (·.faultAt (c.len + (rs.flatMap Record.wire).length) c.limit) ≠ none) ∧
      c.build steps =
        ⟨c.put (rs.flatMap Record.wire),
          steps[k]?.bind (·.faultAt (c.len + (rs.flatMap Record.wire).length) c.limit),
          ((steps.take (k + 1)).filter (·.readsSource)).length⟩ := by
  obtain ⟨pre, rest, rs, rfl, hres, hbyte, hfit, hrest⟩ :=
    exists_first_fault c.len c.limit hc.len_le_limit steps
  have hrun : (pre ++ rest).take pre.length = pre := List.take_left
  rcases hrest with rfl | ⟨st, post, f, rfl, hf⟩
  · -- every step gives a record that fits
    refine ⟨pre.length, by simp, rs, by rw [hrun]; exact hres, hbyte, hfit, by simp, ?_⟩
    rw [build_append_of_fits hc hres hbyte hfit, List.append_nil,
      List.take_of_length_le (by omega), List.getElem?_eq_none le_rfl]
    rfl
  · -- the run stops at `st`
    have hget : (pre ++ st :: post)[pre.length]? = some st := by
      rw [List.getElem?_append_right le_rfl, Nat.sub_self, List.getElem?_cons_zero]
    have htake : (pre ++ st :: post).take (pre.length + 1) = pre ++ [st] := by
      rw [List.take_length_add_append, List.take_succ_cons, List.take_zero]
    refine ⟨pre.length, by simp, rs, by rw [hrun]; exact hres, hbyte, hfit, fun _ => ?_, ?_⟩
    · rw [hget, Option.bind_some, hf]
      exact Option.some_ne_none f
    · rw [build_append_of_fits hc hres hbyte hfit,
        build_cons_of_faultAt (by simpa only [len_put, limit_put] using hf), htake, hget,
        Option.bind_some, hf, List.filter_append, List.length_append, List.filter_singleton]
      cases st.readsSource <;> rfl

end Cursor

namespace Field

theorem length_filter_take_slot {l : List Field} (hl : l.Pairwise (·.slot ≠ ·.slot)) {k : Slot}
    (hk : ∃ fld ∈ l, fld.slot = k) (n : Nat) :
    ((l.take n).filter (·.slot = k)).length = if l.findIdx (·.slot = k) < n then 1 else 0 := by
  induction l generalizing n with
  | nil => simp at hk
  | cons fld l ih =>
    rw [List.pairwise_cons] at hl
    rcases n with _ | n
    · simp
    · by_cases hfk : fld.slot = k
      · -- no later entry has slot `k`
        have hnone : (l.take n).filter (·.slot = k) = [] := by
          rw [List.filter_eq_nil_iff]
          intro fld' hfld'
          have hne := hl.1 fld' (List.mem_of_mem_take hfld')
          rw [← hfk]
          simpa using hne.symm
        simp [hfk, hnone, List.findIdx_cons]
      · have hk' : ∃ fld ∈ l, fld.slot = k := by
          obtain ⟨fld', hmem, hslot⟩ := hk
          rcases List.mem_cons.mp hmem with rfl | hmem
          · exact absurd hslot hfk
          · exact ⟨fld', hmem, hslot⟩
        simp [hfk, List.findIdx_cons, ih hl.2 hk']

end Field

namespace FieldSet

variable {s : FieldSet} {level : Int8}

theorem pairwise_slot_writtenEntries (s : FieldSet) (level : Int8) :
    (s.writtenEntries level).Pairwise (·.slot ≠ ·.slot) := by
  refine List.Pairwise.filterMap _ ?_ Slot.nodup_all
  intro k k' hne fld hfld fld' hfld'
  rw [slot_of_entry (Option.filter_eq_some_iff.mp hfld).1,
    slot_of_entry (Option.filter_eq_some_iff.mp hfld').1]
  exact hne

theorem exists_mem_slot_txPowerLevel (h : s.txPowerLevel = some .auto) :
    ∃ fld ∈ s.writtenEntries level, fld.slot = .txPowerLevel :=
  ⟨.txPowerLevel level, List.mem_filterMap.mpr ⟨.txPowerLevel, Slot.mem_all _,
    by simp [entry, h, Field.isWritten, Option.filter_some]⟩, rfl⟩

theorem readsSource_stepOf (tx : TxPowerSource) (fld : Field) :
    (s.stepOf tx fld).readsSource =
      decide (fld.slot = .txPowerLevel ∧ s.txPowerLevel = some .auto) := by
  unfold stepOf
  split <;> simp_all

theorem length_filter_readsSource_take (s : FieldSet) (tx : TxPowerSource) (level : Int8)
    (n : Nat) :
    ((((s.writtenEntries level).take n).map (s.stepOf tx)).filter (·.readsSource)).length =
      if s.txPowerLevel = some .auto ∧
        (s.writtenEntries level).findIdx (·.slot = .txPowerLevel) < n then 1 else 0 := by
  rw [List.filter_map, List.length_map]
  by_cases hauto : s.txPowerLevel = some .auto
  · simp only [Function.comp_def, readsSource_stepOf, hauto, and_true]
    rw [Field.length_filter_take_slot (pairwise_slot_writtenEntries s level)
      (exists_mem_slot_txPowerLevel hauto)]
    simp
  · simp [Function.comp_def, readsSource_stepOf, hauto]

theorem result_stepOf_of_mem {tx : TxPowerSource} (hlevel : ∀ l, tx.read = .ok l → l = level)
    {fld : Field} (hmem : fld ∈ s.writtenEntries level) {r : Record}
    (h : (s.stepOf tx fld).result = .ok r) : r = fld.record := by
  unfold stepOf at h
  split at h
  · -- the level left to the source, read into the entries as `level`
    rename_i htx
    obtain rfl := eq_txPowerLevel_of_mem hmem htx.1 htx.2
    rcases hread : tx.read with e | l <;> simp only [hread] at h
    · cases h
    · cases h
      rw [hlevel l hread]
      rfl
  · unfold Field.check at h
    split at h
    · exact (Except.ok.inj h).symm
    · cases h

theorem map_result_stepOf_eq_map_ok {tx : TxPowerSource}
    (hlevel : ∀ l, tx.read = .ok l → l = level) {flds : List Field}
    (hsub : ∀ fld ∈ flds, fld ∈ s.writtenEntries level) {rs : List Record}
    (h : (flds.map (s.stepOf tx)).map (·.result) = rs.map .ok) :
    rs = flds.map Field.record ∧ ∀ fld ∈ flds, (s.stepOf tx fld).result = .ok fld.record := by
  induction flds generalizing rs with
  | nil => cases rs <;> simp_all
  | cons fld flds ih =>
    cases rs with
    | nil => simp at h
    | cons r rs =>
      simp only [List.map_cons, List.cons.injEq] at h
      have hr := result_stepOf_of_mem hlevel (hsub fld List.mem_cons_self) h.1
      obtain ⟨hrs, hok⟩ := ih (fun fld' h' => hsub fld' (List.mem_cons_of_mem fld h')) h.2
      subst hr hrs
      exact ⟨rfl, List.forall_mem_cons.mpr ⟨h.1, hok⟩⟩

/-- Why encoding stops at the entry `fld` with `len` bytes written under `limit`, with the fault
`f`. -/
inductive EntryFault (s : FieldSet) (tx : TxPowerSource) (len limit : Nat) : Field → Fault → Prop
  | refused {fld : Field} :
      ¬(fld.slot = .txPowerLevel ∧ s.txPowerLevel = some .auto) →
      ¬fld.record.type.lengthRule.admits fld.record.value.length →
      EntryFault s tx len limit fld (.badLength fld.record.type.code fld.record.value.length)
  | source {fld : Field} {e : TxPowerFault} :
      fld.slot = .txPowerLevel → s.txPowerLevel = some .auto → tx.read = .error e →
      EntryFault s tx len limit fld (.txPower e)
  | tooLarge {fld : Field} :
      (s.stepOf tx fld).result = .ok fld.record →
      ¬(fld.record.value.length + 1 ≤ 255 ∧ len + 2 + fld.record.value.length ≤ limit) →
      EntryFault s tx len limit fld (.tooLarge (len + 2 + fld.record.value.length) limit)

theorem entryFault_of_faultAt {tx : TxPowerSource} (hlevel : ∀ l, tx.read = .ok l → l = level)
    {fld : Field} (hmem : fld ∈ s.writtenEntries level) {len limit : Nat} {f : Fault}
    (h : (s.stepOf tx fld).faultAt len limit = some f) : EntryFault s tx len limit fld f := by
  unfold PlanStep.faultAt at h
  split at h
  · rename_i f' hres
    cases h
    unfold stepOf at hres
    split at hres
    · -- a transmit power level left to the source, which gave no level
      rename_i htx
      rcases hread : tx.read with e | l <;> simp only [hread] at hres
      · cases hres
        exact .source htx.1 htx.2 hread
      · cases hres
    · -- any other entry, refused by its check
      rename_i htx
      unfold Field.check at hres
      split at hres
      · cases hres
      · rename_i hadm
        cases hres
        exact .refused htx hadm
  · -- the step gave the entry's record, which does not fit
    rename_i r hres
    have hr := result_stepOf_of_mem hlevel hmem hres
    subst hr
    split at h
    · cases h
    · rename_i hfit
      cases h
      exact .tooLarge hres hfit

end FieldSet

namespace Cursor

/-- Encoding on a writer within its limit writes the records of the first `k` entries of the field
set in the fixed order, whole and one after the other after the bytes already written, each entry
having passed its step with its own record, and changes no byte of the buffer past them.  It
succeeds exactly when `k` is all the entries; otherwise it fails at the next entry, with the check's
refusal, the source's fault or the writer's size fault (`FieldSet.EntryFault`).  The source is
consulted once when the level is left to it and encoding reached its entry, and never otherwise.
The level read into the entries is the one the source gives, when it gives one. -/
theorem encode_stops_at_first_fault (c : Cursor) (hc : c.Valid) (s : FieldSet)
    (tx : TxPowerSource) (level : Int8) (hlevel : ∀ l, tx.read = .ok l → l = level) :
    ∃ k ≤ (s.writtenEntries level).length,
      (∀ fld ∈ (s.writtenEntries level).take k, (s.stepOf tx fld).result = .ok fld.record) ∧
      (c.encode s tx).cursor.bytes = c.bytes ++ ((s.records level).take k).flatMap Record.wire ∧
      (c.encode s tx).cursor.len =
        c.len + (((s.records level).take k).flatMap Record.wire).length ∧
      (c.encode s tx).cursor.len ≤ c.limit ∧
      (∀ i, (c.encode s tx).cursor.len ≤ i →
        (c.encode s tx).cursor.buffer[i]? = c.buffer[i]?) ∧
      ((c.encode s tx).fault = none ↔ k = (s.writtenEntries level).length) ∧
      (∀ f, (c.encode s tx).fault = some f → ∃ fld, (s.writtenEntries level)[k]? = some fld ∧
        s.EntryFault tx (c.encode s tx).cursor.len c.limit fld f) ∧
      (c.encode s tx).sourceReads =
        if s.txPowerLevel = some .auto ∧
          (s.writtenEntries level).findIdx (·.slot = .txPowerLevel) ≤ k then 1 else 0 := by
  obtain ⟨k, hk, rs, hres, -, hfit, hstops, hbuild⟩ :=
    build_eq_put_take hc ((s.writtenEntries level).map (s.stepOf tx))
  rw [List.length_map] at hk hstops
  rw [← List.map_take] at hres
  -- the records written are those of the first `k` entries
  obtain ⟨hrs, hok⟩ := FieldSet.map_result_stepOf_eq_map_ok hlevel
    (fun _ h => List.mem_of_mem_take h) hres
  have hrecs : (s.records level).take k = rs := by
    rw [FieldSet.records, ← List.map_take, hrs]
  rw [List.getElem?_map, Option.bind_map] at hstops hbuild
  rw [← List.map_take] at hbuild
  subst hrecs
  refine ⟨k, hk, hok, ?_, ?_, ?_, ?_, ?_, ?_, ?_⟩ <;>
    rw [encode, FieldSet.plan_eq_map s tx level, hbuild]
  · exact bytes_put _ hc.len_le_length
  · rfl
  · exact hfit
  · intro i hi
    exact (advance_put hc hfit).frame i (.inr hi)
  · -- past the last entry there is no step, and before it the step meets a fault
    constructor
    · intro hnone
      by_contra hne
      exact hstops (lt_of_le_of_ne hk hne) hnone
    · intro hkE
      rw [hkE, List.getElem?_eq_none le_rfl]
      rfl
  · intro f hf
    obtain ⟨fld, hfld, hfault⟩ := Option.bind_eq_some_iff.mp hf
    exact ⟨fld, hfld, FieldSet.entryFault_of_faultAt hlevel (List.mem_of_getElem? hfld) hfault⟩
  · rw [FieldSet.length_filter_readsSource_take]
    simp only [Nat.lt_succ_iff]

/-- Flags, then a transmit power level left to a source that gives none: the source is consulted
at most once. -/
theorem encode_stops_at_first_fault_unavailable :
    (create (List.replicate 31 0) none).Valid ∧
      (∀ l, TxPowerSource.unavailable.read = .ok l → l = 0) ∧
      ((create (List.replicate 31 0) none).encode
        { flags := some (.value ⟨4⟩), txPowerLevel := some .auto,
          manufacturerData := some [0x59, 0x00, 0x01] } .unavailable).sourceReads ≤ 1 := by
  have hvalid := valid_create (List.replicate 31 0) none
  have hlevel : ∀ l, TxPowerSource.unavailable.read = .ok l → l = 0 := by
    intro l h
    cases h
  obtain ⟨k, -, -, -, -, -, -, -, -, hreads⟩ :=
    encode_stops_at_first_fault _ hvalid
      { flags := some (.value ⟨4⟩), txPowerLevel := some .auto,
        manufacturerData := some [0x59, 0x00, 0x01] } .unavailable 0 hlevel
  refine ⟨hvalid, hlevel, ?_⟩
  rw [hreads]
  split <;> omega

end Cursor

end AdvertisingData
