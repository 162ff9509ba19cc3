import AdvertisingData.Session
import AdvertisingData.Proofs.Framing
import Mathlib
/-!
# The writer keeps to its buffer

A writer made over a buffer starts within its limit, its limit within the buffer
(`Cursor.Valid`), and every call, failing or not, moves it forward in one way only
(`Cursor.Advance`): the count of bytes written never drops nor passes the limit, and no byte
changes outside what the call wrote.  `Cursor.isChain_session` carries this along a session.
`Cursor.apply_write_all_or_nothing` gives the exact effect of one write, and
`Cursor.readRecords_written_framing` that records written one after the other read back.
-/

namespace AdvertisingData

namespace Cursor

variable {c c' c'' : Cursor}

/-- The representation invariant of a writer: what it has written is within its limit, and its
limit is within its buffer. -/
structure Valid (c : Cursor) : Prop where
  len_le_limit : c.len ≤ c.limit
  limit_le_length : c.limit ≤ c.buffer.length

theorem valid_create (dst : List UInt8) (maxLen : Option Nat) : (create dst maxLen).Valid := by
  constructor
  · simp
  · rw [limit_create, buffer_create]
    exact Nat.min_le_right _ _

theorem Valid.len_le_length (hc : c.Valid) : c.len ≤ c.buffer.length :=
  Nat.le_trans hc.len_le_limit hc.limit_le_length

/-- What one call may do to the writer under it: keep the limit and the buffer's size, stay
within the limit, never take back what was written, and change no byte of the buffer outside the
part it wrote. -/
structure Advance (c c' : Cursor) : Prop where
  limit_eq : c'.limit = c.limit
  length_eq : c'.buffer.length = c.buffer.length
  len_le : c.len ≤ c'.len
  len_le_limit : c'.len ≤ c'.limit
  frame : ∀ i, i < c.len ∨ c'.len ≤ i → c'.buffer[i]? = c.buffer[i]?

theorem Advance.refl (hc : c.Valid) : Advance c c :=
  ⟨rfl, rfl, Nat.le_refl _, hc.len_le_limit, fun _ _ => rfl⟩

theorem Advance.trans (h : Advance c c') (h' : Advance c' c'') : Advance c c'' where
  limit_eq := h'.limit_eq.trans h.limit_eq
  length_eq := h'.length_eq.trans h.length_eq
  len_le := Nat.le_trans h.len_le h'.len_le
  len_le_limit := h'.len_le_limit
  frame i hi := by
    rcases hi with hi | hi
    · rw [h'.frame i (.inl (Nat.lt_of_lt_of_le hi h.len_le)), h.frame i (.inl hi)]
    · rw [h'.frame i (.inr hi), h.frame i (.inr (Nat.le_trans h'.len_le hi))]

instance : Trans Advance Advance Advance := ⟨Advance.trans⟩

theorem Advance.valid (hc : c.Valid) (h : Advance c c') : c'.Valid where
  len_le_limit := h.len_le_limit
  limit_le_length := by
    rw [h.limit_eq, h.length_eq]
    exact hc.limit_le_length

/-- The bytes a writer has written are never altered by a later call. -/
theorem Advance.bytes_prefix (h : Advance c c') : c.bytes <+: c'.bytes := by
  have hfront : c'.buffer.take c.len = c.buffer.take c.len := by
    apply List.ext_getElem?
    intro i
    simp only [List.getElem?_take]
    split
    · exact h.frame i (.inl ‹_›)
    · rfl
  refine ⟨(c'.buffer.drop c.len).take (c'.len - c.len), ?_⟩
  rw [bytes, bytes, ← hfront, ← List.take_add]
  congr 1
  have := h.len_le
  omega

theorem advance_put (hc : c.Valid) {data : List UInt8} (h : c.len + data.length ≤ c.limit) :
    Advance c (c.put data) where
  limit_eq := rfl
  length_eq := length_buffer_put (Nat.le_trans h hc.limit_le_length)
  len_le := Nat.le_add_right _ _
  len_le_limit := h
  frame i hi := by
    rcases hi with hi | hi
    · exact Bytes.getElem?_writeAt_of_lt data hc.len_le_length hi
    · exact Bytes.getElem?_writeAt_of_le data hc.len_le_length hi

theorem len_le_length_put (hc : c.len ≤ c.buffer.length) (data : List UInt8) :
    (c.put data).len ≤ (c.put data).buffer.length := by
  simp only [len_put, buffer_put, Bytes.writeAt, List.length_append, List.length_take,
    List.length_drop]
  omega

theorem foldl_put {α : Type} (enc : α → List UInt8) (values : List α)
    (hc : c.len ≤ c.buffer.length) :
    values.foldl (fun c v => c.put (enc v)) c = c.put (values.flatMap enc) := by
  induction values generalizing c with
  | nil =>
      simp [put, Bytes.writeAt]
  | cons v vs ih =>
      rw [List.foldl_cons, ih (len_le_length_put hc (enc v)), put_put _ _ hc, List.flatMap_cons]

theorem writeFlat_of_fits {type : AdType} {data : List UInt8} (hc : c.len ≤ c.buffer.length)
    (h : data.length + 1 ≤ 255 ∧ c.len + 2 + data.length ≤ c.limit) :
    c.writeFlat type data = .ok (c.put (Record.wire ⟨type, data⟩)) := by
  simp only [writeFlat, writeHeader_of_fits h, bind, Except.bind, pure, Except.pure,
    put_put _ _ hc, Record.wire, List.cons_append, List.nil_append]

theorem writeFlat_of_not_fits {type : AdType} {data : List UInt8}
    (h : ¬(data.length + 1 ≤ 255 ∧ c.len + 2 + data.length ≤ c.limit)) :
    c.writeFlat type data = .error (.tooLarge (c.len + 2 + data.length) c.limit) := by
  simp only [writeFlat, writeHeader_of_not_fits h, bind, Except.bind]

theorem writeWords_eq_writeFlat {α : Type} {type : AdType} {width : Nat} {enc : α → List UInt8}
    (values : List α) (henc : ∀ v, (enc v).length = width) (hc : c.len ≤ c.buffer.length) :
    c.writeWords type width enc values = c.writeFlat type (values.flatMap enc) := by
  have hlen : (values.flatMap enc).length = values.length * width := by
    simp [List.length_flatMap, henc, Nat.mul_comm]
  by_cases h : values.length * width + 1 ≤ 255 ∧ c.len + 2 + values.length * width ≤ c.limit
  · have hc' := len_le_length_put hc [UInt8.ofNat (values.length * width + 1), type.code]
    rw [writeFlat_of_fits hc (hlen ▸ h), writeWords, writeHeader_of_fits h]
    simp only [bind, Except.bind, pure, Except.pure, foldl_put enc values hc', put_put _ _ hc,
      Record.wire, hlen, List.cons_append, List.nil_append]
  · rw [writeFlat_of_not_fits (hlen ▸ h), writeWords, writeHeader_of_not_fits h, hlen]
    rfl

/-! ### The cursor refines the writer -/

theorem len_toWriter (hc : c.len ≤ c.buffer.length) : c.toWriter.len = c.len := by
  simp only [toWriter, Writer.len, bytes, List.length_take]
  omega

theorem toWriter_put (hc : c.len ≤ c.buffer.length) (data : List UInt8) :
    (c.put data).toWriter = { c.toWriter with bytes := c.toWriter.bytes ++ data } := by
  simp only [toWriter, bytes_put data hc, limit_put]

theorem writeFlat_toWriter (hc : c.len ≤ c.buffer.length) (type : AdType) (data : List UInt8) :
    (c.writeFlat type data).map toWriter = c.toWriter.writeRecord ⟨type, data⟩ := by
  have hreq : c.toWriter.required data.length = c.len + 2 + data.length := by
    rw [Writer.required, len_toWriter hc]
  by_cases h : data.length + 1 ≤ 255 ∧ c.len + 2 + data.length ≤ c.limit
  · rw [writeFlat_of_fits hc h, Writer.writeRecord_of_fits (by rw [hreq]; exact h)]
    exact congrArg Except.ok (toWriter_put hc _)
  · rw [writeFlat_of_not_fits h, Writer.writeRecord_of_not_fits (by rw [hreq]; exact h), hreq]
    rfl

/-! ### Building on the buffer -/

section Build

variable {st : PlanStep} {steps : List PlanStep}

theorem build_cons_of_fits {r : Record} (hst : st.result = .ok r) (hc : c.len ≤ c.buffer.length)
    (h : r.value.length + 1 ≤ 255 ∧ c.len + 2 + r.value.length ≤ c.limit) :
    c.build (st :: steps) =
      let o := (c.put r.wire).build steps
      { o with sourceReads := (if st.readsSource then 1 else 0) + o.sourceReads } := by
  simp only [build, hst, writeFlat_of_fits hc h]

theorem build_cons_of_error {f : Fault} (hst : st.result = .error f) :
    c.build (st :: steps) = ⟨c, some f, if st.readsSource then 1 else 0⟩ := by
  simp only [build, hst]

theorem build_cons_of_not_fits {r : Record} (hst : st.result = .ok r)
    (h : ¬(r.value.length + 1 ≤ 255 ∧ c.len + 2 + r.value.length ≤ c.limit)) :
    c.build (st :: steps) =
      ⟨c, some (.tooLarge (c.len + 2 + r.value.length) c.limit), if st.readsSource then 1 else 0⟩ := by
  simp only [build, hst, writeFlat_of_not_fits h]

/-- A whole build moves the cursor forward: it only ever stores whole records that fit. -/
theorem advance_build (hc : c.Valid) (steps : List PlanStep) : Advance c (c.build steps).cursor := by
  induction steps generalizing c with
  | nil => exact .refl hc
  | cons st steps ih =>
      cases hst : st.result with
      | error f => rw [build_cons_of_error hst]; exact .refl hc
      | ok r =>
          by_cases h : r.value.length + 1 ≤ 255 ∧ c.len + 2 + r.value.length ≤ c.limit
          · have hput : Advance c (c.put r.wire) :=
              advance_put hc (by rw [Record.length_wire]; omega)
            rw [build_cons_of_fits hst hc.len_le_length h]
            exact hput.trans (ih (hput.valid hc))
          · rw [build_cons_of_not_fits hst h]
            exact .refl hc

theorem build_toBuildOutcome (hc : c.Valid) (steps : List PlanStep) :
    (c.build steps).toBuildOutcome = c.toWriter.build steps := by
  induction steps generalizing c with
  | nil => rfl
  | cons st steps ih =>
      have hreq : ∀ p, c.toWriter.required p = c.len + 2 + p := fun p => by
        rw [Writer.required, len_toWriter hc.len_le_length]
      cases hst : st.result with
      | error f =>
          rw [build_cons_of_error hst]
          simp [Writer.build, hst, Outcome.toBuildOutcome]
      | ok r =>
          by_cases h : r.value.length + 1 ≤ 255 ∧ c.len + 2 + r.value.length ≤ c.limit
          · have hput : Advance c (c.put r.wire) :=
              advance_put hc (by rw [Record.length_wire]; omega)
            rw [build_cons_of_fits hst hc.len_le_length h]
            simp only [Writer.build, hst,
              Writer.writeRecord_of_fits (show r.value.length + 1 ≤ 255 ∧
                c.toWriter.required r.value.length ≤ c.toWriter.limit by rw [hreq]; exact h)]
            rw [← toWriter_put hc.len_le_length, ← ih (hput.valid hc)]
            rfl
          · rw [build_cons_of_not_fits hst h]
            simp only [Writer.build, hst,
              Writer.writeRecord_of_not_fits (show ¬(r.value.length + 1 ≤ 255 ∧
                c.toWriter.required r.value.length ≤ c.toWriter.limit) by rw [hreq]; exact h), hreq]
            rfl

end Build

/-! ### Calls and sessions -/

private theorem except_bind_eq_ok {ε α β : Type} {x : Except ε α} {f : α → Except ε β} {b : β}
    (h : x >>= f = .ok b) : ∃ a, x = .ok a ∧ f a = .ok b := by
  cases x with
  | error e => cases h
  | ok a => exact ⟨a, rfl, h⟩

theorem advance_report (hc : c.Valid) {e : Except Fault Cursor}
    (h : ∀ c', e = .ok c' → Advance c c') : Advance c (c.report e).writer := by
  cases e with
  | ok c' => exact h c' rfl
  | error f => exact .refl hc

theorem advance_writeFlat (hc : c.Valid) {type : AdType} {data : List UInt8}
    (h : c.writeFlat type data = .ok c') : Advance c c' := by
  by_cases hfit : data.length + 1 ≤ 255 ∧ c.len + 2 + data.length ≤ c.limit
  · rw [writeFlat_of_fits hc.len_le_length hfit, Except.ok.injEq] at h
    subst h
    exact advance_put hc (by simp only [Record.length_wire]; omega)
  · rw [writeFlat_of_not_fits hfit] at h
    cases h

/-- **The step lemma.**  Every call, failing or not, moves a valid writer forward. -/
theorem advance_apply (hc : c.Valid) {call : WriterCall} {r : CallReport}
    (h : c.apply call = .ok r) : Advance c r.writer := by
  have hflat : ∀ type data, Advance c (c.report (c.writeFlat type data)).writer :=
    fun _ _ => advance_report hc fun _ => advance_writeFlat hc
  cases call with
  | header t n =>
      simp only [apply, Except.ok.injEq] at h
      subst h
      apply advance_report hc
      intro c' hc'
      by_cases hfit : n + 1 ≤ 255 ∧ c.len + 2 + n ≤ c.limit
      · rw [writeHeader_of_fits hfit, Except.ok.injEq] at hc'
        subst hc'
        exact advance_put hc (by simp only [List.length_cons, List.length_nil]; omega)
      · rw [writeHeader_of_not_fits hfit] at hc'
        cases hc'
  | record t v =>
      simp only [apply] at h
      split at h
      · cases h
      · cases h
        exact hflat t v
  | array16 t vs =>
      simp only [apply, writeArray16, writeWords_eq_writeFlat vs Bytes.length_le16 hc.len_le_length,
        Except.ok.injEq] at h
      subst h
      exact hflat t _
  | array32 t vs =>
      simp only [apply, writeArray32, writeWords_eq_writeFlat vs Bytes.length_le32 hc.len_le_length,
        Except.ok.injEq] at h
      subst h
      exact hflat t _
  | encode s tx =>
      simp only [apply, Except.ok.injEq] at h
      subst h
      dsimp only
      rw [encode]
      exact advance_build hc (s.plan tx)

/-- **The run lemma.**  Along a session, each writer reported is the one before it moved
forward. -/
theorem isChain_session (hc : c.Valid) {calls : List WriterCall} {reports : List CallReport}
    (h : c.session calls = .ok reports) : List.IsChain Advance (c :: reports.map CallReport.writer) := by
  induction calls generalizing c reports with
  | nil =>
      cases h
      exact .singleton c
  | cons call calls ih =>
      obtain ⟨r, hr, hrest⟩ := except_bind_eq_ok h
      obtain ⟨rs, hrs, hreports⟩ := except_bind_eq_ok hrest
      cases hreports
      have hstep := advance_apply hc hr
      exact List.isChain_cons_cons.2 ⟨hstep, ih (hstep.valid hc) hrs⟩

/-- A writer over a buffer keeps its representation invariant along every session: after every
call it is within its limit, its limit is the one asked for cut down to the buffer, and no byte
of the buffer at or past the limit has changed; every call changes the buffer only where it
wrote, and what was written is never altered by a later call. -/
theorem session_keeps_bounds (dst : List UInt8) (maxLen : Option Nat) (calls : List WriterCall)
    (reports : List CallReport) (h : (create dst maxLen).session calls = .ok reports) :
    (∀ r ∈ reports, r.writer.len ≤ r.writer.limit ∧
      r.writer.limit = min (maxLen.getD dst.length) dst.length ∧
      r.writer.buffer.length = dst.length ∧
      ∀ i, r.writer.limit ≤ i → r.writer.buffer[i]? = dst[i]?) ∧
    List.Pairwise Advance (create dst maxLen :: reports.map CallReport.writer) ∧
    List.Pairwise (fun w w' => w.bytes <+: w'.bytes) (create dst maxLen :: reports.map CallReport.writer) := by
  have hchain := isChain_session (valid_create dst maxLen) h
  have hpair : List.Pairwise Advance (create dst maxLen :: reports.map CallReport.writer) :=
    hchain.pairwise
  refine ⟨?_, hpair, hpair.imp Advance.bytes_prefix⟩
  intro r hr
  have hadv : Advance (create dst maxLen) r.writer :=
    List.rel_of_pairwise_cons hpair (List.mem_map_of_mem hr)
  refine ⟨hadv.len_le_limit, ?_, ?_, ?_⟩
  · rw [hadv.limit_eq, limit_create]
  · rw [hadv.length_eq, buffer_create]
  · intro i hi
    rw [hadv.frame i (.inr (Nat.le_trans hadv.len_le_limit hi)), buffer_create]

/-- On a writer limited to four bytes, a flags record is written and a header too large for the
rest fails; the writers reported keep to their bounds. -/
theorem session_keeps_bounds_tooLarge :
    (create [0, 0, 0, 0] (some 10)).session [.record .flags [6], .header .flags 5] =
        .ok [⟨⟨[2, 1, 6, 0], 3, 4⟩, none, none⟩, ⟨⟨[2, 1, 6, 0], 3, 4⟩, some (.tooLarge 10 4), none⟩] ∧
      List.Pairwise Advance [create [0, 0, 0, 0] (some 10), ⟨[2, 1, 6, 0], 3, 4⟩, ⟨[2, 1, 6, 0], 3, 4⟩] :=
  ⟨rfl, (session_keeps_bounds [0, 0, 0, 0] (some 10) [.record .flags [6], .header .flags 5]
    [⟨⟨[2, 1, 6, 0], 3, 4⟩, none, none⟩, ⟨⟨[2, 1, 6, 0], 3, 4⟩, some (.tooLarge 10 4), none⟩] rfl).2.1⟩

/-! ### One write, exactly -/

/-- What the report of a write says when the write stores `data` as a record announcing `p` value
bytes: the write fails exactly when the header does not fit, with the bytes needed and the limit,
and then leaves the writer as it was; otherwise it stores `data` right after the bytes written and
moves the writer forward by it. -/
structure Written (c : Cursor) (p : Nat) (data : List UInt8) (r : CallReport) : Prop where
  fault_eq : r.fault = if p + 1 ≤ 255 ∧ c.len + 2 + p ≤ c.limit then none
    else some (.tooLarge (c.len + 2 + p) c.limit)
  unchanged : r.fault ≠ none → r.writer = c
  advance : r.fault = none → Advance c r.writer
  len_eq : r.fault = none → r.writer.len = c.len + data.length
  bytes_eq : r.fault = none → r.writer.bytes = c.bytes ++ data

/-- A write that stores `data` when its header fits, and otherwise fails as the header does, is
reported as `Written`. -/
theorem written_report (hc : c.Valid) {p : Nat} {data : List UInt8} (hlen : data.length ≤ p + 2)
    {e : Except Fault Cursor} (hfit : p + 1 ≤ 255 ∧ c.len + 2 + p ≤ c.limit → e = .ok (c.put data))
    (hnot : ¬(p + 1 ≤ 255 ∧ c.len + 2 + p ≤ c.limit) → e = .error (.tooLarge (c.len + 2 + p) c.limit)) :
    c.Written p data (c.report e) := by
  by_cases h : p + 1 ≤ 255 ∧ c.len + 2 + p ≤ c.limit
  · rw [hfit h]
    have hput : Advance c (c.put data) := advance_put hc (by omega)
    exact ⟨by simp only [report, if_pos h], fun hf => absurd rfl hf, fun _ => hput, fun _ => rfl,
      fun _ => bytes_put data hc.len_le_length⟩
  · rw [hnot h]
    exact ⟨by simp only [report, if_neg h], fun _ => rfl, fun hf => absurd hf (by simp [report]),
      fun hf => absurd hf (by simp [report]), fun hf => absurd hf (by simp [report])⟩

theorem written_apply_record (hc : c.Valid) (t : AdType) {d : List UInt8} (hd : d ≠ []) :
    ∃ r, c.apply (.record t d) = .ok r ∧ c.Written d.length (Record.wire ⟨t, d⟩) r := by
  refine ⟨_, ?_, written_report hc (by simp) (fun h => writeFlat_of_fits hc.len_le_length h)
    (fun h => writeFlat_of_not_fits h)⟩
  simp only [apply, List.isEmpty_iff, hd, if_false]

theorem written_apply_words {α : Type} (hc : c.Valid) (t : AdType) {width : Nat}
    {enc : α → List UInt8} (henc : ∀ v, (enc v).length = width) (vs : List α) :
    c.Written (vs.length * width) (Record.wire ⟨t, vs.flatMap enc⟩)
      (c.report (c.writeWords t width enc vs)) := by
  have hlen : (vs.flatMap enc).length = vs.length * width := by
    simp [List.length_flatMap, henc, Nat.mul_comm]
  rw [writeWords_eq_writeFlat vs henc hc.len_le_length]
  exact written_report hc (by simp [hlen])
    (fun h => writeFlat_of_fits hc.len_le_length (hlen ▸ h))
    (fun h => hlen ▸ writeFlat_of_not_fits (hlen ▸ h))

theorem last_cons (c : Cursor) (r : CallReport) (rs : List CallReport) :
    c.last (r :: rs) = r.writer.last rs := by
  simp only [last, List.getLast?_cons, Option.map_some, Option.getD_some]
  cases rs.getLast? <;> rfl

theorem bytes_apply_of_record? (hc : c.Valid) {call : WriterCall} {rec : Record}
    (hcall : call.record? = some rec) {r : CallReport} (h : c.apply call = .ok r)
    (hok : r.fault = none) : r.writer.bytes = c.bytes ++ rec.wire := by
  cases call with
  | record t d =>
      cases hcall
      rcases d with _ | ⟨b, bs⟩
      · cases h
      · obtain ⟨r', hr', hw⟩ := written_apply_record hc t (List.cons_ne_nil b bs)
        rw [h, Except.ok.injEq] at hr'
        subst hr'
        exact hw.bytes_eq hok
  | array16 t vs =>
      cases hcall
      rw [apply, Except.ok.injEq] at h
      subst h
      exact (written_apply_words hc t Bytes.length_le16 vs).bytes_eq hok
  | array32 t vs =>
      cases hcall
      rw [apply, Except.ok.injEq] at h
      subst h
      exact (written_apply_words hc t Bytes.length_le32 vs).bytes_eq hok
  | header => cases hcall
  | encode => cases hcall

/-- Whole records written one after the other, all with success, follow the bytes written
before them. -/
theorem bytes_last_session (hc : c.Valid) {calls : List WriterCall} {rs : List Record}
    (hcalls : calls.map WriterCall.record? = rs.map some) {reports : List CallReport}
    (h : c.session calls = .ok reports) (hok : ∀ r ∈ reports, r.fault = none) :
    (c.last reports).bytes = c.bytes ++ rs.flatMap Record.wire := by
  induction calls generalizing c rs reports with
  | nil =>
      cases h
      obtain rfl : rs = [] := by simpa using hcalls.symm
      simp only [last, List.getLast?_nil, Option.map_none, Option.getD_none, List.flatMap_nil,
        List.append_nil]
  | cons call calls ih =>
      obtain ⟨rec, rs, rfl⟩ : ∃ rec rs', rs = rec :: rs' := by
        cases rs with
        | nil => simp at hcalls
        | cons rec rs => exact ⟨rec, rs, rfl⟩
      simp only [List.map_cons, List.cons.injEq] at hcalls
      obtain ⟨r, hr, hrest⟩ := except_bind_eq_ok h
      obtain ⟨rs', hrs, hreports⟩ := except_bind_eq_ok hrest
      cases hreports
      have hrok : r.fault = none := hok r List.mem_cons_self
      have hvalid := (advance_apply hc hr).valid hc
      rw [last_cons, ih hvalid hcalls.2 hrs (fun q hq => hok q (List.mem_cons_of_mem r hq)),
        bytes_apply_of_record? hc hcalls.1 hr hrok, List.flatMap_cons, List.append_assoc]

/-- Record framing is a bijection between writing and reading.  Whole records of at most 29 value
bytes, written with success one after the other from a new writer, are read back from the bytes
written, in order, each with the type its code denotes, and nothing else is read; a payload read
without a fault is exactly the wire forms of the records read; and that payload cut strictly
inside one of its records reads as the records before the cut, then a size fault: the record cut
needs its length byte and one more, and the bytes of it before the cut are there. -/
theorem readRecords_written_framing :
    (∀ (dst : List UInt8) (maxLen : Option Nat) (calls : List WriterCall) (rs : List Record)
        (reports : List CallReport),
      calls.map WriterCall.record? = rs.map some →
      (∀ r ∈ rs, r.value.length ≤ Record.maxValueLen) →
      (create dst maxLen).session calls = .ok reports →
      (∀ r ∈ reports, r.fault = none) →
      readRecords ((create dst maxLen).last reports).bytes = ⟨rs.map Record.readBack, none⟩) ∧
    (∀ src : List UInt8, (readRecords src).fault = none →
      (readRecords src).records.flatMap Record.wire = src) ∧
    (∀ (src : List UInt8) (pre post : List Record) (r : Record) (k : Nat),
      (readRecords src).fault = none → (readRecords src).records = pre ++ r :: post →
      0 < k → k < r.value.length + 2 →
      readRecords (src.take ((pre.flatMap Record.wire).length + k)) =
        ⟨pre, some (.tooLarge (r.value.length + 2) k)⟩) := by
  refine ⟨?_, fun _ h => flatMap_wire_readRecords h,
    fun _ _ _ _ _ h hrs hk0 hk => readRecords_take_of_cut h hrs hk0 hk⟩
  intro dst maxLen calls rs reports hcalls hshort h hok
  have hbytes := bytes_last_session (valid_create dst maxLen) hcalls h hok
  have hwire : (rs.map Record.readBack).flatMap Record.wire = rs.flatMap Record.wire := by
    simp [List.flatMap_map]
  rw [hbytes, bytes, len_create, List.take_zero, List.nil_append, ← hwire,
    readRecords_flatMap_wire _ (fun q hq => by
      obtain ⟨r, hr, rfl⟩ := List.mem_map.1 hq
      exact Record.readable_readBack (hshort r hr))]

/-- A flags record and a 16-bit UUID list, written on a new writer over seven bytes, read back as
themselves; the payload is their wire forms; and cut after five bytes it reads as the flags and a
size fault for the list, which needs four bytes where two are left. -/
theorem readRecords_written_framing_flagsUuid :
    readRecords ((create (List.replicate 7 0) none).last
        [⟨⟨[2, 1, 6, 0, 0, 0, 0], 3, 7⟩, none, none⟩, ⟨⟨[2, 1, 6, 3, 2, 13, 24], 7, 7⟩, none, none⟩]).bytes =
      ⟨[⟨.flags, [6]⟩, ⟨.incompleteUuids16, [13, 24]⟩], none⟩ ∧
    (readRecords [2, 1, 6, 3, 2, 13, 24]).records.flatMap Record.wire = [2, 1, 6, 3, 2, 13, 24] ∧
    readRecords ([2, 1, 6, 3, 2, 13, 24].take
        ((([⟨.flags, [6]⟩] : List Record).flatMap Record.wire).length + 2)) =
      ⟨[⟨.flags, [6]⟩], some (.tooLarge 4 2)⟩ := by
  have hread : readRecords [2, 1, 6, 3, 2, 13, 24] =
      ⟨[⟨.flags, [6]⟩, ⟨.incompleteUuids16, [13, 24]⟩], none⟩ := by
    have hwire : ([2, 1, 6, 3, 2, 13, 24] : List UInt8) =
        ([⟨.flags, [6]⟩, ⟨.incompleteUuids16, [13, 24]⟩] : List Record).flatMap Record.wire := rfl
    rw [hwire]
    refine readRecords_flatMap_wire _ fun r hr => ?_
    simp only [List.mem_cons, List.not_mem_nil, or_false] at hr
    rcases hr with rfl | rfl <;> exact ⟨by decide, rfl⟩
  exact ⟨readRecords_written_framing.1 (List.replicate 7 0) none
      [.record .flags [6], .array16 .incompleteUuids16 [0x180d]]
      [⟨.flags, [6]⟩, ⟨.incompleteUuids16, [13, 24]⟩] _ rfl (by decide) rfl (by simp),
    readRecords_written_framing.2.1 _ (by rw [hread]),
    readRecords_written_framing.2.2 [2, 1, 6, 3, 2, 13, 24] [⟨.flags, [6]⟩] []
      ⟨.incompleteUuids16, [13, 24]⟩ 2 (by rw [hread]) (by rw [hread]; rfl) (by decide) (by decide)⟩

end Cursor

end AdvertisingData
