import AdvertisingData.Record
import Mathlib
/-!
# Framing laws

`readRecords` and `Record.wire` undo each other.  The wire forms of records a payload can carry
(`Record.Readable`: at most 29 value bytes, a type its own code denotes) read back as those
records; and any payload is the wire forms of the records read from it, then a tail that reads
as no record.  A well-framed record with more than 29 value bytes stops the reading with its type
code and length.
-/

namespace AdvertisingData

namespace Record

/-- A record that a payload can carry and that reads back as itself: at most 29 value bytes,
and a type that its code denotes. -/
def Readable (r : Record) : Prop :=
  r.value.length ≤ maxValueLen ∧ AdType.ofCode r.type.code = r.type

/-- The record a reader reads back from the wire form of `r`: the type its code denotes, and the
same value. -/
def readBack (r : Record) : Record := ⟨AdType.ofCode r.type.code, r.value⟩

@[simp] theorem wire_readBack (r : Record) : r.readBack.wire = r.wire := by
  simp [readBack, wire, AdType.code_ofCode]

theorem readable_readBack {r : Record} (h : r.value.length ≤ maxValueLen) : r.readBack.Readable :=
  ⟨h, by simp [readBack, AdType.code_ofCode]⟩

theorem wire_append_drop {l t : UInt8} {rest : List UInt8} (hl : l.toNat ≠ 0)
    (hfit : l.toNat - 1 ≤ rest.length) :
    (⟨AdType.ofCode t, rest.take (l.toNat - 1)⟩ : Record).wire ++ rest.drop (l.toNat - 1) =
      l :: t :: rest := by
  have hlen : (rest.take (l.toNat - 1)).length + 1 = l.toNat := by
    rw [List.length_take, Nat.min_eq_left hfit]
    omega
  simp only [wire, hlen, UInt8.ofNat_toNat, AdType.code_ofCode, List.cons_append,
    List.take_append_drop]

end Record

theorem eq_nil_of_readRecords_eq {src : List UInt8} (h : readRecords src = ⟨[], none⟩) :
    src = [] := by
  match src, h with
  | [], _ => rfl
  | [l], h =>
      rw [readRecords] at h
      split at h <;> simp at h
  | l :: t :: rest, h =>
      rw [readRecords] at h
      split at h
      · simp at h
      · split at h
        · simp at h
        · split at h <;> simp at h

theorem readable_of_mem_readRecords {src : List UInt8} {r : Record}
    (hr : r ∈ (readRecords src).records) : r.Readable := by
  fun_induction readRecords src with
  | case7 l t rest hshort hzero hlong next ih =>
      rcases List.mem_cons.1 hr with rfl | hr
      · have hfit : l.toNat - 1 ≤ rest.length := by omega
        refine ⟨?_, ?_⟩
        · simp only [List.length_take, Nat.min_eq_left hfit]
          omega
        · simp only [AdType.code_ofCode]
      · exact ih hr
  | _ => simp at hr

/-- Whatever the payload, it is the wire forms of the records read from it, followed by a tail
that reads as no record and as the fault that stopped the reading. -/
theorem readRecords_split (src : List UInt8) :
    ∃ rest, src = (readRecords src).records.flatMap Record.wire ++ rest ∧
      readRecords rest = ⟨[], (readRecords src).fault⟩ := by
  fun_induction readRecords src with
  | case1 => exact ⟨[], rfl, readRecords_nil⟩
  | case2 l hl => exact ⟨[l], rfl, by simp [readRecords, hl]⟩
  | case3 l hl => exact ⟨[l], rfl, by simp [readRecords, hl]⟩
  | case4 l t rest hshort => exact ⟨l :: t :: rest, rfl, by simp [readRecords, hshort]⟩
  | case5 l t rest hshort hzero =>
      exact ⟨l :: t :: rest, rfl, by simp [readRecords, hzero]⟩
  | case6 l t rest hshort hzero hlong =>
      exact ⟨l :: t :: rest, rfl, by simp [readRecords, hshort, hzero, hlong]⟩
  | case7 l t rest hshort hzero hlong next ih =>
      obtain ⟨tail, htail, hread⟩ := ih
      refine ⟨tail, ?_, hread⟩
      rw [List.flatMap_cons, List.append_assoc, ← htail,
        Record.wire_append_drop hzero (by omega)]

theorem flatMap_wire_readRecords {src : List UInt8} (h : (readRecords src).fault = none) :
    (readRecords src).records.flatMap Record.wire = src := by
  obtain ⟨rest, hsrc, hrest⟩ := readRecords_split src
  rw [h] at hrest
  rw [eq_nil_of_readRecords_eq hrest, List.append_nil] at hsrc
  exact hsrc.symm

theorem readRecords_flatMap_wire (rs : List Record) (h : ∀ r ∈ rs, r.Readable) :
    readRecords (rs.flatMap Record.wire) = ⟨rs, none⟩ := by
  induction rs with
  | nil => simp
  | cons r rs ih =>
      obtain ⟨hlen, htype⟩ := h r List.mem_cons_self
      rw [List.flatMap_cons, readRecords_wire_append r _ hlen htype,
        ih (fun r' hr' => h r' (List.mem_cons_of_mem r hr'))]

/-- The wire forms of records a payload can carry, then any bytes: the reading gives those records,
then whatever the bytes after them read as. -/
theorem readRecords_flatMap_wire_append (rs : List Record) (h : ∀ r ∈ rs, r.Readable)
    (tail : List UInt8) :
    readRecords (rs.flatMap Record.wire ++ tail) =
      ⟨rs ++ (readRecords tail).records, (readRecords tail).fault⟩ := by
  induction rs with
  | nil => simp
  | cons r rs ih =>
      obtain ⟨hlen, htype⟩ := h r List.mem_cons_self
      rw [List.flatMap_cons, List.append_assoc, readRecords_wire_append r _ hlen htype,
        ih (fun r' hr' => h r' (List.mem_cons_of_mem r hr'))]
      rfl

theorem readRecords_take_wire {r : Record} (hr : r.Readable) {k : Nat} (hk0 : 0 < k)
    (hk : k < r.value.length + 2) :
    readRecords (r.wire.take k) = ⟨[], some (.tooLarge (r.value.length + 2) k)⟩ := by
  have hn : (UInt8.ofNat (r.value.length + 1)).toNat = r.value.length + 1 := by
    have := hr.1
    unfold Record.maxValueLen at this
    simp only [UInt8.toNat_ofNat']
    omega
  obtain ⟨j, rfl⟩ : ∃ j, k = j + 1 := ⟨k - 1, by omega⟩
  rcases j with _ | j
  · simp only [Record.wire, List.take_succ_cons, List.take_zero]
    rw [readRecords, if_neg (by omega)]
    simp only [hn]
  · simp only [Record.wire, List.take_succ_cons]
    rw [readRecords, if_pos (by simp only [List.length_take, hn]; omega)]
    simp only [hn, List.length_take]
    congr 3
    omega

/-- A payload read without a fault, cut strictly inside one of its records, reads as the records
before the cut and a size fault for the record cut: it needs its length byte and one more, and
the bytes of it before the cut are there. -/
theorem readRecords_take_of_cut {src : List UInt8} (h : (readRecords src).fault = none)
    {pre post : List Record} {r : Record} (hrs : (readRecords src).records = pre ++ r :: post)
    {k : Nat} (hk0 : 0 < k) (hk : k < r.value.length + 2) :
    readRecords (src.take ((pre.flatMap Record.wire).length + k)) =
      ⟨pre, some (.tooLarge (r.value.length + 2) k)⟩ := by
  have hread : ∀ q ∈ pre ++ r :: post, q.Readable := fun q hq =>
    readable_of_mem_readRecords (hrs ▸ hq)
  have hsrc : src = pre.flatMap Record.wire ++ (r.wire ++ post.flatMap Record.wire) := by
    rw [← flatMap_wire_readRecords h, hrs, List.flatMap_append, List.flatMap_cons]
  have hcut : src.take ((pre.flatMap Record.wire).length + k) =
      pre.flatMap Record.wire ++ r.wire.take k := by
    rw [hsrc, List.take_append, List.take_of_length_le (by omega), Nat.add_sub_cancel_left,
      List.take_append_of_le_length (by rw [Record.length_wire]; omega)]
  rw [hcut, readRecords_flatMap_wire_append pre (fun q hq => hread q (by simp [hq])),
    readRecords_take_wire (hread r (by simp)) hk0 hk, List.append_nil]

theorem length_flatMap_wire (rs : List Record) :
    (rs.flatMap Record.wire).length = (rs.map fun r => r.value.length + 2).sum := by
  induction rs with
  | nil => rfl
  | cons r rs ih =>
      simp only [List.flatMap_cons, List.length_append, ih, List.map_cons, List.sum_cons,
        Record.wire, List.length_cons]

theorem readRecords_wire_append_of_long (r : Record) (rest : List UInt8)
    (hlong : Record.maxValueLen < r.value.length) (hbyte : r.value.length + 1 ≤ 255) :
    readRecords (r.wire ++ rest) = ⟨[], some (.badLength r.type.code r.value.length)⟩ := by
  have hn : (UInt8.ofNat (r.value.length + 1)).toNat = r.value.length + 1 := by
    simp only [UInt8.toNat_ofNat']
    omega
  simp only [Record.wire, List.cons_append]
  rw [readRecords]
  simp only [hn, List.length_append, Nat.add_sub_cancel]
  rw [if_neg (by omega), if_neg (by omega), if_pos hlong]

/-- Records that a payload can carry, then one whose value is too long: the reading gives the
first ones and stops at the long one, whatever follows it. -/
theorem readRecords_flatMap_wire_of_long (pre post : List Record) (r : Record)
    (hpre : ∀ p ∈ pre, p.Readable) (hlong : Record.maxValueLen < r.value.length)
    (hbyte : r.value.length + 1 ≤ 255) :
    readRecords ((pre ++ r :: post).flatMap Record.wire) =
      ⟨pre, some (.badLength r.type.code r.value.length)⟩ := by
  induction pre with
  | nil =>
      rw [List.nil_append, List.flatMap_cons,
        readRecords_wire_append_of_long r _ hlong hbyte]
  | cons p pre ih =>
      obtain ⟨hlen, htype⟩ := hpre p List.mem_cons_self
      rw [List.cons_append, List.flatMap_cons, readRecords_wire_append p _ hlen htype,
        ih (fun p' hp' => hpre p' (List.mem_cons_of_mem p hp'))]

end AdvertisingData
