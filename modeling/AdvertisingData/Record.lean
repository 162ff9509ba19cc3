import AdvertisingData.AdType
import AdvertisingData.Fault
/-!
# Records and their framing

A record is a length byte `L`, a type code and a value of `L - 1` bytes, at most
`Record.maxValueLen` = 29.  `readRecords` splits a payload into records and stops at the first
one that cannot be framed, in this order: a length byte asking for more bytes than are left
(`Fault.tooLarge`), a zero length byte (`Fault.badLength 0 0`), a value longer than 29 bytes
(`Fault.badLength` with its type code and length).
-/

namespace AdvertisingData

/-- One record of a payload: its type and its value. -/
structure Record where
  type : AdType
  value : List UInt8
deriving DecidableEq, Repr

namespace Record

def maxValueLen : Nat := 29

/-- The bytes of a record as it is framed in a payload: length byte, type code, value. -/
def wire (r : Record) : List UInt8 :=
  UInt8.ofNat (r.value.length + 1) :: r.type.code :: r.value

@[simp] theorem length_wire (r : Record) : r.wire.length = r.value.length + 2 := by
  simp [wire]

end Record

/-- A payload split into records: the records framed one after the other, and the fault that
stopped the reading, if one did. -/
structure Framing where
  records : List Record
  fault : Option Fault
deriving DecidableEq, Repr

/-- Splits a payload into its records, stopping at the first one that cannot be framed. -/
def readRecords (src : List UInt8) : Framing :=
  match src with
  | [] => ⟨[], none⟩
  | [l] =>
    if l.toNat = 0 then ⟨[], some (.badLength 0 0)⟩
    else ⟨[], some (.tooLarge (l.toNat + 1) 1)⟩
  | l :: t :: rest =>
    if rest.length + 2 < l.toNat + 1 then ⟨[], some (.tooLarge (l.toNat + 1) (rest.length + 2))⟩
    else if l.toNat = 0 then ⟨[], some (.badLength 0 0)⟩
    else if l.toNat - 1 > Record.maxValueLen then ⟨[], some (.badLength t (l.toNat - 1))⟩
    else
      let next := readRecords (rest.drop (l.toNat - 1))
      ⟨⟨AdType.ofCode t, rest.take (l.toNat - 1)⟩ :: next.records, next.fault⟩
termination_by src.length
decreasing_by simp only [List.length_cons, List.length_drop]; omega

@[simp] theorem readRecords_nil : readRecords [] = ⟨[], none⟩ := by
  simp [readRecords]

theorem readRecords_wire_append (r : Record) (rest : List UInt8)
    (hlen : r.value.length ≤ Record.maxValueLen) (htype : AdType.ofCode r.type.code = r.type) :
    readRecords (r.wire ++ rest) =
      ⟨r :: (readRecords rest).records, (readRecords rest).fault⟩ := by
  unfold Record.maxValueLen at hlen
  have hn : (UInt8.ofNat (r.value.length + 1)).toNat = r.value.length + 1 := by
    simp
    omega
  simp only [Record.wire, List.cons_append]
  rw [readRecords]
  simp only [hn, List.length_append, Nat.add_sub_cancel, List.take_left', List.drop_left',
    htype, Record.maxValueLen]
  rw [if_neg (by omega), if_neg (by omega), if_neg (by omega)]

end AdvertisingData
