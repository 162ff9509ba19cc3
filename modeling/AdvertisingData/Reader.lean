import AdvertisingData.Record
/-!
# The record reader, one call at a time

A receiver reads a payload as an iterator does: each call yields the record that starts at the
bytes not yet read, or the fault that keeps it from being read, and after a fault nothing more.
`Reader.nextRecord` makes the checks in the program's order: the length byte, whether the record's
bytes are there, whether they leave room for a type code, and only then the type code and value.
`Reader.items` runs the reader to its end, which it reaches as every call moves past a byte.
-/

namespace AdvertisingData

namespace Reader

/-- The record at the start of `src`, with the bytes after it, or the fault that keeps it from
being read. -/
def nextRecord (src : List UInt8) (hne : 0 < src.length) : Except Fault (Record × List UInt8) :=
  let total := src[0].toNat + 1
  if hshort : src.length < total then .error (.tooLarge total src.length)
  else if hhead : total < 2 then .error (.badLength 0 0)
  else
    -- `2 ≤ total ≤ src.length` here, so the type code and the value lie inside `src`
    let type := AdType.ofCode src[1]
    let value := src.extract 2 total
    if Record.maxValueLen < value.length then .error (.badLength type.code value.length)
    else .ok (⟨type, value⟩, src.drop total)

/-- One call of the reader on the bytes not yet read: nothing once none are left; otherwise what
the record there reads as, and the bytes left after it, of which there are none after a fault. -/
def next? (src : List UInt8) : Option (Except Fault Record × List UInt8) :=
  if hne : 0 < src.length then
    match nextRecord src hne with
    | .ok (r, rest) => some (.ok r, rest)
    | .error e => some (.error e, [])
  else none

theorem length_lt_of_nextRecord {src : List UInt8} {hne : 0 < src.length} {r : Record}
    {rest : List UInt8} (h : nextRecord src hne = .ok (r, rest)) :
    rest.length + 2 ≤ src.length := by
  unfold nextRecord at h
  dsimp only at h
  split at h
  · cases h
  · split at h
    · cases h
    · split at h
      · cases h
      · cases h
        simp only [List.length_drop]
        omega

theorem length_lt_of_next? {src rest : List UInt8} {item : Except Fault Record}
    (h : next? src = some (item, rest)) : rest.length < src.length := by
  unfold next? at h
  split at h
  · split at h
    next r rest' hread =>
      cases h
      have := length_lt_of_nextRecord hread
      omega
    next e _ =>
      cases h
      simpa
  · cases h

/-- Everything the reader yields on a payload, in order. -/
def items (src : List UInt8) : List (Except Fault Record) :=
  match _hstep : next? src with
  | none => []
  | some (item, rest) => item :: items rest
termination_by src.length
decreasing_by exact length_lt_of_next? _hstep

end Reader

end AdvertisingData
