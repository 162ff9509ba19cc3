import AdvertisingData.Record
/-!
# The bounded writer

A `Writer` builds a payload never past its limit, the smaller of the limit asked for and the
capacity.  A header for a value of `p` bytes needs `len + 2 + p` bytes in all; it fails with
`Fault.tooLarge` when that exceeds the limit or when `p + 1` does not fit the length byte, and
then leaves the writer as it was.  Every write appends one header, one whole record, or nothing.
-/

namespace AdvertisingData

/-- A payload under construction: the bytes written so far and the size they may not exceed. -/
structure Writer where
  limit : Nat
  bytes : List UInt8
deriving DecidableEq, Repr

namespace Writer

/-- An empty writer over a buffer of `capacity` bytes, limited to `maxLen` bytes when a limit is
given; a limit beyond the capacity is cut down to the capacity. -/
def create (capacity : Nat) (maxLen : Option Nat) : Writer :=
  match maxLen with
  | some m => ⟨min m capacity, []⟩
  | none => ⟨capacity, []⟩

def len (w : Writer) : Nat := w.bytes.length

def remaining (w : Writer) : Nat := w.limit - w.len

def isEmpty (w : Writer) : Bool := w.bytes.isEmpty

/-- The bytes a header for a value of `payloadLen` bytes needs, counting what is already
written. -/
def required (w : Writer) (payloadLen : Nat) : Nat := w.len + 2 + payloadLen

/-- Appends the length byte and type code of a record whose value has `payloadLen` bytes, if the
record fits. -/
def writeHeader (w : Writer) (type : AdType) (payloadLen : Nat) : Except Fault Writer :=
  if payloadLen + 1 > 255 ∨ w.required payloadLen > w.limit then
    .error (.tooLarge (w.required payloadLen) w.limit)
  else
    .ok { w with bytes := w.bytes ++ [UInt8.ofNat (payloadLen + 1), type.code] }

/-- Appends a whole record, header and value, if it fits. -/
def writeRecord (w : Writer) (r : Record) : Except Fault Writer :=
  match w.writeHeader r.type r.value.length with
  | .ok w' => .ok { w' with bytes := w'.bytes ++ r.value }
  | .error f => .error f

def writeArray16 (w : Writer) (type : AdType) (values : List UInt16) : Except Fault Writer :=
  w.writeRecord ⟨type, values.flatMap Bytes.le16⟩

def writeArray32 (w : Writer) (type : AdType) (values : List UInt32) : Except Fault Writer :=
  w.writeRecord ⟨type, values.flatMap Bytes.le32⟩

@[simp] theorem len_create (capacity : Nat) (maxLen : Option Nat) :
    (create capacity maxLen).len = 0 := by
  cases maxLen <;> rfl

theorem limit_create_le (capacity : Nat) (maxLen : Option Nat) :
    (create capacity maxLen).limit ≤ capacity := by
  cases maxLen with
  | none => exact Nat.le_refl capacity
  | some m => exact Nat.min_le_right m capacity

theorem writeHeader_of_fits {w : Writer} {type : AdType} {p : Nat}
    (h : p + 1 ≤ 255 ∧ w.required p ≤ w.limit) :
    w.writeHeader type p = .ok { w with bytes := w.bytes ++ [UInt8.ofNat (p + 1), type.code] } := by
  unfold writeHeader
  rw [if_neg (by omega)]

theorem writeHeader_of_not_fits {w : Writer} {type : AdType} {p : Nat}
    (h : ¬(p + 1 ≤ 255 ∧ w.required p ≤ w.limit)) :
    w.writeHeader type p = .error (.tooLarge (w.required p) w.limit) := by
  unfold writeHeader
  rw [if_pos (by omega)]

theorem writeRecord_of_fits {w : Writer} {r : Record}
    (h : r.value.length + 1 ≤ 255 ∧ w.required r.value.length ≤ w.limit) :
    w.writeRecord r = .ok { w with bytes := w.bytes ++ r.wire } := by
  simp [writeRecord, writeHeader_of_fits h, Record.wire]

theorem writeRecord_of_not_fits {w : Writer} {r : Record}
    (h : ¬(r.value.length + 1 ≤ 255 ∧ w.required r.value.length ≤ w.limit)) :
    w.writeRecord r = .error (.tooLarge (w.required r.value.length) w.limit) := by
  simp [writeRecord, writeHeader_of_not_fits h]

end Writer

end AdvertisingData
