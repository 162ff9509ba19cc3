import AdvertisingData.Fields.Encode
/-!
# The writer on its buffer

A `Cursor` is a `Writer` as it sits on the buffer its caller lends it: the whole buffer, how
many bytes have been written at its front, and the limit.  Its writes store bytes from the first
position not yet written, exactly as the writer's checks allow, and a write that fails stores
nothing.  `Cursor.build` writes the steps of a plan on the buffer as `Writer.build` does on the
writer; `Proofs/Cursor` shows that the cursor stays within its limit and refines `Writer`.
-/

namespace AdvertisingData

/-- The buffer `buf` with the bytes from position `pos` on replaced by `data`, the others kept. -/
def Bytes.writeAt (buf : List UInt8) (pos : Nat) (data : List UInt8) : List UInt8 :=
  buf.take pos ++ data ++ buf.drop (pos + data.length)

namespace Bytes

theorem length_writeAt {buf : List UInt8} {pos : Nat} {data : List UInt8}
    (h : pos + data.length ≤ buf.length) : (writeAt buf pos data).length = buf.length := by
  simp only [writeAt, List.length_append, List.length_take, List.length_drop]
  omega

theorem getElem?_writeAt_of_lt {buf : List UInt8} {pos i : Nat} (data : List UInt8)
    (hpos : pos ≤ buf.length) (hi : i < pos) : (writeAt buf pos data)[i]? = buf[i]? := by
  rw [writeAt, List.append_assoc, List.getElem?_append_left (by simp; omega),
    List.getElem?_take_of_lt hi]

theorem getElem?_writeAt_of_le {buf : List UInt8} {pos i : Nat} (data : List UInt8)
    (hpos : pos ≤ buf.length) (hi : pos + data.length ≤ i) : (writeAt buf pos data)[i]? = buf[i]? := by
  have htake : (buf.take pos ++ data).length = pos + data.length := by simp; omega
  rw [writeAt, List.getElem?_append_right (by omega), htake, List.getElem?_drop]
  congr 1
  omega

theorem take_writeAt {buf : List UInt8} {pos : Nat} (data : List UInt8) (hpos : pos ≤ buf.length) :
    (writeAt buf pos data).take (pos + data.length) = buf.take pos ++ data := by
  have htake : (buf.take pos ++ data).length = pos + data.length := by simp; omega
  rw [writeAt, List.take_append_of_le_length (by omega), List.take_of_length_le (by omega)]

theorem writeAt_append {buf : List UInt8} {pos : Nat} (a b : List UInt8) (hpos : pos ≤ buf.length) :
    writeAt (writeAt buf pos a) (pos + a.length) b = writeAt buf pos (a ++ b) := by
  have htake : (buf.take pos ++ a).length = pos + a.length := by simp; omega
  have hdrop : (writeAt buf pos a).drop (pos + a.length + b.length) =
      buf.drop (pos + (a ++ b).length) := by
    rw [writeAt, List.drop_append, List.drop_of_length_le (by omega), List.nil_append, htake,
      List.drop_drop, List.length_append]
    congr 1
    omega
  rw [writeAt, take_writeAt a hpos, hdrop, writeAt]
  simp only [List.append_assoc]

end Bytes

/-- A writer on the buffer it writes into. -/
structure Cursor where
  buffer : List UInt8
  len : Nat
  limit : Nat
deriving DecidableEq, Repr

namespace Cursor

/-- An empty writer over `dst`, limited to `maxLen` bytes when a limit is given; a limit beyond
the buffer is cut down to the buffer's length. -/
def create (dst : List UInt8) : Option Nat → Cursor
  | some m => ⟨dst, 0, min m dst.length⟩
  | none => ⟨dst, 0, dst.length⟩

def bytes (c : Cursor) : List UInt8 := c.buffer.take c.len

def remaining (c : Cursor) : Nat := c.limit - c.len

def isEmpty (c : Cursor) : Bool := c.len == 0

def toWriter (c : Cursor) : Writer := ⟨c.limit, c.bytes⟩

/-- Stores `data` right after the bytes written, and counts it as written. -/
def put (c : Cursor) (data : List UInt8) : Cursor :=
  { c with buffer := Bytes.writeAt c.buffer c.len data, len := c.len + data.length }

/-- Writes the length byte and the type code of a record whose value has `payloadLen` bytes, if
the record fits: the length byte counts the type code and the value. -/
def writeHeader (c : Cursor) (type : AdType) (payloadLen : Nat) : Except Fault Cursor :=
  if payloadLen + 1 > 255 ∨ c.len + 2 + payloadLen > c.limit then
    .error (.tooLarge (c.len + 2 + payloadLen) c.limit)
  else
    .ok (c.put [UInt8.ofNat (payloadLen + 1), type.code])

/-- Writes a record whose value is `data`, copied after its header. -/
def writeFlat (c : Cursor) (type : AdType) (data : List UInt8) : Except Fault Cursor := do
  let c ← c.writeHeader type data.length
  pure (c.put data)

/-- Writes a record whose value is the given words, each as the `width` bytes `enc` gives it:
the header, then the words one at a time. -/
def writeWords {α : Type} (c : Cursor) (type : AdType) (width : Nat) (enc : α → List UInt8)
    (values : List α) : Except Fault Cursor := do
  let c ← c.writeHeader type (values.length * width)
  pure (values.foldl (fun c v => c.put (enc v)) c)

def writeArray16 (c : Cursor) (type : AdType) (values : List UInt16) : Except Fault Cursor :=
  c.writeWords type 2 Bytes.le16 values

def writeArray32 (c : Cursor) (type : AdType) (values : List UInt32) : Except Fault Cursor :=
  c.writeWords type 4 Bytes.le32 values

/-- What building a payload on the buffer left: the cursor, the fault that stopped it if one
did, and how many times the transmit power source was consulted. -/
structure Outcome where
  cursor : Cursor
  fault : Option Fault
  sourceReads : Nat
deriving Repr

def Outcome.toBuildOutcome (o : Outcome) : BuildOutcome := ⟨o.cursor.toWriter, o.fault, o.sourceReads⟩

/-- Writes the planned records in order, stopping at the first fault.  Each record is written
whole; the word lists and the two 16-bit values are written word by word where the field set is
encoded, which stores the same bytes (`writeWords_eq_writeFlat`). -/
def build (c : Cursor) : List PlanStep → Outcome
  | [] => ⟨c, none, 0⟩
  | s :: rest =>
    let reads := if s.readsSource then 1 else 0
    match s.result with
    | .error f => ⟨c, some f, reads⟩
    | .ok r =>
      match c.writeFlat r.type r.value with
      | .error f => ⟨c, some f, reads⟩
      | .ok c' =>
        let o := c'.build rest
        { o with sourceReads := reads + o.sourceReads }

def encode (c : Cursor) (s : FieldSet) (tx : TxPowerSource) : Outcome :=
  c.build (s.plan tx)

@[simp] theorem buffer_put (c : Cursor) (data : List UInt8) :
    (c.put data).buffer = Bytes.writeAt c.buffer c.len data := rfl

@[simp] theorem len_put (c : Cursor) (data : List UInt8) : (c.put data).len = c.len + data.length :=
  rfl

@[simp] theorem limit_put (c : Cursor) (data : List UInt8) : (c.put data).limit = c.limit := rfl

theorem put_put {c : Cursor} (a b : List UInt8) (hc : c.len ≤ c.buffer.length) :
    (c.put a).put b = c.put (a ++ b) := by
  simp only [put, List.length_append, Nat.add_assoc, Bytes.writeAt_append a b hc]

theorem bytes_put {c : Cursor} (data : List UInt8) (hc : c.len ≤ c.buffer.length) :
    (c.put data).bytes = c.bytes ++ data := by
  simp only [bytes, put, Bytes.take_writeAt data hc]

theorem length_buffer_put {c : Cursor} {data : List UInt8} (h : c.len + data.length ≤ c.buffer.length) :
    (c.put data).buffer.length = c.buffer.length :=
  Bytes.length_writeAt h

@[simp] theorem len_create (dst : List UInt8) (maxLen : Option Nat) : (create dst maxLen).len = 0 := by
  cases maxLen <;> rfl

@[simp] theorem buffer_create (dst : List UInt8) (maxLen : Option Nat) :
    (create dst maxLen).buffer = dst := by
  cases maxLen <;> rfl

theorem limit_create (dst : List UInt8) (maxLen : Option Nat) :
    (create dst maxLen).limit = min (maxLen.getD dst.length) dst.length := by
  cases maxLen <;> simp [create]

theorem toWriter_create (dst : List UInt8) (maxLen : Option Nat) :
    (create dst maxLen).toWriter = Writer.create dst.length maxLen := by
  cases maxLen <;> rfl

theorem writeHeader_of_fits {c : Cursor} {type : AdType} {p : Nat}
    (h : p + 1 ≤ 255 ∧ c.len + 2 + p ≤ c.limit) :
    c.writeHeader type p = .ok (c.put [UInt8.ofNat (p + 1), type.code]) := by
  unfold writeHeader
  rw [if_neg (by omega)]

theorem writeHeader_of_not_fits {c : Cursor} {type : AdType} {p : Nat}
    (h : ¬(p + 1 ≤ 255 ∧ c.len + 2 + p ≤ c.limit)) :
    c.writeHeader type p = .error (.tooLarge (c.len + 2 + p) c.limit) := by
  unfold writeHeader
  rw [if_pos (by omega)]

end Cursor

end AdvertisingData
