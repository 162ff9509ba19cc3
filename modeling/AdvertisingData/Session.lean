import AdvertisingData.Cursor
/-!
# Writer sessions

A session applies a sequence of calls to one writer on its buffer and reports the writer after
each of them.  Every write is all-or-nothing, so a failed write leaves the writer as it was and
the session goes on; a failed encoding keeps the records it wrote before its fault.  A record
with an empty value is never written: the call stops the whole program (`SessionAbort`).
-/

namespace AdvertisingData

/-- One call of a session. -/
inductive WriterCall
  | header (type : AdType) (len : Nat)
  -- the value of a record must not be empty
  | record (type : AdType) (value : List UInt8)
  | array16 (type : AdType) (values : List UInt16)
  | array32 (type : AdType) (values : List UInt32)
  | encode (fields : FieldSet) (tx : TxPowerSource)
deriving Repr

/-- The record a call writes when it writes one whole record: the value of a record call, or the
little-endian bytes of the words of an array call. -/
def WriterCall.record? : WriterCall → Option Record
  | .record t v => some ⟨t, v⟩
  | .array16 t vs => some ⟨t, vs.flatMap Bytes.le16⟩
  | .array32 t vs => some ⟨t, vs.flatMap Bytes.le32⟩
  | _ => none

/-- The writer after one call of a session: the writer, the fault of the call if it failed, and
for an encoding, how many times the caller's transmit power query ran. -/
structure CallReport where
  writer : Cursor
  fault : Option Fault
  queryCalls : Option Nat
deriving Repr

/-- Why a session stopped the program before its last call: a record with an empty value was to
be written. -/
inductive SessionAbort
  | emptyRecord
deriving DecidableEq, Repr

def SessionAbort.message : SessionAbort → String
  | .emptyRecord => "empty advertising records are never written"

namespace Cursor

def report (c : Cursor) : Except Fault Cursor → CallReport
  | .ok c' => ⟨c', none, none⟩
  | .error f => ⟨c, some f, none⟩

def apply (c : Cursor) : WriterCall → Except SessionAbort CallReport
  | .header t n => .ok (c.report (c.writeHeader t n))
  | .record t v => if v.isEmpty then .error .emptyRecord else .ok (c.report (c.writeFlat t v))
  | .array16 t vs => .ok (c.report (c.writeArray16 t vs))
  | .array32 t vs => .ok (c.report (c.writeArray32 t vs))
  | .encode s tx =>
    let o := c.encode s tx
    .ok ⟨o.cursor, o.fault, some (tx.callsMade o.sourceReads)⟩

/-- Applies the calls in order, reporting the writer after each, unless one of them stops the
program. -/
def session (c : Cursor) : List WriterCall → Except SessionAbort (List CallReport)
  | [] => .ok []
  | call :: calls => do
    let r ← c.apply call
    let rs ← r.writer.session calls
    pure (r :: rs)

def last (c : Cursor) (reports : List CallReport) : Cursor :=
  (reports.getLast?.map CallReport.writer).getD c

end Cursor

end AdvertisingData
