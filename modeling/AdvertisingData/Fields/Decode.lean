import AdvertisingData.Fields.Basic
import AdvertisingData.Record
/-!
# Decoding a payload

`readRecords` frames a payload into records; each record of a known type must then satisfy its
type's length rule (`AdType.lengthRule`) and fills the entry of its type, the last record winning,
and records of unknown types are skipped.  Decoding fails with the first fault in payload order.
`FieldSet.parse` does this as the program does, keeping the words of the 16- and 32-bit UUID
lists in a scratch table and reading the lists out of it after the last record;
`FieldSet.decode` is the same without the scratch.
-/

namespace AdvertisingData

/-- What lengths a record type allows for its value. -/
inductive LengthRule
  | exactly (n : Nat)
  | multipleOf (n : Nat)
  | atLeast (n : Nat)
  | any
deriving DecidableEq, Repr

def LengthRule.admits : LengthRule → Nat → Bool
  | .exactly n, len => len == n
  | .multipleOf n, len => len % n == 0
  | .atLeast n, len => n ≤ len
  | .any, _ => true

/-- The length rule of each record type. -/
def AdType.lengthRule : AdType → LengthRule
  | .flags | .txPowerLevel | .leRole => .exactly 1
  | .appearance | .advInterval => .exactly 2
  | .deviceClass => .exactly 3
  | .connIntervalRange => .exactly 4
  | .leAddress => .exactly 7
  | .incompleteUuids16 | .completeUuids16 => .multipleOf 2
  | .incompleteUuids32 | .completeUuids32 => .multipleOf 4
  | .incompleteUuids128 | .completeUuids128 => .multipleOf 16
  | .publicTargetAddress => .multipleOf 6
  | .serviceDataUuid16 => .atLeast 2
  | .serviceDataUuid32 => .atLeast 4
  | .serviceDataUuid128 => .atLeast 16
  | .shortName | .completeName | .uri | .manufacturerData | .unknown _ => .any

/-- One entry of a field set, as a single record gives it. -/
inductive Field
  | flags (f : AdFlags)
  | uuids16 (l : ServiceUuids UInt16)
  | uuids32 (l : ServiceUuids UInt32)
  | uuids128 (l : ServiceUuids128)
  | name (n : LocalName)
  | txPowerLevel (level : Int8)
  | deviceClass (b : FixedBytes 3)
  | connIntervalRange (b : FixedBytes 4)
  | serviceData16 (data : List UInt8)
  | publicTargets (data : List UInt8)
  | appearance (v : UInt16)
  | advInterval (v : UInt16)
  | leAddress (b : FixedBytes 7)
  | leRole (v : UInt8)
  | serviceData32 (data : List UInt8)
  | serviceData128 (data : List UInt8)
  | uri (data : List UInt8)
  | manufacturerData (data : List UInt8)
deriving DecidableEq, Repr

namespace Field

/-- The entry a value of a known type gives, read on the understanding that it meets its type's
length rule; `none` for an unknown type, or for a fixed-size value of the wrong size. -/
def ofValue (t : AdType) (v : List UInt8) : Option Field :=
  match t with
  | .flags => some (.flags ⟨v.headD 0⟩)
  | .incompleteUuids16 | .completeUuids16 =>
    some (.uuids16 ⟨(Bytes.chunks 2 v).map Bytes.readLe16, t.isComplete⟩)
  | .incompleteUuids32 | .completeUuids32 =>
    some (.uuids32 ⟨(Bytes.chunks 4 v).map Bytes.readLe32, t.isComplete⟩)
  | .incompleteUuids128 | .completeUuids128 => some (.uuids128 ⟨v, t.isComplete⟩)
  | .shortName | .completeName => some (.name ⟨v, t.isComplete⟩)
  | .txPowerLevel => some (.txPowerLevel (v.headD 0).toInt8)
  | .deviceClass => (FixedBytes.ofList? 3 v).map .deviceClass
  | .connIntervalRange => (FixedBytes.ofList? 4 v).map .connIntervalRange
  | .serviceDataUuid16 => some (.serviceData16 v)
  | .publicTargetAddress => some (.publicTargets v)
  | .appearance => some (.appearance (Bytes.readLe16 v))
  | .advInterval => some (.advInterval (Bytes.readLe16 v))
  | .leAddress => (FixedBytes.ofList? 7 v).map .leAddress
  | .leRole => some (.leRole (v.headD 0))
  | .serviceDataUuid32 => some (.serviceData32 v)
  | .serviceDataUuid128 => some (.serviceData128 v)
  | .uri => some (.uri v)
  | .manufacturerData => some (.manufacturerData v)
  | .unknown _ => none

/-- The entry a record gives: nothing for an unknown type, a fault when the value breaks its
type's length rule. -/
def ofRecord (r : Record) : Except Fault (Option Field) :=
  if r.type.lengthRule.admits r.value.length then .ok (ofValue r.type r.value)
  else .error (.badLength r.type.code r.value.length)

end Field

namespace FieldSet

def insert (s : FieldSet) : Field → FieldSet
  | .flags f => { s with flags := some (.value f) }
  | .uuids16 l => { s with uuids16 := some l }
  | .uuids32 l => { s with uuids32 := some l }
  | .uuids128 l => { s with uuids128 := some l }
  | .name n => { s with name := some n }
  | .txPowerLevel v => { s with txPowerLevel := some (.level v) }
  | .deviceClass b => { s with deviceClass := some b }
  | .connIntervalRange b => { s with connIntervalRange := some b }
  | .serviceData16 d => { s with serviceData16 := some d }
  | .publicTargets d => { s with publicTargets := some d }
  | .appearance v => { s with appearance := some v }
  | .advInterval v => { s with advInterval := some v }
  | .leAddress b => { s with leAddress := some b }
  | .leRole v => { s with leRole := some v }
  | .serviceData32 d => { s with serviceData32 := some d }
  | .serviceData128 d => { s with serviceData128 := some d }
  | .uri d => { s with uri := some d }
  | .manufacturerData d => { s with manufacturerData := some d }

/-- The field set a payload describes, or the first fault in it. -/
def decode (src : List UInt8) : Except Fault FieldSet :=
  let framing := readRecords src
  match framing.records.mapM Field.ofRecord with
  | .error f => .error f
  | .ok entries =>
    match framing.fault with
    | some f => .error f
    | none => .ok ((entries.filterMap id).foldl insert {})

end FieldSet

/-- A table of exactly `n` entries, as an array of fixed size holds them. -/
structure Table (α : Type) (n : Nat) where
  toList : List α
  length_toList : toList.length = n

namespace Table

variable {α : Type} {n : Nat}

/-- The table with its first entries replaced by `words`; `none` when they do not fit, where the
slice they are written into would pass the end of the table. -/
def writeFront (t : Table α n) (words : List α) : Option (Table α n) :=
  if h : words.length ≤ n then
    some ⟨words ++ t.toList.drop words.length, by simp [t.length_toList]; omega⟩
  else none

def front (t : Table α n) (count : Nat) : List α := t.toList.take count

end Table

/-- Room for the words of the 16- and 32-bit UUID lists a decoding reads: as many words as a
record of `Record.maxValueLen` bytes holds, 14 and 7. -/
structure ParseScratch where
  uuids16 : Table UInt16 (Record.maxValueLen / 2)
  uuids32 : Table UInt32 (Record.maxValueLen / 4)

def ParseScratch.new : ParseScratch :=
  ⟨⟨List.replicate _ 0, List.length_replicate⟩, ⟨List.replicate _ 0, List.length_replicate⟩⟩

/-- Why decoding stops: a fault of the payload, or a list too long for its table, on which the
program stops. -/
inductive ParseStop
  | fault (f : Fault)
  | scratchOverrun
deriving DecidableEq, Repr

/-- A decoding between two records: the entries read so far other than the 16- and 32-bit UUID
lists, the scratch, and for each of these lists how many words at the front of its table it holds
and whether it is complete. -/
structure ParseState where
  fields : FieldSet
  scratch : ParseScratch
  uuids16 : Option (Nat × Bool)
  uuids32 : Option (Nat × Bool)

namespace ParseState

def init (scratch : ParseScratch) : ParseState := ⟨{}, scratch, none, none⟩

/-- Takes in one entry: the words of a 16- or 32-bit UUID list go to the front of its table, the
other entries into the field set. -/
def put (st : ParseState) : Field → Except ParseStop ParseState
  | .uuids16 l =>
    match st.scratch.uuids16.writeFront l.uuids with
    | some t => .ok { st with scratch.uuids16 := t, uuids16 := some (l.uuids.length, l.complete) }
    | none => .error .scratchOverrun
  | .uuids32 l =>
    match st.scratch.uuids32.writeFront l.uuids with
    | some t => .ok { st with scratch.uuids32 := t, uuids32 := some (l.uuids.length, l.complete) }
    | none => .error .scratchOverrun
  | fld => .ok { st with fields := st.fields.insert fld }

/-- Takes in one record: a record that breaks its length rule stops the decoding with its fault,
one of an unknown type is skipped. -/
def step (st : ParseState) (r : Record) : Except ParseStop ParseState :=
  match Field.ofRecord r with
  | .error f => .error (.fault f)
  | .ok none => .ok st
  | .ok (some fld) => st.put fld

/-- The field set once the records are read: the 16- and 32-bit UUID lists are read out of the
front of their tables.  A count never exceeds its table, since it was written there. -/
def finish (st : ParseState) : FieldSet :=
  { st.fields with
    uuids16 := st.uuids16.map fun (count, complete) => ⟨st.scratch.uuids16.front count, complete⟩
    uuids32 := st.uuids32.map fun (count, complete) => ⟨st.scratch.uuids32.front count, complete⟩ }

end ParseState

/-- Decodes a payload as the program does, on a scratch holding anything: the records are taken
in one after the other, the first fault stopping the decoding, and the lists are read out of the
scratch at the end. -/
def FieldSet.parse (src : List UInt8) (scratch : ParseScratch) : Except ParseStop FieldSet := do
  let framing := readRecords src
  let st ← framing.records.foldlM ParseState.step (ParseState.init scratch)
  match framing.fault with
  | some f => .error (.fault f)
  | none => .ok st.finish

end AdvertisingData
