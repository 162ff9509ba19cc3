import AdvertisingData.Fields.Basic
import AdvertisingData.Writer
/-!
# Encoding a field set

A field set is written as one record per present entry, in the order of the fields of
`FieldSet`.  `FieldSet.plan` lists those records, each with the fault that keeps it from being
written; `Writer.build` writes them one after the other and stops at the first fault, keeping
what it wrote.  Empty entries and flags with no bit set are skipped; values are held only to the
length byte, not to the 29 bytes decoding allows.  The transmit power source is consulted when
the plan reaches an entry left to it, and at no other time.
-/

namespace AdvertisingData

/-- One step of building a payload: the record to write, or the fault that keeps an entry from
being written; and whether producing it consulted the transmit power source. -/
structure PlanStep where
  result : Except Fault Record
  readsSource : Bool
deriving Repr

namespace PlanStep

def write (type : AdType) (value : List UInt8) : PlanStep := ⟨.ok ⟨type, value⟩, false⟩

def checked (type : AdType) (value : List UInt8) (ok : Bool) : PlanStep :=
  if ok then write type value else ⟨.error (.badLength type.code value.length), false⟩

end PlanStep

namespace FieldSet

def planFlags : Option FlagsField → List PlanStep
  | some (.value f) => if f.isEmpty then [] else [.write .flags [f.bits]]
  | _ => []

def planBytes (type : AdType) (check : Nat → Bool) : Option (List UInt8) → List PlanStep
  | some (b :: bs) => [.checked type (b :: bs) (check (b :: bs).length)]
  | _ => []

/-- The transmit power step: the level given, or the one the source gives. -/
def planTxPower (tx : TxPowerSource) : Option TxPowerLevel → List PlanStep
  | none => []
  | some (.level l) => [.write .txPowerLevel [l.toUInt8]]
  | some .auto =>
    match tx.read with
    | .ok l => [⟨.ok ⟨.txPowerLevel, [l.toUInt8]⟩, true⟩]
    | .error f => [⟨.error (.txPower f), true⟩]

/-- The records a field set is written as, in order, each with what keeps it from being written;
the transmit power source is consulted for a level left to it. -/
def plan (s : FieldSet) (tx : TxPowerSource) : List PlanStep :=
  planFlags s.flags ++
  (match s.uuids16 with
    | some l => if l.uuids.isEmpty then []
      else [.write (.uuids16 l.complete) (l.uuids.flatMap Bytes.le16)]
    | none => []) ++
  (match s.uuids32 with
    | some l => if l.uuids.isEmpty then []
      else [.write (.uuids32 l.complete) (l.uuids.flatMap Bytes.le32)]
    | none => []) ++
  (match s.uuids128 with
    | some l => planBytes (.uuids128 l.complete) (· % 16 == 0) (some l.bytes)
    | none => []) ++
  (match s.name with
    | some n => planBytes (.localName n.complete) (fun _ => true) (some n.bytes)
    | none => []) ++
  planTxPower tx s.txPowerLevel ++
  (s.deviceClass.map fun b => PlanStep.write .deviceClass b.toList).toList ++
  (s.connIntervalRange.map fun b => PlanStep.write .connIntervalRange b.toList).toList ++
  planBytes .serviceDataUuid16 (2 ≤ ·) s.serviceData16 ++
  planBytes .publicTargetAddress (· % 6 == 0) s.publicTargets ++
  (s.appearance.map fun v => PlanStep.write .appearance (Bytes.le16 v)).toList ++
  (s.advInterval.map fun v => PlanStep.write .advInterval (Bytes.le16 v)).toList ++
  (s.leAddress.map fun b => PlanStep.write .leAddress b.toList).toList ++
  (s.leRole.map fun v => PlanStep.write .leRole [v]).toList ++
  planBytes .serviceDataUuid32 (4 ≤ ·) s.serviceData32 ++
  planBytes .serviceDataUuid128 (16 ≤ ·) s.serviceData128 ++
  planBytes .uri (fun _ => true) s.uri ++
  planBytes .manufacturerData (fun _ => true) s.manufacturerData

end FieldSet

/-- What building a payload left: the writer, the fault that stopped it if one did, and how many
times the transmit power source was consulted. -/
structure BuildOutcome where
  writer : Writer
  fault : Option Fault
  sourceReads : Nat
deriving Repr

namespace Writer

/-- Writes the planned records in order, stopping at the first fault. -/
def build (w : Writer) : List PlanStep → BuildOutcome
  | [] => ⟨w, none, 0⟩
  | s :: rest =>
    let reads := if s.readsSource then 1 else 0
    match s.result with
    | .error f => ⟨w, some f, reads⟩
    | .ok r =>
      match w.writeRecord r with
      | .error f => ⟨w, some f, reads⟩
      | .ok w' =>
        let o := w'.build rest
        { o with sourceReads := reads + o.sourceReads }

end Writer

namespace FieldSet

def encode (s : FieldSet) (w : Writer) (tx : TxPowerSource) : BuildOutcome :=
  w.build (s.plan tx)

/-- The payload of the field set in a buffer of `capacity` bytes limited to `maxLen`, or the fault
that keeps it from being written whole. -/
def encodeInto (s : FieldSet) (capacity maxLen : Nat) (tx : TxPowerSource) :
    Except Fault (List UInt8) :=
  let o := s.encode (Writer.create capacity (some maxLen)) tx
  match o.fault with
  | some f => .error f
  | none => .ok o.writer.bytes

end FieldSet

end AdvertisingData
