import AdvertisingData.Fields.Basic
import AdvertisingData.Text.Utf8
/-!
# Reading entries of a field set

Several entries are byte strings with structure inside: service data (a UUID, then data),
manufacturer data (a company identifier, then data), the LE device address, public target
addresses and 128-bit UUID lists (whole pieces), the connection interval range and the local name
(text when it is well-formed UTF-8).  A view is `none` exactly when the bytes are too short for
the structure, and otherwise its parts put back together give the bytes again.
-/

namespace AdvertisingData

namespace ServiceUuids

def toUuids {α : Type} (widen : α → Uuid) (l : ServiceUuids α) : List Uuid := l.uuids.map widen

end ServiceUuids

namespace ServiceUuids128

def count (l : ServiceUuids128) : Nat := l.bytes.length / 16

def isEmpty (l : ServiceUuids128) : Bool := l.count == 0

/-- The UUIDs of the whole 16-byte pieces, in order. -/
def toUuids (l : ServiceUuids128) : List Uuid :=
  (Bytes.chunks 16 l.bytes).filterMap Uuid.ofSliceLe?

end ServiceUuids128

namespace LocalName

/-- The name as text, when its bytes are well-formed UTF-8. -/
def text? (n : LocalName) : Option String := Utf8.toString? n.bytes

end LocalName

/-- Service data taken apart: the UUID its first `uuidLen` bytes encode, and the rest; `none` when
there are fewer than `uuidLen` bytes. -/
def splitServiceData (uuidLen : Nat) (data : List UInt8) : Option (Uuid × List UInt8) :=
  if data.length < uuidLen then none
  else (Uuid.ofSliceLe? (data.take uuidLen)).map fun u => (u, data.drop uuidLen)

namespace FieldSet

def flagsValue (s : FieldSet) : Option AdFlags :=
  match s.flags with
  | some (.value f) => some f
  | _ => none

def connIntervalBounds (s : FieldSet) : Option (UInt16 × UInt16) :=
  s.connIntervalRange.map fun r =>
    (Bytes.readLe16 r.toList, Bytes.readLe16 (r.toList.drop 2))

/-- The public target addresses, one per whole six-byte piece; none when the entry is absent. -/
def publicTargetList (s : FieldSet) : List BdAddr :=
  (Bytes.chunks 6 (s.publicTargets.getD [])).filterMap BdAddr.ofPrefix?

/-- The LE device address and its type, read from bit 0 of the seventh byte. -/
def leAddressValue (s : FieldSet) : Option (BdAddr × AddressType) :=
  s.leAddress.bind fun a =>
    (BdAddr.ofPrefix? a.toList).map fun addr =>
      (addr, AddressType.ofCode ((a.toList.getD 6 0) &&& 0x01))

def leRoleValue (s : FieldSet) : Option LeRole := s.leRole.bind LeRole.ofCode?

def serviceData16Value (s : FieldSet) : Option (Uuid × List UInt8) :=
  s.serviceData16.bind (splitServiceData 2)

def serviceData32Value (s : FieldSet) : Option (Uuid × List UInt8) :=
  s.serviceData32.bind (splitServiceData 4)

def serviceData128Value (s : FieldSet) : Option (Uuid × List UInt8) :=
  s.serviceData128.bind (splitServiceData 16)

/-- The manufacturer data taken apart: the company identifier and the rest; `none` when there are
fewer than two bytes. -/
def manufacturerSpecific (s : FieldSet) : Option (UInt16 × List UInt8) :=
  s.manufacturerData.bind fun d =>
    if d.length < 2 then none else some (Bytes.readLe16 d, d.drop 2)

end FieldSet

end AdvertisingData
