import AdvertisingData.Flags
import AdvertisingData.Device
import AdvertisingData.Uuid
/-!
# Field sets

A `FieldSet` is what an advertising payload says, one optional entry per kind of record.
Decoding fills it in; encoding writes it out in the order of the structure's fields.  The flags
may be left to the discovery mode (`FlagsField.auto`, settled by `FieldSet.resolveFlags`) and the
transmit power level to a source read while encoding (`TxPowerLevel.auto`).
-/

namespace AdvertisingData

/-- The flags entry: fixed bits, or left to the discovery mode. -/
inductive FlagsField
  | auto
  | value (flags : AdFlags)
deriving DecidableEq, Repr

/-- The transmit power level entry, in dBm: fixed, or read from the source when encoding. -/
inductive TxPowerLevel
  | auto
  | level (dBm : Int8)
deriving DecidableEq, Repr

structure ServiceUuids (α : Type) where
  uuids : List α
  complete : Bool
deriving DecidableEq, Repr

/-- The 128-bit service UUIDs as their on-air bytes, 16 a UUID, and whether the list is
complete.  Decoding only ever yields a whole number of UUIDs; a field set built by hand may hold
any bytes, which encoding then refuses. -/
structure ServiceUuids128 where
  bytes : List UInt8
  complete : Bool
deriving DecidableEq, Repr

structure LocalName where
  bytes : List UInt8
  complete : Bool
deriving DecidableEq, Repr

/-- The contents of an advertising payload, one optional entry per kind of record. -/
structure FieldSet where
  flags : Option FlagsField := none
  uuids16 : Option (ServiceUuids UInt16) := none
  uuids32 : Option (ServiceUuids UInt32) := none
  uuids128 : Option ServiceUuids128 := none
  name : Option LocalName := none
  txPowerLevel : Option TxPowerLevel := none
  deviceClass : Option (FixedBytes 3) := none
  connIntervalRange : Option (FixedBytes 4) := none
  -- service data: the UUID's bytes, then the data
  serviceData16 : Option (List UInt8) := none
  publicTargets : Option (List UInt8) := none
  appearance : Option UInt16 := none
  advInterval : Option UInt16 := none
  -- six address bytes, then a byte whose bit 0 is the address type
  leAddress : Option (FixedBytes 7) := none
  leRole : Option UInt8 := none
  serviceData32 : Option (List UInt8) := none
  serviceData128 : Option (List UInt8) := none
  uri : Option (List UInt8) := none
  manufacturerData : Option (List UInt8) := none
deriving DecidableEq, Repr

namespace FieldSet

/-- Settles flags left to the discovery mode with the flags of the given mode; fixed flags and
absent flags stay as they are. -/
def resolveFlags (s : FieldSet) (mode : AdFlags.DiscoveryMode) : FieldSet :=
  match s.flags with
  | some .auto => { s with flags := some (.value (AdFlags.forMode mode)) }
  | _ => s

end FieldSet

end AdvertisingData
