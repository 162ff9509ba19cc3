import AdvertisingData.Bytes
import AdvertisingData.Text.Hex
/-!
# Device addresses and roles

A Bluetooth device address is six bytes, least significant first on air and most significant
first in its usual text form `FF:EE:DD:CC:BB:AA`.  An address comes with its type, a byte of
which the values 0–3 are defined; any other value is read as a public address.  A device may
also advertise the LE role it supports or prefers, a byte of which the values 0–3 are defined
and the others mean nothing.
-/

namespace AdvertisingData

/-- A Bluetooth device address. -/
structure BdAddr where
  bytes : FixedBytes 6
deriving DecidableEq, Repr

namespace BdAddr

/-- The address in the first six bytes of a string, when it has six. -/
def ofPrefix? (bs : List UInt8) : Option BdAddr :=
  (FixedBytes.ofList? 6 (bs.take 6)).map BdAddr.mk

/-- The usual text form: most significant byte first, two uppercase digits a byte, separated by
colons. -/
def toText (a : BdAddr) : String :=
  ":".intercalate (a.bytes.toList.reverse.map fun b => Hex.fixed .upper 2 b.toNat)

end BdAddr

inductive AddressType
  | publicDevice
  | randomDevice
  | publicIdentity
  | randomIdentity
deriving DecidableEq, Repr

namespace AddressType

/-- The address type a byte denotes; an undefined value is read as a public address. -/
def ofCode (c : UInt8) : AddressType :=
  match c.toNat with
  | 1 => .randomDevice
  | 2 => .publicIdentity
  | 3 => .randomIdentity
  | _ => .publicDevice

def code : AddressType → UInt8
  | .publicDevice => 0
  | .randomDevice => 1
  | .publicIdentity => 2
  | .randomIdentity => 3

def name : AddressType → String
  | .publicDevice => "Public"
  | .randomDevice => "Random"
  | .publicIdentity => "PublicIdentity"
  | .randomIdentity => "RandomIdentity"

end AddressType

inductive LeRole
  | peripheralOnly
  | centralOnly
  | peripheralPreferred
  | centralPreferred
deriving DecidableEq, Repr

namespace LeRole

/-- The role a byte denotes, if it is one of the four defined values. -/
def ofCode? (c : UInt8) : Option LeRole :=
  match c.toNat with
  | 0 => some .peripheralOnly
  | 1 => some .centralOnly
  | 2 => some .peripheralPreferred
  | 3 => some .centralPreferred
  | _ => none

def code : LeRole → UInt8
  | .peripheralOnly => 0
  | .centralOnly => 1
  | .peripheralPreferred => 2
  | .centralPreferred => 3

def name : LeRole → String
  | .peripheralOnly => "PeripheralOnly"
  | .centralOnly => "CentralOnly"
  | .peripheralPreferred => "PeripheralPreferred"
  | .centralPreferred => "CentralPreferred"

end LeRole

end AdvertisingData
