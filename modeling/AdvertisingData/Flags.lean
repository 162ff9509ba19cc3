/-!
# Advertising flags

The flags record carries one byte of bits describing how a device can be discovered and which
radios it supports.  Five bits have names; the others are reserved but kept as they are, so that
reading a flags byte and writing it back never changes it.  A device in one of the three
discovery modes advertises the flags `AdFlags.forMode` gives: never BR/EDR, and the general or
limited discoverable bit as the mode says.
-/

namespace AdvertisingData

/-- The bits of a flags record, reserved bits included. -/
structure AdFlags where
  bits : UInt8
deriving DecidableEq, Repr

namespace AdFlags

def named : List (String × UInt8) :=
  [("LE_LIMITED_DISCOVERABLE", 0x01), ("LE_GENERAL_DISCOVERABLE", 0x02),
    ("BR_EDR_NOT_SUPPORTED", 0x04), ("SIMULTANEOUS_LE_BR_EDR_CONTROLLER", 0x08),
    ("SIMULTANEOUS_LE_BR_EDR_HOST", 0x10)]

/-- The names of the named bits that are set, in bit order; reserved bits have no name. -/
def names (f : AdFlags) : List String :=
  (named.filter fun p => f.bits &&& p.2 != 0).map Prod.fst

def isEmpty (f : AdFlags) : Bool := f.bits == 0

/-- Whether a device advertises that it is discoverable. -/
inductive DiscoveryMode
  | nonDiscoverable
  | limitedDiscoverable
  | generalDiscoverable
deriving DecidableEq, Repr

/-- The flags a device in the given discovery mode advertises: BR/EDR is never supported, and a
discoverable device says whether it is so for a limited time or in general. -/
def forMode : DiscoveryMode → AdFlags
  | .nonDiscoverable => ⟨0x04⟩
  | .limitedDiscoverable => ⟨0x05⟩
  | .generalDiscoverable => ⟨0x06⟩

end AdFlags

end AdvertisingData
