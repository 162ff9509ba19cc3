/-!
# AD types

Every record of advertising data starts with a one-byte type code.  `AdType` names the codes
this library understands and keeps any other code as `AdType.unknown`, so that reading a type
code and writing it back never changes it.  The service UUID lists of the three widths and the
local name come in a complete and an incomplete variant, told apart by `AdType.isComplete`.
-/

namespace AdvertisingData

/-- The type of an advertising record. -/
inductive AdType
  | flags
  | incompleteUuids16
  | completeUuids16
  | incompleteUuids32
  | completeUuids32
  | incompleteUuids128
  | completeUuids128
  | shortName
  | completeName
  | txPowerLevel
  | deviceClass
  | connIntervalRange
  | serviceDataUuid16
  | publicTargetAddress
  | appearance
  | advInterval
  | leAddress
  | leRole
  | serviceDataUuid32
  | serviceDataUuid128
  | uri
  | manufacturerData
  | unknown (code : UInt8)
deriving DecidableEq, Repr

namespace AdType

def code : AdType → UInt8
  | flags => 0x01
  | incompleteUuids16 => 0x02
  | completeUuids16 => 0x03
  | incompleteUuids32 => 0x04
  | completeUuids32 => 0x05
  | incompleteUuids128 => 0x06
  | completeUuids128 => 0x07
  | shortName => 0x08
  | completeName => 0x09
  | txPowerLevel => 0x0A
  | deviceClass => 0x0D
  | connIntervalRange => 0x12
  | serviceDataUuid16 => 0x16
  | publicTargetAddress => 0x17
  | appearance => 0x19
  | advInterval => 0x1A
  | leAddress => 0x1B
  | leRole => 0x1C
  | serviceDataUuid32 => 0x20
  | serviceDataUuid128 => 0x21
  | uri => 0x24
  | manufacturerData => 0xFF
  | unknown c => c

/-- The record type a code denotes. -/
def ofCode (c : UInt8) : AdType :=
  match c.toNat with
  | 0x01 => flags
  | 0x02 => incompleteUuids16
  | 0x03 => completeUuids16
  | 0x04 => incompleteUuids32
  | 0x05 => completeUuids32
  | 0x06 => incompleteUuids128
  | 0x07 => completeUuids128
  | 0x08 => shortName
  | 0x09 => completeName
  | 0x0A => txPowerLevel
  | 0x0D => deviceClass
  | 0x12 => connIntervalRange
  | 0x16 => serviceDataUuid16
  | 0x17 => publicTargetAddress
  | 0x19 => appearance
  | 0x1A => advInterval
  | 0x1B => leAddress
  | 0x1C => leRole
  | 0x20 => serviceDataUuid32
  | 0x21 => serviceDataUuid128
  | 0x24 => uri
  | 0xFF => manufacturerData
  | _ => unknown c

def uuids16 (complete : Bool) : AdType := if complete then completeUuids16 else incompleteUuids16

def uuids32 (complete : Bool) : AdType := if complete then completeUuids32 else incompleteUuids32

def uuids128 (complete : Bool) : AdType :=
  if complete then completeUuids128 else incompleteUuids128

def localName (complete : Bool) : AdType := if complete then completeName else shortName

def isComplete : AdType → Bool
  | completeUuids16 | completeUuids32 | completeUuids128 | completeName => true
  | _ => false

def name : AdType → String
  | flags => "Flags"
  | incompleteUuids16 => "IncompleteUuids16"
  | completeUuids16 => "CompleteUuids16"
  | incompleteUuids32 => "IncompleteUuids32"
  | completeUuids32 => "CompleteUuids32"
  | incompleteUuids128 => "IncompleteUuids128"
  | completeUuids128 => "CompleteUuids128"
  | shortName => "ShortName"
  | completeName => "CompleteName"
  | txPowerLevel => "TxPowerLevel"
  | deviceClass => "DeviceClass"
  | connIntervalRange => "SlaveIntervalRange"
  | serviceDataUuid16 => "ServiceDataUuid16"
  | publicTargetAddress => "PublicTargetAddress"
  | appearance => "Appearance"
  | advInterval => "AdvInterval"
  | leAddress => "LeAddress"
  | leRole => "LeRole"
  | serviceDataUuid32 => "ServiceDataUuid32"
  | serviceDataUuid128 => "ServiceDataUuid128"
  | uri => "Uri"
  | manufacturerData => "ManufacturerData"
  | unknown c => "Unknown(" ++ toString c.toNat ++ ")"

theorem code_ofCode (c : UInt8) : (ofCode c).code = c := by
  unfold ofCode
  split <;> simp_all [code, ← UInt8.toNat_inj]

@[simp] theorem isComplete_uuids16 (b : Bool) : (uuids16 b).isComplete = b := by
  cases b <;> rfl

@[simp] theorem isComplete_uuids32 (b : Bool) : (uuids32 b).isComplete = b := by
  cases b <;> rfl

@[simp] theorem isComplete_uuids128 (b : Bool) : (uuids128 b).isComplete = b := by
  cases b <;> rfl

@[simp] theorem isComplete_localName (b : Bool) : (localName b).isComplete = b := by
  cases b <;> rfl

end AdType

end AdvertisingData
