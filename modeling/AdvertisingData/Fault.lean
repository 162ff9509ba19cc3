import AdvertisingData.TxPower
import AdvertisingData.Text.Hex
/-!
# Faults

Reading and writing advertising data fail for three reasons: a payload or a write does not fit
(`Fault.tooLarge`, with the size needed and the size there is), a value has a length its type
does not allow (`Fault.badLength`, with the type code and the length), or the transmit power
level could not be read (`Fault.txPower`).  Each has the message of the library's diagnostics.
-/

namespace AdvertisingData

/-- Why reading or writing advertising data failed. -/
inductive Fault
  | tooLarge (required available : Nat)
  | badLength (code : UInt8) (len : Nat)
  | txPower (fault : TxPowerFault)
deriving DecidableEq, Repr

/-- The diagnostic message of a fault.  Type codes are shown as `0x` and two lowercase digits. -/
def Fault.message : Fault → String
  | .tooLarge r a =>
    "Advertising data too large: " ++ toString r ++ " bytes required, " ++ toString a ++
      " available"
  | .badLength c n =>
    "Invalid length " ++ toString n ++ " for AD type 0x" ++ Hex.fixed .lower 2 c.toNat
  | .txPower f => "Failed to read advertising tx power: " ++ f.reason

end AdvertisingData
