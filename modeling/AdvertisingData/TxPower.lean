/-!
# Transmit power sources

A field set may ask for its transmit power level to be filled in when it is written
(`TxPowerLevel.auto`).  The value then comes from a source: a controller query supplied by the
caller, which answers with a level in dBm or fails with a reason, or the built-in source used when
the caller supplies none, which always fails.  Writing consults the source at most once, and
only when it reaches the transmit power field.
-/

namespace AdvertisingData

/-- Why a transmit power source gave no level. -/
inductive TxPowerFault
  | unavailable
  | failed (reason : String)
deriving DecidableEq, Repr

def TxPowerFault.reason : TxPowerFault → String
  | .unavailable => "No tx power source available"
  | .failed r => r

/-- Where a transmit power level comes from. -/
inductive TxPowerSource
  | unavailable
  | query (answer : Except String Int8)
deriving Repr

namespace TxPowerSource

/-- The level the source gives, or why it gives none. -/
def read : TxPowerSource → Except TxPowerFault Int8
  | .unavailable => .error .unavailable
  | .query (.ok level) => .ok level
  | .query (.error reason) => .error (.failed reason)

/-- How many times the caller's query ran when the source was consulted `n` times: the built-in
source is not the caller's, so consulting it runs nothing. -/
def callsMade : TxPowerSource → Nat → Nat
  | .unavailable, _ => 0
  | .query _, n => n

end TxPowerSource

end AdvertisingData
