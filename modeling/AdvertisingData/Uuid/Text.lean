import AdvertisingData.Uuid
/-!
# UUIDs from text

A UUID is written as hexadecimal digits, in big-endian order, possibly with hyphens anywhere.
With the hyphens removed the text must be 4, 8 or 32 bytes long (UTF-8 bytes, not characters):
4 digits are a 16-bit short UUID, 8 a 32-bit one and 32 a full 128-bit UUID.  Any other length
is refused before the codec sees the digits; after that a fault is the codec's.
-/

namespace AdvertisingData

namespace Uuid

/-- Why text is not a UUID. -/
inductive TextError
  | badLength
  | hex (e : HexError)
deriving DecidableEq, Repr

def TextError.message (hex : HexCodec) : TextError → String
  | .badLength => "Invalid UUID length"
  | .hex e => "Invalid UUID: " ++ hex.describe e

/-- The digits decoded into `n` big-endian bytes, made a UUID by `mk`. -/
def decodeDigits (hex : HexCodec) (cleaned : List UInt8) (n : Nat) (mk : FixedBytes n → Uuid) :
    Except TextError Uuid :=
  ((hex.decodeToSlice cleaned n).mapError .hex).map mk

/-- The UUID written in UTF-8 text given as bytes: the hyphens are dropped, and the length of what
is left says how many bytes the digits decode to and how they make a UUID. -/
def ofTextBytes (hex : HexCodec) (text : List UInt8) : Except TextError Uuid :=
  let cleaned := text.filter (· != 0x2D)
  if cleaned.length = 4 then
    decodeDigits hex cleaned 2 fun be => ofU16 (Bytes.readLe16 be.toList.reverse)
  else if cleaned.length = 8 then
    decodeDigits hex cleaned 4 fun be => ofU32 (Bytes.readLe32 be.toList.reverse)
  else if cleaned.length = 32 then
    decodeDigits hex cleaned 16 fun be => ofBytesBe be.toList be.length_toList
  else .error .badLength

/-- The UUID written in the text: `180D`, `0000180D`, or the 32-digit form with or without
hyphens. -/
def ofText (hex : HexCodec) (s : String) : Except TextError Uuid :=
  ofTextBytes hex s.toUTF8.toList

end Uuid

end AdvertisingData
