import AdvertisingData.Text.CharLiteral
/-!
# The hexadecimal codec

UUID text goes through a hexadecimal codec of its own library: an encoder of bytes, a decoder
into a buffer of fixed size, and the text of a decoding fault.  The codec is a parameter
(`HexCodec`); what UUID text relies on of it is `HexCodec.Lawful`: lowercase digits two a byte on
output, and on input of the right length, digits of either case two a byte, the high one first,
or the first byte that is not a digit with its position.  `HexCodec.standard` is one executable
codec, and has these laws.
-/

namespace AdvertisingData

/-- Why hexadecimal text does not decode. -/
inductive HexError
  | invalidHexCharacter (c : Char) (index : Nat)
  | oddLength
  | invalidStringLength
deriving DecidableEq, Repr

structure HexCodec where
  encode : List UInt8 → String
  /-- Decodes text given as bytes into a buffer of `n` bytes. -/
  decodeToSlice : List UInt8 → (n : Nat) → Except HexError (FixedBytes n)
  describe : HexError → String

namespace HexCodec

/-- What UUID text relies on of its codec. -/
structure Lawful (hex : HexCodec) : Prop where
  /-- Encoding writes the two lowercase digits of each byte, the high one first. -/
  toList_encode : ∀ bs, (hex.encode bs).toList = bs.flatMap (Hex.byteDigits .lower)
  /-- Text of `2 n` digits of either case decodes to `n` bytes, a byte from each pair of
  digits, the high one first. -/
  decodeToSlice_ok : ∀ (data : List UInt8) (n : Nat), data.length = 2 * n →
    (∀ b ∈ data, (Char.ofNat b.toNat).isHexDigit = true) →
    ∃ out, hex.decodeToSlice data n = .ok out ∧
      out.toList.flatMap Hex.nibbles = data.map fun b => Hex.digitValue (Char.ofNat b.toNat)
  /-- Text of `2 n` bytes that are not all digits fails at the first byte that is not one. -/
  decodeToSlice_error : ∀ (data : List UInt8) (n i : Nat) (hi : i < data.length),
    data.length = 2 * n → (Char.ofNat data[i].toNat).isHexDigit = false →
    (∀ b ∈ data.take i, (Char.ofNat b.toNat).isHexDigit = true) →
    hex.decodeToSlice data n = .error (.invalidHexCharacter (Char.ofNat data[i].toNat) i)

end HexCodec

namespace Hex

def encode (c : LetterCase) (bs : List UInt8) : String :=
  String.join (bs.map fun b => fixed c 2 b.toNat)

def digitAt (b : UInt8) (i : Nat) : Except HexError Nat :=
  match value? (Char.ofNat b.toNat) with
  | some d => .ok d
  | none => .error (.invalidHexCharacter (Char.ofNat b.toNat) i)

/-- The bytes of digits read two a byte, positions counted from `i`, each digit checked in
order. -/
def decodeFrom (i : Nat) : List UInt8 → Except HexError (List UInt8)
  | [] => .ok []
  | [_] => .error .oddLength
  | hi :: lo :: rest => do
    let h ← digitAt hi i
    let l ← digitAt lo (i + 1)
    let tail ← decodeFrom (i + 2) rest
    pure (UInt8.ofNat (16 * h + l) :: tail)

/-- Decoding into `n` bytes: the length is checked before any digit. -/
def decodeToSlice (data : List UInt8) (n : Nat) : Except HexError (FixedBytes n) :=
  if data.length % 2 ≠ 0 then .error .oddLength
  else if data.length / 2 ≠ n then .error .invalidStringLength
  else match decodeFrom 0 data with
    | .ok out => if h : out.length = n then .ok ⟨out, h⟩ else .error .invalidStringLength
    | .error e => .error e

def describe : HexError → String
  | .invalidHexCharacter c i =>
    "Invalid character " ++ CharLiteral.quote c ++ " at position " ++ toString i
  | .oddLength => "Odd number of digits"
  | .invalidStringLength => "Invalid string length"

end Hex

/-- An executable codec: lowercase digits out, `Hex.decodeToSlice` in. -/
def HexCodec.standard : HexCodec := ⟨Hex.encode .lower, Hex.decodeToSlice, Hex.describe⟩

end AdvertisingData
