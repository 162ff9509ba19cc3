import AdvertisingData.Bytes
/-!
# Hexadecimal digits

The digits of base 16 and the numerals built from them.  Output uses one letter case throughout
(`LetterCase`); input accepts either case.  Numbers are written with a fixed number of digits
(`Hex.fixed`), the form `0x%04X` and its relatives take, or with as many digits as they need
(`Hex.minimal`), the form of a `\u{...}` escape.  A byte is two digits, the high one first.
-/

namespace AdvertisingData

inductive LetterCase
  | lower
  | upper
deriving DecidableEq, Repr

namespace Hex

/-- The digit for `d < 16` in the given case. -/
def digit (c : LetterCase) (d : Nat) : Char :=
  if d < 10 then Char.ofNat (48 + d)
  else match c with
    | .lower => Char.ofNat (87 + d)
    | .upper => Char.ofNat (55 + d)

/-- The value of a hexadecimal digit of either case. -/
def value? (ch : Char) : Option Nat :=
  if '0' ≤ ch ∧ ch ≤ '9' then some (ch.toNat - 48)
  else if 'a' ≤ ch ∧ ch ≤ 'f' then some (ch.toNat - 87)
  else if 'A' ≤ ch ∧ ch ≤ 'F' then some (ch.toNat - 55)
  else none

/-- The value of a hexadecimal digit, `0` for a character that is not one. -/
def digitValue (ch : Char) : Nat := (value? ch).getD 0

/-- The two base-16 digits of a byte, the high one first. -/
def nibbles (b : UInt8) : List Nat := [b.toNat / 16, b.toNat % 16]

def byteDigits (c : LetterCase) (b : UInt8) : List Char :=
  [digit c (b.toNat / 16), digit c (b.toNat % 16)]

/-- The `w` digits of `n` in base 16, most significant first; higher digits are dropped. -/
def fixedDigits : Nat → Nat → List Nat
  | 0, _ => []
  | w + 1, n => fixedDigits w (n / 16) ++ [n % 16]

/-- `n` written with exactly `w` hexadecimal digits, zero-padded on the left. -/
def fixed (c : LetterCase) (w n : Nat) : String :=
  String.ofList ((fixedDigits w n).map (digit c))

/-- The digits of `n` in base 16 without leading zeros (`0` is one digit), least significant
first.  The fuel `n + 1` is never exhausted, as each step divides by 16. -/
def minimalDigitsRev (fuel n : Nat) : List Nat :=
  match fuel with
  | 0 => []
  | fuel + 1 => if n < 16 then [n] else n % 16 :: minimalDigitsRev fuel (n / 16)

/-- `n` written with as many hexadecimal digits as it needs. -/
def minimal (c : LetterCase) (n : Nat) : String :=
  String.ofList ((minimalDigitsRev (n + 1) n).reverse.map (digit c))

@[simp] theorem length_fixedDigits (w n : Nat) : (fixedDigits w n).length = w := by
  induction w generalizing n with
  | zero => rfl
  | succ w ih => simp [fixedDigits, ih]

end Hex

end AdvertisingData
