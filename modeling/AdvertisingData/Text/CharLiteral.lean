import AdvertisingData.Text.Hex
/-!
# Characters quoted as literals

Error messages name a bad character as a character literal: between single quotes, the quote,
the backslash and the usual control characters escaped by letter, any other character that does
not print escaped as `\u{...}` in lowercase hexadecimal.  The characters that reach these
messages come from single bytes, U+0000–U+00FF, for which `CharLiteral.printsAsIs` decides
printability; characters past U+00FF are treated as printing.
-/

namespace AdvertisingData

namespace CharLiteral

/-- Whether a character of U+0000–U+00FF is shown as itself rather than escaped; past U+00FF,
`true`. -/
def printsAsIs (c : Char) : Bool :=
  let n := c.toNat
  !(n < 0x20 || (0x7F ≤ n && n ≤ 0xA0) || n == 0xAD)

/-- The character as it appears between the quotes of a literal. -/
def escape (c : Char) : String :=
  if c = '\x00' then "\\0"
  else if c = '\t' then "\\t"
  else if c = '\r' then "\\r"
  else if c = '\n' then "\\n"
  else if c = '\\' then "\\\\"
  else if c = '\'' then "\\'"
  else if printsAsIs c then String.singleton c
  else "\\u\x7b" ++ Hex.minimal .lower c.toNat ++ "\x7d"

/-- The character written as a literal, quotes included. -/
def quote (c : Char) : String := "'" ++ escape c ++ "'"

end CharLiteral

end AdvertisingData
