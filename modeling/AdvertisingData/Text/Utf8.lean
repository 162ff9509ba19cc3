/-!
# Well-formed UTF-8

A local name is shown as text only when its bytes are well-formed UTF-8 in the strict sense:
every character in its shortest encoding, no surrogate halves, nothing above U+10FFFF.  The table
of well-formed sequences is `Utf8.leadShape`: a lead byte fixes how many continuation bytes follow
and the range the first of them must lie in, every later one lying in `0x80`–`0xBF`.  Checking
the first continuation byte against the narrowed range is what rules out overlong forms (after
`0xE0`, `0xF0`), surrogates (after `0xED`) and values past U+10FFFF (after `0xF4`).
-/

namespace AdvertisingData

namespace Utf8

/-- What a lead byte `b ≥ 0x80` asks of the bytes after it: how many continuation bytes follow,
and the least and greatest value the first of them may take.  `none` for a byte that never leads
a well-formed sequence (`0x80`–`0xC1`, `0xF5`–`0xFF`). -/
def leadShape (b : Nat) : Option (Nat × Nat × Nat) :=
  if 0xC2 ≤ b ∧ b ≤ 0xDF then some (1, 0x80, 0xBF)
  else if b = 0xE0 then some (2, 0xA0, 0xBF)
  else if 0xE1 ≤ b ∧ b ≤ 0xEC then some (2, 0x80, 0xBF)
  else if b = 0xED then some (2, 0x80, 0x9F)
  else if 0xEE ≤ b ∧ b ≤ 0xEF then some (2, 0x80, 0xBF)
  else if b = 0xF0 then some (3, 0x90, 0xBF)
  else if 0xF1 ≤ b ∧ b ≤ 0xF3 then some (3, 0x80, 0xBF)
  else if b = 0xF4 then some (3, 0x80, 0x8F)
  else none

/-- The bits a lead byte contributes to the scalar value, by the number of continuation bytes. -/
def leadBits (b count : Nat) : Nat :=
  match count with
  | 1 => b % 0x20
  | 2 => b % 0x10
  | _ => b % 0x08

/-- Folds continuation bytes into the scalar value so far, six bits each; `none` when one of them
is outside `0x80`–`0xBF`. -/
def addContinuation : Nat → List UInt8 → Option Nat
  | acc, [] => some acc
  | acc, c :: cs =>
    if 0x80 ≤ c.toNat ∧ c.toNat ≤ 0xBF then addContinuation (acc * 64 + (c.toNat - 0x80)) cs
    else none

/-- The scalar value of one well-formed sequence of continuation bytes `conts` after lead `b`. -/
def sequenceValue (b : Nat) (conts : List UInt8) : Option Nat :=
  match leadShape b, conts with
  | some (count, lo, hi), c :: _ =>
    if conts.length = count ∧ lo ≤ c.toNat ∧ c.toNat ≤ hi then
      addContinuation (leadBits b count) conts
    else none
  | _, _ => none

/-- The characters of a well-formed UTF-8 byte string, or `none` when it is not well formed. -/
def decode? (bs : List UInt8) : Option (List Char) :=
  match bs with
  | [] => some []
  | b :: rest =>
    if b.toNat < 0x80 then (decode? rest).map (Char.ofNat b.toNat :: ·)
    else
      match leadShape b.toNat with
      | none => none
      | some (count, _, _) =>
        match sequenceValue b.toNat (rest.take count) with
        | none => none
        | some v => (decode? (rest.drop count)).map (Char.ofNat v :: ·)
termination_by bs.length
decreasing_by all_goals simp only [List.length_cons, List.length_drop]; omega

def toString? (bs : List UInt8) : Option String := (decode? bs).map String.ofList

end Utf8

end AdvertisingData
