import AdvertisingData.Text.HexCodec
/-!
# Bluetooth UUIDs

UUIDs of every width are held as one 128-bit value, its 16 bytes in on-air (little-endian)
order, so that UUIDs of different widths denoting one service compare equal.  A 16- or 32-bit
UUID stands for the base UUID `00000000-0000-1000-8000-00805F9B34FB` with the short value in
bytes 12–15 of the little-endian form; `Uuid.asU32` and `Uuid.asU16` read it back.  The text
form goes through a hexadecimal codec given as a parameter (`HexCodec`).
-/

namespace AdvertisingData

/-- A 128-bit UUID. -/
structure Uuid where
  le : FixedBytes 16
deriving DecidableEq, Repr

namespace Uuid

/-- The Bluetooth base UUID in little-endian order. -/
def baseLe : List UInt8 :=
  [0xFB, 0x34, 0x9B, 0x5F, 0x80, 0x00, 0x00, 0x80, 0x00, 0x10, 0x00, 0x00, 0x00, 0x00, 0x00, 0x00]

/-- Where in the little-endian form a short value sits. -/
def shortOffset : Nat := 12

def bytesLe (u : Uuid) : List UInt8 := u.le.toList

def bytesBe (u : Uuid) : List UInt8 := u.le.toList.reverse

def ofBytesLe (bs : List UInt8) (h : bs.length = 16) : Uuid := ⟨⟨bs, h⟩⟩

def ofBytesBe (bs : List UInt8) (h : bs.length = 16) : Uuid :=
  ⟨⟨bs.reverse, by rw [List.length_reverse, h]⟩⟩

/-- The UUID whose 128-bit value, read big-endian, is `n` (taken modulo `2 ^ 128`). -/
def ofValue (n : Nat) : Uuid := ⟨⟨Bytes.ofNatLE 16 n, Bytes.length_ofNatLE 16 n⟩⟩

def value (u : Uuid) : Nat := Bytes.toNatLE u.bytesLe

/-- The UUID a 32-bit short value stands for: the base with the value in bytes 12–15. -/
def ofU32 (v : UInt32) : Uuid :=
  ⟨⟨baseLe.take shortOffset ++ Bytes.le32 v, by simp [baseLe, shortOffset]⟩⟩

/-- The UUID a 16-bit short value stands for, the same as the 32-bit value it widens to. -/
def ofU16 (v : UInt16) : Uuid := ofU32 v.toUInt32

/-- Whether the UUID is built on the base UUID, so that it has a 32-bit short form. -/
def onBase (u : Uuid) : Bool := u.bytesLe.take shortOffset == baseLe.take shortOffset

/-- The 32-bit short form, when the UUID is built on the base UUID. -/
def asU32 (u : Uuid) : Option UInt32 :=
  if u.onBase then some (Bytes.readLe32 (u.bytesLe.drop shortOffset)) else none

/-- The 16-bit short form, when there is a 32-bit one and it fits 16 bits. -/
def asU16 (u : Uuid) : Option UInt16 :=
  match u.asU32 with
  | some v => if v.toNat < 65536 then some v.toUInt16 else none
  | none => none

/-- Comparison with a 16-bit short value, through the 16-bit short form. -/
def eqU16 (u : Uuid) (y : UInt16) : Bool := u.asU16 == some y

def eqU32 (u : Uuid) (x : UInt32) : Bool := u.asU32 == some x

/-- The UUID in its on-air form, whose width is told by its length: 2, 4 or 16 bytes.  Any
other length is not a UUID. -/
def ofSliceLe? (bs : List UInt8) : Option Uuid :=
  if bs.length = 2 then some (ofU16 (Bytes.readLe16 bs))
  else if bs.length = 4 then some (ofU32 (Bytes.readLe32 bs))
  else if h : bs.length = 16 then some (ofBytesLe bs h)
  else none

/-- Cuts a list into consecutive pieces of the given sizes. -/
def splitSizes {α : Type} : List Nat → List α → List (List α)
  | [], _ => []
  | n :: ns, l => l.take n :: splitSizes ns (l.drop n)

/-- The text form: the big-endian bytes as the codec writes them, cut after digits 8, 12, 16 and
20 by hyphens. -/
def toText (hex : HexCodec) (u : Uuid) : String :=
  "-".intercalate ((splitSizes [8, 4, 4, 4, 12] (hex.encode u.bytesBe).toList).map String.ofList)

/-- The diagnostic form: `Uuid(0x` and 4 uppercase digits `)` for a UUID with a 16-bit short
form, else `Uuid(0x` and 8 digits `)` for one with a 32-bit short form, else `Uuid(` text form
`)`. -/
def debugText (hex : HexCodec) (u : Uuid) : String :=
  match u.asU16, u.asU32 with
  | some s, _ => "Uuid(0x" ++ Hex.fixed .upper 4 s.toNat ++ ")"
  | none, some s => "Uuid(0x" ++ Hex.fixed .upper 8 s.toNat ++ ")"
  | none, none => "Uuid(" ++ u.toText hex ++ ")"

end Uuid

end AdvertisingData
