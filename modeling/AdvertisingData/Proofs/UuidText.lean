import AdvertisingData.Uuid.Text
import AdvertisingData.Proofs.Text

/-!
# Reading and writing UUIDs as text

A UUID is written as the 32 digits of its big-endian bytes, cut 8-4-4-4-12 by hyphens.  It is
read by dropping every hyphen and then by the number of bytes left: 4 digits are a 16-bit short
UUID, 8 a 32-bit one, 32 a full UUID, any other number is refused before the codec sees a digit.
Both directions are stated over every codec with the laws of `HexCodec.Lawful`: `ofText_grammar`
gives the reading of every text, in its bytes once the hyphens are gone (`digitBytes`), and
`text_round_trip` that text form and reading undo each other up to hyphens and letter case.
-/

namespace AdvertisingData

namespace Bytes

/-! The bytes of a value and the value of bytes undo each other. -/

theorem ofNatLE_toNatLE (bs : List UInt8) : ofNatLE bs.length (toNatLE bs) = bs := by
  induction bs with
  | nil => rfl
  | cons b bs ih =>
      have hb := b.toNat_lt
      have hmod : (b.toNat + 256 * toNatLE bs) % 256 = b.toNat := by omega
      have hdiv : (b.toNat + 256 * toNatLE bs) / 256 = toNatLE bs := by omega
      simp only [List.length_cons, ofNatLE, toNatLE_cons, hmod, hdiv, ih, UInt8.ofNat_toNat]

theorem toNatLE_lt (bs : List UInt8) : toNatLE bs < 256 ^ bs.length := by
  induction bs with
  | nil => simp
  | cons b bs ih =>
      have hb := b.toNat_lt
      rw [toNatLE_cons, List.length_cons, Nat.pow_succ]
      omega

theorem ofNatLE_toNatLE_reverse {bytes : List UInt8} {w : Nat} (h : bytes.length = w) :
    ofNatLE w (toNatLE bytes.reverse) = bytes.reverse := by
  have hrev := ofNatLE_toNatLE bytes.reverse
  rwa [List.length_reverse, h] at hrev

theorem toNatLE_reverse_lt {bytes : List UInt8} {w : Nat} (h : bytes.length = w) :
    toNatLE bytes.reverse < 256 ^ w := by
  have hlt := toNatLE_lt bytes.reverse
  rwa [List.length_reverse, h] at hlt

theorem foldl_eq_toNatLE_reverse (bs : List UInt8) :
    bs.foldl (fun acc b => 256 * acc + b.toNat) 0 = toNatLE bs.reverse := by
  induction bs using List.reverseRecOn with
  | nil => rfl
  | append_singleton bs b ih =>
      rw [List.foldl_append, ih, List.reverse_append]
      simp only [List.foldl_cons, List.foldl_nil, List.reverse_cons, List.reverse_nil,
        List.nil_append, List.cons_append, toNatLE_cons]
      omega

theorem readLe16_of_length {s : List UInt8} (h : s.length = 2) :
    readLe16 s = UInt16.ofNat (toNatLE s) := by
  rw [readLe16, List.take_of_length_le (by omega)]

theorem readLe32_of_length {s : List UInt8} (h : s.length = 4) :
    readLe32 s = UInt32.ofNat (toNatLE s) := by
  rw [readLe32, List.take_of_length_le (by omega)]

theorem ofNatLE_add (w₁ w₂ n : Nat) :
    ofNatLE (w₁ + w₂) n = ofNatLE w₁ n ++ ofNatLE w₂ (n / 256 ^ w₁) := by
  induction w₁ generalizing n with
  | zero => simp [ofNatLE]
  | succ w ih =>
      rw [Nat.add_right_comm, ofNatLE, ofNatLE, ih, Nat.div_div_eq_div_mul, Nat.pow_succ,
        Nat.mul_comm (256 ^ w)]
      rfl

end Bytes

namespace Uuid

/-- The number the hexadecimal digits among these bytes stand for, the first digit the most
significant. -/
def digitsValue (digits : List UInt8) : Nat :=
  digits.foldl (fun n b => 16 * n + Hex.digitValue (Char.ofNat b.toNat)) 0

@[simp] theorem length_bytesBe (u : Uuid) : u.bytesBe.length = 16 := by
  simp [bytesBe, u.le.length_toList]

theorem map_digitValue_eq (digits : List UInt8) :
    digits.map (fun b => Hex.digitValue (Char.ofNat b.toNat)) =
      (digits.map (Char.ofNat ·.toNat)).map Hex.digitValue := by
  rw [List.map_map]
  rfl

theorem toNatLE_reverse_eq_digitsValue {out digits : List UInt8}
    (h : out.flatMap Hex.nibbles = digits.map fun b => Hex.digitValue (Char.ofNat b.toNat)) :
    Bytes.toNatLE out.reverse = digitsValue digits := by
  rw [← Bytes.foldl_eq_toNatLE_reverse, ← Hex.foldl_flatMap_nibbles, h, List.foldl_map]
  rfl

theorem ofValue_toNatLE_reverse {bytes : List UInt8} (h : bytes.length = 16) :
    ofValue (Bytes.toNatLE bytes.reverse) = ofBytesBe bytes h := by
  simp only [ofValue, ofBytesBe, Bytes.ofNatLE_toNatLE_reverse h]

section Decode

variable {hex : HexCodec} {cleaned : List UInt8} {n : Nat} {mk : FixedBytes n → Uuid}

theorem decodeDigits_of_ok {out : FixedBytes n} (h : hex.decodeToSlice cleaned n = .ok out) :
    decodeDigits hex cleaned n mk = .ok (mk out) := by
  rw [decodeDigits, h]
  rfl

theorem decodeDigits_of_error {e : HexError} (h : hex.decodeToSlice cleaned n = .error e) :
    decodeDigits hex cleaned n mk = .error (.hex e) := by
  rw [decodeDigits, h]
  rfl

theorem decodeDigits_ne_badLength : decodeDigits hex cleaned n mk ≠ .error .badLength := by
  cases h : hex.decodeToSlice cleaned n with
  | error e => simp [decodeDigits_of_error h]
  | ok out => simp [decodeDigits_of_ok h]

end Decode

section Grammar

/-! The reading of text given as bytes, in terms of the bytes `cleaned` left once the hyphens are
dropped. -/

variable {hex : HexCodec} {text cleaned : List UInt8} (hc : text.filter (· != 0x2D) = cleaned)
include hc

theorem ofTextBytes_eq_badLength_iff :
    ofTextBytes hex text = .error .badLength ↔
      ¬ (cleaned.length = 4 ∨ cleaned.length = 8 ∨ cleaned.length = 32) := by
  unfold ofTextBytes
  dsimp only
  rw [hc]
  split_ifs with h4 h8 h32
  all_goals first
    | simp only [decodeDigits_ne_badLength, false_iff, not_not]; omega
    | simp only [true_iff]; omega

theorem ofTextBytes_eq_invalidHexCharacter (laws : hex.Lawful) {i : Nat}
    (hlen : cleaned.length = 4 ∨ cleaned.length = 8 ∨ cleaned.length = 32)
    (hi : i < cleaned.length) (hbad : (Char.ofNat cleaned[i].toNat).isHexDigit = false)
    (hgood : ∀ b ∈ cleaned.take i, (Char.ofNat b.toNat).isHexDigit = true) :
    ofTextBytes hex text = .error (.hex (.invalidHexCharacter (Char.ofNat cleaned[i].toNat) i)) := by
  have herr := fun n (hn : cleaned.length = 2 * n) =>
    laws.decodeToSlice_error cleaned n i hi hn hbad hgood
  unfold ofTextBytes
  dsimp only
  rw [hc]
  split_ifs with h4 h8 h32
  · exact decodeDigits_of_error (herr 2 (by omega))
  · exact decodeDigits_of_error (herr 4 (by omega))
  · exact decodeDigits_of_error (herr 16 (by omega))
  · omega

theorem ofTextBytes_eq_ok (laws : hex.Lawful)
    (hlen : cleaned.length = 4 ∨ cleaned.length = 8 ∨ cleaned.length = 32)
    (hhex : ∀ b ∈ cleaned, (Char.ofNat b.toNat).isHexDigit = true) :
    ofTextBytes hex text = .ok
      (if cleaned.length = 4 then ofU16 (UInt16.ofNat (digitsValue cleaned))
      else if cleaned.length = 8 then ofU32 (UInt32.ofNat (digitsValue cleaned))
      else ofValue (digitsValue cleaned)) := by
  have hout := fun n (hn : cleaned.length = 2 * n) => laws.decodeToSlice_ok cleaned n hn hhex
  unfold ofTextBytes
  dsimp only
  rw [hc]
  -- each length decodes to its number of bytes, whose big-endian value is that of the digits
  split_ifs with h4 h8 h32
  · obtain ⟨out, hdec, hdigits⟩ := hout 2 (by omega)
    rw [decodeDigits_of_ok hdec, Bytes.readLe16_of_length (by simp [out.length_toList]),
      toNatLE_reverse_eq_digitsValue hdigits]
  · obtain ⟨out, hdec, hdigits⟩ := hout 4 (by omega)
    rw [decodeDigits_of_ok hdec, Bytes.readLe32_of_length (by simp [out.length_toList]),
      toNatLE_reverse_eq_digitsValue hdigits]
  · obtain ⟨out, hdec, hdigits⟩ := hout 16 (by omega)
    rw [decodeDigits_of_ok hdec, ← toNatLE_reverse_eq_digitsValue hdigits,
      ofValue_toNatLE_reverse]
  · omega

theorem length_and_isHexDigit_of_ofTextBytes (laws : hex.Lawful) {u : Uuid}
    (h : ofTextBytes hex text = .ok u) :
    (cleaned.length = 4 ∨ cleaned.length = 8 ∨ cleaned.length = 32) ∧
      ∀ b ∈ cleaned, (Char.ofNat b.toNat).isHexDigit = true := by
  have hlen : cleaned.length = 4 ∨ cleaned.length = 8 ∨ cleaned.length = 32 := by
    by_contra hlen
    rw [(ofTextBytes_eq_badLength_iff hc).2 hlen] at h
    cases h
  refine ⟨hlen, ?_⟩
  by_contra hhex
  obtain ⟨i, hi, hbad, hgood⟩ := Hex.exists_first_not_isHexDigit hhex
  rw [ofTextBytes_eq_invalidHexCharacter hc laws hlen hi hbad hgood] at h
  cases h

end Grammar

section Text

theorem filter_toUTF8 (s : String) :
    s.toUTF8.toList.filter (· != 0x2D) =
      (s.toList.filter (· != '-')).flatMap String.utf8EncodeChar := by
  rw [Utf8.toUTF8_toList, Utf8.filter_flatMap_encodeChar]

/-- The UTF-8 bytes of a text once every hyphen is removed from it. -/
def digitBytes (s : String) : List UInt8 :=
  (String.ofList (s.toList.filter (· != '-'))).toUTF8.toList

theorem digitBytes_eq_filter (s : String) :
    digitBytes s = s.toUTF8.toList.filter (· != 0x2D) := by
  rw [digitBytes, Utf8.toUTF8_toList, String.toList_ofList, filter_toUTF8]

theorem toNat_lt_of_isHexDigit_ofNat {b : UInt8} (h : (Char.ofNat b.toNat).isHexDigit = true) :
    b.toNat < 128 := by
  have hlt := Hex.toNat_lt_of_isHexDigit h
  rwa [Hex.toNat_ofNat_of_lt (by have := b.toNat_lt; omega)] at hlt

theorem chars_of_isHexDigit {cs : List Char}
    (h : ∀ b ∈ cs.flatMap String.utf8EncodeChar, (Char.ofNat b.toNat).isHexDigit = true) :
    (cs.flatMap String.utf8EncodeChar).map (Char.ofNat ·.toNat) = cs := by
  obtain ⟨hascii, heq⟩ := Utf8.flatMap_encodeChar_of_ascii fun b hb =>
    toNat_lt_of_isHexDigit_ofNat (h b hb)
  rw [heq, List.map_map]
  conv_rhs => rw [← List.map_id cs]
  apply List.map_congr_left
  intro c hc
  have hc' := hascii c hc
  simp only [Function.comp_apply, id_eq, UInt8.toNat_ofNat']
  rw [Nat.mod_eq_of_lt (by omega), Char.ofNat_toNat]

theorem length_of_isHexDigit {cs : List Char}
    (h : ∀ b ∈ cs.flatMap String.utf8EncodeChar, (Char.ofNat b.toNat).isHexDigit = true) :
    (cs.flatMap String.utf8EncodeChar).length = cs.length := by
  rw [← List.length_map (f := fun b : UInt8 => Char.ofNat b.toNat), chars_of_isHexDigit h]

/-- Bytes decoded from text whose UTF-8 bytes are all digits are written as the text
lowercased. -/
theorem flatMap_byteDigits_of_decoded {cs : List Char} {out : List UInt8}
    (hhex : ∀ b ∈ cs.flatMap String.utf8EncodeChar, (Char.ofNat b.toNat).isHexDigit = true)
    (hout : out.flatMap Hex.nibbles =
      (cs.flatMap String.utf8EncodeChar).map fun b => Hex.digitValue (Char.ofNat b.toNat)) :
    out.flatMap (Hex.byteDigits .lower) = cs.map Char.toLower := by
  have hchars := chars_of_isHexDigit hhex
  have hcs : ∀ ch ∈ cs, ch.isHexDigit = true := by
    rw [← hchars]
    intro ch hch
    obtain ⟨b, hb, rfl⟩ := List.mem_map.1 hch
    exact hhex b hb
  rw [map_digitValue_eq, hchars] at hout
  exact Hex.flatMap_byteDigits_of_nibbles hcs hout

/-- The text `s` is accepted as a UUID exactly as its grammar says, whatever lawful codec reads
its digits: its bytes, hyphens removed, must be 4, 8 or 32, and then the first of them that is not
a hexadecimal digit is the fault, at its position; otherwise the value of its digits, read
big-endian, is a 16-bit or a 32-bit short UUID, or the value of a full one (whose big-endian bytes
are the digits decoded two a byte). -/
theorem ofText_grammar (hex : HexCodec) (laws : hex.Lawful) (s : String) :
    (ofText hex s = .error .badLength ↔ ¬ ((digitBytes s).length = 4 ∨
      (digitBytes s).length = 8 ∨ (digitBytes s).length = 32)) ∧
    ((digitBytes s).length = 4 ∨ (digitBytes s).length = 8 ∨ (digitBytes s).length = 32 →
      (∀ i (hi : i < (digitBytes s).length),
        (Char.ofNat (digitBytes s)[i].toNat).isHexDigit = false →
        (∀ b ∈ (digitBytes s).take i, (Char.ofNat b.toNat).isHexDigit = true) →
        ofText hex s =
          .error (.hex (.invalidHexCharacter (Char.ofNat (digitBytes s)[i].toNat) i))) ∧
      ((∀ b ∈ digitBytes s, (Char.ofNat b.toNat).isHexDigit = true) →
        ((digitBytes s).length = 4 →
          ofText hex s = .ok (ofU16 (UInt16.ofNat (digitsValue (digitBytes s))))) ∧
        ((digitBytes s).length = 8 →
          ofText hex s = .ok (ofU32 (UInt32.ofNat (digitsValue (digitBytes s))))) ∧
        ((digitBytes s).length = 32 → ofText hex s = .ok (ofValue (digitsValue (digitBytes s)))))) := by
  have hc : s.toUTF8.toList.filter (· != 0x2D) = digitBytes s := (digitBytes_eq_filter s).symm
  refine ⟨ofTextBytes_eq_badLength_iff hc, fun hlen => ⟨fun i hi hbad hgood =>
    ofTextBytes_eq_invalidHexCharacter hc laws hlen hi hbad hgood, fun hhex => ?_⟩⟩
  have hok : ofText hex s = .ok _ := ofTextBytes_eq_ok hc laws hlen hhex
  refine ⟨fun h4 => ?_, fun h8 => ?_, fun h32 => ?_⟩
  · rwa [if_pos h4] at hok
  · rwa [if_neg (by omega), if_pos h8] at hok
  · rwa [if_neg (by omega), if_neg (by omega)] at hok

/-- In `18G0` the third character is the first that is not a hexadecimal digit. -/
theorem ofText_grammar_badDigit :
    ofText HexCodec.standard "18G0" = .error (.hex (.invalidHexCharacter 'G' 2)) := by
  have hcleaned : digitBytes "18G0" = [0x31, 0x38, 0x47, 0x30] := by
    rw [digitBytes, Utf8.toUTF8_toList]
    decide
  have h := (ofText_grammar HexCodec.standard HexCodec.standard_lawful "18G0").2
    (by rw [hcleaned]; decide)
  have hbad := h.1 2 (by rw [hcleaned]; decide) (by simp only [hcleaned]; rfl)
    (by
      simp only [hcleaned, List.take_succ_cons, List.take_zero, List.mem_cons, List.not_mem_nil,
        or_false, forall_eq_or_imp, forall_eq]
      exact ⟨rfl, rfl⟩)
  rw [hbad]
  simp only [hcleaned]
  rfl

end Text

section Display

variable {hex : HexCodec}

theorem flatten_splitSizes {α : Type} (ns : List Nat) (l : List α) :
    (splitSizes ns l).flatten = l.take ns.sum := by
  induction ns generalizing l with
  | nil => simp [splitSizes]
  | cons n ns ih =>
      rw [splitSizes, List.flatten_cons, ih, List.sum_cons, List.take_add]

theorem toText_eq_digits (laws : hex.Lawful) (u : Uuid) :
    u.toText hex = "-".intercalate ((splitSizes [8, 4, 4, 4, 12]
      (u.bytesBe.flatMap (Hex.byteDigits .lower))).map String.ofList) := by
  rw [toText, laws.toList_encode]

/-- A 32-bit short UUID is written as the digits of its own four bytes, then the last four groups
of the base UUID. -/
theorem toText_ofU32 (laws : hex.Lawful) (x : UInt32) :
    (ofU32 x).toText hex = String.ofList ((Bytes.le32 x).reverse.flatMap (Hex.byteDigits .lower)) ++
      "-0000-1000-8000-00805f9b34fb" := by
  have hbe : (ofU32 x).bytesBe = (Bytes.le32 x).reverse ++ (baseLe.take shortOffset).reverse := by
    simp [bytesBe, ofU32]
  have hlen : ((Bytes.le32 x).reverse.flatMap (Hex.byteDigits .lower)).length = 8 := by
    rw [Hex.length_flatMap_byteDigits, List.length_reverse, Bytes.length_le32]
  have htail : (splitSizes [4, 4, 4, 12]
      ((baseLe.take shortOffset).reverse.flatMap (Hex.byteDigits .lower))).map String.ofList =
      ["0000", "1000", "8000", "00805f9b34fb"] := by decide
  rw [toText_eq_digits laws, hbe, List.flatMap_append, splitSizes, List.take_left' hlen,
    List.drop_left' hlen, List.map_cons, htail]
  simp only [String.intercalate_cons_cons, String.intercalate_singleton, String.append_assoc]
  exact congrArg _ (by decide)

theorem filter_intercalate_hyphen {gs : List (List Char)} (h : ∀ ch ∈ gs.flatten, ch ≠ '-') :
    (['-'].intercalate gs).filter (· != '-') = gs.flatten := by
  induction gs with
  | nil => rfl
  | cons g gs ih =>
      have hg : g.filter (· != '-') = g :=
        List.filter_eq_self.2 fun ch hch => by simpa using h ch (by simp [hch])
      cases gs with
      | nil => simpa using hg
      | cons g' gs =>
          rw [List.intercalate_cons_cons, List.filter_append, List.filter_append, hg,
            ih fun ch hch => h ch (by simp_all)]
          simp

theorem ofValue_value (u : Uuid) : ofValue (Bytes.toNatLE u.bytesBe.reverse) = u := by
  obtain ⟨⟨bs, hbs⟩⟩ := u
  have h := Bytes.ofNatLE_toNatLE bs
  rw [hbs] at h
  simp only [bytesBe, List.reverse_reverse, ofValue, h]

theorem isHexDigit_of_mem_byteDigits {c : LetterCase} {b : UInt8} {ch : Char}
    (h : ch ∈ Hex.byteDigits c b) : ch.isHexDigit = true := by
  have hb := b.toNat_lt
  simp only [Hex.byteDigits, List.mem_cons, List.not_mem_nil, or_false] at h
  rw [← Hex.isSome_value?]
  rcases h with rfl | rfl
  · rw [Hex.value?_digit c (by omega)]
    rfl
  · rw [Hex.value?_digit c (Nat.mod_lt _ (by omega))]
    rfl

theorem encodeChar_of_isHexDigit {cs : List Char} (h : ∀ ch ∈ cs, ch.isHexDigit = true) :
    ∀ b ∈ cs.flatMap String.utf8EncodeChar, (Char.ofNat b.toNat).isHexDigit = true := by
  intro b hb
  obtain ⟨ch, hch, hb⟩ := List.mem_flatMap.1 hb
  have hlt := Hex.toNat_lt_of_isHexDigit (h ch hch)
  rw [Utf8.encodeChar_of_lt hlt, List.mem_singleton] at hb
  subst hb
  rw [UInt8.toNat_ofNat', Nat.mod_eq_of_lt (by omega), Char.ofNat_toNat]
  exact h ch hch

theorem filter_toText (laws : hex.Lawful) (u : Uuid) :
    (u.toText hex).toList.filter (· != '-') = u.bytesBe.flatMap (Hex.byteDigits .lower) := by
  have hlen : (u.bytesBe.flatMap (Hex.byteDigits .lower)).length = 32 := by
    rw [Hex.length_flatMap_byteDigits, length_bytesBe]
  rw [toText_eq_digits laws, String.toList_intercalate, show "-".toList = ['-'] from rfl]
  simp only [List.map_map, Function.comp_def, String.toList_ofList, List.map_id']
  rw [filter_intercalate_hyphen, flatten_splitSizes, List.take_of_length_le (by rw [hlen]; rfl)]
  intro ch hch
  rw [flatten_splitSizes] at hch
  obtain ⟨b, -, hb⟩ := List.mem_flatMap.1 (List.mem_of_mem_take hch)
  rintro rfl
  exact absurd (isHexDigit_of_mem_byteDigits hb) (by decide)

/-- The text form of a UUID reads back as that UUID. -/
theorem ofText_toText (laws : hex.Lawful) (u : Uuid) : ofText hex (u.toText hex) = .ok u := by
  have hhex : ∀ ch ∈ u.bytesBe.flatMap (Hex.byteDigits .lower), ch.isHexDigit = true := by
    intro ch hch
    obtain ⟨b, -, hb⟩ := List.mem_flatMap.1 hch
    exact isHexDigit_of_mem_byteDigits hb
  -- the bytes left once the hyphens are gone are the 32 digits, one byte each
  have hbytes := encodeChar_of_isHexDigit hhex
  have hc : (u.toText hex).toUTF8.toList.filter (· != 0x2D) =
      (u.bytesBe.flatMap (Hex.byteDigits .lower)).flatMap String.utf8EncodeChar := by
    rw [filter_toUTF8, filter_toText laws]
  have h32 : ((u.bytesBe.flatMap (Hex.byteDigits .lower)).flatMap String.utf8EncodeChar).length =
      32 := by
    rw [length_of_isHexDigit hbytes, Hex.length_flatMap_byteDigits, length_bytesBe]
  have hdigits : u.bytesBe.flatMap Hex.nibbles =
      ((u.bytesBe.flatMap (Hex.byteDigits .lower)).flatMap String.utf8EncodeChar).map
        fun b => Hex.digitValue (Char.ofNat b.toNat) := by
    rw [map_digitValue_eq, chars_of_isHexDigit hbytes, List.map_flatMap]
    simp only [Hex.map_digitValue_byteDigits]
  have hok := ofTextBytes_eq_ok hc laws (Or.inr (Or.inr h32)) hbytes
  rw [if_neg (by omega), if_neg (by omega), ← toNatLE_reverse_eq_digitsValue hdigits,
    ofValue_value] at hok
  exact hok

theorem le32_ofNat_toNatLE {bytes : List UInt8} (h : bytes.length = 4) :
    (Bytes.le32 (UInt32.ofNat (Bytes.toNatLE bytes.reverse))).reverse = bytes := by
  have hlt := Bytes.toNatLE_reverse_lt h
  rw [Bytes.le32, UInt32.toNat_ofNat', Nat.mod_eq_of_lt (by simpa using hlt),
    Bytes.ofNatLE_toNatLE_reverse h, List.reverse_reverse]

theorem le32_ofU16_toNatLE {bytes : List UInt8} (h : bytes.length = 2) :
    (Bytes.le32 (UInt16.ofNat (Bytes.toNatLE bytes.reverse)).toUInt32).reverse =
      [0, 0] ++ bytes := by
  have hlt := Bytes.toNatLE_reverse_lt h
  -- a 16-bit value is its two bytes, then two zero bytes
  have hsplit := Bytes.ofNatLE_add 2 2 (Bytes.toNatLE bytes.reverse)
  rw [Bytes.ofNatLE_toNatLE_reverse h, Nat.div_eq_of_lt hlt] at hsplit
  rw [Bytes.le32, UInt16.toNat_toUInt32, UInt16.toNat_ofNat',
    Nat.mod_eq_of_lt (by simpa using hlt), hsplit]
  simp [Bytes.ofNatLE]

/-- A text that reads as a UUID is, in its hexadecimal digits, the text form of that UUID up to
letter case: the 32 digits of a full UUID cut 8-4-4-4-12, or the digits of a short one completed
by those of the base UUID. -/
theorem toText_of_ofText (laws : hex.Lawful) {s : String} {u : Uuid} (hs : ofText hex s = .ok u) :
    let digits := (s.toList.filter (· != '-')).map Char.toLower
    (digits.length = 32 →
      u.toText hex = "-".intercalate ((splitSizes [8, 4, 4, 4, 12] digits).map String.ofList)) ∧
    (digits.length = 8 → u.toText hex = String.ofList digits ++ "-0000-1000-8000-00805f9b34fb") ∧
    (digits.length = 4 →
      u.toText hex = "0000" ++ String.ofList digits ++ "-0000-1000-8000-00805f9b34fb") := by
  intro digits
  have hc := filter_toUTF8 s
  obtain ⟨hlen, hhex⟩ := length_and_isHexDigit_of_ofTextBytes hc laws hs
  have hdl : digits.length = (s.toList.filter (· != '-')).length := List.length_map _
  -- the bytes left are digits, so they are the characters left, one byte each
  rw [length_of_isHexDigit hhex] at hlen
  have hu := ofTextBytes_eq_ok hc laws (by rwa [length_of_isHexDigit hhex]) hhex
  rw [← ofText, hs, Except.ok.injEq, length_of_isHexDigit hhex] at hu
  have hout := fun n (hn : _ = 2 * n) => laws.decodeToSlice_ok _ n hn hhex
  refine ⟨fun h32 => ?_, fun h8 => ?_, fun h4 => ?_⟩
  · obtain ⟨out, -, hdigits⟩ := hout 16 (by rw [length_of_isHexDigit hhex]; omega)
    rw [if_neg (by omega), if_neg (by omega), ← toNatLE_reverse_eq_digitsValue hdigits,
      ofValue_toNatLE_reverse out.length_toList] at hu
    have hbe : (ofBytesBe out.toList out.length_toList).bytesBe = out.toList := by
      simp [bytesBe, ofBytesBe]
    rw [hu, toText_eq_digits laws, hbe, flatMap_byteDigits_of_decoded hhex hdigits]
  · obtain ⟨out, -, hdigits⟩ := hout 4 (by rw [length_of_isHexDigit hhex]; omega)
    rw [if_neg (by omega), if_pos (by omega), ← toNatLE_reverse_eq_digitsValue hdigits] at hu
    rw [hu, toText_ofU32 laws, le32_ofNat_toNatLE out.length_toList,
      flatMap_byteDigits_of_decoded hhex hdigits]
  · obtain ⟨out, -, hdigits⟩ := hout 2 (by rw [length_of_isHexDigit hhex]; omega)
    rw [if_pos (by omega), ← toNatLE_reverse_eq_digitsValue hdigits] at hu
    rw [hu, ofU16, toText_ofU32 laws, le32_ofU16_toNatLE out.length_toList, List.flatMap_append,
      String.ofList_append, flatMap_byteDigits_of_decoded hhex hdigits]
    rfl

/-- Through every lawful codec, the text form of every UUID reads back as it; and every text that
reads as a UUID is, with its hyphens removed and lowercased, the digits of that UUID's text form:
all 32 of them, cut 8-4-4-4-12, or those of a 32-bit or a 16-bit short form, completed by the
digits of the base UUID. -/
theorem text_round_trip (hex : HexCodec) (laws : hex.Lawful) :
    (∀ u : Uuid, ofText hex (u.toText hex) = .ok u) ∧
    ∀ (s : String) (u : Uuid), ofText hex s = .ok u →
      let digits := (s.toList.filter (· != '-')).map Char.toLower
      (digits.length = 32 →
        u.toText hex = "-".intercalate ((splitSizes [8, 4, 4, 4, 12] digits).map String.ofList)) ∧
      (digits.length = 8 →
        u.toText hex = String.ofList digits ++ "-0000-1000-8000-00805f9b34fb") ∧
      (digits.length = 4 →
        u.toText hex = "0000" ++ String.ofList digits ++ "-0000-1000-8000-00805f9b34fb") :=
  ⟨ofText_toText laws, fun _ _ hs => toText_of_ofText laws hs⟩

/-- The heart rate service, written `180D`, reads as its 16-bit UUID, whose text form is the base
UUID with `180d` in its first group, and which that text form reads back as. -/
theorem text_round_trip_heartRate :
    ofText HexCodec.standard "180D" = .ok (ofU16 0x180D) ∧
      (ofU16 0x180D).toText HexCodec.standard = "0000180d-0000-1000-8000-00805f9b34fb" ∧
      ofText HexCodec.standard "0000180d-0000-1000-8000-00805f9b34fb" = .ok (ofU16 0x180D) := by
  have hlaws := text_round_trip HexCodec.standard HexCodec.standard_lawful
  have hs : ofText HexCodec.standard "180D" = .ok (ofU16 0x180D) := by
    have hc : "180D".toUTF8.toList.filter (· != 0x2D) = [0x31, 0x38, 0x30, 0x44] := by
      rw [Utf8.toUTF8_toList]
      decide
    have hhex : ∀ b ∈ ([0x31, 0x38, 0x30, 0x44] : List UInt8),
        (Char.ofNat b.toNat).isHexDigit = true := by
      simp only [List.mem_cons, List.not_mem_nil, or_false, forall_eq_or_imp, forall_eq]
      exact ⟨rfl, rfl, rfl, rfl⟩
    rw [ofText, ofTextBytes_eq_ok hc HexCodec.standard_lawful (by decide) hhex]
    rfl
  have htext : (ofU16 0x180D).toText HexCodec.standard = "0000180d-0000-1000-8000-00805f9b34fb" := by
    rw [(hlaws.2 "180D" _ hs).2.2 (by decide)]
    rfl
  refine ⟨hs, htext, ?_⟩
  rw [← htext]
  exact hlaws.1 _

end Display

end Uuid

end AdvertisingData
