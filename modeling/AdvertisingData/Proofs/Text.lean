import AdvertisingData.Text.HexCodec
import Mathlib
/-!
# Hexadecimal digits and the UTF-8 bytes of text

A digit is read from its character code, and lowercasing a digit gives the lowercase digit of
its value.  The standard codec reads digits two a byte, checking them in order, so it has the
laws of `HexCodec.Lawful` (`HexCodec.standard_lawful`).  The UTF-8 bytes of a string are the
encodings of its characters (`Utf8.toUTF8_toList`), so dropping the bytes `0x2D` drops exactly
its hyphens, and text whose bytes are all below `0x80` is ASCII.
-/

namespace AdvertisingData

namespace Hex

theorem char_le_iff {a b : Char} : a ≤ b ↔ a.toNat ≤ b.toNat := by
  simp [Char.le_def, UInt32.le_iff_toNat_le]

theorem toNat_ofNat_of_lt {n : Nat} (h : n < 0xd800) : (Char.ofNat n).toNat = n := by
  rw [Char.toNat_ofNat, if_pos (Or.inl h)]

theorem value?_eq (ch : Char) : value? ch =
    if 48 ≤ ch.toNat ∧ ch.toNat ≤ 57 then some (ch.toNat - 48)
    else if 97 ≤ ch.toNat ∧ ch.toNat ≤ 102 then some (ch.toNat - 87)
    else if 65 ≤ ch.toNat ∧ ch.toNat ≤ 70 then some (ch.toNat - 55) else none := by
  simp only [value?, char_le_iff]
  rfl

theorem isHexDigit_iff (ch : Char) : ch.isHexDigit = true ↔
    (48 ≤ ch.toNat ∧ ch.toNat ≤ 57) ∨ (97 ≤ ch.toNat ∧ ch.toNat ≤ 102) ∨
      (65 ≤ ch.toNat ∧ ch.toNat ≤ 70) := by
  simp [Char.isHexDigit, Char.isDigit, UInt32.le_iff_toNat_le, or_assoc]

theorem isUpper_iff (ch : Char) : ch.isUpper = true ↔ 65 ≤ ch.toNat ∧ ch.toNat ≤ 90 := by
  simp [Char.isUpper, UInt32.le_iff_toNat_le]

/-- A character has a digit value exactly when it is an ASCII hexadecimal digit. -/
theorem isSome_value? (ch : Char) : (value? ch).isSome = ch.isHexDigit := by
  rw [Bool.eq_iff_iff, isHexDigit_iff, value?_eq]
  split_ifs <;> simp <;> omega

theorem exists_value? {ch : Char} (h : ch.isHexDigit = true) : ∃ d, value? ch = some d :=
  Option.isSome_iff_exists.1 ((isSome_value? ch).trans h)

theorem lt_of_value? {ch : Char} {d : Nat} (h : value? ch = some d) : d < 16 := by
  rw [value?_eq] at h
  split_ifs at h <;> simp at h <;> omega

theorem toNat_lt_of_isHexDigit {ch : Char} (h : ch.isHexDigit = true) : ch.toNat < 128 := by
  rw [isHexDigit_iff] at h
  omega

theorem toNat_digit (c : LetterCase) {d : Nat} (hd : d < 16) :
    (digit c d).toNat =
      if d < 10 then 48 + d else match c with | .lower => 87 + d | .upper => 55 + d := by
  unfold digit
  split_ifs
  · exact toNat_ofNat_of_lt (by omega)
  · cases c <;> exact toNat_ofNat_of_lt (by omega)

theorem value?_digit (c : LetterCase) {d : Nat} (hd : d < 16) : value? (digit c d) = some d := by
  rw [value?_eq, toNat_digit c hd]
  cases c <;> split_ifs <;> simp_all <;> omega

theorem toNat_digit_lower {d : Nat} (hd : d < 16) :
    (digit .lower d).toNat = if d < 10 then 48 + d else 87 + d := by
  rw [toNat_digit .lower hd]

/-- Lowercasing a hexadecimal digit gives the lowercase digit of its value. -/
theorem toLower_of_value? {ch : Char} {d : Nat} (h : value? ch = some d) :
    ch.toLower = digit .lower d := by
  have hd := lt_of_value? h
  rw [value?_eq] at h
  rw [← Char.toNat_inj, toNat_digit_lower hd]
  -- a decimal digit and a lowercase letter stay as they are; an uppercase letter moves by 32
  split_ifs at h with hdec hlow hup <;> simp only [Option.some.injEq] at h
  · rw [Char.toLower_eq_of_not_isUpper (by rw [isUpper_iff]; omega), if_pos (by omega)]
    omega
  · rw [Char.toLower_eq_of_not_isUpper (by rw [isUpper_iff]; omega), if_neg (by omega)]
    omega
  · rw [Char.toLower_eq_of_isUpper (by rw [isUpper_iff]; omega), toNat_ofNat_of_lt (by omega),
      if_neg (by omega)]
    omega

theorem digitValue_of_value? {ch : Char} {d : Nat} (h : value? ch = some d) : digitValue ch = d := by
  rw [digitValue, h, Option.getD_some]

theorem digitValue_digit (c : LetterCase) {d : Nat} (hd : d < 16) : digitValue (digit c d) = d :=
  digitValue_of_value? (value?_digit c hd)

theorem toLower_eq_digit_digitValue {ch : Char} (h : ch.isHexDigit = true) :
    ch.toLower = digit .lower (digitValue ch) := by
  obtain ⟨d, hd⟩ := exists_value? h
  rw [toLower_of_value? hd, digitValue_of_value? hd]

theorem nibbles_ofNat {h l : Nat} (hh : h < 16) (hl : l < 16) :
    nibbles (UInt8.ofNat (16 * h + l)) = [h, l] := by
  have hbyte : (UInt8.ofNat (16 * h + l)).toNat = 16 * h + l := by
    rw [UInt8.toNat_ofNat']
    omega
  simp only [nibbles, hbyte, List.cons.injEq, and_true]
  omega

theorem length_flatMap_byteDigits (c : LetterCase) (bs : List UInt8) :
    (bs.flatMap (byteDigits c)).length = 2 * bs.length := by
  induction bs with
  | nil => rfl
  | cons b bs ih =>
      simp only [List.flatMap_cons, List.length_append, ih, byteDigits, List.length_cons,
        List.length_nil]
      omega

theorem map_digitValue_byteDigits (c : LetterCase) (b : UInt8) :
    (byteDigits c b).map digitValue = nibbles b := by
  have hb := b.toNat_lt
  simp only [byteDigits, nibbles, List.map_cons, List.map_nil,
    digitValue_digit c (show b.toNat / 16 < 16 by omega),
    digitValue_digit c (Nat.mod_lt b.toNat (show 16 > 0 by omega))]

theorem foldl_flatMap_nibbles (bs : List UInt8) (a : Nat) :
    (bs.flatMap nibbles).foldl (fun n d => 16 * n + d) a =
      bs.foldl (fun n b => 256 * n + b.toNat) a := by
  induction bs generalizing a with
  | nil => rfl
  | cons b bs ih =>
      simp only [List.flatMap_cons, nibbles, List.cons_append, List.nil_append, List.foldl_cons]
      rw [ih]
      congr 1
      omega

theorem flatMap_byteDigits_of_nibbles {out : List UInt8} {cs : List Char}
    (hcs : ∀ ch ∈ cs, ch.isHexDigit = true) (h : out.flatMap nibbles = cs.map digitValue) :
    out.flatMap (byteDigits .lower) = cs.map Char.toLower := by
  have hmap : out.flatMap (byteDigits .lower) = (out.flatMap nibbles).map (digit .lower) := by
    rw [List.map_flatMap]
    rfl
  rw [hmap, h, List.map_map]
  exact List.map_congr_left fun ch hch => (toLower_eq_digit_digitValue (hcs ch hch)).symm

theorem exists_first_not_isHexDigit : ∀ {bs : List UInt8},
    ¬ (∀ b ∈ bs, (Char.ofNat b.toNat).isHexDigit = true) →
    ∃ i, ∃ hi : i < bs.length, (Char.ofNat bs[i].toNat).isHexDigit = false ∧
      ∀ b ∈ bs.take i, (Char.ofNat b.toNat).isHexDigit = true
  | [], h => absurd (fun b hb => by simp at hb) h
  | b :: bs, h => by
      by_cases hb : (Char.ofNat b.toNat).isHexDigit = true
      · obtain ⟨i, hi, hbad, hgood⟩ := @exists_first_not_isHexDigit bs fun hall =>
          h fun b' hb' => by
            rcases List.mem_cons.1 hb' with rfl | hb'
            exacts [hb, hall b' hb']
        refine ⟨i + 1, by simpa using hi, by simpa using hbad, ?_⟩
        simpa [List.take_succ_cons, hb] using hgood
      · exact ⟨0, by simp, by simpa using hb, by simp⟩

theorem toList_encode (c : LetterCase) (bs : List UInt8) :
    (encode c bs).toList = bs.flatMap (byteDigits c) := by
  simp only [encode, String.toList_join, List.flatMap_map, fixed, String.toList_ofList]
  congr 1
  funext b
  have hb := b.toNat_lt
  simp only [fixedDigits, List.nil_append, List.map_cons, List.map_nil, List.cons_append,
    byteDigits]
  congr 3
  omega

theorem digitAt_of_value? {b : UInt8} {d : Nat} (i : Nat)
    (h : value? (Char.ofNat b.toNat) = some d) : digitAt b i = .ok d := by
  rw [digitAt, h]

theorem digitAt_of_isHexDigit_false {b : UInt8} (i : Nat)
    (h : (Char.ofNat b.toNat).isHexDigit = false) :
    digitAt b i = .error (.invalidHexCharacter (Char.ofNat b.toNat) i) := by
  have hnone : value? (Char.ofNat b.toNat) = none := by
    rw [← Option.not_isSome_iff_eq_none, isSome_value?, h]
    decide
  rw [digitAt, hnone]

/-- An even number of digits decodes, a byte from each pair of them. -/
theorem decodeFrom_ok : ∀ (i : Nat) {data : List UInt8},
    (∀ b ∈ data, (Char.ofNat b.toNat).isHexDigit = true) → data.length % 2 = 0 →
    ∃ out, decodeFrom i data = .ok out ∧
      out.flatMap nibbles = data.map (fun b => digitValue (Char.ofNat b.toNat)) ∧
      2 * out.length = data.length
  | _, [], _, _ => ⟨[], rfl, rfl, rfl⟩
  | _, [_], _, hodd => by simp at hodd
  | i, hi :: lo :: rest, hhex, heven => by
      obtain ⟨tail, htail, hdigits, hlen⟩ := @decodeFrom_ok (i + 2) rest
        (fun b hb => hhex b (by simp [hb])) (by simp at heven; omega)
      obtain ⟨dh, hdh⟩ := exists_value? (hhex hi (by simp))
      obtain ⟨dl, hdl⟩ := exists_value? (hhex lo (by simp))
      refine ⟨UInt8.ofNat (16 * dh + dl) :: tail, ?_, ?_, ?_⟩
      · rw [decodeFrom, digitAt_of_value? i hdh, digitAt_of_value? (i + 1) hdl, htail]
        rfl
      · rw [List.flatMap_cons, nibbles_ofNat (lt_of_value? hdh) (lt_of_value? hdl), hdigits]
        simp only [List.map_cons, digitValue_of_value? hdh, digitValue_of_value? hdl]
        rfl
      · simp only [List.length_cons]
        omega

/-- Digits are checked in order: the first byte that is not a digit is the fault, at its
position. -/
theorem decodeFrom_error : ∀ (start : Nat) {data : List UInt8} {i : Nat} (hi : i < data.length),
    data.length % 2 = 0 → (Char.ofNat data[i].toNat).isHexDigit = false →
    (∀ b ∈ data.take i, (Char.ofNat b.toNat).isHexDigit = true) →
    decodeFrom start data = .error (.invalidHexCharacter (Char.ofNat data[i].toNat) (start + i))
  | _, [], _, hi, _, _, _ => by simp at hi
  | _, [_], _, _, hodd, _, _ => by simp at hodd
  | start, hi :: lo :: rest, i, hlt, heven, hbad, hgood => by
      -- the fault is one of the first pair, or lies in the rest
      rcases i with _ | _ | k
      · simp only [List.getElem_cons_zero, Nat.add_zero] at hbad ⊢
        rw [decodeFrom, digitAt_of_isHexDigit_false start hbad]
        rfl
      · obtain ⟨dh, hdh⟩ := exists_value? (hgood hi (by simp))
        simp only [List.getElem_cons_succ, List.getElem_cons_zero] at hbad ⊢
        rw [decodeFrom, digitAt_of_value? start hdh, digitAt_of_isHexDigit_false (start + 1) hbad]
        rfl
      · obtain ⟨dh, hdh⟩ := exists_value? (hgood hi (by simp))
        obtain ⟨dl, hdl⟩ := exists_value? (hgood lo (by simp))
        simp only [List.getElem_cons_succ] at hbad ⊢
        have hrest := @decodeFrom_error (start + 2) rest k (by simpa using hlt)
          (by simp at heven; omega) hbad (fun b hb => hgood b (by simp [hb]))
        rw [decodeFrom, digitAt_of_value? start hdh, digitAt_of_value? (start + 1) hdl, hrest,
          show start + 2 + k = start + (k + 1 + 1) by omega]
        rfl

end Hex

namespace HexCodec

/-- The standard codec has the laws UUID text relies on. -/
theorem standard_lawful : standard.Lawful where
  toList_encode := Hex.toList_encode .lower
  decodeToSlice_ok data n hlen hhex := by
    obtain ⟨out, hout, hdigits, hlen'⟩ := Hex.decodeFrom_ok 0 hhex (by omega)
    have hn : out.length = n := by omega
    refine ⟨⟨out, hn⟩, ?_, hdigits⟩
    simp [standard, Hex.decodeToSlice, hlen, hout, hn]
  decodeToSlice_error data n i hi hlen hbad hgood := by
    have herr := Hex.decodeFrom_error 0 hi (by omega) hbad hgood
    rw [Nat.zero_add] at herr
    simp [standard, Hex.decodeToSlice, hlen, herr]

end HexCodec

namespace Utf8

theorem toList_loop_eq (bs : ByteArray) (i : Nat) (r : List UInt8) :
    ByteArray.toList.loop bs i r = r.reverse ++ bs.data.toList.drop i := by
  fun_induction ByteArray.toList.loop bs i r with
  | case1 i r hi ih =>
      have hi' : i < bs.data.toList.length := by simpa using hi
      rw [ih, List.drop_eq_getElem_cons hi']
      simp [ByteArray.get!, hi]
  | case2 i r hi =>
      rw [List.drop_of_length_le (by simpa using hi), List.append_nil]

theorem toList_eq_data_toList (bs : ByteArray) : bs.toList = bs.data.toList := by
  simp [ByteArray.toList, toList_loop_eq]

/-- The UTF-8 bytes of a string are the encodings of its characters, one after the other. -/
theorem toUTF8_toList (s : String) :
    s.toUTF8.toList = s.toList.flatMap String.utf8EncodeChar := by
  rw [toList_eq_data_toList, String.toUTF8_eq_toByteArray, ← String.utf8Encode_toList,
    List.utf8Encode, List.toList_data_toByteArray]

theorem encodeChar_of_lt {c : Char} (h : c.toNat < 128) :
    String.utf8EncodeChar c = [UInt8.ofNat c.toNat] := by
  have hv : c.val.toNat ≤ 0x7f := by
    change c.toNat ≤ 0x7f
    omega
  simp only [String.utf8EncodeChar, if_pos hv]
  rfl

theorem le_of_mem_encodeChar {c : Char} (h : 128 ≤ c.toNat) {b : UInt8}
    (hb : b ∈ String.utf8EncodeChar c) : 128 ≤ b.toNat := by
  have hv : ¬ c.val.toNat ≤ 0x7f := by
    change ¬ c.toNat ≤ 0x7f
    omega
  simp only [String.utf8EncodeChar, if_neg hv] at hb
  change 128 ≤ c.toNat at h
  -- a lead byte is `0xC0` or more and a continuation byte `0x80` or more
  split_ifs at hb <;> simp only [List.mem_cons, List.not_mem_nil, or_false] at hb <;>
    rcases hb with rfl | rfl | rfl | rfl <;> simp only [UInt8.toNat_ofNat'] <;> omega

/-- Dropping the bytes `0x2D` from UTF-8 text drops its hyphens. -/
theorem filter_flatMap_encodeChar (cs : List Char) :
    (cs.flatMap String.utf8EncodeChar).filter (· != 0x2D) =
      (cs.filter (· != '-')).flatMap String.utf8EncodeChar := by
  induction cs with
  | nil => rfl
  | cons c cs ih =>
      rw [List.flatMap_cons, List.filter_append, ih]
      by_cases hc : c.toNat < 128
      · rw [encodeChar_of_lt hc]
        by_cases hdash : c = '-'
        · subst hdash
          rfl
        · have hbyte : UInt8.ofNat c.toNat ≠ 0x2D := by
            intro h
            apply hdash
            rw [← Char.toNat_inj]
            have h45 : (UInt8.ofNat c.toNat).toNat = 45 := by rw [h]; rfl
            rw [UInt8.toNat_ofNat'] at h45
            change _ = 45
            omega
          simp [hdash, hbyte, encodeChar_of_lt hc]
      · have hkeep : ∀ b ∈ String.utf8EncodeChar c, (b != 0x2D) = true := by
          intro b hb
          have := le_of_mem_encodeChar (by omega) hb
          simp only [bne_iff_ne, ne_eq]
          rintro rfl
          simp at this
        have hdash : c ≠ '-' := by
          rintro rfl
          simp at hc
        rw [List.filter_eq_self.2 hkeep]
        simp [hdash]

theorem flatMap_encodeChar_of_ascii {cs : List Char}
    (h : ∀ b ∈ cs.flatMap String.utf8EncodeChar, b.toNat < 128) :
    (∀ c ∈ cs, c.toNat < 128) ∧
      cs.flatMap String.utf8EncodeChar = cs.map (UInt8.ofNat ·.toNat) := by
  induction cs with
  | nil => simp
  | cons c cs ih =>
      simp only [List.flatMap_cons, List.mem_append] at h
      have hc : c.toNat < 128 := by
        by_contra hge
        obtain ⟨b, hb⟩ := List.exists_mem_of_ne_nil _ (@String.utf8EncodeChar_ne_nil c)
        have := le_of_mem_encodeChar (by omega) hb
        have := h b (Or.inl hb)
        omega
      obtain ⟨hcs, heq⟩ := ih fun b hb => h b (Or.inr hb)
      refine ⟨?_, ?_⟩
      · intro c' hc'
        rcases List.mem_cons.1 hc' with rfl | hc'
        · exact hc
        · exact hcs c' hc'
      · rw [List.flatMap_cons, heq, encodeChar_of_lt hc]
        rfl

end Utf8

end AdvertisingData
