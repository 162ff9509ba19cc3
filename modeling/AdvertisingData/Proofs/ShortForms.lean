import AdvertisingData.Proofs.Entries
import AdvertisingData.Proofs.UuidText
/-!
# Short UUIDs

The short forms read back exactly the value the embeddings put in: a UUID has the 32-bit short
form `x` if and only if it is `ofU32 x`, and the 16-bit short form `y` if and only if it is
`ofU16 y`.  On air a 16-bit value and the same value zero-extended decode to one UUID, and the 16
bytes of any UUID decode to it.  Main statement: `Uuid.shortForms_invert_embedding`.
-/

namespace AdvertisingData

namespace Bytes

theorem toNatLE_append (a b : List UInt8) :
    toNatLE (a ++ b) = toNatLE a + 256 ^ a.length * toNatLE b := by
  induction a with
  | nil => simp
  | cons x a ih =>
      rw [List.cons_append, toNatLE_cons, toNatLE_cons, ih, List.length_cons, Nat.pow_succ]
      rw [Nat.mul_add, Nat.mul_comm (256 ^ a.length) 256, Nat.mul_assoc, Nat.add_assoc]

theorem readLe32_append_zeros {s : List UInt8} (h : s.length = 2) :
    readLe32 (s ++ [0, 0]) = (readLe16 s).toUInt32 := by
  have hlt : toNatLE s < 65536 := by simpa [h] using toNatLE_lt s
  have hzeros : toNatLE (s ++ [0, 0]) = toNatLE s := by simp [toNatLE_append]
  rw [readLe32_of_length (by simp [h]), readLe16_of_length h, hzeros, ← UInt32.toNat_inj,
    UInt16.toNat_toUInt32, UInt32.toNat_ofNat', UInt16.toNat_ofNat', Nat.mod_eq_of_lt hlt,
    Nat.mod_eq_of_lt (by omega)]

end Bytes

namespace Uuid

@[simp] theorem length_bytesLe (u : Uuid) : u.bytesLe.length = 16 := u.le.length_toList

theorem ext_bytesLe {u v : Uuid} (h : u.bytesLe = v.bytesLe) : u = v := by
  obtain ⟨⟨bs, hbs⟩⟩ := u
  obtain ⟨⟨cs, hcs⟩⟩ := v
  simp only [bytesLe] at h
  subst h
  rfl

theorem bytesLe_ofU32 (x : UInt32) :
    (ofU32 x).bytesLe = baseLe.take shortOffset ++ Bytes.le32 x := rfl

@[simp] theorem bytesLe_ofBytesLe (bs : List UInt8) (h : bs.length = 16) :
    (ofBytesLe bs h).bytesLe = bs := rfl

/-! ### The short forms are partial inverses of the embedding -/

@[simp] theorem asU32_ofU32 (x : UInt32) : (ofU32 x).asU32 = some x := by
  have hbase : (ofU32 x).onBase = true := by
    simp [onBase, bytesLe_ofU32, shortOffset, baseLe]
  have hshort : (ofU32 x).bytesLe.drop shortOffset = Bytes.le32 x := by
    rw [bytesLe_ofU32, List.drop_left' (by simp [shortOffset, baseLe])]
  rw [asU32, if_pos hbase, hshort, Bytes.readLe32_le32]

/-- A UUID built on the base UUID is the embedding of the word in its bytes 12–15. -/
theorem eq_ofU32_of_onBase {u : Uuid} (h : u.onBase = true) :
    u = ofU32 (Bytes.readLe32 (u.bytesLe.drop shortOffset)) := by
  have hprefix : u.bytesLe.take shortOffset = baseLe.take shortOffset := by
    simpa [onBase] using h
  have hword : Bytes.le32 (Bytes.readLe32 (u.bytesLe.drop shortOffset)) =
      u.bytesLe.drop shortOffset :=
    Bytes.le32_readLe32 (by simp [shortOffset])
  apply ext_bytesLe
  rw [bytesLe_ofU32, hword, ← hprefix, List.take_append_drop]

theorem asU32_eq_some_iff {u : Uuid} {x : UInt32} : u.asU32 = some x ↔ u = ofU32 x := by
  constructor
  · intro h
    unfold asU32 at h
    split at h
    · rename_i hbase
      rw [Option.some.injEq] at h
      rw [← h]
      exact eq_ofU32_of_onBase hbase
    · cases h
  · rintro rfl
    exact asU32_ofU32 x

theorem ofU32_injective : Function.Injective ofU32 := fun x x' h => by
  simpa using congrArg asU32 h

theorem ofU16_eq_ofU32 (y : UInt16) : ofU16 y = ofU32 y.toUInt32 := rfl

@[simp] theorem asU16_ofU16 (y : UInt16) : (ofU16 y).asU16 = some y := by
  simp only [asU16, ofU16, asU32_ofU32]
  rw [if_pos (by simpa using y.toNat_lt), UInt16.toUInt16_toUInt32]

theorem asU16_ofU32_of_le {x : UInt32} (h : 65536 ≤ x.toNat) : (ofU32 x).asU16 = none := by
  simp only [asU16, asU32_ofU32]
  rw [if_neg (by omega)]

theorem asU16_of_asU32_eq_none {u : Uuid} (h : u.asU32 = none) : u.asU16 = none := by
  rw [asU16, h]

theorem asU16_eq_some_iff {u : Uuid} {y : UInt16} : u.asU16 = some y ↔ u = ofU16 y := by
  constructor
  · intro h
    unfold asU16 at h
    split at h
    · rename_i x hx
      split at h
      · rename_i hfit
        rw [Option.some.injEq] at h
        -- a 32-bit value below 2^16 is the widening of its 16-bit truncation
        have hx16 : x = y.toUInt32 := by
          rw [← h, ← UInt32.toNat_inj, UInt16.toNat_toUInt32, UInt32.toNat_toUInt16,
            Nat.mod_eq_of_lt hfit]
        rw [asU32_eq_some_iff.1 hx, hx16, ofU16_eq_ofU32]
      · cases h
    · cases h
  · rintro rfl
    exact asU16_ofU16 y

theorem eqU16_eq_true_iff {u : Uuid} {y : UInt16} : u.eqU16 y = true ↔ u = ofU16 y := by
  rw [eqU16, beq_iff_eq, asU16_eq_some_iff]

theorem eqU32_eq_true_iff {u : Uuid} {x : UInt32} : u.eqU32 x = true ↔ u = ofU32 x := by
  rw [eqU32, beq_iff_eq, asU32_eq_some_iff]

/-! ### Decoding the on-air form -/

theorem ofSliceLe?_of_length_two {s : List UInt8} (h : s.length = 2) :
    ofSliceLe? s = some (ofU16 (UInt16.ofNat (Bytes.toNatLE s))) := by
  rw [ofSliceLe?, if_pos h, Bytes.readLe16_of_length h]

theorem ofSliceLe?_of_length_four {s : List UInt8} (h : s.length = 4) :
    ofSliceLe? s = some (ofU32 (UInt32.ofNat (Bytes.toNatLE s))) := by
  rw [ofSliceLe?, if_neg (by omega), if_pos h, Bytes.readLe32_of_length h]

theorem ofSliceLe?_of_length_sixteen {s : List UInt8} (h : s.length = 16) :
    ofSliceLe? s = some (ofBytesLe s h) := by
  rw [ofSliceLe?, if_neg (by omega), if_neg (by omega), dif_pos h]

theorem ofSliceLe?_eq_none_iff {s : List UInt8} :
    ofSliceLe? s = none ↔ s.length ≠ 2 ∧ s.length ≠ 4 ∧ s.length ≠ 16 := by
  unfold ofSliceLe?
  split_ifs <;> simp_all

@[simp] theorem ofSliceLe?_le16 (y : UInt16) : ofSliceLe? (Bytes.le16 y) = some (ofU16 y) := by
  rw [ofSliceLe?, if_pos (Bytes.length_le16 y), Bytes.readLe16_le16]

@[simp] theorem ofSliceLe?_le32 (x : UInt32) : ofSliceLe? (Bytes.le32 x) = some (ofU32 x) := by
  rw [ofSliceLe?, if_neg (by simp), if_pos (Bytes.length_le32 x), Bytes.readLe32_le32]

@[simp] theorem ofSliceLe?_bytesLe (u : Uuid) : ofSliceLe? u.bytesLe = some u := by
  rw [ofSliceLe?_of_length_sixteen (length_bytesLe u)]
  exact congrArg some (ext_bytesLe rfl)

theorem ofSliceLe?_append_zeros {s : List UInt8} (h : s.length = 2) :
    ofSliceLe? (s ++ [0, 0]) = ofSliceLe? s := by
  have h4 : (s ++ [0, 0]).length = 4 := by simp [h]
  rw [ofSliceLe?, if_neg (by omega), if_pos h4, ofSliceLe?, if_pos h,
    Bytes.readLe32_append_zeros h, ofU16_eq_ofU32]

theorem ofSliceLe?_eq_some_iff_of_length_two {s : List UInt8} {u : Uuid} (h : s.length = 2) :
    ofSliceLe? s = some u ↔ ∃ y, u.asU16 = some y ∧ s = Bytes.le16 y := by
  constructor
  · intro hs
    rw [ofSliceLe?, if_pos h, Option.some.injEq] at hs
    exact ⟨Bytes.readLe16 s, by rw [← hs, asU16_ofU16], (Bytes.le16_readLe16 h).symm⟩
  · rintro ⟨y, hy, rfl⟩
    rw [ofSliceLe?_le16, asU16_eq_some_iff.1 hy]

theorem ofSliceLe?_eq_some_iff_of_length_four {s : List UInt8} {u : Uuid} (h : s.length = 4) :
    ofSliceLe? s = some u ↔ ∃ x, u.asU32 = some x ∧ s = Bytes.le32 x := by
  constructor
  · intro hs
    rw [ofSliceLe?, if_neg (by omega), if_pos h, Option.some.injEq] at hs
    exact ⟨Bytes.readLe32 s, by rw [← hs, asU32_ofU32], (Bytes.le32_readLe32 h).symm⟩
  · rintro ⟨x, hx, rfl⟩
    rw [ofSliceLe?_le32, asU32_eq_some_iff.1 hx]

theorem ofSliceLe?_eq_some_iff_of_length_sixteen {s : List UInt8} {u : Uuid}
    (h : s.length = 16) : ofSliceLe? s = some u ↔ s = u.bytesLe := by
  rw [ofSliceLe?_of_length_sixteen h, Option.some.injEq]
  constructor
  · rintro rfl
    rfl
  · rintro rfl
    exact ext_bytesLe rfl

@[simp] theorem ofBytesBe_bytesBe (u : Uuid) : ofBytesBe u.bytesBe (length_bytesBe u) = u :=
  ext_bytesLe (by simp [ofBytesBe, bytesBe, bytesLe])

/-! ### The debug form -/

theorem debugText_ofU16 (hex : HexCodec) (y : UInt16) :
    (ofU16 y).debugText hex = "Uuid(0x" ++ Hex.fixed .upper 4 y.toNat ++ ")" := by
  rw [debugText, asU16_ofU16]

theorem debugText_ofU32 (hex : HexCodec) {x : UInt32} (h : 65536 ≤ x.toNat) :
    (ofU32 x).debugText hex = "Uuid(0x" ++ Hex.fixed .upper 8 x.toNat ++ ")" := by
  rw [debugText, asU16_ofU32_of_le h, asU32_ofU32]

theorem debugText_of_asU32_eq_none (hex : HexCodec) {u : Uuid} (h : u.asU32 = none) :
    u.debugText hex = "Uuid(" ++ u.toText hex ++ ")" := by
  rw [debugText, asU16_of_asU32_eq_none h, h]

/-- The 16- and 32-bit short forms read back exactly the short values that the embeddings into the
base UUID put in, and nothing else; comparison with a 16-bit value is equality with its UUID.
On air, 2, 4 and 16 bytes decode as a 16-bit, a 32-bit and a full UUID and no other length
decodes; two bytes zero-extended to four decode to the same UUID; the bytes of a UUID, in either
order, give it back.  The debug form is `Uuid(0x…)` with four digits for a 16-bit UUID, eight for
a 32-bit UUID that needs them, and the text form for a UUID off the base. -/
theorem shortForms_invert_embedding (hex : HexCodec) :
    (∀ (u : Uuid) (x : UInt32), u.asU32 = some x ↔ u = ofU32 x) ∧
    (∀ (u : Uuid) (y : UInt16), u.asU16 = some y ↔ u = ofU16 y) ∧
    (∀ (u : Uuid) (y : UInt16), u.eqU16 y = true ↔ u = ofU16 y) ∧
    (∀ y : UInt16, ofU16 y = ofU32 y.toUInt32) ∧
    (∀ s : List UInt8, s.length = 2 →
      ofSliceLe? s = some (ofU16 (UInt16.ofNat (Bytes.toNatLE s)))) ∧
    (∀ s : List UInt8, s.length = 4 →
      ofSliceLe? s = some (ofU32 (UInt32.ofNat (Bytes.toNatLE s)))) ∧
    (∀ (s : List UInt8) (h : s.length = 16), ofSliceLe? s = some (ofBytesLe s h)) ∧
    (∀ s : List UInt8, ofSliceLe? s = none ↔ s.length ≠ 2 ∧ s.length ≠ 4 ∧ s.length ≠ 16) ∧
    (∀ s : List UInt8, s.length = 2 → ofSliceLe? (s ++ [0, 0]) = ofSliceLe? s) ∧
    (∀ u : Uuid, ofSliceLe? u.bytesLe = some u) ∧
    (∀ u : Uuid, ofBytesBe u.bytesBe (length_bytesBe u) = u) ∧
    (∀ y : UInt16, (ofU16 y).debugText hex = "Uuid(0x" ++ Hex.fixed .upper 4 y.toNat ++ ")") ∧
    (∀ x : UInt32, 65536 ≤ x.toNat →
      (ofU32 x).debugText hex = "Uuid(0x" ++ Hex.fixed .upper 8 x.toNat ++ ")") ∧
    (∀ u : Uuid, (∀ x, u ≠ ofU32 x) → u.debugText hex = "Uuid(" ++ u.toText hex ++ ")") := by
  refine ⟨fun _ _ => asU32_eq_some_iff, fun _ _ => asU16_eq_some_iff,
    fun _ _ => eqU16_eq_true_iff, ofU16_eq_ofU32, fun _ => ofSliceLe?_of_length_two,
    fun _ => ofSliceLe?_of_length_four, fun _ => ofSliceLe?_of_length_sixteen,
    fun _ => ofSliceLe?_eq_none_iff, fun _ => ofSliceLe?_append_zeros, ofSliceLe?_bytesLe,
    ofBytesBe_bytesBe, debugText_ofU16 hex, fun _ => debugText_ofU32 hex, fun u hu => ?_⟩
  -- a UUID that is no 32-bit embedding has no 32-bit short form
  apply debugText_of_asU32_eq_none hex
  cases hx : u.asU32 with
  | none => rfl
  | some x => exact absurd (asU32_eq_some_iff.1 hx) (hu x)

/-- The heart rate service UUID `0x180D`: its two on-air bytes and the same bytes zero-extended
decode to it, it compares equal to `0x180D`, and its debug form is `Uuid(0x180D)`. -/
theorem shortForms_invert_embedding_heartRate :
    ofSliceLe? [0x0D, 0x18] = some (ofU16 0x180D) ∧
    ofSliceLe? [0x0D, 0x18, 0, 0] = some (ofU16 0x180D) ∧
    (ofU16 0x180D).eqU16 0x180D = true ∧
    (ofU16 0x180D).debugText HexCodec.standard = "Uuid(0x180D)" := by
  obtain ⟨-, -, heq, -, htwo, -, -, -, hzeros, -, -, hdebug, -, -⟩ :=
    shortForms_invert_embedding HexCodec.standard
  have hs : ofSliceLe? [0x0D, 0x18] = some (ofU16 0x180D) := htwo [0x0D, 0x18] rfl
  refine ⟨hs, ?_, (heq _ _).2 rfl, ?_⟩
  · rw [show [(0x0D : UInt8), 0x18, 0, 0] = [0x0D, 0x18] ++ [0, 0] from rfl, hzeros _ rfl, hs]
  · rw [hdebug]
    rfl

end Uuid

end AdvertisingData
