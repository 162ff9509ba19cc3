import AdvertisingData.Fields.View
import AdvertisingData.Proofs.ShortForms
/-!
# The views of a field set lose nothing

Service data splits exactly when it has as many bytes as its UUID's width, into the on-air
bytes of that UUID and the rest; manufacturer data likewise into a company identifier and the
rest.  The views by pieces read one value from each whole piece, whose bytes make up the bytes
less a short tail, and short UUID lists widen and narrow back element by element.  Main
statement: `views_recover_bytes`.
-/

namespace AdvertisingData

namespace Bytes

theorem flatten_chunks_eq_take {α : Type} {n : Nat} (hn : 0 < n) (l : List α) :
    (chunks n l).flatten = l.take (n * (l.length / n)) := by
  induction hk : l.length using Nat.strongRecOn generalizing l with
  | ind k ih =>
      by_cases hlt : k < n
      · rw [chunks_of_lt (by omega), Nat.div_eq_of_lt hlt, Nat.mul_zero, List.take_zero,
          List.flatten_nil]
      · have hrest : (l.drop n).length = k - n := by simp [hk]
        have hdiv : n * (k / n) = n + n * ((k - n) / n) := by
          rw [Nat.div_eq_sub_div hn (by omega), Nat.mul_add, Nat.mul_one, Nat.add_comm]
        rw [chunks_of_le hn (by omega), List.flatten_cons, ih (k - n) (by omega) (l.drop n) hrest,
          hdiv, List.take_add]

theorem map_filterMap_of_decodes {α β : Type} {dec : α → Option β} {enc : β → α} {l : List α}
    (h : ∀ c ∈ l, ∃ b, dec c = some b ∧ enc b = c) : (l.filterMap dec).map enc = l := by
  induction l with
  | nil => rfl
  | cons c l ih =>
      obtain ⟨b, hb, hc⟩ := h c List.mem_cons_self
      rw [List.filterMap_cons_some hb, List.map_cons, hc,
        ih fun c' hc' => h c' (List.mem_cons_of_mem c hc')]

/-- A view that reads one value from each whole `n`-byte piece, where every piece of `n` bytes is
read as a value whose bytes are that piece, has one value a piece, and the values' bytes are the
string less its short tail. -/
theorem filterMap_chunks_pieces {β : Type} {n : Nat} (hn : 0 < n) {dec : List UInt8 → Option β}
    {enc : β → List UInt8} (hdec : ∀ c : List UInt8, c.length = n → ∃ b, dec c = some b ∧ enc b = c)
    (l : List UInt8) :
    ((chunks n l).filterMap dec).length = l.length / n ∧
      ((chunks n l).filterMap dec).flatMap enc = l.take (n * (l.length / n)) := by
  have hmap : ((chunks n l).filterMap dec).map enc = chunks n l :=
    map_filterMap_of_decodes fun c hc => hdec c (length_of_mem_chunks hc)
  constructor
  · rw [← List.length_map (f := enc), hmap, length_chunks n l hn]
  · rw [List.flatMap_def, hmap, flatten_chunks_eq_take hn]

theorem le16_readLe16_append_drop {d : List UInt8} (h : 2 ≤ d.length) :
    le16 (readLe16 d) ++ d.drop 2 = d := by
  have htake : readLe16 d = readLe16 (d.take 2) := by
    rw [readLe16, readLe16, List.take_take, Nat.min_self]
  rw [htake, le16_readLe16 (by simp; omega), List.take_append_drop]

end Bytes

namespace BdAddr

theorem ofPrefix?_of_length {c : List UInt8} (h : c.length = 6) :
    ofPrefix? c = some ⟨⟨c, h⟩⟩ := by
  rw [ofPrefix?, List.take_of_length_le (by omega), FixedBytes.ofList?, dif_pos h]
  rfl

end BdAddr

/-! ### Service data -/

/-- Service data splits into on-air UUID bytes of the given width and the rest, and only so. -/
theorem splitServiceData_eq_some_iff {n : Nat} {data rest : List UInt8} {u : Uuid} :
    splitServiceData n data = some (u, rest) ↔
      ∃ pre, pre.length = n ∧ Uuid.ofSliceLe? pre = some u ∧ data = pre ++ rest := by
  unfold splitServiceData
  constructor
  · intro h
    split at h
    · cases h
    · rename_i hlen
      obtain ⟨v, hv, hvu⟩ := Option.map_eq_some_iff.1 h
      rw [Prod.mk.injEq] at hvu
      obtain ⟨rfl, rfl⟩ := hvu
      exact ⟨data.take n, by simp; omega, hv, (List.take_append_drop n data).symm⟩
  · rintro ⟨pre, hpre, hu, rfl⟩
    rw [if_neg (by simp; omega), List.take_left' hpre, List.drop_left' hpre, hu]
    rfl

theorem isSome_splitServiceData {n : Nat} (hn : n = 2 ∨ n = 4 ∨ n = 16) (data : List UInt8) :
    (splitServiceData n data).isSome ↔ n ≤ data.length := by
  unfold splitServiceData
  split
  · simp only [Option.isSome_none, Bool.false_eq_true, false_iff]
    omega
  · rename_i hlen
    have hpre : (data.take n).length = n := by simp; omega
    have hsome : (Uuid.ofSliceLe? (data.take n)).isSome := by
      rw [Option.isSome_iff_ne_none, Ne, Uuid.ofSliceLe?_eq_none_iff, hpre]
      omega
    simp only [Option.isSome_map, hsome, true_iff]
    omega

namespace FieldSet

theorem isSome_bind_splitServiceData {n : Nat} (hn : n = 2 ∨ n = 4 ∨ n = 16)
    (field : Option (List UInt8)) :
    (field.bind (splitServiceData n)).isSome ↔ ∃ d, field = some d ∧ n ≤ d.length := by
  cases field with
  | none => simp
  | some d => simp [isSome_splitServiceData hn]

theorem bind_splitServiceData_eq_some_iff {n : Nat} {field : Option (List UInt8)} {u : Uuid}
    {rest : List UInt8} :
    field.bind (splitServiceData n) = some (u, rest) ↔
      ∃ pre, pre.length = n ∧ Uuid.ofSliceLe? pre = some u ∧ field = some (pre ++ rest) := by
  rw [Option.bind_eq_some_iff]
  constructor
  · rintro ⟨d, rfl, hd⟩
    obtain ⟨pre, hpre, hu, rfl⟩ := splitServiceData_eq_some_iff.1 hd
    exact ⟨pre, hpre, hu, rfl⟩
  · rintro ⟨pre, hpre, hu, rfl⟩
    exact ⟨_, rfl, splitServiceData_eq_some_iff.2 ⟨pre, hpre, hu, rfl⟩⟩

variable {s : FieldSet} {u : Uuid} {rest : List UInt8}

theorem bind_splitServiceData_eq_some_iff_short {α : Type} {n : Nat} {short : Uuid → Option α}
    {enc : α → List UInt8} (henc : ∀ y, (enc y).length = n)
    (hdec : ∀ {pre : List UInt8} {u : Uuid}, pre.length = n →
      (Uuid.ofSliceLe? pre = some u ↔ ∃ y, short u = some y ∧ pre = enc y))
    {field : Option (List UInt8)} :
    field.bind (splitServiceData n) = some (u, rest) ↔
      ∃ y, short u = some y ∧ field = some (enc y ++ rest) := by
  rw [bind_splitServiceData_eq_some_iff]
  constructor
  · rintro ⟨pre, hpre, hu, hs⟩
    obtain ⟨y, hy, rfl⟩ := (hdec hpre).1 hu
    exact ⟨y, hy, hs⟩
  · rintro ⟨y, hy, hs⟩
    exact ⟨_, henc y, (hdec (henc y)).2 ⟨y, hy, rfl⟩, hs⟩

theorem serviceData16Value_eq_some_iff :
    s.serviceData16Value = some (u, rest) ↔
      ∃ y, u.asU16 = some y ∧ s.serviceData16 = some (Bytes.le16 y ++ rest) :=
  bind_splitServiceData_eq_some_iff_short Bytes.length_le16
    Uuid.ofSliceLe?_eq_some_iff_of_length_two

theorem serviceData32Value_eq_some_iff :
    s.serviceData32Value = some (u, rest) ↔
      ∃ x, u.asU32 = some x ∧ s.serviceData32 = some (Bytes.le32 x ++ rest) :=
  bind_splitServiceData_eq_some_iff_short Bytes.length_le32
    Uuid.ofSliceLe?_eq_some_iff_of_length_four

theorem serviceData128Value_eq_some_iff :
    s.serviceData128Value = some (u, rest) ↔ s.serviceData128 = some (u.bytesLe ++ rest) := by
  rw [serviceData128Value, bind_splitServiceData_eq_some_iff]
  constructor
  · rintro ⟨pre, hpre, hu, hs⟩
    rwa [(Uuid.ofSliceLe?_eq_some_iff_of_length_sixteen hpre).1 hu] at hs
  · intro hs
    exact ⟨u.bytesLe, Uuid.length_bytesLe u, Uuid.ofSliceLe?_bytesLe u, hs⟩

/-! ### Manufacturer data -/

theorem manufacturerSpecific_eq_some_iff {c : UInt16} :
    s.manufacturerSpecific = some (c, rest) ↔
      s.manufacturerData = some (Bytes.le16 c ++ rest) := by
  rw [manufacturerSpecific, Option.bind_eq_some_iff]
  constructor
  · rintro ⟨d, hd, h⟩
    split at h
    · cases h
    · rename_i hlen
      rw [Option.some.injEq, Prod.mk.injEq] at h
      obtain ⟨rfl, rfl⟩ := h
      rw [hd, Bytes.le16_readLe16_append_drop (by omega)]
  · intro hs
    refine ⟨_, hs, ?_⟩
    rw [if_neg (by simp; omega), Bytes.readLe16_le16_append, List.drop_left' (Bytes.length_le16 c)]

theorem isSome_manufacturerSpecific (s : FieldSet) :
    s.manufacturerSpecific.isSome ↔ ∃ d, s.manufacturerData = some d ∧ 2 ≤ d.length := by
  rw [Option.isSome_iff_exists]
  constructor
  · rintro ⟨⟨c, rest⟩, h⟩
    exact ⟨_, manufacturerSpecific_eq_some_iff.1 h, by simp⟩
  · rintro ⟨d, hd, hlen⟩
    refine ⟨(Bytes.readLe16 d, d.drop 2), manufacturerSpecific_eq_some_iff.2 ?_⟩
    rw [hd, Bytes.le16_readLe16_append_drop hlen]

/-! ### Views by whole pieces -/

theorem publicTargetList_pieces (s : FieldSet) :
    s.publicTargetList.length = (s.publicTargets.getD []).length / 6 ∧
      s.publicTargetList.flatMap (fun a => a.bytes.toList) =
        (s.publicTargets.getD []).take (6 * ((s.publicTargets.getD []).length / 6)) :=
  Bytes.filterMap_chunks_pieces (by decide)
    (fun _ hc => ⟨_, BdAddr.ofPrefix?_of_length hc, rfl⟩) _

end FieldSet

namespace ServiceUuids128

theorem toUuids_pieces (l : ServiceUuids128) :
    l.toUuids.length = l.count ∧ l.toUuids.flatMap Uuid.bytesLe = l.bytes.take (16 * l.count) :=
  Bytes.filterMap_chunks_pieces (by decide)
    (fun _ hc => ⟨_, Uuid.ofSliceLe?_of_length_sixteen hc, rfl⟩) _

theorem isEmpty_eq_true_iff (l : ServiceUuids128) : l.isEmpty = true ↔ l.bytes.length < 16 := by
  rw [isEmpty, count, beq_iff_eq, Nat.div_eq_zero_iff]
  omega

end ServiceUuids128

namespace ServiceUuids

theorem map_asU16_toUuids (l : ServiceUuids UInt16) :
    (l.toUuids Uuid.ofU16).map Uuid.asU16 = l.uuids.map some := by
  simp [toUuids, Function.comp_def]

theorem map_asU32_toUuids (l : ServiceUuids UInt32) :
    (l.toUuids Uuid.ofU32).map Uuid.asU32 = l.uuids.map some := by
  simp [toUuids, Function.comp_def]

end ServiceUuids

/-- Each view of a field set takes its bytes apart without loss.  Service data for a 16-, 32- or
128-bit UUID splits exactly when it has 2, 4 or 16 bytes or more, and into a UUID and a rest that
the UUID's short form (or its bytes) followed by the rest make up; manufacturer data likewise into
a company identifier and the rest.  Public target addresses and 128-bit UUID lists yield one value
a whole piece, whose bytes are the bytes less their short tail; a 128-bit list is empty exactly
when it has no whole piece.  A 16- or 32-bit list is widened element by element, and its short
forms give the list back. -/
theorem views_recover_bytes (s : FieldSet) :
    ((s.serviceData16Value.isSome ↔ ∃ d, s.serviceData16 = some d ∧ 2 ≤ d.length) ∧
      ∀ u rest, s.serviceData16Value = some (u, rest) ↔
        ∃ y, u.asU16 = some y ∧ s.serviceData16 = some (Bytes.le16 y ++ rest)) ∧
    ((s.serviceData32Value.isSome ↔ ∃ d, s.serviceData32 = some d ∧ 4 ≤ d.length) ∧
      ∀ u rest, s.serviceData32Value = some (u, rest) ↔
        ∃ x, u.asU32 = some x ∧ s.serviceData32 = some (Bytes.le32 x ++ rest)) ∧
    ((s.serviceData128Value.isSome ↔ ∃ d, s.serviceData128 = some d ∧ 16 ≤ d.length) ∧
      ∀ u rest, s.serviceData128Value = some (u, rest) ↔
        s.serviceData128 = some (u.bytesLe ++ rest)) ∧
    ((s.manufacturerSpecific.isSome ↔ ∃ d, s.manufacturerData = some d ∧ 2 ≤ d.length) ∧
      ∀ c rest, s.manufacturerSpecific = some (c, rest) ↔
        s.manufacturerData = some (Bytes.le16 c ++ rest)) ∧
    (s.publicTargetList.length = (s.publicTargets.getD []).length / 6 ∧
      s.publicTargetList.flatMap (fun a => a.bytes.toList) =
        (s.publicTargets.getD []).take (6 * ((s.publicTargets.getD []).length / 6))) ∧
    (∀ l : ServiceUuids128, l.toUuids.length = l.count ∧ l.count = l.bytes.length / 16 ∧
      l.toUuids.flatMap Uuid.bytesLe = l.bytes.take (16 * l.count) ∧
      (l.isEmpty = true ↔ l.bytes.length < 16)) ∧
    (∀ l : ServiceUuids UInt16, l.toUuids Uuid.ofU16 = l.uuids.map Uuid.ofU16 ∧
      (l.toUuids Uuid.ofU16).map Uuid.asU16 = l.uuids.map some) ∧
    (∀ l : ServiceUuids UInt32, l.toUuids Uuid.ofU32 = l.uuids.map Uuid.ofU32 ∧
      (l.toUuids Uuid.ofU32).map Uuid.asU32 = l.uuids.map some) :=
  ⟨⟨FieldSet.isSome_bind_splitServiceData (by decide) _,
      fun _ _ => FieldSet.serviceData16Value_eq_some_iff⟩,
    ⟨FieldSet.isSome_bind_splitServiceData (by decide) _,
      fun _ _ => FieldSet.serviceData32Value_eq_some_iff⟩,
    ⟨FieldSet.isSome_bind_splitServiceData (by decide) _,
      fun _ _ => FieldSet.serviceData128Value_eq_some_iff⟩,
    ⟨FieldSet.isSome_manufacturerSpecific s, fun _ _ => FieldSet.manufacturerSpecific_eq_some_iff⟩,
    FieldSet.publicTargetList_pieces s,
    fun l => ⟨(l.toUuids_pieces).1, rfl, (l.toUuids_pieces).2, l.isEmpty_eq_true_iff⟩,
    fun l => ⟨rfl, l.map_asU16_toUuids⟩,
    fun l => ⟨rfl, l.map_asU32_toUuids⟩⟩

end AdvertisingData
