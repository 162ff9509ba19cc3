import AdvertisingData.Fields.Decode
import Mathlib.Data.List.Basic
/-!
# Field sets as maps from slots

`Slot` names the entries of a field set in the order a payload is written, so a field set is a
map from slots to `Field`s (`FieldSet.entry`, `FieldSet.ofEntries`).  A run of insertions leaves
in each slot the last field inserted there (`FieldSet.foldl_insert_ofEntries`): the last record
wins by one fact about updates.  Reading the record an entry is written as gives the entry back
(`Field.ofValue_record`), and the converse holds for values that meet their length rule.
-/

namespace AdvertisingData

namespace Bytes

theorem le16_readLe16 {bs : List UInt8} (h : bs.length = 2) : le16 (readLe16 bs) = bs := by
  match bs, h with
  | [a, b], _ =>
      have ha := a.toNat_lt
      have hb := b.toNat_lt
      simp only [le16, readLe16, List.take_succ_cons, List.take_zero, toNatLE_cons, toNatLE_nil,
        UInt16.toNat_ofNat', ofNatLE, List.cons.injEq, and_true, ← UInt8.toNat_inj,
        toNat_byte]
      omega

theorem le32_readLe32 {bs : List UInt8} (h : bs.length = 4) : le32 (readLe32 bs) = bs := by
  match bs, h with
  | [a, b, c, d], _ =>
      have ha := a.toNat_lt
      have hb := b.toNat_lt
      have hc := c.toNat_lt
      have hd := d.toNat_lt
      simp only [le32, readLe32, List.take_succ_cons, List.take_zero, toNatLE_cons, toNatLE_nil,
        UInt32.toNat_ofNat', ofNatLE, List.cons.injEq, and_true, ← UInt8.toNat_inj,
        toNat_byte]
      omega

@[simp] theorem length_flatMap_le16 (us : List UInt16) : (us.flatMap le16).length = 2 * us.length := by
  induction us with
  | nil => rfl
  | cons u us ih => simp [ih, Nat.mul_succ, Nat.add_comm]

@[simp] theorem length_flatMap_le32 (us : List UInt32) : (us.flatMap le32).length = 4 * us.length := by
  induction us with
  | nil => rfl
  | cons u us ih => simp [ih, Nat.mul_succ, Nat.add_comm]

@[simp] theorem readLe16_le16 (v : UInt16) : readLe16 (le16 v) = v := by
  simpa using readLe16_le16_append v []

@[simp] theorem readLe32_le32 (v : UInt32) : readLe32 (le32 v) = v := by
  simpa using readLe32_le32_append v []

theorem chunks_of_le {α : Type} {n : Nat} {l : List α} (hn : 0 < n) (hl : n ≤ l.length) :
    chunks n l = l.take n :: chunks n (l.drop n) := by
  rw [chunks, if_pos ⟨hn, hl⟩]

theorem chunks_of_lt {α : Type} {n : Nat} {l : List α} (hl : l.length < n) : chunks n l = [] := by
  rw [chunks, if_neg (by omega)]

theorem isEmpty_chunks {α : Type} {n : Nat} {l : List α} (hn : 0 < n) (hl : l.length % n = 0) :
    (chunks n l).isEmpty = l.isEmpty := by
  cases l with
  | nil => simp [chunks_of_lt, hn]
  | cons a l =>
      have hlen : n ≤ (a :: l).length :=
        Nat.le_of_dvd (by simp) (Nat.dvd_of_mod_eq_zero hl)
      simp [chunks_of_le hn hlen]

theorem chunks_flatMap {α β : Type} {n : Nat} (f : α → List β) (hn : 0 < n)
    (hf : ∀ x, (f x).length = n) (xs : List α) : chunks n (xs.flatMap f) = xs.map f := by
  induction xs with
  | nil => exact chunks_of_lt (by simp [hn])
  | cons x xs ih =>
      rw [List.flatMap_cons, chunks_of_le hn (by simp [hf x]), List.take_left' (hf x),
        List.drop_left' (hf x), ih, List.map_cons]

theorem flatten_chunks {α : Type} {n : Nat} (hn : 0 < n) (l : List α)
    (hl : l.length % n = 0) : (chunks n l).flatten = l := by
  induction hk : l.length using Nat.strongRecOn generalizing l with
  | ind k ih =>
      by_cases hlt : l.length < n
      · have hnil : l = [] := by
          apply List.eq_nil_of_length_eq_zero
          rw [← Nat.mod_eq_of_lt hlt]
          exact hl
        subst hnil
        rw [chunks_of_lt hlt, List.flatten_nil]
      · have hrest : (l.drop n).length % n = 0 := by
          rw [List.length_drop, ← Nat.mod_eq_sub_mod (by omega)]
          exact hl
        rw [chunks_of_le hn (by omega), List.flatten_cons,
          ih (k - n) (by omega) (l.drop n) hrest (by simp [hk]), List.take_append_drop]

theorem length_of_mem_chunks {α : Type} {n : Nat} {l : List α} {c : List α}
    (hc : c ∈ chunks n l) : c.length = n := by
  induction hk : l.length using Nat.strongRecOn generalizing l with
  | ind k ih =>
      rw [chunks] at hc
      split at hc
      · rename_i hfit
        rcases List.mem_cons.1 hc with rfl | hc
        · simp only [List.length_take]
          omega
        · exact ih (k - n) (by omega) hc (by simp only [List.length_drop]; omega)
      · simp at hc

/-- A string of whole `n`-byte words, read word by word and written back, is the same string,
when every word of `n` bytes is written back as those bytes. -/
theorem flatMap_map_chunks {β : Type} {n : Nat} (hn : 0 < n) (read : List UInt8 → β)
    (write : β → List UInt8) (hrw : ∀ c : List UInt8, c.length = n → write (read c) = c)
    {v : List UInt8} (h : v.length % n = 0) : ((chunks n v).map read).flatMap write = v := by
  rw [List.flatMap_map]
  calc (chunks n v).flatMap (fun c => write (read c))
      = (chunks n v).flatMap id :=
        List.flatMap_congr fun c hc => hrw c (length_of_mem_chunks hc)
    _ = v := by rw [List.flatMap_id]; exact flatten_chunks hn v h

theorem flatMap_le16_readLe16 {v : List UInt8} (h : v.length % 2 = 0) :
    ((chunks 2 v).map readLe16).flatMap le16 = v :=
  flatMap_map_chunks (by decide) readLe16 le16 (fun _ => le16_readLe16) h

theorem flatMap_le32_readLe32 {v : List UInt8} (h : v.length % 4 = 0) :
    ((chunks 4 v).map readLe32).flatMap le32 = v :=
  flatMap_map_chunks (by decide) readLe32 le32 (fun _ => le32_readLe32) h

end Bytes

/-- The entries of a field set, in the order a payload is written. -/
inductive Slot
  | flags
  | uuids16
  | uuids32
  | uuids128
  | name
  | txPowerLevel
  | deviceClass
  | connIntervalRange
  | serviceData16
  | publicTargets
  | appearance
  | advInterval
  | leAddress
  | leRole
  | serviceData32
  | serviceData128
  | uri
  | manufacturerData
deriving DecidableEq, Repr

namespace Slot

def all : List Slot :=
  [flags, uuids16, uuids32, uuids128, name, txPowerLevel, deviceClass, connIntervalRange,
    serviceData16, publicTargets, appearance, advInterval, leAddress, leRole, serviceData32,
    serviceData128, uri, manufacturerData]

theorem mem_all (k : Slot) : k ∈ all := by
  cases k <;> simp [all]

theorem nodup_all : all.Nodup := by
  decide

def codeRange : Slot → Nat × Nat
  | flags => (0x01, 0x01)
  | uuids16 => (0x02, 0x03)
  | uuids32 => (0x04, 0x05)
  | uuids128 => (0x06, 0x07)
  | name => (0x08, 0x09)
  | txPowerLevel => (0x0A, 0x0A)
  | deviceClass => (0x0D, 0x0D)
  | connIntervalRange => (0x12, 0x12)
  | serviceData16 => (0x16, 0x16)
  | publicTargets => (0x17, 0x17)
  | appearance => (0x19, 0x19)
  | advInterval => (0x1A, 0x1A)
  | leAddress => (0x1B, 0x1B)
  | leRole => (0x1C, 0x1C)
  | serviceData32 => (0x20, 0x20)
  | serviceData128 => (0x21, 0x21)
  | uri => (0x24, 0x24)
  | manufacturerData => (0xFF, 0xFF)

theorem pairwise_all_codeRange : all.Pairwise fun k k' => k.codeRange.2 < k'.codeRange.1 := by
  decide

end Slot

/-- The slot records of a type fill: complete and incomplete lists and names share one, and
unknown types fill none. -/
def AdType.slot : AdType → Option Slot
  | .flags => some .flags
  | .incompleteUuids16 | .completeUuids16 => some .uuids16
  | .incompleteUuids32 | .completeUuids32 => some .uuids32
  | .incompleteUuids128 | .completeUuids128 => some .uuids128
  | .shortName | .completeName => some .name
  | .txPowerLevel => some .txPowerLevel
  | .deviceClass => some .deviceClass
  | .connIntervalRange => some .connIntervalRange
  | .serviceDataUuid16 => some .serviceData16
  | .publicTargetAddress => some .publicTargets
  | .appearance => some .appearance
  | .advInterval => some .advInterval
  | .leAddress => some .leAddress
  | .leRole => some .leRole
  | .serviceDataUuid32 => some .serviceData32
  | .serviceDataUuid128 => some .serviceData128
  | .uri => some .uri
  | .manufacturerData => some .manufacturerData
  | .unknown _ => none

namespace AdType

@[simp] theorem lengthRule_uuids16 (c : Bool) : (uuids16 c).lengthRule = .multipleOf 2 := by
  cases c <;> rfl

@[simp] theorem lengthRule_uuids32 (c : Bool) : (uuids32 c).lengthRule = .multipleOf 4 := by
  cases c <;> rfl

@[simp] theorem lengthRule_uuids128 (c : Bool) : (uuids128 c).lengthRule = .multipleOf 16 := by
  cases c <;> rfl

@[simp] theorem lengthRule_localName (c : Bool) : (localName c).lengthRule = .any := by
  cases c <;> rfl

end AdType

theorem AdType.ofCode_code {t : AdType} {k : Slot} (h : t.slot = some k) : ofCode t.code = t := by
  cases t <;> first | rfl | simp [slot] at h

theorem AdType.code_mem_codeRange {t : AdType} {k : Slot} (h : t.slot = some k) :
    k.codeRange.1 ≤ t.code.toNat ∧ t.code.toNat ≤ k.codeRange.2 := by
  cases t <;> simp only [AdType.slot, Option.some.injEq, reduceCtorEq] at h <;> subst h <;> decide

namespace Field

/-- The slot an entry fills. -/
def slot : Field → Slot
  | .flags _ => .flags
  | .uuids16 _ => .uuids16
  | .uuids32 _ => .uuids32
  | .uuids128 _ => .uuids128
  | .name _ => .name
  | .txPowerLevel _ => .txPowerLevel
  | .deviceClass _ => .deviceClass
  | .connIntervalRange _ => .connIntervalRange
  | .serviceData16 _ => .serviceData16
  | .publicTargets _ => .publicTargets
  | .appearance _ => .appearance
  | .advInterval _ => .advInterval
  | .leAddress _ => .leAddress
  | .leRole _ => .leRole
  | .serviceData32 _ => .serviceData32
  | .serviceData128 _ => .serviceData128
  | .uri _ => .uri
  | .manufacturerData _ => .manufacturerData

/-- The record an entry is written as: its type, complete or not, and its value, words
little-endian. -/
def record : Field → Record
  | .flags f => ⟨.flags, [f.bits]⟩
  | .uuids16 l => ⟨.uuids16 l.complete, l.uuids.flatMap Bytes.le16⟩
  | .uuids32 l => ⟨.uuids32 l.complete, l.uuids.flatMap Bytes.le32⟩
  | .uuids128 l => ⟨.uuids128 l.complete, l.bytes⟩
  | .name n => ⟨.localName n.complete, n.bytes⟩
  | .txPowerLevel v => ⟨.txPowerLevel, [v.toUInt8]⟩
  | .deviceClass b => ⟨.deviceClass, b.toList⟩
  | .connIntervalRange b => ⟨.connIntervalRange, b.toList⟩
  | .serviceData16 d => ⟨.serviceDataUuid16, d⟩
  | .publicTargets d => ⟨.publicTargetAddress, d⟩
  | .appearance v => ⟨.appearance, Bytes.le16 v⟩
  | .advInterval v => ⟨.advInterval, Bytes.le16 v⟩
  | .leAddress b => ⟨.leAddress, b.toList⟩
  | .leRole v => ⟨.leRole, [v]⟩
  | .serviceData32 d => ⟨.serviceDataUuid32, d⟩
  | .serviceData128 d => ⟨.serviceDataUuid128, d⟩
  | .uri d => ⟨.uri, d⟩
  | .manufacturerData d => ⟨.manufacturerData, d⟩

@[simp] theorem slot_record_type (fld : Field) : fld.record.type.slot = some fld.slot := by
  cases fld with
  | uuids16 l => obtain ⟨_, c⟩ := l; cases c <;> rfl
  | uuids32 l => obtain ⟨_, c⟩ := l; cases c <;> rfl
  | uuids128 l => obtain ⟨_, c⟩ := l; cases c <;> rfl
  | name n => obtain ⟨_, c⟩ := n; cases c <;> rfl
  | _ => rfl

theorem slot_of_ofValue {t : AdType} {v : List UInt8} {fld : Field} (h : ofValue t v = some fld) :
    t.slot = some fld.slot := by
  cases t <;> simp only [ofValue, Option.map_eq_some_iff, Option.some.injEq, reduceCtorEq] at h
  case deviceClass | connIntervalRange | leAddress =>
    obtain ⟨_, -, rfl⟩ := h
    rfl
  all_goals
    subst h
    rfl

/-- Reading the record of an entry gives the entry back. -/
theorem ofValue_record (fld : Field) : ofValue fld.record.type fld.record.value = some fld := by
  cases fld with
  | flags f => rfl
  | uuids16 l =>
      obtain ⟨us, c⟩ := l
      have hus : (Bytes.chunks 2 (us.flatMap Bytes.le16)).map Bytes.readLe16 = us := by
        rw [Bytes.chunks_flatMap Bytes.le16 (by decide) Bytes.length_le16, List.map_map]
        simp [Function.comp_def]
      cases c <;> simp [record, ofValue, AdType.uuids16, hus, AdType.isComplete]
  | uuids32 l =>
      obtain ⟨us, c⟩ := l
      have hus : (Bytes.chunks 4 (us.flatMap Bytes.le32)).map Bytes.readLe32 = us := by
        rw [Bytes.chunks_flatMap Bytes.le32 (by decide) Bytes.length_le32, List.map_map]
        simp [Function.comp_def]
      cases c <;> simp [record, ofValue, AdType.uuids32, hus, AdType.isComplete]
  | uuids128 l => cases l with | mk b c => cases c <;> rfl
  | name n => cases n with | mk b c => cases c <;> rfl
  | txPowerLevel v => simp [record, ofValue]
  | deviceClass b => simp [record, ofValue, FixedBytes.ofList?_eq_some_iff]
  | connIntervalRange b => simp [record, ofValue, FixedBytes.ofList?_eq_some_iff]
  | appearance v => simp [record, ofValue]
  | advInterval v => simp [record, ofValue]
  | leAddress b => simp [record, ofValue, FixedBytes.ofList?_eq_some_iff]
  | _ => rfl

/-- A value that meets its type's length rule and reads as an entry is written back as the same
record. -/
theorem record_of_ofValue {t : AdType} {v : List UInt8} {fld : Field}
    (h : ofValue t v = some fld) (hadm : t.lengthRule.admits v.length) : fld.record = ⟨t, v⟩ := by
  cases t <;> simp only [AdType.lengthRule, LengthRule.admits, beq_iff_eq, decide_eq_true_eq,
    ] at hadm
  case flags | txPowerLevel | leRole =>
    obtain ⟨b, rfl⟩ := List.length_eq_one_iff.1 hadm
    cases h
    simp [record]
  case appearance | advInterval =>
    cases h
    simp [record, Bytes.le16_readLe16 hadm]
  case deviceClass | connIntervalRange | leAddress =>
    obtain ⟨b, hb, rfl⟩ := Option.map_eq_some_iff.1 h
    simp [record, (FixedBytes.ofList?_eq_some_iff.1 hb)]
  case incompleteUuids16 | completeUuids16 =>
    cases h
    simp [record, AdType.uuids16, AdType.isComplete, Bytes.flatMap_le16_readLe16 hadm]
  case incompleteUuids32 | completeUuids32 =>
    cases h
    simp [record, AdType.uuids32, AdType.isComplete, Bytes.flatMap_le32_readLe32 hadm]
  case unknown => cases h
  all_goals
    cases h
    rfl

/-- Whether encoding writes the entry: flags with some bit set, lists, names and byte strings that
are not empty, and every entry of fixed size. -/
def isWritten : Field → Bool
  | .flags f => !f.isEmpty
  | .uuids16 l => !l.uuids.isEmpty
  | .uuids32 l => !l.uuids.isEmpty
  | .uuids128 l => !l.bytes.isEmpty
  | .name n => !n.bytes.isEmpty
  | .serviceData16 d | .publicTargets d | .serviceData32 d | .serviceData128 d | .uri d
  | .manufacturerData d => !d.isEmpty
  | _ => true

end Field

namespace FieldSet

/-- The entry of a field set in a slot, with a transmit power level left to the source read as
`level`; flags left to the discovery mode are no entry. -/
def entry (s : FieldSet) (level : Int8) : Slot → Option Field
  | .flags =>
      match s.flags with
      | some (.value f) => some (.flags f)
      | _ => none
  | .uuids16 => s.uuids16.map .uuids16
  | .uuids32 => s.uuids32.map .uuids32
  | .uuids128 => s.uuids128.map .uuids128
  | .name => s.name.map .name
  | .txPowerLevel =>
      s.txPowerLevel.map fun
        | .auto => .txPowerLevel level
        | .level v => .txPowerLevel v
  | .deviceClass => s.deviceClass.map .deviceClass
  | .connIntervalRange => s.connIntervalRange.map .connIntervalRange
  | .serviceData16 => s.serviceData16.map .serviceData16
  | .publicTargets => s.publicTargets.map .publicTargets
  | .appearance => s.appearance.map .appearance
  | .advInterval => s.advInterval.map .advInterval
  | .leAddress => s.leAddress.map .leAddress
  | .leRole => s.leRole.map .leRole
  | .serviceData32 => s.serviceData32.map .serviceData32
  | .serviceData128 => s.serviceData128.map .serviceData128
  | .uri => s.uri.map .uri
  | .manufacturerData => s.manufacturerData.map .manufacturerData

theorem slot_of_entry {s : FieldSet} {level : Int8} {k : Slot} {fld : Field}
    (h : s.entry level k = some fld) : fld.slot = k := by
  cases k <;> simp only [entry, Option.map_eq_some_iff] at h
  case flags =>
    split at h
    · cases h
      rfl
    · cases h
  case txPowerLevel =>
    obtain ⟨t, -, rfl⟩ := h
    cases t <;> rfl
  all_goals
    obtain ⟨_, -, rfl⟩ := h
    rfl

/-- The field set holding the given entries; an entry of the wrong kind for its slot is left
out. -/
def ofEntries (e : Slot → Option Field) : FieldSet where
  flags := match e .flags with | some (.flags f) => some (.value f) | _ => none
  uuids16 := match e .uuids16 with | some (.uuids16 l) => some l | _ => none
  uuids32 := match e .uuids32 with | some (.uuids32 l) => some l | _ => none
  uuids128 := match e .uuids128 with | some (.uuids128 l) => some l | _ => none
  name := match e .name with | some (.name n) => some n | _ => none
  txPowerLevel := match e .txPowerLevel with | some (.txPowerLevel v) => some (.level v) | _ => none
  deviceClass := match e .deviceClass with | some (.deviceClass b) => some b | _ => none
  connIntervalRange := match e .connIntervalRange with
    | some (.connIntervalRange b) => some b
    | _ => none
  serviceData16 := match e .serviceData16 with | some (.serviceData16 d) => some d | _ => none
  publicTargets := match e .publicTargets with | some (.publicTargets d) => some d | _ => none
  appearance := match e .appearance with | some (.appearance v) => some v | _ => none
  advInterval := match e .advInterval with | some (.advInterval v) => some v | _ => none
  leAddress := match e .leAddress with | some (.leAddress b) => some b | _ => none
  leRole := match e .leRole with | some (.leRole v) => some v | _ => none
  serviceData32 := match e .serviceData32 with | some (.serviceData32 d) => some d | _ => none
  serviceData128 := match e .serviceData128 with | some (.serviceData128 d) => some d | _ => none
  uri := match e .uri with | some (.uri d) => some d | _ => none
  manufacturerData := match e .manufacturerData with
    | some (.manufacturerData d) => some d
    | _ => none

theorem empty_eq_ofEntries : ({} : FieldSet) = ofEntries fun _ => none := rfl

theorem insert_ofEntries (e : Slot → Option Field) (fld : Field) :
    (ofEntries e).insert fld = ofEntries (Function.update e fld.slot (some fld)) := by
  cases fld <;> dsimp only [ofEntries, insert, Field.slot] <;>
    simp only [Function.update_self, ne_eq, reduceCtorEq, not_false_eq_true, Function.update_of_ne]

/-- After a run of insertions each slot holds the last field inserted there, or what it held
before if none was. -/
theorem foldl_insert_ofEntries (e : Slot → Option Field) (l : List Field) :
    l.foldl insert (ofEntries e) =
      ofEntries fun k => ((l.filter (·.slot = k)).getLast?).or (e k) := by
  induction l generalizing e with
  | nil => simp
  | cons fld l ih =>
      rw [List.foldl_cons, insert_ofEntries, ih]
      congr 1
      funext k
      by_cases hk : fld.slot = k
      · subst hk
        simp [List.getLast?_cons, Option.or_some]
      · simp [hk, Function.update_of_ne (Ne.symm hk)]

/-- Entries that each sit in their own slot are read back from the field set they build. -/
theorem entry_ofEntries {e : Slot → Option Field} (he : ∀ k fld, e k = some fld → fld.slot = k)
    (level : Int8) (k : Slot) : (ofEntries e).entry level k = e k := by
  -- each slot's entry is a projection of `e` at that slot, so rewriting `e k` settles it
  cases hek : e k with
  | none => cases k <;> dsimp only [entry, ofEntries] <;> rw [hek] <;> rfl
  | some fld =>
      obtain rfl := he k fld hek
      cases fld <;> dsimp only [Field.slot, entry, ofEntries] at hek ⊢ <;> rw [hek] <;> rfl

end FieldSet

end AdvertisingData
