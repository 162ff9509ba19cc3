/-!
# Bytes and little-endian words

Advertising data is a string of bytes, kept as `List UInt8`.  `FixedBytes n` holds the fields
whose size the format fixes; `Bytes.toNatLE` and `Bytes.ofNatLE` read and write little-endian
values, with the 16- and 32-bit words built on them; `Bytes.chunks n` cuts a string into its
whole `n`-byte pieces, dropping a short tail.
-/

namespace AdvertisingData

/-- A byte string of exactly `n` bytes. -/
structure FixedBytes (n : Nat) where
  toList : List UInt8
  length_toList : toList.length = n
deriving DecidableEq, Repr

namespace FixedBytes

def ofList? (n : Nat) (l : List UInt8) : Option (FixedBytes n) :=
  if h : l.length = n then some ⟨l, h⟩ else none

theorem ofList?_eq_some_iff {n : Nat} {l : List UInt8} {b : FixedBytes n} :
    ofList? n l = some b ↔ b.toList = l := by
  unfold ofList?
  constructor
  · intro h
    split at h
    · cases h; rfl
    · cases h
  · intro h
    have hl : l.length = n := h ▸ b.length_toList
    rw [dif_pos hl]
    cases b
    simp_all

end FixedBytes

namespace Bytes

/-- The value of a byte string read little-endian: the first byte is the least significant. -/
def toNatLE : List UInt8 → Nat
  | [] => 0
  | b :: bs => b.toNat + 256 * toNatLE bs

/-- The `w` little-endian bytes of `n`; what does not fit in `w` bytes is dropped. -/
def ofNatLE : Nat → Nat → List UInt8
  | 0, _ => []
  | w + 1, n => UInt8.ofNat (n % 256) :: ofNatLE w (n / 256)

@[simp] theorem toNatLE_nil : toNatLE [] = 0 := rfl

@[simp] theorem toNatLE_cons (b : UInt8) (bs : List UInt8) :
    toNatLE (b :: bs) = b.toNat + 256 * toNatLE bs := rfl

@[simp] theorem length_ofNatLE (w n : Nat) : (ofNatLE w n).length = w := by
  induction w generalizing n with
  | zero => rfl
  | succ w ih => simp [ofNatLE, ih]

theorem toNat_byte (n : Nat) : (UInt8.ofNat (n % 256)).toNat = n % 256 := by
  rw [UInt8.toNat_ofNat']
  exact Nat.mod_mod_of_dvd n (Nat.dvd_refl 256)

theorem toNatLE_ofNatLE_two (n : Nat) : toNatLE (ofNatLE 2 n) = n % 65536 := by
  simp only [ofNatLE, toNatLE_cons, toNatLE_nil, toNat_byte]
  omega

theorem toNatLE_ofNatLE_four (n : Nat) : toNatLE (ofNatLE 4 n) = n % 4294967296 := by
  simp only [ofNatLE, toNatLE_cons, toNatLE_nil, toNat_byte]
  omega

def le16 (v : UInt16) : List UInt8 := ofNatLE 2 v.toNat

def le32 (v : UInt32) : List UInt8 := ofNatLE 4 v.toNat

/-- The 16-bit word whose little-endian bytes begin the string (missing bytes read as zero). -/
def readLe16 (bs : List UInt8) : UInt16 := UInt16.ofNat (toNatLE (bs.take 2))

/-- The 32-bit word whose little-endian bytes begin the string (missing bytes read as zero). -/
def readLe32 (bs : List UInt8) : UInt32 := UInt32.ofNat (toNatLE (bs.take 4))

@[simp] theorem length_le16 (v : UInt16) : (le16 v).length = 2 := length_ofNatLE 2 _

@[simp] theorem length_le32 (v : UInt32) : (le32 v).length = 4 := length_ofNatLE 4 _

theorem readLe16_le16_append (v : UInt16) (rest : List UInt8) : readLe16 (le16 v ++ rest) = v := by
  have hv := v.toNat_lt
  have ht : (le16 v ++ rest).take 2 = le16 v := List.take_left' (length_le16 v)
  rw [readLe16, ht, le16, toNatLE_ofNatLE_two, Nat.mod_eq_of_lt (by omega)]
  exact UInt16.ofNat_toNat

theorem readLe32_le32_append (v : UInt32) (rest : List UInt8) : readLe32 (le32 v ++ rest) = v := by
  have hv := v.toNat_lt
  have ht : (le32 v ++ rest).take 4 = le32 v := List.take_left' (length_le32 v)
  rw [readLe32, ht, le32, toNatLE_ofNatLE_four, Nat.mod_eq_of_lt (by omega)]
  exact UInt32.ofNat_toNat

/-- The whole `n`-byte pieces of a string, in order; a tail shorter than `n` is dropped, and so is
everything when `n = 0`. -/
def chunks {α : Type} (n : Nat) (l : List α) : List (List α) :=
  if 0 < n ∧ n ≤ l.length then l.take n :: chunks n (l.drop n) else []
termination_by l.length
decreasing_by simp only [List.length_drop]; omega

theorem length_chunks {α : Type} (n : Nat) (l : List α) (hn : 0 < n) :
    (chunks n l).length = l.length / n := by
  induction hk : l.length using Nat.strongRecOn generalizing l with
  | ind k ih =>
    rw [chunks]
    split
    · simp only [List.length_cons]
      rw [ih (k - n) (by omega) (l.drop n) (by simp [hk])]
      have : k / n = (k - n) / n + 1 := by
        rw [Nat.div_eq_sub_div hn (by omega)]
      omega
    · simp only [List.length_nil]
      have : k < n := by omega
      exact (Nat.div_eq_of_lt this).symm

end Bytes

end AdvertisingData
