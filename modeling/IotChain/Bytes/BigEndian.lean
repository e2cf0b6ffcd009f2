import IotChain.Bytes.LittleEndian

/-!
# Big-endian numbers and parts of byte arrays
-/

namespace IotChain.Bytes

/-- The number denoted by a byte list, most significant byte first. -/
def decodeBE (bytes : List UInt8) : Nat := decodeLE bytes.reverse

/-- The `width` low-order bytes of a number, most significant byte first. -/
def encodeBE (width value : Nat) : List UInt8 := (encodeLE width value).reverse

@[simp]
theorem length_encodeBE (width value : Nat) : (encodeBE width value).length = width := by
  simp [encodeBE]

theorem decodeBE_encodeBE (width value : Nat) :
    decodeBE (encodeBE width value) = value % 256 ^ width := by
  rw [decodeBE, encodeBE, List.reverse_reverse, decodeLE_encodeLE]

theorem encodeBE_decodeBE (bytes : List UInt8) :
    encodeBE bytes.length (decodeBE bytes) = bytes := by
  have backwards := encodeLE_decodeLE bytes.reverse
  rw [List.length_reverse] at backwards
  rw [encodeBE, decodeBE, backwards, List.reverse_reverse]

/-- Bytes denote a number that fits them exactly if they are the ones written for it. -/
theorem decodeBE_eq_iff {bytes : List UInt8} {value : Nat} (fits : value < 256 ^ bytes.length) :
    decodeBE bytes = value ↔ bytes = encodeBE bytes.length value := by
  constructor
  · rintro rfl
    exact (encodeBE_decodeBE bytes).symm
  · intro written
    rw [written, decodeBE_encodeBE, Nat.mod_eq_of_lt fits]

/-- The `count` bytes that start at an offset. -/
def slice (bytes : List UInt8) (start count : Nat) : ByteVec count :=
  List.Vector.ofFn fun i => bytes.getD (start + i) 0

/-- A part that stands between two others. -/
theorem slice_append {count : Nat} (before : List UInt8) (part : ByteVec count)
    (after : List UInt8) : slice (before ++ (part.toList ++ after)) before.length count =
      part := by
  apply List.Vector.ext
  intro i
  have bound : (i : Nat) < part.toList.length := by simp
  rw [slice, List.Vector.get_ofFn, List.getD_eq_getElem?_getD,
    List.getElem?_append_right (Nat.le_add_right _ _), Nat.add_sub_cancel_left,
    List.getElem?_append_left bound, List.getElem?_eq_getElem bound, Option.getD_some,
    List.Vector.get_eq_get_toList]
  rfl

theorem toList_slice {bytes : List UInt8} {start count : Nat}
    (inside : start + count ≤ bytes.length) :
    (slice bytes start count).toList = (bytes.drop start).take count := by
  apply List.ext_getElem
  · simp only [List.Vector.toList_length, List.length_take, List.length_drop]
    omega
  · intro i bound _
    rw [List.Vector.toList_length] at bound
    have within : start + i < bytes.length := by omega
    simp [slice, List.Vector.toList_ofFn, List.getD_eq_getElem?_getD, within]

end IotChain.Bytes
