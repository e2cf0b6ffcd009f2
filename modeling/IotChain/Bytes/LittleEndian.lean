import Mathlib.Data.Vector.Basic
import Mathlib.Tactic.Ring

/-!
# Little-endian byte words

Fixed-width unsigned numbers as byte lists, least significant byte first, with
the two inverse laws between the writer and the reader.  A byte array whose
length is part of its type is a `List.Vector`, so a block of the wrong size
cannot be formed.
-/

namespace IotChain.Bytes

/-- A byte array whose length is fixed by its type. -/
abbrev ByteVec (n : Nat) := List.Vector UInt8 n

/-- The `width` low-order bytes of a number, least significant byte first. -/
def encodeLE : Nat → Nat → List UInt8
  | 0, _ => []
  | width + 1, value => UInt8.ofNat value :: encodeLE width (value / 256)

/-- The number denoted by a byte list, least significant byte first. -/
def decodeLE : List UInt8 → Nat
  | [] => 0
  | byte :: rest => byte.toNat + 256 * decodeLE rest

@[simp]
theorem length_encodeLE (width value : Nat) :
    (encodeLE width value).length = width := by
  induction width generalizing value with
  | zero => rfl
  | succ width ih => simp [encodeLE, ih]

theorem getElem_encodeLE {width value i : Nat} (bound : i < (encodeLE width value).length) :
    (encodeLE width value)[i] = UInt8.ofNat (value / 256 ^ i) := by
  induction width generalizing value i with
  | zero => cases bound
  | succ width ih =>
      cases i with
      | zero => simp [encodeLE]
      | succ i => simp [encodeLE, ih, Nat.div_div_eq_div_mul, Nat.pow_succ, Nat.mul_comm]

/-- Reading back a written number gives its residue at the written width. -/
theorem decodeLE_encodeLE (width value : Nat) :
    decodeLE (encodeLE width value) = value % 256 ^ width := by
  induction width generalizing value with
  | zero => simp [encodeLE, decodeLE, Nat.mod_one]
  | succ width ih =>
      have byteEq : (UInt8.ofNat value).toNat = value % 256 := by simp
      rw [encodeLE, decodeLE, ih, byteEq, Nat.pow_succ, Nat.mul_comm (256 ^ width),
        Nat.mod_mul]

theorem decodeLE_lt (bytes : List UInt8) : decodeLE bytes < 256 ^ bytes.length := by
  induction bytes with
  | nil => simp [decodeLE]
  | cons byte rest ih =>
      have byteLt := byte.toNat_lt
      rw [decodeLE, List.length_cons, Nat.pow_succ]
      omega

/-- Writing the number a byte list denotes gives the byte list back. -/
theorem encodeLE_decodeLE (bytes : List UInt8) :
    encodeLE bytes.length (decodeLE bytes) = bytes := by
  induction bytes with
  | nil => rfl
  | cons byte rest ih =>
      have byteLt := byte.toNat_lt
      have lowEq : UInt8.ofNat (byte.toNat + 256 * decodeLE rest) = byte := by
        apply UInt8.toNat_inj.mp
        simp only [UInt8.toNat_ofNat', Nat.reducePow]
        omega
      have highEq : (byte.toNat + 256 * decodeLE rest) / 256 = decodeLE rest := by
        omega
      rw [decodeLE, List.length_cons, encodeLE, lowEq, highEq, ih]

/-- Two numbers that fit the width and are written alike are equal. -/
theorem encodeLE_inj {width left right : Nat} (leftLt : left < 256 ^ width)
    (rightLt : right < 256 ^ width)
    (equal : encodeLE width left = encodeLE width right) : left = right := by
  have decoded := congrArg decodeLE equal
  rwa [decodeLE_encodeLE, decodeLE_encodeLE, Nat.mod_eq_of_lt leftLt,
    Nat.mod_eq_of_lt rightLt] at decoded

/-! ## The widths of the machine's numbers -/

theorem encode32_inj {left right : UInt32}
    (equal : encodeLE 4 left.toNat = encodeLE 4 right.toNat) : left = right := by
  have leftLt : left.toNat < 256 ^ 4 := left.toNat_lt
  have rightLt : right.toNat < 256 ^ 4 := right.toNat_lt
  exact UInt32.toNat_inj.mp (encodeLE_inj leftLt rightLt equal)

theorem encode64_inj {left right : UInt64}
    (equal : encodeLE 8 left.toNat = encodeLE 8 right.toNat) : left = right := by
  have leftLt : left.toNat < 256 ^ 8 := left.toNat_lt
  have rightLt : right.toNat < 256 ^ 8 := right.toNat_lt
  exact UInt64.toNat_inj.mp (encodeLE_inj leftLt rightLt equal)

/-- Any eight bytes are the bytes of a `uint64_t`. -/
theorem exists_encode64 {bytes : List UInt8} (length : bytes.length = 8) :
    ∃ value : UInt64, encodeLE 8 value.toNat = bytes := by
  have fits : decodeLE bytes < 2 ^ 64 := by
    have lt := decodeLE_lt bytes
    rwa [length] at lt
  refine ⟨UInt64.ofNat (decodeLE bytes), ?_⟩
  rw [UInt64.toNat_ofNat', Nat.mod_eq_of_lt fits, ← length, encodeLE_decodeLE]

theorem exists_byteVec {n : Nat} {bytes : List UInt8} (length : bytes.length = n) :
    ∃ value : ByteVec n, value.toList = bytes :=
  ⟨⟨bytes, length⟩, rfl⟩

end IotChain.Bytes
