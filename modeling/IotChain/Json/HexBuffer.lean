import IotChain.Bytes.Writing
import IotChain.Key.Base58

/-!
# Hexadecimal texts

`json_serializer` writes a buffer as two digits a byte, with `0x` in front unless the
buffer is empty.  The reader finds the size of its buffer from the length of the text and
does not expect a text without the prefix.
-/

namespace IotChain

open IotChain.Bytes IotChain.Transition

/-- How the JSON functions end without a result. -/
inductive JsonFailure
  | key (failure : KeyFailure)
  | domainError
  | lengthError
  | signedOverflow
  | endless
  | outOfBounds
  deriving DecidableEq, Repr

/-! ## Writing -/

/-- A digit of `std::hex`. -/
def hexDigit (digit : Nat) : UInt8 :=
  if digit < 10 then UInt8.ofNat (48 + digit) else UInt8.ofNat (87 + digit)

/-- One byte behind `std::setfill('0') << std::setw(2) << std::hex`. -/
def hexByte (byte : UInt8) : List UInt8 := [hexDigit (byte.toNat / 16), hexDigit (byte.toNat % 16)]

/-- The prefix of `hex_buffer`. -/
abbrev hexPrefix : List UInt8 := [48, 120]

/-- What `hex_buffer` streams. -/
def hexText (data : List UInt8) : List UInt8 :=
  (if 0 < data.length then hexPrefix else []) ++ data.flatMap hexByte

/-- `json_serializer::hex_buffer`, whose counter is an `int`. -/
def hexBuffer (data : List UInt8) : Except JsonFailure (List UInt8) :=
  if data.length < 2 ^ 31 then return hexText data else throw .signedOverflow

/-! ## Reading -/

/-- The value of a digit in base 16. -/
def hexValue (c : UInt8) : Option Nat :=
  if 48 ≤ c ∧ c ≤ 57 then some (c.toNat - 48)
  else if 97 ≤ c ∧ c ≤ 102 then some (c.toNat - 87)
  else if 65 ≤ c ∧ c ≤ 70 then some (c.toNat - 55)
  else none

/-- The number that the leading digits denote. -/
def leadingDigits (value : Nat) : List UInt8 → Nat
  | [] => value
  | c :: rest =>
      match hexValue c with
      | some digit => leadingDigits (value * 16 + digit) rest
      | none => value

/-- `strtol` in base 16.  The one or two characters that it is given are too few for a
digit behind `0x`. -/
def strtol (str : List UInt8) : Int :=
  match str.dropWhile Base58.isSpace with
  | 45 :: digits => - leadingDigits 0 digits
  | 43 :: digits => leadingDigits 0 digits
  | digits => leadingDigits 0 digits

/-- The loop of `integer_buffer` from the character `i` on.  The counter is an `unsigned`. -/
def integerBufferLoop (data : List UInt8) (i : Nat) (out : List UInt8) :
    Except JsonFailure (List UInt8) :=
  if i < 2 ^ 32 then
    if i < data.length then
      let byte := UInt8.ofNat (strtol ((data.drop i).take 2) % 256).toNat
      if i / 2 - 1 < out.length then
        integerBufferLoop data (i + 2) (out.set (i / 2 - 1) byte)
      else
        throw .outOfBounds
    else
      return out
  else
    -- The counter comes to zero again, where the index is the greatest `unsigned`.  In a
    -- buffer that has this index, the loop never ends.
    if 2 ^ 32 - 1 < out.length then throw .endless else throw .outOfBounds
  termination_by data.length - i

/-- What the loop writes from the character `i` on, and where.  The value of `strtol` becomes a
`char` in between, which has a sign. -/
def integerWrites (data : List UInt8) (i : Nat) : List (UInt8 × Nat) :=
  if i < data.length then
    let byte := Int8.ofInt (strtol ((data.drop i).take 2))
    (byte.toUInt8, i / 2 - 1) :: integerWrites data (i + 2)
  else
    []
  termination_by data.length - i

/-- `json_serializer::integer_buffer`, with the buffer that it writes to. -/
def integerBuffer (data out : List UInt8) : Except JsonFailure (List UInt8) :=
  if data.isEmpty then return out else integerBufferLoop data 2 out

/-- `integer_buffer` into an array. -/
def readArray {n : Nat} (data : List UInt8) (array : Bytes.ByteVec n) :
    Except JsonFailure (Bytes.ByteVec n) := do
  let out ← integerBuffer data array.toList
  return List.Vector.ofFn fun i => out.getD i 0

/-- `resize(length / 2 - 1)`, where the difference wraps for less than two characters. -/
def resize (data : List UInt8) : Except JsonFailure (List UInt8) :=
  if data.length < 2 then throw .lengthError else return List.replicate (data.length / 2 - 1) 0

/-- `integer_buffer` into a vector that is resized first. -/
def readVector (data : List UInt8) : Except JsonFailure (List UInt8) := do
  integerBuffer data (← resize data)

/-! ## What is written can be read -/

/-- The sizes for which a buffer survives. -/
def Survives (data : List UInt8) : Prop := 1 ≤ data.length ∧ data.length ≤ 2 ^ 31 - 2

theorem length_hexBytes (data : List UInt8) : (data.flatMap hexByte).length = 2 * data.length := by
  induction data with
  | nil => rfl
  | cons byte data ih =>
      rw [List.flatMap_cons, List.length_append, ih, List.length_cons]
      change 2 + _ = _
      omega

theorem length_hexText (data : List UInt8) :
    (hexText data).length = if 0 < data.length then 2 + 2 * data.length else 0 := by
  rw [hexText, List.length_append, length_hexBytes]
  split
  · rfl
  · simp only [List.length_nil]
    omega

theorem hexDigit_spec : ∀ digit < 16, hexValue (hexDigit digit) = some digit ∧
    Base58.isSpace (hexDigit digit) = false ∧ hexDigit digit ≠ 45 ∧ hexDigit digit ≠ 43 := by
  decide

theorem strtol_hexByte (byte : UInt8) : strtol (hexByte byte) = byte.toNat := by
  have byteLt := byte.toNat_lt
  rcases hexDigit_spec (byte.toNat / 16) (by omega) with ⟨high, space, minus, plus⟩
  rcases hexDigit_spec (byte.toNat % 16) (by omega) with ⟨low, _⟩
  have unspaced : (hexByte byte).dropWhile Base58.isSpace = hexByte byte := by
    rw [hexByte, List.dropWhile_cons, space]
    rfl
  have value : leadingDigits 0 (hexByte byte) = byte.toNat := by
    simp only [hexByte, leadingDigits, high, low]
    omega
  rw [strtol, unspaced]
  split
  · rename_i negative
    exact absurd (List.cons.inj negative).1 minus
  · rename_i positive
    exact absurd (List.cons.inj positive).1 plus
  · rw [value]

theorem hexByte_value (byte : UInt8) :
    UInt8.ofNat (strtol (hexByte byte) % 256).toNat = byte := by
  have byteLt := byte.toNat_lt
  rw [strtol_hexByte]
  have small : ((byte.toNat : Int) % 256).toNat = byte.toNat := by omega
  rw [small, UInt8.ofNat_toNat]

/-- The sign of the `char` is lost in the buffer. -/
theorem toUInt8_ofInt (value : Int) :
    (Int8.ofInt value).toUInt8 = UInt8.ofNat (value % 256).toNat := by
  have byte : (BitVec.ofInt 8 value).toNat = (value % 256).toNat := BitVec.toNat_ofInt value
  apply UInt8.toNat_inj.mp
  rw [UInt8.toNat_ofNat_of_lt' (by simp only [UInt8.size]; omega)]
  exact byte

theorem integerWrites_of_lt {text : List UInt8} {i : Nat} (goesOn : i < text.length) :
    integerWrites text i =
      (UInt8.ofNat (strtol ((text.drop i).take 2) % 256).toNat, i / 2 - 1) ::
        integerWrites text (i + 2) := by
  rw [integerWrites, if_pos goesOn]
  simp only [toUInt8_ofInt]

theorem integerWrites_of_le {text : List UInt8} {i : Nat} (ended : text.length ≤ i) :
    integerWrites text i = [] := by
  rw [integerWrites, if_neg (Nat.not_lt_of_le ended)]

/-- The loop makes its writes one after the other, if the counter reaches the end. -/
theorem integerBufferLoop_eq_replay {text : List UInt8} (length : text.length ≤ 2 ^ 32 - 2)
    {i : Nat} (small : i < 2 ^ 32) (out : List UInt8) :
    integerBufferLoop text i out =
      (replay writeAt out (integerWrites text i)).elim (.error .outOfBounds) .ok := by
  induction i, out using integerBufferLoop.induct text with
  | case1 i out _ goesOn byte room ih =>
      rw [integerBufferLoop, if_pos small, if_pos goesOn, if_pos room, ih (by omega),
        integerWrites_of_lt goesOn, replay_writeAt_of_lt room]
  | case2 i out _ goesOn full =>
      rw [integerBufferLoop, if_pos small, if_pos goesOn, if_neg full,
        integerWrites_of_lt goesOn, replay_writeAt_of_le (Nat.le_of_not_lt full)]
      rfl
  | case3 i out _ ended =>
      rw [integerBufferLoop, if_pos small, if_neg ended,
        integerWrites_of_le (Nat.le_of_not_lt ended)]
      rfl
  | case4 i out large _ | case5 i out large _ => exact absurd small large

/-- Behind the first bytes, each of the others is written to its own place. -/
theorem integerWrites_hexBytes {text todo : List UInt8} {n : Nat}
    (layout : text.drop (2 + 2 * n) = todo.flatMap hexByte)
    (length : text.length = 2 + 2 * (n + todo.length)) :
    integerWrites text (2 + 2 * n) = todo.zipIdx n := by
  induction todo generalizing n with
  | nil =>
      rw [List.length_nil] at length
      rw [integerWrites_of_le (by omega), List.zipIdx_nil]
  | cons byte todo ih =>
      rw [List.length_cons] at length
      have chunk : (text.drop (2 + 2 * n)).take 2 = hexByte byte := by
        rw [layout, List.flatMap_cons]
        exact List.take_left' rfl
      have index : (2 + 2 * n) / 2 - 1 = n := by omega
      have next : 2 + 2 * n + 2 = 2 + 2 * (n + 1) := by omega
      have layoutNext : text.drop (2 + 2 * (n + 1)) = todo.flatMap hexByte := by
        rw [← next, ← List.drop_drop, layout, List.flatMap_cons]
        exact List.drop_left' rfl
      rw [integerWrites_of_lt (by omega), chunk, hexByte_value, index, next,
        ih layoutNext (by omega), List.zipIdx_cons]

theorem drop_hexText {data : List UInt8} (nonempty : 0 < data.length) :
    (hexText data).drop 2 = data.flatMap hexByte := by
  rw [hexText, if_pos nonempty]
  exact List.drop_left' rfl

theorem length_hexText_of_pos {data : List UInt8} (nonempty : 0 < data.length) :
    (hexText data).length = 2 + 2 * data.length := by
  rw [length_hexText, if_pos nonempty]

/-- The text of a buffer that is not empty is read behind its prefix. -/
theorem integerBuffer_hexText_eq {data : List UInt8} (nonempty : 0 < data.length)
    (out : List UInt8) :
    integerBuffer (hexText data) out = integerBufferLoop (hexText data) 2 out := by
  have notEmpty : ¬ (hexText data).isEmpty = true := by
    rw [List.isEmpty_iff]
    apply List.ne_nil_of_length_pos
    rw [length_hexText_of_pos nonempty]
    exact Nat.add_pos_left Nat.two_pos _
  exact if_neg notEmpty

/-- A vector is resized to the number of bytes. -/
theorem readVector_hexText_eq {data : List UInt8} (nonempty : 0 < data.length) :
    readVector (hexText data) =
      integerBuffer (hexText data) (List.replicate data.length 0) := by
  have length := length_hexText_of_pos nonempty
  have size : (hexText data).length / 2 - 1 = data.length := by omega
  have resized : resize (hexText data) = .ok (List.replicate data.length 0) := by
    rw [resize, if_neg (by omega), size]
    rfl
  rw [readVector, resized]
  rfl

/-- The bytes of a buffer are written to the positions that they have in it. -/
theorem integerWrites_hexText (data : List UInt8) :
    integerWrites (hexText data) 2 = data.zipIdx := by
  by_cases nonempty : 0 < data.length
  · apply @integerWrites_hexBytes _ _ 0
    · exact drop_hexText nonempty
    · rw [length_hexText_of_pos nonempty, Nat.zero_add]
  · have empty : data = [] := List.eq_nil_of_length_eq_zero (Nat.eq_zero_of_not_pos nonempty)
    rw [empty]
    exact integerWrites_of_le (Nat.zero_le 2)

/-- What a text writes tells from which buffer it is. -/
theorem hexText_injective : Function.Injective hexText := by
  intro data other same
  have writes : data.zipIdx = other.zipIdx := by
    rw [← integerWrites_hexText, same, integerWrites_hexText]
  rw [← List.zipIdx_map_fst 0 data, writes, List.zipIdx_map_fst]

/-- A text that the counter can reach the end of writes its buffer. -/
theorem integerBuffer_hexText_eq_replay {data : List UInt8} (survives : Survives data)
    (out : List UInt8) :
    integerBuffer (hexText data) out =
      (replay writeAt out data.zipIdx).elim (.error .outOfBounds) .ok := by
  rcases survives with ⟨nonempty, small⟩
  have length := length_hexText_of_pos nonempty
  rw [integerBuffer_hexText_eq nonempty, integerBufferLoop_eq_replay (by omega) (by decide),
    integerWrites_hexText]

/-- A buffer that is not too large is read back into the front of another one. -/
theorem integerBuffer_hexText {data out : List UInt8} (survives : Survives data)
    (room : data.length ≤ out.length) :
    integerBuffer (hexText data) out = .ok (data ++ out.drop data.length) := by
  rw [integerBuffer_hexText_eq_replay survives, replay_zipIdx_zero room]
  rfl

theorem integerBuffer_hexText_of_length {data out : List UInt8} (survives : Survives data)
    (same : out.length = data.length) : integerBuffer (hexText data) out = .ok data := by
  rw [integerBuffer_hexText survives same.ge, ← same, List.drop_length, List.append_nil]

theorem readVector_hexText {data : List UInt8} (survives : Survives data) :
    readVector (hexText data) = .ok data := by
  rw [readVector_hexText_eq survives.1]
  exact integerBuffer_hexText_of_length survives List.length_replicate

theorem readArray_hexText {n : Nat} (positive : 1 ≤ n) (small : n ≤ 2 ^ 31 - 2)
    (data array : Bytes.ByteVec n) : readArray (hexText data.toList) array = .ok data := by
  have survives : Survives data.toList := by
    rw [Survives, data.toList_length]
    exact ⟨positive, small⟩
  have run := integerBuffer_hexText_of_length survives
    (array.toList_length.trans data.toList_length.symm)
  rw [readArray, run]
  change Except.ok _ = _
  congr 1
  apply List.Vector.ext
  intro i
  have inside : (i : Nat) < data.toList.length := by simp
  rw [List.Vector.get_ofFn, List.getD_eq_getElem?_getD, List.getElem?_eq_getElem inside,
    Option.getD_some, List.Vector.get_eq_get_toList]
  rfl

/-! ## What can be read -/

/-- The loop only ends at the end of a text that the counter can reach. -/
theorem length_of_integerBufferLoop {text : List UInt8} {i : Nat} {out written : List UInt8}
    (even : i % 2 = 0) (run : integerBufferLoop text i out = .ok written) :
    text.length ≤ 2 ^ 32 - 2 := by
  induction i, out using integerBufferLoop.induct text with
  | case1 i out small inside byte room ih =>
      rw [integerBufferLoop, if_pos small, if_pos inside, if_pos room] at run
      exact ih (by omega) run
  | case2 i out small inside outside =>
      rw [integerBufferLoop, if_pos small, if_pos inside, if_neg outside] at run
      cases run
  | case3 i out small ended => omega
  | case4 i out large wraps =>
      rw [integerBufferLoop, if_neg large, if_pos wraps] at run
      cases run
  | case5 i out large outside =>
      rw [integerBufferLoop, if_neg large, if_neg outside] at run
      cases run

/-- Only these buffers can be read back at all. -/
theorem survives_of_readVector {data read : List UInt8}
    (run : readVector (hexText data) = .ok read) : Survives data := by
  by_cases nonempty : 0 < data.length
  · rw [readVector_hexText_eq nonempty, integerBuffer_hexText_eq nonempty] at run
    have bound := length_of_integerBufferLoop rfl run
    rw [length_hexText_of_pos nonempty] at bound
    constructor
    · exact nonempty
    · omega
  · have empty : data = [] := List.eq_nil_of_length_eq_zero (by omega)
    rw [empty] at run
    cases run

end IotChain
