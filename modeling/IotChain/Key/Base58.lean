import IotChain.Bytes.LittleEndian
import IotChain.Bytes.Radix

/-!
# Base 58

`base58.cpp` keeps the digits of a number in a vector whose size it estimates from the
length of the input.  Here the vector is listed from its end, where the least significant
digit is, and a byte of it is a natural number.
-/

namespace IotChain

open IotChain.Bytes

/-- How the functions on keys end without a result: with an exception, with a failed
assertion or with something that C++ leaves undefined. -/
inductive KeyFailure
  | logicError
  | runtimeError
  | lengthError
  | assertion
  | signedOverflow
  | outOfBounds
  deriving DecidableEq, Repr

/-- The failures that a caller can catch. -/
def KeyFailure.IsException (failure : KeyFailure) : Prop :=
  failure = .logicError ∨ failure = .runtimeError ∨ failure = .lengthError

instance (failure : KeyFailure) : Decidable failure.IsException :=
  inferInstanceAs (Decidable (_ ∨ _))

namespace Base58

/-- `pszBase58`. -/
def alphabet : List UInt8 :=
  "123456789ABCDEFGHJKLMNPQRSTUVWXYZabcdefghijkmnopqrstuvwxyz".toList.map Char.toUInt8

/-- `pszBase58[digit]`. -/
def letter (digit : Nat) : UInt8 := alphabet.getD digit 0

/-- The digit `1`. -/
abbrev one : UInt8 := 49

/-- `isspace` of the C locale. -/
def isSpace (c : UInt8) : Bool := c = 32 || 9 ≤ c && c ≤ 13

/-- The counter `zeroes` is an `int`. -/
def countZeroes (zeroes : Nat) : Except KeyFailure Nat :=
  if zeroes < 2 ^ 31 then return zeroes else throw .signedOverflow

/-- The vector of `size` zeros, where `size` is an `int`. -/
def allocate (size : UInt64) : Except KeyFailure (List Nat) :=
  let size := size.toUInt32.toInt32
  if size < 0 then throw .lengthError else return List.replicate size.toNatClampNeg 0

/-- The vector from its first digit that is not zero. -/
def significant (digits : List Nat) (length : Nat) : List Nat :=
  (digits.take length).reverse.dropWhile (· = 0)

/-- The loop of `base58_encode`. -/
def encodeLoop (b58 : List Nat) (length : Nat) :
    List UInt8 → Except KeyFailure (List Nat × Nat)
  | [] => .ok (b58, length)
  | byte :: bytes =>
      let (b58, i, carry) := mulAdd 58 256 length 0 byte.toNat b58
      if carry = 0 then encodeLoop b58 i bytes else .error .assertion

/-- `base58_encode`. -/
def encode (bytes : List UInt8) : Except KeyFailure (List UInt8) := do
  let zeroes ← countZeroes (bytes.takeWhile (· = 0)).length
  let bytes := bytes.dropWhile (· = 0)
  let b58 ← allocate (UInt64.ofNat bytes.length * 138 / 100 + 1)
  let (b58, length) ← encodeLoop b58 0 bytes
  return List.replicate zeroes one ++ (significant b58 length).map letter

/-- The loop of `base58_decode`, with nothing where it returns false. -/
def decodeLoop (b256 : List Nat) (length : Nat) :
    List UInt8 → Except KeyFailure (Option (List Nat × Nat × List UInt8))
  | [] => .ok (some (b256, length, []))
  | c :: psz =>
      if isSpace c then
        .ok (some (b256, length, c :: psz))
      else
        match alphabet.idxOf? c with
        | none => .ok none
        | some ch =>
            let (b256, i, carry) := mulAdd 256 58 length 0 ch b256
            if carry = 0 then decodeLoop b256 i psz else .error .assertion

/-- `base58_decode` of the characters in front of the terminating zero, with nothing where
it returns false and leaves its vector empty. -/
def decodeChars (psz : List UInt8) : Except KeyFailure (Option (List UInt8)) := do
  let psz := psz.dropWhile isSpace
  let zeroes ← countZeroes (psz.takeWhile (· = one)).length
  let psz := psz.dropWhile (· = one)
  let b256 ← allocate (UInt64.ofNat psz.length * 733 / 1000 + 1)
  match ← decodeLoop b256 0 psz with
  | none => return none
  | some (b256, length, psz) =>
      if psz.all isSpace then
        return some (List.replicate zeroes 0 ++ (significant b256 length).map UInt8.ofNat)
      else
        return none

/-- `base58_decode` of a `std::string`. -/
def decode (str : List UInt8) : Except KeyFailure (Option (List UInt8)) :=
  decodeChars (str.takeWhile (· ≠ 0))

/-! ## Letters -/

theorem alphabet_eq : alphabet = (List.range 58).map letter := by
  decide +kernel

theorem mem_alphabet_iff {c : UInt8} : c ∈ alphabet ↔ ∃ digit < 58, letter digit = c := by
  rw [alphabet_eq, List.mem_map]
  simp only [List.mem_range]

theorem idxOf_letter : ∀ digit < 58, alphabet.idxOf? (letter digit) = some digit := by
  decide +kernel

theorem isSpace_letter : ∀ digit < 58, isSpace (letter digit) = false := by
  decide +kernel

theorem letter_ne_zero : ∀ digit < 58, letter digit ≠ 0 := by
  decide +kernel

theorem letter_eq_one_iff : ∀ digit < 58, letter digit = one ↔ digit = 0 := by
  decide +kernel

/-! ## Leading zeros -/

theorem takeWhile_replicate_append {α : Type} {test : α → Bool} {a : α} {rest : List α} {n : Nat}
    (leading : test a = true) (stop : ∀ b ∈ rest.head?, ¬ test b = true) :
    (List.replicate n a ++ rest).takeWhile test = List.replicate n a := by
  have nothing : rest.takeWhile test = [] := by
    rw [List.takeWhile_eq_nil_iff]
    intro nonempty
    exact stop _ (List.head?_eq_getElem? ▸ List.getElem?_eq_getElem nonempty)
  rw [List.takeWhile_append_of_pos, nothing, List.append_nil]
  intro b member
  rwa [List.eq_of_mem_replicate member]

theorem dropWhile_replicate_append {α : Type} {test : α → Bool} {a : α} {rest : List α} {n : Nat}
    (leading : test a = true) (stop : ∀ b ∈ rest.head?, ¬ test b = true) :
    (List.replicate n a ++ rest).dropWhile test = rest := by
  rw [List.dropWhile_append_of_pos, List.dropWhile_eq_self_iff]
  · intro nonempty
    exact stop _ (List.head?_eq_getElem? ▸ List.getElem?_eq_getElem nonempty)
  · intro b member
    rwa [List.eq_of_mem_replicate member]

/-- The leading elements that are alike, and the rest. -/
theorem replicate_append_dropWhile {α : Type} [DecidableEq α] (a : α) (list : List α) :
    List.replicate (list.takeWhile (· = a)).length a ++ list.dropWhile (· = a) = list := by
  have leading : list.takeWhile (· = a) = List.replicate (list.takeWhile (· = a)).length a := by
    apply List.eq_replicate_of_mem
    intro b member
    simpa using List.mem_takeWhile_imp member
  rw [← leading]
  exact List.takeWhile_append_dropWhile

/-! ## Sizes -/

theorem countZeroes_of_lt {zeroes : Nat} (small : zeroes < 2 ^ 31) :
    countZeroes zeroes = .ok zeroes :=
  if_pos small

theorem allocate_of_lt {size : UInt64} {n : Nat} (value : size.toNat = n)
    (small : n < 2 ^ 31) : allocate size = .ok (List.replicate n 0) := by
  have int : size.toUInt32.toInt32 = Int32.ofNat n := by
    rw [← value]
    rfl
  have nonnegative : ¬ Int32.ofNat n < 0 := by
    rw [Int32.lt_iff_toInt_lt, Int32.toInt_ofNat_of_lt small]
    simp
  rw [allocate, int, if_neg nonnegative, Int32.toNatClampNeg_ofNat_of_lt small]
  rfl

/-- A size that fits in an `int` is computed without wrapping. -/
theorem allocate_ratio {n : Nat} {p q : UInt64} (product : n * q.toNat < 2 ^ 64)
    (small : n * q.toNat / p.toNat + 1 < 2 ^ 31) :
    allocate (UInt64.ofNat n * q / p + 1) =
      .ok (List.replicate (n * q.toNat / p.toNat + 1) 0) := by
  apply allocate_of_lt
  · rw [UInt64.toNat_add, UInt64.toNat_div, UInt64.toNat_mul, UInt64.toNat_ofNat',
      Nat.mod_mul_mod, Nat.mod_eq_of_lt product]
    exact Nat.mod_eq_of_lt (small.trans (by decide))
  · exact small

/-! ## Encoding -/

theorem encodeLoop_holds {size total k length value : Nat} {b58 : List Nat}
    {bytes : List UInt8} (holds : Holds 58 size length value b58) (valueLt : value < 256 ^ k)
    (le : k + bytes.length ≤ total) (room : 256 ^ total < 58 ^ size) :
    ∃ digits last, encodeLoop b58 length bytes = .ok (digits, last) ∧
      Holds 58 size last (horner 256 value (bytes.map UInt8.toNat)) digits := by
  induction bytes generalizing k length value b58 with
  | nil => exact ⟨b58, length, rfl, holds⟩
  | cons byte bytes ih =>
      rw [List.length_cons] at le
      have byteLt := byte.toNat_lt
      have stepLt {n : Nat} := horner_step_lt (n := n) valueLt byteLt
      have fits : value * 256 + byte.toNat < 58 ^ size :=
        (stepLt (show k + 1 ≤ total by omega)).trans room
      rcases holds.mulAdd (by decide) fits with ⟨next, stop, pass, nextHolds⟩
      rcases ih nextHolds (stepLt (Nat.le_refl (k + 1))) (by omega) with
        ⟨digits, last, run, result⟩
      refine ⟨digits, last, ?_, result⟩
      rw [encodeLoop, pass]
      exact run

/-- The text of some leading zeros and a number. -/
def text (zeroes value : Nat) : List UInt8 :=
  List.replicate zeroes one ++ (Nat.digits 58 value).reverse.map letter

/-- The number that bytes denote, most significant byte first. -/
def value (bytes : List UInt8) : Nat := Nat.ofDigits 256 (bytes.map UInt8.toNat).reverse

theorem value_lt (bytes : List UInt8) : value bytes < 256 ^ bytes.length := by
  have bound := Nat.ofDigits_lt_base_pow_length (b := 256)
    (l := (bytes.map UInt8.toNat).reverse) (by decide) ?_
  · rwa [List.length_reverse, List.length_map] at bound
  · intro digit member
    rcases List.mem_map.mp (List.mem_reverse.mp member) with ⟨byte, _, rfl⟩
    exact byte.toNat_lt

theorem room_encode (n : Nat) : 256 ^ n < 58 ^ (n * 138 / 100 + 1) :=
  pow_lt_of_ratio (by decide) (by decide) (by decide) n

theorem encode_eq {zeroes : Nat} {bytes : List UInt8} (few : zeroes < 2 ^ 31)
    (short : bytes.length < 2 ^ 30) (start : ∀ byte ∈ bytes.head?, byte ≠ 0) :
    encode (List.replicate zeroes 0 ++ bytes) = .ok (text zeroes (value bytes)) := by
  have stop : ∀ byte ∈ bytes.head?, ¬ decide (byte = 0) = true := by simpa using start
  rcases encodeLoop_holds (holds_replicate (by decide) _) (show 0 < 256 ^ 0 by decide)
    (Nat.le_of_eq (Nat.zero_add _)) (room_encode bytes.length) with ⟨digits, last, run, holds⟩
  rw [horner_zero] at holds
  have allocated : allocate (UInt64.ofNat bytes.length * 138 / 100 + 1) =
      .ok (List.replicate (bytes.length * 138 / 100 + 1) 0) :=
    allocate_ratio (show bytes.length * 138 < 2 ^ 64 by omega)
      (show bytes.length * 138 / 100 + 1 < 2 ^ 31 by omega)
  rw [encode, takeWhile_replicate_append (by simp) stop,
    dropWhile_replicate_append (by simp) stop, List.length_replicate, countZeroes_of_lt few]
  simp only [allocated, run, bind, Except.bind, pure, Except.pure, significant,
    holds.significant (by decide)]
  rfl

/-! ## Decoding -/

/-- The loop stops behind the letters, with success in front of a blank or of the end. -/
theorem decodeLoop_holds {size total k length value : Nat} {b256 digits : List Nat}
    {rest : List UInt8} (holds : Holds 256 size length value b256) (valueLt : value < 58 ^ k)
    (small : ∀ digit ∈ digits, digit < 58) (le : k + digits.length ≤ total)
    (room : 58 ^ total < 256 ^ size) (stop : ∀ c ∈ rest.head?, c ∉ alphabet) :
    ∃ bytes last, decodeLoop b256 length (digits.map letter ++ rest) =
        .ok (if rest.head?.all isSpace then some (bytes, last, rest) else none) ∧
      Holds 256 size last (horner 58 value digits) bytes := by
  induction digits generalizing k length value b256 with
  | nil =>
      refine ⟨b256, length, ?_, holds⟩
      cases rest with
      | nil => rfl
      | cons c rest =>
          have foreign : alphabet.idxOf? c = none := List.idxOf?_eq_none_iff.mpr (stop c rfl)
          rw [List.map_nil, List.nil_append, decodeLoop, foreign, List.head?_cons,
            Option.all_some]
          by_cases space : isSpace c = true
          · rw [if_pos space, if_pos space]
          · rw [if_neg space, if_neg space]
  | cons digit digits ih =>
      rw [List.length_cons] at le
      have digitLt := small digit List.mem_cons_self
      have stepLt {n : Nat} := horner_step_lt (n := n) valueLt digitLt
      have fits : value * 58 + digit < 256 ^ size :=
        (stepLt (show k + 1 ≤ total by omega)).trans room
      rcases holds.mulAdd (by decide) fits with ⟨next, stopped, pass, nextHolds⟩
      rcases ih nextHolds (stepLt (Nat.le_refl (k + 1)))
        (fun other member => small other (List.mem_cons_of_mem _ member)) (by omega) with
        ⟨bytes, last, run, result⟩
      refine ⟨bytes, last, ?_, result⟩
      rw [List.map_cons, List.cons_append, decodeLoop, isSpace_letter digit digitLt,
        idxOf_letter digit digitLt]
      simp only [pass]
      exact run

/-- The bytes of some leading zeros and a number. -/
def untext (zeroes value : Nat) : List UInt8 :=
  List.replicate zeroes 0 ++ (Nat.digits 256 value).reverse.map UInt8.ofNat

theorem room_decode (n : Nat) : 58 ^ n < 256 ^ (n * 733 / 1000 + 1) :=
  pow_lt_of_ratio (by decide) (by decide) (by decide +kernel) n

theorem digit_lt {value digit : Nat} (member : digit ∈ (Nat.digits 58 value).reverse) :
    digit < 58 :=
  Nat.digits_lt_base (by decide) (List.mem_reverse.mp member)

/-- The first digit of a number is not zero. -/
theorem head_digits_ne_zero {base value digit : Nat}
    (first : digit ∈ (Nat.digits base value).reverse.head?) : digit ≠ 0 := by
  rw [List.head?_reverse] at first
  rcases List.mem_getLast?_eq_getLast first with ⟨nonempty, rfl⟩
  apply Nat.getLast_digit_ne_zero
  rintro rfl
  simp at nonempty

theorem text_chars (zeroes value : Nat) : ∀ c ∈ text zeroes value, c ≠ 0 ∧ isSpace c = false := by
  intro c member
  rcases List.mem_append.mp member with ones | letters
  · rw [List.eq_of_mem_replicate ones]
    decide
  · rcases List.mem_map.mp letters with ⟨digit, digits, rfl⟩
    exact ⟨letter_ne_zero digit (digit_lt digits), isSpace_letter digit (digit_lt digits)⟩

theorem text_stop (value : Nat) {rest : List UInt8} (stop : ∀ c ∈ rest.head?, c ∉ alphabet) :
    ∀ c ∈ ((Nat.digits 58 value).reverse.map letter ++ rest).head?,
      ¬ decide (c = one) = true := by
  intro c first
  rw [decide_eq_true_iff]
  cases digits : (Nat.digits 58 value).reverse with
  | nil =>
      rw [digits] at first
      rintro rfl
      exact stop one first (by decide)
  | cons digit others =>
      have head : digit ∈ (Nat.digits 58 value).reverse.head? := by
        rw [digits]
        rfl
      rw [digits] at first
      obtain rfl : letter digit = c := Option.some.inj first
      rw [letter_eq_one_iff digit (digit_lt (List.mem_of_mem_head? head))]
      exact head_digits_ne_zero head

/-- Decoding reads a text behind blanks.  It succeeds if there are only blanks behind it. -/
theorem decodeChars_eq {before rest : List UInt8} {zeroes value : Nat} (few : zeroes < 2 ^ 31)
    (blank : ∀ c ∈ before, isSpace c = true)
    (start : ∀ c ∈ (text zeroes value ++ rest).head?, ¬ isSpace c = true)
    (stop : ∀ c ∈ rest.head?, c ∉ alphabet)
    (short : (Nat.digits 58 value).length + rest.length < 2 ^ 31) :
    decodeChars (before ++ (text zeroes value ++ rest)) =
      .ok (if rest.all isSpace then some (untext zeroes value) else none) := by
  have unspaced : (before ++ (text zeroes value ++ rest)).dropWhile isSpace =
      List.replicate zeroes one ++ ((Nat.digits 58 value).reverse.map letter ++ rest) := by
    rw [List.dropWhile_append_of_pos blank, List.dropWhile_eq_self_iff.mpr, text,
      List.append_assoc]
    intro nonempty
    exact start _ (List.head?_eq_getElem? ▸ List.getElem?_eq_getElem nonempty)
  have size : ((Nat.digits 58 value).reverse.map letter ++ rest).length =
      (Nat.digits 58 value).length + rest.length := by
    rw [List.length_append, List.length_map, List.length_reverse]
  generalize total : (Nat.digits 58 value).length + rest.length = n at short size
  have allocated : allocate (UInt64.ofNat n * 733 / 1000 + 1) =
      .ok (List.replicate (n * 733 / 1000 + 1) 0) :=
    allocate_ratio (show n * 733 < 2 ^ 64 by omega) (show n * 733 / 1000 + 1 < 2 ^ 31 by omega)
  have small : ∀ digit ∈ (Nat.digits 58 value).reverse, digit < 58 := fun _ => digit_lt
  have le : 0 + (Nat.digits 58 value).reverse.length ≤ n := by
    rw [List.length_reverse]
    omega
  rcases decodeLoop_holds (holds_replicate (by decide) _) (show 0 < 58 ^ 0 by decide) small le
    (room_decode n) stop with ⟨bytes, last, run, holds⟩
  rw [horner_zero, List.reverse_reverse, Nat.ofDigits_digits] at holds
  rw [decodeChars, unspaced, takeWhile_replicate_append (by simp) (text_stop value stop),
    dropWhile_replicate_append (by simp) (text_stop value stop), List.length_replicate,
    countZeroes_of_lt few]
  by_cases first : rest.head?.all isSpace = true
  · rw [if_pos first] at run
    simp only [size, allocated, run, bind, Except.bind, pure, Except.pure, significant,
      holds.significant (by decide)]
    split <;> rfl
  · have later : ¬ rest.all isSpace = true := by
      intro blanks
      cases rest with
      | nil => exact first rfl
      | cons c rest => exact first (Bool.and_eq_true_iff.mp blanks).1
    rw [if_neg first] at run
    rw [if_neg later]
    simp only [size, allocated, run, bind, Except.bind, pure, Except.pure]

theorem decode_text {zeroes value : Nat} (few : zeroes < 2 ^ 31)
    (short : (Nat.digits 58 value).length < 2 ^ 31) :
    decode (text zeroes value) = .ok (some (untext zeroes value)) := by
  have chars := text_chars zeroes value
  have unterminated : (text zeroes value).takeWhile (· ≠ 0) = text zeroes value := by
    apply List.takeWhile_eq_self_iff.mpr
    intro c member
    exact decide_eq_true (chars c member).1
  have start : ∀ c ∈ (text zeroes value ++ []).head?, ¬ isSpace c = true := by
    intro c first
    rw [List.append_nil] at first
    rw [(chars c (List.mem_of_mem_head? first)).2]
    exact Bool.false_ne_true
  have decoded : decodeChars ([] ++ (text zeroes value ++ [])) = _ :=
    decodeChars_eq few (List.forall_mem_nil _) start nofun short
  rw [List.nil_append, List.append_nil] at decoded
  rw [decode, unterminated, decoded]
  rfl

/-- Bytes that do not start with zero are the digits of their number. -/
theorem digits_value {bytes : List UInt8} (start : ∀ byte ∈ bytes.head?, byte ≠ 0) :
    (Nat.digits 256 (value bytes)).reverse.map UInt8.ofNat = bytes := by
  have digits : (Nat.digits 256 (value bytes)).reverse = bytes.map UInt8.toNat := by
    apply reverse_digits_ofDigits (by decide)
    · intro digit member
      rcases List.mem_map.mp member with ⟨byte, _, rfl⟩
      exact byte.toNat_lt
    · intro digit first zero
      rw [List.head?_map] at first
      rcases Option.mem_map.mp first with ⟨byte, head, same⟩
      exact start byte head (UInt8.toNat_inj.mp (same.trans zero))
  rw [digits, List.map_map]
  have same : UInt8.ofNat ∘ UInt8.toNat = id := funext fun byte => UInt8.ofNat_toNat
  rw [same, List.map_id]

/-- Byte arrays are decoded to what was encoded. -/
theorem decode_encode {bytes : List UInt8} (short : bytes.length < 2 ^ 30) :
    ∃ text, encode bytes = .ok text ∧ decode text = .ok (some bytes) := by
  let zeroes := (bytes.takeWhile (· = 0)).length
  let rest := bytes.dropWhile (· = 0)
  have split : List.replicate zeroes 0 ++ rest = bytes := replicate_append_dropWhile 0 bytes
  have start : ∀ byte ∈ rest.head?, byte ≠ 0 := by
    intro byte first zero
    have test := List.head?_dropWhile_not (· = 0) bytes
    rw [Option.mem_def.mp first] at test
    simp [zero] at test
  have lengths := congrArg List.length split
  rw [List.length_append, List.length_replicate] at lengths
  have digits : (Nat.digits 58 (value rest)).length < 2 ^ 31 := by
    have fits := (value_lt rest).trans (room_encode rest.length)
    have few := (Nat.digits_length_le_iff (by decide) _).mpr fits
    omega
  refine ⟨text zeroes (value rest), ?_, ?_⟩
  · rw [← split]
    exact encode_eq (by omega) (by omega) start
  · rw [decode_text (by omega) digits, untext, digits_value start, split]

end Base58

end IotChain
