import IotChain.Key.Grammar

/-!
# What is carried

Both conversions estimate the size of their vector from the length of the input.  At every
point of the input the vector holds the number read so far, and a pass for the next digit
carries nothing out of it.
-/

namespace IotChain.Base58

open IotChain.Bytes

/-- The size that `base58_encode` estimates for `n` bytes. -/
def encodeSize (n : Nat) : Nat := n * 138 / 100 + 1

/-- The size that `base58_decode` estimates for `n` characters. -/
def decodeSize (n : Nat) : Nat := n * 733 / 1000 + 1

/-- The number that letters denote, most significant digit first. -/
def letterValue (letters : List UInt8) : Nat :=
  Nat.ofDigits 58 (letters.map (alphabet.idxOf ·)).reverse

/-- The vector holds a number, and nothing is carried out of it if a digit comes next. -/
structure Carries (base factor size value : Nat) (next : Option Nat) (digits : List Nat)
    (length : Nat) : Prop where
  holds : Holds base size length value digits
  carry : ∀ digit ∈ next, (mulAdd base factor length 0 digit digits).2.2 = 0

/-- There is room for all digits of the input, and so for the next one. -/
theorem carries_of_room {base factor size value k n length : Nat} {next : Option Nat}
    {digits : List Nat} (positive : 0 < base) (holds : Holds base size length value digits)
    (valueLt : value < factor ^ k) (room : factor ^ n < base ^ size)
    (follows : ∀ digit ∈ next, digit < factor ∧ k + 1 ≤ n) :
    Carries base factor size value next digits length where
  holds := holds
  carry := by
    intro digit comes
    rcases follows digit comes with ⟨digitLt, le⟩
    have fits := (horner_step_lt valueLt digitLt le).trans room
    rcases holds.mulAdd positive fits with ⟨rest, stop, pass, -⟩
    rw [pass]

/-! ## Bytes -/

theorem carries_encode (before after : List UInt8) :
    ∃ digits length,
      encodeLoop (List.replicate (encodeSize (before ++ after).length) 0) 0 before =
        .ok (digits, length) ∧
      Carries 58 256 (encodeSize (before ++ after).length) (value before)
        (after.head?.map UInt8.toNat) digits length := by
  have room := room_encode (before ++ after).length
  have le : 0 + before.length ≤ (before ++ after).length := by
    rw [List.length_append]
    omega
  rcases encodeLoop_holds (holds_replicate (by decide) _) (show 0 < 256 ^ 0 by decide) le room
    with ⟨digits, length, run, holds⟩
  rw [horner_zero] at holds
  refine ⟨digits, length, run, carries_of_room (by decide) holds (value_lt before) room ?_⟩
  intro digit comes
  rcases Option.mem_map.mp comes with ⟨byte, first, rfl⟩
  cases after with
  | nil => cases first
  | cons byte after =>
      rw [List.length_append, List.length_cons]
      exact ⟨UInt8.toNat_lt _, by omega⟩

/-! ## Letters -/

theorem idxOf_letter_eq : ∀ digit < 58, alphabet.idxOf (letter digit) = digit := by
  decide +kernel

theorem letter_idxOf {c : UInt8} (known : c ∈ alphabet) :
    alphabet.idxOf c < 58 ∧ letter (alphabet.idxOf c) = c := by
  rcases mem_alphabet_iff.mp known with ⟨digit, bound, rfl⟩
  rw [idxOf_letter_eq digit bound]
  exact ⟨bound, rfl⟩

theorem lt_of_idxOf {c : UInt8} {digit : Nat} (found : alphabet.idxOf? c = some digit) :
    digit < 58 := by
  by_cases known : c ∈ alphabet
  · rcases mem_alphabet_iff.mp known with ⟨other, bound, rfl⟩
    rw [idxOf_letter other bound] at found
    rwa [← Option.some.inj found]
  · rw [List.idxOf?_eq_none_iff.mpr known] at found
    cases found

theorem letterValue_lt {letters : List UInt8} (known : ∀ c ∈ letters, c ∈ alphabet) :
    letterValue letters < 58 ^ letters.length := by
  have bound := Nat.ofDigits_lt_base_pow_length (b := 58)
    (l := (letters.map (alphabet.idxOf ·)).reverse) (by decide) ?_
  · rwa [List.length_reverse, List.length_map] at bound
  · intro digit member
    rcases List.mem_map.mp (List.mem_reverse.mp member) with ⟨c, first, rfl⟩
    exact (letter_idxOf (known c first)).1

theorem carries_decode {before : List UInt8} (known : ∀ c ∈ before, c ∈ alphabet)
    (after : List UInt8) :
    ∃ digits length,
      decodeLoop (List.replicate (decodeSize (before ++ after).length) 0) 0 before =
        .ok (some (digits, length, [])) ∧
      Carries 256 58 (decodeSize (before ++ after).length) (letterValue before)
        (after.head?.bind (alphabet.idxOf? ·)) digits length := by
  have room := room_decode (before ++ after).length
  let digits := before.map (alphabet.idxOf ·)
  have spelled : digits.map letter = before := by
    rw [List.map_map]
    exact (List.map_congr_left fun c member => (letter_idxOf (known c member)).2).trans
      (List.map_id before)
  have small : ∀ digit ∈ digits, digit < 58 := by
    intro digit member
    rcases List.mem_map.mp member with ⟨c, first, rfl⟩
    exact (letter_idxOf (known c first)).1
  have le : 0 + digits.length ≤ (before ++ after).length := by
    rw [List.length_map, List.length_append]
    omega
  have nothing : ∀ c ∈ ([] : List UInt8).head?, c ∉ alphabet := nofun
  rcases decodeLoop_holds (holds_replicate (by decide) _) (show 0 < 58 ^ 0 by decide) small le
    room nothing with ⟨bytes, length, run, holds⟩
  rw [horner_zero] at holds
  rw [List.append_nil, spelled] at run
  refine ⟨bytes, length, run, ?_⟩
  apply carries_of_room (by decide) holds (letterValue_lt known) room
  intro digit comes
  rcases Option.bind_eq_some_iff.mp comes with ⟨c, first, found⟩
  cases after with
  | nil => cases first
  | cons c after =>
      rw [List.length_append, List.length_cons]
      exact ⟨lt_of_idxOf found, by omega⟩

/-! ## The functions -/

theorem allocate_sizes {n : Nat} (short : n < 2 ^ 30) :
    allocate (UInt64.ofNat n * 138 / 100 + 1) = .ok (List.replicate (encodeSize n) 0) ∧
      allocate (UInt64.ofNat n * 733 / 1000 + 1) = .ok (List.replicate (decodeSize n) 0) := by
  constructor
  · exact allocate_ratio (show n * 138 < 2 ^ 64 by omega)
      (show n * 138 / 100 + 1 < 2 ^ 31 by omega)
  · exact allocate_ratio (show n * 733 < 2 ^ 64 by omega)
      (show n * 733 / 1000 + 1 < 2 ^ 31 by omega)

/-- The vectors of both conversions suffice.  Behind any first part of any input, they hold
the number that was read, and nothing is carried out of them next.  They have the estimated
sizes as long as these are an `int`, and so no assertion fails. -/
theorem buffers_suffice :
    (∀ before after : List UInt8, ∃ digits length,
        encodeLoop (List.replicate (encodeSize (before ++ after).length) 0) 0 before =
          .ok (digits, length) ∧
        Carries 58 256 (encodeSize (before ++ after).length) (value before)
          (after.head?.map UInt8.toNat) digits length) ∧
      (∀ before after : List UInt8, (∀ c ∈ before, c ∈ alphabet) → ∃ digits length,
        decodeLoop (List.replicate (decodeSize (before ++ after).length) 0) 0 before =
          .ok (some (digits, length, [])) ∧
        Carries 256 58 (decodeSize (before ++ after).length) (letterValue before)
          (after.head?.bind (alphabet.idxOf? ·)) digits length) ∧
      ∀ n < 2 ^ 30,
        allocate (UInt64.ofNat n * 138 / 100 + 1) = .ok (List.replicate (encodeSize n) 0) ∧
        allocate (UInt64.ofNat n * 733 / 1000 + 1) = .ok (List.replicate (decodeSize n) 0) ∧
        ∀ input : List UInt8, input.length = n →
          encode input ≠ .error .assertion ∧ decodeChars input ≠ .error .assertion := by
  refine ⟨carries_encode, fun before after known => carries_decode known after, ?_⟩
  intro n short
  rcases allocate_sizes short with ⟨encoding, decoding⟩
  refine ⟨encoding, decoding, ?_⟩
  rintro input rfl
  rcases decode_encode short with ⟨text, encoded, -⟩
  rcases decodeChars_letters short with ⟨bytes, decoded, -⟩
  rw [encoded, decoded]
  exact ⟨nofun, nofun⟩

end IotChain.Base58
