import IotChain.Key.Base58

/-!
# What is decoded

`base58_decode` accepts letters of its alphabet between blanks, and encoding what it has
decoded gives the letters back.  A text that it does not accept leaves the vector alone.
-/

namespace IotChain.Base58

open IotChain.Bytes

/-- `base58_decode` of a string before its terminating zero, with what is in the vector: the
result and the vector then. -/
def base58Decode (psz vch : List UInt8) : Except KeyFailure (Bool × List UInt8) := do
  let psz := psz.dropWhile isSpace
  let zeroes ← countZeroes (psz.takeWhile (· = one)).length
  let psz := psz.dropWhile (· = one)
  let b256 ← allocate (UInt64.ofNat psz.length * 733 / 1000 + 1)
  match ← decodeLoop b256 0 psz with
  | none => return (false, vch)
  | some (b256, length, psz) =>
      if psz.all isSpace then
        -- `assign` and then `push_back` for each digit
        let vch := List.replicate zeroes 0
        return (true, (significant b256 length).foldl (· ++ [UInt8.ofNat ·]) vch)
      else
        return (false, vch)

/-- `base58_decode` of a `std::string`. -/
def base58DecodeString (str vch : List UInt8) : Except KeyFailure (Bool × List UInt8) :=
  base58Decode (str.takeWhile (· ≠ 0)) vch

/-- The text consists of blanks, a body of letters of the alphabet, and blanks. -/
def Spelled (s body : List UInt8) : Prop :=
  ∃ before after, s = before ++ body ++ after ∧ (∀ c ∈ before, isSpace c = true) ∧
    (∀ c ∈ body, c ∈ alphabet) ∧ ∀ c ∈ after, isSpace c = true

/-! ## The vector -/

theorem foldl_push_back (vch : List UInt8) (digits : List Nat) :
    digits.foldl (· ++ [UInt8.ofNat ·]) vch = vch ++ digits.map UInt8.ofNat := by
  induction digits generalizing vch with
  | nil => exact (List.append_nil vch).symm
  | cons digit digits ih =>
      rw [List.foldl_cons, ih, List.append_assoc]
      rfl

/-- The vector is only touched when the result is true. -/
theorem base58Decode_eq (psz vch : List UInt8) :
    base58Decode psz vch = (decodeChars psz).map fun
      | some bytes => (true, bytes)
      | none => (false, vch) := by
  simp only [base58Decode, decodeChars, bind, Except.bind]
  cases countZeroes ((psz.dropWhile isSpace).takeWhile (· = one)).length with
  | error failure => rfl
  | ok zeroes =>
      cases allocate (UInt64.ofNat ((psz.dropWhile isSpace).dropWhile (· = one)).length *
          733 / 1000 + 1) with
      | error failure => rfl
      | ok b256 =>
          dsimp only
          cases decodeLoop b256 0 ((psz.dropWhile isSpace).dropWhile (· = one)) with
          | error failure => rfl
          | ok run =>
              rcases run with _ | ⟨b256, length, psz⟩
              · rfl
              · dsimp only
                by_cases blanks : psz.all isSpace = true
                · rw [if_pos blanks, if_pos blanks, foldl_push_back]
                  rfl
                · rw [if_neg blanks, if_neg blanks]
                  rfl

/-! ## Texts -/

/-- Letters are written for digits. -/
theorem exists_digits {letters : List UInt8} (known : ∀ c ∈ letters, c ∈ alphabet) :
    ∃ digits : List Nat, (∀ digit ∈ digits, digit < 58) ∧ digits.map letter = letters := by
  induction letters with
  | nil => exact ⟨[], List.forall_mem_nil _, rfl⟩
  | cons c letters ih =>
      rcases List.forall_mem_cons.mp known with ⟨first, others⟩
      rcases mem_alphabet_iff.mp first with ⟨digit, bound, rfl⟩
      rcases ih others with ⟨digits, bounds, rfl⟩
      exact ⟨digit :: digits, List.forall_mem_cons.mpr ⟨bound, bounds⟩, rfl⟩

/-- Any letters are the text of some leading zeros and a number. -/
theorem exists_text {body : List UInt8} (known : ∀ c ∈ body, c ∈ alphabet) :
    ∃ zeroes value, text zeroes value = body := by
  let zeroes := (body.takeWhile (· = one)).length
  have split : List.replicate zeroes one ++ body.dropWhile (· = one) = body :=
    replicate_append_dropWhile one body
  have others : ∀ c ∈ body.dropWhile (· = one), c ∈ alphabet :=
    fun c member => known c ((List.dropWhile_suffix _).mem member)
  rcases exists_digits others with ⟨digits, bounds, spelled⟩
  have start : ∀ digit ∈ digits.head?, digit ≠ 0 := by
    intro digit first zero
    have test := List.head?_dropWhile_not (· = one) body
    rw [← spelled, List.head?_map, Option.mem_def.mp first] at test
    have bound := bounds digit (List.mem_of_mem_head? first)
    simp [(letter_eq_one_iff digit bound).mpr zero] at test
  refine ⟨zeroes, Nat.ofDigits 58 digits.reverse, ?_⟩
  rw [text, reverse_digits_ofDigits (by decide) bounds start, spelled, split]

theorem length_text (zeroes value : Nat) :
    (text zeroes value).length = zeroes + (Nat.digits 58 value).length := by
  simp [text]

/-- In base 256 a number has no more digits than in base 58. -/
theorem length_digits_le (value : Nat) :
    (Nat.digits 256 value).length ≤ (Nat.digits 58 value).length := by
  have fits : value < 58 ^ (Nat.digits 58 value).length :=
    Nat.lt_base_pow_length_digits (by decide)
  apply (Nat.digits_length_le_iff (by decide) value).mpr
  exact Nat.lt_of_lt_of_le fits (Nat.pow_le_pow_left (by decide) _)

/-- The bytes of a number denote it. -/
theorem value_digits (number : Nat) :
    value ((Nat.digits 256 number).reverse.map UInt8.ofNat) = number := by
  have digits : ((Nat.digits 256 number).reverse.map UInt8.ofNat).map UInt8.toNat =
      (Nat.digits 256 number).reverse.map id := by
    rw [List.map_map]
    apply List.map_congr_left
    intro digit member
    have bound : digit < 256 := Nat.digits_lt_base (by decide) (List.mem_reverse.mp member)
    exact UInt8.toNat_ofNat_of_lt' bound
  rw [value, digits, List.map_id, List.reverse_reverse, Nat.ofDigits_digits]

/-- Encoding what a text is decoded to gives the text. -/
theorem encode_untext {zeroes value : Nat} (few : zeroes < 2 ^ 31)
    (short : (Nat.digits 58 value).length < 2 ^ 30) :
    encode (untext zeroes value) = .ok (text zeroes value) := by
  have start : ∀ byte ∈ ((Nat.digits 256 value).reverse.map UInt8.ofNat).head?, byte ≠ 0 := by
    intro byte first zero
    rw [List.head?_map] at first
    rcases Option.mem_map.mp first with ⟨digit, head, rfl⟩
    have bound : digit < 256 :=
      Nat.digits_lt_base (by decide) (List.mem_reverse.mp (List.mem_of_mem_head? head))
    have same := congrArg UInt8.toNat zero
    rw [UInt8.toNat_ofNat_of_lt' bound] at same
    exact head_digits_ne_zero head same
  have fits : ((Nat.digits 256 value).reverse.map UInt8.ofNat).length < 2 ^ 30 := by
    rw [List.length_map, List.length_reverse]
    exact Nat.lt_of_le_of_lt (length_digits_le value) short
  rw [untext, encode_eq few fits start, value_digits]

/-! ## Acceptance -/

/-- The letters that follow the leading blanks. -/
def letters (s : List UInt8) : List UInt8 := (s.dropWhile isSpace).takeWhile (· ∈ alphabet)

/-- What follows these letters. -/
def remainder (s : List UInt8) : List UInt8 := (s.dropWhile isSpace).dropWhile (· ∈ alphabet)

theorem split_letters (s : List UInt8) :
    s.takeWhile isSpace ++ (letters s ++ remainder s) = s := by
  rw [letters, remainder, List.takeWhile_append_dropWhile, List.takeWhile_append_dropWhile]

theorem not_isSpace_of_mem {c : UInt8} (member : c ∈ alphabet) : ¬ isSpace c = true := by
  rcases mem_alphabet_iff.mp member with ⟨digit, bound, rfl⟩
  rw [isSpace_letter digit bound]
  exact Bool.false_ne_true

theorem mem_of_letters {s : List UInt8} {c : UInt8} (member : c ∈ letters s) : c ∈ alphabet := by
  rw [letters] at member
  simpa using List.mem_takeWhile_imp member

/-- Letters in front of blanks are told apart from them. -/
theorem letters_append {body after : List UInt8} (known : ∀ c ∈ body, c ∈ alphabet)
    (blanks : ∀ c ∈ after, isSpace c = true) :
    letters (body ++ after) = body ∧ (remainder (body ++ after)).all isSpace = true := by
  cases body with
  | nil =>
      have nothing : after.dropWhile isSpace = [] := List.dropWhile_eq_nil_iff.mpr blanks
      rw [List.nil_append, letters, remainder, nothing]
      exact ⟨rfl, rfl⟩
  | cons c body =>
      have unspaced : (c :: body ++ after).dropWhile isSpace = c :: body ++ after :=
        List.dropWhile_cons_of_neg (not_isSpace_of_mem (known c List.mem_cons_self))
      have inside : ∀ d ∈ c :: body, decide (d ∈ alphabet) = true :=
        fun d member => decide_eq_true (known d member)
      have foreign : after.takeWhile (· ∈ alphabet) = [] := by
        cases after with
        | nil => rfl
        | cons d after =>
            apply List.takeWhile_cons_of_neg
            intro letter
            exact not_isSpace_of_mem (of_decide_eq_true letter) (blanks d List.mem_cons_self)
      rw [letters, remainder, unspaced, List.takeWhile_append_of_pos inside, foreign,
        List.dropWhile_append_of_pos inside]
      refine ⟨List.append_nil _, List.all_eq_true.mpr ?_⟩
      exact fun c member => blanks c ((List.dropWhile_suffix _).mem member)

/-- A text has one body at most, the letters that follow the leading blanks. -/
theorem spelled_iff (s body : List UInt8) :
    Spelled s body ↔ body = letters s ∧ (remainder s).all isSpace = true := by
  constructor
  · rintro ⟨before, after, rfl, blanksBefore, known, blanksAfter⟩
    have unspaced : (before ++ body ++ after).dropWhile isSpace =
        (body ++ after).dropWhile isSpace := by
      rw [List.append_assoc, List.dropWhile_append_of_pos blanksBefore]
    have parts := letters_append known blanksAfter
    rw [letters, remainder] at parts ⊢
    rw [unspaced]
    exact ⟨parts.1.symm, parts.2⟩
  · rintro ⟨rfl, blanks⟩
    refine ⟨s.takeWhile isSpace, remainder s, ?_, ?_, ?_, ?_⟩
    · rw [List.append_assoc, split_letters]
    · exact fun c member => List.mem_takeWhile_imp member
    · exact fun c => mem_of_letters
    · exact List.all_eq_true.mp blanks

/-- What is decoded are the letters that follow the leading blanks. -/
theorem decodeChars_letters {s : List UInt8} (short : s.length < 2 ^ 30) :
    ∃ bytes, decodeChars s = .ok (if (remainder s).all isSpace then some bytes else none) ∧
      encode bytes = .ok (letters s) := by
  have known : ∀ c ∈ letters s, c ∈ alphabet := fun c => mem_of_letters
  rcases exists_text known with ⟨zeroes, value, same⟩
  have lengths := congrArg List.length (split_letters s)
  rw [List.length_append, List.length_append, ← same, length_text] at lengths
  have start : ∀ c ∈ (text zeroes value ++ remainder s).head?, ¬ isSpace c = true := by
    intro c first
    have test := List.head?_dropWhile_not isSpace s
    rw [same, letters, remainder, List.takeWhile_append_dropWhile] at first
    rw [Option.mem_def.mp first] at test
    rw [test]
    exact Bool.false_ne_true
  have stop : ∀ c ∈ (remainder s).head?, c ∉ alphabet := by
    intro c first
    have test := List.head?_dropWhile_not (· ∈ alphabet) (s.dropWhile isSpace)
    rw [← remainder, Option.mem_def.mp first] at test
    simpa using test
  have blank : ∀ c ∈ s.takeWhile isSpace, isSpace c = true := fun c => List.mem_takeWhile_imp
  have run := decodeChars_eq (by omega) blank start stop (by omega)
  rw [same, split_letters] at run
  exact ⟨untext zeroes value, run, by rw [encode_untext (by omega) (by omega), same]⟩

/-! ## Both directions -/

/-- Decoding what was encoded gives the bytes, whatever was in the vector. -/
theorem base58Decode_encode (v out : List UInt8) (short : v.length < 2 ^ 30) :
    ∃ text, encode v = .ok text ∧ base58DecodeString text out = .ok (true, v) := by
  rcases decode_encode short with ⟨text, encoded, decoded⟩
  refine ⟨text, encoded, ?_⟩
  rw [decode] at decoded
  rw [base58DecodeString, base58Decode_eq, decoded]
  rfl

theorem base58Decode_encode_zeros :
    ∃ text, encode [0, 0, 1] = .ok text ∧
      base58DecodeString text [7] = .ok (true, [0, 0, 1]) :=
  base58Decode_encode _ _ (by decide)

/-- Exactly the spelled texts are accepted, and encoding the vector gives their bodies. -/
theorem base58Decode_accepts (s vch : List UInt8) (short : s.length < 2 ^ 30) :
    ∃ accepted out, base58Decode s vch = .ok (accepted, out) ∧
      (accepted = true ↔ ∃ body, Spelled s body) ∧
      (accepted = true → ∀ body, Spelled s body → encode out = .ok body) ∧
      (accepted = false → out = vch) := by
  rcases decodeChars_letters short with ⟨bytes, decoded, encoded⟩
  simp only [base58Decode_eq, decoded, spelled_iff]
  by_cases blanks : (remainder s).all isSpace = true
  · rw [if_pos blanks]
    refine ⟨true, bytes, rfl, ?_, ?_, nofun⟩
    · exact iff_of_true rfl ⟨letters s, rfl, blanks⟩
    · rintro _ body ⟨rfl, _⟩
      exact encoded
  · rw [if_neg blanks]
    refine ⟨false, vch, rfl, ?_, nofun, fun _ => rfl⟩
    apply iff_of_false nofun
    rintro ⟨body, _, all⟩
    exact blanks all

theorem base58Decode_accepts_blank :
    ∃ accepted out, base58Decode [32, 49, 50, 10] [7] = .ok (accepted, out) ∧
      (accepted = true ↔ ∃ body, Spelled [32, 49, 50, 10] body) ∧
      (accepted = true → ∀ body, Spelled [32, 49, 50, 10] body → encode out = .ok body) ∧
      (accepted = false → out = [7]) :=
  base58Decode_accepts _ _ (by decide)

end IotChain.Base58
